import OpcodeTable.Text

/-!
# Expansion of initializers

What a declared table means to a compiler: the definitions of the repetitions are read from
their lines, the invocations in the body are replaced until none is left, and the elements
between the commas are the entries of the table.
-/

namespace OpcodeTable

/-! ## Tokens

The words and marks that a line of code consists of.  Blanks separate words and are no
tokens, and two slashes start a comment.
-/

inductive Token where
  | word (text : String)
  | mark (c : Char)
deriving DecidableEq, Repr

namespace Token

def text : Token → String
  | word text => text
  | mark c => String.singleton c

/-- The word that ends where its characters `taken` end, which stand last one first. -/
def closed (taken : List Char) : List Token :=
  if taken = [] then [] else [word (String.ofList taken.reverse)]

/-- The tokens of a text that goes on after the characters `taken` of a word, which stand
last one first. -/
def tokensAfter (taken : List Char) : List Char → List Token
  | [] => closed taken
  | c :: tail =>
    if Word.isWordChar c then tokensAfter (c :: taken) tail
    else if Blank.isBlank c then closed taken ++ tokensAfter [] tail
    else closed taken ++ mark c :: tokensAfter [] tail

def tokens (text : List Char) : List Token := tokensAfter [] text

/-- The part of a line before its comment, and the comment if there is one. -/
def splitComment : List Char → List Char × Option (List Char)
  | '/' :: '/' :: comment => ([], some comment)
  | [] => ([], none)
  | c :: tail =>
    let (code, comment) := splitComment tail
    (c :: code, comment)

end Token

/-! ## Definitions and invocations -/

/-- A definition that is invoked with arguments: its body stands for the invocation, with
the arguments in the places of the parameters. -/
structure Definition where
  name : String
  parameters : List String
  body : List Token
deriving DecidableEq, Repr

namespace Expansion

open Token (word mark)

/-- Reads arguments up to the parenthesis that closes them, and gives them with what
follows.  `depth` counts the parentheses open inside the argument being read, of which
`argument` has been read.  Commas inside parentheses do not separate arguments. -/
def argumentsFrom (depth : Nat) (argument : List Token) :
    List Token → Option (List (List Token) × List Token)
  | [] => none
  | token :: rest =>
    if token = mark '(' then argumentsFrom (depth + 1) (argument ++ [token]) rest
    else if token = mark ')' then
      match depth with
      | 0 => some ([argument], rest)
      | depth + 1 => argumentsFrom depth (argument ++ [token]) rest
    else if token = mark ',' ∧ depth = 0 then
      (argumentsFrom 0 [] rest).map fun (arguments, rest) => (argument :: arguments, rest)
    else argumentsFrom depth (argument ++ [token]) rest

/-- Reading arguments uses up tokens, of which the closing parenthesis is one. -/
theorem length_of_argumentsFrom {depth : Nat} {argument tokens rest : List Token}
    {arguments : List (List Token)}
    (hread : argumentsFrom depth argument tokens = some (arguments, rest)) :
    rest.length < tokens.length := by
  induction tokens generalizing depth argument arguments with
  | nil => simp [argumentsFrom] at hread
  | cons token tail ih =>
    unfold argumentsFrom at hread
    split at hread
    · exact Nat.lt_succ_of_lt (ih hread)
    split at hread
    · split at hread
      · cases hread
        simp
      · exact Nat.lt_succ_of_lt (ih hread)
    split at hread
    · obtain ⟨⟨given, left⟩, hgiven, heq⟩ := Option.map_eq_some_iff.1 hread
      cases heq
      exact Nat.lt_succ_of_lt (ih hgiven)
    · exact Nat.lt_succ_of_lt (ih hread)

/-- The name of a parameter, which is a word alone. -/
def parameter? : List Token → Option String
  | [word name] => some name
  | _ => none

/-- The word a text starts with, behind blanks, and what follows it. -/
def firstWord (text : List Char) : List Char × List Char :=
  let text := Blank.trimStart text
  (text.takeWhile Word.isWordChar, text.dropWhile Word.isWordChar)

/-- The definition that a line consists of.  Its parameters open right behind its name: a
parenthesis that blanks separate from the name is where the body of a plain definition
begins, and a plain definition is not invoked. -/
def definition? (line : List Char) : Option Definition := do
  let (directive, named) := firstWord (← Word.after? ['#'] (Blank.trimStart line))
  if String.ofList directive ≠ "define" then none
  else
    let (name, rest) := firstWord named
    let inside ← Word.after? ['('] rest
    let (parameters, body) ← argumentsFrom 0 [] (Token.tokens inside)
    let parameters ← parameters.mapM parameter?
    if name = [] then none else some { name := String.ofList name, parameters, body }

/-- The body of a definition with arguments in the places of the parameters. -/
def substitute (definition : Definition) (arguments : List (List Token)) : List Token :=
  definition.body.flatMap fun token =>
    match token with
    | word name => ((definition.parameters.zip arguments).lookup name).getD [token]
    | mark _ => [token]

/-- An invocation at the start of tokens, and the tokens behind it. -/
structure Invocation where
  definition : Definition
  arguments : List (List Token)
  rest : List Token
deriving DecidableEq, Repr

/-- The invocation that tokens start with, if they start with the name of a definition and
as many arguments as it has parameters. -/
def invocation? (definitions : List Definition) : List Token → Option Invocation
  | word name :: mark '(' :: tail => do
    let definition ← definitions.find? (·.name == name)
    let (arguments, rest) ← argumentsFrom 0 [] tail
    if arguments.length = definition.parameters.length then
      some { definition, arguments, rest }
    else none
  | _ => none

/-- What brings an expansion to its end: the definition invoked is one that its own body no longer
has, and behind the invocation there are fewer tokens. -/
theorem mem_of_invocation? {definitions : List Definition} {tokens : List Token}
    {found : Invocation} (hfound : invocation? definitions tokens = some found) :
    found.definition ∈ definitions ∧ found.rest.length < tokens.length := by
  unfold invocation? at hfound
  split at hfound
  next name tail =>
    simp only [Option.bind_eq_bind, Option.bind_eq_some_iff] at hfound
    obtain ⟨definition, hfind, ⟨arguments, rest⟩, hread, hlength⟩ := hfound
    split at hlength
    · cases hlength
      have hrest := length_of_argumentsFrom hread
      refine ⟨List.mem_of_find?_eq_some hfind, ?_⟩
      simp only [List.length_cons]
      omega
    · simp at hlength
  next => simp at hfound

/-- Replaces invocations from the left.  What an invocation is replaced with is expanded in
turn, and there its own definition is not invoked again, so that expansion comes to an
end. -/
def expand (definitions : List Definition) (tokens : List Token) : List Token :=
  match tokens with
  | [] => []
  | token :: tail =>
    match _hfound : invocation? definitions (token :: tail) with
    | none => token :: expand definitions tail
    | some found =>
      expand (definitions.erase found.definition)
          (substitute found.definition found.arguments) ++
        expand definitions found.rest
termination_by (definitions.length, tokens.length)
decreasing_by
  · exact Prod.Lex.right _ (by simp)
  · have hmem := (mem_of_invocation? _hfound).1
    have hpos := List.length_pos_of_mem hmem
    refine Prod.Lex.left _ _ ?_
    rw [List.length_erase_of_mem hmem]
    omega
  · exact Prod.Lex.right _ (mem_of_invocation? _hfound).2

@[simp]
theorem expand_nil (definitions : List Definition) : expand definitions [] = [] := by
  rw [expand]

theorem expand_of_none {definitions : List Definition} {token : Token}
    {tail : List Token} (hnone : invocation? definitions (token :: tail) = none) :
    expand definitions (token :: tail) = token :: expand definitions tail := by
  rw [expand]
  split
  · rfl
  · simp_all

/-- An invocation gives way to its expansion, in which its own definition is out of use. -/
theorem expand_of_some {definitions : List Definition} {token : Token}
    {tail : List Token} {found : Invocation}
    (hsome : invocation? definitions (token :: tail) = some found) :
    expand definitions (token :: tail) =
      expand (definitions.erase found.definition)
          (substitute found.definition found.arguments) ++
        expand definitions found.rest := by
  rw [expand]
  split
  · simp_all
  · rename_i found' hfound
    rw [hsome] at hfound
    cases hfound
    rfl

/-- The parts of tokens between commas outside parentheses.  A comma at the end starts no
part. -/
def elements (tokens : List Token) : List (List Token) :=
  match argumentsFrom 0 [] (tokens ++ [mark ')']) with
  | none => []
  | some (parts, _) => if parts.getLast? = some [] then parts.dropLast else parts

/-- The names that tokens invoke: the words with a parenthesis behind them. -/
def invoked : List Token → List String
  | word name :: mark '(' :: tail => name :: invoked tail
  | _ :: tail => invoked tail
  | [] => []

/-- The text of tokens, without blanks. -/
def text (tokens : List Token) : String := String.join (tokens.map Token.text)

def isOpening (line : List Char) : Bool :=
  (Token.tokens line).getLast? == some (mark '\x7b')

def isClosing (line : List Char) : Bool :=
  Token.tokens line == [mark '\x7d', mark ';']

/-- The lines between the one that opens the table and the one that closes it. -/
def bodyLines (lines : List (List Char)) : List (List Char) :=
  ((lines.dropWhile (!isOpening ·)).drop 1).takeWhile (!isClosing ·)

def bodyTokens (lines : List (List Char)) : List Token :=
  (bodyLines lines).flatMap fun line => Token.tokens (Token.splitComment line).1

def definitions (lines : List (List Char)) : List Definition :=
  lines.filterMap definition?

/-- The elements of a declared table. -/
def tableElements (declaration : String) : List String :=
  let lines := Line.lines declaration.toList
  (elements (expand (definitions lines) (bodyTokens lines))).map text

end Expansion

end OpcodeTable
