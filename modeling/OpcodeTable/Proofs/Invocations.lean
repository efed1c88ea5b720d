import OpcodeTable.Expansion
import OpcodeTable.Proofs.Tokens

/-!
# Invocations

How an invocation is read and replaced.  Its arguments are enclosed, so that the commas and the
parenthesis of the invocation are the only ones that end them, and its definition is the only
one of that name.  What tokens yield is what they are replaced with, whatever follows them.
-/

namespace OpcodeTable

namespace Token

def separated : List (List Token) → List Token
  | [] => []
  | [part] => part
  | part :: parts => part ++ mark ',' :: separated parts

def terminated (parts : List (List Token)) : List Token :=
  parts.flatMap fun part => part ++ [mark ',']

theorem separated_cons {parts : List (List Token)} (hne : parts ≠ []) (part : List Token) :
    separated (part :: parts) = part ++ mark ',' :: separated parts := by
  cases parts with
  | nil => exact absurd rfl hne
  | cons next parts => rfl

theorem separated_append {front back : List (List Token)} (hfront : front ≠ [])
    (hback : back ≠ []) :
    separated (front ++ back) = separated front ++ mark ',' :: separated back := by
  induction front with
  | nil => exact absurd rfl hfront
  | cons part front ih =>
      cases front with
      | nil => exact separated_cons hback part
      | cons next front =>
          have hrest := ih (List.cons_ne_nil next front)
          rw [List.cons_append, separated_cons (List.append_ne_nil_of_right_ne_nil _ hback),
            hrest, separated_cons (List.cons_ne_nil next front), List.append_assoc,
            List.cons_append]

theorem separated_append_comma {parts : List (List Token)} (hne : parts ≠ []) :
    separated parts ++ [mark ','] = terminated parts := by
  induction parts with
  | nil => exact absurd rfl hne
  | cons part parts ih =>
      cases parts with
      | nil => exact (List.append_nil _).symm
      | cons next parts =>
          have hrest := ih (List.cons_ne_nil next parts)
          rw [separated_cons (List.cons_ne_nil next parts), terminated, List.flatMap_cons,
            ← terminated, ← hrest]
          simp

/-- Repeating a repetition twice doubles it, since separated parts that are separated again are
separated as a whole. -/
theorem separated_replicate_two {count : Nat} (hpos : 0 < count) (part : List Token) :
    separated (List.replicate 2 (separated (List.replicate count part))) =
      separated (List.replicate (2 * count) part) := by
  have hne : List.replicate count part ≠ [] := by
    rw [ne_eq, List.replicate_eq_nil_iff]
    exact Nat.ne_of_gt hpos
  rw [Nat.two_mul, ← List.replicate_append_replicate, separated_append hne hne]
  rfl

/-- Behind the last comma stands an empty part. -/
theorem separated_append_nil (parts : List (List Token)) :
    separated (parts ++ [[]]) = terminated parts := by
  cases parts with
  | nil => rfl
  | cons part parts =>
      rw [separated_append (List.cons_ne_nil part parts) (List.cons_ne_nil _ _),
        ← separated_append_comma (List.cons_ne_nil part parts)]
      rfl

/-- What leaves commas alone is done to each part. -/
theorem flatMap_separated {f : Token → List Token} (hcomma : f (mark ',') = [mark ','])
    (parts : List (List Token)) :
    (separated parts).flatMap f = separated (parts.map (·.flatMap f)) := by
  induction parts with
  | nil => rfl
  | cons part parts ih =>
      cases parts with
      | nil => rfl
      | cons next parts =>
          rw [separated_cons (List.cons_ne_nil next parts), List.flatMap_append,
            List.flatMap_cons, hcomma, ih]
          rfl

end Token

namespace Expansion

open Token (word mark separated terminated)

/-- Tokens that stand inside one argument, since their parentheses match and none of their
commas is outside parentheses. -/
def Enclosed (tokens : List Token) : Prop :=
  ∀ depth taken rest,
    argumentsFrom depth taken (tokens ++ rest) = argumentsFrom depth (taken ++ tokens) rest

namespace Enclosed

theorem nil : Enclosed [] := by
  intro depth taken rest
  rw [List.append_nil, List.nil_append]

theorem append {front back : List Token} (hfront : Enclosed front) (hback : Enclosed back) :
    Enclosed (front ++ back) := by
  intro depth taken rest
  rw [List.append_assoc, hfront, hback, List.append_assoc]

theorem word (name : String) : Enclosed [.word name] := by
  intro depth taken rest
  simp [argumentsFrom]

theorem mark {c : Char} (hopen : c ≠ '(') (hclose : c ≠ ')') (hcomma : c ≠ ',') :
    Enclosed [.mark c] := by
  intro depth taken rest
  simp [argumentsFrom, hopen, hclose, hcomma]

/-- The parenthesis that opens is matched by the one that closes, and what is between them is
passed over. -/
theorem parentheses {tokens : List Token} (htokens : Enclosed tokens) :
    Enclosed (.mark '(' :: (tokens ++ [.mark ')'])) := by
  intro depth taken rest
  have hopen : argumentsFrom depth taken (.mark '(' :: (tokens ++ .mark ')' :: rest)) =
      argumentsFrom (depth + 1) (taken ++ [.mark '(']) (tokens ++ .mark ')' :: rest) := by
    simp [argumentsFrom]
  rw [List.cons_append, List.append_assoc, List.singleton_append, hopen, htokens]
  simp [argumentsFrom]

end Enclosed

/-- The arguments of an invocation are read back. -/
theorem argumentsFrom_separated {arguments : List (List Token)} (hne : arguments ≠ [])
    (henclosed : ∀ argument ∈ arguments, Enclosed argument) (rest : List Token) :
    argumentsFrom 0 [] (separated arguments ++ mark ')' :: rest) = some (arguments, rest) := by
  induction arguments with
  | nil => exact absurd rfl hne
  | cons argument arguments ih =>
      obtain ⟨hargument, htail⟩ := List.forall_mem_cons.1 henclosed
      cases arguments with
      | nil =>
          rw [separated, hargument, List.nil_append, argumentsFrom, if_neg (by decide), if_pos rfl]
      | cons next arguments =>
          have hrest := ih (List.cons_ne_nil next arguments) htail
          rw [Token.separated_cons (List.cons_ne_nil next arguments), List.append_assoc,
            List.cons_append, hargument, List.nil_append, argumentsFrom, if_neg (by decide),
            if_neg (by decide), if_pos ⟨rfl, rfl⟩, hrest]
          rfl

/-- The parts before commas are the elements. -/
theorem elements_terminated {parts : List (List Token)}
    (henclosed : ∀ part ∈ parts, Enclosed part) : elements (terminated parts) = parts := by
  have hall : ∀ part ∈ parts ++ [[]], Enclosed part := by
    rw [List.forall_mem_append, List.forall_mem_singleton]
    exact ⟨henclosed, Enclosed.nil⟩
  have hread := argumentsFrom_separated (by simp) hall []
  rw [Token.separated_append_nil] at hread
  rw [elements, hread]
  simp

/-! ### Definitions by name -/

/-- A definition is found by its name, as no other one has that name. -/
theorem find?_of_mem {definitions : List Definition} {definition : Definition}
    (hnodup : (definitions.map (·.name)).Nodup) (hmem : definition ∈ definitions) :
    definitions.find? (·.name == definition.name) = some definition := by
  induction definitions with
  | nil => simp at hmem
  | cons head tail ih =>
      rw [List.map_cons, List.nodup_cons] at hnodup
      rcases List.mem_cons.1 hmem with rfl | htail
      · exact List.find?_cons_of_pos (beq_self_eq_true _)
      · have hne : head.name ≠ definition.name := by
          intro heq
          exact hnodup.1 (heq ▸ List.mem_map_of_mem htail)
        rw [List.find?_cons_of_neg (by simpa using hne)]
        exact ih hnodup.2 htail

/-- Without one definition, the others are found as before. -/
theorem find?_erase_of_ne {definition : Definition} {name : String}
    (hne : definition.name ≠ name) (definitions : List Definition) :
    (definitions.erase definition).find? (·.name == name) =
      definitions.find? (·.name == name) := by
  induction definitions with
  | nil => rfl
  | cons head tail ih =>
      by_cases hhead : head = definition
      · rw [hhead, List.erase_cons_head, List.find?_cons_of_neg (by simpa using hne)]
      · rw [List.erase_cons_tail (by simpa using hhead), List.find?_cons, List.find?_cons, ih]

theorem nodup_names_erase {definitions : List Definition}
    (hnodup : (definitions.map (·.name)).Nodup) (definition : Definition) :
    ((definitions.erase definition).map (·.name)).Nodup :=
  hnodup.sublist (List.erase_sublist.map _)

/-! ### What tokens yield -/

/-- What tokens are replaced with, whatever follows. -/
abbrev Yields (definitions : List Definition) (tokens result : List Token) : Prop :=
  Emits (expand definitions) tokens result

/-- Where no word has a parenthesis behind it, nothing is replaced. -/
theorem expand_of_invoked_eq_nil (definitions : List Definition) {tokens : List Token}
    (hinvoked : invoked tokens = []) : expand definitions tokens = tokens := by
  induction tokens using invoked.induct with
  | case1 name tail => simp [invoked] at hinvoked
  | case2 token tail hother ih =>
      have hnone : invocation? definitions (token :: tail) = none := by
        unfold invocation?
        split
        next name tail heq =>
          obtain ⟨rfl, rfl⟩ := List.cons.inj heq
          exact absurd rfl (hother name tail rfl)
        next => rfl
      rw [invoked] at hinvoked
      · rw [expand_of_none hnone, ih hinvoked]
      · exact hother
  | case3 => exact expand_nil definitions

def call (name : String) (arguments : List (List Token)) : List Token :=
  word name :: mark '(' :: (separated arguments ++ [mark ')'])

theorem enclosed_call (name : String) {argument : List Token} (hargument : Enclosed argument) :
    Enclosed (call name [argument]) :=
  (Enclosed.word name).append hargument.parentheses

namespace Yields

variable {definitions : List Definition}

theorem mark (c : Char) : Yields definitions [.mark c] [.mark c] :=
  fun _ => expand_of_none rfl

theorem separated {α : Type} {items : List α} {tokens result : α → List Token}
    (hitems : ∀ item ∈ items, Yields definitions (tokens item) (result item)) :
    Yields definitions (Token.separated (items.map tokens))
      (Token.separated (items.map result)) := by
  induction items with
  | nil => exact Emits.nil
  | cons item items ih =>
      obtain ⟨hitem, htail⟩ := List.forall_mem_cons.1 hitems
      cases items with
      | nil => exact hitem
      | cons next items => exact hitem.append ((mark ',').append (ih htail))

theorem replicate {tokens result : List Token} (hyields : Yields definitions tokens result)
    (count : Nat) : Yields definitions (Token.separated (List.replicate count tokens))
      (Token.separated (List.replicate count result)) := by
  have hall := separated fun item (_ : item ∈ List.replicate count ()) => hyields
  rwa [List.map_replicate, List.map_replicate] at hall

/-- An invocation yields what the body of its definition yields with the arguments in it. -/
theorem call {definition : Definition} {arguments : List (List Token)} {result : List Token}
    (hfind : definitions.find? (·.name == definition.name) = some definition)
    (hne : arguments ≠ []) (henclosed : ∀ argument ∈ arguments, Enclosed argument)
    (hlength : arguments.length = definition.parameters.length)
    (hbody : expand (definitions.erase definition) (substitute definition arguments) = result) :
    Yields definitions (call definition.name arguments) result := by
  intro rest
  have hread := argumentsFrom_separated hne henclosed rest
  have hfound : invocation? definitions (Expansion.call definition.name arguments ++ rest) =
      some { definition, arguments, rest } := by
    rw [Expansion.call, List.cons_append, List.cons_append, List.append_assoc,
      List.singleton_append, invocation?, hfind, Option.bind_eq_bind, Option.bind_some, hread,
      Option.bind_eq_bind, Option.bind_some]
    exact if_pos hlength
  rw [← hbody]
  exact expand_of_some hfound

end Yields

/-- The names that tokens invoke, whatever follows. -/
abbrev Invokes (tokens : List Token) (names : List String) : Prop := Emits invoked tokens names

namespace Invokes

theorem mark (c : Char) : Invokes [.mark c] [] := fun _ => rfl

theorem word_open (name : String) : Invokes [.word name, .mark '('] [name] := fun _ => rfl

theorem call {name : String} {arguments : List (List Token)} {names : List String}
    (harguments : Invokes (Token.separated arguments) names) :
    Invokes (call name arguments) (name :: names) := by
  have hcall := (word_open name).append (harguments.append (mark ')'))
  rwa [List.append_nil] at hcall

theorem separated {α : Type} {items : List α} {tokens : α → List Token} {names : α → List String}
    (hitems : ∀ item ∈ items, Invokes (tokens item) (names item)) :
    Invokes (Token.separated (items.map tokens)) (items.flatMap names) := by
  induction items with
  | nil => exact Emits.nil
  | cons item items ih =>
      obtain ⟨hitem, htail⟩ := List.forall_mem_cons.1 hitems
      cases items with
      | nil =>
          rw [List.flatMap_cons, List.flatMap_nil, List.append_nil]
          exact hitem
      | cons next items => exact hitem.append ((mark ',').append (ih htail))

end Invokes

end Expansion

end OpcodeTable
