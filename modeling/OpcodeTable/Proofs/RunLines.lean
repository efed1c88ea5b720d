import OpcodeTable.Proofs.RunElements
import OpcodeTable.Run

/-!
# The lines of runs

What a reader takes from the line of a run is true.  The comment of the line starts at its column,
or one blank behind the code, and it gives the slots of just those entries that the code stands for,
with a description of them.  The slots of all lines together are those of the compressed list, one
after another.
-/

namespace OpcodeTable

/-! ### Comments read back -/

namespace RunComment

open Word (after?)

theorem slot?_slotText (slot : Nat) {c : Char} (hc : Numeral.isHexDigit c = false)
    (rest : List Char) :
    slot? ((Numeral.slotText slot).toList ++ c :: rest) = some (slot, c :: rest) := by
  have hdigits : ∀ c ∈ (Numeral.upperHex 3 slot).toList, Numeral.isHexDigit c = true :=
    fun c => Numeral.isHexDigit_of_mem_upperHex
  have hmark (back : List Char) : after? ['0', 'x'] ('0' :: 'x' :: back) = some back :=
    Word.after?_append ['0', 'x'] back
  rw [slot?, Numeral.toList_slotText, List.cons_append, List.cons_append, hmark]
  simp only [Option.bind_eq_bind, Option.bind_some]
  rw [Word.takeWhile_append_cons hdigits hc, Word.dropWhile_append_cons hdigits hc,
    if_neg (Numeral.upperHex_ne_nil 3 slot), Numeral.valueOf_upperHex]

/-- The first and the last slot of a run are read back. -/
theorem slots?_slots (run : Run String) (rest : List Char) :
    slots? (run.slots.toList ++ ':' :: rest) = some (run.start, run.last, ':' :: rest) := by
  have hcolon : Numeral.isHexDigit ':' = false := by decide
  rw [slots?, Run.slots]
  split
  next hcount =>
    have hlast : run.last = run.start := by rw [Run.last, hcount]; rfl
    rw [slot?_slotText run.start hcolon, hlast]
    rfl
  next =>
    have hdash : Numeral.isHexDigit '-' = false := by decide
    have htext : "-".toList = ['-'] := by decide
    simp only [String.toList_append, htext, List.append_assoc, List.cons_append, List.nil_append]
    rw [slot?_slotText run.start hdash]
    simp only [Option.bind_eq_bind, Option.bind_some, Word.after?_cons]
    rw [slot?_slotText run.last hcolon]
    rfl

/-- The comment of a run is read back as its slots and its description, whatever names it has. -/
theorem read?_comment (run : Run String) :
    read? run.comment.toList = some (run.start, run.last, run.description) := by
  have hcolon : ": ".toList = [':', ' '] := by decide
  have hmark (back : List Char) : after? [':', ' '] (':' :: ' ' :: back) = some back :=
    Word.after?_append [':', ' '] back
  rw [read?, Run.comment_eq, String.toList_append, String.toList_append, hcolon,
    List.append_assoc, List.cons_append, List.cons_append, List.nil_append, slots?_slots]
  simp only [Option.bind_eq_bind, Option.bind_some]
  rw [hmark, Option.bind_some, String.ofList_toList]
  rfl

end RunComment

/-- What the line of a run says. -/
structure RunLine where
  /-- The code with its indentation, up to the blanks before the comment. -/
  code : List Char
  /-- What stands between the code and the comment. -/
  padding : List Char
  /-- The byte at which the comment starts. -/
  column : Nat
  first : Nat
  last : Nat
  description : String
deriving DecidableEq, Repr

namespace RunLine

open Token (word mark)

/-- Reads a line.  The first two slashes start its comment. -/
def read? (line : List Char) : Option RunLine := do
  let (front, comment?) := Token.splitComment line
  let comment ← Word.after? [' '] (← comment?)
  let (first, last, description) ← RunComment.read? comment
  let code := Blank.trimEnd front
  let padding := front.drop code.length
  return { code, padding, column := (String.ofList front).utf8ByteSize, first, last, description }

/-- Descriptions of entries: the name of all of them, or two different names in turn, singly or in
pairs. -/
inductive Describes : String → List String → Prop
  | repeated (name : String) {count : Nat} (hpos : 0 < count) :
      Describes name (List.replicate count name)
  | alternating {first second : String} (hne : first ≠ second) :
      Describes (first ++ "/" ++ second ++ " ABAB") [first, second, first, second]
  | pairwise {first second : String} (hne : first ≠ second) :
      Describes (first ++ "/" ++ second ++ " AABB") [first, first, second, second]

/-- The entries that the slots of a line have. -/
def slice (line : RunLine) (names : List String) : List String :=
  (names.drop line.first).take (line.last - line.first + 1)

/-- Lines that tell the truth about a list of names, if their comments are to start at a given
column. -/
structure Tells (config : Config) (column : Nat) (names : List String) (line : RunLine) :
    Prop where
  column_eq : line.column = max column ((String.ofList line.code).utf8ByteSize + 1)
  padding_blank : ∀ c ∈ line.padding, c = ' '
  first_le_last : line.first ≤ line.last
  length_slice : (line.slice names).length = line.last - line.first + 1
  /-- The code stands for the entries of its slots. -/
  elements_code : Expansion.elements
      (Expansion.expand (Expansion.preambleRepetitions config) (Token.tokens line.code)) =
    (line.slice names).map fun name => [word "ARM_FN", mark '(', word name, mark ')']
  /-- With the elements replaced as well, it stands for the members of an owner. -/
  members_code : Word.isWord config.owner.toList = true → config.owner ≠ "func" →
    Expansion.elements
        (Expansion.expand (Expansion.preambleDefinitions config) (Token.tokens line.code)) =
      (line.slice names).map (Expansion.member config.owner)
  /-- The comment describes the entries of its slots. -/
  describes : Describes line.description (line.slice names)

end RunLine

namespace Run

def padding (column : Nat) (run : Run String) : List Char :=
  List.replicate (max 1 (column - run.code.utf8ByteSize)) ' '

def told (column : Nat) (run : Run String) : RunLine where
  code := run.code.toList
  padding := run.padding column
  column := (run.padded column).utf8ByteSize
  first := run.start
  last := run.last
  description := run.description

theorem toList_padded (column : Nat) (run : Run String) :
    (run.padded column).toList = run.code.toList ++ run.padding column := by
  rw [padded, String.toList_append, String.toList_ofList, padding]

/-- The comment starts at its column, or one blank behind code that reaches so far. -/
theorem utf8ByteSize_padded (column : Nat) (run : Run String) :
    (run.padded column).utf8ByteSize = max column (run.code.utf8ByteSize + 1) := by
  have hblanks (count : Nat) :
      (String.ofList (List.replicate count ' ')).utf8ByteSize = count := by
    rw [String.utf8ByteSize_ofList]
    induction count with
    | zero => rfl
    | succ count ih => rw [List.replicate_succ, String.utf8Len, ih]; rfl
  rw [padded, String.utf8ByteSize_append, hblanks]
  omega

/-- The code of a run ends with its comma, and all that is removed behind it is padding. -/
theorem trimEnd_padded (column : Nat) (run : Run String) :
    Blank.trimEnd (run.padded column).toList = run.code.toList := by
  have hcomma : ",".toList = [','] := by decide
  have hblanks : Blank.White (run.padding column) := by
    intro c hc
    rw [List.eq_of_mem_replicate hc]
    decide
  obtain ⟨code, hcode⟩ := run.exists_invocation_eq
  rw [toList_padded, Run.code, hcode, ← String.append_assoc, String.toList_append, hcomma,
    List.append_assoc, List.singleton_append, Blank.trimEnd_append_cons (by decide) hblanks]

theorem read?_line {run : Run String} (hnamed : run.Named) (column : Nat) :
    RunLine.read? (run.line column).toList = some (run.told column) := by
  have hpadding : (run.padded column).toList.drop run.code.toList.length = run.padding column := by
    rw [toList_padded, List.drop_left]
  rw [RunLine.read?, Expansion.splitComment_line hnamed]
  simp only [Option.bind_eq_bind, Option.bind_some]
  rw [Word.after?_cons]
  simp only [Option.bind_some]
  rw [RunComment.read?_comment, trimEnd_padded, hpadding, String.ofList_toList]
  rfl

/-- The description of a run that there is a repetition for is true of its entries. -/
theorem describes_description {run : Run String} (hcovered : run.Covered) :
    RunLine.Describes run.description run.entries := by
  obtain ⟨start, count, shape⟩ := run
  cases shape with
  | repeated entry =>
      rw [entries_repeated]
      exact .repeated entry (Compression.pos_of_mem_blockSizes hcovered)
  | alternating first second =>
      obtain ⟨rfl, hne⟩ : count = 4 ∧ first ≠ second := hcovered
      exact .alternating hne
  | pairwise first second =>
      obtain ⟨rfl, hne⟩ : count = 4 ∧ first ≠ second := hcovered
      exact .pairwise hne

/-- The elements of the code of a run are its entries as the definitions render them. -/
theorem elements_code {definitions : List Definition} {result : String → List Token}
    (hrenders : Expansion.Renders definitions result)
    (henclosed : ∀ name, Expansion.Enclosed (result name)) {run : Run String}
    (hnamed : run.Named) (hpos : 0 < run.count) :
    Expansion.elements (Expansion.expand definitions (Token.tokens run.code.toList)) =
      run.entries.map result := by
  obtain ⟨body, hstands⟩ := Expansion.exists_stands hnamed
  have htokens := (Expansion.spells_code hstands).apply_eq rfl
  have hne : run.entries.map result ≠ [] := mt List.map_eq_nil_iff.1 (entries_ne_nil hpos)
  have hyields := (hstands.yields hrenders).append (Expansion.Yields.mark ',')
  rw [Token.separated_append_comma hne] at hyields
  rw [htokens, hyields.apply_eq (Expansion.expand_nil _),
    Expansion.elements_terminated (List.forall_mem_map.2 fun name _ => henclosed name)]

/-- The slots of a run that compression makes are those of its entries. -/
theorem slice_told {names : List String} {run : Run String} (hrun : run ∈ compress names)
    (column : Nat) : (run.told column).slice names = run.entries := by
  have htiles := tiles_compress names
  have hcount := last_sub_start (htiles.count_pos run hrun)
  rw [htiles.entries_eq hrun, expand_compress, Nat.sub_zero, ← hcount]
  rfl

theorem tells_told (config : Config) (column : Nat) {names : List String}
    (hnames : ∀ name ∈ names, Word.isWord name.toList = true) {run : Run String}
    (hrun : run ∈ compress names) : (run.told column).Tells config column names := by
  have hnamed := named_of_mem_compress hnames hrun
  have hpos := (tiles_compress names).count_pos run hrun
  have hslice := slice_told hrun column
  constructor
  · rw [told, String.ofList_toList, utf8ByteSize_padded]
  · exact fun c hc => List.eq_of_mem_replicate hc
  · exact Nat.le_add_right _ _
  · rw [hslice, length_entries]
    exact (last_sub_start hpos).symm
  · rw [hslice, Expansion.preambleRepetitions_eq]
    exact elements_code Expansion.renders_runDefinitions Expansion.enclosed_elementTokens hnamed
      hpos
  · intro howner hfunc
    rw [hslice, Expansion.preambleDefinitions, Expansion.definitions_preamble howner]
    exact elements_code (Expansion.renders_repetitions hfunc)
      (Expansion.enclosed_member config.owner) hnamed hpos
  · rw [hslice]
    exact describes_description (covered_of_mem_compress hrun)

end Run

/-- The runs of a list of words are written one on a line, and every line tells the truth.  Its
comment starts at the given column, or one byte behind the code if that reaches the column, with
nothing but blanks between them.  The slots of the comments begin with the first of the list, go on
without a gap and end with the last one.  Of each line, the code stands for the names of its slots,
and the comment describes them. -/
theorem lines_tell_truth (config : Config) (names : List String)
    (hnames : ∀ name ∈ names, Word.isWord name.toList = true) (column : Nat) :
    ∃ (text : String) (lines : List RunLine),
      writeRuns (compress names) column .unlimited = .ok ⟨text, none⟩ ∧
      (Line.lines text.toList).map RunLine.read? = lines.map some ∧
      lines.map (·.code) = (compress names).map (fun run => run.code.toList) ∧
      (∀ line ∈ lines, line.Tells config column names) ∧
      (0 < names.length → lines.head?.map (·.first) = some 0 ∧
        lines.getLast?.map (·.last) = some (names.length - 1)) ∧
      lines.IsChain fun line next => next.first = line.last + 1 := by
  have htiles := tiles_compress names
  have hnamed : ∀ run ∈ compress names, run.Named :=
    fun run hrun => Run.named_of_mem_compress hnames hrun
  refine ⟨_, (compress names).map (Run.told column), writeRuns_unlimited _ column,
    ?_, ?_, ?_, ?_, ?_⟩
  · have hunbroken : ∀ line ∈ (compress names).map (Run.line column),
        Line.Unbroken line.toList := by
      rw [List.forall_mem_map]
      exact fun run hrun => Line.unbroken_of_quiet (Run.quiet_line (hnamed run hrun) column)
    rw [Line.lines_join hunbroken, List.map_map, List.map_map, List.map_map]
    exact List.map_congr_left fun run hrun => Run.read?_line (hnamed run hrun) column
  · rw [List.map_map]
    rfl
  · exact List.forall_mem_map.2 fun run hrun => Run.tells_told config column hnames hrun
  · intro hpos
    have hne : compress names ≠ [] := by
      intro hnil
      have hexpand := expand_compress names
      rw [hnil] at hexpand
      rw [← hexpand] at hpos
      exact Nat.lt_irrefl 0 hpos
    rw [List.head?_map, List.getLast?_map, Option.map_map, Option.map_map]
    exact ⟨htiles.head?_start hne, htiles.getLast?_last hne⟩
  · rw [List.isChain_map]
    exact htiles.isChain

theorem lines_tell_truth_short :
    (∀ name ∈ ["a", "handler", "a", "handler", "b"], Word.isWord name.toList = true) ∧
      ∃ (text : String) (lines : List RunLine),
        writeRuns (compress ["a", "handler", "a", "handler", "b"]) 52 .unlimited =
            .ok ⟨text, none⟩ ∧
          (Line.lines text.toList).map RunLine.read? = lines.map some ∧
          (∀ line ∈ lines, line.Tells .standard 52 ["a", "handler", "a", "handler", "b"]) ∧
          lines.head?.map (·.first) = some 0 ∧ lines.getLast?.map (·.last) = some 4 := by
  have hnames : ∀ name ∈ ["a", "handler", "a", "handler", "b"],
      Word.isWord name.toList = true := by
    decide
  obtain ⟨text, lines, hwrite, hread, -, htell, hends, -⟩ :=
    lines_tell_truth .standard ["a", "handler", "a", "handler", "b"] hnames 52
  obtain ⟨hfirst, hlast⟩ := hends (by decide)
  exact ⟨hnames, text, lines, hwrite, hread, htell, hfirst, hlast⟩

end OpcodeTable
