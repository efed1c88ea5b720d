import OpcodeTable.Initializer
import OpcodeTable.Proofs.Compression
import OpcodeTable.Proofs.Text.Numerals

/-!
# The text of runs

The line of a run whose names are words holds nothing but word characters and a few marks, and
there is no slash before its comment.  The runs of a compressed list have no names but those of
the list.
-/

namespace OpcodeTable

/-- A text of word characters and some marks. -/
def Word.Over (marks text : List Char) : Prop := ∀ c ∈ text, isWordChar c = true ∨ c ∈ marks

namespace Word

instance (marks text : List Char) : Decidable (Over marks text) :=
  List.decidableBAll (fun c => isWordChar c = true ∨ c ∈ marks) text

@[simp]
theorem over_append {marks front back : List Char} :
    Over marks (front ++ back) ↔ Over marks front ∧ Over marks back :=
  List.forall_mem_append

theorem over_of_isWord {marks text : List Char} (hword : isWord text = true) :
    Over marks text :=
  fun c hc => .inl ((isWord_iff.1 hword).2 c hc)

theorem Over.mono {marks more text : List Char} (hover : Over marks text)
    (hmarks : marks ⊆ more) : Over more text :=
  fun c hc => (hover c hc).imp_right fun hmark => hmarks hmark

theorem Over.not_mem {marks text : List Char} (hover : Over marks text) {c : Char}
    (hc : isWordChar c = false) (hmark : c ∉ marks) : c ∉ text := by
  intro hmem
  rcases hover c hmem with hword | hin
  · rw [hc] at hword
    exact Bool.false_ne_true hword
  · exact hmark hin

end Word

/-- The marks of invocations. -/
def Run.codeMarks : List Char := [' ', '(', ')', ',']

/-- The marks of the lines of runs, with their comments. -/
def Run.lineMarks : List Char := codeMarks ++ ['/', ':', '-']

open Word (Over isWord)

def Shape.names {α : Type} : Shape α → List α
  | repeated entry => [entry]
  | alternating first second | pairwise first second => [first, second]

def Run.Named (run : Run String) : Prop := ∀ name ∈ run.shape.names, isWord name.toList = true

theorem Shape.entry_mem_names {α : Type} (shape : Shape α) (offset : Nat) :
    shape.entry offset ∈ shape.names := by
  cases shape with
  | repeated entry => exact List.mem_singleton_self entry
  | alternating first second =>
      simp only [entry, names]
      split <;> simp
  | pairwise first second =>
      simp only [entry, names]
      split <;> simp

namespace Run

variable {run : Run String}

theorem isWord_of_mem_entries (hnamed : run.Named) :
    ∀ name ∈ run.entries, isWord name.toList = true := by
  intro name hname
  obtain ⟨offset, -, rfl⟩ := List.mem_map.1 hname
  exact hnamed _ (run.shape.entry_mem_names offset)

/-- A run that a repetition exists for has no names but its entries. -/
theorem names_subset_entries {α : Type} {run : Run α} (hcovered : run.Covered) :
    run.shape.names ⊆ run.entries := by
  obtain ⟨start, count, shape⟩ := run
  cases shape with
  | repeated entry =>
      have hpos : 0 < count := Compression.pos_of_mem_blockSizes hcovered
      rw [entries_repeated]
      intro name hname
      exact List.mem_replicate.2 ⟨Nat.ne_of_gt hpos, List.mem_singleton.1 hname⟩
  | alternating first second =>
      obtain ⟨rfl, -⟩ : count = 4 ∧ first ≠ second := hcovered
      show [first, second] ⊆ [first, second, first, second]
      simp
  | pairwise first second =>
      obtain ⟨rfl, -⟩ : count = 4 ∧ first ≠ second := hcovered
      show [first, second] ⊆ [first, first, second, second]
      simp

/-- The names of runs are names of the list that they were made from. -/
theorem named_of_mem_compress {names : List String}
    (hnames : ∀ name ∈ names, isWord name.toList = true) (hrun : run ∈ compress names) :
    run.Named := by
  intro name hname
  apply hnames
  rw [← expand_compress names]
  exact List.mem_flatMap.2 ⟨run, hrun,
    names_subset_entries (covered_of_mem_compress hrun) hname⟩

theorem over_element {name : String} (hword : isWord name.toList = true) :
    Over codeMarks (element name).toList := by
  simp only [element, String.toList_append, Word.over_append]
  exact ⟨⟨by decide, Word.over_of_isWord hword⟩, by decide⟩

theorem over_listing {names : List String}
    (hnames : ∀ name ∈ names, isWord name.toList = true) :
    Over codeMarks (String.join (listing names)).toList := by
  fun_induction listing names with
  | case1 => decide
  | case2 name =>
      rw [String.join_cons, String.join_nil, String.append_empty]
      exact over_element (hnames name List.mem_cons_self)
  | case3 name tail _ ih =>
      obtain ⟨hname, htail⟩ := List.forall_mem_cons.1 hnames
      rw [String.join_cons, String.join_cons, String.toList_append, String.toList_append,
        Word.over_append, Word.over_append]
      exact ⟨over_element hname, by decide, ih htail⟩

theorem isWord_decimal (value : Nat) : isWord (toString value).toList = true := by
  rw [Nat.toString_eq_ofList_toDigits, String.toList_ofList, Word.isWord_iff]
  refine ⟨Nat.toDigits_ne_nil, fun c hc => ?_⟩
  have hdigit := Nat.isDigit_of_mem_toDigits (by decide) (by decide) hc
  simp [Word.isWordChar, Char.isAlphanum, hdigit]

/-- An invocation with two elements behind the name of a repetition and its parenthesis. -/
def pairText (opening first second : String) : String :=
  opening ++ element first ++ ", " ++ element second ++ "),"

/-- An invocation with one element behind the name of a repetition and its parenthesis. -/
def blockText (count : Nat) (entry : String) : String :=
  "REPEAT_" ++ toString count ++ "(" ++ element entry ++ "),"

inductive Form (run : Run String) : String → Prop
  | single (entry : String) (hshape : run.shape = .repeated entry) (hcount : run.count = 1) :
      Form run (element entry ++ ",")
  | block (entry : String) (hshape : run.shape = .repeated entry) (hcount : run.count ≠ 1)
      (hblock : run.count ∈ blockSizes) : Form run (blockText run.count entry)
  | alternating (first second : String) (hshape : run.shape = .alternating first second)
      (hcount : run.count = 4) : Form run (pairText "REPEAT_ALT(" first second)
  | pairwise (first second : String) (hshape : run.shape = .pairwise first second)
      (hcount : run.count = 4) : Form run (pairText "REPEAT_2ALT(" first second)
  | listed : Form run (String.join (listing run.entries) ++ ",")

/-- Every run is written in one of these forms, also one that compression does not make. -/
theorem form_invocation (run : Run String) : Form run run.invocation := by
  have hlisted : Form run (String.join (listing run.entries ++ [","])) := by
    rw [String.join_append]
    exact .listed
  have hone : ∀ piece : String, String.join [piece] = piece := by simp
  rw [invocation, pieces]
  split
  next first second hshape =>
    split
    next hcount =>
      rw [hone]
      exact .alternating first second hshape hcount
    next => exact hlisted
  next first second hshape =>
    split
    next hcount =>
      rw [hone]
      exact .pairwise first second hshape hcount
    next => exact hlisted
  next entry hshape =>
    split
    next hcount =>
      rw [hone]
      exact .single entry hshape hcount
    split
    next hcount hblock =>
      rw [hone]
      exact .block entry hshape hcount hblock
    next => exact hlisted

/-- Every invocation ends with a comma. -/
theorem exists_invocation_eq (run : Run String) : ∃ code, run.invocation = code ++ "," := by
  have hclosing : ")," = ")" ++ "," := by decide
  have hform := form_invocation run
  generalize run.invocation = text at hform ⊢
  cases hform with
  | single entry => exact ⟨_, rfl⟩
  | block entry =>
      refine ⟨"REPEAT_" ++ toString run.count ++ "(" ++ element entry ++ ")", ?_⟩
      rw [blockText, hclosing, ← String.append_assoc]
  | alternating first second =>
      refine ⟨"REPEAT_ALT(" ++ element first ++ ", " ++ element second ++ ")", ?_⟩
      rw [pairText, hclosing, ← String.append_assoc]
  | pairwise first second =>
      refine ⟨"REPEAT_2ALT(" ++ element first ++ ", " ++ element second ++ ")", ?_⟩
      rw [pairText, hclosing, ← String.append_assoc]
  | listed => exact ⟨_, rfl⟩

theorem over_pairText {opening first second : String} (hopening : Over codeMarks opening.toList)
    (hfirst : isWord first.toList = true) (hsecond : isWord second.toList = true) :
    Over codeMarks (pairText opening first second).toList := by
  simp only [pairText, String.toList_append, Word.over_append]
  exact ⟨⟨⟨⟨hopening, over_element hfirst⟩, by decide⟩, over_element hsecond⟩, by decide⟩

theorem over_blockText (count : Nat) {entry : String} (hentry : isWord entry.toList = true) :
    Over codeMarks (blockText count entry).toList := by
  simp only [blockText, String.toList_append, Word.over_append]
  exact ⟨⟨⟨⟨by decide, Word.over_of_isWord (isWord_decimal count)⟩, by decide⟩,
    over_element hentry⟩, by decide⟩

theorem over_invocation (hnamed : run.Named) : Over codeMarks run.invocation.toList := by
  have hform := form_invocation run
  rw [Named] at hnamed
  generalize run.invocation = text at hform ⊢
  cases hform with
  | single entry hshape =>
      rw [String.toList_append, Word.over_append]
      exact ⟨over_element (hnamed entry (by simp [hshape, Shape.names])), by decide⟩
  | block entry hshape =>
      exact over_blockText run.count (hnamed entry (by simp [hshape, Shape.names]))
  | alternating first second hshape =>
      exact over_pairText (by decide) (hnamed first (by simp [hshape, Shape.names]))
        (hnamed second (by simp [hshape, Shape.names]))
  | pairwise first second hshape =>
      exact over_pairText (by decide) (hnamed first (by simp [hshape, Shape.names]))
        (hnamed second (by simp [hshape, Shape.names]))
  | listed =>
      rw [String.toList_append, Word.over_append]
      exact ⟨over_listing (isWord_of_mem_entries hnamed), by decide⟩

theorem over_slots (run : Run String) : Over lineMarks run.slots.toList := by
  have hslot : ∀ slot, Over lineMarks (Numeral.slotText slot).toList :=
    fun slot => Word.over_of_isWord (Numeral.isWord_slotText slot)
  rw [slots]
  split
  · exact hslot run.start
  · simp only [String.toList_append, Word.over_append]
    exact ⟨⟨hslot run.start, by decide⟩, hslot run.last⟩

theorem over_comment (hnamed : run.Named) : Over lineMarks run.comment.toList := by
  have hslots := over_slots run
  have hname : ∀ name ∈ run.shape.names, Over lineMarks name.toList :=
    fun name hname => Word.over_of_isWord (hnamed name hname)
  rw [comment]
  split
  next entry hshape =>
    simp only [String.toList_append, Word.over_append]
    exact ⟨⟨hslots, by decide⟩, hname entry (by simp [hshape, Shape.names])⟩
  next first second hshape =>
    simp only [String.toList_append, Word.over_append]
    exact ⟨⟨⟨⟨⟨hslots, by decide⟩, hname first (by simp [hshape, Shape.names])⟩, by decide⟩,
      hname second (by simp [hshape, Shape.names])⟩, by decide⟩
  next first second hshape =>
    simp only [String.toList_append, Word.over_append]
    exact ⟨⟨⟨⟨⟨hslots, by decide⟩, hname first (by simp [hshape, Shape.names])⟩, by decide⟩,
      hname second (by simp [hshape, Shape.names])⟩, by decide⟩

/-- What the comment of a run says of its entries. -/
def description (run : Run String) : String :=
  match run.shape with
  | .repeated entry => entry
  | .alternating first second => first ++ "/" ++ second ++ " ABAB"
  | .pairwise first second => first ++ "/" ++ second ++ " AABB"

theorem comment_eq (run : Run String) : run.comment = run.slots ++ ": " ++ run.description := by
  obtain ⟨start, count, shape⟩ := run
  cases shape with
  | repeated entry => rfl
  | alternating first second => simp only [comment, description, String.append_assoc]
  | pairwise first second => simp only [comment, description, String.append_assoc]

def padded (column : Nat) (run : Run String) : String :=
  run.code ++ String.ofList (List.replicate (max 1 (column - run.code.utf8ByteSize)) ' ')

theorem line_eq (column : Nat) (run : Run String) :
    run.line column = run.padded column ++ "// " ++ run.comment := rfl

theorem over_padded (hnamed : run.Named) (column : Nat) :
    Over codeMarks (run.padded column).toList := by
  rw [padded, code, String.toList_append, String.toList_append, Word.over_append,
    Word.over_append]
  refine ⟨⟨by decide, over_invocation hnamed⟩, fun c hc => .inr ?_⟩
  rw [String.toList_ofList] at hc
  rw [List.eq_of_mem_replicate hc]
  decide

theorem over_line (hnamed : run.Named) (column : Nat) :
    Over lineMarks (run.line column).toList := by
  simp only [line_eq, String.toList_append, Word.over_append]
  exact ⟨⟨(over_padded hnamed column).mono (List.subset_append_left _ _), by decide⟩,
    over_comment hnamed⟩

end Run

end OpcodeTable
