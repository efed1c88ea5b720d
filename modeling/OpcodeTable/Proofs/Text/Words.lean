import Mathlib
import OpcodeTable.Text

/-!
# Words and lines

How texts are cut: into lines at their breaks, and a line where a word ends or blanks stand.
-/

namespace OpcodeTable

/-! ## Lines joined and read back

Lines that hold no line feed, and do not end with a carriage return, are found again in the
text that they are joined to.
-/

namespace Line

/-- A line that a break can end: it holds none, and its last character does not belong to
one. -/
def Unbroken (line : List Char) : Prop := '\n' ∉ line ∧ line.getLast? ≠ some '\r'

/-- A line feed ends the line that it follows, and the next one starts anew. -/
theorem linesAfter_append_break {line : List Char} (hline : '\n' ∉ line)
    (taken rest : List Char) :
    linesAfter taken (line ++ '\n' :: rest) =
      chomped (line.reverse ++ taken) :: linesAfter [] rest := by
  induction line generalizing taken with
  | nil => simp [linesAfter]
  | cons c line ih =>
      obtain ⟨hc, htail⟩ := not_or.1 (mt List.mem_cons.2 hline)
      rw [List.cons_append, linesAfter, if_neg (Ne.symm hc), ih htail]
      simp

theorem chomped_reverse {line : List Char} (hlast : line.getLast? ≠ some '\r') :
    chomped line.reverse = line := by
  unfold chomped
  split
  next taken htaken =>
    rw [List.getLast?_eq_head?_reverse, htaken] at hlast
    exact absurd rfl hlast
  next => exact List.reverse_reverse line

theorem join_cons (line : String) (lines : List String) :
    join (line :: lines) = line ++ "\n" ++ join lines := by
  simp [join]

theorem join_append (front back : List String) :
    join (front ++ back) = join front ++ join back := by
  simp only [join, List.map_append, String.join_append]

theorem toList_join_cons (line : String) (lines : List String) :
    (join (line :: lines)).toList = line.toList ++ '\n' :: (join lines).toList := by
  simp [join_cons]

/-- The lines of a joined text are the lines that were joined. -/
theorem lines_join {parts : List String} (hparts : ∀ line ∈ parts, Unbroken line.toList) :
    lines (join parts).toList = parts.map String.toList := by
  induction parts with
  | nil => rfl
  | cons line parts ih =>
      obtain ⟨⟨hfeed, hlast⟩, htail⟩ := List.forall_mem_cons.1 hparts
      rw [lines, toList_join_cons, linesAfter_append_break hfeed, List.append_nil,
        chomped_reverse hlast, List.map_cons]
      exact congrArg _ (ih htail)

/-- The end of a line decides whether a carriage return belongs to its break. -/
theorem unbroken_append {front back : List Char} (hfront : '\n' ∉ front)
    (hback : Unbroken back) (hne : back ≠ []) : Unbroken (front ++ back) := by
  constructor
  · rw [List.mem_append, not_or]
    exact ⟨hfront, hback.1⟩
  · rw [List.getLast?_append, List.getLast?_eq_some_getLast hne, Option.some_or,
      ← List.getLast?_eq_some_getLast hne]
    exact hback.2

end Line

/-! ## Words among other text

The characters of a word are neither blanks nor marks.  A word is therefore cut off where the
next other character stands, and blanks can be removed around it without touching it.
-/

namespace Word

theorem isBlank_of_isWordChar {c : Char} (hc : isWordChar c = true) :
    Blank.isBlank c = false := by
  have hcode : (48 ≤ c.toNat ∧ c.toNat ≤ 57) ∨ (65 ≤ c.toNat ∧ c.toNat ≤ 90) ∨
      c.toNat = 95 ∨ (97 ≤ c.toNat ∧ c.toNat ≤ 122) := by
    simp only [isWordChar, Char.isAlphanum, Char.isAlpha, Char.isUpper, Char.isLower,
      Char.isDigit, Bool.or_eq_true, Bool.and_eq_true, decide_eq_true_eq, beq_iff_eq,
      ge_iff_le, UInt32.le_iff_toNat_le] at hc
    simp only [Char.toNat]
    rcases hc with ((hupper | hlower) | hdigit) | rfl
    · exact .inr (.inl hupper)
    · exact .inr (.inr (.inr hlower))
    · exact .inl hdigit
    · exact .inr (.inr (.inl rfl))
  simp only [Blank.isBlank, Bool.or_eq_false_iff, Bool.and_eq_false_iff,
    decide_eq_false_iff_not, beq_eq_false_iff_ne]
  omega

theorem isWordChar_of_isBlank {c : Char} (hc : Blank.isBlank c = true) :
    isWordChar c = false := by
  rw [← Bool.not_eq_true]
  intro hword
  rw [isBlank_of_isWordChar hword] at hc
  exact Bool.false_ne_true hc

theorem isWord_iff {text : List Char} :
    isWord text = true ↔ text ≠ [] ∧ ∀ c ∈ text, isWordChar c = true := by
  simp [isWord]

/-- Names are spelled with the letters and digits of ASCII and the underscore, one or more of
them. -/
structure Spelled (text : List Char) : Prop where
  nonempty : text ≠ []
  char : ∀ c ∈ text,
    ('a' ≤ c ∧ c ≤ 'z') ∨ ('A' ≤ c ∧ c ≤ 'Z') ∨ ('0' ≤ c ∧ c ≤ '9') ∨ c = '_'

theorem isWordChar_iff {c : Char} :
    isWordChar c = true ↔
      ('a' ≤ c ∧ c ≤ 'z') ∨ ('A' ≤ c ∧ c ≤ 'Z') ∨ ('0' ≤ c ∧ c ≤ '9') ∨ c = '_' := by
  simp only [isWordChar, Char.isAlphanum, Char.isAlpha, Char.isUpper, Char.isLower, Char.isDigit,
    Bool.or_eq_true, Bool.and_eq_true, decide_eq_true_eq, beq_iff_eq, Char.le_def, ge_iff_le]
  tauto

theorem isWord_iff_spelled {text : List Char} : isWord text = true ↔ Spelled text := by
  rw [isWord_iff]
  constructor
  · rintro ⟨hne, hchars⟩
    exact ⟨hne, fun c hc => isWordChar_iff.1 (hchars c hc)⟩
  · rintro ⟨hne, hchars⟩
    exact ⟨hne, fun c hc => isWordChar_iff.2 (hchars c hc)⟩

theorem isWord_append {front back : List Char} (hfront : isWord front = true)
    (hback : isWord back = true) : isWord (front ++ back) = true := by
  rw [isWord_iff] at *
  exact ⟨by simp [hfront.1], List.forall_mem_append.2 ⟨hfront.2, hback.2⟩⟩

/-- No other character stands in a word. -/
theorem not_mem_of_isWord {text : List Char} (hword : isWord text = true) {c : Char}
    (hc : isWordChar c = false) : c ∉ text := by
  intro hmem
  have hchar := (isWord_iff.1 hword).2 c hmem
  rw [hc] at hchar
  exact Bool.false_ne_true hchar

/-- A mark is found where it stands. -/
theorem after?_append (mark rest : List Char) : after? mark (mark ++ rest) = some rest :=
  after?_eq_some_iff.2 rfl

theorem after?_cons (c : Char) (rest : List Char) : after? [c] (c :: rest) = some rest :=
  after?_append [c] rest

/-- What holds up to a character and fails there is cut off at that character. -/
theorem takeWhile_append_cons {α : Type} {holds : α → Bool} {front rest : List α} {c : α}
    (hfront : ∀ other ∈ front, holds other = true) (hc : holds c = false) :
    (front ++ c :: rest).takeWhile holds = front := by
  rw [List.takeWhile_append_of_pos hfront, List.takeWhile_cons_of_neg (by simp [hc]),
    List.append_nil]

theorem dropWhile_append_cons {α : Type} {holds : α → Bool} {front rest : List α} {c : α}
    (hfront : ∀ other ∈ front, holds other = true) (hc : holds c = false) :
    (front ++ c :: rest).dropWhile holds = c :: rest := by
  rw [List.dropWhile_append_of_pos hfront, List.dropWhile_cons_of_neg (by simp [hc])]

/-- To cut a text where something fails first, and to find a character there, is to find the
character behind a front in which it holds. -/
theorem cut_iff {holds : Char → Bool} {c : Char} (hc : holds c = false)
    {text front rest : List Char} :
    text.takeWhile holds = front ∧ after? [c] (text.dropWhile holds) = some rest ↔
      (∀ other ∈ front, holds other = true) ∧ text = front ++ c :: rest := by
  rw [after?_eq_some_iff]
  constructor
  · rintro ⟨rfl, hrest⟩
    refine ⟨List.all_eq_true.1 List.all_takeWhile, ?_⟩
    rw [← List.singleton_append, ← hrest, List.takeWhile_append_dropWhile]
  · rintro ⟨hfront, rfl⟩
    exact ⟨takeWhile_append_cons hfront hc, dropWhile_append_cons hfront hc⟩

end Word

namespace Blank

/-- White space, as the 25 code points that have Unicode's property `White_Space`. -/
def White (text : List Char) : Prop :=
  ∀ c ∈ text, c.toNat ∈ [0x9, 0xA, 0xB, 0xC, 0xD, 0x20, 0x85, 0xA0, 0x1680, 0x2000, 0x2001,
    0x2002, 0x2003, 0x2004, 0x2005, 0x2006, 0x2007, 0x2008, 0x2009, 0x200A, 0x2028, 0x2029,
    0x202F, 0x205F, 0x3000]

/-- The ranges of the check are the code points one by one. -/
theorem all_isBlank_iff {text : List Char} : text.all isBlank = true ↔ White text := by
  rw [List.all_eq_true]
  refine forall₂_congr fun c _ => ?_
  simp only [isBlank, Bool.or_eq_true, Bool.and_eq_true, decide_eq_true_eq, beq_iff_eq,
    List.mem_cons, List.not_mem_nil, or_false]
  omega

theorem white_takeWhile (text : List Char) : White (text.takeWhile isBlank) :=
  all_isBlank_iff.1 List.all_takeWhile

theorem white_append {front back : List Char} :
    White (front ++ back) ↔ White front ∧ White back :=
  List.forall_mem_append

/-- A text that does not start with a blank has none to remove there. -/
theorem trimStart_cons {c : Char} (hc : isBlank c = false) (rest : List Char) :
    trimStart (c :: rest) = c :: rest :=
  List.dropWhile_cons_of_neg (by simp [hc])

theorem trimStart_blanks_append {blanks : List Char} (hblanks : White blanks) (rest : List Char) :
    trimStart (blanks ++ rest) = trimStart rest :=
  List.dropWhile_append_of_pos (List.all_eq_true.1 (all_isBlank_iff.2 hblanks))

/-- A text whose front does not consist of blanks alone loses blanks of its front only. -/
theorem trimStart_append {front : List Char} (hfront : trimStart front ≠ [])
    (back : List Char) : trimStart (front ++ back) = trimStart front ++ back := by
  rw [trimStart, List.dropWhile_append]
  simp only [trimStart] at hfront ⊢
  rw [if_neg (by simpa using hfront)]

/-- A mark is found behind blanks only. -/
theorem after?_trimStart_iff {c : Char} (hc : isBlank c = false) {mark text rest : List Char} :
    Word.after? (c :: mark) (trimStart text) = some rest ↔
      ∃ blanks, White blanks ∧ text = blanks ++ c :: (mark ++ rest) := by
  rw [Word.after?_eq_some_iff, List.cons_append]
  constructor
  · intro htrim
    refine ⟨text.takeWhile isBlank, white_takeWhile text, ?_⟩
    rw [← htrim, trimStart, List.takeWhile_append_dropWhile]
  · rintro ⟨blanks, hblanks, rfl⟩
    rw [trimStart_blanks_append hblanks, trimStart_cons hc]

theorem trimStart_of_isWord {text : List Char} (hword : Word.isWord text = true) :
    trimStart text = text := by
  obtain ⟨hne, hchars⟩ := Word.isWord_iff.1 hword
  cases text with
  | nil => exact absurd rfl hne
  | cons c rest =>
      exact trimStart_cons (Word.isBlank_of_isWordChar (hchars c List.mem_cons_self)) rest

theorem trimStart_word_append {word : List Char} (hword : Word.isWord word = true)
    (rest : List Char) : trimStart (word ++ rest) = word ++ rest := by
  have htrim := trimStart_of_isWord hword
  rw [trimStart_append (htrim.symm ▸ (Word.isWord_iff.1 hword).1), htrim]

/-- Blanks behind another character are all that a text loses at its end. -/
theorem trimEnd_append_cons {c : Char} (hc : isBlank c = false) {blanks : List Char}
    (hblanks : White blanks) (front : List Char) :
    trimEnd (front ++ c :: blanks) = front ++ [c] := by
  rw [← all_isBlank_iff, List.all_eq_true] at hblanks
  rw [trimEnd, List.reverse_append, List.reverse_cons, List.append_assoc,
    List.dropWhile_append_of_pos (by simpa using hblanks), List.singleton_append,
    List.dropWhile_cons_of_neg (by simp [hc]), List.reverse_cons, List.reverse_reverse]

theorem trimEnd_word_append {word blanks : List Char} (hword : Word.isWord word = true)
    (hblanks : White blanks) : trimEnd (word ++ blanks) = word := by
  obtain ⟨hne, hchars⟩ := Word.isWord_iff.1 hword
  obtain rfl | ⟨front, c, rfl⟩ := List.eq_nil_or_concat' word
  · exact absurd rfl hne
  · have hc := Word.isBlank_of_isWordChar (hchars c (by simp))
    rw [List.append_assoc, List.singleton_append, trimEnd_append_cons hc hblanks]

/-- What is removed at the end of a text is blank. -/
theorem exists_eq_trimEnd_append (text : List Char) :
    ∃ blanks, White blanks ∧ text = trimEnd text ++ blanks := by
  refine ⟨(text.reverse.takeWhile isBlank).reverse, ?_, ?_⟩
  · rw [← all_isBlank_iff, List.all_reverse]
    exact List.all_takeWhile
  · rw [trimEnd, ← List.reverse_append, List.takeWhile_append_dropWhile, List.reverse_reverse]

/-- A word is what trimming leaves if there are only blanks around it. -/
theorem trim_eq_iff {text word : List Char} (hword : Word.isWord word = true) :
    trim text = word ↔
      ∃ before behind, White before ∧ White behind ∧ text = before ++ (word ++ behind) := by
  constructor
  · rintro rfl
    obtain ⟨behind, hbehind, hend⟩ := exists_eq_trimEnd_append (trimStart text)
    refine ⟨text.takeWhile isBlank, behind, white_takeWhile text, hbehind, ?_⟩
    rw [trim, ← hend, trimStart, List.takeWhile_append_dropWhile]
  · rintro ⟨before, behind, hbefore, hbehind, rfl⟩
    rw [trim, trimStart_blanks_append hbefore, trimStart_word_append hword,
      trimEnd_word_append hword hbehind]

end Blank

end OpcodeTable
