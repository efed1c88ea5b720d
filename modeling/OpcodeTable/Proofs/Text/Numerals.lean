import OpcodeTable.Proofs.Text.Words
import OpcodeTable.Text

/-!
# Numerals read back

A number written in upper-case hexadecimal, with as many leading zeros as asked for, reads
back as the same number.  The slot texts of tables are therefore read back as their slots.  The
reader of arguments accepts just the texts that consist of digits, or of digits behind a plus sign,
and stand for a number below its limit.
-/

namespace OpcodeTable.Numeral

/-- The digit that stands for a value below sixteen counts for that value. -/
theorem digit?_toUpper_digitChar {value : Nat} (hvalue : value < 16) :
    digit? 16 (Nat.digitChar value).toUpper = some value := by
  have hall : ∀ value : Fin 16, digit? 16 (Nat.digitChar value).toUpper = some value.val := by
    decide
  exact hall ⟨value, hvalue⟩

/-- One more digit multiplies a number by the base and is added. -/
theorem valueOf_append_singleton (base : Nat) (digits : List Char) (c : Char) :
    valueOf base (digits ++ [c]) = base * valueOf base digits + (digit? base c).getD 0 := by
  simp [valueOf]

theorem valueOf_zeros_append (count : Nat) (digits : List Char) :
    valueOf 16 (List.replicate count '0' ++ digits) = valueOf 16 digits := by
  induction count with
  | zero => rfl
  | succ count ih =>
      rw [List.replicate_succ, List.cons_append]
      exact ih

def upperDigits (value : Nat) : List Char := (Nat.toDigits 16 value).map Char.toUpper

theorem upperDigits_eq (value : Nat) :
    upperDigits value =
      if value < 16 then [(Nat.digitChar value).toUpper]
      else upperDigits (value / 16) ++ [(Nat.digitChar (value % 16)).toUpper] := by
  rw [upperDigits, Nat.toDigits_eq_if (by decide)]
  split
  · rfl
  · simp [upperDigits]

/-- A number is the value of its digits. -/
theorem valueOf_upperDigits (value : Nat) : valueOf 16 (upperDigits value) = value := by
  induction value using Nat.strongRecOn with
  | ind value ih =>
      rw [upperDigits_eq]
      split
      next hsmall => simp [valueOf, digit?_toUpper_digitChar hsmall]
      next hlarge =>
        have hdigit := digit?_toUpper_digitChar (Nat.mod_lt value (y := 16) (by decide))
        rw [valueOf_append_singleton, ih (value / 16) (by omega), hdigit, Option.getD_some]
        exact Nat.div_add_mod value 16

theorem isHexDigit_of_mem_upperDigits {value : Nat} {c : Char}
    (hc : c ∈ upperDigits value) : isHexDigit c = true := by
  induction value using Nat.strongRecOn with
  | ind value ih =>
      rw [upperDigits_eq] at hc
      split at hc
      next hsmall =>
        rw [List.mem_singleton.1 hc, isHexDigit, digit?_toUpper_digitChar hsmall]
        rfl
      next hlarge =>
        rcases List.mem_append.1 hc with hfront | hlast
        · exact ih (value / 16) (by omega) hfront
        · have hdigit := digit?_toUpper_digitChar (Nat.mod_lt value (y := 16) (by decide))
          rw [List.mem_singleton.1 hlast, isHexDigit, hdigit]
          rfl

theorem toList_upperHex (width value : Nat) :
    (upperHex width value).toList =
      List.replicate (width - (upperDigits value).length) '0' ++ upperDigits value := by
  rw [upperHex, String.toList_ofList]
  rfl

/-- A number is read back from its hexadecimal digits, however wide they are made. -/
theorem valueOf_upperHex (width value : Nat) :
    valueOf 16 (upperHex width value).toList = value := by
  rw [toList_upperHex, valueOf_zeros_append, valueOf_upperDigits]

theorem isHexDigit_of_mem_upperHex {width value : Nat} {c : Char}
    (hc : c ∈ (upperHex width value).toList) : isHexDigit c = true := by
  rw [toList_upperHex] at hc
  rcases List.mem_append.1 hc with hzero | hdigit
  · rw [List.eq_of_mem_replicate hzero]
    rfl
  · exact isHexDigit_of_mem_upperDigits hdigit

theorem upperHex_ne_nil (width value : Nat) : (upperHex width value).toList ≠ [] := by
  rw [toList_upperHex, upperDigits]
  simp [Nat.toDigits_ne_nil]

theorem toList_slotText (slot : Nat) :
    (slotText slot).toList = '0' :: 'x' :: (upperHex 3 slot).toList := by
  rw [slotText, String.toList_append]
  rfl

/-- The text of a slot number of 16 bits reads back as that number. -/
theorem hexValue?_slotText {slot : Nat} (hslot : slot < 65536) :
    hexValue? (slotText slot).toList = some (BitVec.ofNat 16 slot) := by
  have hdigits : (upperHex 3 slot).toList.all isHexDigit = true :=
    List.all_eq_true.2 fun _ hc => isHexDigit_of_mem_upperHex hc
  rw [toList_slotText, hexValue?, hexDigits?, valueOf_upperHex,
    if_pos ⟨upperHex_ne_nil 3 slot, hdigits, hslot⟩]

/-- Characters are ordered by their codes. -/
theorem char_le_iff {left right : Char} : left ≤ right ↔ left.toNat ≤ right.toNat := Iff.rfl

/-- The digits of a base, by their codes. -/
theorem isSome_digit?_iff {base : Nat} {c : Char} :
    (digit? base c).isSome = true ↔
      (48 ≤ c.toNat ∧ c.toNat ≤ 57 ∧ c.toNat - 48 < base) ∨
        (97 ≤ c.toNat ∧ c.toNat ≤ 122 ∧ c.toNat - 97 + 10 < base) ∨
          (65 ≤ c.toNat ∧ c.toNat ≤ 90 ∧ c.toNat - 65 + 10 < base) := by
  have hfilter (value : Nat) : ((some value).filter (· < base)).isSome = true ↔ value < base := by
    by_cases hvalue : value < base <;> simp [hvalue]
  simp only [digit?, digitValue?, char_le_iff, Char.reduceToNat]
  split
  next => rw [hfilter]; omega
  next =>
    split
    next => rw [hfilter]; omega
    next =>
      split
      next => rw [hfilter]; omega
      next =>
        simp only [Option.filter_none, Option.isSome_none, Bool.false_eq_true, false_iff]
        omega

/-- The digits of hexadecimal are those of decimal and six letters in either case. -/
theorem isHexDigit_iff {c : Char} :
    isHexDigit c = true ↔
      ('0' ≤ c ∧ c ≤ '9') ∨ ('a' ≤ c ∧ c ≤ 'f') ∨ ('A' ≤ c ∧ c ≤ 'F') := by
  simp only [isHexDigit, isSome_digit?_iff, char_le_iff, Char.reduceToNat]
  omega

theorem isSome_digit?_ten_iff {c : Char} : (digit? 10 c).isSome = true ↔ '0' ≤ c ∧ c ≤ '9' := by
  simp only [isSome_digit?_iff, char_le_iff, Char.reduceToNat]
  omega

theorem isWordChar_of_isHexDigit {c : Char} (hc : isHexDigit c = true) :
    Word.isWordChar c = true := by
  simp only [Word.isWordChar, Char.isAlphanum, Char.isAlpha, Char.isUpper, Char.isLower,
    Char.isDigit, Bool.or_eq_true, Bool.and_eq_true, decide_eq_true_eq]
  obtain ⟨hlower, hupper⟩ | ⟨hlower, hupper⟩ | ⟨hlower, hupper⟩ := isHexDigit_iff.1 hc
  · exact .inl (.inr ⟨hlower, hupper⟩)
  · exact .inl (.inl (.inr ⟨hlower, hupper.trans (by decide)⟩))
  · exact .inl (.inl (.inl ⟨hlower, hupper.trans (by decide)⟩))

/-- What a digit counts for: its place among the digits of hexadecimal. -/
def figure (c : Char) : Nat := "0123456789abcdef".toList.idxOf c.toLower

/-- The reader counts a digit for its place among the digits. -/
theorem digit?_eq_figure {base : Nat} (hbase : base ≤ 16) {c : Char}
    (hc : (digit? base c).isSome = true) : digit? base c = some (figure c) := by
  have hcode : c.toNat < 103 := by
    have hrange := isSome_digit?_iff.1 hc
    omega
  have hall : ∀ code < 103, isHexDigit (Char.ofNat code) = true →
      digitValue? (Char.ofNat code) = some (figure (Char.ofNat code)) := by
    decide
  have hfigure := hall c.toNat hcode
  rw [Char.ofNat_toNat] at hfigure
  obtain ⟨value, hvalue⟩ := Option.isSome_iff_exists.1 hc
  obtain ⟨hcounts, hlt⟩ := Option.filter_eq_some_iff.1 hvalue
  have hdigit : isHexDigit c = true := by
    have hsixteen : value < 16 := Nat.lt_of_lt_of_le (of_decide_eq_true hlt) hbase
    simp [isHexDigit, digit?, hcounts, hsixteen]
  rw [hvalue, ← hcounts, hfigure hdigit]

/-- A list of digits is read as the sum of what they count for in their places, of which the last
one is that of the units. -/
theorem valueOf_eq_ofDigits {base : Nat} (hbase : base ≤ 16) {digits : List Char}
    (hdigits : ∀ c ∈ digits, (digit? base c).isSome = true) :
    valueOf base digits = Nat.ofDigits base (digits.reverse.map figure) := by
  induction digits using List.reverseRecOn with
  | nil => rfl
  | append_singleton digits c ih =>
      rw [List.forall_mem_append, List.forall_mem_singleton] at hdigits
      rw [valueOf_append_singleton, ih hdigits.1, digit?_eq_figure hbase hdigits.2,
        List.reverse_append, List.reverse_singleton, List.singleton_append, List.map_cons,
        Nat.ofDigits_cons, Option.getD_some, Nat.add_comm]

/-- Digits that write a number of 16 bits in hexadecimal, with letters in either case and behind
any number of zeros. -/
structure Hexadecimal (digits : List Char) (number : BitVec 16) : Prop where
  nonempty : digits ≠ []
  digit : ∀ c ∈ digits, ('0' ≤ c ∧ c ≤ '9') ∨ ('a' ≤ c ∧ c ≤ 'f') ∨ ('A' ≤ c ∧ c ≤ 'F')
  value : Nat.ofDigits 16 (digits.reverse.map figure) = number.toNat

theorem hexDigits?_eq_some_iff {digits : List Char} {number : BitVec 16} :
    hexDigits? digits = some number ↔ Hexadecimal digits number := by
  rw [hexDigits?]
  constructor
  · intro hread
    split at hread
    next hdigits =>
      obtain ⟨hne, hall, hlt⟩ := hdigits
      rw [List.all_eq_true] at hall
      cases hread
      refine ⟨hne, fun c hc => isHexDigit_iff.1 (hall c hc), ?_⟩
      rw [← valueOf_eq_ofDigits (Nat.le_refl 16) hall, BitVec.toNat_ofNat, Nat.mod_eq_of_lt hlt]
    next => cases hread
  · rintro ⟨hne, hdigits, hvalue⟩
    have hchars : ∀ c ∈ digits, isHexDigit c = true := fun c hc => isHexDigit_iff.2 (hdigits c hc)
    have hall : digits.all isHexDigit = true := List.all_eq_true.2 hchars
    rw [← valueOf_eq_ofDigits (Nat.le_refl 16) hchars] at hvalue
    rw [hvalue, if_pos ⟨hne, hall, number.isLt⟩, BitVec.ofNat_toNat, BitVec.setWidth_eq]

/-- The strict reader takes digits behind the mark and nothing else. -/
theorem hexValue?_eq_some_iff {text : List Char} {number : BitVec 16} :
    hexValue? text = some number ↔
      ∃ digits, text = '0' :: 'x' :: digits ∧ Hexadecimal digits number := by
  constructor
  · intro hread
    unfold hexValue? at hread
    split at hread
    next digits => exact ⟨digits, rfl, hexDigits?_eq_some_iff.1 hread⟩
    next => cases hread
  · rintro ⟨digits, rfl, hdigits⟩
    exact hexDigits?_eq_some_iff.2 hdigits

/-- A hexadecimal number with its mark is a word. -/
theorem isWord_marked {digits : List Char} (hdigits : ∀ c ∈ digits, isHexDigit c = true) :
    Word.isWord ('0' :: 'x' :: digits) = true := by
  rw [Word.isWord_iff]
  refine ⟨List.cons_ne_nil _ _, List.forall_mem_cons.2 ⟨rfl, List.forall_mem_cons.2 ⟨rfl, ?_⟩⟩⟩
  exact fun c hc => isWordChar_of_isHexDigit (hdigits c hc)

theorem isWord_slotText (slot : Nat) : Word.isWord (slotText slot).toList = true := by
  rw [toList_slotText]
  exact isWord_marked fun c => isHexDigit_of_mem_upperHex

theorem Hexadecimal.isWord_marked {digits : List Char} {number : BitVec 16}
    (hdigits : Hexadecimal digits number) : Word.isWord ('0' :: 'x' :: digits) = true :=
  Numeral.isWord_marked fun c hc => isHexDigit_iff.2 (hdigits.digit c hc)

/-- The number that digits make behind the digits of another one. -/
def extend (base value : Nat) (digits : List Char) : Nat :=
  digits.foldl (fun value c => base * value + (digit? base c).getD 0) value

/-- A number only grows with its digits, so that one that has reached the limit stays there. -/
theorem le_extend {base : Nat} (hbase : 0 < base) (value : Nat) (digits : List Char) :
    value ≤ extend base value digits := by
  induction digits generalizing value with
  | nil => exact Nat.le_refl value
  | cons c digits ih =>
      calc
        value ≤ base * value := Nat.le_mul_of_pos_left value hbase
        _ ≤ base * value + (digit? base c).getD 0 := Nat.le_add_right _ _
        _ ≤ extend base value (c :: digits) := ih _

/-- Stopping at the first digit that reaches the limit refuses no number below the limit, as
further digits do not make the number smaller. -/
theorem accumulate_eq_ok_iff {base limit value number : Nat} {digits : List Char}
    (hbase : 0 < base) (hvalue : value < limit) :
    accumulate base limit value digits = .ok number ↔
      (∀ c ∈ digits, (digit? base c).isSome = true) ∧ extend base value digits = number ∧
        number < limit := by
  induction digits generalizing value with
  | nil =>
      constructor
      · rintro ⟨⟩
        exact ⟨by simp, rfl, hvalue⟩
      · rintro ⟨-, rfl, -⟩
        rfl
  | cons c digits ih =>
      rw [accumulate, List.forall_mem_cons]
      cases hdigit : digit? base c with
      | none => simp
      | some digit =>
          have hextend : extend base value (c :: digits) =
              extend base (base * value + digit) digits := by
            rw [extend, List.foldl_cons, hdigit, Option.getD_some, extend]
          have hsome : (some digit).isSome = true := rfl
          simp only [hextend, hsome, true_and]
          split
          next hlt => exact ih hlt
          next hle =>
            constructor
            · rintro ⟨⟩
            · rintro ⟨-, rfl, hlt⟩
              exact absurd (Nat.lt_of_le_of_lt (le_extend hbase _ _) hlt) hle

/-- One or more digits of a base, and the number that they stand for. -/
structure Figures (base : Nat) (digits : List Char) (number : Nat) : Prop where
  nonempty : digits ≠ []
  digit : ∀ c ∈ digits, (digit? base c).isSome = true
  value : Nat.ofDigits base (digits.reverse.map figure) = number

/-- A text is some digits, or has them behind a plus sign. -/
def Signed (text digits : List Char) : Prop := text = digits ∨ text = '+' :: digits

theorem accumulate_zero_eq_ok_iff {base limit number : Nat} {digits : List Char}
    (hbase : 0 < base) (hle : base ≤ 16) (hlimit : 0 < limit) (hdigits : digits ≠ []) :
    accumulate base limit 0 digits = .ok number ↔ Figures base digits number ∧ number < limit := by
  rw [accumulate_eq_ok_iff hbase hlimit]
  constructor
  · rintro ⟨hall, hvalue, hlt⟩
    exact ⟨⟨hdigits, hall, (valueOf_eq_ofDigits hle hall).symm.trans hvalue⟩, hlt⟩
  · rintro ⟨⟨-, hall, hvalue⟩, hlt⟩
    exact ⟨hall, (valueOf_eq_ofDigits hle hall).trans hvalue, hlt⟩

theorem Figures.head_ne_plus {base number : Nat} {digits : List Char}
    (hfigures : Figures base digits number) : digits.head? ≠ some '+' := by
  intro hplus
  have hsome := hfigures.digit '+' (List.mem_of_mem_head? hplus)
  have hnone : digitValue? '+' = none := by decide
  rw [digit?, hnone] at hsome
  cases hsome

/-- The reader of arguments takes the digits of a number below its limit, with or without a plus
sign, and nothing else. -/
theorem read_eq_ok_iff {base limit number : Nat} {text : List Char} (hbase : 0 < base)
    (hle : base ≤ 16) (hlimit : 0 < limit) :
    read base limit text = .ok number ↔
      ∃ digits, Signed text digits ∧ Figures base digits number ∧ number < limit := by
  constructor
  · intro hread
    unfold read at hread
    split at hread
    · cases hread
    · cases hread
    next digits hne =>
      have hdigits : digits ≠ [] := by
        rintro rfl
        exact hne rfl
      exact ⟨digits, .inr rfl, (accumulate_zero_eq_ok_iff hbase hle hlimit hdigits).1 hread⟩
    next hne _ _ =>
      exact ⟨text, .inl rfl, (accumulate_zero_eq_ok_iff hbase hle hlimit hne).1 hread⟩
  · rintro ⟨digits, hsigned, hfigures, hlt⟩
    have haccumulate := (accumulate_zero_eq_ok_iff hbase hle hlimit hfigures.nonempty).2
      ⟨hfigures, hlt⟩
    obtain ⟨c, rest, rfl⟩ := List.exists_cons_of_ne_nil hfigures.nonempty
    rcases hsigned with rfl | rfl
    · rw [read]
      · exact haccumulate
      · simp
      · rintro ⟨rfl, -⟩
        exact hfigures.head_ne_plus rfl
      · rintro digits ⟨rfl, -⟩
        exact hfigures.head_ne_plus rfl
    · rw [read]
      · exact haccumulate
      · simp

/-- Digits that write a number of 16 bits in decimal, behind any number of zeros. -/
structure Decimal (digits : List Char) (number : BitVec 16) : Prop where
  nonempty : digits ≠ []
  digit : ∀ c ∈ digits, '0' ≤ c ∧ c ≤ '9'
  value : Nat.ofDigits 10 (digits.reverse.map figure) = number.toNat

theorem decimal_iff_figures {digits : List Char} {number : BitVec 16} :
    Decimal digits number ↔ Figures 10 digits number.toNat := by
  constructor
  · rintro ⟨hne, hdigits, hvalue⟩
    exact ⟨hne, fun c hc => isSome_digit?_ten_iff.2 (hdigits c hc), hvalue⟩
  · rintro ⟨hne, hdigits, hvalue⟩
    exact ⟨hne, fun c hc => isSome_digit?_ten_iff.1 (hdigits c hc), hvalue⟩

/-- A decimal number has no mark of hexadecimal. -/
theorem Decimal.not_signed_marked {digits rest : List Char} {number : BitVec 16}
    (hdigits : Decimal digits number) : ¬Signed ('0' :: 'x' :: rest) digits := by
  rintro (rfl | hplus)
  · obtain ⟨-, hle⟩ := hdigits.digit 'x' (by simp)
    exact absurd hle (by decide)
  · exact absurd (List.head_eq_of_cons_eq hplus) (by decide)

theorem hexadecimal_iff_figures {digits : List Char} {number : BitVec 16} :
    Hexadecimal digits number ↔ Figures 16 digits number.toNat := by
  constructor
  · rintro ⟨hne, hdigits, hvalue⟩
    exact ⟨hne, fun c hc => isHexDigit_iff.2 (hdigits c hc), hvalue⟩
  · rintro ⟨hne, hdigits, hvalue⟩
    exact ⟨hne, fun c hc => isHexDigit_iff.1 (hdigits c hc), hvalue⟩

end OpcodeTable.Numeral
