import OpcodeTable.CommandLine.Outcome
import OpcodeTable.Proofs.Keys
import OpcodeTable.Proofs.Text.Numerals

/-!
# Key arguments

A key can be given on the command line in hexadecimal behind its mark or in decimal.  In
hexadecimal the numbers are those of listings, except that a plus sign may stand between the mark
and the digits.  A number that no key has is told from a text that is no number of 16 bits.
-/

namespace OpcodeTable.CommandLine

open Numeral (Decimal Signed hexValue?)

/-- An argument is read as a number: as the key with that slot, or as out of range if there is no
such key. -/
inductive ReadsAs (text : String) (number : BitVec 16) : Prop
  | key {key : Key} (hslot : key.slot = number) (hread : readKey text = .ok key)
  | outOfRange (hrange : Key.count ≤ number.toNat)
      (hread : readKey text = .error (.outOfRange ⟨number⟩))

/-- An argument is refused because it is no number. -/
def NotNumber (text : String) : Prop := ∃ fault, readKey text = .error (.notNumber text fault)

/-- The forms in which an argument gives a number.  Decimal digits have no mark before them, so that
no argument has both forms. -/
inductive Gives : List Char → BitVec 16 → Prop
  | hexadecimal {signed digits : List Char} {number : BitVec 16} (hsigned : Signed signed digits)
      (hread : hexValue? ('0' :: 'x' :: digits) = some number) : Gives ('0' :: 'x' :: signed) number
  | decimal {text digits : List Char} {number : BitVec 16} (hsigned : Signed text digits)
      (hdigits : Decimal digits number) : Gives text number

/-- Behind the mark stand the digits that the strict reader takes, with or without a sign. -/
theorem gives_marked_iff {rest : List Char} {number : BitVec 16} :
    Gives ('0' :: 'x' :: rest) number ↔
      ∃ digits, Signed rest digits ∧ hexValue? ('0' :: 'x' :: digits) = some number := by
  constructor
  · intro hgives
    cases hgives with
    | hexadecimal hsigned hread => exact ⟨_, hsigned, hread⟩
    | decimal hsigned hdigits => exact absurd hsigned hdigits.not_signed_marked
  · rintro ⟨digits, hsigned, hread⟩
    exact .hexadecimal hsigned hread

/-- Without the mark of hexadecimal only the decimal form is left. -/
theorem gives_unmarked_iff {text : List Char} {number : BitVec 16}
    (hmark : ∀ rest, text ≠ '0' :: 'x' :: rest) :
    Gives text number ↔ ∃ digits, Signed text digits ∧ Decimal digits number := by
  constructor
  · intro hgives
    cases hgives with
    | hexadecimal _ _ => exact absurd rfl (hmark _)
    | decimal hsigned hdigits => exact ⟨_, hsigned, hdigits⟩
  · rintro ⟨digits, hsigned, hdigits⟩
    exact .decimal hsigned hdigits

theorem argumentNumber_eq_ok_iff {text : List Char} {number : BitVec 16} :
    argumentNumber text = .ok number.toNat ↔ Gives text number := by
  have hlt : number.toNat < 65536 := number.isLt
  unfold argumentNumber
  split
  next digits =>
    simp only [gives_marked_iff, Numeral.hexValue?, Numeral.hexDigits?_eq_some_iff,
      Numeral.hexadecimal_iff_figures,
      Numeral.read_eq_ok_iff (show 0 < 16 by decide) (Nat.le_refl 16) (show 0 < 65536 by decide),
      hlt, and_true]
  next hmark =>
    simp only [gives_unmarked_iff hmark, Numeral.decimal_iff_figures,
      Numeral.read_eq_ok_iff (show 0 < 10 by decide) (show 10 ≤ 16 by decide)
        (show 0 < 65536 by decide), hlt, and_true]

theorem argumentNumber_lt {text : List Char} {value : Nat}
    (hread : argumentNumber text = .ok value) : value < 65536 := by
  unfold argumentNumber at hread
  split at hread <;>
  · obtain ⟨_, -, -, hlt⟩ := (Numeral.read_eq_ok_iff (by decide) (by decide) (by decide)).1 hread
    exact hlt

/-- Either an argument has no number, or it is read as the number that it has. -/
theorem readKey_cases (text : String) :
    (∃ fault, argumentNumber text.toList = .error fault ∧
        readKey text = .error (.notNumber text fault)) ∨
      ∃ number : BitVec 16,
        argumentNumber text.toList = .ok number.toNat ∧ ReadsAs text number := by
  cases hargument : argumentNumber text.toList with
  | error fault =>
    refine .inl ⟨fault, rfl, ?_⟩
    rw [readKey, hargument]
  | ok value =>
    have hvalue : (BitVec.ofNat 16 value).toNat = value :=
      Nat.mod_eq_of_lt (argumentNumber_lt hargument)
    refine .inr ⟨BitVec.ofNat 16 value, by rw [hvalue], ?_⟩
    by_cases hlt : (BitVec.ofNat 16 value).toNat < Key.count
    · obtain ⟨key, hslot⟩ := Key.exists_slot_eq hlt
      refine .key hslot ?_
      simp only [readKey, hargument, ← hslot, Key.ofIndex_slot]
    · have hrange := Nat.not_lt.1 hlt
      refine .outOfRange hrange ?_
      simp only [readKey, hargument, Key.ofIndex_of_le hrange]

/-- A key shows its number, and so does the fault of a number that is no key's. -/
theorem ReadsAs.unique {text : String} {left right : BitVec 16} (hleft : ReadsAs text left)
    (hright : ReadsAs text right) : left = right := by
  cases hleft with
  | key hslot hread =>
    cases hright with
    | key hother hagain =>
      rw [hread] at hagain
      cases hagain
      exact hslot.symm.trans hother
    | outOfRange _ hagain =>
      rw [hread] at hagain
      cases hagain
  | outOfRange _ hread =>
    cases hright with
    | key _ hagain =>
      rw [hread] at hagain
      cases hagain
    | outOfRange _ hagain =>
      rw [hread] at hagain
      cases hagain
      rfl

theorem ReadsAs.not_notNumber {text : String} {number : BitVec 16} (hreads : ReadsAs text number) :
    ¬NotNumber text := by
  rintro ⟨fault, hfault⟩
  cases hreads with
  | key _ hread =>
    rw [hread] at hfault
    cases hfault
  | outOfRange _ hread =>
    rw [hread] at hfault
    cases hfault

theorem readsAs_iff {text : String} {number : BitVec 16} :
    ReadsAs text number ↔ Gives text.toList number := by
  rw [← argumentNumber_eq_ok_iff]
  obtain ⟨fault, hargument, hread⟩ | ⟨other, hargument, hother⟩ := readKey_cases text
  · rw [hargument]
    constructor
    · exact fun hreads => absurd ⟨fault, hread⟩ hreads.not_notNumber
    · rintro ⟨⟩
  · constructor
    · intro hreads
      rw [hargument, hother.unique hreads]
    · intro hok
      rw [hargument, Except.ok.injEq] at hok
      exact BitVec.eq_of_toNat_eq hok ▸ hother

theorem notNumber_iff {text : String} :
    NotNumber text ↔ ∀ number, ¬Gives text.toList number := by
  constructor
  · intro hnot number hgives
    exact (readsAs_iff.2 hgives).not_notNumber hnot
  · intro hnone
    obtain ⟨fault, -, hread⟩ | ⟨number, -, hreads⟩ := readKey_cases text
    · exact ⟨fault, hread⟩
    · exact absurd (readsAs_iff.1 hreads) (hnone number)

theorem readKey_eq_ok_iff {text : String} {key : Key} :
    readKey text = .ok key ↔ Gives text.toList key.slot := by
  rw [← readsAs_iff]
  constructor
  · exact ReadsAs.key rfl
  · intro hreads
    cases hreads with
    | key hslot hread => rwa [← Key.slot_injective hslot]
    | outOfRange hrange _ => exact absurd key.slot_lt_count (Nat.not_lt.2 hrange)

theorem readKey_eq_outOfRange_iff {text : String} {number : BitVec 16} :
    readKey text = .error (.outOfRange ⟨number⟩) ↔
      Key.count ≤ number.toNat ∧ Gives text.toList number := by
  rw [← readsAs_iff]
  constructor
  · intro hread
    obtain ⟨fault, -, hother⟩ | ⟨other, -, hreads⟩ := readKey_cases text
    · rw [hother] at hread
      cases hread
    · cases hreads with
      | key _ hother =>
        rw [hother] at hread
        cases hread
      | outOfRange hrange hother =>
        rw [hother] at hread
        cases hread
        exact ⟨hrange, .outOfRange hrange hother⟩
  · rintro ⟨hrange, hreads⟩
    cases hreads with
    | key hslot _ =>
      rw [← hslot] at hrange
      exact absurd (Key.slot_lt_count _) (Nat.not_lt.2 hrange)
    | outOfRange _ hread => exact hread

/-- The reader of listings and the reader of arguments agree up to a sign: what the first one
takes, the second one takes as the same number, and behind the mark it takes no more than that and
the same digits behind a plus sign.  Without the mark it takes decimal digits, with or without a
sign.  A number that no key has is told from all other texts, which are no numbers. -/
theorem key_readers_agree (text : String) :
    (∀ number, hexValue? text.toList = some number → ReadsAs text number) ∧
    (∀ rest, text.toList = '0' :: 'x' :: rest → ¬NotNumber text →
      ∃ number, ReadsAs text number ∧
        (hexValue? text.toList = some number ∨
          ∃ digits, rest = '+' :: digits ∧ hexValue? ('0' :: 'x' :: digits) = some number)) ∧
    ((∀ rest, text.toList ≠ '0' :: 'x' :: rest) →
      (∀ key, readKey text = .ok key ↔
        ∃ digits, Signed text.toList digits ∧ Decimal digits key.slot) ∧
      ∀ number, readKey text = .error (.outOfRange ⟨number⟩) ↔
        Key.count ≤ number.toNat ∧
          ∃ digits, Signed text.toList digits ∧ Decimal digits number) ∧
    (NotNumber text ↔ ∀ number, ¬Gives text.toList number) := by
  refine ⟨fun number hread => ?strict, fun rest htext hnumber => ?marked,
    fun hmark => ⟨fun key => ?key, fun number => ?outOfRange⟩, notNumber_iff⟩
  case strict =>
    obtain ⟨digits, htext, -⟩ := Numeral.hexValue?_eq_some_iff.1 hread
    rw [htext] at hread
    rw [readsAs_iff, htext]
    exact .hexadecimal (.inl rfl) hread
  case marked =>
    rw [notNumber_iff, not_forall_not] at hnumber
    obtain ⟨number, hgives⟩ := hnumber
    refine ⟨number, readsAs_iff.2 hgives, ?_⟩
    rw [htext] at hgives ⊢
    obtain ⟨digits, rfl | rfl, hread⟩ := gives_marked_iff.1 hgives
    · exact .inl hread
    · exact .inr ⟨digits, rfl, hread⟩
  case key => rw [readKey_eq_ok_iff, gives_unmarked_iff hmark]
  case outOfRange => rw [readKey_eq_outOfRange_iff, gives_unmarked_iff hmark]

/-- Digits in either case behind the mark, the same digits behind a sign, and a number in decimal
that no key has. -/
theorem key_readers_agree_signed :
    ReadsAs "0x1fF" 0x1ff ∧
    (∃ number, ReadsAs "0x+1fF" number ∧
      (hexValue? "0x+1fF".toList = some number ∨
        ∃ digits, "+1fF".toList = '+' :: digits ∧
          hexValue? ('0' :: 'x' :: digits) = some number)) ∧
    readKey "+00512" = .error (.outOfRange ⟨512⟩) := by
  have hsigned : ¬NotNumber "0x+1fF" := by
    rintro ⟨fault, hfault⟩
    have hread : readKey "0x+1fF" = .ok (Key.ofSlot 0x1ff) := by decide
    rw [hread] at hfault
    cases hfault
  have hmark : ∀ rest, "+00512".toList ≠ '0' :: 'x' :: rest := by
    rintro rest ⟨⟩
  have hdecimal : Decimal ['0', '0', '5', '1', '2'] 512 := ⟨by decide, by simp, by decide⟩
  exact ⟨(key_readers_agree "0x1fF").1 _ (by decide),
    (key_readers_agree "0x+1fF").2.1 _ rfl hsigned,
    (((key_readers_agree "+00512").2.2.1 hmark).2 _).2 ⟨by decide, _, .inr rfl, hdecimal⟩⟩

end OpcodeTable.CommandLine
