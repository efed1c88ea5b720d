import OpcodeTable.Listing
import OpcodeTable.Listing.Reference
import OpcodeTable.Proofs.Text.Numerals

/-!
# Lines of listings

The forms that a line of a listing may have, and the names and slots that it gives.  A line is
read exactly if it has the form, and then it has it in one way only.
-/

namespace OpcodeTable

/-- A reader that finds an entry just where a line has a form leaves no choice: a line has the form
for one entry at most, and nothing is found where it has it for none. -/
theorem Listing.reads_exactly {readLine? : List Char → Option (BitVec 16 × String)}
    {Form : List Char → BitVec 16 → String → Prop}
    (hiff : ∀ {line slot name}, readLine? line = some (slot, name) ↔ Form line slot name)
    (line : List Char) :
    (∀ slot name, readLine? line = some (slot, name) ↔ Form line slot name) ∧
      {entry : BitVec 16 × String | Form line entry.1 entry.2}.Subsingleton ∧
      (readLine? line = none ↔ ∀ slot name, ¬Form line slot name) := by
  refine ⟨fun slot name => hiff, fun left hleft right hright => ?_, ?_⟩
  · have hsame := (hiff.2 hleft).symm.trans (hiff.2 hright)
    exact Option.some.inj hsame
  · rw [Option.eq_none_iff_forall_ne_some, Prod.forall]
    exact forall₂_congr fun slot name => not_congr hiff

namespace Reference

open Blank (White trimStart)
open Word (Spelled after? isWordChar)
open Numeral (Hexadecimal)

/-- Lines that assign a name to a slot.  The slot stands in brackets, as a hexadecimal number
behind its mark, and the name between an equals sign and a comma.  There may be blanks before the
bracket and on both sides of the equals sign, and anything behind the comma. -/
inductive Assigns : List Char → BitVec 16 → String → Prop
  | intro {indent digits before behind rest : List Char} {slot : BitVec 16} {name : String}
      (hindent : White indent) (hdigits : Hexadecimal digits slot) (hbefore : White before)
      (hbehind : White behind) (hname : Spelled name.toList) :
      Assigns (indent ++ '[' :: '0' :: 'x' :: (digits ++ ']' :: (before ++ '=' ::
        (behind ++ (name.toList ++ ',' :: rest))))) slot name

theorem assigns_of_readLine? {line : List Char} {slot : BitVec 16} {name : String}
    (hread : readLine? line = some (slot, name)) : Assigns line slot name := by
  simp only [readLine?, Option.bind_eq_bind, Option.bind_eq_some_iff] at hread
  obtain ⟨indexed, hindexed, assigned, hassigned, number, hnumber, named, hnamed, rest, hrest,
    hname⟩ := hread
  obtain ⟨indent, hindent, rfl⟩ := (Blank.after?_trimStart_iff (by decide)).1 hindexed
  obtain ⟨digits, hindex, hdigits⟩ := Numeral.hexValue?_eq_some_iff.1 hnumber
  obtain ⟨-, rfl⟩ := (Word.cut_iff (by decide)).1 ⟨hindex, hassigned⟩
  obtain ⟨before, hbefore, rfl⟩ := (Blank.after?_trimStart_iff (by decide)).1 hnamed
  generalize htrim : trimStart named = trimmed at hrest hname
  generalize hword : trimmed.takeWhile isWordChar = word at hname
  obtain ⟨hchars, rfl⟩ := (Word.cut_iff (by decide)).1 ⟨hword, hrest⟩
  split at hname
  next => cases hname
  next hne =>
    cases hname
    have hbehind : named =
        named.takeWhile Blank.isBlank ++ ((String.ofList word).toList ++ ',' :: rest) := by
      rw [String.toList_ofList, ← htrim, trimStart, List.takeWhile_append_dropWhile]
    have hname : Spelled (String.ofList word).toList := by
      rw [String.toList_ofList, ← Word.isWord_iff_spelled]
      exact Word.isWord_iff.2 ⟨hne, hchars⟩
    rw [hbehind]
    exact .intro hindent hdigits hbefore (Blank.white_takeWhile named) hname

/-- No line that assigns is passed over. -/
theorem readLine?_of_assigns {line : List Char} {slot : BitVec 16} {name : String}
    (hassigns : Assigns line slot name) : readLine? line = some (slot, name) := by
  obtain @⟨indent, digits, before, behind, rest, slot, name, hindent, hdigits, hbefore, hbehind,
    hspelled⟩ := hassigns
  have hname := Word.isWord_iff_spelled.2 hspelled
  obtain ⟨hne, hchars⟩ := Word.isWord_iff.1 hname
  -- the first closing bracket is the one that ends the slot
  have hbracket : ∀ c ∈ '0' :: 'x' :: digits, decide (c ≠ ']') = true := by
    intro c hc
    apply decide_eq_true
    rintro rfl
    exact Word.not_mem_of_isWord hdigits.isWord_marked (by decide) hc
  have hindexed (back : List Char) :
      after? ['['] (trimStart (indent ++ '[' :: back)) = some back :=
    (Blank.after?_trimStart_iff (by decide)).2 ⟨indent, hindent, rfl⟩
  have hassigned (back : List Char) :
      ('0' :: 'x' :: digits ++ ']' :: back).takeWhile (· ≠ ']') = '0' :: 'x' :: digits ∧
        after? [']'] (('0' :: 'x' :: digits ++ ']' :: back).dropWhile (· ≠ ']')) = some back :=
    (Word.cut_iff (by decide)).2 ⟨hbracket, rfl⟩
  have hslot : Numeral.hexValue? ('0' :: 'x' :: digits) = some slot :=
    Numeral.hexValue?_eq_some_iff.2 ⟨digits, rfl, hdigits⟩
  have hnamed (back : List Char) : after? ['='] (trimStart (before ++ '=' :: back)) = some back :=
    (Blank.after?_trimStart_iff (by decide)).2 ⟨before, hbefore, rfl⟩
  have hcomma : (name.toList ++ ',' :: rest).takeWhile isWordChar = name.toList ∧
      after? [','] ((name.toList ++ ',' :: rest).dropWhile isWordChar) = some rest :=
    (Word.cut_iff (by decide)).2 ⟨hchars, rfl⟩
  rw [readLine?, hindexed, ← List.cons_append, ← List.cons_append]
  simp only [Option.bind_eq_bind, Option.bind_some]
  rw [(hassigned _).1, (hassigned _).2, hslot]
  simp only [Option.bind_some]
  rw [hnamed]
  simp only [Option.bind_some]
  rw [Blank.trimStart_blanks_append hbehind, Blank.trimStart_word_append hname, hcomma.1,
    hcomma.2, Option.bind_some, if_neg hne, String.ofList_toList]

theorem readLine?_eq_some_iff {line : List Char} {slot : BitVec 16} {name : String} :
    readLine? line = some (slot, name) ↔ Assigns line slot name :=
  ⟨assigns_of_readLine?, readLine?_of_assigns⟩

/-- A line of a reference listing is read exactly if it assigns a name to a slot, and it is read as
just that assignment.  No line assigns a second name or a name to a second slot, and lines that
assign none are passed over. -/
theorem reads_assignments (line : List Char) :
    (∀ slot name, readLine? line = some (slot, name) ↔ Assigns line slot name) ∧
      {entry : BitVec 16 × String | Assigns line entry.1 entry.2}.Subsingleton ∧
      (readLine? line = none ↔ ∀ slot name, ¬Assigns line slot name) :=
  Listing.reads_exactly readLine?_eq_some_iff line

/-- A number in brackets has no sign. -/
example : readLine? "[0x+1] = MUL,".toList = none := by decide

end Reference

namespace NameArray

open Blank (White trimStart trim)
open Word (Spelled after?)
open Numeral (Hexadecimal)

/-- Lines that declare the name of a slot.  The name stands in quotes before a comma, and the slot
in the comment behind it, as a hexadecimal number behind its mark.  There may be blanks between
these parts and at both ends, and nothing else. -/
inductive Declares : List Char → BitVec 16 → String → Prop
  | intro {indent behind between before digits margin : List Char} {slot : BitVec 16}
      {name : String} (hindent : White indent) (hname : Spelled name.toList)
      (hbehind : White behind) (hbetween : White between) (hbefore : White before)
      (hdigits : Hexadecimal digits slot) (hmargin : White margin) :
      Declares (indent ++ '"' :: (name.toList ++ '"' :: (behind ++ ',' :: (between ++ '/' :: '/' ::
        (before ++ ('0' :: 'x' :: digits ++ margin)))))) slot name

theorem declares_of_readLine? {line : List Char} {slot : BitVec 16} {name : String}
    (hread : readLine? line = some (slot, name)) : Declares line slot name := by
  simp only [readLine?, Option.bind_eq_bind, Option.bind_eq_some_iff] at hread
  obtain ⟨quoted, hquoted, closed, hclosed, separated, hseparated, comment, hcomment, number,
    hnumber, hname⟩ := hread
  obtain ⟨indent, hindent, rfl⟩ := (Blank.after?_trimStart_iff (by decide)).1 hquoted
  generalize hword : quoted.takeWhile (· ≠ '"') = word at hname
  obtain ⟨-, rfl⟩ := (Word.cut_iff (by decide)).1 ⟨hword, hclosed⟩
  obtain ⟨behind, hbehind, rfl⟩ := (Blank.after?_trimStart_iff (by decide)).1 hseparated
  obtain ⟨between, hbetween, rfl⟩ := (Blank.after?_trimStart_iff (by decide)).1 hcomment
  obtain ⟨digits, htrim, hdigits⟩ := Numeral.hexValue?_eq_some_iff.1 hnumber
  obtain ⟨before, margin, hbefore, hmargin, rfl⟩ := (Blank.trim_eq_iff hdigits.isWord_marked).1 htrim
  split at hname
  next hisWord =>
    cases hname
    rw [← String.toList_ofList (l := word), Word.isWord_iff_spelled] at hisWord
    have hdeclares := Declares.intro hindent hisWord hbehind hbetween hbefore hdigits hmargin
    rwa [String.toList_ofList] at hdeclares
  next => cases hname

/-- No line that declares is passed over. -/
theorem readLine?_of_declares {line : List Char} {slot : BitVec 16} {name : String}
    (hdeclares : Declares line slot name) : readLine? line = some (slot, name) := by
  obtain @⟨indent, behind, between, before, digits, margin, slot, name, hindent, hspelled, hbehind,
    hbetween, hbefore, hdigits, hmargin⟩ := hdeclares
  have hname := Word.isWord_iff_spelled.2 hspelled
  -- the quote behind the name is the first one in the text behind the other quote
  have hquote : ∀ c ∈ name.toList, decide (c ≠ '"') = true := by
    intro c hc
    apply decide_eq_true
    rintro rfl
    exact Word.not_mem_of_isWord hname (by decide) hc
  have hquoted (back : List Char) :
      after? ['"'] (trimStart (indent ++ '"' :: back)) = some back :=
    (Blank.after?_trimStart_iff (by decide)).2 ⟨indent, hindent, rfl⟩
  have hclosed (back : List Char) :
      (name.toList ++ '"' :: back).takeWhile (· ≠ '"') = name.toList ∧
        after? ['"'] ((name.toList ++ '"' :: back).dropWhile (· ≠ '"')) = some back :=
    (Word.cut_iff (by decide)).2 ⟨hquote, rfl⟩
  have hseparated (back : List Char) :
      after? [','] (trimStart (behind ++ ',' :: back)) = some back :=
    (Blank.after?_trimStart_iff (by decide)).2 ⟨behind, hbehind, rfl⟩
  have hcomment (back : List Char) :
      after? ['/', '/'] (trimStart (between ++ '/' :: '/' :: back)) = some back :=
    (Blank.after?_trimStart_iff (by decide)).2 ⟨between, hbetween, rfl⟩
  have htrim : trim (before ++ ('0' :: 'x' :: digits ++ margin)) = '0' :: 'x' :: digits :=
    (Blank.trim_eq_iff hdigits.isWord_marked).2 ⟨before, margin, hbefore, hmargin, rfl⟩
  have hslot : Numeral.hexValue? ('0' :: 'x' :: digits) = some slot :=
    Numeral.hexValue?_eq_some_iff.2 ⟨digits, rfl, hdigits⟩
  rw [readLine?, hquoted]
  simp only [Option.bind_eq_bind, Option.bind_some]
  rw [(hclosed _).1, (hclosed _).2]
  simp only [Option.bind_some]
  rw [hseparated]
  simp only [Option.bind_some]
  rw [hcomment]
  simp only [Option.bind_some]
  rw [htrim, hslot, Option.bind_some, if_pos hname, String.ofList_toList]

theorem readLine?_eq_some_iff {line : List Char} {slot : BitVec 16} {name : String} :
    readLine? line = some (slot, name) ↔ Declares line slot name :=
  ⟨declares_of_readLine?, readLine?_of_declares⟩

/-- A line of a name array is read exactly if it declares the name of a slot, and it is read as just
that declaration.  No line declares a second name or the name of a second slot, and lines that
declare none are passed over. -/
theorem reads_declarations (line : List Char) :
    (∀ slot name, readLine? line = some (slot, name) ↔ Declares line slot name) ∧
      {entry : BitVec 16 × String | Declares line entry.1 entry.2}.Subsingleton ∧
      (readLine? line = none ↔ ∀ slot name, ¬Declares line slot name) :=
  Listing.reads_exactly readLine?_eq_some_iff line

/-- Behind the slot there is nothing but blanks. -/
example : readLine? "\"exec_arm_mul\",  // 0x001 mul".toList = none := by decide

end NameArray

end OpcodeTable
