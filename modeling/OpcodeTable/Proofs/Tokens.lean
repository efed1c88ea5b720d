import OpcodeTable.Expansion
import OpcodeTable.Proofs.Text.Words

/-!
# Tokens of composed texts

A text that ends with a mark or a blank spells its own tokens, whatever follows.  The tokens of
a line can then be put together from those of its parts.
-/

namespace OpcodeTable

/-- Whether a function gives a result for the front of a list before it goes on with the rest,
whatever the rest is. -/
def Emits {α β : Type} (f : List α → List β) (front : List α) (result : List β) : Prop :=
  ∀ rest, f (front ++ rest) = result ++ f rest

namespace Emits

variable {α β : Type} {f : List α → List β}

theorem apply_eq {front : List α} {result : List β} (hemits : Emits f front result)
    (hnil : f [] = []) : f front = result := by
  have happly := hemits []
  rwa [List.append_nil, hnil, List.append_nil] at happly

theorem nil : Emits f [] [] := fun _ => rfl

theorem append {front back : List α} {first second : List β} (hfront : Emits f front first)
    (hback : Emits f back second) : Emits f (front ++ back) (first ++ second) := by
  intro rest
  rw [List.append_assoc, hfront, hback, List.append_assoc]

theorem flatMap {ι : Type} {items : List ι} {front : ι → List α} {result : ι → List β}
    (hitems : ∀ item ∈ items, Emits f (front item) (result item)) :
    Emits f (items.flatMap front) (items.flatMap result) := by
  induction items with
  | nil => exact nil
  | cons item items ih =>
      obtain ⟨hitem, htail⟩ := List.forall_mem_cons.1 hitems
      exact hitem.append (ih htail)

end Emits

namespace Token

open Blank (isBlank)
open Word (isWord isWordChar)

theorem tokensAfter_append_of_isWordChar {text : List Char}
    (htext : ∀ c ∈ text, isWordChar c = true) (taken rest : List Char) :
    tokensAfter taken (text ++ rest) = tokensAfter (text.reverse ++ taken) rest := by
  induction text generalizing taken with
  | nil => rfl
  | cons c text ih =>
      obtain ⟨hc, htail⟩ := List.forall_mem_cons.1 htext
      rw [List.cons_append, tokensAfter, if_pos hc, ih htail, List.reverse_cons,
        List.append_assoc, List.singleton_append]

/-- A word ends at the next character that does not belong to one. -/
theorem tokensAfter_cons {c : Char} (hc : isWordChar c = false) (taken rest : List Char) :
    tokensAfter taken (c :: rest) = closed taken ++ tokens (c :: rest) := by
  have hc' : ¬isWordChar c = true := by simp [hc]
  rw [tokens, tokensAfter, tokensAfter, if_neg hc', if_neg hc']
  split
  · rfl
  · rfl

theorem tokens_append_cons {text : List Char} (hword : isWord text = true) {c : Char}
    (hc : isWordChar c = false) (rest : List Char) :
    tokens (text ++ c :: rest) = word (String.ofList text) :: tokens (c :: rest) := by
  obtain ⟨hne, hchars⟩ := Word.isWord_iff.1 hword
  have hclosed : closed text.reverse = [word (String.ofList text)] := by
    rw [closed, if_neg (by simpa using hne), List.reverse_reverse]
  rw [tokens, tokensAfter_append_of_isWordChar hchars, List.append_nil, tokensAfter_cons hc,
    hclosed, List.singleton_append]

theorem tokensAfter_append_mark {c : Char} (hword : isWordChar c = false)
    (hblank : Blank.isBlank c = false) (taken text : List Char) :
    tokensAfter taken (text ++ [c]) = tokensAfter taken text ++ [mark c] := by
  induction text generalizing taken with
  | nil =>
      rw [List.nil_append, tokensAfter, tokensAfter, if_neg (by simp [hword]),
        if_neg (by simp [hblank])]
      rfl
  | cons head text ih =>
      rw [List.cons_append, tokensAfter, tokensAfter]
      split
      · exact ih (head :: taken)
      split
      · rw [ih [], List.append_assoc]
      · rw [ih [], List.append_assoc, List.cons_append]

/-- A text that ends with a mark has the mark as its last token, behind those of the rest. -/
theorem tokens_append_mark {c : Char} (hword : isWordChar c = false)
    (hblank : Blank.isBlank c = false) (text : List Char) :
    tokens (text ++ [c]) = tokens text ++ [mark c] :=
  tokensAfter_append_mark hword hblank [] text

theorem getLast?_tokens_append_mark {c : Char} (hword : isWordChar c = false)
    (hblank : Blank.isBlank c = false) (text : List Char) :
    (tokens (text ++ [c])).getLast? = some (mark c) := by
  rw [tokens_append_mark hword hblank, List.getLast?_concat]

/-- The tokens that a text has in front of any other text. -/
abbrev Spells (text : List Char) (spelled : List Token) : Prop := Emits tokens text spelled

namespace Spells

theorem mark {c : Char} (hword : isWordChar c = false) (hblank : isBlank c = false) :
    Spells [c] [.mark c] := by
  intro rest
  rw [List.singleton_append, tokens, tokensAfter, if_neg (by simp [hword]),
    if_neg (by simp [hblank])]
  rfl

theorem blank {c : Char} (hblank : isBlank c = true) : Spells [c] [] := by
  intro rest
  rw [List.singleton_append, tokens, tokensAfter,
    if_neg (by simp [Word.isWordChar_of_isBlank hblank]), if_pos hblank]
  rfl

theorem blanks {text : List Char} (hblanks : text.all isBlank = true) : Spells text [] := by
  induction text with
  | nil => exact Emits.nil
  | cons c text ih =>
      rw [List.all_cons, Bool.and_eq_true] at hblanks
      exact (blank hblanks.1).append (ih hblanks.2)

theorem word {text rest : List Char} {c : Char} {spelled : List Token}
    (hword : isWord text = true) (hc : isWordChar c = false)
    (hrest : Spells (c :: rest) spelled) :
    Spells (text ++ c :: rest) (.word (String.ofList text) :: spelled) := by
  intro more
  have hmore := hrest more
  rw [List.cons_append] at hmore
  rw [List.append_assoc, List.cons_append, tokens_append_cons hword hc, hmore, List.cons_append]

end Spells

/-- Marks are characters of the text, so that a text without a character has no mark of it. -/
theorem mem_of_mark_mem_tokensAfter {c : Char} {taken text : List Char}
    (hmem : mark c ∈ tokensAfter taken text) : c ∈ text := by
  have hclosed : ∀ taken, mark c ∉ closed taken := by
    intro taken
    rw [closed]
    split
    · simp
    · simp
  induction text generalizing taken with
  | nil => exact absurd hmem (hclosed taken)
  | cons head text ih =>
      rw [tokensAfter] at hmem
      split at hmem
      · exact List.mem_cons_of_mem head (ih hmem)
      split at hmem
      · have hrest := (List.mem_append.1 hmem).resolve_left (hclosed taken)
        exact List.mem_cons_of_mem head (ih hrest)
      · have hrest := (List.mem_append.1 hmem).resolve_left (hclosed taken)
        rcases List.mem_cons.1 hrest with heq | hrest
        · cases heq
          exact List.mem_cons_self
        · exact List.mem_cons_of_mem head (ih hrest)

/-- The marks among the tokens of a text stand in the text. -/
theorem mem_of_mark_mem_tokens {c : Char} {text : List Char} (hmem : mark c ∈ tokens text) :
    c ∈ text :=
  mem_of_mark_mem_tokensAfter hmem

/-- A comment starts at the first two slashes. -/
theorem splitComment_append {code : List Char} (hcode : '/' ∉ code) (comment : List Char) :
    splitComment (code ++ '/' :: '/' :: comment) = (code, some comment) := by
  induction code with
  | nil => rfl
  | cons c code ih =>
      obtain ⟨hc, htail⟩ := not_or.1 (mt List.mem_cons.2 hcode)
      rw [List.cons_append, splitComment, ih htail]
      rintro rest rfl
      exact absurd rfl hc

end Token

end OpcodeTable
