import OpcodeTable.Proofs.Building
import OpcodeTable.Proofs.Listings
import OpcodeTable.Proofs.Text.Words

/-!
# Names of handlers

All default handlers are words.  A table that is built from words has no other handlers, and
so the standard table is one of words.
-/

namespace OpcodeTable

open Word (isWord isWordChar)

/-- Word characters stay word characters in lower case. -/
theorem Word.isWordChar_toLower {c : Char} (hc : isWordChar c = true) :
    isWordChar c.toLower = true := by
  by_cases hupper : c.isUpper = true
  · have hcode : 65 ≤ c.toNat ∧ c.toNat ≤ 90 := by
      simp only [Char.isUpper, decide_eq_true_eq, ge_iff_le, UInt32.le_iff_toNat_le] at hupper
      exact hupper
    have hletters : ∀ code < 91, 65 ≤ code → isWordChar (Char.ofNat code).toLower = true := by
      decide
    have hletter := hletters c.toNat (by omega) hcode.1
    rwa [Char.ofNat_toNat] at hletter
  · rwa [Char.toLower, dif_neg]
    simpa [Char.isUpper] using hupper

theorem isWord_handlerName {stem : String} (hstem : stem.toList.all isWordChar = true) :
    isWord (handlerName stem).toList = true := by
  have hmark : isWord "exec_arm_".toList = true := by decide
  obtain ⟨hne, hchars⟩ := Word.isWord_iff.1 hmark
  rw [handlerName, String.toList_append,
    String.toList_ofList (l := stem.toList.map Char.toLower), Word.isWord_iff]
  constructor
  · exact List.append_ne_nil_of_left_ne_nil hne _
  · intro c hc
    rcases List.mem_append.1 hc with hfront | hlower
    · exact hchars c hfront
    · obtain ⟨other, hother, rfl⟩ := List.mem_map.1 hlower
      exact Word.isWordChar_toLower (List.all_eq_true.1 hstem other hother)

theorem Word.all_isWordChar_append {front back : String}
    (hfront : front.toList.all isWordChar = true) (hback : back.toList.all isWordChar = true) :
    (front ++ back).toList.all isWordChar = true := by
  rw [String.toList_append, List.all_append, hfront, hback]
  rfl

theorem AluOp.all_isWordChar (op : AluOp) : (toString op).toList.all isWordChar = true := by
  cases op <;> decide

theorem Operand.all_isWordChar (operand : Operand) :
    (toString operand).toList.all isWordChar = true := by
  cases operand <;> decide

theorem Indexing.all_isWordChar (indexing : Indexing) :
    (toString indexing).toList.all isWordChar = true := by
  cases indexing <;> decide

/-- The name of a transfer, from that of the instruction, its offset and its indexing. -/
theorem all_isWordChar_transfer {name : String} (hname : name.toList.all isWordChar = true)
    (offset : Operand) (indexing : Indexing) :
    (name ++ toString offset ++ "_" ++ toString indexing).toList.all isWordChar = true := by
  have hoffset := Word.all_isWordChar_append hname offset.all_isWordChar
  exact Word.all_isWordChar_append (Word.all_isWordChar_append hoffset (by decide))
    indexing.all_isWordChar

/-- The texts that default handlers are made from have neither blanks nor marks. -/
theorem Category.defaultHandler_eq (category : Category) :
    category.defaultHandler = undefinedHandler ∨ ∃ stem,
      category.defaultHandler = handlerName stem ∧ stem.toList.all isWordChar = true := by
  cases category with
  | undefined => exact .inl rfl
  | msr source | ldc source | stc source =>
      exact .inr ⟨_, rfl, Word.all_isWordChar_append (by decide) source.all_isWordChar⟩
  | dataProcessing op operand =>
      have hop := Word.all_isWordChar_append op.all_isWordChar
        (show "_".toList.all isWordChar = true by decide)
      exact .inr ⟨_, rfl, Word.all_isWordChar_append hop operand.all_isWordChar⟩
  | str offset indexing | strb offset indexing | ldr offset indexing | ldrb offset indexing =>
      exact .inr ⟨_, rfl, all_isWordChar_transfer (by decide) offset indexing⟩
  | _ => exact .inr ⟨_, rfl, by decide⟩

theorem isWord_undefinedHandler : isWord undefinedHandler.toList = true := by decide

theorem Category.isWord_defaultHandler (category : Category) :
    isWord category.defaultHandler.toList = true := by
  rcases category.defaultHandler_eq with hundefined | ⟨stem, hname, hstem⟩
  · rw [hundefined]
    exact isWord_undefinedHandler
  · rw [hname]
    exact isWord_handlerName hstem

/-- Every category is routed to its default handler by default. -/
theorem HandlerMap.get?_default (category : Category) :
    HandlerMap.default.get? category = some category.defaultHandler := by
  rw [HandlerMap.default, OrderedMap.get?_ofList]
  apply OrderedMap.lastValue?_of_forall
  · exact List.mem_map.2 ⟨category, category.mem_all, rfl⟩
  · intro handler hhandler
    obtain ⟨other, -, heq⟩ := List.mem_map.1 hhandler
    cases heq
    rfl

def Listing.Named (listing : Listing) : Prop :=
  ∀ slot name, listing.get? slot = some name → isWord name.toList = true

namespace Table

def Named (table : Table) : Prop := ∀ name ∈ table.handlers, isWord name.toList = true

theorem isWord_of_mem_entries {table : Table} (hnamed : table.Named) {entry : Key × String}
    (hentry : entry ∈ table.entries) : isWord entry.2.toList = true := by
  apply hnamed
  rw [← table.map_snd_entries]
  exact List.mem_map_of_mem hentry

theorem exists_key_of_mem_handlers {table : Table} {name : String}
    (hname : name ∈ table.handlers) : ∃ key, table.get key = name := by
  obtain ⟨slot, hslot⟩ := List.getElem?_of_mem hname
  have hlt : slot < Key.count := by
    rw [← table.length_handlers]
    exact (List.getElem?_eq_some_iff.1 hslot).1
  have hget := table.getElem?_handlers (Key.ofSlot slot)
  rw [Key.index_ofSlot hlt, hslot] at hget
  exact ⟨Key.ofSlot slot, (Option.some.inj hget).symm⟩

theorem named_listing {table : Table} (hnamed : table.Named) : table.listing.Named := by
  intro slot name hget
  have hslot : slot ∈ table.listing.keys := by
    rw [OrderedMap.mem_keys_iff, hget]
    rfl
  obtain ⟨key, -, rfl⟩ := List.mem_map.1 (mem_keys_listing.1 hslot)
  rw [table.get?_listing] at hget
  cases hget
  exact hnamed _ (table.get_mem_handlers key)

theorem named_build {names : HandlerMap} {fallback : String}
    (hnames : ∀ category handler, names.get? category = some handler →
      isWord handler.toList = true)
    (hfallback : isWord fallback.toList = true) : (build names fallback).Named := by
  intro name hname
  obtain ⟨key, rfl⟩ := exists_key_of_mem_handlers hname
  rw [get_build, HandlerMap.resolve]
  cases hget : names.get? key.category with
  | none => exact hfallback
  | some handler => exact hnames key.category handler hget

theorem get_standard (key : Key) : standard.get key = key.category.defaultHandler := by
  rw [standard, get_build, HandlerMap.resolve, HandlerMap.get?_default, Option.getD_some]

theorem named_standard : standard.Named := by
  apply named_build
  · intro category handler hget
    rw [HandlerMap.get?_default] at hget
    cases hget
    exact category.isWord_defaultHandler
  · exact isWord_undefinedHandler

end Table

end OpcodeTable
