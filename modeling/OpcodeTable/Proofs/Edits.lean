import OpcodeTable.Proofs.Comparisons
import OpcodeTable.Proofs.Names

/-!
# Edited listings

A table agrees with itself under other names, as long as these keep its handlers apart.  Once
the listing of the table has been edited, a comparison reports the keys whose names the edits
have left changed, and no other slot.
-/

namespace OpcodeTable

namespace OrderedMap

variable {κ ν μ : Type} [Ord κ]

def map (change : ν → μ) (map : OrderedMap κ ν) : OrderedMap κ μ where
  entries := map.entries.map fun (key, value) => (key, change value)
  ordered := List.pairwise_map.2 map.ordered

theorem get?_map (change : ν → μ) (map : OrderedMap κ ν) (key : κ) :
    (map.map change).get? key = (map.get? key).map change := by
  have hlookup : ∀ entries : List (κ × ν),
      lookup key (entries.map fun (key, value) => (key, change value)) =
        (lookup key entries).map change := by
    intro entries
    induction entries with
    | nil => rfl
    | cons head tail ih =>
        rw [List.map_cons, lookup, lookup, ih]
        split <;> rfl
  exact hlookup map.entries

end OrderedMap

namespace Listing

variable {listing : Listing}

theorem edited_nil (listing : Listing) : listing.edited [] = listing := rfl

theorem edited_cons (listing : Listing) (change : Edit) (edits : List Edit) :
    listing.edited (change :: edits) = (listing.edit change).edited edits := rfl

theorem edited_append (listing : Listing) (front back : List Edit) :
    listing.edited (front ++ back) = (listing.edited front).edited back :=
  List.foldl_append

theorem get?_edit_insert (listing : Listing) (key : Key) (name : String) :
    (listing.edit (.insert key name)).get? key.slot = some name := by
  rw [edit, OrderedMap.get?_insert, if_pos rfl]

theorem get?_edit_remove (listing : Listing) (slot : BitVec 16) :
    (listing.edit (.remove slot)).get? slot = none := by
  rw [edit, OrderedMap.get?_erase, if_pos rfl]

theorem get?_edit_of_ne {change : Edit} {slot : BitVec 16} (hslot : change.slot ≠ slot) :
    (listing.edit change).get? slot = listing.get? slot := by
  cases change with
  | insert key name =>
      have hother : slot ≠ key.slot := hslot.symm
      rw [edit, OrderedMap.get?_insert, if_neg hother]
  | remove removed =>
      have hother : slot ≠ removed := hslot.symm
      rw [edit, OrderedMap.get?_erase, if_neg hother]

/-- Edits of other slots leave a slot as it is. -/
theorem get?_edited_of_forall_ne {edits : List Edit} {slot : BitVec 16}
    (hedits : ∀ change ∈ edits, change.slot ≠ slot) :
    (listing.edited edits).get? slot = listing.get? slot := by
  induction edits generalizing listing with
  | nil => rfl
  | cons change edits ih =>
      obtain ⟨hchange, htail⟩ := List.forall_mem_cons.1 hedits
      rw [edited_cons, ih htail, get?_edit_of_ne hchange]

/-- Edits name no slots but those of keys. -/
theorem mem_keys_edited {edits : List Edit} {slot : BitVec 16}
    (hkeys : ∀ slot ∈ listing.keys, slot ∈ Key.all.map Key.slot)
    (hslot : slot ∈ (listing.edited edits).keys) : slot ∈ Key.all.map Key.slot := by
  induction edits generalizing listing with
  | nil => exact hkeys slot hslot
  | cons change edits ih =>
      refine ih (fun named hnamed => ?_) hslot
      rw [OrderedMap.mem_keys_iff] at hnamed
      cases change with
      | insert key name =>
          rw [edit, OrderedMap.get?_insert] at hnamed
          split at hnamed
          next heq => exact heq ▸ List.mem_map_of_mem key.mem_all
          next => exact hkeys named (OrderedMap.mem_keys_iff.2 hnamed)
      | remove removed =>
          rw [edit, OrderedMap.get?_erase] at hnamed
          split at hnamed
          next => simp at hnamed
          next => exact hkeys named (OrderedMap.mem_keys_iff.2 hnamed)

end Listing

namespace Table

/-- The listing of a table under other names. -/
def renamed (table : Table) (rename : String → String) : Listing := table.listing.map rename

/-- The naming that leads from the other names of a table's handlers back to the handlers,
collected in table order. -/
def naming (table : Table) (rename : String → String) : Naming :=
  OrderedMap.ofList (table.handlers.map fun handler => (rename handler, handler))

theorem get?_renamed (table : Table) (rename : String → String) (key : Key) :
    (table.renamed rename).get? key.slot = some (rename (table.get key)) := by
  rw [renamed, OrderedMap.get?_map, get?_listing, Option.map_some]

/-- Where a name is collected again, it is collected for the same handler. -/
theorem get?_naming {table : Table} {rename : String → String}
    (hrename : Set.InjOn rename {handler | handler ∈ table.handlers}) {handler : String}
    (hhandler : handler ∈ table.handlers) :
    (table.naming rename).get? (rename handler) = some handler := by
  rw [naming, OrderedMap.get?_ofList]
  apply OrderedMap.lastValue?_of_forall
  · exact List.mem_map.2 ⟨handler, hhandler, rfl⟩
  · intro other hother
    obtain ⟨original, horiginal, heq⟩ := List.mem_map.1 hother
    obtain ⟨hname, rfl⟩ := Prod.mk.inj heq
    exact hrename horiginal hhandler hname

end Table

namespace Comparison

variable {table : Table} {rename : String → String}

/-- A renamed table and an edited one name the slots of all keys, and no others. -/
theorem slots_renamed_edited (table : Table) (rename : String → String) (edits : List Edit) :
    slots (table.renamed rename) (table.listing.edited edits) = Key.all.map Key.slot := by
  refine (pairwise_slots _ _).eq_of_mem_iff Key.pairwise_slots fun slot => ?_
  have hlisting : ∀ slot ∈ table.listing.keys, slot ∈ Key.all.map Key.slot :=
    fun _ => Table.mem_keys_listing.1
  rw [mem_slots_iff]
  constructor
  · rintro (hreference | htested)
    · rw [Table.renamed, OrderedMap.get?_map, Option.isSome_map] at hreference
      exact hlisting slot (OrderedMap.mem_keys_iff.2 hreference)
    · exact Listing.mem_keys_edited hlisting (OrderedMap.mem_keys_iff.2 htested)
  · intro hslot
    obtain ⟨key, -, rfl⟩ := List.mem_map.1 hslot
    exact .inl (by rw [Table.get?_renamed]; rfl)

theorem foreignName_renamed (table : Table) (rename : String → String) (key : Key) :
    foreignName (table.renamed rename) key.slot = rename (table.get key) := by
  rw [foreignName, Table.get?_renamed, Option.getD_some]

/-- The naming undoes a renaming, provided that it keeps the handlers of the table apart. -/
theorem expectedName_naming (hrename : Set.InjOn rename {handler | handler ∈ table.handlers})
    (key : Key) :
    expectedName (table.naming rename) (rename (table.get key)) = table.get key := by
  rw [expectedName, Table.get?_naming hrename (table.get_mem_handlers key), Option.getD_some]

/-- The report of an edited table, key by key. -/
theorem mismatches_renamed_edited
    (hrename : Set.InjOn rename {handler | handler ∈ table.handlers}) (edits : List Edit) :
    mismatches (table.renamed rename) (table.listing.edited edits) (table.naming rename) =
      Key.all.filterMap fun key =>
        if actualName (table.listing.edited edits) key.slot = table.get key then none
        else some ⟨key.slot, rename (table.get key), table.get key,
          actualName (table.listing.edited edits) key.slot⟩ := by
  rw [mismatches, slots_renamed_edited, List.filterMap_map]
  refine List.filterMap_congr fun key _ => ?_
  simp only [Function.comp_apply, mismatchAt?, foreignName_renamed,
    expectedName_naming hrename, eq_comm]

/-- Only keys whose names have changed are reported. -/
theorem actualName_ne_of_mem_mismatches
    (hrename : Set.InjOn rename {handler | handler ∈ table.handlers}) {edits : List Edit}
    {mismatch : Mismatch}
    (hmismatch : mismatch ∈
      mismatches (table.renamed rename) (table.listing.edited edits) (table.naming rename)) :
    ∃ key : Key, mismatch.slot = key.slot ∧
      actualName (table.listing.edited edits) key.slot ≠ table.get key := by
  rw [mismatches_renamed_edited hrename, List.mem_filterMap] at hmismatch
  obtain ⟨key, -, hkey⟩ := hmismatch
  split at hkey
  next => simp at hkey
  next hname =>
    cases hkey
    exact ⟨key, rfl, hname⟩

/-- A table is compared with itself under other names, which may be collected many times but
keep its handlers apart.  After any edits of its listing, the report has the keys whose names
are no longer the table's, in the order of the keys, and a name that was taken out counts as
undefined.  Nothing is reported without edits, nor at a key that was given its own name back
and not edited again. -/
theorem mismatches_after_edits (table : Table) (rename : String → String)
    (hrename : Set.InjOn rename {handler | handler ∈ table.handlers}) (edits : List Edit) :
    (mismatches (table.renamed rename) (table.listing.edited edits) (table.naming rename) =
      Key.all.filterMap fun key =>
        let final := ((table.listing.edited edits).get? key.slot).getD "exec_arm_undefined"
        if final = table.get key then none
        else some ⟨key.slot, rename (table.get key), table.get key, final⟩) ∧
    mismatches (table.renamed rename) table.listing (table.naming rename) = [] ∧
    ∀ before key after, edits = before ++ .insert key (table.get key) :: after →
      (∀ change ∈ after, change.slot ≠ key.slot) →
      ∀ mismatch ∈ mismatches (table.renamed rename) (table.listing.edited edits)
          (table.naming rename),
        mismatch.slot ≠ key.slot := by
  refine ⟨mismatches_renamed_edited hrename edits, ?_, ?_⟩
  · refine List.eq_nil_iff_forall_not_mem.2 fun mismatch hmismatch => ?_
    rw [← Listing.edited_nil table.listing] at hmismatch
    obtain ⟨key, -, hname⟩ := actualName_ne_of_mem_mismatches hrename hmismatch
    apply hname
    rw [Listing.edited_nil, actualName, Table.get?_listing, Option.getD_some]
  · rintro before key after rfl hafter mismatch hmismatch hslot
    obtain ⟨other, hother, hname⟩ := actualName_ne_of_mem_mismatches hrename hmismatch
    obtain rfl : other = key := Key.slot_injective (hother.symm.trans hslot)
    apply hname
    rw [actualName, Listing.edited_append, Listing.edited_cons,
      Listing.get?_edited_of_forall_ne hafter, Listing.get?_edit_insert, Option.getD_some]

/-- Among the edits of the standard table are one that takes a name out and one that is undone. -/
theorem mismatches_after_edits_standard :
    let rename := fun handler => if handler = undefinedHandler then "ILL" else "ARM_" ++ handler
    let edits : List Edit := [.insert ⟨0x0b3⟩ "exec_arm_b", .remove 0x001,
      .insert ⟨0x0b3⟩ "exec_arm_undefined"]
    let report := mismatches (Table.standard.renamed rename) (Table.standard.listing.edited edits)
      (Table.standard.naming rename)
    Set.InjOn rename {handler | handler ∈ Table.standard.handlers} ∧
      ⟨0x001, "ARM_exec_arm_mul", "exec_arm_mul", "exec_arm_undefined"⟩ ∈ report ∧
      (∀ mismatch ∈ report, mismatch.slot ≠ 0x0b3) ∧
      mismatches (Table.standard.renamed rename) Table.standard.listing
        (Table.standard.naming rename) = [] := by
  intro rename edits report
  have hmark (handler : String) : "ARM_" ++ handler ≠ "ILL" := by
    intro heq
    have hhead := congrArg (fun text => text.toList.head?) heq
    simp [String.toList_append] at hhead
  have hrename : Set.InjOn rename {handler | handler ∈ Table.standard.handlers} := by
    intro left _ right _ heq
    simp only [rename] at heq
    split at heq <;> split at heq
    · simp_all
    · exact absurd heq.symm (hmark right)
    · exact absurd heq (hmark left)
    · exact (String.append_right_inj "ARM_").1 heq
  obtain ⟨hreport, hunedited, hundone⟩ :=
    mismatches_after_edits Table.standard rename hrename edits
  refine ⟨hrename, ?_, ?_, hunedited⟩
  · have hname : Table.standard.get ⟨0x001⟩ = "exec_arm_mul" := by
      rw [Table.get_standard]
      decide
    have hfinal : (Table.standard.listing.edited edits).get? (Key.slot ⟨0x001⟩) = none := by
      rw [Listing.edited_cons, Listing.edited_cons, Listing.get?_edited_of_forall_ne (by decide)]
      exact Listing.get?_edit_remove _ 0x001
    show _ ∈ mismatches _ _ _
    rw [hreport, List.mem_filterMap]
    refine ⟨⟨0x001⟩, Key.mem_all _, ?_⟩
    rw [hfinal, hname]
    decide
  · have hname : Table.standard.get ⟨0x0b3⟩ = "exec_arm_undefined" := by
      rw [Table.get_standard]
      decide
    refine hundone [.insert ⟨0x0b3⟩ "exec_arm_b", .remove 0x001] ⟨0x0b3⟩ [] ?_ (by simp)
    rw [hname]
    rfl

end Comparison

end OpcodeTable
