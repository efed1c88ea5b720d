import OpcodeTable.Comparison
import OpcodeTable.Proofs.Listings

/-!
# Comparisons slot by slot

A comparison goes through the slots that either listing names, in order, and each slot is
judged by what the two listings have there and by nothing else.  The log has one warning for
each mismatch that is found, and then their number.
-/

namespace OpcodeTable

/-- What an event leaves in a log. -/
def Event.record (event : Event) : Level × String := (event.level, event.message)

namespace Comparison

variable {reference tested : Listing} {naming : Naming}

/-- A comparison looks at the slots that either listing names, and at no others. -/
theorem mem_slots_iff {slot : BitVec 16} :
    slot ∈ slots reference tested ↔
      (reference.get? slot).isSome = true ∨ (tested.get? slot).isSome = true := by
  rw [slots, OrderedMap.mem_keys_iff, Listing.override, OrderedMap.isSome_get?_insertAll,
    ← OrderedMap.keys, OrderedMap.mem_keys_iff, or_comm]

theorem pairwise_slots (reference tested : Listing) :
    (slots reference tested).Pairwise (· < ·) :=
  (Listing.override reference tested).pairwise_keys

/-- What the two listings have at a slot, as a mismatch reports it. -/
def contrast (reference tested : Listing) (naming : Naming) (slot : BitVec 16) : Mismatch where
  slot
  foreign := foreignName reference slot
  expected := expectedName naming (foreignName reference slot)
  actual := actualName tested slot

/-- The slots at which the listings differ, in order. -/
def differing (reference tested : Listing) (naming : Naming) : List (BitVec 16) :=
  (slots reference tested).filter fun slot =>
    expectedName naming (foreignName reference slot) ≠ actualName tested slot

/-- A slot that only one of the listings names counts as undefined in the other, so that it need
not differ. -/
theorem mem_differing_iff {slot : BitVec 16} :
    slot ∈ differing reference tested naming ↔
      ((reference.get? slot).isSome = true ∨ (tested.get? slot).isSome = true) ∧
        expectedName naming (foreignName reference slot) ≠ actualName tested slot := by
  rw [differing, List.mem_filter, mem_slots_iff, decide_eq_true_eq]

theorem pairwise_differing (reference tested : Listing) (naming : Naming) :
    (differing reference tested naming).Pairwise (· < ·) :=
  (pairwise_slots reference tested).filter _

/-- The mismatches are what the listings have at the slots at which they differ. -/
theorem mismatches_eq (reference tested : Listing) (naming : Naming) :
    mismatches reference tested naming =
      (differing reference tested naming).map (contrast reference tested naming) := by
  rw [differing, ← List.filterMap_eq_map, List.filterMap_filter, mismatches]
  congr 1
  funext slot
  by_cases hsame : expectedName naming (foreignName reference slot) = actualName tested slot
  · simp [mismatchAt?, hsame]
  · simp [mismatchAt?, hsame, contrast]

/-- There is one mismatch for each slot that differs, and none for another. -/
theorem map_slot_mismatches (reference tested : Listing) (naming : Naming) :
    (mismatches reference tested naming).map Mismatch.slot =
      differing reference tested naming := by
  rw [mismatches_eq, List.map_map]
  exact List.map_id _

/-- A log shows every mismatch before their number. -/
theorem record_report (found : List Mismatch) :
    (report found).map Event.record =
      found.map (fun mismatch => (Level.warning, toString mismatch)) ++
        [(Level.info, s!"Total mismatches: {found.length}")] := by
  rw [report, List.map_append, List.map_map]
  rfl

/-- A comparison reports slots in increasing order, so that none is reported twice.  It reports
those slots that at least one listing names and at which the handler expected is not the one
under test, each with the names that were compared there.  The log has a warning for each of them
in the same order, and then says how many they are. -/
theorem mismatches_exact (reference tested : Listing) (naming : Naming) :
    let foreign := fun slot => (reference.get? slot).getD "ILL"
    let expected := fun slot => (naming.get? (foreign slot)).getD "(unmapped)"
    let actual := fun slot => (tested.get? slot).getD "exec_arm_undefined"
    let found := mismatches reference tested naming
    (found.map Mismatch.slot).Pairwise (· < ·) ∧
      (∀ slot, slot ∈ found.map Mismatch.slot ↔
        ((reference.get? slot).isSome = true ∨ (tested.get? slot).isSome = true) ∧
          expected slot ≠ actual slot) ∧
      (∀ mismatch ∈ found, mismatch.foreign = foreign mismatch.slot ∧
        mismatch.expected = expected mismatch.slot ∧ mismatch.actual = actual mismatch.slot) ∧
      (report found).map Event.record =
        found.map (fun mismatch => (Level.warning, toString mismatch)) ++
          [(Level.info, s!"Total mismatches: {found.length}")] := by
  intro foreign expected actual found
  have hslots : found.map Mismatch.slot = differing reference tested naming :=
    map_slot_mismatches reference tested naming
  refine ⟨?_, fun slot => ?_, fun mismatch hmismatch => ?_, record_report found⟩
  · rw [hslots]
    exact pairwise_differing reference tested naming
  · rw [hslots]
    exact mem_differing_iff
  · rw [show found = _ from mismatches_eq reference tested naming] at hmismatch
    obtain ⟨slot, -, rfl⟩ := List.mem_map.1 hmismatch
    exact ⟨rfl, rfl, rfl⟩

end Comparison

end OpcodeTable
