import Mathlib
import OpcodeTable.Run

/-!
# Tilings

Runs tile a stretch of slots when they follow one another without gaps and none is empty.
Each slot of the stretch then belongs to exactly one run, and that run holds the slot's entry
at the slot's distance from its own start.
-/

namespace OpcodeTable.Run

variable {α : Type}

/-- Runs that are not empty and follow one another from a slot up to another. -/
inductive Tiles : Nat → List (Run α) → Nat → Prop
  | nil (slot : Nat) : Tiles slot [] slot
  | cons {start stop : Nat} {run : Run α} {runs : List (Run α)} (hstart : run.start = start)
      (hpos : 0 < run.count) (htail : Tiles (start + run.count) runs stop) :
      Tiles start (run :: runs) stop

/-- Whether a slot lies between the first and the last slot of a run. -/
def Holds (run : Run α) (slot : Nat) : Prop := run.start ≤ slot ∧ slot ≤ run.last

@[simp]
theorem length_entries (run : Run α) : run.entries.length = run.count := by
  simp [entries]

theorem entries_ne_nil {run : Run α} (hpos : 0 < run.count) : run.entries ≠ [] := by
  rw [← List.length_pos_iff, length_entries]
  exact hpos

theorem entries_repeated (start count : Nat) (entry : α) :
    (Run.mk start count (.repeated entry)).entries = List.replicate count entry := by
  refine List.ext_getElem (by simp) fun index hleft hright => ?_
  simp [entries, Shape.entry]

theorem holds_iff {run : Run α} (hpos : 0 < run.count) (slot : Nat) :
    run.Holds slot ↔ run.start ≤ slot ∧ slot < run.start + run.count := by
  simp only [Holds, last]
  omega

/-- The slots from the first to the last one are as many as the entries. -/
theorem last_sub_start {run : Run α} (hpos : 0 < run.count) :
    run.last - run.start + 1 = run.count := by
  rw [last]
  omega

namespace Tiles

variable {start middle stop : Nat} {runs others : List (Run α)}

theorem append (hruns : Tiles start runs middle) (hothers : Tiles middle others stop) :
    Tiles start (runs ++ others) stop := by
  induction hruns with
  | nil => exact hothers
  | cons hstart hpos _ ih => exact .cons hstart hpos (ih hothers)

/-- The runs before and the runs from one on tile what lies before and from its start on. -/
theorem of_append (htiles : Tiles start (runs ++ others) stop) :
    ∃ middle, Tiles start runs middle ∧ Tiles middle others stop := by
  induction runs generalizing start with
  | nil => exact ⟨start, .nil start, htiles⟩
  | cons run runs ih =>
      cases htiles with
      | cons hstart hpos htail =>
          obtain ⟨middle, hruns, hothers⟩ := ih htail
          exact ⟨middle, .cons hstart hpos hruns, hothers⟩

theorem count_pos (htiles : Tiles start runs stop) : ∀ run ∈ runs, 0 < run.count := by
  induction htiles with
  | nil => simp
  | cons _ hpos _ ih => exact List.forall_mem_cons.2 ⟨hpos, ih⟩

/-- A tiling has as many entries as slots. -/
theorem stop_eq (htiles : Tiles start runs stop) :
    stop = start + (expand runs).length := by
  induction htiles with
  | nil => rfl
  | cons _ _ _ ih =>
      simp only [expand, List.flatMap_cons, List.length_append, length_entries] at ih ⊢
      omega

theorem lt_stop (htiles : Tiles start runs stop) (hne : runs ≠ []) : start < stop := by
  cases htiles with
  | nil => exact absurd rfl hne
  | cons hstart hpos htail =>
      have := htail.stop_eq
      omega

theorem start_le (htiles : Tiles start runs stop) : ∀ run ∈ runs, start ≤ run.start := by
  induction htiles with
  | nil => simp
  | cons hstart _ _ ih =>
      refine List.forall_mem_cons.2 ⟨Nat.le_of_eq hstart.symm, fun run hrun => ?_⟩
      exact Nat.le_trans (Nat.le_add_right _ _) (ih run hrun)

/-- Every slot of a tiled stretch belongs to exactly one of the runs. -/
theorem existsUnique_holds (htiles : Tiles start runs stop) {slot : Nat}
    (hle : start ≤ slot) (hlt : slot < stop) :
    ∃! index : Nat, ∃ run : Run α, runs[index]? = some run ∧ run.Holds slot := by
  induction htiles with
  | nil => omega
  | @cons start stop run runs hstart hpos htail ih =>
      have hhead := holds_iff hpos slot
      by_cases hslot : slot < start + run.count
      · refine ⟨0, ⟨run, rfl, hhead.2 (by omega)⟩, ?_⟩
        rintro (_ | index) ⟨other, hother, hholds⟩
        · rfl
        · -- a later run starts behind the slot
          have hmem : other ∈ runs := List.mem_of_getElem? hother
          have hbehind := htail.start_le other hmem
          have := hholds.1
          omega
      · obtain ⟨index, hindex, hunique⟩ := ih (by omega) hlt
        refine ⟨index + 1, hindex, ?_⟩
        rintro (_ | other) ⟨found, hfound, hholds⟩
        · obtain rfl : run = found := by simpa using hfound
          have := hhead.1 hholds
          omega
        · exact congrArg (· + 1) (hunique other ⟨found, hfound, hholds⟩)

/-- The entry that a run holds for a slot is the one that the tiling has there. -/
theorem getElem?_expand (htiles : Tiles start runs stop) {run : Run α} (hrun : run ∈ runs)
    {slot : Nat} (hholds : run.Holds slot) :
    run.entries[slot - run.start]? = (expand runs)[slot - start]? := by
  induction htiles with
  | nil => simp at hrun
  | @cons start stop head runs hstart hpos htail ih =>
      have hsplit : expand (head :: runs) = head.entries ++ expand runs := by
        simp [expand]
      rw [hsplit]
      rcases List.mem_cons.1 hrun with rfl | hmem
      · have := (holds_iff hpos slot).1 hholds
        rw [List.getElem?_append_left (by rw [length_entries]; omega), hstart]
      · have hbehind := htail.start_le run hmem
        have := hholds.1
        rw [ih hmem, List.getElem?_append_right (by rw [length_entries]; omega),
          length_entries, Nat.sub_sub]

/-- The entries of a run are a slice of what the tiling has. -/
theorem entries_eq (htiles : Tiles start runs stop) {run : Run α} (hrun : run ∈ runs) :
    run.entries = ((expand runs).drop (run.start - start)).take run.count := by
  induction htiles with
  | nil => simp at hrun
  | @cons start stop head runs hstart hpos htail ih =>
      have hsplit : expand (head :: runs) = head.entries ++ expand runs := by
        simp [expand]
      rw [hsplit]
      rcases List.mem_cons.1 hrun with rfl | hmem
      · rw [hstart, Nat.sub_self, List.drop_zero]
        exact (List.take_left' run.length_entries).symm
      · have hbehind := htail.start_le run hmem
        have hskip : run.start - start =
            head.entries.length + (run.start - (start + head.count)) := by
          rw [length_entries]
          omega
        rw [ih hmem, hskip, List.drop_length_add_append]

/-- Each run starts behind the last slot of the one before it. -/
theorem isChain (htiles : Tiles start runs stop) :
    runs.IsChain fun run next => next.start = run.last + 1 := by
  induction htiles with
  | nil => exact .nil
  | cons hstart hpos htail ih =>
      cases htail with
      | nil => exact .singleton _
      | cons hnext =>
          refine .cons_cons ?_ ih
          rw [hnext, last, hstart]
          omega

theorem head?_start (htiles : Tiles start runs stop) (hne : runs ≠ []) :
    runs.head?.map (·.start) = some start := by
  cases htiles with
  | nil => exact absurd rfl hne
  | cons hstart => exact congrArg some hstart

/-- The last run ends with the last slot. -/
theorem getLast?_last (htiles : Tiles start runs stop) (hne : runs ≠ []) :
    runs.getLast?.map (·.last) = some (stop - 1) := by
  induction htiles with
  | nil => exact absurd rfl hne
  | @cons start stop run runs hstart hpos htail ih =>
      cases htail with
      | nil =>
          have hlast : run.last = start + run.count - 1 := by
            rw [last, hstart]
            omega
          exact congrArg some hlast
      | cons _ _ _ => rw [List.getLast?_cons_cons, ih (List.cons_ne_nil _ _)]

/-- No run goes beyond the end of the tiling. -/
theorem start_add_count_le (htiles : Tiles start runs stop) :
    ∀ run ∈ runs, run.start + run.count ≤ stop := by
  induction htiles with
  | nil => simp
  | cons hstart _ htail ih =>
      refine List.forall_mem_cons.2 ⟨?_, ih⟩
      rw [hstart, htail.stop_eq]
      exact Nat.le_add_right _ _

theorem lt_stop_of_holds (htiles : Tiles start runs stop) {run : Run α} (hrun : run ∈ runs)
    {slot : Nat} (hholds : run.Holds slot) : slot < stop := by
  have hslot := (holds_iff (htiles.count_pos run hrun) slot).1 hholds
  exact Nat.lt_of_lt_of_le hslot.2 (htiles.start_add_count_le run hrun)

end Tiles

end OpcodeTable.Run
