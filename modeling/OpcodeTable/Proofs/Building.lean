import OpcodeTable.Proofs.Keys
import OpcodeTable.Table

/-!
# Building tables

A sweep comes to every key once, in the order of the keys.  What it has done at any point
follows from the keys behind it: their slots are assigned as the handler map says, and the
categories reported are those that these keys need and the map lacks, in the order in which
the sweep met them.
-/

namespace OpcodeTable

namespace Sweep

/-- The two values of the multiply/swap bit make two slots of each opcode. -/
theorem range_double (n : Nat) :
    List.range (2 * n) = (List.range n).flatMap fun opcode => [2 * opcode, 2 * opcode + 1] := by
  induction n with
  | zero => rfl
  | succ n ih =>
      rw [Nat.mul_succ, List.range_succ, List.range_succ, ih, List.range_succ,
        List.flatMap_append]
      simp

/-- A sweep takes the keys in table order. -/
theorem order_eq_all : order = Key.all := by
  have hpair : ∀ opcode ∈ List.range 256,
      ([false, true].map fun mulSwp => Key.ofFields (BitVec.ofNat 8 opcode) mulSwp) =
        [2 * opcode, 2 * opcode + 1].map Key.ofSlot := by
    intro opcode hopcode
    simp [Key.ofFields_eq_ofSlot (List.mem_range.1 hopcode)]
  calc
    order = (List.range 256).flatMap fun opcode =>
        [2 * opcode, 2 * opcode + 1].map Key.ofSlot := by
      exact List.flatMap_congr hpair
    _ = (List.range (2 * 256)).map Key.ofSlot := by
      rw [range_double, List.map_flatMap]
    _ = Key.all := rfl

/-- A category of the keys passed is met before another if the sweep came to one of its keys
before it came to any of the other's. -/
def MetBefore (keys : List Key) (earlier later : Category) : Prop :=
  ∃ before key after, keys = before ++ key :: after ∧ key.category = earlier ∧
    ∀ passed ∈ before ++ [key], passed.category ≠ later

theorem MetBefore.append {keys : List Key} {earlier later : Category}
    (hmet : MetBefore keys earlier later) (more : List Key) :
    MetBefore (keys ++ more) earlier later := by
  obtain ⟨before, key, after, rfl, hkey, hpassed⟩ := hmet
  exact ⟨before, key, after ++ more, by simp, hkey, hpassed⟩

/-- A category that no key has needed so far is met after all that were needed. -/
theorem metBefore_of_mem {keys : List Key} {key : Key} {later : Category} (hkey : key ∈ keys)
    (hlater : ∀ passed ∈ keys, passed.category ≠ later) :
    MetBefore keys key.category later := by
  obtain ⟨before, after, rfl⟩ := List.append_of_mem hkey
  refine ⟨before, key, after, rfl, rfl, fun passed hpassed => hlater passed ?_⟩
  simp only [List.mem_append, List.mem_cons] at hpassed ⊢
  tauto

/-- The slots of a sweep that has passed the given keys. -/
structure Filled (names : HandlerMap) (fallback : String) (keys : List Key)
    (sweep : Sweep) : Prop where
  handlers : ∀ key, sweep.handlers[key.index] =
    if key ∈ keys then names.resolve fallback key.category else fallback
  assigned : ∀ key, sweep.assigned[key.index] = decide (key ∈ keys)

/-- The notes of a sweep that has passed the given keys. -/
structure Noted (names : HandlerMap) (fallback : String) (keys : List Key)
    (sweep : Sweep) : Prop where
  mem_unmapped : ∀ category, category ∈ sweep.unmapped ↔
    names.get? category = none ∧ ∃ key ∈ keys, key.category = category
  nodup : sweep.unmapped.Nodup
  met : sweep.unmapped.Pairwise (MetBefore keys)
  reported : sweep.reported = sweep.unmapped.map (.noHandler · fallback)

variable {names : HandlerMap} {fallback : String} {keys : List Key} {sweep : Sweep}

theorem getElem_set_index {β : Type} (slots : Vector β Key.count) (key other : Key)
    (value : β) :
    (slots.set key.index value)[other.index] =
      if other = key then value else slots[other.index] := by
  rw [Vector.getElem_set]
  by_cases hkey : other = key
  · simp [hkey]
  · have hindex : key.index ≠ other.index := fun heq => hkey (Key.index_injective heq).symm
    rw [if_neg hindex, if_neg hkey]

theorem handlers_assign (sweep : Sweep) (key other : Key) (handler : String) :
    (sweep.assign key handler).handlers[other.index] =
      if other = key then handler else sweep.handlers[other.index] :=
  getElem_set_index sweep.handlers key other handler

theorem assigned_assign (sweep : Sweep) (key other : Key) (handler : String) :
    (sweep.assign key handler).assigned[other.index] =
      if other = key then true else sweep.assigned[other.index] :=
  getElem_set_index sweep.assigned key other true

theorem Filled.assign (hfilled : Filled names fallback keys sweep) (key : Key) :
    Filled names fallback (keys ++ [key])
      (sweep.assign key (names.resolve fallback key.category)) where
  handlers := by
    intro other
    rw [handlers_assign, hfilled.handlers]
    by_cases hkey : other = key <;> simp [hkey]
  assigned := by
    intro other
    rw [assigned_assign, hfilled.assigned]
    by_cases hkey : other = key <;> simp [hkey]

theorem Filled.note (hfilled : Filled names fallback keys sweep) (category : Category) :
    Filled names fallback keys (sweep.note category fallback) := by
  rw [Sweep.note]
  split
  · exact hfilled
  · exact ⟨hfilled.handlers, hfilled.assigned⟩

/-- Passing a key fills its slot, whatever is noted of its category. -/
theorem Filled.visit (hfilled : Filled names fallback keys sweep) (key : Key) :
    Filled names fallback (keys ++ [key]) (sweep.visit names fallback key) := by
  rw [Sweep.visit]
  cases hget : names.get? key.category with
  | some handler =>
      have hassign := hfilled.assign key
      rwa [HandlerMap.resolve, hget] at hassign
  | none =>
      have hassign := (hfilled.note key.category).assign key
      rwa [HandlerMap.resolve, hget] at hassign

/-- A key leaves the notes as they are if its category has a handler or was noted before. -/
theorem Noted.skip (hnoted : Noted names fallback keys sweep) {key : Key}
    (hskip : names.get? key.category = none → key.category ∈ sweep.unmapped) :
    Noted names fallback (keys ++ [key]) sweep where
  mem_unmapped := by
    intro category
    rw [hnoted.mem_unmapped]
    constructor
    · rintro ⟨hnone, other, hother, hcategory⟩
      exact ⟨hnone, other, List.mem_append_left [key] hother, hcategory⟩
    · rintro ⟨hnone, other, hother, rfl⟩
      rcases List.mem_append.1 hother with hbefore | hlast
      · exact ⟨hnone, other, hbefore, rfl⟩
      · obtain rfl := List.mem_singleton.1 hlast
        exact (hnoted.mem_unmapped other.category).1 (hskip hnone)
  nodup := hnoted.nodup
  met := hnoted.met.imp fun hmet => hmet.append [key]
  reported := hnoted.reported

/-- A category that is noted for the first time goes behind those noted before. -/
theorem Noted.note (hnoted : Noted names fallback keys sweep) {key : Key}
    (hnone : names.get? key.category = none) (hnew : key.category ∉ sweep.unmapped) :
    Noted names fallback (keys ++ [key]) (sweep.note key.category fallback) := by
  have hunneeded : ∀ passed ∈ keys, passed.category ≠ key.category := by
    intro passed hpassed heq
    exact hnew ((hnoted.mem_unmapped key.category).2 ⟨hnone, passed, hpassed, heq⟩)
  rw [Sweep.note, if_neg hnew]
  constructor
  · intro category
    simp only [List.mem_append, hnoted.mem_unmapped, List.mem_singleton, or_and_right,
      exists_or, exists_eq_left, and_or_left]
    grind
  · simpa [List.nodup_append] using ⟨hnoted.nodup, by grind⟩
  · refine List.pairwise_append.2 ⟨hnoted.met.imp fun hmet => hmet.append [key],
      List.pairwise_singleton _ _, ?_⟩
    intro earlier hearlier later hlater
    obtain rfl := List.mem_singleton.1 hlater
    obtain ⟨-, passed, hpassed, rfl⟩ := (hnoted.mem_unmapped earlier).1 hearlier
    exact (metBefore_of_mem hpassed hunneeded).append [key]
  · simp [hnoted.reported]

/-- A category without a handler is noted at the first of its keys and never again. -/
theorem Noted.visit (hnoted : Noted names fallback keys sweep) (key : Key) :
    Noted names fallback (keys ++ [key]) (sweep.visit names fallback key) := by
  rw [Sweep.visit]
  cases hget : names.get? key.category with
  | some handler =>
      have hskip : Noted names fallback (keys ++ [key]) sweep :=
        hnoted.skip (by simp [hget])
      exact ⟨hskip.mem_unmapped, hskip.nodup, hskip.met, hskip.reported⟩
  | none =>
      have hnext : Noted names fallback (keys ++ [key])
          (sweep.note key.category fallback) := by
        by_cases hseen : key.category ∈ sweep.unmapped
        · rw [Sweep.note, if_pos hseen]
          exact hnoted.skip fun _ => hseen
        · exact hnoted.note hget hseen
      exact ⟨hnext.mem_unmapped, hnext.nodup, hnext.met, hnext.reported⟩

theorem filled_start (names : HandlerMap) (fallback : String) :
    Filled names fallback [] (start fallback) :=
  ⟨by simp [start], by simp [start]⟩

theorem noted_start (names : HandlerMap) (fallback : String) :
    Noted names fallback [] (start fallback) :=
  ⟨by simp [start], .nil, .nil, rfl⟩

/-- What one visit keeps, a sweep keeps up to any point. -/
theorem after_induction {motive : List Key → Sweep → Prop} (names : HandlerMap)
    (fallback : String) (hstart : motive [] (start fallback))
    (hvisit : ∀ keys sweep key, motive keys sweep →
      motive (keys ++ [key]) (sweep.visit names fallback key)) (keys : List Key) :
    motive keys (after names fallback keys) := by
  induction keys using List.reverseRecOn with
  | nil => exact hstart
  | append_singleton keys key ih =>
      have hnext := hvisit keys (after names fallback keys) key ih
      rwa [after, List.foldl_append]

/-- The slots of the keys passed have handlers of their categories, and all others the fallback. -/
theorem filled_after (names : HandlerMap) (fallback : String) (keys : List Key) :
    Filled names fallback keys (after names fallback keys) :=
  after_induction names fallback (filled_start names fallback)
    (fun _ _ key hfilled => hfilled.visit key) keys

/-- The categories noted are those of the keys passed that have no handler, in the order in which
the sweep met them. -/
theorem noted_after (names : HandlerMap) (fallback : String) (keys : List Key) :
    Noted names fallback keys (after names fallback keys) :=
  after_induction names fallback (noted_start names fallback)
    (fun _ _ key hnoted => hnoted.visit key) keys

/-- A sweep never comes to a slot that it has assigned. -/
theorem open_after (names : HandlerMap) (fallback : String) {before after : List Key}
    {key : Key} (horder : order = before ++ key :: after) :
    (Sweep.after names fallback before).Open key := by
  have hnodup : (before ++ key :: after).Nodup := by
    rw [← horder, order_eq_all]
    exact Key.nodup_all
  have hkey : key ∉ before := by
    intro hmem
    exact (List.nodup_append.1 hnodup).2.2 key hmem key List.mem_cons_self rfl
  rw [Open, (filled_after names fallback before).assigned]
  exact decide_eq_false hkey

/-- A sweep ends with no slot left open, as the program takes for granted. -/
theorem complete_run (names : HandlerMap) (fallback : String) :
    (run names fallback).Complete := by
  rw [Complete, Vector.all_eq_true]
  intro slot hslot
  have hkey : Key.ofSlot slot ∈ order := order_eq_all ▸ Key.mem_all _
  have hassigned := (filled_after names fallback order).assigned (Key.ofSlot slot)
  simp only [Key.index_ofSlot hslot] at hassigned
  rw [id, run, hassigned]
  exact decide_eq_true hkey

/-- A sweep looks up only the categories of keys. -/
theorem run_congr {names others : HandlerMap} (fallback : String)
    (hsame : ∀ key : Key, others.get? key.category = names.get? key.category) :
    run others fallback = run names fallback := by
  have hvisit : visit others fallback = visit names fallback := by
    funext sweep key
    rw [visit, visit, hsame]
  rw [run, run, after, after, hvisit]

end Sweep

namespace Table

theorem getElem?_handlers_build (names : HandlerMap) (fallback : String) (key : Key) :
    (build names fallback).handlers[key.index]? =
      some (names.resolve fallback key.category) := by
  have hkey : key ∈ Sweep.order := Sweep.order_eq_all ▸ key.mem_all
  have hhandler := (Sweep.filled_after names fallback Sweep.order).handlers key
  rw [if_pos hkey] at hhandler
  rw [build, Vector.getElem?_toList, Sweep.run, Vector.getElem?_eq_getElem (by simp), hhandler]

/-- Every key gets the handler of its category. -/
theorem get_build (names : HandlerMap) (fallback : String) (key : Key) :
    (build names fallback).get key = names.resolve fallback key.category := by
  have hhandler := getElem?_handlers_build names fallback key
  obtain ⟨_, hget⟩ := List.getElem?_eq_some_iff.1 hhandler
  exact hget

/-- The categories that building a table reports, each behind those that lower keys need. -/
theorem buildEvents_eq (names : HandlerMap) (fallback : String) :
    ∃ missing : List Category,
      buildEvents names fallback =
          missing.map (.noHandler · fallback) ++ [.built missing.length fallback] ∧
        missing.Nodup ∧
        (∀ category, category ∈ missing ↔
          names.get? category = none ∧ ∃ key : Key, key.category = category) ∧
        missing.Pairwise fun earlier later => ∃ key : Key, key.category = earlier ∧
          ∀ other : Key, other.category = later → key.index < other.index := by
  have hnoted := Sweep.noted_after names fallback Sweep.order
  have hall := Sweep.order_eq_all
  refine ⟨(Sweep.run names fallback).unmapped, ?_, hnoted.nodup, fun category => ?_, ?_⟩
  · rw [buildEvents, Sweep.run, hnoted.reported]
  · rw [Sweep.run, hnoted.mem_unmapped, hall]
    simp [Key.mem_all]
  · refine hnoted.met.imp ?_
    rintro earlier later ⟨before, key, after, hsplit, hkey, hpassed⟩
    refine ⟨key, hkey, fun other hother => ?_⟩
    have hsorted := Key.pairwise_all
    rw [← hall, hsplit] at hsorted
    have hmem : other ∈ before ++ [key] ++ after := by
      have := other.mem_all
      rwa [← hall, hsplit, List.append_cons] at this
    rcases List.mem_append.1 hmem with hbefore | hafter
    · exact absurd hother (hpassed other hbefore)
    · exact List.rel_of_pairwise_cons (List.pairwise_append.1 hsorted).2.1 hafter

/-- A table built from any handler map has the handler of the category of each key, or the
fallback.  The sweep that fills it comes to every key once, always finds the slot unassigned,
and leaves no slot unassigned.  It warns once of each category that some key needs and the map
lacks, in the order of the least keys, and at the end it gives their number.  What the map has
for other categories changes neither the table nor the log. -/
theorem build_pointwise (names : HandlerMap) (fallback : String) :
    (build names fallback).handlers.length = 512 ∧
      (∀ slot < 512, (build names fallback).handlers[slot]? =
        some ((names.get? (classify (BitVec.ofNat 8 (slot >>> 1)) (slot.testBit 0))).getD
          fallback)) ∧
      (∀ key : Key, Sweep.order.count key = 1) ∧
      (∀ before key after, Sweep.order = before ++ key :: after →
        (Sweep.after names fallback before).Open key) ∧
      (Sweep.run names fallback).Complete ∧
      (∃ missing : List Category,
        (buildEvents names fallback).map (fun event => (event.level, event.message)) =
            missing.map (fun category =>
              (Level.warning, s!"no handler for {category}, using {fallback}")) ++
            [(Level.debug,
              s!"built dispatch table, {missing.length} categories fell back to {fallback}")] ∧
          missing.Nodup ∧
          (∀ category, category ∈ missing ↔
            names.get? category = none ∧ ∃ key : Key, key.category = category) ∧
          missing.Pairwise fun earlier later => ∃ key : Key, key.category = earlier ∧
            ∀ other : Key, other.category = later → key.index < other.index) ∧
      ∀ others : HandlerMap,
        (∀ key : Key, others.get? key.category = names.get? key.category) →
          build others fallback = build names fallback ∧
            buildEvents others fallback = buildEvents names fallback := by
  refine ⟨(build names fallback).length_handlers, ?_, ?_,
    fun before key after => Sweep.open_after names fallback,
    Sweep.complete_run names fallback, ?_, ?_⟩
  · intro slot hslot
    have hhandler := getElem?_handlers_build names fallback (Key.ofSlot slot)
    rwa [Key.index_ofSlot hslot, HandlerMap.resolve, Key.category, Key.opcode_ofSlot hslot,
      Key.mulSwp_ofSlot] at hhandler
  · intro key
    rw [Sweep.order_eq_all]
    exact List.count_eq_one_of_mem Key.nodup_all key.mem_all
  · obtain ⟨missing, hevents, hmissing⟩ := buildEvents_eq names fallback
    refine ⟨missing, ?_, hmissing⟩
    rw [hevents, List.map_append, List.map_map]
    rfl
  · intro others hsame
    have hrun := Sweep.run_congr fallback hsame
    simp only [build, buildEvents, hrun, and_self]

end Table

end OpcodeTable
