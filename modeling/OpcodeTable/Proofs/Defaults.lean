import OpcodeTable.Proofs.Edits

/-!
# Names that may be left out

A slot that a listing leaves out counts as undefined.  If the reference's name for undefined has
the undefined handler as its translation, then a comparison sees no difference between a slot that
is left out and one that is undefined by name, on either side: slots that both sides leave out
agree, and so it makes no difference which slots are compared.
-/

namespace OpcodeTable

namespace OrderedMap

variable {κ ν : Type} [Ord κ]

/-- The map that also gives a value to those of some keys that it leaves out. -/
def filled [Std.TransOrd κ] (map : OrderedMap κ ν) (value : ν) (keys : List κ) :
    OrderedMap κ ν :=
  map.insertAll ((keys.filter fun key => (map.get? key).isNone).map fun key => (key, value))

omit [Ord κ] in
/-- Entries that give one value to some keys. -/
theorem lastValue?_map [DecidableEq κ] (key : κ) (value : ν) (keys : List κ) :
    lastValue? key (keys.map fun key => (key, value)) =
      if key ∈ keys then some value else none := by
  split
  next hkey =>
    refine lastValue?_of_forall (List.mem_map_of_mem hkey) fun other hother => ?_
    obtain ⟨_, -, heq⟩ := List.mem_map.1 hother
    exact (congrArg Prod.snd heq).symm
  next hkey =>
    rw [← Option.not_isSome_iff_eq_none, isSome_lastValue?_iff, List.map_map]
    exact fun hmem => hkey (by simpa using hmem)

/-- Filling gives the default where there was no value, and changes none. -/
theorem get?_filled [Std.TransOrd κ] [Std.LawfulEqOrd κ] [DecidableEq κ] (map : OrderedMap κ ν)
    (value : ν) (keys : List κ) (key : κ) :
    (map.filled value keys).get? key =
      if key ∈ keys then some ((map.get? key).getD value) else map.get? key := by
  rw [filled, get?_insertAll, lastValue?_map]
  cases hget : map.get? key with
  | none => by_cases hkey : key ∈ keys <;> simp [hkey, hget]
  | some given => simp [hget]

end OrderedMap

namespace Listing

/-- The listing that leaves out those of some slots that have a name. -/
def stripped (listing : Listing) (name : String) (slots : List (BitVec 16)) : Listing :=
  listing.edited ((slots.filter fun slot => listing.get? slot = some name).map .remove)

/-- Listings that differ at most in slots to which one gives the default and which the other
leaves out. -/
def EqUpTo (default : String) (left right : Listing) : Prop :=
  ∀ slot, (left.get? slot).getD default = (right.get? slot).getD default

variable {listing : Listing} {name : String} {slots : List (BitVec 16)}

theorem get?_edited_remove (listing : Listing) (slots : List (BitVec 16)) (slot : BitVec 16) :
    (listing.edited (slots.map .remove)).get? slot =
      if slot ∈ slots then none else listing.get? slot := by
  induction slots generalizing listing with
  | nil => rfl
  | cons removed slots ih =>
      rw [List.map_cons, edited_cons, ih, edit, OrderedMap.get?_erase]
      by_cases hslot : slot = removed <;> simp [hslot]

/-- Stripping takes the default away, and nothing else. -/
theorem get?_stripped (slot : BitVec 16) :
    (listing.stripped name slots).get? slot =
      if slot ∈ slots ∧ listing.get? slot = some name then none else listing.get? slot := by
  rw [stripped, get?_edited_remove]
  simp only [List.mem_filter, decide_eq_true_eq]

theorem filled_eqUpTo (listing : Listing) (name : String) (slots : List (BitVec 16)) :
    EqUpTo name (listing.filled name slots) listing := by
  intro slot
  rw [OrderedMap.get?_filled]
  split
  · rfl
  · rfl

theorem stripped_eqUpTo (listing : Listing) (name : String) (slots : List (BitVec 16)) :
    EqUpTo name (listing.stripped name slots) listing := by
  intro slot
  rw [get?_stripped]
  split
  next hname =>
    rw [hname.2]
    rfl
  next => rfl

theorem eqUpTo_of_mem {changed : Listing}
    (hchanged : changed ∈ [listing, listing.filled name slots, listing.stripped name slots]) :
    EqUpTo name changed listing := by
  simp only [List.mem_cons, List.not_mem_nil, or_false] at hchanged
  obtain rfl | rfl | rfl := hchanged
  · exact fun _ => rfl
  · exact filled_eqUpTo listing name slots
  · exact stripped_eqUpTo listing name slots

end Listing

namespace Comparison

variable {reference tested : Listing} {naming : Naming}

/-- Where the name for undefined stands for the undefined handler, slots that neither listing
names do not differ. -/
theorem mem_differing_iff_of_undefined
    (hundefined : naming.get? foreignUndefined = some undefinedHandler) {slot : BitVec 16} :
    slot ∈ differing reference tested naming ↔
      expectedName naming (foreignName reference slot) ≠ actualName tested slot := by
  rw [mem_differing_iff, and_iff_right_iff_imp]
  intro hdiffer
  by_contra hnone
  simp only [not_or, Bool.not_eq_true, Option.isSome_eq_false_iff,
    Option.isNone_iff_eq_none] at hnone
  rw [foreignName, hnone.1, actualName, hnone.2, Option.getD_none, Option.getD_none, expectedName,
    hundefined, Option.getD_some] at hdiffer
  exact hdiffer rfl

/-- Listings that are the same up to their defaults are compared with the same result. -/
theorem mismatches_congr {reference' tested' : Listing}
    (hundefined : naming.get? foreignUndefined = some undefinedHandler)
    (hreference : Listing.EqUpTo foreignUndefined reference' reference)
    (htested : Listing.EqUpTo undefinedHandler tested' tested) :
    mismatches reference' tested' naming = mismatches reference tested naming := by
  have hforeign : foreignName reference' = foreignName reference := funext hreference
  have hactual : actualName tested' = actualName tested := funext htested
  have hdiffering : differing reference' tested' naming = differing reference tested naming := by
    refine (pairwise_differing _ _ _).eq_of_mem_iff (pairwise_differing _ _ _) fun slot => ?_
    rw [mem_differing_iff_of_undefined hundefined, mem_differing_iff_of_undefined hundefined,
      hforeign, hactual]
  rw [mismatches_eq, mismatches_eq, hdiffering]
  refine List.map_congr_left fun slot _ => ?_
  rw [contrast, contrast, hforeign, hactual]

/-- To leave a name out is to give the default.  Wherever the reference's name for undefined has
the undefined handler as its translation, a comparison reports the same whether the reference and
the listing under test are taken as they are, or either or both of them also have their defaults
at any slots that they leave out, or lack them at any slots that have them. -/
theorem mismatches_of_defaults (reference tested : Listing) (naming : Naming)
    (hundefined : naming.get? "ILL" = some "exec_arm_undefined")
    (referenceSlots testedSlots : List (BitVec 16)) :
    ∀ reference' ∈ [reference, reference.filled "ILL" referenceSlots,
        reference.stripped "ILL" referenceSlots],
      ∀ tested' ∈ [tested, tested.filled "exec_arm_undefined" testedSlots,
          tested.stripped "exec_arm_undefined" testedSlots],
        mismatches reference' tested' naming = mismatches reference tested naming := by
  intro reference' hreference tested' htested
  exact mismatches_congr hundefined (Listing.eqUpTo_of_mem hreference)
    (Listing.eqUpTo_of_mem htested)

/-- The names of mGBA are such.  Here a slot is filled in that no listing names, beside one that is
undefined on both sides. -/
theorem mismatches_of_defaults_mgba :
    let reference : Listing := OrderedMap.ofList [(0x010, "ILL"), (0x020, "MUL")]
    let tested : Listing :=
      OrderedMap.ofList [(0x020, "exec_arm_mla"), (0x030, "exec_arm_undefined")]
    Naming.mgba.get? "ILL" = some "exec_arm_undefined" ∧
      mismatches (reference.filled "ILL" [0x020, 0x030, 0xffff])
          (tested.stripped "exec_arm_undefined" [0x020, 0x030]) .mgba =
        mismatches reference tested .mgba := by
  intro reference tested
  have hundefined : Naming.mgba.get? "ILL" = some "exec_arm_undefined" := by
    rw [Naming.mgba, OrderedMap.get?_ofList]
    decide
  have hreport := mismatches_of_defaults reference tested .mgba hundefined
    [0x020, 0x030, 0xffff] [0x020, 0x030]
  exact ⟨hundefined, hreport _ (by simp) _ (by simp)⟩

/-- Without a translation of the name for undefined, a slot that is filled in is reported. -/
example : mismatches (OrderedMap.filled .empty "ILL" [0x010]) .empty .empty ≠
    mismatches .empty .empty .empty := by decide

end Comparison

end OpcodeTable
