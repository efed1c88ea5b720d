/-!
# Finite maps in key order

A finite map is the list of its entries with strictly increasing keys.  Each map
then has one representation: `OrderedMap.ext_get?` says that two maps with the
same lookups are equal, and walking the entries visits the keys in order.
-/

namespace OpcodeTable

/-- A finite map from `κ` to `ν`, stored as its entries in increasing key order. -/
structure OrderedMap (κ ν : Type) [Ord κ] where
  entries : List (κ × ν)
  ordered : entries.Pairwise fun left right => compare left.1 right.1 = .lt

namespace OrderedMap

variable {κ ν : Type} [Ord κ]

instance [DecidableEq κ] [DecidableEq ν] : DecidableEq (OrderedMap κ ν) :=
  fun left right =>
    if hentries : left.entries = right.entries then
      .isTrue (by
        obtain ⟨leftEntries, _⟩ := left
        obtain ⟨rightEntries, _⟩ := right
        cases hentries
        rfl)
    else
      .isFalse fun heq => hentries (congrArg entries heq)

def empty : OrderedMap κ ν := ⟨[], .nil⟩

instance : Inhabited (OrderedMap κ ν) := ⟨empty⟩

def size (map : OrderedMap κ ν) : Nat := map.entries.length

def isEmpty (map : OrderedMap κ ν) : Bool := map.entries.isEmpty

def keys (map : OrderedMap κ ν) : List κ := map.entries.map (·.1)

def lookup (key : κ) : List (κ × ν) → Option ν
  | [] => none
  | (headKey, value) :: tail =>
    if compare key headKey = .eq then some value else lookup key tail

def get? (map : OrderedMap κ ν) (key : κ) : Option ν := lookup key map.entries

/-- Puts an entry at its place in an ordered list, over an entry with the same key. -/
def insertEntry (key : κ) (value : ν) : List (κ × ν) → List (κ × ν)
  | [] => [(key, value)]
  | (headKey, headValue) :: tail =>
    match compare key headKey with
    | .lt => (key, value) :: (headKey, headValue) :: tail
    | .eq => (key, value) :: tail
    | .gt => (headKey, headValue) :: insertEntry key value tail

theorem mem_insertEntry {key : κ} {value : ν} {entry : κ × ν} {entries : List (κ × ν)}
    (hmem : entry ∈ insertEntry key value entries) :
    entry = (key, value) ∨ entry ∈ entries := by
  induction entries with
  | nil => simpa [insertEntry] using hmem
  | cons head tail ih =>
    obtain ⟨headKey, headValue⟩ := head
    unfold insertEntry at hmem
    split at hmem <;> grind

theorem pairwise_insertEntry [Std.TransOrd κ] (key : κ) (value : ν)
    {entries : List (κ × ν)}
    (hordered : entries.Pairwise fun left right => compare left.1 right.1 = .lt) :
    (insertEntry key value entries).Pairwise
      fun left right => compare left.1 right.1 = .lt := by
  induction entries with
  | nil => simp [insertEntry]
  | cons head tail ih =>
    obtain ⟨headKey, headValue⟩ := head
    have hhead : ∀ entry ∈ tail, compare headKey entry.1 = .lt :=
      fun entry hentry => List.rel_of_pairwise_cons hordered hentry
    unfold insertEntry
    split
    next hlt =>
      refine hordered.cons fun entry hentry => ?_
      rcases List.mem_cons.1 hentry with rfl | htail
      · exact hlt
      · exact Std.TransCmp.lt_trans hlt (hhead entry htail)
    next heq =>
      exact hordered.of_cons.cons fun entry hentry =>
        Std.TransCmp.lt_of_eq_of_lt heq (hhead entry hentry)
    next hgt =>
      refine (ih hordered.of_cons).cons fun entry hentry => ?_
      rcases mem_insertEntry hentry with rfl | htail
      · exact Std.OrientedCmp.lt_of_gt hgt
      · exact hhead entry htail

/-- The map with `value` under `key`, whatever was there before. -/
def insert [Std.TransOrd κ] (map : OrderedMap κ ν) (key : κ) (value : ν) :
    OrderedMap κ ν :=
  ⟨insertEntry key value map.entries, pairwise_insertEntry key value map.ordered⟩

def erase (map : OrderedMap κ ν) (key : κ) : OrderedMap κ ν :=
  ⟨map.entries.filter fun entry => compare key entry.1 != .eq,
    map.ordered.sublist List.filter_sublist⟩

/-- Inserts entries one after another, so that a later entry wins over an earlier one. -/
def insertAll [Std.TransOrd κ] (map : OrderedMap κ ν) (entries : List (κ × ν)) :
    OrderedMap κ ν :=
  entries.foldl (fun map entry => map.insert entry.1 entry.2) map

def ofList [Std.TransOrd κ] (entries : List (κ × ν)) : OrderedMap κ ν :=
  empty.insertAll entries

@[simp]
theorem get?_empty (key : κ) : (empty : OrderedMap κ ν).get? key = none := rfl

theorem lookup_cons [Std.LawfulEqOrd κ] [DecidableEq κ] (probe : κ) (head : κ × ν)
    (tail : List (κ × ν)) :
    lookup probe (head :: tail) =
      if probe = head.1 then some head.2 else lookup probe tail := by
  simp [lookup]

theorem lookup_insertEntry [Std.LawfulEqOrd κ] [DecidableEq κ] (key probe : κ)
    (value : ν) (entries : List (κ × ν)) :
    lookup probe (insertEntry key value entries) =
      if probe = key then some value else lookup probe entries := by
  induction entries with
  | nil => simp [insertEntry, lookup]
  | cons head tail ih =>
    obtain ⟨headKey, headValue⟩ := head
    unfold insertEntry
    split
    next => simp only [lookup_cons]
    next heq =>
      rw [Std.LawfulEqCmp.eq_of_compare heq]
      grind [lookup_cons]
    next hgt =>
      have hne : key ≠ headKey := by
        rintro rfl
        simp at hgt
      grind [lookup_cons]

@[simp]
theorem get?_insert [Std.TransOrd κ] [Std.LawfulEqOrd κ] [DecidableEq κ]
    (map : OrderedMap κ ν) (key probe : κ) (value : ν) :
    (map.insert key value).get? probe =
      if probe = key then some value else map.get? probe :=
  lookup_insertEntry key probe value map.entries

@[simp]
theorem get?_erase [Std.LawfulEqOrd κ] [DecidableEq κ] (map : OrderedMap κ ν)
    (key probe : κ) :
    (map.erase key).get? probe = if probe = key then none else map.get? probe := by
  have hlookup : ∀ entries : List (κ × ν),
      lookup probe (entries.filter fun entry => compare key entry.1 != .eq) =
        if probe = key then none else lookup probe entries := by
    intro entries
    induction entries with
    | nil => simp [lookup]
    | cons head tail ih =>
      by_cases hkey : key = head.1
      · simp [lookup_cons, hkey]
        grind
      · simp [lookup_cons, hkey, ih]
        grind
  exact hlookup map.entries

theorem mem_of_lookup [Std.LawfulEqOrd κ] {key : κ} {value : ν}
    {entries : List (κ × ν)} (hlookup : lookup key entries = some value) :
    (key, value) ∈ entries := by
  induction entries with
  | nil => simp [lookup] at hlookup
  | cons head tail ih =>
    obtain ⟨headKey, headValue⟩ := head
    unfold lookup at hlookup
    split at hlookup
    next heq =>
      cases hlookup
      rw [Std.LawfulEqCmp.eq_of_compare heq]
      simp
    next => exact List.mem_cons_of_mem _ (ih hlookup)

theorem lookup_eq_some_iff [Std.LawfulEqOrd κ] {key : κ} {value : ν}
    {entries : List (κ × ν)}
    (hordered : entries.Pairwise fun left right => compare left.1 right.1 = .lt) :
    lookup key entries = some value ↔ (key, value) ∈ entries := by
  refine ⟨mem_of_lookup, fun hmem => ?_⟩
  induction entries with
  | nil => simp at hmem
  | cons head tail ih =>
    obtain ⟨headKey, headValue⟩ := head
    rcases List.mem_cons.1 hmem with heq | htail
    · cases heq
      simp [lookup]
    · have hlt : compare headKey key = .lt := by
        simpa using List.rel_of_pairwise_cons hordered htail
      have hne : compare key headKey ≠ .eq := by
        intro heq
        rw [Std.LawfulEqCmp.eq_of_compare heq] at hlt
        simp at hlt
      simp only [lookup, if_neg hne, ih hordered.of_cons htail]

/-- A map finds what is among its entries, since no two of them have the same key. -/
theorem get?_eq_some_iff [Std.LawfulEqOrd κ] {map : OrderedMap κ ν} {key : κ}
    {value : ν} : map.get? key = some value ↔ (key, value) ∈ map.entries :=
  lookup_eq_some_iff map.ordered

/-- Two lists of entries in key order are equal once they have the same members. -/
theorem entries_eq_of_mem_iff [Std.TransOrd κ] {left right : List (κ × ν)}
    (hleft : left.Pairwise fun first second => compare first.1 second.1 = .lt)
    (hright : right.Pairwise fun first second => compare first.1 second.1 = .lt)
    (hmem : ∀ entry, entry ∈ left ↔ entry ∈ right) : left = right := by
  have hirrefl : ∀ key : κ, compare key key ≠ .lt := by simp
  have hnotin : ∀ {head : κ × ν} {tail : List (κ × ν)},
      (head :: tail).Pairwise (fun first second => compare first.1 second.1 = .lt) →
        head ∉ tail :=
    fun hpairwise hin => hirrefl _ (List.rel_of_pairwise_cons hpairwise hin)
  induction left generalizing right with
  | nil => exact (List.eq_nil_iff_forall_not_mem.2 fun entry => by simp [← hmem]).symm
  | cons leftHead leftTail ih =>
    cases right with
    | nil => exact absurd ((hmem leftHead).1 (by simp)) (by simp)
    | cons rightHead rightTail =>
      have hheads : leftHead = rightHead := by
        rcases List.mem_cons.1 ((hmem leftHead).1 (by simp)) with heq | hin
        · exact heq
        rcases List.mem_cons.1 ((hmem rightHead).2 (by simp)) with heq | hin'
        · exact heq.symm
        exact absurd (Std.TransCmp.lt_trans (List.rel_of_pairwise_cons hright hin)
          (List.rel_of_pairwise_cons hleft hin')) (hirrefl _)
      subst hheads
      rw [ih hleft.of_cons hright.of_cons fun entry => ?_]
      have := hmem entry
      have := hnotin hleft
      have := hnotin hright
      grind

/-- Two maps with the same lookups are the same map. -/
theorem ext_get? [Std.TransOrd κ] [Std.LawfulEqOrd κ] {left right : OrderedMap κ ν}
    (hget : ∀ key, left.get? key = right.get? key) : left = right := by
  have hentries : left.entries = right.entries := by
    apply entries_eq_of_mem_iff left.ordered right.ordered
    rintro ⟨key, value⟩
    rw [← get?_eq_some_iff, ← get?_eq_some_iff, hget]
  obtain ⟨leftEntries, _⟩ := left
  obtain ⟨rightEntries, _⟩ := right
  cases hentries
  rfl

end OrderedMap

end OpcodeTable
