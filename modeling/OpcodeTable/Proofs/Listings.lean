import OpcodeTable.Listing
import OpcodeTable.Proofs.Keys

/-!
# Lookups in listings

Inserting entries one after another leaves under each key the value of the last entry for
that key.  The listing of a table therefore has the handlers of all keys and nothing else.
-/

namespace OpcodeTable

namespace OrderedMap

variable {κ ν : Type} [Ord κ] [Std.TransOrd κ] [Std.LawfulEqOrd κ] [DecidableEq κ]

def insert? (map : OrderedMap κ ν) (found? : Option (κ × ν)) : OrderedMap κ ν :=
  found?.elim map fun entry => map.insert entry.1 entry.2

omit [Std.LawfulEqOrd κ] [DecidableEq κ] in
theorem insertAll_filterMap {α : Type} (map : OrderedMap κ ν) (find? : α → Option (κ × ν))
    (items : List α) :
    map.insertAll (items.filterMap find?) =
      items.foldl (fun map item => map.insert? (find? item)) map := by
  rw [insertAll, List.foldl_filterMap]
  congr 1
  funext map item
  rw [insert?]
  cases find? item <;> rfl

/-- The value in the last of the entries for a key. -/
def lastValue? (key : κ) (entries : List (κ × ν)) : Option ν :=
  (entries.reverse.find? fun entry => entry.1 = key).map (·.2)

omit [Ord κ] [Std.TransOrd κ] [Std.LawfulEqOrd κ] in
theorem lastValue?_append (key : κ) (front back : List (κ × ν)) :
    lastValue? key (front ++ back) = (lastValue? key back).or (lastValue? key front) := by
  rw [lastValue?, List.reverse_append, List.find?_append, Option.map_or, lastValue?, lastValue?]

omit [Ord κ] [Std.TransOrd κ] [Std.LawfulEqOrd κ] in
theorem lastValue?_cons (key : κ) (head : κ × ν) (tail : List (κ × ν)) :
    lastValue? key (head :: tail) =
      (lastValue? key tail).or (if head.1 = key then some head.2 else none) := by
  rw [← List.singleton_append, lastValue?_append]
  congr 1
  by_cases hkey : head.1 = key <;> simp [lastValue?, hkey]

/-- The last of the entries for a key wins over the others and over the map. -/
theorem get?_insertAll (map : OrderedMap κ ν) (entries : List (κ × ν)) (key : κ) :
    (map.insertAll entries).get? key = (lastValue? key entries).or (map.get? key) := by
  induction entries generalizing map with
  | nil => rfl
  | cons head tail ih =>
      have htail := ih (map.insert head.1 head.2)
      rw [get?_insert] at htail
      rw [insertAll, List.foldl_cons, lastValue?_cons]
      refine htail.trans ?_
      rw [Option.or_assoc]
      congr 1
      by_cases hkey : head.1 = key
      · simp [hkey]
      · simp [hkey, Ne.symm hkey]

theorem get?_ofList (entries : List (κ × ν)) (key : κ) :
    (ofList entries).get? key = lastValue? key entries := by
  rw [ofList, get?_insertAll, get?_empty, Option.or_none]

omit [Ord κ] [Std.TransOrd κ] [Std.LawfulEqOrd κ] in
theorem mem_of_lastValue? {key : κ} {value : ν} {entries : List (κ × ν)}
    (hlast : lastValue? key entries = some value) : (key, value) ∈ entries := by
  obtain ⟨entry, hfind, rfl⟩ := Option.map_eq_some_iff.1 hlast
  have hkey : entry.1 = key := by simpa using List.find?_some hfind
  have hmem := List.mem_of_find?_eq_some hfind
  rw [← hkey]
  exact List.mem_reverse.1 hmem

omit [Ord κ] [Std.TransOrd κ] [Std.LawfulEqOrd κ] in
theorem isSome_lastValue?_iff {key : κ} {entries : List (κ × ν)} :
    (lastValue? key entries).isSome = true ↔ key ∈ entries.map (·.1) := by
  simp [lastValue?]

omit [Ord κ] [Std.TransOrd κ] [Std.LawfulEqOrd κ] in
/-- Entries for a key that all have one value may be repeated. -/
theorem lastValue?_of_forall {key : κ} {value : ν} {entries : List (κ × ν)}
    (hmem : (key, value) ∈ entries)
    (hsame : ∀ other, (key, other) ∈ entries → other = value) :
    lastValue? key entries = some value := by
  have hsome : (lastValue? key entries).isSome = true :=
    isSome_lastValue?_iff.2 (List.mem_map.2 ⟨_, hmem, rfl⟩)
  obtain ⟨other, hother⟩ := Option.isSome_iff_exists.1 hsome
  rw [hother, hsame other (mem_of_lastValue? hother)]

omit [Ord κ] [Std.TransOrd κ] [Std.LawfulEqOrd κ] in
/-- Where no key has two entries, each entry is the last for its key. -/
theorem lastValue?_of_mem {key : κ} {value : ν} {entries : List (κ × ν)}
    (hnodup : (entries.map (·.1)).Nodup) (hmem : (key, value) ∈ entries) :
    lastValue? key entries = some value := by
  refine lastValue?_of_forall hmem fun other hother => ?_
  have hentry := List.inj_on_of_nodup_map hnodup hother hmem rfl
  exact congrArg Prod.snd hentry

omit [Std.LawfulEqOrd κ] [DecidableEq κ] in
theorem nodup_keys (map : OrderedMap κ ν) : map.keys.Nodup := by
  refine List.pairwise_map.2 (map.ordered.imp ?_)
  intro left right hlt heq
  rw [heq] at hlt
  simp at hlt

/-- The order in which the entries of a map are inserted makes no difference. -/
theorem ofList_of_perm {map : OrderedMap κ ν} {entries : List (κ × ν)}
    (hperm : entries.Perm map.entries) : ofList entries = map := by
  apply ext_get?
  intro key
  apply Option.ext
  intro value
  rw [get?_ofList, get?_eq_some_iff, ← hperm.mem_iff]
  have hnodup : (entries.map (·.1)).Nodup := (hperm.map _).nodup_iff.2 map.nodup_keys
  exact ⟨mem_of_lastValue?, lastValue?_of_mem hnodup⟩

omit [Std.TransOrd κ] [DecidableEq κ] in
theorem mem_keys_iff {map : OrderedMap κ ν} {key : κ} :
    key ∈ map.keys ↔ (map.get? key).isSome = true := by
  rw [keys, List.mem_map, Option.isSome_iff_exists]
  constructor
  · rintro ⟨entry, hentry, rfl⟩
    exact ⟨entry.2, get?_eq_some_iff.2 hentry⟩
  · rintro ⟨value, hget⟩
    exact ⟨(key, value), get?_eq_some_iff.1 hget, rfl⟩

theorem isSome_get?_insertAll {map : OrderedMap κ ν} {entries : List (κ × ν)} {key : κ} :
    ((map.insertAll entries).get? key).isSome = true ↔
      key ∈ entries.map (·.1) ∨ (map.get? key).isSome = true := by
  rw [get?_insertAll, Option.isSome_or, Bool.or_eq_true, isSome_lastValue?_iff]

end OrderedMap

namespace Listing

/-- The slots that a listing names, in order. -/
theorem pairwise_keys (listing : Listing) : listing.keys.Pairwise (· < ·) := by
  rw [OrderedMap.keys, List.pairwise_map]
  exact listing.ordered.imp fun {left right} hlt => by simpa [compare] using hlt

/-- A slot has the upper name if there is one, and else the lower one. -/
theorem get?_override (lower upper : Listing) (slot : BitVec 16) :
    (lower.override upper).get? slot = (upper.get? slot).or (lower.get? slot) := by
  have hupper := OrderedMap.get?_ofList upper.entries slot
  rw [OrderedMap.ofList_of_perm (.refl upper.entries)] at hupper
  rw [override, OrderedMap.get?_insertAll, hupper]

/-- A name read from a text stands on one of its lines. -/
theorem exists_line_of_get?_ofText {readLine? : List Char → Option (BitVec 16 × String)}
    {text : String} {slot : BitVec 16} {name : String}
    (hget : (ofText readLine? text).get? slot = some name) :
    ∃ line ∈ Line.lines text.toList, readLine? line = some (slot, name) := by
  rw [ofText, OrderedMap.get?_ofList] at hget
  exact List.mem_filterMap.1 (OrderedMap.mem_of_lastValue? hget)

end Listing

namespace Table

theorem getElem?_handlers (table : Table) (key : Key) :
    table.handlers[key.index]? = some (table.get key) := by
  have hlt : key.index < table.handlers.length := by
    rw [table.length_handlers]
    exact key.index_lt_count
  exact List.getElem?_eq_getElem hlt

theorem get_mem_handlers (table : Table) (key : Key) : table.get key ∈ table.handlers :=
  List.mem_of_getElem? (table.getElem?_handlers key)

theorem mem_entries (table : Table) (key : Key) : (key, table.get key) ∈ table.entries := by
  apply List.mem_of_getElem? (i := key.index)
  rw [entries, List.getElem?_zip_eq_some]
  exact ⟨Key.getElem?_all key, table.getElem?_handlers key⟩

theorem map_fst_entries (table : Table) : table.entries.map (·.1) = Key.all := by
  apply List.map_fst_zip
  exact Nat.le_of_eq (Key.length_all.trans table.length_handlers.symm)

theorem map_snd_entries (table : Table) : table.entries.map (·.2) = table.handlers := by
  apply List.map_snd_zip
  exact Nat.le_of_eq (table.length_handlers.trans Key.length_all.symm)

/-- The listing of a table names the handler of each key at the key's slot. -/
theorem get?_listing (table : Table) (key : Key) :
    table.listing.get? key.slot = some (table.get key) := by
  rw [listing, OrderedMap.get?_ofList]
  apply OrderedMap.lastValue?_of_mem
  · rw [List.map_map]
    have hslots := List.Nodup.map Key.slot_injective Key.nodup_all
    rwa [← table.map_fst_entries, List.map_map] at hslots
  · exact List.mem_map.2 ⟨_, table.mem_entries key, rfl⟩

theorem mem_keys_listing {table : Table} {slot : BitVec 16} :
    slot ∈ table.listing.keys ↔ slot ∈ Key.all.map Key.slot := by
  rw [OrderedMap.mem_keys_iff, listing, OrderedMap.get?_ofList,
    OrderedMap.isSome_lastValue?_iff, ← table.map_fst_entries, List.map_map, List.map_map]
  rfl

/-- The listing of a table names the slots of keys and no others. -/
theorem keys_listing (table : Table) : table.listing.keys = Key.all.map Key.slot :=
  table.listing.pairwise_keys.eq_of_mem_iff Key.pairwise_slots fun _ => mem_keys_listing

end Table

end OpcodeTable
