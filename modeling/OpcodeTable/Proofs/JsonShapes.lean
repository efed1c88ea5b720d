import OpcodeTable.Json.Category
import OpcodeTable.Json.Record
import OpcodeTable.Proofs.Ranges

/-!
# Accepted shapes

Which JSON values the readers of variants and records take, said without the readers.  A variant
is its name with its parts, a record has every field once.
-/

namespace OpcodeTable

namespace Json

/-! ## Readings -/

section Readings

variable {α β : Type}

theorem bind_eq_ok_iff {reading : Reading α} {next : α → Reading β} {value : β} :
    reading >>= next = .ok value ↔ ∃ first, reading = .ok first ∧ next first = .ok value := by
  cases reading <;> simp [bind, Except.bind]

theorem require_eq_ok_iff {given : Option α} {value : α} :
    require given = .ok value ↔ given = some value := by
  cases given <;> simp [require]

/-- Anything but the number of a word is malformed as a word. -/
theorem asWord_eq_malformed {width : Nat} {json : Json}
    (hjson : ∀ word : BitVec width, json ≠ .integer word.toNat) :
    json.asWord width = .error .malformed := by
  cases json with
  | integer number =>
      cases number with
      | ofNat value =>
          rw [asWord_ofNat]
          refine if_neg fun hvalue => hjson (.ofNat width value) ?_
          rw [hvalue]
          rfl
      | negSucc value => rfl
  | _ => rfl

theorem asString_eq_ok_iff {json : Json} {text : String} :
    json.asString = .ok text ↔ json = .string text := by
  cases json <;> simp [asString]

theorem asBool_eq_ok_iff {json : Json} {flag : Bool} :
    json.asBool = .ok flag ↔ json = .bool flag := by
  cases json <;> simp [asBool]

end Readings

/-! ## Variants -/

/-- The values that a variant with a name is stored as, where each part has a shape of its own.
Without parts the name may stand alone, one part is the content, and two are a list. -/
inductive IsVariant (name : String) : List (Json → Prop) → Json → Prop
  | bare : IsVariant name [] (.string name)
  | null : IsVariant name [] (.object [(name, .null)])
  | one {Part : Json → Prop} {part : Json} :
      Part part → IsVariant name [Part] (.object [(name, part)])
  | two {First Second : Json → Prop} {first second : Json} :
      First first → Second second →
        IsVariant name [First, Second] (.object [(name, .array [first, second])])

theorem variant_eq_ok_none_iff {json : Json} {name : String} :
    json.variant = .ok (name, none) ↔ json = .string name := by
  unfold variant
  split <;> simp_all

theorem variant_eq_ok_some_iff {json content : Json} {name : String} :
    json.variant = .ok (name, some content) ↔ json = .object [(name, content)] := by
  unfold variant
  split <;> simp_all

theorem noField_eq_ok_iff {content : Option Json} :
    noField content = .ok () ↔ content = none ∨ content = some .null := by
  unfold noField
  split <;> simp_all

theorem twoFields_eq_ok_iff {content : Option Json} {first second : Json} :
    twoFields content = .ok (first, second) ↔ content = some (.array [first, second]) := by
  unfold twoFields
  split <;> simp_all

/-- What is read of a variant without parts. -/
theorem isVariant_nil_iff {json : Json} {name : String} :
    IsVariant name [] json ↔
      ∃ content, json.variant = .ok (name, content) ∧ noField content = .ok () := by
  constructor
  · rintro (_ | _)
    · exact ⟨none, rfl, rfl⟩
    · exact ⟨some .null, rfl, rfl⟩
  · rintro ⟨content, hvariant, hcontent⟩
    rcases noField_eq_ok_iff.1 hcontent with rfl | rfl
    · rw [variant_eq_ok_none_iff.1 hvariant]
      exact .bare
    · rw [variant_eq_ok_some_iff.1 hvariant]
      exact .null

/-- Where the names of values tell them apart, a value is read from the variants of its name. -/
theorem asNamed_eq_ok_iff {α : Type} {values : List α} {name : α → String}
    (hnames : ∀ value, values.find? (name · == name value) = some value) {json : Json}
    {value : α} : asNamed values name json = .ok value ↔ IsVariant (name value) [] json := by
  rw [isVariant_nil_iff]
  constructor
  · intro hread
    obtain ⟨⟨given, content⟩, hvariant, hread⟩ := bind_eq_ok_iff.1 hread
    obtain ⟨_, hcontent, hread⟩ := bind_eq_ok_iff.1 hread
    have hgiven : name value = given := by
      simpa using List.find?_some (require_eq_ok_iff.1 hread)
    rw [hgiven]
    exact ⟨content, hvariant, hcontent⟩
  · rintro ⟨content, hvariant, hcontent⟩
    rw [asNamed, hvariant]
    refine bind_eq_ok_iff.2 ⟨_, rfl, bind_eq_ok_iff.2 ⟨(), hcontent, ?_⟩⟩
    exact require_eq_ok_iff.2 (hnames value)

/-! ## Records -/

/-- The values that hold given fields: the list of them, or an object in which each name has its
field and no other.  The members of an object may come in any order, with others among them. -/
inductive HasFields (names : List String) (values : List Json) : Json → Prop
  | list : values.length = names.length → HasFields names values (.array values)
  | object {members : List (String × Json)} :
      List.Forall₂ (fun name value => members.filter (·.1 == name) = [(name, value)])
        names values →
      HasFields names values (.object members)

/-- A member that is there twice is not found. -/
theorem member?_eq_some_iff {members : List (String × Json)} {name : String} {value : Json} :
    member? members name = some value ↔ members.filter (·.1 == name) = [(name, value)] := by
  unfold member?
  split
  next other _ hfilter =>
    have hname : other = name := by
      have hmem : (other, _) ∈ members.filter (·.1 == name) := hfilter ▸ List.mem_singleton_self _
      simpa using (List.mem_filter.1 hmem).2
    rw [hfilter, hname]
    simp
  next hother =>
    refine iff_of_false nofun fun hfilter => ?_
    exact hother _ _ hfilter

theorem mapM_eq_some_iff {α β : Type} {f : α → Option β} {inputs : List α} {outputs : List β} :
    inputs.mapM f = some outputs ↔
      List.Forall₂ (fun input output => f input = some output) inputs outputs := by
  induction inputs generalizing outputs with
  | nil => simp [eq_comm]
  | cons input inputs ih =>
      simp only [List.mapM_cons, Option.bind_eq_bind, Option.bind_eq_some_iff, ih,
        List.forall₂_cons_left_iff, Option.pure_def, Option.some.injEq]
      grind

theorem fields_eq_ok_iff {names : List String} {values : List Json} {json : Json} :
    json.fields names = .ok values ↔ HasFields names values json := by
  constructor
  · intro hread
    cases json with
    | object members =>
        have hmembers := mapM_eq_some_iff.1 (require_eq_ok_iff.1 hread)
        exact .object (hmembers.imp fun _ _ => member?_eq_some_iff.1)
    | array items =>
        rw [fields] at hread
        split at hread
        next hlength =>
          cases hread
          exact .list hlength
        next => cases hread
    | _ => cases hread
  · rintro (hlength | hmembers)
    · exact if_pos hlength
    · refine require_eq_ok_iff.2 (mapM_eq_some_iff.2 ?_)
      exact hmembers.imp fun _ _ => member?_eq_some_iff.2

/-- Where the fields of a record determine it, it is read from whatever has its fields. -/
theorem fields_bind_eq_ok_iff {α : Type} {names : List String} {build : List Json → Reading α}
    {storedFields : α → List Json}
    (hbuild : ∀ values value, build values = .ok value ↔ values = storedFields value)
    {json : Json} {value : α} :
    json.fields names >>= build = .ok value ↔ HasFields names (storedFields value) json := by
  simp only [bind_eq_ok_iff, hbuild, exists_eq_right, fields_eq_ok_iff]

theorem filter_zip {names : List String} {values : List Json} {name : String} {value : Json}
    (hnodup : names.Nodup) (hmem : (name, value) ∈ names.zip values) :
    (names.zip values).filter (·.1 == name) = [(name, value)] := by
  induction names generalizing values with
  | nil => simp at hmem
  | cons head names ih =>
      cases values with
      | nil => simp at hmem
      | cons first values =>
          rw [List.nodup_cons] at hnodup
          rw [List.zip_cons_cons, List.mem_cons] at hmem
          rw [List.zip_cons_cons]
          rcases hmem with heq | hmem
          · cases heq
            have hnone : (names.zip values).filter (·.1 == name) = [] := by
              rw [List.filter_eq_nil_iff]
              rintro ⟨other, _⟩ hother heq
              exact hnodup.1 (beq_iff_eq.1 heq ▸ (List.of_mem_zip hother).1)
            simp [hnone]
          · have hne : head ≠ name := by
              rintro rfl
              exact hnodup.1 (List.of_mem_zip hmem).1
            rw [List.filter_cons_of_neg (by simpa using hne)]
            exact ih hnodup.2 hmem

/-- The object made of names and fields has the fields. -/
theorem hasFields_zip {names : List String} {values : List Json} (hnodup : names.Nodup)
    (hlength : names.length = values.length) :
    HasFields names values (.object (names.zip values)) :=
  .object (List.forall₂_iff_zip.2 ⟨hlength, filter_zip hnodup⟩)

end Json

end OpcodeTable
