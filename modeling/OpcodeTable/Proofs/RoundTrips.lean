import OpcodeTable.Proofs.JsonShapes

/-!
# Stored values

What is stored is read back, whichever of the accepted shapes it has been brought into.  For each
type the JSON values that stand for a value are described beside its reader, and the reader takes
these and no others.
-/

namespace OpcodeTable

namespace Json

def restore {α : Type} (store : α → Json) (read : Json → Reading α) (json : Json) :
    Reading Json :=
  (read json).map store

/-- Storing and reading undo each other, where the values that are read as `value` are those that
`StoredAs value` describes. -/
structure RoundTrips {α : Type} (store : α → Json) (read : Json → Reading α)
    (StoredAs : α → Json → Prop) : Prop where
  read_store : ∀ value, read (store value) = .ok value
  read_eq_ok_iff : ∀ json value, read json = .ok value ↔ StoredAs value json
  read_store_of_read : ∀ json value, read json = .ok value → read (store value) = .ok value
  restore_restore : ∀ json, restore store read json >>= restore store read =
    restore store read json

/-- Storing and reading undo each other once the values are known that are read, and the stored one
is among them. -/
theorem RoundTrips.of_iff {α : Type} {store : α → Json} {read : Json → Reading α}
    {StoredAs : α → Json → Prop} (hstore : ∀ value, StoredAs value (store value))
    (hread : ∀ json value, read json = .ok value ↔ StoredAs value json) :
    RoundTrips store read StoredAs := by
  have hback : ∀ value, read (store value) = .ok value :=
    fun value => (hread _ _).2 (hstore value)
  refine ⟨hback, hread, fun _ value _ => hback value, fun json => ?_⟩
  cases hjson : read json with
  | error fault =>
      rw [restore, hjson]
      rfl
  | ok value =>
      rw [restore, hjson]
      change restore store read (store value) = .ok (store value)
      rw [restore, hback]
      rfl

end Json

/-! ## Keys -/

namespace Key

def StoredAs (key : Key) (json : Json) : Prop := json = .integer key.index

theorem roundTrips : Json.RoundTrips toJson ofJson StoredAs :=
  .of_iff (fun _ => rfl) fun _ _ => ofJson_eq_ok_iff

/-- Nothing but a number below 512 is read as a key. -/
theorem exists_ofJson_eq_ok_iff {json : Json} :
    (∃ key, ofJson json = .ok key) ↔ ∃ number : Nat, number < 512 ∧ json = .integer number := by
  constructor
  · rintro ⟨key, hread⟩
    exact ⟨key.index, key.index_lt_count, ofJson_eq_ok_iff.1 hread⟩
  · rintro ⟨number, hlt, rfl⟩
    obtain ⟨key, rfl⟩ : ∃ key : Key, key.index = number := ⟨_, index_ofSlot hlt⟩
    exact ⟨key, ofJson_eq_ok_iff.2 rfl⟩

/-- A number of 16 bits that is no key's is reported as such. -/
theorem ofJson_integer_of_le {number : Nat} (hle : 512 ≤ number) (hlt : number < 65536) :
    ofJson (.integer number) = .error (.keyOutOfRange (.ofNat 16 number)) := by
  have hnumber : (BitVec.ofNat 16 number).toNat = number := by
    rw [BitVec.toNat_ofNat, Nat.mod_eq_of_lt hlt]
  have hbits : count ≤ (BitVec.ofNat 16 number).toNat := hle.trans_eq hnumber.symm
  have hread := ofJson_of_le hbits
  rwa [hnumber] at hread

/-- A key out of range is told from what is no number of 16 bits at all. -/
theorem ofJson_eq_malformed {json : Json}
    (hnumber : ∀ number : Nat, number < 65536 → json ≠ .integer number) :
    ofJson json = .error .malformed := by
  have hword : json.asWord 16 = .error .malformed :=
    Json.asWord_eq_malformed fun word => hnumber word.toNat word.isLt
  rw [ofJson, hword]
  rfl

end Key

/-! ## Categories -/

def AluOp.StoredAs (op : AluOp) : Json → Prop := Json.IsVariant op.name []

def Operand.StoredAs (operand : Operand) : Json → Prop :=
  Json.IsVariant operand.variantName []

def Indexing.StoredAs (indexing : Indexing) : Json → Prop :=
  Json.IsVariant indexing.variantName []

theorem AluOp.ofJson_eq_ok_iff {json : Json} {op : AluOp} :
    ofJson json = .ok op ↔ op.StoredAs json :=
  Json.asNamed_eq_ok_iff fun op => by cases op <;> rfl

theorem Operand.ofJson_eq_ok_iff {json : Json} {operand : Operand} :
    ofJson json = .ok operand ↔ operand.StoredAs json :=
  Json.asNamed_eq_ok_iff fun operand => by cases operand <;> rfl

theorem Indexing.ofJson_eq_ok_iff {json : Json} {indexing : Indexing} :
    ofJson json = .ok indexing ↔ indexing.StoredAs json :=
  Json.asNamed_eq_ok_iff fun indexing => by cases indexing <;> rfl

theorem AluOp.roundTrips : Json.RoundTrips toJson ofJson StoredAs :=
  .of_iff (fun _ => .bare) fun _ _ => ofJson_eq_ok_iff

theorem Operand.roundTrips : Json.RoundTrips toJson ofJson StoredAs :=
  .of_iff (fun _ => .bare) fun _ _ => ofJson_eq_ok_iff

theorem Indexing.roundTrips : Json.RoundTrips toJson ofJson StoredAs :=
  .of_iff (fun _ => .bare) fun _ _ => ofJson_eq_ok_iff

namespace Category

/-- What the parts of a category are stored as. -/
def parts : Category → List (Json → Prop)
  | msr operand | ldc operand | stc operand => [operand.StoredAs]
  | dataProcessing op operand => [op.StoredAs, operand.StoredAs]
  | str offset indexing | strb offset indexing | ldr offset indexing | ldrb offset indexing =>
    [offset.StoredAs, indexing.StoredAs]
  | _ => []

def StoredAs (category : Category) : Json → Prop :=
  Json.IsVariant category.variantName category.parts

theorem storedAs_toJson (category : Category) : category.StoredAs category.toJson := by
  cases category with
  | msr | ldc | stc => exact .one .bare
  | dataProcessing | str | strb | ldr | ldrb => exact .two .bare .bare
  | _ => exact .bare

theorem parts_of_mem_simple {category : Category} (hmem : category ∈ simple) :
    category.parts = [] := by
  cases category with
  | msr | dataProcessing | str | strb | ldr | ldrb | ldc | stc => simp [simple] at hmem
  | _ => rfl

section Contents

variable {json : Json} {name : String} {content : Option Json} {category : Category}

theorem ofOperand_eq_ok_iff {kind : Operand → Category} :
    ofOperand kind content = .ok category ↔
      ∃ part operand, content = some part ∧ operand.StoredAs part ∧ kind operand = category := by
  simp only [ofOperand, Json.oneField, Json.bind_eq_ok_iff, Json.require_eq_ok_iff,
    Operand.ofJson_eq_ok_iff, pure, Except.pure, Except.ok.injEq, exists_and_left]

theorem ofTransfer_eq_ok_iff {kind : Operand → Indexing → Category} :
    ofTransfer kind content = .ok category ↔
      ∃ first second offset indexing, content = some (.array [first, second]) ∧
        offset.StoredAs first ∧ indexing.StoredAs second ∧ kind offset indexing = category := by
  simp only [ofTransfer, Json.bind_eq_ok_iff, Prod.exists, Json.twoFields_eq_ok_iff,
    Operand.ofJson_eq_ok_iff, Indexing.ofJson_eq_ok_iff, pure, Except.pure, Except.ok.injEq,
    exists_and_left]

theorem storedAs_of_ofOperand {kind : Operand → Category}
    (hkind : ∀ operand, (kind operand).StoredAs = Json.IsVariant name [operand.StoredAs])
    (hvariant : json.variant = .ok (name, content)) (hread : ofOperand kind content = .ok category) :
    category.StoredAs json := by
  obtain ⟨part, operand, rfl, hoperand, rfl⟩ := ofOperand_eq_ok_iff.1 hread
  rw [hkind, Json.variant_eq_ok_some_iff.1 hvariant]
  exact .one hoperand

theorem storedAs_of_ofTransfer {kind : Operand → Indexing → Category}
    (hkind : ∀ offset indexing, (kind offset indexing).StoredAs =
      Json.IsVariant name [offset.StoredAs, indexing.StoredAs])
    (hvariant : json.variant = .ok (name, content))
    (hread : ofTransfer kind content = .ok category) : category.StoredAs json := by
  obtain ⟨first, second, offset, indexing, rfl, hoffset, hindexing, rfl⟩ :=
    ofTransfer_eq_ok_iff.1 hread
  rw [hkind, Json.variant_eq_ok_some_iff.1 hvariant]
  exact .two hoffset hindexing

end Contents

/-- Whatever is read as a category is one of its shapes. -/
theorem storedAs_of_ofJson {category : Category} {json : Json} (hread : ofJson json = .ok category) :
    category.StoredAs json := by
  obtain ⟨⟨name, content⟩, hvariant, hread⟩ := Json.bind_eq_ok_iff.1 hread
  dsimp only at hread
  -- One case for each name that has parts, in the order of the reader, and one for all others.
  split at hread
  case h_1 | h_2 | h_3 => exact storedAs_of_ofOperand (fun _ => rfl) hvariant hread
  case h_4 | h_5 | h_6 | h_7 => exact storedAs_of_ofTransfer (fun _ _ => rfl) hvariant hread
  case h_8 =>
    obtain ⟨⟨first, second⟩, hparts, hread⟩ := Json.bind_eq_ok_iff.1 hread
    obtain ⟨op, hop, hread⟩ := Json.bind_eq_ok_iff.1 hread
    obtain ⟨operand, hoperand, hread⟩ := Json.bind_eq_ok_iff.1 hread
    cases hread
    rw [Json.twoFields_eq_ok_iff.1 hparts] at hvariant
    rw [Json.variant_eq_ok_some_iff.1 hvariant]
    exact .two (AluOp.ofJson_eq_ok_iff.1 hop) (Operand.ofJson_eq_ok_iff.1 hoperand)
  case h_9 =>
    obtain ⟨_, hcontent, hread⟩ := Json.bind_eq_ok_iff.1 hread
    have hfind := Json.require_eq_ok_iff.1 hread
    have hname : category.variantName = name := by simpa using List.find?_some hfind
    rw [StoredAs, hname, parts_of_mem_simple (List.mem_of_find?_eq_some hfind)]
    exact Json.isVariant_nil_iff.2 ⟨content, hvariant, hcontent⟩

/-- All shapes of a category are read as it. -/
theorem ofJson_of_storedAs {category : Category} {json : Json}
    (hstored : category.StoredAs json) : ofJson json = .ok category := by
  cases category with
  | msr | ldc | stc =>
      obtain _ | _ | hoperand := hstored
      exact Json.bind_eq_ok_iff.2 ⟨_, rfl, ofOperand_eq_ok_iff.2 ⟨_, _, rfl, hoperand, rfl⟩⟩
  | dataProcessing =>
      obtain _ | _ | _ | ⟨hop, hoperand⟩ := hstored
      refine Json.bind_eq_ok_iff.2 ⟨_, rfl, Json.bind_eq_ok_iff.2 ⟨_, rfl, ?_⟩⟩
      refine Json.bind_eq_ok_iff.2 ⟨_, AluOp.ofJson_eq_ok_iff.2 hop, ?_⟩
      exact Json.bind_eq_ok_iff.2 ⟨_, Operand.ofJson_eq_ok_iff.2 hoperand, rfl⟩
  | str | strb | ldr | ldrb =>
      obtain _ | _ | _ | ⟨hoffset, hindexing⟩ := hstored
      exact Json.bind_eq_ok_iff.2 ⟨_, rfl, ofTransfer_eq_ok_iff.2
        ⟨_, _, _, _, rfl, hoffset, hindexing, rfl⟩⟩
  | _ =>
      rcases hstored with _ | _ <;> rfl

theorem roundTrips : Json.RoundTrips toJson ofJson StoredAs :=
  .of_iff storedAs_toJson fun _ _ => ⟨storedAs_of_ofJson, ofJson_of_storedAs⟩

/-- A part may be stored otherwise than it is written. -/
example : ofJson (.object [("STR", .array [.object [("Imm", .null)], .string "Pre"])]) =
    .ok (.str .imm .pre) :=
  rfl

end Category

/-! ## Records -/

namespace Config

/-- The fields of a configuration, in the order of their names. -/
def storedFields (config : Config) : List Json :=
  [.string config.owner, .string config.tableName, .string config.arrayName,
    .integer config.commentColumn.toNat, .bool config.includeNames]

def StoredAs (config : Config) : Json → Prop :=
  Json.HasFields fieldNames config.storedFields

theorem ofJson_eq_ok_iff {json : Json} {config : Config} :
    ofJson json = .ok config ↔ config.StoredAs json := by
  refine Json.fields_bind_eq_ok_iff fun values config => ⟨fun hread => ?_, ?_⟩
  · split at hread
    next =>
      simp only [Json.bind_eq_ok_iff, Json.asString_eq_ok_iff, Json.asWord_eq_ok_iff,
        Json.asBool_eq_ok_iff, pure, Except.pure, Except.ok.injEq] at hread
      obtain ⟨owner, rfl, tableName, rfl, arrayName, rfl, commentColumn, rfl, includeNames, rfl,
        rfl⟩ := hread
      rfl
    next => cases hread
  · rintro rfl
    simp only [storedFields, Json.bind_eq_ok_iff, Json.asString_eq_ok_iff, Json.asWord_eq_ok_iff,
      Json.asBool_eq_ok_iff, pure, Except.pure, Except.ok.injEq]
    exact ⟨_, rfl, _, rfl, _, rfl, _, rfl, _, rfl, rfl⟩

theorem roundTrips : Json.RoundTrips toJson ofJson StoredAs :=
  .of_iff (fun _ => Json.hasFields_zip (by decide) rfl) fun _ _ => ofJson_eq_ok_iff

end Config

namespace Mismatch

/-- The fields of a mismatch, in the order of their names. -/
def storedFields (mismatch : Mismatch) : List Json :=
  [.integer mismatch.slot.toNat, .string mismatch.foreign, .string mismatch.expected,
    .string mismatch.actual]

def StoredAs (mismatch : Mismatch) : Json → Prop :=
  Json.HasFields fieldNames mismatch.storedFields

theorem ofJson_eq_ok_iff {json : Json} {mismatch : Mismatch} :
    ofJson json = .ok mismatch ↔ mismatch.StoredAs json := by
  refine Json.fields_bind_eq_ok_iff fun values mismatch => ⟨fun hread => ?_, ?_⟩
  · split at hread
    next =>
      simp only [Json.bind_eq_ok_iff, Json.asString_eq_ok_iff, Json.asWord_eq_ok_iff, pure,
        Except.pure, Except.ok.injEq] at hread
      obtain ⟨slot, rfl, foreign, rfl, expected, rfl, actual, rfl, rfl⟩ := hread
      rfl
    next => cases hread
  · rintro rfl
    simp only [storedFields, Json.bind_eq_ok_iff, Json.asString_eq_ok_iff, Json.asWord_eq_ok_iff,
      pure, Except.pure, Except.ok.injEq]
    exact ⟨_, rfl, _, rfl, _, rfl, _, rfl, rfl⟩

theorem roundTrips : Json.RoundTrips toJson ofJson StoredAs :=
  .of_iff (fun _ => Json.hasFields_zip (by decide) rfl) fun _ _ => ofJson_eq_ok_iff

end Mismatch

namespace Naming

/-- The object with a member for each of the entries of a naming. -/
def storedEntries (entries : List (String × String)) : Json :=
  .object (entries.map fun (foreign, handler) => (foreign, .string handler))

/-- A naming is stored as entries that make it up, where the last of a name counts. -/
def StoredAs (naming : Naming) (json : Json) : Prop :=
  ∃ entries, Json.HasFields fieldNames [storedEntries entries] json ∧
    OrderedMap.ofList entries = naming

theorem mapM_entryOfJson_eq_ok_iff {members : List (String × Json)}
    {entries : List (String × String)} :
    members.mapM entryOfJson = .ok entries ↔ .object members = storedEntries entries := by
  rw [storedEntries, Json.object.injEq]
  induction members generalizing entries with
  | nil => cases entries <;> simp [pure, Except.pure]
  | cons member members ih =>
      obtain ⟨foreign, content⟩ := member
      simp only [List.mapM_cons, entryOfJson, Json.bind_eq_ok_iff, Json.asString_eq_ok_iff, ih,
        pure, Except.pure, Except.ok.injEq]
      cases entries <;> grind

theorem ofJson_eq_ok_iff {json : Json} {naming : Naming} :
    ofJson json = .ok naming ↔ StoredAs naming json := by
  constructor
  · intro hread
    obtain ⟨values, hfields, hread⟩ := Json.bind_eq_ok_iff.1 hread
    split at hread
    next members =>
      obtain ⟨entries, hentries, hread⟩ := Json.bind_eq_ok_iff.1 hread
      cases hread
      rw [mapM_entryOfJson_eq_ok_iff.1 hentries] at hfields
      exact ⟨entries, Json.fields_eq_ok_iff.1 hfields, rfl⟩
    next => cases hread
  · rintro ⟨entries, hfields, rfl⟩
    refine Json.bind_eq_ok_iff.2 ⟨_, Json.fields_eq_ok_iff.2 hfields, ?_⟩
    exact Json.bind_eq_ok_iff.2 ⟨entries, mapM_entryOfJson_eq_ok_iff.2 rfl, rfl⟩

/-- The order in which the members of a naming are stored does not matter. -/
theorem storedAs_of_perm {naming : Naming} {entries : List (String × String)}
    (hperm : entries.Perm naming.entries) :
    StoredAs naming (.object (fieldNames.zip [storedEntries entries])) :=
  ⟨entries, Json.hasFields_zip (by decide) rfl, OrderedMap.ofList_of_perm hperm⟩

theorem roundTrips : Json.RoundTrips toJson ofJson StoredAs :=
  .of_iff (fun _ => storedAs_of_perm (.refl _)) fun _ _ => ofJson_eq_ok_iff

end Naming

/-- Keys, categories with their parts, configurations, mismatches and namings are read back from
what they are stored as, the entries of a naming in any order.  Each reader takes the described
shapes of its type and nothing else, and what is read from any of them and stored again is read as
the same value, so that reading and storing twice is reading and storing once.  A key is read from
the integers below 512 alone; the other integers of 16 bits are reported as out of range, and
everything else is malformed. -/
theorem stored_values_round_trip :
    (Json.RoundTrips Key.toJson Key.ofJson Key.StoredAs ∧
      Json.RoundTrips AluOp.toJson AluOp.ofJson AluOp.StoredAs ∧
      Json.RoundTrips Operand.toJson Operand.ofJson Operand.StoredAs ∧
      Json.RoundTrips Indexing.toJson Indexing.ofJson Indexing.StoredAs ∧
      Json.RoundTrips Category.toJson Category.ofJson Category.StoredAs ∧
      Json.RoundTrips Config.toJson Config.ofJson Config.StoredAs ∧
      Json.RoundTrips Mismatch.toJson Mismatch.ofJson Mismatch.StoredAs ∧
      Json.RoundTrips Naming.toJson Naming.ofJson Naming.StoredAs ∧
      ∀ (naming : Naming) (entries : List (String × String)), entries.Perm naming.entries →
        Naming.ofJson (.object [("names", Naming.storedEntries entries)]) = .ok naming) ∧
    (∀ json, (∃ key, Key.ofJson json = .ok key) ↔
      ∃ number : Nat, number < 512 ∧ json = .integer number) ∧
    (∀ number : Nat, 512 ≤ number → number < 65536 →
      Key.ofJson (.integer number) = .error (.keyOutOfRange (.ofNat 16 number))) ∧
    ∀ json, (∀ number : Nat, number < 65536 → json ≠ .integer number) →
      Key.ofJson json = .error .malformed := by
  refine ⟨⟨Key.roundTrips, AluOp.roundTrips, Operand.roundTrips, Indexing.roundTrips,
    Category.roundTrips, Config.roundTrips, Mismatch.roundTrips, Naming.roundTrips, ?_⟩,
    fun _ => Key.exists_ofJson_eq_ok_iff, fun _ => Key.ofJson_integer_of_le,
    fun _ => Key.ofJson_eq_malformed⟩
  intro naming entries hperm
  exact Naming.ofJson_eq_ok_iff.2 (Naming.storedAs_of_perm hperm)

end OpcodeTable
