import OpcodeTable.Json.Category
import OpcodeTable.Proofs.Listings
import OpcodeTable.Proofs.Names
import OpcodeTable.Table.Session

/-!
# Keys and tables in range

However a key comes about, its slot is one of a table, and however a table comes about, it
has as many handlers as there are keys.  A session therefore never looks for a handler outside
its table, whatever it was asked to do before.
-/

namespace OpcodeTable

namespace Json

theorem asWord_ofNat (width value : Nat) :
    (integer (.ofNat value)).asWord width =
      if (BitVec.ofNat width value).toNat = value then .ok (BitVec.ofNat width value)
      else .error .malformed :=
  rfl

/-- A value reads as a word if it is the number of the word. -/
theorem asWord_eq_ok_iff {width : Nat} {json : Json} {word : BitVec width} :
    json.asWord width = .ok word ↔ json = .integer word.toNat := by
  constructor
  · intro hword
    cases json with
    | integer number =>
        cases number with
        | ofNat value =>
            rw [asWord_ofNat] at hword
            split at hword
            next hvalue =>
              cases hword
              rw [hvalue]
              rfl
            next => cases hword
        | negSucc value => cases hword
    | _ => cases hword
  · rintro rfl
    have hnumber : BitVec.ofNat width word.toNat = word := by
      rw [BitVec.ofNat_toNat, BitVec.setWidth_eq]
    refine (asWord_ofNat width word.toNat).trans ?_
    rw [hnumber, if_pos rfl]

end Json

namespace Key

theorem vouched_of_le {bits : BitVec 16} (hbits : count ≤ bits.toNat) :
    vouched bits = .error OutOfRange.summary := by
  rw [vouched, ofIndex_of_le hbits]
  rfl

theorem vouched_slot (key : Key) : vouched key.slot = .ok key := by
  rw [vouched, ofIndex_slot]
  rfl

/-- A key is read as a number of 16 bits, which is checked as any other number is. -/
theorem ofJson_eq_of_asWord {json : Json} {bits : BitVec 16}
    (hbits : json.asWord 16 = .ok bits) :
    ofJson json = (ofIndex bits).mapError fun fault => .keyOutOfRange fault.index := by
  rw [ofJson, hbits]
  cases hkey : ofIndex bits <;> simp [hkey, bind, Except.bind, Except.mapError]

/-- Only the number of a key reads as a key. -/
theorem ofJson_eq_ok_iff {json : Json} {key : Key} :
    ofJson json = .ok key ↔ json = .integer key.index := by
  rw [← toNat_slot, ← Json.asWord_eq_ok_iff]
  constructor
  · intro hread
    cases hword : json.asWord 16 with
    | error fault =>
        rw [ofJson, hword] at hread
        cases hread
    | ok bits =>
        rw [ofJson_eq_of_asWord hword] at hread
        by_cases hlt : bits.toNat < count
        · obtain ⟨other, rfl⟩ := exists_slot_eq hlt
          rw [ofIndex_slot] at hread
          cases hread
          rfl
        · rw [ofIndex_of_le (Nat.not_lt.1 hlt)] at hread
          cases hread
  · intro hword
    rw [ofJson_eq_of_asWord hword, ofIndex_slot]
    rfl

theorem ofJson_of_le {bits : BitVec 16} (hbits : count ≤ bits.toNat) :
    ofJson (.integer bits.toNat) = .error (.keyOutOfRange bits) := by
  rw [ofJson_eq_of_asWord (Json.asWord_eq_ok_iff.2 rfl), ofIndex_of_le hbits]
  rfl

end Key

namespace Table

theorem ofHandlers_of_length_eq {handlers : List String} (hlength : handlers.length = Key.count) :
    ofHandlers handlers = .ok ⟨handlers, hlength⟩ :=
  dif_pos hlength

theorem ofHandlers_of_length_ne {handlers : List String} (hlength : handlers.length ≠ Key.count) :
    ofHandlers handlers = .error ⟨handlers.length⟩ :=
  dif_neg hlength

theorem handlers_eq (table : Table) : table.handlers = Key.all.map table.get := by
  apply List.ext_getElem?
  intro slot
  rw [List.getElem?_map]
  by_cases hslot : slot < Key.count
  · obtain ⟨key, rfl⟩ : ∃ key : Key, key.index = slot := ⟨_, Key.index_ofSlot hslot⟩
    rw [table.getElem?_handlers, Key.getElem?_all]
    rfl
  · rw [List.getElem?_eq_none (table.length_handlers ▸ Nat.not_lt.1 hslot),
      List.getElem?_eq_none (Key.length_all ▸ Nat.not_lt.1 hslot)]
    rfl

theorem entries_eq (table : Table) :
    table.entries = Key.all.map fun key => (key, table.get key) := by
  rw [entries, handlers_eq, List.map_prod_left_eq_zip]

theorem handlers_build (names : HandlerMap) (fallback : String) :
    (build names fallback).handlers =
      Key.all.map fun key => names.resolve fallback key.category := by
  rw [handlers_eq]
  exact List.map_congr_left fun key _ => get_build names fallback key

theorem handlers_standard :
    standard.handlers = Key.all.map fun key => key.category.defaultHandler := by
  rw [handlers_eq]
  exact List.map_congr_left fun key _ => get_standard key

/-- All that can be asked of a table gives the same handlers, one for each key. -/
structure Agrees (table : Table) : Prop where
  length_eq : table.handlers.length = 512
  get_eq : ∀ key : Key, table.handlers[key.index]? = some (table.get key)
  get_ofWord_eq : ∀ word : BitVec 32,
    table.handlers[(Key.wordBits word).toNat]? = some (table.get (.ofWord word))
  entries_eq : table.entries = Key.all.map fun key => (key, table.get key)
  keys_listing_eq : table.listing.keys = (List.range 512).map (BitVec.ofNat 16)
  listing_eq : ∀ key : Key, table.listing.get? key.slot = some (table.get key)

/-- There is one handler for each key, as the length of its list is a part of what a table is. -/
theorem agrees (table : Table) : table.Agrees where
  length_eq := table.length_handlers
  get_eq := table.getElem?_handlers
  get_ofWord_eq word := by
    rw [← Key.slot_ofWord, Key.toNat_slot]
    exact table.getElem?_handlers (.ofWord word)
  entries_eq := table.entries_eq
  keys_listing_eq := table.keys_listing.trans Key.slots_all
  listing_eq := table.get?_listing

end Table

/-- Whether a step gives a session another table. -/
def TableStep.Replaces : TableStep → Prop
  | build _ => True
  | load handlers => handlers.length = Key.count
  | _ => False

/-- Whether a step settles which handler a category has. -/
def TableStep.Settles (category : Category) : TableStep → Prop
  | set other _ | remove other => category = other
  | clear | reset => True
  | build _ | load _ => False

namespace TableSession

variable {session : TableSession}

theorem run_append (session : TableSession) (front back : List TableStep) :
    session.run (front ++ back) = (session.run front).run back :=
  List.foldl_append

theorem step_load_of_length_eq {handlers : List String}
    (hlength : handlers.length = Key.count) :
    session.step (.load handlers) =
      (.loaded, { session with table := ⟨handlers, hlength⟩ }) := by
  rw [step, Table.ofHandlers_of_length_eq hlength]

theorem step_load_of_length_ne {handlers : List String}
    (hlength : handlers.length ≠ Key.count) :
    session.step (.load handlers) = (.wrongLength ⟨handlers.length⟩, session) := by
  rw [step, Table.ofHandlers_of_length_ne hlength]

/-- What a step leaves alone unless it touches it is left alone by a run of steps that do not
touch it. -/
theorem view_run_of_untouched {α : Type} (view : TableSession → α) {Touches : TableStep → Prop}
    (hstep : ∀ (session : TableSession) (step : TableStep), ¬Touches step →
      view (session.step step).2 = view session)
    {steps : List TableStep} (hsteps : ∀ step ∈ steps, ¬Touches step) :
    view (session.run steps) = view session := by
  induction steps generalizing session with
  | nil => rfl
  | cons step steps ih =>
      rw [List.forall_mem_cons] at hsteps
      exact (ih hsteps.2).trans (hstep session step hsteps.1)

/-- The last step that may have touched it decides what it is. -/
theorem view_run_append_cons {α : Type} (view : TableSession → α) {Touches : TableStep → Prop}
    (hstep : ∀ (session : TableSession) (step : TableStep), ¬Touches step →
      view (session.step step).2 = view session)
    {front back : List TableStep} {step : TableStep} (hback : ∀ later ∈ back, ¬Touches later) :
    view (session.run (front ++ step :: back)) = view ((session.run front).step step).2 := by
  rw [run_append]
  exact view_run_of_untouched view hstep hback

/-- A step that does not build or load a table leaves it alone. -/
theorem table_step_of_not_replaces (session : TableSession) (step : TableStep)
    (hstep : ¬step.Replaces) : (session.step step).2.table = session.table := by
  cases step with
  | set category handler | remove category | clear | reset => rfl
  | build fallback => exact absurd trivial hstep
  | load handlers => rw [step_load_of_length_ne hstep]

/-- A step that does not settle the handler of a category leaves it alone. -/
theorem get?_handlers_step_of_not_settles (category : Category) (session : TableSession)
    (step : TableStep) (hstep : ¬step.Settles category) :
    (session.step step).2.handlers.get? category = session.handlers.get? category := by
  cases step with
  | set other handler =>
      exact (OrderedMap.get?_insert _ other category handler).trans (if_neg hstep)
  | remove other => exact (OrderedMap.get?_erase _ other category).trans (if_neg hstep)
  | clear | reset => exact absurd trivial hstep
  | build fallback => rw [step]
  | load handlers =>
      by_cases hlength : handlers.length = Key.count
      · rw [step_load_of_length_eq hlength]
      · rw [step_load_of_length_ne hlength]

/-- Keys and tables never leave their range.  The numbers that keys are made from fields and words
are below 512 without being cut, and every larger number is refused, whether it is to become a key
or is read as one.  Every table has 512 handlers: the standard one, a built one, and one that is
loaded, or the list is refused by its length.  Whatever a session has done, all views of its table
agree for all keys and so for all words; a list that is refused leaves the session as it was, and
between builds and loads the table stays what it is, whatever becomes of the handler map.  There a
set and a removal reach one category, clearing leaves no handler and a reset leaves the default
ones, and what a category has then stays until it is set, removed, cleared or reset. -/
theorem in_range :
    ((∀ opcode mulSwp, (Key.ofFields opcode mulSwp).slot = Key.fieldBits opcode mulSwp ∧
        (Key.fieldBits opcode mulSwp).toNat < 512) ∧
      (∀ word, (Key.ofWord word).slot = Key.wordBits word ∧ (Key.wordBits word).toNat < 512) ∧
      Key.all.map Key.slot = (List.range 512).map (BitVec.ofNat 16) ∧
      (∀ bits : BitVec 16, bits.toNat < 512 → ∃ key : Key, key.slot = bits ∧
        Key.ofIndex bits = .ok key ∧ Key.vouched bits = .ok key ∧
        Key.ofJson (.integer bits.toNat) = .ok key) ∧
      (∀ bits : BitVec 16, 512 ≤ bits.toNat → Key.ofIndex bits = .error ⟨bits⟩ ∧
        Key.vouched bits = .error Key.OutOfRange.summary ∧
        Key.ofJson (.integer bits.toNat) = .error (.keyOutOfRange bits)) ∧
      ∀ json key, Key.ofJson json = .ok key → json = .integer key.index ∧ key.index < 512) ∧
    (Table.standard.handlers = Key.all.map (fun key => key.category.defaultHandler) ∧
      (∀ names fallback, (Table.build names fallback).handlers =
        Key.all.map fun key => names.resolve fallback key.category) ∧
      (∀ handlers : List String, handlers.length = 512 →
        ∃ table, Table.ofHandlers handlers = .ok table ∧ table.handlers = handlers) ∧
      ∀ handlers : List String, handlers.length ≠ 512 →
        Table.ofHandlers handlers = .error ⟨handlers.length⟩) ∧
    ∀ session : TableSession,
      (∀ steps, (session.run steps).table.Agrees) ∧
      (∀ handlers : List String, handlers.length ≠ 512 →
        session.step (.load handlers) = (.wrongLength ⟨handlers.length⟩, session)) ∧
      (∀ handlers : List String, handlers.length = 512 → ∃ table, table.handlers = handlers ∧
        session.step (.load handlers) = (.loaded, { session with table })) ∧
      (∀ fallback, (session.step (.build fallback)).2 =
        { session with table := .build session.handlers fallback }) ∧
      (∀ steps, (∀ step ∈ steps, ¬step.Replaces) → (session.run steps).table = session.table) ∧
      (∀ front step back, (∀ later ∈ back, ¬later.Replaces) →
        (session.run (front ++ step :: back)).table =
          ((session.run front).step step).2.table) ∧
      ∀ category,
        (∀ other handler, (session.step (.set other handler)).2.handlers.get? category =
          if category = other then some handler else session.handlers.get? category) ∧
        (∀ other, (session.step (.remove other)).2.handlers.get? category =
          if category = other then none else session.handlers.get? category) ∧
        (session.step .clear).2.handlers.get? category = none ∧
        (session.step .reset).2.handlers.get? category = some category.defaultHandler ∧
        ∀ front step back, (∀ later ∈ back, ¬later.Settles category) →
          (session.run (front ++ step :: back)).handlers.get? category =
            ((session.run front).step step).2.handlers.get? category := by
  refine ⟨⟨?_, ?_, Key.slots_all, ?_, ?_, ?_⟩, ⟨Table.handlers_standard, Table.handlers_build,
    fun handlers hlength => ⟨_, Table.ofHandlers_of_length_eq hlength, rfl⟩,
    fun handlers => Table.ofHandlers_of_length_ne⟩, fun session =>
    ⟨?_, ?_, ?_, ?_, ?_, ?_, fun category => ⟨?_, ?_, ?_, ?_, ?_⟩⟩⟩
  · intro opcode mulSwp
    refine ⟨Key.slot_ofFields opcode mulSwp, ?_⟩
    rw [← Key.slot_ofFields, Key.toNat_slot]
    exact Key.index_lt_count _
  · intro word
    refine ⟨Key.slot_ofWord word, ?_⟩
    rw [← Key.slot_ofWord, Key.toNat_slot]
    exact Key.index_lt_count _
  · intro bits hbits
    obtain ⟨key, rfl⟩ := Key.exists_slot_eq hbits
    rw [Key.toNat_slot]
    exact ⟨key, rfl, Key.ofIndex_slot key, Key.vouched_slot key, Key.ofJson_eq_ok_iff.2 rfl⟩
  · intro bits hbits
    exact ⟨Key.ofIndex_of_le hbits, Key.vouched_of_le hbits, Key.ofJson_of_le hbits⟩
  · intro json key hread
    exact ⟨Key.ofJson_eq_ok_iff.1 hread, key.index_lt_count⟩
  · exact fun steps => Table.agrees _
  · exact fun handlers => step_load_of_length_ne
  · exact fun handlers hlength => ⟨⟨handlers, hlength⟩, rfl, step_load_of_length_eq hlength⟩
  · exact fun fallback => rfl
  · exact fun steps => view_run_of_untouched table table_step_of_not_replaces
  · exact fun front step back => view_run_append_cons table table_step_of_not_replaces
  · exact fun other handler => OrderedMap.get?_insert _ other category handler
  · exact fun other => OrderedMap.get?_erase _ other category
  · exact OrderedMap.get?_empty category
  · exact HandlerMap.get?_default category
  · exact fun front step back => view_run_append_cons (·.handlers.get? category)
      (get?_handlers_step_of_not_settles category)

end TableSession

end OpcodeTable
