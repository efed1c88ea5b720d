import OpcodeTable.CommandLine.Outcome
import OpcodeTable.Proofs.Comparisons
import OpcodeTable.Proofs.NameArrays

/-!
# Verdicts of checks

A check fails if a file that it needs has no text, and otherwise if some slot fails.  A slot
passes if the reference's name there has a translation, and this is the handler under test.
What stands for a missing translation is not a word, and every handler under test is one, so
that a foreign name without a translation never passes.
-/

namespace OpcodeTable

open Word (isWord)

namespace Comparison

variable {reference tested : Listing} {naming : Naming} {slot : BitVec 16}

/-- Whether a slot passes: the name in the reference has a translation, which is the handler
under test.  A slot that is left out counts as undefined on either side. -/
def Passes (naming : Naming) (reference tested : Listing) (slot : BitVec 16) : Prop :=
  naming.get? ((reference.get? slot).getD "ILL") =
    some ((tested.get? slot).getD "exec_arm_undefined")

theorem isWord_actualName (hnamed : tested.Named) (slot : BitVec 16) :
    isWord (actualName tested slot).toList = true := by
  rw [actualName]
  cases hget : tested.get? slot with
  | none => exact isWord_undefinedHandler
  | some name => exact hnamed slot name hget

/-- No handler under test is what stands for a missing translation. -/
theorem actualName_ne_unmapped (hnamed : tested.Named) (slot : BitVec 16) :
    actualName tested slot ≠ unmapped := by
  intro heq
  have hword := isWord_actualName hnamed slot
  rw [heq] at hword
  exact absurd hword (by decide)

/-- A check compares texts.  What it expects where there is no translation is no word, and so no
handler under test is equal to it. -/
theorem expectedName_eq_actualName_iff (hnamed : tested.Named) :
    expectedName naming (foreignName reference slot) = actualName tested slot ↔
      Passes naming reference tested slot := by
  have hpasses : Passes naming reference tested slot ↔
      naming.get? (foreignName reference slot) = some (actualName tested slot) := Iff.rfl
  rw [hpasses, expectedName]
  cases naming.get? (foreignName reference slot) with
  | none => simpa using (actualName_ne_unmapped hnamed slot).symm
  | some name => simp

/-- The slots at which a listing of words differs from the reference are those that fail. -/
theorem mem_differing_iff_not_passes (hnamed : tested.Named) :
    slot ∈ differing reference tested naming ↔
      ((reference.get? slot).isSome = true ∨ (tested.get? slot).isSome = true) ∧
        ¬Passes naming reference tested slot := by
  rw [mem_differing_iff, ne_eq, expectedName_eq_actualName_iff hnamed]

theorem isEmpty_differing_iff (hnamed : tested.Named) :
    (differing reference tested naming).isEmpty = true ↔
      ∀ slot, (reference.get? slot).isSome = true ∨ (tested.get? slot).isSome = true →
        Passes naming reference tested slot := by
  rw [List.isEmpty_iff, List.eq_nil_iff_forall_not_mem]
  refine forall_congr' fun slot => ?_
  rw [mem_differing_iff_not_passes hnamed, not_and, not_not]

/-- A slot with a foreign name that has no translation fails. -/
theorem mem_differing_of_get?_eq_none (hnamed : tested.Named) {foreign : String}
    (hslot : reference.get? slot = some foreign) (hforeign : naming.get? foreign = none) :
    slot ∈ differing reference tested naming := by
  refine (mem_differing_iff_not_passes hnamed).2 ⟨.inl ?_, ?_⟩
  · rw [hslot]
    rfl
  · rw [Passes, hslot, Option.getD_some, hforeign]
    exact nofun

end Comparison

namespace Event

/-- Whether an event says nothing of a comparison: it is no warning, and not the number of
mismatches. -/
def Neutral (event : Event) : Prop :=
  event.level ≠ .warning ∧ ∀ count : Nat, event.message ≠ s!"Total mismatches: {count}"

/-- The number of mismatches starts with a capital T, which tells it from all other messages. -/
theorem neutral_of_head? {event : Event} (hlevel : event.level ≠ .warning)
    (hhead : event.message.toList.head? ≠ some 'T') : event.Neutral := by
  refine ⟨hlevel, fun count heq => hhead ?_⟩
  rw [heq, String.toList_append]
  rfl

theorem head?_number_append (number : Nat) (text : List Char) :
    ((toString number).toList ++ text).head? ≠ some 'T' := by
  intro hhead
  have hnumber : (toString number).toList = Nat.toDigits 10 number := by
    rw [Nat.toString_eq_repr, Nat.repr, String.toList_ofList]
  rw [hnumber, List.head?_append_of_ne_nil _ Nat.toDigits_ne_nil] at hhead
  have hdigit := Nat.isDigit_of_mem_toDigits (by decide) (by decide) (List.mem_of_head? hhead)
  exact absurd hdigit (by decide)

theorem neutral_built (missing : Nat) (fallback : String) : (built missing fallback).Neutral := by
  apply neutral_of_head? Level.noConfusion
  change (s!"built dispatch table, {missing} categories fell back to {fallback}").toList.head? ≠ _
  simp only [String.toList_append]
  exact fun hhead => absurd (Option.some.inj hhead) (by decide)

theorem neutral_referenceRead (entries : Nat) (path : String) :
    (referenceRead entries path).Neutral := by
  apply neutral_of_head? Level.noConfusion
  change (s!"{entries} entries in {path}").toList.head? ≠ _
  rw [String.toList_append, String.toList_append, List.append_assoc]
  exact head?_number_append entries _

theorem neutral_localRead (entries : Nat) : (localRead entries).Neutral := by
  apply neutral_of_head? Level.noConfusion
  change (s!"{entries} local entries").toList.head? ≠ _
  rw [String.toList_append]
  exact head?_number_append entries _

end Event

/-- Every category has a default handler, so that the standard table lacks none. -/
theorem Table.buildEvents_default (fallback : String) :
    buildEvents .default fallback = [.built 0 fallback] := by
  obtain ⟨missing, hevents, -, hmissing, -⟩ := buildEvents_eq .default fallback
  have hnone : missing = [] := by
    refine List.eq_nil_iff_forall_not_mem.2 fun category hmem => ?_
    have hget := ((hmissing category).1 hmem).1
    rw [HandlerMap.get?_default] at hget
    cases hget
  rw [hevents, hnone]
  rfl

namespace CommandLine

open Comparison

variable {files : Files} {path : String}

theorem fromUTF8?_eq_some_iff {bytes : ByteArray} {text : String} :
    String.fromUTF8? bytes = some text ↔ bytes = text.toUTF8 := by
  rw [String.fromUTF8?]
  constructor
  · intro hsome
    split at hsome
    next =>
      cases hsome
      rfl
    next => cases hsome
  · rintro rfl
    exact dif_pos text.isValidUTF8

/-- A file has a text if its bytes are the UTF-8 form of the text. -/
theorem Files.text_eq_ok_iff {text : String} :
    files.text path = .ok text ↔ files path = .ok text.toUTF8 := by
  rw [Files.text]
  cases files path with
  | error fault => exact ⟨nofun, nofun⟩
  | ok bytes =>
      rw [Except.ok.injEq, ← fromUTF8?_eq_some_iff]
      change Except.bind _ _ = _ ↔ _
      rw [Except.bind]
      cases String.fromUTF8? bytes with
      | none => exact ⟨nofun, nofun⟩
      | some found =>
          rw [Option.some.injEq]
          exact ⟨Except.ok.inj, congrArg Except.ok⟩

/-- A file without a text in UTF-8 gives a fault, whether it could be read or not. -/
theorem Files.exists_fault (htext : ∀ text : String, files path ≠ .ok text.toUTF8) :
    ∃ fault, files.text path = .error fault := by
  cases hread : files.text path with
  | error fault => exact ⟨fault, rfl⟩
  | ok text => exact absurd (Files.text_eq_ok_iff.1 hread) (htext text)

/-- Whether a listing is the one that a check tests: that of the standard table, or the one that
the text of a file declares. -/
def Tests (files : Files) : Option String → Listing → Prop
  | none, tested => tested = Table.standard.listing
  | some path, tested =>
    ∃ text : String, files path = .ok text.toUTF8 ∧ tested = NameArray.parse text

theorem Tests.named {testedPath : Option String} {tested : Listing}
    (htests : Tests files testedPath tested) : tested.Named := by
  cases testedPath with
  | none =>
      rw [show tested = _ from htests]
      exact Table.named_listing Table.named_standard
  | some path =>
      obtain ⟨text, -, rfl⟩ := htests
      exact NameArray.named_parse text

theorem Tests.readTested_eq {testedPath : Option String} {tested : Listing}
    (htests : Tests files testedPath tested) : readTested files testedPath = .ok tested := by
  cases testedPath with
  | none => exact congrArg Except.ok htests.symm
  | some path =>
      obtain ⟨text, hfile, rfl⟩ := htests
      rw [readTested, Files.text_eq_ok_iff.2 hfile]

variable {referencePath : String} {testedPath : Option String}

/-- A check that lacks a text fails without a verdict. -/
theorem check_of_unreadable
    (hunreadable : ∃ path ∈ referencePath :: testedPath.toList,
      ∀ text : String, files path ≠ .ok text.toUTF8) :
    (check files referencePath testedPath).exitCode = 1 ∧
      ∀ event ∈ (check files referencePath testedPath).events, event.Neutral := by
  obtain ⟨path, hpath, htext⟩ := hunreadable
  obtain ⟨fault, hfault⟩ := Files.exists_fault htext
  rw [check]
  obtain rfl | htested := List.mem_cons.1 hpath
  · rw [readReference, hfault]
    exact ⟨rfl, fun event hevent => absurd hevent List.not_mem_nil⟩
  · obtain rfl : testedPath = some path := Option.mem_toList.1 htested
    cases readReference files referencePath with
    | error failure => exact ⟨rfl, fun event hevent => absurd hevent List.not_mem_nil⟩
    | ok reference =>
        rw [readTested, hfault]
        refine ⟨rfl, fun event hevent => ?_⟩
        rw [List.mem_singleton.1 hevent]
        exact Event.neutral_referenceRead _ _

/-- With both texts at hand, a check reports the comparison, and its exit code says whether there
was a mismatch. -/
theorem check_of_readable {referenceText : String} {tested : Listing}
    (hreference : files referencePath = .ok referenceText.toUTF8)
    (htests : Tests files testedPath tested) :
    let reference := Reference.parse referenceText
    let found := mismatches reference tested .mgba
    check files referencePath testedPath =
      ⟨if found.isEmpty then 0 else 1, "",
        .referenceRead reference.size referencePath :: .localRead tested.size :: report found,
        none⟩ := by
  rw [check, readReference, Files.text_eq_ok_iff.2 hreference, htests.readTested_eq]

theorem Request.outcome_run (files : Files) (verbose : Bool) (command : Command) :
    (Request.run verbose command).outcome files =
      { command.run files with
        events := (.built 0 undefinedHandler :: (command.run files).events).filter
          fun event => verbose || event.level ≠ .debug } := by
  have houtcome : (Request.run verbose command).outcome files =
      { command.run files with
        events := (Table.buildEvents .default undefinedHandler ++
          (command.run files).events).filter fun event => verbose || event.level ≠ .debug } := rfl
  rw [houtcome, Table.buildEvents_default]
  rfl

/-- Neither the table that is built first nor what the log leaves out decides how a command ends,
so that the exit code is that of the command itself. -/
theorem Request.exitCode_run (files : Files) (verbose : Bool) (command : Command) :
    ((Request.run verbose command).outcome files).exitCode = (command.run files).exitCode := by
  rw [Request.outcome_run]

/-- A request reports the building of the table first, and leaves out details unless they are
asked for. -/
theorem Request.events_run (files : Files) (verbose : Bool) (command : Command) :
    ((Request.run verbose command).outcome files).events =
      (.built 0 undefinedHandler :: (command.run files).events).filter
        fun event => verbose || event.level ≠ .debug := by
  rw [Request.outcome_run]

/-- What a comparison reports is not left out of any log. -/
theorem filter_report (found : List Mismatch) (verbose : Bool) :
    (report found).filter (fun event => verbose || event.level ≠ .debug) = report found := by
  refine List.filter_eq_self.2 fun event hevent => ?_
  have hlevel : event.level ≠ .debug := by
    rw [report, List.mem_append, List.mem_map, List.mem_singleton] at hevent
    obtain ⟨mismatch, -, rfl⟩ | rfl := hevent <;> exact Level.noConfusion
  rw [decide_eq_true hlevel, Bool.or_true]

/-- The verdict of a check is exact, whatever the files hold.  Without the text of a file that it
needs, the check fails, warns of nothing and counts nothing.  Otherwise it succeeds if and only if
at all slots that the reference or the listing under test names, the foreign name has a translation
and this is the handler under test; it fails therefore for a foreign name without a translation.  It
warns once of each slot that fails, in increasing order and with what was compared there, and says
then how many they are. -/
theorem check_exact (files : Files) (verbose : Bool) (referencePath : String)
    (testedPath : Option String) :
    let outcome := (Request.run verbose (.check referencePath testedPath)).outcome files
    ((∃ path ∈ referencePath :: testedPath.toList,
        ∀ text : String, files path ≠ .ok text.toUTF8) →
      outcome.exitCode = 1 ∧ ∀ event ∈ outcome.events, event.Neutral) ∧
    ∀ referenceText tested, files referencePath = .ok referenceText.toUTF8 →
      Tests files testedPath tested →
        let reference := Reference.parse referenceText
        let foreign := fun slot => (reference.get? slot).getD "ILL"
        let expected := fun slot => (Naming.mgba.get? (foreign slot)).getD "(unmapped)"
        let actual := fun slot => (tested.get? slot).getD "exec_arm_undefined"
        (outcome.exitCode = 0 ↔
          ∀ slot, (reference.get? slot).isSome = true ∨ (tested.get? slot).isSome = true →
            Naming.mgba.get? (foreign slot) = some (actual slot)) ∧
        (outcome.exitCode = 0 ∨ outcome.exitCode = 1) ∧
        (∀ slot foreign, reference.get? slot = some foreign →
          Naming.mgba.get? foreign = none → outcome.exitCode = 1) ∧
        ∃ (front : List Event) (failing : List (BitVec 16)),
          (∀ event ∈ front, event.Neutral) ∧ failing.Pairwise (· < ·) ∧
          (∀ slot, slot ∈ failing ↔
            ((reference.get? slot).isSome = true ∨ (tested.get? slot).isSome = true) ∧
              Naming.mgba.get? (foreign slot) ≠ some (actual slot)) ∧
          outcome.events.map Event.record = front.map Event.record ++
            (failing.map fun slot =>
              (Level.warning,
                toString (Mismatch.mk slot (foreign slot) (expected slot) (actual slot)))) ++
            [(Level.info, s!"Total mismatches: {failing.length}")] := by
  intro outcome
  have hcode : outcome.exitCode = (check files referencePath testedPath).exitCode :=
    Request.exitCode_run files verbose (.check referencePath testedPath)
  have hevents : outcome.events =
      (.built 0 undefinedHandler :: (check files referencePath testedPath).events).filter
        fun event => verbose || event.level ≠ .debug :=
    Request.events_run files verbose (.check referencePath testedPath)
  constructor
  · intro hunreadable
    obtain ⟨hexit, hneutral⟩ := check_of_unreadable hunreadable
    refine ⟨hcode.trans hexit, fun event hevent => ?_⟩
    rw [hevents] at hevent
    obtain rfl | hchecked := List.mem_cons.1 (List.mem_of_mem_filter hevent)
    · exact Event.neutral_built _ _
    · exact hneutral event hchecked
  · intro referenceText tested hreference htests reference foreign expected actual
    have hnamed := htests.named
    have hcheck := check_of_readable hreference htests
    let failing := differing reference tested .mgba
    have hexit : outcome.exitCode = if failing.isEmpty then 0 else 1 := by
      rw [hcode, hcheck, mismatches_eq, List.isEmpty_map]
    have hempty : failing.isEmpty = true ↔
        ∀ slot, (reference.get? slot).isSome = true ∨ (tested.get? slot).isSome = true →
          Naming.mgba.get? (foreign slot) = some (actual slot) := isEmpty_differing_iff hnamed
    refine ⟨?_, ?_, ?_, ?_⟩
    · rw [hexit, ← hempty]
      cases failing.isEmpty <;> simp
    · rw [hexit]
      cases failing.isEmpty <;> simp
    · intro slot foreign hslot hforeign
      have hfails := mem_differing_of_get?_eq_none hnamed hslot hforeign
      rw [hexit, List.isEmpty_eq_false_iff.2 (List.ne_nil_of_mem hfails)]
      rfl
    · let front : List Event := [.built 0 undefinedHandler,
        .referenceRead reference.size referencePath, .localRead tested.size]
      refine ⟨front.filter fun event => verbose || event.level ≠ .debug, failing, ?_,
        pairwise_differing _ _ _, fun slot => mem_differing_iff_not_passes hnamed, ?_⟩
      · intro event hevent
        have hfront := List.mem_of_mem_filter hevent
        rw [List.mem_cons, List.mem_cons, List.mem_singleton] at hfront
        obtain rfl | rfl | rfl := hfront
        · exact Event.neutral_built _ _
        · exact Event.neutral_referenceRead _ _
        · exact Event.neutral_localRead _
      · rw [hevents, hcheck]
        change ((front ++ report _).filter _).map _ = _
        rw [List.filter_append, filter_report, List.map_append, record_report, mismatches_eq,
          List.map_map, List.length_map, List.append_assoc]
        rfl

/-- A check that passes, one that fails for a foreign name without a translation, and one that lacks
a text. -/
theorem check_exact_mul :
    let files : Files := fun path =>
      if path = "reference" then .ok "[0x001] = MUL,".toUTF8
      else if path = "unknown" then .ok "[0x001] = FMUL,".toUTF8
      else if path = "tested" then .ok "\"exec_arm_mul\", // 0x001".toUTF8
      else .error .notFound
    let outcome := fun referencePath testedPath =>
      (Request.run false (.check referencePath (some testedPath))).outcome files
    (outcome "reference" "tested").exitCode = 0 ∧ (outcome "unknown" "tested").exitCode = 1 ∧
      (outcome "reference" "missing").exitCode = 1 := by
  intro files outcome
  have hreference : Reference.parse "[0x001] = MUL," = OrderedMap.ofList [(1, "MUL")] := by
    decide
  have hunknown : (Reference.parse "[0x001] = FMUL,").get? 1 = some "FMUL" := by
    decide
  have htested : NameArray.parse "\"exec_arm_mul\", // 0x001" =
      OrderedMap.ofList [(1, "exec_arm_mul")] := by
    decide
  have hmul : Naming.mgba.get? "MUL" = some "exec_arm_mul" := by
    rw [Naming.mgba, OrderedMap.get?_ofList]
    decide
  have hfmul : Naming.mgba.get? "FMUL" = none := by
    rw [Naming.mgba, OrderedMap.get?_ofList]
    decide
  have hmissing : ∀ text : String, files "missing" ≠ .ok text.toUTF8 := by
    intro text
    simp [files]
  refine ⟨?_, ?_, ?_⟩
  · have hverdict := ((check_exact files false "reference" (some "tested")).2 _ _ rfl
      ⟨_, rfl, rfl⟩).1
    rw [hverdict]
    intro slot hnamed
    obtain rfl : 1 = slot := by
      simpa [hreference, htested, OrderedMap.get?_ofList, OrderedMap.lastValue?] using hnamed
    rw [hreference, htested]
    exact hmul
  · exact ((check_exact files false "unknown" (some "tested")).2 _ _ rfl
      ⟨_, rfl, rfl⟩).2.2.1 1 "FMUL" hunknown hfmul
  · exact ((check_exact files false "reference" (some "missing")).1
      ⟨"missing", by simp, hmissing⟩).1

end CommandLine

end OpcodeTable
