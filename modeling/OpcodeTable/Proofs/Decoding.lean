import Mathlib
import OpcodeTable.Instruction.Session

/-!
# Decoding sessions step by step

A session is followed through its steps together with what they were answered.  Its position
is what the answered steps have taken, and the instruction that it keeps is the one decoded
into it last.  A step that is refused changes nothing, so that nothing is lost or read twice.
The bytes may be taken in any way that gives the next ones and refuses only where they do not
suffice.
-/

namespace OpcodeTable

namespace Reader

def advance (reader : Reader) (count : Nat) : Reader :=
  { reader with position := reader.position + count }

/-- A way to take bytes is exact if it gives the next bytes, as many as asked for, and goes on
behind them, and if it refuses only where fewer bytes are left. -/
structure Taking.Exact (taking : Taking) : Prop where
  taken : ∀ {reader rest : Reader} {count : Nat} {bytes : List (BitVec 8)},
    taking reader count = some (bytes, rest) →
      bytes.length = count ∧ bytes <+: reader.bytes.drop reader.position ∧
        rest = reader.advance count
  refused : ∀ {reader : Reader} {count : Nat},
    taking reader count = none → reader.bytes.length < reader.position + count

/-- The way in which a reader takes bytes by itself is exact. -/
theorem exact_take? : Taking.Exact take? where
  taken := by
    intro reader rest count bytes htaken
    rw [take?] at htaken
    split at htaken
    next hle =>
      cases htaken
      refine ⟨?_, List.take_prefix _ _, rfl⟩
      rw [List.length_take, List.length_drop]
      omega
    next => simp at htaken
  refused := by
    intro reader count hrefused
    rw [take?] at hrefused
    split at hrefused
    next => simp at hrefused
    next hlt => exact Nat.lt_of_not_le hlt

variable {taking : Taking} {reader : Reader}

theorem Taking.Exact.mark_eq (htaking : taking.Exact) {count : Nat}
    {pair : List (BitVec 8) × Reader} (htaken : taking reader count = some pair) :
    pair.2.mark = reader.mark := by
  rw [(htaking.taken htaken).2.2]
  rfl

/-- What an exact way to take bytes comes to, from a position among the bytes or at their
end. -/
theorem Taking.Exact.taking_eq (htaking : taking.Exact)
    (hposition : reader.position ≤ reader.bytes.length) (count : Nat) :
    taking reader count =
      if reader.position + count ≤ reader.bytes.length then
        some ((reader.bytes.drop reader.position).take count, reader.advance count)
      else none := by
  cases htaken : taking reader count with
  | none => rw [if_neg (Nat.not_le.2 (htaking.refused htaken))]
  | some pair =>
      obtain ⟨hlength, hprefix, hrest⟩ := htaking.taken htaken
      have hle := hprefix.length_le
      rw [List.length_drop, hlength] at hle
      rw [if_pos (by omega), ← hrest, ← hlength, ← List.prefix_iff_eq_take.1 hprefix]

/-- The word whose lowest byte stands at a position, with the higher ones behind it. -/
def wordAt (bytes : List (BitVec 8)) (position : Nat) : BitVec 32 :=
  BitVec.ofNat 32
    ((bytes.getD position 0).toNat + 2 ^ 8 * (bytes.getD (position + 1) 0).toNat +
      2 ^ 16 * (bytes.getD (position + 2) 0).toNat + 2 ^ 24 * (bytes.getD (position + 3) 0).toNat)

/-- The number of four bytes is the word that is put together from them bit by bit. -/
theorem ofNat_littleEndian {bytes : List (BitVec 8)} {position : Nat}
    (hlength : position + Instruction.size ≤ bytes.length) :
    BitVec.ofNat 32 (littleEndian ((bytes.drop position).take Instruction.size)) =
      wordAt bytes position := by
  have hfour : position + 3 < bytes.length := hlength
  have hbytes : (bytes.drop position).take Instruction.size =
      [bytes.getD position 0, bytes.getD (position + 1) 0, bytes.getD (position + 2) 0,
        bytes.getD (position + 3) 0] := by
    rw [List.getD_eq_getElem _ _ (by omega), List.getD_eq_getElem _ _ (by omega),
      List.getD_eq_getElem _ _ (by omega), List.getD_eq_getElem _ _ hfour,
      List.drop_eq_getElem_cons (by omega), List.drop_eq_getElem_cons (by omega),
      List.drop_eq_getElem_cons (by omega), List.drop_eq_getElem_cons hfour]
    rfl
  rw [hbytes, wordAt]
  congr 1
  simp only [littleEndian]
  omega

/-- An instruction is taken where four bytes are left, and it is the word that they make. -/
theorem Taking.Exact.instructionBy?_eq (htaking : taking.Exact)
    (hposition : reader.position ≤ reader.bytes.length) :
    reader.instructionBy? taking =
      if reader.position + Instruction.size ≤ reader.bytes.length then
        some (.ofWord (wordAt reader.bytes reader.position), reader.advance Instruction.size)
      else none := by
  rw [instructionBy?, htaking.taking_eq hposition]
  split
  next hle =>
    rw [← ofNat_littleEndian hle]
    rfl
  next => rfl

end Reader

namespace DecodeStep

def Decodes (step : DecodeStep) : Prop := step = decodeInto ∨ step = decode

/-- How many bytes have to be left for a step. -/
def need : DecodeStep → Nat
  | decodeInto | decode => Instruction.size
  | skip count => count
  | mark => 0

end DecodeStep

namespace DecodeSession

/-- What a step comes to where the bytes suffice for it. -/
def served (session : DecodeSession) : DecodeStep → DecodeAnswer × DecodeSession
  | .decodeInto =>
    let decoded := .ofWord (Reader.wordAt session.reader.bytes session.reader.position)
    (.instruction decoded, ⟨session.reader.advance Instruction.size, decoded⟩)
  | .decode =>
    (.instruction (.ofWord (Reader.wordAt session.reader.bytes session.reader.position)),
      { session with reader := session.reader.advance Instruction.size })
  | .skip count => (.done, { session with reader := session.reader.advance count })
  | .mark =>
    (.done, { session with reader := { session.reader with mark := session.reader.position } })

variable {taking : Reader.Taking} {session : DecodeSession}

/-- A step is either served or refused, and if it is refused, nothing changes. -/
theorem stepBy_eq (htaking : taking.Exact)
    (hposition : session.reader.position ≤ session.reader.bytes.length) (step : DecodeStep) :
    session.stepBy taking step =
      if session.reader.position + step.need ≤ session.reader.bytes.length then
        session.served step
      else (.exhausted, session) := by
  cases step with
  | decodeInto | decode =>
      rw [stepBy, htaking.instructionBy?_eq hposition]
      by_cases hle : session.reader.position + Instruction.size ≤ session.reader.bytes.length
      · rw [if_pos hle, DecodeStep.need, if_pos hle]
        rfl
      · rw [if_neg hle, DecodeStep.need, if_neg hle]
  | skip count =>
      rw [stepBy, htaking.taking_eq hposition]
      by_cases hle : session.reader.position + count ≤ session.reader.bytes.length
      · rw [if_pos hle, DecodeStep.need, if_pos hle]
        rfl
      · rw [if_neg hle, DecodeStep.need, if_neg hle]
  | mark => exact (if_pos hposition).symm

/-- A step that asks for an instruction gets the word at the position, if four bytes are left. -/
theorem stepBy_fst_of_decodes (htaking : taking.Exact)
    (hposition : session.reader.position ≤ session.reader.bytes.length) {step : DecodeStep}
    (hdecodes : step.Decodes) :
    (session.stepBy taking step).1 =
      if session.reader.position + Instruction.size ≤ session.reader.bytes.length then
        .instruction (.ofWord (Reader.wordAt session.reader.bytes session.reader.position))
      else .exhausted := by
  obtain rfl | rfl := hdecodes <;>
  · rw [stepBy_eq htaking hposition, DecodeStep.need]
    split <;> rfl

/-- Asking for an instruction takes all four of its bytes or none of them. -/
theorem position_stepBy_of_decodes (htaking : taking.Exact)
    (hposition : session.reader.position ≤ session.reader.bytes.length) {step : DecodeStep}
    (hdecodes : step.Decodes) :
    (session.stepBy taking step).2.reader.position =
      if session.reader.position + Instruction.size ≤ session.reader.bytes.length then
        session.reader.position + Instruction.size
      else session.reader.position := by
  obtain rfl | rfl := hdecodes <;>
  · rw [stepBy_eq htaking hposition, DecodeStep.need]
    split <;> rfl

/-- Only a step that is refused is answered so. -/
theorem stepBy_snd_of_exhausted (htaking : taking.Exact)
    (hposition : session.reader.position ≤ session.reader.bytes.length) {step : DecodeStep}
    (hexhausted : (session.stepBy taking step).1 = .exhausted) :
    (session.stepBy taking step).2 = session := by
  rw [stepBy_eq htaking hposition] at hexhausted ⊢
  split
  next hle =>
    rw [if_pos hle] at hexhausted
    cases step <;> cases hexhausted
  next => rfl

/-- The steps of a run with their answers. -/
def historyBy (taking : Reader.Taking) (session : DecodeSession) :
    List DecodeStep → List (DecodeStep × DecodeAnswer)
  | [] => []
  | step :: steps =>
    (step, (session.stepBy taking step).1) ::
      historyBy taking (session.stepBy taking step).2 steps

def decoded : DecodeStep × DecodeAnswer → Bool
  | (_, .instruction _) => true
  | _ => false

def skipped : DecodeStep × DecodeAnswer → Nat
  | (.skip count, .done) => count
  | _ => 0

/-- The instruction that a step has decoded into the session. -/
def keptBy? : DecodeStep × DecodeAnswer → Option Instruction
  | (.decodeInto, .instruction decoded) => some decoded
  | _ => none

theorem runBy_append (taking : Reader.Taking) (session : DecodeSession)
    (front back : List DecodeStep) :
    session.runBy taking (front ++ back) = (session.runBy taking front).runBy taking back :=
  List.foldl_append

theorem historyBy_append (taking : Reader.Taking) (session : DecodeSession)
    (front back : List DecodeStep) :
    session.historyBy taking (front ++ back) =
      session.historyBy taking front ++ (session.runBy taking front).historyBy taking back := by
  induction front generalizing session with
  | nil => rfl
  | cons step front ih =>
      rw [List.cons_append, historyBy, ih, historyBy, List.cons_append]
      rfl

/-- A session agrees with the history of the steps that have led to it. -/
structure Follows (bytes : List (BitVec 8)) (history : List (DecodeStep × DecodeAnswer))
    (session : DecodeSession) : Prop where
  bytes_eq : session.reader.bytes = bytes
  position_le : session.reader.position ≤ bytes.length
  position_eq : session.reader.position =
    Instruction.size * history.countP decoded + (history.map skipped).sum
  mark_le : session.reader.mark ≤ session.reader.position
  kept_eq : session.kept = (history.filterMap keptBy?).getLastD default

variable {bytes : List (BitVec 8)} {history : List (DecodeStep × DecodeAnswer)}

theorem follows_ofBytes (bytes : List (BitVec 8)) : Follows bytes [] (ofBytes bytes) :=
  ⟨rfl, Nat.zero_le _, rfl, Nat.le_refl _, rfl⟩

/-- No step leads behind the last byte, as skipping over it is refused. -/
theorem Follows.position_le_length (hfollows : Follows bytes history session) :
    session.reader.position ≤ session.reader.bytes.length := by
  rw [hfollows.bytes_eq]
  exact hfollows.position_le

/-- A history goes on with a step that has taken what its answer says. -/
theorem Follows.append (hfollows : Follows bytes history session)
    {entry : DecodeStep × DecodeAnswer} {next : DecodeSession}
    (hbytes : next.reader.bytes = session.reader.bytes)
    (hposition : next.reader.position = session.reader.position +
      (Instruction.size * (decoded entry).toNat + skipped entry))
    (hle : next.reader.position ≤ session.reader.bytes.length)
    (hmark : next.reader.mark ≤ next.reader.position)
    (hkept : next.kept = (keptBy? entry).getD session.kept) :
    Follows bytes (history ++ [entry]) next where
  bytes_eq := hbytes.trans hfollows.bytes_eq
  position_le := hfollows.bytes_eq ▸ hle
  position_eq := by
    have hcount : (history ++ [entry]).countP decoded =
        history.countP decoded + (decoded entry).toNat := by
      cases hdecoded : decoded entry <;> simp [hdecoded]
    have hskipped : ((history ++ [entry]).map skipped).sum =
        (history.map skipped).sum + skipped entry := by
      simp
    rw [hposition, hfollows.position_eq, hcount, hskipped, Nat.mul_add]
    omega
  mark_le := hmark
  kept_eq := by
    rw [hkept, hfollows.kept_eq, List.filterMap_append]
    cases hentry : keptBy? entry with
    | none => simp [hentry]
    | some instruction => simp [hentry]

theorem Follows.stepBy (htaking : taking.Exact) (hfollows : Follows bytes history session)
    (step : DecodeStep) :
    Follows bytes (history ++ [(step, (session.stepBy taking step).1)])
      (session.stepBy taking step).2 := by
  have hposition := hfollows.position_le_length
  rw [stepBy_eq htaking hposition]
  split
  next hle =>
    refine hfollows.append ?_ ?_ ?_ ?_ ?_
    · cases step <;> rfl
    · cases step with
      | skip count => exact congrArg (session.reader.position + ·) (Nat.zero_add count).symm
      | decodeInto | decode | mark => rfl
    · cases step <;> exact hle
    · have hmark := hfollows.mark_le
      cases step with
      | decodeInto | decode | skip count => exact Nat.le_add_right_of_le hmark
      | mark => exact Nat.le_refl _
    · cases step <;> rfl
  next =>
    refine hfollows.append rfl ?_ hposition hfollows.mark_le ?_
    · cases step <;> rfl
    · cases step <;> rfl

/-- By induction on the steps, a session always follows its history. -/
theorem follows_runBy (htaking : taking.Exact) (bytes : List (BitVec 8))
    (steps : List DecodeStep) :
    Follows bytes ((ofBytes bytes).historyBy taking steps)
      ((ofBytes bytes).runBy taking steps) := by
  induction steps using List.reverseRecOn with
  | nil => exact follows_ofBytes bytes
  | append_singleton steps step ih =>
      rw [historyBy_append, runBy_append]
      exact ih.stepBy htaking step

/-- Only marking moves the mark. -/
theorem mark_stepBy_of_ne (htaking : taking.Exact) {step : DecodeStep} (hne : step ≠ .mark) :
    (session.stepBy taking step).2.reader.mark = session.reader.mark := by
  cases step with
  | decodeInto | decode =>
      rw [stepBy, Reader.instructionBy?]
      cases htaken : taking session.reader Instruction.size with
      | none => rfl
      | some pair => exact htaking.mark_eq htaken
  | skip count =>
      rw [stepBy]
      cases htaken : taking session.reader count with
      | none => rfl
      | some pair => exact htaking.mark_eq htaken
  | mark => exact absurd rfl hne

theorem mark_runBy_of_not_mem (htaking : taking.Exact) {steps : List DecodeStep}
    (hmark : .mark ∉ steps) :
    (session.runBy taking steps).reader.mark = session.reader.mark := by
  induction steps generalizing session with
  | nil => rfl
  | cons step steps ih =>
      rw [List.mem_cons, not_or] at hmark
      exact (ih hmark.2).trans (mark_stepBy_of_ne htaking (Ne.symm hmark.1))

/-- Where nothing but instructions is asked for, they come one behind the other until fewer than
four bytes are left, and from then on every step is refused. -/
theorem runBy_of_forall_decodes (htaking : taking.Exact) (bytes : List (BitVec 8))
    {steps : List DecodeStep} (hdecodes : ∀ step ∈ steps, step.Decodes) :
    ((ofBytes bytes).runBy taking steps).reader.position =
        4 * min steps.length (bytes.length / 4) ∧
      ((ofBytes bytes).historyBy taking steps).map Prod.snd =
        (List.range steps.length).map fun index =>
          if index < bytes.length / 4 then .instruction (.ofWord (Reader.wordAt bytes (4 * index)))
          else .exhausted := by
  induction steps using List.reverseRecOn with
  | nil => exact ⟨by rw [List.length_nil, Nat.zero_min]; rfl, rfl⟩
  | append_singleton steps step ih =>
      obtain ⟨hposition, hanswers⟩ :=
        ih fun earlier hmem => hdecodes earlier (List.mem_append_left _ hmem)
      have hstep : step.Decodes :=
        hdecodes step (List.mem_append_right _ (List.mem_singleton_self _))
      have hfollows := follows_runBy htaking bytes steps
      have hle := hfollows.position_le_length
      have hsize : Instruction.size = 4 := rfl
      constructor
      · rw [runBy_append]
        refine (position_stepBy_of_decodes htaking hle hstep).trans ?_
        rw [hfollows.bytes_eq, hposition, hsize, List.length_append, List.length_singleton]
        split <;> omega
      · rw [historyBy_append, List.map_append, hanswers, List.length_append, List.length_singleton,
          List.range_succ, List.map_append]
        refine congrArg _ (congrArg (fun answer => [answer]) ?_)
        refine (stepBy_fst_of_decodes htaking hle hstep).trans ?_
        rw [hfollows.bytes_eq, hposition, hsize]
        dsimp only
        by_cases hlt : steps.length < bytes.length / 4
        · rw [if_pos hlt, if_pos (by omega), Nat.min_eq_left (by omega)]
        · rw [if_neg hlt, if_neg (by omega)]

/-- Nothing is lost, repeated or half applied, in whatever order a session is asked to decode, to
skip and to mark, and in whichever exact way the bytes are taken.  The position is within the
bytes and counts four for every instruction and what has been skipped; the offset counts from the
last mark; an instruction is decoded where four bytes are left, from these bytes in little-endian
order; and the instruction that is kept is the one decoded into the session last.  A step that is
refused leaves everything as it was. -/
theorem decoding_exact (htaking : taking.Exact) (bytes : List (BitVec 8))
    (steps : List DecodeStep) :
    let session := (ofBytes bytes).runBy taking steps
    let history := (ofBytes bytes).historyBy taking steps
    (session.reader.bytes = bytes ∧ session.reader.position ≤ bytes.length ∧
      session.reader.position = 4 * history.countP decoded + (history.map skipped).sum) ∧
    ((.mark ∉ steps → session.reader.offset = session.reader.position) ∧
      ∀ before after, steps = before ++ .mark :: after → .mark ∉ after →
        session.reader.position =
          ((ofBytes bytes).runBy taking before).reader.position + session.reader.offset) ∧
    (∀ step : DecodeStep, step.Decodes → (session.stepBy taking step).1 =
      if session.reader.position + 4 ≤ bytes.length then
        .instruction (.ofWord (Reader.wordAt bytes session.reader.position))
      else .exhausted) ∧
    session.kept = (history.filterMap keptBy?).getLastD default ∧
    (∀ step : DecodeStep, (session.stepBy taking step).1 = .exhausted →
      (session.stepBy taking step).2 = session) ∧
    (bytes.length < 2 ^ 32 →
      (BitVec.ofNat 32 session.reader.position).toNat = session.reader.position ∧
        (BitVec.ofNat 32 session.reader.offset).toNat = session.reader.offset) ∧
    ((∀ step ∈ steps, step.Decodes) →
      session.reader.position = 4 * min steps.length (bytes.length / 4) ∧
        history.map Prod.snd = (List.range steps.length).map fun index =>
          if index < bytes.length / 4 then .instruction (.ofWord (Reader.wordAt bytes (4 * index)))
          else .exhausted) := by
  intro session history
  have hfollows : Follows bytes history session := follows_runBy htaking bytes steps
  have hle := hfollows.position_le_length
  have hoffset : session.reader.offset ≤ bytes.length :=
    (Nat.sub_le _ _).trans hfollows.position_le
  refine ⟨⟨hfollows.bytes_eq, hfollows.position_le, hfollows.position_eq⟩, ⟨?_, ?_⟩, ?_,
    hfollows.kept_eq, fun step => stepBy_snd_of_exhausted htaking hle, ?_,
    runBy_of_forall_decodes htaking bytes⟩
  · intro hmark
    have hstart : session.reader.mark = 0 := mark_runBy_of_not_mem htaking hmark
    rw [Reader.offset, hstart, Nat.sub_zero]
  · intro before after hsteps hmark
    have hmarked : session.reader.mark = ((ofBytes bytes).runBy taking before).reader.position := by
      simp only [session]
      rw [hsteps, runBy_append]
      exact mark_runBy_of_not_mem htaking hmark
    rw [Reader.offset, ← hmarked, Nat.add_sub_cancel' hfollows.mark_le]
  · intro step hdecodes
    rw [stepBy_fst_of_decodes htaking hle hdecodes, hfollows.bytes_eq]
    rfl
  · intro hshort
    have hposition := hfollows.position_le
    rw [BitVec.toNat_ofNat, BitVec.toNat_ofNat, Nat.mod_eq_of_lt (by omega),
      Nat.mod_eq_of_lt (by omega)]
    exact ⟨rfl, rfl⟩

/-- Nine bytes hold one instruction, and after two more bytes there is no room for another. -/
theorem decoding_exact_short :
    let bytes : List (BitVec 8) := [0x91, 0x02, 0x00, 0xe0, 0x10, 0x20, 0x30, 0x40, 0x50]
    let session := (ofBytes bytes).runBy Reader.take? [.decodeInto, .mark, .skip 2, .decode]
    Reader.Taking.Exact Reader.take? ∧ session.reader.position = 6 ∧ session.reader.offset = 2 ∧
      session.kept = .ofWord 0xe0000291 ∧
      session.stepBy Reader.take? .decodeInto = (.exhausted, session) := by
  intro bytes session
  obtain ⟨⟨-, -, hposition⟩, ⟨-, hoffset⟩, hdecode, hkept, hrefused, -⟩ :=
    decoding_exact Reader.exact_take? bytes [.decodeInto, .mark, .skip 2, .decode]
  have hsix : session.reader.position = 6 := hposition.trans (by decide)
  have hexhausted : (session.stepBy Reader.take? .decodeInto).1 = .exhausted := by
    refine (hdecode .decodeInto (.inl rfl)).trans (if_neg ?_)
    exact hsix ▸ (by decide)
  refine ⟨Reader.exact_take?, hsix, ?_, hkept, Prod.ext hexhausted (hrefused _ hexhausted)⟩
  have hmarked : session.reader.position = 4 + session.reader.offset :=
    hoffset [.decodeInto] [.skip 2, .decode] rfl (by decide)
  omega

end DecodeSession

end OpcodeTable
