import OpcodeTable.Table

/-!
# Instructions

How an instruction word is dispatched, and how words are decoded from bytes one after another.
-/

namespace OpcodeTable

/-! ## Instruction words

A word is dispatched by the category of its key, with one exception: the key cannot tell a
branch and exchange from a status register transfer, so that instruction is recognised by
the whole word first.
-/

/-- A word with the table slot and the category it is dispatched to. -/
structure Instruction where
  word : BitVec 32
  key : Key
  category : Category
deriving DecidableEq, Repr

namespace Instruction

def size : Nat := 4

/-- Whether a word is a branch and exchange, whatever its condition and its register. -/
def isBranchExchange (word : BitVec 32) : Bool :=
  word &&& 0x0ffffff0 == 0x012fff10

def ofWord (word : BitVec 32) : Instruction where
  word
  key := .ofWord word
  category := if isBranchExchange word then .possibleBX else (Key.ofWord word).category

/-- What stands for an instruction before any has been decoded. -/
instance : Inhabited Instruction := ⟨⟨0, ⟨0⟩, .undefined⟩⟩

def handler (instruction : Instruction) : String :=
  HandlerMap.default.resolve undefinedHandler instruction.category

def isWellDefined (instruction : Instruction) : Bool :=
  instruction.category ≠ .undefined

instance : ToString Instruction where
  toString instruction :=
    Numeral.lowerHex 8 instruction.word.toNat ++ ": " ++ toString instruction.key ++
      " -> " ++ toString instruction.category ++ " (" ++ instruction.handler ++ ")"

end Instruction

/-! ## Decoding sessions

Instructions are decoded from bytes, four at a time, the least significant byte first.  A
session reads along a list of bytes, remembers a marked position, and keeps the instruction
decoded into it last.  A step that finds too few bytes leaves the session as it was.
-/

/-- A position in a list of bytes, and the position marked last. -/
structure Reader where
  bytes : List (BitVec 8)
  position : Nat
  mark : Nat
deriving DecidableEq, Repr

namespace Reader

def ofBytes (bytes : List (BitVec 8)) : Reader := ⟨bytes, 0, 0⟩

/-- How far the reader is from the mark. -/
def offset (reader : Reader) : Nat := reader.position - reader.mark

/-- A way to take bytes: the next ones, as many as asked for, with the reader behind them, or
nothing. -/
abbrev Taking := Reader → Nat → Option (List (BitVec 8) × Reader)

/-- Takes the next `count` bytes, or nothing if there are not as many. -/
def take? (reader : Reader) (count : Nat) : Option (List (BitVec 8) × Reader) :=
  if reader.position + count ≤ reader.bytes.length then
    some ((reader.bytes.drop reader.position).take count,
      { reader with position := reader.position + count })
  else none

/-- The number whose base-256 digits are the bytes, the least significant one first. -/
def littleEndian : List (BitVec 8) → Nat
  | [] => 0
  | byte :: tail => byte.toNat + 256 * littleEndian tail

/-- Takes the next instruction in the given way. -/
def instructionBy? (taking : Taking) (reader : Reader) : Option (Instruction × Reader) :=
  (taking reader Instruction.size).map fun (bytes, reader) =>
    (.ofWord (BitVec.ofNat 32 (littleEndian bytes)), reader)

def instruction? (reader : Reader) : Option (Instruction × Reader) := reader.instructionBy? take?

end Reader

inductive DecodeStep where
  | decodeInto
  | decode
  | skip (count : Nat)
  | mark
deriving DecidableEq, Repr

inductive DecodeAnswer where
  | instruction (decoded : Instruction)
  | done
  | exhausted
deriving DecidableEq, Repr

/-- What a session says when the bytes do not suffice. -/
def DecodeAnswer.exhaustedMessage : String := "exhausted input"

/-- A reader and the instruction decoded into the session last. -/
structure DecodeSession where
  reader : Reader
  kept : Instruction
deriving DecidableEq, Repr

namespace DecodeSession

def ofBytes (bytes : List (BitVec 8)) : DecodeSession := ⟨.ofBytes bytes, default⟩

/-- A step of a session whose bytes are taken in the given way. -/
def stepBy (taking : Reader.Taking) (session : DecodeSession) :
    DecodeStep → DecodeAnswer × DecodeSession
  | .decodeInto =>
    match session.reader.instructionBy? taking with
    | some (decoded, reader) => (.instruction decoded, ⟨reader, decoded⟩)
    | none => (.exhausted, session)
  | .decode =>
    match session.reader.instructionBy? taking with
    | some (decoded, reader) => (.instruction decoded, { session with reader })
    | none => (.exhausted, session)
  | .skip count =>
    match taking session.reader count with
    | some (_, reader) => (.done, { session with reader })
    | none => (.exhausted, session)
  | .mark =>
    (.done, { session with reader := { session.reader with mark := session.reader.position } })

def step (session : DecodeSession) (step : DecodeStep) : DecodeAnswer × DecodeSession :=
  session.stepBy Reader.take? step

/-- The session after a list of steps, with bytes taken in the given way. -/
def runBy (taking : Reader.Taking) (session : DecodeSession) (steps : List DecodeStep) :
    DecodeSession :=
  steps.foldl (fun session step => (session.stepBy taking step).2) session

def run (session : DecodeSession) (steps : List DecodeStep) : DecodeSession :=
  session.runBy Reader.take? steps

end DecodeSession

end OpcodeTable
