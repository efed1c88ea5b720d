import OpcodeTable.Category
import OpcodeTable.Text

/-!
# Events

What building, compressing and comparing tables report on the way.  An event says what
happened; its level and its text follow from it.
-/

namespace OpcodeTable

/-- A slot at which two tables disagree, with the names that led to the disagreement. -/
structure Mismatch where
  slot : BitVec 16
  /-- The name in the reference table. -/
  foreign : String
  /-- The handler that the foreign name stands for. -/
  expected : String
  /-- The handler in the table under test. -/
  actual : String
deriving DecidableEq, Repr

instance : ToString Mismatch where
  toString mismatch :=
    "Mismatch at key " ++ Numeral.slotText mismatch.slot.toNat ++
      ": mgba=" ++ mismatch.foreign ++ " (maps to " ++ mismatch.expected ++
      "), yours=" ++ mismatch.actual

inductive Level where
  | warning
  | info
  | debug
deriving DecidableEq, Repr

def Level.name : Level → String
  | .warning => "WARN"
  | .info => "INFO"
  | .debug => "DEBUG"

def Level.header (level : Level) : String := "[" ++ level.name ++ "] "

inductive Event where
  | noHandler (category : Category) (fallback : String)
  | built (missing : Nat) (fallback : String)
  | compressed (entries runs : Nat)
  | referenceRead (entries : Nat) (path : String)
  | localRead (entries : Nat)
  | mismatch (found : Mismatch)
  | compared (mismatches : Nat)
deriving DecidableEq, Repr

namespace Event

def level : Event → Level
  | noHandler .. | mismatch .. => .warning
  | referenceRead .. | compared .. => .info
  | built .. | compressed .. | localRead .. => .debug

def message : Event → String
  | noHandler category fallback => s!"no handler for {category}, using {fallback}"
  | built missing fallback =>
    s!"built dispatch table, {missing} categories fell back to {fallback}"
  | compressed entries runs => s!"compressed {entries} entries into {runs} runs"
  | referenceRead entries path => s!"{entries} entries in {path}"
  | localRead entries => s!"{entries} local entries"
  | mismatch found => toString found
  | compared mismatches => s!"Total mismatches: {mismatches}"

end Event

end OpcodeTable
