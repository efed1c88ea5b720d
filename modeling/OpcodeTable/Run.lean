import OpcodeTable.Event

/-!
# Runs

A run is a stretch of a table whose entries follow one of three shapes.  It is written as
one invocation of a repetition if there is one for its shape and length, and entry by entry
otherwise, and it has a comment that gives its slots and its shape.  A table is covered with
runs from its start.
-/

namespace OpcodeTable

/-- How the entries of a run follow from one or two names. -/
inductive Shape (α : Type) where
  /-- One entry, over and over. -/
  | repeated (entry : α)
  /-- Two entries in turn. -/
  | alternating (first second : α)
  /-- Two entries in turn, each twice. -/
  | pairwise (first second : α)
deriving DecidableEq, Repr

namespace Shape

variable {α β : Type}

def entry (shape : Shape α) (offset : Nat) : α :=
  match shape with
  | repeated entry => entry
  | alternating first second => if offset % 2 = 0 then first else second
  | pairwise first second => if offset % 4 < 2 then first else second

def map (f : α → β) : Shape α → Shape β
  | repeated entry => repeated (f entry)
  | alternating first second => alternating (f first) (f second)
  | pairwise first second => pairwise (f first) (f second)

end Shape

/-- A run of `count` entries from the slot `start` on.  Both numbers are without bound, as the
runs of a list end within it: `start + count` is at most the length of the list, and so a number
that a machine word holds. -/
structure Run (α : Type) where
  start : Nat
  count : Nat
  shape : Shape α
deriving DecidableEq, Repr

namespace Run

variable {α β : Type}

def map (f : α → β) (run : Run α) : Run β := { run with shape := run.shape.map f }

def entries (run : Run α) : List α := (List.range run.count).map run.shape.entry

/-- The last slot of the run.  An empty run ends where it starts, and no run of a list ends behind
the last slot of the list. -/
def last (run : Run α) : Nat := run.start + (run.count - 1)

/-- The slots of the run: one number for a single slot, otherwise the first and the last. -/
def slots (run : Run α) : String :=
  if run.count = 1 then Numeral.slotText run.start
  else Numeral.slotText run.start ++ "-" ++ Numeral.slotText run.last

/-- The comment of a run: its slots, its names, and its shape if there are two names. -/
def comment (run : Run String) : String :=
  match run.shape with
  | .repeated entry => run.slots ++ ": " ++ entry
  | .alternating first second => run.slots ++ ": " ++ first ++ "/" ++ second ++ " ABAB"
  | .pairwise first second => run.slots ++ ": " ++ first ++ "/" ++ second ++ " AABB"

/-- The lengths of repetitions of one entry, the greatest first. -/
def blockSizes : List Nat := [128, 64, 32, 16, 8, 4, 2, 1]

def element (entry : String) : String := "ARM_FN(" ++ entry ++ ")"

/-- Entries one by one, separated by commas. -/
def listing : List String → List String
  | [] => []
  | [entry] => [element entry]
  | entry :: tail => element entry :: ", " :: listing tail

/-- The pieces in which the invocation of a run is written, with its closing comma. -/
def pieces (run : Run String) : List String :=
  match run.shape with
  | .alternating first second =>
    if run.count = 4 then
      ["REPEAT_ALT(" ++ element first ++ ", " ++ element second ++ "),"]
    else listing run.entries ++ [","]
  | .pairwise first second =>
    if run.count = 4 then
      ["REPEAT_2ALT(" ++ element first ++ ", " ++ element second ++ "),"]
    else listing run.entries ++ [","]
  | .repeated entry =>
    if run.count = 1 then [element entry ++ ","]
    else if run.count ∈ blockSizes then
      ["REPEAT_" ++ toString run.count ++ "(" ++ element entry ++ "),"]
    else listing run.entries ++ [","]

def invocation (run : Run String) : String := String.join run.pieces

end Run

/-- The entries of runs that follow one another. -/
def expand {α : Type} (runs : List (Run α)) : List α := runs.flatMap Run.entries

/-! ## Compression

A list of entries is covered with runs from its start.  Where four entries alternate singly
or in pairs they make one run; elsewhere the longest stretch of equal entries is taken and
split into blocks, as large as possible each time.  The lengths of blocks are powers of two
up to 128.
-/

namespace Compression

variable {α : Type} [DecidableEq α]

/-- The shape of the first four entries, if they are two different entries in turn, singly
or in pairs. -/
def fourWide? : List α → Option (Shape α)
  | a :: b :: c :: d :: _ =>
    if a ≠ b ∧ c = a ∧ d = b then some (.alternating a b)
    else if a ≠ c ∧ b = a ∧ d = c then some (.pairwise a c)
    else none
  | _ => none

/-- The greatest block that fits into a length above zero. -/
def largestBlock (length : Nat) : Nat :=
  (Run.blockSizes.find? (· ≤ length)).getD 1

/-- No block is empty, so that taking blocks comes to an end. -/
theorem largestBlock_pos (length : Nat) : 0 < largestBlock length := by
  unfold largestBlock
  cases hfind : Run.blockSizes.find? (· ≤ length) with
  | none => simp
  | some size =>
    have hmem := List.mem_of_find?_eq_some hfind
    simp only [Run.blockSizes, List.mem_cons, List.not_mem_nil, or_false] at hmem
    simp only [Option.getD_some]
    omega

def blocks (length : Nat) : List Nat :=
  if length = 0 then []
  else largestBlock length :: blocks (length - largestBlock length)
termination_by length
decreasing_by
  have := largestBlock_pos length
  omega

/-- Runs of one entry with the given lengths, one after another from a slot on.  In a list they
are put where its next entries are, so that the slots are those of the list. -/
def repeatedRuns (entry : α) (start : Nat) : List Nat → List (Run α)
  | [] => []
  | size :: sizes =>
    ⟨start, size, .repeated entry⟩ :: repeatedRuns entry (start + size) sizes

/-- Covers entries with runs, of which the first starts at the slot `start`. -/
def compressFrom (start : Nat) : List α → List (Run α)
  | [] => []
  | entry :: tail =>
    match fourWide? (entry :: tail) with
    | some shape => ⟨start, 4, shape⟩ :: compressFrom (start + 4) (tail.drop 3)
    | none =>
      let length := (tail.takeWhile (· = entry)).length + 1
      repeatedRuns entry start (blocks length) ++
        compressFrom (start + length) (tail.dropWhile (· = entry))
termination_by entries => entries.length
decreasing_by
  · simp only [List.length_drop, List.length_cons]
    omega
  · have := (List.dropWhile_sublist (· = entry) (l := tail)).length_le
    simp only [List.length_cons]
    omega

end Compression

/-- The runs that cover a list of entries. -/
def compress {α : Type} [DecidableEq α] (entries : List α) : List (Run α) :=
  Compression.compressFrom 0 entries

def compressionEvent {α : Type} [DecidableEq α] (entries : List α) : Event :=
  .compressed entries.length (compress entries).length

/-! ## Reading comments

The comment of a run begins with its slots.  Reading them back gives the first and the last
slot, and the description of the entries that follows.
-/

namespace RunComment

open Word (after?)

def slot? (text : List Char) : Option (Nat × List Char) := do
  let numeral ← after? ['0', 'x'] text
  let digits := numeral.takeWhile Numeral.isHexDigit
  if digits = [] then none
  else some (Numeral.valueOf 16 digits, numeral.dropWhile Numeral.isHexDigit)

/-- Reads the slots at the start of a text.  A single slot is both the first and the last. -/
def slots? (text : List Char) : Option (Nat × Nat × List Char) := do
  let (first, rest) ← slot? text
  match after? ['-'] rest with
  | none => some (first, first, rest)
  | some rest =>
    let (last, rest) ← slot? rest
    some (first, last, rest)

/-- The first slot, the last slot and the description in a comment. -/
def read? (comment : List Char) : Option (Nat × Nat × String) := do
  let (first, last, rest) ← slots? comment
  let description ← after? [':', ' '] rest
  return (first, last, String.ofList description)

end RunComment

end OpcodeTable
