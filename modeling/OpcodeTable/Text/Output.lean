/-!
# Output

Where text goes: to a sink, which may refuse it, or to a terminal, which does not show all of it.
-/

namespace OpcodeTable

/-! ## Sinks

Output goes to a sink, which takes characters until its room is used up.  A write that does
not fit fills the sink and is refused; what was taken before stays.  Writing is therefore a
function from the sink to the next sink, in `Except`, with the filled sink as the fault.
-/

/-- What has been written, and how many characters more are taken; `none` takes all. -/
structure Sink where
  written : String
  room : Option Nat
deriving DecidableEq, Repr

namespace Sink

def unlimited : Sink := ⟨"", none⟩

def limited (capacity : Nat) : Sink := ⟨"", some capacity⟩

/-- The outcome of writing: the sink, and as a fault if it refused. -/
abbrev Result := Except Sink Sink

def refusal : String := "an error occurred when formatting an argument"

/-- Writes a piece of text.  Of a piece that does not fit, the part that fits is taken. -/
def write (sink : Sink) (piece : String) : Result :=
  match sink.room with
  | none => .ok ⟨sink.written ++ piece, none⟩
  | some room =>
    if piece.length ≤ room then .ok ⟨sink.written ++ piece, some (room - piece.length)⟩
    else .error ⟨sink.written ++ String.ofList (piece.toList.take room), some 0⟩

/-- Writes pieces in order, up to the first that is refused. -/
def writeAll (sink : Sink) (pieces : List String) : Result :=
  pieces.foldlM write sink

def writeLine (sink : Sink) (line : String) : Result :=
  sink.writeAll [line, "\n"]

def writeLines (sink : Sink) (lines : List String) : Result :=
  lines.foldlM writeLine sink

/-- The text that writing has left in the sink, whether or not it was refused. -/
def Result.written : Result → String
  | .ok sink => sink.written
  | .error sink => sink.written

end Sink

/-- The text that a writing operation produces where nothing is refused. -/
def textOf (operation : Sink → Sink.Result) : String :=
  (operation Sink.unlimited).written

/-! ## Terminal text

A text for a terminal may hold sequences that an escape character opens and that are not shown.
`visible` is what is left of a text without them, and without the control characters that do
not lay out text.  A text of printable characters alone is left as it is, and only printable
characters are left of any text.
-/

namespace Terminal

/-- Control characters that lay out text: tab, line feed, form feed and carriage return. -/
def isLayout (c : Char) : Bool := c == '\t' || c == '\n' || c == '\x0c' || c == '\r'

def isControl (c : Char) : Bool := c < ' ' || c == '\x7f'

/-- Characters that a terminal shows or lays text out by.  All beyond ASCII are of this kind. -/
def isPrintable (c : Char) : Bool := isLayout c || !isControl c

/-- The characters that may stand between an escape and what ends its sequence. -/
def isIntermediate (c : Char) : Bool := ' ' ≤ c && c ≤ '/'

def isParameter (c : Char) : Bool := '0' ≤ c && c ≤ '?'

/-- How far a sequence has come that layout may interrupt. -/
inductive Opening where
  | escape
  /-- Behind an escape and an intermediate character. -/
  | intermediate
  /-- Behind an escape and a bracket, up to a final letter. -/
  | control
deriving DecidableEq, Repr

/-- How far the head of a device control string has come. -/
inductive DeviceHead where
  | entry
  | parameters
  | intermediate
deriving DecidableEq, Repr

/-- What a character of a terminal text is read as a part of. -/
inductive Mode where
  | plain
  /-- A sequence, which is paused while the text that follows a layout character is shown. -/
  | opening (reached : Opening) (paused : Bool)
  | device (reached : DeviceHead)
  /-- A string up to its terminator. -/
  | string
  /-- A command to the operating system, up to a bell. -/
  | command
deriving DecidableEq, Repr

/-- The mode behind a printable ASCII character of a sequence. -/
def Opening.next (reached : Opening) (c : Char) : Mode :=
  match reached with
  | .escape =>
    if isIntermediate c then .opening .intermediate false
    else if c = '[' then .opening .control false
    else if c = ']' then .command
    else if c = 'P' then .device .entry
    else if c = 'X' ∨ c = '^' ∨ c = '_' then .string
    else .plain
  | .intermediate => if isIntermediate c then .opening .intermediate false else .plain
  | .control =>
    if isIntermediate c || isParameter c then .opening .control false else .plain

/-- The mode behind a printable ASCII character in the head of a device control string. -/
def DeviceHead.next (reached : DeviceHead) (c : Char) : Mode :=
  if isIntermediate c then .device .intermediate
  else if isParameter c then
    match reached with
    | .entry => .device .parameters
    | .parameters => if c ≤ ';' then .device .parameters else .string
    | .intermediate => .string
  else .string

/-- Whether a character ends a string.  The terminator is the byte 0x9C, also inside the UTF-8
form of another character. -/
def endsString (c : Char) : Bool := (String.utf8EncodeChar c).contains 0x9C

namespace Mode

/-- The mode behind a character.  An escape opens a sequence in any mode, and the two
cancelling characters end one. -/
def next (mode : Mode) (c : Char) : Mode :=
  if c = '\x1b' then .opening .escape false
  else if c = '\x18' ∨ c = '\x1a' then .plain
  else
    match mode with
    | .plain => .plain
    | .opening reached paused =>
      if isLayout c then .opening reached true
      else if isControl c then .opening reached false
      else if paused then if c < '\x80' then mode else .plain
      else if c < '\x80' then reached.next c
      else mode
    | .device reached => if isControl c || '\x80' ≤ c then mode else reached.next c
    | .string => if endsString c then .plain else .string
    | .command => if c = '\x07' then .plain else .command

/-- Whether a character that is read in this mode is left in the text. -/
def shows (mode : Mode) (c : Char) : Bool :=
  isPrintable c &&
    match mode with
    | .plain => true
    | .opening _ paused => paused || isLayout c
    | .device _ | .string | .command => false

/-- What is visible of a text that is read in this mode. -/
def visible (mode : Mode) : List Char → List Char
  | [] => []
  | c :: text =>
    if mode.shows c then c :: (mode.next c).visible text else (mode.next c).visible text

/-- Whatever is visible of a text is shown by a terminal or lays it out. -/
theorem isPrintable_of_mem_visible {mode : Mode} {text : List Char} {c : Char}
    (hmem : c ∈ mode.visible text) : isPrintable c := by
  induction text generalizing mode with
  | nil => simp [visible] at hmem
  | cons head text ih =>
    by_cases hhead : mode.shows head
    · rw [visible, if_pos hhead, List.mem_cons] at hmem
      rcases hmem with rfl | hmem
      · simp only [shows, Bool.and_eq_true] at hhead
        exact hhead.1
      · exact ih hmem
    · rw [visible, if_neg hhead] at hmem
      exact ih hmem

end Mode

/-- What is visible of a text. -/
def visible (text : List Char) : List Char := Mode.plain.visible text

theorem next_plain_of_isPrintable {c : Char} (hc : isPrintable c) : Mode.plain.next c = .plain := by
  have hescape : c ≠ '\x1b' := by
    rintro rfl
    exact absurd hc (by decide)
  simp [Mode.next, hescape]

/-- A text without control characters, layout apart, is visible as it stands. -/
theorem visible_eq_self {text : List Char} (htext : ∀ c ∈ text, isPrintable c) :
    visible text = text := by
  induction text with
  | nil => rfl
  | cons c text ih =>
    have hc : isPrintable c := htext c List.mem_cons_self
    have hrest : visible text = text := ih fun d hd => htext d (List.mem_cons_of_mem c hd)
    rw [visible] at hrest ⊢
    simp [Mode.visible, Mode.shows, hc, next_plain_of_isPrintable hc, hrest]

end Terminal

end OpcodeTable
