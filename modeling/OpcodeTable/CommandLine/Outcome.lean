import OpcodeTable.CommandLine.Arguments
import OpcodeTable.Comparison
import OpcodeTable.Text.Output

/-!
# Outcomes of commands

A command turns its arguments, and the files that it reads, into an exit code, the text that
it prints and the events that it reports.  A failure ends the command with a message and the
cause under it.
-/

namespace OpcodeTable.CommandLine

/-! ## Diagnostics

What a command writes to standard error: a record for each event, and then its complaint.  A
record is a terminal text behind the level of its event, and the lines that follow its first
one are indented.  An unclosed sequence hides the end of its record, so that what comes next
stands on the same line.
-/

/-- A line of standard error.  It has the level of the record that starts it, if one does. -/
structure Diagnostic where
  level : Option Level
  text : String
deriving DecidableEq, Repr

def recordText (message : String) : List Char :=
  let indented := message.toList.flatMap fun c => if c = '\n' then "\n    ".toList else [c]
  Terminal.visible (indented ++ ['\n'])

/-- What standard error consists of. -/
inductive Sign where
  | header (level : Level)
  | char (c : Char)
deriving DecidableEq, Repr

def recordSigns (event : Event) : List Sign :=
  .header event.level :: (recordText event.message).map .char

namespace Diagnostic

/-- The lines that signs make after an unfinished line. -/
def linesAfter (unfinished : Option Diagnostic) : List Sign → List Diagnostic
  | [] => unfinished.toList
  | .header level :: signs =>
    let line :=
      match unfinished with
      | none => ⟨some level, ""⟩
      | some line => { line with text := line.text ++ level.header }
    linesAfter (some line) signs
  | .char c :: signs =>
    let line := unfinished.getD ⟨none, ""⟩
    if c = '\n' then line :: linesAfter none signs
    else linesAfter (some { line with text := line.text.push c }) signs

/-- The lines of the records of events and of a complaint. -/
def lines (events : List Event) (complaint : String) : List Diagnostic :=
  linesAfter none (events.flatMap recordSigns ++ complaint.toList.map .char)

def written (line : Diagnostic) : String :=
  (line.level.map Level.header).getD "" ++ line.text ++ "\n"

end Diagnostic

/-! ## Outcomes -/

inductive FileFault where
  | notFound
  | notDirectory
  | isDirectory
  | nameTooLong
  | notUtf8
  | other (description : String)
deriving DecidableEq, Repr

def FileFault.message : FileFault → String
  | notFound => "No such file or directory (os error 2)"
  | notDirectory => "Not a directory (os error 20)"
  | isDirectory => "Is a directory (os error 21)"
  | nameTooLong => "File name too long (os error 36)"
  | notUtf8 => "stream did not contain valid UTF-8"
  | other description => description

inductive Failure where
  | notNumber (text : String) (fault : Numeral.Fault)
  | outOfRange (fault : Key.OutOfRange)
  | reference (path : String) (fault : FileFault)
  | nameArray (path : String) (fault : FileFault)
deriving DecidableEq, Repr

def withCause (message cause : String) : String :=
  message ++ "\n\nCaused by:\n    " ++ cause

def Failure.message : Failure → String
  | notNumber text fault => withCause ("not a number: " ++ text) fault.message
  | outOfRange fault => fault.message
  | reference path fault => withCause ("reading reference table " ++ path) fault.message
  | nameArray path fault => withCause ("reading name array " ++ path) fault.message

structure Outcome where
  exitCode : Nat
  printed : String
  events : List Event
  failure : Option Failure
deriving DecidableEq, Repr

/-- What the command leaves on standard error beside the events. -/
def Outcome.complaint (outcome : Outcome) : String :=
  match outcome.failure with
  | none => ""
  | some failure => "Error: " ++ failure.message ++ "\n"

/-- The lines that the command writes to standard error. -/
def Outcome.diagnostics (outcome : Outcome) : List Diagnostic :=
  Diagnostic.lines outcome.events outcome.complaint

/-- The number in an argument: hexadecimal behind `0x`, otherwise decimal. -/
def argumentNumber : List Char → Except Numeral.Fault Nat
  | '0' :: 'x' :: digits => Numeral.read 16 65536 digits
  | digits => Numeral.read 10 65536 digits

def readKey (text : String) : Except Failure Key :=
  match argumentNumber text.toList with
  | .error fault => .error (.notNumber text fault)
  | .ok value =>
    match Key.ofIndex (BitVec.ofNat 16 value) with
    | .error fault => .error (.outOfRange fault)
    | .ok key => .ok key

/-- What `classify` prints of a key. -/
def describe (key : Key) : String :=
  toString key ++ ": opcode 0x" ++ Numeral.lowerHex 2 key.opcode.toNat ++
    " mul/swp " ++ toString key.mulSwp.toNat ++ " -> " ++ toString key.category ++
    " -> " ++ Table.standard.get key ++ "\n"

abbrev Files := String → Except FileFault ByteArray

def Files.text (files : Files) (path : String) : Except FileFault String := do
  match String.fromUTF8? (← files path) with
  | some text => return text
  | none => throw .notUtf8

def readReference (files : Files) (path : String) : Except Failure Listing :=
  match files.text path with
  | .ok text => .ok (Reference.parse text)
  | .error fault => .error (.reference path fault)

/-- The listing that a check tests: the one in a file, or the standard table's. -/
def readTested (files : Files) : Option String → Except Failure Listing
  | none => .ok Table.standard.listing
  | some path =>
    match files.text path with
    | .ok text => .ok (NameArray.parse text)
    | .error fault => .error (.nameArray path fault)

/-- Compares a table with a reference.  Any mismatch makes the command fail. -/
def check (files : Files) (referencePath : String) (testedPath : Option String) : Outcome :=
  match readReference files referencePath with
  | .error failure => ⟨1, "", [], some failure⟩
  | .ok reference =>
    let readEvent := Event.referenceRead reference.size referencePath
    match readTested files testedPath with
    | .error failure => ⟨1, "", [readEvent], some failure⟩
    | .ok tested =>
      let mismatches := Comparison.mismatches reference tested .mgba
      ⟨if mismatches.isEmpty then 0 else 1, "",
        readEvent :: .localRead tested.size :: Comparison.report mismatches, none⟩

/-- Runs a command on the standard table. -/
def Command.run (files : Files) : Command → Outcome
  | table includeNames commentColumn =>
    let config := { Config.standard with commentColumn, includeNames }
    ⟨0, Initializer.text .standard config, [compressionEvent Table.standard.handlers], none⟩
  | names =>
    ⟨0, NameArray.text Config.standard.arrayName .standard, [], none⟩
  | classify text =>
    match readKey text with
    | .ok key => ⟨0, describe key, [], none⟩
    | .error failure => ⟨1, "", [], some failure⟩
  | check reference tested => CommandLine.check files reference tested

/-- The outcome of a request.  The table is built before the command runs, and details are
reported on demand only. -/
def Request.outcome (files : Files) : Request → Outcome
  | run verbose command =>
    let outcome := command.run files
    let events := Table.buildEvents .default undefinedHandler ++ outcome.events
    { outcome with events := events.filter fun event => verbose || event.level ≠ .debug }
  | help => ⟨0, "Usage: arm-dispatch [-v] <table|names|classify|check>\n", [], none⟩
  | version => ⟨0, "arm-dispatch 0.1.0\n", [], none⟩
  | misuse => ⟨2, "", [], none⟩

def Request.paths : Request → List String
  | run _ (.check reference tested) => reference :: tested.toList
  | _ => []

end OpcodeTable.CommandLine
