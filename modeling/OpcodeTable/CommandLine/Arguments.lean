import OpcodeTable.Initializer
import OpcodeTable.Text

/-!
# Command-line arguments

Arguments are read from the left.  A flag stands for itself, an option takes a value behind
an equals sign or as the next argument, and the rest are positional.  After a double dash
everything is positional.  The first argument that does not fit ends the reading, and so does
a request for help or for the version.
-/

namespace OpcodeTable.CommandLine

inductive Command where
  | table (names : Bool) (commentColumn : BitVec 64)
  | names
  | classify (key : String)
  | check (reference : String) (tested : Option String)
deriving DecidableEq, Repr

/-- What a list of arguments asks for. -/
inductive Request where
  | run (verbose : Bool) (command : Command)
  | help
  | version
  | misuse
deriving DecidableEq, Repr

/-- Why reading arguments ended early. -/
inductive Stop where
  | help
  | version
  | misuse
deriving DecidableEq, Repr

def Stop.request : Stop → Request
  | .help => .help
  | .version => .version
  | .misuse => .misuse

inductive Form where
  | doubleDash
  /-- A name behind two dashes, and a value if an equals sign follows the name. -/
  | long (name : String) (value : Option String)
  /-- Single-letter flags behind one dash. -/
  | short (letters : List Char)
  | plain (text : String)
deriving DecidableEq, Repr

/-- The form of an argument.  A single dash alone is plain. -/
def Form.ofArgument (argument : String) : Form :=
  match argument.toList with
  | ['-', '-'] => .doubleDash
  | '-' :: '-' :: text =>
    .long (String.ofList (text.takeWhile (· ≠ '=')))
      (match text.dropWhile (· ≠ '=') with
        | [] => none
        | _ :: value => some (String.ofList value))
  | '-' :: c :: letters => .short (c :: letters)
  | _ => .plain argument

/-- An option, and which values it accepts. -/
structure ValueOption where
  name : String
  accepts : String → Bool

/-- What one level of the command line takes.  All levels take `verbose` and `help`. -/
structure Signature where
  /-- Whether the version can be asked for. -/
  version : Bool
  flags : List String
  options : List ValueOption
  /-- How many positional arguments there may be. -/
  positionals : Nat

/-- What has been read of a level. -/
structure Given where
  flags : List String
  options : List (String × String)
  positionals : List String
deriving DecidableEq, Repr, Inhabited

def Given.empty : Given := ⟨[], [], []⟩

/-- Sets a flag, which has to be set for the first time. -/
def Given.withFlag (given : Given) (flag : String) : Except Stop Given :=
  if flag ∈ given.flags then .error .misuse
  else .ok { given with flags := flag :: given.flags }

/-- Gives an option a value that it accepts, for the first time. -/
def Given.withOption (given : Given) (option : ValueOption) (value : String) :
    Except Stop Given :=
  if option.accepts value ∧ (given.options.lookup option.name).isNone then
    .ok { given with options := (option.name, value) :: given.options }
  else .error .misuse

/-- Adds a positional argument, if there is room for it. -/
def Given.withPositional (signature : Signature) (given : Given) (text : String) :
    Except Stop Given :=
  if given.positionals.length < signature.positionals then
    .ok { given with positionals := given.positionals ++ [text] }
  else .error .misuse

def Signature.readFlag (signature : Signature) (given : Given) (name : String) :
    Except Stop Given :=
  if name = "help" then .error .help
  else if name = "version" ∧ signature.version then .error .version
  else if name = "verbose" ∨ name ∈ signature.flags then given.withFlag name
  else .error .misuse

def letterName? : Char → Option String
  | 'v' => some "verbose"
  | 'h' => some "help"
  | 'V' => some "version"
  | _ => none

/-- Reads single-letter flags from the left. -/
def Signature.readLetters (signature : Signature) (given : Given) (letters : List Char) :
    Except Stop Given :=
  letters.foldlM
    (fun given c =>
      match letterName? c with
      | some name => signature.readFlag given name
      | none => .error .misuse)
    given

/-- Reads the arguments of a level without commands to their end. -/
def Signature.read (signature : Signature) (given : Given) :
    List String → Except Stop Given
  | [] => .ok given
  | argument :: rest =>
    match Form.ofArgument argument with
    | .doubleDash => rest.foldlM (Given.withPositional signature) given
    | .plain text => do signature.read (← given.withPositional signature text) rest
    | .short letters => do signature.read (← signature.readLetters given letters) rest
    | .long name value =>
      match signature.options.find? (·.name == name), value, rest with
      | some option, some value, rest => do
        signature.read (← given.withOption option value) rest
      | some option, none, argument :: rest =>
        match Form.ofArgument argument with
        | .plain value => do signature.read (← given.withOption option value) rest
        | _ => .error .misuse
      | some _, none, [] => .error .misuse
      | none, some _, _ => .error .misuse
      | none, none, rest => do signature.read (← signature.readFlag given name) rest

/-- A column is a number of 64 bits. -/
def column? (text : String) : Option (BitVec 64) :=
  match Numeral.read 10 18446744073709551616 text.toList with
  | .ok value => some (BitVec.ofNat 64 value)
  | .error _ => none

def isColumn (text : String) : Bool := (column? text).isSome

def isPath (text : String) : Bool := !text.isEmpty

/-- The commands, and what each of them takes. -/
def signatures : List (String × Signature) := [
  ("table", ⟨false, ["names"], [⟨"comment-column", isColumn⟩], 0⟩),
  ("names", ⟨false, [], [], 0⟩),
  ("classify", ⟨false, [], [], 1⟩),
  ("check", ⟨false, [], [⟨"reference", isPath⟩, ⟨"local", isPath⟩], 0⟩)]

def topSignature : Signature := ⟨true, [], [], 0⟩

/-- The command made of what was given for it, if nothing is left out that it needs. -/
def command? (name : String) (given : Given) : Option Command :=
  match name with
  | "table" =>
    some (.table ("names" ∈ given.flags)
      (((given.options.lookup "comment-column").bind column?).getD
        Config.standard.commentColumn))
  | "names" => some .names
  | "classify" => given.positionals.head?.map .classify
  | "check" => do
    return .check (← given.options.lookup "reference") (given.options.lookup "local")
  | _ => none

/-- Whether help is available on what stands behind the word `help`. -/
def isHelpTopic (arguments : List String) : Bool :=
  match arguments with
  | [] => true
  | [topic] => topic == "help" || signatures.any (·.1 == topic)
  | _ => false

/-- What is asked for by a command and the arguments behind it. -/
def readCommand (verbose : Bool) (name : String) (arguments : List String) : Request :=
  match signatures.lookup name with
  | none => if name = "help" ∧ isHelpTopic arguments then .help else .misuse
  | some signature =>
    match signature.read .empty arguments with
    | .error stop => stop.request
    | .ok given =>
      match command? name given with
      | some command => .run (verbose || "verbose" ∈ given.flags) command
      | none => .misuse

def readTop (given : Given) : List String → Request
  | [] => .misuse
  | argument :: rest =>
    match Form.ofArgument argument with
    | .plain name => readCommand ("verbose" ∈ given.flags) name rest
    | .short letters =>
      match topSignature.readLetters given letters with
      | .ok given => readTop given rest
      | .error stop => stop.request
    | .long name none =>
      match topSignature.readFlag given name with
      | .ok given => readTop given rest
      | .error stop => stop.request
    | .long _ (some _) | .doubleDash => .misuse

def Request.ofArguments (arguments : List String) : Request := readTop .empty arguments

end OpcodeTable.CommandLine
