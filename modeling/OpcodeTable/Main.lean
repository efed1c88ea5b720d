import OpcodeTable.CommandLine.Outcome

/-!
# The program

Reads the files that a request names, computes its outcome, and prints it.
-/

namespace OpcodeTable.CommandLine

/-- The number of an error of the system, which some calls give as a negative number. -/
def errorNumber (code : UInt32) : Nat :=
  if code < 0x80000000 then code.toNat else (0 - code).toNat

/-- The fault that an error of the file system amounts to. -/
def FileFault.ofError (error : IO.Error) : FileFault :=
  match error with
  | .noFileOrDirectory .. => .notFound
  | .inappropriateType _ code _ => if errorNumber code = 21 then .isDirectory else .notDirectory
  | .invalidArgument _ code _ =>
    if errorNumber code = 36 then .nameTooLong else .other (toString error)
  | _ => .other (toString error)

def readFile (path : String) : IO (Except FileFault ByteArray) := do
  try
    return .ok (← IO.FS.readBinFile path)
  catch error =>
    return .error (.ofError error)

def Outcome.print (outcome : Outcome) : IO UInt32 := do
  IO.print outcome.printed
  for line in outcome.diagnostics do
    IO.eprint line.written
  return outcome.exitCode.toUInt32

end OpcodeTable.CommandLine

open OpcodeTable.CommandLine in
def main (arguments : List String) : IO UInt32 := do
  let request := Request.ofArguments arguments
  let contents ← request.paths.mapM fun path => return (path, ← readFile path)
  (request.outcome fun path => (contents.lookup path).getD (.error .notFound)).print
