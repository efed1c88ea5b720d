import OpcodeTable.Listing
import OpcodeTable.Run
import OpcodeTable.Text.Output

/-!
# Table initializers

The text that declares a table: definitions of the repetitions, the runs of the table one on
a line with aligned comments, and the removal of the definitions.  The name array may follow.
-/

namespace OpcodeTable

structure Config where
  /-- The class that the handlers are members of. -/
  owner : String
  tableName : String
  arrayName : String
  /-- The column at which comments start. -/
  commentColumn : BitVec 64
  /-- Whether the name array follows the table. -/
  includeNames : Bool
deriving DecidableEq, Repr

def Config.standard : Config where
  owner := "ARMCPU"
  tableName := "arm_exec_table"
  arrayName := "arm_exec_fn_names"
  commentColumn := 52
  includeNames := false

def Run.code (run : Run String) : String := "        " ++ run.invocation

/-- The line of a run.  Its comment starts at the given column, which counts bytes, or one
blank after the code if that reaches the column. -/
def Run.line (column : Nat) (run : Run String) : String :=
  run.code ++ String.ofList (List.replicate (max 1 (column - run.code.utf8ByteSize)) ' ') ++
    "// " ++ run.comment

/-- The pieces in which the line of a run is written, of which each blank before the comment is
one. -/
def Run.linePieces (column : Nat) (run : Run String) : List String :=
  [run.code] ++ List.replicate (max 1 (column - run.code.utf8ByteSize)) " " ++
    ["// ", run.comment, "\n"]

def Run.write (run : Run String) (sink : Sink) : Sink.Result := sink.writeAll run.pieces

namespace Initializer

/-- The definitions of the repetitions, and the opening of the table. -/
def preamble (config : Config) : List String :=
  ["    // The following code is generated by arm-dispatch",
   "    // Helper macros for cleaner instruction table initialization",
   "    #define ARM_FN(func) &" ++ config.owner ++ "::func",
   "    #define REPEAT_2(handler) handler, handler",
   "    #define REPEAT_4(handler) handler, handler, handler, handler",
   "    #define REPEAT_8(handler) handler, handler, handler, handler, " ++
     "handler, handler, handler, handler",
   "    #define REPEAT_16(handler) REPEAT_8(handler), REPEAT_8(handler)",
   "    #define REPEAT_32(handler) REPEAT_16(handler), REPEAT_16(handler)",
   "    #define REPEAT_64(handler) REPEAT_32(handler), REPEAT_32(handler)",
   "    #define REPEAT_128(handler) REPEAT_64(handler), REPEAT_64(handler)",
   "    #define REPEAT_ALT(a, b) a, b, a, b",
   "    #define REPEAT_2ALT(a, b) a, a, b, b",
   "",
   "    // Table of " ++ toString Key.count ++
     " entries indexed by bits 27-20 and the mul/swp bit",
   "    static constexpr void (" ++ config.owner ++ "::*" ++ config.tableName ++ "[" ++
     toString Key.count ++ "])(uint32_t instruction) = \x7b"]

/-- The names of the repetitions. -/
def definedNames : List String :=
  ["ARM_FN", "REPEAT_2", "REPEAT_4", "REPEAT_8", "REPEAT_16", "REPEAT_32", "REPEAT_64",
   "REPEAT_128", "REPEAT_ALT", "REPEAT_2ALT"]

/-- The end of the table, and the removal of the definitions. -/
def trailer : List String :=
  ["    \x7d;",
   "",
   "    // Cleanup macros to avoid polluting the namespace"] ++
    definedNames.map fun name => "    #undef " ++ name

def lines (table : Table) (config : Config) : List String :=
  preamble config ++
    (compress table.handlers).map (Run.line config.commentColumn.toNat) ++
    trailer ++
    if config.includeNames then "" :: NameArray.lines config.arrayName table else []

def text (table : Table) (config : Config) : String := Line.join (lines table config)

end Initializer

def writeRuns (runs : List (Run String)) (column : Nat) (sink : Sink) : Sink.Result :=
  runs.foldlM (fun sink run => sink.writeAll (run.linePieces column)) sink

def writeNameArray (table : Table) (config : Config) (sink : Sink) : Sink.Result :=
  sink.writeLines (NameArray.lines config.arrayName table)

/-- Writes the declaration of a table, part by part. -/
def writeTable (table : Table) (config : Config) (sink : Sink) : Sink.Result := do
  let sink ← sink.writeLines (Initializer.preamble config)
  let sink ← writeRuns (compress table.handlers) config.commentColumn.toNat sink
  let sink ← sink.writeLines Initializer.trailer
  if config.includeNames then
    let sink ← sink.writeLine ""
    writeNameArray table config sink
  else return sink

end OpcodeTable
