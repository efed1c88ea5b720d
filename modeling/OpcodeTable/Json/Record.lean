import OpcodeTable.Initializer
import OpcodeTable.Json
import OpcodeTable.Event
import OpcodeTable.Listing.Reference
import OpcodeTable.Table

/-!
# Records in JSON

Configurations, mismatches and namings are records.  A table can be stored but not read.
-/

namespace OpcodeTable

namespace Config

def fieldNames : List String :=
  ["owner", "table_name", "names_table_name", "comment_column", "include_names"]

def toJson (config : Config) : Json :=
  .object (fieldNames.zip
    [.string config.owner, .string config.tableName, .string config.arrayName,
     .integer config.commentColumn.toNat, .bool config.includeNames])

def ofJson (json : Json) : Json.Reading Config := do
  match ← json.fields fieldNames with
  | [owner, tableName, arrayName, commentColumn, includeNames] =>
    return {
      owner := ← owner.asString
      tableName := ← tableName.asString
      arrayName := ← arrayName.asString
      commentColumn := ← commentColumn.asWord 64
      includeNames := ← includeNames.asBool }
  | _ => .error .malformed

end Config

namespace Mismatch

def fieldNames : List String := ["key", "foreign", "expected", "actual"]

def toJson (mismatch : Mismatch) : Json :=
  .object (fieldNames.zip
    [.integer mismatch.slot.toNat, .string mismatch.foreign, .string mismatch.expected,
     .string mismatch.actual])

def ofJson (json : Json) : Json.Reading Mismatch := do
  match ← json.fields fieldNames with
  | [slot, foreign, expected, actual] =>
    return {
      slot := ← slot.asWord 16
      foreign := ← foreign.asString
      expected := ← expected.asString
      actual := ← actual.asString }
  | _ => .error .malformed

end Mismatch

namespace Naming

def fieldNames : List String := ["names"]

def toJson (naming : Naming) : Json :=
  .object (fieldNames.zip
    [.object (naming.entries.map fun (foreign, handler) => (foreign, .string handler))])

def entryOfJson (member : String × Json) : Json.Reading (String × String) :=
  do return (member.1, ← member.2.asString)

def ofJson (json : Json) : Json.Reading Naming := do
  match ← json.fields fieldNames with
  | [.object members] => return OrderedMap.ofList (← members.mapM entryOfJson)
  | _ => .error .malformed

end Naming

def Table.toJson (table : Table) : Json :=
  .object [("handlers", .array (table.handlers.map .string))]

end OpcodeTable
