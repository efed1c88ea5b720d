import OpcodeTable.Category.Order
import OpcodeTable.Json
import OpcodeTable.Key

/-!
# Keys and categories in JSON

A key is its number.  A category is a variant, and so are its operation, operand and
indexing.
-/

namespace OpcodeTable

namespace Key

def toJson (key : Key) : Json := .integer key.index

/-- Reads a number of 16 bits, which then has to be a key's. -/
def ofJson (json : Json) : Json.Reading Key := do
  let index ← json.asWord 16
  match ofIndex index with
  | .ok key => .ok key
  | .error fault => .error (.keyOutOfRange fault.index)

end Key

/-- Reads a variant without fields as the one of `values` that has its name. -/
def Json.asNamed {α : Type} (values : List α) (name : α → String) (json : Json) :
    Json.Reading α := do
  let (given, content) ← json.variant
  Json.noField content
  Json.require (values.find? (name · == given))

namespace AluOp

def toJson (op : AluOp) : Json := .string op.name

def ofJson : Json → Json.Reading AluOp := Json.asNamed all name

end AluOp

namespace Operand

def variantName : Operand → String
  | reg => "Reg"
  | imm => "Imm"

def toJson (operand : Operand) : Json := .string operand.variantName

def ofJson : Json → Json.Reading Operand := Json.asNamed all variantName

end Operand

namespace Indexing

def variantName : Indexing → String
  | pre => "Pre"
  | preWriteback => "PreWriteback"
  | postWriteback => "PostWriteback"

def toJson (indexing : Indexing) : Json := .string indexing.variantName

def ofJson : Json → Json.Reading Indexing := Json.asNamed all variantName

end Indexing

namespace Category

/-- The name of a category without its parts. -/
def variantName : Category → String
  | mrs => "MRS" | msr _ => "MSR"
  | mul => "MUL" | mla => "MLA"
  | umull => "UMULL" | umlal => "UMLAL" | smull => "SMULL" | smlal => "SMLAL"
  | swp => "SWP" | swpb => "SWPB"
  | dataProcessing .. => "DataProcessing"
  | str .. => "STR" | strb .. => "STRB" | ldr .. => "LDR" | ldrb .. => "LDRB"
  | b => "B" | bl => "BL" | ldm => "LDM" | stm => "STM" | swi => "SWI"
  | ldc _ => "LDC" | stc _ => "STC" | mrc => "MRC" | mcr => "MCR"
  | possibleBX => "PossibleBX" | undefined => "Undefined"

def toJson (category : Category) : Json :=
  match category with
  | msr operand | ldc operand | stc operand =>
    .object [(category.variantName, operand.toJson)]
  | dataProcessing op operand =>
    .object [(category.variantName, .array [op.toJson, operand.toJson])]
  | str offset indexing | strb offset indexing | ldr offset indexing
  | ldrb offset indexing =>
    .object [(category.variantName, .array [offset.toJson, indexing.toJson])]
  | _ => .string category.variantName

def simple : List Category :=
  [mrs, mul, mla, umull, umlal, smull, smlal, swp, swpb, b, bl, ldm, stm, swi, mrc, mcr,
   possibleBX, undefined]

def ofOperand (kind : Operand → Category) (content : Option Json) : Json.Reading Category :=
  do return kind (← Operand.ofJson (← Json.oneField content))

def ofTransfer (kind : Operand → Indexing → Category) (content : Option Json) :
    Json.Reading Category := do
  let (offset, indexing) ← Json.twoFields content
  return kind (← Operand.ofJson offset) (← Indexing.ofJson indexing)

def ofJson (json : Json) : Json.Reading Category := do
  let (name, content) ← json.variant
  match name with
  | "MSR" => ofOperand msr content
  | "LDC" => ofOperand ldc content
  | "STC" => ofOperand stc content
  | "STR" => ofTransfer str content
  | "STRB" => ofTransfer strb content
  | "LDR" => ofTransfer ldr content
  | "LDRB" => ofTransfer ldrb content
  | "DataProcessing" =>
    let (op, operand) ← Json.twoFields content
    return dataProcessing (← AluOp.ofJson op) (← Operand.ofJson operand)
  | _ =>
    Json.noField content
    Json.require (simple.find? (·.variantName == name))

end Category

end OpcodeTable
