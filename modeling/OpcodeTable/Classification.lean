import OpcodeTable.Key
import OpcodeTable.Category

/-!
# Classification of keys

Several families of instructions share the leading bits of the partial opcode.  A key is
therefore classified by a decision list: rules are tried in order, and the first that
matches decides.  Bits are numbered within the partial opcode, whose bit 0 is bit 20 of the
instruction.
-/

namespace OpcodeTable

/-- A rule of the decision list: which partial opcodes it is for, for which value of the
multiply/swap bit if it depends on it, and the category it gives. -/
structure Rule where
  mask : BitVec 8
  value : BitVec 8
  mulSwp : Option Bool
  category : BitVec 8 → Category

namespace Rule

def applies (rule : Rule) (opcode : BitVec 8) (mulSwp : Bool) : Bool :=
  opcode &&& rule.mask == rule.value && rule.mulSwp.all (· == mulSwp)

end Rule

namespace Classification

/-- The second operand of data processing: bit 5 set means an immediate. -/
def operand (opcode : BitVec 8) : Operand :=
  if opcode.getLsbD 5 then .imm else .reg

/-- The offset of a transfer, where bit 5 has the opposite sense. -/
def offset (opcode : BitVec 8) : Operand :=
  if opcode.getLsbD 5 then .reg else .imm

/-- Bit 4 chooses indexing before the transfer, and there bit 1 asks for writeback. -/
def indexing (opcode : BitVec 8) : Indexing :=
  if !opcode.getLsbD 4 then .postWriteback
  else if opcode.getLsbD 1 then .preWriteback
  else .pre

/-- Bit 2 makes a long multiply signed, and bit 1 makes it accumulate. -/
def longMultiply (opcode : BitVec 8) : Category :=
  match opcode.getLsbD 2, opcode.getLsbD 1 with
  | false, false => .umull
  | false, true => .umlal
  | true, false => .smull
  | true, true => .smlal

/-- Bit 0 makes a single data transfer a load, and bit 2 makes it transfer a byte. -/
def singleTransfer (opcode : BitVec 8) : Category :=
  match opcode.getLsbD 0, opcode.getLsbD 2 with
  | false, false => .str (offset opcode) (indexing opcode)
  | false, true => .strb (offset opcode) (indexing opcode)
  | true, false => .ldr (offset opcode) (indexing opcode)
  | true, true => .ldrb (offset opcode) (indexing opcode)

def rules : List Rule := [
  -- Status register transfers stand where a comparison without flags would.
  ⟨0b11111001, 0b00010000, some false,
    fun opcode => if opcode.getLsbD 1 then .msr .reg else .mrs⟩,
  ⟨0b11111001, 0b00110000, some false, fun _ => .msr .imm⟩,
  ⟨0b11111100, 0b00000000, some true,
    fun opcode => if opcode.getLsbD 1 then .mla else .mul⟩,
  ⟨0b11111000, 0b00001000, some true, longMultiply⟩,
  ⟨0b11111000, 0b00010000, some true,
    fun opcode => if opcode.getLsbD 2 then .swpb else .swp⟩,
  ⟨0b11000000, 0b00000000, some false,
    fun opcode => .dataProcessing (.ofBits (opcode.extractLsb' 1 4)) (operand opcode)⟩,
  ⟨0b11000000, 0b01000000, some false, singleTransfer⟩,
  ⟨0b11100000, 0b10100000, none, fun opcode => if opcode.getLsbD 4 then .bl else .b⟩,
  ⟨0b11100000, 0b10000000, none, fun opcode => if opcode.getLsbD 0 then .ldm else .stm⟩,
  ⟨0b11110000, 0b11110000, none, fun _ => .swi⟩,
  -- Bit 2 does not separate register transfers from coprocessor loads and stores here, so
  -- no key is left for them.
  ⟨0b11010000, 0b11000000, none,
    fun opcode => if opcode.getLsbD 0 then .ldc (offset opcode) else .stc (offset opcode)⟩,
  -- The leading byte of a branch and exchange, shifted left as it stands in a slot number.
  -- Data processing claims this opcode first.
  ⟨0b11111111, 0b00100100, some false, fun _ => .possibleBX⟩]

end Classification

/-- The category of a partial opcode with its multiply/swap bit. -/
def classify (opcode : BitVec 8) (mulSwp : Bool) : Category :=
  match Classification.rules.find? (·.applies opcode mulSwp) with
  | some rule => rule.category opcode
  | none => .undefined

def Key.category (key : Key) : Category := classify key.opcode key.mulSwp

end OpcodeTable
