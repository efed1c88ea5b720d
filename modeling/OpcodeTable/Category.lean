/-!
# Instruction categories

The classes of ARM instructions that a handler table tells apart.  Whether flags are
written is not among the distinctions, since a handler decides that when it runs.
-/

namespace OpcodeTable

/-- The data-processing operations, in the order of bits 24 to 21. -/
inductive AluOp where
  | and | eor | sub | rsb | add | adc | sbc | rsc
  | tst | teq | cmp | cmn | orr | mov | bic | mvn
deriving DecidableEq, Repr, Inhabited

namespace AluOp

/-- The operations in the order of their encodings. -/
def all : List AluOp :=
  [and, eor, sub, rsb, add, adc, sbc, rsc, tst, teq, cmp, cmn, orr, mov, bic, mvn]

def ofBits (bits : BitVec 4) : AluOp :=
  all.get ⟨bits.toNat, bits.isLt⟩

/-- Comparisons set the flags and write no register. -/
def isComparison : AluOp → Bool
  | tst | teq | cmp | cmn => true
  | _ => false

def name : AluOp → String
  | and => "AND" | eor => "EOR" | sub => "SUB" | rsb => "RSB"
  | add => "ADD" | adc => "ADC" | sbc => "SBC" | rsc => "RSC"
  | tst => "TST" | teq => "TEQ" | cmp => "CMP" | cmn => "CMN"
  | orr => "ORR" | mov => "MOV" | bic => "BIC" | mvn => "MVN"

instance : ToString AluOp := ⟨name⟩

end AluOp

/-- Where a second operand or a transfer offset comes from. -/
inductive Operand where
  | reg
  | imm
deriving DecidableEq, Repr, Inhabited

def Operand.all : List Operand := [reg, imm]

instance : ToString Operand where
  toString
    | .reg => "REG"
    | .imm => "IMM"

/-- How a single data transfer forms its address.  A post-indexed transfer always writes
the base register back. -/
inductive Indexing where
  | pre
  | preWriteback
  | postWriteback
deriving DecidableEq, Repr, Inhabited

def Indexing.all : List Indexing := [pre, preWriteback, postWriteback]

instance : ToString Indexing where
  toString
    | .pre => "PRE_NOWB"
    | .preWriteback => "PRE_WB"
    | .postWriteback => "POST_WB"

inductive Category where
  | mrs
  | msr (source : Operand)
  | mul
  | mla
  | umull
  | umlal
  | smull
  | smlal
  | swp
  | swpb
  | dataProcessing (op : AluOp) (operand : Operand)
  | str (offset : Operand) (indexing : Indexing)
  | strb (offset : Operand) (indexing : Indexing)
  | ldr (offset : Operand) (indexing : Indexing)
  | ldrb (offset : Operand) (indexing : Indexing)
  | b
  | bl
  | ldm
  | stm
  | swi
  | ldc (offset : Operand)
  | stc (offset : Operand)
  | mrc
  | mcr
  /-- A branch and exchange, which only the whole word identifies. -/
  | possibleBX
  | undefined
deriving DecidableEq, Repr, Inhabited

namespace Category

instance : ToString Category where
  toString
    | mrs => "MRS"
    | msr source => s!"MSR_{source}"
    | mul => "MUL"
    | mla => "MLA"
    | umull => "UMULL"
    | umlal => "UMLAL"
    | smull => "SMULL"
    | smlal => "SMLAL"
    | swp => "SWP"
    | swpb => "SWPB"
    | dataProcessing op operand => s!"{op}_{operand}"
    | str offset indexing => s!"STR_{offset}_{indexing}"
    | strb offset indexing => s!"STRB_{offset}_{indexing}"
    | ldr offset indexing => s!"LDR_{offset}_{indexing}"
    | ldrb offset indexing => s!"LDRB_{offset}_{indexing}"
    | b => "B"
    | bl => "BL"
    | ldm => "LDM"
    | stm => "STM"
    | swi => "SWI"
    | ldc offset => s!"LDC_{offset}"
    | stc offset => s!"STC_{offset}"
    | mrc => "MRC"
    | mcr => "MCR"
    | possibleBX => "BX (possible)"
    | undefined => "Undefined/Reserved"

end Category

end OpcodeTable
