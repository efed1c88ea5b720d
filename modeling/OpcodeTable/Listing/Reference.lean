import OpcodeTable.Listing

/-!
# Reference listings

A reference listing assigns the names that another program has for its handlers to slots, in
lines such as `[0x1A3] = LDRBTIU,`.  Blanks may stand before the bracket and around the equals
sign.  The name is followed by a comma at once, and after the comma anything may follow.  A
naming says which handler a foreign name stands for.
-/

namespace OpcodeTable

namespace Reference

open Blank (trimStart)
open Word (after? isWordChar)

/-- The slot and the name that a line assigns. -/
def readLine? (line : List Char) : Option (BitVec 16 × String) := do
  let indexed ← after? ['['] (trimStart line)
  let index := indexed.takeWhile (· ≠ ']')
  let assigned ← after? [']'] (indexed.dropWhile (· ≠ ']'))
  let slot ← Numeral.hexValue? index
  let named ← after? ['='] (trimStart assigned)
  let name := (trimStart named).takeWhile isWordChar
  let _ ← after? [','] ((trimStart named).dropWhile isWordChar)
  if name = [] then none else some (slot, String.ofList name)

def parse (text : String) : Listing := Listing.ofText readLine? text

end Reference

/-- The handlers that foreign names stand for. -/
abbrev Naming := OrderedMap String String

/-! ## The names of mGBA

The handler names of mGBA's tables.  They distinguish flag settings, shift types and block
transfer modes, which all come down to the same handler here.
-/

/-- The name that stands for an undefined instruction, also where a slot is left out. -/
def foreignUndefined : String := "ILL"

namespace Naming

/-- Data processing: the operation, an S if flags are written, and the shift type of a
register or an I.  Comparisons always write flags and have no S. -/
def mgbaDataProcessing : List (String × String) :=
  AluOp.all.flatMap fun op =>
    (if op.isComparison then [""] else ["", "S"]).flatMap fun flags =>
      ["_LSL", "_LSR", "_ASR", "_ROR"].map (fun shift =>
        (op.name ++ flags ++ shift, (Category.dataProcessing op .reg).defaultHandler)) ++
      [(op.name ++ flags ++ "I", (Category.dataProcessing op .imm).defaultHandler)]

def mgbaSingle : List (String × String) := [
  ("MUL", "exec_arm_mul"),
  ("MULS", "exec_arm_mul"),
  ("MLA", "exec_arm_mla"),
  ("MLAS", "exec_arm_mla"),
  ("UMULL", "exec_arm_umull"),
  ("UMULLS", "exec_arm_umull"),
  ("UMLAL", "exec_arm_umlal"),
  ("UMLALS", "exec_arm_umlal"),
  ("SMULL", "exec_arm_smull"),
  ("SMULLS", "exec_arm_smull"),
  ("SMLAL", "exec_arm_smlal"),
  ("SMLALS", "exec_arm_smlal"),
  ("SWP", "exec_arm_swp"),
  ("SWPB", "exec_arm_swpb"),
  ("MRS", "exec_arm_mrs"),
  ("MRSR", "exec_arm_mrs"),
  ("MSR", "exec_arm_msr_reg"),
  ("MSRR", "exec_arm_msr_reg"),
  ("MSRI", "exec_arm_msr_imm"),
  ("MSRRI", "exec_arm_msr_imm"),
  ("STRI", "exec_arm_str_imm_pre_nowb"),
  ("LDRI", "exec_arm_ldr_imm_pre_nowb"),
  ("STRTI", "exec_arm_str_imm_pre_wb"),
  ("LDRTI", "exec_arm_ldr_imm_pre_wb"),
  ("STRBI", "exec_arm_strb_imm_pre_nowb"),
  ("LDRBI", "exec_arm_ldrb_imm_pre_nowb"),
  ("STRBTI", "exec_arm_strb_imm_pre_wb"),
  ("LDRBTI", "exec_arm_ldrb_imm_pre_wb"),
  ("STRIU", "exec_arm_str_imm_post_wb"),
  ("LDRIU", "exec_arm_ldr_imm_post_wb"),
  ("STRTIU", "exec_arm_str_imm_post_wb"),
  ("LDRTIU", "exec_arm_ldr_imm_post_wb"),
  ("STRBIU", "exec_arm_strb_imm_post_wb"),
  ("LDRBIU", "exec_arm_ldrb_imm_post_wb"),
  ("STRBTIU", "exec_arm_strb_imm_post_wb"),
  ("LDRBTIU", "exec_arm_ldrb_imm_post_wb"),
  ("B", "exec_arm_b"),
  ("BL", "exec_arm_bl"),
  ("STC", "exec_arm_stc_imm"),
  ("LDC", "exec_arm_ldc_imm"),
  ("MCR", "exec_arm_mcr"),
  ("MRC", "exec_arm_mrc"),
  ("CDP", undefinedHandler),
  ("SWI", "exec_arm_software_interrupt"),
  (foreignUndefined, undefinedHandler)]

/-- Block transfers: the direction, an S for user registers, the mode, and a W for
writeback. -/
def mgbaBlockTransfers : List (String × String) :=
  [("STM", "exec_arm_stm"), ("LDM", "exec_arm_ldm")].flatMap fun (base, handler) =>
    ["", "S"].flatMap fun user =>
      ["DA", "IA", "DB", "IB"].flatMap fun mode =>
        ["", "W"].map fun writeback => (base ++ user ++ mode ++ writeback, handler)

/-- What the names of mGBA stand for. -/
def mgba : Naming :=
  OrderedMap.ofList (mgbaDataProcessing ++ mgbaSingle ++ mgbaBlockTransfers)

end Naming

end OpcodeTable
