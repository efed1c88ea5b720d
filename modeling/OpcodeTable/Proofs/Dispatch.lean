import OpcodeTable.Instruction.Session
import OpcodeTable.Proofs.Classification
import OpcodeTable.Proofs.Names

/-!
# Dispatch of words

A word goes to the handler that the standard table has for its key, unless it is a branch and
exchange, and its condition plays no part in that.  What an instruction has for an immediate
decides about its handler in one way only: the bits of a multiply or swap may be set in it, and
no handler is left for the word then.
-/

namespace OpcodeTable

/-- A word has a pattern under the mask of a field if the field is the pattern's. -/
theorem masked_eq_iff (above width below : Nat) (word : BitVec (above + width + below))
    (field : BitVec width) :
    word &&& (BitVec.ofNat above 0 ++ BitVec.allOnes width ++ BitVec.ofNat below 0) =
        BitVec.ofNat above 0 ++ field ++ BitVec.ofNat below 0 ↔
      word.extractLsb' below width = field := by
  constructor
  · intro hmasked
    apply BitVec.eq_of_getLsbD_eq
    intro bit hbit
    have hplace := congrArg (fun bits => bits.getLsbD (below + bit)) hmasked
    simpa [BitVec.getLsbD_append, hbit] using hplace
  · rintro rfl
    apply BitVec.eq_of_getLsbD_eq
    intro bit hbit
    simp only [BitVec.getLsbD_and, BitVec.getLsbD_append, BitVec.getLsbD_zero,
      BitVec.getLsbD_allOnes, BitVec.getLsbD_extractLsb']
    by_cases hbelow : bit < below
    · simp [hbelow]
    by_cases hwidth : bit - below < width
    · have hplace : below + (bit - below) = bit := by omega
      simp [hbelow, hwidth, hplace]
    · simp [hbelow, hwidth]

section Fields

variable {left right : BitVec 32} {start width : Nat}

theorem getLsbD_eq_of_extract_eq
    (hfield : left.extractLsb' start width = right.extractLsb' start width) {bit : Nat}
    (hfirst : start ≤ bit) (hlast : bit < start + width) :
    left.getLsbD bit = right.getLsbD bit := by
  have hplace := congrArg (fun bits => bits.getLsbD (bit - start)) hfield
  have hwidth : bit - start < width := by omega
  simpa [hwidth, Nat.add_sub_cancel' hfirst] using hplace

/-- Words that agree in a field agree in every field inside it. -/
theorem extract_eq_of_extract_eq
    (hfield : left.extractLsb' start width = right.extractLsb' start width) {first size : Nat}
    (hfirst : start ≤ first) (hlast : first + size ≤ start + width) :
    left.extractLsb' first size = right.extractLsb' first size := by
  apply BitVec.eq_of_getLsbD_eq
  intro bit hbit
  rw [BitVec.getLsbD_extractLsb', BitVec.getLsbD_extractLsb',
    getLsbD_eq_of_extract_eq hfield (by omega) (by omega)]

end Fields

namespace Key

theorem opcode_ofFields (opcode : BitVec 8) (mulSwp : Bool) :
    (ofFields opcode mulSwp).opcode = opcode :=
  BitVec.extractLsb'_append_eq_left

theorem mulSwp_ofFields (opcode : BitVec 8) (mulSwp : Bool) :
    (ofFields opcode mulSwp).mulSwp = mulSwp := by
  rw [Key.mulSwp, ofFields, BitVec.getLsbD_append]
  simp

/-- The slots of a partial opcode are two neighbours, told apart by the multiply/swap bit. -/
theorem index_ofFields (opcode : BitVec 8) (mulSwp : Bool) :
    (ofFields opcode mulSwp).index = 2 * opcode.toNat + mulSwp.toNat := by
  have hbit : mulSwp.toNat < 2 ^ 1 := Bool.toNat_lt mulSwp
  rw [index, ofFields, BitVec.toNat_append, BitVec.toNat_ofBool,
    ← Nat.shiftLeft_add_eq_or_of_lt hbit, Nat.shiftLeft_eq, Nat.mul_comm]

/-- Whether a word has the bits of a multiply or swap, as far as these tell it from others. -/
def hasMulSwp (word : BitVec 32) : Bool := word.getLsbD 7 && word.getLsbD 4

/-- The key of a word is a matter of its bits 27 to 4. -/
theorem ofWord_congr {left right : BitVec 32}
    (hbits : left.extractLsb' 4 24 = right.extractLsb' 4 24) : ofWord left = ofWord right := by
  have hlast : left.getLsbD 4 = right.getLsbD 4 :=
    getLsbD_eq_of_extract_eq hbits (by decide) (by decide)
  rw [ofWord, ofWord, extract_eq_of_extract_eq hbits (by decide) (by decide),
    getLsbD_eq_of_extract_eq hbits (by decide) (by decide), hlast]

theorem index_ofWord (word : BitVec 32) :
    (ofWord word).index = 2 * (word.extractLsb' 20 8).toNat +
      (if word.getLsbD 7 = true ∧ word.getLsbD 4 = true then 1 else 0) := by
  rw [ofWord, index_ofFields, Bool.toNat, Bool.cond_eq_ite]
  simp only [Bool.and_eq_true]

theorem category_ofWord (word : BitVec 32) :
    (ofWord word).category = classify (word.extractLsb' 20 8) (hasMulSwp word) := by
  rw [category, ofWord, opcode_ofFields, mulSwp_ofFields]
  rfl

end Key

/-- No other category shares the handler of undefined instructions. -/
theorem Category.defaultHandler_eq_undefinedHandler_iff {category : Category} :
    category.defaultHandler = undefinedHandler ↔ category = .undefined := by
  have hall : ∀ category ∈ all, category.defaultHandler = undefinedHandler →
      category = .undefined := by decide
  exact ⟨hall category category.mem_all, fun hcategory => hcategory ▸ rfl⟩

namespace Instruction

theorem handler_eq (instruction : Instruction) :
    instruction.handler = instruction.category.defaultHandler := by
  rw [handler, HandlerMap.resolve, HandlerMap.get?_default, Option.getD_some]

/-- The handler of undefined instructions is run for no others. -/
theorem handler_eq_undefinedHandler_iff {instruction : Instruction} :
    instruction.handler = undefinedHandler ↔ instruction.category = .undefined := by
  rw [handler_eq, Category.defaultHandler_eq_undefinedHandler_iff]

/-- A branch and exchange is told by bits 27 to 4, whatever its condition and its register. -/
theorem isBranchExchange_iff (word : BitVec 32) :
    isBranchExchange word = true ↔ word.extractLsb' 4 24 = 0x12fff1 := by
  rw [isBranchExchange, beq_iff_eq]
  exact masked_eq_iff 4 24 4 word 0x12fff1

/-- The category of a word is a matter of its bits 27 to 4. -/
theorem category_ofWord_congr {left right : BitVec 32}
    (hbits : left.extractLsb' 4 24 = right.extractLsb' 4 24) :
    (ofWord left).category = (ofWord right).category := by
  have hexchange : isBranchExchange left = isBranchExchange right := by
    rw [Bool.eq_iff_iff, isBranchExchange_iff, isBranchExchange_iff, hbits]
  simp only [ofWord, hexchange, Key.ofWord_congr hbits]

/-- Every word that is no branch and exchange has the category of its key. -/
theorem category_ofWord_of_ne {word : BitVec 32} (hword : word.extractLsb' 4 24 ≠ 0x12fff1) :
    (ofWord word).category = (Key.ofWord word).category := by
  exact if_neg fun hexchange => hword ((isBranchExchange_iff word).1 hexchange)

/-- Whether a word is of data processing or a status register transfer with an immediate
operand, or of a single data transfer with an immediate offset. -/
def HasImmediate (word : BitVec 32) : Prop :=
  word.extractLsb' 25 3 = 0b001 ∨ word.extractLsb' 25 3 = 0b010

/-- The leading bits of the opcode of a word with an immediate. -/
theorem HasImmediate.leading {word : BitVec 32} (hword : HasImmediate word) :
    word.extractLsb' 20 8 &&& 0b11100000 = 0b00100000 ∨
      word.extractLsb' 20 8 &&& 0b11100000 = 0b01000000 := by
  have hfield (field : BitVec 3) (hextract : word.extractLsb' 25 3 = field) :
      word.extractLsb' 20 8 &&& 0b11100000 = 0#0 ++ field ++ 0#5 := by
    apply (masked_eq_iff 0 3 5 (word.extractLsb' 20 8) field).2
    rw [← hextract]
    apply BitVec.eq_of_getLsbD_eq
    intro bit hbit
    have hwidth : 5 + bit < 8 := by omega
    simp [hbit, hwidth, ← Nat.add_assoc]
  exact hword.imp (hfield 0b001) (hfield 0b010)

/-- A word with an immediate is no branch and exchange, since that has other leading bits. -/
theorem HasImmediate.category_eq {word : BitVec 32} (hword : HasImmediate word) :
    (ofWord word).category = classify (word.extractLsb' 20 8) (Key.hasMulSwp word) := by
  rw [category_ofWord_of_ne, Key.category_ofWord]
  intro hbits
  have hexchange : word.extractLsb' 4 24 = (0x012fff10 : BitVec 32).extractLsb' 4 24 := hbits
  have hleading : word.extractLsb' 25 3 = (0x012fff10 : BitVec 32).extractLsb' 25 3 :=
    extract_eq_of_extract_eq hexchange (by decide) (by decide)
  rcases hword with hdata | htransfer
  · exact absurd (hdata.symm.trans hleading) (by decide)
  · exact absurd (htransfer.symm.trans hleading) (by decide)

theorem HasImmediate.of_eq {left right : BitVec 32} (hleft : HasImmediate left)
    (hopcode : left.extractLsb' 20 8 = right.extractLsb' 20 8) : HasImmediate right := by
  rwa [HasImmediate, ← extract_eq_of_extract_eq hopcode (by decide) (by decide)]

theorem HasImmediate.takesImmediate {word : BitVec 32} (hword : HasImmediate word)
    (hmulSwp : Key.hasMulSwp word = false) : (ofWord word).category.TakesImmediate := by
  rw [hword.category_eq, hmulSwp]
  rcases hword.leading with hdata | htransfer
  · exact Classification.takesImmediate_data hdata
  · exact Classification.takesImmediate_singleTransfer htransfer

/-- Bits 7 and 4 belong to the immediate, and yet they decide whether the word is undefined. -/
theorem HasImmediate.category_eq_undefined_iff {word : BitVec 32} (hword : HasImmediate word) :
    (ofWord word).category = .undefined ↔ Key.hasMulSwp word = true := by
  cases hmulSwp : Key.hasMulSwp word with
  | true =>
      rw [hword.category_eq, hmulSwp, Classification.classify_immediate_mulSwp hword.leading]
      simp
  | false => simpa using (hword.takesImmediate hmulSwp).ne_undefined

/-- Of an immediate, the bits of a multiply or swap still choose the handler: `mov r0, #0` is
data processing and `mov r0, #144` is undefined. -/
theorem not_forall_immediate_is_data :
    ¬∀ left right : BitVec 32, left.extractLsb' 20 8 = right.extractLsb' 20 8 →
      HasImmediate left →
        (ofWord left).category = (ofWord right).category ∧
          (ofWord left).handler = (ofWord right).handler := by
  intro hdata
  have hcategory := (hdata 0xe3a00000 0xe3a00090 (by decide) (.inl rfl)).1
  exact absurd hcategory (by decide)

/-- Two words with the same opcode and with an immediate have the same category, and the same
handler, exactly if both or neither of them have the bits of a multiply or swap.  With these bits
a word is undefined whatever its opcode, and without them it is an instruction that takes an
immediate. -/
theorem immediate_is_data_iff {left right : BitVec 32}
    (hopcode : left.extractLsb' 20 8 = right.extractLsb' 20 8) (himmediate : HasImmediate left) :
    ((ofWord left).category = (ofWord right).category ↔
        Key.hasMulSwp left = Key.hasMulSwp right) ∧
      ((ofWord left).handler = (ofWord right).handler ↔
        Key.hasMulSwp left = Key.hasMulSwp right) ∧
      (Key.hasMulSwp left = true →
        (ofWord left).category = .undefined ∧ (ofWord left).handler = "exec_arm_undefined") ∧
      (Key.hasMulSwp left = false →
        (ofWord left).category.TakesImmediate ∧
          (ofWord left).handler ≠ "exec_arm_undefined") := by
  have hleft := himmediate.category_eq_undefined_iff
  have hright := (himmediate.of_eq hopcode).category_eq_undefined_iff
  have hsame (hmulSwp : Key.hasMulSwp left = Key.hasMulSwp right) :
      (ofWord left).category = (ofWord right).category := by
    rw [himmediate.category_eq, (himmediate.of_eq hopcode).category_eq, hopcode, hmulSwp]
  refine ⟨⟨fun hcategory => ?_, hsame⟩, ⟨fun hhandler => ?_, fun hmulSwp => ?_⟩,
    fun hmulSwp => ?_, fun hmulSwp => ?_⟩
  · rw [Bool.eq_iff_iff, ← hleft, ← hright, hcategory]
  · rw [Bool.eq_iff_iff, ← hleft, ← hright, ← handler_eq_undefinedHandler_iff, hhandler,
      handler_eq_undefinedHandler_iff]
  · rw [handler_eq, handler_eq, hsame hmulSwp]
  · exact ⟨hleft.2 hmulSwp, handler_eq_undefinedHandler_iff.2 (hleft.2 hmulSwp)⟩
  · have htakes := himmediate.takesImmediate hmulSwp
    exact ⟨htakes, fun hhandler =>
      htakes.ne_undefined (handler_eq_undefinedHandler_iff.1 hhandler)⟩

/-- An offset of 144 takes a load to another handler, and one of 15 does not. -/
theorem immediate_is_data_iff_load :
    (0xe5910000 : BitVec 32).extractLsb' 20 8 = (0xe5910090 : BitVec 32).extractLsb' 20 8 ∧
      HasImmediate 0xe5910000 ∧
      (ofWord 0xe5910000).handler ≠ (ofWord 0xe5910090).handler ∧
      (ofWord 0xe5910000).handler = (ofWord 0xe591000f).handler := by
  have hload : HasImmediate 0xe5910000 := .inr rfl
  have hfar : (0xe5910000 : BitVec 32).extractLsb' 20 8 =
      (0xe5910090 : BitVec 32).extractLsb' 20 8 := by decide
  have hnear : (0xe5910000 : BitVec 32).extractLsb' 20 8 =
      (0xe591000f : BitVec 32).extractLsb' 20 8 := by decide
  refine ⟨hfar, hload, fun hhandler => ?_, ?_⟩
  · have hmulSwp := (immediate_is_data_iff hfar hload).2.1.1 hhandler
    exact absurd hmulSwp (by decide)
  · exact (immediate_is_data_iff hnear hload).2.1.2 (by decide)

/-- A word and the standard table agree about its handler.  The key of a word has the bits 27 to
20, doubled, and one more if the bits 7 and 4 are set.  Only a branch and exchange, which the bits
27 to 4 identify, is not dispatched as its key, whose slot is that of a status register transfer;
every other word has the category of its key and the handler that the table has there, and is never
a branch and exchange or a coprocessor register transfer.  The condition makes no difference. -/
theorem dispatch_agrees_with_table (word : BitVec 32) :
    (ofWord word).key.index = 2 * (word.extractLsb' 20 8).toNat +
        (if word.getLsbD 7 = true ∧ word.getLsbD 4 = true then 1 else 0) ∧
      (word.extractLsb' 4 24 = 0b000100101111111111110001 →
        (ofWord word).category = .possibleBX ∧
        (ofWord word).handler = "exec_arm_bx_possible" ∧
        (ofWord word).key = ⟨0x024⟩ ∧ Table.standard.get ⟨0x024⟩ = "exec_arm_msr_reg") ∧
      (word.extractLsb' 4 24 ≠ 0b000100101111111111110001 →
        (ofWord word).category = (ofWord word).key.category ∧
        (ofWord word).handler = Table.standard.get (ofWord word).key ∧
        (ofWord word).category ≠ .possibleBX ∧ (ofWord word).category ≠ .mrc ∧
        (ofWord word).category ≠ .mcr) ∧
      ∀ other : BitVec 32, other.extractLsb' 0 28 = word.extractLsb' 0 28 →
        (ofWord other).key = (ofWord word).key ∧
        (ofWord other).category = (ofWord word).category ∧
        (ofWord other).handler = (ofWord word).handler := by
  refine ⟨Key.index_ofWord word, fun hexchange => ?_, fun hother => ?_, fun other hbits => ?_⟩
  · have hexample : word.extractLsb' 4 24 = (0x012fff10 : BitVec 32).extractLsb' 4 24 := hexchange
    have hcategory : (ofWord word).category = .possibleBX :=
      (category_ofWord_congr hexample).trans (by decide)
    have hkey : (ofWord word).key = ⟨0x024⟩ := (Key.ofWord_congr hexample).trans (by decide)
    refine ⟨hcategory, ?_, hkey, ?_⟩
    · rw [handler_eq, hcategory]
      decide
    · rw [Table.get_standard]
      decide
  · have hcategory : (ofWord word).category = (ofWord word).key.category :=
      category_ofWord_of_ne hother
    have hkeyless : (ofWord word).category ∉ Classification.keyless :=
      hcategory ▸ Classification.classify_not_mem_keyless _ _
    refine ⟨hcategory, ?_, ?_⟩
    · rw [handler_eq, Table.get_standard, hcategory]
    · simpa [Classification.keyless] using hkeyless
  · have hfields : other.extractLsb' 4 24 = word.extractLsb' 4 24 :=
      extract_eq_of_extract_eq hbits (by decide) (by decide)
    have hcategory := category_ofWord_congr hfields
    exact ⟨Key.ofWord_congr hfields, hcategory, by rw [handler_eq, handler_eq, hcategory]⟩

end Instruction

end OpcodeTable
