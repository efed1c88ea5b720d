import OpcodeTable.Classification
import OpcodeTable.Proofs.Keys

/-!
# Rules that can apply

The leading three bits of an opcode and the multiply/swap bit rule out most of the decision
list, and the rules that are left decide alone.  For opcodes with an immediate none is left
once the multiply/swap bit is set, and a rule for immediates applies where it is not.  No key
at all has the category of a branch and exchange or of a coprocessor register transfer.
-/

namespace OpcodeTable

namespace Rule

/-- Whether a rule can apply to some opcode with the given leading bits. -/
def mayApply (rule : Rule) (leading : BitVec 8) (mulSwp : Bool) : Bool :=
  leading &&& rule.mask == rule.value &&& 0b11100000 && rule.mulSwp.all (· == mulSwp)

/-- A rule that cannot apply to the leading bits of an opcode does not apply to the opcode, so that
whole groups of opcodes can do without it. -/
theorem mayApply_of_applies {rule : Rule} {opcode : BitVec 8} {mulSwp : Bool}
    (happlies : rule.applies opcode mulSwp = true) :
    rule.mayApply (opcode &&& 0b11100000) mulSwp = true := by
  rw [applies, Bool.and_eq_true, beq_iff_eq] at happlies
  obtain ⟨hvalue, hmulSwp⟩ := happlies
  rw [mayApply, ← hvalue, hmulSwp, Bool.and_true, beq_iff_eq, BitVec.and_assoc,
    BitVec.and_assoc, BitVec.and_comm 0b11100000]

end Rule

/-- Whether a category is one of data processing, of a status register transfer or of a single
data transfer, with an immediate for the operand or the offset. -/
def Category.TakesImmediate : Category → Prop
  | msr source => source = .imm
  | dataProcessing _ operand => operand = .imm
  | str offset _ | strb offset _ | ldr offset _ | ldrb offset _ => offset = .imm
  | _ => False

theorem Category.TakesImmediate.ne_undefined {category : Category}
    (himmediate : category.TakesImmediate) : category ≠ .undefined := by
  rintro rfl
  exact himmediate

namespace Classification

variable {opcode : BitVec 8}

/-- The first rule that applies is the first of those that the leading bits and the multiply/swap
bit leave. -/
theorem find?_rules (opcode : BitVec 8) (mulSwp : Bool) :
    rules.find? (·.applies opcode mulSwp) =
      (rules.filter (·.mayApply (opcode &&& 0b11100000) mulSwp)).find?
        (·.applies opcode mulSwp) := by
  rw [List.find?_filter]
  refine List.find?_congr fun rule _ => ?_
  rw [Bool.eq_iff_iff, decide_eq_true_iff]
  exact ⟨fun happlies => ⟨Rule.mayApply_of_applies happlies, happlies⟩, And.right⟩

/-- The leading two bits of an opcode are among its leading three. -/
theorem masked_of_leading {leading : BitVec 8} (hleading : opcode &&& 0b11100000 = leading) :
    opcode &&& 0b11000000 = leading &&& 0b11000000 := by
  rw [← hleading, BitVec.and_assoc]
  rfl

theorem operand_of_leading (hleading : opcode &&& 0b11100000 = 0b00100000) :
    operand opcode = .imm := by
  have hbit := congrArg (fun bits : BitVec 8 => bits.getLsbD 5) hleading
  have hset : opcode.getLsbD 5 = true := by simpa using hbit
  rw [operand, if_pos hset]

theorem offset_of_leading (hleading : opcode &&& 0b11100000 = 0b01000000) :
    offset opcode = .imm := by
  have hbit := congrArg (fun bits : BitVec 8 => bits.getLsbD 5) hleading
  have hclear : ¬opcode.getLsbD 5 = true := by simpa using hbit
  rw [offset, if_neg hclear]

/-- Multiplies and swaps have no immediates, so no rule is left where the multiply/swap bit is
set. -/
theorem classify_immediate_mulSwp
    (hleading : opcode &&& 0b11100000 = 0b00100000 ∨ opcode &&& 0b11100000 = 0b01000000) :
    classify opcode true = .undefined := by
  have hnone : rules.find? (·.applies opcode true) = none := by
    rw [find?_rules]
    rcases hleading with hleading | hleading <;> (rw [hleading]; rfl)
  rw [classify, hnone]

/-- Of the rules that these leading bits leave, the one for status registers comes before the one
for data processing, and both give an immediate. -/
theorem takesImmediate_data (hleading : opcode &&& 0b11100000 = 0b00100000) :
    (classify opcode false).TakesImmediate := by
  have hrules : rules.filter (·.mayApply 0b00100000 false) =
      [⟨0b11111001, 0b00110000, some false, fun _ => .msr .imm⟩,
        ⟨0b11000000, 0b00000000, some false, fun opcode =>
          .dataProcessing (.ofBits (opcode.extractLsb' 1 4)) (operand opcode)⟩,
        ⟨0b11111111, 0b00100100, some false, fun _ => .possibleBX⟩] := rfl
  rw [classify, find?_rules, hleading, hrules]
  by_cases hstatus : opcode &&& 0b11111001 = 0b00110000
  · rw [List.find?_cons_of_pos (by simpa [Rule.applies] using hstatus)]
    rfl
  · have hdata : opcode &&& 0b11000000 = 0 := masked_of_leading hleading
    rw [List.find?_cons_of_neg (by simpa [Rule.applies] using hstatus),
      List.find?_cons_of_pos (by simpa [Rule.applies] using hdata)]
    exact operand_of_leading hleading

/-- These leading bits leave one rule, which has the immediate in the sense opposite to that of
data processing. -/
theorem takesImmediate_singleTransfer (hleading : opcode &&& 0b11100000 = 0b01000000) :
    (classify opcode false).TakesImmediate := by
  have hrules : rules.filter (·.mayApply 0b01000000 false) =
      [⟨0b11000000, 0b01000000, some false, singleTransfer⟩] := rfl
  have htransfer : opcode &&& 0b11000000 = 0b01000000 := masked_of_leading hleading
  rw [classify, find?_rules, hleading, hrules,
    List.find?_cons_of_pos (by simpa [Rule.applies] using htransfer)]
  have hoffset := offset_of_leading hleading
  simp only [singleTransfer]
  split <;> exact hoffset

/-- A category is the one that some applicable rule gives, unless none applies. -/
theorem classify_cases (opcode : BitVec 8) (mulSwp : Bool) :
    classify opcode mulSwp = .undefined ∨
      ∃ rule ∈ rules, rule.applies opcode mulSwp = true ∧
        classify opcode mulSwp = rule.category opcode := by
  cases hfind : rules.find? (·.applies opcode mulSwp) with
  | none => exact .inl (by rw [classify, hfind])
  | some rule =>
      have happlies := List.find?_some hfind
      have hrule := List.mem_of_find?_eq_some hfind
      exact .inr ⟨rule, hrule, happlies, by rw [classify, hfind]⟩

/-- The categories that no key has. -/
def keyless : List Category := [.possibleBX, .mrc, .mcr]

/-- Only the last rule gives a category that no key has. -/
theorem category_not_mem_keyless {rule : Rule} (hrule : rule ∈ rules.dropLast)
    (opcode : BitVec 8) : rule.category opcode ∉ keyless := by
  simp only [rules, List.dropLast_cons_cons, List.dropLast_singleton, List.mem_cons,
    List.not_mem_nil, or_false] at hrule
  rcases hrule with rfl | rfl | rfl | rfl | rfl | rfl | rfl | rfl | rfl | rfl | rfl
  all_goals
    simp only [longMultiply, singleTransfer]
    repeat' split
    all_goals simp [keyless]

/-- The last rule comes too late: wherever it applies, the one for data processing has applied
before. -/
theorem classify_not_mem_keyless (opcode : BitVec 8) (mulSwp : Bool) :
    classify opcode mulSwp ∉ keyless := by
  rcases classify_cases opcode mulSwp with hundefined | ⟨rule, hrule, happlies, hcategory⟩
  · rw [hundefined]
    decide
  · have hsplit : rules = rules.dropLast ++ [⟨0b11111111, 0b00100100, some false,
      fun _ => .possibleBX⟩] := rfl
    rw [hsplit, List.mem_append, List.mem_singleton] at hrule
    rcases hrule with hfront | rfl
    · rw [hcategory]
      exact category_not_mem_keyless hfront opcode
    · -- the last rule never decides, since its opcode is one of data processing
      obtain ⟨hopcode, hmulSwp⟩ : opcode &&& 0b11111111 = 0b00100100 ∧ mulSwp = false := by
        simpa [Rule.applies] using happlies
      have hall : opcode &&& 0b11111111 = opcode := BitVec.and_allOnes
      rw [← hall, hopcode, hmulSwp]
      decide

end Classification

end OpcodeTable
