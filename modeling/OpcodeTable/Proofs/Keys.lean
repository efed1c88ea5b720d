import Mathlib
import OpcodeTable.Key

/-!
# Keys and their slots

Keys and the numbers of their slots determine each other.  Listed in table order, every key
occurs once, with the keys of lower slots before it.
-/

namespace OpcodeTable

namespace Key

def ofSlot (slot : Nat) : Key := ⟨BitVec.ofNat 9 slot⟩

theorem index_ofSlot {slot : Nat} (hslot : slot < count) : (ofSlot slot).index = slot := by
  have hbits : slot < 2 ^ 9 := hslot
  rw [index, ofSlot, BitVec.toNat_ofNat, Nat.mod_eq_of_lt hbits]

theorem index_injective : Function.Injective index := by
  intro left right heq
  cases left
  cases right
  exact congrArg Key.mk (BitVec.eq_of_toNat_eq heq)

theorem opcode_ofSlot {slot : Nat} (hslot : slot < count) :
    (ofSlot slot).opcode = BitVec.ofNat 8 (slot >>> 1) := by
  apply BitVec.eq_of_toNat_eq
  have hbits : slot < 2 ^ 9 := hslot
  rw [opcode, ofSlot, BitVec.extractLsb'_toNat, BitVec.toNat_ofNat, BitVec.toNat_ofNat,
    Nat.mod_eq_of_lt hbits]

theorem mulSwp_ofSlot (slot : Nat) : (ofSlot slot).mulSwp = slot.testBit 0 := by
  simp only [ofSlot, mulSwp, BitVec.getLsbD_ofNat]
  rfl

theorem mem_all (key : Key) : key ∈ all := List.mem_of_getElem? (getElem?_all key)

theorem pairwise_all : all.Pairwise fun left right => left.index < right.index := by
  have hrange := List.pairwise_lt_range (n := count)
  rw [all, List.pairwise_map]
  refine hrange.imp_of_mem fun {left right} hleft hright hlt => ?_
  have hl := index_ofSlot (List.mem_range.1 hleft)
  have hr := index_ofSlot (List.mem_range.1 hright)
  simp only [ofSlot] at hl hr
  rwa [hl, hr]

theorem nodup_all : all.Nodup := by
  refine pairwise_all.imp ?_
  rintro left right hlt rfl
  exact Nat.lt_irrefl _ hlt

/-- Going through the opcodes with both values of the multiply/swap bit goes through the slots. -/
theorem ofFields_eq_ofSlot {opcode : Nat} (hopcode : opcode < 256) (mulSwp : Bool) :
    ofFields (BitVec.ofNat 8 opcode) mulSwp = ofSlot (2 * opcode + mulSwp.toNat) := by
  have hbit : mulSwp.toNat < 2 ^ 1 := Bool.toNat_lt mulSwp
  have hslot : 2 * opcode + mulSwp.toNat < count := by
    simp only [count]
    omega
  apply index_injective
  rw [index_ofSlot hslot]
  simp only [ofFields, index, BitVec.toNat_append, BitVec.toNat_ofNat, BitVec.toNat_ofBool]
  rw [Nat.mod_eq_of_lt hopcode, ← Nat.shiftLeft_add_eq_or_of_lt hbit, Nat.shiftLeft_eq,
    Nat.mul_comm]

@[simp]
theorem toNat_slot (key : Key) : key.slot.toNat = key.index := by
  have hlt : key.index < 2 ^ 16 := Nat.lt_trans key.index_lt_count (by decide)
  rw [slot, BitVec.toNat_setWidth]
  exact Nat.mod_eq_of_lt hlt

theorem slot_lt_count (key : Key) : key.slot.toNat < count := by
  rw [toNat_slot]
  exact key.index_lt_count

theorem slot_injective : Function.Injective slot := by
  intro left right heq
  have hleft := ofIndex_slot left
  rw [heq, ofIndex_slot right] at hleft
  exact (Except.ok.inj hleft).symm

theorem pairwise_slots : (all.map slot).Pairwise (· < ·) := by
  rw [List.pairwise_map]
  refine pairwise_all.imp fun {left right} hlt => ?_
  rwa [BitVec.lt_def, toNat_slot, toNat_slot]

/-- The slot number that is put together in 16 bits from a partial opcode and the multiply/swap
bit. -/
def fieldBits (opcode : BitVec 8) (mulSwp : Bool) : BitVec 16 :=
  opcode.setWidth 16 <<< 1 ||| (BitVec.ofBool mulSwp).setWidth 16

/-- The slot number that a word is projected onto by shifting and masking. -/
def wordBits (word : BitVec 32) : BitVec 16 :=
  fieldBits ((word >>> 20).setWidth 8) (word &&& 0x90 == 0x90)

/-- Sixteen bits hold every slot number. -/
theorem slot_ofFields (opcode : BitVec 8) (mulSwp : Bool) :
    (ofFields opcode mulSwp).slot = fieldBits opcode mulSwp := by
  apply BitVec.eq_of_toNat_eq
  have hopcode : opcode.toNat < 2 ^ 8 := opcode.isLt
  have hbit : mulSwp.toNat < 2 ^ 1 := Bool.toNat_lt mulSwp
  have hshift : opcode.toNat <<< 1 < 2 ^ 16 := by
    rw [Nat.shiftLeft_eq]
    omega
  rw [toNat_slot, fieldBits, index, ofFields]
  simp only [BitVec.toNat_append, BitVec.toNat_or, BitVec.toNat_shiftLeft, BitVec.toNat_setWidth,
    BitVec.toNat_ofBool]
  rw [Nat.mod_eq_of_lt (by omega : opcode.toNat < 2 ^ 16), Nat.mod_eq_of_lt hshift,
    Nat.mod_eq_of_lt (by omega)]

/-- Bits 7 and 4 are the ones that the mask leaves. -/
theorem mask_eq_iff (word : BitVec 32) :
    (word &&& 0x90 == 0x90) = (word.getLsbD 7 && word.getLsbD 4) := by
  have hmask : ∀ bit < 32, (0x90 : BitVec 32).getLsbD bit = (bit == 7 || bit == 4) := by decide
  rw [Bool.eq_iff_iff, beq_iff_eq, Bool.and_eq_true]
  constructor
  · intro hmasked
    have hbit := fun bit => congrArg (fun bits : BitVec 32 => bits.getLsbD bit) hmasked
    exact ⟨by simpa using hbit 7, by simpa using hbit 4⟩
  · rintro ⟨hseven, hfour⟩
    apply BitVec.eq_of_getLsbD_eq
    intro bit hbit
    rw [BitVec.getLsbD_and, hmask bit hbit]
    by_cases hset : bit = 7 ∨ bit = 4
    · obtain rfl | rfl := hset
      · rw [hseven]; rfl
      · rw [hfour]; rfl
    · simp [not_or.1 hset]

/-- Shifting and masking a word gives the number of the key that is cut from its bits. -/
theorem slot_ofWord (word : BitVec 32) : (ofWord word).slot = wordBits word := by
  rw [ofWord, slot_ofFields, wordBits, mask_eq_iff]
  rfl

/-- Every number below the number of keys is a key's. -/
theorem exists_slot_eq {bits : BitVec 16} (hbits : bits.toNat < count) :
    ∃ key : Key, key.slot = bits := by
  refine ⟨ofSlot bits.toNat, BitVec.eq_of_toNat_eq ?_⟩
  rw [toNat_slot, index_ofSlot hbits]

theorem ofIndex_of_le {bits : BitVec 16} (hbits : count ≤ bits.toNat) :
    ofIndex bits = .error ⟨bits⟩ :=
  if_neg (Nat.not_lt.2 hbits)

/-- The keys are those of all numbers below their number. -/
theorem slots_all : all.map slot = (List.range count).map (BitVec.ofNat 16) := by
  rw [all, List.map_map]
  refine List.map_congr_left fun index hindex => BitVec.eq_of_toNat_eq ?_
  have hlt : index < count := List.mem_range.1 hindex
  have hindex := index_ofSlot hlt
  rw [Function.comp_apply, toNat_slot, BitVec.toNat_ofNat,
    Nat.mod_eq_of_lt (Nat.lt_trans hlt (by decide))]
  exact hindex

end Key

end OpcodeTable
