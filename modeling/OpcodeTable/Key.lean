import OpcodeTable.Text

/-!
# Instruction keys

A key is the nine bits of an ARM instruction word that choose its handler: bits 27 to 20,
the partial opcode, and below them one bit that tells multiplies and swaps from everything
else.  Keys number the 512 slots of a handler table.
-/

namespace OpcodeTable

/-- The partial opcode of a word, followed by its multiply/swap bit. -/
structure Key where
  bits : BitVec 9
deriving DecidableEq, Repr

namespace Key

def count : Nat := 512

def ofFields (opcode : BitVec 8) (mulSwp : Bool) : Key :=
  ⟨opcode ++ BitVec.ofBool mulSwp⟩

/-- The key of an instruction word.  Multiplies and swaps have both bit 7 and bit 4 set. -/
def ofWord (word : BitVec 32) : Key :=
  ofFields (word.extractLsb' 20 8) (word.getLsbD 7 && word.getLsbD 4)

/-- Bits 27 to 20 of the instruction. -/
def opcode (key : Key) : BitVec 8 := key.bits.extractLsb' 1 8

def mulSwp (key : Key) : Bool := key.bits.getLsbD 0

/-- The number of the table slot that the key selects. -/
def index (key : Key) : Nat := key.bits.toNat

@[simp]
theorem index_lt_count (key : Key) : key.index < count := key.bits.isLt

def all : List Key := (List.range count).map fun index => ⟨BitVec.ofNat 9 index⟩

@[simp]
theorem length_all : all.length = count := by simp [all]

theorem getElem?_all (key : Key) : all[key.index]? = some key := by
  have hlt : key.bits.toNat < count := key.index_lt_count
  simp [all, index, hlt]

/-- Keys are ordered by their table slots. -/
instance : Ord Key := ⟨fun left right => compare left.bits right.bits⟩

instance : ToString Key := ⟨fun key => Numeral.slotText key.index⟩

structure OutOfRange where
  index : BitVec 16
deriving DecidableEq, Repr

def OutOfRange.message (fault : OutOfRange) : String :=
  "instruction key 0x" ++ Numeral.lowerHex 1 fault.index.toNat ++
    " out of range, keys are below 0x" ++ Numeral.lowerHex 1 count

/-- The fault in words, where the number does not matter. -/
def OutOfRange.summary : String := "instruction key out of range"

/-- The key of a slot number, which has to be below `count`. -/
def ofIndex (index : BitVec 16) : Except OutOfRange Key :=
  if index.toNat < count then .ok ⟨index.setWidth 9⟩ else .error ⟨index⟩

/-- The key of a slot number that a caller vouches for: where it is no key's, the program stops
with these words. -/
def vouched (index : BitVec 16) : Except String Key :=
  (ofIndex index).mapError fun _ => OutOfRange.summary

/-- The slot number of a key, as listings write it. -/
def slot (key : Key) : BitVec 16 := key.bits.setWidth 16

theorem ofIndex_slot (key : Key) : ofIndex key.slot = .ok key := by
  obtain ⟨bits⟩ := key
  have hlt : bits.toNat < count := bits.isLt
  have hslot : (bits.setWidth 16).toNat = bits.toNat := by
    rw [BitVec.toNat_setWidth, Nat.mod_eq_of_lt (Nat.lt_trans hlt (by decide))]
  simp only [ofIndex, slot, hslot, if_pos hlt]
  congr 2
  apply BitVec.eq_of_toNat_eq
  simp

end Key

end OpcodeTable
