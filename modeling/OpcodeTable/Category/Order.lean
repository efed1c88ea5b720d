import OpcodeTable.Category

/-!
# The order of categories

Categories and their parts are listed once, in the order that comparisons follow.  A rank
is a position in that list, and ranks are compared as numbers.
-/

namespace OpcodeTable

/-- The place of an operation, which is also its encoding. -/
def AluOp.rank : AluOp → Nat
  | and => 0 | eor => 1 | sub => 2 | rsb => 3 | add => 4 | adc => 5 | sbc => 6 | rsc => 7
  | tst => 8 | teq => 9 | cmp => 10 | cmn => 11 | orr => 12 | mov => 13 | bic => 14
  | mvn => 15

def Operand.rank : Operand → Nat
  | reg => 0
  | imm => 1

def Indexing.rank : Indexing → Nat
  | pre => 0
  | preWriteback => 1
  | postWriteback => 2

namespace Category

/-- The place of a transfer among the transfers of one direction and size. -/
def transferRank (offset : Operand) (indexing : Indexing) : Nat :=
  3 * offset.rank + indexing.rank

def rank : Category → Nat
  | mrs => 0
  | msr source => 1 + source.rank
  | mul => 3
  | mla => 4
  | umull => 5
  | umlal => 6
  | smull => 7
  | smlal => 8
  | swp => 9
  | swpb => 10
  | dataProcessing op operand => 11 + 2 * op.rank + operand.rank
  | str offset indexing => 43 + transferRank offset indexing
  | strb offset indexing => 49 + transferRank offset indexing
  | ldr offset indexing => 55 + transferRank offset indexing
  | ldrb offset indexing => 61 + transferRank offset indexing
  | b => 67
  | bl => 68
  | ldm => 69
  | stm => 70
  | swi => 71
  | ldc offset => 72 + offset.rank
  | stc offset => 74 + offset.rank
  | mrc => 76
  | mcr => 77
  | possibleBX => 78
  | undefined => 79

/-- The categories that one kind of single data transfer has. -/
def transfers (kind : Operand → Indexing → Category) : List Category :=
  Operand.all.flatMap fun offset => Indexing.all.map fun indexing => kind offset indexing

def all : List Category :=
  [mrs] ++ Operand.all.map msr ++
  [mul, mla, umull, umlal, smull, smlal, swp, swpb] ++
  (AluOp.all.flatMap fun op => Operand.all.map fun operand => dataProcessing op operand) ++
  transfers str ++ transfers strb ++ transfers ldr ++ transfers ldrb ++
  [b, bl, ldm, stm, swi] ++
  Operand.all.map ldc ++ Operand.all.map stc ++
  [mrc, mcr, possibleBX, undefined]

/-- The list of all categories has each of them at the place that its rank says. -/
theorem getElem?_all_rank (category : Category) : all[category.rank]? = some category := by
  cases category with
  | msr source => cases source <;> rfl
  | dataProcessing op operand => cases op <;> cases operand <;> rfl
  | str offset indexing => cases offset <;> cases indexing <;> rfl
  | strb offset indexing => cases offset <;> cases indexing <;> rfl
  | ldr offset indexing => cases offset <;> cases indexing <;> rfl
  | ldrb offset indexing => cases offset <;> cases indexing <;> rfl
  | ldc offset => cases offset <;> rfl
  | stc offset => cases offset <;> rfl
  | _ => rfl

theorem mem_all (category : Category) : category ∈ all :=
  List.mem_of_getElem? (getElem?_all_rank category)

theorem rank_injective {left right : Category} (heq : left.rank = right.rank) :
    left = right := by
  have hleft := getElem?_all_rank left
  rw [heq, getElem?_all_rank right] at hleft
  exact (Option.some.inj hleft).symm

instance : Ord Category := ⟨fun left right => compare left.rank right.rank⟩

theorem compare_eq (left right : Category) :
    compare left right = compare left.rank right.rank := rfl

instance : Std.TransOrd Category where
  eq_swap := by
    intro left right
    simp only [compare_eq]
    exact Std.OrientedCmp.eq_swap
  isLE_trans := by
    intro first second third
    simp only [compare_eq]
    exact Std.TransCmp.isLE_trans

instance : Std.LawfulEqOrd Category where
  compare_self := by
    intro category
    simp
  eq_of_compare := by
    intro left right heq
    simp only [compare_eq, Std.LawfulEqCmp.compare_eq_iff_eq] at heq
    exact rank_injective heq

end Category

instance : Ord AluOp := ⟨fun left right => compare left.rank right.rank⟩

end OpcodeTable
