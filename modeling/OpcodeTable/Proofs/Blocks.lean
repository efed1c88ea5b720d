import OpcodeTable.Proofs.Compression

/-!
# Blocks of a stretch

A stretch is split into blocks from the greatest down, and no size but the greatest is taken
twice.  There is only one such split of a length, as there is only one way to write a number
in binary once all that exceeds the last place has been taken off in equal parts.
-/

namespace OpcodeTable.Compression

/-- Sizes of blocks that may split a stretch: powers of two up to 128, none of them less than a
later one, and none but 128 twice. -/
structure Split (sizes : List Nat) : Prop where
  power : ∀ size ∈ sizes, ∃ exponent ≤ 7, size = 2 ^ exponent
  ordered : sizes.Pairwise (· ≥ ·)
  once : ∀ size, size ≠ 128 → sizes.count size ≤ 1

/-- The sizes of blocks are the powers of two up to 128. -/
theorem mem_blockSizes_iff {size : Nat} :
    size ∈ Run.blockSizes ↔ ∃ exponent ≤ 7, size = 2 ^ exponent := by
  have hpowers : Run.blockSizes = (List.range 8).reverse.map (2 ^ ·) := rfl
  rw [hpowers]
  simp [Nat.lt_succ_iff, eq_comm]

theorem pairwise_blockSizes : Run.blockSizes.Pairwise (· > ·) := by decide

theorem blockSizes_le {size : Nat} (hsize : size ∈ Run.blockSizes) : size ≤ 128 := by
  have hall : ∀ size ∈ Run.blockSizes, size ≤ 128 := by decide
  exact hall size hsize

/-- The double of a block is a block, up to the greatest. -/
theorem double_mem_blockSizes {size : Nat} (hsize : size ∈ Run.blockSizes)
    (hne : size ≠ 128) : 2 * size ∈ Run.blockSizes := by
  have hall : ∀ size ∈ Run.blockSizes, size ≠ 128 → 2 * size ∈ Run.blockSizes := by decide
  exact hall size hsize hne

/-- No block that fits is greater than the one that is taken. -/
theorem le_largestBlock {length size : Nat} (hsize : size ∈ Run.blockSizes)
    (hfits : size ≤ length) : size ≤ largestBlock length := by
  unfold largestBlock
  cases hfind : Run.blockSizes.find? (· ≤ length) with
  | none =>
      have hnone := List.find?_eq_none.1 hfind size hsize
      simp [hfits] at hnone
  | some found =>
      obtain ⟨-, front, back, hsplit, hfront⟩ := List.find?_eq_some_iff_append.1 hfind
      have hpairwise := pairwise_blockSizes
      rw [hsplit] at hsize hpairwise
      rw [Option.getD_some]
      rcases List.mem_append.1 hsize with hpassed | hrest
      · have := hfront size hpassed
        simp [hfits] at this
      · rcases List.mem_cons.1 hrest with rfl | hback
        · exact Nat.le_refl _
        · have hlater := (List.pairwise_append.1 hpairwise).2.1
          exact Nat.le_of_lt (List.rel_of_pairwise_cons hlater hback)

/-- A block is taken if it fits and, unless it is the greatest, its double does not. -/
theorem largestBlock_eq {length size : Nat} (hsize : size ∈ Run.blockSizes)
    (hfits : size ≤ length) (hdouble : size ≠ 128 → length < 2 * size) :
    largestBlock length = size := by
  have hlower := le_largestBlock hsize hfits
  have hupper := blockSizes_le (largestBlock_mem length)
  by_contra hne
  obtain ⟨exponent, -, rfl⟩ := mem_blockSizes_iff.1 hsize
  obtain ⟨greater, -, hgreater⟩ := mem_blockSizes_iff.1 (largestBlock_mem length)
  have hpos : 0 < 2 ^ exponent := Nat.two_pow_pos exponent
  have hle : largestBlock length ≤ length := largestBlock_le (by omega)
  have hexponent : exponent < greater := by
    rw [hgreater] at hlower hne
    exact (Nat.pow_lt_pow_iff_right (by decide)).1 (lt_of_le_of_ne hlower (Ne.symm hne))
  have htwice : 2 * 2 ^ exponent ≤ largestBlock length := by
    rw [hgreater, ← Nat.pow_succ']
    exact Nat.pow_le_pow_right (by decide) hexponent
  have hlength := hdouble (by omega)
  omega

theorem le_of_mem_blocks {length size : Nat} (hsize : size ∈ blocks length) : size ≤ length :=
  (List.le_sum_of_mem hsize).trans_eq (sum_blocks length)

/-- Taking the greatest block that fits, over and over, takes no size twice but 128. -/
theorem split_blocks (length : Nat) : Split (blocks length) := by
  fun_induction blocks length with
  | case1 => exact ⟨by simp, .nil, by simp⟩
  | case2 length hlength ih =>
      have hhead := largestBlock_mem length
      have hle := largestBlock_le (Nat.pos_of_ne_zero hlength)
      refine ⟨?_, ih.ordered.cons fun size hsize => ?_, fun size hne => ?_⟩
      · exact List.forall_mem_cons.2 ⟨mem_blockSizes_iff.1 hhead, ih.power⟩
      · have hrest := le_of_mem_blocks hsize
        exact le_largestBlock (mem_blockSizes_of_mem_blocks hsize) (by omega)
      · have honce := ih.once size hne
        rw [List.count_cons]
        split
        next heq =>
          -- twice the same block would have made the next greater one fit
          obtain rfl : largestBlock length = size := by simpa using heq
          have hnone : largestBlock length ∉ blocks (length - largestBlock length) := by
            intro hagain
            have hrest := le_of_mem_blocks hagain
            have hgreater := le_largestBlock (double_mem_blockSizes hhead hne)
              (show 2 * largestBlock length ≤ length by omega)
            have := largestBlock_pos length
            omega
          rw [List.count_eq_zero.2 hnone]
        next => exact honce

/-- Different powers of two below another add up to less than it. -/
theorem sum_lt_two_pow {sizes : List Nat} {exponent : Nat}
    (hpower : ∀ size ∈ sizes, ∃ exponent, size = 2 ^ exponent)
    (hordered : sizes.Pairwise (· > ·)) (hbelow : ∀ size ∈ sizes, size < 2 ^ exponent) :
    sizes.sum < 2 ^ exponent := by
  induction sizes generalizing exponent with
  | nil => exact Nat.two_pow_pos exponent
  | cons size sizes ih =>
      obtain ⟨⟨lower, rfl⟩, hpowers⟩ := List.forall_mem_cons.1 hpower
      have hlower : lower < exponent :=
        (Nat.pow_lt_pow_iff_right (by decide)).1 (hbelow _ List.mem_cons_self)
      have hsum := ih hpowers hordered.of_cons fun other hother =>
        List.rel_of_pairwise_cons hordered hother
      calc
        (2 ^ lower :: sizes).sum < 2 ^ lower + 2 ^ lower := by
          rw [List.sum_cons]
          omega
        _ = 2 ^ (lower + 1) := (Nat.two_mul _ ▸ Nat.pow_succ').symm
        _ ≤ 2 ^ exponent := Nat.pow_le_pow_right (by decide) hlower

namespace Split

variable {size : Nat} {sizes : List Nat}

theorem tail (hsplit : Split (size :: sizes)) : Split sizes where
  power := (List.forall_mem_cons.1 hsplit.power).2
  ordered := hsplit.ordered.of_cons
  once other hne := (List.count_le_count_cons).trans (hsplit.once other hne)

theorem mem_blockSizes (hsplit : Split sizes) (hsize : size ∈ sizes) :
    size ∈ Run.blockSizes :=
  mem_blockSizes_iff.2 (hsplit.power size hsize)

/-- What follows a block other than the greatest does not fill another one like it. -/
theorem sum_tail_lt (hsplit : Split (size :: sizes)) (hne : size ≠ 128) : sizes.sum < size := by
  obtain ⟨exponent, -, rfl⟩ := hsplit.power size List.mem_cons_self
  have hbelow : ∀ other ∈ sizes, other < 2 ^ exponent := by
    intro other hother
    refine lt_of_le_of_ne (List.rel_of_pairwise_cons hsplit.ordered hother) ?_
    rintro rfl
    have honce := hsplit.once _ hne
    have := List.count_pos_iff.2 hother
    rw [List.count_cons_self] at honce
    omega
  have hnodup : sizes.Nodup := by
    refine List.nodup_iff_count_le_one.2 fun other => ?_
    by_cases hother : other = 128
    · have hgreatest := blockSizes_le (hsplit.mem_blockSizes List.mem_cons_self)
      have hnone : other ∉ sizes := fun hmem => by
        have := hbelow other hmem
        omega
      rw [List.count_eq_zero.2 hnone]
      exact Nat.zero_le 1
    · exact hsplit.tail.once other hother
  refine sum_lt_two_pow (fun other hother => ?_) ?_ hbelow
  · obtain ⟨lower, -, heq⟩ := hsplit.tail.power other hother
    exact ⟨lower, heq⟩
  · exact (hsplit.tail.ordered.and hnodup).imp fun hpair => lt_of_le_of_ne hpair.1 hpair.2.symm

/-- There is only one split of a length. -/
theorem eq_blocks (hsplit : Split sizes) : sizes = blocks sizes.sum := by
  induction sizes with
  | nil => rw [List.sum_nil, blocks, if_pos rfl]
  | cons size sizes ih =>
      have hsize := hsplit.mem_blockSizes List.mem_cons_self
      have hpos := pos_of_mem_blockSizes hsize
      have hhead : largestBlock (size :: sizes).sum = size := by
        refine largestBlock_eq hsize (List.le_sum_of_mem List.mem_cons_self) fun hne => ?_
        have := hsplit.sum_tail_lt hne
        rw [List.sum_cons]
        omega
      have hsum : (size :: sizes).sum ≠ 0 := by
        rw [List.sum_cons]
        omega
      rw [blocks, if_neg hsum, hhead, List.sum_cons, Nat.add_sub_cancel_left, ← ih hsplit.tail]

end Split

end OpcodeTable.Compression
