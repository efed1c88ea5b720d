import OpcodeTable.Proofs.CanonicalRuns

/-!
# Fewest blocks

No sequence of block sizes that fills a stretch is shorter than the split into which it is cut.
Two equal blocks can be replaced by their double unless they are of the greatest size, and a
sequence in which this cannot be done is a split, of which there is only one.  Its blocks are as
many as the stretch has times 128, and one for each binary one of what remains.
-/

namespace OpcodeTable

namespace Compression

/-- The number of ones that a number has in binary. -/
def ones (number : Nat) : Nat := number.bitIndices.length

/-- Block sizes of which none but the greatest occurs twice need only be put in order. -/
theorem exists_split_of_once {sizes : List Nat} (hsizes : ∀ size ∈ sizes, size ∈ Run.blockSizes)
    (honce : ∀ size, size ≠ 128 → sizes.count size ≤ 1) :
    ∃ split, Split split ∧ split.Perm sizes := by
  have hperm := List.perm_insertionSort (· ≥ ·) sizes
  refine ⟨sizes.insertionSort (· ≥ ·), ⟨fun size hsize => ?_, ?_, fun size hne => ?_⟩, hperm⟩
  · exact mem_blockSizes_iff.1 (hsizes size (hperm.mem_iff.1 hsize))
  · exact List.pairwise_insertionSort (· ≥ ·) sizes
  · rw [hperm.count_eq]
    exact honce size hne

/-- Two equal blocks are worth one of their double size. -/
theorem exists_shorter_of_two_le_count {sizes : List Nat}
    (hsizes : ∀ size ∈ sizes, size ∈ Run.blockSizes) {size : Nat} (hne : size ≠ 128)
    (htwice : 2 ≤ sizes.count size) :
    ∃ shorter : List Nat, (∀ size ∈ shorter, size ∈ Run.blockSizes) ∧
      shorter.sum = sizes.sum ∧ shorter.length < sizes.length := by
  obtain ⟨rest, hperm⟩ := (List.replicate_sublist_iff.2 htwice).exists_perm_append
  have hblocks : ∀ other ∈ List.replicate 2 size ++ rest, other ∈ Run.blockSizes :=
    fun other hother => hsizes other (hperm.mem_iff.2 hother)
  rw [List.forall_mem_append] at hblocks
  have hdouble := double_mem_blockSizes (hblocks.1 size (by simp)) hne
  refine ⟨2 * size :: rest, List.forall_mem_cons.2 ⟨hdouble, hblocks.2⟩, ?_, ?_⟩
  · rw [hperm.sum_eq, List.sum_append, List.sum_replicate, List.sum_cons, smul_eq_mul]
  · rw [hperm.length_eq, List.length_append, List.length_replicate, List.length_cons]
    omega

/-- Any sequence of block sizes can be made into a split of the same length without growing. -/
theorem exists_split {sizes : List Nat} (hsizes : ∀ size ∈ sizes, size ∈ Run.blockSizes) :
    ∃ split, Split split ∧ split.sum = sizes.sum ∧ split.length ≤ sizes.length := by
  induction hlength : sizes.length using Nat.strongRecOn generalizing sizes with
  | ind length ih =>
      by_cases honce : ∀ size, size ≠ 128 → sizes.count size ≤ 1
      · obtain ⟨split, hsplit, hperm⟩ := exists_split_of_once hsizes honce
        exact ⟨split, hsplit, hperm.sum_eq, hlength ▸ hperm.length_eq.le⟩
      · push Not at honce
        obtain ⟨size, hne, htwice⟩ := honce
        obtain ⟨shorter, hblocks, hsum, hshorter⟩ :=
          exists_shorter_of_two_le_count hsizes hne htwice
        obtain ⟨split, hsplit, hsame, hle⟩ := ih _ (hlength ▸ hshorter) hblocks rfl
        exact ⟨split, hsplit, hsame.trans hsum, hle.trans (hlength ▸ hshorter.le)⟩

/-- Any other choice of blocks for the same length has at least as many. -/
theorem length_blocks_le {sizes : List Nat} (hsizes : ∀ size ∈ sizes, size ∈ Run.blockSizes) :
    (blocks sizes.sum).length ≤ sizes.length := by
  obtain ⟨split, hsplit, hsum, hle⟩ := exists_split hsizes
  rwa [hsplit.eq_blocks, hsum] at hle

/-- The powers of two that make up a number, the greatest first. -/
def powers (number : Nat) : List Nat := number.bitIndices.reverse.map (2 ^ ·)

theorem sum_powers (number : Nat) : (powers number).sum = number := by
  rw [powers, List.map_reverse, List.sum_reverse, Nat.sum_map_two_pow_bitIndices]

theorem length_powers (number : Nat) : (powers number).length = ones number := by
  rw [powers, List.length_map, List.length_reverse, ones]

theorem pairwise_powers (number : Nat) : (powers number).Pairwise (· > ·) := by
  rw [powers, List.pairwise_map, List.pairwise_reverse]
  exact Nat.bitIndices_sorted.pairwise.imp fun hlt => Nat.pow_lt_pow_right (by decide) hlt

theorem lt_of_mem_bitIndices {number places exponent : Nat} (hnumber : number < 2 ^ places)
    (hexponent : exponent ∈ number.bitIndices) : exponent < places :=
  (Nat.pow_lt_pow_iff_right (by decide)).1
    ((Nat.two_pow_le_of_mem_bitIndices hexponent).trans_lt hnumber)

theorem exists_of_mem_powers {number places size : Nat} (hnumber : number < 2 ^ places)
    (hsize : size ∈ powers number) : ∃ exponent < places, size = 2 ^ exponent := by
  obtain ⟨exponent, hexponent, rfl⟩ := List.mem_map.1 hsize
  exact ⟨exponent, lt_of_mem_bitIndices hnumber (List.mem_reverse.1 hexponent), rfl⟩

/-- Blocks of the greatest size and then the powers of a number below it are a split. -/
theorem split_powers (number : Nat) {rest : Nat} (hrest : rest < 2 ^ 7) :
    Split (List.replicate number 128 ++ powers rest) := by
  have hpowers := pairwise_powers rest
  refine ⟨fun size hsize => ?_, ?_, fun size hne => ?_⟩
  · rcases List.mem_append.1 hsize with hgreatest | hpower
    · exact ⟨7, le_refl 7, List.eq_of_mem_replicate hgreatest⟩
    · obtain ⟨exponent, hexponent, rfl⟩ := exists_of_mem_powers hrest hpower
      exact ⟨exponent, hexponent.le, rfl⟩
  · refine List.pairwise_append.2 ⟨List.pairwise_replicate_of_refl, hpowers.imp le_of_lt, ?_⟩
    intro greatest hgreatest size hsize
    obtain ⟨exponent, hexponent, rfl⟩ := exists_of_mem_powers hrest hsize
    rw [List.eq_of_mem_replicate hgreatest]
    exact Nat.pow_le_pow_right (by decide) hexponent.le
  · rw [List.count_append, List.count_replicate, if_neg (by simpa using hne.symm), Nat.zero_add]
    exact List.nodup_iff_count_le_one.1 (hpowers.imp ne_of_gt) size

/-- A stretch is cut into blocks of the greatest size and the powers of what remains. -/
theorem blocks_eq (length : Nat) :
    blocks length = List.replicate (length / 128) 128 ++ powers (length % 128) := by
  have hsplit := split_powers (length / 128) (Nat.mod_lt length (by decide : 0 < 2 ^ 7))
  have hsum : (List.replicate (length / 128) 128 ++ powers (length % 128)).sum = length := by
    rw [List.sum_append, List.sum_replicate, sum_powers, smul_eq_mul, Nat.div_add_mod']
  exact (hsplit.eq_blocks.trans (congrArg blocks hsum)).symm

/-- A stretch has a block of 128 as often as one fits, and one for each binary one of the rest. -/
theorem length_blocks (length : Nat) :
    (blocks length).length = length / 128 + ones (length % 128) := by
  rw [blocks_eq, List.length_append, List.length_replicate, length_powers]

/-- The ones of a number are those in its last places and those in front of them. -/
theorem ones_eq (number places : Nat) :
    ones number = ones (number % 2 ^ places) + ones (number / 2 ^ places) := by
  let low := (number % 2 ^ places).bitIndices
  let high := (2 ^ places * (number / 2 ^ places)).bitIndices
  have hlow : ∀ exponent ∈ low, exponent < places :=
    fun _ => lt_of_mem_bitIndices (Nat.mod_lt number (Nat.two_pow_pos places))
  have hhigh : ∀ exponent ∈ high, places ≤ exponent := by
    simp only [high, Nat.bitIndices_two_pow_mul, List.mem_map]
    rintro _ ⟨exponent, -, rfl⟩
    exact Nat.le_add_left places exponent
  have hsorted : (low ++ high).SortedLT := by
    refine (List.pairwise_append.2 ⟨Nat.bitIndices_sorted.pairwise,
      Nat.bitIndices_sorted.pairwise, ?_⟩).sortedLT
    exact fun left hleft right hright => (hlow left hleft).trans_le (hhigh right hright)
  have hsum : ((low ++ high).map (2 ^ ·)).sum = number := by
    rw [List.map_append, List.sum_append, Nat.sum_map_two_pow_bitIndices,
      Nat.sum_map_two_pow_bitIndices, Nat.mod_add_div]
  have hindices := Nat.bitIndices_sum_map_two_pow hsorted
  rw [hsum] at hindices
  rw [ones, hindices, List.length_append, ones, ones]
  simp [low, high]

theorem ones_le (number : Nat) : ones number ≤ number := by
  have hpositive : ∀ size ∈ powers number, 1 ≤ size := by
    intro size hsize
    obtain ⟨exponent, -, rfl⟩ := List.mem_map.1 hsize
    exact Nat.one_le_two_pow
  have hle := List.length_le_sum_of_one_le _ hpositive
  rwa [length_powers, sum_powers] at hle

/-- Only zero and one are made up of as many powers of two as of ones. -/
theorem ones_eq_self_iff {number : Nat} : ones number = number ↔ number ≤ 1 := by
  constructor
  · intro hones
    have hhalves := ones_eq number 1
    have hlast := ones_le (number % 2 ^ 1)
    have hfront := ones_le (number / 2 ^ 1)
    omega
  · intro hle
    obtain rfl | rfl := Nat.le_one_iff_eq_zero_or_eq_one.1 hle <;> simp [ones]

/-- Equal entries alone never alternate, however many they are. -/
theorem not_leads_replicate {α : Type} {entry : α} {length : Nat} (shape : Shape α) :
    ¬shape.Leads (List.replicate length entry) := by
  intro hleads
  generalize hentries : List.replicate length entry = entries at hleads
  have hall : ∀ other ∈ entries, other = entry :=
    fun other hother => List.eq_of_mem_replicate (hentries ▸ hother)
  cases hleads with
  | alternating hne => exact hne ((hall _ (by simp)).trans (hall _ (by simp)).symm)
  | pairwise hne => exact hne ((hall _ (by simp)).trans (hall _ (by simp)).symm)

/-- Equal entries make a single stretch, since no two of them are in turn. -/
theorem compress_replicate {α : Type} [DecidableEq α] (entry : α) (length : Nat) :
    compress (List.replicate length entry) = repeatedRuns entry 0 (blocks length) := by
  cases length with
  | zero => rw [compress, List.replicate_zero, compressFrom, blocks, if_pos rfl, repeatedRuns]
  | succ length =>
      have hleads (shape : Shape α) :
          ¬shape.Leads (List.replicate (length + 1) entry ++ []) := by
        rw [List.append_nil]
        exact not_leads_replicate shape
      have hstretch := compressFrom_of_stretch hleads (by simp) 0
      rwa [List.append_nil, compressFrom, List.append_nil] at hstretch

theorem length_repeatedRuns {α : Type} (entry : α) (start : Nat) (sizes : List Nat) :
    (repeatedRuns entry start sizes).length = sizes.length := by
  rw [← List.length_map Run.count, map_count_repeatedRuns]

end Compression

open Compression

/-- A stretch is cut into as few runs as the sizes of blocks allow.  Its runs follow one another
from its start and fill it, and no sequence of block sizes that fills it is shorter.  They are as
many as 128 fits into its length, and one more for each binary one of what remains.  Equal entries
are compressed into just as many runs, which are no more than the length has ones in binary as
long as there are at most 255 of them. -/
theorem fewest_runs_of_stretch {α : Type} [DecidableEq α] (entry : α) (start length : Nat) :
    let runs := repeatedRuns entry start (blocks length)
    let compressed := compress (List.replicate length entry)
    Run.Tiles start runs (start + length) ∧
      (runs.map Run.count).sum = length ∧
      IsLeast {number | ∃ sizes : List Nat,
        (∀ size ∈ sizes, size ∈ [128, 64, 32, 16, 8, 4, 2, 1]) ∧ sizes.sum = length ∧
          sizes.length = number} runs.length ∧
      runs.length = length / 128 + ones (length % 128) ∧
      compressed.length = length / 128 + ones (length % 128) ∧
      (compressed.length = ones length ↔ length ≤ 255) := by
  intro runs compressed
  have hsizes : ∀ size ∈ blocks length, size ∈ Run.blockSizes :=
    fun _ => mem_blockSizes_of_mem_blocks
  have hruns : runs.length = (blocks length).length := length_repeatedRuns entry start _
  have hcompressed : compressed.length = (blocks length).length := by
    rw [← length_repeatedRuns entry 0, ← compress_replicate]
  refine ⟨?_, ?_, ⟨⟨blocks length, hsizes, sum_blocks length, hruns.symm⟩, ?_⟩,
    hruns.trans (length_blocks length), hcompressed.trans (length_blocks length), ?_⟩
  · have htiles := tiles_repeatedRuns entry start fun size hsize =>
      pos_of_mem_blockSizes (hsizes size hsize)
    rwa [sum_blocks] at htiles
  · rw [map_count_repeatedRuns, sum_blocks]
  · rintro number ⟨sizes, hblocks, rfl, rfl⟩
    rw [hruns]
    exact length_blocks_le hblocks
  · -- the ones of the quotient are fewer than the blocks of 128 from two blocks on
    have hquotient : ones (length / 128) = length / 128 ↔ length / 128 ≤ 1 := ones_eq_self_iff
    have hones : ones length = ones (length % 128) + ones (length / 128) := ones_eq length 7
    rw [hcompressed, length_blocks]
    omega

end OpcodeTable
