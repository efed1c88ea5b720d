import OpcodeTable.Proofs.Tiling
import OpcodeTable.Run

/-!
# Lossless compression

Compressing a list loses nothing: the runs tile the slots of the list, and each of them
stands for the entries of its slots.  Every run is also one that a repetition exists for, so
none is ever written entry by entry.
-/

namespace OpcodeTable

/-- The lengths and shapes for which repetitions exist. -/
def Run.Covered {α : Type} (run : Run α) : Prop :=
  match run.shape with
  | .repeated _ => run.count ∈ [128, 64, 32, 16, 8, 4, 2, 1]
  | .alternating first second => run.count = 4 ∧ first ≠ second
  | .pairwise first second => run.count = 4 ∧ first ≠ second

/-- A run that a repetition exists for is written in one piece. -/
theorem Run.length_pieces_of_covered {run : Run String} (hcovered : run.Covered) :
    run.pieces.length = 1 := by
  obtain ⟨start, count, shape⟩ := run
  cases shape with
  | repeated entry =>
      have hblock : count ∈ blockSizes := hcovered
      simp only [pieces, if_pos hblock]
      split <;> rfl
  | alternating first second =>
      obtain ⟨hcount, -⟩ : count = 4 ∧ first ≠ second := hcovered
      simp [pieces, hcount]
  | pairwise first second =>
      obtain ⟨hcount, -⟩ : count = 4 ∧ first ≠ second := hcovered
      simp [pieces, hcount]

theorem Run.length_listing_pos {names : List String} (hnames : names ≠ []) :
    0 < (listing names).length := by
  cases names with
  | nil => exact absurd rfl hnames
  | cons name tail => cases tail <;> simp [listing]

namespace Compression

variable {α : Type} [DecidableEq α]

/-- Four entries make one run only if they are two different entries in turn. -/
theorem eq_of_fourWide?_eq_some {entries : List α} {shape : Shape α}
    (hshape : fourWide? entries = some shape) :
    ∃ first second rest, first ≠ second ∧
      (shape = .alternating first second ∧
          entries = first :: second :: first :: second :: rest ∨
        shape = .pairwise first second ∧
          entries = first :: first :: second :: second :: rest) := by
  unfold fourWide? at hshape
  split at hshape
  next a b c d rest =>
    split at hshape
    next halternate =>
      obtain ⟨hne, rfl, rfl⟩ := halternate
      cases hshape
      exact ⟨c, d, rest, hne, .inl ⟨rfl, rfl⟩⟩
    split at hshape
    next hpairwise =>
      obtain ⟨hne, rfl, rfl⟩ := hpairwise
      cases hshape
      exact ⟨b, d, rest, hne, .inr ⟨rfl, rfl⟩⟩
    next => simp at hshape
  next => simp at hshape

/-- A run of four takes the next four entries for what they are. -/
theorem entries_append_drop_of_fourWide? {entries : List α} {shape : Shape α}
    (hshape : fourWide? entries = some shape) (start : Nat) :
    (Run.mk start 4 shape).entries ++ entries.drop 4 = entries := by
  obtain ⟨first, second, rest, -, ⟨rfl, rfl⟩ | ⟨rfl, rfl⟩⟩ :=
    eq_of_fourWide?_eq_some hshape <;> rfl

theorem covered_of_fourWide? {entries : List α} {shape : Shape α}
    (hshape : fourWide? entries = some shape) (start : Nat) :
    (Run.mk start 4 shape).Covered := by
  obtain ⟨first, second, rest, hne, ⟨rfl, -⟩ | ⟨rfl, -⟩⟩ :=
    eq_of_fourWide?_eq_some hshape <;> exact ⟨rfl, hne⟩

theorem largestBlock_mem (length : Nat) : largestBlock length ∈ Run.blockSizes := by
  unfold largestBlock
  cases hfind : Run.blockSizes.find? (· ≤ length) with
  | none => decide
  | some size => exact List.mem_of_find?_eq_some hfind

/-- A stretch is not overrun, as the least block fits into every one of them. -/
theorem largestBlock_le {length : Nat} (hpos : 0 < length) : largestBlock length ≤ length := by
  unfold largestBlock
  cases hfind : Run.blockSizes.find? (· ≤ length) with
  | none => exact hpos
  | some size => simpa using List.find?_some hfind

theorem mem_blockSizes_of_mem_blocks {length size : Nat} (hsize : size ∈ blocks length) :
    size ∈ Run.blockSizes := by
  fun_induction blocks length with
  | case1 => simp at hsize
  | case2 length hlength ih =>
      rcases List.mem_cons.1 hsize with rfl | hrest
      · exact largestBlock_mem length
      · exact ih hrest

/-- The blocks of a stretch make up its length. -/
theorem sum_blocks (length : Nat) : (blocks length).sum = length := by
  fun_induction blocks length with
  | case1 => rfl
  | case2 length hlength ih =>
      have := largestBlock_le (Nat.pos_of_ne_zero hlength)
      rw [List.sum_cons, ih]
      omega

theorem pos_of_mem_blockSizes {size : Nat} (hsize : size ∈ Run.blockSizes) : 0 < size := by
  simp only [Run.blockSizes, List.mem_cons, List.not_mem_nil, or_false] at hsize
  omega

omit [DecidableEq α] in
theorem tiles_repeatedRuns (entry : α) (start : Nat) {sizes : List Nat}
    (hsizes : ∀ size ∈ sizes, 0 < size) :
    Run.Tiles start (repeatedRuns entry start sizes) (start + sizes.sum) := by
  induction sizes generalizing start with
  | nil => exact .nil start
  | cons size sizes ih =>
      obtain ⟨hpos, htail⟩ := List.forall_mem_cons.1 hsizes
      rw [List.sum_cons, ← Nat.add_assoc]
      exact .cons rfl hpos (ih (start + size) htail)

omit [DecidableEq α] in
theorem expand_repeatedRuns (entry : α) (start : Nat) (sizes : List Nat) :
    expand (repeatedRuns entry start sizes) = List.replicate sizes.sum entry := by
  induction sizes generalizing start with
  | nil => rfl
  | cons size sizes ih =>
      have htail := ih (start + size)
      simp only [expand] at htail ⊢
      rw [repeatedRuns, List.flatMap_cons, Run.entries_repeated, htail, List.sum_cons,
        List.replicate_append_replicate]

omit [DecidableEq α] in
theorem covered_of_mem_repeatedRuns {entry : α} {start : Nat} {sizes : List Nat}
    (hsizes : ∀ size ∈ sizes, size ∈ Run.blockSizes) {run : Run α}
    (hrun : run ∈ repeatedRuns entry start sizes) : run.Covered := by
  induction sizes generalizing start with
  | nil => simp [repeatedRuns] at hrun
  | cons size sizes ih =>
      obtain ⟨hsize, htail⟩ := List.forall_mem_cons.1 hsizes
      rcases List.mem_cons.1 hrun with rfl | hlater
      · exact hsize
      · exact ih htail hlater

/-- The stretch of equal entries that a list starts with, and what follows it. -/
theorem replicate_append_dropWhile (entry : α) (tail : List α) :
    List.replicate ((tail.takeWhile (· = entry)).length + 1) entry ++
        tail.dropWhile (· = entry) = entry :: tail := by
  have hstretch : tail.takeWhile (· = entry) =
      List.replicate (tail.takeWhile (· = entry)).length entry := by
    refine List.eq_replicate_of_mem fun other hother => ?_
    simpa using List.all_eq_true.1 List.all_takeWhile other hother
  rw [List.replicate_succ, List.cons_append, ← hstretch, List.takeWhile_append_dropWhile]

/-- The stretch is the longest one: what follows it starts otherwise. -/
theorem head?_dropWhile_ne (entry : α) (tail : List α) :
    (tail.dropWhile (· = entry)).head? ≠ some entry := by
  intro hsome
  have hnot := List.head?_dropWhile_not (· = entry) tail
  rw [hsome] at hnot
  simp at hnot

/-- Nothing is lost: the runs stand for the entries that they were made of, wherever the first of
them starts. -/
theorem expand_compressFrom (start : Nat) (entries : List α) :
    expand (compressFrom start entries) = entries := by
  fun_induction compressFrom start entries with
  | case1 => rfl
  | case2 start entry tail shape hshape ih =>
      have hfour := entries_append_drop_of_fourWide? hshape start
      simp only [expand, List.flatMap_cons] at ih ⊢
      rw [ih]
      exact hfour
  | case3 start entry tail hnone length ih =>
      have hstretch := expand_repeatedRuns entry start (blocks length)
      simp only [expand, List.flatMap_append] at ih hstretch ⊢
      rw [ih, hstretch, sum_blocks]
      exact replicate_append_dropWhile entry tail

/-- The runs follow one another without a gap up to the end of the list. -/
theorem tiles_compressFrom (start : Nat) (entries : List α) :
    Run.Tiles start (compressFrom start entries) (start + entries.length) := by
  fun_induction compressFrom start entries with
  | case1 start => exact .nil start
  | case2 start entry tail shape hshape ih =>
      have hlength := congrArg List.length (entries_append_drop_of_fourWide? hshape start)
      simp only [List.length_append, Run.length_entries, List.drop_succ_cons] at hlength
      refine .cons rfl (Nat.zero_lt_succ 3) ?_
      rwa [Nat.add_assoc, hlength] at ih
  | case3 start entry tail hnone length ih =>
      have hsizes : ∀ size ∈ blocks length, 0 < size := by
        intro size hsize
        exact pos_of_mem_blockSizes (mem_blockSizes_of_mem_blocks hsize)
      have hblocks := tiles_repeatedRuns entry start hsizes
      rw [sum_blocks] at hblocks
      have hlength := congrArg List.length (replicate_append_dropWhile entry tail)
      rw [List.length_append, List.length_replicate] at hlength
      rw [Nat.add_assoc, hlength] at ih
      exact hblocks.append ih

/-- No run is made that there is no repetition for. -/
theorem covered_of_mem_compressFrom {start : Nat} {entries : List α} {run : Run α}
    (hrun : run ∈ compressFrom start entries) : run.Covered := by
  fun_induction compressFrom start entries with
  | case1 => simp at hrun
  | case2 start entry tail shape hshape ih =>
      rcases List.mem_cons.1 hrun with rfl | hlater
      · exact covered_of_fourWide? hshape start
      · exact ih hlater
  | case3 start entry tail hnone length ih =>
      rcases List.mem_append.1 hrun with hblock | hlater
      · exact covered_of_mem_repeatedRuns
          (fun size hsize => mem_blockSizes_of_mem_blocks hsize) hblock
      · exact ih hlater

end Compression

theorem expand_compress {α : Type} [DecidableEq α] (entries : List α) :
    expand (compress entries) = entries :=
  Compression.expand_compressFrom 0 entries

theorem tiles_compress {α : Type} [DecidableEq α] (entries : List α) :
    Run.Tiles 0 (compress entries) entries.length := by
  have htiles := Compression.tiles_compressFrom 0 entries
  rwa [Nat.zero_add] at htiles

theorem covered_of_mem_compress {α : Type} [DecidableEq α] {entries : List α} {run : Run α}
    (hrun : run ∈ compress entries) : run.Covered :=
  Compression.covered_of_mem_compressFrom hrun

/-- The runs of a list of names tile its slots.  Each slot belongs to exactly one run, which
has the name of the slot at the slot's offset, so that expanding the runs gives the list
back.  Each run is covered by a repetition and never listed entry by entry. -/
theorem compress_lossless (names : List String) :
    Run.Tiles 0 (compress names) names.length ∧
      (∀ slot < names.length, ∃! index : Nat, ∃ run : Run String,
        (compress names)[index]? = some run ∧ run.Holds slot) ∧
      (∀ run ∈ compress names, ∀ slot, run.Holds slot →
        ∃ hslot : slot < names.length,
          run.entries[slot - run.start]? = some names[slot]) ∧
      expand (compress names) = names ∧
      ∀ run ∈ compress names,
        run.Covered ∧ run.pieces ≠ Run.listing run.entries ++ [","] := by
  have htiles := tiles_compress names
  refine ⟨htiles, fun slot hslot => htiles.existsUnique_holds (Nat.zero_le slot) hslot,
    fun run hrun slot hholds => ?_, expand_compress names, fun run hrun => ?_⟩
  · have hslot := htiles.lt_stop_of_holds hrun hholds
    refine ⟨hslot, ?_⟩
    rw [htiles.getElem?_expand hrun hholds, expand_compress, Nat.sub_zero,
      List.getElem?_eq_getElem hslot]
  · have hcovered := covered_of_mem_compress hrun
    refine ⟨hcovered, fun hlisting => ?_⟩
    have hentries : run.entries ≠ [] := by
      have hpos := htiles.count_pos run hrun
      rw [← run.length_entries] at hpos
      exact List.ne_nil_of_length_pos hpos
    have hlength := congrArg List.length hlisting
    have := Run.length_listing_pos hentries
    rw [Run.length_pieces_of_covered hcovered, List.length_append,
      List.length_singleton] at hlength
    omega

end OpcodeTable
