import OpcodeTable.Proofs.Blocks

/-!
# Canonical runs

The runs of a list are determined by what may follow at each slot: a run of four where the list
has two different entries in turn, singly or in pairs, and otherwise the blocks of the longest
stretch of one entry.  Compression gives the runs of this form, and there are no others.
-/

namespace OpcodeTable

/-- A list starts with the four entries that a run of four with this shape stands for, and these
are not all the same. -/
inductive Shape.Leads {α : Type} : Shape α → List α → Prop
  | alternating {first second : α} {rest : List α} (hne : first ≠ second) :
      Leads (.alternating first second) (first :: second :: first :: second :: rest)
  | pairwise {first second : α} {rest : List α} (hne : first ≠ second) :
      Leads (.pairwise first second) (first :: first :: second :: second :: rest)

/-- The runs that make one group from a slot of a list on: one run of four where two entries
alternate, singly or in pairs, and otherwise runs of one entry whose sizes split the longest
stretch of it. -/
inductive Run.Group {α : Type} (entries : List α) (slot : Nat) : List (Run α) → Prop
  | four {shape : Shape α} (hleads : shape.Leads (entries.drop slot)) :
      Group entries slot [⟨slot, 4, shape⟩]
  | stretch {entry : α} {runs : List (Run α)} {rest : List α}
      (hleads : ∀ shape : Shape α, ¬shape.Leads (entries.drop slot))
      (hshape : ∀ run ∈ runs, run.shape = .repeated entry)
      (hsplit : Compression.Split (runs.map Run.count))
      (hstretch : entries.drop slot =
        List.replicate (runs.map Run.count).sum entry ++ rest)
      (hrest : rest.head? ≠ some entry) : Group entries slot runs

/-- Whether runs are the right group for the slot where the first of them starts. -/
def Run.IsGroup {α : Type} (entries : List α) (group : List (Run α)) : Prop :=
  ∃ head tail, group = head :: tail ∧ Group entries head.start group

/-- Runs that cover a list in order and fall into groups. -/
structure Run.Canonical {α : Type} (entries : List α) (runs : List (Run α)) : Prop where
  tiles : Tiles 0 runs entries.length
  grouped : ∃ groups : List (List (Run α)), groups.flatten = runs ∧
    ∀ group ∈ groups, IsGroup entries group

namespace Compression

variable {α : Type} [DecidableEq α]

theorem fourWide?_eq_some_iff {entries : List α} {shape : Shape α} :
    fourWide? entries = some shape ↔ shape.Leads entries := by
  constructor
  · intro hshape
    obtain ⟨first, second, rest, hne, ⟨rfl, rfl⟩ | ⟨rfl, rfl⟩⟩ := eq_of_fourWide?_eq_some hshape
    · exact .alternating hne
    · exact .pairwise hne
  · rintro (hne | hne)
    · simp [fourWide?, hne]
    · simp [fourWide?, hne]

theorem fourWide?_eq_none_iff {entries : List α} :
    fourWide? entries = none ↔ ∀ shape : Shape α, ¬shape.Leads entries := by
  simp only [Option.eq_none_iff_forall_ne_some, ne_eq, fourWide?_eq_some_iff]

/-- Two entries in turn are taken four at a time, before any stretch is looked for. -/
theorem compressFrom_of_leads {entries : List α} {shape : Shape α} (hleads : shape.Leads entries)
    (start : Nat) :
    compressFrom start entries = ⟨start, 4, shape⟩ :: compressFrom (start + 4) (entries.drop 4) := by
  have hfour := fourWide?_eq_some_iff.2 hleads
  cases hleads with
  | alternating hne => rw [compressFrom, hfour]; rfl
  | pairwise hne => rw [compressFrom, hfour]; rfl

/-- A stretch is taken as a whole, up to an entry that differs. -/
theorem compressFrom_of_stretch {entry : α} {length : Nat} {rest : List α}
    (hleads : ∀ shape : Shape α, ¬shape.Leads (List.replicate (length + 1) entry ++ rest))
    (hrest : rest.head? ≠ some entry) (start : Nat) :
    compressFrom start (List.replicate (length + 1) entry ++ rest) =
      repeatedRuns entry start (blocks (length + 1)) ++
        compressFrom (start + (length + 1)) rest := by
  have hall : ∀ other ∈ List.replicate length entry, decide (other = entry) = true := by
    intro other hother
    simpa using List.eq_of_mem_replicate hother
  have htake : rest.takeWhile (· = entry) = [] := by
    cases rest with
    | nil => rfl
    | cons other rest => exact List.takeWhile_cons_of_neg (by simpa using hrest)
  have hdrop : rest.dropWhile (· = entry) = rest := by
    cases rest with
    | nil => rfl
    | cons other rest => exact List.dropWhile_cons_of_neg (by simpa using hrest)
  have hnone := fourWide?_eq_none_iff.2 hleads
  rw [List.replicate_succ, List.cons_append] at hnone ⊢
  rw [compressFrom, hnone]
  simp only [List.takeWhile_append_of_pos hall, List.dropWhile_append_of_pos hall, htake, hdrop,
    List.append_nil, List.length_replicate]

omit [DecidableEq α] in
theorem map_count_repeatedRuns (entry : α) (start : Nat) (sizes : List Nat) :
    (repeatedRuns entry start sizes).map Run.count = sizes := by
  induction sizes generalizing start with
  | nil => rfl
  | cons size sizes ih => rw [repeatedRuns, List.map_cons, ih]

omit [DecidableEq α] in
theorem shape_of_mem_repeatedRuns {entry : α} {start : Nat} {sizes : List Nat} {run : Run α}
    (hrun : run ∈ repeatedRuns entry start sizes) : run.shape = .repeated entry := by
  induction sizes generalizing start with
  | nil => cases hrun
  | cons size sizes ih =>
      rcases List.mem_cons.1 hrun with rfl | hlater
      · rfl
      · exact ih hlater

omit [DecidableEq α] in
/-- Runs of one entry that follow one another are determined by their sizes. -/
theorem eq_repeatedRuns {entry : α} {runs : List (Run α)} {start stop : Nat}
    (htiles : Run.Tiles start runs stop) (hshape : ∀ run ∈ runs, run.shape = .repeated entry) :
    runs = repeatedRuns entry start (runs.map Run.count) ∧
      stop = start + (runs.map Run.count).sum := by
  induction htiles with
  | nil => exact ⟨rfl, rfl⟩
  | @cons start stop run runs hstart hpos htail ih =>
      obtain ⟨hhead, hlater⟩ := List.forall_mem_cons.1 hshape
      obtain ⟨hruns, hstop⟩ := ih hlater
      obtain ⟨first, count, shape⟩ := run
      cases hstart
      cases hhead
      constructor
      · rw [List.map_cons, repeatedRuns, ← hruns]
      · rw [hstop, List.map_cons, List.sum_cons, Nat.add_assoc]

/-- A group at a slot is what compression makes there before it goes on behind the group. -/
theorem compressFrom_of_group {entries : List α} {start stop : Nat} {group : List (Run α)}
    (hgroup : Run.Group entries start group) (htiles : Run.Tiles start group stop)
    (hne : group ≠ []) :
    compressFrom start (entries.drop start) = group ++ compressFrom stop (entries.drop stop) := by
  cases hgroup with
  | four hleads =>
      obtain rfl : stop = start + 4 := by
        cases htiles with
        | cons _ _ htail => cases htail; rfl
      rw [compressFrom_of_leads hleads, List.drop_drop]
      rfl
  | @stretch entry _ rest hleads hshape hsplit hstretch hrest =>
      obtain ⟨hruns, rfl⟩ := eq_repeatedRuns htiles hshape
      obtain ⟨length, hlength⟩ : ∃ length, (group.map Run.count).sum = length + 1 := by
        refine Nat.exists_eq_succ_of_ne_zero fun hzero => ?_
        have := htiles.lt_stop hne
        omega
      rw [hlength] at hstretch
      have hbehind : entries.drop (start + (group.map Run.count).sum) = rest := by
        rw [hlength, ← List.drop_drop, hstretch, List.drop_left']
        simp
      rw [hstretch] at hleads ⊢
      rw [compressFrom_of_stretch hleads hrest, ← hlength, ← hsplit.eq_blocks, ← hruns, hbehind]

/-- Groups that tile a list from a slot on are what compression makes of the rest of the list. -/
theorem flatten_eq_compressFrom {entries : List α} {groups : List (List (Run α))} {start : Nat}
    (htiles : Run.Tiles start groups.flatten entries.length)
    (hgroups : ∀ group ∈ groups, Run.IsGroup entries group) :
    groups.flatten = compressFrom start (entries.drop start) := by
  induction groups generalizing start with
  | nil =>
      cases htiles
      rw [List.drop_length, compressFrom, List.flatten_nil]
  | cons group groups ih =>
      obtain ⟨⟨head, tail, rfl, hgroup⟩, hlater⟩ := List.forall_mem_cons.1 hgroups
      rw [List.flatten_cons] at htiles ⊢
      obtain ⟨middle, hhead, hrest⟩ := htiles.of_append
      have hstart : head.start = start := by
        cases hhead
        assumption
      rw [hstart] at hgroup
      rw [compressFrom_of_group hgroup hhead (List.cons_ne_nil head tail), ← ih hrest hlater]

omit [DecidableEq α] in
/-- A stretch that no run of four starts is one group, which is split by its length alone. -/
theorem isGroup_stretch {entries : List α} {start length : Nat} {entry : α} {rest : List α}
    (hleads : ∀ shape : Shape α, ¬shape.Leads (entries.drop start))
    (hstretch : entries.drop start = List.replicate (length + 1) entry ++ rest)
    (hrest : rest.head? ≠ some entry) :
    Run.IsGroup entries (repeatedRuns entry start (blocks (length + 1))) := by
  have hblocks : blocks (length + 1) = largestBlock (length + 1) ::
      blocks (length + 1 - largestBlock (length + 1)) := by
    rw [blocks, if_neg (Nat.succ_ne_zero length)]
  have hcounts := map_count_repeatedRuns entry start (blocks (length + 1))
  refine ⟨⟨start, largestBlock (length + 1), .repeated entry⟩, repeatedRuns entry
    (start + largestBlock (length + 1)) (blocks (length + 1 - largestBlock (length + 1))),
    by rw [hblocks, repeatedRuns], ?_⟩
  refine .stretch hleads (fun run => shape_of_mem_repeatedRuns) ?_ ?_ hrest
  · rw [hcounts]
    exact split_blocks (length + 1)
  · rw [hcounts, sum_blocks, hstretch]

/-- The scan makes one group in each of its turns. -/
theorem exists_groups {entries rest : List α} {start : Nat} (hrest : entries.drop start = rest) :
    ∃ groups : List (List (Run α)), groups.flatten = compressFrom start rest ∧
      ∀ group ∈ groups, Run.IsGroup entries group := by
  fun_induction compressFrom start rest with
  | case1 start => exact ⟨[], rfl, by simp⟩
  | case2 start entry tail shape hshape ih =>
      have hbehind : entries.drop (start + 4) = tail.drop 3 := by
        rw [← List.drop_drop, hrest]
        rfl
      obtain ⟨groups, hflatten, hgroups⟩ := ih hbehind
      have hleads : shape.Leads (entries.drop start) := hrest ▸ fourWide?_eq_some_iff.1 hshape
      refine ⟨[⟨start, 4, shape⟩] :: groups, by rw [List.flatten_cons, hflatten]; rfl, ?_⟩
      exact List.forall_mem_cons.2 ⟨⟨_, [], rfl, .four hleads⟩, hgroups⟩
  | case3 start entry tail hnone length ih =>
      have hstretch : entries.drop start =
          List.replicate length entry ++ tail.dropWhile (· = entry) := by
        rw [hrest]
        exact (replicate_append_dropWhile entry tail).symm
      have hbehind : entries.drop (start + length) = tail.dropWhile (· = entry) := by
        rw [← List.drop_drop, hstretch, List.drop_left']
        simp
      obtain ⟨groups, hflatten, hgroups⟩ := ih hbehind
      have hhead := head?_dropWhile_ne entry tail
      have hleads : ∀ shape : Shape α, ¬shape.Leads (entries.drop start) :=
        hrest ▸ fourWide?_eq_none_iff.1 hnone
      refine ⟨_ :: groups, by rw [List.flatten_cons, hflatten], ?_⟩
      exact List.forall_mem_cons.2 ⟨isGroup_stretch hleads hstretch hhead, hgroups⟩

end Compression

/-- Compressing a list gives its runs in canonical form, and nothing else has this form. -/
theorem canonical_iff_eq_compress {α : Type} [DecidableEq α] (entries : List α) :
    (∀ runs : List (Run α), Run.Canonical entries runs ↔ runs = compress entries) ∧
      ∃! runs : List (Run α), Run.Canonical entries runs := by
  have hcompress : Run.Canonical entries (compress entries) :=
    ⟨tiles_compress entries, Compression.exists_groups List.drop_zero⟩
  have hunique (runs : List (Run α)) (hruns : Run.Canonical entries runs) :
      runs = compress entries := by
    obtain ⟨htiles, groups, rfl, hgroups⟩ := hruns
    exact Compression.flatten_eq_compressFrom htiles hgroups
  exact ⟨fun runs => ⟨hunique runs, fun heq => heq ▸ hcompress⟩,
    compress entries, hcompress, hunique⟩

end OpcodeTable
