import OpcodeTable.Proofs.CanonicalRuns

/-!
# Renaming

Compression looks at names only to compare them.  Renaming the entries of a list in a way that
keeps different ones apart therefore renames them inside its runs, and changes nothing else.  Two
lists that have equal entries at the same slots are renamings of each other, so that their runs have
the same starts, lengths and kinds of shape.
-/

namespace OpcodeTable

namespace Run

/-- A run without its names: its start, its length and the kind of its shape. -/
def outline {α : Type} (run : Run α) : Run Unit := run.map fun _ => ()

theorem map_map {α β γ : Type} (rename : α → β) (again : β → γ) (run : Run α) :
    (run.map rename).map again = run.map (again ∘ rename) := by
  obtain ⟨start, count, shape⟩ := run
  cases shape <;> rfl

theorem outline_map {α β : Type} (rename : α → β) (run : Run α) :
    (run.map rename).outline = run.outline := by
  rw [outline, map_map]
  rfl

end Run

namespace Compression

variable {α β : Type} [DecidableEq α] [DecidableEq β] {rename : α → β}

/-- Of four entries the same ones are equal under their new names. -/
theorem fourWide?_map {entries : List α} (hrename : Set.InjOn rename {entry | entry ∈ entries}) :
    fourWide? (entries.map rename) = (fourWide? entries).map (Shape.map rename) := by
  match entries with
  | [] => rfl
  | [_] => rfl
  | [_, _] => rfl
  | [_, _, _] => rfl
  | a :: b :: c :: d :: rest =>
      have hab : rename a = rename b ↔ a = b := hrename.eq_iff (by simp) (by simp)
      have hac : rename a = rename c ↔ a = c := hrename.eq_iff (by simp) (by simp)
      have hca : rename c = rename a ↔ c = a := hrename.eq_iff (by simp) (by simp)
      have hba : rename b = rename a ↔ b = a := hrename.eq_iff (by simp) (by simp)
      have hdb : rename d = rename b ↔ d = b := hrename.eq_iff (by simp) (by simp)
      have hdc : rename d = rename c ↔ d = c := hrename.eq_iff (by simp) (by simp)
      simp only [List.map_cons, fourWide?, ne_eq, hab, hac, hca, hba, hdb, hdc]
      split
      · rfl
      · split <;> rfl

omit [DecidableEq α] [DecidableEq β] in
/-- A stretch does not become longer. -/
theorem head?_map_ne {entry : α} {rest : List α}
    (hrename : Set.InjOn rename {other | other ∈ entry :: rest}) (hrest : rest.head? ≠ some entry) :
    (rest.map rename).head? ≠ some (rename entry) := by
  intro hsome
  rw [List.head?_map, Option.map_eq_some_iff] at hsome
  obtain ⟨other, hother, heq⟩ := hsome
  have hmem : other ∈ entry :: rest := List.mem_cons_of_mem entry (List.mem_of_mem_head? hother)
  rw [hrename hmem List.mem_cons_self heq] at hother
  exact hrest hother

omit [DecidableEq α] [DecidableEq β] in
theorem map_repeatedRuns (rename : α → β) (entry : α) (start : Nat) (sizes : List Nat) :
    (repeatedRuns entry start sizes).map (Run.map rename) =
      repeatedRuns (rename entry) start sizes := by
  induction sizes generalizing start with
  | nil => rfl
  | cons size sizes ih =>
      rw [repeatedRuns, List.map_cons, ih]
      rfl

/-- Both scans take the same step at every slot. -/
theorem compressFrom_map {entries : List α} (hrename : Set.InjOn rename {entry | entry ∈ entries})
    (start : Nat) :
    compressFrom start (entries.map rename) =
      (compressFrom start entries).map (Run.map rename) := by
  fun_induction compressFrom start entries with
  | case1 start => rw [List.map_nil, compressFrom, List.map_nil]
  | case2 start entry tail shape hshape ih =>
      have hrest : Set.InjOn rename {other | other ∈ tail.drop 3} :=
        hrename.mono fun _ hother => List.mem_cons_of_mem entry (List.mem_of_mem_drop hother)
      have hleads : (shape.map rename).Leads ((entry :: tail).map rename) := by
        rw [← fourWide?_eq_some_iff, fourWide?_map hrename, hshape, Option.map_some]
      rw [compressFrom_of_leads hleads, List.map_cons, List.map_cons, List.drop_succ_cons,
        ← List.map_drop, ih hrest]
      rfl
  | case3 start entry tail hnone length ih =>
      have hsubset : ∀ other ∈ tail.dropWhile (· = entry), other ∈ entry :: tail :=
        fun _ hother => List.mem_cons_of_mem entry ((List.dropWhile_sublist _).subset hother)
      have hhead : ((tail.dropWhile (· = entry)).map rename).head? ≠ some (rename entry) :=
        head?_map_ne
          (hrename.mono (List.forall_mem_cons.2 ⟨List.mem_cons_self, hsubset⟩))
          (head?_dropWhile_ne entry tail)
      have hstretch : (entry :: tail).map rename =
          List.replicate length (rename entry) ++ (tail.dropWhile (· = entry)).map rename := by
        rw [← replicate_append_dropWhile entry tail, List.map_append, List.map_replicate]
      have hleads : ∀ shape : Shape β, ¬shape.Leads (List.replicate length (rename entry) ++
          (tail.dropWhile (· = entry)).map rename) := by
        rw [← fourWide?_eq_none_iff, ← hstretch, fourWide?_map hrename, hnone, Option.map_none]
      rw [hstretch, compressFrom_of_stretch hleads hhead, ih (hrename.mono hsubset),
        List.map_append, map_repeatedRuns]

end Compression

/-- Names that stay different may be changed before or after compression. -/
theorem compress_map {α β : Type} [DecidableEq α] [DecidableEq β] {rename : α → β}
    {entries : List α} (hrename : Set.InjOn rename {entry | entry ∈ entries}) :
    compress (entries.map rename) = (compress entries).map (Run.map rename) :=
  Compression.compressFrom_map hrename 0

/-- Lookups agree with one another behind the end of a list, so that a list with the same
equalities ends there at the latest. -/
theorem length_le_of_equalities {α β : Type} {entries : List α} {others : List β}
    (hsame : ∀ slot other : Nat, entries[slot]? = entries[other]? → others[slot]? = others[other]?) :
    others.length ≤ entries.length := by
  by_contra hlt
  have hnone := hsame entries.length others.length (by
    rw [List.getElem?_eq_none (Nat.le_refl _), List.getElem?_eq_none (by omega)])
  rw [List.getElem?_eq_none (Nat.le_refl others.length), List.getElem?_eq_none_iff] at hnone
  exact hlt hnone

/-- A list that has equal entries at the same slots as another is a renaming of it. -/
theorem exists_rename {α β : Type} [DecidableEq α] [Inhabited β] {entries : List α}
    {others : List β}
    (hsame : ∀ slot other : Nat, entries[slot]? = entries[other]? ↔ others[slot]? = others[other]?) :
    ∃ rename : α → β,
      Set.InjOn rename {entry | entry ∈ entries} ∧ entries.map rename = others := by
  -- the first slot of an entry tells its new name
  let rename : α → β := fun entry => others[entries.idxOf entry]?.getD default
  have hlength : others.length = entries.length :=
    Nat.le_antisymm (length_le_of_equalities fun slot other => (hsame slot other).1)
      (length_le_of_equalities fun slot other => (hsame slot other).2)
  have hnew (slot : Nat) (hslot : slot < entries.length) :
      others[slot]? = some (rename entries[slot]) := by
    have hfirst : entries.idxOf entries[slot] < entries.length :=
      List.idxOf_lt_length_of_mem (List.getElem_mem hslot)
    have hentry : entries[entries.idxOf entries[slot]]? = entries[slot]? := by
      rw [List.getElem?_eq_getElem hfirst, List.getElem_idxOf, List.getElem?_eq_getElem hslot]
    have hother : others[slot]? = some others[slot] := List.getElem?_eq_getElem (by omega)
    simp only [rename]
    rw [(hsame _ slot).1 hentry, hother, Option.getD_some]
  refine ⟨rename, ?_, ?_⟩
  · intro left hleft right hright heq
    obtain ⟨slot, hslot, rfl⟩ := List.mem_iff_getElem.1 hleft
    obtain ⟨other, hother, rfl⟩ := List.mem_iff_getElem.1 hright
    have hothers : others[slot]? = others[other]? := by
      rw [hnew slot hslot, hnew other hother, heq]
    have hentries := (hsame slot other).2 hothers
    rw [List.getElem?_eq_getElem hslot, List.getElem?_eq_getElem hother] at hentries
    exact Option.some.inj hentries
  · refine List.ext_getElem? fun slot => ?_
    rw [List.getElem?_map]
    by_cases hslot : slot < entries.length
    · rw [hnew slot hslot, List.getElem?_eq_getElem hslot, Option.map_some]
    · rw [List.getElem?_eq_none (by omega), List.getElem?_eq_none (by omega), Option.map_none]

/-- The runs of a list depend on which of its names are equal, and not on what they are.  If a
renaming keeps the names of the list apart, the runs of the renamed list are those of the list with
their names renamed, as many as before, and each with its start, its length and its kind of shape.
These are also the same for any list that has equal names at the same slots. -/
theorem runs_depend_on_equalities (names : List String) :
    (∀ rename : String → String, Set.InjOn rename {name | name ∈ names} →
      compress (names.map rename) = (compress names).map (Run.map rename) ∧
        (compress (names.map rename)).map Run.outline = (compress names).map Run.outline ∧
        (compress (names.map rename)).length = (compress names).length) ∧
      ∀ others : List String,
        (∀ slot other : Nat, names[slot]? = names[other]? ↔ others[slot]? = others[other]?) →
          (compress others).map Run.outline = (compress names).map Run.outline := by
  have houtline {rename : String → String} (hrename : Set.InjOn rename {name | name ∈ names}) :
      (compress (names.map rename)).map Run.outline = (compress names).map Run.outline := by
    rw [compress_map hrename, List.map_map]
    exact List.map_congr_left fun run _ => run.outline_map rename
  refine ⟨fun rename hrename => ⟨compress_map hrename, houtline hrename, ?_⟩, ?_⟩
  · rw [compress_map hrename, List.length_map]
  · intro others hsame
    obtain ⟨rename, hrename, rfl⟩ := exists_rename hsame
    exact houtline hrename

/-- The renaming keeps apart the two names of the list, but not all names. -/
theorem runs_depend_on_equalities_letters :
    let rename := fun name : String => if name = "a" then "b" else "c"
    let names := ["a", "b", "a", "b", "b", "b"]
    let others := ["mul", "mla", "mul", "mla", "mla", "mla"]
    Set.InjOn rename {name | name ∈ names} ∧
      (∀ slot other : Nat, names[slot]? = names[other]? ↔ others[slot]? = others[other]?) ∧
      compress (names.map rename) = (compress names).map (Run.map rename) ∧
      (compress others).map Run.outline = (compress names).map Run.outline := by
  intro rename names others
  have hrename : Set.InjOn rename {name | name ∈ names} := by
    show ∀ left ∈ names, ∀ right ∈ names, rename left = rename right → left = right
    decide
  have hsame : ∀ slot other : Nat,
      names[slot]? = names[other]? ↔ others[slot]? = others[other]? := by
    rintro (_ | _ | _ | _ | _ | _ | slot) (_ | _ | _ | _ | _ | _ | other) <;>
      simp [names, others]
  obtain ⟨hrenamed, houtline⟩ := runs_depend_on_equalities names
  exact ⟨hrename, hsame, (hrenamed rename hrename).1, houtline others hsame⟩

end OpcodeTable
