import OpcodeTable.Initializer
import OpcodeTable.Proofs.Invocations
import OpcodeTable.Proofs.RunText
import OpcodeTable.Proofs.Tokens

/-!
# Repetitions

What the definitions of an initializer mean.  A block of up to eight entries is defined entry by
entry, and a larger one by two blocks of half its length, so that the invocation of a block
yields as many entries as its name says.  How an element itself is rendered does not matter to
that, as long as the definitions of blocks are not needed for it.
-/

namespace OpcodeTable.Expansion

open Token (word mark separated terminated)

def elementTokens (name : String) : List Token := call "ARM_FN" [[word name]]

/-- The member of a class that a handler is. -/
def member (owner name : String) : List Token :=
  [mark '&', word owner, mark ':', mark ':', word name]

def elementDefinition (owner : String) : Definition where
  name := "ARM_FN"
  parameters := ["func"]
  body := member owner "func"

def blockName (count : Nat) : String := "REPEAT_" ++ toString count

/-- A block that is defined entry by entry. -/
def flat (count : Nat) : Definition where
  name := blockName count
  parameters := ["handler"]
  body := separated (List.replicate count [word "handler"])

/-- A block that is defined by two blocks of half its length. -/
def doubled (count : Nat) : Definition where
  name := blockName (2 * count)
  parameters := ["handler"]
  body := separated (List.replicate 2 (call (blockName count) [[word "handler"]]))

def paired (name : String) (order : List String) : Definition where
  name := name
  parameters := ["a", "b"]
  body := separated (order.map fun entry => [word entry])

def alternation : Definition := paired "REPEAT_ALT" ["a", "b", "a", "b"]

def pairing : Definition := paired "REPEAT_2ALT" ["a", "a", "b", "b"]

/-- The definitions that initializers make. -/
def repetitions (owner : String) : List Definition :=
  [elementDefinition owner, flat 2, flat 4, flat 8, doubled 8, doubled 16, doubled 32, doubled 64,
   alternation, pairing]

/-- The definitions by which runs are written, for elements of any form. -/
def runDefinitions : List Definition :=
  [flat 2, flat 4, flat 8, doubled 8, doubled 16, doubled 32, doubled 64, alternation, pairing]

theorem repetitions_eq (owner : String) :
    repetitions owner = elementDefinition owner :: runDefinitions := rfl

theorem map_name_repetitions (owner : String) :
    (repetitions owner).map (·.name) = Initializer.definedNames := rfl

theorem nodup_names_repetitions (owner : String) :
    ((repetitions owner).map (·.name)).Nodup := by
  rw [map_name_repetitions]
  decide

theorem blockName_ne {name : String} (hname : name.toList.head? ≠ some 'R') (count : Nat) :
    blockName count ≠ name := by
  rintro rfl
  exact hname (by simp [blockName])

theorem enclosed_elementTokens (name : String) : Enclosed (elementTokens name) :=
  enclosed_call "ARM_FN" (Enclosed.word name)

/-! ### Bodies with arguments in them -/

theorem substitute_flat (count : Nat) (argument : List Token) :
    substitute (flat count) [argument] = separated (List.replicate count argument) := by
  rw [substitute, flat, Token.flatMap_separated rfl, List.map_replicate]
  congr 2
  exact List.append_nil argument

theorem substitute_doubled (count : Nat) (argument : List Token) :
    substitute (doubled count) [argument] =
      separated (List.replicate 2 (call (blockName count) [argument])) := by
  have hname : (blockName count == "handler") = false :=
    beq_eq_false_iff_ne.2 (blockName_ne (by decide) count)
  rw [substitute, doubled, Token.flatMap_separated rfl, List.map_replicate]
  simp [call, separated, List.lookup, hname]

theorem substitute_alternation (first second : List Token) :
    substitute alternation [first, second] = separated [first, second, first, second] := by
  rw [substitute, alternation, paired, Token.flatMap_separated rfl]
  simp [List.lookup]

theorem substitute_pairing (first second : List Token) :
    substitute pairing [first, second] = separated [first, first, second, second] := by
  rw [substitute, pairing, paired, Token.flatMap_separated rfl]
  simp [List.lookup]

theorem substitute_elementDefinition {owner : String} (howner : owner ≠ "func") (name : String) :
    substitute (elementDefinition owner) [[word name]] = member owner name := by
  have hlookup : (owner == "func") = false := beq_eq_false_iff_ne.2 howner
  simp [substitute, elementDefinition, member, List.lookup, hlookup]

/-! ### What repetitions yield -/

/-- The definitions that a block of a given length needs are there, also where those of larger
blocks are not to be invoked again. -/
inductive Repeats : List Definition → Nat → Prop
  | base {definitions : List Definition} {count : Nat} (hmem : flat count ∈ definitions)
      (hpos : 0 < count) : Repeats definitions count
  | double {definitions : List Definition} {count : Nat} (hmem : doubled count ∈ definitions)
      (hrepeats : Repeats (definitions.erase (doubled count)) count) :
      Repeats definitions (2 * count)

theorem Repeats.pos {definitions : List Definition} {count : Nat}
    (hrepeats : Repeats definitions count) : 0 < count := by
  induction hrepeats with
  | base _ hpos => exact hpos
  | double _ _ ih => exact Nat.mul_pos Nat.two_pos ih

/-- Whether an element is rendered in this way, no matter which other definitions there are. -/
def RendersElement (definitions : List Definition) (name : String) (result : List Token) : Prop :=
  ∀ inner : List Definition,
    inner.find? (·.name == "ARM_FN") = definitions.find? (·.name == "ARM_FN") →
      Yields inner (elementTokens name) result

/-- An element is rendered in the same way where other definitions are out of use. -/
theorem RendersElement.erase {definitions : List Definition} {name : String}
    {result : List Token} (helement : RendersElement definitions name result)
    {definition : Definition} (hne : definition.name ≠ "ARM_FN") :
    RendersElement (definitions.erase definition) name result := by
  intro inner hinner
  apply helement inner
  rw [hinner, find?_erase_of_ne hne]

theorem RendersElement.yields {definitions : List Definition} {name : String}
    {result : List Token} (helement : RendersElement definitions name result) :
    Yields definitions (elementTokens name) result :=
  helement definitions rfl

/-- The invocation of a block yields its element as often as its name says.  By induction on
the definitions that it needs. -/
theorem Repeats.yields {definitions : List Definition} {count : Nat} {name : String}
    {result : List Token} (hrepeats : Repeats definitions count)
    (hnodup : (definitions.map (·.name)).Nodup)
    (helement : RendersElement definitions name result) :
    Yields definitions (call (blockName count) [elementTokens name])
      (separated (List.replicate count result)) := by
  have henclosed : ∀ argument ∈ [elementTokens name], Enclosed argument :=
    List.forall_mem_singleton.2 (enclosed_elementTokens name)
  induction hrepeats with
  | @base definitions count hmem hpos =>
      have hne : (flat count).name ≠ "ARM_FN" := blockName_ne (by decide) count
      have hinner := (helement.erase hne).yields.replicate count
      rw [← substitute_flat] at hinner
      exact Yields.call (find?_of_mem hnodup hmem) (List.cons_ne_nil _ _) henclosed rfl
        (hinner.apply_eq (expand_nil _))
  | @double definitions count hmem hrepeats ih =>
      have hne : (doubled count).name ≠ "ARM_FN" := blockName_ne (by decide) (2 * count)
      have hhalf := ih (nodup_names_erase hnodup _) (helement.erase hne)
      have hinner := hhalf.replicate 2
      rw [← substitute_doubled, Token.separated_replicate_two hrepeats.pos] at hinner
      exact Yields.call (find?_of_mem hnodup hmem) (List.cons_ne_nil _ _) henclosed rfl
        (hinner.apply_eq (expand_nil _))

/-- Definitions with all repetitions, by which elements are rendered in one way. -/
structure Renders (definitions : List Definition) (result : String → List Token) : Prop where
  nodup : (definitions.map (·.name)).Nodup
  element (name : String) : RendersElement definitions name (result name)
  blocks : ∀ count ∈ Run.blockSizes, count ≠ 1 → Repeats definitions count
  alternation : alternation ∈ definitions
  pairing : pairing ∈ definitions

namespace Renders

variable {definitions : List Definition} {result : String → List Token}

theorem yields_separated (hrenders : Renders definitions result) (names : List String) :
    Yields definitions (separated (names.map elementTokens)) (separated (names.map result)) :=
  Yields.separated fun name _ => (hrenders.element name).yields

/-- A repetition of two entries yields them in the order of its body. -/
theorem yields_pair (hrenders : Renders definitions result) {definition : Definition}
    (hmem : definition ∈ definitions) (hne : definition.name ≠ "ARM_FN")
    (hparameters : definition.parameters.length = 2) {first second : String}
    {names : List String}
    (hbody : substitute definition [elementTokens first, elementTokens second] =
      separated (names.map elementTokens)) :
    Yields definitions (call definition.name [elementTokens first, elementTokens second])
      (separated (names.map result)) := by
  have henclosed : ∀ argument ∈ [elementTokens first, elementTokens second],
      Enclosed argument := by
    rw [List.forall_mem_cons, List.forall_mem_singleton]
    exact ⟨enclosed_elementTokens first, enclosed_elementTokens second⟩
  apply Yields.call (find?_of_mem hrenders.nodup hmem) (List.cons_ne_nil _ _) henclosed
  · exact hparameters.symm
  · rw [hbody]
    have hyields := Yields.separated fun name (_ : name ∈ names) =>
      ((hrenders.element name).erase hne).yields
    exact hyields.apply_eq (expand_nil _)

end Renders

/-- Blocks of more than eight entries need all smaller ones down to eight entries. -/
theorem repeats_of_mem {level : Nat} (hlevel : level ≤ 4) {definitions : List Definition}
    (height : flat 8 ∈ definitions)
    (hsmaller : ∀ smaller < level, doubled (8 * 2 ^ smaller) ∈ definitions) :
    Repeats definitions (8 * 2 ^ level) := by
  have hflat : ∀ level < 4, flat 8 ≠ doubled (8 * 2 ^ level) := by decide
  have hdoubled : ∀ level < 4, ∀ smaller < level,
      doubled (8 * 2 ^ smaller) ≠ doubled (8 * 2 ^ level) := by decide
  induction level generalizing definitions with
  | zero => exact .base height (by decide)
  | succ level ih =>
      have hlt : level < 4 := hlevel
      have hinner := ih (Nat.le_of_lt hlt)
        ((List.mem_erase_of_ne (hflat level hlt)).2 height) fun smaller hsmall =>
          (List.mem_erase_of_ne (hdoubled level hlt smaller hsmall)).2
            (hsmaller smaller (Nat.lt_succ_of_lt hsmall))
      have hdouble := Repeats.double (hsmaller level (Nat.lt_succ_self level)) hinner
      rwa [Nat.mul_left_comm, ← Nat.pow_succ'] at hdouble

/-- There are definitions for every block that a stretch is split into, and for those that larger
blocks invoke. -/
theorem repeats_of_mem_blockSizes {definitions : List Definition}
    (hmem : runDefinitions ⊆ definitions) {count : Nat} (hblock : count ∈ Run.blockSizes)
    (hcount : count ≠ 1) : Repeats definitions count := by
  have hdoubled : ∀ level < 4, doubled (8 * 2 ^ level) ∈ definitions := by
    intro level hlevel
    apply hmem
    rcases level with _ | _ | _ | _ | level
    · simp [runDefinitions]
    · simp [runDefinitions]
    · simp [runDefinitions]
    · simp [runDefinitions]
    · omega
  have hlarge : ∀ level ≤ 4, Repeats definitions (8 * 2 ^ level) :=
    fun level hlevel => repeats_of_mem hlevel (hmem (by simp [runDefinitions]))
      fun smaller hsmaller => hdoubled smaller (Nat.lt_of_lt_of_le hsmaller hlevel)
  simp only [Run.blockSizes, List.mem_cons, List.not_mem_nil, or_false] at hblock
  rcases hblock with rfl | rfl | rfl | rfl | rfl | rfl | rfl | rfl
  · exact hlarge 4 (by decide)
  · exact hlarge 3 (by decide)
  · exact hlarge 2 (by decide)
  · exact hlarge 1 (by decide)
  · exact hlarge 0 (by decide)
  · exact .base (hmem (by simp [runDefinitions])) (by decide)
  · exact .base (hmem (by simp [runDefinitions])) (by decide)
  · exact absurd rfl hcount

/-- The definitions of an initializer render an element as the member of its owner. -/
theorem renders_repetitions {owner : String} (howner : owner ≠ "func") :
    Renders (repetitions owner) (member owner) where
  nodup := nodup_names_repetitions owner
  element name inner hinner := by
    have hfind : inner.find? (·.name == (elementDefinition owner).name) =
        some (elementDefinition owner) := hinner
    have hbody : expand (inner.erase (elementDefinition owner))
        (substitute (elementDefinition owner) [[word name]]) = member owner name := by
      rw [substitute_elementDefinition howner]
      exact expand_of_invoked_eq_nil _ rfl
    exact Yields.call hfind (List.cons_ne_nil _ _)
      (List.forall_mem_singleton.2 (Enclosed.word name)) rfl hbody
  blocks count := repeats_of_mem_blockSizes (List.subset_cons_self _ _)
  alternation := by simp [repetitions]
  pairing := by simp [repetitions]

/-- Where elements are not defined, they stay as they are. -/
theorem yields_elementTokens {definitions : List Definition}
    (hnone : definitions.find? (·.name == "ARM_FN") = none) (name : String) :
    Yields definitions (elementTokens name) (elementTokens name) := by
  intro rest
  have hcall : invocation? definitions (elementTokens name ++ rest) = none := by
    rw [elementTokens, call, List.cons_append, List.cons_append, invocation?, hnone]
    rfl
  have hname : expand definitions (word name :: mark ')' :: rest) =
      word name :: mark ')' :: expand definitions rest := by
    rw [expand_of_none rfl, expand_of_none rfl]
  calc expand definitions (elementTokens name ++ rest)
    _ = word "ARM_FN" :: expand definitions (mark '(' :: word name :: mark ')' :: rest) :=
        expand_of_none hcall
    _ = elementTokens name ++ expand definitions rest := by
        rw [expand_of_none rfl, hname]
        rfl

/-- The definitions of runs alone leave elements as they are. -/
theorem renders_runDefinitions : Renders runDefinitions elementTokens where
  nodup := (nodup_names_repetitions "").of_cons
  element name _ hinner := yields_elementTokens hinner name
  blocks count := repeats_of_mem_blockSizes (List.Subset.refl _)
  alternation := by simp [runDefinitions]
  pairing := by simp [runDefinitions]

/-! ### The tokens of runs -/

theorem spells_open : Token.Spells ['('] [mark '('] :=
  Token.Spells.mark (by decide) (by decide)

theorem spells_close : Token.Spells [')'] [mark ')'] :=
  Token.Spells.mark (by decide) (by decide)

theorem spells_call {name : String} {inner : List Char} {tokens : List Token}
    (hname : Word.isWord name.toList = true) (hinner : Token.Spells inner tokens) :
    Token.Spells (name.toList ++ '(' :: (inner ++ [')']))
      (word name :: mark '(' :: (tokens ++ [mark ')'])) := by
  have hcall := Token.Spells.word hname (by decide)
    (spells_open.append (hinner.append spells_close))
  rwa [String.ofList_toList] at hcall

theorem spells_element {name : String} (hname : Word.isWord name.toList = true) :
    Token.Spells (Run.element name).toList (elementTokens name) := by
  have hword : Word.isWord "ARM_FN".toList = true := by decide
  have hclosing := Token.Spells.word hname (by decide) spells_close
  have helement := Token.Spells.word hword (by decide) (spells_open.append hclosing)
  rw [String.ofList_toList, String.ofList_toList] at helement
  rw [Run.element, String.toList_append, String.toList_append]
  exact helement

theorem spells_comma : Token.Spells ",".toList [mark ','] :=
  Token.Spells.mark (by decide) (by decide)

theorem spells_separator : Token.Spells ", ".toList [mark ','] := by
  have hblank : Token.Spells [' '] [] := Token.Spells.blank (by decide)
  exact spells_comma.append hblank

theorem spells_listing {names : List String}
    (hnames : ∀ name ∈ names, Word.isWord name.toList = true) :
    Token.Spells (String.join (Run.listing names)).toList
      (separated (names.map elementTokens)) := by
  fun_induction Run.listing names with
  | case1 => exact Emits.nil
  | case2 name =>
      rw [String.join_cons, String.join_nil, String.append_empty]
      exact spells_element (hnames name List.mem_cons_self)
  | case3 name tail hne ih =>
      obtain ⟨hname, htail⟩ := List.forall_mem_cons.1 hnames
      have hparts : tail.map elementTokens ≠ [] := by
        rw [ne_eq, List.map_eq_nil_iff]
        exact hne
      rw [String.join_cons, String.join_cons, String.toList_append, String.toList_append,
        List.map_cons, Token.separated_cons hparts]
      exact (spells_element hname).append (spells_separator.append (ih htail))

theorem spells_blockText (count : Nat) {entry : String}
    (hentry : Word.isWord entry.toList = true) :
    Token.Spells (Run.blockText count entry).toList
      (call (blockName count) [elementTokens entry] ++ [mark ',']) := by
  have hname : Word.isWord (blockName count).toList = true := by
    rw [blockName, String.toList_append]
    exact Word.isWord_append (by decide) (Run.isWord_decimal count)
  have hcall := (spells_call hname (spells_element hentry)).append spells_comma
  have htext : (Run.blockText count entry).toList =
      (blockName count).toList ++ '(' :: ((Run.element entry).toList ++ [')']) ++ ",".toList := by
    simp [Run.blockText, blockName]
  rw [htext]
  exact hcall

theorem spells_pairText {name opening first second : String}
    (hname : Word.isWord name.toList = true) (hopening : opening.toList = name.toList ++ ['('])
    (hfirst : Word.isWord first.toList = true) (hsecond : Word.isWord second.toList = true) :
    Token.Spells (Run.pairText opening first second).toList
      (call name [elementTokens first, elementTokens second] ++ [mark ',']) := by
  have hinner := (spells_element hfirst).append
    (spells_separator.append (spells_element hsecond))
  have hcall := (spells_call hname hinner).append spells_comma
  have htext : (Run.pairText opening first second).toList =
      name.toList ++ '(' :: ((Run.element first).toList ++
        (", ".toList ++ (Run.element second).toList) ++ [')']) ++ ",".toList := by
    simp [Run.pairText, hopening]
  rw [htext]
  exact hcall

theorem invokes_elementTokens (name : String) : Invokes (elementTokens name) ["ARM_FN"] :=
  fun _ => rfl

/-- What the code of a run is to a compiler: its tokens up to the closing comma invoke nothing
but the repetitions, and yield the entries of the run. -/
structure Stands (run : Run String) (body : List Token) : Prop where
  spells : Token.Spells run.invocation.toList (body ++ [mark ','])
  invokes : ∃ names ⊆ Initializer.definedNames, Invokes body names
  yields {definitions : List Definition} {result : String → List Token} :
    Renders definitions result → Yields definitions body (separated (run.entries.map result))

theorem stands_single {run : Run String} {entry : String} (hentries : run.entries = [entry])
    (htext : run.invocation = Run.element entry ++ ",")
    (hentry : Word.isWord entry.toList = true) : Stands run (elementTokens entry) where
  spells := by
    rw [htext, String.toList_append]
    exact (spells_element hentry).append spells_comma
  invokes := ⟨["ARM_FN"], by decide, invokes_elementTokens entry⟩
  yields hrenders := by
    rw [hentries]
    exact (hrenders.element entry).yields

theorem stands_block {run : Run String} {entry : String}
    (hentries : run.entries = List.replicate run.count entry)
    (htext : run.invocation = Run.blockText run.count entry) (hcount : run.count ≠ 1)
    (hblock : run.count ∈ Run.blockSizes) (hentry : Word.isWord entry.toList = true) :
    Stands run (call (blockName run.count) [elementTokens entry]) where
  spells := by
    rw [htext]
    exact spells_blockText run.count hentry
  invokes := by
    have hdefined : ∀ count ∈ Run.blockSizes, count ≠ 1 →
        [blockName count, "ARM_FN"] ⊆ Initializer.definedNames := by decide
    exact ⟨_, hdefined run.count hblock hcount,
      Invokes.call (invokes_elementTokens entry)⟩
  yields hrenders := by
    rw [hentries, List.map_replicate]
    exact (hrenders.blocks run.count hblock hcount).yields hrenders.nodup (hrenders.element entry)

theorem invokes_pair (name first second : String) :
    Invokes (call name [elementTokens first, elementTokens second])
      [name, "ARM_FN", "ARM_FN"] :=
  fun _ => rfl

theorem stands_pair {run : Run String} {name opening first second : String}
    (htext : run.invocation = Run.pairText opening first second)
    (hopening : opening.toList = name.toList ++ ['('])
    (hname : Word.isWord name.toList = true)
    (hdefined : [name, "ARM_FN", "ARM_FN"] ⊆ Initializer.definedNames)
    (hfirst : Word.isWord first.toList = true) (hsecond : Word.isWord second.toList = true)
    (hyields : ∀ {definitions : List Definition} {result : String → List Token},
      Renders definitions result →
        Yields definitions (call name [elementTokens first, elementTokens second])
          (separated (run.entries.map result))) :
    Stands run (call name [elementTokens first, elementTokens second]) where
  spells := by
    rw [htext]
    exact spells_pairText hname hopening hfirst hsecond
  invokes := ⟨_, hdefined, invokes_pair name first second⟩
  yields := hyields

/-- Where there is no repetition for a run, its entries are written one by one. -/
theorem stands_listed {run : Run String}
    (htext : run.invocation = String.join (Run.listing run.entries) ++ ",")
    (hentries : ∀ name ∈ run.entries, Word.isWord name.toList = true) :
    Stands run (separated (run.entries.map elementTokens)) where
  spells := by
    rw [htext, String.toList_append]
    exact (spells_listing hentries).append spells_comma
  invokes := by
    refine ⟨_, ?_, Invokes.separated fun name _ => invokes_elementTokens name⟩
    intro name hname
    obtain ⟨_, -, hmem⟩ := List.mem_flatMap.1 hname
    rw [List.mem_singleton.1 hmem]
    decide
  yields hrenders := hrenders.yields_separated run.entries

/-- The code of any run of words stands for its entries.  By cases on the form it has. -/
theorem exists_stands {run : Run String} (hnamed : run.Named) : ∃ body, Stands run body := by
  have hform := Run.form_invocation run
  have hentries := Run.isWord_of_mem_entries hnamed
  obtain ⟨start, count, shape⟩ := run
  generalize htext : Run.invocation ⟨start, count, shape⟩ = text at hform
  cases hform with
  | single entry hshape hcount =>
      cases hshape
      cases hcount
      exact ⟨_, stands_single rfl htext (hentries entry (by simp [Run.entries_repeated]))⟩
  | block entry hshape hcount hblock =>
      cases hshape
      exact ⟨_, stands_block (Run.entries_repeated _ _ _) htext hcount hblock
        (hnamed entry List.mem_cons_self)⟩
  | alternating first second hshape hcount =>
      cases hshape
      cases hcount
      have hfirst := hnamed first List.mem_cons_self
      have hsecond := hnamed second (List.mem_cons_of_mem _ List.mem_cons_self)
      have hbody : substitute alternation [elementTokens first, elementTokens second] =
          separated ([first, second, first, second].map elementTokens) := substitute_alternation _ _
      exact ⟨_, stands_pair htext (by decide) (by decide) (by decide) hfirst hsecond
        fun hrenders => hrenders.yields_pair hrenders.alternation (by decide) rfl hbody⟩
  | pairwise first second hshape hcount =>
      cases hshape
      cases hcount
      have hfirst := hnamed first List.mem_cons_self
      have hsecond := hnamed second (List.mem_cons_of_mem _ List.mem_cons_self)
      have hbody : substitute pairing [elementTokens first, elementTokens second] =
          separated ([first, first, second, second].map elementTokens) := substitute_pairing _ _
      exact ⟨_, stands_pair htext (by decide) (by decide) (by decide) hfirst hsecond
        fun hrenders => hrenders.yields_pair hrenders.pairing (by decide) rfl hbody⟩
  | listed => exact ⟨_, stands_listed htext hentries⟩

end OpcodeTable.Expansion
