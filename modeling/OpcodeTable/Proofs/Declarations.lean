import OpcodeTable.Proofs.Initializers
import OpcodeTable.Proofs.Repetitions

/-!
# Declared tables

An initializer means its table.  Its preamble makes the definitions of the repetitions and no
other line makes one, its runs are the lines between the opening and the closing one, and what
the runs yield are the members of the owner that the table names, in their order.
-/

namespace OpcodeTable

structure Config.Named (config : Config) : Prop where
  owner : Word.isWord config.owner.toList = true
  tableName : Word.isWord config.tableName.toList = true
  arrayName : Word.isWord config.arrayName.toList = true

theorem Config.Named.unbroken {config : Config} (hnamed : config.Named) : config.Unbroken where
  owner := Word.not_mem_of_isWord hnamed.owner (by decide)
  tableName := Word.not_mem_of_isWord hnamed.tableName (by decide)
  arrayName := Word.not_mem_of_isWord hnamed.arrayName (by decide)

namespace Expansion

open Line (Quiet)
open Token (word mark terminated)
open Word (isWord)

/-! ### Definitions -/

theorem firstWord_append_cons {word rest : List Char} {c : Char} (hword : isWord word = true)
    (hc : Word.isWordChar c = false) : firstWord (word ++ c :: rest) = (word, c :: rest) := by
  have hchars := (Word.isWord_iff.1 hword).2
  rw [firstWord, Blank.trimStart_word_append hword, Word.takeWhile_append_cons hchars hc,
    Word.dropWhile_append_cons hchars hc]

/-- Only a mark makes a line a directive, and there may be nothing but blanks before it. -/
theorem definition?_eq_none {line : List Char}
    (hline : Word.after? ['#'] (Blank.trimStart line) = none) : definition? line = none := by
  rw [definition?, hline]
  rfl

theorem definition?_of_not_mem {line : List Char} (hmark : '#' ∉ line) :
    definition? line = none := by
  apply definition?_eq_none
  rw [Option.eq_none_iff_forall_ne_some]
  intro rest hrest
  rw [Word.after?_eq_some_iff] at hrest
  have hmem : '#' ∈ Blank.trimStart line := hrest ▸ List.mem_cons_self
  exact hmark ((List.dropWhile_sublist _).mem hmem)

/-- A blank behind its name makes a definition plain, so that it has no parameters and is not
invoked. -/
theorem definition?_of_blank {name rest : List Char} {c : Char} (hname : isWord name = true)
    (hc : Blank.isBlank c = true) :
    definition? ("    #define ".toList ++ (name ++ c :: rest)) = none := by
  have hafter : Word.after? ['('] (c :: rest) = none := by
    rw [Word.after?, if_neg]
    rintro rfl
    exact absurd hc (by decide)
  have hblank : firstWord (' ' :: (name ++ c :: rest)) = (name, c :: rest) :=
    firstWord_append_cons hname (Word.isWordChar_of_isBlank hc)
  rw [String.toList_ofList]
  change (Word.after? ['('] (firstWord (' ' :: (name ++ c :: rest))).2).bind _ = none
  rw [hblank, hafter]
  rfl

example : definition? "    #define ARM_FN (func) &ARMCPU::func".toList = none := by
  rw [String.toList_ofList]
  rfl

/-- The line with the owner defines elements, whatever the owner is. -/
theorem definition?_elementLine (owner : String) :
    definition? ("    #define ARM_FN(func) &" ++ owner ++ "::func").toList =
      some ⟨"ARM_FN", ["func"], mark '&' :: Token.tokens (owner ++ "::func").toList⟩ := by
  rw [String.append_assoc, String.toList_append, String.toList_ofList]
  rfl

theorem definition?_elementLine_of_isWord {owner : String}
    (howner : isWord owner.toList = true) :
    definition? ("    #define ARM_FN(func) &" ++ owner ++ "::func").toList =
      some (elementDefinition owner) := by
  have hback : "::func".toList = ':' :: ":func".toList := by decide
  rw [definition?_elementLine, String.toList_append, hback,
    Token.tokens_append_cons howner (by decide), String.ofList_toList]
  rfl

/-- A fixed line is read as its list of characters, which is faster than decoding it. -/
theorem definition?_ofList {chars : List Char} {result : Option Definition}
    (hchars : definition? chars = result) : definition? (String.ofList chars).toList = result := by
  rwa [String.toList_ofList]

theorem definition?_opening (config : Config) :
    definition? ("    static constexpr void (" ++ config.owner ++ "::*" ++ config.tableName ++
      "[" ++ toString Key.count ++ "])(uint32_t instruction) = \x7b").toList = none := by
  apply definition?_eq_none
  simp only [String.append_assoc]
  rw [String.toList_append, String.toList_ofList]
  rfl

theorem definitions_cons_none {line : List Char} {lines : List (List Char)}
    {made : List Definition} (hline : definition? line = none)
    (hlines : definitions lines = made) : definitions (line :: lines) = made := by
  rw [definitions, List.filterMap_cons_none hline]
  exact hlines

theorem definitions_cons_some {line : List Char} {lines : List (List Char)}
    {definition : Definition} {made : List Definition}
    (hline : definition? line = some definition) (hlines : definitions lines = made) :
    definitions (line :: lines) = definition :: made := by
  rw [definitions, List.filterMap_cons_some hline]
  exact congrArg _ hlines

theorem definitions_append (front back : List (List Char)) :
    definitions (front ++ back) = definitions front ++ definitions back :=
  List.filterMap_append

/-- The preamble makes the definition that the line with the owner makes, and those of runs. -/
theorem definitions_preamble_eq_cons {config : Config} {element : Definition}
    (helement : definition? ("    #define ARM_FN(func) &" ++ config.owner ++ "::func").toList =
      some element) :
    definitions ((Initializer.preamble config).map String.toList) =
      element :: runDefinitions := by
  have hskip {chars : List Char} {lines : List (List Char)} {made : List Definition}
      (hmark : '#' ∉ chars) (hlines : definitions lines = made) :
      definitions ((String.ofList chars).toList :: lines) = made :=
    definitions_cons_none (definition?_ofList (definition?_of_not_mem hmark)) hlines
  have hmake {chars : List Char} {lines : List (List Char)} {definition : Definition}
      {made : List Definition} (hchars : definition? chars = some definition)
      (hlines : definitions lines = made) :
      definitions ((String.ofList chars).toList :: lines) = definition :: made :=
    definitions_cons_some (definition?_ofList hchars) hlines
  have height : definition? ("    #define REPEAT_8(handler) handler, handler, handler, handler, " ++
      "handler, handler, handler, handler").toList = some (flat 8) := by
    rw [String.toList_append, String.toList_ofList, String.toList_ofList]
    rfl
  have hcount : definition? ("    // Table of " ++ toString Key.count ++
      " entries indexed by bits 27-20 and the mul/swp bit").toList = none := by
    apply definition?_of_not_mem
    simp only [String.toList_append, List.mem_append, not_or]
    exact ⟨⟨by decide, by decide⟩, by decide⟩
  apply hskip (by decide)
  apply hskip (by decide)
  apply definitions_cons_some helement
  apply hmake (by rfl)
  apply hmake (by rfl)
  apply definitions_cons_some height
  apply hmake (by rfl)
  apply hmake (by rfl)
  apply hmake (by rfl)
  apply hmake (by rfl)
  apply hmake (by rfl)
  apply hmake (by rfl)
  apply hskip (by decide)
  apply definitions_cons_none hcount
  apply definitions_cons_none (definition?_opening config)
  rfl

/-- The preamble defines the elements and all repetitions. -/
theorem definitions_preamble {config : Config} (howner : isWord config.owner.toList = true) :
    definitions ((Initializer.preamble config).map String.toList) = repetitions config.owner := by
  rw [repetitions_eq]
  exact definitions_preamble_eq_cons (definition?_elementLine_of_isWord howner)

theorem definition?_undefine (name : String) :
    definition? ("    #undef " ++ name).toList = none := by
  rw [String.toList_append, String.toList_ofList]
  rfl

theorem definition?_trailer :
    ∀ line ∈ Initializer.trailer, definition? line.toList = none := by
  intro line hline
  simp only [Initializer.trailer, List.mem_append, List.mem_cons, List.not_mem_nil, or_false,
    List.mem_map] at hline
  obtain (rfl | rfl | rfl) | ⟨name, -, rfl⟩ := hline
  · exact definition?_of_not_mem (by decide)
  · exact definition?_of_not_mem (by decide)
  · exact definition?_ofList (definition?_of_not_mem (by decide))
  · exact definition?_undefine name

/-- The lines of a name array make no definitions, as names that are words have no marks. -/
theorem definition?_array {table : Table} (hnamed : table.Named) {name : String}
    (hname : isWord name.toList = true) :
    ∀ line ∈ NameArray.lines name table, definition? line.toList = none := by
  intro line hline
  simp only [NameArray.lines, List.mem_append, List.mem_singleton, List.mem_map] at hline
  apply definition?_of_not_mem
  obtain (rfl | ⟨entry, hentry, rfl⟩) | rfl := hline
  · have hmark : '#' ∉ name.toList := Word.not_mem_of_isWord hname (by decide)
    simp only [String.toList_append, List.mem_append, not_or]
    exact ⟨⟨⟨⟨by decide, hmark⟩, by decide⟩, by decide⟩, by decide⟩
  · have hhandler := table.isWord_of_mem_entries hnamed hentry
    have hslot : isWord (toString entry.1).toList = true := Numeral.isWord_slotText entry.1.index
    simp only [NameArray.entryLine, String.toList_append, List.mem_append, not_or]
    exact ⟨⟨⟨by decide, Word.not_mem_of_isWord hhandler (by decide)⟩, by decide⟩,
      Word.not_mem_of_isWord hslot (by decide)⟩
  · decide

theorem definitions_map_eq_nil {lines : List String}
    (hlines : ∀ line ∈ lines, definition? line.toList = none) :
    definitions (lines.map String.toList) = [] := by
  rw [definitions, List.filterMap_map]
  exact List.filterMap_eq_nil_iff.2 hlines

/-- An initializer makes the definitions of its preamble and no others. -/
theorem definitions_lines {table : Table} {config : Config} (hnamed : table.Named)
    (hconfig : config.Named) :
    definitions ((Initializer.lines table config).map String.toList) =
      repetitions config.owner := by
  have hruns : ∀ line ∈ (compress table.handlers).map (Run.line config.commentColumn.toNat),
      definition? line.toList = none := by
    intro line hline
    obtain ⟨run, hmem, rfl⟩ := List.mem_map.1 hline
    have hover := Run.over_line (Run.named_of_mem_compress hnamed hmem)
    exact definition?_of_not_mem ((hover _).not_mem (by decide) (by decide))
  have harray : ∀ line ∈
      (if config.includeNames then "" :: NameArray.lines config.arrayName table else []),
      definition? line.toList = none := by
    split
    · exact List.forall_mem_cons.2 ⟨rfl, definition?_array hnamed hconfig.arrayName⟩
    · exact List.forall_mem_nil _
  rw [Initializer.lines, List.map_append, List.map_append, List.map_append, definitions_append,
    definitions_append, definitions_append, definitions_preamble hconfig.owner,
    definitions_map_eq_nil hruns, definitions_map_eq_nil definition?_trailer,
    definitions_map_eq_nil harray, List.append_nil, List.append_nil, List.append_nil]

/-! ### The body -/

/-- The lines before the one that opens the table. -/
def frontLines (lines : List (List Char)) : List (List Char) :=
  lines.takeWhile (!isOpening ·)

theorem isOpening_of_quiet {line : List Char} (hquiet : Quiet line) :
    isOpening line = false := by
  have hmark : mark '\x7b' ∉ Token.tokens line :=
    mt Token.mem_of_mark_mem_tokens (Line.not_mem_of_quiet hquiet (by decide))
  rw [isOpening, beq_eq_false_iff_ne]
  intro hlast
  exact hmark (List.mem_of_getLast? hlast)

theorem isClosing_of_not_mem {line : List Char} (hline : '\x7d' ∉ line) :
    isClosing line = false := by
  rw [isClosing, beq_eq_false_iff_ne]
  intro htokens
  have hmark : mark '\x7d' ∈ Token.tokens line := htokens ▸ List.mem_cons_self
  exact hline (Token.mem_of_mark_mem_tokens hmark)

theorem isOpening_opening (config : Config) :
    isOpening ("    static constexpr void (" ++ config.owner ++ "::*" ++ config.tableName ++
      "[" ++ toString Key.count ++ "])(uint32_t instruction) = \x7b").toList = true := by
  have hlast : "])(uint32_t instruction) = \x7b".toList =
      "])(uint32_t instruction) = ".toList ++ ['\x7b'] := by decide
  rw [isOpening, String.toList_append, hlast, ← List.append_assoc,
    Token.getLast?_tokens_append_mark (by decide) (by decide)]
  rfl

/-- The runs of an initializer stand between the last line of the preamble and the first line of
the trailer. -/
theorem exists_map_lines (table : Table) (config : Config) :
    ∃ rest, (Initializer.lines table config).map String.toList =
      (Initializer.preamble config).dropLast.map String.toList ++
        ("    static constexpr void (" ++ config.owner ++ "::*" ++ config.tableName ++ "[" ++
          toString Key.count ++ "])(uint32_t instruction) = \x7b").toList ::
        ((compress table.handlers).map (fun run =>
          (run.line config.commentColumn.toNat).toList) ++ "    \x7d;".toList :: rest) := by
  have htrailer : Initializer.trailer = "    \x7d;" :: Initializer.trailer.tail := rfl
  refine ⟨(Initializer.trailer.tail ++
    if config.includeNames then "" :: NameArray.lines config.arrayName table else []).map
      String.toList, ?_⟩
  rw [Initializer.lines, Initializer.preamble_eq, htrailer, List.map_append, List.map_append,
    List.map_append, List.map_append, List.map_map, List.map_cons, List.append_assoc,
    List.append_assoc, List.append_assoc, List.cons_append, List.map_append]
  rfl

/-- The body ends at the first line that closes it, whatever follows. -/
theorem bodyLines_append {front body rest : List (List Char)} {opening closing : List Char}
    (hfront : ∀ line ∈ front, isOpening line = false) (hopening : isOpening opening = true)
    (hbody : ∀ line ∈ body, isClosing line = false) (hclosing : isClosing closing = true) :
    bodyLines (front ++ opening :: (body ++ closing :: rest)) = body := by
  have hdrop : (front ++ opening :: (body ++ closing :: rest)).dropWhile (!isOpening ·) =
      opening :: (body ++ closing :: rest) :=
    Word.dropWhile_append_cons (fun line hline => by simp [hfront line hline]) (by simp [hopening])
  rw [bodyLines, hdrop, List.drop_one, List.tail_cons]
  exact Word.takeWhile_append_cons (fun line hline => by simp [hbody line hline])
    (by simp [hclosing])

theorem frontLines_append {front rest : List (List Char)} {opening : List Char}
    (hfront : ∀ line ∈ front, isOpening line = false) (hopening : isOpening opening = true) :
    frontLines (front ++ opening :: rest) = front :=
  Word.takeWhile_append_cons (fun line hline => by simp [hfront line hline]) (by simp [hopening])

theorem isOpening_of_mem_dropLast_preamble {config : Config}
    (howner : isWord config.owner.toList = true) :
    ∀ line ∈ (Initializer.preamble config).dropLast.map String.toList,
      isOpening line = false := by
  rw [List.forall_mem_map]
  apply Initializer.forall_mem_dropLast_preamble (P := fun line => isOpening line = false)
  · exact fun line => isOpening_of_quiet
  · apply isOpening_of_quiet
    simp only [String.toList_append, Line.quiet_append]
    exact ⟨⟨Line.quiet_ofList (by decide), Line.quiet_of_isWord howner⟩, by decide⟩

/-- The lines before the opening one make all definitions. -/
theorem definitions_frontLines {config : Config} (table : Table) (hconfig : config.Named) :
    definitions (frontLines ((Initializer.lines table config).map String.toList)) =
      repetitions config.owner := by
  have hfront := isOpening_of_mem_dropLast_preamble hconfig.owner
  have hopening := definitions_map_eq_nil
    (List.forall_mem_singleton.2 (definition?_opening config))
  have hdefinitions := definitions_preamble hconfig.owner
  rw [Initializer.preamble_eq, List.map_append, definitions_append, hopening,
    List.append_nil] at hdefinitions
  obtain ⟨rest, hlines⟩ := exists_map_lines table config
  rw [hlines, frontLines_append hfront (isOpening_opening config)]
  exact hdefinitions

/-- The lines between the opening and the closing line are those of the runs. -/
theorem bodyLines_lines {table : Table} {config : Config} (hnamed : table.Named)
    (hconfig : config.Named) :
    bodyLines ((Initializer.lines table config).map String.toList) =
      (compress table.handlers).map fun run =>
        (run.line config.commentColumn.toNat).toList := by
  have hfront := isOpening_of_mem_dropLast_preamble hconfig.owner
  have hbody : ∀ line ∈ (compress table.handlers).map fun run =>
      (run.line config.commentColumn.toNat).toList, isClosing line = false := by
    rw [List.forall_mem_map]
    intro run hrun
    have hover := Run.over_line (Run.named_of_mem_compress hnamed hrun)
    exact isClosing_of_not_mem ((hover _).not_mem (by decide) (by decide))
  have hclosing : isClosing "    \x7d;".toList = true := by decide
  obtain ⟨rest, hlines⟩ := exists_map_lines table config
  rw [hlines]
  exact bodyLines_append hfront (isOpening_opening config) hbody hclosing

/-! ### What the body yields -/

/-- The tokens of the line of a run, less its comment. -/
def runTokens (column : Nat) (run : Run String) : List Token :=
  Token.tokens (Token.splitComment (run.line column).toList).1

/-- The comment of a run is found again behind its code and the blanks. -/
theorem splitComment_line {run : Run String} (hnamed : run.Named) (column : Nat) :
    Token.splitComment (run.line column).toList =
      ((run.padded column).toList, some (' ' :: run.comment.toList)) := by
  have hcomment : "// ".toList = ['/', '/', ' '] := by decide
  have hslash : '/' ∉ (run.padded column).toList :=
    (Run.over_padded hnamed column).not_mem (by decide) (by decide)
  rw [Run.line_eq, String.toList_append, String.toList_append, hcomment, List.append_assoc,
    List.cons_append, List.cons_append, Token.splitComment_append hslash]
  rfl

theorem spells_code {run : Run String} {body : List Token} (hstands : Stands run body) :
    Token.Spells run.code.toList (body ++ [mark ',']) := by
  have hindent : Token.Spells "        ".toList [] := Token.Spells.blanks (by decide)
  rw [Run.code, String.toList_append]
  exact hindent.append hstands.spells

/-- Neither the blanks behind the code of a run nor its comment leave tokens. -/
theorem runTokens_eq {run : Run String} {body : List Token} (hnamed : run.Named)
    (hstands : Stands run body) (column : Nat) : runTokens column run = body ++ [mark ','] := by
  have hpadding : ∀ count, Token.Spells (List.replicate count ' ') [] := by
    intro count
    apply Token.Spells.blanks
    rw [List.all_replicate]
    split
    · rfl
    · rfl
  have hpadded := (spells_code hstands).append
    (hpadding (max 1 (column - run.code.utf8ByteSize)))
  rw [List.append_nil] at hpadded
  rw [runTokens, splitComment_line hnamed, Run.padded, String.toList_append,
    String.toList_ofList]
  exact hpadded.apply_eq rfl

/-- Lines of runs invoke nothing but repetitions, and yield the entries of the runs with a comma
behind each.  By induction on the runs. -/
theorem runTokens_yields {runs : List (Run String)}
    (hruns : ∀ run ∈ runs, run.Named ∧ 0 < run.count) (column : Nat) :
    (∃ names ⊆ Initializer.definedNames, Invokes (runs.flatMap (runTokens column)) names) ∧
      ∀ {definitions : List Definition} {result : String → List Token},
        Renders definitions result →
          Yields definitions (runs.flatMap (runTokens column))
            (terminated ((OpcodeTable.expand runs).map result)) := by
  induction runs with
  | nil => exact ⟨⟨[], List.nil_subset _, Emits.nil⟩, fun _ => Emits.nil⟩
  | cons run runs ih =>
      obtain ⟨⟨hnamed, hpos⟩, htail⟩ := List.forall_mem_cons.1 hruns
      obtain ⟨body, hstands⟩ := exists_stands hnamed
      obtain ⟨⟨names, hnames, hinvokes⟩, hyields⟩ := ih htail
      obtain ⟨first, hfirst, hbody⟩ := hstands.invokes
      have hcomma := hbody.append (Invokes.mark ',')
      rw [List.append_nil, ← runTokens_eq hnamed hstands column] at hcomma
      constructor
      · exact ⟨first ++ names, List.append_subset.2 ⟨hfirst, hnames⟩, hcomma.append hinvokes⟩
      · intro definitions result hrenders
        have hne : run.entries.map result ≠ [] :=
          mt List.map_eq_nil_iff.1 (Run.entries_ne_nil hpos)
        have hentries := (hstands.yields hrenders).append (Yields.mark ',')
        rw [Token.separated_append_comma hne, ← runTokens_eq hnamed hstands column] at hentries
        have hall := hentries.append (hyields hrenders)
        rw [terminated, terminated, ← List.flatMap_append, ← List.map_append] at hall
        exact hall

theorem enclosed_member (owner name : String) : Enclosed (member owner name) := by
  have hcolon : Enclosed [mark ':'] := Enclosed.mark (by decide) (by decide) (by decide)
  have hmark : Enclosed [mark '&'] := Enclosed.mark (by decide) (by decide) (by decide)
  exact hmark.append ((Enclosed.word owner).append
    (hcolon.append (hcolon.append (Enclosed.word name))))

theorem text_member (owner name : String) :
    text (member owner name) = "&" ++ owner ++ "::" ++ name := by
  apply String.toList_inj.1
  simp [text, member, Token.text]

/-- The body of an initializer is the code of its runs, one after another. -/
theorem bodyTokens_lines {table : Table} {config : Config} (hnamed : table.Named)
    (hconfig : config.Named) :
    bodyTokens ((Initializer.lines table config).map String.toList) =
      (compress table.handlers).flatMap (runTokens config.commentColumn.toNat) := by
  rw [bodyTokens, bodyLines_lines hnamed hconfig, List.flatMap_map]
  rfl

/-- Members invoke nothing, so that an expansion that has come to them is finished. -/
theorem invoked_terminated_member (owner : String) (names : List String) :
    invoked (terminated (names.map (member owner))) = [] := by
  have hitems : ∀ name ∈ names, Invokes (member owner name ++ [mark ',']) [] :=
    fun _ _ _ => rfl
  have hinvoked := (Emits.flatMap hitems).apply_eq rfl
  rw [terminated, List.flatMap_map, hinvoked]
  simp

/-- The text of an initializer means its table.  Once the repetitions that its body invokes are
replaced by the definitions that its lines make, nothing is left to invoke, and the elements are
the members of the owner that the table names for the keys in order.  All that the body invokes
is defined before the table opens. -/
theorem tableElements_of_writeTable (table : Table) (config : Config)
    (hnames : ∀ name ∈ table.handlers, isWord name.toList = true)
    (howner : isWord config.owner.toList = true) (hfunc : config.owner ≠ "func")
    (htable : isWord config.tableName.toList = true)
    (harray : isWord config.arrayName.toList = true) :
    ∃ declaration, writeTable table config .unlimited = .ok ⟨declaration, none⟩ ∧
      tableElements declaration =
        table.handlers.map (fun name => "&" ++ config.owner ++ "::" ++ name) ∧
      (tableElements declaration).length = 512 ∧
      invoked (expand (definitions (Line.lines declaration.toList))
        (bodyTokens (Line.lines declaration.toList))) = [] ∧
      ∀ name ∈ invoked (bodyTokens (Line.lines declaration.toList)),
        ∃ definition ∈ definitions (frontLines (Line.lines declaration.toList)),
          definition.name = name := by
  have hconfig : config.Named := ⟨howner, htable, harray⟩
  have hruns : ∀ run ∈ compress table.handlers, run.Named ∧ 0 < run.count := fun run hrun =>
    ⟨Run.named_of_mem_compress hnames hrun, (tiles_compress _).count_pos run hrun⟩
  obtain ⟨⟨names, hdefined, hinvokes⟩, hyields⟩ :=
    runTokens_yields hruns config.commentColumn.toNat
  have hlines := Initializer.lines_text hnames hconfig.unbroken
  have hdefinitions := definitions_lines hnames hconfig
  have hbody := bodyTokens_lines hnames hconfig
  have hexpand := (hyields (renders_repetitions hfunc)).apply_eq (expand_nil _)
  rw [expand_compress] at hexpand
  have helements : tableElements (Initializer.text table config) =
      table.handlers.map fun name => "&" ++ config.owner ++ "::" ++ name := by
    have henclosed : ∀ part ∈ table.handlers.map (member config.owner), Enclosed part :=
      List.forall_mem_map.2 fun name _ => enclosed_member config.owner name
    rw [tableElements, hlines, hdefinitions, hbody, hexpand, elements_terminated henclosed,
      List.map_map]
    exact List.map_congr_left fun name _ => text_member config.owner name
  refine ⟨_, writeTable_unlimited table config, helements, ?_, ?_, ?_⟩
  · rw [helements, List.length_map, table.length_handlers]
    rfl
  · rw [hlines, hdefinitions, hbody, hexpand]
    exact invoked_terminated_member config.owner table.handlers
  · intro name hname
    rw [hlines, hbody, hinvokes.apply_eq rfl] at hname
    have hmem := hdefined hname
    rw [← map_name_repetitions config.owner, ← definitions_frontLines table hconfig,
      ← hlines] at hmem
    exact List.mem_map.1 hmem

theorem tableElements_of_writeTable_standard :
    Table.standard.Named ∧ isWord Config.standard.owner.toList = true ∧
      Config.standard.owner ≠ "func" ∧ isWord Config.standard.tableName.toList = true ∧
      isWord Config.standard.arrayName.toList = true ∧
      ∃ declaration, writeTable .standard .standard .unlimited = .ok ⟨declaration, none⟩ ∧
        tableElements declaration =
          Table.standard.handlers.map (fun name => "&" ++ "ARMCPU" ++ "::" ++ name) := by
  have howner : isWord Config.standard.owner.toList = true := by decide
  have hfunc : Config.standard.owner ≠ "func" := by decide
  have htable : isWord Config.standard.tableName.toList = true := by decide
  have harray : isWord Config.standard.arrayName.toList = true := by decide
  obtain ⟨declaration, hwrite, helements, -⟩ := tableElements_of_writeTable .standard .standard
    Table.named_standard howner hfunc htable harray
  exact ⟨Table.named_standard, howner, hfunc, htable, harray, declaration, hwrite, helements⟩

end Expansion

end OpcodeTable
