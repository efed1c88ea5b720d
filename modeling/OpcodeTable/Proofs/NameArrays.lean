import OpcodeTable.Proofs.Initializers
import OpcodeTable.Proofs.ListingLines

/-!
# Name arrays read back

An entry of a name array is read back as its slot and its handler as long as the handler is a
word.  Only words are ever read, so that a table with another handler is not read back from
its array.  No other line that belongs to a declared table is read as an entry.
-/

namespace OpcodeTable

/-- The text of a key reads back as its slot. -/
theorem Key.hexValue?_text (key : Key) :
    Numeral.hexValue? (toString key).toList = some key.slot := by
  have hlt : key.index < 65536 := Nat.lt_trans key.index_lt_count (by decide)
  have hslot : BitVec.ofNat 16 key.index = key.slot := by
    apply BitVec.eq_of_toNat_eq
    simp [slot, index]
  rw [← hslot]
  exact Numeral.hexValue?_slotText hlt

namespace NameArray

open Blank (trimStart)
open Word (after? isWord)

theorem isWord_of_readLine? {line : List Char} {slot : BitVec 16} {name : String}
    (hread : readLine? line = some (slot, name)) : isWord name.toList = true := by
  simp only [readLine?, Option.bind_eq_bind, Option.bind_eq_some_iff] at hread
  obtain ⟨quoted, -, closed, -, separated, -, comment, -, value, -, hname⟩ := hread
  split at hname
  next hword =>
    cases hname
    rwa [String.toList_ofList]
  next => simp at hname

theorem toList_entryLine (key : Key) (handler : String) :
    (entryLine key handler).toList =
      [' ', ' ', ' ', ' '] ++ '"' :: (handler.toList ++ '"' :: ',' ::
        ([' ', ' '] ++ (['/', '/'] ++ ([' '] ++ (toString key).toList)))) := by
  have hopening : "    \"".toList = [' ', ' ', ' ', ' ', '"'] := by decide
  have hclosing : "\",  // ".toList = ['"', ',', ' ', ' ', '/', '/', ' '] := by decide
  simp only [entryLine, String.toList_append, hopening, hclosing, List.append_assoc,
    List.cons_append, List.nil_append]

/-- The entry of a key declares its handler, if that is a word. -/
theorem declares_entryLine (key : Key) {handler : String}
    (hword : isWord handler.toList = true) :
    Declares (entryLine key handler).toList key.slot handler := by
  obtain ⟨digits, htext, hdigits⟩ := Numeral.hexValue?_eq_some_iff.1 key.hexValue?_text
  have hindent : Blank.White [' ', ' ', ' ', ' '] := by simp [Blank.White]
  have hbetween : Blank.White [' ', ' '] := by simp [Blank.White]
  have hbefore : Blank.White [' '] := by simp [Blank.White]
  have hnone : Blank.White [] := List.forall_mem_nil _
  have hspelled := Word.isWord_iff_spelled.1 hword
  have hdeclares := Declares.intro hindent hspelled hnone hbetween hbefore hdigits hnone
  rw [List.append_nil] at hdeclares
  rw [toList_entryLine, htext]
  exact hdeclares

theorem readLine?_entryLine (key : Key) {handler : String}
    (hword : isWord handler.toList = true) :
    readLine? (entryLine key handler).toList = some (key.slot, handler) :=
  readLine?_of_declares (declares_entryLine key hword)

theorem readLine?_eq_none {line : List Char} (hline : after? ['"'] (trimStart line) = none) :
    readLine? line = none := by
  rw [readLine?, hline]
  rfl

/-- Without a quote there is no entry. -/
theorem readLine?_of_not_mem {line : List Char} (hquote : '"' ∉ line) :
    readLine? line = none := by
  apply readLine?_eq_none
  cases htrim : trimStart line with
  | nil => rfl
  | cons c rest =>
      have hmem : c ∈ trimStart line := htrim ▸ List.mem_cons_self
      have hc : c ≠ '"' := by
        rintro rfl
        exact hquote ((List.dropWhile_sublist Blank.isBlank).subset hmem)
      rw [after?, if_neg hc]

/-- What a line starts with keeps it from being an entry, whatever follows. -/
theorem readLine?_append {front : List Char}
    (hfront : (trimStart front).head?.any (· ≠ '"') = true) (back : List Char) :
    readLine? (front ++ back) = none := by
  obtain ⟨c, hhead, hc⟩ := (Option.any_eq_true _ _).1 hfront
  obtain ⟨rest, hrest⟩ := List.head?_eq_some_iff.1 hhead
  have hne : c ≠ '"' := of_decide_eq_true hc
  apply readLine?_eq_none
  rw [Blank.trimStart_append (by simp [hrest]), hrest, List.cons_append, after?, if_neg hne]

theorem readLine?_of_quiet {line : List Char} (hquiet : Line.Quiet line) :
    readLine? line = none := by
  apply readLine?_of_not_mem
  exact Line.not_mem_of_quiet hquiet (by decide)

/-- Nothing is read from a preamble, not even where a configured name has quotes in it. -/
theorem readLine?_preamble (config : Config) :
    ∀ line ∈ Initializer.preamble config, readLine? line.toList = none := by
  apply Initializer.forall_mem_preamble (P := fun line => readLine? line = none)
  · exact fun line => readLine?_of_quiet
  · simp only [String.toList_append, List.append_assoc]
    exact readLine?_append (by decide) _
  · simp only [String.toList_append, List.append_assoc]
    exact readLine?_append (by decide) _

/-- No line of an initializer is an entry, up to where the name array may follow. -/
theorem readLine?_initializer {table : Table} (hnamed : table.Named) (config : Config) :
    ∀ line ∈ Initializer.preamble config ++
        (compress table.handlers).map (Run.line config.commentColumn.toNat) ++
        Initializer.trailer,
      readLine? line.toList = none := by
  intro line hline
  rcases List.mem_append.1 hline with hfront | htrailer
  · rcases List.mem_append.1 hfront with hpreamble | hrun
    · exact readLine?_preamble config line hpreamble
    · obtain ⟨run, hmem, rfl⟩ := List.mem_map.1 hrun
      exact readLine?_of_quiet (Run.quiet_line (Run.named_of_mem_compress hnamed hmem) _)
  · exact readLine?_of_quiet (Initializer.quiet_trailer line htrailer)

/-- The entries of an array are read in their order, and its other two lines are not. -/
theorem filterMap_readLine?_lines {table : Table} (hnamed : table.Named) (name : String) :
    (lines name table).filterMap (fun line => readLine? line.toList) =
      table.entries.map fun (key, handler) => (key.slot, handler) := by
  have hheader : ["static constexpr const char* " ++ name ++ "[" ++ toString Key.count ++
      "] = \x7b"].filterMap (fun line => readLine? line.toList) = [] := by
    rw [List.filterMap_eq_nil_iff, List.forall_mem_singleton]
    simp only [String.toList_append, List.append_assoc]
    exact readLine?_append (by decide) _
  have hclosing : ["\x7d;"].filterMap (fun line => readLine? line.toList) = [] := by
    rw [List.filterMap_eq_nil_iff, List.forall_mem_singleton]
    decide
  rw [lines, List.filterMap_append, List.filterMap_append, hheader, hclosing, List.nil_append,
    List.append_nil, List.filterMap_map, ← List.filterMap_eq_map]
  apply List.filterMap_congr
  intro entry hentry
  exact readLine?_entryLine entry.1 (Table.isWord_of_mem_entries hnamed hentry)

/-- A name array is read back as the listing of its table. -/
theorem parse_text {table : Table} (hnamed : table.Named) {name : String}
    (hname : '\n' ∉ name.toList) : parse (text name table) = table.listing := by
  rw [parse, Listing.ofText, text, Line.lines_join (unbroken_lines hnamed hname),
    List.filterMap_map, Table.listing]
  exact congrArg OrderedMap.ofList (filterMap_readLine?_lines hnamed name)

/-- Whatever the text, only words are read from it. -/
theorem named_parse (text : String) : (parse text).Named := by
  intro slot name hget
  obtain ⟨line, -, hread⟩ := Listing.exists_line_of_get?_ofText hget
  exact isWord_of_readLine? hread

/-- A table that is read back from any text has words only. -/
theorem named_of_parse {table : Table} {text : String} (hparse : parse text = table.listing) :
    table.Named := by
  intro name hname
  obtain ⟨key, rfl⟩ := Table.exists_key_of_mem_handlers hname
  have hget := table.get?_listing key
  rw [← hparse] at hget
  exact named_parse text key.slot _ hget

/-- An initializer is read as the table if the name array follows, and as nothing otherwise. -/
theorem parse_initializer {table : Table} {config : Config} (hnamed : table.Named)
    (hconfig : config.Unbroken) :
    parse (Initializer.text table config) =
      if config.includeNames then table.listing else .empty := by
  have hfront := List.filterMap_eq_nil_iff.2 (readLine?_initializer hnamed config)
  have hlines : (Initializer.lines table config).filterMap (fun line => readLine? line.toList) =
      if config.includeNames then table.entries.map fun (key, handler) => (key.slot, handler)
      else [] := by
    rw [Initializer.lines, List.filterMap_append, hfront, List.nil_append]
    split
    · rw [List.filterMap_cons_none (by decide), filterMap_readLine?_lines hnamed]
    · exact List.filterMap_nil
  calc parse (Initializer.text table config)
    _ = OrderedMap.ofList
          ((Initializer.lines table config).filterMap fun line => readLine? line.toList) := by
        rw [parse, Listing.ofText, Initializer.lines_text hnamed hconfig, List.filterMap_map]
        rfl
    _ = if config.includeNames then table.listing else .empty := by
        rw [hlines]
        split
        · rfl
        · rfl

/-- A name array is read back as its table exactly if all handlers of the table are words,
whatever else the handlers hold.  For such a table the whole initializer is read back as the
table if it has the name array, and as nothing otherwise, as no other line of it is taken for
an entry. -/
theorem read_back_iff_named (table : Table) (config : Config)
    (harray : '\n' ∉ config.arrayName.toList) :
    (∃ text, writeNameArray table config .unlimited = .ok ⟨text, none⟩ ∧
      (parse text = table.listing ↔ ∀ name ∈ table.handlers, isWord name.toList = true)) ∧
    ((∀ name ∈ table.handlers, isWord name.toList = true) →
      '\n' ∉ config.owner.toList → '\n' ∉ config.tableName.toList →
        (∃ text, writeTable table config .unlimited = .ok ⟨text, none⟩ ∧
          parse text = if config.includeNames then table.listing else .empty) ∧
        ∀ line ∈ Initializer.preamble config ++
            (compress table.handlers).map (Run.line config.commentColumn.toNat) ++
            Initializer.trailer,
          readLine? line.toList = none) := by
  constructor
  · refine ⟨_, writeNameArray_unlimited table config, ?_⟩
    constructor
    · exact named_of_parse
    · exact fun hnamed => parse_text hnamed harray
  · intro hnamed howner htable
    constructor
    · exact ⟨_, writeTable_unlimited table config,
        parse_initializer hnamed ⟨howner, htable, harray⟩⟩
    · exact readLine?_initializer hnamed config

theorem read_back_iff_named_standard :
    '\n' ∉ Config.standard.arrayName.toList ∧ Table.standard.Named ∧
      '\n' ∉ Config.standard.owner.toList ∧ '\n' ∉ Config.standard.tableName.toList ∧
      (∃ text, writeNameArray .standard .standard .unlimited = .ok ⟨text, none⟩ ∧
        parse text = Table.standard.listing) ∧
      ∃ text, writeTable .standard .standard .unlimited = .ok ⟨text, none⟩ ∧
        parse text = .empty := by
  have harray : '\n' ∉ Config.standard.arrayName.toList := by decide
  have howner : '\n' ∉ Config.standard.owner.toList := by decide
  have htable : '\n' ∉ Config.standard.tableName.toList := by decide
  obtain ⟨⟨array, hwrite, hiff⟩, hall⟩ := read_back_iff_named .standard .standard harray
  have hread := (hall Table.named_standard howner htable).1
  exact ⟨harray, Table.named_standard, howner, htable,
    ⟨array, hwrite, hiff.2 Table.named_standard⟩, hread⟩

end NameArray

end OpcodeTable
