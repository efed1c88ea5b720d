import OpcodeTable.Proofs.Names
import OpcodeTable.Proofs.RunText
import OpcodeTable.Proofs.Writing

/-!
# The lines of initializers

The lines of an initializer are quiet: they hold no quote, no opening brace and no break.  Two
lines of the preamble are exceptions, which hold configured names, and so are the lines of the
name array.  All lines of an initializer are found again in its text, as long as no configured name
holds a line feed.
-/

namespace OpcodeTable

open Line (Unbroken)
open Word (isWord)

namespace Line

/-- Whether a character is none of those that set the other lines apart. -/
def isQuiet (c : Char) : Bool := !(['\n', '\r', '"', '\x7b'].contains c)

def Quiet (line : List Char) : Prop := ∀ c ∈ line, isQuiet c = true

instance (line : List Char) : Decidable (Quiet line) :=
  List.decidableBAll (fun c => isQuiet c = true) line

instance (line : List Char) : Decidable (Unbroken line) :=
  inferInstanceAs (Decidable ('\n' ∉ line ∧ line.getLast? ≠ some '\r'))

theorem quiet_append {front back : List Char} :
    Quiet (front ++ back) ↔ Quiet front ∧ Quiet back :=
  List.forall_mem_append

theorem not_mem_of_quiet {line : List Char} (hquiet : Quiet line) {c : Char}
    (hc : isQuiet c = false) : c ∉ line := by
  intro hmem
  rw [hquiet c hmem] at hc
  exact Bool.false_ne_true hc.symm

/-- A line feed or a carriage return is no quiet character, so that quiet lines stay whole. -/
theorem unbroken_of_quiet {line : List Char} (hquiet : Quiet line) : Unbroken line := by
  constructor
  · exact not_mem_of_quiet hquiet (by decide)
  · intro hlast
    exact not_mem_of_quiet hquiet (by decide) (List.mem_of_getLast? hlast)

theorem quiet_of_over {marks line : List Char} (hover : Word.Over marks line)
    (hmarks : Quiet marks) : Quiet line := by
  intro c hc
  rcases hover c hc with hword | hmark
  · have hquiet : ['\n', '\r', '"', '\x7b'].all (!Word.isWordChar ·) = true := by decide
    rw [isQuiet, Bool.not_eq_true', List.contains_eq_mem, decide_eq_false_iff_not]
    intro hmem
    have hother := List.all_eq_true.1 hquiet c hmem
    rw [hword] at hother
    exact Bool.false_ne_true hother
  · exact hmarks c hmark

theorem quiet_of_isWord {line : List Char} (hword : isWord line = true) : Quiet line := by
  have hover : Word.Over [] line := Word.over_of_isWord hword
  exact quiet_of_over hover (by decide)

/-- A fixed line is looked at as its list of characters, which is faster than decoding it. -/
theorem quiet_ofList {chars : List Char} (hchars : Quiet chars) :
    Quiet (String.ofList chars).toList := by
  rwa [String.toList_ofList]

end Line

open Line (Quiet)

structure Config.Unbroken (config : Config) : Prop where
  owner : '\n' ∉ config.owner.toList
  tableName : '\n' ∉ config.tableName.toList
  arrayName : '\n' ∉ config.arrayName.toList

theorem Run.quiet_line {run : Run String} (hnamed : run.Named) (column : Nat) :
    Quiet (run.line column).toList :=
  Line.quiet_of_over (over_line hnamed column) (by decide)

namespace NameArray

theorem unbroken_entryLine (key : Key) {handler : String}
    (hword : isWord handler.toList = true) : Unbroken (entryLine key handler).toList := by
  have hslot : isWord (toString key).toList = true := Numeral.isWord_slotText key.index
  simp only [entryLine, String.toList_append]
  apply Line.unbroken_append
  · simp only [List.mem_append, not_or]
    exact ⟨⟨by decide, Word.not_mem_of_isWord hword (by decide)⟩, by decide⟩
  · exact Line.unbroken_of_quiet (Line.quiet_of_isWord hslot)
  · exact (Word.isWord_iff.1 hslot).1

theorem unbroken_lines {name : String} {table : Table} (hnamed : table.Named)
    (hname : '\n' ∉ name.toList) : ∀ line ∈ lines name table, Unbroken line.toList := by
  have hheader : Unbroken ("static constexpr const char* " ++ name ++ "[" ++
      toString Key.count ++ "] = \x7b").toList := by
    simp only [String.toList_append]
    apply Line.unbroken_append
    · simp only [List.mem_append, not_or]
      exact ⟨⟨⟨by decide, hname⟩, by decide⟩, by decide⟩
    · decide
    · decide
  intro line hline
  simp only [lines, List.mem_append, List.mem_singleton, List.mem_map] at hline
  obtain (rfl | ⟨entry, hentry, rfl⟩) | rfl := hline
  · exact hheader
  · exact unbroken_entryLine entry.1 (table.isWord_of_mem_entries hnamed hentry)
  · decide

end NameArray

namespace Initializer

/-- The preamble ends with the line that opens the table. -/
theorem preamble_eq (config : Config) :
    preamble config = (preamble config).dropLast ++
      ["    static constexpr void (" ++ config.owner ++ "::*" ++ config.tableName ++ "[" ++
        toString Key.count ++ "])(uint32_t instruction) = \x7b"] := rfl

/-- What holds of quiet lines holds of all that precedes the opening line, once it holds of the
line with the owner. -/
theorem forall_mem_dropLast_preamble {P : List Char → Prop} {config : Config}
    (hquiet : ∀ line, Quiet line → P line)
    (helement : P ("    #define ARM_FN(func) &" ++ config.owner ++ "::func").toList) :
    ∀ line ∈ (preamble config).dropLast, P line.toList := by
  have hfixed {chars : List Char} (hchars : Quiet chars) : P (String.ofList chars).toList :=
    hquiet _ (Line.quiet_ofList hchars)
  have height : Quiet ("    #define REPEAT_8(handler) handler, handler, handler, handler, " ++
      "handler, handler, handler, handler").toList := by
    rw [String.toList_append, Line.quiet_append]
    exact ⟨Line.quiet_ofList (by decide), Line.quiet_ofList (by decide)⟩
  have hcount : Quiet ("    // Table of " ++ toString Key.count ++
      " entries indexed by bits 27-20 and the mul/swp bit").toList := by
    simp only [String.toList_append, Line.quiet_append]
    exact ⟨⟨by decide, by decide⟩, Line.quiet_ofList (by decide)⟩
  simp only [preamble, List.dropLast, List.forall_mem_cons, List.not_mem_nil, false_implies,
    implies_true, and_true]
  exact ⟨hfixed (by decide), hfixed (by decide), helement, hfixed (by decide),
    hfixed (by decide), hquiet _ height, hfixed (by decide), hfixed (by decide),
    hfixed (by decide), hfixed (by decide), hfixed (by decide), hfixed (by decide),
    hfixed (by decide), hquiet _ hcount⟩

/-- Two lines of the preamble depend on the configuration, and all others are quiet. -/
theorem forall_mem_preamble {P : List Char → Prop} {config : Config}
    (hquiet : ∀ line, Quiet line → P line)
    (helement : P ("    #define ARM_FN(func) &" ++ config.owner ++ "::func").toList)
    (hopening : P ("    static constexpr void (" ++ config.owner ++ "::*" ++ config.tableName ++
      "[" ++ toString Key.count ++ "])(uint32_t instruction) = \x7b").toList) :
    ∀ line ∈ preamble config, P line.toList := by
  rw [preamble_eq, List.forall_mem_append, List.forall_mem_singleton]
  exact ⟨forall_mem_dropLast_preamble hquiet helement, hopening⟩

theorem quiet_trailer : ∀ line ∈ trailer, Quiet line.toList := by
  have hnames : ∀ name ∈ definedNames, isWord name.toList = true := by decide
  intro line hline
  simp only [trailer, List.mem_append, List.mem_cons, List.not_mem_nil, or_false,
    List.mem_map] at hline
  obtain (rfl | rfl | rfl) | ⟨name, hname, rfl⟩ := hline
  · exact Line.quiet_ofList (by decide)
  · exact Line.quiet_ofList (by decide)
  · exact Line.quiet_ofList (by decide)
  · rw [String.toList_append, Line.quiet_append]
    exact ⟨Line.quiet_ofList (by decide), Line.quiet_of_isWord (hnames name hname)⟩

theorem unbroken_preamble {config : Config} (hconfig : config.Unbroken) :
    ∀ line ∈ preamble config, Unbroken line.toList := by
  apply forall_mem_preamble (P := Unbroken)
  · exact fun line => Line.unbroken_of_quiet
  · simp only [String.toList_append]
    apply Line.unbroken_append
    · simp only [List.mem_append, not_or]
      exact ⟨by decide, hconfig.owner⟩
    · decide
    · decide
  · simp only [String.toList_append]
    apply Line.unbroken_append
    · simp only [List.mem_append, not_or]
      exact ⟨⟨⟨⟨⟨by decide, hconfig.owner⟩, by decide⟩, hconfig.tableName⟩, by decide⟩,
        by decide⟩
    · decide
    · decide

theorem unbroken_lines {table : Table} {config : Config} (hnamed : table.Named)
    (hconfig : config.Unbroken) : ∀ line ∈ lines table config, Unbroken line.toList := by
  intro line hline
  simp only [lines, List.mem_append] at hline
  obtain ((hpreamble | hrun) | htrailer) | harray := hline
  · exact unbroken_preamble hconfig line hpreamble
  · obtain ⟨run, hmem, rfl⟩ := List.mem_map.1 hrun
    exact Line.unbroken_of_quiet (Run.quiet_line (Run.named_of_mem_compress hnamed hmem) _)
  · exact Line.unbroken_of_quiet (quiet_trailer line htrailer)
  · split at harray
    · rcases List.mem_cons.1 harray with rfl | hline
      · decide
      · exact NameArray.unbroken_lines hnamed hconfig.arrayName line hline
    · simp at harray

/-- The lines of a declared table are found again in its text. -/
theorem lines_text {table : Table} {config : Config} (hnamed : table.Named)
    (hconfig : config.Unbroken) :
    Line.lines (text table config).toList = (lines table config).map String.toList :=
  Line.lines_join (unbroken_lines hnamed hconfig)

end Initializer

end OpcodeTable
