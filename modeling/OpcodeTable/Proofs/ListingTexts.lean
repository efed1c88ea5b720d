import OpcodeTable.Proofs.ListingLines
import OpcodeTable.Proofs.Listings
import OpcodeTable.Proofs.Text.Words

/-!
# Texts of listings

A listing is read from its lines one after another, and the last entry for a slot counts.  How the
lines are broken makes no difference.  A carriage return before a line feed belongs to the break,
even if it was meant to end the line, but at the end of a line it never changes what the line is
read as.
-/

namespace OpcodeTable

namespace Line

/-- What stands between a line and the next one. -/
inductive Break where
  | feed
  | returnAndFeed
deriving DecidableEq, Repr

def Break.text : Break → String
  | feed => "\n"
  | returnAndFeed => "\r\n"

/-- Lines with the breaks that end them.  The last line of a text may have none. -/
structure Layout where
  ended : List (String × Break)
  last : Option String
  unbroken : ∀ line ∈ ended.map (·.1) ++ last.toList, '\n' ∉ line.toList

namespace Layout

def lines (layout : Layout) : List String := layout.ended.map (·.1) ++ layout.last.toList

def text (layout : Layout) : String :=
  String.join (layout.ended.map fun (line, ending) => line ++ ending.text) ++ layout.last.getD ""

end Layout

theorem linesAfter_of_not_mem {line : List Char} (hline : '\n' ∉ line) (taken : List Char) :
    linesAfter taken line = linesAfter (line.reverse ++ taken) [] := by
  induction line generalizing taken with
  | nil => rfl
  | cons c line ih =>
      obtain ⟨hc, htail⟩ := not_or.1 (mt List.mem_cons.2 hline)
      have hstep : linesAfter taken (c :: line) = linesAfter (c :: taken) line :=
        if_neg (Ne.symm hc)
      rw [hstep, ih htail, List.reverse_cons, List.append_assoc, List.singleton_append]

end Line

namespace Listing

open Line (Break Layout linesAfter chomped)

variable {readLine? : List Char → Option (BitVec 16 × String)}

/-- Readers that find nothing in a line without text, and the same whether or not there is a
carriage return at the end of a line. -/
structure Lenient (readLine? : List Char → Option (BitVec 16 × String)) : Prop where
  nil : readLine? [] = none
  append_return (line : List Char) : readLine? (line ++ ['\r']) = readLine? line

/-- The entries that a reader finds in a text. -/
def entriesIn (readLine? : List Char → Option (BitVec 16 × String)) (text : List Char) :
    List (BitVec 16 × String) :=
  (Line.lines text).filterMap readLine?

/-- A reader is lenient if a carriage return makes no difference to the form of the lines that it
reads. -/
theorem Lenient.of_iff {Form : List Char → BitVec 16 → String → Prop}
    (hform : ∀ {line slot name}, readLine? line = some (slot, name) ↔ Form line slot name)
    (hreturn : ∀ {line slot name}, Form (line ++ ['\r']) slot name ↔ Form line slot name)
    (hnil : readLine? [] = none) : Lenient readLine? where
  nil := hnil
  append_return line := by
    apply Option.ext
    rintro ⟨slot, name⟩
    rw [hform, hreturn, hform]

/-- It makes no difference to such a reader whether a break takes a carriage return along. -/
theorem Lenient.chomped (hlenient : Lenient readLine?) (taken : List Char) :
    readLine? (chomped taken) = readLine? taken.reverse := by
  unfold Line.chomped
  split
  next taken => rw [List.reverse_cons, hlenient.append_return]
  next => rfl

theorem Lenient.filterMap_linesAfter_nil (hlenient : Lenient readLine?) (taken : List Char) :
    (linesAfter taken []).filterMap readLine? = (readLine? taken.reverse).toList := by
  rw [linesAfter]
  split
  next htaken => rw [htaken, List.reverse_nil, hlenient.nil]; rfl
  next => cases hread : readLine? taken.reverse <;> simp [hread]

/-- What stands before a line feed is read as if the text ended there. -/
theorem Lenient.filterMap_linesAfter_feed (hlenient : Lenient readLine?)
    (taken front back : List Char) :
    (linesAfter taken (front ++ '\n' :: back)).filterMap readLine? =
      (linesAfter taken front).filterMap readLine? ++ entriesIn readLine? back := by
  induction front generalizing taken with
  | nil =>
      rw [hlenient.filterMap_linesAfter_nil, List.nil_append, linesAfter, if_pos rfl,
        List.filterMap_cons, hlenient.chomped]
      cases readLine? taken.reverse <;> rfl
  | cons c front ih =>
      rw [List.cons_append, linesAfter, linesAfter]
      split
      · rw [List.filterMap_cons, List.filterMap_cons, ih]
        split <;> rfl
      · exact ih (c :: taken)

theorem Lenient.filterMap_linesAfter_return (hlenient : Lenient readLine?)
    (taken front : List Char) :
    (linesAfter taken (front ++ ['\r'])).filterMap readLine? =
      (linesAfter taken front).filterMap readLine? := by
  induction front generalizing taken with
  | nil =>
      rw [hlenient.filterMap_linesAfter_nil, List.nil_append, linesAfter, if_neg (by decide),
        hlenient.filterMap_linesAfter_nil, List.reverse_cons, hlenient.append_return]
  | cons c front ih =>
      rw [List.cons_append, linesAfter, linesAfter]
      split
      · rw [List.filterMap_cons, List.filterMap_cons, ih]
      · exact ih (c :: taken)

/-- The entries in a text with a break in it are those before and those behind the break. -/
theorem Lenient.entriesIn_append (hlenient : Lenient readLine?) (front back : List Char)
    (ending : Break) :
    entriesIn readLine? (front ++ ending.text.toList ++ back) =
      entriesIn readLine? front ++ entriesIn readLine? back := by
  have hfeed (front : List Char) : entriesIn readLine? (front ++ '\n' :: back) =
      entriesIn readLine? front ++ entriesIn readLine? back :=
    hlenient.filterMap_linesAfter_feed [] front back
  cases ending with
  | feed =>
      have htext : Break.feed.text.toList = ['\n'] := by decide
      rw [htext, List.append_assoc, List.singleton_append, hfeed]
  | returnAndFeed =>
      have htext : Break.returnAndFeed.text.toList = ['\r'] ++ ['\n'] := by decide
      rw [htext, ← List.append_assoc, List.append_assoc, List.singleton_append, hfeed]
      congr 1
      exact hlenient.filterMap_linesAfter_return [] front

/-- A line alone holds the entry that it is read as. -/
theorem Lenient.entriesIn_line (hlenient : Lenient readLine?) {line : List Char}
    (hline : '\n' ∉ line) : entriesIn readLine? line = (readLine? line).toList := by
  rw [entriesIn, Line.lines, Line.linesAfter_of_not_mem hline, List.append_nil,
    hlenient.filterMap_linesAfter_nil, List.reverse_reverse]

/-- The entries in a text are those of its lines, however it is broken into them.  By induction on
the lines that have a break. -/
theorem Lenient.entriesIn_layout (hlenient : Lenient readLine?) (layout : Layout) :
    entriesIn readLine? layout.text.toList =
      layout.lines.filterMap fun line => readLine? line.toList := by
  obtain ⟨ended, last, hunbroken⟩ := layout
  simp only [Layout.text, Layout.lines]
  induction ended with
  | nil =>
      cases last with
      | none => simp [entriesIn, Line.lines, linesAfter]
      | some line =>
          have hline := hlenient.entriesIn_line (hunbroken line (by simp))
          rw [List.map_nil, String.join_nil, String.empty_append, Option.getD_some, hline]
          cases hread : readLine? line.toList <;> simp [hread]
  | cons head ended ih =>
      obtain ⟨line, ending⟩ := head
      rw [List.map_cons, List.cons_append, List.forall_mem_cons] at hunbroken
      rw [List.map_cons, String.join_cons, String.append_assoc, String.toList_append,
        String.toList_append, hlenient.entriesIn_append, hlenient.entriesIn_line hunbroken.1,
        ih hunbroken.2, List.map_cons, List.cons_append, List.filterMap_cons]
      cases readLine? line.toList <;> rfl

/-- How a text is read from what its lines are read as. -/
structure ReadsLines (readLine? : List Char → Option (BitVec 16 × String))
    (parse : String → Listing) : Prop where
  /-- The lines of a text add their entries one after another, whatever their breaks are. -/
  lines (layout : Layout) : parse layout.text =
    layout.lines.foldl (fun listing line => listing.insert? (readLine? line.toList)) .empty
  /-- The last of the entries for a slot counts. -/
  last (layout : Layout) (slot : BitVec 16) : (parse layout.text).get? slot =
    OrderedMap.lastValue? slot (layout.lines.filterMap fun line => readLine? line.toList)
  /-- What follows a break is laid over what precedes it. -/
  append (front back : String) (ending : Break) :
    parse (front ++ ending.text ++ back) = (parse front).override (parse back)
  /-- Lines that are no entries may be put in or left out anywhere. -/
  rejected (layout other : Layout)
    (hlines : layout.lines.filter (fun line => (readLine? line.toList).isSome) =
      other.lines.filter fun line => (readLine? line.toList).isSome) :
    parse layout.text = parse other.text

/-- A text is read as its lines are, whichever breaks it has. -/
theorem Lenient.ofText_layout (hlenient : Lenient readLine?) (layout : Layout) :
    ofText readLine? layout.text =
      .ofList (layout.lines.filterMap fun line => readLine? line.toList) :=
  congrArg OrderedMap.ofList (hlenient.entriesIn_layout layout)

theorem Lenient.readsLines (hlenient : Lenient readLine?) :
    ReadsLines readLine? (ofText readLine?) where
  lines layout := by
    rw [hlenient.ofText_layout, OrderedMap.ofList, OrderedMap.insertAll_filterMap]
  last layout slot := by rw [hlenient.ofText_layout, OrderedMap.get?_ofList]
  append front back ending := by
    apply OrderedMap.ext_get?
    intro slot
    have hentries := hlenient.entriesIn_append front.toList back.toList ending
    rw [← String.toList_append, ← String.toList_append] at hentries
    rw [get?_override, ofText, ofText, ofText, OrderedMap.get?_ofList, OrderedMap.get?_ofList,
      OrderedMap.get?_ofList, ← OrderedMap.lastValue?_append]
    exact congrArg (OrderedMap.lastValue? slot) hentries
  rejected layout other hlines := by
    have hfilter (lines : List String) :
        (lines.filter fun line => (readLine? line.toList).isSome).filterMap
            (fun line => readLine? line.toList) =
          lines.filterMap fun line => readLine? line.toList := by
      rw [List.filterMap_filter]
      congr 1
      funext line
      cases readLine? line.toList <;> rfl
    rw [hlenient.ofText_layout, hlenient.ofText_layout, ← hfilter, hlines, hfilter]

end Listing

/-- Where something else than a carriage return is followed by more text and a carriage return at
the end, the carriage return belongs to that text. -/
theorem Line.exists_of_append_return {line front back : List Char} {c : Char}
    (hline : line ++ ['\r'] = front ++ c :: back) (hc : c ≠ '\r') :
    ∃ rest, back = rest ++ ['\r'] ∧ line = front ++ c :: rest := by
  rcases List.eq_nil_or_concat back with rfl | ⟨rest, other, rfl⟩
  · obtain ⟨-, hlast⟩ := List.append_inj' hline rfl
    exact absurd (List.cons.inj hlast).1.symm hc
  · rw [List.concat_eq_append, ← List.cons_append, ← List.append_assoc] at hline
    obtain ⟨rfl, hlast⟩ := List.append_inj' hline rfl
    obtain rfl := (List.cons.inj hlast).1
    exact ⟨rest, List.concat_eq_append, rfl⟩

namespace Reference

/-- What stands behind the comma of an assignment does not matter. -/
theorem Assigns.exists_comma {line : List Char} {slot : BitVec 16} {name : String}
    (hassigns : Assigns line slot name) :
    ∃ front rest, line = front ++ ',' :: rest ∧
      ∀ other, Assigns (front ++ ',' :: other) slot name := by
  obtain @⟨indent, digits, before, behind, rest, slot, name, hindent, hdigits, hbefore, hbehind,
    hname⟩ := hassigns
  refine ⟨indent ++ '[' :: '0' :: 'x' :: (digits ++ ']' :: (before ++ '=' ::
    (behind ++ name.toList))), rest, by simp, fun other => ?_⟩
  simp only [List.append_assoc, List.cons_append]
  exact .intro hindent hdigits hbefore hbehind hname

/-- Behind the comma of an assignment anything may stand, and a carriage return too. -/
theorem assigns_append_return {line : List Char} {slot : BitVec 16} {name : String} :
    Assigns (line ++ ['\r']) slot name ↔ Assigns line slot name := by
  constructor
  · intro hassigns
    obtain ⟨front, rest, hline, hany⟩ := hassigns.exists_comma
    obtain ⟨rest, -, rfl⟩ := Line.exists_of_append_return hline (by decide)
    exact hany rest
  · intro hassigns
    obtain ⟨front, rest, rfl, hany⟩ := hassigns.exists_comma
    rw [List.append_assoc, List.cons_append]
    exact hany (rest ++ ['\r'])

theorem lenient_readLine? : Listing.Lenient readLine? :=
  .of_iff readLine?_eq_some_iff assigns_append_return (by decide)

end Reference

namespace NameArray

open Blank (White)

/-- Behind the last digit of a declaration there may be any blanks. -/
theorem Declares.exists_digit {line : List Char} {slot : BitVec 16} {name : String}
    (hdeclares : Declares line slot name) :
    ∃ front c margin, line = front ++ c :: margin ∧ c ≠ '\r' ∧ White margin ∧
      ∀ other, White other → Declares (front ++ c :: other) slot name := by
  obtain @⟨indent, behind, between, before, digits, margin, slot, name, hindent, hname, hbehind,
    hbetween, hbefore, hdigits, hmargin⟩ := hdeclares
  obtain rfl | ⟨digits, c, rfl⟩ := List.eq_nil_or_concat' digits
  · exact absurd rfl hdigits.nonempty
  have hc : c ≠ '\r' := by
    rintro rfl
    have hdigit := hdigits.digit '\r' (by simp)
    revert hdigit
    decide
  refine ⟨indent ++ '"' :: (name.toList ++ '"' :: (behind ++ ',' :: (between ++ '/' :: '/' ::
    (before ++ '0' :: 'x' :: digits)))), c, margin, by simp, hc, hmargin, fun other hother => ?_⟩
  have hform := Declares.intro hindent hname hbehind hbetween hbefore hdigits hother
  simpa using hform

/-- A carriage return at the end is one of the blanks that may stand there. -/
theorem declares_append_return {line : List Char} {slot : BitVec 16} {name : String} :
    Declares (line ++ ['\r']) slot name ↔ Declares line slot name := by
  constructor
  · intro hdeclares
    obtain ⟨front, c, margin, hline, hc, hmargin, hany⟩ := hdeclares.exists_digit
    obtain ⟨margin, rfl, rfl⟩ := Line.exists_of_append_return hline hc
    exact hany margin (Blank.white_append.1 hmargin).1
  · intro hdeclares
    obtain ⟨front, c, margin, rfl, -, hmargin, hany⟩ := hdeclares.exists_digit
    rw [List.append_assoc, List.cons_append]
    exact hany _ (Blank.white_append.2 ⟨hmargin, by simp [White]⟩)

theorem lenient_readLine? : Listing.Lenient readLine? :=
  .of_iff readLine?_eq_some_iff declares_append_return (by decide)

end NameArray

/-- Reference listings and name arrays are read from their lines, one after another and whatever
ends them.  A later entry for a slot overrides an earlier one, so that the second of two texts is
laid over the first, and lines that are no entries make no difference anywhere. -/
theorem Listing.parsers_read_lines :
    ReadsLines Reference.readLine? Reference.parse ∧
      ReadsLines NameArray.readLine? NameArray.parse :=
  ⟨Reference.lenient_readLine?.readsLines, NameArray.lenient_readLine?.readsLines⟩

end OpcodeTable
