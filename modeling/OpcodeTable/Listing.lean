import OpcodeTable.Table

/-!
# Listings

A listing names some slots of a table.  It is read from text line by line: lines that are
not entries are passed over, and of two entries for one slot the later one counts.  It can be
edited slot by slot, and the listing of a table can be written as an array of names.
-/

namespace OpcodeTable

/-- Names of slots.  Slot numbers have 16 bits, and need not be those of keys. -/
abbrev Listing := OrderedMap (BitVec 16) String

namespace Listing

/-- The listing made of the entries that `readLine?` finds in the lines of a text. -/
def ofText (readLine? : List Char → Option (BitVec 16 × String)) (text : String) : Listing :=
  OrderedMap.ofList ((Line.lines text.toList).filterMap readLine?)

/-- A listing with another laid over it, whose names win. -/
def override (lower upper : Listing) : Listing := lower.insertAll upper.entries

end Listing

inductive Edit where
  /-- Gives the slot of a key a name, whatever it had before. -/
  | insert (key : Key) (name : String)
  /-- Leaves a slot without a name. -/
  | remove (slot : BitVec 16)
deriving DecidableEq, Repr

def Edit.slot : Edit → BitVec 16
  | insert key _ => key.slot
  | remove slot => slot

namespace Listing

def edit (listing : Listing) : Edit → Listing
  | .insert key name => listing.insert key.slot name
  | .remove slot => listing.erase slot

/-- The listing after edits, the first of which is made first. -/
def edited (listing : Listing) (edits : List Edit) : Listing := edits.foldl edit listing

end Listing

/-- The listing that names the handler of every key. -/
def Table.listing (table : Table) : Listing :=
  OrderedMap.ofList (table.entries.map fun (key, handler) => (key.slot, handler))

/-! ## Name arrays

A name array declares the handlers of a table as strings, one on a line, each with its slot
in a comment.  The same lines can be read back as a listing, and there blanks may stand
between the parts of a line and at its ends.
-/

namespace NameArray

open Blank (trimStart trim)
open Word (after? isWord)

def entryLine (key : Key) (handler : String) : String :=
  "    \"" ++ handler ++ "\",  // " ++ toString key

def lines (name : String) (table : Table) : List String :=
  ["static constexpr const char* " ++ name ++ "[" ++ toString Key.count ++ "] = \x7b"] ++
    table.entries.map (fun (key, handler) => entryLine key handler) ++
    ["\x7d;"]

def text (name : String) (table : Table) : String := Line.join (lines name table)

/-- The slot and the name that a line declares. -/
def readLine? (line : List Char) : Option (BitVec 16 × String) := do
  let quoted ← after? ['"'] (trimStart line)
  let name := quoted.takeWhile (· ≠ '"')
  let closed ← after? ['"'] (quoted.dropWhile (· ≠ '"'))
  let separated ← after? [','] (trimStart closed)
  let comment ← after? ['/', '/'] (trimStart separated)
  let slot ← Numeral.hexValue? (trim comment)
  if isWord name then some (slot, String.ofList name) else none

def parse (text : String) : Listing := Listing.ofText readLine? text

end NameArray

end OpcodeTable
