import OpcodeTable.Event
import OpcodeTable.Listing
import OpcodeTable.Listing.Reference

/-!
# Comparison of tables

A table is compared with a reference slot by slot, over the slots that either of them names.
The reference's names are translated first.  A slot that one side leaves out counts as
undefined on that side, and a foreign name without a translation agrees with nothing that is
a handler name.
-/

namespace OpcodeTable

/-- What is expected where a foreign name has no translation. -/
def unmapped : String := "(unmapped)"

namespace Comparison

def foreignName (reference : Listing) (slot : BitVec 16) : String :=
  (reference.get? slot).getD foreignUndefined

/-- The handler that a foreign name stands for. -/
def expectedName (naming : Naming) (foreign : String) : String :=
  (naming.get? foreign).getD unmapped

def actualName (tested : Listing) (slot : BitVec 16) : String :=
  (tested.get? slot).getD undefinedHandler

def mismatchAt? (reference tested : Listing) (naming : Naming) (slot : BitVec 16) :
    Option Mismatch :=
  let foreign := foreignName reference slot
  let expected := expectedName naming foreign
  let actual := actualName tested slot
  if expected = actual then none else some { slot, foreign, expected, actual }

/-- The slots that either listing names, in order. -/
def slots (reference tested : Listing) : List (BitVec 16) :=
  (Listing.override reference tested).keys

/-- The mismatches of two listings, in the order of their slots. -/
def mismatches (reference tested : Listing) (naming : Naming) : List Mismatch :=
  (slots reference tested).filterMap (mismatchAt? reference tested naming)

/-- What is reported of a comparison: every mismatch, and how many there are. -/
def report (mismatches : List Mismatch) : List Event :=
  mismatches.map .mismatch ++ [.compared mismatches.length]

end Comparison

end OpcodeTable
