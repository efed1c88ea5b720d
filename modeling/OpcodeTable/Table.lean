import OpcodeTable.Category.Order
import OpcodeTable.Classification
import OpcodeTable.Event
import OpcodeTable.OrderedMap

/-!
# Handler tables

A table names a handler for every key.  A sweep over the keys fills it: it classifies each key
and routes the category to its handler.
-/

namespace OpcodeTable

/-! ## Handlers of categories

A handler is known by its name.  Every category has a default handler, whose name is made
from the category's own.
-/

/-- The handler of keys that nothing else claims. -/
def undefinedHandler : String := "exec_arm_undefined"

/-- The name of a handler: the mark of all handlers, and a text in lower case. -/
def handlerName (stem : String) : String :=
  "exec_arm_" ++ String.ofList (stem.toList.map Char.toLower)

def Category.defaultHandler : Category → String
  | swi => handlerName "software_interrupt"
  | possibleBX => handlerName "bx_possible"
  | undefined => undefinedHandler
  | category => handlerName (toString category)

abbrev HandlerMap := OrderedMap Category String

namespace HandlerMap

def default : HandlerMap :=
  OrderedMap.ofList (Category.all.map fun category => (category, category.defaultHandler))

/-- The handler of a category, or the fallback where it has none. -/
def resolve (handlers : HandlerMap) (fallback : String) (category : Category) : String :=
  (handlers.get? category).getD fallback

end HandlerMap

/-! ## Sweeps

A table is filled by one sweep over the keys.  The sweep classifies each key, routes the
category through a handler map, and marks the slot of the key as assigned.  A category that
the map lacks goes to a fallback, and is reported at the first key that needs it.
-/

/-- What a sweep has done so far. -/
structure Sweep where
  handlers : Vector String Key.count
  /-- Which slots have been assigned. -/
  assigned : Vector Bool Key.count
  /-- The categories that were found without a handler. -/
  unmapped : List Category
  reported : List Event

namespace Sweep

/-- The keys in the order of a sweep, which takes each partial opcode with both values of
the multiply/swap bit. -/
def order : List Key :=
  (List.range 256).flatMap fun opcode =>
    [false, true].map fun mulSwp => Key.ofFields (BitVec.ofNat 8 opcode) mulSwp

def start (fallback : String) : Sweep where
  handlers := Vector.replicate Key.count fallback
  assigned := Vector.replicate Key.count false
  unmapped := []
  reported := []

/-- Whether the slot of a key is still to be assigned.  A sweep takes this for granted of
every key that it comes to. -/
def Open (sweep : Sweep) (key : Key) : Prop :=
  sweep.assigned[key.index] = false

/-- Whether all slots have been assigned, as is taken for granted of a sweep at its end. -/
def Complete (sweep : Sweep) : Prop := sweep.assigned.all id = true

def assign (sweep : Sweep) (key : Key) (handler : String) : Sweep :=
  { sweep with
    handlers := sweep.handlers.set key.index handler
    assigned := sweep.assigned.set key.index true }

/-- Notes a category without a handler, and reports it unless it was noted before. -/
def note (sweep : Sweep) (category : Category) (fallback : String) : Sweep :=
  if category ∈ sweep.unmapped then sweep
  else
    { sweep with
      unmapped := sweep.unmapped ++ [category]
      reported := sweep.reported ++ [.noHandler category fallback] }

def visit (names : HandlerMap) (fallback : String) (sweep : Sweep) (key : Key) : Sweep :=
  match names.get? key.category with
  | some handler => sweep.assign key handler
  | none => (sweep.note key.category fallback).assign key fallback

/-- The sweep that has come through the given keys. -/
def after (names : HandlerMap) (fallback : String) (keys : List Key) : Sweep :=
  keys.foldl (visit names fallback) (start fallback)

def run (names : HandlerMap) (fallback : String) : Sweep := after names fallback order

end Sweep

/-! ## Tables

A table is wrapped around a list of handlers of the right length, or filled by a sweep.
-/

/-- The handlers of all keys, in the order of the keys. -/
structure Table where
  handlers : List String
  length_handlers : handlers.length = Key.count
deriving DecidableEq

/-- A list of handlers whose length is not the number of keys. -/
structure WrongLength where
  length : Nat
deriving DecidableEq, Repr

def WrongLength.message (fault : WrongLength) : String :=
  s!"dispatch table needs {Key.count} entries, got {fault.length}"

namespace Table

def ofHandlers (handlers : List String) : Except WrongLength Table :=
  if hlength : handlers.length = Key.count then .ok ⟨handlers, hlength⟩
  else .error ⟨handlers.length⟩

def get (table : Table) (key : Key) : String :=
  table.handlers.get ⟨key.index, by
    rw [table.length_handlers]
    exact key.index_lt_count⟩

def entries (table : Table) : List (Key × String) := Key.all.zip table.handlers

/-- The table that a sweep over the keys fills. -/
def build (names : HandlerMap) (fallback : String) : Table where
  handlers := (Sweep.run names fallback).handlers.toList
  length_handlers := by simp

/-- What building a table reports: the categories without a handler, and their number. -/
def buildEvents (names : HandlerMap) (fallback : String) : List Event :=
  (Sweep.run names fallback).reported ++
    [.built (Sweep.run names fallback).unmapped.length fallback]

def standard : Table := build .default undefinedHandler

end Table

end OpcodeTable
