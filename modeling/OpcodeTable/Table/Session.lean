import OpcodeTable.Table

/-!
# Table sessions

A session holds a handler map and a table.  Changing the map does not change the table,
which is replaced only when it is built anew or loaded from a list; a list of the wrong
length leaves the session as it was.
-/

namespace OpcodeTable

structure TableSession where
  handlers : HandlerMap
  table : Table
deriving DecidableEq

inductive TableStep where
  | set (category : Category) (handler : String)
  | remove (category : Category)
  | clear
  | reset
  | build (fallback : String)
  | load (handlers : List String)
deriving DecidableEq, Repr

inductive TableAnswer where
  /-- The handler that the category had before. -/
  | previous (handler : Option String)
  /-- How many categories have a handler now. -/
  | size (count : Nat)
  | built (events : List Event)
  | loaded
  | wrongLength (fault : WrongLength)
deriving DecidableEq, Repr

namespace TableSession

/-- The session with the default handlers and the standard table. -/
def start : TableSession := ⟨.default, .standard⟩

def step (session : TableSession) : TableStep → TableAnswer × TableSession
  | .set category handler =>
    (.previous (session.handlers.get? category),
      { session with handlers := session.handlers.insert category handler })
  | .remove category =>
    (.previous (session.handlers.get? category),
      { session with handlers := session.handlers.erase category })
  | .clear => (.size 0, { session with handlers := .empty })
  | .reset =>
    (.size HandlerMap.default.size, { session with handlers := .default })
  | .build fallback =>
    (.built (Table.buildEvents session.handlers fallback),
      { session with table := .build session.handlers fallback })
  | .load handlers =>
    match Table.ofHandlers handlers with
    | .ok table => (.loaded, { session with table })
    | .error fault => (.wrongLength fault, session)

def run (session : TableSession) (steps : List TableStep) : TableSession :=
  steps.foldl (fun session step => (session.step step).2) session

end TableSession

end OpcodeTable
