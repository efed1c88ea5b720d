/-!
# JSON values

The values that the library's types are stored as, and the shapes that records and variants
take: a record is an object with its fields, or the list of them in order, and a variant is
its bare name, or an object whose one member has that name.
-/

namespace OpcodeTable

/-- A JSON value.  A number written with a fraction or an exponent is not an integer, even
where its value is whole: it is `fraction`, with its digits and a power of ten. -/
inductive Json where
  | null
  | bool (value : Bool)
  | integer (value : Int)
  | fraction (digits : Int) (exponent : Int)
  | string (value : String)
  | array (items : List Json)
  | object (members : List (String × Json))
deriving Repr, Inhabited

namespace Json

/-- Why a value stands for nothing of the wanted type. -/
inductive Fault where
  /-- An integer of 16 bits in the place of a key that is no key's number. -/
  | keyOutOfRange (index : BitVec 16)
  | malformed
deriving DecidableEq, Repr

abbrev Reading (α : Type) := Except Fault α

/-- The value of a wanted shape, where there may be none. -/
def require {α : Type} : Option α → Reading α
  | some value => .ok value
  | none => .error .malformed

def asString : Json → Reading String
  | string value => .ok value
  | _ => .error .malformed

def asBool : Json → Reading Bool
  | bool value => .ok value
  | _ => .error .malformed

def asWord (width : Nat) : Json → Reading (BitVec width)
  | integer (.ofNat value) =>
    let word := BitVec.ofNat width value
    if word.toNat = value then .ok word else .error .malformed
  | _ => .error .malformed

/-- The member of an object with the given name, which only one member may have. -/
def member? (members : List (String × Json)) (name : String) : Option Json :=
  match members.filter (·.1 == name) with
  | [(_, value)] => some value
  | _ => none

/-- The values of a record's fields, in the order of their names.  An object may have other
members beside them, and a list has to have exactly as many items as there are fields. -/
def fields (names : List String) : Json → Reading (List Json)
  | object members => require (names.mapM (member? members))
  | array items => if items.length = names.length then .ok items else .error .malformed
  | _ => .error .malformed

/-- The name of a variant with the content it is stored with. -/
def variant : Json → Reading (String × Option Json)
  | string name => .ok (name, none)
  | object [(name, content)] => .ok (name, some content)
  | _ => .error .malformed

/-- The content of a variant without fields is left out or null. -/
def noField : Option Json → Reading Unit
  | none | some null => .ok ()
  | some _ => .error .malformed

/-- The content of a variant with one field is the field. -/
def oneField : Option Json → Reading Json := require

/-- The content of a variant with two fields is the list of them. -/
def twoFields : Option Json → Reading (Json × Json)
  | some (array [first, second]) => .ok (first, second)
  | _ => .error .malformed

end Json

end OpcodeTable
