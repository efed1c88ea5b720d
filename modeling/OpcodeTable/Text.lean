/-!
# Text

How a text falls into lines, which of its characters are blanks or belong to words, and how it
stands for a number.
-/

namespace OpcodeTable

/-! ## Lines

A line feed ends a line, and a carriage return right before it belongs to the break.  Text
after the last line feed is a line too, unless it is empty; there a carriage return is part
of the line.
-/

namespace Line

/-- The line whose characters stand in `taken`, last one first, less one carriage return at
its end. -/
def chomped : List Char → List Char
  | '\r' :: taken => taken.reverse
  | taken => taken.reverse

/-- The lines of a text that goes on after the characters `taken` of its first line, which
stand last one first. -/
def linesAfter (taken : List Char) : List Char → List (List Char)
  | [] => if taken = [] then [] else [taken.reverse]
  | c :: tail =>
    if c = '\n' then chomped taken :: linesAfter [] tail
    else linesAfter (c :: taken) tail

/-- The lines of a text, without their breaks. -/
def lines (text : List Char) : List (List Char) := linesAfter [] text

/-- The text that has the given lines, each ended by a line feed. -/
def join (lines : List String) : String :=
  String.join (lines.map fun line => line ++ "\n")

end Line

/-! ## Blanks

White space as Unicode's property `White_Space` has it: 25 code points, of which six are
ASCII.  Lines of a listing may have any of them around their parts.
-/

namespace Blank

/-- The code points with the property `White_Space`. -/
def isBlank (c : Char) : Bool :=
  let code := c.toNat
  (0x9 ≤ code && code ≤ 0xD) || code == 0x20 || code == 0x85 || code == 0xA0 ||
    code == 0x1680 || (0x2000 ≤ code && code ≤ 0x200A) || code == 0x2028 ||
    code == 0x2029 || code == 0x202F || code == 0x205F || code == 0x3000

def trimStart (text : List Char) : List Char := text.dropWhile isBlank

def trimEnd (text : List Char) : List Char := (text.reverse.dropWhile isBlank).reverse

def trim (text : List Char) : List Char := trimEnd (trimStart text)

end Blank

/-! ## Words

Handler names and identifiers are words over the ASCII letters and digits and the underscore.
-/

namespace Word

def isWordChar (c : Char) : Bool := c.isAlphanum || c == '_'

/-- Whether a text is a word, which has at least one character. -/
def isWord (text : List Char) : Bool := !text.isEmpty && text.all isWordChar

/-- What follows a given mark at the start of a text. -/
def after? : List Char → List Char → Option (List Char)
  | [], text => some text
  | _ :: _, [] => none
  | expected :: mark, c :: text => if c = expected then after? mark text else none

theorem after?_eq_some_iff {mark text rest : List Char} :
    after? mark text = some rest ↔ text = mark ++ rest := by
  induction mark generalizing text with
  | nil => simp [after?]
  | cons expected mark ih =>
    cases text with
    | nil => simp [after?]
    | cons c text =>
      by_cases hc : c = expected
      · simp [after?, hc, ih]
      · simp [after?, hc]

end Word

/-! ## Numerals

Writing numbers in hexadecimal, and reading them back in two ways.  `hexValue?` is the
strict reader of table listings: it takes digits only and answers whether the text is a
numeral.  `read` is the reader of command-line arguments: it takes a leading plus sign and
says why a text is not a numeral below its limit.
-/

namespace Numeral

/-- Hexadecimal with lower-case letters and at least `width` digits. -/
def lowerHex (width value : Nat) : String :=
  String.ofList ((Nat.toDigits 16 value).leftpad width '0')

/-- Hexadecimal with upper-case letters and at least `width` digits. -/
def upperHex (width value : Nat) : String :=
  String.ofList (((Nat.toDigits 16 value).map Char.toUpper).leftpad width '0')

/-- A slot number as tables and reports write it. -/
def slotText (slot : Nat) : String := "0x" ++ upperHex 3 slot

/-- What an ASCII digit or letter counts for; letters go on after nine in either case. -/
def digitValue? (c : Char) : Option Nat :=
  if '0' ≤ c ∧ c ≤ '9' then some (c.toNat - '0'.toNat)
  else if 'a' ≤ c ∧ c ≤ 'z' then some (c.toNat - 'a'.toNat + 10)
  else if 'A' ≤ c ∧ c ≤ 'Z' then some (c.toNat - 'A'.toNat + 10)
  else none

/-- The value of a digit of the given base, if the character is one. -/
def digit? (base : Nat) (c : Char) : Option Nat :=
  (digitValue? c).filter (· < base)

def isHexDigit (c : Char) : Bool := (digit? 16 c).isSome

/-- The number that a list of digits stands for, the most significant one first. -/
def valueOf (base : Nat) (digits : List Char) : Nat :=
  digits.foldl (fun value c => base * value + (digit? base c).getD 0) 0

/-- Reads one or more hexadecimal digits, and nothing else, as a number of 16 bits. -/
def hexDigits? (digits : List Char) : Option (BitVec 16) :=
  if digits ≠ [] ∧ digits.all isHexDigit ∧ valueOf 16 digits < 65536 then
    some (BitVec.ofNat 16 (valueOf 16 digits))
  else none

/-- Reads a hexadecimal number of 16 bits behind the mark `0x`. -/
def hexValue? : List Char → Option (BitVec 16)
  | '0' :: 'x' :: digits => hexDigits? digits
  | _ => none

/-- Why a text is not a numeral below a limit. -/
inductive Fault where
  | empty
  | invalidDigit
  | overflow
deriving DecidableEq, Repr

def Fault.message : Fault → String
  | .empty => "cannot parse integer from empty string"
  | .invalidDigit => "invalid digit found in string"
  | .overflow => "number too large to fit in target type"

/-- Reads digits from the left onto a value read so far.  The first character that is no
digit, or the first digit that takes the value to the limit, decides the fault. -/
def accumulate (base limit : Nat) (value : Nat) : List Char → Except Fault Nat
  | [] => .ok value
  | c :: tail =>
    match digit? base c with
    | none => .error .invalidDigit
    | some digit =>
      if base * value + digit < limit then
        accumulate base limit (base * value + digit) tail
      else .error .overflow

/-- Reads digits behind an optional plus sign as a number below `limit`.  A sign alone
counts as an invalid digit. -/
def read (base limit : Nat) : List Char → Except Fault Nat
  | [] => .error .empty
  | ['+'] => .error .invalidDigit
  | '+' :: digits => accumulate base limit 0 digits
  | digits => accumulate base limit 0 digits

end Numeral

end OpcodeTable
