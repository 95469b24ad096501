/-
# The text of a value

`Display` prints data the way it is written in a program: a list of characters
in quotes, a list of one item behind a comma, other lists and dictionaries in
parentheses. Each storage of a list has its own printer. The texts of floats,
from the library, and of the values that are no data are parameters.

Key definitions: `fmtList`, `Value.display`.
-/
import Wqpl.Lex.EscapeRoundTrip

namespace Wqpl

namespace F64

/-- `fract() == 0.0` for a finite float, whose lowest bit counts for `2 ^ (exponent - 1075)`. -/
def isIntegral (f : F64) : Bool :=
  if f.exponent < 1023 then f.isZero else f.fraction % 2 ^ (1075 - f.exponent) = 0

end F64

/-- What the printer takes from elsewhere. -/
structure Printing where
  /-- `{:.1}` of a float. -/
  fixed : F64 → List Char
  /-- `{}` of a float. -/
  shortest : F64 → List Char
  /-- A complex or algebraic number, a symbolic expression, a function or a handle. -/
  other : Value → List Char

/-- The character before a tag name. -/
def backtick : Char := Char.ofNat 0x60

/-! ### Atoms and packed lists -/

def formatInt (n : Int) : List Char :=
  (if n < 0 then ['-'] else []) ++ Nat.toDigits 10 n.natAbs

def formatFraction (q : Rat) : List Char :=
  if q.den = 1 then formatInt q.num else formatInt q.num ++ '/' :: formatInt q.den

def formatBool (b : Bool) : List Char := if b then ['T'] else ['F']

def formatTag (name : String) : List Char := backtick :: name.toList

def escapeStrForDisplay (text : List Char) : List Char := Lex.escapeStringInner text '"'

def formatQuoted (text : List Char) : List Char := '"' :: (escapeStrForDisplay text ++ ['"'])

namespace Printing

variable (printing : Printing)

def formatFloat (f : F64) : List Char :=
  if f.isInfinite ∧ f.signBit = false then "inf".toList
  else if f.isInfinite ∧ f.signBit = true then "-inf".toList
  else if f.isNaN then "nan".toList
  else if f.isIntegral then printing.fixed f
  else printing.shortest f

end Printing

/-- Texts between parentheses, separated by semicolons. -/
def inParens (texts : List (List Char)) : List Char :=
  '(' :: (List.intercalate [';'] texts ++ [')'])

/-- What the printers of the packed lists have in common. -/
def fmtSeq : List (List Char) → List Char
  | [] => ['(', ')']
  | [text] => ',' :: text
  | texts => inParens texts

def fmtIntSeq (items : List Int64) : List Char := fmtSeq (items.map fun n => formatInt n.toInt)

def fmtBoolSlice (items : List Bool) : List Char := fmtSeq (items.map formatBool)

def Printing.fmtFloatSlice (printing : Printing) (items : List F64) : List Char :=
  fmtSeq (items.map printing.formatFloat)

/-- Characters, stored as a string or as a list. -/
def fmtChars (text : List Char) : List Char :=
  if text = [] then ['(', ')']
  else if text.length = 1 then ',' :: formatQuoted text
  else formatQuoted text

/-! ### General lists and dictionaries -/

/-- An only item that stands in parentheses behind the comma. -/
def isNested : Value → Bool
  | .string s => s.toList.length = 1
  | v@(.list _) | v@(.intList _) | v@(.intRange _) | v@(.floatList _) | v@(.boolList _) =>
    !v.isUnit
  | _ => false

def charItems (items : List Value) : List Char :=
  items.filterMap fun v => match v with
    | .char c => some c
    | _ => none

/-- A general list; `texts` are the texts of its items. -/
def fmtList (items : List Value) (texts : List (List Char)) : List Char :=
  if items.isEmpty then ['(', ')']
  else if items.all Value.isChar then fmtChars (charItems items)
  else
    match items, texts with
    | [item], [text] => if isNested item then ',' :: inParens [text] else ',' :: text
    | _, texts => inParens texts

def fmtDict (texts : List (List Char)) : List Char :=
  if texts.isEmpty then ['(', backtick, ')'] else inParens texts

section Display

variable (printing : Printing)

mutual

/-- `Display`. -/
def Value.display : Value → List Char
  | .int n => formatInt n.toInt
  | .bigInt n => formatInt n
  | .float f => printing.formatFloat f
  | .fraction q => formatFraction q
  | .char c => formatQuoted [c]
  | .tag name => formatTag name
  | .bool b => formatBool b
  | .intList items => fmtIntSeq items
  | .intRange range => fmtIntSeq range.toVec
  | .floatList items => printing.fmtFloatSlice items
  | .boolList items => fmtBoolSlice items
  | .string s => fmtChars s.toList
  | .list items => fmtList items (Value.displayItems items)
  | .dict entries => fmtDict (Value.displayEntries entries)
  | v => printing.other v
termination_by structural v => v

def Value.displayItems : List Value → List (List Char)
  | [] => []
  | v :: vs => Value.display v :: Value.displayItems vs
termination_by structural items => items

def Value.displayEntries : List (String × Value) → List (List Char)
  | [] => []
  | (k, v) :: es => (formatTag k ++ ':' :: Value.display v) :: Value.displayEntries es
termination_by structural entries => entries

end

theorem displayItems_eq (items : List Value) :
    Value.displayItems printing items = items.map (Value.display printing) := by
  induction items with
  | nil => rfl
  | cons v vs ih => rw [Value.displayItems, ih, List.map_cons]

theorem displayEntries_eq (entries : List (String × Value)) :
    Value.displayEntries printing entries =
      entries.map fun e => formatTag e.1 ++ ':' :: Value.display printing e.2 := by
  induction entries with
  | nil => rfl
  | cons e es ih =>
    obtain ⟨k, v⟩ := e
    rw [Value.displayEntries, ih, List.map_cons]

theorem display_list (items : List Value) :
    (Value.list items).display printing = fmtList items (items.map (Value.display printing)) := by
  rw [Value.display, displayItems_eq]

theorem display_dict (entries : List (String × Value)) :
    (Value.dict entries).display printing =
      fmtDict (entries.map fun e => formatTag e.1 ++ ':' :: Value.display printing e.2) := by
  rw [Value.display, displayEntries_eq]

end Display

end Wqpl
