/-
# Popping and removing

`Value.popInPlace` takes elements from the end of a container and
`Value.removeInPlace` takes them out by one key or by several, with a branch
for each representation. Both return a value, or an error, and the container
they leave behind.

Key definitions: `Outcome`, `Value.popInPlace`, `Value.removeInPlace`.
-/
import Mathlib.Data.String.Basic
import Wqpl.Access.Assign
import Wqpl.Positions

namespace Wqpl

/-- What a mutation in place returns and the value it leaves behind; `none` is
a panic. -/
abbrev Outcome := Option (WqResult Value × Value)

/-- A representation of lists: the list of some items and one item alone. -/
structure Storage (α : Type) where
  pack : List α → Value
  wrap : α → Value
  values_pack : ∀ xs, (ValueSeq.fromValue (pack xs)).map ValueSeq.values = some (xs.map wrap)

namespace Storage

def list : Storage Value := ⟨.list, id, fun xs => congrArg some (List.map_id xs).symm⟩

def int : Storage Int64 := ⟨.intList, .int, fun _ => rfl⟩

def bool : Storage Bool := ⟨.boolList, .bool, fun _ => rfl⟩

def float : Storage F64 := ⟨.floatList, .float, fun _ => rfl⟩

def string : Storage Char :=
  ⟨Value.intoWqString, .char, fun cs => by
    simp [Value.intoWqString, ValueSeq.fromValue, ValueSeq.values]⟩

end Storage

/-! ### Popping -/

/-- The item popped alone, or the empty list where there was none. -/
def popFirst (removed : List Value) : Value := removed.head?.getD Value.emptyList

/-- The arms for the lists of `pop_in_place`, by the list of the popped items. -/
def popItems {α : Type} (storage : Storage α) (several : List α → Value) (items : List α)
    (n : Nat) : Outcome :=
  let split := items.length - n
  let removed := items.drop split
  some (.ok (if n = 1 then popFirst (removed.map storage.wrap) else several removed),
    storage.pack (items.take split))

/-- The arm for strings of `pop_in_place`. A string that is popped as a whole is
returned as it is. -/
def popString (s : String) (n : Nat) : Outcome :=
  let chars := s.toList
  if chars.length ≤ n then some (.ok (.string s), .string "")
  else
    let split := chars.length - n
    let remaining := Value.intoWqString (chars.take split)
    let removed := chars.drop split
    if n = 1 then removed.head?.map fun c => (.ok (.char c), remaining)
    else some (.ok (Value.intoWqString removed), remaining)

/-- The loop of the arm for dictionaries: the values in the order they are
removed, and the entries left. -/
def popEntries (entries : List (String × Value)) : Nat → Option (List Value × List (String × Value))
  | 0 => some ([], entries)
  | k + 1 => do
    let (entry, rest) ← IndexMap.shiftRemoveIndex entries (entries.length - 1)
    let (values, rest) ← popEntries rest k
    return (entry.2 :: values, rest)

/-- The arm for dictionaries of `pop_in_place`. -/
def popDict (entries : List (String × Value)) (n : Nat) : Outcome := do
  let (removed, rest) ← popEntries entries (min n entries.length)
  let removed := removed.reverse
  return (.ok (if n = 1 then popFirst removed else Value.fromItems removed), .dict rest)

/-- `pop_in_place`. -/
def Value.popInPlace (data : Value) (n : Nat) : Outcome :=
  let data := materializeIntRange data
  if n = 0 then some (.ok emptyList, data)
  else
    match data with
    | .string s => popString s n
    | .intList items => popItems .int .intList items n
    | .boolList items => popItems .bool .boolList items n
    | .floatList items => popItems .float .floatList items n
    | .list items => popItems .list fromItems items n
    | .dict entries => popDict entries n
    | atom => some (.ok atom, emptyList)

/-! ### Positions of a removal -/

/-- `normalize_remove_idx`, which counts as `normalize_idx` does. -/
def normalizeRemoveIdx (i : Int64) (len : Nat) : Option Nat := normalizeIdx i len

/-- `ExactIntSeq::is_atom`, for a value that is an integer or a list of
integers. -/
def isExactIntAtom (value : Value) : Bool := (exactIntAtom value).isSome

/-- `parse_exact_int_positions`: the positions, and whether the key is a list. -/
def parseExactIntPositions (value : Value) (len : Nat) (normalize : Int64 → Nat → Option Nat) :
    WqResult (List Nat × Bool) :=
  match exactIntSeq value with
  | none => .error .domain
  | some items =>
    match items.mapM fun i => normalize i len with
    | none => .error .domain
    | some out => .ok (out, !isExactIntAtom value)

/-- `parse_remove_positions`. -/
def parseRemovePositions (idx : Value) (len : Nat) : WqResult (List Nat × Bool) :=
  parseExactIntPositions idx len normalizeRemoveIdx

/-- The key that one item of a removal's key stands for in a dictionary. -/
def dictRemoveKey (entries : List (String × Value)) : Value → Option String
  | .tag key => if (IndexMap.get? entries key).isSome then some key else none
  | .int i => do return (← entries[← normalizeRemoveIdx i entries.length]?).1
  | .bigInt b => do return (← entries[← normalizeRemoveIdx (← i64? b) entries.length]?).1
  | _ => none

/-- `dict_remove_keys`: the keys, and whether the removal's key is a list. -/
def dictRemoveKeys (idx : Value) (entries : List (String × Value)) :
    WqResult (List String × Bool) :=
  let keys : Option (List String × Bool) :=
    match idx with
    | .tag _ | .int _ | .bigInt _ => (dictRemoveKey entries idx).map fun key => ([key], false)
    | .intList idxs => (idxs.mapM fun i => dictRemoveKey entries (.int i)).map (·, true)
    | .intRange idxs => (idxs.toVec.mapM fun i => dictRemoveKey entries (.int i)).map (·, true)
    | .list items => (items.mapM (dictRemoveKey entries)).map (·, true)
    | _ => none
  match keys with
  | some keys => .ok keys
  | none => .error .domain

/-! ### Removing -/

/-- The arms for lists of `remove_in_place`: all positions are checked before an
item is moved. -/
def removeItems {α : Type} (storage : Storage α) (data : Value) (items : List α) (idx : Value) :
    Outcome :=
  match parseRemovePositions idx items.length with
  | .error e => some (.error e, data)
  | .ok (positions, isMulti) =>
    if isMulti then
      if hasDuplicate positions then some (.error .domain, data)
      else do
        let removed ← gather items positions
        let remaining ← removeMany items positions
        return (.ok (storage.pack removed), storage.pack remaining)
    else do
      let i ← positions.head?
      let removed ← items[i]?
      let remaining ← removeAt items i
      return (.ok (storage.wrap removed), storage.pack remaining)

/-- The loop of the arm for dictionaries: a key that is missing ends it, with
the entries removed before. -/
def removeKeys (entries : List (String × Value)) : List String →
    WqResult (List Value) × List (String × Value)
  | [] => (.ok [], entries)
  | key :: keys =>
    match IndexMap.shiftRemove entries key with
    | none => (.error .domain, entries)
    | some (value, rest) =>
      match removeKeys rest keys with
      | (.ok values, rest) => (.ok (value :: values), rest)
      | (.error e, rest) => (.error e, rest)

/-- The arm for dictionaries of `remove_in_place`. -/
def removeDict (entries : List (String × Value)) (idx : Value) : Outcome :=
  match dictRemoveKeys idx entries with
  | .error e => some (.error e, .dict entries)
  | .ok (keys, isMulti) =>
    if hasDuplicate keys then some (.error .domain, .dict entries)
    else
      match removeKeys entries keys with
      | (.error e, rest) => some (.error e, .dict rest)
      | (.ok removed, rest) =>
        some (.ok (if isMulti then Value.fromItems removed else popFirst removed), .dict rest)

/-- The arm for atoms of `remove_in_place`. -/
def removeAtom (atom idx : Value) : Outcome :=
  match parseRemovePositions idx 1 with
  | .error e => some (.error e, atom)
  | .ok (positions, isMulti) =>
    if isMulti then
      if hasDuplicate positions then some (.error .domain, atom)
      else some (.ok (Value.fromItems (positions.map fun _ => atom)), Value.emptyList)
    else some (.ok atom, Value.emptyList)

/-- `remove_in_place`. -/
def Value.removeInPlace (data idx : Value) : Outcome :=
  match materializeIntRange data with
  | .string s => removeItems .string (.string s) s.toList idx
  | .intList items => removeItems .int (.intList items) items idx
  | .boolList items => removeItems .bool (.boolList items) items idx
  | .floatList items => removeItems .float (.floatList items) items idx
  | .list items => removeItems .list (.list items) items idx
  | .dict entries => removeDict entries idx
  | atom => removeAtom atom idx

end Wqpl
