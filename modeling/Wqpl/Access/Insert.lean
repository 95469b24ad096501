/-
# Insertion

`Value.insertInPlace` inserts a value, or one value at each of several
positions, into a list, a string or a dictionary. A list keeps its packed
representation where it can hold the values; text goes into a string; and the
entries of a dictionary are moved to the positions asked for
(`IndexMap.shiftInsertMany`).

Key definitions: `Value.insertInPlace`, `dictInsertOps`.
-/
import Wqpl.Access.PopRemove
import Wqpl.ShiftInsert

namespace Wqpl

/-! ### Positions of an insertion -/

/-- `normalize_insert_idx`: the position after the last element counts too. -/
def normalizeInsertIdx (i : Int64) (len : Nat) : Option Nat :=
  if 0 ≤ i.toInt then
    if i.toInt.toNat ≤ len then some i.toInt.toNat else none
  else if i.toInt.natAbs ≤ len then some (len - i.toInt.natAbs) else none

/-- `parse_insert_positions`: without a destination the positions between the
elements. -/
def parseInsertPositions (dsts : Option Value) (len : Nat) : WqResult (List Nat × Bool) :=
  match dsts with
  | none => .ok (List.range' 1 (len - 1), true)
  | some dsts => parseExactIntPositions dsts len normalizeInsertIdx

/-! ### Values of an insertion -/

/-- `list_insert_items`. -/
def listInsertItems (xs : Value) : List Value := (listStorageSeq xs).getD [xs]

/-- `list_insert_pairwise`. -/
def listInsertPairwise (xs : Value) (len : Nat) : WqResult (List Value) :=
  match listStorageSeq xs with
  | some items => if items.length = len then .ok items else .error .domain
  | none => .ok (List.replicate len xs)

/-- `exact_int_insert_items`. -/
def exactIntInsertItems (xs : Value) : Option (List Int64) := exactIntSeq xs

/-- `exact_int_insert_pairwise`. -/
def exactIntInsertPairwise (xs : Value) (len : Nat) : Option (List Int64) := do
  let items ← exactIntSeq xs
  if isExactIntAtom xs then return List.replicate len (← items.head?)
  else if items.length = len then some items
  else none

/-- The common form of `bool_insert_items` and `float_insert_items`. -/
def packedInsertItems {α : Type} (kind : PackedList α) (xs : Value) : Option (List α) :=
  match kind.unwrap xs with
  | some x => some [x]
  | none =>
    match xs with
    | .list items => items.mapM kind.unwrap
    | xs => kind.unwrapMany xs

/-- The common form of `bool_insert_pairwise` and `float_insert_pairwise`. -/
def packedInsertPairwise {α : Type} (kind : PackedList α) (xs : Value) (len : Nat) :
    Option (List α) :=
  match kind.unwrap xs with
  | some x => some (List.replicate len x)
  | none =>
    match xs with
    | .list items => if items.length = len then items.mapM kind.unwrap else none
    | xs => do
      let items ← kind.unwrapMany xs
      if items.length = len then some items else none

/-- `bool_insert_items`. -/
def boolInsertItems : Value → Option (List Bool) := packedInsertItems .bool

/-- `bool_insert_pairwise`. -/
def boolInsertPairwise : Value → Nat → Option (List Bool) := packedInsertPairwise .bool

/-- `float_insert_items`. -/
def floatInsertItems : Value → Option (List F64) := packedInsertItems .float

/-- `float_insert_pairwise`. -/
def floatInsertPairwise : Value → Nat → Option (List F64) := packedInsertPairwise .float

/-- `try_to_rust_string`. -/
def tryToRustString : Value → Option (List Char)
  | .string s => some s.toList
  | .char c => some [c]
  | .list items => items.mapM char?
  | value => if value.isUnit then some [] else none

/-- The last arm of `string_insert_pairwise`: one character at each position. -/
def stringInsertChars (xs : Value) (len : Nat) : WqResult (List (List Char)) :=
  match tryToRustString xs with
  | none => .error .domain
  | some chars => if chars.length = len then .ok (chars.map ([·])) else .error .domain

/-- `string_insert_pairwise`. -/
def stringInsertPairwise (xs : Value) (len : Nat) : WqResult (List (List Char)) :=
  match xs with
  | .list items =>
    if items.length = len then
      match items.mapM tryToRustString with
      | some texts => .ok texts
      | none => .error .domain
    else stringInsertChars xs len
  | xs =>
    match listStorageSeq xs with
    | none =>
      match tryToRustString xs with
      | some text => .ok (List.replicate len text)
      | none => .error .domain
    | some _ => stringInsertChars xs len

/-! ### Insertion into lists and strings -/

/-- `insert_many_owned`. -/
def insertManyOwned {α : Type} (base : List α) (ops : List (Nat × α)) : List α :=
  insertSorted base (ops.map fun op => (op.1, [op.2]))

/-- `insert_string_chunks`. -/
def insertStringChunks (base : List Char) (ops : List (Nat × List Char)) : List Char :=
  insertSorted base ops

/-- `split_off` at a position, with values put before the tail; `none` is its
panic. -/
def insertAt {α : Type} (items : List α) (idx : Nat) (values : List α) : Option (List α) :=
  if idx ≤ items.length then some (items.take idx ++ values ++ items.drop idx) else none

/-- One value at each of several positions, or all at the only one. -/
def insertAtPositions {α : Type} (items : List α) (positions : List Nat) (isMulti : Bool)
    (values : List α) : Option (List α) :=
  if isMulti then some (insertManyOwned items (positions.zip values))
  else do insertAt items (← positions.head?) values

/-- The value left behind is returned too. -/
def returnsData (data : Value) : WqResult Value × Value := (.ok data, data)

/-- The values that are inserted into a list. -/
def insertValues (xs : Value) (isMulti : Bool) (len : Nat) : WqResult (List Value) :=
  if isMulti then listInsertPairwise xs len else .ok (listInsertItems xs)

/-- The arm for general lists of `insert_in_place`. -/
def insertList (items : List Value) (xs : Value) (dsts : Option Value) : Outcome :=
  match parseInsertPositions dsts items.length with
  | .error e => some (.error e, .list items)
  | .ok (positions, isMulti) =>
    if positions.isEmpty then some (returnsData (.list items))
    else
      match insertValues xs isMulti positions.length with
      | .error e => some (.error e, .list items)
      | .ok values => do
        return returnsData (.list (← insertAtPositions items positions isMulti values))

/-- The arms for packed lists of `insert_in_place`. The list becomes a general
one if it cannot hold the values. -/
def insertPacked {α : Type} (storage : Storage α) (insertItems : Value → Option (List α))
    (insertPairwise : Value → Nat → Option (List α)) (items : List α) (xs : Value)
    (dsts : Option Value) : Outcome :=
  match parseInsertPositions dsts items.length with
  | .error e => some (.error e, storage.pack items)
  | .ok (positions, isMulti) =>
    if positions.isEmpty then some (returnsData (storage.pack items))
    else
      match if isMulti then insertPairwise xs positions.length else insertItems xs with
      | some values => do
        return returnsData (storage.pack (← insertAtPositions items positions isMulti values))
      | none =>
        match insertValues xs isMulti positions.length with
        | .error e => some (.error e, storage.pack items)
        | .ok values => do
          return returnsData
            (.list (← insertAtPositions (items.map storage.wrap) positions isMulti values))

/-- `insert_string_in_place`. -/
def insertStringInPlace (data : Value) (dsts : Option Value) (xs : Value) : Outcome :=
  match tryToRustString data with
  | none => some (.error .domain, data)
  | some chars =>
    match parseInsertPositions dsts chars.length with
    | .error e => some (.error e, data)
    | .ok (positions, isMulti) =>
      if positions.isEmpty then some (returnsData data)
      else if isMulti then
        match stringInsertPairwise xs positions.length with
        | .error e => some (.error e, data)
        | .ok values =>
          some (returnsData (Value.intoWqString (insertStringChunks chars (positions.zip values))))
      else do
        let idx ← positions.head?
        match tryToRustString xs with
        | none => some (.error .domain, data)
        | some text =>
          some (returnsData (Value.intoWqString (insertStringChunks chars [(idx, text)])))

/-! ### Insertion into dictionaries -/

/-- `dict_insert_entries`. -/
def dictInsertEntries (xs : Value) (len : Nat) : WqResult (List (String × Value)) :=
  match xs with
  | .dict entries => if entries.length = len then .ok entries else .error .domain
  | _ => .error .domain

/-- `dict_insert_values`. -/
def dictInsertValues (xs : Value) (len : Nat) : WqResult (List Value) := listInsertPairwise xs len

/-- `dict_insert_destinations`, for a dictionary of positions. -/
def dictInsertDestinations (dsts : List (String × Value)) (len : Nat) :
    WqResult (List (Nat × String)) :=
  let destinations : Option (List (Nat × String)) := dsts.mapM fun (key, idx) => do
    return (← normalizeInsertIdx (← exactIntAtom idx) len, key)
  match destinations with
  | some destinations => .ok destinations
  | none => .error .domain

/-- The entries that are inserted into a dictionary of `len` entries and their
positions, in the order they are given. -/
def dictInsertOps (len : Nat) (xs : Value) (dsts : Option Value) :
    WqResult (List (Nat × String × Value)) :=
  match dsts with
  | some (.dict dsts) => do
    let destinations ← dictInsertDestinations dsts len
    if destinations.isEmpty then return []
    let values ← dictInsertValues xs destinations.length
    return (destinations.zip values).map fun ((idx, key), value) => (idx, key, value)
  | dsts => do
    let (positions, isMulti) ← parseInsertPositions dsts len
    match positions with
    | [] => return []
    | idx :: _ =>
      if isMulti then
        let entries ← dictInsertEntries xs positions.length
        return (positions.zip entries).map fun (idx, key, value) => (idx, key, value)
      else
        match xs with
        | .dict entries => return entries.map fun (key, value) => (idx, key, value)
        | _ => .error .domain

/-- `dict_shift_insert_many`. -/
def dictShiftInsertMany (map : List (String × Value)) (ops : List (Nat × String × Value)) :
    Option (List (String × Value)) :=
  IndexMap.shiftInsertMany map 0 (sortByPosition ops)

/-- The arm for dictionaries of `insert_in_place`. -/
def insertDict (map : List (String × Value)) (xs : Value) (dsts : Option Value) : Outcome :=
  match dictInsertOps map.length xs dsts with
  | .error e => some (.error e, .dict map)
  | .ok ops => do return returnsData (.dict (← dictShiftInsertMany map ops))

/-- `insert_in_place`. -/
def Value.insertInPlace (data xs : Value) (dsts : Option Value) : Outcome :=
  let data := materializeIntRange data
  if data.isString then insertStringInPlace data dsts xs
  else
    match data with
    | .list items => insertList items xs dsts
    | .intList items => insertPacked .int exactIntInsertItems exactIntInsertPairwise items xs dsts
    | .boolList items => insertPacked .bool boolInsertItems boolInsertPairwise items xs dsts
    | .floatList items => insertPacked .float floatInsertItems floatInsertPairwise items xs dsts
    | .dict map => insertDict map xs dsts
    | other => some (.error .domain, other)

end Wqpl
