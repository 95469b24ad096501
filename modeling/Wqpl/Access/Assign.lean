/-
# Indexing and index assignment

`Value.index` reads by one key and `Value.indexMany` by several, and
`Value.assignByIndex` and `Value.assignByIndices` write by them. A key is a
position, counted from the end when negative, a list of positions, or for a
dictionary a tag or a list of tags and positions. An assignment is the target
it leaves behind and whether it succeeded.
-/
import Wqpl.Value

namespace Wqpl

/-! ### Positions -/

/-- `normalize_idx`. -/
def normalizeIdx (i : Int64) (len : Nat) : Option Nat :=
  if 0 ≤ i.toInt then
    if i.toInt.toNat < len then some i.toInt.toNat else none
  else if i.toInt.natAbs ≤ len then some (len - i.toInt.natAbs) else none

/-- `exact_int_atom` and `int_arg_to_i64`. -/
def exactIntAtom : Value → Option Int64
  | .int i => some i
  | .bigInt n => i64? n
  | _ => none

/-- `exact_int_seq`. -/
def exactIntSeq : Value → Option (List Int64)
  | .int i => some [i]
  | .bigInt n => (i64? n).map ([·])
  | .intList items => some items
  | .intRange range => some range.toVec
  | .list items => items.mapM exactIntAtom
  | _ => none

/-- `packed_int_seq`. -/
def packedIntSeq : Value → Option (List Int64)
  | .intList items => some items
  | .intRange range => some range.toVec
  | _ => none

/-- `ListStorageSeq::from_value`, the items of a list that is not a string. -/
def listStorageSeq : Value → Option (List Value)
  | .list items => some items
  | .intList items => some (items.map .int)
  | .intRange range => some (range.toVec.map .int)
  | .floatList items => some (items.map .float)
  | .boolList items => some (items.map .bool)
  | _ => none

/-- `resolve_single_idx`. -/
def resolveSingleIdx (key : Value) (len : Nat) : Option Nat := do
  normalizeIdx (← exactIntAtom key) len

/-- `normalize_many`. -/
def normalizeMany (idxs : List Int64) (len : Nat) : Option (List Nat) :=
  idxs.mapM fun i => normalizeIdx i len

/-- `normalize_list_indices`. -/
def normalizeListIndices (idxs : List Value) (len : Nat) : Option (List Nat) := do
  normalizeMany (← idxs.mapM exactIntAtom) len

/-- `resolve_many_idx`. -/
def resolveManyIdx (key : Value) (len : Nat) : Option (List Nat) := do
  normalizeMany (← exactIntSeq key) len

/-! ### Reading -/

namespace ValueSeq

/-- The items at some positions, in a list of the same representation. -/
def gather : ValueSeq → List Nat → Option Value
  | .list items, idxs => do return Value.fromItems (← idxs.mapM fun (i : Nat) => items[i]?)
  | .intList items, idxs => do return .intList (← idxs.mapM fun (i : Nat) => items[i]?)
  | .intRange range, idxs => do return .intList (← idxs.mapM range.get)
  | .floatList items, idxs => do return .floatList (← idxs.mapM fun (i : Nat) => items[i]?)
  | .boolList items, idxs => do return .boolList (← idxs.mapM fun (i : Nat) => items[i]?)
  | .string s, idxs => do
    return .string (String.ofList (← idxs.mapM fun (i : Nat) => s.toList[i]?))

end ValueSeq

/-- An entry of a dictionary by its tag or position. -/
def dictEntry (entries : List (String × Value)) : Value → Option Value
  | .tag s => IndexMap.get? entries s
  | .int i => do return (← entries[← normalizeIdx i entries.length]?).2
  | .bigInt n => do return (← entries[← normalizeIdx (← i64? n) entries.length]?).2
  | _ => none

/-- `index_structured_keys`. -/
def indexStructuredKeys (keys : List Value) (indexKey : Value → Option Value) : Option Value :=
  match keys with
  | [] => none
  | [key] => indexKey key
  | keys => do return Value.fromItems (← keys.mapM indexKey)

/-- `index_complex_key`. -/
def indexComplexKey (re im : F64) : Value → Option Value
  | .tag s => if s = "re" then some (.float re) else if s = "im" then some (.float im) else none
  | _ => none

/-- `from_bigint`, for a part of a fraction. -/
def fractionPart (n : Int) : Value :=
  match i64? n with
  | some m => .int m
  | none => .bigInt n

/-- `index_fraction_key`. -/
def indexFractionKey (q : Rat) : Value → Option Value
  | .tag s =>
    if s = "n" ∨ s = "numer" then some (fractionPart q.num)
    else if s = "d" ∨ s = "denom" then some (fractionPart q.den)
    else none
  | _ => none

namespace Value

/-- The tag or the list of keys of a number with named parts. -/
def indexParts (indexKey : Value → Option Value) : Value → Option Value
  | .tag s => indexKey (.tag s)
  | .list keys => do return fromItems (← keys.mapM indexKey)
  | _ => none

/-- `Value::index`. -/
def index (v key : Value) : Option Value :=
  match ValueSeq.fromValue v with
  | some seq =>
    ((resolveSingleIdx key seq.len).bind seq.get).or
      ((resolveManyIdx key seq.len).bind seq.gather)
  | none =>
    match v with
    | .dict entries =>
      (((resolveSingleIdx key entries.length).bind fun i => entries[i]?.map Prod.snd).or
        ((resolveManyIdx key entries.length).bind fun idxs => do
          return fromItems (← idxs.mapM fun (i : Nat) => entries[i]?.map Prod.snd))).or
      (match key with
        | .tag s => IndexMap.get? entries s
        | .list keys => do return fromItems (← keys.mapM (dictEntry entries))
        | _ => none)
    | .complex re im => indexParts (indexComplexKey re im) key
    | .fraction q => indexParts (indexFractionKey q) key
    | _ => none

/-- `Value::index_many`. -/
def indexMany (v : Value) (keys : List Value) : Option Value :=
  match ValueSeq.fromValue v with
  | some seq => do seq.gather (← normalizeListIndices keys seq.len)
  | none =>
    match v with
    | .dict entries => do return fromItems (← keys.mapM (dictEntry entries))
    | .complex re im => indexStructuredKeys keys (indexComplexKey re im)
    | .fraction q => indexStructuredKeys keys (indexFractionKey q)
    | v =>
      match keys with
      | [key] => v.index key
      | _ => none

end Value

/-! ### Writing to packed lists -/

/-- The representation of a packed list: its items as values, and the values
it takes as one item and as several. -/
structure PackedList (α : Type) where
  pack : List α → Value
  wrap : α → Value
  unwrap : Value → Option α
  unwrapMany : Value → Option (List α)

namespace PackedList

def int : PackedList Int64 where
  pack := .intList
  wrap := .int
  unwrap v := match v with
    | .int n => some n
    | _ => none
  unwrapMany := packedIntSeq

def float : PackedList F64 where
  pack := .floatList
  wrap := .float
  unwrap v := match v with
    | .float f => some f
    | _ => none
  unwrapMany v := match v with
    | .floatList items => some items
    | _ => none

def bool : PackedList Bool where
  pack := .boolList
  wrap := .bool
  unwrap v := match v with
    | .bool b => some b
    | _ => none
  unwrapMany v := match v with
    | .boolList items => some items
    | _ => none

end PackedList

/-- `PackedAssignMode`. -/
inductive PackedAssignMode
  | single | bulk
deriving DecidableEq

/-- The common form of `assign_int_list_indices`, `assign_bool_list_indices` and
`assign_float_list_indices`: the list stays packed where it can hold the
values. A packed list of another kind is a value like an atom here. -/
def assignPackedIndices {α : Type} (kind : PackedList α) (items : List α) (idxs : List Nat)
    (mode : PackedAssignMode) (value : Value) : Option Value :=
  match mode, idxs with
  | .single, [] => none -- not reached
  | .single, idx :: _ =>
    match kind.unwrap value with
    | some v => some (kind.pack (items.set idx v))
    | none => some (.list ((items.map kind.wrap).set idx value))
  | .bulk, idxs =>
    match kind.unwrap value with
    | some v => some (kind.pack (setAll items (idxs.map (·, v))))
    | none =>
      match value with
      | .list vals =>
        if idxs.length ≠ vals.length then none
        else
          match vals.mapM kind.unwrap with
          | some xs => some (kind.pack (setAll items (idxs.zip xs)))
          | none => some (.list (setAll (items.map kind.wrap) (idxs.zip vals)))
      | value =>
        match kind.unwrapMany value with
        | some vals =>
          if idxs.length ≠ vals.length then none
          else some (kind.pack (setAll items (idxs.zip vals)))
        | none => some (.list (setAll (items.map kind.wrap) (idxs.map (·, value))))

/-- `assign_int_list_indices`. -/
def assignIntListIndices : List Int64 → List Nat → PackedAssignMode → Value → Option Value :=
  assignPackedIndices .int

/-- `assign_float_list_indices`. -/
def assignFloatListIndices : List F64 → List Nat → PackedAssignMode → Value → Option Value :=
  assignPackedIndices .float

/-- `assign_bool_list_indices`. -/
def assignBoolListIndices : List Bool → List Nat → PackedAssignMode → Value → Option Value :=
  assignPackedIndices .bool

/-- `packed_list_len`. -/
def packedListLen : Value → Option Nat
  | .intList items => some items.length
  | .floatList items => some items.length
  | .boolList items => some items.length
  | _ => none

/-- `assign_packed_list_indices`. -/
def assignPackedListIndices (data : Value) (idxs : List Nat) (mode : PackedAssignMode)
    (value : Value) : Option Value :=
  if idxs.isEmpty then none
  else
    match data with
    | .intList items => assignIntListIndices items idxs mode value
    | .floatList items => assignFloatListIndices items idxs mode value
    | .boolList items => assignBoolListIndices items idxs mode value
    | _ => none

/-! ### Writing to strings, lists and dictionaries -/

def char? : Value → Option Char
  | .char c => some c
  | _ => none

/-- The characters of a string as values. -/
def charValues (s : String) : List Value := s.toList.map .char

/-- `assign_string_char`. -/
def assignStringChar (s : String) (idx : Nat) (c : Char) : String :=
  String.ofList (s.toList.set idx c)

/-- The arm for several positions of a string. -/
def assignStringBulk (s : String) (idxs : List Nat) (value : Value) : Option Value :=
  match value with
  | .list vals =>
    if idxs.length ≠ vals.length then none
    else
      match vals.mapM char? with
      | some chars =>
        some (.string ((idxs.zip chars).foldl (fun s p => assignStringChar s p.1 p.2) s))
      | none => some (.list (setAll (charValues s) (idxs.zip vals)))
  | .char c => some (.string (idxs.foldl (fun s idx => assignStringChar s idx c) s))
  | other => some (.list (setAll (charValues s) (idxs.map (·, other))))

/-- `assign_list_bulk`. -/
def assignListBulk (items : List Value) (idxs : List Nat) (value : Value) : Option (List Value) :=
  match listStorageSeq value with
  | some vals =>
    if idxs.length ≠ vals.length then none else some (setAll items (idxs.zip vals))
  | none => some (setAll items (idxs.map (·, value)))

/-- `DictBulkKey`. -/
inductive DictBulkKey
  | symbol (s : String)
  | position (idx : Nat)

/-- `normalize_dict_bulk_keys`. -/
def normalizeDictBulkKeys (keys : List Value) (len : Nat) : Option (List DictBulkKey) :=
  keys.mapM fun key =>
    match key with
    | .tag s => some (.symbol s)
    | key => (resolveSingleIdx key len).map .position

/-- `assign_dict_entry`. -/
def assignDictEntry (entries : List (String × Value)) (key : DictBulkKey) (value : Value) :
    Option (List (String × Value)) :=
  match key with
  | .symbol s => some (IndexMap.insert entries s value)
  | .position idx => if idx < entries.length then some (IndexMap.setAt entries idx value) else none

/-- The loop of `assign_dict_bulk`: a failure leaves the entries that were
written before it. -/
def assignDictEntries (entries : List (String × Value)) :
    List (DictBulkKey × Value) → Option Unit × List (String × Value)
  | [] => (some (), entries)
  | (key, value) :: rest =>
    match assignDictEntry entries key value with
    | some entries' => assignDictEntries entries' rest
    | none => (none, entries)

/-- `assign_dict_bulk`. -/
def assignDictBulk (entries : List (String × Value)) (keys : List DictBulkKey) (value : Value) :
    Option Unit × List (String × Value) :=
  match listStorageSeq value with
  | some vals =>
    if keys.length ≠ vals.length then (none, entries)
    else assignDictEntries entries (keys.zip vals)
  | none => assignDictEntries entries (keys.map (·, value))

/-! ### Assignment -/

/-- `materialize_int_range`. -/
def materializeIntRange : Value → Value
  | .intRange range => .intList range.toVec
  | v => v

/-- The target is replaced on success, and left as it is on failure. -/
def commit (target : Value) (result : Option Value) : Option Unit × Value :=
  match result with
  | some v => (some (), v)
  | none => (none, target)

namespace Value

/-- `Value::assign_by_index`, after a range is made a list. -/
def assignMaterialized (target key value : Value) : Option Unit × Value :=
  match packedListLen target with
  | some len =>
    match resolveSingleIdx key len with
    | some idx => commit target (assignPackedListIndices target [idx] .single value)
    | none => commit target do
      assignPackedListIndices target (← resolveManyIdx key len) .bulk value
  | none =>
    match target with
    | .string s =>
      match resolveSingleIdx key s.toList.length with
      | some idx =>
        match value with
        | .char c => (some (), .string (assignStringChar s idx c))
        | other => (some (), .list ((charValues s).set idx other))
      | none => commit target do
        assignStringBulk s (← resolveManyIdx key s.toList.length) value
    | .list items =>
      match resolveSingleIdx key items.length with
      | some idx => (some (), .list (items.set idx value))
      | none => commit target do
        return .list (← assignListBulk items (← resolveManyIdx key items.length) value)
    | .dict entries =>
      match key with
      | .tag s => (some (), .dict (IndexMap.insert entries s value))
      | key =>
        match resolveSingleIdx key entries.length with
        | some idx => (some (), .dict (IndexMap.setAt entries idx value))
        | none =>
          match key with
          | .list keys =>
            match normalizeDictBulkKeys keys entries.length with
            | some keys => (assignDictBulk entries keys value).map id .dict
            | none => (none, target)
          | key =>
            match resolveManyIdx key entries.length with
            | some idxs => (assignDictBulk entries (idxs.map .position) value).map id .dict
            | none => (none, target)
    | _ => (none, target)

/-- `Value::assign_by_index`. -/
def assignByIndex (target key value : Value) : Option Unit × Value :=
  assignMaterialized (materializeIntRange target) key value

/-- `Value::assign_by_indices` with two keys or more, after a range is made a
list. -/
def assignManyMaterialized (target : Value) (keys : List Value) (value : Value) :
    Option Unit × Value :=
  match packedListLen target with
  | some len => commit target do
    assignPackedListIndices target (← normalizeListIndices keys len) .bulk value
  | none =>
    match target with
    | .string s => commit target do
      assignStringBulk s (← normalizeListIndices keys s.toList.length) value
    | .list items => commit target do
      return .list (← assignListBulk items (← normalizeListIndices keys items.length) value)
    | .dict entries =>
      match normalizeDictBulkKeys keys entries.length with
      | some keys => (assignDictBulk entries keys value).map id .dict
      | none => (none, target)
    | _ => (none, target)

/-- `Value::assign_by_indices`. -/
def assignByIndices (target : Value) (keys : List Value) (value : Value) : Option Unit × Value :=
  match keys with
  | [] => (none, target)
  | [key] => target.assignByIndex key value
  | keys => assignManyMaterialized (materializeIntRange target) keys value

end Value

end Wqpl
