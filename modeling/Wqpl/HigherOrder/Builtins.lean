/-
# Higher-order builtins, run synchronously

The builtins that call back into user code (`apply`, `map`, `fold`, `scan`,
`rscan`, `any`, `all`, `filter`, `zipw`, `splitw`, `findw`, `rfindw`), as
recursive functions that ask for a callback and go on with its result. A
callback may be answered by a pure plan of the callee instead of a call; both
are the one question `callFn` here.
-/
import Wqpl.Dialogue
import Wqpl.Broadcast

namespace Wqpl

/-- A callback: the callee and its arguments. -/
abbrev HoCall := Value × List Value

/-- Builtins that call back. -/
abbrev HoM := Dialogue HoCall Value WqErrorType

instance : Inhabited WqErrorType := ⟨.vm⟩

instance : MonadExcept WqErrorType HoM where
  throw e := Dialogue.fail e
  tryCatch t handle := Dialogue.orElse t handle

structure BuiltinFnArgs where
  pos : List Value
  named : List (String × Value)

namespace BuiltinFnArgs

/-- `BuiltinFnArgs::named`. -/
def getNamed (args : BuiltinFnArgs) (name : String) : Option Value :=
  (args.named.find? fun p => p.1 = name).map Prod.snd

end BuiltinFnArgs

inductive HoBuiltin
  | apply | map | fold | scan | rscan | any | all | filter | zipw | splitw | findw | rfindw
deriving DecidableEq, Repr

/-! ### Argument checks -/

/-- The numbers of positional arguments of the signature. -/
def HoBuiltin.arity : HoBuiltin → List Nat
  | .apply => [2]
  | .map => [2, 3]
  | .fold => [2, 3]
  | .scan => [2, 3]
  | .rscan => [2, 3]
  | .any => [2, 3]
  | .all => [2, 3]
  | .filter => [2]
  | .zipw => [3, 4]
  | .splitw => [2]
  | .findw => [2, 3, 4]
  | .rfindw => [2, 3, 4]

/-- The named arguments of the signature. -/
def HoBuiltin.namedArgs : HoBuiltin → List String
  | .splitw => ["max"]
  | _ => []

namespace Ho

/-- `validate_runtime_call_args`, which both ways of running a builtin start
with. -/
def validateRuntimeCallArgs (b : HoBuiltin) (args : BuiltinFnArgs) : WqResult Unit :=
  if ¬(args.named.map Prod.fst).Nodup then .error .arity
  else if args.named.any fun p => p.1 ∉ b.namedArgs then .error .arity
  else if args.pos.length ∉ b.arity then .error .arity
  else .ok ()

def parseMaxsplit : Option Value → WqResult (Option Nat)
  | none => .ok none
  | some (.int n) => if 0 ≤ n.toInt then .ok (some n.toInt.toNat) else .error .domain
  | some (.float f) => if f.isInfinite && !f.signBit then .ok none else .error .domain
  | some _ => .error .domain

def parseNonNegativeIntOrInf : Value → WqResult Int
  | .int n => if 0 ≤ n.toInt then .ok n.toInt else .error .domain
  | .float f => if f.isInfinite && !f.signBit then .ok (2 ^ 63 - 1) else .error .domain
  | _ => .error .domain

/-- The number of layers to go down, counted from the leaves when negative. -/
def effLayers (rawD : Value) (totalDepth : Int) : Option Int :=
  match rawD with
  | .int n => some (if 0 ≤ n.toInt then min n.toInt totalDepth else max (totalDepth + n.toInt) 0)
  | .float f =>
    if f.isInfinite && !f.signBit then some totalDepth
    else if f.isInfinite && f.signBit then some 0
    else none
  | _ => none

/-- `map_effective_layers` and `predicate_effective_layers`. -/
def effectiveLayers (xs d : Value) : WqResult Int :=
  match effLayers d xs.depth with
  | some el => .ok el
  | none => .error .domain

def zipwEffectiveLayers (xs ys d : Value) : WqResult Int :=
  match effLayers d (max xs.depth ys.depth) with
  | some el => .ok el
  | none => .error .domain

/-- The limit of splits; `usize::MAX` when there is none. -/
def splitwLimit (args : BuiltinFnArgs) : WqResult Nat := do
  let maxsplit ← parseMaxsplit (args.getNamed "max")
  return maxsplit.getD (2 ^ 64 - 1)

/-- The threshold and the depth. -/
def findwParameters : List Value → WqResult (Int × Int)
  | [_, _] => .ok (1, 1)
  | [_, _, t] => do return (← parseNonNegativeIntOrInf t, 1)
  | [_, _, t, d] => do return (← parseNonNegativeIntOrInf t, ← parseNonNegativeIntOrInf d)
  | _ => .error .arity

/-! ### Callbacks -/

def callFn (f : Value) (args : List Value) : HoM Value := Dialogue.query (f, args)

/-- `predicate_result`. -/
def predicateResult : Value → WqResult Bool
  | .bool b => .ok b
  | _ => .error .domain

def callPredicate (f item : Value) : HoM Bool := do
  let pred ← callFn f [item]
  Dialogue.lift (predicateResult pred)

/-! ### apply and map -/

def apply (fs x : Value) : HoM Value :=
  match fs with
  | .list items => do return Value.fromItems (← items.mapM fun f => callFn f [x])
  | fs => do return Value.fromItems [← callFn fs [x]]

def applyDiscard (fs x : Value) : HoM Value := do
  match fs with
  | .list items => items.forM fun f => Value.ignore (callFn f [x])
  | fs => Value.ignore (callFn fs [x])
  return Value.emptyList

def map (xs f d : Value) : HoM Value := do
  let el ← Dialogue.lift (effectiveLayers xs d)
  Value.bc1Until (.atomOrDepth el) (fun v => callFn f [v]) 0 xs

def mapDiscard (xs f d : Value) : HoM Value := do
  let el ← Dialogue.lift (effectiveLayers xs d)
  Value.bc1ForEachUntil (.atomOrDepth el) (fun v => callFn f [v]) 0 xs
  return Value.emptyList

/-! ### any and all -/

/-- Stops at the first item with the answer `modeAny`. -/
def anyAllSearch (test : Value → HoM Bool) (modeAny : Bool) : List Value → HoM Bool
  | [] => return !modeAny
  | v :: vs => do
    if (← test v) = modeAny then return modeAny
    anyAllSearch test modeAny vs

mutual

/-- `any_all_at_depth`. The items of a packed list are atoms. -/
def anyAllAtDepth (f : Value) (maxDepth : Int) (modeAny : Bool) (depth : Nat) (v : Value) :
    HoM Bool :=
  if maxDepth ≤ depth ∨ v.isAtom then callPredicate f v
  else
    match v with
    | .list items => anyAllItems f maxDepth modeAny (depth + 1) items
    | .intList items => anyAllSearch (callPredicate f) modeAny (items.map .int)
    | .intRange range => anyAllSearch (callPredicate f) modeAny (range.toVec.map .int)
    | .floatList items => anyAllSearch (callPredicate f) modeAny (items.map .float)
    | .boolList items => anyAllSearch (callPredicate f) modeAny (items.map .bool)
    | .string s => anyAllSearch (callPredicate f) modeAny (s.toList.map .char)
    | .dict entries => anyAllEntries f maxDepth modeAny (depth + 1) entries
    | v => callPredicate f v

def anyAllItems (f : Value) (maxDepth : Int) (modeAny : Bool) (depth : Nat) :
    List Value → HoM Bool
  | [] => return !modeAny
  | v :: vs => do
    if (← anyAllAtDepth f maxDepth modeAny depth v) = modeAny then return modeAny
    anyAllItems f maxDepth modeAny depth vs

def anyAllEntries (f : Value) (maxDepth : Int) (modeAny : Bool) (depth : Nat) :
    List (String × Value) → HoM Bool
  | [] => return !modeAny
  | (_, v) :: es => do
    if (← anyAllAtDepth f maxDepth modeAny depth v) = modeAny then return modeAny
    anyAllEntries f maxDepth modeAny depth es

end

theorem anyAllItems_eq (f : Value) (maxDepth : Int) (modeAny : Bool) (depth : Nat) :
    ∀ vs : List Value, anyAllItems f maxDepth modeAny depth vs =
      anyAllSearch (anyAllAtDepth f maxDepth modeAny depth) modeAny vs := by
  intro vs
  induction vs with
  | nil => rw [anyAllItems, anyAllSearch]
  | cons v vs ih => rw [anyAllItems, anyAllSearch, ih]

theorem anyAllEntries_eq (f : Value) (maxDepth : Int) (modeAny : Bool) (depth : Nat) :
    ∀ es : List (String × Value), anyAllEntries f maxDepth modeAny depth es =
      anyAllSearch (anyAllAtDepth f maxDepth modeAny depth) modeAny (es.map Prod.snd)
  | [] => by rw [anyAllEntries, List.map_nil, anyAllSearch]
  | (k, v) :: es => by
    rw [anyAllEntries, List.map_cons, anyAllSearch, anyAllEntries_eq f maxDepth modeAny depth es]

theorem anyAllAtDepth_leaf {f : Value} {maxDepth : Int} {depth : Nat} {v : Value}
    (modeAny : Bool) (h : maxDepth ≤ depth ∨ v.isAtom) :
    anyAllAtDepth f maxDepth modeAny depth v = callPredicate f v := by
  rw [anyAllAtDepth.eq_def, if_pos h]

theorem anyAllSearch_congr {test test' : Value → HoM Bool} (modeAny : Bool) :
    ∀ vs : List Value, (∀ v ∈ vs, test v = test' v) →
      anyAllSearch test modeAny vs = anyAllSearch test' modeAny vs
  | [], _ => rfl
  | v :: vs, h => by
    rw [anyAllSearch, anyAllSearch, h v List.mem_cons_self,
      anyAllSearch_congr modeAny vs fun x hx => h x (List.mem_cons_of_mem v hx)]

/-- A container above the depth limit is searched item by item. -/
theorem anyAllAtDepth_container {f : Value} {maxDepth : Int} {depth : Nat} {v : Value}
    (modeAny : Bool) (h : ¬(maxDepth ≤ depth ∨ v.isAtom)) :
    anyAllAtDepth f maxDepth modeAny depth v =
      anyAllSearch (anyAllAtDepth f maxDepth modeAny (depth + 1)) modeAny v.containerItems := by
  rw [anyAllAtDepth.eq_def, if_neg h]
  have packed : ∀ {seq}, ValueSeq.fromValue v = some seq → (∀ items, v ≠ .list items) →
      anyAllSearch (callPredicate f) modeAny seq.values =
        anyAllSearch (anyAllAtDepth f maxDepth modeAny (depth + 1)) modeAny v.containerItems := by
    intro seq hs hl
    rw [Value.containerItems_of_fromValue hs]
    refine anyAllSearch_congr modeAny _ fun x hx => ?_
    exact (anyAllAtDepth_leaf modeAny (.inr (Value.isAtom_of_mem_values hs hx hl))).symm
  cases v with
  | list items => exact anyAllItems_eq f maxDepth modeAny (depth + 1) items
  | dict entries => exact anyAllEntries_eq f maxDepth modeAny (depth + 1) entries
  | intList items => exact packed rfl (by simp)
  | intRange range => exact packed rfl (by simp)
  | floatList items => exact packed rfl (by simp)
  | boolList items => exact packed rfl (by simp)
  | string s => exact packed rfl (by simp)
  | _ => exact absurd (.inr rfl) h

/-- `any`, and `all` with `modeAny` false. -/
def anyAll (modeAny : Bool) (xs f d : Value) : HoM Value := do
  let maxDepth ← Dialogue.lift (effectiveLayers xs d)
  return .bool (← anyAllAtDepth f maxDepth modeAny 0 xs)

/-! ### fold, scan and rscan -/

/-- The items a fold runs over: those of a sequence or the values of a
dictionary; none for an atom. -/
def foldSource (xs : Value) : Option (List Value) :=
  match ValueSeq.fromValue xs with
  | some seq => some seq.values
  | none =>
    match xs with
    | .dict entries => some (entries.map Prod.snd)
    | _ => none

def foldItems (f : Value) : Value → List Value → HoM Value
  | acc, [] => return acc
  | acc, item :: items => do foldItems f (← callFn f [acc, item]) items

def fold (xs f : Value) (init : Option Value) : HoM Value :=
  match foldSource xs, init with
  | none, _ => return xs
  | some [], none => return Value.emptyList
  | some (first :: items), none => foldItems f first items
  | some items, some acc => foldItems f acc items

/-- The results after `acc`. -/
def scanItems (f : Value) : Value → List Value → HoM (List Value)
  | _, [] => return []
  | acc, item :: items => do
    let acc ← callFn f [acc, item]
    let results ← scanItems f acc items
    return acc :: results

/-- The results of a scan over the items in the order given. -/
def scanResults (f : Value) : List Value → Option Value → HoM (List Value)
  | [], none => return []
  | first :: items, none => do return first :: (← scanItems f first items)
  | items, some acc => scanItems f acc items

def scan (xs f : Value) (init : Option Value) : HoM Value :=
  match foldSource xs with
  | none => return xs
  | some items => do return Value.fromItems (← scanResults f items init)

def rscan (xs f : Value) (init : Option Value) : HoM Value :=
  match foldSource xs with
  | none => return xs
  | some items => do return Value.fromItems (← scanResults f items.reverse init).reverse

/-! ### filter -/

/-- The keyed items of a source. -/
def filterItems {K : Type} (f : Value) : List (K × Value) → HoM (List (K × Value))
  | [] => return []
  | (k, item) :: items => do
    let keep ← callPredicate f item
    let kept ← filterItems f items
    return if keep then (k, item) :: kept else kept

def filter (xs f : Value) : HoM Value :=
  match ValueSeq.fromValue xs with
  | some seq => do
    let kept ← filterItems f (seq.values.map fun v => ((), v))
    return Value.fromItems (kept.map Prod.snd)
  | none =>
    match xs with
    | .dict entries => do return .dict (IndexMap.collect (← filterItems f entries))
    | xs => return xs

def filterDiscard (xs f : Value) : HoM Value :=
  match ValueSeq.fromValue xs with
  | some seq => do
    Value.ignore (filterItems f (seq.values.map fun v => ((), v)))
    return Value.emptyList
  | none =>
    match xs with
    | .dict entries => do
      Value.ignore (filterItems f entries)
      return Value.emptyList
    | _ => return Value.emptyList

/-! ### zipw -/

def zipw (xs ys f d : Value) : HoM Value := do
  let el ← Dialogue.lift (zipwEffectiveLayers xs ys d)
  Value.bc2Until (.bothAtomOrDepth el) (fun a b => callFn f [a, b]) 0 xs ys

/-! ### splitw -/

/-- The characters of a chunk of characters. -/
def chunkChars (items : List Value) : List Char :=
  items.filterMap fun v =>
    match v with
    | .char c => some c
    | _ => none

/-- The loop the four branches of `splitw` share, up to how a chunk of items
becomes a value. -/
def splitLoop (f : Value) (limit : Nat) (finishChunk : List Value → Value) :
    List Value → Nat → List Value → List Value → HoM (List Value)
  | [], _, current, chunks => return chunks ++ [finishChunk current]
  | item :: items, splitsDone, current, chunks => do
    let pred ← callFn f [item]
    match pred.tryToRustBool with
    | some true =>
      if splitsDone < limit then
        splitLoop f limit finishChunk items (splitsDone + 1) [] (chunks ++ [finishChunk current])
      else splitLoop f limit finishChunk items splitsDone (current ++ [item]) chunks
    | some false => splitLoop f limit finishChunk items splitsDone (current ++ [item]) chunks
    | none => throw .domain

def splitw (args : BuiltinFnArgs) (xs f : Value) : HoM Value := do
  let limit ← Dialogue.lift (splitwLimit args)
  match xs with
  | .string s => do
    return Value.fromItems (← splitLoop f limit (Value.intoWqString ∘ chunkChars)
      (s.toList.map .char) 0 [] [])
  | .list items =>
    if xs.isString then do
      return Value.fromItems (← splitLoop f limit (Value.intoWqString ∘ chunkChars) items 0 [] [])
    else do return .list (← splitLoop f limit .list items 0 [] [])
  | .intList items => do
    return .list (← splitLoop f limit Value.fromItems (items.map .int) 0 [] [])
  | .intRange range => do
    return .list (← splitLoop f limit Value.fromItems (range.toVec.map .int) 0 [] [])
  | .floatList items => do
    return .list (← splitLoop f limit Value.fromItems (items.map .float) 0 [] [])
  | .boolList items => do
    return .list (← splitLoop f limit Value.fromItems (items.map .bool) 0 [] [])
  | _ => throw .domain

/-! ### findw and rfindw -/

structure FindWithCtx where
  func : Value
  maxDepth : Int
  threshold : Int
  reverse : Bool

/-- `usize::try_from(threshold).is_ok_and(|t| results_len >= t)`. -/
def findwithThresholdReached (resultsLen : Nat) (threshold : Int) : Bool :=
  decide (0 ≤ threshold ∧ threshold ≤ resultsLen)

/-- `idx as i64`. -/
def idxAsI64 (idx : Nat) : Int64 := Int64.ofNat idx

/-- One item: the results so far, and whether the search of its container is
over. `search` goes on below the item. -/
def findVisit (ctx : FindWithCtx) (depth : Nat) (path : List Int64)
    (search : List Int64 → List Value → HoM (List Value)) (idx : Nat) (item : Value)
    (results : List Value) : HoM (List Value × Bool) := do
  if findwithThresholdReached results.length ctx.threshold then return (results, true)
  let path := path ++ [idxAsI64 idx]
  if ← callPredicate ctx.func item then
    let results := results ++ [.intList path]
    return (results, findwithThresholdReached results.length ctx.threshold)
  else if depth < ctx.maxDepth then return (← search path results, false)
  else return (results, false)

/-- Visits in order until one says that the search is over. -/
def findRun : List (List Value → HoM (List Value × Bool)) → List Value → HoM (List Value)
  | [], results => return results
  | visit :: visits, results => do
    let (results, stop) ← visit results
    if stop then return results
    findRun visits results

/-- The visits of a container in the direction of the search. -/
def findDirected (ctx : FindWithCtx) (visits : List (List Value → HoM (List Value × Bool))) :
    List (List Value → HoM (List Value × Bool)) :=
  if ctx.reverse then visits.reverse else visits

/-- `findwith_search` of an atom. -/
def findAtom (ctx : FindWithCtx) (v : Value) (path : List Int64) (results : List Value) :
    HoM (List Value) := do
  if findwithThresholdReached results.length ctx.threshold then return results
  if ← callPredicate ctx.func v then return results ++ [.intList path]
  return results

/-- The visits of the items of a packed list, which are atoms. -/
def findAtomVisits (ctx : FindWithCtx) (depth : Nat) (path : List Int64) :
    Nat → List Value → List (List Value → HoM (List Value × Bool))
  | _, [] => []
  | idx, v :: vs =>
    findVisit ctx depth path (findAtom ctx v) idx v :: findAtomVisits ctx depth path (idx + 1) vs

mutual

def findwithSearch (ctx : FindWithCtx) (depth : Nat) (v : Value) (path : List Int64)
    (results : List Value) : HoM (List Value) :=
  if findwithThresholdReached results.length ctx.threshold then return results
  else
    match v with
    | .list items => findRun (findDirected ctx (findVisits ctx depth path 0 items)) results
    | .intList items =>
      findRun (findDirected ctx (findAtomVisits ctx depth path 0 (items.map .int))) results
    | .intRange range =>
      findRun (findDirected ctx (findAtomVisits ctx depth path 0 (range.toVec.map .int))) results
    | .floatList items =>
      findRun (findDirected ctx (findAtomVisits ctx depth path 0 (items.map .float))) results
    | .boolList items =>
      findRun (findDirected ctx (findAtomVisits ctx depth path 0 (items.map .bool))) results
    | .string s =>
      findRun (findDirected ctx (findAtomVisits ctx depth path 0 (s.toList.map .char))) results
    | .dict entries =>
      findRun (findDirected ctx (findEntryVisits ctx depth path 0 entries)) results
    | v => findAtom ctx v path results

def findVisits (ctx : FindWithCtx) (depth : Nat) (path : List Int64) :
    Nat → List Value → List (List Value → HoM (List Value × Bool))
  | _, [] => []
  | idx, v :: vs =>
    findVisit ctx depth path (findwithSearch ctx (depth + 1) v) idx v ::
      findVisits ctx depth path (idx + 1) vs

def findEntryVisits (ctx : FindWithCtx) (depth : Nat) (path : List Int64) :
    Nat → List (String × Value) → List (List Value → HoM (List Value × Bool))
  | _, [] => []
  | idx, (_, v) :: es =>
    findVisit ctx depth path (findwithSearch ctx (depth + 1) v) idx v ::
      findEntryVisits ctx depth path (idx + 1) es

end

/-- `findw`, and `rfindw` with `reverse`. -/
def findw (reverse : Bool) (args : List Value) (xs f : Value) : HoM Value := do
  let (threshold, maxDepth) ← Dialogue.lift (findwParameters args)
  let ctx : FindWithCtx := { func := f, maxDepth, threshold, reverse }
  return .list (← findwithSearch ctx 0 xs [] [])

/-! ### Dispatch -/

/-- The function of a builtin on validated arguments. -/
def invoke (b : HoBuiltin) (args : BuiltinFnArgs) : HoM Value :=
  match b, args.pos with
  | .apply, [fs, x] => apply fs x
  | .map, [xs, f] => map xs f (.int 1)
  | .map, [xs, f, d] => map xs f d
  | .fold, [xs, f] => fold xs f none
  | .fold, [xs, f, acc] => fold xs f (some acc)
  | .scan, [xs, f] => scan xs f none
  | .scan, [xs, f, acc] => scan xs f (some acc)
  | .rscan, [xs, f] => rscan xs f none
  | .rscan, [xs, f, acc] => rscan xs f (some acc)
  | .any, [xs, f] => anyAll true xs f (.int 1)
  | .any, [xs, f, d] => anyAll true xs f d
  | .all, [xs, f] => anyAll false xs f (.int 1)
  | .all, [xs, f, d] => anyAll false xs f d
  | .filter, [xs, f] => filter xs f
  | .zipw, [xs, ys, f] => zipw xs ys f (.int 1)
  | .zipw, [xs, ys, f, d] => zipw xs ys f d
  | .splitw, [xs, f] => splitw args xs f
  | .findw, xs :: f :: _ => findw false args.pos xs f
  | .rfindw, xs :: f :: _ => findw true args.pos xs f
  | _, _ => throw .arity

/-- `discard_fn`: the builtins with a variant that drops its results. -/
def discardFn (b : HoBuiltin) (args : BuiltinFnArgs) : Option (HoM Value) :=
  match b, args.pos with
  | .apply, [fs, x] => some (applyDiscard fs x)
  | .map, [xs, f] => some (mapDiscard xs f (.int 1))
  | .map, [xs, f, d] => some (mapDiscard xs f d)
  | .filter, [xs, f] => some (filterDiscard xs f)
  | _, _ => none

/-- `call_builtin_id`, and `call_builtin_discard_id` for a call whose value is
not used. -/
def callSync (b : HoBuiltin) (discarded : Bool) (args : BuiltinFnArgs) : HoM Value := do
  Dialogue.lift (validateRuntimeCallArgs b args)
  if discarded then
    match discardFn b args with
    | some run => run
    | none => do
      Value.ignore (invoke b args)
      return Value.emptyList
  else invoke b args

end Ho

end Wqpl
