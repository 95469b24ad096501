/-
# Higher-order builtins, run cooperatively

When the interpreter may be paused, the builtins that call back run as frames
of the machine: each keeps what it still has to do in its state and either
goes on, asks for a callback, or is ready. A stack of tasks is a list with
its top first.
-/
import Wqpl.HigherOrder.Builtins

namespace Wqpl
namespace Ho

/-- What a step of a frame in the state `S` does. -/
abbrev BuiltinFrameAction (S : Type) := Dialogue.Action S HoCall Value WqErrorType Value

/-! ### apply -/

structure ApplyFrame where
  funcs : List Value
  arg : Value
  next : Nat
  discard : Bool
  results : List Value
  callbackResult : Option Value

namespace ApplyFrame

def new (fs arg : Value) (discard : Bool) : ApplyFrame where
  funcs :=
    match fs with
    | .list funcs => funcs
    | func => [func]
  arg := arg
  next := 0
  discard := discard
  results := []
  callbackResult := none

def acceptCallbackResult (s : ApplyFrame) (value : Value) : ApplyFrame :=
  { s with callbackResult := some value }

def step (s : ApplyFrame) : BuiltinFrameAction ApplyFrame :=
  match s.callbackResult with
  | some value =>
    .silent { s with
      callbackResult := none
      results := if s.discard then s.results else s.results ++ [value] }
  | none =>
    match s.funcs[s.next]? with
    | some func => .call (func, [s.arg]) ({ s with next := s.next + 1 }).acceptCallbackResult
    | none => .ready (.ok (if s.discard then Value.emptyList else Value.fromItems s.results))

end ApplyFrame

/-! ### fold, scan and rscan -/

inductive ItemSource
  | sequence (value : Value)
  | dict (entries : List (String × Value))

namespace ItemSource

/-- The source of a container, `none` for an atom. -/
def fromValue (value : Value) : Option ItemSource :=
  if (ValueSeq.fromValue value).isSome then some (sequence value)
  else
    match value with
    | .dict entries => some (dict entries)
    | _ => none

def len : ItemSource → Nat
  | sequence value => ((ValueSeq.fromValue value).map ValueSeq.len).getD 0
  | dict entries => entries.length

def get : ItemSource → Nat → Option Value
  | sequence value, index => (ValueSeq.fromValue value).bind (·.get index)
  | dict entries, index => entries[index]?.map Prod.snd

def key : ItemSource → Nat → Option String
  | sequence _, _ => none
  | dict entries, index => entries[index]?.map Prod.fst

end ItemSource

inductive FoldScanKind
  | fold | scan | rscan
deriving DecidableEq

structure FoldScanFrame where
  kind : FoldScanKind
  source : Option ItemSource
  func : Value
  next : Option Nat
  acc : Option Value
  results : List Value
  callbackResult : Option Value
  readyValue : Option Value
  discard : Bool

/-- `index.checked_sub(1)`. -/
def checkedPred : Nat → Option Nat
  | 0 => none
  | n + 1 => some n

namespace FoldScanFrame

/-- The index after `index`, in the direction of the kind. -/
def nextIndex (kind : FoldScanKind) (len index : Nat) : Option Nat :=
  if kind = .rscan then checkedPred index
  else if index + 1 < len then some (index + 1)
  else none

def new (kind : FoldScanKind) (xs func : Value) (initial : Option Value) (discard : Bool) :
    FoldScanFrame :=
  let frame : FoldScanFrame :=
    { kind, source := ItemSource.fromValue xs, func, next := none, acc := initial, results := [],
      callbackResult := none
      readyValue := if (ItemSource.fromValue xs).isSome then none else some xs
      discard }
  match frame.source with
  | none => frame
  | some source =>
    let len := source.len
    let first := if kind = .rscan then len - 1 else 0
    if len = 0 then frame
    else if frame.acc.isNone then
      { frame with
        acc := source.get first
        results := if kind = .fold then [] else (source.get first).toList
        next := nextIndex kind len first }
    else { frame with next := some first }

def acceptCallbackResult (s : FoldScanFrame) (value : Value) : FoldScanFrame :=
  { s with callbackResult := some value }

def step (s : FoldScanFrame) : BuiltinFrameAction FoldScanFrame :=
  match s.callbackResult with
  | some value =>
    .silent { s with
      callbackResult := none
      acc := some value
      results := if s.kind ≠ .fold ∧ !s.discard then s.results ++ [value] else s.results }
  | none =>
    match s.readyValue with
    | some value => .ready (.ok (if s.discard then Value.emptyList else value))
    | none =>
      match s.next with
      | some index =>
        match s.source.bind (·.get index), s.acc with
        | some item, some acc =>
          .call (s.func, [acc, item])
            ({ s with next := nextIndex s.kind ((s.source.map ItemSource.len).getD 0) index
              }).acceptCallbackResult
        | _, _ => .ready (.error .vm) -- excluded by the `expect`s of the source
      | none =>
        .ready (.ok
          (if s.discard then Value.emptyList
          else if s.kind = .fold then s.acc.getD Value.emptyList
          else Value.fromItems (if s.kind = .rscan then s.results.reverse else s.results)))

end FoldScanFrame

/-! ### filter -/

/-- `predicate_bool`, the frames' own copy of `predicate_result`. -/
def predicateBool : Value → WqResult Bool
  | .bool b => .ok b
  | _ => .error .domain

structure FilterFrame where
  source : Option ItemSource
  func : Value
  next : Nat
  current : Option (Option String × Value)
  callbackResult : Option Value
  kept : List (Option String × Value)
  readyValue : Option Value
  discard : Bool

namespace FilterFrame

def new (xs func : Value) (discard : Bool) : FilterFrame where
  source := ItemSource.fromValue xs
  func := func
  next := 0
  current := none
  callbackResult := none
  kept := []
  readyValue := if (ItemSource.fromValue xs).isSome then none else some xs
  discard := discard

def acceptCallbackResult (s : FilterFrame) (value : Value) : FilterFrame :=
  { s with callbackResult := some value }

def step (s : FilterFrame) : BuiltinFrameAction FilterFrame :=
  match s.callbackResult with
  | some predicate =>
    match predicateBool predicate with
    | .error e => .ready (.error e)
    | .ok keep =>
      .silent { s with
        callbackResult := none
        current := none
        kept := if keep && !s.discard then s.kept ++ s.current.toList else s.kept }
  | none =>
    match s.readyValue with
    | some value => .ready (.ok (if s.discard then Value.emptyList else value))
    | none =>
      match s.source with
      | none => .ready (.error .vm) -- excluded by the `expect` of the source
      | some source =>
        match source.get s.next with
        | some item =>
          .call (s.func, [item])
            ({ s with
              next := s.next + 1
              current := some (source.key s.next, item) }).acceptCallbackResult
        | none =>
          .ready (.ok
            (if s.discard then Value.emptyList
            else
              match source with
              | .dict _ =>
                .dict (IndexMap.collect (s.kept.map fun p => (p.1.getD "", p.2)))
              | .sequence _ => Value.fromItems (s.kept.map Prod.snd)))

end FilterFrame

/-! ### any and all -/

inductive PredicateTask
  | visit (value : Value) (depth : Int)
  | sequence (value : Value) (depth : Int) (next len : Nat)
  | dict (entries : List (String × Value)) (depth : Int) (next : Nat)

structure PredicateFrame where
  modeAny : Bool
  func : Value
  maxDepth : Int
  tasks : List PredicateTask
  callbackResult : Option Value

namespace PredicateFrame

def new (modeAny : Bool) (xs func depth : Value) : WqResult PredicateFrame := do
  let maxDepth ← effectiveLayers xs depth
  return { modeAny, func, maxDepth, tasks := [.visit xs 0], callbackResult := none }

def acceptCallbackResult (s : PredicateFrame) (value : Value) : PredicateFrame :=
  { s with callbackResult := some value }

/-- One task off the stack. -/
def stepTask (s : PredicateFrame) (tasks : List PredicateTask) :
    PredicateTask → BuiltinFrameAction PredicateFrame
  | .visit value depth =>
    if value.isAtom ∨ s.maxDepth ≤ depth then
      .call (s.func, [value]) ({ s with tasks }).acceptCallbackResult
    else
      match ValueSeq.fromValue value with
      | some seq => .silent { s with tasks := .sequence value depth 0 seq.len :: tasks }
      | none =>
        match value with
        | .dict entries => .silent { s with tasks := .dict entries depth 0 :: tasks }
        | _ => .ready (.error .vm) -- unreachable: an atom
  | .sequence value depth next len =>
    if next < len then
      match (ValueSeq.fromValue value).bind (·.get next) with
      | some item =>
        .silent { s with
          tasks := .visit item (depth + 1) :: .sequence value depth (next + 1) len :: tasks }
      | none => .ready (.error .vm) -- excluded by the `expect` of the source
    else .silent { s with tasks }
  | .dict entries depth next =>
    match entries[next]? with
    | some (_, item) =>
      .silent { s with
        tasks := .visit item (depth + 1) :: .dict entries depth (next + 1) :: tasks }
    | none => .silent { s with tasks }

def step (s : PredicateFrame) : BuiltinFrameAction PredicateFrame :=
  match s.callbackResult with
  | some predicate =>
    match predicateBool predicate with
    | .error e => .ready (.error e)
    | .ok value =>
      if value = s.modeAny then .ready (.ok (.bool value))
      else .silent { s with callbackResult := none }
  | none =>
    match s.tasks with
    | [] => .ready (.ok (.bool !s.modeAny))
    | task :: tasks => s.stepTask tasks task

end PredicateFrame

/-! ### map -/

inductive MapTask
  | visit (value : Value) (depth : Int)
  | sequence (value : Value) (depth : Int) (next len resultStart : Nat)
  | dict (entries : List (String × Value)) (depth : Int) (next resultStart : Nat)

structure MapFrame where
  func : Value
  maxDepth : Int
  discard : Bool
  tasks : List MapTask
  results : List Value
  callbackResult : Option Value

/-- `drain(start..)` and push of what `build` makes of the drained items. -/
def foldResults (discard : Bool) (results : List Value) (start : Nat)
    (build : List Value → Value) : List Value :=
  if discard then results else results.take start ++ [build (results.drop start)]

namespace MapFrame

def new (xs func depth : Value) (discard : Bool) : WqResult MapFrame := do
  let maxDepth ← effectiveLayers xs depth
  return { func, maxDepth, discard, tasks := [.visit xs 0], results := [], callbackResult := none }

def acceptCallbackResult (s : MapFrame) (value : Value) : MapFrame :=
  { s with callbackResult := some value }

/-- One task off the stack. -/
def stepTask (s : MapFrame) (tasks : List MapTask) : MapTask → BuiltinFrameAction MapFrame
  | .visit value depth =>
    if value.isAtom ∨ s.maxDepth ≤ depth then
      .call (s.func, [value]) ({ s with tasks }).acceptCallbackResult
    else
      match ValueSeq.fromValue value with
      | some seq =>
        .silent { s with tasks := .sequence value depth 0 seq.len s.results.length :: tasks }
      | none =>
        match value with
        | .dict entries =>
          .silent { s with tasks := .dict entries depth 0 s.results.length :: tasks }
        | _ => .ready (.error .vm) -- unreachable: an atom
  | .sequence value depth next len resultStart =>
    if next < len then
      match (ValueSeq.fromValue value).bind (·.get next) with
      | some item =>
        .silent { s with
          tasks := .visit item (depth + 1) ::
            .sequence value depth (next + 1) len resultStart :: tasks }
      | none => .ready (.error .vm) -- excluded by the `expect` of the source
    else
      .silent { s with
        tasks
        results := foldResults s.discard s.results resultStart Value.fromItems }
  | .dict entries depth next resultStart =>
    match entries[next]? with
    | some (_, item) =>
      .silent { s with
        tasks := .visit item (depth + 1) :: .dict entries depth (next + 1) resultStart :: tasks }
    | none =>
      .silent { s with
        tasks
        results := foldResults s.discard s.results resultStart
          (Value.withKeys (entries.map Prod.fst)) }

def step (s : MapFrame) : BuiltinFrameAction MapFrame :=
  match s.callbackResult with
  | some value =>
    .silent { s with
      callbackResult := none
      results := if s.discard then s.results else s.results ++ [value] }
  | none =>
    match s.tasks with
    | [] =>
      if s.discard then .ready (.ok Value.emptyList)
      else
        match s.results.getLast? with
        | some value => .ready (.ok value)
        | none => .ready (.error .vm) -- excluded by the `expect` of the source
    | task :: tasks => s.stepTask tasks task

end MapFrame

/-! ### zipw -/

def containerLen (value : Value) : Option Nat :=
  match ValueSeq.fromValue value with
  | some seq => some seq.len
  | none =>
    match value with
    | .dict entries => some entries.length
    | _ => none

def containerGet (value : Value) (index : Nat) : Option Value :=
  match (ValueSeq.fromValue value).bind (·.get index) with
  | some item => some item
  | none =>
    match value with
    | .dict entries => entries[index]?.map Prod.snd
    | _ => none

inductive ZipTask
  | visit (left right : Value) (depth : Int)
  | container (left right : Value) (depth : Int) (next len resultStart : Nat)
      (keys : Option (List String))

structure ZipFrame where
  func : Value
  maxDepth : Int
  discard : Bool
  tasks : List ZipTask
  results : List Value
  callbackResult : Option Value

namespace ZipFrame

def new (left right func depth : Value) (discard : Bool) : WqResult ZipFrame := do
  let maxDepth ← zipwEffectiveLayers left right depth
  return { func, maxDepth, discard, tasks := [.visit left right 0], results := []
           callbackResult := none }

def acceptCallbackResult (s : ZipFrame) (value : Value) : ZipFrame :=
  { s with callbackResult := some value }

/-- The number of pairs of two containers, or of an atom with a container. -/
def pairCount (left right : Value) : WqResult Nat :=
  match containerLen left, containerLen right with
  | none, some len => .ok len
  | some len, none => .ok len
  | some leftLen, some rightLen => if leftLen = rightLen then .ok leftLen else .error .length
  | none, none => .error .vm -- unreachable: a pair of atoms

/-- The keys of the result; those of two dictionaries must agree. -/
def resultKeys (left right : Value) : WqResult (Option (List String)) :=
  match left, right with
  | .dict dx, .dict dy =>
    if (dx.zip dy).all fun p => p.1.1 = p.2.1 then .ok (some (dx.map Prod.fst))
    else .error .length
  | .dict entries, _ => .ok (some (entries.map Prod.fst))
  | _, .dict entries => .ok (some (entries.map Prod.fst))
  | _, _ => .ok none

/-- The list of the results, or the dictionary when there are keys. -/
def buildResult (keys : Option (List String)) (values : List Value) : Value :=
  match keys with
  | some keys => Value.withKeys keys values
  | none => Value.fromItems values

/-- One task off the stack. -/
def stepTask (s : ZipFrame) (tasks : List ZipTask) : ZipTask → BuiltinFrameAction ZipFrame
  | .visit left right depth =>
    if (left.isAtom ∧ right.isAtom) ∨ s.maxDepth ≤ depth then
      .call (s.func, [left, right]) ({ s with tasks }).acceptCallbackResult
    else
      match pairCount left right with
      | .error e => .ready (.error e)
      | .ok len =>
        match resultKeys left right with
        | .error e => .ready (.error e)
        | .ok keys =>
          .silent { s with
            tasks := .container left right depth 0 len s.results.length keys :: tasks }
  | .container left right depth next len resultStart keys =>
    if next < len then
      let leftItem := (containerGet left next).getD left
      let rightItem := (containerGet right next).getD right
      .silent { s with
        tasks := .visit leftItem rightItem (depth + 1) ::
          .container left right depth (next + 1) len resultStart keys :: tasks }
    else
      .silent { s with
        tasks
        results := foldResults s.discard s.results resultStart (buildResult keys) }

def step (s : ZipFrame) : BuiltinFrameAction ZipFrame :=
  match s.callbackResult with
  | some value =>
    .silent { s with
      callbackResult := none
      results := if s.discard then s.results else s.results ++ [value] }
  | none =>
    match s.tasks with
    | [] =>
      if s.discard then .ready (.ok Value.emptyList)
      else
        match s.results.getLast? with
        | some value => .ready (.ok value)
        | none => .ready (.error .vm) -- excluded by the `expect` of the source
    | task :: tasks => s.stepTask tasks task

end ZipFrame

/-! ### splitw -/

inductive SplitSourceKind
  | string | packed | general
deriving DecidableEq

structure SplitFrame where
  source : ItemSource
  sourceKind : SplitSourceKind
  func : Value
  limit : Nat
  splitsDone : Nat
  next : Nat
  currentItem : Option Value
  callbackResult : Option Value
  current : List Value
  chunks : List Value
  discard : Bool

namespace SplitFrame

def sourceKindOf (value : Value) : SplitSourceKind :=
  if value.isString then .string
  else
    match value with
    | .intList _ | .intRange _ | .floatList _ | .boolList _ => .packed
    | _ => .general

def new (args : BuiltinFnArgs) (value func : Value) (discard : Bool) : WqResult SplitFrame := do
  let limit ← splitwLimit args
  match ItemSource.fromValue value with
  | none => .error .domain
  | some source =>
    return { source, sourceKind := sourceKindOf value, func, limit, splitsDone := 0, next := 0
             currentItem := none, callbackResult := none, current := [], chunks := [], discard }

def acceptCallbackResult (s : SplitFrame) (value : Value) : SplitFrame :=
  { s with callbackResult := some value }

def chunkOf : SplitSourceKind → List Value → Value
  | .string, values => Value.intoWqString (chunkChars values)
  | .packed, values => Value.fromItems values
  | .general, values => .list values

def finishChunk (s : SplitFrame) : SplitFrame :=
  { s with chunks := s.chunks ++ [chunkOf s.sourceKind s.current], current := [] }

/-- The item the callback was asked about, after its answer. -/
def takeAnswer (s : SplitFrame) (split : Bool) (item : Value) : SplitFrame :=
  let s := { s with callbackResult := none, currentItem := none }
  if split ∧ s.splitsDone < s.limit then
    let s := if s.discard then s else s.finishChunk
    { s with splitsDone := s.splitsDone + 1 }
  else if s.discard then s
  else { s with current := s.current ++ [item] }

def step (s : SplitFrame) : BuiltinFrameAction SplitFrame :=
  match s.callbackResult with
  | some predicate =>
    match predicateBool predicate, s.currentItem with
    | .error e, _ => .ready (.error e)
    | .ok split, some item => .silent (s.takeAnswer split item)
    | .ok _, none => .ready (.error .vm) -- excluded by the `expect` of the source
  | none =>
    match s.source.get s.next with
    | some item =>
      .call (s.func, [item])
        ({ s with next := s.next + 1, currentItem := some item }).acceptCallbackResult
    | none =>
      if s.discard then .ready (.ok Value.emptyList)
      else
        .ready (.ok
          (match s.sourceKind with
          | .string => Value.fromItems s.finishChunk.chunks
          | .packed | .general => .list s.finishChunk.chunks))

end SplitFrame

/-! ### findw and rfindw -/

structure FindCandidate where
  value : Value
  parentDepth : Int
  path : List Int64

inductive FindTask
  | explore (value : Value) (depth : Int) (path : List Int64)
  | candidate (c : FindCandidate)

structure FindFrame where
  func : Value
  threshold : Int
  maxDepth : Int
  reverse : Bool
  tasks : List FindTask
  pending : Option FindCandidate
  callbackResult : Option Value
  results : List Value
  discard : Bool

/-- `i64::try_from(index).unwrap_or(i64::MAX)`. -/
def idxSaturating (idx : Nat) : Int64 :=
  if idx < 2 ^ 63 then Int64.ofNat idx else Int64.maxValue

namespace FindFrame

def new (reverse : Bool) (args : List Value) (value func : Value) (discard : Bool) :
    WqResult FindFrame := do
  let (threshold, maxDepth) ← findwParameters args
  return { func, threshold, maxDepth, reverse, tasks := [.explore value 0 []], pending := none
           callbackResult := none, results := [], discard }

def acceptCallbackResult (s : FindFrame) (value : Value) : FindFrame :=
  { s with callbackResult := some value }

def thresholdReached (s : FindFrame) : Bool :=
  decide (0 ≤ s.threshold ∧ s.threshold ≤ s.results.length)

/-- The children of a container, those visited first first; `none` for an
atom. -/
def children (reverse : Bool) (value : Value) (depth : Int) (path : List Int64) :
    Option (List FindTask) :=
  match containerLen value with
  | none => none
  | some len =>
    let indices := if reverse then (List.range len).reverse else List.range len
    some (indices.filterMap fun index => (containerGet value index).map fun item =>
      .candidate { value := item, parentDepth := depth, path := path ++ [idxSaturating index] })

/-- The tasks and results after the answer about a candidate. -/
def takeAnswer (s : FindFrame) (matched : Bool) (c : FindCandidate) : FindFrame :=
  let s := { s with callbackResult := none, pending := none }
  if matched then
    { s with results := s.results ++ [if s.discard then Value.emptyList else .intList c.path] }
  else if c.parentDepth < s.maxDepth then
    { s with tasks := .explore c.value (c.parentDepth + 1) c.path :: s.tasks }
  else s

/-- One task off the stack. -/
def stepTask (s : FindFrame) (tasks : List FindTask) : FindTask → BuiltinFrameAction FindFrame
  | .explore value depth path =>
    match children s.reverse value depth path with
    | some cs => .silent { s with tasks := cs ++ tasks }
    | none =>
      .silent { s with tasks := .candidate { value, parentDepth := depth, path } :: tasks }
  | .candidate c =>
    .call (s.func, [c.value]) ({ s with tasks, pending := some c }).acceptCallbackResult

def step (s : FindFrame) : BuiltinFrameAction FindFrame :=
  let s := if s.thresholdReached then { s with tasks := [] } else s
  match s.callbackResult with
  | some predicate =>
    match predicateBool predicate, s.pending with
    | .error e, _ => .ready (.error e)
    | .ok matched, some c => .silent (s.takeAnswer matched c)
    | .ok _, none => .ready (.error .vm) -- excluded by the `expect` of the source
  | none =>
    match s.tasks with
    | [] => .ready (.ok (if s.discard then Value.emptyList else .list s.results))
    | task :: tasks => s.stepTask tasks task

end FindFrame

/-! ### Frames -/

inductive BuiltinFrameState
  | apply (s : ApplyFrame)
  | map (s : MapFrame)
  | foldScan (s : FoldScanFrame)
  | filter (s : FilterFrame)
  | predicate (s : PredicateFrame)
  | zip (s : ZipFrame)
  | split (s : SplitFrame)
  | find (s : FindFrame)

structure BuiltinFrame where
  discard : Bool
  state : BuiltinFrameState

/-- The frame of a builtin on validated arguments. -/
def newState (b : HoBuiltin) (discard : Bool) (args : BuiltinFnArgs) :
    WqResult BuiltinFrameState :=
  match b, args.pos with
  | .apply, [fs, x] => .ok (.apply (ApplyFrame.new fs x discard))
  | .map, [xs, f] => .map <$> MapFrame.new xs f (.int 1) discard
  | .map, [xs, f, d] => .map <$> MapFrame.new xs f d discard
  | .fold, [xs, f] => .ok (.foldScan (FoldScanFrame.new .fold xs f none discard))
  | .fold, [xs, f, acc] => .ok (.foldScan (FoldScanFrame.new .fold xs f (some acc) discard))
  | .scan, [xs, f] => .ok (.foldScan (FoldScanFrame.new .scan xs f none discard))
  | .scan, [xs, f, acc] => .ok (.foldScan (FoldScanFrame.new .scan xs f (some acc) discard))
  | .rscan, [xs, f] => .ok (.foldScan (FoldScanFrame.new .rscan xs f none discard))
  | .rscan, [xs, f, acc] => .ok (.foldScan (FoldScanFrame.new .rscan xs f (some acc) discard))
  | .any, [xs, f] => .predicate <$> PredicateFrame.new true xs f (.int 1)
  | .any, [xs, f, d] => .predicate <$> PredicateFrame.new true xs f d
  | .all, [xs, f] => .predicate <$> PredicateFrame.new false xs f (.int 1)
  | .all, [xs, f, d] => .predicate <$> PredicateFrame.new false xs f d
  | .filter, [xs, f] => .ok (.filter (FilterFrame.new xs f discard))
  | .zipw, [xs, ys, f] => .zip <$> ZipFrame.new xs ys f (.int 1) discard
  | .zipw, [xs, ys, f, d] => .zip <$> ZipFrame.new xs ys f d discard
  | .splitw, [xs, f] => .split <$> SplitFrame.new args xs f discard
  | .findw, xs :: f :: _ => .find <$> FindFrame.new false args.pos xs f discard
  | .rfindw, xs :: f :: _ => .find <$> FindFrame.new true args.pos xs f discard
  | _, _ => .error .arity

/-- The value of a call whose value is not used is dropped. -/
def finalValue (discarded : Bool) (v : Value) : Value :=
  if discarded then Value.emptyList else v

/-- The step of a frame with the state kept under `wrap`. -/
def wrapAction {S : Type} (discarded : Bool) (wrap : S → BuiltinFrameState)
    (a : BuiltinFrameAction S) : BuiltinFrameAction BuiltinFrame :=
  a.map (fun s => { discard := discarded, state := wrap s }) (finalValue discarded)

namespace BuiltinFrame

def step (frame : BuiltinFrame) : BuiltinFrameAction BuiltinFrame :=
  match frame.state with
  | .apply s => wrapAction frame.discard .apply s.step
  | .map s => wrapAction frame.discard .map s.step
  | .foldScan s => wrapAction frame.discard .foldScan s.step
  | .filter s => wrapAction frame.discard .filter s.step
  | .predicate s => wrapAction frame.discard .predicate s.step
  | .zip s => wrapAction frame.discard .zip s.step
  | .split s => wrapAction frame.discard .split s.step
  | .find s => wrapAction frame.discard .find s.step

end BuiltinFrame

/-- `try_start_resumable_builtin`: the frame that runs the builtin, or the
error of its checks. -/
def startResumableBuiltin (b : HoBuiltin) (discarded : Bool) (args : BuiltinFnArgs) :
    WqResult BuiltinFrame := do
  validateRuntimeCallArgs b args
  let state ← newState b discarded args
  return { discard := discarded, state }

end Ho
end Wqpl
