/-
# Constant propagation

The compiler follows the constants through the code of a function. A state
holds what is known before an instruction of the locals, the captures, the
globals and the stack; `transfer` says what an instruction leaves to each of
its successors, and `analyze` merges that into their states until no state
changes. Payloads that are shared behind a pointer are the same constant when
their pointers are, which is a parameter (`PtrEq`).
-/
import Wqpl.Hash
import Wqpl.Vm.Exec
import Wqpl.Worklist

namespace Wqpl

namespace ConstProp

/-- Values with an identity are not followed. -/
def trackableValue : Value → Option Value
  | .compiledFunction _ | .closure _ _ | .liftedCallable _ | .builtinFunction _ _ | .rng _
  | .stream _ => none
  | other => some other

/-! ### States -/

/-- The known globals. The order of the entries plays no part. -/
structure Globals where
  entries : List (String × Value)
  nodup : (entries.map Prod.fst).Nodup

namespace Globals

def empty : Globals := ⟨[], List.nodup_nil⟩

def get? (g : Globals) (name : String) : Option Value := IndexMap.get? g.entries name

def insert (g : Globals) (name : String) (value : Value) : Globals :=
  ⟨IndexMap.insert g.entries name value, IndexMap.nodup_keys_insert g.nodup name value⟩

def retain (g : Globals) (keep : String → Value → Bool) : Globals :=
  ⟨g.entries.filter fun e => keep e.1 e.2, g.nodup.sublist (List.filter_sublist.map Prod.fst)⟩

def swapRemove (g : Globals) (name : String) : Globals := g.retain fun k _ => k ≠ name

/-- `==` of two maps. -/
def eq (g g' : Globals) : Bool :=
  g.entries.length = g'.entries.length &&
    g.entries.all fun e =>
      match g'.get? e.1 with
      | some v => e.2.eq v
      | none => false

end Globals

/-- What is known before an instruction. The top of the stack comes first. -/
@[ext]
structure State (localCount captureCount : Nat) where
  locals : List (Option Value)
  captures : List (Option Value)
  globals : Globals
  stack : Option (List (Option Value))
  locals_length : locals.length = localCount
  captures_length : captures.length = captureCount

/-- `collect_known`. -/
def collectKnown : List (Option Value) → Option (List Value)
  | [] => some []
  | value :: values => do return (← value) :: (← collectKnown values)

namespace State

variable {l c : Nat}

def newWithGlobals (l c : Nat) (captureValues : List (Option Value)) (globals : Globals) :
    State l c where
  locals := List.replicate l none
  captures := (List.range c).map fun i => captureValues[i]?.join.bind trackableValue
  globals := globals
  stack := some []
  locals_length := List.length_replicate
  captures_length := by rw [List.length_map, List.length_range]

def local_ (s : State l c) (slot : Nat) : Option Value := s.locals[slot]?.join

def setLocal (s : State l c) (slot : Nat) (value : Option Value) : State l c :=
  { s with
    locals := s.locals.set slot (value.bind trackableValue)
    locals_length := by rw [List.length_set, s.locals_length] }

def capture (s : State l c) (slot : Nat) : Option Value := s.captures[slot]?.join

def setCapture (s : State l c) (slot : Nat) (value : Option Value) : State l c :=
  { s with
    captures := s.captures.set slot (value.bind trackableValue)
    captures_length := by rw [List.length_set, s.captures_length] }

def global (s : State l c) (name : String) : Option Value := s.globals.get? name

def setGlobal (s : State l c) (name : String) (value : Option Value) : State l c :=
  match value.bind trackableValue with
  | some value => { s with globals := s.globals.insert name value }
  | none => { s with globals := s.globals.swapRemove name }

def target (s : State l c) : StoreTarget → Option Value
  | .local_ slot => s.local_ slot
  | .capture slot => s.capture slot
  | .var name => s.global name

def setTarget (s : State l c) (target : StoreTarget) (value : Option Value) : State l c :=
  match target with
  | .local_ slot => s.setLocal slot value
  | .capture slot => s.setCapture slot value
  | .var name => s.setGlobal name value

def clearVolatileFacts (s : State l c) : State l c where
  locals := List.replicate l none
  captures := List.replicate c none
  globals := .empty
  stack := s.stack
  locals_length := List.length_replicate
  captures_length := List.length_replicate

def push (s : State l c) (value : Option Value) : State l c :=
  { s with stack := s.stack.map (value.bind trackableValue :: ·) }

def pushUnknown (s : State l c) : State l c := s.push none

/-- An empty stack has nothing to pop, and after that the stack is unknown. -/
def pop (s : State l c) : Option Value × State l c :=
  match s.stack with
  | none => (none, s)
  | some (value :: stack) => (value, { s with stack := some stack })
  | some [] => (none, { s with stack := none })

def drop (s : State l c) : State l c := s.pop.2

def peek (s : State l c) : Option Value := (s.stack.bind List.head?).join

def popArgs (s : State l c) (argc : Nat) : Option (List Value) × State l c :=
  match s.stack with
  | none => (none, s)
  | some stack =>
    if stack.length < argc then (none, { s with stack := none })
    else (collectKnown (stack.take argc).reverse, { s with stack := some (stack.drop argc) })

def popMany (s : State l c) (count : Nat) : Option (List Value) × State l c := s.popArgs count

def popCallTargetAndArgs (s : State l c) (argc : Nat) :
    (Option Value × Option (List Value)) × State l c :=
  match s.stack with
  | none => ((none, none), s)
  | some stack =>
    if stack.length < argc + 1 then ((none, none), { s with stack := none })
    else
      ((stack[argc]?.join, collectKnown (stack.take argc).reverse),
        { s with stack := some (stack.drop (argc + 1)) })

/-- `replace_stack_top`. -/
def replaceStackTop (s : State l c) (value : Option Value) : State l c :=
  { s with stack := s.stack.map (·.set 0 (value.bind trackableValue)) }

end State

/-! ### What an instruction leaves -/

section Transfer

variable {W : Type} (ops : Ops W) {l c : Nat}

abbrev Successors (l c : Nat) := List (Nat × State l c)

def fallthrough (pc : Nat) (s : State l c) : Successors l c := [(pc + 1, s)]

/-- On with the next instruction if the condition holds, else with the target. -/
def branch (pc target : Nat) (cond : Option Bool) (s : State l c) : Successors l c :=
  match cond with
  | some true => fallthrough pc s
  | some false => [(target, s)]
  | none => [(pc + 1, s), (target, s)]

def resolveTransferOperand (s : State l c) : Operand → Option Value × State l c
  | .stack => s.pop
  | .const value => (trackableValue value, s)
  | .local_ slot => (s.local_ slot, s)
  | .capture slot => (s.capture slot, s)
  | .var name => (s.global name, s)
  | .self => (none, s)

/-- The right operand is taken first. -/
def resolveTransferOperands (s : State l c) (left right : Operand) :
    Option (Value × Value) × State l c :=
  let (r, s) := resolveTransferOperand s right
  let (l, s) := resolveTransferOperand s left
  (do return (← l, ← r), s)

def evalBinary? (op : BinaryOperator) (operands : Option (Value × Value)) : Option Value :=
  operands.bind fun p => (Exec.evalBinary ops op p.1 p.2).toOption

def postfixIndex (target : Value) (args : List Value) : Option Value :=
  match args with
  | [arg] => ops.index target arg
  | args => ops.indexMany target args

/-- The item of a target at an index, both if they are known. -/
def indexKnown (object index : Option Value) : Option Value := do
  ops.index (← object) (← index)

def indexManyKnown (object : Option Value) (args : Option (List Value)) : Option Value := do
  postfixIndex ops (← object) (← args)

/-- An assignment into a known target; the target is known after it if the assignment
succeeds. -/
def assignInto (target : StoreTarget) (assign : Option (Value → Bool × Value)) (s : State l c) :
    State l c :=
  match assign, s.target target with
  | some assign, some t =>
    let (succeeds, t) := assign t
    s.setTarget target (if succeeds then some t else none)
  | _, _ => s.setTarget target none

def assignIndex (target : StoreTarget) (index value : Option Value) (s : State l c) : State l c :=
  let assign := do
    let index ← index
    let value ← value
    return fun t => ops.assignByIndex t index value
  assignInto target assign s

def assignIndices (target : StoreTarget) (args : Option (List Value)) (value : Option Value)
    (s : State l c) : State l c :=
  let assign := do
    let args ← args
    let value ← value
    return fun t => ops.assignByIndices t args value
  assignInto target assign s

def assignLocalIndex (s : State l c) (slot : Nat) (index value : Option Value) : State l c :=
  assignIndex ops (.local_ slot) index value s

def assignLocalIndices (s : State l c) (slot : Nat) (args : Option (List Value))
    (value : Option Value) : State l c :=
  assignIndices ops (.local_ slot) args value s

def assignCaptureIndex (s : State l c) (slot : Nat) (index value : Option Value) : State l c :=
  assignIndex ops (.capture slot) index value s

def assignCaptureIndices (s : State l c) (slot : Nat) (args : Option (List Value))
    (value : Option Value) : State l c :=
  assignIndices ops (.capture slot) args value s

def makeConstDict (values : List Value) (count : Nat) : Option Value :=
  if values.length ≠ count * 2 then none
  else (Exec.dictItems values).map fun entries => .dict (IndexMap.collect entries)

def leZero : Value → Option Bool
  | .int n => some (n.toInt ≤ 0)
  | .float f =>
    some (f.partialCmp (F64.ofInt 0) = some .lt || f.partialCmp (F64.ofInt 0) = some .eq)
  | _ => none

def transfer (pc : Nat) : Instruction → State l c → Successors l c
  | .namedCall call _, s => transfer pc call s
  | .loadConst value, s => fallthrough pc (s.push (some value))
  | .loadOwnedConst _, s => fallthrough pc s.pushUnknown
  | .import_ _, s => fallthrough pc s.clearVolatileFacts.pushUnknown
  | .loadLocal slot, s => fallthrough pc (s.push (s.local_ slot))
  | .loadCapture slot, s => fallthrough pc (s.push (s.capture slot))
  | .loadVar name, s => fallthrough pc (s.push (s.global name))
  | .loadCallTarget operand, s =>
    let value := match operand with
      | .const value => some value
      | .local_ slot => s.local_ slot
      | .capture slot => s.capture slot
      | .var name => s.global name
      | .stack | .self => none
    fallthrough pc (s.push value)
  | .loadVarExists _, s | .loadSelf, s | .loadClosure _, s => fallthrough pc s.pushUnknown
  | .storeLocal slot, s =>
    let (value, s) := s.pop
    fallthrough pc (s.setLocal slot value)
  | .storeLocalKeep slot, s => fallthrough pc (s.setLocal slot s.peek)
  | .storeVar name, s =>
    let (value, s) := s.pop
    fallthrough pc (s.setGlobal name value)
  | .storeVarKeep name, s => fallthrough pc (s.setGlobal name s.peek)
  | .storeCapture slot, s =>
    let (value, s) := s.pop
    fallthrough pc (s.setCapture slot value)
  | .storeCaptureKeep slot, s => fallthrough pc (s.setCapture slot s.peek)
  | .unpack _, s => fallthrough pc s.drop.clearVolatileFacts
  | .loadUnpack _, s => fallthrough pc s.pushUnknown
  | .endUnpack, s => fallthrough pc s
  | .binaryOp op left right, s =>
    let (operands, s) := resolveTransferOperands s left right
    fallthrough pc (s.push (evalBinary? ops op operands))
  | .catAssign target right, s =>
    let (r, s) := resolveTransferOperand s right
    let result := (do return ops.cat (← s.target target) (← r) : Option Value).bind trackableValue
    fallthrough pc ((s.setTarget target result).push result)
  | .boolCombine operator, s =>
    let (values, s) := s.popMany 2
    let result := values.bind fun
      | [left, right] => (ops.boolOp operator left right).toOption
      | _ => none
    fallthrough pc (s.push result)
  | .unaryOp op operand, s =>
    let (value, s) := resolveTransferOperand s operand
    fallthrough pc (s.push (value.bind fun value => (ops.unary op value).toOption))
  | .cmpChain chain, s =>
    let (values, s) := s.popMany (chain.length + 1)
    fallthrough pc (s.push (values.bind fun values => (ops.cmpChain chain values).toOption))
  | .cat count, s =>
    let (values, s) := s.popMany count
    fallthrough pc (s.push (values.map ops.catMany))
  | .makeList count, s =>
    let (values, s) := s.popMany count
    fallthrough pc (s.push (values.map Value.fromItems))
  | .makeDict count, s =>
    let (values, s) := s.popMany (count * 2)
    fallthrough pc (s.push (values.bind fun values => makeConstDict values count))
  | .makeRange _ hasNext, s =>
    fallthrough pc (if hasNext then s.drop else s).drop.drop.pushUnknown
  | .index, s =>
    let (index, s) := s.pop
    let (object, s) := s.pop
    fallthrough pc (s.push (indexKnown ops object index))
  | .indexMany argc, s =>
    let (args, s) := s.popArgs argc
    let (object, s) := s.pop
    fallthrough pc (s.push (indexManyKnown ops object args))
  | .checkAtomPathIndex, s => fallthrough pc s
  | .indexLoadLocal slot, s =>
    let (index, s) := s.pop
    fallthrough pc (s.push (indexKnown ops (s.local_ slot) index))
  | .indexManyLoadLocal slot argc, s =>
    let (args, s) := s.popArgs argc
    fallthrough pc (s.push (indexManyKnown ops (s.local_ slot) args))
  | .indexLoadCapture slot, s =>
    let (index, s) := s.pop
    fallthrough pc (s.push (indexKnown ops (s.capture slot) index))
  | .indexManyLoadCapture slot argc, s =>
    let (args, s) := s.popArgs argc
    fallthrough pc (s.push (indexManyKnown ops (s.capture slot) args))
  | .indexLoadVar name, s =>
    let (index, s) := s.pop
    fallthrough pc (s.push (indexKnown ops (s.global name) index))
  | .indexManyLoadVar name argc, s =>
    let (args, s) := s.popArgs argc
    fallthrough pc (s.push (indexManyKnown ops (s.global name) args))
  | .indexAssignLocal slot, s =>
    let (value, s) := s.pop
    let (index, s) := s.pop
    fallthrough pc ((assignLocalIndex ops s slot index value).push value)
  | .indexManyAssignLocal slot argc, s =>
    let (value, s) := s.pop
    let (args, s) := s.popArgs argc
    fallthrough pc ((assignLocalIndices ops s slot args value).push value)
  | .indexAssignLocalDrop slot, s =>
    let (value, s) := s.pop
    let (index, s) := s.pop
    fallthrough pc (assignLocalIndex ops s slot index value)
  | .indexManyAssignLocalDrop slot argc, s =>
    let (value, s) := s.pop
    let (args, s) := s.popArgs argc
    fallthrough pc (assignLocalIndices ops s slot args value)
  | .indexAssignCapture slot, s =>
    let (value, s) := s.pop
    let (index, s) := s.pop
    fallthrough pc ((assignCaptureIndex ops s slot index value).push value)
  | .indexManyAssignCapture slot argc, s =>
    let (value, s) := s.pop
    let (args, s) := s.popArgs argc
    fallthrough pc ((assignCaptureIndices ops s slot args value).push value)
  | .indexAssignVar name, s =>
    let (value, s) := s.pop
    fallthrough pc ((s.drop.setGlobal name none).push value)
  | .indexManyAssignVar name argc, s =>
    let (value, s) := s.pop
    fallthrough pc (((s.popArgs argc).2.setGlobal name none).push value)
  | .indexAssignCaptureDrop slot, s =>
    let (value, s) := s.pop
    let (index, s) := s.pop
    fallthrough pc (assignCaptureIndex ops s slot index value)
  | .indexManyAssignCaptureDrop slot argc, s =>
    let (value, s) := s.pop
    let (args, s) := s.popArgs argc
    fallthrough pc (assignCaptureIndices ops s slot args value)
  | .indexAssignVarDrop name, s => fallthrough pc (s.drop.drop.setGlobal name none)
  | .indexManyAssignVarDrop name argc, s =>
    fallthrough pc ((s.drop.popArgs argc).2.setGlobal name none)
  | .indexMutate target op, s =>
    let s := match op with
      | .pop | .remove | .insert => s.drop
      | .insertAt => s.drop.drop
    fallthrough pc (s.setTarget target none).pushUnknown
  | .callBuiltinId _ argc, s | .callBuiltinDiscardId _ argc, s =>
    fallthrough pc (s.popArgs argc).2.clearVolatileFacts.pushUnknown
  | .callLocal _ argc, s | .callUser _ argc, s | .callAnon argc, s =>
    fallthrough pc (s.popCallTargetAndArgs argc).2.clearVolatileFacts.pushUnknown
  | .postfix_ argc, s =>
    let ((target, args), s) := s.popCallTargetAndArgs argc
    let s := if target.isNone then s.clearVolatileFacts else s
    fallthrough pc (s.push (indexManyKnown ops target args))
  | .tailCallLocal _ _, _ | .tailCallUser _ _, _ | .tailCallAnon _, _ | .tailPostfix _, _ => []
  | .jump target, s => [(target, s)]
  | .jumpIfFalse target, s =>
    let (cond, s) := s.pop
    branch pc target (cond.bind Value.tryToRustBool) s
  | .jumpIfCmpFalse op left right target, s =>
    let (operands, s) := resolveTransferOperands s left right
    branch pc target ((evalBinary? ops op operands).bind Value.tryToRustBool) s
  | .nLoopEnter index count snapshot target, s =>
    let operands := do return (← s.local_ index, ← s.local_ count)
    let entered := s.setLocal snapshot (s.local_ index)
    match (evalBinary? ops .lt operands).bind Value.tryToRustBool with
    | some true => fallthrough pc entered
    | some false => [(target, s)]
    | none => [(pc + 1, entered), (target, s)]
  | .nLoopNext snapshot index target, s =>
    let next := evalBinary? ops .add ((s.local_ snapshot).map fun v => (v, .int 1))
    [(target, s.setLocal index next)]
  | .jumpIfGE target, s => [(pc + 1, s.drop.drop), (target, s.drop.drop)]
  | .jumpIfLEZLocal slot target, s =>
    match (s.local_ slot).bind leZero with
    | some true => [(target, s)]
    | some false => fallthrough pc s
    | none => [(pc + 1, s), (target, s)]
  | .jumpIfNamedProvided slot bit target, s =>
    match s.local_ slot with
    | some (.int mask) => if mask.toBitVec.getLsbD bit then [(target, s)] else fallthrough pc s
    | some _ => fallthrough pc s
    | none => [(pc + 1, s), (target, s)]
  | .boolAndLazy target, s =>
    let short := s.replaceStackTop (some (.bool false))
    match s.peek.bind Value.tryToRustBool with
    | some false => [(target, short)]
    | some true => fallthrough pc s
    | none => [(pc + 1, s), (target, short)]
  | .boolOrLazy target, s =>
    let short := s.replaceStackTop (some (.bool true))
    match s.peek.bind Value.tryToRustBool with
    | some true => [(target, short)]
    | some false => fallthrough pc s
    | none => [(pc + 1, s), (target, short)]
  | .pop, s => fallthrough pc s.drop
  | .return_, _ => []
  | .debug, s | .pause, s | .traceBegin, s => fallthrough pc s
  | .try_ len, s =>
    let afterTry := (pc + 1 + len, s.clearVolatileFacts.pushUnknown)
    if 0 < len then [(pc + 1, s), afterTry] else [afterTry]

end Transfer

/-! ### Merging -/

/-- Whether two payloads have one pointer, by the place of the comparison. -/
abbrev PtrEq := List Nat → Value → Value → Bool

/-- The comparisons at a place. -/
def PtrEq.at (ptrEq : PtrEq) (place : Nat) : PtrEq := fun path => ptrEq (place :: path)

mutual

def sameConstant (ptrEq : PtrEq) : Value → Value → Bool
  | .int left, .int right => left = right
  | .bigInt left, .bigInt right => left = right
  | .float left, .float right => left.bits = right.bits
  | .complex re im, .complex re' im' => re.bits = re'.bits && im.bits = im'.bits
  | .fraction left, .fraction right => left = right
  | .algebraic f xs, .algebraic f' ys => ptrEq [] (.algebraic f xs) (.algebraic f' ys)
  | .char left, .char right => left = right
  | .tag left, .tag right => left = right
  | .bool left, .bool right => left = right
  | .intList left, .intList right => left = right
  | .intRange left, .intRange right =>
    left.start = right.start && left.step = right.step && left.len = right.len
  | .floatList left, .floatList right =>
    left.length = right.length && (left.zip right).all fun p => p.1.bits = p.2.bits
  | .boolList left, .boolList right => left = right
  | .list left, .list right => left.length = right.length && sameItems ptrEq 0 left right
  | .string left, .string right => left = right
  | .cas left, .cas right => ptrEq [] (.cas left) (.cas right)
  | .dict left, .dict right => left.length = right.length && sameEntries ptrEq 0 left right
  | .compiledFunction left, .compiledFunction right => left = right
  | .closure fn captured, .closure fn' captured' =>
    ptrEq [] (.closure fn captured) (.closure fn' captured')
  | .builtinFunction _ left, .builtinFunction _ right => left = right
  | .liftedCallable left, .liftedCallable right =>
    ptrEq [] (.liftedCallable left) (.liftedCallable right)
  | .rng left, .rng right => left = right
  | .stream left, .stream right => left = right
  | _, _ => false
termination_by structural left => left

def sameItems (ptrEq : PtrEq) (i : Nat) : List Value → List Value → Bool
  | x :: xs, y :: ys => sameConstant (ptrEq.at i) x y && sameItems ptrEq (i + 1) xs ys
  | _, _ => true
termination_by structural left => left

def sameEntries (ptrEq : PtrEq) (i : Nat) : List (String × Value) → List (String × Value) → Bool
  | (k, x) :: xs, (k', y) :: ys =>
    k = k' && sameConstant (ptrEq.at i) x y && sameEntries ptrEq (i + 1) xs ys
  | _, _ => true
termination_by structural left => left

end

def meetConst (ptrEq : PtrEq) (left right : Option Value) : Option Value :=
  match left, right with
  | some left, some right => if sameConstant ptrEq left right then some left else none
  | _, _ => none

/-- The slots of two states met in step, from the place `i` on. -/
def meetSlots (ptrEq : PtrEq) (i : Nat) : List (Option Value) → List (Option Value) →
    List (Option Value)
  | x :: xs, y :: ys => meetConst (ptrEq.at i) x y :: meetSlots ptrEq (i + 1) xs ys
  | _, _ => []

/-- `==` of two slots. -/
def eqSlot : Option Value → Option Value → Bool
  | some v, some w => v.eq w
  | none, none => true
  | _, _ => false

/-- `==` of two vectors of slots. -/
def eqSlots : List (Option Value) → List (Option Value) → Bool
  | x :: xs, y :: ys => eqSlot x y && eqSlots xs ys
  | [], [] => true
  | _, _ => false

/-- The slots merged one by one, and whether one of them changed. -/
def mergeSlots (ptrEq : PtrEq) (i : Nat) : List (Option Value) → List (Option Value) →
    List (Option Value) × Bool
  | slot :: slots, incoming :: others =>
    let merged := meetConst (ptrEq.at i) slot incoming
    let (rest, changed) := mergeSlots ptrEq (i + 1) slots others
    if eqSlot slot merged then (slot :: rest, changed) else (merged :: rest, true)
  | slots, _ => (slots, false)

def mergeGlobals (globals other : Globals) : Globals × Bool :=
  let merged := globals.retain fun name value =>
    match other.get? name with
    | some v => v.eq value
    | none => false
  (merged, !merged.eq globals)

/-- Stacks of different heights have nothing in common. -/
def meetStack (ptrEq : PtrEq) (stack other : Option (List (Option Value))) :
    Option (List (Option Value)) :=
  match stack, other with
  | some left, some right =>
    if left.length = right.length then some (meetSlots ptrEq 0 left right) else none
  | _, _ => none

/-- `==` of two stacks. -/
def eqStack : Option (List (Option Value)) → Option (List (Option Value)) → Bool
  | some left, some right => eqSlots left right
  | none, none => true
  | _, _ => false

def mergeStack (ptrEq : PtrEq) (stack other : Option (List (Option Value))) :
    Option (List (Option Value)) × Bool :=
  let merged := meetStack ptrEq stack other
  if eqStack stack merged then (stack, false) else (merged, true)

theorem length_mergeSlots (ptrEq : PtrEq) : ∀ (i : Nat) (slots others : List (Option Value)),
    (mergeSlots ptrEq i slots others).1.length = slots.length
  | _, [], _ => by rw [mergeSlots.eq_def]
  | _, _ :: _, [] => by rw [mergeSlots.eq_def]
  | i, slot :: slots, incoming :: others => by
    have ih := length_mergeSlots ptrEq (i + 1) slots others
    rw [mergeSlots]
    dsimp only
    by_cases h : eqSlot slot (meetConst (ptrEq.at i) slot incoming) = true
    · rw [if_pos h, List.length_cons, List.length_cons, ih]
    · rw [if_neg h, List.length_cons, List.length_cons, ih]

/-- `merge_from`: what both states know, and whether the first one changed. -/
def mergeFrom {l c : Nat} (ptrEq : PtrEq) (s other : State l c) : State l c × Bool :=
  let locals := mergeSlots (ptrEq.at 0) 0 s.locals other.locals
  let captures := mergeSlots (ptrEq.at 1) 0 s.captures other.captures
  let globals := mergeGlobals s.globals other.globals
  let stack := mergeStack (ptrEq.at 2) s.stack other.stack
  ({ locals := locals.1
     captures := captures.1
     globals := globals.1
     stack := stack.1
     locals_length := (length_mergeSlots ..).trans s.locals_length
     captures_length := (length_mergeSlots ..).trans s.captures_length },
    locals.2 || captures.2 || globals.2 || stack.2)

/-! ### The analysis -/

section Analyze

variable {W : Type} (ops : Ops W) {l c : Nat}

/-- What an instruction of the code leaves to its successors. -/
def successors (code : List Instruction) (pc : Nat) (s : State l c) : Successors l c :=
  match code[pc]? with
  | some inst => transfer ops pc inst s
  | none => []

/-- Before the first round: the first instruction has the initial state. -/
def initial (code : List Instruction) (captureValues : List (Option Value)) (globals : Globals) :
    Worklist.Config (State l c) where
  states := (List.replicate code.length none).set 0
    (some (.newWithGlobals l c captureValues globals))
  worklist := [0]
  pending := []
  merges := 0

/-- `analyze`, in at most `fuel` rounds. -/
def analyze (ptrEq : PtrEq) (fuel : Nat) (code : List Instruction) (l c : Nat)
    (captureValues : List (Option Value)) (globals : Globals) :
    Option (List (Option (State l c))) :=
  Worklist.run (successors ops code) (fun k => mergeFrom (ptrEq.at k)) fuel
    (initial code captureValues globals)

end Analyze

end ConstProp

end Wqpl
