/-
# Instructions at work

What an instruction does to the data of the current frame, and how control
goes on (`Flow`). Program counters, calls, returns and try regions are left to
the machine.
-/
import Wqpl.Vm.State

namespace Wqpl

/-- How control goes on after an instruction. -/
inductive Flow (W : Type)
  | next
  | jump (target : Nat)
  /-- The frame returns. -/
  | return_
  | try_ (len : Nat)
  /-- A call of a user function with the upper `argc` values on the stack. -/
  | enter (callee : Value) (argc : Nat)
  /-- The same as a tail call. -/
  | tail (callee : Value) (argc : Nat)
  /-- A builtin runs; its value goes on the stack. -/
  | builtin (run : BuiltinRun W)
  | import_ (data : ImportData)

namespace Exec

variable {W : Type} (ops : Ops W)

/-! ### Operators -/

def fromBigint (n : Int) : Value :=
  match i64? n with
  | some n => .int n
  | none => .bigInt n

/-- The operators on two integers that need no further checks. -/
def evalIntBinary (op : BinaryOperator) (left right : Int64) : Option Value :=
  match op with
  | .add => (i64? (left.toInt + right.toInt)).map .int
  | .subtract => (i64? (left.toInt - right.toInt)).map .int
  | .multiply => (i64? (left.toInt * right.toInt)).map .int
  | .divide => if right.toInt ≠ 0 then some (ops.intDivide left right) else none
  | .modulo =>
    if right.toInt = 0 ∨ left.toInt = -2 ^ 63 ∧ right.toInt = -1 then none
    else some (.int (Int64.ofInt (left.toInt.tmod right.toInt)))
  | .floorDiv =>
    if right.toInt = 0 ∨ left.toInt = -2 ^ 63 ∧ right.toInt = -1 then none
    else some (.int (Int64.ofInt (left.toInt.fdiv right.toInt)))
  | .equal | .equalDot => some (.bool (left = right))
  | .notEqual | .notEqualDot => some (.bool (left ≠ right))
  | .lt => some (.bool (left.toInt < right.toInt))
  | .lte => some (.bool (left.toInt ≤ right.toInt))
  | .gt => some (.bool (left.toInt > right.toInt))
  | .gte => some (.bool (left.toInt ≥ right.toInt))
  | .bitAnd => some (.int (left &&& right))
  | .bitOr => some (.int (left ||| right))
  | .bitXor => some (.int (left ^^^ right))
  | .shl =>
    if 0 ≤ right.toInt ∧ right.toInt < 2 ^ 32 then
      some (fromBigint (left.toInt * 2 ^ right.toInt.toNat))
    else none
  | .shr =>
    if 0 ≤ right.toInt ∧ right.toInt < 2 ^ 32 then
      some (fromBigint (left.toInt / 2 ^ right.toInt.toNat))
    else none
  | .power | .powerDot | .divideDot | .matmul | .cat => none

def evalIntComparison (op : BinaryOperator) (left right : Int64) : Option Bool :=
  match op with
  | .equal | .equalDot => some (left = right)
  | .notEqual | .notEqualDot => some (left ≠ right)
  | .lt => some (left.toInt < right.toInt)
  | .lte => some (left.toInt ≤ right.toInt)
  | .gt => some (left.toInt > right.toInt)
  | .gte => some (left.toInt ≥ right.toInt)
  | _ => none

/-- `eval_binary`. A float and an integer are compared as floats. -/
def evalBinary (op : BinaryOperator) (left right : Value) : WqResult Value :=
  match op, left, right with
  | .lt, .int x, .int y => .ok (.bool (x.toInt < y.toInt))
  | .gt, .float x, .int y =>
    match x.partialCmp (F64.ofInt y.toInt) with
    | some ord => .ok (.bool (ord = .gt))
    | none => .error .domain
  | _, _, _ => ops.binary op left right

def resolveOperand : Operand → Exec W Value
  | .stack => pop1
  | .const v => return v
  | .local_ slot => readLocal slot
  | .capture i => readCapture i
  | .var name => do
    match (← getEnv).globals name with
    | some v => return v
    | none =>
      match ops.builtinValue name with
      | some v => return v
      | none => throw .notBound
  | .self => return (← currentFunction).callable

/-- An operand that is an integer at hand; `depth` is its place on the stack if
it lies there. -/
def intOperand (operand : Operand) (depth : Nat) (d : Data W) : Option Int64 :=
  match operand with
  | .stack =>
    match d.stack[depth]? with
    | some (.int n) => some n
    | _ => none
  | .const (.int n) => some n
  | .local_ slot =>
    match d.function.bind fun a => a.locals[slot]? with
    | some s =>
      match s.read d.env with
      | .int n => some n
      | _ => none
    | none => none
  | _ => none

def stackCount : Operand → Nat
  | .stack => 1
  | _ => 0

/-- The integer fast path: the operands are read first and only then taken off
the stack, once the operator applies. -/
def tryIntOperands {α : Type} (left right : Operand) (eval : Int64 → Int64 → Option α) :
    Exec W (Option α) := .mk fun d =>
  let count := stackCount left + stackCount right
  if d.stack.length < count then .ok none d
  else
    match intOperand right 0 d, intOperand left (stackCount right) d with
    | some r, some l =>
      match eval l r with
      | some result => .ok (some result) { d with stack := d.stack.drop count }
      | none => .ok none d
    | _, _ => .ok none d

def resolveOperands (left right : Operand) : Exec W (Value × Value) := do
  let r ← resolveOperand ops right
  let l ← resolveOperand ops left
  return (l, r)

def binaryOp (op : BinaryOperator) (left right : Operand) : Exec W Value := do
  match ← tryIntOperands left right (evalIntBinary ops op) with
  | some result => return result
  | none =>
    let (l, r) ← resolveOperands ops left right
    liftResult (evalBinary ops op l r)

/-- The condition of a branch or a loop. -/
def condition (v : Value) : Exec W Bool :=
  match v.tryToRustBool with
  | some b => return b
  | none => throw .domain

def evalCmpBranchCondition (op : BinaryOperator) (left right : Operand) : Exec W Bool := do
  match ← tryIntOperands left right (evalIntComparison op) with
  | some result => return result
  | none => condition (← binaryOp ops op left right)

def evalNLoopCondition (index count : Value) : Exec W Bool :=
  match index, count with
  | .int i, .int n => return i.toInt < n.toInt
  | index, count => do condition (← liftResult (evalBinary ops .lt index count))

/-! ### Indexing -/

def indexOne (obj idx : Value) : Exec W Value :=
  match ops.index obj idx with
  | some v => return v
  | none => throw .index

/-- `index_value_with_args`. -/
def indexWithArgs (obj : Value) (args : List Value) : Exec W Value :=
  match args with
  | [idx] => indexOne ops obj idx
  | args =>
    match ops.indexMany obj args with
    | some v => return v
    | none => throw .index

/-- The value of an index assignment: it stays on the stack with `keep`. -/
def indexAssignOne (target : StoreTarget) (keep : Bool) : Exec W (Flow W) := do
  let value ← pop1
  let idx ← pop1
  mutateTarget target fun t =>
    let r := ops.assignByIndex t idx value
    (if r.1 then .ok () else .error .index, r.2)
  if keep then push value
  return .next

def indexAssignMany (target : StoreTarget) (argc : Nat) (keep : Bool) : Exec W (Flow W) := do
  let value ← pop1
  let args ← popMany argc
  mutateTarget target fun t =>
    let r := ops.assignByIndices t args value
    (if r.1 then .ok () else .error .index, r.2)
  if keep then push value
  return .next

def indexMutate (target : StoreTarget) : MutationOp → Exec W (Flow W)
  | .pop => do
    let count ← liftResult (ops.parsePopCount (← pop1))
    push (← mutateTarget target fun t => ops.popInPlace t count)
    return .next
  | .remove => do
    let idx ← pop1
    push (← mutateTarget target fun t => ops.removeInPlace t idx)
    return .next
  | .insert => do
    let xs ← pop1
    push (← mutateTarget target fun t => ops.insertInPlace t xs none)
    return .next
  | .insertAt => do
    let dst ← pop1
    let xs ← pop1
    push (← mutateTarget target fun t => ops.insertInPlace t xs (some dst))
    return .next

/-- The items of a dictionary literal: keys and values in turn. -/
def dictItems : List Value → Option (List (String × Value))
  | [] => some []
  | .tag k :: v :: items => (dictItems items).map ((k, v) :: ·)
  | _ => none

/-! ### Closures -/

def captureLocal (slot : Nat) : Exec W CellId := .mk fun d =>
  let v := match d.function.bind fun a => a.locals[slot]? with
    | some s => s.read d.env
    | none => Value.emptyList
  let (c, env) := d.env.allocCell v
  .ok c { d with env }

/-- The cell of the slot; a slot that has none gets one with its value. -/
def captureShared (slot : Nat) : Exec W CellId := .mk fun d =>
  match d.function.bind fun a => a.locals[slot]? with
  | some (.cell c) => .ok c d
  | some (.value v) =>
    let (c, env) := d.env.allocCell v
    .ok c { d with
      env, function := d.function.map fun a => { a with locals := a.locals.set slot (.cell c) } }
  | none =>
    let (c, env) := d.env.allocCell Value.emptyList
    .ok c { d with env }

def capture : Capture → Exec W CellId
  | .local_ slot => captureLocal slot
  | .localShared slot => captureShared slot
  | .fromCapture i => .mk fun d =>
    match d.function.bind fun a => a.captures[i]? with
    | some c => .ok c d
    | none =>
      let (c, env) := d.env.allocCell Value.emptyList
      .ok c { d with env }
  | .global name => do
    let v ← readGlobal name
    .mk fun d =>
      let (c, env) := d.env.allocCell v
      .ok c { d with env }

/-! ### Calls -/

/-- Named and positional arguments, told apart by their positions. -/
def splitArgs : List (Nat × String) → Nat → List Value → BuiltinFnArgs
  | _, _, [] => { pos := [], named := [] }
  | (p, name) :: named, i, v :: vs =>
    if p = i then
      let rest := splitArgs named (i + 1) vs
      { rest with named := (name, v) :: rest.named }
    else
      let rest := splitArgs ((p, name) :: named) (i + 1) vs
      { rest with pos := v :: rest.pos }
  | [], i, v :: vs =>
    let rest := splitArgs [] (i + 1) vs
    { rest with pos := v :: rest.pos }

/-- `take_builtin_args_from_stack`, and whether there was metadata. -/
def takeBuiltinArgs (argc : Nat) : Exec W (BuiltinFnArgs × Bool) := do
  let metadata ← takePendingNamedMeta
  let values ← popMany argc
  match metadata with
  | some m => return (splitArgs m.named 0 values, true)
  | none => return ({ pos := values, named := [] }, false)

/-- Whether the current function is part of the main program. -/
def isMain (table : FnTable) (d : Data W) : Bool :=
  match d.function with
  | some a =>
    match a.callable with
    | .compiledFunction fn | .closure fn _ => !(table fn).isolatedModule
    | _ => true
  | none => true

/-- The run of a composed callable: its leaves are called in order, each on
all arguments. -/
def callableRun (args : List Value) : CallableExpr → Env W → BuiltinRun W
  | .const v, env => .done (.ok v) env
  | .call v, env => .call v { pos := args, named := [] } env .done
  | .unary op operand, env =>
    (callableRun args operand env).andThen fun r env =>
      .done (r.bind (ops.unary op)) env
  | .binary op left right, env =>
    (callableRun args left env).andThen fun l env =>
      match l with
      | .error e => .done (.error e) env
      | .ok l =>
        (callableRun args right env).andThen fun r env =>
          .done (r.bind (evalBinary ops op l)) env

def callBuiltinValue (table : FnTable) (id argc : Nat) : Exec W (Flow W) := do
  let (args, _) ← takeBuiltinArgs argc
  .mk fun d => .ok (.builtin (ops.callBuiltin id false args (isMain table d) d.env)) d

def callRngValue (h : Handle) (argc : Nat) : Exec W (Flow W) := do
  let (args, _) ← takeBuiltinArgs argc
  let r := ops.callRng h args (← getEnv)
  setEnv r.2
  push (← liftResult r.1)
  return .next

/-- A symbolic expression takes arguments, an equation or a predicate does not. -/
def callCasValue (kind : CasKind) (argc : Nat) : Exec W (Flow W) := do
  let (args, _) ← takeBuiltinArgs argc
  if (Value.cas kind).isCasExpr then
    push (← liftResult (ops.callCas kind args))
    return .next
  else throw .notBound

def callLifted (expr : CallableExpr) (argc : Nat) : Exec W (Flow W) := do
  if (← takePendingNamedMeta).isSome then throw .arity
  let args ← popMany argc
  return .builtin (callableRun ops args expr (← getEnv))

/-- A call of a user function, as a tail call or not. -/
def callUserFunction (tail : Bool) (callee : Value) (argc : Nat) : Exec W (Flow W) :=
  return if tail then .tail callee argc else .enter callee argc

/-- `dispatch_postfix`: a call of a callable, otherwise an index. -/
def dispatchPostfix (table : FnTable) (tail : Bool) (target : Value) (argc : Nat) :
    Exec W (Flow W) :=
  match target with
  | .builtinFunction _ id => callBuiltinValue ops table id argc
  | .rng h => callRngValue ops h argc
  | .liftedCallable expr => callLifted ops expr argc
  | .cas kind => callCasValue ops kind argc
  | .compiledFunction _ | .closure _ _ => callUserFunction tail target argc
  | _ => do
    if (← takePendingNamedMeta).isSome then throw .arity
    let args ← popMany argc
    push (← indexWithArgs ops target args)
    return .next

/-- `dispatch_user_value` on a value that is not a user function: without a
tail call, the callables are called; a tail call takes user functions only. -/
def dispatchUserValue (tail : Bool) (callee : Value) (argc : Nat) : Exec W (Flow W) :=
  match callee with
  | .compiledFunction _ | .closure _ _ => callUserFunction tail callee argc
  | .cas kind => if tail then throw .notBound else callCasValue ops kind argc
  | .rng h => if tail then throw .notBound else callRngValue ops h argc
  | .liftedCallable expr => if tail then throw .notBound else callLifted ops expr argc
  | _ => throw .notBound

def dispatchAnonCall (table : FnTable) (tail : Bool) (callee : Value) (argc : Nat) :
    Exec W (Flow W) :=
  match callee with
  | .builtinFunction _ id => callBuiltinValue ops table id argc
  | .rng h => callRngValue ops h argc
  | .liftedCallable expr => callLifted ops expr argc
  | callee => dispatchUserValue ops tail callee argc

def dispatchLoadedLocalCall (table : FnTable) (tail : Bool) (callee : Value) (argc : Nat) :
    Exec W (Flow W) :=
  match callee with
  | .builtinFunction _ id => callBuiltinValue ops table id argc
  | .rng h => callRngValue ops h argc
  | .compiledFunction _ | .closure _ _ => callUserFunction tail callee argc
  | _ => throw .call

def dispatchLoadedUserCall (table : FnTable) (tail : Bool) (callee : Value) (argc : Nat) :
    Exec W (Flow W) :=
  match callee with
  | .builtinFunction _ id => callBuiltinValue ops table id argc
  | .compiledFunction _ | .closure _ _ => callUserFunction tail callee argc
  | .liftedCallable _ | .cas _ | .rng _ => dispatchUserValue ops tail callee argc
  | _ => do
    let _ ← takePendingNamedMeta
    throw .call

/-- `invoke_builtin_id` and `invoke_builtin_discard_id`: a disabled builtin's
name may be bound to a value. -/
def invokeBuiltinId (table : FnTable) (id argc : Nat) (discard : Bool) : Exec W (Flow W) := do
  let (args, hadNamedMeta) ← takeBuiltinArgs argc
  if ops.isEnabledId id then
    .mk fun d => .ok (.builtin (ops.callBuiltin id discard args (isMain table d) d.env)) d
  else
    match ops.builtinName id with
    | none => throw .vm
    | some name =>
      match ← readGlobal name with
      | .builtinFunction _ id' =>
        if hadNamedMeta then throw .arity
        else
          .mk fun d => .ok (.builtin (ops.callBuiltin id' discard args (isMain table d) d.env)) d
      | v =>
        .mk fun d => .ok (.builtin (.call v { pos := args.pos, named := [] } d.env fun r env =>
          .done (if discard then r.map fun _ => Value.emptyList else r) env)) d

/-! ### Instructions -/

def jumpUnless (target : Nat) (cond : Bool) : Flow W := if cond then .next else .jump target

/-- An instruction without named-argument metadata. -/
def execPlain (table : FnTable) : Instruction → Exec W (Flow W)
  | .loadConst v => do push v; return .next
  | .loadOwnedConst slot => do
    let env ← getEnv
    match env.ownedConsts[slot]? with
    | some (some v) =>
      setEnv { env with ownedConsts := env.ownedConsts.set slot none }
      push v
      return .next
    | _ => throw .vm
  | .loadClosure payload => do
    let captured ← payload.captures.mapM capture
    push (.closure payload.fn captured)
    return .next
  | .loadVar name => do push (← resolveOperand ops (.var name)); return .next
  | .loadCallTarget operand => do push (← resolveOperand ops operand); return .next
  | .loadVarExists name => do push (.bool ((← getEnv).globals name).isSome); return .next
  | .loadCapture i => do push (← readCapture i); return .next
  | .loadSelf => do push (← currentFunction).callable; return .next
  | .storeVar name => do writeGlobal name (← pop1); return .next
  | .storeVarKeep name => do writeGlobal name (← peek); return .next
  | .loadLocal slot => do push (← readLocal slot); return .next
  | .storeLocal slot => do writeLocal slot (← pop1); return .next
  | .storeLocalKeep slot => do writeLocal slot (← peek); return .next
  | .storeCapture i => do writeCapture i (← pop1); return .next
  | .storeCaptureKeep i => do writeCapture i (← peek); return .next
  | .unpack paths => do
    let source ← pop1
    match paths.mapM (ops.extractUnpackPath source) with
    | some values => .mk fun d => .ok .next { d with unpackFrames := (source :: values) :: d.unpackFrames }
    | none => throw .index
  | .loadUnpack slot => .mk fun d =>
    match d.unpackFrames.head?.bind (·[slot]?) with
    | some v => .ok .next { d with stack := v :: d.stack }
    | none => .error .vm d
  | .endUnpack => .mk fun d =>
    match d.unpackFrames with
    | _ :: unpackFrames => .ok .next { d with unpackFrames }
    | [] => .error .vm d
  | .binaryOp op left right => do push (← binaryOp ops op left right); return .next
  | .catAssign target right => do
    let r ← resolveOperand ops right
    push (← mutateTarget target fun t => (.ok (ops.cat t r), ops.cat t r))
    return .next
  | .cmpChain chain => do
    ensureStackLen (chain.length + 1)
    .mk fun d =>
      let values := (d.stack.take (chain.length + 1)).reverse
      match ops.cmpChain chain values with
      | .ok v => .ok .next { d with stack := v :: d.stack.drop (chain.length + 1) }
      | .error e => .error e d
  | .cat n => do push (ops.catMany (← popMany n)); return .next
  | .unaryOp op operand => do
    push (← liftResult (ops.unary op (← resolveOperand ops operand)))
    return .next
  | .boolAndLazy target => .mk fun d =>
    match d.stack with
    | .bool false :: _ => .ok (.jump target) d
    | _ => .ok .next d
  | .boolOrLazy target => .mk fun d =>
    match d.stack with
    | .bool true :: _ => .ok (.jump target) d
    | _ => .ok .next d
  | .boolCombine op => do
    let (left, right) ← pop2
    push (← liftResult (ops.boolOp op left right))
    return .next
  | .callBuiltinId id argc => invokeBuiltinId ops table id argc false
  | .callBuiltinDiscardId id argc => invokeBuiltinId ops table id argc true
  | .callLocal _ argc => do dispatchLoadedLocalCall ops table false (← popUnder argc) argc
  | .callUser _ argc => do dispatchLoadedUserCall ops table false (← popUnder argc) argc
  | .callAnon argc => do dispatchAnonCall ops table false (← popUnder argc) argc
  | .postfix_ argc => do dispatchPostfix ops table false (← popUnder argc) argc
  | .tailCallLocal _ argc => do dispatchLoadedLocalCall ops table true (← popUnder argc) argc
  | .tailCallUser _ argc => do dispatchLoadedUserCall ops table true (← popUnder argc) argc
  | .tailCallAnon argc => do dispatchAnonCall ops table true (← popUnder argc) argc
  | .tailPostfix argc => do dispatchPostfix ops table true (← popUnder argc) argc
  | .makeList n => do push (Value.fromItems (← popMany n)); return .next
  | .makeDict n => do
    match dictItems (← popMany (n * 2)) with
    | some items => push (.dict (IndexMap.collect items)); return .next
    | none => throw .domain
  | .makeRange inclusive hasNext => do
    let end_ ← pop1
    let next_ ← if hasNext then some <$> pop1 else pure none
    let start ← pop1
    match next_ with
    | some next_ => push (← liftResult (ops.makeRangeFromNext start next_ end_ inclusive))
    | none => push (← liftResult (ops.makeRange start end_ none inclusive))
    return .next
  | .index => do
    let idx ← pop1
    let obj ← pop1
    push (← indexOne ops obj idx)
    return .next
  | .indexMany argc => do
    let args ← popMany argc
    let obj ← pop1
    push (← indexWithArgs ops obj args)
    return .next
  | .checkAtomPathIndex => do
    if ops.isBulkIndexKey (← peek) then throw .index
    return .next
  | .indexLoadLocal slot => do
    let idx ← pop1
    push (← indexOne ops (← readLocal slot) idx)
    return .next
  | .indexLoadCapture i => do
    let idx ← pop1
    push (← indexOne ops (← readCapture i) idx)
    return .next
  | .indexLoadVar name => do
    let idx ← pop1
    push (← indexOne ops (← readGlobal name) idx)
    return .next
  | .indexManyLoadLocal slot argc => do
    let args ← popMany argc
    push (← indexWithArgs ops (← readLocal slot) args)
    return .next
  | .indexManyLoadCapture i argc => do
    let args ← popMany argc
    push (← indexWithArgs ops (← readCapture i) args)
    return .next
  | .indexManyLoadVar name argc => do
    let args ← popMany argc
    push (← indexWithArgs ops (← readGlobal name) args)
    return .next
  | .indexAssignVar name => indexAssignOne ops (.var name) true
  | .indexAssignLocal slot => indexAssignOne ops (.local_ slot) true
  | .indexAssignCapture i => indexAssignOne ops (.capture i) true
  | .indexManyAssignVar name argc => indexAssignMany ops (.var name) argc true
  | .indexManyAssignLocal slot argc => indexAssignMany ops (.local_ slot) argc true
  | .indexManyAssignCapture i argc => indexAssignMany ops (.capture i) argc true
  | .indexAssignVarDrop name => indexAssignOne ops (.var name) false
  | .indexAssignLocalDrop slot => indexAssignOne ops (.local_ slot) false
  | .indexAssignCaptureDrop i => indexAssignOne ops (.capture i) false
  | .indexManyAssignVarDrop name argc => indexAssignMany ops (.var name) argc false
  | .indexManyAssignLocalDrop slot argc => indexAssignMany ops (.local_ slot) argc false
  | .indexManyAssignCaptureDrop i argc => indexAssignMany ops (.capture i) argc false
  | .jump target => return .jump target
  | .jumpIfFalse target => do return jumpUnless target (← condition (← pop1))
  | .jumpIfCmpFalse op left right target => do
    return jumpUnless target (← evalCmpBranchCondition ops op left right)
  | .nLoopEnter index count snapshot target => do
    let i ← readLocal index
    let n ← readLocal count
    if ← evalNLoopCondition ops i n then
      writeLocal snapshot i
      return .next
    else return .jump target
  | .nLoopNext snapshot index target => do
    let v ← readLocal snapshot
    let next_ ← match v with
      | .int n =>
        match i64? (n.toInt + 1) with
        | some n' => pure (.int n')
        | none => liftResult (evalBinary ops .add v (.int 1))
      | v => liftResult (evalBinary ops .add v (.int 1))
    writeLocal index next_
    return .jump target
  | .jumpIfGE target => do
    let (left, right) ← pop2
    match left, right with
    | .int a, .int b => return jumpUnless target (decide (a.toInt < b.toInt))
    | left, right =>
      return jumpUnless target (← condition (← liftResult (evalBinary ops .lt left right)))
  | .jumpIfLEZLocal slot target => do
    match ← readLocal slot with
    | .int n => return jumpUnless target (decide (0 < n.toInt))
    | .float f =>
      -- a NaN is not below zero, so it does not jump
      return jumpUnless target (!decide (f.partialCmp (F64.ofInt 0) = some .lt ∨
        f.partialCmp (F64.ofInt 0) = some .eq))
    | _ =>
      return jumpUnless target
        (← evalCmpBranchCondition ops .gt (.local_ slot) (.const (.int 0)))
  | .jumpIfNamedProvided slot bit target => do
    match ← readLocal slot with
    | .int mask => return jumpUnless target (!mask.toBitVec.getLsbD bit)
    | _ => return .next
  | .indexMutate target op => indexMutate ops target op
  | .pop => .mk fun d => .ok .next { d with stack := d.stack.tail }
  | .return_ => return .return_
  | .traceBegin => return .next
  | .debug => do let _ ← peek; return .next
  | .pause => return .next
  | .try_ len => return .try_ len
  | .import_ data => return .import_ data
  | .namedCall _ _ => throw .vm -- unreachable: `exec` takes the metadata off

def exec (table : FnTable) : Instruction → Exec W (Flow W)
  | .namedCall call metadata => do
    .mk fun d => .ok () { d with pendingNamedMeta := some metadata }
    execPlain ops table call
  | i => execPlain ops table i

theorem exec_cases (table : FnTable) (i : Instruction) :
    (∃ call metadata, i = .namedCall call metadata) ∨ exec ops table i = execPlain ops table i := by
  cases i with
  | namedCall call metadata => exact .inl ⟨call, metadata, rfl⟩
  | _ => exact .inr rfl

end Exec

end Wqpl
