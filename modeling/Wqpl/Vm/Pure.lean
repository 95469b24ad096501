/-
# Pure plans of callbacks

A callback without jumps, calls and stores to shared variables is turned into
an expression over its arguments: its instructions run on a stack of
expressions instead of values, and what is on that stack at the end is the
plan. A store to a local only renames an expression, so an expression that
ends up in a local nobody reads is not in the plan. The plan answers with a
value, with an error, or not at all (an index whose target turns out to be
callable).
-/
import Wqpl.Cas.Scope
import Wqpl.Vm.Step

namespace Wqpl

/-- An expression over the arguments of a callback. -/
inductive PureExpr
  | arg (slot : Nat)
  | const (v : Value)
  | capture (cell : CellId)
  | casCall (kind : CasKind) (var : String)
  | unary (op : UnaryOperator) (operand : PureExpr)
  | index (target : PureExpr) (args : List PureExpr)
  | binary (op : BinaryOperator) (left right : PureExpr)

/-- `substitute_cas`: the expression with a value for a variable. -/
abbrev SubstituteCas := CasKind → String → Value → WqResult Value

namespace PureExpr

section Eval

variable {W : Type} (ops : Ops W) (substituteCas : SubstituteCas) (env : Env W)
  (args : List Value)

/-- An index with one key, or with several. -/
def indexValue (target : Value) (keys : List Value) : Option Value :=
  match keys with
  | [key] => ops.index target key
  | keys => ops.indexMany target keys

mutual

def eval : PureExpr → WqResult (Option Value)
  | .arg slot =>
    match args[slot]? with
    | some v => .ok (some v)
    | none => .error .vm
  | .const v => .ok (some v)
  | .capture cell => .ok (some (env.readCell cell))
  | .casCall kind var =>
    match args.head? with
    | some v => (substituteCas kind var v).map some
    | none => .error .vm
  | .unary op operand =>
    match eval operand with
    | .ok (some v) => (ops.unary op v).map some
    | .ok none => .ok none
    | .error e => .error e
  | .index target keys =>
    match eval target with
    | .ok (some t) =>
      if t.isCallable then .ok none
      else
        match evalAll keys with
        | .ok (some ks) =>
          match indexValue ops t ks with
          | some v => .ok (some v)
          | none => .error .index
        | .ok none => .ok none
        | .error e => .error e
    | .ok none => .ok none
    | .error e => .error e
  | .binary op left right =>
    match eval left with
    | .ok (some l) =>
      match eval right with
      | .ok (some r) => (Exec.evalBinary ops op l r).map some
      | .ok none => .ok none
      | .error e => .error e
    | .ok none => .ok none
    | .error e => .error e
termination_by structural e => e

def evalAll : List PureExpr → WqResult (Option (List Value))
  | [] => .ok (some [])
  | e :: es =>
    match eval e with
    | .ok (some v) =>
      match evalAll es with
      | .ok (some vs) => .ok (some (v :: vs))
      | .ok none => .ok none
      | .error e => .error e
    | .ok none => .ok none
    | .error e => .error e
termination_by structural es => es

end

end Eval

end PureExpr

/-! ### Plans -/

/-- The stack of expressions, top first, and the expressions of the locals that
have one. -/
structure PlanState where
  stack : List PureExpr
  locals : List (Option PureExpr)

namespace PureCallback

def localExpr (locals : List (Option PureExpr)) (slot : Nat) : Option PureExpr :=
  (locals[slot]?).join

def captureExpr (captures : List CellId) (slot : Nat) : Option PureExpr :=
  (captures[slot]?).map .capture

/-- The upper `argc` expressions, in the order they were pushed, and the stack
below them. -/
def indexArgs (stack : List PureExpr) (argc : Nat) : Option (List PureExpr × List PureExpr) :=
  if stack.length < argc then none else some ((stack.take argc).reverse, stack.drop argc)

/-- The expression of an operand and the stack it leaves. -/
def operandExpr (captures : List CellId) (locals : List (Option PureExpr))
    (stack : List PureExpr) : Operand → Option (PureExpr × List PureExpr)
  | .stack =>
    match stack with
    | e :: stack => some (e, stack)
    | [] => none
  | .const v => some (.const v, stack)
  | .local_ slot => (localExpr locals slot).map (·, stack)
  | .capture slot => (captureExpr captures slot).map (·, stack)
  | .var _ | .self => none

/-- An instruction on expressions. -/
def planInst (captures : List CellId) (st : PlanState) : Instruction → Option PlanState
  | .loadConst v => some { st with stack := .const v :: st.stack }
  | .loadLocal slot => do
    let e ← localExpr st.locals slot
    some { st with stack := e :: st.stack }
  | .loadCapture slot => do
    let e ← captureExpr captures slot
    some { st with stack := e :: st.stack }
  | .storeLocal slot =>
    match st.stack with
    | e :: stack =>
      if slot < st.locals.length then some { stack, locals := st.locals.set slot (some e) }
      else none
    | [] => none
  | .storeLocalKeep slot =>
    match st.stack with
    | e :: _ =>
      if slot < st.locals.length then some { st with locals := st.locals.set slot (some e) }
      else none
    | [] => none
  | .unaryOp op operand => do
    let (e, stack) ← operandExpr captures st.locals st.stack operand
    some { st with stack := .unary op e :: stack }
  | .binaryOp op left right => do
    let (r, stack) ← operandExpr captures st.locals st.stack right
    let (l, stack) ← operandExpr captures st.locals stack left
    some { st with stack := .binary op l r :: stack }
  | .index =>
    match st.stack with
    | key :: target :: stack => some { st with stack := .index target [key] :: stack }
    | _ => none
  | .indexMany argc | .postfix_ argc | .tailPostfix argc =>
    if argc = 0 then none
    else
      match indexArgs st.stack argc with
      | some (keys, target :: stack) => some { st with stack := .index target keys :: stack }
      | _ => none
  | .indexManyLoadLocal slot argc =>
    if argc = 0 then none
    else do
      let (keys, stack) ← indexArgs st.stack argc
      let target ← localExpr st.locals slot
      some { st with stack := .index target keys :: stack }
  | .indexManyLoadCapture slot argc =>
    if argc = 0 then none
    else do
      let (keys, stack) ← indexArgs st.stack argc
      let target ← captureExpr captures slot
      some { st with stack := .index target keys :: stack }
  | _ => none

def planBody (captures : List CellId) : PlanState → List Instruction → Option PlanState
  | st, [] => some st
  | st, i :: is => (planInst captures st i).bind fun st => planBody captures st is

/-- The locals of a callback: the arguments, and locals without a value. -/
def initialLocals (locals arity : Nat) : List (Option PureExpr) :=
  (List.range locals).map fun (slot : Nat) => if slot < arity then some (.arg slot) else none

/-- The code before the last instruction, if that is a return. -/
def returningBody (instructions : List Instruction) : Option (List Instruction) :=
  match instructions.getLast? with
  | some .return_ => some instructions.dropLast
  | _ => none

/-- The plan of a user function: its checks, and its code on expressions. -/
def userPlan (f : FnShape) (arity : Nat) : Option (List Instruction × PlanState) :=
  if f.namedParams.isSome then none
  else if f.paramsLen.any (· ≠ arity) ∨ f.paramsLen = none ∧ 3 < arity then none
  else if f.locals < arity then none
  else
    (returningBody f.instructions).map fun body =>
      (body, { stack := [], locals := initialLocals f.locals arity })

def compileUser (f : FnShape) (captures : List CellId) (arity : Nat) : Option PureExpr := do
  let (body, st) ← userPlan f arity
  let st ← planBody captures st body
  match st.stack with
  | [result] => some result
  | _ => none

/-- `infer_single_cas_var`. -/
def inferSingleCasVar (v : Value) : Option String :=
  match (v.collectFreeCasVars ∅).sort (· ≤ ·) with
  | [var] => some var
  | _ => none

/-- `from_cas_callable`. -/
def fromCasCallable (kind : CasKind) (arity : Nat) : Option PureExpr :=
  if arity ≠ 1 ∨ !(Value.cas kind).isCasExpr then none
  else (inferSingleCasVar (.cas kind)).map (.casCall kind)

mutual

/-- `PureCallback::compile`. -/
def compile (table : FnTable) (arity : Nat) : Value → Option PureExpr
  | .cas kind => fromCasCallable kind arity
  | .liftedCallable expr => fromCallableExpr table arity expr
  | .compiledFunction fn => compileUser (table fn) [] arity
  | .closure fn captured => compileUser (table fn) captured arity
  | _ => none
termination_by structural v => v

def fromCallableExpr (table : FnTable) (arity : Nat) : CallableExpr → Option PureExpr
  | .const v => some (.const v)
  | .call v => compile table arity v
  | .unary op operand => (fromCallableExpr table arity operand).map (.unary op)
  | .binary op left right => do
    let l ← fromCallableExpr table arity left
    let r ← fromCallableExpr table arity right
    some (.binary op l r)
termination_by structural expr => expr

end

/-! ### What the code computes -/

/-- The expression on top of the stack after each instruction. -/
def computedBy (captures : List CellId) : PlanState → List Instruction → List PureExpr
  | _, [] => []
  | st, i :: is =>
    match planInst captures st i with
    | some st => st.stack.head?.toList ++ computedBy captures st is
    | none => []

def computedUser (f : FnShape) (captures : List CellId) (arity : Nat) : List PureExpr :=
  match userPlan f arity with
  | some (body, st) => computedBy captures st body
  | none => []

mutual

/-- The expressions that the code of the callback computes, also those that the
plan leaves out. -/
def computed (table : FnTable) (arity : Nat) : Value → List PureExpr
  | .liftedCallable expr => computedExpr table arity expr
  | .compiledFunction fn => computedUser (table fn) [] arity
  | .closure fn captured => computedUser (table fn) captured arity
  | _ => []
termination_by structural v => v

def computedExpr (table : FnTable) (arity : Nat) : CallableExpr → List PureExpr
  | .const _ => []
  | .call v => computed table arity v
  | .unary _ operand => computedExpr table arity operand
  | .binary _ left right => computedExpr table arity left ++ computedExpr table arity right
termination_by structural expr => expr

end

end PureCallback

end Wqpl
