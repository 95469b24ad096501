/-
# The state an instruction works on

The operand stack and the activation of the current function, the frames of
anonymous unpacking, the pending named-argument metadata, and the environment
that all frames share: globals, heap cells, the pool of owned constants, the
module cache, and a world for what the machine only passes on (generators,
streams, the host).

The operations on values that the machine calls as black boxes, and the
builtins, are given by `Ops`; every result holds for all of them. A builtin
is a tree of callbacks (`BuiltinRun`).
-/
import Wqpl.Vm.Inst
import Wqpl.HigherOrder.Builtins

namespace Wqpl

/-- A local slot holds its value or the cell it shares with closures. -/
inductive Slot
  | value (v : Value)
  | cell (c : CellId)

instance : Inhabited Slot := ⟨.value Value.emptyList⟩

/-- The function a frame runs. -/
structure Activation where
  locals : List Slot
  captures : List CellId
  callable : Value

inductive ModuleCacheEntry
  | loading
  | loaded (v : Value)

/-- What all frames share. -/
structure Env (W : Type) where
  globals : String → Option Value
  cells : List Value
  ownedConsts : List (Option Value)
  modules : String → Option ModuleCacheEntry
  world : W

/-- A builtin at work: it ends, or calls back and goes on with the result. -/
inductive BuiltinRun (W : Type)
  | done (r : WqResult Value) (env : Env W)
  | call (f : Value) (args : BuiltinFnArgs) (env : Env W)
      (k : WqResult Value → Env W → BuiltinRun W)

namespace BuiltinRun

variable {W : Type}

def andThen : BuiltinRun W → (WqResult Value → Env W → BuiltinRun W) → BuiltinRun W
  | done r env, k => k r env
  | call f args env k', k => call f args env fun r env => (k' r env).andThen k

end BuiltinRun

/-- The operations the machine uses without looking into them. Those that
change a value in place return what is left of it, also when they fail. -/
structure Ops (W : Type) where
  /-- `eval_binary`, except where `evalBinary` defines it. -/
  binary : BinaryOperator → Value → Value → WqResult Value
  unary : UnaryOperator → Value → WqResult Value
  boolOp : BoolOperator → Value → Value → WqResult Value
  cmpChain : List BinaryOperator → List Value → WqResult Value
  /-- The quotient of two integers as a float. -/
  intDivide : Int64 → Int64 → Value
  cat : Value → Value → Value
  catMany : List Value → Value
  index : Value → Value → Option Value
  indexMany : Value → List Value → Option Value
  /-- Whether the index addresses many items at once. -/
  isBulkIndexKey : Value → Bool
  assignByIndex : Value → Value → Value → Bool × Value
  assignByIndices : Value → List Value → Value → Bool × Value
  parsePopCount : Value → WqResult Nat
  popInPlace : Value → Nat → WqResult Value × Value
  removeInPlace : Value → Value → WqResult Value × Value
  insertInPlace : Value → Value → Option Value → WqResult Value × Value
  makeRange : Value → Value → Option Value → Bool → WqResult Value
  makeRangeFromNext : Value → Value → Value → Bool → WqResult Value
  extractUnpackPath : Value → UnpackPath → Option Value
  /-- The value of an enabled builtin's name. -/
  builtinValue : String → Option Value
  isEnabledId : Nat → Bool
  builtinName : Nat → Option String
  /-- A builtin on its arguments, and whether the current function belongs to
  the main program. -/
  callBuiltin : Nat → (discard : Bool) → BuiltinFnArgs → (isMain : Bool) → Env W → BuiltinRun W
  callRng : Handle → BuiltinFnArgs → Env W → WqResult Value × Env W
  /-- A symbolic expression on its arguments. -/
  callCas : CasKind → BuiltinFnArgs → WqResult Value
  /-- The value of a caught error. -/
  errorValue : WqErrorType → Value
  resolveModule : ImportData → Env W → WqResult String
  compileModule : String → Env W → WqResult FnId
  maxCallDepth : Nat

/-- Operations for programs that use none: all fail. -/
def Ops.inert : Ops Unit where
  binary _ _ _ := .error .domain
  unary _ _ := .error .domain
  boolOp _ _ _ := .error .domain
  cmpChain _ _ := .error .domain
  intDivide _ _ := Value.emptyList
  cat _ _ := Value.emptyList
  catMany _ := Value.emptyList
  index _ _ := none
  indexMany _ _ := none
  isBulkIndexKey _ := false
  assignByIndex v _ _ := (false, v)
  assignByIndices v _ _ := (false, v)
  parsePopCount _ := .error .domain
  popInPlace v _ := (.error .domain, v)
  removeInPlace v _ := (.error .domain, v)
  insertInPlace v _ _ := (.error .domain, v)
  makeRange _ _ _ _ := .error .domain
  makeRangeFromNext _ _ _ _ := .error .domain
  extractUnpackPath _ _ := none
  builtinValue _ := none
  isEnabledId _ := false
  builtinName _ := none
  callBuiltin _ _ _ _ env := .done (.error .domain) env
  callRng _ _ env := (.error .domain, env)
  callCas _ _ := .error .domain
  errorValue _ := Value.emptyList
  resolveModule _ _ := .error .io
  compileModule _ _ := .error .io
  maxCallDepth := 1000

/-- An environment without variables. -/
def Env.empty : Env Unit where
  globals _ := none
  cells := []
  ownedConsts := []
  modules _ := none
  world := ()

/-- What the current frame's instructions read and write. The top of the stack
comes first, and so does the innermost unpack frame. -/
structure Data (W : Type) where
  stack : List Value
  function : Option Activation
  unpackFrames : List (List Value)
  pendingNamedMeta : Option NamedArgMeta
  env : Env W

/-- What a computation on the data ends with. What it did before a failure
stays. -/
inductive ExecResult (W α : Type)
  | ok (a : α) (d : Data W)
  | error (e : WqErrorType) (d : Data W)

/-- The data left behind. -/
def ExecResult.data {W α : Type} : ExecResult W α → Data W
  | .ok _ d => d
  | .error _ d => d

/-- A computation on the data that may fail. -/
structure Exec (W α : Type) where
  run : Data W → ExecResult W α

namespace Exec

variable {W : Type} {α β : Type}

instance : Monad (Exec W) where
  pure a := ⟨fun d => .ok a d⟩
  bind m f := ⟨fun d =>
    match m.run d with
    | .ok a d => (f a).run d
    | .error e d => .error e d⟩

instance : MonadExcept WqErrorType (Exec W) where
  throw e := ⟨fun d => .error e d⟩
  tryCatch m handle := ⟨fun d =>
    match m.run d with
    | .ok a d => .ok a d
    | .error e d => (handle e).run d⟩

theorem run_bind (m : Exec W α) (f : α → Exec W β) (d : Data W) :
    (m >>= f).run d =
      match m.run d with
      | .ok a d => (f a).run d
      | .error e d => .error e d := rfl

@[simp] theorem run_pure (a : α) (d : Data W) : (pure a : Exec W α).run d = .ok a d := rfl

@[simp] theorem run_throw (e : WqErrorType) (d : Data W) :
    (throw e : Exec W α).run d = .error e d := rfl

theorem run_bind_ok {m : Exec W α} {d d' : Data W} {a : α} (h : m.run d = .ok a d')
    (f : α → Exec W β) : (m >>= f).run d = (f a).run d' := by
  rw [run_bind, h]

theorem run_bind_error {m : Exec W α} {d d' : Data W} {e : WqErrorType}
    (h : m.run d = .error e d') (f : α → Exec W β) : (m >>= f).run d = .error e d' := by
  rw [run_bind, h]

private theorem exec_id_map (m : Exec W α) : id <$> m = m := by
  show (⟨_⟩ : Exec W _) = m
  congr 1
  funext d
  cases h : m.run d <;> simp [h]

private theorem exec_bind_assoc {γ : Type} (m : Exec W α) (f : α → Exec W β) (g : β → Exec W γ) :
    m >>= f >>= g = m >>= fun a => f a >>= g := by
  show (⟨_⟩ : Exec W _) = ⟨_⟩
  congr 1
  funext d
  simp only [run_bind]
  cases m.run d <;> rfl

instance : LawfulMonad (Exec W) :=
  LawfulMonad.mk' (Exec W) exec_id_map (fun _ _ => rfl) exec_bind_assoc

def liftResult (r : WqResult α) : Exec W α := .mk fun d =>
  match r with
  | .ok a => .ok a d
  | .error e => .error e d

/-! ### The operand stack -/

def push (v : Value) : Exec W Unit := .mk fun d => .ok () { d with stack := v :: d.stack }

/-- `ensure_stack_len`. -/
def ensureStackLen (need : Nat) : Exec W Unit := .mk fun d =>
  if d.stack.length < need then .error .vm d else .ok () d

/-- `pop1_stack`. -/
def pop1 : Exec W Value := .mk fun d =>
  match d.stack with
  | [] => .error .vm d
  | v :: stack => .ok v { d with stack }

/-- `pop2_stack`: the lower value and the upper one. -/
def pop2 : Exec W (Value × Value) := .mk fun d =>
  match d.stack with
  | right :: left :: stack => .ok (left, right) { d with stack }
  | _ => .error .vm d

/-- The upper `n` values off the stack, in the order they were pushed. -/
def popMany (n : Nat) : Exec W (List Value) := do
  ensureStackLen n
  Exec.mk fun d => .ok (d.stack.take n).reverse { d with stack := d.stack.drop n }

/-- The value under the upper `n` ones off the stack. -/
def popUnder (n : Nat) : Exec W Value := do
  ensureStackLen (n + 1)
  Exec.mk fun d =>
    match d.stack[n]? with
    | some v => .ok v { d with stack := d.stack.eraseIdx n }
    | none => .error .vm d

/-- `last_clone_stack`. -/
def peek : Exec W Value := .mk fun d =>
  match d.stack with
  | [] => .error .vm d
  | v :: _ => .ok v d

def takePendingNamedMeta : Exec W (Option NamedArgMeta) := .mk fun d =>
  .ok d.pendingNamedMeta { d with pendingNamedMeta := none }

/-! ### Variables -/

end Exec

namespace Env

variable {W : Type} (env : Env W)

def readCell (c : CellId) : Value := env.cells.getD c Value.emptyList

def writeCell (c : CellId) (v : Value) : Env W := { env with cells := env.cells.set c v }

/-- A new cell and its address. -/
def allocCell (v : Value) : CellId × Env W :=
  (env.cells.length, { env with cells := env.cells ++ [v] })

def setGlobal (name : String) (v : Value) : Env W :=
  { env with globals := fun n => if n = name then some v else env.globals n }

def setModule (identity : String) (entry : Option ModuleCacheEntry) : Env W :=
  { env with modules := fun n => if n = identity then entry else env.modules n }

def finishModule (identity : String) (v : Value) : Env W :=
  env.setModule identity (some (.loaded v))

def failModule (identity : String) : Env W :=
  match env.modules identity with
  | some .loading => env.setModule identity none
  | _ => env

end Env

def Slot.read {W : Type} (env : Env W) : Slot → Value
  | .value v => v
  | .cell c => env.readCell c

namespace Exec

variable {W : Type}

def getEnv : Exec W (Env W) := .mk fun d => .ok d.env d

def setEnv (env : Env W) : Exec W Unit := .mk fun d => .ok () { d with env }

/-- `current_locals`, where it is an error to have none. -/
def currentFunction : Exec W Activation := .mk fun d =>
  match d.function with
  | some a => .ok a d
  | none => .error .vm d

def localSlot (slot : Nat) : Exec W Slot := do
  let a ← currentFunction
  match a.locals[slot]? with
  | some s => return s
  | none => throw .vm

def readLocal (slot : Nat) : Exec W Value := do
  let s ← localSlot slot
  let env ← getEnv
  return s.read env

/-- Puts a value into the slot, or into the cell there. -/
def writeLocal (slot : Nat) (v : Value) : Exec W Unit := do
  let s ← localSlot slot
  match s with
  | .cell c => setEnv ((← getEnv).writeCell c v)
  | .value _ => .mk fun d => .ok () { d with
      function := d.function.map fun a => { a with locals := a.locals.set slot (.value v) } }

def captureCell (i : Nat) : Exec W CellId := do
  let a ← currentFunction
  match a.captures[i]? with
  | some c => return c
  | none => throw .vm

def readCapture (i : Nat) : Exec W Value := do
  let c ← captureCell i
  return (← getEnv).readCell c

def writeCapture (i : Nat) (v : Value) : Exec W Unit := do
  let c ← captureCell i
  setEnv ((← getEnv).writeCell c v)

def readGlobal (name : String) : Exec W Value := do
  match (← getEnv).globals name with
  | some v => return v
  | none => throw .notBound

def writeGlobal (name : String) (v : Value) : Exec W Unit := do
  setEnv ((← getEnv).setGlobal name v)

def readTarget : StoreTarget → Exec W Value
  | .local_ slot => readLocal slot
  | .capture i => readCapture i
  | .var name => readGlobal name

def writeTarget : StoreTarget → Value → Exec W Unit
  | .local_ slot => writeLocal slot
  | .capture i => writeCapture i
  | .var name => writeGlobal name

/-- `mutate_target`: changes the value of a binding in place. What `f` leaves
of it is kept also when `f` fails. -/
def mutateTarget {α : Type} (target : StoreTarget) (f : Value → WqResult α × Value) : Exec W α := do
  let old ← readTarget target
  writeTarget target (f old).2
  liftResult (f old).1

end Exec

end Wqpl
