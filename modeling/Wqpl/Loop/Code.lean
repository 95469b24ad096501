/-
# The code of loops

What the compiler emits for a W-loop and an N-loop, in each of its forms: the
general one, the W-loop whose body is a constant, the N-loop that is unrolled,
and the N-loop of a function that keeps its index in slots. The condition, the
count and the body are compiled before the loop's own code is put together;
here each of them is a block that does what its code does. Targets of jumps
count from the first instruction of the loop. Spans and marks for the debugger
are left out, and so is the limit on the number of local slots.

The locals of a function go by their names: the compiler numbers them by first
use.
-/
import Wqpl.Machine
import Wqpl.Vm.Exec

namespace Wqpl

/-! ### What the code works on -/

/-- What the code of a loop reads and writes. -/
structure LoopState (W : Type) where
  stack : List Value
  /-- The locals of the function; those not yet assigned hold the empty list. -/
  locals : String → Value
  captures : Nat → Value
  self : Value
  globals : String → Option Value
  world : W

namespace LoopState

variable {W : Type} (s : LoopState W)

def push (v : Value) : LoopState W := { s with stack := v :: s.stack }

def setLocal (x : String) (v : Value) : LoopState W :=
  { s with locals := fun y => if y = x then v else s.locals y }

def setGlobal (x : String) (v : Value) : LoopState W :=
  { s with globals := fun y => if y = x then some v else s.globals y }

def setCapture (i : Nat) (v : Value) : LoopState W :=
  { s with captures := fun j => if j = i then v else s.captures j }

end LoopState

/-- How control leaves the code of a loop: by an error, a return, or a jump of
a loop around it. -/
inductive Leave
  | error (e : WqErrorType)
  | return_ (v : Value)
  | break_
  | continue_

/-- How a block ends. -/
inductive BlockEnd (W : Type)
  /-- With its value, which goes on the stack. -/
  | value (v : Value) (s : LoopState W)
  | break_ (s : LoopState W)
  | continue_ (s : LoopState W)
  | leave (x : Leave) (s : LoopState W)

def BlockEnd.state {W : Type} : BlockEnd W → LoopState W
  | .value _ s => s
  | .break_ s => s
  | .continue_ s => s
  | .leave _ s => s

/-- The code of an expression or a statement sequence; it may not end. -/
abbrev Block (W : Type) := LoopState W → Option (BlockEnd W)

/-- An operand inside an instruction. -/
inductive LoopOperand
  | const (v : Value)
  | local_ (x : String)
  | capture (i : Nat)
  | var (x : String)
  | self

/-- The instructions of a loop. -/
inductive LoopInst (W : Type)
  | loadConst (v : Value)
  | loadVar (x : String)
  | storeVar (x : String)
  | storeVarKeep (x : String)
  | loadVarExists (x : String)
  | loadLocal (x : String)
  | storeLocal (x : String)
  | storeLocalKeep (x : String)
  | loadCapture (i : Nat)
  | storeCapture (i : Nat)
  | storeCaptureKeep (i : Nat)
  | loadSelf
  | binaryOp (op : BinaryOperator) (left right : LoopOperand)
  | jump (target : Nat)
  | jumpIfFalse (target : Nat)
  | nLoopEnter (index count snapshot : String) (target : Nat)
  | nLoopNext (snapshot index : String) (target : Nat)
  | pop
  /-- Compiled code, with the targets of its breaks and continues if it is the
  body of the loop. -/
  | block (b : Block W) (targets : Option (Nat × Nat))

/-- How control goes on after an instruction. -/
inductive LoopStep (W : Type)
  | next (s : LoopState W)
  | jump (target : Nat) (s : LoopState W)
  | leave (x : Leave) (s : LoopState W)
  | lost

section Exec

open Exec

variable {W : Type} (ops : Ops W)

/-- The value on the stack, for the instruction that takes it. -/
def LoopState.take (s : LoopState W) (k : Value → LoopState W → LoopStep W) : LoopStep W :=
  match s.stack with
  | [] => .leave (.error .vm) s
  | v :: stack => k v { s with stack }

/-- The same for an instruction that leaves it there. -/
def LoopState.peek (s : LoopState W) (k : Value → LoopState W → LoopStep W) : LoopStep W :=
  match s.stack with
  | [] => .leave (.error .vm) s
  | v :: _ => k v s

def LoopOperand.value (s : LoopState W) : LoopOperand → WqResult Value
  | .const v => .ok v
  | .local_ x => .ok (s.locals x)
  | .capture i => .ok (s.captures i)
  | .var x =>
    match s.globals x with
    | some v => .ok v
    | none =>
      match ops.builtinValue x with
      | some v => .ok v
      | none => .error .notBound
  | .self => .ok s.self

/-- Whether the operand is looked at by the integer fast path. -/
def LoopOperand.isFast : LoopOperand → Bool
  | .const _ | .local_ _ => true
  | _ => false

/-- The operands are evaluated from the right, and integers at hand first. -/
def binaryOpValue (op : BinaryOperator) (left right : LoopOperand) (s : LoopState W) :
    WqResult Value := do
  let r ← right.value ops s
  let l ← left.value ops s
  match l, r with
  | .int a, .int b =>
    if left.isFast && right.isFast then
      match evalIntBinary ops op a b with
      | some v => return v
      | none => evalBinary ops op l r
    else evalBinary ops op l r
  | l, r => evalBinary ops op l r

/-- `eval_n_loop_condition`. -/
def nLoopCondition (index count : Value) : WqResult Bool :=
  match index, count with
  | .int i, .int n => .ok (i.toInt < n.toInt)
  | index, count => do
    let v ← evalBinary ops .lt index count
    match v.tryToRustBool with
    | some b => return b
    | none => throw .domain

/-- The index after the one in the snapshot. -/
def nLoopIndex (snapshot : Value) : WqResult Value :=
  match snapshot with
  | .int n =>
    match i64? (n.toInt + 1) with
    | some n' => .ok (.int n')
    | none => evalBinary ops .add snapshot (.int 1)
  | v => evalBinary ops .add v (.int 1)

def LoopInst.exec (s : LoopState W) : LoopInst W → LoopStep W
  | .loadConst v => .next (s.push v)
  | .loadVar x =>
    match (LoopOperand.var x).value ops s with
    | .ok v => .next (s.push v)
    | .error e => .leave (.error e) s
  | .storeVar x => s.take fun v s => .next (s.setGlobal x v)
  | .storeVarKeep x => s.peek fun v s => .next (s.setGlobal x v)
  | .loadVarExists x => .next (s.push (.bool (s.globals x).isSome))
  | .loadLocal x => .next (s.push (s.locals x))
  | .storeLocal x => s.take fun v s => .next (s.setLocal x v)
  | .storeLocalKeep x => s.peek fun v s => .next (s.setLocal x v)
  | .loadCapture i => .next (s.push (s.captures i))
  | .storeCapture i => s.take fun v s => .next (s.setCapture i v)
  | .storeCaptureKeep i => s.peek fun v s => .next (s.setCapture i v)
  | .loadSelf => .next (s.push s.self)
  | .binaryOp op left right =>
    match binaryOpValue ops op left right s with
    | .ok v => .next (s.push v)
    | .error e => .leave (.error e) s
  | .jump target => .jump target s
  | .jumpIfFalse target => s.take fun v s =>
    match v.tryToRustBool with
    | some true => .next s
    | some false => .jump target s
    | none => .leave (.error .domain) s
  | .nLoopEnter index count snapshot target =>
    match nLoopCondition ops (s.locals index) (s.locals count) with
    | .ok true => .next (s.setLocal snapshot (s.locals index))
    | .ok false => .jump target s
    | .error e => .leave (.error e) s
  | .nLoopNext snapshot index target =>
    match nLoopIndex ops (s.locals snapshot) with
    | .ok v => .jump target (s.setLocal index v)
    | .error e => .leave (.error e) s
  | .pop => .next { s with stack := s.stack.tail }
  | .block b targets =>
    match b s with
    | none => .lost
    | some (.value v s) => .next (s.push v)
    | some (.break_ s) =>
      match targets with
      | some (target, _) => .jump target s
      | none => .leave .break_ s
    | some (.continue_ s) =>
      match targets with
      | some (_, target) => .jump target s
      | none => .leave .continue_ s
    | some (.leave x s) => .leave x s

end Exec

/-! ### Runs -/

/-- How the code of a loop ends: at its end, or elsewhere. -/
inductive LoopEnd (W : Type)
  | done (s : LoopState W)
  | left (x : Leave) (s : LoopState W)

inductive LoopRun (W : Type)
  | at_ (pc : Nat) (s : LoopState W)
  | ended (r : LoopEnd W)
  /-- In a block that does not end. -/
  | lost

namespace LoopRun

variable {W : Type} (ops : Ops W) (code : List (LoopInst W))

def step : LoopRun W → LoopRun W
  | at_ pc s =>
    match code[pc]? with
    | none => ended (.done s)
    | some i =>
      match i.exec ops s with
      | .next s => at_ (pc + 1) s
      | .jump target s => at_ target s
      | .leave x s => ended (.left x s)
      | .lost => lost
  | ended r => ended r
  | lost => lost

def outcome : LoopRun W → Option (LoopEnd W)
  | ended r => some r
  | _ => none

def machine : Machine (LoopRun W) (LoopEnd W) where
  step := step ops code
  outcome := outcome

end LoopRun

/-! ### The compiler's view of variables -/

/-- The names that the compiler makes up begin so; no name of a program does. -/
def isTemp (x : String) : Bool := x.toList.take 2 == ['-', '-']

structure Scope where
  fnDepth : Nat
  locals : List String
  definingName : Option String
  captureMap : String → Option Nat
  refCaptureMap : String → Option Nat
  refDefaultNames : List String
  /-- The number of captures. -/
  captures : Nat
  isolatedModule : Bool
  traceSymbolOperands : Bool
  /-- `builtins.has_function`. -/
  hasFunction : String → Bool
  gensym : Nat
  ref_not_temp : ∀ x ∈ refDefaultNames, isTemp x = false

namespace Scope

variable (σ : Scope)

def isLocal (x : String) : Bool := σ.locals.contains x

def isRefDefaultName (x : String) : Bool := 0 < σ.fnDepth && σ.refDefaultNames.contains x

/-- `local_slot`. -/
def addLocal (x : String) : Scope :=
  if σ.isLocal x then σ else { σ with locals := σ.locals ++ [x] }

/-- A capture of the global. -/
def captureGlobal (x : String) : Scope :=
  { σ with
    captureMap := fun y => if y = x then some σ.captures else σ.captureMap y
    captures := σ.captures + 1 }

/-- A new number for the names of this construct. -/
def next : Scope := { σ with gensym := σ.gensym + 1 }

end Scope

section Emit

variable {W : Type} (σ : Scope)

def emitStore (x : String) : LoopInst W × Scope :=
  if 0 < σ.fnDepth then
    if σ.isRefDefaultName x then
      match σ.refCaptureMap x with
      | some i => (.storeCapture i, σ)
      | none => (.storeVar x, σ)
    else (.storeLocal x, σ.addLocal x)
  else (.storeVar x, σ)

def emitStoreKeep (x : String) : LoopInst W × Scope :=
  if 0 < σ.fnDepth then
    if σ.isRefDefaultName x then
      match σ.refCaptureMap x with
      | some i => (.storeCaptureKeep i, σ)
      | none => (.storeVarKeep x, σ)
    else (.storeLocalKeep x, σ.addLocal x)
  else (.storeVarKeep x, σ)

def emitLoad (x : String) : LoopInst W × Scope :=
  if 0 < σ.fnDepth then
    if σ.isLocal x then (.loadLocal x, σ)
    else if σ.definingName = some x then (.loadSelf, σ)
    else if σ.isRefDefaultName x then
      match σ.refCaptureMap x with
      | some i => (.loadCapture i, σ)
      | none => (.loadVar x, σ)
    else
      match σ.captureMap x with
      | some i => (.loadCapture i, σ)
      | none =>
        if σ.hasFunction x then (.loadVar x, σ)
        else (.loadCapture σ.captures, σ.captureGlobal x)
  else (.loadVar x, σ)

def operandForName (x : String) : LoopOperand × Scope :=
  if 0 < σ.fnDepth then
    if σ.isLocal x then (.local_ x, σ)
    else if σ.definingName = some x then (.self, σ)
    else if σ.isRefDefaultName x then
      match σ.refCaptureMap x with
      | some i => (.capture i, σ)
      | none => (.var x, σ)
    else
      match σ.captureMap x with
      | some i => (.capture i, σ)
      | none =>
        if σ.hasFunction x then (.var x, σ)
        else (.capture σ.captures, σ.captureGlobal x)
  else (.var x, σ)

/-! ### The loop variable -/

inductive LoopVarRestore
  | topLevel (oldVar wasBoundVar : String)
  | function (oldVar : String) (wasBoundVar : Option String)

def loopOldVar (name : String) (id : Nat) : String := s!"--vm-loop-old-{name}-{id}"

def loopWasBoundVar (name : String) (id : Nat) : String := s!"--vm-loop-was-bound-{name}-{id}"

/-- `begin_loop_var_restore`, from the instruction `base` on. -/
def beginLoopVarRestore (base : Nat) (name : String) : List (LoopInst W) × LoopVarRestore × Scope :=
  let id := σ.gensym
  let σ := σ.next
  let oldVar := loopOldVar name id
  let wasBoundVar := loopWasBoundVar name id
  if σ.fnDepth = 0 then
    let (keepWasBound, σ) := emitStoreKeep σ wasBoundVar
    let (storeOld, σ) := emitStore σ oldVar
    ([.loadVarExists name, keepWasBound, .jumpIfFalse (base + 5), .loadVar name, storeOld],
      .topLevel oldVar wasBoundVar, σ)
  else if σ.isLocal name || σ.definingName = some name || (σ.captureMap name).isSome ||
      (σ.refCaptureMap name).isSome || σ.isRefDefaultName name then
    let (storeEmpty, σ) := emitStore σ oldVar
    let (load, σ) := emitLoad σ name
    let (storeOld, σ) := emitStore σ oldVar
    ([.loadConst Value.emptyList, storeEmpty, load, storeOld], .function oldVar none, σ)
  else if σ.isolatedModule then
    let (storeWasBound, σ) := emitStore σ wasBoundVar
    let (storeOld, σ) := emitStore σ oldVar
    ([.loadConst (.bool false), storeWasBound, .loadConst Value.emptyList, storeOld],
      .function oldVar (some wasBoundVar), σ)
  else
    let (keepWasBound, σ) := emitStoreKeep σ wasBoundVar
    let (storeEmpty, σ) := emitStore σ oldVar
    let (storeOld, σ) := emitStore σ oldVar
    ([.loadVarExists name, keepWasBound, .loadConst Value.emptyList, storeEmpty,
      .loadVarExists name, .jumpIfFalse (base + 8), .loadVar name, storeOld],
      .function oldVar (some wasBoundVar), σ)

/-- `finish_loop_var_restore`. -/
def finishLoopVarRestore (base : Nat) (name : String) : LoopVarRestore → List (LoopInst W) × Scope
  | .topLevel oldVar wasBoundVar =>
    let (loadWasBound, σ) := emitLoad σ wasBoundVar
    let (loadOld, σ) := emitLoad σ oldVar
    ([loadWasBound, .jumpIfFalse (base + 4), loadOld, .storeVar name], σ)
  | .function oldVar (some wasBoundVar) =>
    let (loadWasBound, σ) := emitLoad σ wasBoundVar
    let (loadOld, σ) := emitLoad σ oldVar
    let (store, σ) := emitStore σ name
    ([loadWasBound, .jumpIfFalse (base + 4), loadOld, store], σ)
  | .function oldVar none =>
    let (loadOld, σ) := emitLoad σ oldVar
    let (store, σ) := emitStore σ name
    ([loadOld, store], σ)

end Emit

/-! ### What the program sees -/

/-- The states agree on all that the program sees. -/
structure LoopState.SameUser {W : Type} (s s' : LoopState W) : Prop where
  stack : s.stack = s'.stack
  locals : ∀ x, isTemp x = false → s.locals x = s'.locals x
  captures : s.captures = s'.captures
  self : s.self = s'.self
  globals : ∀ x, isTemp x = false → s.globals x = s'.globals x
  world : s.world = s'.world

/-- The scopes agree on the variables of the program. -/
structure Scope.SameUser (σ σ' : Scope) : Prop where
  fnDepth : σ.fnDepth = σ'.fnDepth
  locals : ∀ x, isTemp x = false → σ.isLocal x = σ'.isLocal x
  definingName : σ.definingName = σ'.definingName
  captureMap : σ.captureMap = σ'.captureMap
  refCaptureMap : σ.refCaptureMap = σ'.refCaptureMap
  refDefaultNames : σ.refDefaultNames = σ'.refDefaultNames
  captures : σ.captures = σ'.captures
  isolatedModule : σ.isolatedModule = σ'.isolatedModule
  traceSymbolOperands : σ.traceSymbolOperands = σ'.traceSymbolOperands
  hasFunction : σ.hasFunction = σ'.hasFunction

/-- What the rest of the code of a function leaves of a scope. -/
structure Scope.Grows (σ σ' : Scope) : Prop where
  fnDepth : σ'.fnDepth = σ.fnDepth
  locals : ∀ x, σ.isLocal x = true → σ'.isLocal x = true
  refCaptureMap : σ'.refCaptureMap = σ.refCaptureMap
  refDefaultNames : σ'.refDefaultNames = σ.refDefaultNames
  gensym : σ.gensym ≤ σ'.gensym

inductive BlockEnd.Rel {W : Type} : BlockEnd W → BlockEnd W → Prop
  | value (v : Value) {s s' : LoopState W} (h : s.SameUser s') : Rel (.value v s) (.value v s')
  | break_ {s s' : LoopState W} (h : s.SameUser s') : Rel (.break_ s) (.break_ s')
  | continue_ {s s' : LoopState W} (h : s.SameUser s') : Rel (.continue_ s) (.continue_ s')
  | leave (x : Leave) {s s' : LoopState W} (h : s.SameUser s') : Rel (.leave x s) (.leave x s')

/-- The blocks do the same for the program. -/
def Block.Same {W : Type} (b b' : Block W) : Prop :=
  ∀ s s', s.SameUser s' → Option.Rel BlockEnd.Rel (b s) (b' s')

def wLoopResVar (id : Nat) : String := s!"--w-loop-res-{id}"

def nLoopCountVar (id : Nat) : String := s!"--vm-n-loop-count-{id}"

def nLoopResVar (id : Nat) : String := s!"--vm-n-loop-res-{id}"

def nLoopOldVar (id : Nat) : String := s!"--vm-n-loop-old-{id}"

/-- The names of the loops whose number is below `n`. -/
def Issued (n : Nat) (x : String) : Prop :=
  ∃ id < n, x = wLoopResVar id ∨ x = nLoopCountVar id ∨ x = nLoopResVar id ∨
    x = nLoopOldVar id ∨ x = loopOldVar "_n" id ∨ x = loopWasBoundVar "_n" id

/-! ### Loops -/

/-- An expression or a statement sequence, by what its code does. The code does
not depend on the names that the compiler made up before, and leaves what is
stored there as it is. -/
structure Code (W : Type) where
  compile : Scope → Block W × Scope
  respects : ∀ σ σ', σ.SameUser σ' → (compile σ).1.Same (compile σ').1
  scope : ∀ σ σ', σ.SameUser σ' → (compile σ).2.SameUser (compile σ').2
  /-- At the top level all variables are global. -/
  topLevel : ∀ σ, σ.fnDepth = 0 → (compile σ).2.SameUser σ
  grows : ∀ σ : Scope, σ.Grows (compile σ).2
  keeps : ∀ σ s e, (compile σ).1 s = some e → ∀ x, Issued σ.gensym x →
    e.state.locals x = s.locals x ∧ e.state.globals x = s.globals x

/-- The parts of a loop's body that tell whether it is a constant. Every other
node says whether control leaves from it. -/
inductive BodyNode
  | literal (v : Value)
  | block (stmts : List BodyNode)
  | blockExpr (stmts : List BodyNode)
  | group (expr : BodyNode)
  | other (ctrl : Bool)

namespace BodyNode

mutual

/-- `has_ctrl`. -/
def hasCtrl : BodyNode → Bool
  | literal _ => false
  | block stmts => anyCtrl stmts
  | blockExpr stmts => anyCtrl stmts
  | group expr => hasCtrl expr
  | other ctrl => ctrl

def anyCtrl : List BodyNode → Bool
  | [] => false
  | stmt :: stmts => hasCtrl stmt || anyCtrl stmts

end

mutual

/-- `pure_const_body`, below a node without control. -/
def pureConst : BodyNode → Bool
  | literal _ => true
  | block stmts => allPureConst stmts
  | blockExpr stmts => allPureConst stmts
  | group expr => pureConst expr
  | other _ => false

def allPureConst : List BodyNode → Bool
  | [] => true
  | stmt :: stmts => pureConst stmt && allPureConst stmts

end

/-- `pure_const_body`. -/
def pureConstBody (node : BodyNode) : Bool := !node.hasCtrl && node.pureConst

mutual

/-- `const_body_value`. -/
def constBodyValue : BodyNode → Option Value
  | literal v => some v
  | block stmts => lastConstValue stmts
  | blockExpr stmts => lastConstValue stmts
  | group expr => constBodyValue expr
  | other _ => none

def lastConstValue : List BodyNode → Option Value
  | [] => none
  | [stmt] => constBodyValue stmt
  | _ :: stmts => lastConstValue stmts

end

end BodyNode

/-- The body of a loop; its code depends on whether its value is needed. -/
structure LoopBody (W : Type) where
  node : BodyNode
  code : Bool → Code W
  /-- A literal puts its value on the stack and does nothing else. -/
  const : ∀ v, node.pureConstBody = true → node.constBodyValue = some v → ∀ σ,
    ((code true).compile σ).2.SameUser σ ∧ ∀ s, ((code true).compile σ).1 s = some (.value v s)
  noCtrl : node.hasCtrl = false → ∀ needed σ s s',
    ((code needed).compile σ).1 s ≠ some (.break_ s') ∧
      ((code needed).compile σ).1 s ≠ some (.continue_ s')

/-- A literal. -/
def Code.literal {W : Type} (v : Value) : Code W where
  compile σ := (fun s => some (.value v s), σ)
  respects _ _ _ _ _ h := .some (.value v h)
  scope _ _ h := h
  topLevel σ _ := ⟨rfl, fun _ _ => rfl, rfl, rfl, rfl, rfl, rfl, rfl, rfl, rfl⟩
  grows _ := ⟨rfl, fun _ h => h, rfl, rfl, le_rfl⟩
  keeps := by
    rintro σ s e he x -
    cases he
    exact ⟨rfl, rfl⟩

/-- The count of an N-loop. -/
inductive LoopCount (W : Type)
  | literal (v : Value)
  | expr (code : Code W)

def LoopCount.code {W : Type} : LoopCount W → Code W
  | literal v => .literal v
  | expr code => code

section Compile

variable {W : Type} (σ : Scope) (valueNeeded : Bool)

/-- The W-loop, if its body is not a constant. -/
def compileWLoopGeneral (cond body : Code W) : List (LoopInst W) × Scope :=
  if valueNeeded then
    let resultVar := wLoopResVar σ.gensym
    let (storeEmpty, σ) := emitStore σ.next resultVar
    let (c, σ) := cond.compile σ
    let (b, σ) := body.compile σ
    let (storeResult, σ) := emitStore σ resultVar
    let (loadResult, σ) := emitLoad σ resultVar
    ([.loadConst Value.emptyList, storeEmpty, .block c none, .jumpIfFalse 7,
      .block b (some (7, 6)), storeResult, .jump 2, loadResult], σ)
  else
    let (c, σ) := cond.compile σ
    let (b, σ) := body.compile σ
    ([.block c none, .jumpIfFalse 5, .block b (some (5, 4)), .pop, .jump 0,
      .loadConst Value.emptyList], σ)

/-- `compile_node` of a W-loop. -/
def compileWLoop (cond : Code W) (body : LoopBody W) : List (LoopInst W) × Scope :=
  match valueNeeded && body.node.pureConstBody, body.node.constBodyValue with
  | true, some value =>
    let (c, σ) := cond.compile σ
    ([.block c none, .jumpIfFalse 3, .jump 0, .loadConst value], σ)
  | _, _ => compileWLoopGeneral σ valueNeeded cond (body.code valueNeeded)

/-- The last `k` of the `n` copies of the body. -/
def unrolledCopies {W : Type} (n : Nat) (body : Code W) : Nat → Scope → List (LoopInst W) × Scope
  | 0, σ => ([], σ)
  | k + 1, σ =>
    let (storeIndex, σ) := emitStore σ "_n"
    let (b, σ) := body.compile σ
    let (rest, σ) := unrolledCopies n body k σ
    ([.loadConst (.int (Int64.ofNat (n - (k + 1)))), storeIndex, .block b none] ++
      (if 0 < k then [.pop] else []) ++ rest, σ)

/-- The N-loop with a small literal count. -/
def compileNLoopUnrolled (σ : Scope) (n : Nat) (body : Code W) : List (LoopInst W) × Scope :=
  if n = 0 then ([.loadConst Value.emptyList], σ)
  else
    let (begin_, restore, σ) := beginLoopVarRestore σ 0 "_n"
    let (copies, σ) := unrolledCopies n body n σ
    let (finish, σ) := finishLoopVarRestore σ (begin_.length + copies.length) "_n" restore
    (begin_ ++ copies ++ finish, σ)

/-- The N-loop that counts at run time, with its index in slots or not; `none`
where the compiler finds no slot for the index. -/
def compileNLoopGeneral (slots : Bool) (count body : Code W) :
    Option (List (LoopInst W) × Scope) :=
  let id := σ.gensym
  let countVar := nLoopCountVar id
  let resultVar := nLoopResVar id
  let oldVar := nLoopOldVar id
  let (c, σ) := count.compile σ.next
  let (storeCount, σ) := emitStore σ countVar
  let (begin_, restore, σ) := beginLoopVarRestore σ 2 "_n"
  let (storeIndex, σ) := emitStore σ "_n"
  let (storeEmpty, σ) := if valueNeeded then emitStore σ resultVar else (.pop, σ)
  -- without a result the list is not stored, and nothing stands in its place
  let init := if valueNeeded then [.loadConst Value.emptyList, storeEmpty] else []
  let setUp := [.block c none, storeCount] ++ begin_ ++ [.loadConst (.int 0), storeIndex] ++ init
  let start := setUp.length
  if slots then
    if σ.isLocal "_n" && σ.isLocal countVar then
      let (b, σ) := body.compile (σ.addLocal oldVar)
      let (storeResult, σ) := if valueNeeded then emitStore σ resultVar else (.pop, σ)
      let loop := [.nLoopEnter "_n" countVar oldVar (start + 4),
        .block b (some (start + 4, start + 3)), storeResult, .nLoopNext oldVar "_n" start]
      let (finish, σ) := finishLoopVarRestore σ (start + 4) "_n" restore
      let (loadResult, σ) :=
        if valueNeeded then emitLoad σ resultVar else (.loadConst Value.emptyList, σ)
      some (setUp ++ loop ++ finish ++ [loadResult], σ)
    else none
  else
    let (index, σ) := operandForName σ "_n"
    let (count, σ) := operandForName σ countVar
    let (loadIndex, σ) := emitLoad σ "_n"
    let (storeOld, σ) := emitStore σ oldVar
    let (b, σ) := body.compile σ
    let (storeResult, σ) := if valueNeeded then emitStore σ resultVar else (.pop, σ)
    let (old, σ) := operandForName σ oldVar
    let (storeNext, σ) := emitStore σ "_n"
    let loop := [.binaryOp .lt index count, .jumpIfFalse (start + 9), loadIndex, storeOld,
      .block b (some (start + 9, start + 6)), storeResult,
      .binaryOp .add old (.const (.int 1)), storeNext, .jump start]
    let (finish, σ) := finishLoopVarRestore σ (start + 9) "_n" restore
    let (loadResult, σ) :=
      if valueNeeded then emitLoad σ resultVar else (.loadConst Value.emptyList, σ)
    some (setUp ++ loop ++ finish ++ [loadResult], σ)

/-- `compile_node` of an N-loop; `none` where the count is rejected. -/
def compileNLoop (count : LoopCount W) (body : LoopBody W) : Option (List (LoopInst W) × Scope) :=
  let general := compileNLoopGeneral σ valueNeeded (0 < σ.fnDepth && !σ.traceSymbolOperands)
    count.code (body.code valueNeeded)
  match count with
  | .literal (.int n) =>
    if 0 ≤ n.toInt ∧ body.node.hasCtrl = false ∧ n.toInt ≤ 64 then
      some (compileNLoopUnrolled σ n.toInt.toNat (body.code valueNeeded))
    else general
  | .literal (.bigInt _) => general
  | .literal _ => none
  | .expr _ => general

end Compile

end Wqpl
