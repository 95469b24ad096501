/-
# The virtual machine

One step of the machine: an instruction of the current frame, the end of a try
region, a step of a builtin, or one frame of unwinding after an error. Calls
push the caller's frame and run the callee on an operand stack of its own; a
builtin's callback is a call that goes on with the builtin when it returns.
The try regions of all frames lie on one stack, each with the call depth and
the code it belongs to.

Left out are what does not change results: inline caches, pooled buffers,
traces, backtraces, interrupts and the debugger. A run is a cooperative one, so
a call is never answered by a pure plan of the callee.
-/
import Wqpl.Machine
import Wqpl.Vm.Exec

namespace Wqpl

structure TryFrame where
  code : FnId
  callDepth : Nat
  endPc : Nat
  stackStart : Nat
  savedPendingNamedMeta : Option NamedArgMeta
  unpackDepth : Nat

/-- Where the value of a call goes: on the caller's stack, or to the builtin
that called back. -/
inductive CallCont (W : Type)
  | push
  | builtin (savedNamedMeta : Option NamedArgMeta) (k : WqResult Value → Env W → BuiltinRun W)

structure CallerFrame (W : Type) where
  code : FnId
  pc : Nat
  stack : List Value
  function : Option Activation
  moduleIdentity : Option String
  unpackDepth : Nat
  cont : CallCont W

inductive Control (W : Type)
  | running
  | builtin (run : BuiltinRun W)
  | unwinding (e : WqErrorType)
  | halted (r : WqResult Value)

structure Vm (W : Type) where
  code : FnId
  pc : Nat
  data : Data W
  callers : List (CallerFrame W)
  tryStack : List TryFrame
  control : Control W

/-- The lower `n` values of a stack. -/
def truncate {α : Type} (n : Nat) (xs : List α) : List α := xs.drop (xs.length - n)

/-- The code and the captured cells of a user function. -/
def Value.asUserFunction : Value → Option (FnId × List CellId)
  | .compiledFunction fn => some (fn, [])
  | .closure fn captured => some (fn, captured)
  | _ => none

/-! ### Binding arguments -/

/-- Where the arguments of a call go: the slot of each, and for named ones the
slot and the value of the mask of those provided. -/
structure NamedArgLayout where
  destinations : List Nat
  maskSlot : Nat
  mask : Nat

namespace NamedArgLayout

/-- The slots of the named arguments, by position, and their mask. -/
def placeNamed (base : Nat) (namedParams : List String) :
    List (Nat × String) → List String → List (Option Nat) → Nat →
      WqResult (List (Option Nat) × Nat)
  | [], _, destinations, mask => .ok (destinations, mask)
  | (position, name) :: named, seen, destinations, mask =>
    if name ∈ seen then .error .arity
    else
      match destinations[position]? with
      | none => .error .vm
      | some (some _) => .error .vm
      | some none =>
        match namedParams.findIdx? (· = name) with
        | none => .error .arity
        | some i =>
          placeNamed base namedParams named (name :: seen) (destinations.set position (base + i))
            (mask ||| 2 ^ i)

/-- The positional arguments take the free positions in order. -/
def placePositional : Nat → List (Option Nat) → List Nat
  | _, [] => []
  | slot, none :: ds => slot :: placePositional (slot + 1) ds
  | slot, some d :: ds => d :: placePositional slot ds

/-- `build_named_arg_layout`. -/
def build (f : FnShape) (argc : Nat) (m : NamedArgMeta) (namedParams : List String) :
    WqResult NamedArgLayout := do
  if 64 < namedParams.length then throw .vm
  if f.paramsLen.any (· ≠ m.posCount) then throw .arity
  if m.posCount + m.named.length ≠ argc then throw .vm
  if f.locals < argc then throw .vm
  if ¬namedParams.Nodup then throw .vm
  let base := f.paramsLen.getD 0
  let (placed, mask) ← placeNamed base namedParams m.named [] (List.replicate argc none) 0
  if placed.count none ≠ m.posCount then throw .vm
  let destinations := placePositional 0 placed
  let maskSlot := base + namedParams.length
  if (destinations ++ [maskSlot]).any (f.locals ≤ ·) then throw .vm
  return { destinations, maskSlot, mask }

end NamedArgLayout

/-- `validate_positional_call_shape`. -/
def validatePositionalCallShape (f : FnShape) (argc : Nat) : WqResult Unit :=
  match f.paramsLen with
  | some expected =>
    if argc ≠ expected then .error .arity
    else if f.locals < argc then .error .vm
    else .ok ()
  | none =>
    if 3 < argc then .error .arity
    else if f.locals < argc then .error .vm
    else .ok ()

/-- Where the arguments go: `none` for positional ones only. -/
def resolveNamedArgLayout (f : FnShape) (argc : Nat) (metadata : Option NamedArgMeta) :
    WqResult (Option NamedArgLayout) :=
  match metadata with
  | none => do
    validatePositionalCallShape f argc
    return none
  | some m =>
    match f.namedParams with
    | none => .error .arity
    | some namedParams => some <$> NamedArgLayout.build f argc m namedParams

/-- The locals of a new frame. -/
def fillLocals (f : FnShape) (args : List Value) (layout : Option NamedArgLayout) : List Slot :=
  let slots := List.replicate f.locals (default : Slot)
  match layout with
  | none => (args.zipIdx).foldl (fun slots p => slots.set p.2 (.value p.1)) slots
  | some l =>
    ((args.zip l.destinations).foldl (fun slots p => slots.set p.2 (.value p.1)) slots).set
      l.maskSlot (.value (.int (Int64.ofNat l.mask)))

/-- The locals of a call with the upper `argc` values of the stack, and the
stack below them. -/
def bindArguments (f : FnShape) (argc : Nat) (metadata : Option NamedArgMeta)
    (stack : List Value) : WqResult (List Slot × List Value) := do
  let layout ← resolveNamedArgLayout f argc metadata
  if stack.length < argc then throw .vm
  return (fillLocals f (stack.take argc).reverse layout, stack.drop argc)

namespace Vm

variable {W : Type} (table : FnTable) (ops : Ops W)

/-- The machine before the first instruction of a program. -/
def start (fn : FnId) (env : Env W) : Vm W where
  code := fn
  pc := 0
  data := { stack := [], function := none, unpackFrames := [], pendingNamedMeta := none, env }
  callers := []
  tryStack := []
  control := .running

def depth (vm : Vm W) : Nat := vm.callers.length

/-! ### Try regions -/

def tryResult (kind : String) (v : Value) : Value := .list [.tag kind, v]

/-- `restore_try_state`. -/
def restoreTryState (d : Data W) (frame : TryFrame) : Data W :=
  { d with
    unpackFrames := truncate frame.unpackDepth d.unpackFrames
    pendingNamedMeta := frame.savedPendingNamedMeta }

/-- Whether the frame's region belongs to the code that is running. -/
def ownsTry (vm : Vm W) (frame : TryFrame) : Bool :=
  frame.callDepth = vm.depth ∧ frame.code = vm.code

/-- The region of the frame ends here: with its value when control runs into
its end, without one when control jumped past it. -/
def finishTry (vm : Vm W) (frame : TryFrame) (rest : List TryFrame) : Vm W :=
  let d := restoreTryState vm.data frame
  let value :=
    if frame.stackStart < d.stack.length then d.stack.headD Value.emptyList
    else Value.emptyList
  let below := truncate frame.stackStart d.stack
  let stack := if vm.pc = frame.endPc then tryResult "ok" value :: below else below
  { vm with data := { d with stack }, tryStack := rest }

/-- The region of the innermost frame, if it ends here. -/
def finishTryBoundary (vm : Vm W) : Option (Vm W) :=
  match vm.tryStack with
  | [] => none
  | frame :: rest =>
    if vm.ownsTry frame ∧ frame.endPc ≤ vm.pc then some (vm.finishTry frame rest) else none

/-- The region of the frame ends with the error. -/
def catchTry (vm : Vm W) (frame : TryFrame) (rest : List TryFrame) (e : WqErrorType) : Vm W :=
  let d := restoreTryState vm.data frame
  let stack := tryResult "error" (ops.errorValue e) :: truncate frame.stackStart d.stack
  { vm with pc := frame.endPc, data := { d with stack }, tryStack := rest, control := .running }

/-- The innermost frame catches the error, unless it is an internal one. -/
def catchCurrentTryError (vm : Vm W) (e : WqErrorType) : Option (Vm W) :=
  if e = .vm then none
  else
    match vm.tryStack with
    | [] => none
    | frame :: rest => if vm.ownsTry frame then some (vm.catchTry ops frame rest e) else none

def discardTryFrames (depth : Nat) : List TryFrame → Data W → List TryFrame × Data W
  | [], d => ([], d)
  | frame :: rest, d =>
    if frame.callDepth = depth then discardTryFrames depth rest (restoreTryState d frame)
    else (frame :: rest, d)

/-- `discard_current_try_frames`. -/
def discardCurrentTryFrames (vm : Vm W) : Vm W :=
  let (tryStack, data) := discardTryFrames vm.depth vm.tryStack vm.data
  { vm with tryStack, data }

/-! ### Calls and returns -/

/-- `restore_user_call`: back to the caller's frame. -/
def restoreUserCall (vm : Vm W) (frame : CallerFrame W) (rest : List (CallerFrame W)) : Vm W :=
  { vm with
    code := frame.code
    pc := frame.pc
    data := { vm.data with
      stack := frame.stack
      function := frame.function
      unpackFrames := truncate frame.unpackDepth vm.data.unpackFrames }
    callers := rest }

/-- Goes on in the frame that waits for the value of a call. -/
def resume (vm : Vm W) (cont : CallCont W) (v : Value) : Vm W :=
  match cont with
  | .push => { vm with data := { vm.data with stack := v :: vm.data.stack } }
  | .builtin saved k =>
    { vm with
      data := { vm.data with pendingNamedMeta := saved }
      control := .builtin (k (.ok v) vm.data.env) }

/-- The same for an error. -/
def resumeError (vm : Vm W) (cont : CallCont W) (e : WqErrorType) : Vm W :=
  match cont with
  | .push => { vm with control := .unwinding e }
  | .builtin saved k =>
    { vm with
      data := { vm.data with pendingNamedMeta := saved }
      control := .builtin (k (.error e) vm.data.env) }

def mapEnv (vm : Vm W) (f : Env W → Env W) : Vm W :=
  { vm with data := { vm.data with env := f vm.data.env } }

def finishModuleOf (vm : Vm W) (frame : CallerFrame W) (v : Value) : Vm W :=
  match frame.moduleIdentity with
  | some identity => vm.mapEnv fun env => env.finishModule identity v
  | none => vm

def failModuleOf (vm : Vm W) (frame : CallerFrame W) : Vm W :=
  match frame.moduleIdentity with
  | some identity => vm.mapEnv fun env => env.failModule identity
  | none => vm

/-- The current frame returns its top value, also at the end of its code. -/
def returnFrame (vm : Vm W) : Vm W :=
  let v := vm.data.stack.headD Value.emptyList
  let vm := { vm with data := { vm.data with stack := vm.data.stack.tail } }
  let vm := vm.discardCurrentTryFrames
  match vm.callers with
  | [] => { vm with control := .halted (.ok v) }
  | frame :: rest => ((vm.restoreUserCall frame rest).finishModuleOf frame v).resume frame.cont v

/-- One frame of unwinding. -/
def unwind (vm : Vm W) (e : WqErrorType) : Vm W :=
  match vm.catchCurrentTryError ops e with
  | some vm => vm
  | none =>
    let vm := vm.discardCurrentTryFrames
    match vm.callers with
    | [] => { vm with control := .halted (.error e) }
    | frame :: rest => ((vm.restoreUserCall frame rest).failModuleOf frame).resumeError frame.cont e

/-- `enter_spec`: the frame of a call of a user function, or the error of its
checks with the state they leave. -/
def enterSpec (vm : Vm W) (fn : FnId) (captures : List CellId) (callee : Value) (argc : Nat)
    (moduleIdentity : Option String) (cont : CallCont W) : Except (WqErrorType × Vm W) (Vm W) :=
  let d := { vm.data with pendingNamedMeta := none }
  match bindArguments (table fn) argc vm.data.pendingNamedMeta vm.data.stack with
  | .error e => .error (e, { vm with data := d })
  | .ok (locals, stack) =>
    if ops.maxCallDepth < vm.depth + 1 then
      .error (.recursion, { vm with data := { d with stack } })
    else
      .ok { vm with
        code := fn
        pc := 0
        data := { d with stack := [], function := some { locals, captures, callable := callee } }
        callers :=
          { code := vm.code, pc := vm.pc, stack, function := vm.data.function, moduleIdentity
            unpackDepth := vm.data.unpackFrames.length, cont } :: vm.callers
        control := .running }

/-- A call instruction. -/
def enterCall (vm : Vm W) (callee : Value) (argc : Nat) : Vm W :=
  match callee.asUserFunction with
  | none => { vm with control := .unwinding .notBound }
  | some (fn, captures) =>
    match vm.enterSpec table ops fn captures callee argc none .push with
    | .ok vm => vm
    | .error (e, vm) => { vm with control := .unwinding e }

/-- `prepare_tail`: the frame is used again for the callee. -/
def prepareTail (vm : Vm W) (callee : Value) (argc : Nat) : Vm W :=
  let d := { vm.data with pendingNamedMeta := none }
  match callee.asUserFunction with
  | none => { vm with control := .unwinding .notBound }
  | some (fn, captures) =>
    match bindArguments (table fn) argc vm.data.pendingNamedMeta vm.data.stack with
    | .error e => { vm with data := d, control := .unwinding e }
    | .ok (locals, _) =>
      match vm.data.function with
      | none => { vm with data := d, control := .unwinding .vm }
      | some _ =>
        { vm with
          code := fn
          pc := 0
          data := { d with stack := [], function := some { locals, captures, callable := callee } } }

/-- `import_module`: a module is loaded once; its initializer runs as a call. -/
def importModule (vm : Vm W) (data : ImportData) : Vm W :=
  match ops.resolveModule data vm.data.env with
  | .error e => { vm with control := .unwinding e }
  | .ok identity =>
    match vm.data.env.modules identity with
    | some (.loaded v) => { vm with data := { vm.data with stack := v :: vm.data.stack } }
    | some .loading => { vm with control := .unwinding .exec }
    | none =>
      let vm := vm.mapEnv fun env => env.setModule identity (some .loading)
      match ops.compileModule identity vm.data.env with
      | .error e =>
        { vm.mapEnv fun env => env.failModule identity with control := .unwinding e }
      | .ok fn =>
        match vm.enterSpec table ops fn [] (.compiledFunction fn) 0 (some identity) .push with
        | .ok vm => vm
        | .error (e, vm) =>
          { vm.mapEnv fun env => env.failModule identity with control := .unwinding e }

/-! ### Builtins -/

/-- The arguments of a callback on the stack, named ones behind positional ones. -/
def pushArgs (vm : Vm W) (args : BuiltinFnArgs) : Vm W :=
  let metadata : Option NamedArgMeta :=
    if args.named = [] then none
    else some
      { posCount := args.pos.length
        named := (args.named.zipIdx args.pos.length).map fun p => (p.2, p.1.1) }
  { vm with
    data := { vm.data with
      stack := (args.pos ++ args.named.map Prod.snd).reverse ++ vm.data.stack
      pendingNamedMeta := metadata } }

/-- A callback of a builtin. -/
def callBack (vm : Vm W) (f : Value) (args : BuiltinFnArgs)
    (k : WqResult Value → Env W → BuiltinRun W) : Vm W :=
  match f with
  | .builtinFunction _ id =>
    let run := ops.callBuiltin id false args (Exec.isMain table vm.data) vm.data.env
    { vm with control := .builtin (run.andThen k) }
  | .rng h =>
    let r := ops.callRng h args vm.data.env
    { vm with control := .builtin (k r.1 r.2) }
  | .liftedCallable expr =>
    if args.named ≠ [] then { vm with control := .builtin (k (.error .arity) vm.data.env) }
    else
      { vm with
        control := .builtin ((Exec.callableRun ops args.pos expr vm.data.env).andThen k) }
  | .cas kind =>
    let r := if f.isCasExpr then ops.callCas kind args else .error .notBound
    { vm with control := .builtin (k r vm.data.env) }
  | f =>
    match f.asUserFunction with
    | none => { vm with control := .builtin (k (.error .notBound) vm.data.env) }
    | some (fn, captures) =>
      match (vm.pushArgs args).enterSpec table ops fn captures f
          (args.pos.length + args.named.length) none (.builtin vm.data.pendingNamedMeta k) with
      | .ok vm => vm
      | .error (e, _) => { vm with control := .builtin (k (.error e) vm.data.env) }

def stepBuiltin (vm : Vm W) : BuiltinRun W → Vm W
  | .done (.ok v) env =>
    { vm with data := { vm.data with env, stack := v :: vm.data.stack }, control := .running }
  | .done (.error e) env =>
    { vm with data := { vm.data with env }, control := .unwinding e }
  | .call f args env k => { vm with data := { vm.data with env } }.callBack table ops f args k

/-! ### Steps -/

/-- Opens a try region over the next `len` instructions. -/
def openTry (vm : Vm W) (len : Nat) : Vm W :=
  if vm.pc + len ≤ (table vm.code).instructions.length then
    { vm with
      data := { vm.data with pendingNamedMeta := none }
      tryStack :=
        { code := vm.code, callDepth := vm.depth, endPc := vm.pc + len
          stackStart := vm.data.stack.length
          savedPendingNamedMeta := vm.data.pendingNamedMeta
          unpackDepth := vm.data.unpackFrames.length } :: vm.tryStack }
  else { vm with control := .unwinding .vm }

/-- How the machine goes on after an instruction; the program counter is
behind the instruction. -/
def follow (vm : Vm W) : Flow W → Vm W
  | .next => vm
  | .jump target => { vm with pc := target }
  | .return_ => vm.returnFrame
  | .try_ len => vm.openTry table len
  | .enter callee argc => vm.enterCall table ops callee argc
  | .tail callee argc => vm.prepareTail table callee argc
  | .builtin run => { vm with control := .builtin run }
  | .import_ data => vm.importModule table ops data

def stepInstruction (vm : Vm W) (i : Instruction) : Vm W :=
  match (Exec.exec ops table i).run vm.data with
  | .ok flow d => follow table ops { vm with pc := vm.pc + 1, data := d } flow
  | .error e d => { vm with pc := vm.pc + 1, data := d, control := .unwinding e }

/-- A step of the current frame: a try region that ends here, the instruction
at the program counter, or the end of the code. -/
def stepRunning (vm : Vm W) : Vm W :=
  match vm.finishTryBoundary with
  | some vm => vm
  | none =>
    match (table vm.code).instructions[vm.pc]? with
    | some i => vm.stepInstruction table ops i
    | none => vm.returnFrame

/-- The instruction that the next step executes. -/
def nextInstruction (vm : Vm W) : Option Instruction :=
  match vm.control, vm.finishTryBoundary with
  | .running, none => (table vm.code).instructions[vm.pc]?
  | _, _ => none

theorem nextInstruction_eq {vm : Vm W} (hrun : vm.control = .running)
    (hboundary : vm.finishTryBoundary = none) :
    vm.nextInstruction table = (table vm.code).instructions[vm.pc]? := by
  rw [nextInstruction, hrun, hboundary]

def step (vm : Vm W) : Vm W :=
  match vm.control with
  | .running => vm.stepRunning table ops
  | .builtin run => vm.stepBuiltin table ops run
  | .unwinding e => vm.unwind ops e
  | .halted _ => vm

section Running

variable {vm : Vm W} (hrun : vm.control = .running)
include hrun

/-- A try region ends here. -/
theorem step_eq_finished {vm' : Vm W} (hboundary : vm.finishTryBoundary = some vm') :
    vm.step table ops = vm' := by
  unfold Vm.step
  rw [hrun]
  dsimp only
  rw [stepRunning, hboundary]

theorem step_eq_stepInstruction (hboundary : vm.finishTryBoundary = none) {i : Instruction}
    (hi : (table vm.code).instructions[vm.pc]? = some i) :
    vm.step table ops = vm.stepInstruction table ops i := by
  unfold Vm.step
  rw [hrun]
  dsimp only
  rw [stepRunning, hboundary]
  dsimp only
  rw [hi]

/-- The end of the code. -/
theorem step_eq_returnFrame (hboundary : vm.finishTryBoundary = none)
    (hi : (table vm.code).instructions[vm.pc]? = none) :
    vm.step table ops = vm.returnFrame := by
  unfold Vm.step
  rw [hrun]
  dsimp only
  rw [stepRunning, hboundary]
  dsimp only
  rw [hi]

end Running

/-- The result and the final data of a halted machine. -/
def outcome (vm : Vm W) : Option (WqResult Value × Data W) :=
  match vm.control with
  | .halted r => some (r, vm.data)
  | _ => none

/-- The machine that runs the code of the table. -/
def machine : Machine (Vm W) (WqResult Value × Data W) where
  step := step table ops
  outcome := outcome

end Vm

end Wqpl
