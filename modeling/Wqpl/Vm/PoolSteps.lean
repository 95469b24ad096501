/-
# Machines that differ in the pool

Two machines do the same, step by step, when they differ in the pool of owned
constants alone, as long as neither takes a constant from it
(`Vm.Rel.stepInstruction`). The tables of their functions may hold different
code of the same length.
-/
import Wqpl.Vm.Pool
import Wqpl.Vm.Interface

namespace Wqpl

/-- The functions of the tables differ in their instructions only, and not in
how many they are. -/
def SameShape (table table' : FnTable) : Prop :=
  ∀ fn, ∃ is, table' fn = { table fn with instructions := is } ∧
    is.length = (table fn).instructions.length

namespace SameShape

variable {table table' : FnTable} (h : SameShape table table')
include h

theorem length (fn : FnId) : (table' fn).instructions.length = (table fn).instructions.length := by
  obtain ⟨is, heq, hlen⟩ := h fn
  rw [heq]
  exact hlen

theorem interface : SameInterface table table' := by
  intro fn
  obtain ⟨is, heq, -⟩ := h fn
  exact ⟨is, heq⟩

end SameShape

/-! ### Related machines -/

inductive CallCont.Rel {W : Type} (pool : Pool) : CallCont W → CallCont W → Prop
  | push : Rel pool .push .push
  | builtin {k k' : WqResult Value → Env W → BuiltinRun W} (saved : Option NamedArgMeta)
      (h : ∀ r env, (k r env).Rel pool (k' r (env.setPool pool))) :
      Rel pool (.builtin saved k) (.builtin saved k')

inductive CallerFrame.Rel {W : Type} (pool : Pool) : CallerFrame W → CallerFrame W → Prop
  | mk {frame : CallerFrame W} {cont' : CallCont W} (h : frame.cont.Rel pool cont') :
      Rel pool frame { frame with cont := cont' }

inductive Control.Rel {W : Type} (pool : Pool) : Control W → Control W → Prop
  | running : Rel pool .running .running
  | builtin {run run' : BuiltinRun W} (h : run.Rel pool run') : Rel pool (.builtin run) (.builtin run')
  | unwinding (e : WqErrorType) : Rel pool (.unwinding e) (.unwinding e)
  | halted (r : WqResult Value) : Rel pool (.halted r) (.halted r)

/-- The second machine is the first one with the pool. -/
inductive Vm.Rel {W : Type} (pool : Pool) : Vm W → Vm W → Prop
  | mk {code : FnId} {pc : Nat} {data : Data W} {callers callers' : List (CallerFrame W)}
      {tryStack : List TryFrame} {control control' : Control W}
      (hcallers : List.Forall₂ (CallerFrame.Rel pool) callers callers')
      (hcontrol : control.Rel pool control') :
      Rel pool ⟨code, pc, data, callers, tryStack, control⟩
        ⟨code, pc, data.setPool pool, callers', tryStack, control'⟩

namespace Vm.Rel

variable {W : Type} {pool : Pool} {vm vm' : Vm W}

theorem depth (h : vm.Rel pool vm') : vm'.depth = vm.depth := by
  obtain ⟨hcallers, -⟩ := h
  exact hcallers.length_eq.symm

theorem data (h : vm.Rel pool vm') : vm'.data = vm.data.setPool pool := by
  obtain ⟨-, -⟩ := h
  rfl

theorem code (h : vm.Rel pool vm') : vm'.code = vm.code := by
  obtain ⟨-, -⟩ := h
  rfl

theorem pc (h : vm.Rel pool vm') : vm'.pc = vm.pc := by
  obtain ⟨-, -⟩ := h
  rfl

theorem tryStack (h : vm.Rel pool vm') : vm'.tryStack = vm.tryStack := by
  obtain ⟨-, -⟩ := h
  rfl

theorem control (h : vm.Rel pool vm') : vm.control.Rel pool vm'.control := by
  obtain ⟨-, hcontrol⟩ := h
  exact hcontrol

/-- The same change of the data. -/
theorem setData (h : vm.Rel pool vm') (d : Data W) :
    Vm.Rel pool { vm with data := d } { vm' with data := d.setPool pool } := by
  obtain ⟨hcallers, hcontrol⟩ := h
  exact .mk hcallers hcontrol

theorem setPc (h : vm.Rel pool vm') (target : Nat) :
    Vm.Rel pool { vm with pc := target } { vm' with pc := target } := by
  obtain ⟨hcallers, hcontrol⟩ := h
  exact .mk hcallers hcontrol

theorem setControl (h : vm.Rel pool vm') {control control' : Control W}
    (hcontrol : control.Rel pool control') :
    Vm.Rel pool { vm with control := control } { vm' with control := control' } := by
  obtain ⟨hcallers, -⟩ := h
  exact .mk hcallers hcontrol

theorem unwinding (h : vm.Rel pool vm') (e : WqErrorType) :
    Vm.Rel pool { vm with control := .unwinding e } { vm' with control := .unwinding e } :=
  h.setControl (.unwinding e)

theorem mapEnv (h : vm.Rel pool vm') {f : Env W → Env W}
    (hf : ∀ env, f (env.setPool pool) = (f env).setPool pool) :
    Vm.Rel pool (vm.mapEnv f) (vm'.mapEnv f) := by
  obtain ⟨hcallers, hcontrol⟩ := h
  unfold Vm.mapEnv
  have henv : ∀ d : Data W, { d.setPool pool with env := f (d.setPool pool).env } =
      Data.setPool { d with env := f d.env } pool := by
    intro d
    show Data.mk _ _ _ _ (f (d.env.setPool pool)) = _
    rw [hf]
    rfl
  rw [henv]
  exact .mk hcallers hcontrol

theorem failModule_setPool (identity : String) (env : Env W) :
    (env.setPool pool).failModule identity = (env.failModule identity).setPool pool := by
  unfold Env.failModule
  dsimp only [Env.setPool]
  cases env.modules identity with
  | none => rfl
  | some entry => cases entry <;> rfl

/-! ### Try regions -/

theorem ownsTry (h : vm.Rel pool vm') (frame : TryFrame) : vm'.ownsTry frame = vm.ownsTry frame := by
  unfold Vm.ownsTry
  rw [h.depth, h.code]

theorem finishTry (h : vm.Rel pool vm') (frame : TryFrame) (rest : List TryFrame) :
    Vm.Rel pool (vm.finishTry frame rest) (vm'.finishTry frame rest) := by
  obtain ⟨hcallers, hcontrol⟩ := h
  exact .mk hcallers hcontrol

theorem finishTryBoundary (h : vm.Rel pool vm') :
    Option.Rel (Vm.Rel pool) vm.finishTryBoundary vm'.finishTryBoundary := by
  unfold Vm.finishTryBoundary
  rw [h.tryStack]
  cases vm.tryStack with
  | nil => exact .none
  | cons frame rest =>
    dsimp only
    rw [h.ownsTry, h.pc]
    split
    · exact .some (h.finishTry frame rest)
    · exact .none

variable (ops : Ops W)

theorem catchTry (h : vm.Rel pool vm') (frame : TryFrame) (rest : List TryFrame) (e : WqErrorType) :
    Vm.Rel pool (vm.catchTry ops frame rest e) (vm'.catchTry ops frame rest e) := by
  obtain ⟨hcallers, -⟩ := h
  exact .mk hcallers .running

theorem catchCurrentTryError (h : vm.Rel pool vm') (e : WqErrorType) :
    Option.Rel (Vm.Rel pool) (vm.catchCurrentTryError ops e) (vm'.catchCurrentTryError ops e) := by
  unfold Vm.catchCurrentTryError
  rw [h.tryStack]
  by_cases he : e = .vm
  · rw [if_pos he, if_pos he]
    exact .none
  · rw [if_neg he, if_neg he]
    cases vm.tryStack with
    | nil => exact .none
    | cons frame rest =>
      dsimp only
      rw [h.ownsTry]
      split
      · exact .some (h.catchTry ops frame rest e)
      · exact .none

theorem discardTryFrames_setPool (depth : Nat) : ∀ (ts : List TryFrame) (d : Data W),
    discardTryFrames depth ts (d.setPool pool) =
      ((discardTryFrames depth ts d).1, (discardTryFrames depth ts d).2.setPool pool)
  | [], _ => rfl
  | frame :: rest, d => by
    unfold discardTryFrames
    by_cases hdepth : frame.callDepth = depth
    · rw [if_pos hdepth, if_pos hdepth]
      exact discardTryFrames_setPool depth rest (restoreTryState d frame)
    · rw [if_neg hdepth, if_neg hdepth]

theorem discardCurrentTryFrames (h : vm.Rel pool vm') :
    Vm.Rel pool vm.discardCurrentTryFrames vm'.discardCurrentTryFrames := by
  obtain ⟨hcallers, hcontrol⟩ := h
  unfold Vm.discardCurrentTryFrames Vm.depth
  dsimp only
  rw [← hcallers.length_eq, discardTryFrames_setPool]
  exact .mk hcallers hcontrol

/-! ### Calls and returns -/

/-- Back in the caller's frame. -/
theorem restoreUserCall (h : vm.Rel pool vm') {frame frame' : CallerFrame W}
    {rest rest' : List (CallerFrame W)} (hframe : frame.Rel pool frame')
    (hrest : List.Forall₂ (CallerFrame.Rel pool) rest rest') :
    Vm.Rel pool (vm.restoreUserCall frame rest) (vm'.restoreUserCall frame' rest') := by
  obtain ⟨-, hcontrol⟩ := h
  obtain ⟨-⟩ := hframe
  exact .mk hrest hcontrol

theorem finishModuleOf (h : vm.Rel pool vm') {frame frame' : CallerFrame W}
    (hframe : frame.Rel pool frame') (v : Value) :
    Vm.Rel pool (vm.finishModuleOf frame v) (vm'.finishModuleOf frame' v) := by
  obtain ⟨-⟩ := hframe
  unfold Vm.finishModuleOf
  dsimp only
  cases frame.moduleIdentity with
  | none => exact h
  | some identity => exact h.mapEnv fun _ => rfl

theorem failModuleOf (h : vm.Rel pool vm') {frame frame' : CallerFrame W}
    (hframe : frame.Rel pool frame') :
    Vm.Rel pool (vm.failModuleOf frame) (vm'.failModuleOf frame') := by
  obtain ⟨-⟩ := hframe
  unfold Vm.failModuleOf
  dsimp only
  cases frame.moduleIdentity with
  | none => exact h
  | some identity => exact h.mapEnv fun env => failModule_setPool identity env

theorem resume (h : vm.Rel pool vm') {cont cont' : CallCont W} (hcont : cont.Rel pool cont')
    (v : Value) : Vm.Rel pool (vm.resume cont v) (vm'.resume cont' v) := by
  obtain ⟨hcallers, hcontrol⟩ := h
  cases hcont with
  | push => exact .mk hcallers hcontrol
  | builtin saved hk => exact .mk hcallers (.builtin (hk _ _))

theorem resumeError (h : vm.Rel pool vm') {cont cont' : CallCont W} (hcont : cont.Rel pool cont')
    (e : WqErrorType) : Vm.Rel pool (vm.resumeError cont e) (vm'.resumeError cont' e) := by
  obtain ⟨hcallers, hcontrol⟩ := h
  cases hcont with
  | push => exact .mk hcallers (.unwinding e)
  | builtin saved hk => exact .mk hcallers (.builtin (hk _ _))

theorem cont_rel {frame frame' : CallerFrame W} (h : frame.Rel pool frame') :
    frame.cont.Rel pool frame'.cont := by
  obtain ⟨h⟩ := h
  exact h

theorem returnFrame (h : vm.Rel pool vm') : Vm.Rel pool vm.returnFrame vm'.returnFrame := by
  have hpop : Vm.Rel pool { vm with data := { vm.data with stack := vm.data.stack.tail } }
      { vm' with data := { vm'.data with stack := vm'.data.stack.tail } } := by
    rw [h.data]
    exact h.setData _
  have hdiscard := hpop.discardCurrentTryFrames
  obtain ⟨hcallers, hcontrol⟩ := h
  cases hcallers with
  | nil => exact hdiscard.setControl (.halted _)
  | cons hframe hrest =>
    exact ((hdiscard.restoreUserCall hframe hrest).finishModuleOf hframe _).resume (cont_rel hframe) _

theorem unwind (h : vm.Rel pool vm') (e : WqErrorType) :
    Vm.Rel pool (vm.unwind ops e) (vm'.unwind ops e) := by
  have hcatch := h.catchCurrentTryError ops e
  unfold Vm.unwind
  generalize vm.catchCurrentTryError ops e = caught, vm'.catchCurrentTryError ops e = caught' at hcatch
  cases hcatch with
  | some hcaught => exact hcaught
  | none =>
    have hdiscard := h.discardCurrentTryFrames
    obtain ⟨hcallers, hcontrol⟩ := h
    cases hcallers with
    | nil => exact hdiscard.setControl (.halted _)
    | cons hframe hrest =>
      exact ((hdiscard.restoreUserCall hframe hrest).failModuleOf hframe).resumeError
        (cont_rel hframe) e

variable {table table' : FnTable} (hshape : SameShape table table')

/-- The results of entering a function. -/
inductive EnterRel (pool : Pool) :
    Except (WqErrorType × Vm W) (Vm W) → Except (WqErrorType × Vm W) (Vm W) → Prop
  | ok {vm vm' : Vm W} (h : vm.Rel pool vm') : EnterRel pool (.ok vm) (.ok vm')
  | error {vm vm' : Vm W} (e : WqErrorType) (h : vm.Rel pool vm') :
      EnterRel pool (.error (e, vm)) (.error (e, vm'))

include hshape in
theorem enterSpec (h : vm.Rel pool vm') (fn : FnId) (captures : List CellId) (callee : Value)
    (argc : Nat) (moduleIdentity : Option String) {cont cont' : CallCont W}
    (hcont : cont.Rel pool cont') :
    EnterRel pool (vm.enterSpec table ops fn captures callee argc moduleIdentity cont)
      (vm'.enterSpec table' ops fn captures callee argc moduleIdentity cont') := by
  unfold Vm.enterSpec
  rw [hshape.interface.bindArguments, h.depth]
  obtain ⟨hcallers, hcontrol⟩ := h
  rename_i code pc data callers callers' tryStack control control'
  dsimp only [Data.setPool]
  cases bindArguments (table fn) argc data.pendingNamedMeta data.stack with
  | error e => exact .error e (.mk hcallers hcontrol)
  | ok bound =>
    obtain ⟨locals, stack⟩ := bound
    dsimp only
    split
    · exact .error .recursion (.mk hcallers hcontrol)
    · exact .ok (.mk (.cons (.mk hcont) hcallers) .running)

include hshape in
theorem enterCall (h : vm.Rel pool vm') (callee : Value) (argc : Nat) :
    Vm.Rel pool (vm.enterCall table ops callee argc) (vm'.enterCall table' ops callee argc) := by
  unfold Vm.enterCall
  cases callee.asUserFunction with
  | none => exact h.unwinding .notBound
  | some p =>
    obtain ⟨fn, captures⟩ := p
    dsimp only
    have henter := h.enterSpec ops hshape fn captures callee argc none .push
    generalize vm.enterSpec table ops fn captures callee argc none .push = r,
      vm'.enterSpec table' ops fn captures callee argc none .push = r' at henter
    cases henter with
    | ok hr => exact hr
    | error e hr => exact hr.unwinding e

include hshape in
theorem prepareTail (h : vm.Rel pool vm') (callee : Value) (argc : Nat) :
    Vm.Rel pool (vm.prepareTail table callee argc) (vm'.prepareTail table' callee argc) := by
  unfold Vm.prepareTail
  cases callee.asUserFunction with
  | none => exact h.unwinding .notBound
  | some p =>
    obtain ⟨fn, captures⟩ := p
    dsimp only
    rw [hshape.interface.bindArguments]
    obtain ⟨hcallers, hcontrol⟩ := h
    rename_i code pc data callers callers' tryStack control control'
    obtain ⟨operands, function, frames, metadata, env⟩ := data
    dsimp only [Data.setPool]
    cases bindArguments (table fn) argc metadata operands with
    | error e => exact .mk hcallers (.unwinding e)
    | ok bound =>
      obtain ⟨locals, stack⟩ := bound
      cases function with
      | none => exact .mk hcallers (.unwinding .vm)
      | some a => exact .mk hcallers hcontrol

section Blind

variable {ops : Ops W} (hops : ops.Blind)
include hops

include hshape in
theorem importModule (h : vm.Rel pool vm') (data : ImportData) :
    Vm.Rel pool (vm.importModule table ops data) (vm'.importModule table' ops data) := by
  have hmodules : ∀ identity, vm'.data.env.modules identity = vm.data.env.modules identity := by
    rw [h.data]
    exact fun _ => rfl
  have hresolve : ops.resolveModule data vm'.data.env = ops.resolveModule data vm.data.env := by
    rw [h.data]
    exact hops.resolve data vm.data.env pool
  unfold Vm.importModule
  rw [hresolve]
  cases ops.resolveModule data vm.data.env with
  | error e => exact h.unwinding e
  | ok identity =>
    dsimp only
    rw [hmodules]
    cases vm.data.env.modules identity with
    | some entry =>
      cases entry with
      | loading => exact h.unwinding .exec
      | loaded v =>
        obtain ⟨hcallers, hcontrol⟩ := h
        exact .mk hcallers hcontrol
    | none =>
      dsimp only
      have hload : Vm.Rel pool (vm.mapEnv fun env => env.setModule identity (some .loading))
          (vm'.mapEnv fun env => env.setModule identity (some .loading)) := h.mapEnv fun _ => rfl
      generalize vm.mapEnv (fun env => env.setModule identity (some .loading)) = loading,
        vm'.mapEnv (fun env => env.setModule identity (some .loading)) = loading' at hload
      have hcompile : ops.compileModule identity loading'.data.env =
          ops.compileModule identity loading.data.env := by
        rw [hload.data]
        exact hops.compile identity loading.data.env pool
      rw [hcompile]
      cases ops.compileModule identity loading.data.env with
      | error e => exact (hload.mapEnv fun env => failModule_setPool identity env).unwinding e
      | ok fn =>
        dsimp only
        have henter := hload.enterSpec ops hshape fn [] (.compiledFunction fn) 0 (some identity) .push
        generalize loading.enterSpec table ops fn [] (.compiledFunction fn) 0 (some identity)
            .push = r,
          loading'.enterSpec table' ops fn [] (.compiledFunction fn) 0 (some identity)
            .push = r' at henter
        cases henter with
        | ok hr => exact hr
        | error e hr => exact (hr.mapEnv fun env => failModule_setPool identity env).unwinding e

omit hops in
theorem pushArgs (h : vm.Rel pool vm') (args : BuiltinFnArgs) :
    Vm.Rel pool (vm.pushArgs args) (vm'.pushArgs args) := by
  obtain ⟨hcallers, hcontrol⟩ := h
  exact .mk hcallers hcontrol

omit hops in
include hshape in
theorem callUser (h : vm.Rel pool vm') (f : Value) (args : BuiltinFnArgs)
    {k k' : WqResult Value → Env W → BuiltinRun W}
    (hk : ∀ r env, (k r env).Rel pool (k' r (env.setPool pool))) (fn : FnId)
    (captures : List CellId) : Vm.Rel pool
      (match (vm.pushArgs args).enterSpec table ops fn captures f
          (args.pos.length + args.named.length) none (.builtin vm.data.pendingNamedMeta k) with
        | .ok vm => vm
        | .error (e, _) => { vm with control := .builtin (k (.error e) vm.data.env) })
      (match (vm'.pushArgs args).enterSpec table' ops fn captures f
          (args.pos.length + args.named.length) none (.builtin vm'.data.pendingNamedMeta k') with
        | .ok vm => vm
        | .error (e, _) => { vm' with control := .builtin (k' (.error e) vm'.data.env) }) := by
  have hmeta : vm'.data.pendingNamedMeta = vm.data.pendingNamedMeta := by rw [h.data]; rfl
  have henv : vm'.data.env = vm.data.env.setPool pool := by rw [h.data]; rfl
  have henter := (h.pushArgs args).enterSpec ops hshape fn captures f
    (args.pos.length + args.named.length) none (.builtin vm.data.pendingNamedMeta hk)
  rw [hmeta]
  generalize (vm.pushArgs args).enterSpec table ops fn captures f _ none _ = r,
    (vm'.pushArgs args).enterSpec table' ops fn captures f _ none _ = r' at henter
  cases henter with
  | ok hr => exact hr
  | error e hr =>
    rw [henv]
    exact h.setControl (.builtin (hk _ _))

include hshape in
theorem callBack (h : vm.Rel pool vm') (f : Value) (args : BuiltinFnArgs)
    {k k' : WqResult Value → Env W → BuiltinRun W}
    (hk : ∀ r env, (k r env).Rel pool (k' r (env.setPool pool))) :
    Vm.Rel pool (vm.callBack table ops f args k) (vm'.callBack table' ops f args k') := by
  have henv : vm'.data.env = vm.data.env.setPool pool := by rw [h.data]; rfl
  have hfail : ∀ e, Vm.Rel pool { vm with control := .builtin (k (.error e) vm.data.env) }
      { vm' with control := .builtin (k' (.error e) vm'.data.env) } := by
    intro e
    rw [henv]
    exact h.setControl (.builtin (hk _ _))
  cases f with
  | builtinFunction name id =>
    have hrun : (ops.callBuiltin id false args (Exec.isMain table vm.data) vm.data.env).Rel pool
        (ops.callBuiltin id false args (Exec.isMain table' vm'.data) vm'.data.env) := by
      rw [h.data, hshape.interface.isMain]
      exact hops.builtin _ _ _ _ _ _
    exact h.setControl (.builtin (hrun.andThen hk))
  | rng handle =>
    unfold Vm.callBack
    dsimp only
    rw [henv, hops.rng]
    exact h.setControl (.builtin (hk _ _))
  | liftedCallable expr =>
    unfold Vm.callBack
    dsimp only
    split
    · exact hfail .arity
    · rw [henv]
      exact h.setControl (.builtin ((Exec.callableRun_rel _ _ _ _).andThen hk))
  | cas kind =>
    unfold Vm.callBack
    dsimp only
    rw [henv]
    exact h.setControl (.builtin (hk _ _))
  | compiledFunction fn => exact h.callUser hshape _ args hk fn []
  | closure fn captured => exact h.callUser hshape _ args hk fn captured
  | _ => exact hfail .notBound

include hshape in
theorem stepBuiltin (h : vm.Rel pool vm') {run run' : BuiltinRun W} (hrun : run.Rel pool run') :
    Vm.Rel pool (vm.stepBuiltin table ops run) (vm'.stepBuiltin table' ops run') := by
  cases hrun with
  | done r env =>
    cases r with
    | ok v =>
      obtain ⟨hcallers, -⟩ := h
      exact .mk hcallers .running
    | error e =>
      obtain ⟨hcallers, -⟩ := h
      exact .mk hcallers (.unwinding e)
  | call f args env hk =>
    have henv : Vm.Rel pool { vm with data := { vm.data with env } }
        { vm' with data := { vm'.data with env := env.setPool pool } } := by
      obtain ⟨hcallers, hcontrol⟩ := h
      exact .mk hcallers hcontrol
    exact henv.callBack hshape hops f args hk

/-! ### Steps -/

omit hops in
include hshape in
theorem openTry (h : vm.Rel pool vm') (len : Nat) :
    Vm.Rel pool (vm.openTry table len) (vm'.openTry table' len) := by
  have hunwinding := h.unwinding .vm
  obtain ⟨hcallers, hcontrol⟩ := h
  unfold Vm.openTry Vm.depth
  dsimp only
  rw [hshape.length, ← hcallers.length_eq]
  split
  · exact .mk hcallers hcontrol
  · exact hunwinding

include hshape in
theorem follow (h : vm.Rel pool vm') {flow flow' : Flow W} (hflow : flow.Rel pool flow') :
    Vm.Rel pool (vm.follow table ops flow) (vm'.follow table' ops flow') := by
  cases hflow with
  | builtin hrun => exact h.setControl (.builtin hrun)
  | same hne =>
    cases flow with
    | next => exact h
    | jump target => exact h.setPc target
    | return_ => exact h.returnFrame
    | try_ len => exact h.openTry hshape len
    | enter callee argc => exact h.enterCall ops hshape callee argc
    | tail callee argc => exact h.prepareTail hshape callee argc
    | builtin run => exact absurd rfl (hne run)
    | import_ data => exact h.importModule hshape hops data

include hshape in
/-- **An instruction that takes nothing from the pool** keeps the machines
related. -/
theorem stepInstruction (h : vm.Rel pool vm') {i : Instruction} (hi : i.usesPool = false) :
    Vm.Rel pool (vm.stepInstruction table ops i) (vm'.stepInstruction table' ops i) := by
  have hexec := Exec.exec_blind hops table hi pool vm.data
  unfold Vm.stepInstruction
  rw [hshape.interface.exec, h.data, h.pc]
  generalize (Exec.exec ops table i).run vm.data = r,
    (Exec.exec ops table i).run (vm.data.setPool pool) = r' at hexec
  cases hexec with
  | ok d hflow => exact ((h.setPc (vm.pc + 1)).setData d).follow hshape hops hflow
  | error e d => exact ((h.setPc (vm.pc + 1)).setData d).unwinding e

end Blind

end Vm.Rel

end Wqpl
