/-
# The frames of a step

A call leaves the frame it is made from on the stack of callers, at the
instruction behind the call (`Led`), and the frame goes on from there when the
call ends (`returnFrame_back`, `unwind_back`).
-/
import Wqpl.Vm.Step

namespace Wqpl.Vm

variable {W : Type}

/-- The same frame at the same place. -/
structure SameFrame (vm vm' : Vm W) : Prop where
  code : vm'.code = vm.code
  pc : vm'.pc = vm.pc
  function : vm'.data.function = vm.data.function
  callers : vm'.callers = vm.callers

/-- The frame that waits is the current one of `vm`. -/
structure Waits (vm : Vm W) (frame : CallerFrame W) : Prop where
  code : frame.code = vm.code
  pc : frame.pc = vm.pc
  function : frame.function = vm.data.function

/-- The current frame goes on, or waits for a call. -/
inductive Led (vm vm' : Vm W) : Prop
  | here (h : vm.SameFrame vm')
  | called {frame : CallerFrame W} (hcallers : vm'.callers = frame :: vm.callers)
    (h : vm.Waits frame)

/-- The innermost caller goes on. -/
structure Back (frame : CallerFrame W) (rest : List (CallerFrame W)) (vm : Vm W) : Prop where
  code : vm.code = frame.code
  pc : vm.pc = frame.pc
  function : vm.data.function = frame.function
  callers : vm.callers = rest

variable {vm vm' vm'' : Vm W}

theorem Led.of_same (h : vm.SameFrame vm') (hled : vm'.Led vm'') : vm.Led vm'' := by
  obtain ⟨hcode, hpc, hfunction, hcallers⟩ := h
  cases hled with
  | here h =>
    exact .here ⟨h.code.trans hcode, h.pc.trans hpc, h.function.trans hfunction,
      h.callers.trans hcallers⟩
  | called hc h =>
    exact .called (hc.trans (congrArg _ hcallers))
      ⟨h.code.trans hcode, h.pc.trans hpc, h.function.trans hfunction⟩

theorem Led.mapEnv (h : vm.Led vm') (f : Env W → Env W) : vm.Led (vm'.mapEnv f) := by
  cases h with
  | here h => exact .here ⟨h.code, h.pc, h.function, h.callers⟩
  | called hc h => exact .called hc h

theorem Led.setControl (h : vm.Led vm') (control : Control W) :
    vm.Led { vm' with control := control } := by
  cases h with
  | here h => exact .here ⟨h.code, h.pc, h.function, h.callers⟩
  | called hc h => exact .called hc h

theorem led_control (vm : Vm W) (control : Control W) : vm.Led { vm with control := control } :=
  .here ⟨rfl, rfl, rfl, rfl⟩

/-! ### Calls -/

variable (table : FnTable) (ops : Ops W)

theorem enterSpec_led (vm : Vm W) (fn : FnId) (captures : List CellId) (callee : Value)
    (argc : Nat) (moduleIdentity : Option String) (cont : CallCont W) :
    match vm.enterSpec table ops fn captures callee argc moduleIdentity cont with
    | .ok vm' => vm.Led vm'
    | .error p => vm.Led p.2 := by
  unfold Vm.enterSpec
  dsimp only
  cases bindArguments (table fn) argc vm.data.pendingNamedMeta vm.data.stack with
  | error e => exact .here ⟨rfl, rfl, rfl, rfl⟩
  | ok bound =>
    dsimp only
    by_cases hdepth : ops.maxCallDepth < vm.depth + 1
    · rw [if_pos hdepth]
      exact .here ⟨rfl, rfl, rfl, rfl⟩
    · rw [if_neg hdepth]
      exact .called rfl ⟨rfl, rfl, rfl⟩

theorem enterCall_led (vm : Vm W) (callee : Value) (argc : Nat) :
    vm.Led (vm.enterCall table ops callee argc) := by
  unfold Vm.enterCall
  cases callee.asUserFunction with
  | none => exact vm.led_control _
  | some p =>
    obtain ⟨fn, captures⟩ := p
    have h := vm.enterSpec_led table ops fn captures callee argc none .push
    dsimp only
    generalize vm.enterSpec table ops fn captures callee argc none .push = r at h
    cases r with
    | ok vm' => exact h
    | error p => exact h.setControl _

theorem importModule_led (vm : Vm W) (data : ImportData) :
    vm.Led (vm.importModule table ops data) := by
  unfold Vm.importModule
  cases ops.resolveModule data vm.data.env with
  | error e => exact vm.led_control _
  | ok identity =>
    dsimp only
    cases vm.data.env.modules identity with
    | some entry =>
      cases entry with
      | loading => exact vm.led_control _
      | loaded v => exact .here ⟨rfl, rfl, rfl, rfl⟩
    | none =>
      dsimp only
      have hloading : vm.SameFrame (vm.mapEnv fun env => env.setModule identity (some .loading)) :=
        ⟨rfl, rfl, rfl, rfl⟩
      generalize vm.mapEnv (fun env => env.setModule identity (some .loading)) = loading
        at hloading
      cases ops.compileModule identity loading.data.env with
      | error e => exact ((Led.here hloading).mapEnv _).setControl _
      | ok fn =>
        have h := loading.enterSpec_led table ops fn [] (.compiledFunction fn) 0 (some identity) .push
        dsimp only
        generalize loading.enterSpec table ops fn [] (.compiledFunction fn) 0 (some identity)
          .push = r at h
        cases r with
        | ok vm' => exact .of_same hloading h
        | error p => exact .of_same hloading ((h.mapEnv _).setControl _)

theorem callUser_led (vm : Vm W) (f : Value) (args : BuiltinFnArgs)
    (k : WqResult Value → Env W → BuiltinRun W) (fn : FnId) (captures : List CellId) : vm.Led
      (match (vm.pushArgs args).enterSpec table ops fn captures f
          (args.pos.length + args.named.length) none (.builtin vm.data.pendingNamedMeta k) with
        | .ok vm => vm
        | .error (e, _) => { vm with control := .builtin (k (.error e) vm.data.env) }) := by
  have hargs : vm.SameFrame (vm.pushArgs args) := ⟨rfl, rfl, rfl, rfl⟩
  have h := (vm.pushArgs args).enterSpec_led table ops fn captures f
    (args.pos.length + args.named.length) none (.builtin vm.data.pendingNamedMeta k)
  generalize (vm.pushArgs args).enterSpec table ops fn captures f _ none _ = r at h
  cases r with
  | ok vm' => exact .of_same hargs h
  | error p => exact vm.led_control _

theorem callBack_led (vm : Vm W) (f : Value) (args : BuiltinFnArgs)
    (k : WqResult Value → Env W → BuiltinRun W) : vm.Led (vm.callBack table ops f args k) := by
  cases f with
  | liftedCallable expr =>
    unfold Vm.callBack
    dsimp only
    split
    · exact vm.led_control _
    · exact vm.led_control _
  | compiledFunction fn => exact vm.callUser_led table ops _ args k fn []
  | closure fn captured => exact vm.callUser_led table ops _ args k fn captured
  | _ => exact vm.led_control _

theorem stepBuiltin_led (vm : Vm W) (run : BuiltinRun W) :
    vm.Led (vm.stepBuiltin table ops run) := by
  cases run with
  | done r env => cases r <;> exact .here ⟨rfl, rfl, rfl, rfl⟩
  | call f args env k =>
    have hsame : vm.SameFrame { vm with data := { vm.data with env } } := ⟨rfl, rfl, rfl, rfl⟩
    exact .of_same hsame (callBack_led table ops _ f args k)

/-! ### Returns -/

theorem Back.mapEnv {frame : CallerFrame W} {rest : List (CallerFrame W)} (h : Back frame rest vm)
    (f : Env W → Env W) : Back frame rest (vm.mapEnv f) := ⟨h.code, h.pc, h.function, h.callers⟩

theorem Back.finishModuleOf {frame : CallerFrame W} {rest : List (CallerFrame W)}
    (h : Back frame rest vm) (v : Value) : Back frame rest (vm.finishModuleOf frame v) := by
  unfold Vm.finishModuleOf
  cases frame.moduleIdentity with
  | none => exact h
  | some identity => exact h.mapEnv _

theorem Back.failModuleOf {frame : CallerFrame W} {rest : List (CallerFrame W)}
    (h : Back frame rest vm) : Back frame rest (vm.failModuleOf frame) := by
  unfold Vm.failModuleOf
  cases frame.moduleIdentity with
  | none => exact h
  | some identity => exact h.mapEnv _

theorem Back.resume {frame : CallerFrame W} {rest : List (CallerFrame W)} (h : Back frame rest vm)
    (cont : CallCont W) (v : Value) : Back frame rest (vm.resume cont v) := by
  cases cont <;> exact ⟨h.code, h.pc, h.function, h.callers⟩

theorem Back.resumeError {frame : CallerFrame W} {rest : List (CallerFrame W)}
    (h : Back frame rest vm) (cont : CallCont W) (e : WqErrorType) :
    Back frame rest (vm.resumeError cont e) := by
  cases cont <;> exact ⟨h.code, h.pc, h.function, h.callers⟩

theorem returnFrame_back {frame : CallerFrame W} {rest : List (CallerFrame W)}
    (h : vm.callers = frame :: rest) : Back frame rest vm.returnFrame := by
  obtain ⟨code, pc, data, callers, tryStack, control⟩ := vm
  obtain rfl : callers = frame :: rest := h
  have hback : Back frame rest (Vm.restoreUserCall
      (Vm.discardCurrentTryFrames ⟨code, pc, { data with stack := data.stack.tail },
        frame :: rest, tryStack, control⟩) frame rest) := ⟨rfl, rfl, rfl, rfl⟩
  exact (hback.finishModuleOf _).resume frame.cont _

theorem unwind_back {e : WqErrorType} {frame : CallerFrame W} {rest : List (CallerFrame W)}
    (hcatch : vm.catchCurrentTryError ops e = none) (h : vm.callers = frame :: rest) :
    Back frame rest (vm.unwind ops e) := by
  unfold Vm.unwind
  rw [hcatch]
  obtain ⟨code, pc, data, callers, tryStack, control⟩ := vm
  obtain rfl : callers = frame :: rest := h
  have hback : Back frame rest (Vm.restoreUserCall
      (Vm.discardCurrentTryFrames ⟨code, pc, data, frame :: rest, tryStack, control⟩)
        frame rest) := ⟨rfl, rfl, rfl, rfl⟩
  exact hback.failModuleOf.resumeError frame.cont e

end Wqpl.Vm
