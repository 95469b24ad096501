/-
# What a call leads to

A call takes its arguments off the stack of its frame. It fails, gives a value, or goes on
as a builtin of the frame or in a frame of its own (`Calls`), and so does a step of a builtin
(`stepBuiltin_calls`). Only a `try` instruction adds to the try stack (`step_tryStack`).
-/
import Wqpl.Vm.Callers
import Wqpl.Vm.TryNesting

namespace Wqpl.Vm

variable {W : Type}

/-- What a call leads to in a frame that has the operands `lower` under the arguments. -/
inductive Calls (vm : Vm W) (lower : List Value) (vm' : Vm W) : Prop
  | failed {e : WqErrorType} (hcallers : vm'.callers = vm.callers)
    (hcontrol : vm'.control = .unwinding e)
  | builtin {run : BuiltinRun W} (h : vm.SameFrame vm') (hstack : vm'.data.stack = lower)
    (hcontrol : vm'.control = .builtin run)
  | answered {v : Value} (h : vm.SameFrame vm') (hstack : vm'.data.stack = v :: lower)
    (hcontrol : vm'.control = .running)
  | entered {frame : CallerFrame W} (hcallers : vm'.callers = frame :: vm.callers)
    (h : vm.Waits frame) (hstack : frame.stack = lower) (hpc : vm'.pc = 0)
    (hcontrol : vm'.control = .running)

variable {vm vm' vm'' : Vm W} {lower : List Value}

theorem Calls.of_same (h : vm.SameFrame vm') (hcalls : vm'.Calls lower vm'') :
    vm.Calls lower vm'' := by
  obtain ⟨hcode, hpc, hfunction, hcallers⟩ := h
  cases hcalls with
  | failed hc hcontrol => exact .failed (hc.trans hcallers) hcontrol
  | builtin h hstack hcontrol =>
    exact .builtin ⟨h.code.trans hcode, h.pc.trans hpc, h.function.trans hfunction,
      h.callers.trans hcallers⟩ hstack hcontrol
  | answered h hstack hcontrol =>
    exact .answered ⟨h.code.trans hcode, h.pc.trans hpc, h.function.trans hfunction,
      h.callers.trans hcallers⟩ hstack hcontrol
  | entered hc h hstack hpc' hcontrol =>
    exact .entered (hc.trans (congrArg _ hcallers))
      ⟨h.code.trans hcode, h.pc.trans hpc, h.function.trans hfunction⟩ hstack hpc' hcontrol

theorem Calls.builtin_control (vm : Vm W) (run : BuiltinRun W) :
    vm.Calls vm.data.stack { vm with control := .builtin run } :=
  .builtin ⟨rfl, rfl, rfl, rfl⟩ rfl rfl

variable {table : FnTable} {ops : Ops W} {fn : FnId} {captures : List CellId} {callee : Value}
  {argc : Nat} {moduleIdentity : Option String} {cont : CallCont W}

theorem enterSpec_ok
    (h : vm.enterSpec table ops fn captures callee argc moduleIdentity cont = .ok vm') :
    vm.Calls (vm.data.stack.drop argc) vm' := by
  unfold Vm.enterSpec at h
  dsimp only at h
  split at h
  · cases h
  · rename_i locals stack hbind
    obtain rfl := Region.bindArguments_stack hbind
    split at h
    · cases h
    · cases h
      exact .entered rfl ⟨rfl, rfl, rfl⟩ rfl rfl rfl

theorem enterSpec_error {e : WqErrorType}
    (h : vm.enterSpec table ops fn captures callee argc moduleIdentity cont = .error (e, vm')) :
    vm'.callers = vm.callers := by
  unfold Vm.enterSpec at h
  dsimp only at h
  split at h
  · cases h
    rfl
  · split at h
    · cases h
      rfl
    · cases h

variable (table ops)

theorem enterCall_calls (vm : Vm W) (callee : Value) (argc : Nat) :
    vm.Calls (vm.data.stack.drop argc) (vm.enterCall table ops callee argc) := by
  unfold Vm.enterCall
  cases callee.asUserFunction with
  | none => exact .failed rfl rfl
  | some p =>
    dsimp only
    cases h : vm.enterSpec table ops p.1 p.2 callee argc none .push with
    | ok vm' => exact enterSpec_ok h
    | error r =>
      obtain ⟨e, vm'⟩ := r
      have hcallers : vm'.callers = vm.callers := enterSpec_error h
      exact .failed hcallers rfl

/-- A module that was loaded before gives its value at once. -/
theorem importModule_calls (hrun : vm.control = .running) (data : ImportData) :
    vm.Calls vm.data.stack (vm.importModule table ops data) := by
  unfold Vm.importModule
  cases ops.resolveModule data vm.data.env with
  | error e => exact .failed rfl rfl
  | ok identity =>
    dsimp only
    cases vm.data.env.modules identity with
    | some entry =>
      cases entry with
      | loading => exact .failed rfl rfl
      | loaded v => exact .answered ⟨rfl, rfl, rfl, rfl⟩ rfl hrun
    | none =>
      dsimp only
      have hloading : vm.SameFrame (vm.mapEnv fun env => env.setModule identity (some .loading)) :=
        ⟨rfl, rfl, rfl, rfl⟩
      have hstack : (vm.mapEnv fun env => env.setModule identity (some .loading)).data.stack =
          vm.data.stack := rfl
      generalize vm.mapEnv (fun env => env.setModule identity (some .loading)) = loading
        at hloading hstack
      cases ops.compileModule identity loading.data.env with
      | error e => exact .failed hloading.callers rfl
      | ok fn =>
        dsimp only
        cases h : loading.enterSpec table ops fn [] (.compiledFunction fn) 0 (some identity)
            .push with
        | ok vm' =>
          have hcalls := enterSpec_ok h
          rw [List.drop_zero, hstack] at hcalls
          exact .of_same hloading hcalls
        | error r =>
          obtain ⟨e, vm'⟩ := r
          have hcallers : vm'.callers = loading.callers := enterSpec_error h
          exact .failed (hcallers.trans hloading.callers) rfl

theorem callUser_calls (vm : Vm W) (f : Value) (args : BuiltinFnArgs)
    (k : WqResult Value → Env W → BuiltinRun W) (fn : FnId) (captures : List CellId) :
    vm.Calls vm.data.stack
      (match (vm.pushArgs args).enterSpec table ops fn captures f
          (args.pos.length + args.named.length) none (.builtin vm.data.pendingNamedMeta k) with
        | .ok vm => vm
        | .error (e, _) => { vm with control := .builtin (k (.error e) vm.data.env) }) := by
  have hargs : vm.SameFrame (vm.pushArgs args) := ⟨rfl, rfl, rfl, rfl⟩
  have hlength : ((args.pos ++ args.named.map Prod.snd).reverse).length =
      args.pos.length + args.named.length := by
    rw [List.length_reverse, List.length_append, List.length_map]
  have hdrop : (vm.pushArgs args).data.stack.drop (args.pos.length + args.named.length) =
      vm.data.stack := List.drop_left' hlength
  cases h : (vm.pushArgs args).enterSpec table ops fn captures f
      (args.pos.length + args.named.length) none (.builtin vm.data.pendingNamedMeta k) with
  | ok vm' => exact .of_same hargs (hdrop ▸ enterSpec_ok h)
  | error r => exact .builtin_control vm _

theorem callBack_calls (vm : Vm W) (f : Value) (args : BuiltinFnArgs)
    (k : WqResult Value → Env W → BuiltinRun W) :
    vm.Calls vm.data.stack (vm.callBack table ops f args k) := by
  cases f with
  | liftedCallable expr =>
    unfold Vm.callBack
    dsimp only
    split
    · exact .builtin_control vm _
    · exact .builtin_control vm _
  | compiledFunction fn => exact callUser_calls table ops vm _ args k fn []
  | closure fn captured => exact callUser_calls table ops vm _ args k fn captured
  | _ => exact .builtin_control vm _

/-- **A step of a builtin** gives the value of the call, or calls back. -/
theorem stepBuiltin_calls (vm : Vm W) (run : BuiltinRun W) :
    vm.Calls vm.data.stack (vm.stepBuiltin table ops run) := by
  cases run with
  | done r env =>
    cases r with
    | ok v => exact .answered ⟨rfl, rfl, rfl, rfl⟩ rfl rfl
    | error e => exact .failed rfl rfl
  | call f args env k =>
    have hsame : vm.SameFrame { vm with data := { vm.data with env } } := ⟨rfl, rfl, rfl, rfl⟩
    exact .of_same hsame (callBack_calls table ops _ f args k)

/-- A tail call fails, or uses the frame again. -/
theorem prepareTail_cases (vm : Vm W) (callee : Value) (argc : Nat) :
    (vm.prepareTail table callee argc).callers = vm.callers ∧
      ((∃ e, (vm.prepareTail table callee argc).control = .unwinding e) ∨
        (vm.prepareTail table callee argc).pc = 0 ∧
          (vm.prepareTail table callee argc).control = vm.control) := by
  unfold Vm.prepareTail
  dsimp only
  cases callee.asUserFunction with
  | none => exact ⟨rfl, .inl ⟨_, rfl⟩⟩
  | some p =>
    dsimp only
    cases bindArguments (table p.1) argc vm.data.pendingNamedMeta vm.data.stack with
    | error e => exact ⟨rfl, .inl ⟨_, rfl⟩⟩
    | ok bound =>
      dsimp only
      cases vm.data.function with
      | none => exact ⟨rfl, .inl ⟨_, rfl⟩⟩
      | some a => exact ⟨rfl, .inr ⟨rfl, rfl⟩⟩

/-! ### The try stack -/

variable {table ops}

theorem discard_suffix (vm : Vm W) : vm.discardCurrentTryFrames.tryStack <:+ vm.tryStack := by
  show (discardTryFrames vm.depth vm.tryStack vm.data).1 <:+ vm.tryStack
  rw [discardTryFrames_fst]
  exact List.dropWhile_suffix _

theorem returnFrame_suffix (hrun : vm.control = .running) :
    vm.returnFrame.tryStack <:+ vm.tryStack := by
  cases hc : vm.callers with
  | nil =>
    rw [Region.returnFrame_nil hc]
    exact discard_suffix (Region.popped vm)
  | cons frame rest =>
    rw [(Region.returnFrame_cons hrun hc).tryStack]
    exact discard_suffix (Region.popped vm)

theorem unwind_suffix (e : WqErrorType) : (vm.unwind ops e).tryStack <:+ vm.tryStack := by
  cases hcatch : vm.catchCurrentTryError ops e with
  | some vm' =>
    have hunwind : vm.unwind ops e = vm' := by rw [Vm.unwind, hcatch]
    rw [hunwind]
    unfold catchCurrentTryError at hcatch
    split at hcatch
    · cases hcatch
    · split at hcatch
      · cases hcatch
      · rename_i frame rest htry
        obtain ⟨-, hvm'⟩ := Option.ite_none_right_eq_some.mp hcatch
        rw [← Option.some.inj hvm', htry]
        exact List.suffix_cons frame rest
  | none =>
    cases hc : vm.callers with
    | nil =>
      rw [Region.unwind_nil hcatch hc]
      exact discard_suffix vm
    | cons frame rest =>
      rw [(Region.unwind_cons hcatch hc).tryStack]
      exact discard_suffix vm

/-- The step opens a try region. -/
structure Opens (table : FnTable) (ops : Ops W) (vm : Vm W) (i : Instruction) (len : Nat)
    (d : Data W) : Prop where
  running : vm.control = .running
  instruction : (table vm.code).instructions[vm.pc]? = some i
  executes : (Exec.exec ops table i).run vm.data = .ok (.try_ len) d
  bound : vm.pc + 1 + len ≤ (table vm.code).instructions.length
  step : vm.step table ops = (Region.advance vm d).openTry table len

theorem Opens.opened {i : Instruction} {len : Nat} {d : Data W} (h : vm.Opens table ops i len d) :
    vm.step table ops = { Region.advance vm { d with pendingNamedMeta := none } with
      tryStack := { code := vm.code, callDepth := vm.depth, endPc := vm.pc + 1 + len
                    stackStart := d.stack.length, savedPendingNamedMeta := d.pendingNamedMeta
                    unpackDepth := d.unpackFrames.length } :: vm.tryStack } := by
  have hnear : (Region.advance vm d).pc + len ≤
      (table (Region.advance vm d).code).instructions.length := h.bound
  rw [h.step, openTry, if_pos hnear]
  rfl

/-- **A step takes frames off the try stack**, or opens a region. -/
theorem step_tryStack (vm : Vm W) : (vm.step table ops).tryStack <:+ vm.tryStack ∨
    ∃ i len d, vm.Opens table ops i len d := by
  cases hcontrol : vm.control with
  | running =>
    cases hboundary : vm.finishTryBoundary with
    | some vm' =>
      rw [step_eq_finished table ops hcontrol hboundary]
      refine .inl ?_
      unfold finishTryBoundary at hboundary
      split at hboundary
      · cases hboundary
      · rename_i frame rest htry
        obtain ⟨-, hvm'⟩ := Option.ite_none_right_eq_some.mp hboundary
        rw [← Option.some.inj hvm', htry]
        exact List.suffix_cons frame rest
    | none =>
      cases hi : (table vm.code).instructions[vm.pc]? with
      | none =>
        rw [step_eq_returnFrame table ops hcontrol hboundary hi]
        exact .inl (returnFrame_suffix hcontrol)
      | some i =>
        have hstep := step_eq_stepInstruction table ops hcontrol hboundary hi
        unfold stepInstruction at hstep
        cases hexec : (Exec.exec ops table i).run vm.data with
        | error e d =>
          rw [hexec] at hstep
          rw [hstep]
          exact .inl List.suffix_rfl
        | ok flow d =>
          rw [hexec] at hstep
          have hsame : ∀ {ts : List TryFrame}, ts = vm.tryStack → ts <:+ vm.tryStack :=
            fun h => h ▸ List.suffix_rfl
          cases flow with
          | next => exact .inl (hstep ▸ List.suffix_rfl)
          | jump target => exact .inl (hstep ▸ List.suffix_rfl)
          | return_ =>
            rw [hstep]
            have hadvance : (Region.advance vm d).control = .running := hcontrol
            exact .inl (returnFrame_suffix hadvance)
          | try_ len =>
            have hopen : vm.step table ops = (Region.advance vm d).openTry table len := hstep
            by_cases hbound : vm.pc + 1 + len ≤ (table vm.code).instructions.length
            · exact .inr ⟨i, len, d, hcontrol, hi, hexec, hbound, hopen⟩
            · have hfar : ¬(Region.advance vm d).pc + len ≤
                  (table (Region.advance vm d).code).instructions.length := hbound
              rw [hopen, openTry, if_neg hfar]
              exact .inl List.suffix_rfl
          | enter callee argc =>
            rw [hstep]
            exact .inl (hsame (enterCall_tryStack table ops (Region.advance vm d) callee argc))
          | tail callee argc =>
            rw [hstep]
            exact .inl (hsame (prepareTail_keeps table (Region.advance vm d) callee argc).tryStack)
          | builtin run => exact .inl (hstep ▸ List.suffix_rfl)
          | import_ data =>
            rw [hstep]
            exact .inl (hsame (importModule_tryStack table ops (Region.advance vm d) data))
  | builtin run =>
    have hstep : vm.step table ops = vm.stepBuiltin table ops run := by rw [step, hcontrol]
    rw [hstep, stepBuiltin_tryStack]
    exact .inl List.suffix_rfl
  | unwinding e =>
    have hstep : vm.step table ops = vm.unwind ops e := by rw [step, hcontrol]
    rw [hstep]
    exact .inl (unwind_suffix e)
  | halted res =>
    have hstep : vm.step table ops = vm := by rw [step, hcontrol]
    rw [hstep]
    exact .inl List.suffix_rfl

end Wqpl.Vm
