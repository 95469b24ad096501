/-
# What code shows of itself

A caller sees the calling convention of a function and whether it belongs to
the main program. Where two tables of functions agree in these
(`SameInterface`), a call binds its arguments alike and an instruction does
the same with both (`SameInterface.exec`), and so does a step of the machine at
instructions that do the same (`SameInterface.step`).
-/
import Wqpl.Vm.Step

namespace Wqpl

/-- The functions of the tables differ in their instructions only. -/
def SameInterface (table table' : FnTable) : Prop :=
  ∀ fn, ∃ is, table' fn = { table fn with instructions := is }

namespace SameInterface

variable {W : Type} {table table' : FnTable} (h : SameInterface table table')
include h

theorem bindArguments (fn : FnId) : bindArguments (table' fn) = bindArguments (table fn) := by
  obtain ⟨is, heq⟩ := h fn
  rw [heq]
  rfl

theorem isMain : (Exec.isMain table' : Data W → Bool) = Exec.isMain table := by
  have hisolated : ∀ fn, (table' fn).isolatedModule = (table fn).isolatedModule := by
    intro fn
    obtain ⟨is, heq⟩ := h fn
    rw [heq]
  funext d
  unfold Exec.isMain
  simp only [hisolated]

theorem callBuiltinValue (ops : Ops W) (id argc : Nat) :
    Exec.callBuiltinValue ops table' id argc = Exec.callBuiltinValue ops table id argc := by
  unfold Exec.callBuiltinValue
  rw [h.isMain]

theorem invokeBuiltinId (ops : Ops W) (id argc : Nat) (discard : Bool) :
    Exec.invokeBuiltinId ops table' id argc discard =
      Exec.invokeBuiltinId ops table id argc discard := by
  unfold Exec.invokeBuiltinId
  rw [h.isMain]

theorem dispatchPostfix (ops : Ops W) (tail : Bool) (target : Value) (argc : Nat) :
    Exec.dispatchPostfix ops table' tail target argc =
      Exec.dispatchPostfix ops table tail target argc := by
  cases target with
  | builtinFunction name id => exact h.callBuiltinValue ops id argc
  | _ => rfl

theorem dispatchAnonCall (ops : Ops W) (tail : Bool) (callee : Value) (argc : Nat) :
    Exec.dispatchAnonCall ops table' tail callee argc =
      Exec.dispatchAnonCall ops table tail callee argc := by
  cases callee with
  | builtinFunction name id => exact h.callBuiltinValue ops id argc
  | _ => rfl

theorem dispatchLoadedLocalCall (ops : Ops W) (tail : Bool) (callee : Value) (argc : Nat) :
    Exec.dispatchLoadedLocalCall ops table' tail callee argc =
      Exec.dispatchLoadedLocalCall ops table tail callee argc := by
  cases callee with
  | builtinFunction name id => exact h.callBuiltinValue ops id argc
  | _ => rfl

theorem dispatchLoadedUserCall (ops : Ops W) (tail : Bool) (callee : Value) (argc : Nat) :
    Exec.dispatchLoadedUserCall ops table' tail callee argc =
      Exec.dispatchLoadedUserCall ops table tail callee argc := by
  cases callee with
  | builtinFunction name id => exact h.callBuiltinValue ops id argc
  | _ => rfl

theorem execPlain (ops : Ops W) (i : Instruction) :
    Exec.execPlain ops table' i = Exec.execPlain ops table i := by
  unfold Exec.execPlain
  simp only [h.invokeBuiltinId, h.dispatchLoadedLocalCall, h.dispatchLoadedUserCall,
    h.dispatchAnonCall, h.dispatchPostfix]

/-- An instruction does the same with both tables. -/
theorem exec (ops : Ops W) (i : Instruction) : Exec.exec ops table' i = Exec.exec ops table i := by
  unfold Exec.exec
  simp only [h.execPlain]

/-! ### Steps -/

theorem enterSpec (ops : Ops W) (vm : Vm W) (fn : FnId) (captures : List CellId) (callee : Value)
    (argc : Nat) (moduleIdentity : Option String) (cont : CallCont W) :
    vm.enterSpec table' ops fn captures callee argc moduleIdentity cont =
      vm.enterSpec table ops fn captures callee argc moduleIdentity cont := by
  unfold Vm.enterSpec
  rw [h.bindArguments]

theorem enterCall (ops : Ops W) (vm : Vm W) (callee : Value) (argc : Nat) :
    vm.enterCall table' ops callee argc = vm.enterCall table ops callee argc := by
  unfold Vm.enterCall
  simp only [h.enterSpec]

theorem prepareTail (vm : Vm W) (callee : Value) (argc : Nat) :
    vm.prepareTail table' callee argc = vm.prepareTail table callee argc := by
  unfold Vm.prepareTail
  simp only [h.bindArguments]

theorem importModule (ops : Ops W) (vm : Vm W) (data : ImportData) :
    vm.importModule table' ops data = vm.importModule table ops data := by
  unfold Vm.importModule
  simp only [h.enterSpec]

theorem callBack (ops : Ops W) (vm : Vm W) (f : Value) (args : BuiltinFnArgs)
    (k : WqResult Value → Env W → BuiltinRun W) :
    vm.callBack table' ops f args k = vm.callBack table ops f args k := by
  unfold Vm.callBack
  simp only [h.isMain, h.enterSpec]

theorem stepBuiltin (ops : Ops W) (vm : Vm W) (run : BuiltinRun W) :
    vm.stepBuiltin table' ops run = vm.stepBuiltin table ops run := by
  unfold Vm.stepBuiltin
  simp only [h.callBack]

/-- The machine goes on alike where code is as long as before. -/
theorem follow (ops : Ops W) (vm : Vm W)
    (hlength : (table' vm.code).instructions.length = (table vm.code).instructions.length)
    (flow : Flow W) : vm.follow table' ops flow = vm.follow table ops flow := by
  cases flow with
  | try_ len =>
    show vm.openTry table' len = vm.openTry table len
    unfold Vm.openTry
    rw [hlength]
  | enter callee argc => exact h.enterCall ops vm callee argc
  | tail callee argc => exact h.prepareTail vm callee argc
  | import_ data => exact h.importModule ops vm data
  | _ => rfl

/-- **A step with both tables** does the same where the instruction does. -/
theorem step (ops : Ops W) (vm : Vm W)
    (hlength : (table' vm.code).instructions.length = (table vm.code).instructions.length)
    (hexec : vm.control = .running → ∀ i i', (table vm.code).instructions[vm.pc]? = some i →
      (table' vm.code).instructions[vm.pc]? = some i' →
      (Exec.exec ops table i').run vm.data = (Exec.exec ops table i).run vm.data) :
    vm.step table' ops = vm.step table ops := by
  cases hcontrol : vm.control with
  | running =>
    cases hboundary : vm.finishTryBoundary with
    | some vm' =>
      rw [Vm.step_eq_finished table ops hcontrol hboundary,
        Vm.step_eq_finished table' ops hcontrol hboundary]
    | none =>
      cases hi : (table vm.code).instructions[vm.pc]? with
      | none =>
        have hi' : (table' vm.code).instructions[vm.pc]? = none := by
          rw [List.getElem?_eq_none_iff] at hi ⊢
          rw [hlength]
          exact hi
        rw [Vm.step_eq_returnFrame table ops hcontrol hboundary hi,
          Vm.step_eq_returnFrame table' ops hcontrol hboundary hi']
      | some i =>
        obtain ⟨i', hi'⟩ : ∃ i', (table' vm.code).instructions[vm.pc]? = some i' := by
          have hlt := (List.getElem?_eq_some_iff.mp hi).1
          rw [← hlength] at hlt
          exact ⟨_, List.getElem?_eq_getElem hlt⟩
        rw [Vm.step_eq_stepInstruction table ops hcontrol hboundary hi,
          Vm.step_eq_stepInstruction table' ops hcontrol hboundary hi']
        unfold Vm.stepInstruction
        rw [h.exec, hexec hcontrol i i' hi hi']
        cases (Exec.exec ops table i).run vm.data with
        | error e d => rfl
        | ok flow d =>
          exact h.follow ops { vm with pc := vm.pc + 1, data := d } hlength flow
  | builtin run =>
    have hstep : ∀ table, vm.step table ops = vm.stepBuiltin table ops run := by
      intro table
      rw [Vm.step, hcontrol]
    rw [hstep, hstep, h.stepBuiltin]
  | unwinding e =>
    have hstep : ∀ table, vm.step table ops = vm.unwind ops e := by
      intro table
      rw [Vm.step, hcontrol]
    rw [hstep, hstep]
  | halted res =>
    have hstep : ∀ table, vm.step table ops = vm := by
      intro table
      rw [Vm.step, hcontrol]
    rw [hstep, hstep]

end SameInterface

end Wqpl
