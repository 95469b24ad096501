/-
# Where control goes in the main code

The control-flow graph of the main code covers what its frame does: from one of
its instructions control goes to a successor, or behind the code, also after a
call (`InMain.step`). An error is the exception. It goes to the end of the try
region around the instruction, which is not among the successors, so it follows
the graph only where the region's code runs into its end (`CaughtOnPath`).
-/
import Wqpl.Compile.OwnedConst
import Wqpl.Vm.Callers
import Wqpl.Vm.Effect
import Wqpl.Vm.Flow

namespace Wqpl

/-! ### Successors -/

/-- Control goes from one place to the other along an edge, or behind the code. -/
def Covered (code : List Instruction) (pc target : Nat) : Prop :=
  (controlFlowGraph code).Edge pc target ∨ code.length ≤ target

/-- The instruction does not go on to the next one as most do. -/
def Instruction.leaves : Instruction → Bool
  | .jump _ | .nLoopNext _ _ _ | .return_ | .try_ _ => true
  | _ => false

section Successors

variable {code : List Instruction} {pc : Nat} {i : Instruction}

theorem covered_of_mem (hi : code[pc]? = some i) {target : Nat}
    (h : target < code.length → target ∈ successors pc i code.length) : Covered code pc target := by
  by_cases hlt : target < code.length
  · exact .inl ((edge_iff hi).mpr (h hlt))
  · exact .inr (Nat.le_of_not_lt hlt)

theorem covered_next (hi : code[pc]? = some i) (hleaves : i.leaves = false) :
    Covered code pc (pc + 1) := by
  refine covered_of_mem hi fun hlt => ?_
  have hfall : pc + 1 ∈ pushFallthrough [] pc code.length :=
    mem_pushFallthrough.mpr (.inr ⟨rfl, hlt⟩)
  cases i with
  | jump _ => cases hleaves
  | nLoopNext _ _ _ => cases hleaves
  | return_ => cases hleaves
  | try_ _ => cases hleaves
  | jumpIfFalse target | jumpIfGE target | boolAndLazy target | boolOrLazy target
  | jumpIfCmpFalse _ _ _ target | nLoopEnter _ _ _ target | jumpIfLEZLocal _ target
  | jumpIfNamedProvided _ _ target => exact mem_pushTarget.mpr (.inl hfall)
  | _ => exact hfall

theorem covered_try {len : Nat} (hi : code[pc]? = some (.try_ len)) : Covered code pc (pc + 1) := by
  refine covered_of_mem hi fun hlt => mem_pushTarget.mpr ?_
  by_cases hlen : 0 < len
  · rw [if_pos hlen]
    exact .inl (mem_pushFallthrough.mpr (.inr ⟨rfl, hlt⟩))
  · exact .inr ⟨by omega, by omega⟩

theorem covered_jump (hnamed : NamedCallsWrapCalls code) (hi : code[pc]? = some i) {target : Nat}
    (htarget : i.target = some target) : Covered code pc target := by
  refine covered_of_mem hi fun hlt => ?_
  cases i with
  | jump t | nLoopNext _ _ t | jumpIfFalse t | jumpIfGE t | boolAndLazy t | boolOrLazy t
  | jumpIfCmpFalse _ _ _ t | nLoopEnter _ _ _ t | jumpIfLEZLocal _ t
  | jumpIfNamedProvided _ _ t =>
    obtain rfl : t = target := Option.some.inj htarget
    exact mem_pushTarget.mpr (.inr ⟨rfl, hlt⟩)
  | namedCall call metadata =>
    have hnone := (hnamed call metadata (List.mem_of_getElem? hi)).1
    rw [show call.target = some target from htarget] at hnone
    cases hnone
  | _ => cases htarget

theorem try_of_tryLen (hnamed : NamedCallsWrapCalls code) (hi : code[pc]? = some i) {len : Nat}
    (hlen : i.tryLen = some len) : i = .try_ len := by
  cases i with
  | try_ n =>
    obtain rfl : n = len := Option.some.inj hlen
    rfl
  | namedCall call metadata =>
    have hnone := (hnamed call metadata (List.mem_of_getElem? hi)).2
    rw [show call.tryLen = some len from hlen] at hnone
    cases hnone
  | _ => cases hlen

end Successors

/-- Control jumps, returns or enters a try region. -/
def Flow.Leaves {W : Type} : Flow W → Prop
  | .jump _ | .return_ | .try_ _ => True
  | _ => False

theorem Exec.exec_leaves {W : Type} (ops : Ops W) (table : FnTable) {i : Instruction}
    (hi : i.leaves = true) : Returns (Flow.Leaves (W := W)) (exec ops table i) := by
  cases i with
  | jump target => exact returns_pure trivial
  | return_ => exact returns_pure trivial
  | try_ len => exact returns_pure trivial
  | nLoopNext snapshot index target =>
    refine Returns.bind fun v => ?_
    dsimp only
    split
    next => split <;> exact .bind fun _ => .bind fun _ => returns_pure trivial
    next => exact .bind fun _ => .bind fun _ => returns_pure trivial
  | _ => cases hi

/-! ### Places that are not reached again -/

section Avoids

variable (code : List Instruction) (avoid : Nat → Prop)

/-- No instruction to avoid is reached from here. -/
def Avoids (pc : Nat) : Prop := ∀ q, avoid q → ¬(controlFlowGraph code).Reach pc q

/-- None is reached behind the instruction before this place. -/
def AvoidsBehind (pc : Nat) : Prop :=
  ∃ p, pc = p + 1 ∧ ∀ q, avoid q → ¬Relation.TransGen (controlFlowGraph code).Edge p q

/-- Where control may be, by what it does there. -/
def Place {W : Type} (pc : Nat) : Control W → Prop
  | .running => Avoids code avoid pc
  | .builtin _ => Avoids code avoid pc ∧ AvoidsBehind code avoid pc
  | .unwinding _ => AvoidsBehind code avoid pc
  | .halted _ => True

variable {code avoid} {pc target : Nat}

theorem Avoids.behind (h : Avoids code avoid pc) : AvoidsBehind code avoid (pc + 1) :=
  ⟨pc, rfl, fun q hq hreach => h q hq hreach.to_reflTransGen⟩

theorem avoids_end (hlt : ∀ q, avoid q → q < code.length) (h : code.length ≤ target) :
    Avoids code avoid target := by
  intro q hq hreach
  obtain rfl := reach_behind h hreach
  exact Nat.not_le_of_lt (hlt q hq) h

theorem AvoidsBehind.path (hlt : ∀ q, avoid q → q < code.length) (h : AvoidsBehind code avoid pc)
    (hpath : Relation.TransGen (controlFlowGraph code).Edge (pc - 1) target ∨
      code.length ≤ target) : Avoids code avoid target := by
  rcases hpath with hpath | hend
  · obtain ⟨p, rfl, h⟩ := h
    rw [Nat.add_sub_cancel] at hpath
    exact fun q hq hreach => h q hq (hpath.trans_left hreach)
  · exact avoids_end hlt hend

theorem Avoids.covered (hlt : ∀ q, avoid q → q < code.length) (h : Avoids code avoid pc)
    (hcovered : Covered code pc target) : Avoids code avoid target :=
  h.behind.path hlt (hcovered.imp_left fun hedge => .single hedge)

/-- A place where a call was made is good for all that may follow. -/
theorem place_of_waiting {W : Type} (h : Avoids code avoid pc ∧ AvoidsBehind code avoid pc)
    (control : Control W) : Place code avoid pc control := by
  cases control with
  | running => exact h.1
  | builtin run => exact h
  | unwinding e => exact h.2
  | halted r => trivial

end Avoids

/-! ### The main frame -/

section MainFrame

variable {W : Type} (table : FnTable) (main : FnId) (avoid : Nat → Prop)

/-- The main frame waits for a call. -/
structure CallerFrame.InMain (frame : CallerFrame W) : Prop where
  code : frame.code = main
  function : frame.function = none
  place : Avoids (table main).instructions avoid frame.pc ∧
    AvoidsBehind (table main).instructions avoid frame.pc

/-- The main frame, the current one or the outermost caller, is where it does
not reach an instruction to avoid. -/
inductive Vm.InMain (vm : Vm W) : Prop
  | here (hcallers : vm.callers = []) (hcode : vm.code = main)
    (hfunction : vm.data.function = none)
    (hplace : Place (table main).instructions avoid vm.pc vm.control)
  | called {frame : CallerFrame W} (hlast : vm.callers.getLast? = some frame)
    (hframe : frame.InMain table main avoid)
  | halted {r : WqResult Value} (hcontrol : vm.control = .halted r)

/-- Only the outermost frame runs the main code. -/
def Vm.OnlyMainRunsMain (vm : Vm W) : Prop := vm.callers ≠ [] → vm.code ≠ main

/-- An error that the main frame is about to catch goes to a place that the
graph reaches from where it was raised. -/
def Vm.CaughtOnPath (vm : Vm W) : Prop :=
  ∀ e frame rest, vm.callers = [] → vm.control = .unwinding e → e ≠ .vm →
    vm.tryStack = frame :: rest → vm.ownsTry frame = true →
      Relation.TransGen (controlFlowGraph (table main).instructions).Edge (vm.pc - 1) frame.endPc ∨
        (table main).instructions.length ≤ frame.endPc

variable {table main avoid} {vm vm' : Vm W}

theorem Vm.InMain.waiting (hcallers : vm.callers = []) (hcode : vm.code = main)
    (hfunction : vm.data.function = none)
    (hplace : Avoids (table main).instructions avoid vm.pc ∧
      AvoidsBehind (table main).instructions avoid vm.pc) (hled : vm.Led vm') :
    vm'.InMain table main avoid := by
  cases hled with
  | here h =>
    refine .here (h.callers.trans hcallers) (h.code.trans hcode) (h.function.trans hfunction) ?_
    rw [h.pc]
    exact place_of_waiting hplace _
  | @called frame hc h =>
    rw [hcallers] at hc
    have hlast : vm'.callers.getLast? = some frame := congrArg List.getLast? hc
    refine .called hlast ⟨h.code.trans hcode, h.function.trans hfunction, ?_⟩
    rw [h.pc]
    exact hplace

theorem Vm.InMain.led {frame : CallerFrame W} (hlast : vm.callers.getLast? = some frame)
    (hframe : frame.InMain table main avoid) (hled : vm.Led vm') : vm'.InMain table main avoid := by
  cases hled with
  | here h => exact .called (by rw [h.callers, hlast]) hframe
  | called hc h => exact .called (by rw [hc, List.getLast?_cons, hlast]; rfl) hframe

theorem Vm.InMain.back {frame last : CallerFrame W} {rest : List (CallerFrame W)}
    (hlast : (frame :: rest).getLast? = some last) (hframe : last.InMain table main avoid)
    (hback : Back frame rest vm) : vm.InMain table main avoid := by
  cases rest with
  | nil =>
    obtain rfl : frame = last := Option.some.inj hlast
    refine .here hback.callers (hback.code.trans hframe.code)
      (hback.function.trans hframe.function) ?_
    rw [hback.pc]
    exact place_of_waiting hframe.place _
  | cons frame' rest =>
    rw [List.getLast?_cons_cons] at hlast
    exact .called (by rw [hback.callers, hlast]) hframe

/-! ### Steps -/

variable (ops : Ops W)

theorem Vm.InMain.returnFrame {frame : CallerFrame W} (hlast : vm.callers.getLast? = some frame)
    (hframe : frame.InMain table main avoid) : vm.returnFrame.InMain table main avoid := by
  obtain ⟨f, rest, hcallers⟩ : ∃ f rest, vm.callers = f :: rest := by
    rcases hvm : vm.callers with _ | ⟨f, rest⟩
    · rw [hvm] at hlast
      cases hlast
    · exact ⟨f, rest, rfl⟩
  rw [hcallers] at hlast
  exact .back hlast hframe (returnFrame_back hcallers)

theorem Vm.InMain.follow {frame : CallerFrame W} (hlast : vm.callers.getLast? = some frame)
    (hframe : frame.InMain table main avoid) (flow : Flow W) :
    (vm.follow table ops flow).InMain table main avoid := by
  cases flow with
  | next => exact .called hlast hframe
  | jump target => exact .called hlast hframe
  | return_ => exact .returnFrame hlast hframe
  | try_ len =>
    show (Vm.openTry table vm len).InMain table main avoid
    unfold Vm.openTry
    split <;> exact .called hlast hframe
  | enter callee argc => exact .led hlast hframe (vm.enterCall_led table ops callee argc)
  | tail callee argc =>
    show (Vm.prepareTail table vm callee argc).InMain table main avoid
    unfold Vm.prepareTail
    dsimp only
    split
    · exact .called hlast hframe
    · split
      · exact .called hlast hframe
      · split <;> exact .called hlast hframe
  | builtin run => exact .called hlast hframe
  | import_ data => exact .led hlast hframe (vm.importModule_led table ops data)

theorem Vm.InMain.stepInstruction {frame : CallerFrame W}
    (hlast : vm.callers.getLast? = some frame) (hframe : frame.InMain table main avoid)
    (i : Instruction) : (vm.stepInstruction table ops i).InMain table main avoid := by
  unfold Vm.stepInstruction
  split
  next flow d _ =>
    have hlast : (Vm.mk vm.code (vm.pc + 1) d vm.callers vm.tryStack vm.control).callers.getLast? =
      some frame := hlast
    exact .follow ops hlast hframe flow
  next => exact .called hlast hframe

theorem Vm.finishTryBoundary_same (h : vm.finishTryBoundary = some vm') :
    vm.SameFrame vm' ∧ vm'.control = vm.control := by
  unfold Vm.finishTryBoundary at h
  split at h
  · cases h
  · split at h
    · cases h
      exact ⟨⟨rfl, rfl, rfl, rfl⟩, rfl⟩
    · cases h

theorem Vm.catchCurrentTryError_some {e : WqErrorType}
    (h : vm.catchCurrentTryError ops e = some vm') :
    e ≠ .vm ∧ ∃ frame rest, vm.tryStack = frame :: rest ∧ vm.ownsTry frame = true ∧
      vm' = vm.catchTry ops frame rest e := by
  unfold Vm.catchCurrentTryError at h
  split at h
  · cases h
  · split at h
    · cases h
    · split at h
      · cases h
        exact ⟨‹_›, _, _, ‹_›, ‹_›, rfl⟩
      · cases h

/-- **During a call** the main frame waits. -/
theorem Vm.InMain.step_called {frame : CallerFrame W} (hlast : vm.callers.getLast? = some frame)
    (hframe : frame.InMain table main avoid) : (vm.step table ops).InMain table main avoid := by
  unfold Vm.step
  split
  next =>
    unfold Vm.stepRunning
    cases hboundary : vm.finishTryBoundary with
    | some vm' =>
      have hsame := (Vm.finishTryBoundary_same hboundary).1
      exact .called (by rw [hsame.callers, hlast]) hframe
    | none =>
      dsimp only
      cases (table vm.code).instructions[vm.pc]? with
      | some i => exact .stepInstruction ops hlast hframe i
      | none => exact .returnFrame hlast hframe
  next run _ => exact .led hlast hframe (vm.stepBuiltin_led table ops run)
  next e _ =>
    cases hcatch : vm.catchCurrentTryError ops e with
    | some vm' =>
      obtain ⟨-, f, rest, -, -, rfl⟩ := Vm.catchCurrentTryError_some ops hcatch
      rw [Vm.unwind, hcatch]
      exact .called hlast hframe
    | none =>
      obtain ⟨f, rest, hcallers⟩ : ∃ f rest, vm.callers = f :: rest := by
        rcases hvm : vm.callers with _ | ⟨f, rest⟩
        · rw [hvm] at hlast
          cases hlast
        · exact ⟨f, rest, rfl⟩
      rw [hcallers] at hlast
      exact .back hlast hframe (unwind_back ops hcatch hcallers)
  next => exact .called hlast hframe

/-- Nothing is left of the main frame when it returns. -/
theorem Vm.returnFrame_halted (h : vm.callers = []) :
    ∃ r, vm.returnFrame.control = .halted r := by
  unfold Vm.returnFrame Vm.discardCurrentTryFrames
  dsimp only
  rw [h]
  exact ⟨_, rfl⟩

section Here

variable (hnamed : NamedCallsWrapCalls (table main).instructions)
  (hlt : ∀ q, avoid q → q < (table main).instructions.length)
  (hcallers : vm.callers = []) (hcode : vm.code = main)
include hlt hcallers hcode

include hnamed in
/-- Control goes on along the graph. -/
theorem Vm.InMain.follow_here (hcontrol : vm.control = .running)
    (hfunction : vm.data.function = none) {pc : Nat} {i : Instruction} {flow : Flow W}
    (hi : (table main).instructions[pc]? = some i) (hpc : vm.pc = pc + 1)
    (hplace : Avoids (table main).instructions avoid pc) (hallows : i.Allows flow)
    (hleaves : i.leaves = true → flow.Leaves) :
    (vm.follow table ops flow).InMain table main avoid := by
  have hbehind : AvoidsBehind (table main).instructions avoid vm.pc := hpc ▸ hplace.behind
  have hnext : ¬flow.Leaves → Avoids (table main).instructions avoid vm.pc := by
    intro hflow
    rw [hpc]
    refine hplace.covered hlt (covered_next hi ?_)
    exact Bool.eq_false_iff.mpr fun h => hflow (hleaves h)
  cases flow with
  | next =>
    refine .here hcallers hcode hfunction ?_
    rw [Vm.follow, hcontrol]
    exact hnext id
  | jump target =>
    refine .here hcallers hcode hfunction ?_
    show Place _ _ target vm.control
    rw [hcontrol]
    exact hplace.covered hlt (covered_jump hnamed hi hallows)
  | return_ =>
    obtain ⟨r, hr⟩ := Vm.returnFrame_halted hcallers
    exact .halted hr
  | try_ len =>
    obtain rfl := try_of_tryLen hnamed hi hallows
    show (Vm.openTry table vm len).InMain table main avoid
    unfold Vm.openTry
    split
    · refine .here hcallers hcode hfunction ?_
      dsimp only
      rw [hcontrol, hpc]
      exact hplace.covered hlt (covered_try hi)
    · exact .here hcallers hcode hfunction hbehind
  | enter callee argc =>
    exact .waiting hcallers hcode hfunction ⟨hnext id, hbehind⟩ (vm.enterCall_led table ops callee argc)
  | tail callee argc =>
    show (Vm.prepareTail table vm callee argc).InMain table main avoid
    unfold Vm.prepareTail
    dsimp only
    split
    · exact .here hcallers hcode hfunction hbehind
    · split
      · exact .here hcallers hcode hfunction hbehind
      · split
        · exact .here hcallers hcode hfunction hbehind
        next a hsome =>
          -- the main code has no activation to use again
          rw [hfunction] at hsome
          cases hsome
  | builtin run => exact .here hcallers hcode hfunction ⟨hnext id, hbehind⟩
  | import_ data =>
    exact .waiting hcallers hcode hfunction ⟨hnext id, hbehind⟩ (vm.importModule_led table ops data)

include hnamed in
theorem Vm.InMain.stepInstruction_here (hcontrol : vm.control = .running)
    (hfunction : vm.data.function = none) {i : Instruction}
    (hi : (table main).instructions[vm.pc]? = some i)
    (hplace : Avoids (table main).instructions avoid vm.pc) :
    (vm.stepInstruction table ops i).InMain table main avoid := by
  have hactive := Exec.exec_activation ops table i vm.data
  rw [hfunction] at hactive
  have hnone := Option.isNone_iff_eq_none.mp (Option.isSome_eq_false_iff.mp hactive)
  unfold Vm.stepInstruction
  cases hexec : (Exec.exec ops table i).run vm.data with
  | error e d =>
    rw [hexec] at hnone
    exact .here hcallers hcode hnone hplace.behind
  | ok flow d =>
    rw [hexec] at hnone
    have hleaves : i.leaves = true → flow.Leaves := fun h =>
      Exec.exec_leaves ops table h vm.data flow d hexec
    have hcallers : (Vm.mk vm.code (vm.pc + 1) d vm.callers vm.tryStack vm.control).callers = [] :=
      hcallers
    exact .follow_here ops hnamed hlt hcallers hcode hcontrol hnone hi rfl hplace
      (Exec.exec_allows ops table i vm.data flow d hexec) hleaves

include hnamed in
/-- **A step of the main frame** follows the graph, where caught errors do. -/
theorem Vm.InMain.step_here (hcaught : vm.CaughtOnPath table main)
    (hfunction : vm.data.function = none)
    (hplace : Place (table main).instructions avoid vm.pc vm.control) :
    (vm.step table ops).InMain table main avoid := by
  unfold Vm.step
  cases hcontrol : vm.control with
  | running =>
    rw [hcontrol] at hplace
    dsimp only
    unfold Vm.stepRunning
    cases hboundary : vm.finishTryBoundary with
    | some vm' =>
      obtain ⟨hsame, hcontrol'⟩ := Vm.finishTryBoundary_same hboundary
      refine .here (hsame.callers.trans hcallers) (hsame.code.trans hcode)
        (hsame.function.trans hfunction) ?_
      rw [hcontrol', hcontrol, hsame.pc]
      exact hplace
    | none =>
      dsimp only
      rw [hcode]
      cases hi : (table main).instructions[vm.pc]? with
      | some i => exact .stepInstruction_here ops hnamed hlt hcallers hcode hcontrol hfunction hi hplace
      | none =>
        obtain ⟨r, hr⟩ := Vm.returnFrame_halted hcallers
        exact .halted hr
  | builtin run =>
    rw [hcontrol] at hplace
    exact .waiting hcallers hcode hfunction hplace (vm.stepBuiltin_led table ops run)
  | unwinding e =>
    rw [hcontrol] at hplace
    dsimp only
    unfold Vm.unwind
    cases hcatch : vm.catchCurrentTryError ops e with
    | some vm' =>
      obtain ⟨he, frame, rest, hstack, howns, rfl⟩ := Vm.catchCurrentTryError_some ops hcatch
      exact .here hcallers hcode hfunction
        (hplace.path hlt (hcaught e frame rest hcallers hcontrol he hstack howns))
    | none =>
      have hdiscard : vm.discardCurrentTryFrames.callers = [] := hcallers
      dsimp only
      rw [hdiscard]
      exact .halted rfl
  | halted r => exact .halted hcontrol

end Here

/-- **Every step** keeps the main frame away from what it avoids. -/
theorem Vm.InMain.step (hnamed : NamedCallsWrapCalls (table main).instructions)
    (hlt : ∀ q, avoid q → q < (table main).instructions.length)
    (hcaught : vm.CaughtOnPath table main) (h : vm.InMain table main avoid) :
    (vm.step table ops).InMain table main avoid := by
  cases h with
  | here hcallers hcode hfunction hplace =>
    exact .step_here ops hnamed hlt hcallers hcode hcaught hfunction hplace
  | called hlast hframe => exact .step_called ops hlast hframe
  | @halted r hcontrol =>
    have hstep : vm.step table ops = vm := by rw [Vm.step, hcontrol]
    rw [hstep]
    exact .halted hcontrol

end MainFrame

end Wqpl
