/-
# Owned constants are not missed

The run of the extracted code goes along with the run of the original one; the
machines differ in the pool, and only the constants that were taken are missing
from it (`Lock`). An instruction that was executed is not reached again
(`Vm.InMain`), so each constant is taken once (`extraction_invisible`).

This needs errors to follow the graph. The code of a try region that is left by
a jump before its end is on no cycle of the graph, but an error takes control to
the end of the region, and from there it may come back (`extraction_misses`).
-/
import Wqpl.Compile.MainFlow
import Wqpl.Vm.PoolSteps

namespace Wqpl

/-- The functions, with the main code after the extraction. -/
def extractTable (table : FnTable) (main : FnId) : FnTable := fun fn =>
  if fn = main then
    { table main with instructions := (extractOwnedConsts (table main).instructions).1 }
  else table fn

/-- The machine before the extracted code, with its pool. -/
def Vm.startOwned {W : Type} (table : FnTable) (main : FnId) (env : Env W) : Vm W :=
  Vm.start main (env.setPool (extractOwnedConsts (table main).instructions).2)

/-- The machine that shows all of its data but the pool. -/
def Vm.visible {W : Type} (table : FnTable) (ops : Ops W) :
    Machine (Vm W) (WqResult Value × Data W) where
  step := Vm.step table ops
  outcome vm := vm.outcome.map fun p => (p.1, p.2.setPool [])

/-- The constant of the instruction is no longer in the pool. -/
def Taken (code : List Instruction) (pool : Pool) (pc : Nat) : Prop :=
  ∃ slot v, code[pc]? = some (.loadConst v) ∧
    (extractOwnedConsts code).1[pc]? = some (.loadOwnedConst slot) ∧ pool[slot]? = some none

/-- The pool holds no constant but the right one. -/
def Stocked (code : List Instruction) (pool : Pool) : Prop :=
  ∀ (pc slot : Nat) (v : Value), code[pc]? = some (.loadConst v) →
    (extractOwnedConsts code).1[pc]? = some (.loadOwnedConst slot) →
      pool[slot]? = some (some v) ∨ pool[slot]? = some none

/-- What was taken stays so. -/
def Pool.Older (pool pool' : Pool) : Prop :=
  ∀ slot : Nat, pool[slot]? = some none → pool'[slot]? = some none

/-- The machines go along, the second one with the extracted code. -/
structure Lock {W : Type} (table : FnTable) (main : FnId) (pool : Pool) (s t : Vm W) : Prop where
  rel : s.Rel pool t
  inMain : s.InMain table main (Taken (table main).instructions pool)
  stocked : Stocked (table main).instructions pool

/-! ### The tables -/

section Tables

variable (table : FnTable) (main : FnId)

theorem extractTable_main : extractTable table main main =
    { table main with instructions := (extractOwnedConsts (table main).instructions).1 } :=
  if_pos rfl

theorem extractTable_of_ne {fn : FnId} (h : fn ≠ main) : extractTable table main fn = table fn :=
  if_neg h

theorem extractTable_sameShape : SameShape table (extractTable table main) := by
  intro fn
  by_cases h : fn = main
  · subst h
    exact ⟨_, extractTable_main table fn, (extracted _).length⟩
  · exact ⟨_, extractTable_of_ne table main h, rfl⟩

end Tables

/-! ### The pool -/

section Pool

variable {code : List Instruction} {pool : Pool} {pc slot : Nat} {v : Value}

theorem Taken.lt {q : Nat} (h : Taken code pool q) : q < code.length := by
  obtain ⟨slot, v, hq, -, -⟩ := h
  exact (List.getElem?_eq_some_iff.mp hq).1

theorem older_set (pool : Pool) (slot : Nat) : pool.Older (pool.set slot none) := by
  intro slot' h
  rw [List.getElem?_set]
  by_cases heq : slot = slot'
  · subst heq
    have hlt := (List.getElem?_eq_some_iff.mp h).1
    rw [if_pos rfl, if_pos hlt]
  · rw [if_neg heq, h]

theorem getElem?_set_none (h : pool[slot]? = some (some v)) :
    (pool.set slot none)[slot]? = some none := by
  have hlt := (List.getElem?_eq_some_iff.mp h).1
  rw [List.getElem?_set_self hlt]

/-- Taking a constant makes its own instruction the only new one. -/
theorem Taken.of_set (hv : code[pc]? = some (.loadConst v))
    (hslot : (extractOwnedConsts code).1[pc]? = some (.loadOwnedConst slot)) {q : Nat}
    (h : Taken code (pool.set slot none) q) : q = pc ∨ Taken code pool q := by
  obtain ⟨slot', v', hv', hslot', hnone⟩ := h
  by_cases heq : slot = slot'
  · subst heq
    exact .inl ((extracted code).unique q pc slot v' v hv' hv hslot' hslot)
  · rw [List.getElem?_set_ne heq] at hnone
    exact .inr ⟨slot', v', hv', hslot', hnone⟩

theorem Stocked.set (h : Stocked code pool) (slot : Nat) : Stocked code (pool.set slot none) := by
  intro q slot' w hw hslot'
  rcases h q slot' w hw hslot' with hsome | hnone
  · by_cases heq : slot = slot'
    · subst heq
      exact .inr (getElem?_set_none hsome)
    · rw [List.getElem?_set_ne heq]
      exact .inl hsome
  · exact .inr (older_set pool slot slot' hnone)

/-- The pool before the first instruction holds every constant. -/
theorem stocked_start (code : List Instruction) : Stocked code (extractOwnedConsts code).2 := by
  intro pc slot v hv hslot
  rcases (extracted code).instr pc with h | ⟨w, slot', hw, hslot', -, hget⟩
  · rw [hslot, hv] at h
    exact absurd h.symm loadConst_ne_loadOwnedConst
  · rw [hslot, Option.some.injEq, Instruction.loadOwnedConst.injEq] at hslot'
    rw [hv, Option.some.injEq, Instruction.loadConst.injEq] at hw
    exact .inl (hslot' ▸ hw ▸ hget)

theorem not_taken_start (code : List Instruction) (q : Nat) :
    ¬Taken code (extractOwnedConsts code).2 q := by
  rintro ⟨slot, v, hv, hslot, hnone⟩
  rcases (extracted code).instr q with h | ⟨w, slot', -, hslot', -, hget⟩
  · rw [hslot, hv] at h
    exact absurd h.symm loadConst_ne_loadOwnedConst
  · rw [hslot, Option.some.injEq, Instruction.loadOwnedConst.injEq] at hslot'
    rw [← hslot', hnone] at hget
    cases hget

end Pool

/-! ### Taking a constant -/

theorem Vm.nextInstruction_some {W : Type} {table : FnTable} {vm : Vm W} {i : Instruction}
    (h : vm.nextInstruction table = some i) : vm.control = .running ∧
      vm.finishTryBoundary = none ∧ (table vm.code).instructions[vm.pc]? = some i := by
  unfold Vm.nextInstruction at h
  split at h
  · exact ⟨‹_›, ‹_›, h⟩
  · cases h

section Takes

variable {W : Type} (table : FnTable) (ops : Ops W)

theorem Exec.exec_loadOwnedConst {d : Data W} {slot : Nat} {v : Value}
    (h : d.env.ownedConsts[slot]? = some (some v)) :
    (Exec.exec ops table (.loadOwnedConst slot)).run d = .ok .next
      { d with
        stack := v :: d.stack
        env := d.env.setPool (d.env.ownedConsts.set slot none) } := by
  unfold Exec.exec Exec.execPlain
  rw [Exec.run_getEnv, h]
  rfl

theorem Vm.step_loadOwnedConst {vm : Vm W} {slot : Nat} {v : Value}
    (hnext : vm.nextInstruction table = some (.loadOwnedConst slot))
    (h : vm.data.env.ownedConsts[slot]? = some (some v)) :
    vm.step table ops = { vm with
      pc := vm.pc + 1
      data := { vm.data with
        stack := v :: vm.data.stack
        env := vm.data.env.setPool (vm.data.env.ownedConsts.set slot none) } } := by
  obtain ⟨hcontrol, hboundary, hi⟩ := Vm.nextInstruction_some hnext
  unfold Vm.step Vm.stepRunning
  rw [hcontrol, hboundary, hi]
  dsimp only
  rw [Vm.stepInstruction, Exec.exec_loadOwnedConst table ops h]
  dsimp only [Vm.follow]
  rw [hcontrol]

theorem Vm.step_loadConst {vm : Vm W} {v : Value}
    (hnext : vm.nextInstruction table = some (.loadConst v)) :
    vm.step table ops = { vm with
      pc := vm.pc + 1, data := { vm.data with stack := v :: vm.data.stack } } := by
  obtain ⟨hcontrol, hboundary, hi⟩ := Vm.nextInstruction_some hnext
  unfold Vm.step Vm.stepRunning
  rw [hcontrol, hboundary, hi]
  show { vm with pc := _, data := _, control := vm.control } = _
  rw [hcontrol]

variable {table} {main : FnId} {pool : Pool} {s t : Vm W} {slot : Nat}

/-- The machines are about to load the constant. -/
structure Takes (table : FnTable) (main : FnId) (pool : Pool) (s : Vm W) (slot : Nat) (v : Value) :
    Prop where
  next : s.nextInstruction table = some (.loadConst v)
  callers : s.callers = []
  code : s.code = main
  function : s.data.function = none
  place : Avoids (table main).instructions (Taken (table main).instructions pool) s.pc
  original : (table main).instructions[s.pc]? = some (.loadConst v)
  extracted : (extractOwnedConsts (table main).instructions).1[s.pc]? = some (.loadOwnedConst slot)
  once : ¬(controlFlowGraph (table main).instructions).OnCycle s.pc
  stock : pool[slot]? = some (some v)

/-- A constant that is loaded is still there: otherwise its instruction would
have been reached again. -/
theorem Lock.takes (hpool : ∀ fn, ∀ i ∈ (table fn).instructions, i.usesPool = false)
    (htop : s.OnlyMainRunsMain main) (h : Lock table main pool s t)
    (hnext : t.nextInstruction (extractTable table main) = some (.loadOwnedConst slot)) :
    ∃ v, Takes table main pool s slot v := by
  obtain ⟨hcontrol, hboundary, hi⟩ := Vm.nextInstruction_some hnext
  have hcs := h.rel.control
  have hbs := h.rel.finishTryBoundary
  rw [hcontrol] at hcs
  rw [hboundary] at hbs
  have hrunning : s.control = .running := by
    generalize s.control = c at hcs
    cases hcs with
    | running => rfl
  have hnone : s.finishTryBoundary = none := by
    generalize s.finishTryBoundary = b at hbs
    cases hbs with
    | none => rfl
  rw [h.rel.code, h.rel.pc] at hi
  by_cases hmain : s.code = main
  · have hcallers : s.callers = [] := by
      by_contra hne
      exact htop hne hmain
    rw [hmain, extractTable_main] at hi
    rcases (extracted (table main).instructions).instr s.pc with heq | ⟨v, slot', hv, hslot, honce, -⟩
    · have hused := hpool main _ (List.mem_of_getElem? (heq.symm.trans hi))
      cases hused
    · obtain rfl : slot' = slot :=
        Instruction.loadOwnedConst.inj (Option.some.inj (hslot.symm.trans hi))
      have hnext : s.nextInstruction table = some (.loadConst v) := by
        rw [Vm.nextInstruction_eq _ hrunning hnone, hmain, hv]
      cases h.inMain with
      | here _ _ hfunction hplace =>
        rw [hrunning] at hplace
        refine ⟨v, hnext, hcallers, hmain, hfunction, hplace, hv, hslot, honce, ?_⟩
        rcases h.stocked s.pc slot' v hv hslot with hsome | hgone
        · exact hsome
        · exact absurd .refl (hplace s.pc ⟨slot', v, hv, hslot, hgone⟩)
      | called hlast _ =>
        rw [hcallers] at hlast
        cases hlast
      | halted hhalted =>
        rw [hrunning] at hhalted
        cases hhalted
  · rw [extractTable_of_ne table main hmain] at hi
    have hused := hpool s.code _ (List.mem_of_getElem? hi)
    cases hused

theorem Takes.avoids {v : Value} (h : Takes table main pool s slot v) :
    Avoids (table main).instructions (Taken (table main).instructions (pool.set slot none))
      (s.pc + 1) := by
  have hcovered : Covered (table main).instructions s.pc (s.pc + 1) := covered_next h.original rfl
  intro q hq hreach
  rcases hq.of_set h.original h.extracted with rfl | hold
  · rcases hcovered with hedge | hend
    · exact h.once (.head' hedge hreach)
    · have heq := reach_behind hend hreach
      omega
  · exact h.place.covered (fun _ => Taken.lt) hcovered q hold hreach

/-- The machines after the constant is loaded. -/
theorem Takes.lock {v : Value} (h : Takes table main pool s slot v)
    (hlock : Lock table main pool s t)
    (hnext : t.nextInstruction (extractTable table main) = some (.loadOwnedConst slot)) :
    Lock table main (pool.set slot none) (s.step table ops)
      (t.step (extractTable table main) ops) where
  rel := by
    have hpool : t.data.env.ownedConsts = pool := by
      rw [hlock.rel.data]
      rfl
    have hstock := h.stock
    rw [← hpool] at hstock
    rw [Vm.step_loadConst table ops h.next, Vm.step_loadOwnedConst _ ops hnext hstock, hpool]
    have hcallers := h.callers
    have hs := (Vm.nextInstruction_some h.next).1
    have ht := (Vm.nextInstruction_some hnext).1
    obtain ⟨hrest, -⟩ := hlock.rel
    obtain rfl := hcallers
    obtain rfl := hs
    obtain rfl := ht
    cases hrest
    exact .mk .nil .running
  inMain := by
    rw [Vm.step_loadConst table ops h.next]
    refine .here h.callers h.code h.function ?_
    dsimp only
    rw [(Vm.nextInstruction_some h.next).1]
    exact h.avoids
  stocked := hlock.stocked.set slot

end Takes

/-! ### Steps -/

section Steps

variable {W : Type} {table : FnTable} {ops : Ops W} {main : FnId} {pool : Pool} {s t : Vm W}
  (hops : ops.Blind) (hpool : ∀ fn, ∀ i ∈ (table fn).instructions, i.usesPool = false)
include hops hpool

/-- A step that takes no constant. -/
theorem Vm.Rel.step (h : s.Rel pool t)
    (hnext : ∀ slot, t.nextInstruction (extractTable table main) ≠ some (.loadOwnedConst slot)) :
    (s.step table ops).Rel pool (t.step (extractTable table main) ops) := by
  have hshape := extractTable_sameShape table main
  have hcontrol := h.control
  unfold Vm.step
  generalize hs : s.control = c, ht : t.control = c' at hcontrol
  cases hcontrol with
  | running =>
    have hboundary := h.finishTryBoundary
    dsimp only
    unfold Vm.stepRunning
    generalize hbs : s.finishTryBoundary = b, hbt : t.finishTryBoundary = b' at hboundary
    cases hboundary with
    | some hr => exact hr
    | none =>
      have hinstr : ((extractTable table main) t.code).instructions[t.pc]? =
          (table s.code).instructions[s.pc]? := by
        by_cases hmain : s.code = main
        · simp only [Vm.nextInstruction_eq _ ht hbt, h.code, h.pc, hmain, extractTable_main] at hnext
          rw [h.code, h.pc, hmain, extractTable_main]
          rcases (extracted (table main).instructions).instr s.pc with heq | ⟨v, slot, -, hslot, -, -⟩
          · exact heq
          · exact absurd hslot (hnext slot)
        · rw [h.code, h.pc, extractTable_of_ne table main hmain]
      dsimp only
      rw [hinstr]
      cases hi : (table s.code).instructions[s.pc]? with
      | none => exact h.returnFrame
      | some i => exact h.stepInstruction hshape hops (hpool _ i (List.mem_of_getElem? hi))
  | builtin hrun => exact h.stepBuiltin hshape hops hrun
  | unwinding e => exact h.unwind ops e
  | halted r => exact h

variable (hnamed : NamedCallsWrapCalls (table main).instructions)
include hnamed

/-- **A step of both machines.** -/
theorem Lock.step (htop : s.OnlyMainRunsMain main) (hcaught : s.CaughtOnPath table main)
    (h : Lock table main pool s t) :
    ∃ pool' : Pool, Lock table main pool' (s.step table ops) (t.step (extractTable table main) ops) ∧
      pool.Older pool' ∧
      ∀ slot, t.nextInstruction (extractTable table main) = some (.loadOwnedConst slot) →
        (∃ v, pool[slot]? = some (some v)) ∧ pool'[slot]? = some none := by
  by_cases hnext : ∃ slot, t.nextInstruction (extractTable table main) = some (.loadOwnedConst slot)
  · obtain ⟨slot, hnext⟩ := hnext
    obtain ⟨v, htakes⟩ := h.takes hpool htop hnext
    refine ⟨pool.set slot none, htakes.lock ops h hnext, older_set pool slot, fun slot' hnext' => ?_⟩
    rw [hnext, Option.some.injEq, Instruction.loadOwnedConst.injEq] at hnext'
    subst hnext'
    exact ⟨⟨v, htakes.stock⟩, getElem?_set_none htakes.stock⟩
  · push Not at hnext
    refine ⟨pool, ⟨h.rel.step hops hpool hnext, ?_, h.stocked⟩, fun _ hslot => hslot,
      fun slot hslot => absurd hslot (hnext slot)⟩
    exact h.inMain.step ops hnamed (fun _ => Taken.lt) hcaught

end Steps

/-! ### Runs -/

section Runs

variable {W : Type} {table : FnTable} {ops : Ops W} {main : FnId}

theorem Lock.outcome {pool : Pool} {s t : Vm W} (h : Lock table main pool s t) :
    (Vm.visible (extractTable table main) ops).outcome t = (Vm.visible table ops).outcome s := by
  show t.outcome.map _ = s.outcome.map _
  have hdata := h.rel.data
  have hcontrol := h.rel.control
  unfold Vm.outcome
  generalize s.control = c, t.control = c' at hcontrol
  cases hcontrol with
  | halted r =>
    dsimp only [Option.map]
    rw [hdata]
    rfl
  | _ => rfl

theorem Lock.start (table : FnTable) (main : FnId) (env : Env W) :
    Lock table main (extractOwnedConsts (table main).instructions).2 (Vm.start main env)
      (Vm.startOwned table main env) where
  rel := .mk .nil .running
  inMain := .here rfl rfl rfl fun q hq => absurd hq (not_taken_start _ q)
  stocked := stocked_start _

/-- The hypotheses on the states of a run. -/
def Vm.Admissible (table : FnTable) (main : FnId) (vm : Vm W) : Prop :=
  vm.OnlyMainRunsMain main ∧ vm.CaughtOnPath table main

variable (hops : ops.Blind) (hpool : ∀ fn, ∀ i ∈ (table fn).instructions, i.usesPool = false)
  (hnamed : NamedCallsWrapCalls (table main).instructions)
include hnamed

/-- **Along a run** the main frame keeps away from what it avoids. -/
theorem Vm.InMain.steps {avoid : Nat → Prop} {n : Nat} {s s' : Vm W}
    (hlt : ∀ q, avoid q → q < (table main).instructions.length)
    (hrun : (Vm.visible table ops).Always (Vm.Admissible table main) s)
    (h : s.InMain table main avoid) (hs : (Vm.visible table ops).Steps n s s') :
    s'.InMain table main avoid :=
  hrun.invariant h (fun _ hadmissible h _ => h.step ops hnamed hlt hadmissible.2) n s' hs

/-- The graph covers a run: from one place of the main frame to a later one
there is a path. -/
theorem reach_of_steps {n : Nat} {s t : Vm W}
    (hrun : (Vm.visible table ops).Always (Vm.Admissible table main) s)
    (h : s.InMain table main fun _ => False) (hs : (Vm.visible table ops).Steps n s t)
    (hcallers : s.callers = []) (hcontrol : s.control = .running) (hcallers' : t.callers = [])
    (hcontrol' : t.control = .running) :
    (controlFlowGraph (table main).instructions).Reach s.pc t.pc ∨
      (table main).instructions.length ≤ t.pc := by
  have hmain : ∀ {avoid : Nat → Prop} {vm : Vm W}, vm.InMain table main avoid → vm.callers = [] →
      vm.control = .running → vm.code = main ∧ vm.data.function = none ∧
        Avoids (table main).instructions avoid vm.pc := by
    intro avoid vm h hcallers hcontrol
    cases h with
    | here _ hcode hfunction hplace =>
      rw [hcontrol] at hplace
      exact ⟨hcode, hfunction, hplace⟩
    | called hlast _ =>
      rw [hcallers] at hlast
      cases hlast
    | halted hhalted =>
      rw [hcontrol] at hhalted
      cases hhalted
  obtain ⟨hcode, hfunction, -⟩ := hmain h hcallers hcontrol
  -- the instructions to avoid are those that are not reached from `s`
  let avoid : Nat → Prop := fun q => q < (table main).instructions.length ∧
    ¬(controlFlowGraph (table main).instructions).Reach s.pc q
  have hstart : s.InMain table main avoid := by
    refine .here hcallers hcode hfunction ?_
    rw [hcontrol]
    exact fun q hq => hq.2
  have hend := hstart.steps hnamed (fun _ hq => hq.1) hrun hs
  obtain ⟨-, -, havoids⟩ := hmain hend hcallers' hcontrol'
  by_contra hnot
  push Not at hnot
  exact havoids t.pc ⟨hnot.2, hnot.1⟩ .refl

include hops hpool

/-- **Along a run** the machines stay together. -/
theorem Lock.steps {n : Nat} {s t t' : Vm W} {pool : Pool}
    (hrun : (Vm.visible table ops).Always (Vm.Admissible table main) s)
    (h : Lock table main pool s t)
    (ht : (Vm.visible (extractTable table main) ops).Steps n t t') :
    ∃ s' pool', (Vm.visible table ops).Steps n s s' ∧ Lock table main pool' s' t' ∧
      pool.Older pool' := by
  induction ht generalizing s pool with
  | refl t => exact ⟨s, pool, .refl s, h, fun _ hslot => hslot⟩
  | @head n t t' ho _ ih =>
    have hs : (Vm.visible table ops).outcome s = none := h.outcome.symm.trans ho
    obtain ⟨pool', hlock, holder, -⟩ :=
      h.step hops hpool hnamed hrun.self.1 hrun.self.2
    obtain ⟨s', pool'', hsteps, hlock', holder'⟩ := ih (hrun.steps (.one hs)) hlock
    exact ⟨s', pool'', .head hs hsteps, hlock', fun slot hslot => holder' slot (holder slot hslot)⟩

/-- What was taken is not asked for again. -/
theorem Lock.not_again {n slot : Nat} {s t t' : Vm W} {pool : Pool}
    (hrun : (Vm.visible table ops).Always (Vm.Admissible table main) s)
    (h : Lock table main pool s t) (hgone : pool[slot]? = some none)
    (ht : (Vm.visible (extractTable table main) ops).Steps n t t') :
    t'.nextInstruction (extractTable table main) ≠ some (.loadOwnedConst slot) := by
  intro hnext
  obtain ⟨s', pool', hs, hlock, holder⟩ := h.steps hops hpool hnamed hrun ht
  obtain ⟨v, htakes⟩ := hlock.takes hpool (hrun n s' hs).1 hnext
  have hstock := htakes.stock
  rw [holder slot hgone] at hstock
  cases hstock

/-- A constant is loaded once. -/
theorem Lock.once {m n slot : Nat} {s t u w : Vm W} {pool : Pool}
    (hrun : (Vm.visible table ops).Always (Vm.Admissible table main) s)
    (h : Lock table main pool s t) (hmn : m < n)
    (hu : (Vm.visible (extractTable table main) ops).Steps m t u)
    (hw : (Vm.visible (extractTable table main) ops).Steps n t w)
    (hnext : u.nextInstruction (extractTable table main) = some (.loadOwnedConst slot)) :
    w.nextInstruction (extractTable table main) ≠ some (.loadOwnedConst slot) := by
  obtain ⟨s', pool', hs, hlock, -⟩ := h.steps hops hpool hnamed hrun hu
  obtain ⟨pool'', hlock', -, htake⟩ :=
    hlock.step hops hpool hnamed (hrun m s' hs).1 (hrun m s' hs).2
  have hrest := hu.rest hw (Nat.le_of_lt hmn)
  obtain ⟨k, hk⟩ : ∃ k, n - m = k + 1 := ⟨n - m - 1, by omega⟩
  rw [hk] at hrest
  cases hrest with
  | head ho hrest =>
    have hone : (Vm.visible table ops).Steps 1 s' (s'.step table ops) :=
      .one (hlock.outcome.symm.trans ho)
    exact hlock'.not_again hops hpool hnamed ((hrun.steps hs).steps hone) (htake slot hnext).2 hrest

/-- Loading a constant does not fail. -/
theorem Lock.loads {n slot : Nat} {s t t' : Vm W} {pool : Pool}
    (hrun : (Vm.visible table ops).Always (Vm.Admissible table main) s)
    (h : Lock table main pool s t)
    (ht : (Vm.visible (extractTable table main) ops).Steps n t t')
    (hnext : t'.nextInstruction (extractTable table main) = some (.loadOwnedConst slot)) :
    ∃ d, (Exec.exec ops (extractTable table main) (.loadOwnedConst slot)).run t'.data =
      .ok .next d := by
  obtain ⟨s', pool', hs, hlock, -⟩ := h.steps hops hpool hnamed hrun ht
  obtain ⟨v, htakes⟩ := hlock.takes hpool (hrun n s' hs).1 hnext
  have hstock : t'.data.env.ownedConsts[slot]? = some (some v) := by
    rw [hlock.rel.data]
    exact htakes.stock
  exact ⟨_, Exec.exec_loadOwnedConst _ ops hstock⟩

theorem extraction_simulation :
    Machine.Simulation (Vm.visible table ops) (Vm.visible (extractTable table main) ops)
      (Vm.Admissible table main) fun s t => ∃ pool, Lock table main pool s t where
  step := by
    rintro s t hrun ⟨pool, h⟩ ho
    obtain ⟨pool', hlock, -, -⟩ := h.step hops hpool hnamed hrun.self.1 hrun.self.2
    exact ⟨0, _, .one (h.outcome.symm.trans ho), pool', hlock⟩
  outcome := by
    rintro s t r hrun ⟨pool, h⟩ ho
    exact ⟨0, s, .refl s, h.outcome.symm.trans ho⟩

end Runs

/-- The extraction does not show in a run, and its analysis is right. -/
structure ExtractionInvisible {W : Type} (table : FnTable) (ops : Ops W) (main : FnId)
    (env : Env W) : Prop where
  ends : ∀ r, (Vm.visible table ops).Ends (Vm.start main env) r ↔
    (Vm.visible (extractTable table main) ops).Ends (Vm.startOwned table main env) r
  along : ∀ n t, (Vm.visible (extractTable table main) ops).Steps n
    (Vm.startOwned table main env) t →
      ∃ s pool, (Vm.visible table ops).Steps n (Vm.start main env) s ∧ s.Rel pool t
  once : ∀ m n s t slot, m < n →
    (Vm.visible (extractTable table main) ops).Steps m (Vm.startOwned table main env) s →
    (Vm.visible (extractTable table main) ops).Steps n (Vm.startOwned table main env) t →
    s.nextInstruction (extractTable table main) = some (.loadOwnedConst slot) →
      t.nextInstruction (extractTable table main) ≠ some (.loadOwnedConst slot)
  loads : ∀ n t slot,
    (Vm.visible (extractTable table main) ops).Steps n (Vm.startOwned table main env) t →
    t.nextInstruction (extractTable table main) = some (.loadOwnedConst slot) →
      ∃ d, (Exec.exec ops (extractTable table main) (.loadOwnedConst slot)).run t.data = .ok .next d
  covers : ∀ m n s t, m ≤ n → (Vm.visible table ops).Steps m (Vm.start main env) s →
    (Vm.visible table ops).Steps n (Vm.start main env) t →
    s.callers = [] → s.control = .running → t.callers = [] → t.control = .running →
      (controlFlowGraph (table main).instructions).Reach s.pc t.pc ∨
        (table main).instructions.length ≤ t.pc
  cyclic : ∀ pc, pc ∈ cyclicPcs (controlFlowGraph (table main).instructions) ↔
    (controlFlowGraph (table main).instructions).OnCycle pc

/-- **The extraction is invisible** in a run whose errors follow the graph. -/
theorem extraction_invisible {W : Type} (table : FnTable) (ops : Ops W) (main : FnId) (env : Env W)
    (hops : ops.Blind) (hpool : ∀ fn, ∀ i ∈ (table fn).instructions, i.usesPool = false)
    (hnamed : NamedCallsWrapCalls (table main).instructions)
    (htop : (Vm.visible table ops).Always (Vm.OnlyMainRunsMain main) (Vm.start main env))
    (hcaught : (Vm.visible table ops).Always (Vm.CaughtOnPath table main) (Vm.start main env)) :
    ExtractionInvisible table ops main env := by
  have hrun : (Vm.visible table ops).Always (Vm.Admissible table main) (Vm.start main env) :=
    fun n s hs => ⟨htop n s hs, hcaught n s hs⟩
  have hstart : Lock table main _ _ _ := .start table main env
  refine ⟨fun r => ?_, fun n t ht => ?_, fun m n s t slot hmn hs ht hnext => ?_,
    fun n t slot ht hnext => ?_, fun m n s t hmn hs ht hcallers hcontrol hcallers' hcontrol' => ?_,
    mem_cyclicPcs _⟩
  · exact (extraction_simulation hops hpool hnamed).ends_iff hrun ⟨_, hstart⟩ r
  · obtain ⟨s, pool, hs, hlock, -⟩ := hstart.steps hops hpool hnamed hrun ht
    exact ⟨s, pool, hs, hlock.rel⟩
  · exact hstart.once hops hpool hnamed hrun hmn hs ht hnext
  · exact hstart.loads hops hpool hnamed hrun ht hnext
  · have hmain : (Vm.start main env).InMain table main fun _ => False :=
      .here rfl rfl rfl fun _ hq => hq.elim
    exact reach_of_steps hnamed (hrun.steps hs) (hmain.steps hnamed nofun hrun hs)
      (hs.rest ht hmn) hcallers hcontrol hcallers' hcontrol'

/-- Main code with a region that an error leaves for its end, where the graph
goes too. -/
def keptItem : FnShape where
  params := none
  namedParams := none
  locals := 0
  isolatedModule := false
  instructions := [.try_ 1, .loadVar "x", .loadConst (.intList [1, 2, 3]), .return_]

theorem extraction_invisible_kept :
    ExtractionInvisible (fun _ => keptItem) Ops.inert 0 Env.empty := by
  have hedge : (controlFlowGraph keptItem.instructions).Edge 1 2 := by
    unfold Graph.Edge
    decide
  refine extraction_invisible (fun _ => keptItem) Ops.inert 0 Env.empty Ops.blind_inert
    (fun _ => by decide) ?_ ?_ ?_
  · intro call metadata h
    simp [keptItem] at h
  · exact .head (absurd rfl) (.head (absurd rfl) (.head (absurd rfl) (.head (absurd rfl)
      (.head (absurd rfl) (.final (absurd rfl) rfl)))))
  · refine .head nofun (.head nofun (.head ?_ (.head nofun (.head nofun (.final nofun rfl)))))
    rintro e frame rest - - - hstack -
    cases hstack
    exact .inl (.single hedge)

/-! ### A region that is left before its end -/

/-- A loop around a region that is left by a jump, or by the error that `x` is
not bound. -/
def missedItem : FnShape where
  params := none
  namedParams := none
  locals := 0
  isolatedModule := false
  instructions :=
    [.try_ 3, .loadConst (.intList [1, 2, 3]), .loadVar "x", .jump 6, .storeVar "x", .jump 0,
      .return_]

example : extractOwnedConsts missedItem.instructions =
    ([.try_ 3, .loadOwnedConst 0, .loadVar "x", .jump 6, .storeVar "x", .jump 0, .return_],
      [some (.intList [1, 2, 3])]) := rfl

/-- The constant is loaded again. -/
theorem missed_ends : ∃ d, (Vm.visible (fun _ => missedItem) Ops.inert).Ends
    (Vm.start 0 Env.empty) (.ok Value.emptyList, d) :=
  ⟨_, 12, _, .head rfl (.head rfl (.head rfl (.head rfl (.head rfl (.head rfl (.head rfl (.head rfl
    (.head rfl (.head rfl (.head rfl (.head rfl (.refl _)))))))))))), rfl⟩

/-- It is no longer in the pool then. -/
theorem missed_fails : ∃ d, (Vm.visible (extractTable (fun _ => missedItem) 0) Ops.inert).Ends
    (Vm.startOwned (fun _ => missedItem) 0 Env.empty) (.error .vm, d) :=
  ⟨_, 9, _, .head rfl (.head rfl (.head rfl (.head rfl (.head rfl (.head rfl (.head rfl (.head rfl
    (.head rfl (.refl _))))))))), rfl⟩

theorem extraction_misses :
    ¬∀ (table : FnTable) (ops : Ops Unit) (main : FnId) (env : Env Unit), ops.Blind →
      (∀ fn, ∀ i ∈ (table fn).instructions, i.usesPool = false) →
      NamedCallsWrapCalls (table main).instructions →
      (∀ i ∈ (table main).instructions, ∀ target, i.target = some target →
        target < (table main).instructions.length) →
      (Vm.visible table ops).Always (Vm.OnlyMainRunsMain main) (Vm.start main env) →
        ExtractionInvisible table ops main env := by
  intro hclaim
  have hinvisible := hclaim (fun _ => missedItem) Ops.inert 0 Env.empty Ops.blind_inert
    (fun _ => by decide)
    (fun call metadata h => by simp [missedItem] at h)
    (fun i hi target htarget => by
      simp only [missedItem, List.mem_cons, List.not_mem_nil, or_false] at hi
      rcases hi with rfl | rfl | rfl | rfl | rfl | rfl | rfl <;> cases htarget <;> decide)
    (.head (absurd rfl) (.head (absurd rfl) (.head (absurd rfl) (.head (absurd rfl)
      (.head (absurd rfl) (.head (absurd rfl) (.head (absurd rfl) (.head (absurd rfl)
        (.head (absurd rfl) (.head (absurd rfl) (.head (absurd rfl) (.head (absurd rfl)
          (.final (absurd rfl) rfl)))))))))))))
  obtain ⟨d, hends⟩ := missed_ends
  obtain ⟨d', hfails⟩ := missed_fails
  have heq := ((hinvisible.ends _).mp hends).unique hfails
  cases heq

end Wqpl
