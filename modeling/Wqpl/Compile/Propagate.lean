/-
# Constants in place of what is known

The compiler puts the constants that an analysis finds into the code: a load of a known
binding, and an operand of an operator or a branch that is one, becomes a constant, and an
operator on constants its value (`propagateInstructions`). What is traced stays as it is.

Where the state before an instruction describes the data, the instruction and the one put
in its place do the same (`exec_rewriteInstruction`). So the machine runs step by step as it
did before (`propagated_steps`), and what it computes with are the constants there were
(`known_run`).
-/
import Wqpl.Compile.ConstPropRuns
import Wqpl.Vm.IntOperators
import Wqpl.Vm.Interface

namespace Wqpl

open Exec

namespace ConstProp

/-! ### Slots of the code -/

def noteSlot (slot count : Nat) : Nat := max count (slot + 1)

def noteOperandLocals : Operand → Nat → Nat
  | .local_ slot, count => noteSlot slot count
  | _, count => count

def noteTargetLocals : StoreTarget → Nat → Nat
  | .local_ slot, count => noteSlot slot count
  | _, count => count

def noteInstLocals : Instruction → Nat → Nat
  | .loadCallTarget operand, count => noteOperandLocals operand count
  | .namedCall call _, count => noteInstLocals call count
  | .loadLocal slot, count | .storeLocal slot, count | .storeLocalKeep slot, count
  | .callLocal slot _, count | .tailCallLocal slot _, count | .indexLoadLocal slot, count
  | .indexManyLoadLocal slot _, count | .indexAssignLocal slot, count
  | .indexManyAssignLocal slot _, count | .indexAssignLocalDrop slot, count
  | .indexManyAssignLocalDrop slot _, count | .jumpIfLEZLocal slot _, count
  | .jumpIfNamedProvided slot _ _, count => noteSlot slot count
  | .binaryOp _ left right, count => noteOperandLocals right (noteOperandLocals left count)
  | .catAssign target right, count => noteOperandLocals right (noteTargetLocals target count)
  | .jumpIfCmpFalse _ left right _, count => noteOperandLocals right (noteOperandLocals left count)
  | .nLoopEnter index n snapshot _, count => noteSlot snapshot (noteSlot n (noteSlot index count))
  | .nLoopNext snapshot index _, count => noteSlot index (noteSlot snapshot count)
  | .unaryOp _ operand, count => noteOperandLocals operand count
  | .indexMutate target _, count => noteTargetLocals target count
  | _, count => count

def noteOperandCaptures : Operand → Nat → Nat
  | .capture slot, count => noteSlot slot count
  | _, count => count

def noteTargetCaptures : StoreTarget → Nat → Nat
  | .capture slot, count => noteSlot slot count
  | _, count => count

def noteInstCaptures : Instruction → Nat → Nat
  | .loadCallTarget operand, count => noteOperandCaptures operand count
  | .namedCall call _, count => noteInstCaptures call count
  | .loadCapture slot, count | .storeCapture slot, count | .storeCaptureKeep slot, count
  | .indexLoadCapture slot, count | .indexManyLoadCapture slot _, count
  | .indexAssignCapture slot, count | .indexManyAssignCapture slot _, count
  | .indexAssignCaptureDrop slot, count | .indexManyAssignCaptureDrop slot _, count =>
    noteSlot slot count
  | .binaryOp _ left right, count => noteOperandCaptures right (noteOperandCaptures left count)
  | .catAssign target right, count => noteOperandCaptures right (noteTargetCaptures target count)
  | .jumpIfCmpFalse _ left right _, count =>
    noteOperandCaptures right (noteOperandCaptures left count)
  | .unaryOp _ operand, count => noteOperandCaptures operand count
  | .indexMutate target _, count => noteTargetCaptures target count
  | _, count => count

def inferredLocalCount (code : List Instruction) : Nat :=
  code.foldl (fun count inst => noteInstLocals inst count) 0

def inferredCaptureCount (code : List Instruction) : Nat :=
  code.foldl (fun count inst => noteInstCaptures inst count) 0

/-! ### Rewriting -/

/-- What is between the begin of a trace and its end, at a depth of traces. -/
def traceProtected : Nat → List Instruction → List Bool
  | _, [] => []
  | depth, .traceBegin :: code => true :: traceProtected (depth + 1) code
  | depth, .debug :: code => decide (0 < depth) :: traceProtected (depth - 1) code
  | depth, _ :: code => decide (0 < depth) :: traceProtected depth code

def traceProtectedPcs (code : List Instruction) : List Bool := traceProtected 0 code

section Rewrite

variable {W : Type} (ops : Ops W) {l c : Nat}

def rewriteOperand (s : State l c) (operand : Operand) : Operand :=
  let known := match operand with
    | .local_ slot => s.local_ slot
    | .capture slot => s.capture slot
    | .var name => s.global name
    | .stack | .const _ | .self => none
  match known with
  | some value => .const value
  | none => operand

def operandConst : Operand → Option Value
  | .const value => some value
  | _ => none

/-- The value of an operator on constants. -/
def foldBinary (op : BinaryOperator) (left right : Operand) : Option Value := do
  let value ← (evalBinary ops op (← operandConst left) (← operandConst right)).toOption
  trackableValue value

def foldUnary (op : UnaryOperator) (operand : Operand) : Option Value := do
  let value ← (ops.unary op (← operandConst operand)).toOption
  trackableValue value

/-- The instruction with what is known before it. The code of a closure is not part of the
instruction. -/
def rewriteInstruction (s : State l c) (inst : Instruction) : Instruction :=
  match inst with
  | .loadLocal slot =>
    match s.local_ slot with
    | some value => .loadConst value
    | none => inst
  | .loadCapture slot =>
    match s.capture slot with
    | some value => .loadConst value
    | none => inst
  | .loadVar name =>
    match s.global name with
    | some value => .loadConst value
    | none => inst
  | .binaryOp op left right =>
    let left := rewriteOperand s left
    let right := rewriteOperand s right
    match foldBinary ops op left right with
    | some value => .loadConst value
    | none => .binaryOp op left right
  | .jumpIfCmpFalse op left right target =>
    .jumpIfCmpFalse op (rewriteOperand s left) (rewriteOperand s right) target
  | .unaryOp op operand =>
    let operand := rewriteOperand s operand
    match foldUnary ops op operand with
    | some value => .loadConst value
    | none => .unaryOp op operand
  | inst => inst

/-- The code with the states of an analysis. -/
def rewriteCode (states : List (Option (State l c))) (code : List Instruction) :
    List Instruction :=
  code.mapIdx fun pc inst =>
    if (traceProtectedPcs code).getD pc false then inst
    else
      match states[pc]?.join with
      | some s => rewriteInstruction ops s inst
      | none => inst

/-- The slots that the analysis of a function follows. -/
def localsFollowed (code : List Instruction) (localCount : Nat) : Nat :=
  max (inferredLocalCount code) localCount

def capturesFollowed (code : List Instruction) (captureValues : List (Option Value)) : Nat :=
  max (inferredCaptureCount code) captureValues.length

/-- `propagate_instructions`, with an analysis of at most `fuel` rounds. -/
def propagateInstructions (ptrEq : PtrEq) (fuel : Nat) (code : List Instruction)
    (localCount : Nat) (captureValues : List (Option Value)) (globals : Globals) :
    Option (List Instruction) :=
  if code.isEmpty then some code
  else
    (analyze ops ptrEq fuel code (localsFollowed code localCount)
      (capturesFollowed code captureValues) captureValues globals).map
      fun states => rewriteCode ops states code

end Rewrite

/-! ### What rewritten code does -/

section Rewriting

variable {W : Type} {ops : Ops W} {l c : Nat} {s : State l c} {d d' : Data W}

theorem readTarget_run {t : StoreTarget} {v : Value} (h : d.valueAt t = some v) :
    (readTarget t).run d = .ok v d := by
  cases t with
  | local_ slot =>
    obtain ⟨s, hs, rfl⟩ := Option.map_eq_some_iff.mp h
    obtain ⟨a, ha, hs⟩ := Option.bind_eq_some_iff.mp hs
    exact readLocal_run ha hs
  | capture i =>
    obtain ⟨cell, hcell, rfl⟩ := Option.map_eq_some_iff.mp h
    obtain ⟨a, ha, hcell⟩ := Option.bind_eq_some_iff.mp hcell
    exact readCapture_run ha hcell
  | var name =>
    show (readGlobal name).run d = .ok v d
    unfold readGlobal
    rw [run_bind_ok (show (getEnv).run d = .ok d.env d from rfl)]
    rw [show d.env.globals name = some v from h]
    rfl

theorem resolveVar_run {name : String} {v : Value} (h : d.env.globals name = some v) :
    (resolveOperand ops (.var name)).run d = .ok v d := by
  unfold resolveOperand
  rw [run_bind_ok (show (getEnv).run d = .ok d.env d from rfl), h]
  rfl

/-- An operand that is known is there. -/
theorem resolveOperand_rewriteOperand (ops : Ops W)
    (htargets : ∀ t v, s.target t = some v → d.valueAt t = some v) (operand : Operand) :
    (resolveOperand ops (rewriteOperand s operand)).run d = (resolveOperand ops operand).run d := by
  cases operand with
  | local_ slot =>
    cases hknown : s.local_ slot with
    | none =>
      unfold rewriteOperand
      simp only [hknown]
    | some v =>
      have hread := readTarget_run (htargets (.local_ slot) v hknown)
      unfold rewriteOperand
      simp only [hknown]
      exact hread.symm
  | capture i =>
    cases hknown : s.capture i with
    | none =>
      unfold rewriteOperand
      simp only [hknown]
    | some v =>
      have hread := readTarget_run (htargets (.capture i) v hknown)
      unfold rewriteOperand
      simp only [hknown]
      exact hread.symm
  | var name =>
    cases hknown : s.global name with
    | none =>
      unfold rewriteOperand
      simp only [hknown]
    | some v =>
      have hread : (resolveOperand ops (.var name)).run d = .ok v d :=
        resolveVar_run (htargets (.var name) v hknown)
      unfold rewriteOperand
      simp only [hknown]
      exact hread.symm
  | stack => rfl
  | const v => rfl
  | self => rfl

/-- To take an operand leaves the bindings. -/
theorem resolveOperand_values {operand : Operand} {v : Value}
    (hrun : (resolveOperand ops operand).run d = .ok v d') : d'.valueAt = d.valueAt := by
  cases operand with
  | stack =>
    unfold resolveOperand pop1 at hrun
    dsimp only at hrun
    split at hrun
    · cases hrun
    · cases hrun
      funext t
      cases t <;> rfl
  | const w =>
    cases hrun
    rfl
  | local_ slot => rw [(readTarget_eq_ok (t := .local_ slot) hrun).2]
  | capture i => rw [(readTarget_eq_ok (t := .capture i) hrun).2]
  | var name =>
    obtain ⟨env, d₁, henv, hrest⟩ := run_bind_eq_ok hrun
    cases henv
    split at hrest
    · cases hrest
      rfl
    · split at hrest <;> cases hrest
      rfl
  | self =>
    obtain ⟨a, d₁, ha, hrest⟩ := run_bind_eq_ok hrun
    obtain ⟨-, rfl⟩ := currentFunction_eq_ok ha
    cases hrest
    rfl

theorem resolveOperands_rewriteOperand
    (htargets : ∀ t v, s.target t = some v → d.valueAt t = some v) (left right : Operand) :
    (resolveOperands ops (rewriteOperand s left) (rewriteOperand s right)).run d =
      (resolveOperands ops left right).run d := by
  unfold resolveOperands
  rw [run_bind, run_bind, resolveOperand_rewriteOperand ops htargets right]
  cases hright : (resolveOperand ops right).run d with
  | error e d₁ => rfl
  | ok r d₁ =>
    have hvalues := resolveOperand_values hright
    dsimp only
    rw [run_bind, run_bind, resolveOperand_rewriteOperand ops (hvalues ▸ htargets) left]

/-! #### Operators -/

/-- The fast path on integers does not fail. -/
theorem tryIntOperands_total {α : Type} (left right : Operand) (eval : Int64 → Int64 → Option α)
    (d : Data W) : ∃ result d', (tryIntOperands left right eval).run d = .ok result d' := by
  unfold tryIntOperands
  dsimp only
  split
  · exact ⟨_, _, rfl⟩
  · split
    · split <;> exact ⟨_, _, rfl⟩
    · exact ⟨_, _, rfl⟩

/-- An operator is its operands taken one by one, whether they are integers or not. -/
theorem binaryOp_eq (hfast : IntFastPath ops) (op : BinaryOperator) (left right : Operand) :
    (binaryOp ops op left right).run d = (do
      let (l, r) ← resolveOperands ops left right
      liftResult (evalBinary ops op l r) : Exec W Value).run d := by
  obtain ⟨result, d₁, htry⟩ := tryIntOperands_total left right (evalIntBinary ops op) d
  unfold binaryOp
  rw [run_bind_ok htry]
  rcases tryIntOperands_eq_ok ops htry with ⟨rfl, rfl⟩ | ⟨x, y, v, d₂, rfl, hv, hr, hl⟩
  · rfl
  · rw [run_bind_ok (resolveOperands_run hr hl)]
    dsimp only
    rw [hfast op x y v hv]
    rfl

theorem evalCmpBranchCondition_eq (hfast : IntFastPath ops) (op : BinaryOperator)
    (left right : Operand) : (evalCmpBranchCondition ops op left right).run d = (do
      let (l, r) ← resolveOperands ops left right
      condition (← liftResult (evalBinary ops op l r)) : Exec W Bool).run d := by
  obtain ⟨result, d₁, htry⟩ := tryIntOperands_total left right (evalIntComparison op) d
  unfold evalCmpBranchCondition
  rw [run_bind_ok htry]
  rcases tryIntOperands_eq_ok ops htry with ⟨rfl, rfl⟩ | ⟨x, y, b, d₂, rfl, hb, hr, hl⟩
  · dsimp only
    rw [run_bind, binaryOp_eq hfast, run_bind, run_bind]
    cases (resolveOperands ops left right).run d₁ with
    | error e d₂ => rfl
    | ok p d₂ => rfl
  · rw [run_bind_ok (resolveOperands_run hr hl)]
    dsimp only
    rw [hfast op x y _ (evalIntBinary_of_comparison hb)]
    rfl

theorem binaryOp_rewriteOperand (hfast : IntFastPath ops)
    (htargets : ∀ t v, s.target t = some v → d.valueAt t = some v) (op : BinaryOperator)
    (left right : Operand) :
    (binaryOp ops op (rewriteOperand s left) (rewriteOperand s right)).run d =
      (binaryOp ops op left right).run d := by
  rw [binaryOp_eq hfast, binaryOp_eq hfast, run_bind, run_bind,
    resolveOperands_rewriteOperand htargets]

theorem evalCmpBranchCondition_rewriteOperand (hfast : IntFastPath ops)
    (htargets : ∀ t v, s.target t = some v → d.valueAt t = some v) (op : BinaryOperator)
    (left right : Operand) :
    (evalCmpBranchCondition ops op (rewriteOperand s left) (rewriteOperand s right)).run d =
      (evalCmpBranchCondition ops op left right).run d := by
  rw [evalCmpBranchCondition_eq hfast, evalCmpBranchCondition_eq hfast, run_bind, run_bind,
    resolveOperands_rewriteOperand htargets]

theorem operandConst_eq_some {operand : Operand} {v : Value} (h : operandConst operand = some v) :
    operand = .const v := by
  cases operand with
  | const w => exact congrArg _ (Option.some.inj h)
  | _ => cases h

theorem toOption_eq_some {r : WqResult Value} {v : Value} (h : r.toOption = some v) :
    r = .ok v := by
  cases r with
  | ok w => exact congrArg _ (Option.some.inj h)
  | error e => cases h

/-- A folded operator has the value it would compute. -/
theorem foldBinary_eq_some {op : BinaryOperator} {left right : Operand} {v : Value}
    (h : foldBinary ops op left right = some v) :
    ∃ x y, left = .const x ∧ right = .const y ∧ evalBinary ops op x y = .ok v := by
  obtain ⟨x, hx, h⟩ := Option.bind_eq_some_iff.mp h
  obtain ⟨y, hy, h⟩ := Option.bind_eq_some_iff.mp h
  obtain ⟨w, hw, hv⟩ := Option.bind_eq_some_iff.mp h
  obtain rfl := known_trackableValue w v hv
  exact ⟨x, y, operandConst_eq_some hx, operandConst_eq_some hy, toOption_eq_some hw⟩

theorem foldUnary_eq_some {op : UnaryOperator} {operand : Operand} {v : Value}
    (h : foldUnary ops op operand = some v) :
    ∃ x, operand = .const x ∧ ops.unary op x = .ok v := by
  obtain ⟨x, hx, h⟩ := Option.bind_eq_some_iff.mp h
  obtain ⟨w, hw, hv⟩ := Option.bind_eq_some_iff.mp h
  obtain rfl := known_trackableValue w v hv
  exact ⟨x, operandConst_eq_some hx, toOption_eq_some hw⟩

/-! #### Instructions -/

variable (table : FnTable)

theorem run_bind_congr {α β : Type} {m m' : Exec W α} (h : m.run d = m'.run d) (f : α → Exec W β) :
    (m >>= f).run d = (m' >>= f).run d := by
  rw [run_bind, run_bind, h]

/-- A load of a binding that is known. -/
theorem execPlain_known {t : StoreTarget} {v : Value} (h : d.valueAt t = some v)
    {m : Exec W Value} (hm : m.run d = (readTarget t).run d) :
    (do push v; return .next : Exec W (Flow W)).run d =
      (do push (← m); return .next : Exec W (Flow W)).run d := by
  rw [run_bind_ok (hm.trans (readTarget_run h))]

/-- **An instruction does the same** when what is known before it is put in. -/
theorem exec_rewriteInstruction (hfast : IntFastPath ops)
    (htargets : ∀ t v, s.target t = some v → d.valueAt t = some v) (inst : Instruction) :
    (exec ops table (rewriteInstruction ops s inst)).run d = (exec ops table inst).run d := by
  cases inst with
  | loadLocal slot =>
    unfold rewriteInstruction
    dsimp only
    cases hknown : s.local_ slot with
    | none => rfl
    | some v => exact execPlain_known (htargets (.local_ slot) v hknown) rfl
  | loadCapture i =>
    unfold rewriteInstruction
    dsimp only
    cases hknown : s.capture i with
    | none => rfl
    | some v => exact execPlain_known (htargets (.capture i) v hknown) rfl
  | loadVar name =>
    unfold rewriteInstruction
    dsimp only
    cases hknown : s.global name with
    | none => rfl
    | some v =>
      have hat := htargets (.var name) v hknown
      exact execPlain_known hat ((resolveVar_run hat).trans (readTarget_run hat).symm)
  | binaryOp op left right =>
    have hsame := binaryOp_rewriteOperand hfast htargets op left right
    unfold rewriteInstruction
    dsimp only
    cases hfold : foldBinary ops op (rewriteOperand s left) (rewriteOperand s right) with
    | none => exact run_bind_congr hsame _
    | some v =>
      obtain ⟨x, y, hleft, hright, hv⟩ := foldBinary_eq_some hfold
      rw [hleft, hright] at hsame
      have hvalue : (Exec.binaryOp ops op (.const x) (.const y)).run d = .ok v d := by
        rw [binaryOp_eq hfast, run_bind_ok (resolveOperands_run rfl rfl)]
        dsimp only
        rw [hv]
        rfl
      have hbinary : (exec ops table (.binaryOp op left right)).run d =
          (do push v; return .next : Exec W (Flow W)).run d :=
        run_bind_ok (hsame.symm.trans hvalue) _
      exact hbinary.symm
  | unaryOp op operand =>
    have hsame := resolveOperand_rewriteOperand ops htargets operand
    unfold rewriteInstruction
    dsimp only
    cases hfold : foldUnary ops op (rewriteOperand s operand) with
    | none => exact run_bind_congr hsame _
    | some v =>
      obtain ⟨x, hoperand, hv⟩ := foldUnary_eq_some hfold
      rw [hoperand] at hsame
      have hoperand : (resolveOperand ops operand).run d = .ok x d := hsame.symm
      refine ((run_bind_ok hoperand _).trans ?_).symm
      rw [hv]
      rfl
  | jumpIfCmpFalse op left right target =>
    exact run_bind_congr (evalCmpBranchCondition_rewriteOperand hfast htargets op left right) _
  | _ => rfl

/-! #### Code -/

theorem length_rewriteCode (states : List (Option (State l c))) (code : List Instruction) :
    (rewriteCode ops states code).length = code.length := List.length_mapIdx

/-- An instruction of the rewritten code is the one there was, or has what is known put in. -/
theorem getElem?_rewriteCode {states : List (Option (State l c))} {code : List Instruction}
    {pc : Nat} {inst inst' : Instruction} (hinst : code[pc]? = some inst)
    (hinst' : (rewriteCode ops states code)[pc]? = some inst') :
    inst' = inst ∨ ∃ s, states[pc]? = some (some s) ∧ inst' = rewriteInstruction ops s inst := by
  unfold rewriteCode at hinst'
  rw [List.getElem?_mapIdx, hinst] at hinst'
  have heq := Option.some.inj hinst'
  split at heq
  · exact .inl heq.symm
  · split at heq
    · rename_i s hs
      exact .inr ⟨s, Option.join_eq_some_iff.mp hs, heq.symm⟩
    · exact .inl heq.symm

end Rewriting

/-! ### Runs of rewritten code -/

section Runs

open Analyses

variable {W : Type} {ops : Ops W} {table table' : FnTable} {ptrEq : FnId → PtrEq}
  {seeds : FnId → Option Seed}

/-- The functions with a seed have the constants of their analysis put in, the others are as
they were. -/
structure Propagates (ops : Ops W) (ptrEq : FnId → PtrEq) (seeds : FnId → Option Seed)
    (table table' : FnTable) : Prop where
  other : ∀ f, seeds f = none → table' f = table f
  propagated : ∀ f seed, seeds f = some seed → ∃ fuel code,
    propagateInstructions ops (ptrEq f) fuel (table f).instructions (table f).locals
        seed.captureValues seed.globals = some code ∧
      table' f = { table f with instructions := code }

/-- Every merge of every analysis is of states that are exact together. -/
def ExactEverywhere (ops : Ops W) (ptrEq : FnId → PtrEq) (seeds : FnId → Option Seed)
    (table : FnTable) : Prop :=
  ∀ f seed, seeds f = some seed → ExactThroughout ops (ptrEq f) (table f).instructions
    (localsFollowed (table f).instructions (table f).locals)
    (capturesFollowed (table f).instructions seed.captureValues) seed.captureValues seed.globals

/-- The analysis behind the rewritten code of a function. -/
theorem exists_analysis (hsound : ∀ f, (ptrEq f).Sound)
    (hexact : ExactEverywhere ops ptrEq seeds table)
    (hpropagates : Propagates ops ptrEq seeds table table') {f : FnId} {seed : Seed}
    (hseed : seeds f = some seed) : ∃ a : Analysis ops (table f).instructions, a.seed = seed ∧
      (table' f).instructions = rewriteCode ops a.states (table f).instructions := by
  obtain ⟨fuel, code, hrun, htable⟩ := hpropagates.propagated f seed hseed
  unfold propagateInstructions at hrun
  split at hrun
  · rename_i hempty
    have hnil : (table f).instructions = [] := List.isEmpty_iff.mp hempty
    have hrewrite : rewriteCode ops ([] : List (Option (State 0 0))) (table f).instructions =
        (table f).instructions := by
      rw [hnil]
      rfl
    refine ⟨⟨0, 0, seed, [], by rw [hnil]; rfl, fun h => absurd hnil h, by rintro _ _ ⟨⟩⟩,
      rfl, ?_⟩
    rw [htable]
    exact (Option.some.inj hrun).symm.trans hrewrite.symm
  · obtain ⟨states, hstates, rfl⟩ := Option.map_eq_some_iff.mp hrun
    exact ⟨.of ops (hsound f) (hexact f seed hseed) hstates, rfl, by rw [htable]; rfl⟩

theorem exists_analyses (hsound : ∀ f, (ptrEq f).Sound)
    (hexact : ExactEverywhere ops ptrEq seeds table)
    (hpropagates : Propagates ops ptrEq seeds table table') :
    ∃ A : Analyses ops table, A.seeds = seeds ∧ ∀ f a, A f = some a →
      (table' f).instructions = rewriteCode ops a.states (table f).instructions := by
  have hall : ∀ f, ∃ o : Option (Analysis ops (table f).instructions),
      o.map Analysis.seed = seeds f ∧ ∀ a, o = some a →
        (table' f).instructions = rewriteCode ops a.states (table f).instructions := by
    intro f
    cases hseed : seeds f with
    | none => exact ⟨none, rfl, by rintro _ ⟨⟩⟩
    | some seed =>
      obtain ⟨a, ha, hrewrite⟩ := exists_analysis hsound hexact hpropagates hseed
      exact ⟨some a, congrArg some ha, fun a' h => Option.some.inj h ▸ hrewrite⟩
  choose A hseeds hrewrite using hall
  exact ⟨A, funext hseeds, hrewrite⟩

theorem Propagates.interface (h : Propagates ops ptrEq seeds table table') :
    SameInterface table table' := by
  intro f
  cases hseed : seeds f with
  | none => exact ⟨(table f).instructions, h.other f hseed⟩
  | some seed =>
    obtain ⟨fuel, code, -, htable⟩ := h.propagated f seed hseed
    exact ⟨code, htable⟩

/-- **What the analysis of a function knows is so** in every state of a run. -/
theorem known_run (hfast : IntFastPath ops) (hno : IndexesNoCas ops) {f : FnId} {seed : Seed}
    {l c : Nat} {ptrEq : PtrEq} (hsound : ptrEq.Sound)
    (hexact : ExactThroughout ops ptrEq (table f).instructions l c seed.captureValues seed.globals)
    {fuel : Nat} {states : List (Option (State l c))}
    (hrun : analyze ops ptrEq fuel (table f).instructions l c seed.captureValues seed.globals =
      some states)
    (hcode : SourceCode (table f).instructions) {fn : FnId} {env : Env W}
    (hseed : fn = f → seed.Holds (Vm.start fn env).data)
    (horderly : (Vm.machine table ops).Always
      (Orderly table ops fun g => if g = f then some seed else none) (Vm.start fn env)) :
    (Vm.machine table ops).Always (fun vm => vm.control = .running → vm.code = f →
      vm.pc < (table f).instructions.length →
        ∃ s, states[vm.pc]? = some (some s) ∧ Describes s vm.data) (Vm.start fn env) := by
  let a : Analysis ops (table f).instructions := .of ops hsound hexact hrun
  let A : Analyses ops table := fun g => if h : g = f then some (h ▸ a) else none
  have hself : A f = some a := dif_pos rfl
  have hother : ∀ g, g ≠ f → A g = none := fun g hg => dif_neg hg
  have hseeds : A.seeds = fun g => if g = f then some seed else none := by
    funext g
    by_cases hg : g = f
    · subst hg
      rw [if_pos rfl]
      exact congrArg (Option.map Analysis.seed) hself
    · rw [if_neg hg]
      exact congrArg (Option.map Analysis.seed) (hother g hg)
  have hsource : ∀ g, (A g).isSome → SourceCode (table g).instructions := by
    intro g hsome
    by_cases hg : g = f
    · subst hg
      exact hcode
    · rw [hother g hg] at hsome
      cases hsome
  have hstart : ∀ seed', A.seeds fn = some seed' → seed'.Holds (Vm.start fn env).data := by
    intro seed' hseed'
    rw [hseeds] at hseed'
    obtain ⟨hfn, hsame⟩ := Option.ite_none_right_eq_some.mp hseed'
    exact Option.some.inj hsame ▸ hseed hfn
  have hfollowed := Analyses.followed_run hfast hno hsource hstart (hseeds ▸ horderly)
  intro n vm hsteps hcontrol hvm hlt
  have hat := (hfollowed n vm hsteps).running hcontrol
  rw [hvm] at hat
  exact hat a hself hlt

/-! #### A binding and an operator on it -/

namespace Increment

def intOps : Ops Unit := Ops.inert.computing NumberOps.inert fun _ _ v => .ok v

def code : List Instruction :=
  [.loadConst (.int 2), .storeVar "x", .binaryOp .add (.var "x") (.const (.int 1))]

def propagated : List Instruction := [.loadConst (.int 2), .storeVar "x", .loadConst (.int 3)]

def tableOf (instructions : List Instruction) : FnTable := fun _ =>
  { params := none, namedParams := none, locals := 0, isolatedModule := false, instructions }

def start : Seed := ⟨[], .empty⟩

end Increment

theorem exactThroughout_increment : ExactThroughout Increment.intOps (fun _ _ _ => false)
    Increment.code 0 0 [] .empty := by
  -- no instruction is reached twice, so no states meet
  refine .head ?_ (.head ?_ (.head ?_ (.head ?_ (.head ?_ (.head ?_ (.final ?_ rfl))))))
  all_goals
    intro target incoming rest existing hpending hexisting
    cases hpending <;> cases hexisting

theorem no_try_increment (start len : Nat) : Increment.code[start]? ≠ some (.try_ len) := by
  rcases start with _ | _ | _ | start <;> rintro ⟨⟩

theorem sourceCode_increment : SourceCode Increment.code where
  source := by decide
  forward start len pc i target htry := absurd htry (no_try_increment start len)
  nested start len pc len' htry := absurd htry (no_try_increment start len)

/-- A state between regions, of a function without captures and locals. -/
theorem orderly_of_flat {vm : Vm W} (hfunction : vm.data.function = none)
    (htries : vm.tryStack = []) (hentering : ¬Entering table ops vm) :
    Orderly table ops seeds vm := by
  have hcell : ∀ t, vm.data.cellAt t = none := by
    intro t
    cases t <;> simp only [Data.cellAt, hfunction, Option.bind_none]
  have hopen : ∀ r : Region W, ¬r.Open vm := by
    intro r hr
    have habove := hr.above
    rw [htries] at habove
    cases habove
  constructor
  · intro _
    exact ⟨fun t _ c h => (Option.some_ne_none c (h.symm.trans (hcell t))).elim,
      fun t c h => (Option.some_ne_none c (h.symm.trans (hcell t))).elim⟩
  · exact fun r _ hr => absurd hr (hopen r)
  · exact fun r _ hr => absurd hr (hopen r)
  · exact fun _ _ h => absurd h hentering

theorem orderly_increment (seeds : FnId → Option Seed) :
    (Vm.machine (Increment.tableOf Increment.code) Increment.intOps).Always
      (Orderly (Increment.tableOf Increment.code) Increment.intOps seeds)
      (Vm.start 0 Env.empty) := by
  -- three instructions, the return, and the end
  refine .head (orderly_of_flat rfl rfl ?_) (.head (orderly_of_flat rfl rfl ?_)
    (.head (orderly_of_flat rfl rfl ?_) (.head (orderly_of_flat rfl rfl ?_)
      (.final (orderly_of_flat rfl rfl ?_) rfl))))
  all_goals
    rintro (h | ⟨i, hi, h⟩)
    · exact Nat.lt_irrefl _ h
    · cases hi <;> cases h

theorem holds_increment : Increment.start.Holds (Vm.start 0 Env.empty).data where
  captures i v h := by cases h
  globals name v h := by cases h
  stack := rfl

theorem sound_increment : PtrEq.Sound fun _ _ _ => false := by
  rintro _ _ _ ⟨⟩

theorem intFastPath_increment : IntFastPath Increment.intOps := intFastPath_computing _ _ _

theorem indexesNoCas_increment : IndexesNoCas Increment.intOps := indexesNoCas_computing _ _ _

theorem known_increment : ∃ states : List (Option (State 0 0)),
    analyze Increment.intOps (fun _ _ _ => false) 10 Increment.code 0 0 [] .empty = some states ∧
      (Vm.machine (Increment.tableOf Increment.code) Increment.intOps).Always (fun vm =>
        vm.control = .running → vm.code = 0 → vm.pc < Increment.code.length →
          ∃ s, states[vm.pc]? = some (some s) ∧ Describes s vm.data) (Vm.start 0 Env.empty) :=
  ⟨_, rfl, @known_run Unit Increment.intOps (Increment.tableOf Increment.code) intFastPath_increment
    indexesNoCas_increment 0 Increment.start 0 0 (fun _ _ _ => false) sound_increment
    exactThroughout_increment 10 _ rfl sourceCode_increment 0 Env.empty (fun _ => holds_increment)
    (orderly_increment _)⟩

/-- **The machine runs as before** when constants are propagated: through the same states, step
by step. -/
theorem propagated_steps (hfast : IntFastPath ops) (hno : IndexesNoCas ops)
    (hsound : ∀ f, (ptrEq f).Sound) (hexact : ExactEverywhere ops ptrEq seeds table)
    (hpropagates : Propagates ops ptrEq seeds table table')
    (hcode : ∀ f, (seeds f).isSome → SourceCode (table f).instructions) {fn : FnId} {env : Env W}
    (hseed : ∀ seed, seeds fn = some seed → seed.Holds (Vm.start fn env).data)
    (horderly : (Vm.machine table ops).Always (Orderly table ops seeds) (Vm.start fn env))
    (n : Nat) (vm : Vm W) : (Vm.machine table' ops).Steps n (Vm.start fn env) vm ↔
      (Vm.machine table ops).Steps n (Vm.start fn env) vm := by
  obtain ⟨A, hseeds, hrewrite⟩ := exists_analyses hsound hexact hpropagates
  have hsource : ∀ f, (A f).isSome → SourceCode (table f).instructions := by
    intro f hsome
    exact hcode f (hseeds ▸ (A.isSome_seeds f).trans hsome)
  have hfollowed := followed_run hfast hno hsource (hseeds.symm ▸ hseed) (hseeds.symm ▸ horderly)
  refine Machine.Always.steps_iff (M := Vm.machine table ops) (N := Vm.machine table' ops)
    (fun vm h => ?_) (fun _ => rfl) hfollowed
  have hother : A vm.code = none → table' vm.code = table vm.code := by
    intro hnone
    refine hpropagates.other vm.code ?_
    rw [← hseeds]
    exact congrArg (Option.map Analysis.seed) hnone
  refine hpropagates.interface.step ops vm ?_ fun hcontrol i i' hi hi' => ?_
  · cases ha : A vm.code with
    | none => rw [hother ha]
    | some a => rw [hrewrite vm.code a ha, length_rewriteCode]
  · cases ha : A vm.code with
    | none =>
      rw [hother ha, hi] at hi'
      rw [Option.some.inj hi']
    | some a =>
      rw [hrewrite vm.code a ha] at hi'
      rcases getElem?_rewriteCode hi hi' with rfl | ⟨s, hs, rfl⟩
      · rfl
      · obtain ⟨t, ht, hdescribes⟩ :=
          h.running hcontrol a ha (List.getElem?_eq_some_iff.mp hi).1
        obtain rfl := Option.some.inj (Option.some.inj (ht.symm.trans hs))
        exact exec_rewriteInstruction table hfast hdescribes.targets i

theorem propagateInstructions_increment :
    propagateInstructions Increment.intOps (fun _ _ _ => false) 10 Increment.code 0 [] .empty =
      some Increment.propagated := rfl

theorem propagates_increment : Propagates Increment.intOps (fun _ _ _ _ => false)
    (fun _ => some Increment.start) (Increment.tableOf Increment.code)
    (Increment.tableOf Increment.propagated) where
  other f h := by cases h
  propagated f seed h := by
    obtain rfl := Option.some.inj h
    exact ⟨10, Increment.propagated, propagateInstructions_increment, rfl⟩

theorem exactEverywhere_increment : ExactEverywhere Increment.intOps (fun _ _ _ _ => false)
    (fun _ => some Increment.start) (Increment.tableOf Increment.code) := by
  intro f seed h
  obtain rfl := Option.some.inj h
  exact exactThroughout_increment

theorem seeds_increment : ∀ seed, some Increment.start = some seed →
    seed.Holds (Vm.start 0 Env.empty).data := by
  intro seed h
  obtain rfl := Option.some.inj h
  exact holds_increment

/-- The state after the code: the sum is on the stack. -/
def Increment.last : Vm Unit :=
  { Vm.start 0 Env.empty with
    pc := 3
    data := { (Vm.start 0 Env.empty).data with
      stack := [.int 3]
      env := { Env.empty with
        globals := fun name => if name = "x" then some (.int 2) else none } } }

theorem steps_increment : (Vm.machine (Increment.tableOf Increment.code) Increment.intOps).Steps 3
    (Vm.start 0 Env.empty) Increment.last := by
  have h : (Vm.machine (Increment.tableOf Increment.code) Increment.intOps).Steps 3
      (Vm.start 0 Env.empty) _ := .head rfl (.head rfl (.head rfl (.refl _)))
  exact h

theorem propagated_increment :
    (Vm.machine (Increment.tableOf Increment.propagated) Increment.intOps).Steps 3
      (Vm.start 0 Env.empty) Increment.last :=
  (propagated_steps intFastPath_increment indexesNoCas_increment (fun _ => sound_increment)
    exactEverywhere_increment propagates_increment (fun _ _ => sourceCode_increment)
    seeds_increment (orderly_increment _) 3 _).mpr steps_increment

end Runs

end ConstProp

end Wqpl
