/-
# Specialised instructions and generic ones

The binary operators, the fused comparisons and the counted loops have
shortcuts for operands at hand: integers, and for `JumpIfLEZLocal` floats too.
`generic` says what each instruction stands for: operands first, then
`eval_binary`, then `JumpIfFalse` on the value. The shortcuts compute the same,
stack, branch and error included, except `JumpIfLEZLocal` on a NaN: a NaN does
not compare with zero, but the instruction goes on as if it were above
(`specialised_iff`).
-/
import Wqpl.Vm.IntOperators

namespace Wqpl

open Exec

namespace Exec

variable {W : Type} (ops : Ops W) (table : FnTable)

/-- `eval_binary` on the values, and the result on the stack. -/
def pushBinary (op : BinaryOperator) (left right : Value) : Exec W Unit := do
  push (← liftResult (evalBinary ops op left right))

/-- What an instruction with a shortcut stands for. -/
def generic : Instruction → Exec W (Flow W)
  | .binaryOp op left right => do
    let (l, r) ← resolveOperands ops left right
    pushBinary ops op l r
    return .next
  | .jumpIfCmpFalse op left right target => do
    let (l, r) ← resolveOperands ops left right
    pushBinary ops op l r
    execPlain ops table (.jumpIfFalse target)
  | .nLoopEnter index count snapshot target => do
    let i ← readLocal index
    let n ← readLocal count
    pushBinary ops .lt i n
    match ← execPlain ops table (.jumpIfFalse target) with
    | .next =>
      writeLocal snapshot i
      return .next
    | flow => return flow
  | .nLoopNext snapshot index target => do
    let v ← readLocal snapshot
    let next_ ← liftResult (evalBinary ops .add v (.int 1))
    writeLocal index next_
    return .jump target
  | .jumpIfGE target => do
    let (left, right) ← pop2
    pushBinary ops .lt left right
    execPlain ops table (.jumpIfFalse target)
  | .jumpIfLEZLocal slot target => do
    let v ← readLocal slot
    pushBinary ops .gt v (.int 0)
    execPlain ops table (.jumpIfFalse target)
  | i => execPlain ops table i

end Exec

/-- The value of a local of the current function. -/
def Data.local? {W : Type} (d : Data W) (slot : Nat) : Option Value := do
  let a ← d.function
  let s ← a.locals[slot]?
  return s.read d.env

/-- The instruction compares a local with zero, and the local holds a NaN. -/
def TestsNaN {W : Type} (d : Data W) : Instruction → Prop
  | .jumpIfLEZLocal slot _ => ∃ f : F64, d.local? slot = some (.float f) ∧ f.isNaN = true
  | _ => False

/-! ### Operands -/

section Operands

variable {W : Type} {ops : Ops W} {d : Data W}

theorem readLocal_local? (slot : Nat) (d : Data W) :
    (readLocal slot).run d =
      match d.local? slot with
      | some v => .ok v d
      | none => .error .vm d := by
  rcases hfunction : d.function with _ | a
  · simp [readLocal, localSlot, currentFunction, run_bind, hfunction, Data.local?]
  · rcases hslot : a.locals[slot]? with _ | s
    · simp [readLocal, localSlot, currentFunction, run_bind, hfunction, hslot, Data.local?]
    · rw [readLocal_run hfunction hslot]
      simp [hfunction, hslot, Data.local?]

variable (ops) in
/-- An operand that is an integer at hand resolves to it. -/
theorem resolveOperand_intOperand {operand : Operand} {n : Int64}
    (h : intOperand operand 0 d = some n) :
    (resolveOperand ops operand).run d = .ok (.int n) (d.drop (stackCount operand)) := by
  rcases operand with _ | c | slot | _ | _ | _
  case stack =>
    rw [intOperand] at h
    rcases hstack : d.stack with _ | ⟨v, stack⟩
    · simp [hstack] at h
    · simp only [hstack, List.getElem?_cons_zero] at h
      split at h
      · rename_i hv
        obtain rfl := Option.some.inj h
        obtain rfl := Option.some.inj hv
        simp only [resolveOperand, pop1, hstack, Data.drop, stackCount, List.drop_one, List.tail_cons]
      · exact absurd h (by simp)
  case const =>
    have hc : c = .int n := by
      rw [intOperand.eq_def] at h
      split at h <;> simp_all
    rw [hc]
    rfl
  case local_ =>
    rw [intOperand] at h
    rcases hslot : d.function.bind (fun a => a.locals[slot]?) with _ | s
    · simp [hslot] at h
    · obtain ⟨a, ha, hs⟩ := Option.bind_eq_some_iff.mp hslot
      simp only [hslot] at h
      split at h
      · rename_i hread
        obtain rfl := Option.some.inj h
        rw [resolveOperand, readLocal_run ha hs, hread]
        rfl
      · exact absurd h (by simp)
  all_goals simp [intOperand] at h

theorem Data.drop_drop (d : Data W) (m n : Nat) : (d.drop m).drop n = d.drop (m + n) := by
  simp only [Data.drop, List.drop_drop]

variable (ops) in
/-- The fast path does nothing, or takes two integers and answers for them. -/
theorem tryIntOperands_cases {α : Type} (left right : Operand)
    (eval : Int64 → Int64 → Option α) (d : Data W) :
    (tryIntOperands left right eval).run d = .ok none d ∨
      ∃ x y a, eval x y = some a ∧
        (resolveOperands ops left right).run d =
          .ok (.int x, .int y) (d.drop (stackCount left + stackCount right)) ∧
        (tryIntOperands left right eval).run d =
          .ok (some a) (d.drop (stackCount left + stackCount right)) := by
  rw [tryIntOperands]
  dsimp only
  split
  · exact .inl rfl
  · rcases hy : intOperand right 0 d with _ | y
    · exact .inl rfl
    · rcases hx : intOperand left (stackCount right) d with _ | x
      · exact .inl rfl
      · rcases ha : eval x y with _ | a
        · simp [ha]
        · rw [intOperand_depth] at hx
          have hl := resolveOperand_intOperand ops hx
          rw [Data.drop_drop, Nat.add_comm] at hl
          refine .inr ⟨x, y, a, ha, ?_, ?_⟩
          · exact resolveOperands_run (resolveOperand_intOperand ops hy) hl
          · simp only [ha]
            rfl

/-- A binary operator is `eval_binary` on the values of its operands. -/
theorem binaryOp_eq_evalBinary (hfast : IntFastPath ops) (op : BinaryOperator) (left right : Operand) :
    (binaryOp ops op left right).run d =
      (do let (l, r) ← resolveOperands ops left right
          liftResult (evalBinary ops op l r)).run d := by
  rw [binaryOp]
  rcases tryIntOperands_cases ops left right (evalIntBinary ops op) d with
    h | ⟨x, y, v, hv, hresolve, h⟩
  · rw [run_bind_ok h]
  · rw [run_bind_ok h, run_bind_ok hresolve]
    dsimp only
    rw [hfast op x y v hv]
    rfl

/-- A comparison answers as the operator it stands for. -/
theorem evalIntBinary_comparison {op : BinaryOperator} {x y : Int64} {b : Bool}
    (h : evalIntComparison op x y = some b) : evalIntBinary ops op x y = some (.bool b) := by
  rcases op
  case equal | equalDot | notEqual | notEqualDot | lt | lte | gt | gte =>
    obtain rfl := Option.some.inj h
    rfl
  all_goals exact absurd h (by simp [evalIntComparison])

/-- The condition of a fused comparison. -/
theorem evalCmpBranchCondition_generic (hfast : IntFastPath ops) (op : BinaryOperator)
    (left right : Operand) :
    (evalCmpBranchCondition ops op left right).run d =
      (do let (l, r) ← resolveOperands ops left right
          condition (← liftResult (evalBinary ops op l r))).run d := by
  rw [evalCmpBranchCondition]
  rcases tryIntOperands_cases ops left right (evalIntComparison op) d with
    h | ⟨x, y, b, hb, hresolve, h⟩
  · rw [run_bind_ok h]
    dsimp only
    rw [run_bind, binaryOp_eq_evalBinary hfast, run_bind, run_bind]
    rcases (resolveOperands ops left right).run d with ⟨_, _⟩ | _ <;> rfl
  · rw [run_bind_ok h, run_bind_ok hresolve]
    dsimp only
    rw [hfast op x y _ (evalIntBinary_comparison hb)]
    rfl

end Operands

/-! ### Branches -/

section Branches

variable {W : Type} {ops : Ops W} {table : FnTable}

/-- The condition that a comparison of two values is. -/
def comparison (ops : Ops W) (op : BinaryOperator) (left right : Value) : Exec W Bool := do
  condition (← liftResult (evalBinary ops op left right))

/-- A comparison on the stack and `JumpIfFalse` on it. -/
theorem pushBinary_jumpIfFalse (op : BinaryOperator) (left right : Value) (target : Nat) :
    (do pushBinary ops op left right
        execPlain ops table (.jumpIfFalse target) : Exec W (Flow W)) =
      jumpUnless target <$> comparison ops op left right := by
  rcases hv : evalBinary ops op left right with e | v
  · simp only [pushBinary, comparison, hv]
    rfl
  · simp only [pushBinary, comparison, hv]
    rfl

theorem binaryOp_generic (hfast : IntFastPath ops)
    (op : BinaryOperator) (left right : Operand) (d : Data W) :
    (execPlain ops table (.binaryOp op left right)).run d =
      (generic ops table (.binaryOp op left right)).run d := by
  show (do push (← binaryOp ops op left right); return .next : Exec W (Flow W)).run d = _
  rw [generic, run_bind, binaryOp_eq_evalBinary hfast, run_bind, run_bind]
  rcases (resolveOperands ops left right).run d with ⟨⟨l, r⟩, d'⟩ | _
  · dsimp only
    rw [pushBinary, bind_assoc, run_bind (liftResult _)]
  · rfl

theorem jumpIfCmpFalse_generic (hfast : IntFastPath ops) (op : BinaryOperator)
    (left right : Operand) (target : Nat) (d : Data W) :
    (execPlain ops table (.jumpIfCmpFalse op left right target)).run d =
      (generic ops table (.jumpIfCmpFalse op left right target)).run d := by
  show (do return jumpUnless target (← evalCmpBranchCondition ops op left right) :
    Exec W (Flow W)).run d = _
  rw [generic, run_bind, evalCmpBranchCondition_generic hfast, run_bind, run_bind]
  rcases (resolveOperands ops left right).run d with ⟨⟨l, r⟩, d'⟩ | _
  · dsimp only
    rw [pushBinary_jumpIfFalse, map_eq_pure_bind, ← run_bind]
    rfl
  · rfl

/-- Two integers compare as the fast path does. -/
theorem jumpIfGE_generic (target : Nat) :
    execPlain ops table (.jumpIfGE target) = generic ops table (.jumpIfGE target) := by
  refine bind_congr fun ⟨left, right⟩ => ?_
  dsimp only
  rw [pushBinary_jumpIfFalse]
  split
  · rfl
  · rw [map_eq_pure_bind, comparison, bind_assoc]

theorem evalNLoopCondition_eq (i n : Value) :
    evalNLoopCondition ops i n = comparison ops .lt i n := by
  rw [evalNLoopCondition.eq_def]
  split
  · rfl
  · rfl

theorem nLoopEnter_generic (index count snapshot target : Nat) :
    execPlain ops table (.nLoopEnter index count snapshot target) =
      generic ops table (.nLoopEnter index count snapshot target) := by
  refine bind_congr fun i => bind_congr fun n => ?_
  rw [← bind_assoc, pushBinary_jumpIfFalse, evalNLoopCondition_eq, bind_map_left]
  refine bind_congr fun b => ?_
  cases b <;> rfl

theorem nLoopNext_generic (hfast : IntFastPath ops) (snapshot index target : Nat) :
    execPlain ops table (.nLoopNext snapshot index target) =
      generic ops table (.nLoopNext snapshot index target) := by
  refine bind_congr fun v => ?_
  dsimp only
  split
  · rename_i n
    split
    · rename_i n' hn
      have hadd : evalBinary ops .add (.int n) (.int 1) = .ok (.int n') :=
        hfast .add n 1 (.int n') (congrArg (Option.map Value.int) hn)
      rw [hadd]
      rfl
    · rfl
  · rfl

/-! ### Comparison of a local with zero -/

/-- Every float but a NaN compares with zero. -/
theorem partialCmp_zero (f : F64) :
    f.partialCmp (F64.ofInt 0) =
      if f.isNaN then none else some (compare f.rank (F64.ofInt 0).rank) := by
  have hzero : (F64.ofInt 0).isNaN = false := by decide
  rw [F64.partialCmp, hzero, Bool.or_false]

/-- A float compares with zero as by `cmp_atom`. -/
theorem evalBinary_gt_zero (f : F64) :
    evalBinary ops .gt (.float f) (.int 0) =
      match f.partialCmp (F64.ofInt 0) with
      | some ord => .ok (.bool (ord = Ordering.gt))
      | none => .error .domain := rfl

section

variable {d : Data W} {slot : Nat} {v : Value}

theorem jumpIfLEZLocal_run (hv : (readLocal slot).run d = .ok v d) (target : Nat) :
    (generic ops table (.jumpIfLEZLocal slot target)).run d =
      (jumpUnless target <$> comparison ops .gt v (.int 0)).run d := by
  rw [generic, run_bind_ok hv, pushBinary_jumpIfFalse]

theorem jumpIfLEZLocal_other (hfast : IntFastPath ops) (hv : (readLocal slot).run d = .ok v d)
    (target : Nat) :
    (do return jumpUnless target
          (← evalCmpBranchCondition ops .gt (.local_ slot) (.const (.int 0))) :
        Exec W (Flow W)).run d =
      (jumpUnless target <$> comparison ops .gt v (.int 0)).run d := by
  have hresolve : (resolveOperands ops (.local_ slot) (.const (.int 0))).run d =
      .ok (v, .int 0) d := resolveOperands_run rfl hv
  rw [run_bind, evalCmpBranchCondition_generic hfast, run_bind_ok hresolve, map_eq_pure_bind,
    run_bind]
  rfl

/-- On a NaN the instruction goes on. -/
theorem jumpIfLEZLocal_nan {f : F64} (hv : (readLocal slot).run d = .ok (.float f) d)
    (hnan : f.isNaN = true) (target : Nat) :
    (execPlain ops table (.jumpIfLEZLocal slot target)).run d = .ok .next d ∧
      (generic ops table (.jumpIfLEZLocal slot target)).run d = .error .domain d := by
  have hcmp : f.partialCmp (F64.ofInt 0) = none := by rw [partialCmp_zero, if_pos hnan]
  have hgt : evalBinary ops .gt (.float f) (.int 0) = .error .domain := by
    rw [evalBinary_gt_zero, hcmp]
  constructor
  · refine (run_bind_ok hv _).trans ?_
    simp [hcmp, jumpUnless]
  · rw [jumpIfLEZLocal_run hv, comparison, hgt]
    rfl

theorem jumpIfLEZLocal_generic (hfast : IntFastPath ops)
    (hv : (readLocal slot).run d = .ok v d) (hnan : ∀ f : F64, v = .float f → f.isNaN = false)
    (target : Nat) :
    (execPlain ops table (.jumpIfLEZLocal slot target)).run d =
      (generic ops table (.jumpIfLEZLocal slot target)).run d := by
  rw [jumpIfLEZLocal_run hv]
  refine (run_bind_ok hv _).trans ?_
  split
  · rename_i n
    have hgt : evalBinary ops .gt (.int n) (.int 0) = .ok (.bool (decide (0 < n.toInt))) :=
      hfast .gt n 0 _ rfl
    rw [comparison, hgt]
    rfl
  · rename_i f
    have hcmp : f.partialCmp (F64.ofInt 0) = some (compare f.rank (F64.ofInt 0).rank) := by
      rw [partialCmp_zero, if_neg (by rw [hnan f rfl]; decide)]
    have hgt : evalBinary ops .gt (.float f) (.int 0) =
        .ok (.bool (decide (compare f.rank (F64.ofInt 0).rank = .gt))) := by
      rw [evalBinary_gt_zero, hcmp]
    rw [comparison, hgt, hcmp]
    rcases compare f.rank (F64.ofInt 0).rank <;> rfl
  · exact jumpIfLEZLocal_other hfast hv target

end

end Branches

/-! ### Every instruction -/

/-- **Specialised instructions.** An instruction with a shortcut does what its
operands, `eval_binary` and `JumpIfFalse` do, unless it compares a NaN with
zero. -/
theorem specialised_iff {W : Type} (base : Ops W) (numbers : NumberOps)
    (substituteCas : SubstituteCas) (table : FnTable) (i : Instruction) (d : Data W) :
    (execPlain (base.computing numbers substituteCas) table i).run d =
        (generic (base.computing numbers substituteCas) table i).run d ↔ ¬TestsNaN d i := by
  have hfast := intFastPath_computing base numbers substituteCas
  rcases i
  case binaryOp op left right =>
    exact iff_of_true (binaryOp_generic hfast op left right d) id
  case jumpIfCmpFalse op left right target =>
    exact iff_of_true (jumpIfCmpFalse_generic hfast op left right target d) id
  case nLoopEnter index count snapshot target =>
    exact iff_of_true (congrArg (Exec.run · d) (nLoopEnter_generic index count snapshot target)) id
  case nLoopNext snapshot index target =>
    exact iff_of_true (congrArg (Exec.run · d) (nLoopNext_generic hfast snapshot index target)) id
  case jumpIfGE target => exact iff_of_true (congrArg (Exec.run · d) (jumpIfGE_generic target)) id
  case jumpIfLEZLocal slot target =>
    have hread := readLocal_local? slot d
    rcases hlocal : d.local? slot with _ | v
    · rw [hlocal] at hread
      refine iff_of_true ?_ fun ⟨f, hf, _⟩ => absurd (hlocal.symm.trans hf) nofun
      exact (run_bind_error hread _).trans (run_bind_error hread _).symm
    · rw [hlocal] at hread
      constructor
      · rintro heq ⟨f, hf, hnan⟩
        obtain rfl := Option.some.inj (hlocal.symm.trans hf)
        obtain ⟨hexec, hgeneric⟩ := jumpIfLEZLocal_nan hread hnan target
        exact absurd (hexec.symm.trans (heq.trans hgeneric)) nofun
      · intro h
        refine jumpIfLEZLocal_generic hfast hread (fun f hf => ?_) target
        subst hf
        exact Bool.eq_false_iff.mpr fun hnan => h ⟨f, hlocal, hnan⟩
  all_goals exact iff_of_true rfl id

/-- The bits of a NaN. -/
def nan : F64 := ⟨0x7FF8000000000000#64⟩

/-- A function whose local is a NaN. -/
def nanLocal : Data Unit where
  stack := []
  function := some ⟨[.value (.float nan)], [], Value.emptyList⟩
  unpackFrames := []
  pendingNamedMeta := none
  env := Env.empty

def testZeroOps : Ops Unit := Ops.inert.computing NumberOps.inert fun _ _ v => .ok v

def testZeroTable : FnTable := fun _ => ⟨none, none, 1, false, []⟩

theorem jumpIfLEZLocal_goes_on :
    (execPlain testZeroOps testZeroTable (.jumpIfLEZLocal 0 7)).run nanLocal ≠
      (generic testZeroOps testZeroTable (.jumpIfLEZLocal 0 7)).run nanLocal := by
  have hread : (readLocal 0).run nanLocal = .ok (.float nan) nanLocal := rfl
  intro heq
  have hnext := (jumpIfLEZLocal_nan hread (by decide) 7).1.symm.trans
    (heq.trans (jumpIfLEZLocal_nan hread (by decide) 7).2)
  exact absurd hnext nofun

end Wqpl
