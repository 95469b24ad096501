/-
# Fused instructions

An instruction with moved targets does what it did and goes on to the moved
target (`exec_remap`); an instruction that two became does what the two do one
after the other (`exec_pairs`), on the data that it fits (`FusesOn`): some of
the fused forms are not made for every state that the two handle.
-/
import Wqpl.Compile.Fuse
import Wqpl.Vm.Specialised

namespace Wqpl

/-- How control goes on in the moved code. -/
def Flow.remap {W : Type} (oldToNew : Nat → Nat) (n origin newIdx : Nat) : Flow W → Flow W
  | .jump target => .jump (oldToNew target)
  | .try_ len => .try_ (oldToNew (min (origin + 1 + len) n) - (newIdx + 1))
  | flow => flow

namespace Exec

variable {W : Type} (ops : Ops W) (table : FnTable)

/-! ### Moved targets -/

section Remap

variable (oldToNew : Nat → Nat) (n origin newIdx : Nat)

theorem map_of_returns {α : Type} {P : α → Prop} {m : Exec W α} (h : Returns P m) {g : α → α}
    (hg : ∀ a, P a → g a = a) : g <$> m = m := by
  show (⟨_⟩ : Exec W α) = m
  congr 1
  funext d
  cases hm : m.run d with
  | ok a d' => simp only [Function.comp_apply, run_pure, hg a (h d a d' hm)]
  | error e d' => rfl

theorem remap_jumpUnless (target : Nat) (cond : Bool) :
    (jumpUnless target cond : Flow W).remap oldToNew n origin newIdx =
      jumpUnless (oldToNew target) cond := by
  cases cond <;> rfl

/-- An instruction that does not jump and opens no try region stays. -/
theorem remap_of_straight {i : Instruction} (htarget : i.target = none) (htry : i.tryLen = none) :
    i.remap oldToNew n origin newIdx = i := by
  cases i <;> first
    | rfl
    | (cases htarget; done)
    | (cases htry; done)

theorem remap_of_allows {i : Instruction} (htarget : i.target = none) (htry : i.tryLen = none)
    {flow : Flow W} (h : i.Allows flow) : flow.remap oldToNew n origin newIdx = flow := by
  cases flow with
  | jump target =>
    have heq : i.target = some target := h
    rw [htarget] at heq
    cases heq
  | try_ len =>
    have heq : i.tryLen = some len := h
    rw [htry] at heq
    cases heq
  | _ => rfl

theorem execPlain_remap {i : Instruction} (hjump : i.target.isSome = true)
    (hplain : ∀ call metadata, i ≠ .namedCall call metadata) :
    execPlain ops table (i.remap oldToNew n origin newIdx) =
      Flow.remap oldToNew n origin newIdx <$> execPlain ops table i := by
  cases i with
  | jump target => rfl
  | jumpIfFalse target | jumpIfCmpFalse op left right target =>
    simp only [Instruction.remap, execPlain, map_bind, map_pure, remap_jumpUnless]
  | boolAndLazy target | boolOrLazy target =>
    show (⟨_⟩ : Exec W (Flow W)) = ⟨_⟩
    congr 1
    funext d
    simp only [execPlain]
    split <;> rfl
  | nLoopEnter i n' snapshot target =>
    simp only [Instruction.remap, execPlain, map_bind]
    refine bind_congr fun a => bind_congr fun b => bind_congr fun go => ?_
    cases go with
    | false => rfl
    | true =>
      rw [if_pos rfl, if_pos rfl, map_bind]
      rfl
  | nLoopNext snapshot i target =>
    simp only [Instruction.remap, execPlain, map_bind]
    refine bind_congr fun v => ?_
    split
    · split
      · simp only [map_bind, map_pure]
        rfl
      · simp only [map_bind, map_pure]
        rfl
    · simp only [map_bind, map_pure]
      rfl
  | jumpIfGE target =>
    simp only [Instruction.remap, execPlain, map_bind]
    refine bind_congr fun p => ?_
    split
    · simp only [map_pure, remap_jumpUnless]
    · simp only [map_bind, map_pure, remap_jumpUnless]
  | jumpIfLEZLocal slot target =>
    simp only [Instruction.remap, execPlain, map_bind]
    refine bind_congr fun v => ?_
    split
    · simp only [map_pure, remap_jumpUnless]
    · simp only [map_pure, remap_jumpUnless]
    · simp only [map_bind, map_pure, remap_jumpUnless]
  | jumpIfNamedProvided slot bit target =>
    simp only [Instruction.remap, execPlain, map_bind]
    refine bind_congr fun v => ?_
    split
    · simp only [map_pure, remap_jumpUnless]
    · rfl
  | namedCall call metadata => exact absurd rfl (hplain call metadata)
  | _ => cases hjump

/-- An instruction with moved targets. -/
theorem exec_remap {i : Instruction}
    (hnamed : ∀ call metadata, i = .namedCall call metadata →
      call.target = none ∧ call.tryLen = none) :
    exec ops table (i.remap oldToNew n origin newIdx) =
      Flow.remap oldToNew n origin newIdx <$> exec ops table i := by
  by_cases hstraight : i.target = none ∧ i.tryLen = none
  · rw [remap_of_straight _ _ _ _ hstraight.1 hstraight.2]
    exact (map_of_returns (exec_allows ops table i) fun flow h =>
      remap_of_allows _ _ _ _ hstraight.1 hstraight.2 h).symm
  · have hplain : ∀ call metadata, i ≠ .namedCall call metadata := by
      rintro call metadata rfl
      exact hstraight (hnamed call metadata rfl)
    cases i with
    | try_ len => rfl
    | namedCall call metadata => exact absurd rfl (hplain call metadata)
    | jump target => exact execPlain_remap ops table oldToNew n origin newIdx rfl hplain
    | _ => first
      | exact absurd ⟨rfl, rfl⟩ hstraight
      | exact execPlain_remap ops table oldToNew n origin newIdx rfl hplain

end Remap

end Exec

/-- The data on which the one instruction `c`, made from `a` and the instruction
behind it, does what both do. The stores keep an operand that the fused ones
take off also when they fail, the comparison with zero asks no NaN, and a
comparison that finds one operand only has taken it off. -/
def FusesOn {W : Type} (d : Data W) : (a c : Instruction) → Prop
  | .storeLocalKeep slot, _ => d.stack = [] ∨ (d.local? slot).isSome
  | .storeCaptureKeep i, _ => d.stack = [] ∨ (d.function.bind fun a => a.captures[i]?).isSome
  | .binaryOp _ _ _, .jumpIfGE _ => d.stack.length ≠ 1
  | .binaryOp _ _ _, .jumpIfLEZLocal slot target => ¬TestsNaN d (.jumpIfLEZLocal slot target)
  | _, _ => True

/-- The data on which a branch to the next instruction is a `pop`. -/
def PopsCondition {W : Type} (d : Data W) : Prop :=
  ∃ v stack b, d.stack = v :: stack ∧ v.tryToRustBool = some b

namespace Exec

variable {W : Type} (ops : Ops W) (table : FnTable)

/-! ### Pairs -/

section Pairs

variable {a b c : Instruction} {d : Data W}

theorem indexAssignOne_pop (target : StoreTarget) :
    (do let _ ← indexAssignOne ops target true
        exec ops table .pop) = indexAssignOne ops target false := by
  simp only [indexAssignOne, bind_assoc, pure_bind, if_true]
  rfl

theorem indexAssignMany_pop (target : StoreTarget) (argc : Nat) :
    (do let _ ← indexAssignMany ops target argc true
        exec ops table .pop) = indexAssignMany ops target argc false := by
  simp only [indexAssignMany, bind_assoc, pure_bind, if_true]
  rfl

theorem storeVarKeep_pop (name : String) :
    (do let _ ← exec ops table (.storeVarKeep name)
        exec ops table .pop) = exec ops table (.storeVar name) := by
  show (⟨_⟩ : Exec W (Flow W)) = ⟨_⟩
  congr 1
  funext ⟨stack, function, unpackFrames, pendingNamedMeta, env⟩
  cases stack <;> rfl

theorem storeLocalKeep_pop {slot : Nat} (h : d.stack = [] ∨ (d.local? slot).isSome) :
    (do let _ ← exec ops table (.storeLocalKeep slot)
        exec ops table .pop).run d = (exec ops table (.storeLocal slot)).run d := by
  rcases hstack : d.stack with _ | ⟨v, stack⟩
  · simp [exec, execPlain, peek, pop1, run_bind, hstack]
  · have hlocal : (d.local? slot).isSome := h.resolve_left (by simp [hstack])
    rcases hfunction : d.function with _ | a
    · simp [Data.local?, hfunction] at hlocal
    · rcases hslot : a.locals[slot]? with _ | s
      · simp [Data.local?, hfunction, hslot] at hlocal
      · cases s with
        | value w =>
          simp [exec, execPlain, peek, pop1, run_bind, hstack, writeLocal, localSlot,
            currentFunction, hfunction, hslot]
          rfl
        | cell w =>
          simp [exec, execPlain, peek, pop1, run_bind, hstack, writeLocal, localSlot,
            currentFunction, hfunction, hslot, getEnv, setEnv]
          rfl

theorem storeCaptureKeep_pop {i : Nat}
    (h : d.stack = [] ∨ (d.function.bind fun a => a.captures[i]?).isSome) :
    (do let _ ← exec ops table (.storeCaptureKeep i)
        exec ops table .pop).run d = (exec ops table (.storeCapture i)).run d := by
  rcases hstack : d.stack with _ | ⟨v, stack⟩
  · simp [exec, execPlain, peek, pop1, run_bind, hstack]
  · have hcapture := h.resolve_left (by simp [hstack])
    rcases hfunction : d.function with _ | a
    · simp [hfunction] at hcapture
    · rcases hcell : a.captures[i]? with _ | cell
      · simp [hfunction, hcell] at hcapture
      · simp [exec, execPlain, peek, pop1, run_bind, hstack, writeCapture, captureCell,
          currentFunction, hfunction, hcell, getEnv, setEnv]
        rfl

/-- A comparison and the branch on it. -/
theorem binaryOp_jumpIfFalse (op : BinaryOperator) (left right : Operand) (target : Nat) :
    (do let _ ← exec ops table (.binaryOp op left right)
        exec ops table (.jumpIfFalse target)) =
      jumpUnless target <$> (do condition (← binaryOp ops op left right)) := by
  simp only [exec, execPlain, map_eq_pure_bind, bind_assoc, pure_bind]
  rfl

/-- Where an operator answers on the integers at hand, so does another one. -/
theorem tryIntOperands_some {α β : Type} {left right : Operand} {eval : Int64 → Int64 → Option α}
    {eval' : Int64 → Int64 → Option β} {f : α → β}
    (hf : ∀ x y r, eval x y = some r → eval' x y = some (f r)) {r : α} {d' : Data W}
    (h : (tryIntOperands left right eval).run d = .ok (some r) d') :
    (tryIntOperands left right eval').run d = .ok (some (f r)) d' := by
  unfold tryIntOperands at h ⊢
  dsimp only at h ⊢
  split at h
  · cases h
  next hcount =>
    rw [if_neg hcount]
    split at h
    next y x hy hx =>
      split at h
      next result hresult =>
        cases h
        rw [hf x y _ hresult]
      next => cases h
    next => cases h

/-- The fused condition is the condition on the value of the operator. -/
theorem evalCmpBranchCondition_run (op : BinaryOperator) (left right : Operand) (d : Data W) :
    (evalCmpBranchCondition ops op left right).run d =
      (do condition (← binaryOp ops op left right)).run d := by
  rw [evalCmpBranchCondition]
  rcases tryIntOperands_cases ops left right (evalIntComparison op) d with
    h | ⟨x, y, r, hr, -, h⟩
  · rw [run_bind_ok h]
  · have heval : ∀ x y r, evalIntComparison op x y = some r →
        evalIntBinary ops op x y = some (.bool r) := fun _ _ _ => evalIntBinary_comparison
    have hbinary := tryIntOperands_some heval h
    rw [run_bind_ok h, run_bind, binaryOp, run_bind_ok hbinary]
    rfl

theorem jumpIfCmpFalse_run (op : BinaryOperator) (left right : Operand) (target : Nat) (d : Data W) :
    (exec ops table (.jumpIfCmpFalse op left right target)).run d =
      (do let _ ← exec ops table (.binaryOp op left right)
          exec ops table (.jumpIfFalse target)).run d := by
  rw [binaryOp_jumpIfFalse, map_eq_pure_bind, run_bind, ← evalCmpBranchCondition_run]
  rfl

/-- Without two integers at hand, an operator is `eval_binary`. -/
theorem binaryOp_of_others {op : BinaryOperator} {left right : Operand}
    (h : ∀ x y d', (resolveOperands ops left right).run d ≠ .ok (.int x, .int y) d') :
    (binaryOp ops op left right).run d =
      (do let (l, r) ← resolveOperands ops left right
          liftResult (evalBinary ops op l r)).run d := by
  rw [binaryOp]
  rcases tryIntOperands_cases ops left right (evalIntBinary ops op) d with
    hnone | ⟨x, y, -, -, hresolve, -⟩
  · rw [run_bind_ok hnone]
  · exact absurd hresolve (h x y _)

theorem intOperand_local {slot : Nat} {n : Int64} (h : d.local? slot = some (.int n)) (depth : Nat) :
    intOperand (.local_ slot) depth d = some n := by
  obtain ⟨a, ha, h⟩ := Option.bind_eq_some_iff.mp h
  obtain ⟨s, hs, h⟩ := Option.bind_eq_some_iff.mp h
  have hslot : (d.function.bind fun a => a.locals[slot]?) = some s := by rw [ha]; exact hs
  have hread : s.read d.env = .int n := Option.some.inj h
  simp only [intOperand, hslot, hread]

theorem jumpIfGE_run (target : Nat) (h : d.stack.length ≠ 1) :
    (exec ops table (.jumpIfGE target)).run d =
      (do let _ ← exec ops table (.binaryOp .lt .stack .stack)
          exec ops table (.jumpIfFalse target)).run d := by
  rw [binaryOp_jumpIfFalse, map_eq_pure_bind]
  obtain ⟨stack, function, unpackFrames, pendingNamedMeta, env⟩ := d
  rcases stack with _ | ⟨right, _ | ⟨left, stack⟩⟩
  · rfl
  · exact absurd rfl h
  · rcases tryIntOperands_cases ops .stack .stack (evalIntBinary ops .lt)
      ⟨right :: left :: stack, function, unpackFrames, pendingNamedMeta, env⟩ with
      hnone | ⟨x, y, -, -, hresolve, -⟩
    · rw [run_bind, run_bind, binaryOp, run_bind_ok hnone]
      show (execPlain ops table (.jumpIfGE target)).run _ = _
      rw [jumpIfGE_generic]
      simp only [generic, pop2, run_bind, pushBinary_jumpIfFalse]
      show (jumpUnless target <$> comparison ops .lt left right).run _ = _
      rw [comparison, map_eq_pure_bind, run_bind, run_bind]
      rfl
    · cases hresolve
      rfl

theorem jumpIfLEZLocal_run_pair (slot target : Nat) (h : ¬TestsNaN d (.jumpIfLEZLocal slot target)) :
    (exec ops table (.jumpIfLEZLocal slot target)).run d =
      (do let _ ← exec ops table (.binaryOp .gt (.local_ slot) (.const (.int 0)))
          exec ops table (.jumpIfFalse target)).run d := by
  rw [binaryOp_jumpIfFalse, map_eq_pure_bind, run_bind]
  have hread := readLocal_local? slot d
  rcases hlocal : d.local? slot with _ | v
  · rw [hlocal] at hread
    have hresolve : (resolveOperands ops (.local_ slot) (.const (.int 0))).run d = .error .vm d :=
      run_bind_error hread _
    have hbinary : (binaryOp ops .gt (.local_ slot) (.const (.int 0))).run d = .error .vm d := by
      rw [binaryOp_of_others ops fun x y d' => by rw [hresolve]; simp]
      exact run_bind_error hresolve _
    rw [run_bind_error hbinary]
    exact run_bind_error hread _
  · rw [hlocal] at hread
    have hresolve : (resolveOperands ops (.local_ slot) (.const (.int 0))).run d =
        .ok (v, .int 0) d := run_bind_ok hread _
    refine (run_bind_ok hread _).trans ?_
    split
    · rename_i n
      have hints : (tryIntOperands (.local_ slot) (.const (.int 0)) (evalIntBinary ops .gt)).run d =
          .ok (some (.bool (decide (0 < n.toInt)))) d := by
        have hzero : intOperand (.const (.int 0)) 0 d = some 0 := rfl
        have hlocal := intOperand_local hlocal 0
        simp [tryIntOperands, stackCount, hzero, hlocal, evalIntBinary]
      rw [run_bind, binaryOp, run_bind_ok hints]
      rfl
    · rename_i f
      have hnan : f.isNaN = false := Bool.eq_false_iff.mpr fun hnan => h ⟨f, hlocal, hnan⟩
      have hcmp : f.partialCmp (F64.ofInt 0) = some (compare f.rank (F64.ofInt 0).rank) := by
        rw [partialCmp_zero, if_neg (by rw [hnan]; decide)]
      have hgt : evalBinary ops .gt (.float f) (.int 0) =
          .ok (.bool (decide (compare f.rank (F64.ofInt 0).rank = .gt))) := by
        rw [evalBinary_gt_zero, hcmp]
      rw [run_bind, binaryOp_of_others ops fun x y d' => by rw [hresolve]; simp,
        run_bind_ok hresolve]
      dsimp only
      rw [hgt, hcmp]
      cases compare f.rank (F64.ofInt 0).rank <;> rfl
    · rw [← evalCmpBranchCondition_run]
      rfl

theorem gtZeroSlot_some {op : BinaryOperator} {left right : Operand} {slot : Nat}
    (h : Fuse.gtZeroSlot op left right = some slot) :
    op = .gt ∧ left = .local_ slot ∧ right = .const (.int 0) := by
  unfold Fuse.gtZeroSlot at h
  split at h
  next slot' n =>
    split at h
    next hn =>
      cases h
      exact ⟨rfl, rfl, hn ▸ rfl⟩
    next => cases h
  next => cases h

theorem isStackLt_true {op : BinaryOperator} {left right : Operand}
    (h : Fuse.isStackLt op left right = true) : op = .lt ∧ left = .stack ∧ right = .stack := by
  unfold Fuse.isStackLt at h
  split at h
  · exact ⟨rfl, rfl, rfl⟩
  · cases h

/-- A branch on a comparison. -/
theorem exec_branchPair (h : Fuse.branchPair a b = some c) (hfuses : FusesOn d a c) :
    (exec ops table c).run d =
      (do let _ ← exec ops table a
          exec ops table b).run d := by
  unfold Fuse.branchPair at h
  split at h
  next op left right target =>
    cases hslot : Fuse.gtZeroSlot op left right with
    | some slot =>
      obtain ⟨rfl, rfl, rfl⟩ := gtZeroSlot_some hslot
      rw [hslot] at h
      cases h
      exact jumpIfLEZLocal_run_pair ops table slot target hfuses
    | none =>
      rw [hslot] at h
      dsimp only at h
      split at h
      next hlt =>
        obtain ⟨rfl, rfl, rfl⟩ := isStackLt_true hlt
        cases h
        exact jumpIfGE_run ops table target hfuses
      next =>
        split at h
        next =>
          cases h
          exact jumpIfCmpFalse_run ops table op left right target d
        next => cases h
  next => cases h

/-- An instruction before a `pop`. -/
theorem exec_dropPair (h : Fuse.dropPair a b = some (some c)) (hfuses : FusesOn d a c) :
    (exec ops table c).run d =
      (do let _ ← exec ops table a
          exec ops table b).run d := by
  unfold Fuse.dropPair at h
  split at h
  all_goals cases h
  next slot => exact (storeLocalKeep_pop ops table hfuses).symm
  next name => exact congrArg (Exec.run · d) (storeVarKeep_pop ops table name).symm
  next i => exact (storeCaptureKeep_pop ops table hfuses).symm
  next slot => exact congrArg (Exec.run · d) (indexAssignOne_pop ops table (.local_ slot)).symm
  next slot argc =>
    exact congrArg (Exec.run · d) (indexAssignMany_pop ops table (.local_ slot) argc).symm
  next i => exact congrArg (Exec.run · d) (indexAssignOne_pop ops table (.capture i)).symm
  next i argc =>
    exact congrArg (Exec.run · d) (indexAssignMany_pop ops table (.capture i) argc).symm
  next name => exact congrArg (Exec.run · d) (indexAssignOne_pop ops table (.var name)).symm
  next name argc =>
    exact congrArg (Exec.run · d) (indexAssignMany_pop ops table (.var name) argc).symm

/-- **Fused instructions.** The one instruction does what the two do. -/
theorem exec_pairs (h : Fuse.Pairs a b c) (hfuses : FusesOn d a c) :
    (exec ops table c).run d =
      (do let _ ← exec ops table a
          exec ops table b).run d := by
  cases h with
  | drop h => exact exec_dropPair ops table h hfuses
  | branch h => exact exec_branchPair ops table h hfuses

/-- The first instruction of a pair goes on to the second. -/
theorem returns_next (h : Fuse.Pairs a b c) : Returns (· = .next) (exec ops table a) := by
  have hthen : ∀ {α : Type} (m : Exec W α),
      Returns (· = .next) (m >>= fun _ => pure (.next : Flow W)) :=
    fun m => Returns.bind fun _ => returns_pure rfl
  cases h with
  | drop h =>
    unfold Fuse.dropPair at h
    split at h
    all_goals cases h
    case h_2 | h_3 | h_4 => exact Returns.bind fun _ => hthen _
    case h_5 | h_7 | h_9 => exact returns_indexAssignOne (P := (· = .next)) ops rfl _ _
    case h_6 | h_8 | h_10 => exact returns_indexAssignMany (P := (· = .next)) ops rfl _ _ _
  | branch h =>
    unfold Fuse.branchPair at h
    split at h
    · exact Returns.bind fun _ => hthen _
    · cases h

end Pairs

end Exec

end Wqpl
