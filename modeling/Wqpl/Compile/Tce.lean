/-
# Tail calls

A call followed by a return becomes a tail call, unless it lies in the body of
a try region that the pass goes over (`rewriteTailCallsInSlice`). The tail form
of a call does what the call does, with the frame used again
(`exec_tailCallInstruction`), except for some callees: it refuses a symbolic
expression, and under a name also a composed callable and a random generator,
which the call accepts (`Instruction.tailRefuses`).
-/
import Wqpl.Vm.Effect
import Wqpl.Vm.Flow
import Wqpl.Vm.Step

namespace Wqpl

/-- `tail_call_instruction`. -/
def tailCallInstruction : Instruction → Option Instruction
  | .callLocal slot argc => some (.tailCallLocal slot argc)
  | .callUser name argc => some (.tailCallUser name argc)
  | .callAnon argc => some (.tailCallAnon argc)
  | .postfix_ argc => some (.tailPostfix argc)
  | .namedCall call metadata => (tailCallInstruction call).map (.namedCall · metadata)
  | _ => none

/-- The pass from some place on, the next `skip` instructions of which are the
rest of a try region. -/
def rewriteTailCallsFrom : Nat → List Instruction → List Instruction
  | _, [] => []
  | skip + 1, i :: code => i :: rewriteTailCallsFrom skip code
  | 0, .try_ len :: code => .try_ len :: rewriteTailCallsFrom len code
  | 0, i :: .return_ :: code =>
    (tailCallInstruction i).getD i :: rewriteTailCallsFrom 0 (.return_ :: code)
  | 0, i :: code => i :: rewriteTailCallsFrom 0 code

/-- `rewrite_tail_calls_in_slice`. -/
def rewriteTailCallsInSlice (code : List Instruction) : List Instruction :=
  rewriteTailCallsFrom 0 code

def FnShape.rewriteTailCalls (f : FnShape) : FnShape :=
  { f with instructions := rewriteTailCallsInSlice f.instructions }

/-- Some functions of the table are rewritten. -/
def TailCallsRewritten (table table' : FnTable) : Prop :=
  ∀ fn, table' fn = table fn ∨ table' fn = (table fn).rewriteTailCalls

/-! ### What is rewritten -/

theorem rewriteTailCallsFrom_length (skip : Nat) (code : List Instruction) :
    (rewriteTailCallsFrom skip code).length = code.length := by
  fun_induction rewriteTailCallsFrom skip code <;> simp_all

/-- An instruction stays, or it is a call before a return and becomes its tail
form. -/
theorem rewriteTailCallsFrom_getElem? (skip : Nat) (code : List Instruction) (k : Nat) :
    (rewriteTailCallsFrom skip code)[k]? = code[k]? ∨
      ∃ i i', code[k]? = some i ∧ (rewriteTailCallsFrom skip code)[k]? = some i' ∧
        tailCallInstruction i = some i' ∧ code[k + 1]? = some .return_ := by
  fun_induction rewriteTailCallsFrom skip code generalizing k with
  | case1 skip => exact .inl rfl
  | case2 skip i code ih =>
    cases k with
    | zero => exact .inl rfl
    | succ k => exact ih k
  | case3 len code ih =>
    cases k with
    | zero => exact .inl rfl
    | succ k => exact ih k
  | case4 i code _ ih =>
    cases k with
    | zero =>
      cases htail : tailCallInstruction i with
      | none => exact .inl (by simp)
      | some i' => exact .inr ⟨i, i', rfl, by simp, htail, rfl⟩
    | succ k => exact ih k
  | case5 i code _ _ ih =>
    cases k with
    | zero => exact .inl rfl
    | succ k => exact ih k

theorem rewriteTailCallsFrom_skip {skip : Nat} {code : List Instruction} {k : Nat} (h : k < skip) :
    (rewriteTailCallsFrom skip code)[k]? = code[k]? := by
  induction code generalizing skip k with
  | nil => simp [rewriteTailCallsFrom]
  | cons i code ih =>
    obtain ⟨skip, rfl⟩ : ∃ n, skip = n + 1 := ⟨skip - 1, by omega⟩
    rw [rewriteTailCallsFrom]
    cases k with
    | zero => rfl
    | succ k =>
      rw [List.getElem?_cons_succ, List.getElem?_cons_succ]
      exact ih (by omega)

/-- Try regions that begin in another one end there. -/
def TriesNest (code : List Instruction) : Prop :=
  ∀ p len q len', code[p]? = some (Instruction.try_ len) → p < q → q ≤ p + len →
    code[q]? = some (Instruction.try_ len') → q + len' ≤ p + len

theorem TriesNest.tail {i : Instruction} {code : List Instruction} (h : TriesNest (i :: code)) :
    TriesNest code := by
  intro p len q len' hp hpq hq hq'
  have hle := h (p + 1) len (q + 1) len' hp (by omega) (by omega) hq'
  omega

/-- Nothing in the body of a try region is rewritten. -/
theorem rewriteTailCallsFrom_try (skip : Nat) (code : List Instruction) (hnest : TriesNest code)
    (hskip : ∀ p len, p < skip → code[p]? = some (.try_ len) → p + len < skip) {p len k : Nat}
    (hp : code[p]? = some (.try_ len)) (hpk : p < k) (hk : k ≤ p + len) :
    (rewriteTailCallsFrom skip code)[k]? = code[k]? := by
  obtain ⟨k, rfl⟩ : ∃ n, k = n + 1 := ⟨k - 1, by omega⟩
  fun_induction rewriteTailCallsFrom skip code generalizing p k with
  | case1 skip => rfl
  | case2 skip i code ih =>
    rw [List.getElem?_cons_succ, List.getElem?_cons_succ]
    cases p with
    | zero =>
      have hlen := hskip 0 len (Nat.succ_pos skip) hp
      exact rewriteTailCallsFrom_skip (by omega)
    | succ p =>
      obtain ⟨k, rfl⟩ : ∃ n, k = n + 1 := ⟨k - 1, by omega⟩
      refine ih hnest.tail (fun q len hq htry => ?_) hp k (by omega) (by omega)
      have hlt := hskip (q + 1) len (by omega) htry
      omega
  | case3 len' code ih =>
    rw [List.getElem?_cons_succ, List.getElem?_cons_succ]
    cases p with
    | zero =>
      obtain rfl : len' = len := by
        cases hp
        rfl
      exact rewriteTailCallsFrom_skip (by omega)
    | succ p =>
      obtain ⟨k, rfl⟩ : ∃ n, k = n + 1 := ⟨k - 1, by omega⟩
      refine ih hnest.tail (fun q len hq htry => ?_) hp k (by omega) (by omega)
      have hle := hnest 0 len' (q + 1) len rfl (by omega) (by omega) htry
      omega
  | case4 i code hi ih =>
    rw [List.getElem?_cons_succ, List.getElem?_cons_succ]
    cases p with
    | zero => exact absurd (Option.some.inj hp) (hi len)
    | succ p =>
      obtain ⟨k, rfl⟩ : ∃ n, k = n + 1 := ⟨k - 1, by omega⟩
      exact ih hnest.tail (fun q len hq _ => absurd hq (Nat.not_lt_zero q)) hp k (by omega)
        (by omega)
  | case5 i code hi _ ih =>
    rw [List.getElem?_cons_succ, List.getElem?_cons_succ]
    cases p with
    | zero => exact absurd (Option.some.inj hp) (hi len)
    | succ p =>
      obtain ⟨k, rfl⟩ : ∃ n, k = n + 1 := ⟨k - 1, by omega⟩
      exact ih hnest.tail (fun q len hq _ => absurd hq (Nat.not_lt_zero q)) hp k (by omega)
        (by omega)

/-- **The pass never rewrites a call inside a try body.** -/
theorem rewriteTailCallsInSlice_try {code : List Instruction} (hnest : TriesNest code)
    {p len k : Nat} (hp : code[p]? = some (.try_ len)) (hpk : p < k) (hk : k ≤ p + len) :
    (rewriteTailCallsInSlice code)[k]? = code[k]? :=
  rewriteTailCallsFrom_try 0 code hnest (fun q _ hq _ => absurd hq (Nat.not_lt_zero q)) hp hpk hk

/-! ### What a tail form does -/

/-- The callees that the tail form refuses and the call does not. -/
def Instruction.tailRefuses {W : Type} : Instruction → Data W → Bool
  | .callUser _ argc, d =>
    match d.stack[argc]? with
    | some (.liftedCallable _) | some (.cas _) | some (.rng _) => true
    | _ => false
  | .callAnon argc, d =>
    match d.stack[argc]? with
    | some (.cas _) => true
    | _ => false
  | .namedCall call _, d => call.tailRefuses d
  | _, _ => false

def Flow.toTail {W : Type} : Flow W → Flow W
  | .enter callee argc => .tail callee argc
  | flow => flow

theorem tailCallInstruction_isTailCall {i i' : Instruction} (h : tailCallInstruction i = some i') :
    i'.isTailCall = true := by
  induction i generalizing i' with
  | callLocal => cases h; rfl
  | callUser => cases h; rfl
  | callAnon => cases h; rfl
  | postfix_ => cases h; rfl
  | namedCall call metadata ih =>
    obtain ⟨call', hcall, rfl⟩ := Option.map_eq_some_iff.mp h
    show call'.isTailCall = true
    exact ih hcall
  | _ => cases h

theorem tailCallInstruction_endsUnpack {i i' : Instruction} (h : tailCallInstruction i = some i') :
    i.endsUnpack = false := by
  induction i generalizing i' with
  | namedCall call metadata ih =>
    obtain ⟨call', hcall, _⟩ := Option.map_eq_some_iff.mp h
    exact ih hcall
  | endUnpack => cases h
  | _ => rfl

theorem Instruction.tailRefuses_congr {W : Type} (i : Instruction) {d d' : Data W}
    (h : d.stack = d'.stack) : i.tailRefuses d = i.tailRefuses d' := by
  induction i with
  | callUser name argc =>
    unfold tailRefuses
    rw [h]
  | callAnon argc =>
    unfold tailRefuses
    rw [h]
  | namedCall call metadata ih => exact ih
  | _ => rfl

namespace Exec

variable {W : Type} (ops : Ops W) (table : FnTable)

theorem map_eq_of_returns {α : Type} {g : α → α} {m : Exec W α} (h : Returns (fun a => g a = a) m) :
    g <$> m = m := by
  show (⟨_⟩ : Exec W _) = m
  congr 1
  funext d
  cases hm : m.run d with
  | ok a d' =>
    have ha : g a = a := h d a d' hm
    simp [ha]
  | error e d' => simp

/-- Builtins and values run alike in both forms. -/
theorem toTail_callFlows : CallFlows true fun flow : Flow W => flow.toTail = flow where
  next := rfl
  builtin _ := rfl
  call _ _ := rfl

theorem callUserFunction_toTail (callee : Value) (argc : Nat) :
    (callUserFunction true callee argc : Exec W (Flow W)) =
      Flow.toTail <$> callUserFunction false callee argc := rfl

theorem dispatchPostfix_toTail (target : Value) (argc : Nat) :
    dispatchPostfix ops table true target argc =
      Flow.toTail <$> dispatchPostfix ops table false target argc := by
  have hfix := toTail_callFlows (W := W)
  unfold dispatchPostfix
  split
  next => exact (map_eq_of_returns (hfix.callBuiltinValue ops table _ argc)).symm
  next => exact (map_eq_of_returns (hfix.callRngValue ops _ argc)).symm
  next => exact (map_eq_of_returns (hfix.callLifted ops _ argc)).symm
  next => exact (map_eq_of_returns (hfix.callCasValue ops _ argc)).symm
  next => exact callUserFunction_toTail _ argc
  next => exact callUserFunction_toTail _ argc
  next =>
    refine (map_eq_of_returns ?_).symm
    refine .bind fun m => ?_
    cases m with
    | some m => exact returns_throw .arity
    | none => exact .bind fun _ => .bind fun _ => .bind fun _ => returns_pure rfl

/-- The callees that both forms of a call by value treat alike. -/
theorem dispatchUserValue_toTail {callee : Value} (hcas : ∀ kind, callee ≠ .cas kind)
    (hrng : ∀ h, callee ≠ .rng h) (hlifted : ∀ expr, callee ≠ .liftedCallable expr) (argc : Nat) :
    dispatchUserValue ops true callee argc =
      Flow.toTail <$> dispatchUserValue ops false callee argc := by
  have hthrow : Returns (fun flow : Flow W => flow.toTail = flow)
      (throw .notBound : Exec W (Flow W)) := returns_throw .notBound
  unfold dispatchUserValue
  split
  next => exact callUserFunction_toTail _ argc
  next => exact callUserFunction_toTail _ argc
  next kind => exact absurd rfl (hcas kind)
  next h => exact absurd rfl (hrng h)
  next expr => exact absurd rfl (hlifted expr)
  next => exact (map_eq_of_returns hthrow).symm

theorem dispatchAnonCall_toTail {callee : Value} (hcas : ∀ kind, callee ≠ .cas kind)
    (argc : Nat) : dispatchAnonCall ops table true callee argc =
      Flow.toTail <$> dispatchAnonCall ops table false callee argc := by
  have hfix := toTail_callFlows (W := W)
  unfold dispatchAnonCall
  split
  next => exact (map_eq_of_returns (hfix.callBuiltinValue ops table _ argc)).symm
  next => exact (map_eq_of_returns (hfix.callRngValue ops _ argc)).symm
  next => exact (map_eq_of_returns (hfix.callLifted ops _ argc)).symm
  next hbuiltin hrng hlifted =>
    exact dispatchUserValue_toTail ops hcas hrng hlifted argc

theorem dispatchLoadedLocalCall_toTail (callee : Value) (argc : Nat) :
    dispatchLoadedLocalCall ops table true callee argc =
      Flow.toTail <$> dispatchLoadedLocalCall ops table false callee argc := by
  have hfix := toTail_callFlows (W := W)
  have hthrow : Returns (fun flow : Flow W => flow.toTail = flow)
      (throw .call : Exec W (Flow W)) := returns_throw .call
  unfold dispatchLoadedLocalCall
  split
  next => exact (map_eq_of_returns (hfix.callBuiltinValue ops table _ argc)).symm
  next => exact (map_eq_of_returns (hfix.callRngValue ops _ argc)).symm
  next => exact callUserFunction_toTail _ argc
  next => exact callUserFunction_toTail _ argc
  next => exact (map_eq_of_returns hthrow).symm

theorem dispatchLoadedUserCall_toTail {callee : Value} (hcas : ∀ kind, callee ≠ .cas kind)
    (hrng : ∀ h, callee ≠ .rng h) (hlifted : ∀ expr, callee ≠ .liftedCallable expr) (argc : Nat) :
    dispatchLoadedUserCall ops table true callee argc =
      Flow.toTail <$> dispatchLoadedUserCall ops table false callee argc := by
  have hfix := toTail_callFlows (W := W)
  unfold dispatchLoadedUserCall
  split
  next => exact (map_eq_of_returns (hfix.callBuiltinValue ops table _ argc)).symm
  next => exact callUserFunction_toTail _ argc
  next => exact callUserFunction_toTail _ argc
  next expr => exact absurd rfl (hlifted expr)
  next kind => exact absurd rfl (hcas kind)
  next h => exact absurd rfl (hrng h)
  next => exact (map_eq_of_returns (.bind fun _ => returns_throw .call)).symm

/-- The callee of a call is the value under the arguments. -/
theorem popUnder_bind_congr {α : Type} {argc : Nat} {f f' : Value → Exec W α} {g : α → α}
    {d : Data W} (h : ∀ v, d.stack[argc]? = some v → f' v = g <$> f v) :
    (popUnder argc >>= f').run d = (g <$> (popUnder argc >>= f)).run d := by
  rw [map_bind, run_bind, run_bind]
  cases hpop : (popUnder argc : Exec W Value).run d with
  | error e d' => rfl
  | ok v d' =>
    have hv : d.stack[argc]? = some v := by
      unfold popUnder ensureStackLen at hpop
      rw [run_bind] at hpop
      by_cases hlen : d.stack.length < argc + 1
      · simp [hlen] at hpop
      · simp only [hlen, if_false] at hpop
        cases hget : d.stack[argc]? with
        | none => simp [hget] at hpop
        | some w =>
          simp only [hget, ExecResult.ok.injEq] at hpop
          rw [hpop.1]
    show (f' v).run d' = (g <$> f v).run d'
    rw [h v hv]

theorem execPlain_tailCallInstruction {i i' : Instruction} (h : tailCallInstruction i = some i')
    {d : Data W} (hrefuse : i.tailRefuses d = false) :
    (execPlain ops table i').run d = (Flow.toTail <$> execPlain ops table i).run d := by
  cases i with
  | callLocal slot argc =>
    cases h
    exact popUnder_bind_congr fun v _ => dispatchLoadedLocalCall_toTail ops table v argc
  | callUser name argc =>
    cases h
    refine popUnder_bind_congr fun v hv => dispatchLoadedUserCall_toTail ops table ?_ ?_ ?_ argc
    · rintro kind rfl
      simp [Instruction.tailRefuses, hv] at hrefuse
    · rintro h rfl
      simp [Instruction.tailRefuses, hv] at hrefuse
    · rintro expr rfl
      simp [Instruction.tailRefuses, hv] at hrefuse
  | callAnon argc =>
    cases h
    refine popUnder_bind_congr fun v hv => dispatchAnonCall_toTail ops table ?_ argc
    rintro kind rfl
    simp [Instruction.tailRefuses, hv] at hrefuse
  | postfix_ argc =>
    cases h
    exact popUnder_bind_congr fun v _ => dispatchPostfix_toTail ops table v argc
  | namedCall call metadata =>
    obtain ⟨call', _, rfl⟩ := Option.map_eq_some_iff.mp h
    rfl
  | _ => cases h

/-- **A tail form does what the call does**, and reuses the frame for the callee. -/
theorem exec_tailCallInstruction {i i' : Instruction} (h : tailCallInstruction i = some i')
    {d : Data W} (hrefuse : i.tailRefuses d = false) :
    (exec ops table i').run d = (Flow.toTail <$> exec ops table i).run d := by
  cases i with
  | namedCall call metadata =>
    obtain ⟨call', hcall, rfl⟩ := Option.map_eq_some_iff.mp h
    have hcongr : call.tailRefuses d =
        call.tailRefuses { d with pendingNamedMeta := some metadata } := call.tailRefuses_congr rfl
    exact execPlain_tailCallInstruction ops table hcall (hcongr.symm.trans hrefuse)
  | callLocal slot argc =>
    cases h
    exact execPlain_tailCallInstruction ops table rfl hrefuse
  | callUser name argc =>
    cases h
    exact execPlain_tailCallInstruction ops table rfl hrefuse
  | callAnon argc =>
    cases h
    exact execPlain_tailCallInstruction ops table rfl hrefuse
  | postfix_ argc =>
    cases h
    exact execPlain_tailCallInstruction ops table rfl hrefuse
  | _ => cases h

end Exec

end Wqpl
