/-
# The code of a callback follows its plan

As long as the expressions on the stack of a plan have values, these are the
values on the stack of the machine, and the locals and captures agree in the
same way (`Mirrors`). An instruction keeps this, fails where the expression it
computes is an error, and is left alone where that expression gives up
(`planInst_follows`).
-/
import Wqpl.Vm.Pure

namespace Wqpl

open Exec

/-- The fast path on two integers answers as the operator does. -/
def IntFastPath {W : Type} (ops : Ops W) : Prop :=
  ∀ (op : BinaryOperator) (x y : Int64) (v : Value), evalIntBinary ops op x y = some v →
    evalBinary ops op (.int x) (.int y) = .ok v

/-- Equations and predicates have no items. -/
structure IndexesNoCas {W : Type} (ops : Ops W) : Prop where
  index : ∀ kind key, ops.index (.cas kind) key = none
  indexMany : ∀ kind keys, ops.indexMany (.cas kind) keys = none

theorem IndexesNoCas.indexValue {W : Type} {ops : Ops W} (h : IndexesNoCas ops) (kind : CasKind) :
    ∀ keys : List Value, PureExpr.indexValue ops (.cas kind) keys = none
  | [] => h.indexMany kind []
  | [key] => h.index kind key
  | key :: key' :: keys => h.indexMany kind (key :: key' :: keys)

/-- Without some of its upper values. -/
def Data.drop {W : Type} (d : Data W) (n : Nat) : Data W := { d with stack := d.stack.drop n }

/-! ### Operands -/

section Operands

variable {W : Type} {ops : Ops W} {d d' d'' : Data W}

theorem readLocal_run {a : Activation} {slot : Nat} {s : Slot} (ha : d.function = some a)
    (hs : a.locals[slot]? = some s) : (readLocal slot).run d = .ok (s.read d.env) d := by
  have hslot : (localSlot slot).run d = .ok s d := by
    rw [localSlot, currentFunction, run_bind]
    simp only [ha, hs, run_pure]
  rw [readLocal, run_bind_ok hslot]
  rfl

theorem readCapture_run {a : Activation} {i : Nat} {c : CellId} (ha : d.function = some a)
    (hc : a.captures[i]? = some c) : (readCapture i).run d = .ok (d.env.readCell c) d := by
  have hcell : (captureCell i).run d = .ok c d := by
    rw [captureCell, currentFunction, run_bind]
    simp only [ha, hc, run_pure]
  rw [readCapture, run_bind_ok hcell]
  rfl

theorem intOperand_depth (operand : Operand) (depth : Nat) (d : Data W) :
    intOperand operand depth d = intOperand operand 0 (d.drop depth) := by
  rcases operand with _ | c | _ | _ | _ | _
  · simp only [intOperand, Data.drop, List.getElem?_drop, Nat.add_zero]
  · rcases c <;> rfl
  all_goals rfl

theorem intOperand_resolve {operand : Operand} {v : Value} {n : Int64}
    (h : (resolveOperand ops operand).run d = .ok v d') (hn : intOperand operand 0 d = some n) :
    v = .int n := by
  rcases operand with _ | c | slot | i | name | _
  · rw [resolveOperand, pop1] at h
    rw [intOperand] at hn
    rcases hstack : d.stack with _ | ⟨w, stack⟩
    · simp [hstack] at hn
    · simp only [hstack, ExecResult.ok.injEq] at h
      simp only [hstack, List.getElem?_cons_zero] at hn
      split at hn
      · rename_i hw
        obtain rfl := Option.some.inj hn
        rw [← h.1]
        exact Option.some.inj hw
      · exact absurd hn (by simp)
  · rw [resolveOperand, run_pure, ExecResult.ok.injEq] at h
    rw [← h.1]
    rcases c with n' | _ | _ | _ | _ | _ | _ | _ | _ | _ | _ | _ | _ | _ | _ | _ | _ | _ | _ | _ | _ | _ | _ <;>
      simp only [intOperand, Option.some.injEq, reduceCtorEq] at hn
    rw [hn]
  · rw [intOperand] at hn
    rcases hslot : d.function.bind (fun a => a.locals[slot]?) with _ | s
    · simp [hslot] at hn
    · obtain ⟨a, ha, hs⟩ := Option.bind_eq_some_iff.mp hslot
      rw [resolveOperand, readLocal_run ha hs, ExecResult.ok.injEq] at h
      simp only [hslot] at hn
      split at hn
      · rename_i hread
        obtain rfl := Option.some.inj hn
        rw [← h.1, hread]
      · exact absurd hn (by simp)
  all_goals simp [intOperand] at hn

/-- Both operands, where each resolves to its value. -/
theorem resolveOperands_run {left right : Operand} {l r : Value}
    (hr : (resolveOperand ops right).run d = .ok r d')
    (hl : (resolveOperand ops left).run d' = .ok l d'') :
    (resolveOperands ops left right).run d = .ok (l, r) d'' := by
  rw [resolveOperands, run_bind_ok hr, run_bind_ok hl, run_pure]

/-- The fast path does nothing, or answers for the values of the operands. -/
theorem tryIntOperands_run {α : Type} {left right : Operand} {l r : Value}
    (eval : Int64 → Int64 → Option α)
    (hr : (resolveOperand ops right).run d = .ok r (d.drop (stackCount right)))
    (hl : (resolveOperand ops left).run (d.drop (stackCount right)) =
      .ok l (d.drop (stackCount left + stackCount right))) :
    (tryIntOperands left right eval).run d = .ok none d ∨
      ∃ x y a, l = .int x ∧ r = .int y ∧ eval x y = some a ∧
        (tryIntOperands left right eval).run d =
          .ok (some a) (d.drop (stackCount left + stackCount right)) := by
  rw [tryIntOperands]
  dsimp only
  split
  · exact .inl rfl
  · rcases hy : intOperand right 0 d with _ | y
    · exact .inl rfl
    · rcases hx : intOperand left (stackCount right) d with _ | x
      · exact .inl rfl
      · rcases ha : eval x y with _ | a
        · simp [ha]
        · rw [intOperand_depth] at hx
          have hl' : l = .int x := intOperand_resolve hl hx
          have hr' : r = .int y := intOperand_resolve hr hy
          refine .inr ⟨x, y, a, hl', hr', ha, ?_⟩
          simp only [ha]
          rfl

/-- A binary operator is `eval_binary` on the values of its operands. -/
theorem binaryOp_run (hfast : IntFastPath ops) (op : BinaryOperator)
    {left right : Operand} {l r : Value}
    (hr : (resolveOperand ops right).run d = .ok r (d.drop (stackCount right)))
    (hl : (resolveOperand ops left).run (d.drop (stackCount right)) =
      .ok l (d.drop (stackCount left + stackCount right))) :
    (binaryOp ops op left right).run d =
      (liftResult (evalBinary ops op l r)).run (d.drop (stackCount left + stackCount right)) := by
  rw [binaryOp]
  rcases tryIntOperands_run (evalIntBinary ops op) hr hl with h | ⟨x, y, v, rfl, rfl, hv, h⟩
  · rw [run_bind_ok h]
    exact run_bind_ok (resolveOperands_run hr hl) _
  · rw [run_bind_ok h, hfast op x y v hv]
    rfl

end Operands

/-! ### Stacks of expressions and stacks of values -/

section Mirrors

variable {W : Type} (ops : Ops W) (substituteCas : SubstituteCas) (env : Env W)
  (args : List Value) (captures : List CellId)

/-- The expression has the value. -/
def HasValue (e : PureExpr) (v : Value) : Prop := e.eval ops substituteCas env args = .ok (some v)

/-- A local holds a value, that of its expression if it has one. -/
def MirrorsLocal (o : Option PureExpr) (s : Slot) : Prop :=
  ∃ v, s = .value v ∧ ∀ e, o = some e → HasValue ops substituteCas env args e v

/-- The data of a frame at the point where planning has come to a state. -/
structure Mirrors (frames : List (List Value)) (st : PlanState) (d : Data W) : Prop where
  stack : List.Forall₂ (HasValue ops substituteCas env args) st.stack d.stack
  locals : ∃ a, d.function = some a ∧ a.captures = captures ∧
    List.Forall₂ (MirrorsLocal ops substituteCas env args) st.locals a.locals
  env : d.env = env
  unpackFrames : d.unpackFrames = frames
  pending : d.pendingNamedMeta = none

/-- How an instruction follows its plan: it leaves the data of the next state;
it fails and the expression it computes does; or that expression gives up and
nothing is said. -/
inductive Follows (frames : List (List Value)) (st : PlanState) (d : Data W) :
    ExecResult W (Flow W) → Prop
  | mirrors {d' : Data W} (h : Mirrors ops substituteCas env args captures frames st d') :
      Follows frames st d (.ok .next d')
  | fails {e : PureExpr} {err err' : WqErrorType} {stack : List Value}
      (htop : st.stack.head? = some e)
      (he : e.eval ops substituteCas env args = .error err) :
      Follows frames st d (.error err' { d with stack })
  | callable {e : PureExpr} {r : ExecResult W (Flow W)} (htop : st.stack.head? = some e)
      (he : e.eval ops substituteCas env args = .ok none) : Follows frames st d r

variable {ops substituteCas env args captures} {frames : List (List Value)} {st st' : PlanState}
  {d d' : Data W}

theorem forall₂_getElem? {α β : Type} {R : α → β → Prop} {xs : List α} {ys : List β} {i : Nat}
    {x : α} (h : List.Forall₂ R xs ys) (hx : xs[i]? = some x) : ∃ y, ys[i]? = some y ∧ R x y := by
  induction h generalizing i with
  | nil => exact absurd hx (by simp)
  | cons hr _ ih =>
    rcases i with _ | i
    · exact ⟨_, rfl, Option.some.inj hx ▸ hr⟩
    · exact ih hx

theorem forall₂_set {α β : Type} {R : α → β → Prop} {x : α} {y : β} (h : R x y) :
    ∀ {xs : List α} {ys : List β} (i : Nat), List.Forall₂ R xs ys →
      List.Forall₂ R (xs.set i x) (ys.set i y)
  | _, _, _, .nil => .nil
  | _, _, 0, .cons _ hrs => .cons h hrs
  | _, _, i + 1, .cons hr hrs => .cons hr (forall₂_set h i hrs)

theorem Mirrors.push (h : Mirrors ops substituteCas env args captures frames st d) {e : PureExpr}
    {v : Value} (he : HasValue ops substituteCas env args e v) :
    Mirrors ops substituteCas env args captures frames { st with stack := e :: st.stack }
      { d with stack := v :: d.stack } :=
  ⟨.cons he h.stack, h.locals, h.env, h.unpackFrames, h.pending⟩

theorem Mirrors.drop (h : Mirrors ops substituteCas env args captures frames st d) (n : Nat) :
    Mirrors ops substituteCas env args captures frames { st with stack := st.stack.drop n }
      (d.drop n) :=
  ⟨List.forall₂_drop n h.stack, h.locals, h.env, h.unpackFrames, h.pending⟩

/-- The top of both stacks. -/
theorem Mirrors.pop (h : Mirrors ops substituteCas env args captures frames st d) {e : PureExpr}
    {rest : List PureExpr} (hstack : st.stack = e :: rest) :
    ∃ v vs, d.stack = v :: vs ∧ HasValue ops substituteCas env args e v ∧
      Mirrors ops substituteCas env args captures frames { st with stack := rest }
        { d with stack := vs } := by
  have hs := h.stack
  rw [hstack] at hs
  rcases hd : d.stack with _ | ⟨v, vs⟩
  · rw [hd] at hs
    exact absurd hs (by simp)
  · rw [hd, List.forall₂_cons] at hs
    exact ⟨v, vs, rfl, hs.1, hs.2, h.locals, h.env, h.unpackFrames, h.pending⟩

theorem Mirrors.local_ (h : Mirrors ops substituteCas env args captures frames st d) {slot : Nat}
    {e : PureExpr} (he : PureCallback.localExpr st.locals slot = some e) :
    ∃ v, HasValue ops substituteCas env args e v ∧ (readLocal slot).run d = .ok v d := by
  obtain ⟨a, ha, -, hlocals⟩ := h.locals
  rw [PureCallback.localExpr, Option.join_eq_some_iff] at he
  obtain ⟨s, hs, v, rfl, hv⟩ := forall₂_getElem? hlocals he
  exact ⟨v, hv e rfl, readLocal_run ha hs⟩

theorem Mirrors.capture (h : Mirrors ops substituteCas env args captures frames st d) {i : Nat}
    {e : PureExpr} (he : PureCallback.captureExpr captures i = some e) :
    ∃ v, HasValue ops substituteCas env args e v ∧ (readCapture i).run d = .ok v d := by
  obtain ⟨a, ha, hcaptures, -⟩ := h.locals
  obtain ⟨c, hc, rfl⟩ := Option.map_eq_some_iff.mp he
  rw [← hcaptures] at hc
  have hrun := readCapture_run ha hc
  rw [h.env] at hrun
  exact ⟨env.readCell c, rfl, hrun⟩

/-- A store of a value that an expression has. -/
theorem Mirrors.store (h : Mirrors ops substituteCas env args captures frames st d) {slot : Nat}
    (hslot : slot < st.locals.length) {e : PureExpr} {v : Value}
    (he : HasValue ops substituteCas env args e v) :
    ∃ d', (writeLocal slot v).run d = .ok () d' ∧ d'.stack = d.stack ∧
      Mirrors ops substituteCas env args captures frames
        { st with locals := st.locals.set slot (some e) } d' := by
  obtain ⟨a, ha, hcaptures, hlocals⟩ := h.locals
  obtain ⟨o, ho⟩ : ∃ o, st.locals[slot]? = some o := ⟨_, List.getElem?_eq_getElem hslot⟩
  obtain ⟨s, hs, w, rfl, -⟩ := forall₂_getElem? hlocals ho
  have hread : (localSlot slot).run d = .ok (.value w) d := by
    rw [localSlot, currentFunction, run_bind]
    simp only [ha, hs, run_pure]
  refine ⟨_, run_bind_ok hread _, rfl, h.stack, ?_, h.env, h.unpackFrames, h.pending⟩
  refine ⟨{ a with locals := a.locals.set slot (.value v) }, by simp [ha], hcaptures, ?_⟩
  exact forall₂_set ⟨v, rfl, fun e' he' => Option.some.inj he' ▸ he⟩ slot hlocals

/-- An operand of an instruction. -/
theorem Mirrors.operand (h : Mirrors ops substituteCas env args captures frames st d)
    {operand : Operand} {e : PureExpr} {stack : List PureExpr}
    (he : PureCallback.operandExpr captures st.locals st.stack operand = some (e, stack)) :
    ∃ v, HasValue ops substituteCas env args e v ∧
      (resolveOperand ops operand).run d = .ok v (d.drop (stackCount operand)) ∧
      Mirrors ops substituteCas env args captures frames { st with stack }
        (d.drop (stackCount operand)) := by
  rcases operand with _ | c | slot | i | name | _
  · rcases hstack : st.stack with _ | ⟨e', rest⟩
    · simp [PureCallback.operandExpr, hstack] at he
    · simp only [PureCallback.operandExpr, hstack, Option.some.injEq, Prod.mk.injEq] at he
      obtain ⟨rfl, rfl⟩ := he
      have hs := h.stack
      rw [hstack] at hs
      rcases hd : d.stack with _ | ⟨v, vs⟩
      · rw [hd] at hs
        exact absurd hs (by simp)
      · rw [hd, List.forall₂_cons] at hs
        have hdrop := h.drop 1
        simp only [hstack, List.drop_one, List.tail_cons] at hdrop
        refine ⟨v, hs.1, ?_, hdrop⟩
        simp only [resolveOperand, pop1, hd, Data.drop, stackCount, List.drop_one, List.tail_cons]
  · simp only [PureCallback.operandExpr, Option.some.injEq, Prod.mk.injEq] at he
    obtain ⟨rfl, rfl⟩ := he
    exact ⟨c, rfl, rfl, h⟩
  · obtain ⟨e', he', heq⟩ := Option.map_eq_some_iff.mp he
    obtain ⟨rfl, rfl⟩ := Prod.mk.inj heq
    obtain ⟨v, hv, hrun⟩ := h.local_ he'
    exact ⟨v, hv, hrun, h⟩
  · obtain ⟨e', he', heq⟩ := Option.map_eq_some_iff.mp he
    obtain ⟨rfl, rfl⟩ := Prod.mk.inj heq
    obtain ⟨v, hv, hrun⟩ := h.capture he'
    exact ⟨v, hv, hrun, h⟩
  · exact absurd he (by simp [PureCallback.operandExpr])
  · exact absurd he (by simp [PureCallback.operandExpr])

/-- The end of an instruction whose result is that of an operation on values. -/
theorem Mirrors.follows (h : Mirrors ops substituteCas env args captures frames st d)
    {stack : List Value} (hd : d = { d' with stack }) {e : PureExpr} {r : WqResult Value}
    (he : e.eval ops substituteCas env args = r.map some) :
    Follows ops substituteCas env args captures frames { st with stack := e :: st.stack } d'
      ((do Exec.push (← liftResult r); return .next : Exec W (Flow W)).run d) := by
  rcases r with err | v
  · subst hd
    exact .fails rfl he
  · exact .mirrors (h.push he)

/-! ### Indexing -/

theorem evalAll_of_forall₂ {es : List PureExpr} {vs : List Value}
    (h : List.Forall₂ (HasValue ops substituteCas env args) es vs) :
    PureExpr.evalAll ops substituteCas env args es = .ok (some vs) := by
  induction h with
  | nil => rfl
  | cons he _ ih =>
    rw [HasValue] at he
    rw [PureExpr.evalAll, he]
    simp only [ih]

/-- An index on a value that is not callable, as a result. -/
def indexResult (ops : Ops W) (target : Value) (keys : List Value) : WqResult Value :=
  match PureExpr.indexValue ops target keys with
  | some v => .ok v
  | none => .error .index

theorem indexWithArgs_eq (target : Value) (keys : List Value) :
    indexWithArgs ops target keys = liftResult (indexResult ops target keys) := by
  rcases keys with _ | ⟨key, _ | ⟨key', keys⟩⟩
  · rw [indexWithArgs, indexResult, PureExpr.indexValue]
    · rcases ops.indexMany target [] with _ | v <;> rfl
    all_goals simp
  · rw [indexWithArgs, indexOne, indexResult, PureExpr.indexValue]
    rcases ops.index target key with _ | v <;> rfl
  · rw [indexWithArgs, indexResult, PureExpr.indexValue]
    · rcases ops.indexMany target (key :: key' :: keys) with _ | v <;> rfl
    all_goals simp

/-- An index instruction with its operands at hand. -/
theorem Mirrors.index (h : Mirrors ops substituteCas env args captures frames st d)
    {stack : List Value} (hd : d = { d' with stack }) {target : PureExpr} {keys : List PureExpr}
    {t : Value} {ks : List Value} (ht : HasValue ops substituteCas env args target t)
    (hks : List.Forall₂ (HasValue ops substituteCas env args) keys ks) :
    Follows ops substituteCas env args captures frames
      { st with stack := .index target keys :: st.stack } d'
      ((do Exec.push (← indexWithArgs ops t ks); return .next : Exec W (Flow W)).run d) := by
  by_cases hcallable : t.isCallable = true
  · refine .callable rfl ?_
    rw [HasValue] at ht
    simp only [PureExpr.eval, ht, hcallable, if_true]
  · rw [indexWithArgs_eq]
    refine h.follows hd ?_
    rw [HasValue] at ht
    simp only [PureExpr.eval, ht, hcallable, evalAll_of_forall₂ hks, indexResult]
    rcases PureExpr.indexValue ops t ks with _ | v <;> rfl

theorem popMany_run {n : Nat} (h : n ≤ d.stack.length) :
    (popMany n).run d = .ok (d.stack.take n).reverse (d.drop n) := by
  rw [popMany, run_bind, ensureStackLen]
  dsimp only
  rw [if_neg (not_lt.mpr h)]
  rfl

theorem popUnder_run {n : Nat} {v : Value} (h : d.stack[n]? = some v) :
    (popUnder n).run d = .ok v { d with stack := d.stack.eraseIdx n } := by
  have hlt : n < d.stack.length := (List.getElem?_eq_some_iff.mp h).1
  rw [popUnder, run_bind, ensureStackLen]
  dsimp only
  rw [if_neg (by omega)]
  simp only [h]

/-- The keys of an index, and the stack below them. -/
theorem Mirrors.keys (h : Mirrors ops substituteCas env args captures frames st d) {argc : Nat}
    {keys stack : List PureExpr}
    (hkeys : PureCallback.indexArgs st.stack argc = some (keys, stack)) :
    argc ≤ d.stack.length ∧ stack = st.stack.drop argc ∧
      List.Forall₂ (HasValue ops substituteCas env args) keys (d.stack.take argc).reverse := by
  have hlength := h.stack.length_eq
  rw [PureCallback.indexArgs] at hkeys
  split at hkeys
  · exact absurd hkeys (by simp)
  · simp only [Option.some.injEq, Prod.mk.injEq] at hkeys
    obtain ⟨rfl, rfl⟩ := hkeys
    exact ⟨by omega, rfl, List.rel_reverse (List.forall₂_take argc h.stack)⟩

/-- A call of a value that is not callable is an index. -/
theorem dispatchPostfix_index (table : FnTable) (tail : Bool) {t : Value} (argc : Nat)
    (hcallable : t.isCallable = false) (hcas : ∀ kind, t ≠ .cas kind)
    (hpending : d.pendingNamedMeta = none) (hargc : argc ≤ d.stack.length) :
    (dispatchPostfix ops table tail t argc).run d =
      (do Exec.push (← indexWithArgs ops t (d.stack.take argc).reverse); return .next :
        Exec W (Flow W)).run (d.drop argc) := by
  have hrun : (do
      if (← takePendingNamedMeta).isSome then throw .arity
      let args ← popMany argc
      Exec.push (← indexWithArgs ops t args)
      return .next : Exec W (Flow W)).run d =
      (do Exec.push (← indexWithArgs ops t (d.stack.take argc).reverse); return .next :
        Exec W (Flow W)).run (d.drop argc) := by
    have htake : takePendingNamedMeta.run d = .ok none d := by
      rw [takePendingNamedMeta]
      dsimp only
      rw [hpending, ← hpending]
    rw [run_bind_ok htake]
    exact run_bind_ok (popMany_run hargc) _
  rw [← hrun]
  cases t <;> first | rfl | exact absurd rfl (hcas _) | exact absurd hcallable (by simp [Value.isCallable, Value.isRuntimeCallable])

/-- An equation or a predicate takes no arguments and has no items. -/
theorem dispatchPostfix_cas (table : FnTable) (tail : Bool) {kind : CasKind} (argc : Nat)
    (hcallable : (Value.cas kind).isCallable = false) (hpending : d.pendingNamedMeta = none)
    (hargc : argc ≤ d.stack.length) :
    (dispatchPostfix ops table tail (.cas kind) argc).run d = .error .notBound (d.drop argc) := by
  have hexpr : (Value.cas kind).isCasExpr = false := by
    simpa [Value.isCallable, Value.isRuntimeCallable] using hcallable
  have htake : takePendingNamedMeta.run d = .ok none d := by
    rw [takePendingNamedMeta]
    dsimp only
    rw [hpending, ← hpending]
  have hargs : (takeBuiltinArgs argc).run d =
      .ok ({ pos := (d.stack.take argc).reverse, named := [] }, false) (d.drop argc) := by
    rw [takeBuiltinArgs, run_bind_ok htake, run_bind_ok (popMany_run hargc)]
    rfl
  rw [dispatchPostfix, callCasValue, run_bind_ok hargs]
  simp only [hexpr, Bool.false_eq_true, if_false, run_throw]

/-- A call instruction on a target that is not callable. -/
theorem Mirrors.postfix_ (hno : IndexesNoCas ops)
    (h : Mirrors ops substituteCas env args captures frames st d) (table : FnTable) (tail : Bool)
    {argc : Nat} {keys stack : List PureExpr} {target : PureExpr}
    (hkeys : PureCallback.indexArgs st.stack argc = some (keys, target :: stack)) :
    Follows ops substituteCas env args captures frames
      { st with stack := .index target keys :: stack } d
      ((do dispatchPostfix ops table tail (← popUnder argc) argc : Exec W (Flow W)).run d) := by
  obtain ⟨hargc, hstack, hks⟩ := h.keys hkeys
  have hrest := (h.drop argc).stack
  rw [← hstack] at hrest
  rcases hd : (d.drop argc).stack with _ | ⟨t, rest⟩
  · rw [hd] at hrest
    exact absurd hrest (by simp)
  rw [hd, List.forall₂_cons] at hrest
  obtain ⟨ht, hrest⟩ := hrest
  have hdrop : d.stack.drop argc = t :: rest := hd
  have htarget : d.stack[argc]? = some t := by
    rw [← List.head?_drop, hdrop, List.head?_cons]
  have herase : d.stack.eraseIdx argc = d.stack.take argc ++ rest := by
    rw [List.eraseIdx_eq_take_drop_succ, ← List.drop_drop, hdrop, List.drop_one, List.tail_cons]
  rw [run_bind_ok (popUnder_run htarget)]
  generalize hd₁ : { d with stack := d.stack.eraseIdx argc } = d₁
  have hstack₁ : d₁.stack = d.stack.take argc ++ rest := by rw [← hd₁, herase]
  have hlength : (d.stack.take argc).length = argc := List.length_take_of_le hargc
  have hargc₁ : argc ≤ d₁.stack.length := by
    rw [hstack₁, List.length_append, hlength]
    omega
  have htake₁ : d₁.stack.take argc = d.stack.take argc := by
    rw [hstack₁, List.take_left' hlength]
  have hdrop₁ : d₁.drop argc = { d with stack := rest } := by
    rw [Data.drop, hstack₁, List.drop_left' hlength, ← hd₁]
  have hpending₁ : d₁.pendingNamedMeta = none := by rw [← hd₁, h.pending]
  by_cases hcallable : t.isCallable = true
  · refine .callable rfl ?_
    rw [HasValue] at ht
    simp only [PureExpr.eval, ht, hcallable, if_true]
  rw [Bool.not_eq_true] at hcallable
  by_cases hcas : ∃ kind, t = .cas kind
  · obtain ⟨kind, rfl⟩ := hcas
    rw [dispatchPostfix_cas table tail argc hcallable hpending₁ hargc₁, hdrop₁]
    have heval : (PureExpr.index target keys).eval ops substituteCas env args = .error .index := by
      rw [HasValue] at ht
      simp only [PureExpr.eval, ht, hcallable, evalAll_of_forall₂ hks, hno.indexValue]
      rfl
    exact .fails rfl heval
  · rw [dispatchPostfix_index table tail argc hcallable (fun kind hk => hcas ⟨kind, hk⟩) hpending₁
      hargc₁, htake₁, hdrop₁]
    have hm : Mirrors ops substituteCas env args captures frames { st with stack }
        { d with stack := rest } :=
      ⟨hrest, h.locals, h.env, h.unpackFrames, h.pending⟩
    exact hm.index rfl ht hks

/-! ### Instructions -/

/-- **One instruction.** -/
theorem planInst_follows (hfast : IntFastPath ops) (hno : IndexesNoCas ops) (table : FnTable)
    (h : Mirrors ops substituteCas env args captures frames st d) {i : Instruction}
    (hi : PureCallback.planInst captures st i = some st') :
    Follows ops substituteCas env args captures frames st' d ((exec ops table i).run d) := by
  have hexec : exec ops table i = execPlain ops table i := by
    refine (exec_cases ops table i).resolve_left ?_
    rintro ⟨call, metadata, rfl⟩
    exact absurd hi (by simp [PureCallback.planInst])
  rw [hexec]
  cases i <;> simp only [PureCallback.planInst, reduceCtorEq] at hi
  case loadConst v =>
    obtain rfl := Option.some.inj hi
    exact .mirrors (h.push rfl)
  case loadLocal slot =>
    obtain ⟨e, he, hi⟩ := Option.bind_eq_some_iff.mp hi
    obtain rfl := Option.some.inj hi
    obtain ⟨v, hv, hrun⟩ := h.local_ he
    rw [execPlain, run_bind_ok hrun]
    exact .mirrors (h.push hv)
  case loadCapture slot =>
    obtain ⟨e, he, hi⟩ := Option.bind_eq_some_iff.mp hi
    obtain rfl := Option.some.inj hi
    obtain ⟨v, hv, hrun⟩ := h.capture he
    rw [execPlain, run_bind_ok hrun]
    exact .mirrors (h.push hv)
  case storeLocal slot =>
    rcases hstack : st.stack with _ | ⟨e, rest⟩
    · simp [hstack] at hi
    simp only [hstack, Option.ite_none_right_eq_some, Option.some.injEq] at hi
    obtain ⟨hslot, rfl⟩ := hi
    obtain ⟨v, vs, hd, hv, hm⟩ := h.pop hstack
    obtain ⟨d', hrun, hsame, hm'⟩ := hm.store hslot hv
    have hpop : pop1.run d = .ok v { d with stack := vs } := by simp only [pop1, hd]
    rw [execPlain, run_bind_ok hpop, run_bind_ok hrun]
    exact .mirrors hm'
  case storeLocalKeep slot =>
    rcases hstack : st.stack with _ | ⟨e, rest⟩
    · simp [hstack] at hi
    simp only [hstack, Option.ite_none_right_eq_some, Option.some.injEq] at hi
    obtain ⟨hslot, rfl⟩ := hi
    obtain ⟨v, vs, hd, hv, -⟩ := h.pop hstack
    obtain ⟨d', hrun, hsame, hm'⟩ := h.store hslot hv
    have hpeek : peek.run d = .ok v d := by simp only [peek, hd]
    rw [execPlain, run_bind_ok hpeek, run_bind_ok hrun]
    rw [hstack] at hm'
    exact .mirrors hm'
  case unaryOp op operand =>
    obtain ⟨⟨e, stack⟩, he, hi⟩ := Option.bind_eq_some_iff.mp hi
    obtain rfl := Option.some.inj hi
    obtain ⟨v, hv, hrun, hm⟩ := h.operand he
    rw [execPlain, run_bind_ok hrun]
    refine hm.follows rfl ?_
    rw [HasValue] at hv
    simp only [PureExpr.eval, hv]
  case binaryOp op left right =>
    obtain ⟨⟨r, stack⟩, hr, hi⟩ := Option.bind_eq_some_iff.mp hi
    obtain ⟨⟨l, stack'⟩, hl, hi⟩ := Option.bind_eq_some_iff.mp hi
    obtain rfl := Option.some.inj hi
    obtain ⟨rv, hrv, hrunr, hmr⟩ := h.operand hr
    obtain ⟨lv, hlv, hrunl, hml⟩ := hmr.operand hl
    have hdrop : (d.drop (stackCount right)).drop (stackCount left) =
        d.drop (stackCount left + stackCount right) := by
      simp only [Data.drop, List.drop_drop, Nat.add_comm]
    rw [hdrop] at hrunl hml
    have hrun := binaryOp_run hfast op hrunr hrunl
    have hbody : (execPlain ops table (.binaryOp op left right)).run d =
        (do Exec.push (← liftResult (evalBinary ops op lv rv)); return .next :
          Exec W (Flow W)).run (d.drop (stackCount left + stackCount right)) := by
      rw [execPlain, run_bind, hrun, run_bind]
    rw [hbody]
    refine hml.follows rfl ?_
    rw [HasValue] at hlv hrv
    simp only [PureExpr.eval, hlv, hrv]
  case index =>
    rcases hstack : st.stack with _ | ⟨key, _ | ⟨target, rest⟩⟩
    · simp [hstack] at hi
    · simp [hstack] at hi
    simp only [hstack, Option.some.injEq] at hi
    subst hi
    obtain ⟨k, vs, hd, hk, hm⟩ := h.pop hstack
    obtain ⟨t, vs', hd', ht, hm'⟩ := hm.pop rfl
    have hrun : (execPlain ops table .index).run d =
        (do Exec.push (← indexWithArgs ops t [k]); return .next : Exec W (Flow W)).run
          { d with stack := vs' } := by
      have hpop : pop1.run d = .ok k { d with stack := vs } := by simp only [pop1, hd]
      have hpop' : pop1.run { d with stack := vs } = .ok t { d with stack := vs' } := by
        simp only [pop1] at hd' ⊢
        simp only [hd']
      rw [execPlain, run_bind_ok hpop, run_bind_ok hpop']
      rfl
    rw [hrun]
    have hm₂ : Mirrors ops substituteCas env args captures frames { st with stack := rest }
        { d with stack := vs' } := hm'
    have hd₂ : ({ d with stack := vs' } : Data W) = { d with stack := vs' } := rfl
    exact hm₂.index hd₂ ht (.cons hk .nil)
  case indexMany argc =>
    split at hi
    · exact absurd hi (by simp)
    split at hi
    · rename_i keys target stack hkeys
      obtain rfl := Option.some.inj hi
      obtain ⟨hargc, hstack, hks⟩ := h.keys hkeys
      obtain ⟨t, vs, hd, ht, hm⟩ := (h.drop argc).pop hstack.symm
      have hpop : pop1.run (d.drop argc) = .ok t { d.drop argc with stack := vs } := by
        simp only [pop1, hd]
      rw [execPlain, run_bind_ok (popMany_run hargc), run_bind_ok hpop]
      have hd₂ : ({ d.drop argc with stack := vs } : Data W) = { d with stack := vs } := rfl
      exact hm.index hd₂ ht hks
    · exact absurd hi (by simp)
  case postfix_ argc =>
    split at hi
    · exact absurd hi (by simp)
    split at hi
    · rename_i keys target stack hkeys
      obtain rfl := Option.some.inj hi
      exact h.postfix_ hno table false hkeys
    · exact absurd hi (by simp)
  case tailPostfix argc =>
    split at hi
    · exact absurd hi (by simp)
    split at hi
    · rename_i keys target stack hkeys
      obtain rfl := Option.some.inj hi
      exact h.postfix_ hno table true hkeys
    · exact absurd hi (by simp)
  case indexManyLoadLocal slot argc =>
    split at hi
    · exact absurd hi (by simp)
    obtain ⟨⟨keys, stack⟩, hkeys, hi⟩ := Option.bind_eq_some_iff.mp hi
    obtain ⟨target, htarget, hi⟩ := Option.bind_eq_some_iff.mp hi
    obtain rfl := Option.some.inj hi
    obtain ⟨hargc, rfl, hks⟩ := h.keys hkeys
    have hm := h.drop argc
    obtain ⟨t, ht, hrun⟩ := hm.local_ htarget
    rw [execPlain, run_bind_ok (popMany_run hargc), run_bind_ok hrun]
    exact hm.index rfl ht hks
  case indexManyLoadCapture slot argc =>
    split at hi
    · exact absurd hi (by simp)
    obtain ⟨⟨keys, stack⟩, hkeys, hi⟩ := Option.bind_eq_some_iff.mp hi
    obtain ⟨target, htarget, hi⟩ := Option.bind_eq_some_iff.mp hi
    obtain rfl := Option.some.inj hi
    obtain ⟨hargc, rfl, hks⟩ := h.keys hkeys
    have hm := h.drop argc
    obtain ⟨t, ht, hrun⟩ := hm.capture htarget
    rw [execPlain, run_bind_ok (popMany_run hargc), run_bind_ok hrun]
    exact hm.index rfl ht hks

end Mirrors

end Wqpl
