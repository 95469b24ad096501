/-
# Callbacks with a plan

The machine runs a callback in a frame of its own, to the end of its code or to
its first failing instruction. It answers with the value of the plan if
everything the code computes has a value, and with an error otherwise
(`callBack_answers`).
-/
import Wqpl.Vm.IntOperators

namespace Wqpl

open Exec

/-! ### Frames -/

namespace Vm

variable {W : Type} {table : FnTable} {ops : Ops W} {vm : Vm W}

/-- No try region of a frame above the current one. -/
def TriesBelow (vm : Vm W) (depth : Nat) : Prop := ∀ frame ∈ vm.tryStack, frame.callDepth < depth

theorem TriesBelow.ownsTry {frame : TryFrame} (h : vm.TriesBelow vm.depth)
    (hframe : frame ∈ vm.tryStack) : vm.ownsTry frame = false := by
  have hlt := h frame hframe
  simp only [Vm.ownsTry, decide_eq_false_iff_not, not_and]
  intro heq
  omega

theorem TriesBelow.finishTryBoundary (h : vm.TriesBelow vm.depth) :
    vm.finishTryBoundary = none := by
  rw [Vm.finishTryBoundary]
  rcases htry : vm.tryStack with _ | ⟨frame, rest⟩
  · rfl
  · simp [h.ownsTry (htry ▸ List.mem_cons_self)]

theorem TriesBelow.catchCurrentTryError (h : vm.TriesBelow vm.depth) (e : WqErrorType) :
    vm.catchCurrentTryError ops e = none := by
  rw [Vm.catchCurrentTryError]
  split
  · rfl
  · rcases htry : vm.tryStack with _ | ⟨frame, rest⟩
    · rfl
    · simp [h.ownsTry (htry ▸ List.mem_cons_self)]

theorem TriesBelow.discardCurrentTryFrames (h : vm.TriesBelow vm.depth) :
    vm.discardCurrentTryFrames = vm := by
  have hdiscard : discardTryFrames vm.depth vm.tryStack vm.data = (vm.tryStack, vm.data) := by
    rcases htry : vm.tryStack with _ | ⟨frame, rest⟩
    · rfl
    · have hne : frame.callDepth ≠ vm.depth := (h frame (htry ▸ List.mem_cons_self)).ne
      rw [discardTryFrames, if_neg hne]
  rw [Vm.discardCurrentTryFrames, hdiscard]

/-- A step on an instruction of the current frame. -/
theorem step_instruction (ops : Ops W) (hrun : vm.control = .running) (htries : vm.TriesBelow vm.depth)
    {i : Instruction} (hi : (table vm.code).instructions[vm.pc]? = some i) :
    Vm.step table ops vm = vm.stepInstruction table ops i := by
  rw [Vm.step, hrun]
  dsimp only
  rw [Vm.stepRunning, htries.finishTryBoundary]
  dsimp only
  rw [hi]

theorem outcome_running (hrun : vm.control = .running) : Vm.outcome vm = none := by
  rw [Vm.outcome, hrun]

/-- The frame of a callback, above the one that calls. -/
structure CallbackFrame (vm caller : Vm W)
    (k : WqResult Value → Env W → BuiltinRun W) : Prop where
  callers : ∃ frame : CallerFrame W, vm.callers = frame :: caller.callers ∧
    frame.code = caller.code ∧ frame.pc = caller.pc ∧ frame.stack = caller.data.stack ∧
    frame.function = caller.data.function ∧ frame.moduleIdentity = none ∧
    frame.unpackDepth = caller.data.unpackFrames.length ∧
    frame.cont = .builtin caller.data.pendingNamedMeta k
  tryStack : vm.tryStack = caller.tryStack
  env : vm.data.env = caller.data.env
  unpackFrames : vm.data.unpackFrames = caller.data.unpackFrames

/-- The machine of the caller where the callback has ended. -/
def answered (caller : Vm W) (k : WqResult Value → Env W → BuiltinRun W) (r : WqResult Value) :
    Vm W :=
  { caller with control := .builtin (k r caller.data.env) }

theorem truncate_length {α : Type} (xs : List α) : truncate xs.length xs = xs := by
  rw [truncate, Nat.sub_self, List.drop_zero]

theorem CallbackFrame.returnFrame {caller : Vm W} {k : WqResult Value → Env W → BuiltinRun W}
    (h : vm.CallbackFrame caller k) (htries : vm.TriesBelow vm.depth) {v : Value}
    {stack : List Value} (hstack : vm.data.stack = v :: stack) :
    vm.returnFrame = caller.answered k (.ok v) := by
  obtain ⟨frame, hcallers, hcode, hpc, hst, hfn, hmodule, hdepth, hcont⟩ := h.callers
  have hdiscard : ({ vm with data := { vm.data with stack := vm.data.stack.tail } } : Vm W).discardCurrentTryFrames =
      { vm with data := { vm.data with stack := vm.data.stack.tail } } :=
    TriesBelow.discardCurrentTryFrames htries
  rw [Vm.returnFrame]
  dsimp only
  rw [hdiscard]
  simp only [hcallers, Vm.restoreUserCall, Vm.finishModuleOf, hmodule, Vm.resume, hcont, hstack,
    List.headD_cons, answered, hcode, hpc, hst, hfn, hdepth, h.env, h.unpackFrames,
    truncate_length, h.tryStack]

theorem CallbackFrame.unwind {caller : Vm W} {k : WqResult Value → Env W → BuiltinRun W}
    (h : vm.CallbackFrame caller k) (htries : vm.TriesBelow vm.depth) (e : WqErrorType) :
    vm.unwind ops e = caller.answered k (.error e) := by
  obtain ⟨frame, hcallers, hcode, hpc, hst, hfn, hmodule, hdepth, hcont⟩ := h.callers
  rw [Vm.unwind, htries.catchCurrentTryError e]
  dsimp only
  rw [htries.discardCurrentTryFrames]
  simp only [hcallers, Vm.restoreUserCall, Vm.failModuleOf, hmodule, Vm.resumeError, hcont,
    answered, hcode, hpc, hst, hfn, hdepth, h.env, h.unpackFrames, truncate_length, h.tryStack]

/-! ### Symbolic expressions as callables -/

/-- A call of a symbolic expression substitutes its argument. -/
def CallsCas (ops : Ops W) (substituteCas : SubstituteCas) : Prop :=
  ∀ (kind : CasKind) (args : List Value), (Value.cas kind).isCasExpr = true →
    ops.callCas kind { pos := args, named := [] } = callCasCallable substituteCas kind args

/-! ### The code of a callback -/

section Body

variable {substituteCas : SubstituteCas} {args : List Value} {captures : List CellId}
  {caller : Vm W} {k : WqResult Value → Env W → BuiltinRun W}

theorem hasValue_unary {env : Env W} {op : UnaryOperator} {e : PureExpr} {v : Value}
    (h : HasValue ops substituteCas env args (.unary op e) v) :
    ∃ w, HasValue ops substituteCas env args e w ∧ ops.unary op w = .ok v := by
  rw [HasValue, PureExpr.eval] at h
  rcases he : e.eval ops substituteCas env args with err | _ | w
  · simp [he] at h
  · simp [he] at h
  · rcases hw : ops.unary op w with err | w'
    · simp [he, hw, Except.map] at h
    · exact ⟨w, he, by simpa [he, hw, Except.map] using h⟩

theorem hasValue_binary {env : Env W} {op : BinaryOperator} {left right : PureExpr} {v : Value}
    (h : HasValue ops substituteCas env args (.binary op left right) v) :
    ∃ l r, HasValue ops substituteCas env args left l ∧ HasValue ops substituteCas env args right r ∧
      evalBinary ops op l r = .ok v := by
  rw [HasValue, PureExpr.eval] at h
  rcases hl : left.eval ops substituteCas env args with err | _ | l
  · simp [hl] at h
  · simp [hl] at h
  rcases hr : right.eval ops substituteCas env args with err | _ | r
  · simp [hl, hr] at h
  · simp [hl, hr] at h
  rcases hv : evalBinary ops op l r with err | w
  · simp [hl, hr, hv, Except.map] at h
  · exact ⟨l, r, hl, hr, by simpa [hl, hr, hv, Except.map] using h⟩

/-- All expressions have values. -/
def AllValues (ops : Ops W) (substituteCas : SubstituteCas) (env : Env W) (args : List Value)
    (es : List PureExpr) : Prop :=
  ∀ e ∈ es, ∃ v, HasValue ops substituteCas env args e v

/-- No expression gives up on a target that is callable. -/
def NoneGivesUp (ops : Ops W) (substituteCas : SubstituteCas) (env : Env W) (args : List Value)
    (es : List PureExpr) : Prop :=
  ∀ e ∈ es, e.eval ops substituteCas env args ≠ .ok none

/-- The rest of the code of a callback: it comes to its end, or an instruction
fails. The induction is on the instructions that are left. -/
theorem body_runs (hfast : IntFastPath ops) (hno : IndexesNoCas ops) {st' : PlanState} :
    ∀ (is done : List Instruction) (st : PlanState) (vm : Vm W), vm.control = .running →
      vm.CallbackFrame caller k → vm.TriesBelow vm.depth →
      (table vm.code).instructions = done ++ is ++ [.return_] → vm.pc = done.length →
      Mirrors ops substituteCas caller.data.env args captures caller.data.unpackFrames st vm.data →
      PureCallback.planBody captures st is = some st' →
      NoneGivesUp ops substituteCas caller.data.env args
        (PureCallback.computedBy captures st is) →
      (AllValues ops substituteCas caller.data.env args
          (PureCallback.computedBy captures st is) ∧
        ∃ n d', (machine table ops).Steps n vm
            { vm with pc := (done ++ is).length, data := d' } ∧
          Mirrors ops substituteCas caller.data.env args captures caller.data.unpackFrames st' d') ∨
      (¬AllValues ops substituteCas caller.data.env args
          (PureCallback.computedBy captures st is) ∧
        ∃ n e, (machine table ops).Steps n vm (caller.answered k (.error e)))
  | [], done, st, vm, hrun, hframe, htries, hcode, hpc, hm, hplan, hgives => by
    obtain rfl := Option.some.inj hplan
    refine .inl ⟨nofun, 0, vm.data, ?_, hm⟩
    rw [List.append_nil, ← hpc]
    exact .refl vm
  | i :: is, done, st, vm, hrun, hframe, htries, hcode, hpc, hm, hplan, hgives => by
    obtain ⟨st₁, hi, hplan⟩ := Option.bind_eq_some_iff.mp hplan
    have hcomputed : PureCallback.computedBy captures st (i :: is) =
        st₁.stack.head?.toList ++ PureCallback.computedBy captures st₁ is := by
      simp only [PureCallback.computedBy, hi]
    rw [hcomputed] at hgives ⊢
    have hat : (table vm.code).instructions[vm.pc]? = some i := by
      rw [hcode, hpc]
      simp
    have hstep := step_instruction ops hrun htries hat
    have hfollows := planInst_follows hfast hno table hm hi
    rw [Vm.stepInstruction] at hstep
    generalize hresult : (exec ops table i).run vm.data = result at hfollows hstep
    have hone := Machine.Steps.one (M := machine table ops) (outcome_running hrun)
    rcases hfollows with ⟨hm₁⟩ | ⟨htop, he⟩ | ⟨htop, he⟩
    · -- the head has a value, and the rest runs on
      have hnext : Vm.step table ops vm = { vm with pc := vm.pc + 1, data := _ } := hstep
      have hvalue : AllValues ops substituteCas caller.data.env args st₁.stack.head?.toList := by
        intro e he
        obtain ⟨rest, hrest⟩ := List.head?_eq_some_iff.mp (Option.mem_toList.mp he)
        obtain ⟨v, -, -, hv, -⟩ := hm₁.pop hrest
        exact ⟨v, hv⟩
      have hframe₁ : CallbackFrame (Vm.step table ops vm) caller k := by
        rw [hnext]
        exact ⟨hframe.callers, hframe.tryStack, hm₁.env, hm₁.unpackFrames⟩
      have hrest := body_runs hfast hno is (done ++ [i]) st₁ (Vm.step table ops vm)
        (by rw [hnext]; exact hrun) hframe₁ (by rw [hnext]; exact htries)
        (by rw [hnext, List.append_assoc, List.append_assoc, hcode, List.append_assoc]; rfl)
        (by rw [hnext, List.length_append, ← hpc]; rfl)
        (by rw [hnext]; exact hm₁) hplan
        (fun e he => hgives e (List.mem_append_right _ he))
      rcases hrest with ⟨hall, n, d', hsteps, hm'⟩ | ⟨hnot, n, e, hsteps⟩
      · refine .inl ⟨fun e he => ?_, 1 + n, d', ?_, hm'⟩
        · rcases List.mem_append.mp he with he | he
          · exact hvalue e he
          · exact hall e he
        · have h := hone.trans hsteps
          rw [hnext] at h
          rwa [List.append_assoc] at h
      · refine .inr ⟨fun hall => hnot fun e he => hall e (List.mem_append_right _ he), 1 + n, e, ?_⟩
        exact hone.trans hsteps
    · -- the instruction fails, and the frame with it
      rename_i e err err' stack
      have hmem : e ∈ st₁.stack.head?.toList ++ PureCallback.computedBy captures st₁ is :=
        List.mem_append_left _ (Option.mem_toList.mpr htop)
      refine .inr ⟨fun hall => ?_, 2, err', ?_⟩
      · obtain ⟨v, hv⟩ := hall e hmem
        rw [HasValue, he] at hv
        exact absurd hv (by simp)
      · have hfail : Vm.step table ops vm =
            { vm with pc := vm.pc + 1, data := { vm.data with stack }, control := .unwinding err' } :=
          hstep
        have hframe₁ : CallbackFrame (Vm.step table ops vm) caller k := by
          rw [hfail]
          exact ⟨hframe.callers, hframe.tryStack, hframe.env, hframe.unpackFrames⟩
        have hcontrol : (Vm.step table ops vm).control = .unwinding err' := by rw [hfail]
        have htries₁ : (Vm.step table ops vm).TriesBelow (Vm.step table ops vm).depth := by
          rw [hfail]
          exact htries
        have htwo := hone.tail (M := machine table ops) (by
          show Vm.outcome (Vm.step table ops vm) = none
          rw [Vm.outcome, hcontrol])
        have hunwind : Vm.step table ops (Vm.step table ops vm) = caller.answered k (.error err') := by
          rw [Vm.step, hcontrol]
          exact hframe₁.unwind htries₁ err'
        have hlast : (machine table ops).step ((machine table ops).step vm) =
            caller.answered k (.error err') := hunwind
        rwa [hlast] at htwo
    · exact absurd he (hgives _ (List.mem_append_left _ (Option.mem_toList.mpr htop)))

/-! ### Calls of user functions -/

theorem returningBody_eq {is body : List Instruction}
    (h : PureCallback.returningBody is = some body) : is = body ++ [.return_] := by
  rw [PureCallback.returningBody] at h
  split at h
  · rename_i hlast
    rw [← Option.some.inj h]
    exact (List.dropLast_append_getLast? _ hlast).symm
  · exact absurd h (by simp)

/-- The checks of a plan are those of a call. -/
theorem userPlan_eq {f : FnShape} {arity : Nat} {body : List Instruction} {st : PlanState}
    (h : PureCallback.userPlan f arity = some (body, st)) :
    validatePositionalCallShape f arity = .ok () ∧ arity ≤ f.locals ∧
      f.instructions = body ++ [.return_] ∧
      st = { stack := [], locals := PureCallback.initialLocals f.locals arity } := by
  rw [PureCallback.userPlan] at h
  split at h
  · exact absurd h (by simp)
  split at h
  · exact absurd h (by simp)
  split at h
  · exact absurd h (by simp)
  rename_i hshape hlocals
  obtain ⟨body', hbody, heq⟩ := Option.map_eq_some_iff.mp h
  obtain ⟨rfl, rfl⟩ := Prod.mk.inj heq
  refine ⟨?_, not_lt.mp hlocals, returningBody_eq hbody, rfl⟩
  rw [validatePositionalCallShape]
  rcases hparams : f.paramsLen with _ | expected
  · simp only [hparams, true_and, not_or, not_lt] at hshape
    dsimp only
    rw [if_neg (not_lt.mpr hshape.2), if_neg hlocals]
  · have heq : arity = expected := by
      by_contra hne
      exact hshape (.inl (by simpa [hparams] using fun h => hne h.symm))
    dsimp only
    rw [if_neg (not_not.mpr heq), if_neg hlocals]

/-- The arguments of a call are the lower locals. -/
theorem fillLocals_getElem? (f : FnShape) (args : List Value) (slot : Nat) :
    (fillLocals f args none)[slot]? =
      if slot < f.locals then some ((args[slot]?).elim default .value) else none := by
  have hfold : ∀ (vs : List Value) (start : Nat) (slots : List Slot),
      ((vs.zipIdx start).foldl (fun slots p => slots.set p.2 (.value p.1)) slots)[slot]? =
        (slots[slot]?).map fun s =>
          if start ≤ slot then (vs[slot - start]?).elim s .value else s := by
    intro vs
    induction vs with
    | nil =>
      intro start slots
      simp
    | cons v vs ih =>
      intro start slots
      rw [List.zipIdx_cons, List.foldl_cons, ih]
      rcases lt_trichotomy slot start with hlt | rfl | hgt
      · rw [List.getElem?_set_ne (by omega)]
        simp [show ¬start + 1 ≤ slot by omega, show ¬start ≤ slot by omega]
      · simp [List.getElem?_set]
        rcases h : slots[slot]? with _ | s
        · simp [List.getElem?_eq_none_iff.mp h]
        · simp [(List.getElem?_eq_some_iff.mp h).1]
      · rw [List.getElem?_set_ne (by omega)]
        have hsub : slot - start = (slot - (start + 1)) + 1 := by omega
        simp [show start + 1 ≤ slot by omega, show start ≤ slot by omega, hsub]
  rw [fillLocals, hfold]
  by_cases hslot : slot < f.locals
  · simp [hslot]
  · simp [hslot]

/-- The locals of a new frame are those a plan starts with. -/
theorem initialLocals_mirrors (ops : Ops W) (substituteCas : SubstituteCas) (env : Env W)
    (f : FnShape) (args : List Value) :
    List.Forall₂ (MirrorsLocal ops substituteCas env args)
      (PureCallback.initialLocals f.locals args.length) (fillLocals f args none) := by
  have hlength : (fillLocals f args none).length = f.locals := by
    refine le_antisymm (List.getElem?_eq_none_iff.mp ?_) (not_lt.mp fun hlt => ?_)
    · rw [fillLocals_getElem?, if_neg (lt_irrefl _)]
    · have hnone := List.getElem?_eq_none_iff.mpr (le_refl (fillLocals f args none).length)
      rw [fillLocals_getElem?, if_pos hlt] at hnone
      exact absurd hnone (by simp)
  refine List.forall₂_iff_get.mpr ⟨by simp [PureCallback.initialLocals, hlength], ?_⟩
  intro slot h₁ h₂
  have hslot := fillLocals_getElem? f args slot
  rw [if_pos (hlength ▸ h₂), List.getElem?_eq_getElem h₂] at hslot
  simp only [List.get_eq_getElem, Option.some.inj hslot, PureCallback.initialLocals,
    List.getElem_map, List.getElem_range]
  rcases harg : args[slot]? with _ | v
  · refine ⟨Value.emptyList, rfl, fun e he => ?_⟩
    rw [if_neg (not_lt.mpr (List.getElem?_eq_none_iff.mp harg))] at he
    exact absurd he (by simp)
  · refine ⟨v, rfl, fun e he => ?_⟩
    rw [if_pos (List.getElem?_eq_some_iff.mp harg).1] at he
    obtain rfl := Option.some.inj he
    rw [HasValue, PureExpr.eval, harg]

/-- No try region of a frame that the current one waits for. -/
def TriesNested (vm : Vm W) : Prop := ∀ frame ∈ vm.tryStack, frame.callDepth ≤ vm.depth

/-- The frame of a callback with positional arguments. -/
def callbackFrame (vm : Vm W) (table : FnTable) (fn : FnId) (captures : List CellId) (f : Value)
    (args : List Value) (k : WqResult Value → Env W → BuiltinRun W) : Vm W where
  code := fn
  pc := 0
  data :=
    { stack := []
      function := some { locals := fillLocals (table fn) args none, captures, callable := f }
      unpackFrames := vm.data.unpackFrames
      pendingNamedMeta := none
      env := vm.data.env }
  callers :=
    { code := vm.code
      pc := vm.pc
      stack := vm.data.stack
      function := vm.data.function
      moduleIdentity := none
      unpackDepth := vm.data.unpackFrames.length
      cont := .builtin vm.data.pendingNamedMeta k } :: vm.callers
  tryStack := vm.tryStack
  control := .running

theorem callBack_user {f : Value} {fn : FnId} (hf : f.asUserFunction = some (fn, captures))
    (hshape : validatePositionalCallShape (table fn) args.length = .ok ())
    (hroom : vm.depth + 1 ≤ ops.maxCallDepth) :
    vm.callBack table ops f { pos := args, named := [] } k =
      vm.callbackFrame table fn captures f args k := by
  have hbind : bindArguments (table fn) args.length none (args.reverse ++ vm.data.stack) =
      .ok (fillLocals (table fn) args none, vm.data.stack) := by
    have hlength : args.reverse.length = args.length := List.length_reverse
    have hlt : ¬(args.reverse ++ vm.data.stack).length < args.length := by simp
    rw [bindArguments, resolveNamedArgLayout, hshape]
    simp only [bind, Except.bind, pure, Except.pure, if_neg hlt, List.take_left' hlength,
      List.drop_left' hlength, List.reverse_reverse]
  have henter : (vm.pushArgs { pos := args, named := [] }).enterSpec table ops fn captures f
      (args.length + 0) none (.builtin vm.data.pendingNamedMeta k) =
        .ok (vm.callbackFrame table fn captures f args k) := by
    rw [enterSpec]
    simp only [pushArgs, if_true, List.map_nil, List.append_nil, Nat.add_zero, hbind]
    exact if_neg (not_lt.mpr hroom)
  rcases f with _ | _ | _ | _ | _ | _ | _ | _ | _ | _ | _ | _ | _ | _ | _ | _ | _ | _ | _ | _ | _ | _ <;>
    simp only [Value.asUserFunction, Option.some.injEq, Prod.mk.injEq, reduceCtorEq] at hf
  all_goals
    obtain ⟨rfl, rfl⟩ := hf
    rw [callBack]
    · simp only [Value.asUserFunction, List.length_nil, henter]
    all_goals simp

/-- How the call of a callback ends for a plan with this value: with the value,
if everything in `computed` has one, and with an error otherwise. -/
def Answers (table : FnTable) (ops : Ops W) (caller start : Vm W)
    (k : WqResult Value → Env W → BuiltinRun W) (v : Value) (all : Prop) : Prop :=
  (all ∧ ∃ n, (machine table ops).Steps n start (caller.answered k (.ok v))) ∨
    (¬all ∧ ∃ n e, (machine table ops).Steps n start (caller.answered k (.error e)))

/-- A callback that is a user function runs its code in a frame of its own. -/
theorem callBack_user_answers (hfast : IntFastPath ops) (hno : IndexesNoCas ops) {f : Value}
    {fn : FnId} (hf : f.asUserFunction = some (fn, captures))
    (hroom : vm.depth + 1 ≤ ops.maxCallDepth) (htries : vm.TriesNested) {e : PureExpr} {v : Value}
    (hplan : PureCallback.compileUser (table fn) captures args.length = some e)
    (he : HasValue ops substituteCas vm.data.env args e v)
    (hgives : NoneGivesUp ops substituteCas vm.data.env args
      (PureCallback.computedUser (table fn) captures args.length)) :
    Answers table ops vm (vm.callBack table ops f { pos := args, named := [] } k) k v
      (AllValues ops substituteCas vm.data.env args
        (PureCallback.computedUser (table fn) captures args.length)) := by
  obtain ⟨⟨body, st⟩, huser, hplan⟩ := Option.bind_eq_some_iff.mp hplan
  obtain ⟨st', hbody, hplan⟩ := Option.bind_eq_some_iff.mp hplan
  obtain ⟨hshape, -, hcode, hst⟩ := userPlan_eq huser
  have hcomputed : PureCallback.computedUser (table fn) captures args.length =
      PureCallback.computedBy captures st body := by
    rw [PureCallback.computedUser, huser]
  have hstack : st'.stack = [e] := by
    split at hplan
    · rename_i result hresult
      rw [hresult, Option.some.inj hplan]
    · exact absurd hplan (by simp)
  rw [hcomputed] at hgives ⊢
  rw [callBack_user hf hshape hroom]
  have hbelow : (vm.callbackFrame table fn captures f args k).TriesBelow
      (vm.callbackFrame table fn captures f args k).depth :=
    fun frame hframe => Nat.lt_succ_of_le (htries frame hframe)
  have hframe : (vm.callbackFrame table fn captures f args k).CallbackFrame vm k :=
    ⟨⟨_, rfl, rfl, rfl, rfl, rfl, rfl, rfl, rfl⟩, rfl, rfl, rfl⟩
  have hm : Mirrors ops substituteCas vm.data.env args captures vm.data.unpackFrames st
      (vm.callbackFrame table fn captures f args k).data := by
    subst hst
    exact ⟨.nil, ⟨_, rfl, rfl, initialLocals_mirrors ops substituteCas vm.data.env _ args⟩, rfl,
      rfl, rfl⟩
  have hrun := body_runs hfast hno body [] st (vm.callbackFrame table fn captures f args k) rfl
    hframe hbelow hcode rfl hm hbody hgives
  rcases hrun with ⟨hall, n, d', hsteps, hm'⟩ | ⟨hnot, n, err, hsteps⟩
  · -- the code has come to its end and returns the value of the plan
    refine .inl ⟨hall, n + 1, ?_⟩
    obtain ⟨w, ws, hd', hw, -⟩ := hm'.pop hstack
    have hvw : w = v := by
      rw [HasValue] at hw he
      rw [he] at hw
      simpa using hw.symm
    subst hvw
    rw [List.nil_append] at hsteps
    have hlast := hsteps.tail (M := machine table ops) rfl
    generalize hend : { vm.callbackFrame table fn captures f args k with
      pc := body.length, data := d' } = atEnd at hlast
    have hat : (table atEnd.code).instructions[atEnd.pc]? = some .return_ := by
      rw [← hend]
      show (table fn).instructions[body.length]? = _
      rw [hcode]
      simp
    have hbelow' : atEnd.TriesBelow atEnd.depth := hend ▸ hbelow
    have hframe' : CallbackFrame { atEnd with pc := atEnd.pc + 1 } vm k := by
      rw [← hend]
      exact ⟨hframe.callers, hframe.tryStack, hm'.env, hm'.unpackFrames⟩
    have hstep : Vm.step table ops atEnd = vm.answered k (.ok w) := by
      rw [step_instruction ops (hend ▸ rfl) hbelow' hat]
      have hstack' : atEnd.data.stack = w :: ws := hend ▸ hd'
      exact hframe'.returnFrame hbelow' hstack'
    have hlast' : (machine table ops).step atEnd = vm.answered k (.ok w) := hstep
    rwa [hlast'] at hlast
  · exact .inr ⟨hnot, n, err, hsteps⟩

theorem Answers.andThen {start : Vm W} {k₁ : WqResult Value → Env W → BuiltinRun W} {l v : Value}
    {all₁ all₂ : Prop} (h₁ : Answers table ops vm start k₁ l all₁)
    (h₂ : Answers table ops vm (vm.answered k₁ (.ok l)) k v all₂)
    (herr : ∀ e, vm.answered k₁ (.error e) = vm.answered k (.error e)) :
    Answers table ops vm start k v (all₁ ∧ all₂) := by
  rcases h₁ with ⟨hall₁, m, hm⟩ | ⟨hnot, m, e, hm⟩
  · rcases h₂ with ⟨hall₂, n, hn⟩ | ⟨hnot, n, e, hn⟩
    · exact .inl ⟨⟨hall₁, hall₂⟩, m + n, hm.trans hn⟩
    · exact .inr ⟨fun h => hnot h.2, m + n, e, hm.trans hn⟩
  · exact .inr ⟨fun h => hnot h.1, m, e, herr e ▸ hm⟩

theorem Answers.map {start : Vm W} {k₁ : WqResult Value → Env W → BuiltinRun W} {l v : Value}
    {all all' : Prop} (h : Answers table ops vm start k₁ l all)
    (hok : vm.answered k₁ (.ok l) = vm.answered k (.ok v))
    (herr : ∀ e, vm.answered k₁ (.error e) = vm.answered k (.error e)) (hall : all ↔ all') :
    Answers table ops vm start k v all' := by
  rcases h with ⟨h, n, hn⟩ | ⟨h, n, e, hn⟩
  · exact .inl ⟨hall.mp h, n, hok ▸ hn⟩
  · exact .inr ⟨fun h' => h (hall.mpr h'), n, e, herr e ▸ hn⟩

theorem Answers.value {start : Vm W} {v : Value} {all : Prop}
    (h : start = vm.answered k (.ok v)) (hall : all) : Answers table ops vm start k v all :=
  .inl ⟨hall, 0, h ▸ .refl start⟩

end Body

theorem andThen_assoc (run : BuiltinRun W) (k k' : WqResult Value → Env W → BuiltinRun W) :
    (run.andThen k).andThen k' = run.andThen fun r env => (k r env).andThen k' := by
  induction run with
  | done r env => rfl
  | call f args env k₀ ih => simp only [BuiltinRun.andThen, ih]

section Calls

variable {substituteCas : SubstituteCas} {args : List Value}

/-- How a binary expression goes on after its left operand. -/
def afterLeft (ops : Ops W) (args : List Value) (op : BinaryOperator) (right : CallableExpr)
    (k : WqResult Value → Env W → BuiltinRun W) (l : WqResult Value) (env : Env W) :
    BuiltinRun W :=
  match l with
  | .error e => k (.error e) env
  | .ok l =>
    (callableRun ops args right env).andThen fun r env => k (r.bind (evalBinary ops op l)) env

theorem callableRun_binary (ops : Ops W) (args : List Value) (op : BinaryOperator)
    (left right : CallableExpr) (env : Env W) (k : WqResult Value → Env W → BuiltinRun W) :
    (callableRun ops args (.binary op left right) env).andThen k =
      (callableRun ops args left env).andThen (afterLeft ops args op right k) := by
  rw [callableRun, andThen_assoc]
  congr 1
  funext l env
  rcases l with e | l
  · rfl
  · exact andThen_assoc _ _ _

mutual

/-- **Callbacks.** The machine answers a callback as its plan does if what its
code computes has values, and with an error otherwise. -/
theorem callBack_answers (hfast : IntFastPath ops) (hno : IndexesNoCas ops)
    (hcas : CallsCas ops substituteCas) : ∀ (f : Value) (vm : Vm W),
      vm.depth + 1 ≤ ops.maxCallDepth → vm.TriesNested → ∀ {e : PureExpr} {v : Value},
      PureCallback.compile table args.length f = some e →
      HasValue ops substituteCas vm.data.env args e v →
      NoneGivesUp ops substituteCas vm.data.env args (PureCallback.computed table args.length f) →
      ∀ k, Answers table ops vm (vm.callBack table ops f { pos := args, named := [] } k) k v
        (AllValues ops substituteCas vm.data.env args (PureCallback.computed table args.length f))
  | .liftedCallable expr, vm, hroom, htries, e, v, hplan, he, hgives, k => by
    rw [PureCallback.compile] at hplan
    rw [PureCallback.computed] at hgives ⊢
    exact callableRun_answers hfast hno hcas expr vm hroom htries hplan he hgives k
  | .compiledFunction fn, vm, hroom, htries, e, v, hplan, he, hgives, k => by
    rw [PureCallback.compile] at hplan
    rw [PureCallback.computed] at hgives ⊢
    exact callBack_user_answers hfast hno rfl hroom htries hplan he hgives
  | .closure fn captured, vm, hroom, htries, e, v, hplan, he, hgives, k => by
    rw [PureCallback.compile] at hplan
    rw [PureCallback.computed] at hgives ⊢
    exact callBack_user_answers hfast hno rfl hroom htries hplan he hgives
  | .cas kind, vm, hroom, htries, e, v, hplan, he, hgives, k => by
    rw [PureCallback.compile] at hplan
    have hall : AllValues ops substituteCas vm.data.env args
        (PureCallback.computed table args.length (.cas kind)) := by
      rw [PureCallback.computed]
      · exact nofun
      all_goals nofun
    refine .value ?_ hall
    rw [PureCallback.fromCasCallable] at hplan
    split at hplan
    · exact absurd hplan (by simp)
    rename_i hchecks
    obtain ⟨var, hvar, rfl⟩ := Option.map_eq_some_iff.mp hplan
    simp only [not_or, not_not, Bool.not_eq_true, Bool.not_eq_false'] at hchecks
    obtain ⟨arg, harg⟩ := List.length_eq_one_iff.mp hchecks.1
    rw [HasValue] at he
    simp only [PureExpr.eval, harg, List.head?_cons] at he
    have hcall : ops.callCas kind { pos := args, named := [] } = .ok v := by
      rw [harg, hcas kind [arg] hchecks.2]
      simp only [callCasCallable, hvar]
      rcases hs : substituteCas kind var arg with err | w
      · rw [hs] at he
        exact absurd he (by simp [Except.map])
      · rw [hs] at he
        simpa [Except.map] using he
    rw [callBack]
    simp only [hchecks.2, if_true, hcall]
    rfl
  | .int _, _, _, _, _, _, hplan, _, _, _ | .bigInt _, _, _, _, _, _, hplan, _, _, _
  | .float _, _, _, _, _, _, hplan, _, _, _ | .complex _ _, _, _, _, _, _, hplan, _, _, _
  | .fraction _, _, _, _, _, _, hplan, _, _, _ | .algebraic _ _, _, _, _, _, _, hplan, _, _, _
  | .char _, _, _, _, _, _, hplan, _, _, _ | .tag _, _, _, _, _, _, hplan, _, _, _
  | .bool _, _, _, _, _, _, hplan, _, _, _ | .intList _, _, _, _, _, _, hplan, _, _, _
  | .intRange _, _, _, _, _, _, hplan, _, _, _ | .floatList _, _, _, _, _, _, hplan, _, _, _
  | .boolList _, _, _, _, _, _, hplan, _, _, _ | .list _, _, _, _, _, _, hplan, _, _, _
  | .string _, _, _, _, _, _, hplan, _, _, _ | .dict _, _, _, _, _, _, hplan, _, _, _
  | .builtinFunction _ _, _, _, _, _, _, hplan, _, _, _ | .rng _, _, _, _, _, _, hplan, _, _, _
  | .stream _, _, _, _, _, _, hplan, _, _, _ => by
    simp [PureCallback.compile] at hplan
termination_by structural f => f

/-- A composed callable calls its leaves in turn. -/
theorem callableRun_answers (hfast : IntFastPath ops) (hno : IndexesNoCas ops)
    (hcas : CallsCas ops substituteCas) : ∀ (expr : CallableExpr) (vm : Vm W),
      vm.depth + 1 ≤ ops.maxCallDepth → vm.TriesNested → ∀ {e : PureExpr} {v : Value},
      PureCallback.fromCallableExpr table args.length expr = some e →
      HasValue ops substituteCas vm.data.env args e v →
      NoneGivesUp ops substituteCas vm.data.env args
        (PureCallback.computedExpr table args.length expr) →
      ∀ k, Answers table ops vm
        { vm with control := .builtin ((callableRun ops args expr vm.data.env).andThen k) } k v
        (AllValues ops substituteCas vm.data.env args
          (PureCallback.computedExpr table args.length expr))
  | .const c, vm, hroom, htries, e, v, hplan, he, hgives, k => by
    rw [PureCallback.fromCallableExpr] at hplan
    obtain rfl := Option.some.inj hplan
    rw [HasValue, PureExpr.eval] at he
    obtain rfl : c = v := by simpa using he
    rw [PureCallback.computedExpr]
    exact .value rfl nofun
  | .call f, vm, hroom, htries, e, v, hplan, he, hgives, k => by
    rw [PureCallback.fromCallableExpr] at hplan
    rw [PureCallback.computedExpr] at hgives ⊢
    have h := callBack_answers hfast hno hcas f
      { vm with control := .builtin ((callableRun ops args (.call f) vm.data.env).andThen k) }
      hroom htries hplan he hgives k
    have hone := Machine.Steps.one (M := machine table ops)
      (s := { vm with control := .builtin ((callableRun ops args (.call f) vm.data.env).andThen k) })
      rfl
    rcases h with ⟨hall, n, hn⟩ | ⟨hnot, n, err, hn⟩
    · exact .inl ⟨hall, 1 + n, hone.trans hn⟩
    · exact .inr ⟨hnot, 1 + n, err, hone.trans hn⟩
  | .unary op operand, vm, hroom, htries, e, v, hplan, he, hgives, k => by
    rw [PureCallback.fromCallableExpr] at hplan
    obtain ⟨e', hoperand, rfl⟩ := Option.map_eq_some_iff.mp hplan
    rw [PureCallback.computedExpr] at hgives ⊢
    obtain ⟨w, hw, hv⟩ := hasValue_unary he
    have h := callableRun_answers hfast hno hcas operand vm hroom htries hoperand hw hgives
      fun r env => k (r.bind (ops.unary op)) env
    rw [callableRun, andThen_assoc]
    refine h.map ?_ (fun _ => rfl) Iff.rfl
    simp only [answered, Except.bind, hv]
  | .binary op left right, vm, hroom, htries, e, v, hplan, he, hgives, k => by
    rw [PureCallback.fromCallableExpr] at hplan
    obtain ⟨l, hleft, hplan⟩ := Option.bind_eq_some_iff.mp hplan
    obtain ⟨r, hright, hplan⟩ := Option.bind_eq_some_iff.mp hplan
    obtain rfl := Option.some.inj hplan
    rw [PureCallback.computedExpr] at hgives ⊢
    obtain ⟨lv, rv, hl, hr, hv⟩ := hasValue_binary he
    have h₁ := callableRun_answers hfast hno hcas left vm hroom htries hleft hl
      (fun e he => hgives e (List.mem_append_left _ he)) (afterLeft ops args op right k)
    have h₂ := callableRun_answers hfast hno hcas right vm hroom htries hright hr
      (fun e he => hgives e (List.mem_append_right _ he))
      fun r env => k (r.bind (evalBinary ops op lv)) env
    rw [callableRun_binary]
    have h₂' := h₂.map (k := k) (v := v) (by simp only [answered, Except.bind, hv])
      (fun _ => rfl) Iff.rfl
    refine (h₁.andThen h₂' fun _ => rfl).map rfl (fun _ => rfl) ?_
    simp only [AllValues, List.mem_append, or_imp, forall_and]
termination_by structural expr => expr

end

end Calls

end Vm

end Wqpl
