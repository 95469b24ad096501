/-
# How control goes on

An instruction jumps only to its target, opens only the try region it names,
and makes a tail call only if it is one (`exec_allows`).
-/
import Wqpl.Vm.Exec

namespace Wqpl

/-- Where the instruction may jump to. -/
def Instruction.target : Instruction → Option Nat
  | .boolAndLazy t | .boolOrLazy t | .jump t | .jumpIfFalse t | .jumpIfCmpFalse _ _ _ t
  | .nLoopEnter _ _ _ t | .nLoopNext _ _ t | .jumpIfGE t | .jumpIfLEZLocal _ t
  | .jumpIfNamedProvided _ _ t => some t
  | .namedCall call _ => call.target
  | _ => none

def Instruction.isTailCall : Instruction → Bool
  | .tailCallLocal _ _ | .tailCallUser _ _ | .tailCallAnon _ | .tailPostfix _ => true
  | .namedCall call _ => call.isTailCall
  | _ => false

/-- The length of the try region the instruction opens. -/
def Instruction.tryLen : Instruction → Option Nat
  | .try_ len => some len
  | .namedCall call _ => call.tryLen
  | _ => none

/-- Named-argument metadata is put on calls only. -/
def NamedCallsWrapCalls (code : List Instruction) : Prop :=
  ∀ call metadata, Instruction.namedCall call metadata ∈ code →
    call.target = none ∧ call.tryLen = none

/-- How control may go on after the instruction. -/
def Instruction.Allows {W : Type} (i : Instruction) : Flow W → Prop
  | .jump target => i.target = some target
  | .try_ len => i.tryLen = some len
  | .tail _ _ => i.isTailCall = true
  | _ => True

namespace Exec

variable {W : Type} {α β : Type}

/-- What `m` returns has the property. -/
def Returns (P : α → Prop) (m : Exec W α) : Prop := ∀ d a d', m.run d = .ok a d' → P a

section Returns

variable {P : α → Prop}

theorem returns_pure {a : α} (h : P a) : Returns P (pure a : Exec W α) := by
  intro d b d' hr
  cases hr
  exact h

theorem returns_throw (e : WqErrorType) : Returns P (throw e : Exec W α) := by
  intro d b d' hr
  cases hr

theorem Returns.bind {m : Exec W β} {f : β → Exec W α} (hf : ∀ b, Returns P (f b)) :
    Returns P (m >>= f) := by
  intro d a d' hr
  rw [run_bind] at hr
  cases hm : m.run d with
  | ok b d'' =>
    rw [hm] at hr
    exact hf b d'' a d' hr
  | error e d'' =>
    rw [hm] at hr
    cases hr

end Returns

variable {P : Flow W → Prop}

theorem returns_builtin (run : Data W → BuiltinRun W) (h : ∀ run, P (.builtin run)) :
    Returns P (.mk fun d => .ok (.builtin (run d)) d : Exec W (Flow W)) := by
  intro d b d' hr
  cases hr
  exact h _

theorem returns_jumpUnless {target : Nat} (hnext : P .next) (hjump : P (.jump target))
    (cond : Bool) : Returns P (pure (jumpUnless target cond) : Exec W (Flow W)) := by
  cases cond with
  | false => exact returns_pure hjump
  | true => exact returns_pure hnext

variable (ops : Ops W) (table : FnTable)

/-! ### Calls -/

/-- What a call may lead to. -/
structure CallFlows (tail : Bool) (P : Flow W → Prop) : Prop where
  next : P .next
  builtin : ∀ run, P (.builtin run)
  call : ∀ callee argc, P (if tail then .tail callee argc else .enter callee argc)

theorem Instruction.callFlows {i : Instruction} {tail : Bool} (h : tail = true → i.isTailCall = true) :
    CallFlows tail (i.Allows (W := W)) where
  next := trivial
  builtin _ := trivial
  call _ _ := by
    cases tail with
    | false => trivial
    | true => exact h rfl

section Calls

variable {tail : Bool}

theorem CallFlows.callBuiltinValue (h : CallFlows tail P) (id argc : Nat) :
    Returns P (callBuiltinValue ops table id argc) :=
  .bind fun _ => returns_builtin _ h.builtin

theorem CallFlows.callRngValue (h : CallFlows tail P) (rng : Handle) (argc : Nat) :
    Returns P (callRngValue ops rng argc) :=
  .bind fun _ => .bind fun _ => .bind fun _ => .bind fun _ => .bind fun _ => returns_pure h.next

theorem CallFlows.callCasValue (h : CallFlows tail P) (kind : CasKind) (argc : Nat) :
    Returns P (callCasValue ops kind argc) := by
  refine .bind fun args => ?_
  dsimp only
  split
  · exact .bind fun _ => .bind fun _ => returns_pure h.next
  · exact returns_throw .notBound

theorem CallFlows.callLifted (h : CallFlows tail P) (expr : CallableExpr) (argc : Nat) :
    Returns P (callLifted ops expr argc) := by
  refine .bind fun m => ?_
  cases m with
  | some m => exact returns_throw .arity
  | none => exact .bind fun _ => .bind fun _ => returns_pure (h.builtin _)

theorem CallFlows.callUserFunction (h : CallFlows tail P) (callee : Value) (argc : Nat) :
    Returns P (callUserFunction tail callee argc : Exec W (Flow W)) :=
  returns_pure (h.call callee argc)

theorem CallFlows.dispatchPostfix (h : CallFlows tail P) (target : Value) (argc : Nat) :
    Returns P (dispatchPostfix ops table tail target argc) := by
  unfold Exec.dispatchPostfix
  split
  next => exact h.callBuiltinValue ops table _ argc
  next => exact h.callRngValue ops _ argc
  next => exact h.callLifted ops _ argc
  next => exact h.callCasValue ops _ argc
  next => exact h.callUserFunction _ argc
  next => exact h.callUserFunction _ argc
  next =>
    refine .bind fun m => ?_
    cases m with
    | some m => exact returns_throw .arity
    | none => exact .bind fun _ => .bind fun _ => .bind fun _ => returns_pure h.next

theorem CallFlows.dispatchUserValue (h : CallFlows tail P) (callee : Value) (argc : Nat) :
    Returns P (dispatchUserValue ops tail callee argc) := by
  have hthrow : Returns P (throw .notBound : Exec W (Flow W)) := returns_throw .notBound
  unfold Exec.dispatchUserValue
  split
  next => exact h.callUserFunction _ argc
  next => exact h.callUserFunction _ argc
  next => split; exacts [hthrow, h.callCasValue ops _ argc]
  next => split; exacts [hthrow, h.callRngValue ops _ argc]
  next => split; exacts [hthrow, h.callLifted ops _ argc]
  next => exact hthrow

theorem CallFlows.dispatchAnonCall (h : CallFlows tail P) (callee : Value) (argc : Nat) :
    Returns P (dispatchAnonCall ops table tail callee argc) := by
  unfold Exec.dispatchAnonCall
  split
  next => exact h.callBuiltinValue ops table _ argc
  next => exact h.callRngValue ops _ argc
  next => exact h.callLifted ops _ argc
  next => exact h.dispatchUserValue ops _ argc

theorem CallFlows.dispatchLoadedLocalCall (h : CallFlows tail P) (callee : Value) (argc : Nat) :
    Returns P (dispatchLoadedLocalCall ops table tail callee argc) := by
  unfold Exec.dispatchLoadedLocalCall
  split
  next => exact h.callBuiltinValue ops table _ argc
  next => exact h.callRngValue ops _ argc
  next => exact h.callUserFunction _ argc
  next => exact h.callUserFunction _ argc
  next => exact returns_throw .call

theorem CallFlows.dispatchLoadedUserCall (h : CallFlows tail P) (callee : Value) (argc : Nat) :
    Returns P (dispatchLoadedUserCall ops table tail callee argc) := by
  unfold Exec.dispatchLoadedUserCall
  split
  next => exact h.callBuiltinValue ops table _ argc
  next => exact h.callUserFunction _ argc
  next => exact h.callUserFunction _ argc
  next => exact h.dispatchUserValue ops _ argc
  next => exact h.dispatchUserValue ops _ argc
  next => exact h.dispatchUserValue ops _ argc
  next => exact .bind fun _ => returns_throw .call

theorem CallFlows.invokeBuiltinId (h : CallFlows tail P) (id argc : Nat) (discard : Bool) :
    Returns P (invokeBuiltinId ops table id argc discard) := by
  refine .bind fun p => ?_
  obtain ⟨args, hadNamedMeta⟩ := p
  show Returns P (if ops.isEnabledId id then _ else _)
  split
  next => exact returns_builtin _ h.builtin
  next =>
    cases ops.builtinName id with
    | none => exact returns_throw .vm
    | some name =>
      refine .bind fun v => ?_
      split
      next =>
        split
        next => exact returns_throw .arity
        next => exact returns_builtin _ h.builtin
      next => exact returns_builtin _ h.builtin

end Calls

/-! ### Instructions -/

theorem returns_indexAssignOne (hnext : P .next) (target : StoreTarget) (keep : Bool) :
    Returns P (indexAssignOne ops target keep) := by
  refine .bind fun value => .bind fun idx => .bind fun _ => ?_
  cases keep with
  | true => exact .bind fun _ => returns_pure hnext
  | false => exact returns_pure hnext

theorem returns_indexAssignMany (hnext : P .next) (target : StoreTarget) (argc : Nat)
    (keep : Bool) : Returns P (indexAssignMany ops target argc keep) := by
  refine .bind fun value => .bind fun args => .bind fun _ => ?_
  cases keep with
  | true => exact .bind fun _ => returns_pure hnext
  | false => exact returns_pure hnext

theorem returns_indexMutate (hnext : P .next) (target : StoreTarget) (op : MutationOp) :
    Returns P (indexMutate ops target op) := by
  have hmutate : ∀ f, Returns P (do
      push (← mutateTarget target f)
      return .next : Exec W (Flow W)) := fun f => .bind fun _ => .bind fun _ => returns_pure hnext
  cases op with
  | pop => exact .bind fun _ => .bind fun _ => hmutate _
  | remove => exact .bind fun _ => hmutate _
  | insert => exact .bind fun _ => hmutate _
  | insertAt => exact .bind fun _ => .bind fun _ => hmutate _

theorem execPlain_allows (i : Instruction) : Returns i.Allows (execPlain ops table i) := by
  have hcall : CallFlows false (i.Allows (W := W)) := Instruction.callFlows fun h => nomatch h
  have htail : i.isTailCall = true → CallFlows true (i.Allows (W := W)) := fun h =>
    Instruction.callFlows fun _ => h
  have hjump : ∀ {target : Nat} (cond : Bool), i.target = some target →
      Returns i.Allows (pure (jumpUnless target cond) : Exec W (Flow W)) := fun cond h =>
    returns_jumpUnless trivial h cond
  cases i with
  | loadOwnedConst slot =>
    refine .bind fun env => ?_
    split
    next => exact .bind fun _ => .bind fun _ => returns_pure trivial
    next => exact returns_throw .vm
  | unpack paths =>
    refine .bind fun source d a d' hr => ?_
    split at hr <;> cases hr
    trivial
  | loadUnpack slot =>
    intro d a d' hr
    unfold execPlain at hr
    dsimp only at hr
    split at hr <;> cases hr
    trivial
  | endUnpack =>
    intro d a d' hr
    unfold execPlain at hr
    dsimp only at hr
    split at hr <;> cases hr
    trivial
  | cmpChain chain =>
    refine .bind fun _ d a d' hr => ?_
    dsimp only at hr
    split at hr <;> cases hr
    trivial
  | boolAndLazy target =>
    intro d a d' hr
    unfold execPlain at hr
    dsimp only at hr
    split at hr <;> cases hr
    exacts [rfl, trivial]
  | boolOrLazy target =>
    intro d a d' hr
    unfold execPlain at hr
    dsimp only at hr
    split at hr <;> cases hr
    exacts [rfl, trivial]
  | callBuiltinId id argc => exact hcall.invokeBuiltinId ops table id argc false
  | callBuiltinDiscardId id argc => exact hcall.invokeBuiltinId ops table id argc true
  | callLocal slot argc => exact .bind fun f => hcall.dispatchLoadedLocalCall ops table f argc
  | callUser name argc => exact .bind fun f => hcall.dispatchLoadedUserCall ops table f argc
  | callAnon argc => exact .bind fun f => hcall.dispatchAnonCall ops table f argc
  | postfix_ argc => exact .bind fun f => hcall.dispatchPostfix ops table f argc
  | tailCallLocal slot argc =>
    exact .bind fun f => (htail rfl).dispatchLoadedLocalCall ops table f argc
  | tailCallUser name argc =>
    exact .bind fun f => (htail rfl).dispatchLoadedUserCall ops table f argc
  | tailCallAnon argc => exact .bind fun f => (htail rfl).dispatchAnonCall ops table f argc
  | tailPostfix argc => exact .bind fun f => (htail rfl).dispatchPostfix ops table f argc
  | makeDict n =>
    refine .bind fun vs => ?_
    split
    next => exact .bind fun _ => returns_pure trivial
    next => exact returns_throw .domain
  | makeRange inclusive hasNext =>
    have hfinish : ∀ next_ e, Returns (Instruction.makeRange inclusive hasNext).Allows (do
        let start ← pop1
        match next_ with
        | some next_ => push (← liftResult (ops.makeRangeFromNext start next_ e inclusive))
        | none => push (← liftResult (ops.makeRange start e none inclusive))
        return .next : Exec W (Flow W)) := by
      intro next_ e
      refine .bind fun start => ?_
      cases next_ <;> exact .bind fun _ => .bind fun _ => returns_pure trivial
    refine .bind fun e => ?_
    dsimp only
    split <;> exact .bind fun next_ => hfinish next_ e
  | checkAtomPathIndex =>
    refine .bind fun v => ?_
    split
    exacts [returns_throw .index, returns_pure trivial]
  | indexAssignVar name => exact returns_indexAssignOne ops trivial (.var name) true
  | indexAssignLocal slot => exact returns_indexAssignOne ops trivial (.local_ slot) true
  | indexAssignCapture i => exact returns_indexAssignOne ops trivial (.capture i) true
  | indexManyAssignVar name argc => exact returns_indexAssignMany ops trivial (.var name) argc true
  | indexManyAssignLocal slot argc =>
    exact returns_indexAssignMany ops trivial (.local_ slot) argc true
  | indexManyAssignCapture i argc =>
    exact returns_indexAssignMany ops trivial (.capture i) argc true
  | indexAssignVarDrop name => exact returns_indexAssignOne ops trivial (.var name) false
  | indexAssignLocalDrop slot => exact returns_indexAssignOne ops trivial (.local_ slot) false
  | indexAssignCaptureDrop i => exact returns_indexAssignOne ops trivial (.capture i) false
  | indexManyAssignVarDrop name argc =>
    exact returns_indexAssignMany ops trivial (.var name) argc false
  | indexManyAssignLocalDrop slot argc =>
    exact returns_indexAssignMany ops trivial (.local_ slot) argc false
  | indexManyAssignCaptureDrop i argc =>
    exact returns_indexAssignMany ops trivial (.capture i) argc false
  | indexMutate target op => exact returns_indexMutate ops trivial target op
  | jump target => exact returns_pure rfl
  | jumpIfFalse target => exact .bind fun _ => .bind fun b => hjump b rfl
  | jumpIfCmpFalse op left right target => exact .bind fun b => hjump b rfl
  | nLoopEnter index count snapshot target =>
    refine .bind fun _ => .bind fun _ => .bind fun go => ?_
    split
    next => exact .bind fun _ => returns_pure trivial
    next => exact returns_pure rfl
  | nLoopNext snapshot index target =>
    refine .bind fun v => ?_
    dsimp only
    split
    next =>
      split
      next => exact .bind fun _ => .bind fun _ => returns_pure rfl
      next => exact .bind fun _ => .bind fun _ => returns_pure rfl
    next => exact .bind fun _ => .bind fun _ => returns_pure rfl
  | jumpIfGE target =>
    refine .bind fun p => ?_
    obtain ⟨left, right⟩ := p
    dsimp only
    split
    next => exact hjump _ rfl
    next => exact .bind fun _ => .bind fun b => hjump b rfl
  | jumpIfLEZLocal slot target =>
    refine .bind fun v => ?_
    split
    next => exact hjump _ rfl
    next => exact hjump _ rfl
    next => exact .bind fun b => hjump b rfl
  | jumpIfNamedProvided slot bit target =>
    refine .bind fun v => ?_
    split
    next => exact hjump _ rfl
    next => exact returns_pure trivial
  | pop =>
    intro d a d' hr
    cases hr
    trivial
  | try_ len => exact returns_pure rfl
  | namedCall call metadata => exact returns_throw .vm
  | _ =>
    first
    | exact returns_pure trivial
    | repeat' refine Returns.bind fun _ => ?_
      exact returns_pure trivial

/-- **An instruction goes on only as it says.** -/
theorem exec_allows (i : Instruction) : Returns i.Allows (exec ops table i) := by
  rcases exec_cases ops table i with ⟨call, metadata, rfl⟩ | heq
  · refine .bind fun _ d flow d' hr => ?_
    have h := execPlain_allows ops table call d flow d' hr
    cases flow <;> exact h
  · rw [heq]
    exact execPlain_allows ops table i

end Exec

end Wqpl
