/-
# Instructions that do not see the pool of owned constants

The pool is read and written by one instruction, `loadOwnedConst`. Every other
instruction does the same whatever the pool holds, and leaves it as it was
(`exec_blind`), where the operations do (`Ops.Blind`). A builtin at work hands
the environment on, so two runs of it are related by what they do from
environments that differ in the pool (`BuiltinRun.Rel`).
-/
import Wqpl.Vm.Exec

namespace Wqpl

abbrev Pool := List (Option Value)

def Env.setPool {W : Type} (env : Env W) (pool : Pool) : Env W := { env with ownedConsts := pool }

def Data.setPool {W : Type} (d : Data W) (pool : Pool) : Data W :=
  { d with env := d.env.setPool pool }

/-- Whether the instruction takes a constant from the pool. -/
def Instruction.usesPool : Instruction → Bool
  | .loadOwnedConst _ => true
  | .namedCall call _ => call.usesPool
  | _ => false

/-- The runs do the same, the second one with the pool in its environments. -/
inductive BuiltinRun.Rel {W : Type} (pool : Pool) : BuiltinRun W → BuiltinRun W → Prop
  | done (r : WqResult Value) (env : Env W) : Rel pool (.done r env) (.done r (env.setPool pool))
  | call (f : Value) (args : BuiltinFnArgs) (env : Env W)
      {k k' : WqResult Value → Env W → BuiltinRun W}
      (h : ∀ r env, Rel pool (k r env) (k' r (env.setPool pool))) :
      Rel pool (.call f args env k) (.call f args (env.setPool pool) k')

theorem BuiltinRun.Rel.andThen {W : Type} {pool : Pool} {run run' : BuiltinRun W}
    {k k' : WqResult Value → Env W → BuiltinRun W} (h : run.Rel pool run')
    (hk : ∀ r env, (k r env).Rel pool (k' r (env.setPool pool))) :
    (run.andThen k).Rel pool (run'.andThen k') := by
  induction h with
  | done r env => exact hk r env
  | call f args env _ ih => exact .call f args env ih

/-- The operations neither read nor change the pool. -/
structure Ops.Blind {W : Type} (ops : Ops W) : Prop where
  builtin : ∀ id discard args isMain env pool,
    (ops.callBuiltin id discard args isMain env).Rel pool
      (ops.callBuiltin id discard args isMain (env.setPool pool))
  rng : ∀ h args env pool, ops.callRng h args (env.setPool pool) =
    ((ops.callRng h args env).1, (ops.callRng h args env).2.setPool pool)
  resolve : ∀ data env pool, ops.resolveModule data (env.setPool pool) = ops.resolveModule data env
  compile : ∀ name env pool, ops.compileModule name (env.setPool pool) = ops.compileModule name env

theorem Ops.blind_inert : Ops.inert.Blind where
  builtin _ _ _ _ env _ := .done _ env
  rng _ _ _ _ := rfl
  resolve _ _ _ := rfl
  compile _ _ _ := rfl

/-- Control goes on in the same way, a builtin with the pool in its
environments. -/
inductive Flow.Rel {W : Type} (pool : Pool) : Flow W → Flow W → Prop
  | same {flow : Flow W} (h : ∀ run, flow ≠ .builtin run) : Rel pool flow flow
  | builtin {run run' : BuiltinRun W} (h : run.Rel pool run') : Rel pool (.builtin run) (.builtin run')

namespace Exec

variable {W : Type} {α β : Type}

/-- The same result up to the pool. -/
inductive ResultRel (pool : Pool) (R : α → α → Prop) : ExecResult W α → ExecResult W α → Prop
  | ok {a a' : α} (d : Data W) (h : R a a') : ResultRel pool R (.ok a d) (.ok a' (d.setPool pool))
  | error (e : WqErrorType) (d : Data W) : ResultRel pool R (.error e d) (.error e (d.setPool pool))

/-- The computation does the same whatever the pool, up to the relation. -/
def BlindTo (R : Pool → α → α → Prop) (m : Exec W α) : Prop :=
  ∀ pool d, ResultRel pool (R pool) (m.run d) (m.run (d.setPool pool))

/-- The computation does the same whatever the pool. -/
abbrev Blind (m : Exec W α) : Prop := BlindTo (fun _ => Eq) m

/-- The instruction goes on in the same way whatever the pool. -/
abbrev BlindFlow (m : Exec W (Flow W)) : Prop := BlindTo Flow.Rel m

theorem BlindTo.bind {R : Pool → β → β → Prop} {m : Exec W α} {f : α → Exec W β} (hm : Blind m)
    (hf : ∀ a, BlindTo R (f a)) : BlindTo R (m >>= f) := by
  intro pool d
  have h := hm pool d
  rw [run_bind, run_bind]
  generalize m.run d = r, m.run (d.setPool pool) = r' at h
  cases h with
  | ok d' ha =>
    obtain rfl := ha
    exact hf _ pool d'
  | error e d' => exact .error e d'

/-- The global variables are not in the pool. -/
theorem run_getEnv_setPool (d : Data W) (pool : Pool) (f : Env W → Exec W α) :
    (getEnv >>= f).run (d.setPool pool) = (f (d.env.setPool pool)).run (d.setPool pool) := rfl

theorem run_getEnv (d : Data W) (f : Env W → Exec W α) :
    (getEnv >>= f).run d = (f d.env).run d := rfl

theorem blind_pure (a : α) : Blind (pure a : Exec W α) := fun _ d => .ok d rfl

theorem blind_throw {R : Pool → α → α → Prop} (e : WqErrorType) :
    BlindTo R (throw e : Exec W α) := fun _ d => .error e d

theorem blind_flow {flow : Flow W} (h : ∀ run, flow ≠ .builtin run) :
    BlindFlow (pure flow : Exec W (Flow W)) := fun _ d => .ok d (.same h)

theorem blind_next : BlindFlow (pure .next : Exec W (Flow W)) := blind_flow nofun

theorem blind_jumpUnless (target : Nat) (cond : Bool) :
    BlindFlow (pure (jumpUnless target cond) : Exec W (Flow W)) := by
  cases cond with
  | false => exact blind_flow nofun
  | true => exact blind_next

/-! ### The operand stack and variables -/

theorem blind_liftResult (r : WqResult α) : Blind (liftResult r : Exec W α) := by
  intro pool d
  cases r with
  | ok a => exact .ok d rfl
  | error e => exact .error e d

theorem blind_push (v : Value) : Blind (push v : Exec W Unit) := fun _ _ => .ok _ rfl

theorem blind_pop1 : Blind (pop1 : Exec W Value) := by
  rintro pool ⟨_ | ⟨v, stack⟩, function, frames, metadata, env⟩
  · exact .error .vm _
  · exact .ok _ rfl

theorem blind_pop2 : Blind (pop2 : Exec W (Value × Value)) := by
  rintro pool ⟨_ | ⟨v, _ | ⟨w, stack⟩⟩, function, frames, metadata, env⟩
  · exact .error .vm _
  · exact .error .vm _
  · exact .ok _ rfl

theorem blind_ensureStackLen (n : Nat) : Blind (ensureStackLen n : Exec W Unit) := by
  intro pool d
  show ResultRel pool _ (if d.stack.length < n then _ else _) (if d.stack.length < n then _ else _)
  by_cases h : d.stack.length < n
  · rw [if_pos h, if_pos h]
    exact .error .vm d
  · rw [if_neg h, if_neg h]
    exact .ok d rfl

theorem blind_popMany (n : Nat) : Blind (popMany n : Exec W (List Value)) :=
  (blind_ensureStackLen n).bind fun _ _ _ => .ok _ rfl

theorem blind_popUnder (n : Nat) : Blind (popUnder n : Exec W Value) := by
  refine (blind_ensureStackLen (n + 1)).bind fun _ pool d => ?_
  dsimp only [Data.setPool]
  cases d.stack[n]? with
  | none => exact .error .vm d
  | some v => exact .ok _ rfl

theorem blind_peek : Blind (peek : Exec W Value) := by
  rintro pool ⟨_ | ⟨v, stack⟩, function, frames, metadata, env⟩
  · exact .error .vm _
  · exact .ok _ rfl

theorem blind_takePendingNamedMeta :
    Blind (takePendingNamedMeta : Exec W (Option NamedArgMeta)) := fun _ _ => .ok _ rfl

theorem blind_currentFunction : Blind (currentFunction : Exec W Activation) := by
  rintro pool ⟨stack, _ | a, frames, metadata, env⟩
  · exact .error .vm _
  · exact .ok _ rfl

theorem blind_localSlot (slot : Nat) : Blind (localSlot slot : Exec W Slot) := by
  refine blind_currentFunction.bind fun a => ?_
  cases a.locals[slot]? with
  | none => exact blind_throw .vm
  | some s => exact blind_pure s

theorem blind_readLocal (slot : Nat) : Blind (readLocal slot : Exec W Value) := by
  refine (blind_localSlot slot).bind fun s pool d => ?_
  cases s <;> exact .ok d rfl

theorem blind_writeLocal (slot : Nat) (v : Value) : Blind (writeLocal slot v : Exec W Unit) := by
  refine (blind_localSlot slot).bind fun s => ?_
  cases s with
  | cell c => exact fun _ _ => .ok _ rfl
  | value old => exact fun _ _ => .ok _ rfl

theorem blind_captureCell (i : Nat) : Blind (captureCell i : Exec W CellId) := by
  refine blind_currentFunction.bind fun a => ?_
  cases a.captures[i]? with
  | none => exact blind_throw .vm
  | some c => exact blind_pure c

theorem blind_readCapture (i : Nat) : Blind (readCapture i : Exec W Value) :=
  (blind_captureCell i).bind fun _ _ d => .ok d rfl

theorem blind_writeCapture (i : Nat) (v : Value) : Blind (writeCapture i v : Exec W Unit) :=
  (blind_captureCell i).bind fun _ _ _ => .ok _ rfl

theorem blind_readGlobal (name : String) : Blind (readGlobal name : Exec W Value) := by
  intro pool d
  rw [readGlobal, run_getEnv, run_getEnv_setPool, Env.setPool]
  cases d.env.globals name with
  | none => exact .error .notBound d
  | some v => exact .ok d rfl

theorem blind_writeGlobal (name : String) (v : Value) :
    Blind (writeGlobal name v : Exec W Unit) := fun _ _ => .ok _ rfl

theorem blind_readTarget (target : StoreTarget) : Blind (readTarget target : Exec W Value) := by
  cases target with
  | local_ slot => exact blind_readLocal slot
  | capture i => exact blind_readCapture i
  | var name => exact blind_readGlobal name

theorem blind_writeTarget (target : StoreTarget) (v : Value) :
    Blind (writeTarget target v : Exec W Unit) := by
  cases target with
  | local_ slot => exact blind_writeLocal slot v
  | capture i => exact blind_writeCapture i v
  | var name => exact blind_writeGlobal name v

theorem blind_mutateTarget (target : StoreTarget) (f : Value → WqResult α × Value) :
    Blind (mutateTarget target f : Exec W α) :=
  (blind_readTarget target).bind fun old =>
    (blind_writeTarget target (f old).2).bind fun _ => blind_liftResult (f old).1

theorem blind_capture (c : Capture) : Blind (capture c : Exec W CellId) := by
  cases c with
  | local_ slot =>
    intro pool d
    show ResultRel pool _ (captureLocal slot |>.run d) (captureLocal slot |>.run (d.setPool pool))
    unfold captureLocal
    show ResultRel pool _ (.ok _ _) (.ok _ _)
    have hread : ∀ s : Slot, s.read (d.setPool pool).env = s.read d.env := fun s => by
      cases s <;> rfl
    simp only [hread]
    exact .ok _ rfl
  | localShared slot =>
    intro pool d
    show ResultRel pool _ (captureShared slot |>.run d) (captureShared slot |>.run (d.setPool pool))
    unfold captureShared
    dsimp only [Data.setPool]
    cases d.function.bind fun a => a.locals[slot]? with
    | none => exact .ok _ rfl
    | some s => cases s <;> exact .ok _ rfl
  | fromCapture i =>
    intro pool d
    show ResultRel pool _ ((capture (.fromCapture i)).run d)
      ((capture (.fromCapture i)).run (d.setPool pool))
    unfold capture
    dsimp only [Data.setPool]
    cases d.function.bind fun a => a.captures[i]? <;> exact .ok _ rfl
  | global name => exact (blind_readGlobal name).bind fun _ _ _ => .ok _ rfl

theorem blind_mapM {ι : Type} {f : ι → Exec W α} (hf : ∀ x, Blind (f x)) :
    ∀ xs : List ι, Blind (xs.mapM f)
  | [] => blind_pure []
  | x :: xs => by
    rw [List.mapM_cons]
    exact (hf x).bind fun y => (blind_mapM hf xs).bind fun ys => blind_pure (y :: ys)

theorem blind_condition (v : Value) : Blind (condition v : Exec W Bool) := by
  unfold condition
  cases v.tryToRustBool with
  | none => exact blind_throw .domain
  | some b => exact blind_pure b

/-! ### Operators and indices -/

variable {ops : Ops W}

theorem blind_resolveOperand (operand : Operand) : Blind (resolveOperand ops operand) := by
  cases operand with
  | stack => exact blind_pop1
  | const v => exact blind_pure v
  | local_ slot => exact blind_readLocal slot
  | capture i => exact blind_readCapture i
  | var name =>
    intro pool d
    rw [resolveOperand, run_getEnv, run_getEnv_setPool, Env.setPool]
    cases d.env.globals name with
    | some v => exact .ok d rfl
    | none =>
      cases ops.builtinValue name with
      | some v => exact .ok d rfl
      | none => exact .error .notBound d
  | self => exact blind_currentFunction.bind fun a => blind_pure a.callable

theorem intOperand_setPool (operand : Operand) (depth : Nat) (d : Data W) (pool : Pool) :
    intOperand operand depth (d.setPool pool) = intOperand operand depth d := by
  cases operand with
  | local_ slot =>
    have hread : ∀ s : Slot, s.read (d.setPool pool).env = s.read d.env := fun s => by
      cases s <;> rfl
    simp only [intOperand, hread]
    rfl
  | _ => rfl

theorem blind_tryIntOperands (left right : Operand) (eval : Int64 → Int64 → Option α) :
    Blind (tryIntOperands left right eval : Exec W (Option α)) := by
  intro pool d
  unfold tryIntOperands
  dsimp only
  rw [intOperand_setPool, intOperand_setPool]
  show ResultRel pool _ (if d.stack.length < _ then _ else _) (if d.stack.length < _ then _ else _)
  by_cases h : d.stack.length < stackCount left + stackCount right
  · rw [if_pos h, if_pos h]
    exact .ok d rfl
  · rw [if_neg h, if_neg h]
    cases intOperand right 0 d with
    | none => exact .ok d rfl
    | some r =>
      cases intOperand left (stackCount right) d with
      | none => exact .ok d rfl
      | some l =>
        dsimp only
        cases eval l r with
        | none => exact .ok d rfl
        | some result => exact .ok _ rfl

theorem blind_resolveOperands (left right : Operand) : Blind (resolveOperands ops left right) :=
  (blind_resolveOperand right).bind fun r => (blind_resolveOperand left).bind fun l =>
    blind_pure (l, r)

theorem blind_binaryOp (op : BinaryOperator) (left right : Operand) :
    Blind (binaryOp ops op left right) := by
  refine (blind_tryIntOperands left right (evalIntBinary ops op)).bind fun result => ?_
  cases result with
  | some v => exact blind_pure v
  | none => exact (blind_resolveOperands left right).bind fun p => blind_liftResult _

theorem blind_evalCmpBranchCondition (op : BinaryOperator) (left right : Operand) :
    Blind (evalCmpBranchCondition ops op left right) := by
  refine (blind_tryIntOperands left right (evalIntComparison op)).bind fun result => ?_
  cases result with
  | some b => exact blind_pure b
  | none => exact (blind_binaryOp op left right).bind fun v => blind_condition v

theorem blind_evalNLoopCondition (index count : Value) :
    Blind (evalNLoopCondition ops index count) := by
  unfold evalNLoopCondition
  split
  next => exact blind_pure _
  next => exact (blind_liftResult _).bind fun v => blind_condition v

theorem blind_indexOne (obj idx : Value) : Blind (indexOne ops obj idx) := by
  unfold indexOne
  cases ops.index obj idx with
  | none => exact blind_throw .index
  | some v => exact blind_pure v

theorem blind_indexWithArgs (obj : Value) (args : List Value) :
    Blind (indexWithArgs ops obj args) := by
  unfold indexWithArgs
  split
  next => exact blind_indexOne obj _
  next =>
    cases ops.indexMany obj args with
    | none => exact blind_throw .index
    | some v => exact blind_pure v

theorem blind_pushNext (v : Value) :
    BlindFlow (do push v; return .next : Exec W (Flow W)) := (blind_push v).bind fun _ => blind_next

theorem BlindTo.thenPush {m : Exec W Value} (h : Blind m) :
    BlindFlow (do push (← m); return .next : Exec W (Flow W)) := h.bind fun v => blind_pushNext v

theorem blind_indexAssignOne (target : StoreTarget) (keep : Bool) :
    BlindFlow (indexAssignOne ops target keep) := by
  refine blind_pop1.bind fun value => blind_pop1.bind fun idx =>
    (blind_mutateTarget target _).bind fun _ => ?_
  cases keep with
  | true => exact blind_pushNext value
  | false => exact blind_next

theorem blind_indexAssignMany (target : StoreTarget) (argc : Nat) (keep : Bool) :
    BlindFlow (indexAssignMany ops target argc keep) := by
  refine blind_pop1.bind fun value => (blind_popMany argc).bind fun args =>
    (blind_mutateTarget target _).bind fun _ => ?_
  cases keep with
  | true => exact blind_pushNext value
  | false => exact blind_next

theorem blind_indexMutate (target : StoreTarget) (op : MutationOp) :
    BlindFlow (indexMutate ops target op) := by
  cases op with
  | pop =>
    exact blind_pop1.bind fun v => (blind_liftResult _).bind fun count =>
      (blind_mutateTarget target _).thenPush
  | remove => exact blind_pop1.bind fun idx => (blind_mutateTarget target _).thenPush
  | insert => exact blind_pop1.bind fun xs => (blind_mutateTarget target _).thenPush
  | insertAt =>
    exact blind_pop1.bind fun dst => blind_pop1.bind fun xs => (blind_mutateTarget target _).thenPush

/-! ### Calls -/

section Calls

variable (hops : ops.Blind) (table : FnTable)
include hops

omit hops in
theorem blind_takeBuiltinArgs (argc : Nat) :
    Blind (takeBuiltinArgs argc : Exec W (BuiltinFnArgs × Bool)) := by
  refine blind_takePendingNamedMeta.bind fun m => (blind_popMany argc).bind fun values => ?_
  cases m with
  | none => exact blind_pure _
  | some m => exact blind_pure _

theorem blind_callBuiltin (id : Nat) (discard : Bool) (args : BuiltinFnArgs) :
    BlindFlow (.mk fun d => .ok (.builtin (ops.callBuiltin id discard args (isMain table d) d.env)) d) :=
  fun pool d => .ok d (.builtin (hops.builtin id discard args (isMain table d) d.env pool))

theorem blind_callBuiltinValue (id argc : Nat) : BlindFlow (callBuiltinValue ops table id argc) :=
  (blind_takeBuiltinArgs argc).bind fun p => blind_callBuiltin hops table id false p.1

theorem blind_callRngValue (h : Handle) (argc : Nat) : BlindFlow (callRngValue ops h argc) := by
  refine (blind_takeBuiltinArgs argc).bind fun p pool d => ?_
  have hpush : BlindFlow (do
      push (← liftResult (ops.callRng h p.1 d.env).1)
      return .next : Exec W (Flow W)) := (blind_liftResult _).thenPush
  show ResultRel pool _
    ((do push (← liftResult (ops.callRng h p.1 d.env).1); return .next : Exec W (Flow W)).run
      { d with env := (ops.callRng h p.1 d.env).2 })
    ((do
        push (← liftResult (ops.callRng h p.1 (d.env.setPool pool)).1)
        return .next : Exec W (Flow W)).run
      { d.setPool pool with env := (ops.callRng h p.1 (d.env.setPool pool)).2 })
  rw [hops.rng]
  exact hpush pool _

omit hops in
theorem blind_callCasValue (kind : CasKind) (argc : Nat) : BlindFlow (callCasValue ops kind argc) := by
  refine (blind_takeBuiltinArgs argc).bind fun p => ?_
  dsimp only
  split
  · exact (blind_liftResult _).thenPush
  · exact blind_throw .notBound

omit hops in
theorem callableRun_rel (args : List Value) (expr : CallableExpr) (pool : Pool) : ∀ env : Env W,
    (callableRun ops args expr env).Rel pool (callableRun ops args expr (env.setPool pool)) := by
  intro env
  cases expr with
  | const v => exact .done _ env
  | call v => exact .call v _ env fun r env => .done r env
  | unary op operand =>
    exact (callableRun_rel args operand pool env).andThen fun r env => .done _ env
  | binary op left right =>
    refine (callableRun_rel args left pool env).andThen fun l env => ?_
    cases l with
    | error e => exact .done _ env
    | ok l => exact (callableRun_rel args right pool env).andThen fun r env => .done _ env

omit hops in
theorem blind_callLifted (expr : CallableExpr) (argc : Nat) : BlindFlow (callLifted ops expr argc) := by
  refine blind_takePendingNamedMeta.bind fun m => ?_
  cases m with
  | some m => exact blind_throw .arity
  | none =>
    exact (blind_popMany argc).bind fun args pool d =>
      .ok d (.builtin (callableRun_rel args expr pool d.env))

omit hops in
theorem blind_callUserFunction (tail : Bool) (callee : Value) (argc : Nat) :
    BlindFlow (callUserFunction tail callee argc : Exec W (Flow W)) := by
  cases tail <;> exact blind_flow nofun

theorem blind_dispatchPostfix (tail : Bool) (target : Value) (argc : Nat) :
    BlindFlow (dispatchPostfix ops table tail target argc) := by
  unfold dispatchPostfix
  split
  next => exact blind_callBuiltinValue hops table _ argc
  next => exact blind_callRngValue hops _ argc
  next => exact blind_callLifted _ argc
  next => exact blind_callCasValue _ argc
  next => exact blind_callUserFunction tail _ argc
  next => exact blind_callUserFunction tail _ argc
  next =>
    refine blind_takePendingNamedMeta.bind fun m => ?_
    cases m with
    | some m => exact blind_throw .arity
    | none => exact (blind_popMany argc).bind fun args => (blind_indexWithArgs target args).thenPush

theorem blind_dispatchUserValue (tail : Bool) (callee : Value) (argc : Nat) :
    BlindFlow (dispatchUserValue ops tail callee argc) := by
  have hthrow : BlindFlow (throw .notBound : Exec W (Flow W)) := blind_throw .notBound
  unfold dispatchUserValue
  split
  next => exact blind_callUserFunction tail _ argc
  next => exact blind_callUserFunction tail _ argc
  next => split; exacts [hthrow, blind_callCasValue _ argc]
  next => split; exacts [hthrow, blind_callRngValue hops _ argc]
  next => split; exacts [hthrow, blind_callLifted _ argc]
  next => exact hthrow

theorem blind_dispatchAnonCall (tail : Bool) (callee : Value) (argc : Nat) :
    BlindFlow (dispatchAnonCall ops table tail callee argc) := by
  unfold dispatchAnonCall
  split
  next => exact blind_callBuiltinValue hops table _ argc
  next => exact blind_callRngValue hops _ argc
  next => exact blind_callLifted _ argc
  next => exact blind_dispatchUserValue hops tail callee argc

theorem blind_dispatchLoadedLocalCall (tail : Bool) (callee : Value) (argc : Nat) :
    BlindFlow (dispatchLoadedLocalCall ops table tail callee argc) := by
  unfold dispatchLoadedLocalCall
  split
  next => exact blind_callBuiltinValue hops table _ argc
  next => exact blind_callRngValue hops _ argc
  next => exact blind_callUserFunction tail _ argc
  next => exact blind_callUserFunction tail _ argc
  next => exact blind_throw .call

theorem blind_dispatchLoadedUserCall (tail : Bool) (callee : Value) (argc : Nat) :
    BlindFlow (dispatchLoadedUserCall ops table tail callee argc) := by
  unfold dispatchLoadedUserCall
  split
  next => exact blind_callBuiltinValue hops table _ argc
  next => exact blind_callUserFunction tail _ argc
  next => exact blind_callUserFunction tail _ argc
  next => exact blind_dispatchUserValue hops tail _ argc
  next => exact blind_dispatchUserValue hops tail _ argc
  next => exact blind_dispatchUserValue hops tail _ argc
  next => exact blind_takePendingNamedMeta.bind fun _ => blind_throw .call

theorem blind_invokeBuiltinId (id argc : Nat) (discard : Bool) :
    BlindFlow (invokeBuiltinId ops table id argc discard) := by
  refine (blind_takeBuiltinArgs argc).bind fun p => ?_
  obtain ⟨args, hadNamedMeta⟩ := p
  show BlindFlow (if ops.isEnabledId id then _ else _)
  split
  next => exact blind_callBuiltin hops table id discard args
  next =>
    cases ops.builtinName id with
    | none => exact blind_throw .vm
    | some name =>
      refine (blind_readGlobal name).bind fun v => ?_
      split
      next =>
        split
        next => exact blind_throw .arity
        next => exact blind_callBuiltin hops table _ discard args
      next => exact fun pool d => .ok d (.builtin (.call _ _ d.env fun r env => .done _ env))

end Calls

/-! ### Instructions -/

section Instructions

variable (hops : ops.Blind) (table : FnTable)
include hops

theorem execPlain_blind {i : Instruction} (hi : i.usesPool = false) :
    BlindFlow (execPlain ops table i) := by
  cases i with
  | loadConst v => exact blind_pushNext v
  | loadOwnedConst slot => cases hi
  | loadClosure payload =>
    exact (blind_mapM blind_capture payload.captures).bind fun captured => blind_pushNext _
  | loadVar name => exact (blind_resolveOperand (.var name)).thenPush
  | loadCallTarget operand => exact (blind_resolveOperand operand).thenPush
  | loadVarExists name =>
    exact fun pool d => blind_pushNext (.bool (d.env.globals name).isSome) pool d
  | loadCapture i => exact (blind_readCapture i).thenPush
  | loadSelf => exact blind_currentFunction.bind fun a => blind_pushNext a.callable
  | storeVar name => exact blind_pop1.bind fun v => (blind_writeGlobal name v).bind fun _ => blind_next
  | storeVarKeep name => exact blind_peek.bind fun v => (blind_writeGlobal name v).bind fun _ => blind_next
  | loadLocal slot => exact (blind_readLocal slot).thenPush
  | storeLocal slot => exact blind_pop1.bind fun v => (blind_writeLocal slot v).bind fun _ => blind_next
  | storeLocalKeep slot => exact blind_peek.bind fun v => (blind_writeLocal slot v).bind fun _ => blind_next
  | storeCapture i => exact blind_pop1.bind fun v => (blind_writeCapture i v).bind fun _ => blind_next
  | storeCaptureKeep i => exact blind_peek.bind fun v => (blind_writeCapture i v).bind fun _ => blind_next
  | unpack paths =>
    refine blind_pop1.bind fun source => ?_
    cases paths.mapM (ops.extractUnpackPath source) with
    | none => exact blind_throw .index
    | some values => exact fun pool d => .ok _ (.same (by simp))
  | loadUnpack slot =>
    intro pool d
    unfold execPlain
    dsimp only [Data.setPool]
    cases d.unpackFrames.head?.bind (·[slot]?) with
    | none => exact .error .vm d
    | some v => exact .ok _ (.same (by simp))
  | endUnpack =>
    rintro pool ⟨stack, function, _ | ⟨frame, frames⟩, metadata, env⟩
    · exact .error .vm _
    · exact .ok _ (.same (by simp))
  | binaryOp op left right => exact (blind_binaryOp op left right).thenPush
  | catAssign target right =>
    exact (blind_resolveOperand right).bind fun r => (blind_mutateTarget target _).thenPush
  | cmpChain chain =>
    refine (blind_ensureStackLen (chain.length + 1)).bind fun _ pool d => ?_
    dsimp only [Data.setPool]
    cases ops.cmpChain chain (d.stack.take (chain.length + 1)).reverse with
    | error e => exact .error e d
    | ok v => exact .ok _ (.same (by simp))
  | cat n => exact (blind_popMany n).bind fun values => blind_pushNext _
  | unaryOp op operand =>
    exact (blind_resolveOperand operand).bind fun v => (blind_liftResult _).thenPush
  | boolAndLazy target =>
    rintro pool ⟨_ | ⟨v, stack⟩, function, frames, metadata, env⟩
    · exact .ok _ (.same (by simp))
    · cases v with
      | bool b => cases b <;> exact .ok _ (.same (by simp))
      | _ => exact .ok _ (.same (by simp))
  | boolOrLazy target =>
    rintro pool ⟨_ | ⟨v, stack⟩, function, frames, metadata, env⟩
    · exact .ok _ (.same (by simp))
    · cases v with
      | bool b => cases b <;> exact .ok _ (.same (by simp))
      | _ => exact .ok _ (.same (by simp))
  | boolCombine op => exact blind_pop2.bind fun p => (blind_liftResult _).thenPush
  | callBuiltinId id argc => exact blind_invokeBuiltinId hops table id argc false
  | callBuiltinDiscardId id argc => exact blind_invokeBuiltinId hops table id argc true
  | callLocal slot argc | tailCallLocal slot argc =>
    exact (blind_popUnder argc).bind fun f => blind_dispatchLoadedLocalCall hops table _ f argc
  | callUser name argc | tailCallUser name argc =>
    exact (blind_popUnder argc).bind fun f => blind_dispatchLoadedUserCall hops table _ f argc
  | callAnon argc | tailCallAnon argc =>
    exact (blind_popUnder argc).bind fun f => blind_dispatchAnonCall hops table _ f argc
  | postfix_ argc | tailPostfix argc =>
    exact (blind_popUnder argc).bind fun f => blind_dispatchPostfix hops table _ f argc
  | makeList n => exact (blind_popMany n).bind fun values => blind_pushNext _
  | makeDict n =>
    refine (blind_popMany (n * 2)).bind fun values => ?_
    cases dictItems values with
    | none => exact blind_throw .domain
    | some items => exact blind_pushNext _
  | makeRange inclusive hasNext =>
    refine blind_pop1.bind fun e => ?_
    cases hasNext with
    | true =>
      refine BlindTo.bind (blind_pop1.bind fun v => blind_pure (some v)) fun next_ => ?_
      refine blind_pop1.bind fun start => ?_
      cases next_ <;> exact (blind_liftResult _).thenPush
    | false => exact blind_pop1.bind fun start => (blind_liftResult _).thenPush
  | index => exact blind_pop1.bind fun idx => blind_pop1.bind fun obj => (blind_indexOne obj idx).thenPush
  | indexMany argc =>
    exact (blind_popMany argc).bind fun args => blind_pop1.bind fun obj =>
      (blind_indexWithArgs obj args).thenPush
  | checkAtomPathIndex =>
    refine blind_peek.bind fun v => ?_
    split
    exacts [blind_throw .index, blind_next]
  | indexLoadLocal slot =>
    exact blind_pop1.bind fun idx => (blind_readLocal slot).bind fun v => (blind_indexOne v idx).thenPush
  | indexLoadCapture i =>
    exact blind_pop1.bind fun idx => (blind_readCapture i).bind fun v => (blind_indexOne v idx).thenPush
  | indexLoadVar name =>
    exact blind_pop1.bind fun idx => (blind_readGlobal name).bind fun v => (blind_indexOne v idx).thenPush
  | indexManyLoadLocal slot argc =>
    exact (blind_popMany argc).bind fun args => (blind_readLocal slot).bind fun v =>
      (blind_indexWithArgs v args).thenPush
  | indexManyLoadCapture i argc =>
    exact (blind_popMany argc).bind fun args => (blind_readCapture i).bind fun v =>
      (blind_indexWithArgs v args).thenPush
  | indexManyLoadVar name argc =>
    exact (blind_popMany argc).bind fun args => (blind_readGlobal name).bind fun v =>
      (blind_indexWithArgs v args).thenPush
  | indexAssignVar name | indexAssignLocal name | indexAssignCapture name | indexAssignVarDrop name
  | indexAssignLocalDrop name | indexAssignCaptureDrop name => exact blind_indexAssignOne _ _
  | indexManyAssignVar name argc | indexManyAssignLocal name argc | indexManyAssignCapture name argc
  | indexManyAssignVarDrop name argc | indexManyAssignLocalDrop name argc
  | indexManyAssignCaptureDrop name argc => exact blind_indexAssignMany _ argc _
  | jump target => exact blind_flow (by simp)
  | jumpIfFalse target =>
    exact blind_pop1.bind fun v => (blind_condition v).bind fun b => blind_jumpUnless target b
  | jumpIfCmpFalse op left right target =>
    exact (blind_evalCmpBranchCondition op left right).bind fun b => blind_jumpUnless target b
  | nLoopEnter index count snapshot target =>
    refine (blind_readLocal index).bind fun i => (blind_readLocal count).bind fun n =>
      (blind_evalNLoopCondition i n).bind fun go => ?_
    cases go with
    | true => exact (blind_writeLocal snapshot i).bind fun _ => blind_next
    | false => exact blind_flow (by simp)
  | nLoopNext snapshot index target =>
    have hwrite : ∀ v, BlindFlow (do
        writeLocal index v
        return .jump target : Exec W (Flow W)) := fun v =>
      (blind_writeLocal index v).bind fun _ => blind_flow (by simp)
    refine (blind_readLocal snapshot).bind fun v => ?_
    dsimp only
    split
    next =>
      split
      next => exact (blind_pure _).bind hwrite
      next => exact (blind_liftResult _).bind hwrite
    next => exact (blind_liftResult _).bind hwrite
  | jumpIfGE target =>
    refine blind_pop2.bind fun p => ?_
    obtain ⟨left, right⟩ := p
    dsimp only
    split
    next => exact blind_jumpUnless target _
    next =>
      exact (blind_liftResult _).bind fun v => (blind_condition v).bind fun b =>
        blind_jumpUnless target b
  | jumpIfLEZLocal slot target =>
    refine (blind_readLocal slot).bind fun v => ?_
    split
    next => exact blind_jumpUnless target _
    next => exact blind_jumpUnless target _
    next => exact (blind_evalCmpBranchCondition _ _ _).bind fun b => blind_jumpUnless target b
  | jumpIfNamedProvided slot bit target =>
    refine (blind_readLocal slot).bind fun v => ?_
    split
    next => exact blind_jumpUnless target _
    next => exact blind_next
  | indexMutate target op => exact blind_indexMutate target op
  | pop => exact fun pool d => .ok _ (.same (by simp))
  | return_ => exact blind_flow (by simp)
  | traceBegin => exact blind_next
  | debug => exact blind_peek.bind fun _ => blind_next
  | pause => exact blind_next
  | try_ len => exact blind_flow (by simp)
  | import_ data => exact blind_flow (by simp)
  | namedCall call metadata => exact blind_throw .vm

/-- **An instruction does the same whatever the pool**, unless it takes a
constant from it. -/
theorem exec_blind {i : Instruction} (hi : i.usesPool = false) : BlindFlow (exec ops table i) := by
  rcases exec_cases ops table i with ⟨call, metadata, rfl⟩ | heq
  · have hcall : call.usesPool = false := hi
    exact fun pool d => execPlain_blind hops table hcall pool { d with pendingNamedMeta := some metadata }
  · rw [heq]
    exact execPlain_blind hops table hi

end Instructions

end Exec

end Wqpl
