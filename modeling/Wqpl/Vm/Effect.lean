/-
# Stack effects

What an instruction takes off the operand stack and puts there
(`Instruction.pops`, `Instruction.pushes`), whatever lies below
(`exec_effect`).
-/
import Wqpl.Vm.Exec

namespace Wqpl

def Operand.pops : Operand → Nat := Exec.stackCount

/-- The operands of an instruction on the stack. -/
def Instruction.pops : Instruction → Nat
  | .loadCallTarget operand => operand.pops
  | .storeVar _ | .storeVarKeep _ | .storeLocal _ | .storeLocalKeep _ | .storeCapture _
  | .storeCaptureKeep _ => 1
  | .unpack _ => 1
  | .binaryOp _ left right | .jumpIfCmpFalse _ left right _ => left.pops + right.pops
  | .catAssign _ right => right.pops
  | .cmpChain ops => ops.length + 1
  | .cat n | .makeList n => n
  | .makeDict n => n * 2
  | .unaryOp _ operand => operand.pops
  | .boolAndLazy _ | .boolOrLazy _ => 1
  | .boolCombine _ => 2
  | .callBuiltinId _ argc | .callBuiltinDiscardId _ argc => argc
  | .callLocal _ argc | .callUser _ argc | .callAnon argc | .postfix_ argc
  | .tailCallLocal _ argc | .tailCallUser _ argc | .tailCallAnon argc | .tailPostfix argc
  | .indexMany argc => argc + 1
  | .makeRange _ hasNext => if hasNext then 3 else 2
  | .index => 2
  | .checkAtomPathIndex => 1
  | .indexLoadLocal _ | .indexLoadCapture _ | .indexLoadVar _ => 1
  | .indexManyLoadLocal _ argc | .indexManyLoadCapture _ argc | .indexManyLoadVar _ argc => argc
  | .indexAssignVar _ | .indexAssignLocal _ | .indexAssignCapture _ | .indexAssignVarDrop _
  | .indexAssignLocalDrop _ | .indexAssignCaptureDrop _ => 2
  | .indexManyAssignVar _ argc | .indexManyAssignLocal _ argc | .indexManyAssignCapture _ argc
  | .indexManyAssignVarDrop _ argc | .indexManyAssignLocalDrop _ argc
  | .indexManyAssignCaptureDrop _ argc => argc + 1
  | .jumpIfFalse _ => 1
  | .jumpIfGE _ => 2
  | .indexMutate _ .insertAt => 2
  | .indexMutate _ _ => 1
  | .pop | .debug => 1
  | .namedCall call _ => call.pops
  | _ => 0

/-- The values an instruction leaves on the stack once it is done, a call
included. -/
def Instruction.pushes : Instruction → Nat
  | .loadConst _ | .loadOwnedConst _ | .loadClosure _ | .loadVar _ | .loadCallTarget _
  | .loadVarExists _ | .loadCapture _ | .loadSelf | .loadLocal _ | .loadUnpack _ => 1
  | .storeVarKeep _ | .storeLocalKeep _ | .storeCaptureKeep _ => 1
  | .binaryOp _ _ _ | .catAssign _ _ | .cmpChain _ | .cat _ | .unaryOp _ _ | .boolAndLazy _
  | .boolOrLazy _ | .boolCombine _ => 1
  | .callBuiltinId _ _ | .callBuiltinDiscardId _ _ | .callLocal _ _ | .callUser _ _ | .callAnon _
  | .postfix_ _ | .tailCallLocal _ _ | .tailCallUser _ _ | .tailCallAnon _ | .tailPostfix _ => 1
  | .makeList _ | .makeDict _ | .makeRange _ _ => 1
  | .index | .indexMany _ | .checkAtomPathIndex | .indexLoadLocal _ | .indexLoadCapture _
  | .indexLoadVar _ | .indexManyLoadLocal _ _ | .indexManyLoadCapture _ _
  | .indexManyLoadVar _ _ => 1
  | .indexAssignVar _ | .indexAssignLocal _ | .indexAssignCapture _ | .indexManyAssignVar _ _
  | .indexManyAssignLocal _ _ | .indexManyAssignCapture _ _ => 1
  | .indexMutate _ _ => 1
  | .debug => 1
  | .import_ _ => 1
  | .namedCall call _ => call.pushes
  | _ => 0

/-- Whether the instruction ends an anonymous unpacking. -/
def Instruction.endsUnpack : Instruction → Bool
  | .endUnpack => true
  | .namedCall call _ => call.endsUnpack
  | _ => false

/-- What lies on the stack in place of the operands when an instruction that
leaves `pushes` values has run: the arguments of a call to come, nothing yet of
a builtin's or a module's value. -/
def Flow.leaves {W : Type} (pushes : Nat) : Flow W → Nat
  | .enter _ argc | .tail _ argc => argc
  | .builtin _ | .import_ _ => 0
  | _ => pushes

namespace Exec

variable {W : Type} {α β : Type}

/-- The stack after a computation that was given `total` values and takes `n`
of them: something over `lower`. -/
def Over (lower : List Value) (total n : Nat) (k : α → Nat) : ExecResult W α → Prop
  | .ok a d => ∃ upper, d.stack = upper ++ lower ∧ upper.length + n = total + k a
  | .error _ d => ∃ upper, d.stack = upper ++ lower

/-- The unpack frames stay, others may come, and the activation stays. -/
def Keeps (d d' : Data W) : Prop :=
  d.unpackFrames <:+ d'.unpackFrames ∧ d'.function.isSome = d.function.isSome

theorem Keeps.trans {d d' d'' : Data W} (h : Keeps d d') (h' : Keeps d' d'') : Keeps d d'' :=
  ⟨h.1.trans h'.1, h'.2.trans h.2⟩

/-- `m` takes `n` values off the stack, if it has so many, and leaves `k a` in
their place when it returns `a`; what lies below them stays, also after an
error. The unpack frames stay in any case, and so does the activation. -/
structure Effect (n : Nat) (k : α → Nat) (m : Exec W α) : Prop where
  stack : ∀ (d : Data W) (upper lower : List Value), d.stack = upper ++ lower →
    n ≤ upper.length → Over lower upper.length n k (m.run d)
  keeps : ∀ d : Data W, Keeps d (m.run d).data

/-- What an effect is about. -/
def operands (d : Data W) : List Value × List (List Value) × Bool :=
  (d.stack, d.unpackFrames, d.function.isSome)

theorem operands_mapFunction (d : Data W) (f : Activation → Activation) :
    operands { d with function := d.function.map f } = operands d := by
  unfold operands
  rw [Option.isSome_map]

theorem Effect.congr {n n' : Nat} {k k' : α → Nat} {m : Exec W α} (h : Effect n k m) (hn : n = n')
    (hk : ∀ a, k a = k' a) : Effect n' k' m := by
  obtain rfl := funext hk
  rwa [← hn]

/-- An effect does not need all the values it is given. -/
theorem Effect.weaken {n : Nat} (j : Nat) {k : α → Nat} {m : Exec W α} (h : Effect n k m) :
    Effect (n + j) (fun a => k a + j) m := by
  refine ⟨fun d upper lower hd hn => ?_, h.keeps⟩
  have h := h.stack d upper lower hd (by omega)
  cases hm : m.run d with
  | error e d' =>
    rw [hm] at h
    exact h
  | ok a d' =>
    rw [hm] at h
    obtain ⟨upper', hs, hl⟩ := h
    refine ⟨upper', hs, ?_⟩
    show upper'.length + (n + j) = upper.length + (k a + j)
    omega

/-- The second computation takes what the first one leaves. -/
theorem Effect.bind {n : Nat} {k : α → Nat} {k' : β → Nat} {m : Exec W α} {f : α → Exec W β}
    (hm : Effect n k m) (hf : ∀ a, Effect (k a) k' (f a)) : Effect n k' (m >>= f) := by
  constructor
  · intro d upper lower hd hn
    have h := hm.stack d upper lower hd hn
    rw [run_bind]
    cases hmd : m.run d with
    | error e d' =>
      rw [hmd] at h
      exact h
    | ok a d' =>
      rw [hmd] at h
      obtain ⟨upper', hs, hl⟩ := h
      have h' := (hf a).stack d' upper' lower hs (by omega)
      show Over lower upper.length n k' ((f a).run d')
      cases hfd : (f a).run d' with
      | error e d'' =>
        rw [hfd] at h'
        exact h'
      | ok b d'' =>
        rw [hfd] at h'
        obtain ⟨upper'', hs', hl'⟩ := h'
        exact ⟨upper'', hs', by omega⟩
  · intro d
    have h := hm.keeps d
    rw [run_bind]
    cases hmd : m.run d with
    | error e d' =>
      rw [hmd] at h
      exact h
    | ok a d' =>
      rw [hmd] at h
      exact h.trans ((hf a).keeps d')

/-- The first computation leaves nothing, and the second one takes more. -/
theorem Effect.seq {n j : Nat} {k : β → Nat} {m : Exec W α} {f : α → Exec W β}
    (hm : Effect n (fun _ => 0) m) (hf : ∀ a, Effect j k (f a)) : Effect (n + j) k (m >>= f) :=
  (hm.weaken j).bind fun a => (hf a).congr (Nat.zero_add j).symm fun _ => rfl

/-! ### Parts of the data that stay -/

/-- `m` does not change the part `g` of the data. -/
def Preserves {γ : Type} (g : Data W → γ) (m : Exec W α) : Prop :=
  ∀ d, g (m.run d).data = g d

section Preserves

variable {γ : Type} {g : Data W → γ}

theorem Preserves.bind {m : Exec W α} {f : α → Exec W β} (hm : Preserves g m)
    (hf : ∀ a, Preserves g (f a)) : Preserves g (m >>= f) := by
  intro d
  have h := hm d
  rw [run_bind]
  cases hr : m.run d with
  | ok a d' =>
    rw [hr] at h
    exact (hf a d').trans h
  | error e d' =>
    rw [hr] at h
    exact h

theorem preserves_pure (a : α) : Preserves g (pure a : Exec W α) := fun _ => rfl

theorem preserves_throw (e : WqErrorType) : Preserves g (throw e : Exec W α) := fun _ => rfl

theorem preserves_liftResult (r : WqResult α) : Preserves g (liftResult r : Exec W α) :=
  fun _ => by cases r <;> rfl

theorem preserves_getEnv : Preserves g (getEnv : Exec W (Env W)) := fun _ => rfl

theorem preserves_currentFunction : Preserves g (currentFunction : Exec W Activation) := by
  intro d
  unfold currentFunction
  cases h : d.function <;> simp [h, ExecResult.data]

theorem preserves_ensureStackLen (n : Nat) : Preserves g (ensureStackLen n : Exec W Unit) := by
  intro d
  unfold ensureStackLen
  by_cases h : d.stack.length < n <;> simp [h, ExecResult.data]

theorem preserves_peek : Preserves g (peek : Exec W Value) := by
  intro d
  unfold peek
  cases h : d.stack <;> simp [h, ExecResult.data]

theorem preserves_localSlot (slot : Nat) : Preserves g (localSlot slot : Exec W Slot) := by
  refine preserves_currentFunction.bind fun a => ?_
  cases a.locals[slot]? with
  | some s => exact preserves_pure s
  | none => exact preserves_throw .vm

theorem preserves_readLocal (slot : Nat) : Preserves g (readLocal slot : Exec W Value) :=
  (preserves_localSlot slot).bind fun _ => preserves_getEnv.bind fun _ => preserves_pure _

theorem preserves_captureCell (i : Nat) : Preserves g (captureCell i : Exec W CellId) := by
  refine preserves_currentFunction.bind fun a => ?_
  cases a.captures[i]? with
  | some c => exact preserves_pure c
  | none => exact preserves_throw .vm

theorem preserves_readCapture (i : Nat) : Preserves g (readCapture i : Exec W Value) :=
  (preserves_captureCell i).bind fun _ => preserves_getEnv.bind fun _ => preserves_pure _

theorem preserves_readGlobal (name : String) : Preserves g (readGlobal name : Exec W Value) := by
  refine preserves_getEnv.bind fun env => ?_
  cases env.globals name with
  | some v => exact preserves_pure v
  | none => exact preserves_throw .notBound

theorem preserves_readTarget (target : StoreTarget) :
    Preserves g (readTarget target : Exec W Value) := by
  cases target with
  | local_ slot => exact preserves_readLocal slot
  | capture i => exact preserves_readCapture i
  | var name => exact preserves_readGlobal name

theorem preserves_condition (v : Value) : Preserves g (condition v : Exec W Bool) := by
  unfold condition
  cases v.tryToRustBool with
  | some b => exact preserves_pure b
  | none => exact preserves_throw .domain

theorem preserves_indexOne (ops : Ops W) (obj idx : Value) :
    Preserves g (indexOne ops obj idx) := by
  unfold indexOne
  cases ops.index obj idx with
  | some v => exact preserves_pure v
  | none => exact preserves_throw .index

theorem preserves_indexWithArgs (ops : Ops W) (obj : Value) (args : List Value) :
    Preserves g (indexWithArgs ops obj args) := by
  rcases args with _ | ⟨idx, _ | ⟨b, args⟩⟩
  · unfold indexWithArgs
    dsimp only
    cases ops.indexMany obj [] with
    | some v => exact preserves_pure v
    | none => exact preserves_throw .index
  · exact preserves_indexOne ops obj idx
  · unfold indexWithArgs
    dsimp only
    cases ops.indexMany obj (idx :: b :: args) with
    | some v => exact preserves_pure v
    | none => exact preserves_throw .index

/-- A part that only depends on other parts than the environment. -/
theorem preserves_setEnv (henv : ∀ d env, g { d with env := env } = g d) (env : Env W) :
    Preserves g (setEnv env) := fun d => henv d env

/-- A part that depends neither on the environment nor on the locals. -/
theorem preserves_writeLocal (henv : ∀ d env, g { d with env := env } = g d)
    (hfn : ∀ d h, g { d with function := d.function.map h } = g d) (slot : Nat) (v : Value) :
    Preserves g (writeLocal slot v) := by
  refine (preserves_localSlot slot).bind fun s => ?_
  cases s with
  | cell c => exact preserves_getEnv.bind fun _ => preserves_setEnv henv _
  | value _ => exact fun d => hfn d _

theorem preserves_writeCapture (henv : ∀ d env, g { d with env := env } = g d) (i : Nat)
    (v : Value) : Preserves g (writeCapture i v) :=
  (preserves_captureCell i).bind fun _ => preserves_getEnv.bind fun _ => preserves_setEnv henv _

theorem preserves_writeGlobal (henv : ∀ d env, g { d with env := env } = g d) (name : String)
    (v : Value) : Preserves g (writeGlobal name v) :=
  preserves_getEnv.bind fun _ => preserves_setEnv henv _

theorem preserves_writeTarget (henv : ∀ d env, g { d with env := env } = g d)
    (hfn : ∀ d h, g { d with function := d.function.map h } = g d) (target : StoreTarget) (v : Value) :
    Preserves g (writeTarget target v) := by
  cases target with
  | local_ slot => exact preserves_writeLocal henv hfn slot v
  | capture i => exact preserves_writeCapture henv i v
  | var name => exact preserves_writeGlobal henv name v

theorem preserves_mutateTarget (henv : ∀ d env, g { d with env := env } = g d)
    (hfn : ∀ d h, g { d with function := d.function.map h } = g d) (target : StoreTarget)
    (f : Value → WqResult α × Value) : Preserves g (mutateTarget target f) :=
  (preserves_readTarget target).bind fun _ => (preserves_writeTarget henv hfn target _).bind fun _ =>
    preserves_liftResult _

theorem preserves_capture (henv : ∀ d env, g { d with env := env } = g d)
    (hfn : ∀ d h, g { d with function := d.function.map h } = g d) (c : Capture) :
    Preserves g (capture c : Exec W CellId) := by
  have halloc : ∀ v, Preserves g (Exec.mk fun d =>
      ExecResult.ok (d.env.allocCell v).1 { d with env := (d.env.allocCell v).2 }) :=
    fun v d => henv d _
  cases c with
  | local_ slot => exact fun d => henv d _
  | localShared slot =>
    intro d
    unfold capture captureShared
    dsimp only
    split
    next => rfl
    next v _ =>
      have hcell := hfn { d with env := (d.env.allocCell v).2 } fun a =>
        { a with locals := a.locals.set slot (.cell (d.env.allocCell v).1) }
      exact hcell.trans (henv d _)
    next => exact henv d _
  | fromCapture i =>
    intro d
    unfold capture
    dsimp only
    split
    · rfl
    · exact henv d _
  | global name => exact (preserves_readGlobal name).bind halloc

theorem preserves_mapM {ι : Type} {f : ι → Exec W α} (hf : ∀ x, Preserves g (f x)) :
    ∀ xs : List ι, Preserves g (xs.mapM f)
  | [] => preserves_pure []
  | x :: xs => by
    rw [List.mapM_cons]
    exact (hf x).bind fun _ => (preserves_mapM hf xs).bind fun _ => preserves_pure _

end Preserves

/-! ### Effects of the parts of instructions -/

/-- A computation that leaves the stack as it is. -/
theorem effect_of_preserves {m : Exec W α} (h : Preserves operands m) :
    Effect 0 (fun _ => 0) m := by
  have hstack : ∀ d, (m.run d).data.stack = d.stack := fun d => congrArg Prod.fst (h d)
  have hframes : ∀ d, (m.run d).data.unpackFrames = d.unpackFrames :=
    fun d => congrArg (fun o => o.2.1) (h d)
  refine ⟨fun d upper lower hd _ => ?_, fun d => ⟨(hframes d).symm ▸ List.suffix_rfl,
    congrArg (fun o => o.2.2) (h d)⟩⟩
  have hs := hstack d
  cases hm : m.run d with
  | ok a d' =>
    rw [hm] at hs
    exact ⟨upper, hs.trans hd, rfl⟩
  | error e d' =>
    rw [hm] at hs
    exact ⟨upper, hs.trans hd⟩

theorem effect_pure (a : α) (k : α → Nat) : Effect (k a) k (pure a : Exec W α) :=
  ⟨fun _ upper _ hd _ => ⟨upper, hd, rfl⟩, fun _ => ⟨List.suffix_rfl, rfl⟩⟩

theorem effect_throw (n : Nat) (k : α → Nat) (e : WqErrorType) :
    Effect n k (throw e : Exec W α) :=
  ⟨fun _ upper _ hd _ => ⟨upper, hd⟩, fun _ => ⟨List.suffix_rfl, rfl⟩⟩

theorem effect_push (v : Value) : Effect 0 (fun _ => 1) (push v : Exec W Unit) :=
  ⟨fun _ upper _ hd _ => ⟨v :: upper, by rw [List.cons_append, ← hd], rfl⟩,
    fun _ => ⟨List.suffix_rfl, rfl⟩⟩

theorem effect_pop1 : Effect 1 (fun _ => 0) (pop1 : Exec W Value) := by
  constructor
  · intro d upper lower hd hn
    rcases upper with _ | ⟨v, upper⟩
    · cases hn
    · have hpop : pop1.run d = .ok v { d with stack := upper ++ lower } := by simp [pop1, hd]
      rw [hpop]
      exact ⟨upper, rfl, rfl⟩
  · intro d
    unfold pop1
    dsimp only
    split <;> exact ⟨List.suffix_rfl, rfl⟩

theorem effect_pop2 : Effect 2 (fun _ => 0) (pop2 : Exec W (Value × Value)) := by
  constructor
  · intro d upper lower hd hn
    rcases upper with _ | ⟨r, _ | ⟨l, upper⟩⟩
    · cases hn
    · simp only [List.length_cons, List.length_nil] at hn
      omega
    · have hpop : pop2.run d = .ok (l, r) { d with stack := upper ++ lower } := by simp [pop2, hd]
      rw [hpop]
      exact ⟨upper, rfl, rfl⟩
  · intro d
    unfold pop2
    dsimp only
    split <;> exact ⟨List.suffix_rfl, rfl⟩

theorem effect_peek : Effect 1 (fun _ => 1) (peek : Exec W Value) :=
  (effect_of_preserves preserves_peek).weaken 1

theorem effect_ensureStackLen (n : Nat) :
    Effect n (fun _ => n) (ensureStackLen n : Exec W Unit) :=
  ((effect_of_preserves (preserves_ensureStackLen n)).weaken n).congr (Nat.zero_add n)
    fun _ => Nat.zero_add n

theorem effect_popMany (n : Nat) : Effect n (fun _ => 0) (popMany n : Exec W (List Value)) := by
  refine (effect_ensureStackLen n).bind fun _ => ⟨fun d upper lower hd hn => ?_, fun _ =>
    ⟨List.suffix_rfl, rfl⟩⟩
  refine ⟨upper.drop n, ?_, ?_⟩
  · show d.stack.drop n = _
    rw [hd, List.drop_append_of_le_length hn]
  · show (upper.drop n).length + n = upper.length + 0
    rw [List.length_drop]
    omega

theorem effect_popUnder (n : Nat) : Effect (n + 1) (fun _ => n) (popUnder n : Exec W Value) := by
  refine (effect_ensureStackLen (n + 1)).bind fun _ => ⟨fun d upper lower hd hn => ?_, fun d => ?_⟩
  · have hget : d.stack[n]? = some upper[n] := by
      rw [hd, List.getElem?_append_left hn, List.getElem?_eq_getElem hn]
    dsimp only
    rw [hget]
    refine ⟨upper.eraseIdx n, ?_, ?_⟩
    · show d.stack.eraseIdx n = _
      rw [hd, List.eraseIdx_append_of_lt_length hn]
    · show (upper.eraseIdx n).length + (n + 1) = upper.length + n
      rw [List.length_eraseIdx_of_lt hn]
      omega
  · dsimp only
    split <;> exact ⟨List.suffix_rfl, rfl⟩

/-- A computation that takes all there is. -/
theorem Effect.seqAll {n : Nat} {k : β → Nat} {m : Exec W α} {f : α → Exec W β}
    (hm : Effect n (fun _ => 0) m) (hf : ∀ a, Effect 0 k (f a)) : Effect n k (m >>= f) :=
  hm.bind hf

theorem Effect.seqPop1 {n : Nat} {k : β → Nat} {f : Value → Exec W β}
    (hf : ∀ v, Effect n k (f v)) : Effect (n + 1) k (pop1 >>= f) :=
  (effect_pop1.seq hf).congr (Nat.add_comm 1 n) fun _ => rfl

/-- A computation that leaves the stack as it is, before another one. -/
theorem Effect.after {n : Nat} {k : β → Nat} {m : Exec W α} {f : α → Exec W β}
    (hm : Preserves operands m) (hf : ∀ a, Effect n k (f a)) : Effect n k (m >>= f) :=
  ((effect_of_preserves hm).seq hf).congr (Nat.zero_add n) fun _ => rfl

theorem effect_return {n : Nat} {k : α → Nat} {a : α} (h : k a = n) :
    Effect n k (pure a : Exec W α) := by
  subst h
  exact effect_pure a k

theorem effect_liftResult (r : WqResult α) : Effect 0 (fun _ => 0) (liftResult r : Exec W α) :=
  effect_of_preserves (preserves_liftResult r)

theorem effect_condition (v : Value) : Effect 0 (fun _ => 0) (condition v : Exec W Bool) :=
  effect_of_preserves (preserves_condition v)

/-- The end of an instruction that leaves a value. -/
theorem effect_pushNext (v : Value) :
    Effect 0 (Flow.leaves 1) (do push v; return .next : Exec W (Flow W)) :=
  (effect_push v).bind fun _ => effect_return rfl

variable (ops : Ops W) (table : FnTable)

theorem effect_resolveOperand (operand : Operand) :
    Effect operand.pops (fun _ => 0) (resolveOperand ops operand) := by
  cases operand with
  | stack => exact effect_pop1
  | const v => exact effect_return rfl
  | local_ slot => exact effect_of_preserves (preserves_readLocal slot)
  | capture i => exact effect_of_preserves (preserves_readCapture i)
  | var name =>
    refine effect_of_preserves (preserves_getEnv.bind fun env => ?_)
    cases env.globals name with
    | some v => exact preserves_pure v
    | none =>
      cases ops.builtinValue name with
      | some v => exact preserves_pure v
      | none => exact preserves_throw .notBound
  | self => exact effect_of_preserves (preserves_currentFunction.bind fun _ => preserves_pure _)

/-- The fast path takes both operands or none. -/
theorem effect_tryIntOperands (left right : Operand) (eval : Int64 → Int64 → Option α) :
    Effect (left.pops + right.pops) (fun r => if r.isSome then 0 else left.pops + right.pops)
      (tryIntOperands left right eval : Exec W (Option α)) := by
  constructor
  · intro d upper lower hd hn
    have hnone : Over lower upper.length (left.pops + right.pops)
        (fun r : Option α => if r.isSome then 0 else left.pops + right.pops)
        (ExecResult.ok none d) := ⟨upper, hd, rfl⟩
    unfold tryIntOperands
    dsimp only
    split
    next => exact hnone
    next =>
      split
      next r l _ _ =>
        cases heval : eval l r with
        | none => exact hnone
        | some a =>
          refine ⟨upper.drop (left.pops + right.pops), ?_, ?_⟩
          · show d.stack.drop (left.pops + right.pops) = _
            rw [hd, List.drop_append_of_le_length hn]
          · show (upper.drop _).length + _ = _ + 0
            rw [List.length_drop]
            omega
      next => exact hnone
  · intro d
    unfold tryIntOperands
    dsimp only
    split
    next => exact ⟨List.suffix_rfl, rfl⟩
    next =>
      split
      next => split <;> exact ⟨List.suffix_rfl, rfl⟩
      next => exact ⟨List.suffix_rfl, rfl⟩

theorem effect_binaryOp (op : BinaryOperator) (left right : Operand) :
    Effect (left.pops + right.pops) (fun _ => 0) (binaryOp ops op left right) := by
  refine (effect_tryIntOperands left right _).bind fun r => ?_
  cases r with
  | some v => exact effect_return rfl
  | none =>
    have hboth : Effect (right.pops + left.pops) (fun _ => 0) (resolveOperands ops left right) :=
      (effect_resolveOperand ops right).seq fun _ =>
        (effect_resolveOperand ops left).seqAll fun _ => effect_return rfl
    exact (hboth.seqAll fun p => effect_liftResult _).congr (Nat.add_comm _ _) fun _ => rfl

theorem effect_evalCmpBranchCondition (op : BinaryOperator) (left right : Operand) :
    Effect (left.pops + right.pops) (fun _ => 0) (evalCmpBranchCondition ops op left right) := by
  refine (effect_tryIntOperands left right _).bind fun r => ?_
  cases r with
  | some b => exact effect_return rfl
  | none => exact (effect_binaryOp ops op left right).seqAll fun v => effect_condition v

theorem preserves_evalNLoopCondition {γ : Type} {g : Data W → γ} (index count : Value) :
    Preserves g (evalNLoopCondition ops index count) := by
  unfold evalNLoopCondition
  split
  next => exact preserves_pure _
  next => exact (preserves_liftResult _).bind fun v => preserves_condition v

theorem preserves_mutateTarget_stack (target : StoreTarget) (f : Value → WqResult α × Value) :
    Preserves operands (mutateTarget target f : Exec W α) :=
  preserves_mutateTarget (fun _ _ => rfl) operands_mapFunction target f

theorem effect_indexAssignOne (target : StoreTarget) (keep : Bool) :
    Effect 2 (Flow.leaves keep.toNat) (indexAssignOne ops target keep) := by
  refine .seqPop1 fun value => .seqPop1 fun idx =>
    .after (preserves_mutateTarget_stack target _) fun _ => ?_
  cases keep with
  | true => exact effect_pushNext value
  | false => exact effect_return rfl

theorem effect_indexAssignMany (target : StoreTarget) (argc : Nat) (keep : Bool) :
    Effect (argc + 1) (Flow.leaves keep.toNat) (indexAssignMany ops target argc keep) := by
  refine .seqPop1 fun value => (effect_popMany argc).seqAll fun args =>
    .after (preserves_mutateTarget_stack target _) fun _ => ?_
  cases keep with
  | true => exact effect_pushNext value
  | false => exact effect_return rfl

theorem effect_indexMutate (target : StoreTarget) (op : MutationOp) :
    Effect (Instruction.indexMutate target op).pops (Flow.leaves 1) (indexMutate ops target op) := by
  have hmutate : ∀ f, Effect 0 (Flow.leaves 1) (do
      push (← mutateTarget target f)
      return .next : Exec W (Flow W)) := fun f =>
    .after (preserves_mutateTarget_stack target f) fun v => effect_pushNext v
  cases op with
  | pop => exact .seqPop1 fun v => .after (preserves_liftResult _) fun count => hmutate _
  | remove => exact .seqPop1 fun idx => hmutate _
  | insert => exact .seqPop1 fun xs => hmutate _
  | insertAt => exact .seqPop1 fun dst => .seqPop1 fun xs => hmutate _

/-! ### Calls -/

theorem preserves_takePendingNamedMeta :
    Preserves operands (takePendingNamedMeta : Exec W (Option NamedArgMeta)) := fun _ => rfl

theorem effect_takeBuiltinArgs (argc : Nat) :
    Effect argc (fun _ => 0) (takeBuiltinArgs argc : Exec W (BuiltinFnArgs × Bool)) := by
  refine .after preserves_takePendingNamedMeta fun m => (effect_popMany argc).seqAll fun values => ?_
  cases m with
  | some m => exact effect_return rfl
  | none => exact effect_return rfl

/-- A builtin that starts to run. -/
theorem effect_builtin (run : Data W → BuiltinRun W) :
    Effect 0 (Flow.leaves 1) (.mk fun d => .ok (.builtin (run d)) d : Exec W (Flow W)) :=
  ⟨fun _ upper _ hd _ => ⟨upper, hd, rfl⟩, fun _ => ⟨List.suffix_rfl, rfl⟩⟩

theorem effect_callBuiltinValue (id argc : Nat) :
    Effect argc (Flow.leaves 1) (callBuiltinValue ops table id argc) :=
  (effect_takeBuiltinArgs argc).seqAll fun _ => effect_builtin _

theorem effect_callRngValue (h : Handle) (argc : Nat) :
    Effect argc (Flow.leaves 1) (callRngValue ops h argc) :=
  (effect_takeBuiltinArgs argc).seqAll fun _ => .after preserves_getEnv fun _ =>
    .after (preserves_setEnv (fun _ _ => rfl) _) fun _ => .after (preserves_liftResult _) fun v =>
      effect_pushNext v

theorem effect_callCasValue (kind : CasKind) (argc : Nat) :
    Effect argc (Flow.leaves 1) (callCasValue ops kind argc) := by
  refine (effect_takeBuiltinArgs argc).seqAll fun args => ?_
  dsimp only
  split
  · exact .after (preserves_liftResult _) fun v => effect_pushNext v
  · exact effect_throw 0 _ .notBound

theorem effect_callLifted (expr : CallableExpr) (argc : Nat) :
    Effect argc (Flow.leaves 1) (callLifted ops expr argc) := by
  refine .after preserves_takePendingNamedMeta fun m => ?_
  cases m with
  | some m => exact effect_throw argc _ .arity
  | none => exact (effect_popMany argc).seqAll fun _ => .after preserves_getEnv fun _ =>
      effect_return rfl

theorem effect_callUserFunction (tail : Bool) (callee : Value) (argc : Nat) :
    Effect argc (Flow.leaves 1) (callUserFunction tail callee argc : Exec W (Flow W)) := by
  cases tail <;> exact effect_return rfl

theorem effect_dispatchPostfix (tail : Bool) (target : Value) (argc : Nat) :
    Effect argc (Flow.leaves 1) (dispatchPostfix ops table tail target argc) := by
  unfold dispatchPostfix
  split
  next => exact effect_callBuiltinValue ops table _ argc
  next => exact effect_callRngValue ops _ argc
  next => exact effect_callLifted ops _ argc
  next => exact effect_callCasValue ops _ argc
  next => exact effect_callUserFunction tail _ argc
  next => exact effect_callUserFunction tail _ argc
  next =>
    refine .after preserves_takePendingNamedMeta fun m => ?_
    cases m with
    | some m => exact effect_throw argc _ .arity
    | none => exact (effect_popMany argc).seqAll fun args =>
        .after (preserves_indexWithArgs ops target args) fun v => effect_pushNext v

theorem effect_dispatchUserValue (tail : Bool) (callee : Value) (argc : Nat) :
    Effect argc (Flow.leaves 1) (dispatchUserValue ops tail callee argc) := by
  have hthrow : Effect argc (Flow.leaves 1) (throw .notBound : Exec W (Flow W)) :=
    effect_throw argc _ .notBound
  unfold dispatchUserValue
  split
  next => exact effect_callUserFunction tail _ argc
  next => exact effect_callUserFunction tail _ argc
  next => cases tail with
    | true => exact hthrow
    | false => exact effect_callCasValue ops _ argc
  next => cases tail with
    | true => exact hthrow
    | false => exact effect_callRngValue ops _ argc
  next => cases tail with
    | true => exact hthrow
    | false => exact effect_callLifted ops _ argc
  next => exact hthrow

theorem effect_dispatchAnonCall (tail : Bool) (callee : Value) (argc : Nat) :
    Effect argc (Flow.leaves 1) (dispatchAnonCall ops table tail callee argc) := by
  unfold dispatchAnonCall
  split
  next => exact effect_callBuiltinValue ops table _ argc
  next => exact effect_callRngValue ops _ argc
  next => exact effect_callLifted ops _ argc
  next => exact effect_dispatchUserValue ops tail _ argc

theorem effect_dispatchLoadedLocalCall (tail : Bool) (callee : Value) (argc : Nat) :
    Effect argc (Flow.leaves 1) (dispatchLoadedLocalCall ops table tail callee argc) := by
  unfold dispatchLoadedLocalCall
  split
  next => exact effect_callBuiltinValue ops table _ argc
  next => exact effect_callRngValue ops _ argc
  next => exact effect_callUserFunction tail _ argc
  next => exact effect_callUserFunction tail _ argc
  next => exact effect_throw argc _ .call

theorem effect_dispatchLoadedUserCall (tail : Bool) (callee : Value) (argc : Nat) :
    Effect argc (Flow.leaves 1) (dispatchLoadedUserCall ops table tail callee argc) := by
  unfold dispatchLoadedUserCall
  split
  next => exact effect_callBuiltinValue ops table _ argc
  next => exact effect_callUserFunction tail _ argc
  next => exact effect_callUserFunction tail _ argc
  next => exact effect_dispatchUserValue ops tail _ argc
  next => exact effect_dispatchUserValue ops tail _ argc
  next => exact effect_dispatchUserValue ops tail _ argc
  next => exact .after preserves_takePendingNamedMeta fun _ => effect_throw argc _ .call

theorem effect_invokeBuiltinId (id argc : Nat) (discard : Bool) :
    Effect argc (Flow.leaves 1) (invokeBuiltinId ops table id argc discard) := by
  refine (effect_takeBuiltinArgs argc).seqAll fun p => ?_
  obtain ⟨args, hadNamedMeta⟩ := p
  show Effect 0 _ (if ops.isEnabledId id then _ else _)
  split
  next => exact effect_builtin _
  next =>
    cases ops.builtinName id with
    | none => exact effect_throw 0 _ .vm
    | some name =>
      refine .after (preserves_readGlobal name) fun v => ?_
      split
      next =>
        cases hadNamedMeta with
        | true => exact effect_throw 0 _ .arity
        | false => exact effect_builtin _
      next => exact effect_builtin _

/-! ### Instructions -/

theorem preserves_writeLocal_stack (slot : Nat) (v : Value) :
    Preserves operands (writeLocal slot v : Exec W Unit) :=
  preserves_writeLocal (fun _ _ => rfl) operands_mapFunction slot v

theorem effect_jumpUnless (target : Nat) (cond : Bool) :
    Effect 0 (Flow.leaves 0) (pure (jumpUnless target cond) : Exec W (Flow W)) :=
  effect_return (by cases cond <;> rfl)

theorem effect_loadOwnedConst (slot : Nat) :
    Effect 0 (Flow.leaves 1) (execPlain ops table (.loadOwnedConst slot)) := by
  refine .after preserves_getEnv fun env => ?_
  split
  next v _ => exact .after (preserves_setEnv (fun _ _ => rfl) _) fun _ => effect_pushNext v
  next => exact effect_throw 0 _ .vm

theorem effect_unpack (paths : List UnpackPath) :
    Effect 1 (Flow.leaves 0) (execPlain ops table (.unpack paths)) := by
  refine .seqPop1 fun source => ?_
  split
  next => exact ⟨fun _ upper _ hd _ => ⟨upper, hd, rfl⟩, fun _ => ⟨List.suffix_cons _ _, rfl⟩⟩
  next => exact effect_throw 0 _ .index

theorem effect_loadUnpack (slot : Nat) :
    Effect 0 (Flow.leaves 1) (execPlain ops table (.loadUnpack slot)) := by
  refine ⟨fun d upper lower hd _ => ?_, fun d => ?_⟩
  · unfold execPlain
    dsimp only
    split
    next v _ => exact ⟨v :: upper, by rw [List.cons_append, ← hd], rfl⟩
    next => exact ⟨upper, hd⟩
  · unfold execPlain
    dsimp only
    split <;> exact ⟨List.suffix_rfl, rfl⟩

theorem effect_cmpChain (chain : List BinaryOperator) :
    Effect (chain.length + 1) (Flow.leaves 1) (execPlain ops table (.cmpChain chain)) := by
  refine (effect_ensureStackLen _).bind fun _ => ⟨fun d upper lower hd hn => ?_, fun d => ?_⟩
  · dsimp only
    split
    next v _ =>
      refine ⟨v :: upper.drop (chain.length + 1), ?_, ?_⟩
      · show v :: d.stack.drop (chain.length + 1) = _
        rw [hd, List.drop_append_of_le_length hn]
        rfl
      · show (upper.drop (chain.length + 1)).length + 1 + (chain.length + 1) = upper.length + 1
        rw [List.length_drop]
        omega
    next => exact ⟨upper, hd⟩
  · dsimp only
    split <;> exact ⟨List.suffix_rfl, rfl⟩

theorem effect_boolAndLazy (target : Nat) :
    Effect 1 (Flow.leaves 1) (execPlain ops table (.boolAndLazy target)) := by
  refine ⟨fun d upper lower hd _ => ?_, fun d => ?_⟩
  · unfold execPlain
    dsimp only
    split <;> exact ⟨upper, hd, rfl⟩
  · unfold execPlain
    dsimp only
    split <;> exact ⟨List.suffix_rfl, rfl⟩

theorem effect_boolOrLazy (target : Nat) :
    Effect 1 (Flow.leaves 1) (execPlain ops table (.boolOrLazy target)) := by
  refine ⟨fun d upper lower hd _ => ?_, fun d => ?_⟩
  · unfold execPlain
    dsimp only
    split <;> exact ⟨upper, hd, rfl⟩
  · unfold execPlain
    dsimp only
    split <;> exact ⟨List.suffix_rfl, rfl⟩

theorem effect_makeRange (inclusive hasNext : Bool) :
    Effect (if hasNext then 3 else 2) (Flow.leaves 1)
      (execPlain ops table (.makeRange inclusive hasNext)) := by
  have hfinish : ∀ r : Value → WqResult Value, Effect 1 (Flow.leaves 1) (do
      let start ← pop1
      push (← liftResult (r start))
      return .next : Exec W (Flow W)) := fun r =>
    .seqPop1 fun start => .after (preserves_liftResult _) fun v => effect_pushNext v
  have hnext : Effect 1 (fun _ => 0) (some <$> pop1 : Exec W (Option Value)) := by
    rw [map_eq_pure_bind]
    exact .seqPop1 fun v => effect_return rfl
  cases hasNext with
  | true =>
    refine Effect.seqPop1 fun e => ?_
    show Effect (1 + 1) _ ((some <$> pop1) >>= _)
    refine (hnext.weaken 1).bind fun next_ => ?_
    cases next_ with
    | some n => exact hfinish fun start => ops.makeRangeFromNext start n e inclusive
    | none => exact hfinish fun start => ops.makeRange start e none inclusive
  | false =>
    refine Effect.seqPop1 fun e => ?_
    exact hfinish fun start => ops.makeRange start e none inclusive

theorem effect_pop : Effect 1 (Flow.leaves 0) (execPlain ops table .pop) := by
  refine ⟨fun d upper lower hd hn => ?_, fun _ => ⟨List.suffix_rfl, rfl⟩⟩
  rcases upper with _ | ⟨v, upper⟩
  · cases hn
  · refine ⟨upper, ?_, rfl⟩
    show d.stack.tail = _
    rw [hd]
    rfl

theorem effect_nLoopEnter (index count snapshot target : Nat) :
    Effect 0 (Flow.leaves 0) (execPlain ops table (.nLoopEnter index count snapshot target)) := by
  refine .after (preserves_readLocal _) fun i => .after (preserves_readLocal _) fun n =>
    .after (preserves_evalNLoopCondition ops i n) fun go => ?_
  cases go with
  | true => exact .after (preserves_writeLocal_stack _ _) fun _ => effect_return rfl
  | false => exact effect_return rfl

theorem effect_nLoopNext (snapshot index target : Nat) :
    Effect 0 (Flow.leaves 0) (execPlain ops table (.nLoopNext snapshot index target)) := by
  have hfinish : ∀ next_, Effect 0 (Flow.leaves 0) (do
      writeLocal index next_
      return .jump target : Exec W (Flow W)) := fun next_ =>
    .after (preserves_writeLocal_stack index next_) fun _ => effect_return rfl
  refine .after (preserves_readLocal _) fun v => ?_
  dsimp only
  split
  next =>
    split
    next => exact .after (preserves_pure _) hfinish
    next => exact .after (preserves_liftResult _) hfinish
  next => exact .after (preserves_liftResult _) hfinish

theorem effect_jumpIfGE (target : Nat) :
    Effect 2 (Flow.leaves 0) (execPlain ops table (.jumpIfGE target)) := by
  refine effect_pop2.seqAll fun p => ?_
  obtain ⟨left, right⟩ := p
  dsimp only
  split
  next => exact effect_jumpUnless target _
  next => exact .after (preserves_liftResult _) fun v => .after (preserves_condition v) fun b =>
      effect_jumpUnless target b

theorem effect_jumpIfLEZLocal (slot target : Nat) :
    Effect 0 (Flow.leaves 0) (execPlain ops table (.jumpIfLEZLocal slot target)) := by
  refine .after (preserves_readLocal slot) fun v => ?_
  split
  next => exact effect_jumpUnless target _
  next => exact effect_jumpUnless target _
  next =>
    exact (effect_evalCmpBranchCondition ops .gt (.local_ slot) (.const (.int 0))).seqAll fun b =>
      effect_jumpUnless target b

theorem effect_jumpIfNamedProvided (slot bit target : Nat) :
    Effect 0 (Flow.leaves 0) (execPlain ops table (.jumpIfNamedProvided slot bit target)) := by
  refine .after (preserves_readLocal slot) fun v => ?_
  split
  next => exact effect_jumpUnless target _
  next => exact effect_return rfl

theorem execPlain_effect (i : Instruction) (hi : i ≠ .endUnpack) :
    Effect i.pops (Flow.leaves i.pushes) (execPlain ops table i) := by
  cases i with
  | loadConst v => exact effect_pushNext v
  | loadOwnedConst slot => exact effect_loadOwnedConst ops table slot
  | loadClosure payload =>
    exact .after (preserves_mapM (preserves_capture (fun _ _ => rfl) operands_mapFunction) _) fun _ =>
      effect_pushNext _
  | loadVar name => exact (effect_resolveOperand ops (.var name)).seqAll fun v => effect_pushNext v
  | loadCallTarget operand =>
    exact (effect_resolveOperand ops operand).seqAll fun v => effect_pushNext v
  | loadVarExists name => exact .after preserves_getEnv fun _ => effect_pushNext _
  | loadCapture i => exact .after (preserves_readCapture i) fun v => effect_pushNext v
  | loadSelf => exact .after preserves_currentFunction fun a => effect_pushNext _
  | storeVar name =>
    exact .seqPop1 fun v => .after (preserves_writeGlobal (fun _ _ => rfl) name v) fun _ =>
      effect_return rfl
  | storeVarKeep name =>
    exact effect_peek.bind fun v => .after (preserves_writeGlobal (fun _ _ => rfl) name v) fun _ =>
      effect_return rfl
  | loadLocal slot => exact .after (preserves_readLocal slot) fun v => effect_pushNext v
  | storeLocal slot =>
    exact .seqPop1 fun v => .after (preserves_writeLocal_stack slot v) fun _ => effect_return rfl
  | storeLocalKeep slot =>
    exact effect_peek.bind fun v => .after (preserves_writeLocal_stack slot v) fun _ =>
      effect_return rfl
  | storeCapture i =>
    exact .seqPop1 fun v => .after (preserves_writeCapture (fun _ _ => rfl) i v) fun _ =>
      effect_return rfl
  | storeCaptureKeep i =>
    exact effect_peek.bind fun v => .after (preserves_writeCapture (fun _ _ => rfl) i v) fun _ =>
      effect_return rfl
  | unpack paths => exact effect_unpack ops table paths
  | loadUnpack slot => exact effect_loadUnpack ops table slot
  | endUnpack => exact absurd rfl hi
  | binaryOp op left right => exact (effect_binaryOp ops op left right).seqAll fun v => effect_pushNext v
  | catAssign target right =>
    exact (effect_resolveOperand ops right).seqAll fun r =>
      .after (preserves_mutateTarget_stack target _) fun v => effect_pushNext v
  | cmpChain chain => exact effect_cmpChain ops table chain
  | cat n => exact (effect_popMany n).seqAll fun vs => effect_pushNext _
  | unaryOp op operand =>
    exact (effect_resolveOperand ops operand).seqAll fun v =>
      .after (preserves_liftResult _) fun v => effect_pushNext v
  | boolAndLazy target => exact effect_boolAndLazy ops table target
  | boolOrLazy target => exact effect_boolOrLazy ops table target
  | boolCombine op =>
    exact effect_pop2.seqAll fun p => .after (preserves_liftResult _) fun v => effect_pushNext v
  | callBuiltinId id argc => exact effect_invokeBuiltinId ops table id argc false
  | callBuiltinDiscardId id argc => exact effect_invokeBuiltinId ops table id argc true
  | callLocal slot argc =>
    exact (effect_popUnder argc).bind fun f => effect_dispatchLoadedLocalCall ops table false f argc
  | callUser name argc =>
    exact (effect_popUnder argc).bind fun f => effect_dispatchLoadedUserCall ops table false f argc
  | callAnon argc =>
    exact (effect_popUnder argc).bind fun f => effect_dispatchAnonCall ops table false f argc
  | postfix_ argc =>
    exact (effect_popUnder argc).bind fun f => effect_dispatchPostfix ops table false f argc
  | tailCallLocal slot argc =>
    exact (effect_popUnder argc).bind fun f => effect_dispatchLoadedLocalCall ops table true f argc
  | tailCallUser name argc =>
    exact (effect_popUnder argc).bind fun f => effect_dispatchLoadedUserCall ops table true f argc
  | tailCallAnon argc =>
    exact (effect_popUnder argc).bind fun f => effect_dispatchAnonCall ops table true f argc
  | tailPostfix argc =>
    exact (effect_popUnder argc).bind fun f => effect_dispatchPostfix ops table true f argc
  | makeList n => exact (effect_popMany n).seqAll fun vs => effect_pushNext _
  | makeDict n =>
    refine (effect_popMany (n * 2)).seqAll fun vs => ?_
    split
    next => exact effect_pushNext _
    next => exact effect_throw 0 _ .domain
  | makeRange inclusive hasNext => exact effect_makeRange ops table inclusive hasNext
  | index =>
    exact .seqPop1 fun idx => .seqPop1 fun obj => .after (preserves_indexOne ops obj idx) fun v =>
      effect_pushNext v
  | indexMany argc =>
    exact ((effect_popMany argc).seq fun args => .seqPop1 fun obj =>
      .after (preserves_indexWithArgs ops obj args) fun v => effect_pushNext v)
  | checkAtomPathIndex =>
    refine effect_peek.bind fun v => ?_
    split
    next => exact effect_throw 1 _ .index
    next => exact effect_return rfl
  | indexLoadLocal slot =>
    exact .seqPop1 fun idx => .after (preserves_readLocal slot) fun obj =>
      .after (preserves_indexOne ops obj idx) fun v => effect_pushNext v
  | indexLoadCapture i =>
    exact .seqPop1 fun idx => .after (preserves_readCapture i) fun obj =>
      .after (preserves_indexOne ops obj idx) fun v => effect_pushNext v
  | indexLoadVar name =>
    exact .seqPop1 fun idx => .after (preserves_readGlobal name) fun obj =>
      .after (preserves_indexOne ops obj idx) fun v => effect_pushNext v
  | indexManyLoadLocal slot argc =>
    exact (effect_popMany argc).seqAll fun args => .after (preserves_readLocal slot) fun obj =>
      .after (preserves_indexWithArgs ops obj args) fun v => effect_pushNext v
  | indexManyLoadCapture i argc =>
    exact (effect_popMany argc).seqAll fun args => .after (preserves_readCapture i) fun obj =>
      .after (preserves_indexWithArgs ops obj args) fun v => effect_pushNext v
  | indexManyLoadVar name argc =>
    exact (effect_popMany argc).seqAll fun args => .after (preserves_readGlobal name) fun obj =>
      .after (preserves_indexWithArgs ops obj args) fun v => effect_pushNext v
  | indexAssignVar name => exact effect_indexAssignOne ops (.var name) true
  | indexAssignLocal slot => exact effect_indexAssignOne ops (.local_ slot) true
  | indexAssignCapture i => exact effect_indexAssignOne ops (.capture i) true
  | indexManyAssignVar name argc => exact effect_indexAssignMany ops (.var name) argc true
  | indexManyAssignLocal slot argc => exact effect_indexAssignMany ops (.local_ slot) argc true
  | indexManyAssignCapture i argc => exact effect_indexAssignMany ops (.capture i) argc true
  | indexAssignVarDrop name => exact effect_indexAssignOne ops (.var name) false
  | indexAssignLocalDrop slot => exact effect_indexAssignOne ops (.local_ slot) false
  | indexAssignCaptureDrop i => exact effect_indexAssignOne ops (.capture i) false
  | indexManyAssignVarDrop name argc => exact effect_indexAssignMany ops (.var name) argc false
  | indexManyAssignLocalDrop slot argc => exact effect_indexAssignMany ops (.local_ slot) argc false
  | indexManyAssignCaptureDrop i argc => exact effect_indexAssignMany ops (.capture i) argc false
  | jump target => exact effect_return rfl
  | jumpIfFalse target =>
    exact .seqPop1 fun v => .after (preserves_condition v) fun b => effect_jumpUnless target b
  | jumpIfCmpFalse op left right target =>
    exact (effect_evalCmpBranchCondition ops op left right).seqAll fun b =>
      effect_jumpUnless target b
  | nLoopEnter index count snapshot target =>
    exact effect_nLoopEnter ops table index count snapshot target
  | nLoopNext snapshot index target => exact effect_nLoopNext ops table snapshot index target
  | jumpIfGE target => exact effect_jumpIfGE ops table target
  | jumpIfLEZLocal slot target => exact effect_jumpIfLEZLocal ops table slot target
  | jumpIfNamedProvided slot bit target =>
    exact effect_jumpIfNamedProvided ops table slot bit target
  | indexMutate target op => exact effect_indexMutate ops target op
  | pop => exact effect_pop ops table
  | return_ => exact effect_return rfl
  | traceBegin => exact effect_return rfl
  | debug => exact effect_peek.bind fun _ => effect_return rfl
  | pause => exact effect_return rfl
  | try_ len => exact effect_return rfl
  | import_ data => exact effect_return rfl
  | namedCall call metadata => exact effect_throw _ _ .vm

theorem execPlain_endsUnpack {i : Instruction} (hi : i.endsUnpack = true) (d : Data W) :
    ((execPlain ops table i).run d).data.stack = d.stack ∧
      d.unpackFrames.tail <:+ ((execPlain ops table i).run d).data.unpackFrames := by
  cases i with
  | endUnpack =>
    unfold execPlain
    dsimp only
    split
    next h => exact ⟨rfl, by rw [h]; exact List.suffix_rfl⟩
    next h => exact ⟨rfl, by rw [h]; exact List.nil_suffix⟩
  | namedCall call metadata => exact ⟨rfl, List.tail_suffix _⟩
  | _ => cases hi

theorem execPlain_stack (i : Instruction) {d : Data W} {upper lower : List Value}
    (hd : d.stack = upper ++ lower) (hn : i.pops ≤ upper.length) :
    Over lower upper.length i.pops (Flow.leaves i.pushes) ((execPlain ops table i).run d) := by
  by_cases hi : i = .endUnpack
  · subst hi
    unfold execPlain
    dsimp only
    split
    next => exact ⟨upper, hd, rfl⟩
    next => exact ⟨upper, hd⟩
  · exact (execPlain_effect ops table i hi).stack d upper lower hd hn

/-- **An instruction works on its own operands only**: it takes `pops` values,
leaves what its outcome says in their place, and does not touch what lies
below. -/
theorem exec_stack (i : Instruction) {d : Data W} {upper lower : List Value}
    (hd : d.stack = upper ++ lower) (hn : i.pops ≤ upper.length) :
    Over lower upper.length i.pops (Flow.leaves i.pushes) ((exec ops table i).run d) := by
  rcases exec_cases ops table i with ⟨call, metadata, rfl⟩ | heq
  · exact execPlain_stack ops table call (d := { d with pendingNamedMeta := some metadata }) hd hn
  · rw [heq]
    exact execPlain_stack ops table i hd hn

theorem execPlain_frames (i : Instruction) {d : Data W} {frames : List (List Value)}
    (h : frames <:+ d.unpackFrames)
    (hi : i.endsUnpack = true → frames.length < d.unpackFrames.length) :
    frames <:+ ((execPlain ops table i).run d).data.unpackFrames := by
  by_cases hend : i.endsUnpack = true
  · have hlen := hi hend
    have htail : frames <:+ d.unpackFrames.tail := by
      rcases List.suffix_iff_eq_append.mp h with hsplit
      cases hu : d.unpackFrames with
      | nil =>
        rw [hu] at hlen
        cases hlen
      | cons y ys =>
        rw [hu] at h hlen
        rcases List.suffix_cons_iff.mp h with rfl | h
        · exact absurd hlen (Nat.lt_irrefl _)
        · exact h
    exact htail.trans (execPlain_endsUnpack ops table hend d).2
  · have hi : i ≠ .endUnpack := by
      rintro rfl
      exact hend rfl
    exact h.trans ((execPlain_effect ops table i hi).keeps d).1

/-- Unpack frames stay, unless the instruction ends the innermost one. -/
theorem exec_frames (i : Instruction) {d : Data W} {frames : List (List Value)}
    (h : frames <:+ d.unpackFrames)
    (hi : i.endsUnpack = true → frames.length < d.unpackFrames.length) :
    frames <:+ ((exec ops table i).run d).data.unpackFrames := by
  rcases exec_cases ops table i with ⟨call, metadata, rfl⟩ | heq
  · exact execPlain_frames ops table call (d := { d with pendingNamedMeta := some metadata }) h hi
  · rw [heq]
    exact execPlain_frames ops table i h hi

theorem execPlain_activation (i : Instruction) (d : Data W) :
    ((execPlain ops table i).run d).data.function.isSome = d.function.isSome := by
  by_cases hi : i = .endUnpack
  · subst hi
    unfold execPlain
    dsimp only
    split <;> rfl
  · exact ((execPlain_effect ops table i hi).keeps d).2

/-- A function is not left by an instruction alone. -/
theorem exec_activation (i : Instruction) (d : Data W) :
    ((exec ops table i).run d).data.function.isSome = d.function.isSome := by
  rcases exec_cases ops table i with ⟨call, metadata, rfl⟩ | heq
  · exact execPlain_activation ops table call { d with pendingNamedMeta := some metadata }
  · rw [heq]
    exact execPlain_activation ops table i d

end Exec

end Wqpl
