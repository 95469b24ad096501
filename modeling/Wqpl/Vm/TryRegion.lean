/-
# Try regions restore the machine

A region of a run is given by what the machine had when the `try` instruction
opened it (`Region`). As long as it is open
(`Region.Open`) the current frame is the region's own, at an instruction of the
region or behind it, or one that was called from there, and the region's frame
lies on the try stack. There are five ways out (`Region.Left`): its end, a jump
over its end, an error, a return, and an internal error, which nothing catches.
A run leaves the region by one of them (`Region.restores`), if the code of the
region stays in it (`Region.Closed`) and its instructions find their operands
above those that were there at the entry (`Region.Supplied`).

The compiler does not always see to the latter: a pause without a value leaves
none for the `pop` behind it, which then takes an operand from below the region
(`Region.pause_takes_operand`).
-/
import Wqpl.Vm.Effect
import Wqpl.Vm.Flow
import Wqpl.Vm.Step

namespace Wqpl

section Truncate

variable {α : Type} {n : Nat} {xs ys : List α}

theorem truncate_eq_of_suffix (h : ys <:+ xs) : truncate ys.length xs = ys := by
  obtain ⟨zs, rfl⟩ := h
  unfold truncate
  rw [List.length_append, Nat.add_sub_cancel, List.drop_left]

theorem suffix_truncate (h : ys <:+ xs) (hn : ys.length ≤ n) : ys <:+ truncate n xs := by
  obtain ⟨zs, rfl⟩ := h
  unfold truncate
  rw [List.length_append, List.drop_append_of_le_length (by omega)]
  exact List.suffix_append _ _

theorem truncate_truncate {m : Nat} (h : m ≤ n) : truncate m (truncate n xs) = truncate m xs := by
  unfold truncate
  rw [List.drop_drop, List.length_drop]
  congr 1
  omega

end Truncate

/-- A try region: where it is, and what the machine had at its entry. -/
structure Region (W : Type) where
  code : FnId
  startPc : Nat
  endPc : Nat
  stack : List Value
  unpackFrames : List (List Value)
  callers : List (CallerFrame W)
  tryStack : List TryFrame
  savedNamedMeta : Option NamedArgMeta

namespace Region

variable {W : Type}

/-- The frame of the region on the try stack. -/
def frame (r : Region W) : TryFrame where
  code := r.code
  callDepth := r.callers.length
  endPc := r.endPc
  stackStart := r.stack.length
  savedPendingNamedMeta := r.savedNamedMeta
  unpackDepth := r.unpackFrames.length

/-- The region that a `try` instruction at the program counter opens. -/
def entered (vm : Vm W) (len : Nat) : Region W where
  code := vm.code
  startPc := vm.pc + 1
  endPc := vm.pc + 1 + len
  stack := vm.data.stack
  unpackFrames := vm.data.unpackFrames
  callers := vm.callers
  tryStack := vm.tryStack
  savedNamedMeta := vm.data.pendingNamedMeta

/-- The machine is about to open a region of `len` instructions. -/
structure Enters (table : FnTable) (vm : Vm W) (len : Nat) : Prop where
  running : vm.control = .running
  boundary : vm.finishTryBoundary = none
  instruction : (table vm.code).instructions[vm.pc]? = some (.try_ len)
  length : vm.pc + 1 + len ≤ (table vm.code).instructions.length

variable (r : Region W)

/-! ### Inside the region -/

/-- The current frame is the region's own, not before its start, or was called
from there. -/
inductive Inside : FnId → Nat → List Value → List (CallerFrame W) → Prop
  | here {pc : Nat} {stack : List Value} :
    r.startPc ≤ pc → r.stack <:+ stack → Inside r.code pc stack r.callers
  | called {code : FnId} {pc : Nat} {stack : List Value} {frame : CallerFrame W}
    {callers : List (CallerFrame W)} :
    Inside frame.code frame.pc frame.stack callers →
      r.unpackFrames.length ≤ frame.unpackDepth → Inside code pc stack (frame :: callers)

/-- A region inside this one, of the same frame. -/
structure Nests (frame : TryFrame) : Prop where
  code : frame.code = r.code
  start : r.startPc ≤ frame.endPc
  end_ : frame.endPc ≤ r.endPc
  stack : r.stack.length ≤ frame.stackStart

/-- A try stack with the region's frame: above it are the frames of regions
inside and of calls from there, none deeper than `depth`. -/
inductive Above : Nat → List TryFrame → Prop
  | region {depth : Nat} : r.callers.length ≤ depth → Above depth (r.frame :: r.tryStack)
  | inner {depth : Nat} {frame : TryFrame} {rest : List TryFrame} :
    Above frame.callDepth rest → frame.callDepth ≤ depth →
      r.unpackFrames.length ≤ frame.unpackDepth →
      (frame.callDepth = r.callers.length → r.Nests frame) → Above depth (frame :: rest)

/-- The region is open. -/
structure Open (vm : Vm W) : Prop where
  inside : r.Inside vm.code vm.pc vm.data.stack vm.callers
  above : r.Above vm.depth vm.tryStack
  frames : r.unpackFrames <:+ vm.data.unpackFrames
  running : ∀ res, vm.control ≠ .halted res

/-! ### Out of the region -/

/-- The machine in the region's frame again, with all as it was at the entry,
and `result` on the stack. -/
def exitAt (vm : Vm W) (pc : Nat) (result : List Value) : Vm W where
  code := r.code
  pc := pc
  data := { vm.data with
    stack := result ++ r.stack
    unpackFrames := r.unpackFrames
    pendingNamedMeta := r.savedNamedMeta }
  callers := r.callers
  tryStack := r.tryStack
  control := .running

/-- The value of the region's code. -/
def value (vm : Vm W) : Value :=
  if r.stack.length < vm.data.stack.length then vm.data.stack.headD Value.emptyList
  else Value.emptyList

/-- The caller goes on with what its call gives. -/
def receives (frame : CallerFrame W) (res : WqResult Value) (vm : Vm W) : Prop :=
  match frame.cont, res with
  | .push, .ok v => vm.data.stack = v :: frame.stack ∧ vm.control = .running
  | .push, .error e => vm.data.stack = frame.stack ∧ vm.control = .unwinding e
  | .builtin _ k, res => vm.data.stack = frame.stack ∧ ∃ env, vm.control = .builtin (k res env)

/-- The region's frame was left for its caller: the try stack has none of its
regions, and what the caller had is restored. -/
structure Returned (res : WqResult Value) (vm : Vm W) : Prop where
  tryStack : vm.tryStack = r.tryStack.dropWhile (·.callDepth = r.callers.length)
  halted : r.callers = [] → vm.control = .halted res
  caller : ∀ frame rest, r.callers = frame :: rest →
    vm.code = frame.code ∧ vm.pc = frame.pc ∧ vm.callers = rest ∧ receives frame res vm
  frames : ∀ frame rest, r.callers = frame :: rest →
    (∀ f ∈ r.tryStack, f.callDepth = r.callers.length → frame.unpackDepth ≤ f.unpackDepth) →
    frame.unpackDepth ≤ r.unpackFrames.length →
    vm.data.unpackFrames = truncate frame.unpackDepth r.unpackFrames

/-- A step out of the region. -/
inductive Left (table : FnTable) (ops : Ops W) (vm : Vm W) : Vm W → Prop
  | completed : vm.control = .running → vm.code = r.code → vm.callers = r.callers →
    vm.pc = r.endPc → Left table ops vm (r.exitAt vm r.endPc [Vm.tryResult "ok" (r.value vm)])
  | jumped : vm.control = .running → vm.code = r.code → vm.callers = r.callers →
    r.endPc < vm.pc → Left table ops vm (r.exitAt vm vm.pc [])
  | caught {e : WqErrorType} : vm.control = .unwinding e → vm.code = r.code →
    vm.callers = r.callers → e ≠ .vm →
    Left table ops vm (r.exitAt vm r.endPc [Vm.tryResult "error" (ops.errorValue e)])
  | returned {next : Vm W} {i : Instruction} {d : Data W} : vm.control = .running →
    vm.code = r.code → vm.callers = r.callers →
    (table vm.code).instructions[vm.pc]? = some i →
    (Exec.exec ops table i).run vm.data = .ok .return_ d →
    r.Returned (.ok (d.stack.headD Value.emptyList)) next → Left table ops vm next
  | unwound {next : Vm W} : vm.control = .unwinding .vm → vm.code = r.code →
    vm.callers = r.callers → r.Returned (.error .vm) next → Left table ops vm next

/-! ### Closed regions -/

/-- The code of the region stays in it, or jumps over its end: it does not jump
back over its start, has no tail calls, and regions inside end inside. -/
structure Closed (table : FnTable) : Prop where
  forward : ∀ pc i target, r.startPc ≤ pc → pc < r.endPc →
    (table r.code).instructions[pc]? = some i → i.target = some target → r.startPc ≤ target
  noTail : ∀ pc i, r.startPc ≤ pc → pc < r.endPc →
    (table r.code).instructions[pc]? = some i → i.isTailCall = false
  nested : ∀ pc i len, r.startPc ≤ pc → pc < r.endPc →
    (table r.code).instructions[pc]? = some i → i.tryLen = some len → pc + 1 + len ≤ r.endPc

/-- The next instruction takes no operand and no unpack frame that was there at
the entry of the region. -/
structure Supplied (table : FnTable) (vm : Vm W) : Prop where
  operands : ∀ i, vm.nextInstruction table = some i → vm.callers = r.callers →
    r.stack.length + i.pops ≤ vm.data.stack.length
  frames : ∀ i, vm.nextInstruction table = some i → i.endsUnpack = true →
    r.unpackFrames.length < vm.data.unpackFrames.length

/-! ### What lies above the region's frame -/

variable {r}

theorem Inside.depth_le {code : FnId} {pc : Nat} {stack : List Value}
    {callers : List (CallerFrame W)} (h : r.Inside code pc stack callers) :
    r.callers.length ≤ callers.length := by
  induction h with
  | here _ _ => exact Nat.le_refl _
  | called _ _ ih => exact Nat.le_succ_of_le ih

/-- At the region's depth the frame is the region's own. -/
theorem Inside.own {code : FnId} {pc : Nat} {stack : List Value}
    {callers : List (CallerFrame W)} (h : r.Inside code pc stack callers)
    (hdepth : callers.length = r.callers.length) :
    callers = r.callers ∧ code = r.code ∧ r.startPc ≤ pc ∧ r.stack <:+ stack := by
  cases h with
  | here hpc hstack => exact ⟨rfl, rfl, hpc, hstack⟩
  | called h _ =>
    have hle := h.depth_le
    rw [List.length_cons] at hdepth
    omega

theorem Inside.caller {code : FnId} {pc : Nat} {stack : List Value}
    {callers rest : List (CallerFrame W)} (h : r.Inside code pc stack callers)
    {frame : CallerFrame W} (hcallers : callers = frame :: rest) (hc : callers ≠ r.callers) :
    r.Inside frame.code frame.pc frame.stack rest ∧
      r.unpackFrames.length ≤ frame.unpackDepth := by
  cases h with
  | here _ _ => exact absurd rfl hc
  | called h hunpack =>
    cases hcallers
    exact ⟨h, hunpack⟩

/-- A frame called from the region may go anywhere. -/
theorem Inside.move {code : FnId} {pc : Nat} {stack : List Value}
    {callers : List (CallerFrame W)} (h : r.Inside code pc stack callers) {code' : FnId}
    {pc' : Nat} {stack' : List Value}
    (hown : callers = r.callers → code' = r.code ∧ r.startPc ≤ pc' ∧ r.stack <:+ stack') :
    r.Inside code' pc' stack' callers := by
  cases h with
  | here _ _ =>
    obtain ⟨rfl, hpc, hstack⟩ := hown rfl
    exact .here hpc hstack
  | called h hunpack => exact .called h hunpack

theorem Above.mono {depth depth' : Nat} {ts : List TryFrame} (h : r.Above depth ts)
    (hle : depth ≤ depth') : r.Above depth' ts := by
  cases h with
  | region h => exact .region (by omega)
  | inner h hdepth hunpack hown => exact .inner h (by omega) hunpack hown

theorem Above.depth_le {depth : Nat} {ts : List TryFrame} (h : r.Above depth ts) :
    r.callers.length ≤ depth := by
  induction h with
  | region h => exact h
  | inner _ hdepth _ _ ih => exact ih.trans hdepth

/-- In the region's own frame all frames above are regions inside this one. -/
theorem Above.own_depth {depth : Nat} {frame : TryFrame} {rest : List TryFrame}
    (h : r.Above frame.callDepth rest) (hle : frame.callDepth ≤ depth)
    (hdepth : depth = r.callers.length) : frame.callDepth = r.callers.length :=
  Nat.le_antisymm (hdepth ▸ hle) h.depth_le

/-- The frames of a call are gone when it returns. -/
theorem Above.discard {depth : Nat} {ts : List TryFrame} (h : r.Above depth ts)
    (hdepth : r.callers.length < depth) (d : Data W) (hd : r.unpackFrames <:+ d.unpackFrames) :
    r.Above (depth - 1) (Vm.discardTryFrames depth ts d).1 ∧
      r.unpackFrames <:+ (Vm.discardTryFrames depth ts d).2.unpackFrames := by
  induction ts generalizing d with
  | nil => cases h
  | cons f rest ih =>
    unfold Vm.discardTryFrames
    by_cases hf : f.callDepth = depth
    · rw [if_pos hf]
      cases h with
      | region h => exact absurd hf (Nat.ne_of_lt hdepth)
      | inner h hle hunpack hown =>
        exact ih (h.mono hle) (Vm.restoreTryState d f) (suffix_truncate hd hunpack)
    · rw [if_neg hf]
      refine ⟨?_, hd⟩
      cases h with
      | region h => exact .region (by omega)
      | inner h hle hunpack hown => exact .inner h (by omega) hunpack hown

/-- When the region's own frame is left, its regions go as if this one had just
been entered. -/
theorem Above.discard_own {depth : Nat} {ts : List TryFrame} (h : r.Above depth ts)
    (hdepth : depth = r.callers.length) (d : Data W) (hd : r.unpackFrames <:+ d.unpackFrames) :
    Vm.discardTryFrames depth ts d = Vm.discardTryFrames depth r.tryStack
      { d with unpackFrames := r.unpackFrames, pendingNamedMeta := r.savedNamedMeta } := by
  induction h generalizing d with
  | @region depth h =>
    have hframe : r.frame.callDepth = depth := hdepth.symm
    rw [Vm.discardTryFrames, if_pos hframe]
    congr 1
    show ({ d with unpackFrames := truncate _ _, pendingNamedMeta := r.savedNamedMeta } : Data W) = _
    rw [show r.frame.unpackDepth = r.unpackFrames.length from rfl, truncate_eq_of_suffix hd]
  | @inner depth frame rest h hle hunpack hown ih =>
    have hframe := h.own_depth hle hdepth
    rw [Vm.discardTryFrames, if_pos (hframe.trans hdepth.symm)]
    have hcall : frame.callDepth = depth := hframe.trans hdepth.symm
    rw [hcall] at ih
    exact ih hdepth (Vm.restoreTryState d frame) (suffix_truncate hd hunpack)

end Region

namespace Vm

variable {W : Type}

theorem discardTryFrames_fst (depth : Nat) (ts : List TryFrame) (d : Data W) :
    (discardTryFrames depth ts d).1 = ts.dropWhile (·.callDepth = depth) := by
  induction ts generalizing d with
  | nil => rfl
  | cons f rest ih =>
    unfold discardTryFrames
    by_cases hf : f.callDepth = depth
    · rw [if_pos hf, ih, List.dropWhile_cons_of_pos (by simpa using hf)]
    · rw [if_neg hf, List.dropWhile_cons_of_neg (by simpa using hf)]

/-- Unpack frames that all regions of the frame found there stay. -/
theorem truncate_discardTryFrames {depth n : Nat} {ts : List TryFrame}
    (h : ∀ f ∈ ts, f.callDepth = depth → n ≤ f.unpackDepth) (d : Data W) :
    truncate n (discardTryFrames depth ts d).2.unpackFrames = truncate n d.unpackFrames := by
  induction ts generalizing d with
  | nil => rfl
  | cons f rest ih =>
    unfold discardTryFrames
    by_cases hf : f.callDepth = depth
    · rw [if_pos hf, ih fun f hf => h f (List.mem_cons_of_mem _ hf)]
      exact truncate_truncate (h f (List.mem_cons_self ..) hf)
    · rw [if_neg hf]

end Vm

namespace Region

variable {W : Type} {r : Region W} {vm : Vm W} {table : FnTable} {ops : Ops W}

/-! ### Steps of an open region -/

theorem Open.own (h : r.Open vm) (hc : vm.callers = r.callers) :
    vm.code = r.code ∧ r.startPc ≤ vm.pc ∧ r.stack <:+ vm.data.stack :=
  (h.inside.own (congrArg List.length hc)).2

/-- What does not touch the region's frame and its callers keeps it open. -/
theorem Open.move (h : r.Open vm) {vm' : Vm W} (hcallers : vm'.callers = vm.callers)
    (habove : r.Above vm.depth vm'.tryStack) (hframes : r.unpackFrames <:+ vm'.data.unpackFrames)
    (hrun : ∀ res, vm'.control ≠ .halted res)
    (hown : vm.callers = r.callers →
      vm'.code = r.code ∧ r.startPc ≤ vm'.pc ∧ r.stack <:+ vm'.data.stack) : r.Open vm' := by
  refine ⟨?_, ?_, hframes, hrun⟩
  · rw [hcallers]
    exact h.inside.move hown
  · show r.Above vm'.callers.length vm'.tryStack
    rw [hcallers]
    exact habove

/-- The innermost frame of the region's own frame is the region's or that of a
region inside. -/
theorem Open.owns (h : r.Open vm) (hc : vm.callers = r.callers) :
    ∃ frame rest, vm.tryStack = frame :: rest ∧ vm.ownsTry frame = true ∧
      frame.endPc ≤ r.endPc := by
  have hcode := (h.own hc).1
  have hdepth : vm.depth = r.callers.length := congrArg List.length hc
  have howns : ∀ frame : TryFrame, frame.callDepth = r.callers.length → frame.code = r.code →
      vm.ownsTry frame = true := fun frame hd hcode' =>
    decide_eq_true ⟨hd.trans hdepth.symm, hcode'.trans hcode.symm⟩
  cases htry : vm.tryStack with
  | nil =>
    have habove := h.above
    rw [htry] at habove
    cases habove
  | cons frame rest =>
    have habove := h.above
    rw [htry] at habove
    refine ⟨frame, rest, rfl, ?_⟩
    cases habove with
    | region _ => exact ⟨howns r.frame rfl rfl, Nat.le_refl _⟩
    | inner habove hle _ hnests =>
      have hframe := habove.own_depth hle hdepth
      exact ⟨howns frame hframe (hnests hframe).code, (hnests hframe).end_⟩

/-- A frame that the current frame owns is the region's own frame, or one above
it. -/
theorem Open.pop (h : r.Open vm) {frame : TryFrame} {rest : List TryFrame}
    (htry : vm.tryStack = frame :: rest) (howns : vm.ownsTry frame = true) :
    (frame = r.frame ∧ rest = r.tryStack ∧ vm.callers = r.callers) ∨
      (r.Above vm.depth rest ∧ r.unpackFrames.length ≤ frame.unpackDepth ∧
        (vm.callers = r.callers → r.Nests frame)) := by
  have hdepth : frame.callDepth = vm.depth := (of_decide_eq_true howns).1
  have habove := h.above
  rw [htry] at habove
  cases habove with
  | region _ => exact .inl ⟨rfl, rfl, (h.inside.own hdepth.symm).1⟩
  | inner habove hle hunpack hnests =>
    refine .inr ⟨habove.mono hle, hunpack, fun hc => hnests ?_⟩
    rw [hdepth]
    exact congrArg List.length hc

theorem finishTry_frame (h : r.Open vm) (hrun : vm.control = .running)
    (hc : vm.callers = r.callers) :
    vm.finishTry r.frame r.tryStack = r.exitAt vm vm.pc
      (if vm.pc = r.endPc then [Vm.tryResult "ok" (r.value vm)] else []) := by
  obtain ⟨hcode, _, hstack⟩ := h.own hc
  obtain ⟨code, pc, data, callers, tryStack, control⟩ := vm
  obtain rfl : code = r.code := hcode
  obtain rfl : callers = r.callers := hc
  obtain rfl : control = .running := hrun
  have hunpack : truncate r.unpackFrames.length data.unpackFrames = r.unpackFrames :=
    truncate_eq_of_suffix h.frames
  have hlower : truncate r.stack.length data.stack = r.stack := truncate_eq_of_suffix hstack
  simp only [Vm.finishTry, exitAt, Vm.restoreTryState, frame, hunpack, hlower, value]
  split <;> rfl

theorem Open.finish (h : r.Open vm) (hrun : vm.control = .running) {vm' : Vm W}
    (hf : vm.finishTryBoundary = some vm') : r.Open vm' ∨ r.Left table ops vm vm' := by
  unfold Vm.finishTryBoundary at hf
  split at hf
  next => cases hf
  next frame rest htry =>
    split at hf
    next hends =>
      obtain rfl := Option.some.inj hf
      rcases h.pop htry hends.1 with ⟨rfl, rfl, hc⟩ | ⟨habove, hunpack, hnests⟩
      · right
        have hcode := (h.own hc).1
        rw [finishTry_frame h hrun hc]
        by_cases hpc : vm.pc = r.endPc
        · rw [if_pos hpc, hpc]
          exact .completed hrun hcode hc hpc
        · rw [if_neg hpc]
          exact .jumped hrun hcode hc (Nat.lt_of_le_of_ne hends.2 (Ne.symm hpc))
      · left
        refine h.move rfl habove (suffix_truncate h.frames hunpack) h.running fun hc => ?_
        obtain ⟨hcode, hpc, hstack⟩ := h.own hc
        refine ⟨hcode, hpc, ?_⟩
        have hlower : r.stack <:+ truncate frame.stackStart vm.data.stack :=
          suffix_truncate hstack (hnests hc).stack
        show _ <:+ if vm.pc = frame.endPc then _ :: truncate frame.stackStart vm.data.stack
          else truncate frame.stackStart vm.data.stack
        split
        · exact hlower.trans (List.suffix_cons _ _)
        · exact hlower
    next => cases hf

/-- In its own frame the machine is at an instruction of the region. -/
theorem Open.pc_lt (h : r.Open vm) (hf : vm.finishTryBoundary = none)
    (hc : vm.callers = r.callers) : vm.pc < r.endPc := by
  obtain ⟨frame, rest, htry, howns, hend⟩ := h.owns hc
  unfold Vm.finishTryBoundary at hf
  rw [htry] at hf
  by_contra hle
  have hends : vm.ownsTry frame = true ∧ frame.endPc ≤ vm.pc := ⟨howns, by omega⟩
  simp [hends] at hf

theorem catchTry_frame (h : r.Open vm) (hc : vm.callers = r.callers) (e : WqErrorType) :
    vm.catchTry ops r.frame r.tryStack e =
      r.exitAt vm r.endPc [Vm.tryResult "error" (ops.errorValue e)] := by
  obtain ⟨hcode, _, hstack⟩ := h.own hc
  obtain ⟨code, pc, data, callers, tryStack, control⟩ := vm
  obtain rfl : code = r.code := hcode
  obtain rfl : callers = r.callers := hc
  have hunpack : truncate r.unpackFrames.length data.unpackFrames = r.unpackFrames :=
    truncate_eq_of_suffix h.frames
  have hlower : truncate r.stack.length data.stack = r.stack := truncate_eq_of_suffix hstack
  simp only [Vm.catchTry, exitAt, Vm.restoreTryState, frame, hunpack, hlower]
  rfl

/-! ### Calls -/

/-- A call keeps the operands that are not its arguments. -/
theorem bindArguments_stack {f : FnShape} {argc : Nat} {m : Option NamedArgMeta}
    {stack rest : List Value} {locals : List Slot}
    (h : bindArguments f argc m stack = .ok (locals, rest)) : rest = stack.drop argc := by
  unfold bindArguments at h
  cases hl : resolveNamedArgLayout f argc m with
  | error e =>
    rw [hl] at h
    cases h
  | ok layout =>
    rw [hl] at h
    by_cases hlen : stack.length < argc
    · simp [hlen, bind, Except.bind, throw, throwThe, MonadExceptOf.throw] at h
    · simp [hlen, bind, Except.bind, pure, Except.pure] at h
      exact h.2.symm

/-- What the region's own frame has left when the arguments of a call are
taken. -/
def KeepsUnder (r : Region W) (vm : Vm W) (argc : Nat) : Prop :=
  vm.callers = r.callers → r.stack <:+ vm.data.stack.drop argc

/-- What a call leaves of the state that it could not enter. -/
theorem Open.enterSpec_error (h : r.Open vm) {fn : FnId} {captures : List CellId} {callee : Value}
    {argc : Nat} {identity : Option String} {cont : CallCont W} (hkeep : KeepsUnder r vm argc)
    {e : WqErrorType} {vm' : Vm W}
    (he : vm.enterSpec table ops fn captures callee argc identity cont = .error (e, vm')) :
    r.Open vm' := by
  unfold Vm.enterSpec at he
  dsimp only at he
  split at he
  next =>
    cases he
    exact h.move rfl h.above h.frames h.running h.own
  next locals stack hbind =>
    obtain rfl := bindArguments_stack hbind
    split at he
    next =>
      cases he
      exact h.move rfl h.above h.frames h.running fun hc =>
        ⟨(h.own hc).1, (h.own hc).2.1, hkeep hc⟩
    next => cases he

/-- The frame of a call from the region. -/
theorem Open.enterSpec_ok (h : r.Open vm) {fn : FnId} {captures : List CellId} {callee : Value}
    {argc : Nat} {identity : Option String} {cont : CallCont W} (hkeep : KeepsUnder r vm argc)
    {vm' : Vm W}
    (he : vm.enterSpec table ops fn captures callee argc identity cont = .ok vm') :
    r.Open vm' := by
  unfold Vm.enterSpec at he
  dsimp only at he
  split at he
  next => cases he
  next locals stack hbind =>
    obtain rfl := bindArguments_stack hbind
    split at he
    next => cases he
    next =>
      cases he
      refine ⟨.called ?_ h.frames.length_le, h.above.mono (Nat.le_succ _), h.frames,
        fun _ h => by cases h⟩
      exact h.inside.move fun hc => ⟨(h.own hc).1, (h.own hc).2.1, hkeep hc⟩

/-- Another control, and what the region does not look at. -/
theorem Open.control (h : r.Open vm) {c : Control W} (hc : ∀ res, c ≠ .halted res) :
    r.Open { vm with control := c } :=
  h.move rfl h.above h.frames hc h.own

theorem Open.unwinding (h : r.Open vm) (e : WqErrorType) :
    r.Open { vm with control := .unwinding e } :=
  h.control fun _ h => by cases h

theorem Open.builtin (h : r.Open vm) (run : BuiltinRun W) :
    r.Open { vm with control := .builtin run } :=
  h.control fun _ h => by cases h

theorem Open.mapEnv (h : r.Open vm) (f : Env W → Env W) : r.Open (vm.mapEnv f) :=
  h.move rfl h.above h.frames h.running h.own

theorem Open.push (h : r.Open vm) (v : Value) :
    r.Open { vm with data := { vm.data with stack := v :: vm.data.stack } } :=
  h.move rfl h.above h.frames h.running fun hc =>
    ⟨(h.own hc).1, (h.own hc).2.1, (h.own hc).2.2.trans (List.suffix_cons _ _)⟩

theorem Open.pushArgs (h : r.Open vm) (args : BuiltinFnArgs) : r.Open (vm.pushArgs args) :=
  h.move rfl h.above h.frames h.running fun hc =>
    ⟨(h.own hc).1, (h.own hc).2.1, (h.own hc).2.2.trans (List.suffix_append _ _)⟩

theorem Open.enterCall (h : r.Open vm) {callee : Value} {argc : Nat}
    (hkeep : KeepsUnder r vm argc) : r.Open (vm.enterCall table ops callee argc) := by
  unfold Vm.enterCall
  split
  next => exact h.unwinding .notBound
  next fn captures _ =>
    split
    next he => exact h.enterSpec_ok hkeep he
    next he => exact (h.enterSpec_error hkeep he).unwinding _

/-- A tail call in a frame called from the region. -/
theorem Open.prepareTail (h : r.Open vm) (hc : vm.callers ≠ r.callers) {callee : Value}
    {argc : Nat} : r.Open (vm.prepareTail table callee argc) := by
  have hown : ∀ {P : Prop}, vm.callers = r.callers → P := fun h => absurd h hc
  unfold Vm.prepareTail
  dsimp only
  split
  next => exact h.unwinding .notBound
  next fn captures _ =>
    split
    next => exact h.move rfl h.above h.frames (fun _ h => by cases h) hown
    next =>
      split
      next => exact h.move rfl h.above h.frames (fun _ h => by cases h) hown
      next => exact h.move rfl h.above h.frames h.running hown

theorem Open.importModule (h : r.Open vm) {data : ImportData} :
    r.Open (vm.importModule table ops data) := by
  have hkeep : ∀ f, KeepsUnder r (vm.mapEnv f) 0 := fun f hc => (h.own hc).2.2
  unfold Vm.importModule
  split
  next => exact h.unwinding _
  next identity _ =>
    split
    next v _ => exact h.push v
    next => exact h.unwinding .exec
    next =>
      dsimp only
      split
      next => exact ((h.mapEnv _).mapEnv _).unwinding _
      next fn _ =>
        split
        next he => exact (h.mapEnv _).enterSpec_ok (hkeep _) he
        next he => exact (((h.mapEnv _).enterSpec_error (hkeep _) he).mapEnv _).unwinding _

theorem Open.callBack (h : r.Open vm) {f : Value} {args : BuiltinFnArgs}
    {k : WqResult Value → Env W → BuiltinRun W} : r.Open (vm.callBack table ops f args k) := by
  unfold Vm.callBack
  split
  next => exact h.builtin _
  next => exact h.builtin _
  next =>
    split
    next => exact h.builtin _
    next => exact h.builtin _
  next => exact h.builtin _
  next =>
    split
    next => exact h.builtin _
    next fn captures _ =>
      split
      next vm' he =>
        refine (h.pushArgs args).enterSpec_ok (fun hc => ?_) he
        show r.stack <:+ ((args.pos ++ args.named.map Prod.snd).reverse ++ vm.data.stack).drop _
        have hlen : (args.pos ++ args.named.map Prod.snd).reverse.length =
            args.pos.length + args.named.length := by
          rw [List.length_reverse, List.length_append, List.length_map]
        rw [List.drop_left' hlen]
        exact (h.own hc).2.2
      next => exact h.builtin _

theorem Open.stepBuiltin (h : r.Open vm) (run : BuiltinRun W) :
    r.Open (vm.stepBuiltin table ops run) := by
  cases run with
  | done res env =>
    cases res with
    | ok v =>
      exact h.move rfl h.above h.frames (fun _ h => by cases h) fun hc =>
        ⟨(h.own hc).1, (h.own hc).2.1, (h.own hc).2.2.trans (List.suffix_cons _ _)⟩
    | error e => exact h.move rfl h.above h.frames (fun _ h => by cases h) h.own
  | call f args env k => exact (h.mapEnv fun _ => env).callBack

/-! ### Returns -/

/-- The caller `frame` goes on with the result of its call. -/
structure Resumed (vm : Vm W) (frame : CallerFrame W) (rest : List (CallerFrame W))
    (res : WqResult Value) (vm' : Vm W) : Prop where
  code : vm'.code = frame.code
  pc : vm'.pc = frame.pc
  callers : vm'.callers = rest
  tryStack : vm'.tryStack = vm.tryStack
  frames : vm'.data.unpackFrames = truncate frame.unpackDepth vm.data.unpackFrames
  receives : receives frame res vm'

theorem resumed_ok (hrun : vm.control = .running) (frame : CallerFrame W)
    (rest : List (CallerFrame W)) (v : Value) : Resumed vm frame rest (.ok v)
      (((vm.restoreUserCall frame rest).finishModuleOf frame v).resume frame.cont v) := by
  obtain ⟨code, pc, stack, function, moduleIdentity, unpackDepth, cont⟩ := frame
  cases moduleIdentity <;> cases cont <;>
    exact ⟨rfl, rfl, rfl, rfl, rfl, rfl, by first | exact hrun | exact ⟨_, rfl⟩⟩

theorem resumed_error (frame : CallerFrame W) (rest : List (CallerFrame W)) (e : WqErrorType) :
    Resumed vm frame rest (.error e)
      (((vm.restoreUserCall frame rest).failModuleOf frame).resumeError frame.cont e) := by
  obtain ⟨code, pc, stack, function, moduleIdentity, unpackDepth, cont⟩ := frame
  cases moduleIdentity <;> cases cont <;>
    exact ⟨rfl, rfl, rfl, rfl, rfl, rfl, by first | exact rfl | exact ⟨_, rfl⟩⟩

theorem receives_running {frame : CallerFrame W} {res : WqResult Value}
    (h : receives frame res vm) (halt : WqResult Value) : vm.control ≠ .halted halt := by
  obtain ⟨code, pc, stack, function, moduleIdentity, unpackDepth, cont⟩ := frame
  intro hhalt
  cases cont with
  | push =>
    cases res with
    | ok v => rw [h.2] at hhalt; cases hhalt
    | error e => rw [h.2] at hhalt; cases hhalt
  | builtin saved k =>
    obtain ⟨_, env, hcontrol⟩ := h
    rw [hcontrol] at hhalt
    cases hhalt

/-- A caller inside the region's call gets the operands it had. -/
theorem receives_stack {frame : CallerFrame W} {res : WqResult Value}
    (h : receives frame res vm) : frame.stack <:+ vm.data.stack := by
  obtain ⟨code, pc, stack, function, moduleIdentity, unpackDepth, cont⟩ := frame
  cases cont with
  | push =>
    cases res with
    | ok v => exact h.1 ▸ List.suffix_cons v stack
    | error e => exact h.1 ▸ List.suffix_rfl
  | builtin saved k => exact h.1 ▸ List.suffix_rfl

/-- A call from the region comes back. -/
theorem Open.resumed (h : r.Open vm) {frame : CallerFrame W} {rest : List (CallerFrame W)}
    (hcallers : vm.callers = frame :: rest) (hc : vm.callers ≠ r.callers) {res : WqResult Value}
    {vm' : Vm W} (hres : Resumed vm.discardCurrentTryFrames frame rest res vm') : r.Open vm' := by
  obtain ⟨hinside, hunpack⟩ := h.inside.caller hcallers hc
  have hdepth : vm.depth = rest.length + 1 := congrArg List.length hcallers
  obtain ⟨habove, hframes⟩ := h.above.discard (hdepth ▸ Nat.lt_succ_of_le hinside.depth_le)
    vm.data h.frames
  refine ⟨?_, ?_, ?_, receives_running hres.receives⟩
  · rw [hres.callers]
    refine hinside.move fun hc => ?_
    have hown := hinside.own (congrArg List.length hc)
    exact ⟨hres.code.trans hown.2.1, hres.pc ▸ hown.2.2.1,
      hown.2.2.2.trans (receives_stack hres.receives)⟩
  · show r.Above vm'.callers.length vm'.tryStack
    rw [hres.callers, hres.tryStack]
    show r.Above rest.length (Vm.discardTryFrames vm.depth vm.tryStack vm.data).1
    rw [hdepth]
    rwa [hdepth] at habove
  · rw [hres.frames]
    exact suffix_truncate hframes hunpack

theorem discard_own (habove : r.Above vm.depth vm.tryStack)
    (hframes : r.unpackFrames <:+ vm.data.unpackFrames) (hc : vm.callers = r.callers) :
    vm.discardCurrentTryFrames.tryStack =
        r.tryStack.dropWhile (·.callDepth = r.callers.length) ∧
      vm.discardCurrentTryFrames.data = (Vm.discardTryFrames r.callers.length r.tryStack
        { vm.data with
          unpackFrames := r.unpackFrames, pendingNamedMeta := r.savedNamedMeta }).2 := by
  have hdepth : vm.depth = r.callers.length := congrArg List.length hc
  have hdiscard := habove.discard_own hdepth vm.data hframes
  rw [hdepth] at hdiscard
  unfold Vm.discardCurrentTryFrames
  rw [hdepth, hdiscard, ← Vm.discardTryFrames_fst]
  exact ⟨rfl, rfl⟩

/-- The region's own frame is left. -/
theorem returned_of_resumed (habove : r.Above vm.depth vm.tryStack)
    (hframes : r.unpackFrames <:+ vm.data.unpackFrames) (hc : vm.callers = r.callers)
    {res : WqResult Value} {vm' : Vm W}
    (hhalted : r.callers = [] →
      vm'.control = .halted res ∧ vm'.tryStack = vm.discardCurrentTryFrames.tryStack)
    (hres : ∀ frame rest, r.callers = frame :: rest →
      Resumed vm.discardCurrentTryFrames frame rest res vm') : r.Returned res vm' := by
  obtain ⟨htry, hdata⟩ := discard_own habove hframes hc
  refine ⟨?_, fun hnil => (hhalted hnil).1, ?_, ?_⟩
  · rw [← htry]
    cases hcallers : r.callers with
    | nil => exact (hhalted hcallers).2
    | cons frame rest => exact (hres frame rest hcallers).tryStack
  · intro frame rest hcallers
    have hres := hres frame rest hcallers
    exact ⟨hres.code, hres.pc, hres.callers, hres.receives⟩
  · intro frame rest hcallers hinner _
    rw [(hres frame rest hcallers).frames, hdata, Vm.truncate_discardTryFrames hinner]

/-- The machine without its top value. -/
def popped (vm : Vm W) : Vm W := { vm with data := { vm.data with stack := vm.data.stack.tail } }

theorem returnFrame_nil (hcallers : vm.callers = []) :
    vm.returnFrame = { (popped vm).discardCurrentTryFrames with
      control := .halted (.ok (vm.data.stack.headD Value.emptyList)) } := by
  unfold Vm.returnFrame popped
  dsimp only
  split
  next => rfl
  next frame rest h =>
    have h : vm.callers = frame :: rest := h
    rw [hcallers] at h
    cases h

theorem returnFrame_cons (hrun : vm.control = .running) {frame : CallerFrame W}
    {rest : List (CallerFrame W)} (hcallers : vm.callers = frame :: rest) :
    Resumed (popped vm).discardCurrentTryFrames frame rest
      (.ok (vm.data.stack.headD Value.emptyList)) vm.returnFrame := by
  unfold Vm.returnFrame popped
  dsimp only
  split
  next h =>
    have h : vm.callers = [] := h
    rw [hcallers] at h
    cases h
  next frame' rest' h =>
    have h : vm.callers = frame' :: rest' := h
    rw [hcallers] at h
    cases h
    have hrun : (popped vm).discardCurrentTryFrames.control = .running := hrun
    exact resumed_ok hrun frame rest _

theorem Open.returnFrame_called (h : r.Open vm) (hrun : vm.control = .running)
    (hc : vm.callers ≠ r.callers) : r.Open vm.returnFrame := by
  have hpopped : r.Open (popped vm) :=
    h.move rfl h.above h.frames h.running fun hown => absurd hown hc
  cases hcallers : vm.callers with
  | nil =>
    have hle := h.inside.depth_le
    rw [hcallers] at hle hc
    exact absurd (List.length_eq_zero_iff.mp (Nat.le_zero.mp hle)).symm hc
  | cons frame rest =>
    exact hpopped.resumed hcallers hc (returnFrame_cons hrun hcallers)

theorem Open.returnFrame_own (h : r.Open vm) (hrun : vm.control = .running)
    (hc : vm.callers = r.callers) :
    r.Returned (.ok (vm.data.stack.headD Value.emptyList)) vm.returnFrame := by
  have habove : r.Above (popped vm).depth (popped vm).tryStack := h.above
  refine returned_of_resumed habove h.frames hc ?_ ?_
  · intro hnil
    rw [returnFrame_nil (hc.trans hnil)]
    exact ⟨rfl, rfl⟩
  · intro frame rest hcallers
    exact returnFrame_cons hrun (hc.trans hcallers)

/-! ### Errors -/

theorem unwind_nil {e : WqErrorType} (hcatch : vm.catchCurrentTryError ops e = none)
    (hcallers : vm.callers = []) :
    vm.unwind ops e = { vm.discardCurrentTryFrames with control := .halted (.error e) } := by
  unfold Vm.unwind
  rw [hcatch]
  dsimp only
  split
  next => rfl
  next frame rest h =>
    have h : vm.callers = frame :: rest := h
    rw [hcallers] at h
    cases h

theorem unwind_cons {e : WqErrorType} (hcatch : vm.catchCurrentTryError ops e = none)
    {frame : CallerFrame W} {rest : List (CallerFrame W)} (hcallers : vm.callers = frame :: rest) :
    Resumed vm.discardCurrentTryFrames frame rest (.error e) (vm.unwind ops e) := by
  unfold Vm.unwind
  rw [hcatch]
  dsimp only
  split
  next h =>
    have h : vm.callers = [] := h
    rw [hcallers] at h
    cases h
  next frame' rest' h =>
    have h : vm.callers = frame' :: rest' := h
    rw [hcallers] at h
    cases h
    exact resumed_error frame rest e

/-- An error that is caught: by a region inside, or by the region itself. -/
theorem Open.caught (h : r.Open vm) {e : WqErrorType} (hcontrol : vm.control = .unwinding e)
    {vm' : Vm W} (hcatch : vm.catchCurrentTryError ops e = some vm') :
    r.Open vm' ∨ r.Left table ops vm vm' := by
  unfold Vm.catchCurrentTryError at hcatch
  split at hcatch
  next => cases hcatch
  next he =>
    split at hcatch
    next => cases hcatch
    next frame rest htry =>
      split at hcatch
      next howns =>
        obtain rfl := Option.some.inj hcatch
        rcases h.pop htry howns with ⟨rfl, rfl, hc⟩ | ⟨habove, hunpack, hnests⟩
        · right
          rw [catchTry_frame h hc]
          exact .caught hcontrol (h.own hc).1 hc he
        · left
          refine h.move rfl habove (suffix_truncate h.frames hunpack) (fun _ h => by cases h)
            fun hc => ?_
          obtain ⟨hcode, _, hstack⟩ := h.own hc
          have hlower : r.stack <:+ truncate frame.stackStart vm.data.stack :=
            suffix_truncate hstack (hnests hc).stack
          exact ⟨hcode, (hnests hc).start, hlower.trans (List.suffix_cons _ _)⟩
      next => cases hcatch

/-- In the region's own frame only an internal error is not caught. -/
theorem Open.uncaught (h : r.Open vm) {e : WqErrorType}
    (hcatch : vm.catchCurrentTryError ops e = none) (hc : vm.callers = r.callers) : e = .vm := by
  by_contra he
  obtain ⟨frame, rest, htry, howns, _⟩ := h.owns hc
  unfold Vm.catchCurrentTryError at hcatch
  rw [if_neg he, htry] at hcatch
  simp [howns] at hcatch

theorem Open.unwind (h : r.Open vm) {e : WqErrorType} (hcontrol : vm.control = .unwinding e) :
    r.Open (vm.unwind ops e) ∨ r.Left table ops vm (vm.unwind ops e) := by
  cases hcatch : vm.catchCurrentTryError ops e with
  | some vm' =>
    have hunwind : vm.unwind ops e = vm' := by rw [Vm.unwind, hcatch]
    rw [hunwind]
    exact h.caught hcontrol hcatch
  | none =>
    by_cases hc : vm.callers = r.callers
    · obtain rfl := h.uncaught hcatch hc
      refine .inr (.unwound hcontrol (h.own hc).1 hc (returned_of_resumed h.above h.frames hc ?_ ?_))
      · intro hnil
        rw [unwind_nil hcatch (hc.trans hnil)]
        exact ⟨rfl, rfl⟩
      · intro frame rest hcallers
        exact unwind_cons hcatch (hc.trans hcallers)
    · left
      cases hcallers : vm.callers with
      | nil =>
        have hle := h.inside.depth_le
        rw [hcallers] at hle hc
        exact absurd (List.length_eq_zero_iff.mp (Nat.le_zero.mp hle)).symm hc
      | cons frame rest => exact h.resumed hcallers hc (unwind_cons hcatch hcallers)

/-! ### Steps -/

/-- The instruction leaves the operands below the region where they are. -/
theorem Open.exec (ops : Ops W) (h : r.Open vm) (hs : r.Supplied table vm) {i : Instruction}
    (hi : vm.nextInstruction table = some i) :
    r.unpackFrames <:+ ((Exec.exec ops table i).run vm.data).data.unpackFrames ∧
      (vm.callers = r.callers →
        r.stack <:+ ((Exec.exec ops table i).run vm.data).data.stack ∧
        ∀ flow d, (Exec.exec ops table i).run vm.data = .ok flow d →
          r.stack <:+ d.stack.drop (flow.leaves i.pushes)) := by
  refine ⟨Exec.exec_frames ops table i h.frames (hs.frames i hi), fun hc => ?_⟩
  obtain ⟨upper, hupper⟩ := (h.own hc).2.2
  have hpops := hs.operands i hi hc
  rw [← hupper, List.length_append] at hpops
  have hover := Exec.exec_stack ops table i hupper.symm (by omega)
  cases hrun : (Exec.exec ops table i).run vm.data with
  | error e d =>
    rw [hrun] at hover
    obtain ⟨upper', hstack⟩ := hover
    exact ⟨⟨upper', hstack.symm⟩, fun flow d' h => by cases h⟩
  | ok flow d =>
    rw [hrun] at hover
    obtain ⟨upper', hstack, hlen⟩ := hover
    refine ⟨⟨upper', hstack.symm⟩, fun flow' d' h => ?_⟩
    cases h
    rw [hstack, List.drop_append_of_le_length (by omega)]
    exact List.suffix_append _ _

/-- The machine behind the instruction. -/
def advance (vm : Vm W) (d : Data W) : Vm W := { vm with pc := vm.pc + 1, data := d }

theorem Open.behind (h : r.Open vm) {d : Data W} (hframes : r.unpackFrames <:+ d.unpackFrames)
    (hstack : vm.callers = r.callers → r.stack <:+ d.stack) : r.Open (advance vm d) :=
  h.move rfl h.above hframes h.running fun hc =>
    ⟨(h.own hc).1, Nat.le_succ_of_le (h.own hc).2.1, hstack hc⟩

/-- A region opened inside. -/
theorem Open.openTry (h : r.Open vm) {len : Nat}
    (hnested : vm.callers = r.callers → vm.pc + len ≤ r.endPc) : r.Open (vm.openTry table len) := by
  unfold Vm.openTry
  split
  next =>
    refine h.move rfl ?_ h.frames h.running h.own
    refine .inner h.above (Nat.le_refl _) h.frames.length_le fun hdepth => ?_
    have hc := (h.inside.own hdepth).1
    obtain ⟨hcode, hpc, hstack⟩ := h.own hc
    exact ⟨hcode, Nat.le_add_right_of_le hpc, hnested hc, hstack.length_le⟩
  next => exact h.unwinding .vm

theorem Open.stepInstruction (hclosed : r.Closed table) (h : r.Open vm)
    (hrun : vm.control = .running) (hboundary : vm.finishTryBoundary = none)
    (hs : r.Supplied table vm) {i : Instruction}
    (hi : (table vm.code).instructions[vm.pc]? = some i) :
    r.Open (vm.stepInstruction table ops i) ∨ r.Left table ops vm (vm.stepInstruction table ops i) := by
  have hown : vm.callers = r.callers → r.startPc ≤ vm.pc ∧ vm.pc < r.endPc ∧
      (table r.code).instructions[vm.pc]? = some i := fun hc =>
    ⟨(h.own hc).2.1, h.pc_lt hboundary hc, (h.own hc).1 ▸ hi⟩
  obtain ⟨hframes, hstack⟩ := h.exec ops hs
    ((Vm.nextInstruction_eq table hrun hboundary).trans hi)
  have hallows := Exec.exec_allows ops table i vm.data
  unfold Vm.stepInstruction
  cases hexec : (Exec.exec ops table i).run vm.data with
  | error e d =>
    rw [hexec] at hframes hstack
    exact .inl ((h.behind hframes fun hc => (hstack hc).1).unwinding e)
  | ok flow d =>
    rw [hexec] at hframes hstack
    have hallows := hallows flow d hexec
    have hbehind : r.Open (advance vm d) := h.behind hframes fun hc => (hstack hc).1
    cases flow with
    | next => exact .inl hbehind
    | jump target =>
      refine .inl (hbehind.move rfl h.above hframes h.running fun hc => ?_)
      obtain ⟨hstart, hend, hi⟩ := hown hc
      exact ⟨(h.own hc).1, hclosed.forward _ i target hstart hend hi hallows, (hstack hc).1⟩
    | return_ =>
      by_cases hc : vm.callers = r.callers
      · exact .inr (.returned hrun (h.own hc).1 hc hi hexec (hbehind.returnFrame_own hrun hc))
      · exact .inl (hbehind.returnFrame_called hrun hc)
    | try_ len =>
      refine .inl (hbehind.openTry fun hc => ?_)
      obtain ⟨hstart, hend, hi⟩ := hown hc
      exact hclosed.nested _ i len hstart hend hi hallows
    | enter callee argc => exact .inl (hbehind.enterCall fun hc => (hstack hc).2 _ _ rfl)
    | tail callee argc =>
      refine .inl (hbehind.prepareTail fun hc => ?_)
      obtain ⟨hstart, hend, hi⟩ := hown hc
      have hno := hclosed.noTail _ i hstart hend hi
      rw [show i.isTailCall = true from hallows] at hno
      cases hno
    | builtin run => exact .inl (hbehind.builtin run)
    | import_ data => exact .inl hbehind.importModule

/-- **A step of an open region**: it stays open, or is left as it should be. -/
theorem Open.step (hclosed : r.Closed table) (hend : r.endPc ≤ (table r.code).instructions.length)
    (h : r.Open vm) (hs : r.Supplied table vm) :
    r.Open (vm.step table ops) ∨ r.Left table ops vm (vm.step table ops) := by
  unfold Vm.step
  split
  next hrun =>
    unfold Vm.stepRunning
    split
    next vm' hboundary => exact h.finish hrun hboundary
    next hboundary =>
      split
      next i hi => exact h.stepInstruction hclosed hrun hboundary hs hi
      next hnone =>
        refine .inl (h.returnFrame_called hrun fun hc => ?_)
        have hlt := h.pc_lt hboundary hc
        rw [(h.own hc).1, List.getElem?_eq_none_iff] at hnone
        omega
  next run _ => exact .inl (h.stepBuiltin run)
  next e hcontrol => exact h.unwind hcontrol
  next res hcontrol => exact absurd hcontrol (h.running res)

/-- The region is open behind its `try` instruction. -/
theorem Enters.open {len : Nat} (h : Enters table vm len) :
    (entered vm len).Open (vm.step table ops) := by
  have hstep : vm.step table ops = (advance vm vm.data).openTry table len := by
    unfold Vm.step
    rw [h.running]
    show vm.stepRunning table ops = _
    unfold Vm.stepRunning
    rw [h.boundary]
    dsimp only
    rw [h.instruction]
    rfl
  have hlen : (advance vm vm.data).pc + len ≤ (table (advance vm vm.data).code).instructions.length :=
    h.length
  rw [hstep, Vm.openTry, if_pos hlen]
  exact ⟨.here (Nat.le_refl _) List.suffix_rfl, .region (Nat.le_refl _), List.suffix_rfl,
    fun res hres => by cases h.running.symm.trans hres⟩

/-- **Try regions restore the machine.** In a run from the entry of a region
whose code stays in it, and whose instructions find their operands above those
of the entry as long as it is open, the region is open, or was left with the
stack, the callers, the unpack frames and the try stack of the entry. -/
theorem restores (table : FnTable) (ops : Ops W) {vm vm' : Vm W} {len n : Nat}
    (henters : Enters table vm len) (hclosed : (entered vm len).Closed table)
    (hrun : (Vm.machine table ops).Steps n (vm.step table ops) vm')
    (hs : ∀ m s, m < n → (Vm.machine table ops).Steps m (vm.step table ops) s →
      (entered vm len).Open s → (entered vm len).Supplied table s) :
    (entered vm len).Open vm' ∨
      ∃ m s, m < n ∧ (Vm.machine table ops).Steps m (vm.step table ops) s ∧
        (entered vm len).Open s ∧ (entered vm len).Left table ops s (s.step table ops) :=
  Machine.Steps.until (fun _ hs h _ => h.step hclosed henters.length hs) hrun henters.open hs

/-- The code of a list whose second item is a region over a literal. -/
def triedItem : FnShape where
  params := none
  namedParams := none
  locals := 0
  isolatedModule := false
  instructions := [.loadConst (.int 10), .try_ 1, .loadConst (.int 2), .makeList 2]

/-- A state of its main frame. -/
def triedAt (pc : Nat) (stack : List Value) (tryStack : List TryFrame) : Vm Unit :=
  { Vm.start 0 Env.empty with
    pc, tryStack, data := { (Vm.start 0 Env.empty).data with stack } }

def triedRegion : Region Unit := entered (triedAt 1 [.int 10] []) 1

/-- The run of the region to its end. -/
theorem restores_tried :
    triedRegion.Open (triedAt 3 [Vm.tryResult "ok" (.int 2), .int 10] []) ∨
      ∃ m s, m < 2 ∧
        (Vm.machine (fun _ => triedItem) Ops.inert).Steps m
          ((triedAt 1 [.int 10] []).step (fun _ => triedItem) Ops.inert) s ∧
        triedRegion.Open s ∧
        triedRegion.Left (fun _ => triedItem) Ops.inert s
          (s.step (fun _ => triedItem) Ops.inert) := by
  have h1 : (Vm.machine (fun _ => triedItem) Ops.inert).Steps 1
      (triedAt 2 [.int 10] [triedRegion.frame])
      (triedAt 3 [.int 2, .int 10] [triedRegion.frame]) := .one rfl
  have hinside : ∀ pc i, triedRegion.startPc ≤ pc → pc < triedRegion.endPc →
      triedItem.instructions[pc]? = some i → i = .loadConst (.int 2) := by
    intro pc i hstart hend hi
    have hstart : 2 ≤ pc := hstart
    have hend : pc < 3 := hend
    obtain rfl : pc = 2 := by omega
    exact (Option.some.inj hi).symm
  refine restores (fun _ => triedItem) Ops.inert ⟨rfl, rfl, rfl, by decide⟩ ⟨?_, ?_, ?_⟩
    (h1.tail rfl) ?_
  · intro pc i target hstart hend hi htarget
    rw [hinside pc i hstart hend hi] at htarget
    cases htarget
  · intro pc i hstart hend hi
    rw [hinside pc i hstart hend hi]
    rfl
  · intro pc i len hstart hend hi hlen
    rw [hinside pc i hstart hend hi] at hlen
    cases hlen
  · intro m s hm hs _
    match m, hm with
    | 0, _ =>
      obtain rfl := hs.unique (.refl _)
      constructor
      · intro i hi _
        cases hi
        exact Nat.le_refl 1
      · intro i hi hend
        cases hi
        cases hend
    | 1, _ =>
      obtain rfl := hs.unique h1
      exact ⟨fun i hi => (nomatch hi), fun i hi => (nomatch hi)⟩

/-! ### A pause without a value -/

/-- The code of a list whose second item is a region over a pause without a
value and a literal. -/
def pausedOperand : FnShape where
  params := none
  namedParams := none
  locals := 0
  isolatedModule := false
  instructions := [.loadConst (.int 10), .try_ 3, .pause, .pop, .loadConst (.int 2), .makeList 2]

/-- A state of its main frame. -/
def pausedAt (pc : Nat) (stack : List Value) (tryStack : List TryFrame) : Vm Unit :=
  { Vm.start 0 Env.empty with
    pc, tryStack, data := { (Vm.start 0 Env.empty).data with stack } }

/-- The region there. -/
def pausedRegion : Region Unit := entered (pausedAt 1 [.int 10] []) 3

/-- In the code of the region it is left only by a return. -/
theorem paused_not_left {pc : Nat} {stack : List Value} {tryStack : List TryFrame}
    (hpc : pc < 5) (hreturn : ∀ i d, pausedOperand.instructions[pc]? = some i →
      (Exec.exec Ops.inert (fun _ => pausedOperand) i).run (pausedAt pc stack tryStack).data ≠
        .ok .return_ d) (next : Vm Unit) :
    ¬pausedRegion.Left (fun _ => pausedOperand) Ops.inert (pausedAt pc stack tryStack) next := by
  intro h
  cases h with
  | completed _ _ _ hend =>
    have hend : pc = 5 := hend
    omega
  | jumped _ _ _ hend =>
    have hend : 5 < pc := hend
    omega
  | caught hcontrol _ _ _ => cases hcontrol
  | returned _ _ _ hi hexec _ => exact hreturn _ _ hi hexec
  | unwound hcontrol _ _ _ => cases hcontrol

/-- A run that leaves its region at the end with the value of the region in
place of the operand that was there at the entry. -/
theorem pause_takes_operand :
    ¬∀ (vm vm' : Vm Unit) (k len n : Nat),
      (Vm.machine (fun _ => pausedOperand) Ops.inert).Steps k (Vm.start 0 Env.empty) vm →
      Enters (fun _ => pausedOperand) vm len →
      (Vm.machine (fun _ => pausedOperand) Ops.inert).Steps n
        (vm.step (fun _ => pausedOperand) Ops.inert) vm' →
      (entered vm len).Open vm' ∨
        ∃ m s, m < n ∧ (Vm.machine (fun _ => pausedOperand) Ops.inert).Steps m
            (vm.step (fun _ => pausedOperand) Ops.inert) s ∧
          (entered vm len).Open s ∧ (entered vm len).Left (fun _ => pausedOperand) Ops.inert s
            (s.step (fun _ => pausedOperand) Ops.inert) := by
  intro h
  have hstart : (Vm.machine (fun _ => pausedOperand) Ops.inert).Steps 1 (Vm.start 0 Env.empty)
      (pausedAt 1 [.int 10] []) := .one rfl
  have h1 : (Vm.machine (fun _ => pausedOperand) Ops.inert).Steps 1
      (pausedAt 2 [.int 10] [pausedRegion.frame]) (pausedAt 3 [.int 10] [pausedRegion.frame]) :=
    .one rfl
  have h2 : (Vm.machine (fun _ => pausedOperand) Ops.inert).Steps 2
      (pausedAt 2 [.int 10] [pausedRegion.frame]) (pausedAt 4 [] [pausedRegion.frame]) :=
    h1.tail rfl
  have h3 : (Vm.machine (fun _ => pausedOperand) Ops.inert).Steps 3
      (pausedAt 2 [.int 10] [pausedRegion.frame]) (pausedAt 5 [.int 2] [pausedRegion.frame]) :=
    h2.tail rfl
  have h4 : (Vm.machine (fun _ => pausedOperand) Ops.inert).Steps 4
      (pausedAt 2 [.int 10] [pausedRegion.frame])
      (pausedAt 5 [Vm.tryResult "ok" Value.emptyList, .int 2] []) :=
    h3.tail rfl
  rcases h _ _ 1 3 4 hstart ⟨rfl, rfl, rfl, by decide⟩ h4 with hopen | ⟨m, s, hm, hs, hopen, hleft⟩
  · cases hopen.above
  · match m, hm with
    | 0, _ =>
      obtain rfl := hs.unique (.refl _)
      refine paused_not_left (by decide) (fun i d hi => ?_) _ hleft
      cases hi
      intro h
      cases h
    | 1, _ =>
      obtain rfl := hs.unique h1
      refine paused_not_left (by decide) (fun i d hi => ?_) _ hleft
      cases hi
      intro h
      cases h
    | 2, _ =>
      obtain rfl := hs.unique h2
      refine paused_not_left (by decide) (fun i d hi => ?_) _ hleft
      cases hi
      intro h
      cases h
    | 3, _ =>
      obtain rfl := hs.unique h3
      have hstack : [Value.int 10] <:+ [Value.int 2] := (hopen.own rfl).2.2
      cases hstack.eq_of_length rfl

end Region

end Wqpl
