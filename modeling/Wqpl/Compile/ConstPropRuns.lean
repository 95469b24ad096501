/-
# Constant propagation follows every run

The states that an analysis leaves are a fixpoint: each knows no more than what its
predecessors leave (`Analysis`). So along a run the state of the instruction that comes next
describes the frame that is running, and the states where its callers and its try regions
go on describe these frames with whatever value they get (`Followed`). A step keeps that
(`Followed.step`), where the run is orderly (`Orderly`): no two bindings of a frame share a
cell, a try region leaves the operands below it alone, and a function is entered with what
its analysis was told.

Key definitions: `Knows`, `Analysis`, `Followed`, `Orderly`.
-/
import Wqpl.Compile.ConstPropSound
import Wqpl.Vm.Calls

namespace Wqpl

open Exec

namespace ConstProp

variable {W : Type}

/-! ### What a state knows -/

section Knows

variable {l c : Nat}

/-- What the second state knows the first one knows. -/
structure Knows (s t : State l c) : Prop where
  targets : ∀ target v, t.target target = some v → s.target target = some v
  stack : ∀ facts, t.stack = some facts → ∃ facts', s.stack = some facts' ∧
    List.Forall₂ (fun fact' fact => ∀ v, fact = some v → fact' = some v) facts' facts

theorem Knows.refl (s : State l c) : Knows s s where
  targets _ _ h := h
  stack facts h := ⟨facts, h, List.forall₂_same.mpr fun _ _ _ h => h⟩

theorem tracked_of_knows {facts' : List (Option Value)} {vs : List Value}
    (h : List.Forall₂ Tracked facts' vs) : ∀ {facts : List (Option Value)},
    List.Forall₂ (fun fact' fact => ∀ v, fact = some v → fact' = some v) facts' facts →
      List.Forall₂ Tracked facts vs := by
  induction h with
  | nil =>
    intro facts hknows
    cases hknows
    exact .nil
  | cons h _ ih =>
    intro facts hknows
    cases hknows with
    | cons hfact hrest => exact .cons (fun w hw => h w (hfact w hw)) (ih hrest)

/-- A state that knows less describes as much. -/
theorem Describes.knows {s t : State l c} {d : Data W} (h : Describes s d) (hst : Knows s t) :
    Describes t d where
  targets target v hv := h.targets target v (hst.targets target v hv)
  stack facts hfacts := by
    obtain ⟨facts', hs, hknows⟩ := hst.stack facts hfacts
    exact tracked_of_knows (h.stack facts' hs) hknows

/-- Constants that a merge takes for one. -/
def Alike (v w : Value) : Prop := Same v w ∨ w.eq v = true

/-- What the states take for one constant is one value. -/
structure Exact (s t : State l c) : Prop where
  targets : ∀ target v w, s.target target = some v → t.target target = some w → Alike v w → v = w
  stack : ∀ (xs ys : List (Option Value)) (i : Nat) v w, s.stack = some xs → t.stack = some ys →
    xs[i]? = some (some v) → ys[i]? = some (some w) → Alike v w → v = w

variable {ptrEq : PtrEq}

/-- What is left of a binding after a merge. -/
theorem target_mergeFrom (hsound : ptrEq.Sound) {s t : State l c} {target : StoreTarget} {v : Value}
    (h : (mergeFrom ptrEq s t).1.target target = some v) :
    s.target target = some v ∧ ∃ w, t.target target = some w ∧ Alike v w := by
  have hslots : ∀ {place i : Nat} {xs ys : List (Option Value)},
      ((meetSlots (ptrEq.at place) 0 xs ys)[i]?).join = some v →
      (xs[i]?).join = some v ∧ ∃ w, (ys[i]?).join = some w ∧ Alike v w := by
    intro place i xs ys h
    obtain ⟨hx, w, hw, hsame⟩ := getElem?_meetSlots (Option.join_eq_some_iff.mp h)
    exact ⟨Option.join_eq_some_iff.mpr hx, w, Option.join_eq_some_iff.mpr hw,
      .inl (.inr ⟨_, (hsound.at place).at _, hsame⟩)⟩
  cases target with
  | local_ slot =>
    have hlocal : ((mergeFrom ptrEq s t).1.locals[slot]?).join = some v := h
    rw [locals_mergeFrom] at hlocal
    exact hslots hlocal
  | capture i =>
    have hcapture : ((mergeFrom ptrEq s t).1.captures[i]?).join = some v := h
    rw [captures_mergeFrom] at hcapture
    exact hslots hcapture
  | var name =>
    obtain ⟨hv, w, hw, heq⟩ := global_mergeFrom h
    exact ⟨hv, w, hw, .inr heq⟩

theorem forall₂_meetSlots {i : Nat} {xs ys : List (Option Value)} (h : xs.length = ys.length)
    {k : Nat} : List.Forall₂ (fun fact' fact => ∀ v, fact = some v → fact' = some v) xs
      (meetSlots (ptrEq.at i) k xs ys) := by
  induction xs generalizing ys k with
  | nil =>
    cases ys with
    | nil => exact .nil
    | cons y ys => cases h
  | cons x xs ih =>
    cases ys with
    | nil => cases h
    | cons y ys =>
      refine .cons (fun v hv => ?_) (ih (Nat.succ.inj h))
      exact (meetConst_eq_some hv).1

/-- A merge of exact states: the incoming one knows what is left. -/
theorem knows_mergeFrom (hsound : ptrEq.Sound) {s t : State l c} (hexact : Exact s t) :
    Knows t (mergeFrom ptrEq s t).1 where
  targets target v h := by
    obtain ⟨hv, w, hw, halike⟩ := target_mergeFrom hsound h
    rw [hw, hexact.targets target v w hv hw halike]
  stack facts h := by
    rw [stack_mergeFrom] at h
    obtain ⟨xs, ys, hxs, hys, hlen, rfl⟩ := meetStack_eq_some h
    refine ⟨ys, hys, List.forall₂_iff_get.mpr ⟨?_, fun i hi hi' v hv => ?_⟩⟩
    · rw [length_meetSlots _ 0 xs ys hlen, hlen]
    · have hget : (meetSlots (ptrEq.at 2) 0 xs ys)[i]? = some (some v) := by
        rw [List.getElem?_eq_getElem hi']
        exact congrArg some hv
      obtain ⟨hx, w, hw, hsame⟩ := getElem?_meetSlots hget
      have halike : Alike v w := .inl (.inr ⟨_, (hsound.at 2).at _, hsame⟩)
      obtain rfl := hexact.stack xs ys i v w hxs hys hx hw halike
      rw [List.getElem?_eq_getElem hi] at hw
      exact Option.some.inj hw

/-- What knew the old state knows what is left. -/
theorem Knows.mergeFrom {x s : State l c} (h : Knows x s) (hsound : ptrEq.Sound) (t : State l c) :
    Knows x (mergeFrom ptrEq s t).1 where
  targets target v hv := h.targets target v (target_mergeFrom hsound hv).1
  stack facts hfacts := by
    rw [stack_mergeFrom] at hfacts
    obtain ⟨xs, ys, hxs, -, hlen, rfl⟩ := meetStack_eq_some hfacts
    obtain ⟨us, hus, hknows⟩ := h.stack xs hxs
    refine ⟨us, hus, List.forall₂_iff_get.mpr ⟨?_, fun i hi hi' v hv => ?_⟩⟩
    · rw [length_meetSlots _ 0 xs ys hlen, hknows.length_eq]
    · have hx : i < xs.length := hknows.length_eq ▸ hi
      have hmeet := (forall₂_meetSlots hlen).get hx hi' v hv
      exact hknows.get hi hx v hmeet

end Knows

/-! ### The analysis of a function -/

/-- What is known when a function is entered. -/
structure Seed where
  captureValues : List (Option Value)
  globals : Globals

/-- What is known is so, and the frame is new. -/
structure Seed.Holds (seed : Seed) (d : Data W) : Prop where
  captures : ∀ i v, seed.captureValues[i]?.join = some v → d.valueAt (.capture i) = some v
  globals : ∀ name v, seed.globals.get? name = some v → d.env.globals name = some v
  stack : d.stack = []

theorem Seed.Holds.describes {seed : Seed} {d : Data W} (h : seed.Holds d) (l c : Nat) :
    Describes (.newWithGlobals l c seed.captureValues seed.globals : State l c) d where
  targets t v hv := by
    cases t with
    | local_ slot =>
      have hnone : ((List.replicate l (none : Option Value))[slot]?).join = none := by
        rw [List.getElem?_replicate]
        split <;> rfl
      cases hnone.symm.trans hv
    | capture i =>
      have hcapture : (((List.range c).map fun i =>
          seed.captureValues[i]?.join.bind trackableValue)[i]?).join = some v := hv
      rw [List.getElem?_map] at hcapture
      obtain ⟨j, hj, hfact⟩ := Option.map_eq_some_iff.mp (Option.join_eq_some_iff.mp hcapture)
      obtain rfl : i = j := by
        obtain ⟨hlt, hget⟩ := List.getElem?_eq_some_iff.mp hj
        rw [List.getElem_range] at hget
        exact hget
      obtain ⟨w, hw, htrackable⟩ := Option.bind_eq_some_iff.mp hfact
      obtain rfl := known_trackableValue w v htrackable
      exact h.captures i v hw
    | var name => exact h.globals name v hv
  stack facts hfacts := by
    obtain rfl := Option.some.inj hfacts
    rw [h.stack]
    exact .nil

/-- The states before the instructions of a function, as far as they are reached. -/
structure Analysis (ops : Ops W) (code : List Instruction) where
  localCount : Nat
  captureCount : Nat
  seed : Seed
  states : List (Option (State localCount captureCount))
  length_states : states.length = code.length
  entry : code ≠ [] → ∃ s, states[0]? = some (some s) ∧
    Knows (.newWithGlobals localCount captureCount seed.captureValues seed.globals) s
  fixpoint : Worklist.Fixpoint (successors ops code) Knows states

/-- Every merge of the analysis is of states that are exact together. -/
def ExactThroughout (ops : Ops W) (ptrEq : PtrEq) (code : List Instruction) (l c : Nat)
    (captureValues : List (Option Value)) (globals : Globals) : Prop :=
  (Worklist.machine (successors ops code) fun k => mergeFrom (ptrEq.at k)).Always
    (Worklist.Agreeing Exact)
    (initial code captureValues globals : Worklist.Config (State l c))

/-- What `analyze` leaves. -/
def Analysis.of (ops : Ops W) {ptrEq : PtrEq} (hsound : ptrEq.Sound) {code : List Instruction}
    {l c : Nat} {captureValues : List (Option Value)} {globals : Globals}
    (hexact : ExactThroughout ops ptrEq code l c captureValues globals) {fuel : Nat}
    {states : List (Option (State l c))}
    (hrun : analyze ops ptrEq fuel code l c captureValues globals = some states) :
    Analysis ops code where
  localCount := l
  captureCount := c
  seed := ⟨captureValues, globals⟩
  states := states
  length_states := by
    rw [Worklist.length_of_run hrun]
    exact List.length_set.trans List.length_replicate
  entry hcode := by
    refine Worklist.kept_of_run Knows.refl (fun k s t x h => h.mergeFrom (hsound.at k) t) ?_ hrun
    refine List.getElem?_set_self ?_
    rw [List.length_replicate]
    exact List.length_pos_iff.mpr hcode
  fixpoint := by
    refine Worklist.fixpoint_of_run Knows.refl (fun k s t h => ?_) (fun k s t x h => ?_)
      same_of_not_changed (settled_initial _ _ code captureValues globals) hexact hrun
    · exact knows_mergeFrom (hsound.at k) h
    · exact h.mergeFrom (hsound.at k) t

/-- The state of a successor describes what is left for it. -/
theorem Analysis.follow {ops : Ops W} {code : List Instruction} (a : Analysis ops code)
    {pc pc' : Nat} {i : Instruction} {s s' : State a.localCount a.captureCount}
    (hi : code[pc]? = some i)
    (hs : a.states[pc]? = some (some s)) (hmem : (pc', s') ∈ transfer ops pc i s)
    (hlt : pc' < code.length) : ∃ t, a.states[pc']? = some (some t) ∧ Knows s' t := by
  refine a.fixpoint pc s hs (pc', s') ?_ (a.length_states ▸ hlt)
  unfold successors
  rw [hi]
  exact hmem

/-- The analyses of the functions that have one. -/
abbrev Analyses (ops : Ops W) (table : FnTable) :=
  ∀ f, Option (Analysis ops (table f).instructions)

namespace Analyses

variable {ops : Ops W} {table : FnTable} (A : Analyses ops table)

/-- The state before the instruction describes the data. -/
def At (f : FnId) (pc : Nat) (d : Data W) : Prop :=
  ∀ a, A f = some a → pc < (table f).instructions.length →
    ∃ s, a.states[pc]? = some (some s) ∧ Describes s d

/-- The state before the instruction describes the data with one more value, whichever it is. -/
def Awaits (f : FnId) (pc : Nat) (stack : List Value) : Prop :=
  ∀ v (d : Data W), d.stack = v :: stack → A.At f pc d

/-- Where control goes after an instruction. -/
def Goes (f : FnId) (pc : Nat) (d : Data W) : Flow W → Prop
  | .next => A.At f (pc + 1) d
  | .jump target => A.At f target d
  | .builtin _ | .import_ _ => A.Awaits f (pc + 1) d.stack
  | .enter _ argc => A.Awaits f (pc + 1) (d.stack.drop argc)
  | .try_ len => A.At f (pc + 1) d ∧ A.Awaits f (pc + 1 + len) d.stack
  | .return_ | .tail _ _ => True

variable {A}

theorem At.of_stack {f : FnId} {pc : Nat} {d d' : Data W} (h : A.At f pc d)
    (hvalues : d'.valueAt = d.valueAt) (hstack : d'.stack = d.stack) : A.At f pc d' := by
  intro a ha hlt
  obtain ⟨s, hs, hdescribes⟩ := h a ha hlt
  exact ⟨s, hs, hvalues ▸ hdescribes.targets, hstack ▸ hdescribes.stack⟩

/-- An instruction of a function with an analysis. -/
theorem At.exec (hfast : IntFastPath ops) (hno : IndexesNoCas ops) {f : FnId} {pc : Nat}
    {d d' : Data W} (h : A.At f pc d) (hapart : Apart d) {i : Instruction}
    (hi : (table f).instructions[pc]? = some i) (hsource : ∀ a, A f = some a → i.isSource = true)
    {flow : Flow W} (hrun : (exec ops table i).run d = .ok flow d') : A.Goes f pc d' flow := by
  have hleads : ∀ a, A f = some a → ∃ s, a.states[pc]? = some (some s) ∧
      Leads pc (transfer ops pc i s) d' flow := by
    intro a ha
    obtain ⟨s, hs, hdescribes⟩ := h a ha (List.getElem?_eq_some_iff.mp hi).1
    exact ⟨s, hs, exec_leads hfast hno table (hsource a ha) ⟨hdescribes, hapart⟩ hrun⟩
  have hat : ∀ pc' (d'' : Data W), (∀ a, A f = some a → ∀ s : State a.localCount a.captureCount,
      Leads pc (transfer ops pc i s) d' flow →
        ∃ s', (pc', s') ∈ transfer ops pc i s ∧ Describes s' d'') → A.At f pc' d'' := by
    intro pc' d'' hmem a ha hlt
    obtain ⟨s, hs, hl⟩ := hleads a ha
    obtain ⟨s', hs', hdescribes⟩ := hmem a ha s hl
    obtain ⟨t, ht, hknows⟩ := a.follow hi hs hs' hlt
    exact ⟨t, ht, hdescribes.knows hknows⟩
  cases flow with
  | next => exact hat _ _ fun a ha s hl => hl
  | jump target => exact hat _ _ fun a ha s hl => hl
  | builtin run =>
    refine fun v d'' hd => hat _ _ fun a ha s hl => ?_
    obtain ⟨s', hs', h⟩ := hl
    exact ⟨s', hs', h v d'' hd⟩
  | import_ data =>
    refine fun v d'' hd => hat _ _ fun a ha s hl => ?_
    obtain ⟨s', hs', h⟩ := hl
    exact ⟨s', hs', h v d'' hd⟩
  | enter callee argc =>
    refine fun v d'' hd => hat _ _ fun a ha s hl => ?_
    obtain ⟨s', hs', h⟩ := hl
    exact ⟨s', hs', h v d'' hd⟩
  | try_ len =>
    have hlen := exec_allows ops table i d _ d' hrun
    refine ⟨hat _ _ fun a ha s hl => ?_, fun v d'' hd => hat _ _ fun a ha s hl => ?_⟩
    · exact hl.1 (Instruction.isSource_tryLen (hsource a ha) hlen).2
    · obtain ⟨s', hs', h⟩ := hl.2
      exact ⟨s', hs', h v d'' hd⟩
  | return_ => trivial
  | tail callee argc => trivial

/-! ### Runs -/

/-- Code as it is when constants are propagated. A try region is not entered but at its start,
and the regions inside it end inside. -/
structure SourceCode (code : List Instruction) : Prop where
  source : ∀ i ∈ code, i.isSource = true
  forward : ∀ (start len pc : Nat) (i : Instruction) (target : Nat),
    code[start]? = some (.try_ len) → start < pc → pc ≤ start + len → code[pc]? = some i →
    i.target = some target → start < target
  nested : ∀ start len pc len' : Nat, code[start]? = some (.try_ len) → start < pc →
    pc ≤ start + len → code[pc]? = some (.try_ len') → pc + len' ≤ start + len

/-- The next step enters a function, or makes a tail call. -/
def Entering (table : FnTable) (ops : Ops W) (vm : Vm W) : Prop :=
  vm.depth < (vm.step table ops).depth ∨
    ∃ i, vm.nextInstruction table = some i ∧ i.isTailCall = true

/-- What the analyses of the functions with a seed rely on in a state of a run. -/
structure Orderly (table : FnTable) (ops : Ops W) (seeds : FnId → Option Seed) (vm : Vm W) :
    Prop where
  apart : vm.control = .running → Apart vm.data
  supplied : ∀ r : Region W, (seeds r.code).isSome → r.Open vm → r.Supplied table vm
  left : ∀ r : Region W, (seeds r.code).isSome → r.Open vm → vm.control = .running →
    vm.callers = r.callers → r.endPc < vm.pc → vm.data.stack = r.stack
  seeded : ∀ seed, seeds (vm.step table ops).code = some seed → Entering table ops vm →
    (vm.step table ops).control = .running → seed.Holds (vm.step table ops).data

/-- The seeds of the analyses. -/
def seeds (A : Analyses ops table) (f : FnId) : Option Seed := (A f).map Analysis.seed

theorem isSome_seeds (A : Analyses ops table) (f : FnId) : (A.seeds f).isSome = (A f).isSome :=
  Option.isSome_map

variable (A)

/-- The region of a frame of the try stack, which goes on at its end. -/
structure Guards (vm : Vm W) (frame : TryFrame) (rest : List TryFrame) (r : Region W) : Prop where
  frame : r.frame = frame
  tryStack : r.tryStack = rest
  opened : r.Open vm
  closed : r.Closed table
  bound : r.endPc ≤ (table r.code).instructions.length
  awaits : A.Awaits r.code r.endPc r.stack

/-- The states describe the frame that is running and its callers. -/
structure Framed (vm : Vm W) : Prop where
  running : vm.control = .running → A.At vm.code vm.pc vm.data
  builtin : ∀ run, vm.control = .builtin run → A.Awaits vm.code vm.pc vm.data.stack
  callers : ∀ frame ∈ vm.callers, A.Awaits frame.code frame.pc frame.stack

/-- They describe what the try regions return to as well. -/
structure Followed (vm : Vm W) : Prop extends A.Framed vm where
  tries : ∀ frame rest, frame :: rest <:+ vm.tryStack → (A frame.code).isSome →
    ∃ r : Region W, A.Guards vm frame rest r

variable {A} {vm vm' : Vm W}

/-! #### Regions -/

/-- Code without an analysis. -/
theorem at_of_none {f : FnId} (h : A f = none) (pc : Nat) (d : Data W) : A.At f pc d := by
  intro a ha
  cases h.symm.trans ha

/-- A region that is left leaves the try stack. -/
theorem left_tryStack {r : Region W} (h : r.Left table ops vm vm') :
    vm'.tryStack.length ≤ r.tryStack.length := by
  have hreturned : ∀ {res : WqResult Value} {next : Vm W}, r.Returned res next →
      next.tryStack.length ≤ r.tryStack.length := by
    intro res next h
    rw [h.tryStack]
    exact (List.dropWhile_suffix _).length_le
  cases h with
  | completed => exact Nat.le_refl _
  | jumped => exact Nat.le_refl _
  | caught => exact Nat.le_refl _
  | returned _ _ _ _ _ h => exact hreturned h
  | unwound _ _ _ h => exact hreturned h

/-- The region belongs to code with an analysis where its frame does. -/
theorem Guards.isSome {frame : TryFrame} {rest : List TryFrame} {r : Region W}
    (h : A.Guards vm frame rest r) (hsome : (A frame.code).isSome) : (A r.code).isSome := by
  rw [← h.frame] at hsome
  exact hsome

/-- The region of the innermost frame, where the frame belongs to the code that is running. -/
theorem Followed.own_region (h : A.Followed vm) {frame : TryFrame} {rest : List TryFrame}
    (htry : vm.tryStack = frame :: rest) (howns : vm.ownsTry frame = true)
    (hsome : (A vm.code).isSome) :
    ∃ r : Region W, A.Guards vm frame rest r ∧ (A r.code).isSome := by
  have hcode : frame.code = vm.code := (of_decide_eq_true howns).2
  rw [← hcode] at hsome
  obtain ⟨r, hr⟩ := h.tries frame rest (htry ▸ List.suffix_rfl) hsome
  exact ⟨r, hr, hr.isSome hsome⟩

/-- A region that is still on the try stack after a step is still open. -/
theorem Followed.tries_step (h : A.Followed vm) (horderly : Orderly table ops A.seeds vm)
    {frame : TryFrame} {rest : List TryFrame} (hsuffix : frame :: rest <:+ vm.tryStack)
    (hstep : frame :: rest <:+ (vm.step table ops).tryStack) (ha : (A frame.code).isSome) :
    ∃ r : Region W, A.Guards (vm.step table ops) frame rest r := by
  obtain ⟨r, hr⟩ := h.tries frame rest hsuffix ha
  have hsome := hr.isSome ha
  obtain ⟨hframe, htry, hopen, hclosed, hbound, hawaits⟩ := hr
  refine ⟨r, hframe, htry, ?_, hclosed, hbound, hawaits⟩
  have hsupplied := horderly.supplied r ((A.isSome_seeds _).trans hsome) hopen
  refine (hopen.step hclosed hbound hsupplied).resolve_right fun hleft => ?_
  have hle := left_tryStack hleft
  have hlength := hstep.length_le
  rw [htry] at hle
  rw [List.length_cons] at hlength
  omega

/-- The region of a frame that the current frame owns is its own. -/
theorem Guards.own {frame : TryFrame} {rest : List TryFrame} {r : Region W}
    (h : A.Guards vm frame rest r) (howns : vm.ownsTry frame = true) : vm.callers = r.callers := by
  have hdepth : frame.callDepth = vm.depth := (of_decide_eq_true howns).1
  rw [← h.frame] at hdepth
  exact (h.opened.inside.own hdepth.symm).1

/-! #### Frames -/

/-- A function at its start. -/
theorem at_entry {f : FnId} {d : Data W} (h : ∀ a, A f = some a → a.seed.Holds d) :
    A.At f 0 d := by
  intro a ha hlt
  obtain ⟨s, hs, hknows⟩ := a.entry (List.length_pos_iff.mp hlt)
  exact ⟨s, hs, ((h a ha).describes _ _).knows hknows⟩

theorem framed_halted {res : WqResult Value} (hcontrol : vm.control = .halted res)
    (hcallers : ∀ frame ∈ vm.callers, A.Awaits frame.code frame.pc frame.stack) : A.Framed vm where
  running h := by cases hcontrol.symm.trans h
  builtin _ h := by cases hcontrol.symm.trans h
  callers := hcallers

theorem framed_unwinding {e : WqErrorType} (hcontrol : vm.control = .unwinding e)
    (hcallers : ∀ frame ∈ vm.callers, A.Awaits frame.code frame.pc frame.stack) : A.Framed vm where
  running h := by cases hcontrol.symm.trans h
  builtin _ h := by cases hcontrol.symm.trans h
  callers := hcallers

theorem framed_running (hat : A.At vm.code vm.pc vm.data) (hcontrol : vm.control = .running)
    (hcallers : ∀ frame ∈ vm.callers, A.Awaits frame.code frame.pc frame.stack) : A.Framed vm where
  running _ := hat
  builtin _ h := by cases hcontrol.symm.trans h
  callers := hcallers

theorem framed_builtin {run : BuiltinRun W} (hawaits : A.Awaits vm.code vm.pc vm.data.stack)
    (hcontrol : vm.control = .builtin run)
    (hcallers : ∀ frame ∈ vm.callers, A.Awaits frame.code frame.pc frame.stack) : A.Framed vm where
  running h := by cases hcontrol.symm.trans h
  builtin _ _ := hawaits
  callers := hcallers

/-- A call from a frame that awaits its value. -/
theorem framed_calls {lower : List Value} (hcalls : vm.Calls lower vm')
    (hawaits : A.Awaits vm.code vm.pc lower)
    (hcallers : ∀ frame ∈ vm.callers, A.Awaits frame.code frame.pc frame.stack)
    (hseeded : vm.depth < vm'.depth → vm'.control = .running →
      ∀ a, A vm'.code = some a → a.seed.Holds vm'.data) : A.Framed vm' := by
  cases hcalls with
  | failed hc hcontrol => exact framed_unwinding hcontrol (hc ▸ hcallers)
  | builtin h hstack hcontrol =>
    refine framed_builtin ?_ hcontrol (h.callers ▸ hcallers)
    rw [h.code, h.pc, hstack]
    exact hawaits
  | answered h hstack hcontrol =>
    refine framed_running ?_ hcontrol (h.callers ▸ hcallers)
    rw [h.code, h.pc]
    exact hawaits _ vm'.data hstack
  | entered hc h hstack hpc hcontrol =>
    have hdepth : vm.depth < vm'.depth := by
      rw [Vm.depth, Vm.depth, hc]
      exact Nat.lt_succ_self _
    refine framed_running ?_ hcontrol fun frame hframe => ?_
    · rw [hpc]
      exact at_entry (hseeded hdepth hcontrol)
    · rw [hc, List.mem_cons] at hframe
      rcases hframe with rfl | hframe
      · rw [h.code, h.pc, hstack]
        exact hawaits
      · exact hcallers frame hframe

/-- A caller goes on with the result of its call. -/
theorem framed_resumed {frame : CallerFrame W} {rest : List (CallerFrame W)} {res : WqResult Value}
    (hres : Region.Resumed vm frame rest res vm')
    (hcallers : ∀ f ∈ frame :: rest, A.Awaits f.code f.pc f.stack) : A.Framed vm' := by
  have hrest : ∀ f ∈ vm'.callers, A.Awaits f.code f.pc f.stack := fun f hf =>
    hcallers f (List.mem_cons_of_mem _ (hres.callers ▸ hf))
  have hframe : A.Awaits vm'.code vm'.pc frame.stack := by
    rw [hres.code, hres.pc]
    exact hcallers frame List.mem_cons_self
  have hreceives := hres.receives
  unfold Region.receives at hreceives
  split at hreceives
  · exact framed_running (hframe _ vm'.data hreceives.1) hreceives.2 hrest
  · exact framed_unwinding hreceives.2 hrest
  · obtain ⟨hstack, env, hcontrol⟩ := hreceives
    exact framed_builtin (hstack ▸ hframe) hcontrol hrest

theorem framed_returnFrame (hrun : vm.control = .running)
    (hcallers : ∀ frame ∈ vm.callers, A.Awaits frame.code frame.pc frame.stack) :
    A.Framed vm.returnFrame := by
  cases hc : vm.callers with
  | nil =>
    rw [Region.returnFrame_nil hc]
    exact framed_halted rfl hcallers
  | cons frame rest =>
    exact framed_resumed (Region.returnFrame_cons hrun hc) (hc ▸ hcallers)

/-- An error that a region of an analysed function catches, or any other. -/
theorem Followed.framed_unwind (h : A.Followed vm) (e : WqErrorType) :
    A.Framed (vm.unwind ops e) := by
  cases hcatch : vm.catchCurrentTryError ops e with
  | some vm' =>
    have hunwind : vm.unwind ops e = vm' := by rw [Vm.unwind, hcatch]
    rw [hunwind]
    unfold Vm.catchCurrentTryError at hcatch
    split at hcatch
    · cases hcatch
    · split at hcatch
      · cases hcatch
      · rename_i frame rest htry
        split at hcatch
        · rename_i howns
          obtain rfl := Option.some.inj hcatch
          refine framed_running ?_ rfl h.callers
          cases ha : A vm.code with
          | none => exact at_of_none ha _ _
          | some a =>
            have hsome := Option.isSome_iff_exists.mpr ⟨a, ha⟩
            obtain ⟨r, hr, -⟩ := h.own_region htry howns hsome
            have hc := hr.own howns
            rw [← hr.frame, ← hr.tryStack, Region.catchTry_frame hr.opened hc e]
            exact hr.awaits _ _ rfl
        · cases hcatch
  | none =>
    cases hc : vm.callers with
    | nil =>
      rw [Region.unwind_nil hcatch hc]
      exact framed_halted rfl h.callers
    | cons frame rest => exact framed_resumed (Region.unwind_cons hcatch hc) (hc ▸ h.callers)

/-- The end of a region. -/
theorem Followed.framed_finish (h : A.Followed vm) (horderly : Orderly table ops A.seeds vm)
    (hrun : vm.control = .running) (hboundary : vm.finishTryBoundary = some vm') :
    A.Framed vm' := by
  unfold Vm.finishTryBoundary at hboundary
  split at hboundary
  · cases hboundary
  · rename_i frame rest htry
    split at hboundary
    · rename_i hends
      obtain rfl := Option.some.inj hboundary
      refine framed_running ?_ hrun h.callers
      cases ha : A vm.code with
      | none => exact at_of_none ha _ _
      | some a =>
        have hanalysed := Option.isSome_iff_exists.mpr ⟨a, ha⟩
        obtain ⟨r, hr, hsome⟩ := h.own_region htry hends.1 hanalysed
        have hc := hr.own hends.1
        have hend : r.endPc = frame.endPc := congrArg TryFrame.endPc hr.frame
        rw [← hr.frame, ← hr.tryStack, Region.finishTry_frame hr.opened hrun hc]
        by_cases hpc : vm.pc = r.endPc
        · rw [if_pos hpc, hpc]
          exact hr.awaits _ _ rfl
        · -- control jumped over the end, with the operands of the entry
          have hlt : r.endPc < vm.pc := Nat.lt_of_le_of_ne (hend ▸ hends.2) (Ne.symm hpc)
          have hstack := horderly.left r ((A.isSome_seeds _).trans hsome) hr.opened hrun hc hlt
          rw [if_neg hpc]
          have hat := h.running hrun
          rw [(hr.opened.own hc).1] at hat
          exact hat.of_stack (by funext t; cases t <;> rfl) hstack.symm
    · cases hboundary

/-- An instruction of a frame that is described. -/
theorem Followed.framed_instruction (hfast : IntFastPath ops) (hno : IndexesNoCas ops)
    (h : A.Followed vm) (horderly : Orderly table ops A.seeds vm) (hrun : vm.control = .running)
    (hboundary : vm.finishTryBoundary = none) {i : Instruction}
    (hi : (table vm.code).instructions[vm.pc]? = some i)
    (hsource : ∀ a, A vm.code = some a → i.isSource = true) :
    A.Framed (vm.step table ops) := by
  have hstep := Vm.step_eq_stepInstruction table ops hrun hboundary hi
  have hcall : vm.depth < (vm.step table ops).depth → (vm.step table ops).control = .running →
      ∀ a, A (vm.step table ops).code = some a → a.seed.Holds (vm.step table ops).data :=
    fun hdepth hcontrol a ha => horderly.seeded a.seed (congrArg _ ha) (.inl hdepth) hcontrol
  have htail : i.isTailCall = true → (vm.step table ops).control = .running →
      ∀ a, A (vm.step table ops).code = some a → a.seed.Holds (vm.step table ops).data :=
    fun htail hcontrol a ha => horderly.seeded a.seed (congrArg _ ha)
      (.inr ⟨i, (Vm.nextInstruction_eq table hrun hboundary).trans hi, htail⟩) hcontrol
  rw [hstep] at hcall htail ⊢
  unfold Vm.stepInstruction at hcall htail ⊢
  cases hexec : (exec ops table i).run vm.data with
  | error e d => exact framed_unwinding rfl h.callers
  | ok flow d =>
    rw [hexec] at hcall htail
    have hgoes := (h.running hrun).exec hfast hno (horderly.apart hrun) hi hsource hexec
    have hallows := exec_allows ops table i vm.data flow d hexec
    have hadvance : (Region.advance vm d).control = .running := hrun
    cases flow with
    | next => exact framed_running hgoes hrun h.callers
    | jump target => exact framed_running hgoes hrun h.callers
    | return_ => exact framed_returnFrame hadvance h.callers
    | try_ len =>
      show A.Framed ((Region.advance vm d).openTry table len)
      unfold Vm.openTry
      split
      · refine framed_running ?_ hrun h.callers
        exact hgoes.1.of_stack (by funext t; cases t <;> rfl) rfl
      · exact framed_unwinding rfl h.callers
    | enter callee argc =>
      exact framed_calls (Vm.enterCall_calls table ops (Region.advance vm d) callee argc) hgoes
        h.callers hcall
    | tail callee argc =>
      obtain ⟨hcallers, hcases⟩ := Vm.prepareTail_cases table (Region.advance vm d) callee argc
      have hcallers' : ∀ frame ∈ ((Region.advance vm d).prepareTail table callee argc).callers,
          A.Awaits frame.code frame.pc frame.stack := hcallers ▸ h.callers
      rcases hcases with ⟨e, hcontrol⟩ | ⟨hpc, hcontrol⟩
      · exact framed_unwinding hcontrol hcallers'
      · refine framed_running ?_ (hcontrol.trans hrun) hcallers'
        show A.At _ ((Region.advance vm d).prepareTail table callee argc).pc _
        rw [hpc]
        exact at_entry (htail hallows (hcontrol.trans hrun))
    | builtin run => exact framed_builtin hgoes rfl h.callers
    | import_ data =>
      exact framed_calls (Vm.importModule_calls table ops hadvance data) hgoes h.callers hcall

/-- The frames after a step. -/
theorem Followed.framed_step (hfast : IntFastPath ops) (hno : IndexesNoCas ops)
    (hcode : ∀ f, (A f).isSome → SourceCode (table f).instructions) (h : A.Followed vm)
    (horderly : Orderly table ops A.seeds vm) : A.Framed (vm.step table ops) := by
  cases hcontrol : vm.control with
  | running =>
    cases hboundary : vm.finishTryBoundary with
    | some vm' =>
      rw [Vm.step_eq_finished table ops hcontrol hboundary]
      exact h.framed_finish horderly hcontrol hboundary
    | none =>
      cases hi : (table vm.code).instructions[vm.pc]? with
      | none =>
        rw [Vm.step_eq_returnFrame table ops hcontrol hboundary hi]
        exact framed_returnFrame hcontrol h.callers
      | some i =>
        refine h.framed_instruction hfast hno horderly hcontrol hboundary hi fun a ha => ?_
        have hsome := Option.isSome_iff_exists.mpr ⟨a, ha⟩
        exact (hcode vm.code hsome).source i (List.mem_of_getElem? hi)
  | builtin run =>
    have hstep : vm.step table ops = vm.stepBuiltin table ops run := by rw [Vm.step, hcontrol]
    have hcall : vm.depth < (vm.step table ops).depth → (vm.step table ops).control = .running →
        ∀ a, A (vm.step table ops).code = some a → a.seed.Holds (vm.step table ops).data :=
      fun hdepth hrun a ha => horderly.seeded a.seed (congrArg _ ha) (.inl hdepth) hrun
    rw [hstep] at hcall ⊢
    exact framed_calls (Vm.stepBuiltin_calls table ops vm run) (h.builtin run hcontrol) h.callers
      hcall
  | unwinding e =>
    have hstep : vm.step table ops = vm.unwind ops e := by rw [Vm.step, hcontrol]
    rw [hstep]
    exact h.framed_unwind e
  | halted res =>
    have hstep : vm.step table ops = vm := by rw [Vm.step, hcontrol]
    rw [hstep]
    exact h.toFramed

/-- The region that a step opens. -/
theorem Followed.guards_opened (hfast : IntFastPath ops) (hno : IndexesNoCas ops)
    (h : A.Followed vm) (horderly : Orderly table ops A.seeds vm) {i : Instruction} {len : Nat}
    {d : Data W} (hopens : vm.Opens table ops i len d)
    (hcode : SourceCode (table vm.code).instructions)
    {frame : TryFrame} (hframe : (vm.step table ops).tryStack = frame :: vm.tryStack) :
    ∃ r : Region W, A.Guards (vm.step table ops) frame vm.tryStack r := by
  have hsource := hcode.source i (List.mem_of_getElem? hopens.instruction)
  have hgoes := (h.running hopens.running).exec hfast hno (horderly.apart hopens.running)
    hopens.instruction (fun _ _ => hsource) hopens.executes
  obtain ⟨rfl, -⟩ := Instruction.isSource_tryLen hsource
    (exec_allows ops table i vm.data (.try_ len) d hopens.executes)
  have hi := hopens.instruction
  rw [hopens.opened] at hframe ⊢
  refine ⟨{ code := vm.code, startPc := vm.pc + 1, endPc := vm.pc + 1 + len, stack := d.stack
            unpackFrames := d.unpackFrames, callers := vm.callers, tryStack := vm.tryStack
            savedNamedMeta := d.pendingNamedMeta }, (List.cons.inj hframe).1, rfl, ?_, ?_,
    hopens.bound, hgoes.2⟩
  · refine ⟨.here (Nat.le_refl _) List.suffix_rfl, .region (Nat.le_refl _), List.suffix_rfl, ?_⟩
    exact fun res hres => by cases hopens.running.symm.trans hres
  · constructor
    · intro pc i' target hstart hend hi' htarget
      dsimp only at hend
      exact hcode.forward vm.pc len pc i' target hi hstart (by omega) hi' htarget
    · exact fun pc i' _ _ hi' =>
        Instruction.isSource_noTail (hcode.source i' (List.mem_of_getElem? hi'))
    · intro pc i' len' hstart hend hi' hlen'
      obtain ⟨rfl, -⟩ := Instruction.isSource_tryLen
        (hcode.source i' (List.mem_of_getElem? hi')) hlen'
      have hnested := hcode.nested vm.pc len pc len' hi hstart (by dsimp only at hend; omega) hi'
      dsimp only
      omega

/-- **A step keeps the states true of the machine.** -/
theorem Followed.step (hfast : IntFastPath ops) (hno : IndexesNoCas ops)
    (hcode : ∀ f, (A f).isSome → SourceCode (table f).instructions) (h : A.Followed vm)
    (horderly : Orderly table ops A.seeds vm) : A.Followed (vm.step table ops) where
  toFramed := h.framed_step hfast hno hcode horderly
  tries frame rest hsuffix hsome := by
    rcases @Vm.step_tryStack W table ops vm with hkept | ⟨i, len, d, hopens⟩
    · exact h.tries_step horderly (hsuffix.trans hkept) hsuffix hsome
    · have hopened := congrArg Vm.tryStack hopens.opened
      rcases List.suffix_cons_iff.mp (hopened ▸ hsuffix) with heq | hinner
      · obtain ⟨rfl, rfl⟩ := List.cons.inj heq
        exact h.guards_opened hfast hno horderly hopens (hcode _ hsome) hopened
      · exact h.tries_step horderly hinner hsuffix hsome

/-- **Along a run** from the start of a program the states stay true of the machine. -/
theorem followed_run (hfast : IntFastPath ops) (hno : IndexesNoCas ops)
    (hcode : ∀ f, (A f).isSome → SourceCode (table f).instructions) {fn : FnId} {env : Env W}
    (hseed : ∀ seed, A.seeds fn = some seed → seed.Holds (Vm.start fn env).data)
    (horderly : (Vm.machine table ops).Always (Orderly table ops A.seeds) (Vm.start fn env)) :
    (Vm.machine table ops).Always A.Followed (Vm.start fn env) := by
  refine horderly.invariant ?_ fun vm hvm h _ => h.step hfast hno hcode hvm
  refine ⟨framed_running ?_ rfl ?_, fun frame rest hsuffix => ?_⟩
  · exact at_entry fun a ha => hseed a.seed (congrArg _ ha)
  · rintro frame ⟨⟩
  · cases List.suffix_nil.mp hsuffix

end Analyses

end ConstProp

end Wqpl
