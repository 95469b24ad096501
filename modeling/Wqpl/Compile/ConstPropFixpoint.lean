/-
# The end of constant propagation

A merge leaves a state its facts or takes some of them away
(`mergeFrom_cases`), so the analysis ends. Locals, captures and the stack keep
a fact only where both states have the same constant; a global keeps its value
where the other state has one that compares equal. So the states that are left
are a fixpoint as far as equal globals go, and a fixpoint of constants where
no merge meets globals that are equal and not the same (`analyze_fixpoint`).
-/
import Wqpl.Compile.ConstProp

namespace Wqpl

namespace ConstProp

/-! ### Constants that are the same -/

/-- A comparison of pointers that finds only one value behind one pointer. -/
def PtrEq.Sound (ptrEq : PtrEq) : Prop := ∀ path v w, ptrEq path v w = true → v = w

theorem PtrEq.Sound.at {ptrEq : PtrEq} (h : ptrEq.Sound) (place : Nat) : (ptrEq.at place).Sound :=
  fun path => h (place :: path)

/-- One value, or two that a sound comparison takes for one. -/
def Same (v w : Value) : Prop :=
  v = w ∨ ∃ ptrEq : PtrEq, ptrEq.Sound ∧ sameConstant ptrEq v w = true

theorem eqSlot_refl (x : Option Value) : eqSlot x x = true := by
  cases x with
  | none => rfl
  | some v => exact (Value.eq_iff v v).mpr rfl

theorem eqSlots_refl : ∀ xs : List (Option Value), eqSlots xs xs = true
  | [] => rfl
  | x :: xs => by rw [eqSlots, eqSlot_refl, eqSlots_refl xs, Bool.and_self]

/-! ### Slots -/

/-- A slot that is met stays as it was or loses its value. -/
theorem meetConst_cases (ptrEq : PtrEq) (x y : Option Value) :
    meetConst ptrEq x y = x ∨ meetConst ptrEq x y = none ∧ eqSlot x none = false := by
  cases x with
  | none => exact .inl rfl
  | some v =>
    cases y with
    | none => exact .inr ⟨rfl, rfl⟩
    | some w =>
      unfold meetConst
      dsimp only
      cases sameConstant ptrEq v w with
      | true => exact .inl (if_pos rfl)
      | false => exact .inr ⟨if_neg Bool.false_ne_true, rfl⟩

theorem meetConst_eq_some {ptrEq : PtrEq} {x y : Option Value} {v : Value}
    (h : meetConst ptrEq x y = some v) :
    x = some v ∧ ∃ w, y = some w ∧ sameConstant ptrEq v w = true := by
  cases x with
  | none => cases h
  | some x =>
    cases y with
    | none => cases h
    | some w =>
      unfold meetConst at h
      dsimp only at h
      by_cases hsame : sameConstant ptrEq x w = true
      · rw [if_pos hsame] at h
        obtain rfl := Option.some.inj h
        exact ⟨rfl, w, rfl, hsame⟩
      · rw [if_neg hsame] at h
        cases h

/-- The values at hand. -/
def known (xs : List (Option Value)) : Nat := xs.countP Option.isSome

theorem meetSlots_cases (ptrEq : PtrEq) : ∀ (i : Nat) (xs ys : List (Option Value)),
    xs.length = ys.length → meetSlots ptrEq i xs ys = xs ∨
      eqSlots xs (meetSlots ptrEq i xs ys) = false ∧ known (meetSlots ptrEq i xs ys) < known xs
  | _, [], [], _ => .inl rfl
  | _, [], _ :: _, h => nomatch h
  | _, _ :: _, [], h => nomatch h
  | i, x :: xs, y :: ys, h => by
    rw [meetSlots, eqSlots, known, known, List.countP_cons, List.countP_cons]
    rcases meetSlots_cases ptrEq (i + 1) xs ys (Nat.succ.inj h) with ih | ⟨heq, hlt⟩
    · rw [ih]
      rcases meetConst_cases (ptrEq.at i) x y with hx | ⟨hx, hne⟩
      · exact .inl (by rw [hx])
      · rw [hx, hne]
        cases x with
        | none => cases hne
        | some v => exact .inr ⟨rfl, Nat.lt_succ_self _⟩
    · rw [heq, Bool.and_false]
      refine .inr ⟨rfl, ?_⟩
      rw [known, known] at hlt
      rcases meetConst_cases (ptrEq.at i) x y with hx | ⟨hx, -⟩
      · rw [hx]
        omega
      · rw [hx, Option.isSome_none, if_neg Bool.false_ne_true]
        omega

/-- A fact that slots share is a fact of both. -/
theorem getElem?_meetSlots {ptrEq : PtrEq} {v : Value} : ∀ {k i : Nat}
    {xs ys : List (Option Value)}, (meetSlots ptrEq k xs ys)[i]? = some (some v) →
      xs[i]? = some (some v) ∧
        ∃ w, ys[i]? = some (some w) ∧ sameConstant (ptrEq.at (k + i)) v w = true
  | _, _, [], _, h => by cases h
  | _, _, _ :: _, [], h => by cases h
  | k, 0, x :: xs, y :: ys, h => by
    obtain ⟨rfl, w, rfl, hsame⟩ := meetConst_eq_some (Option.some.inj h)
    exact ⟨rfl, w, rfl, hsame⟩
  | k, i + 1, x :: xs, y :: ys, h => by
    have ih := @getElem?_meetSlots ptrEq v (k + 1) i xs ys h
    rwa [Nat.add_right_comm, Nat.add_assoc] at ih

/-- Merging slots one by one meets them. -/
theorem mergeSlots_eq (ptrEq : PtrEq) : ∀ (i : Nat) (xs ys : List (Option Value)),
    xs.length = ys.length → mergeSlots ptrEq i xs ys =
      (meetSlots ptrEq i xs ys, !eqSlots xs (meetSlots ptrEq i xs ys))
  | _, [], [], _ => rfl
  | _, [], _ :: _, h => nomatch h
  | _, _ :: _, [], h => nomatch h
  | i, x :: xs, y :: ys, h => by
    rw [mergeSlots, meetSlots, eqSlots, mergeSlots_eq ptrEq (i + 1) xs ys (Nat.succ.inj h)]
    dsimp only
    rcases meetConst_cases (ptrEq.at i) x y with hx | ⟨hx, hne⟩
    · rw [hx, eqSlot_refl, if_pos rfl, Bool.true_and]
    · rw [hx, hne, if_neg Bool.false_ne_true, Bool.false_and, Bool.not_false]

/-! ### Globals and stacks -/

namespace Globals

theorem mem_of_get? {g : Globals} {name : String} {v : Value} (h : g.get? name = some v) :
    (name, v) ∈ g.entries := by
  obtain ⟨⟨name', v'⟩, hfind, rfl⟩ := Option.map_eq_some_iff.mp h
  have hname := List.find?_some hfind
  obtain rfl : name' = name := of_decide_eq_true hname
  exact List.mem_of_find?_eq_some hfind

theorem get?_retain {g : Globals} {keep : String → Value → Bool} {name : String} {v : Value}
    (h : (g.retain keep).get? name = some v) : g.get? name = some v ∧ keep name v = true := by
  obtain ⟨hmem, hkeep⟩ := List.mem_filter.mp (mem_of_get? h)
  exact ⟨IndexMap.get?_of_mem g.nodup hmem, hkeep⟩

theorem eq_refl (g : Globals) : g.eq g = true := by
  rw [Globals.eq, decide_eq_true rfl, Bool.true_and, List.all_eq_true]
  intro e he
  rw [get?, IndexMap.get?_of_mem g.nodup (k := e.1) (v := e.2) he]
  exact (Value.eq_iff e.2 e.2).mpr rfl

theorem retain_cases (g : Globals) (keep : String → Value → Bool) : g.retain keep = g ∨
    (g.retain keep).eq g = false ∧ (g.retain keep).entries.length < g.entries.length := by
  by_cases h : (g.retain keep).entries.length = g.entries.length
  · refine .inl ?_
    have hall : g.entries.filter (fun e => keep e.1 e.2) = g.entries :=
      List.filter_sublist.eq_of_length h
    cases g
    exact Globals.mk.injEq _ _ _ _ ▸ hall
  · refine .inr ⟨?_, lt_of_le_of_ne (List.length_filter_le _ _) h⟩
    rw [Globals.eq, decide_eq_false h, Bool.false_and]

end Globals

/-- What a stack says: its height and the values at hand. -/
def stackFacts : Option (List (Option Value)) → Nat
  | none => 0
  | some xs => known xs + 1

theorem eqStack_refl (s : Option (List (Option Value))) : eqStack s s = true := by
  cases s with
  | none => rfl
  | some xs => exact eqSlots_refl xs

theorem meetStack_cases (ptrEq : PtrEq) (s t : Option (List (Option Value))) :
    meetStack ptrEq s t = s ∨
      eqStack s (meetStack ptrEq s t) = false ∧
        stackFacts (meetStack ptrEq s t) < stackFacts s := by
  cases s with
  | none => exact .inl rfl
  | some xs =>
    cases t with
    | none => exact .inr ⟨rfl, Nat.succ_pos _⟩
    | some ys =>
      unfold meetStack
      dsimp only
      by_cases h : xs.length = ys.length
      · rw [if_pos h]
        rcases meetSlots_cases ptrEq 0 xs ys h with hsame | ⟨heq, hlt⟩
        · exact .inl (congrArg some hsame)
        · exact .inr ⟨heq, Nat.succ_lt_succ hlt⟩
      · rw [if_neg h]
        exact .inr ⟨rfl, Nat.succ_pos _⟩

theorem mergeStack_eq (ptrEq : PtrEq) (s t : Option (List (Option Value))) :
    mergeStack ptrEq s t = (meetStack ptrEq s t, !eqStack s (meetStack ptrEq s t)) := by
  unfold mergeStack
  dsimp only
  rcases meetStack_cases ptrEq s t with h | ⟨h, -⟩
  · rw [h, eqStack_refl, if_pos rfl, Bool.not_true]
  · rw [h, if_neg Bool.false_ne_true, Bool.not_false]

/-! ### Merging -/

/-- A merge leaves its first part as it was, or takes facts off it and says so. -/
def Falls {α : Type} (weight : α → Nat) (old : α) (merged : α × Bool) : Prop :=
  merged = (old, false) ∨ merged.2 = true ∧ weight merged.1 < weight old

namespace Falls

variable {α : Type} {weight : α → Nat} {old : α} {merged : α × Bool}
  (h : Falls weight old merged)
include h

theorem le : weight merged.1 ≤ weight old := by
  rcases h with rfl | ⟨-, hlt⟩
  · exact Nat.le_refl _
  · exact Nat.le_of_lt hlt

theorem lt (hchanged : merged.2 = true) : weight merged.1 < weight old := by
  rcases h with rfl | ⟨-, hlt⟩
  · cases hchanged
  · exact hlt

theorem eq (hsame : merged.2 = false) : merged.1 = old := by
  rcases h with rfl | ⟨hchanged, -⟩
  · rfl
  · rw [hsame] at hchanged
    cases hchanged

end Falls

theorem falls_mergeSlots (ptrEq : PtrEq) {xs ys : List (Option Value)}
    (h : xs.length = ys.length) : Falls known xs (mergeSlots ptrEq 0 xs ys) := by
  rw [mergeSlots_eq ptrEq 0 xs ys h]
  rcases meetSlots_cases ptrEq 0 xs ys h with hsame | ⟨heq, hlt⟩
  · exact .inl (by rw [hsame, eqSlots_refl, Bool.not_true])
  · exact .inr ⟨by rw [heq, Bool.not_false], hlt⟩

theorem falls_mergeGlobals (g g' : Globals) :
    Falls (fun g => g.entries.length) g (mergeGlobals g g') := by
  unfold mergeGlobals
  dsimp only
  rcases Globals.retain_cases g _ with hsame | ⟨heq, hlt⟩
  · exact .inl (by rw [hsame, Globals.eq_refl, Bool.not_true])
  · exact .inr ⟨by rw [heq, Bool.not_false], hlt⟩

theorem falls_mergeStack (ptrEq : PtrEq) (s t : Option (List (Option Value))) :
    Falls stackFacts s (mergeStack ptrEq s t) := by
  rw [mergeStack_eq]
  rcases meetStack_cases ptrEq s t with hsame | ⟨heq, hlt⟩
  · exact .inl (by rw [hsame, eqStack_refl, Bool.not_true])
  · exact .inr ⟨by rw [heq, Bool.not_false], hlt⟩

section Merging

variable {l c : Nat}

/-- The facts of a state. -/
def facts (s : State l c) : Nat :=
  known s.locals + known s.captures + s.globals.entries.length + stackFacts s.stack

/-- A merge that changes nothing leaves the state, any other takes facts off it. -/
theorem falls_mergeFrom (ptrEq : PtrEq) (s t : State l c) :
    Falls facts s (mergeFrom ptrEq s t) := by
  have hlocals := falls_mergeSlots (ptrEq.at 0)
    (s.locals_length.trans t.locals_length.symm)
  have hcaptures := falls_mergeSlots (ptrEq.at 1)
    (s.captures_length.trans t.captures_length.symm)
  have hglobals := falls_mergeGlobals s.globals t.globals
  have hstack := falls_mergeStack (ptrEq.at 2) s.stack t.stack
  cases hchanged : (mergeFrom ptrEq s t).2 with
  | false =>
    refine .inl (Prod.ext ?_ hchanged)
    simp only [mergeFrom, Bool.or_eq_false_iff] at hchanged
    obtain ⟨⟨⟨h₁, h₂⟩, h₃⟩, h₄⟩ := hchanged
    exact State.ext (hlocals.eq h₁) (hcaptures.eq h₂) (hglobals.eq h₃) (hstack.eq h₄)
  | true =>
    refine .inr ⟨hchanged, ?_⟩
    have := hlocals.le
    have := hcaptures.le
    have := hglobals.le
    have := hstack.le
    simp only [mergeFrom, Bool.or_eq_true] at hchanged
    simp only [facts, mergeFrom]
    rcases hchanged with ((h | h) | h) | h
    · have := hlocals.lt h
      omega
    · have := hcaptures.lt h
      omega
    · have := hglobals.lt h
      omega
    · have := hstack.lt h
      omega

/-! ### What a state knows -/

/-- The first slots know every value that the second ones know. -/
def SlotsBelow (xs ys : List (Option Value)) : Prop :=
  ∀ (i : Nat) v, ys[i]? = some (some v) → ∃ w, xs[i]? = some (some w) ∧ Same v w

/-- The first state knows what the second one knows; the globals may differ by `r`. -/
structure Below (r : Value → Value → Prop) (s t : State l c) : Prop where
  locals : SlotsBelow s.locals t.locals
  captures : SlotsBelow s.captures t.captures
  globals : ∀ name v, t.global name = some v → ∃ w, s.global name = some w ∧ r v w
  stack : ∀ ys, t.stack = some ys →
    ∃ xs, s.stack = some xs ∧ xs.length = ys.length ∧ SlotsBelow xs ys

/-- Globals that compare equal are the same constant. -/
def Agree (s t : State l c) : Prop :=
  ∀ name v w, s.global name = some v → t.global name = some w → w.eq v = true → Same v w

theorem SlotsBelow.refl (xs : List (Option Value)) : SlotsBelow xs xs :=
  fun _ v h => ⟨v, h, .inl rfl⟩

theorem slotsBelow_meetSlots {ptrEq : PtrEq} (hsound : ptrEq.Sound) (xs ys : List (Option Value)) :
    SlotsBelow ys (meetSlots ptrEq 0 xs ys) := by
  intro i v h
  obtain ⟨-, w, hw, hsame⟩ := getElem?_meetSlots h
  exact ⟨w, hw, .inr ⟨_, hsound.at _, hsame⟩⟩

theorem SlotsBelow.meetSlots {xs ys : List (Option Value)} (h : SlotsBelow xs ys) (ptrEq : PtrEq)
    (zs : List (Option Value)) : SlotsBelow xs (meetSlots ptrEq 0 ys zs) :=
  fun i v hv => h i v (getElem?_meetSlots hv).1

theorem Below.refl {r : Value → Value → Prop} (hr : ∀ v, r v v) (s : State l c) : Below r s s where
  locals := .refl _
  captures := .refl _
  globals _ v h := ⟨v, h, hr v⟩
  stack ys h := ⟨ys, h, rfl, .refl ys⟩

theorem length_meetSlots (ptrEq : PtrEq) : ∀ (i : Nat) (xs ys : List (Option Value)),
    xs.length = ys.length → (meetSlots ptrEq i xs ys).length = xs.length
  | _, [], [], _ => rfl
  | _, [], _ :: _, h => nomatch h
  | _, _ :: _, [], h => nomatch h
  | i, _ :: xs, _ :: ys, h =>
    congrArg Nat.succ (length_meetSlots ptrEq (i + 1) xs ys (Nat.succ.inj h))

/-- The stack of a merge is both stacks met. -/
theorem meetStack_eq_some {ptrEq : PtrEq} {s t : Option (List (Option Value))}
    {zs : List (Option Value)} (h : meetStack ptrEq s t = some zs) :
    ∃ xs ys, s = some xs ∧ t = some ys ∧ xs.length = ys.length ∧ zs = meetSlots ptrEq 0 xs ys := by
  cases s with
  | none => cases h
  | some xs =>
    cases t with
    | none => cases h
    | some ys =>
      unfold meetStack at h
      dsimp only at h
      by_cases hlen : xs.length = ys.length
      · rw [if_pos hlen] at h
        exact ⟨xs, ys, rfl, rfl, hlen, (Option.some.inj h).symm⟩
      · rw [if_neg hlen] at h
        cases h

theorem locals_mergeFrom (ptrEq : PtrEq) (s t : State l c) :
    (mergeFrom ptrEq s t).1.locals = meetSlots (ptrEq.at 0) 0 s.locals t.locals :=
  congrArg Prod.fst (mergeSlots_eq _ 0 s.locals t.locals
    (s.locals_length.trans t.locals_length.symm))

theorem captures_mergeFrom (ptrEq : PtrEq) (s t : State l c) :
    (mergeFrom ptrEq s t).1.captures = meetSlots (ptrEq.at 1) 0 s.captures t.captures :=
  congrArg Prod.fst (mergeSlots_eq _ 0 s.captures t.captures
    (s.captures_length.trans t.captures_length.symm))

theorem stack_mergeFrom (ptrEq : PtrEq) (s t : State l c) :
    (mergeFrom ptrEq s t).1.stack = meetStack (ptrEq.at 2) s.stack t.stack :=
  congrArg Prod.fst (mergeStack_eq (ptrEq.at 2) s.stack t.stack)

/-- A global that is left is known to both, with values that compare equal. -/
theorem global_mergeFrom {ptrEq : PtrEq} {s t : State l c} {name : String} {v : Value}
    (h : (mergeFrom ptrEq s t).1.global name = some v) :
    s.global name = some v ∧ ∃ w, t.global name = some w ∧ w.eq v = true := by
  obtain ⟨hv, hkeep⟩ := Globals.get?_retain h
  refine ⟨hv, ?_⟩
  cases hw : t.globals.get? name with
  | none =>
    rw [hw] at hkeep
    cases hkeep
  | some w =>
    rw [hw] at hkeep
    exact ⟨w, hw, hkeep⟩

variable {r : Value → Value → Prop}

/-- The incoming state knows what the merge knows. -/
theorem below_mergeFrom {ptrEq : PtrEq} (hsound : ptrEq.Sound) {s t : State l c}
    (hglobals : ∀ name v w, s.global name = some v → t.global name = some w →
      w.eq v = true → r v w) : Below r t (mergeFrom ptrEq s t).1 where
  locals := by
    rw [locals_mergeFrom]
    exact slotsBelow_meetSlots (hsound.at 0) _ _
  captures := by
    rw [captures_mergeFrom]
    exact slotsBelow_meetSlots (hsound.at 1) _ _
  globals name v h := by
    obtain ⟨hv, w, hw, heq⟩ := global_mergeFrom h
    exact ⟨w, hw, hglobals name v w hv hw heq⟩
  stack zs h := by
    rw [stack_mergeFrom] at h
    obtain ⟨xs, ys, -, hys, hlen, rfl⟩ := meetStack_eq_some h
    refine ⟨ys, hys, ?_, slotsBelow_meetSlots (hsound.at 2) xs ys⟩
    rw [length_meetSlots _ 0 xs ys hlen, hlen]

/-- What knew the old state knows the merge. -/
theorem Below.mergeFrom {x s : State l c} (h : Below r x s) (ptrEq : PtrEq) (t : State l c) :
    Below r x (mergeFrom ptrEq s t).1 where
  locals := by
    rw [locals_mergeFrom]
    exact h.locals.meetSlots _ _
  captures := by
    rw [captures_mergeFrom]
    exact h.captures.meetSlots _ _
  globals name v hv := h.globals name v (global_mergeFrom hv).1
  stack zs hz := by
    rw [stack_mergeFrom] at hz
    obtain ⟨xs, ys, hxs, -, hlen, rfl⟩ := meetStack_eq_some hz
    obtain ⟨us, hus, hlen', hbelow⟩ := h.stack xs hxs
    refine ⟨us, hus, ?_, hbelow.meetSlots _ ys⟩
    rw [length_meetSlots _ 0 xs ys hlen, hlen']

end Merging

/-! ### The analysis -/

section Analysis

variable {W : Type}

/-- Every merge of the analysis meets only globals that are the same constant when they
compare equal. -/
def AgreesThroughout (ops : Ops W) (ptrEq : PtrEq) (code : List Instruction) (l c : Nat)
    (captureValues : List (Option Value)) (globals : Globals) : Prop :=
  (Worklist.machine (successors ops code) fun k => mergeFrom (ptrEq.at k)).Always
    (Worklist.Agreeing Agree)
    (initial code captureValues globals : Worklist.Config (State l c))

theorem settled_initial (next : Nat → State l c → List (Nat × State l c))
    (below : State l c → State l c → Prop) (code : List Instruction)
    (captureValues : List (Option Value)) (globals : Globals) :
    Worklist.Settled next below (initial code captureValues globals) := by
  intro node s hs
  refine .inl (List.mem_singleton.mpr ?_)
  by_contra hne
  have hs : ((List.replicate code.length none).set 0 (some
      (State.newWithGlobals l c captureValues globals)))[node]? = some (some s) := hs
  rw [List.getElem?_set_ne (Ne.symm hne), List.getElem?_replicate] at hs
  by_cases hlt : node < code.length
  · rw [if_pos hlt] at hs
    cases hs
  · rw [if_neg hlt] at hs
    cases hs

section Fixpoints

variable {ops : Ops W} {ptrEq : PtrEq} {code : List Instruction} {l c : Nat}
  {captureValues : List (Option Value)} {globals : Globals}

theorem same_of_not_changed (k : Nat) (s t : State l c)
    (h : (mergeFrom (ptrEq.at k) s t).2 = false) : (mergeFrom (ptrEq.at k) s t).1 = s :=
  (falls_mergeFrom (ptrEq.at k) s t).eq h

/-- The states that are left, where merges meet only states that agree. -/
theorem fixpoint_of_analyze (hsound : ptrEq.Sound) {r : Value → Value → Prop} (hr : ∀ v, r v v)
    {agrees : State l c → State l c → Prop}
    (hglobals : ∀ s t, agrees s t → ∀ name v w, s.global name = some v →
      t.global name = some w → w.eq v = true → r v w)
    (hagree : (Worklist.machine (successors ops code) fun k => mergeFrom (ptrEq.at k)).Always
      (Worklist.Agreeing agrees) (initial code captureValues globals))
    {fuel : Nat} {states : List (Option (State l c))}
    (hrun : analyze ops ptrEq fuel code l c captureValues globals = some states) :
    Worklist.Fixpoint (successors ops code) (Below r) states := by
  refine Worklist.fixpoint_of_run (Below.refl hr) (fun k s t h => ?_) (fun k s t x h => ?_)
    same_of_not_changed (settled_initial _ _ code captureValues globals) hagree hrun
  · exact below_mergeFrom (hsound.at k) (hglobals s t h)
  · exact h.mergeFrom (ptrEq.at k) t

/-- The first instruction keeps a state, with no more than is known at the start. -/
theorem entry_of_analyze (hcode : code ≠ []) {fuel : Nat} {states : List (Option (State l c))}
    (hrun : analyze ops ptrEq fuel code l c captureValues globals = some states) :
    ∃ s, states[0]? = some (some s) ∧
      Below Same (.newWithGlobals l c captureValues globals) s := by
  refine Worklist.kept_of_run (Below.refl fun v => .inl rfl)
    (fun k s t x h => Below.mergeFrom h (ptrEq.at k) t) ?_ hrun
  refine List.getElem?_set_self ?_
  rw [List.length_replicate]
  exact List.length_pos_iff.mpr hcode

end Fixpoints

/-- **Constant propagation.** The analysis ends. What an instruction leaves to a successor
knows everything that the successor's state knows, up to globals that compare equal; and
exactly so where no merge takes globals that are only equal for the same constant. -/
theorem analyze_fixpoint (ops : Ops W) {ptrEq : PtrEq} (hsound : ptrEq.Sound)
    (code : List Instruction) (l c : Nat) (captureValues : List (Option Value))
    (globals : Globals) :
    (∃ fuel states, analyze ops ptrEq fuel code l c captureValues globals = some states) ∧
      ∀ fuel states, analyze ops ptrEq fuel code l c captureValues globals = some states →
        (code ≠ [] → ∃ s, states[0]? = some (some s) ∧
          Below Same (.newWithGlobals l c captureValues globals) s) ∧
        Worklist.Fixpoint (successors ops code) (Below fun v w => v.eq w = true) states ∧
        (AgreesThroughout ops ptrEq code l c captureValues globals →
          Worklist.Fixpoint (successors ops code) (Below Same) states) := by
  have hlt : ∀ k (s t : State l c), (mergeFrom (ptrEq.at k) s t).2 = true →
      facts (mergeFrom (ptrEq.at k) s t).1 < facts s :=
    fun k s t => (falls_mergeFrom (ptrEq.at k) s t).lt
  refine ⟨Worklist.exists_run hlt same_of_not_changed _, fun fuel states hrun => ⟨?_, ?_, ?_⟩⟩
  · exact fun hcode => entry_of_analyze hcode hrun
  · have hagree : (Worklist.machine (successors ops code) fun k => mergeFrom (ptrEq.at k)).Always
        (Worklist.Agreeing fun _ _ => True)
        (initial code captureValues globals : Worklist.Config (State l c)) :=
      fun _ _ _ _ _ _ _ _ _ => trivial
    refine fixpoint_of_analyze hsound (fun v => (Value.eq_iff v v).mpr rfl)
      (fun s t _ name v w _ _ heq => ?_) hagree hrun
    exact (Value.eq_iff v w).mpr ((Value.eq_iff w v).mp heq).symm
  · exact fun hagree => fixpoint_of_analyze hsound (fun v => .inl rfl) (fun s t h => h) hagree hrun

/-- The one merge of a jump to itself is of a state with itself. -/
theorem agreesThroughout_jump : AgreesThroughout Ops.inert (fun _ _ _ => false) [.jump 0] 0 0 []
    (.insert .empty "x" (.float ⟨0⟩)) := by
  intro n s' hsteps target incoming rest existing hpending hexisting
  cases hsteps with
  | refl => cases hpending
  | head _ hsteps =>
    cases hsteps with
    | refl =>
      obtain ⟨hhead, -⟩ := List.cons.inj hpending
      obtain ⟨rfl, rfl⟩ := Prod.mk.inj hhead
      obtain rfl := Option.some.inj (Option.some.inj hexisting)
      intro name v w hv hw _
      rw [hv] at hw
      exact .inl (Option.some.inj hw)
    | head _ hsteps =>
      cases hsteps with
      | refl => cases hpending
      | head hnone _ => cases hnone

theorem analyze_fixpoint_jump : ∃ fuel states,
    analyze Ops.inert (fun _ _ _ => false) fuel [.jump 0] 0 0 []
        (.insert .empty "x" (.float ⟨0⟩)) = some states ∧
      Worklist.Fixpoint (successors Ops.inert [.jump 0])
        (Below Same : State 0 0 → State 0 0 → Prop) states := by
  obtain ⟨⟨fuel, states, hrun⟩, hall⟩ := @analyze_fixpoint Unit Ops.inert (fun _ _ _ => false)
    (fun _ _ _ h => nomatch h) [.jump 0] 0 0 [] (.insert .empty "x" (.float ⟨0⟩))
  exact ⟨fuel, states, hrun, (hall fuel states hrun).2.2 (agreesThroughout_jump)⟩

/-! ### Zeros of both signs -/

namespace SignedZeros

/-- A branch on a global that is not known; one side stores a zero, the other a negative one. -/
def code : List Instruction :=
  [.loadVar "c", .jumpIfFalse 5, .loadConst (.float ⟨0⟩), .storeVar "x", .jump 7,
    .loadConst (.float ⟨BitVec.ofNat 64 (2 ^ 63)⟩), .storeVar "x", .return_]

end SignedZeros

theorem not_same_zeros : ¬Same (.float ⟨BitVec.ofNat 64 (2 ^ 63)⟩) (.float ⟨0⟩) := by
  rintro (h | ⟨ptrEq, -, h⟩)
  · cases h
  · cases h

/-- The globals keep the zero that came first: the state after both branches knows a negative
zero, which one branch does not leave. -/
theorem zeros_flip : ∃ states : List (Option (State 0 0)),
    analyze Ops.inert (fun _ _ _ => false) 40 SignedZeros.code 0 0 [] .empty = some states ∧
      ¬Worklist.Fixpoint (successors Ops.inert SignedZeros.code) (Below Same) states := by
  refine ⟨_, rfl, fun h => ?_⟩
  obtain ⟨t, ht, hbelow⟩ := h 4 _ rfl _ List.mem_cons_self (by decide)
  obtain rfl := Option.some.inj (Option.some.inj ht)
  obtain ⟨w, hw, hsame⟩ := hbelow.globals "x" _ rfl
  obtain rfl := Option.some.inj hw
  exact not_same_zeros hsame

end Analysis

end ConstProp

end Wqpl
