/-
# What the states of constant propagation say

A state describes the data of a frame when the bindings and the operands it knows
have the values it knows (`Describes`). The operations of a state keep that step by
step with those of the machine: taking operands, reading and writing bindings,
operators.

A binding that is captured lives in a cell. A store changes one binding of the
frame, as no two of them share a cell (`Apart`).
-/
import Wqpl.Compile.ConstPropFixpoint
import Wqpl.Vm.PureSteps

namespace Wqpl

open Exec

/-! ### Bindings -/

def Slot.cell? : Slot → Option CellId
  | .cell c => some c
  | .value _ => none

namespace Data

variable {W : Type}

/-- The value of a binding of the current frame. -/
def valueAt (d : Data W) : StoreTarget → Option Value
  | .local_ slot => (d.function.bind fun a => a.locals[slot]?).map (Slot.read d.env)
  | .capture i => (d.function.bind fun a => a.captures[i]?).map d.env.readCell
  | .var name => d.env.globals name

/-- The cell of a binding. -/
def cellAt (d : Data W) : StoreTarget → Option CellId
  | .local_ slot => (d.function.bind fun a => a.locals[slot]?).bind Slot.cell?
  | .capture i => d.function.bind fun a => a.captures[i]?
  | .var _ => none

end Data

/-- The bindings of the frame have cells of their own, and these exist. -/
structure Apart {W : Type} (d : Data W) : Prop where
  distinct : ∀ t t' c, d.cellAt t = some c → d.cellAt t' = some c → t = t'
  allocated : ∀ t c, d.cellAt t = some c → c < d.env.cells.length

namespace Exec

variable {W : Type} {α β : Type} {d d' : Data W}

theorem run_bind_eq_ok {m : Exec W α} {f : α → Exec W β} {b : β} (h : (m >>= f).run d = .ok b d') :
    ∃ a d₁, m.run d = .ok a d₁ ∧ (f a).run d₁ = .ok b d' := by
  rw [run_bind] at h
  cases hm : m.run d with
  | ok a d₁ =>
    rw [hm] at h
    exact ⟨a, d₁, rfl, h⟩
  | error e d₁ =>
    rw [hm] at h
    cases h

theorem run_liftResult_eq_ok {r : WqResult α} {a : α} (h : (liftResult r).run d = .ok a d') :
    r = .ok a ∧ d' = d := by
  cases r with
  | ok b =>
    cases h
    exact ⟨rfl, rfl⟩
  | error e => cases h

theorem currentFunction_eq_ok {a : Activation} (h : currentFunction.run d = .ok a d') :
    d.function = some a ∧ d' = d := by
  unfold currentFunction at h
  dsimp only at h
  cases hfunction : d.function with
  | none =>
    rw [hfunction] at h
    cases h
  | some a' =>
    rw [hfunction] at h
    cases h
    exact ⟨rfl, rfl⟩

theorem localSlot_eq_ok {slot : Nat} {s : Slot} (h : (localSlot slot).run d = .ok s d') :
    (d.function.bind fun a => a.locals[slot]?) = some s ∧ d' = d := by
  obtain ⟨a, d₁, ha, hrest⟩ := run_bind_eq_ok h
  obtain ⟨hfunction, rfl⟩ := currentFunction_eq_ok ha
  rw [hfunction, Option.bind_some]
  cases hslot : a.locals[slot]? with
  | none =>
    rw [hslot] at hrest
    cases hrest
  | some s' =>
    rw [hslot] at hrest
    cases hrest
    exact ⟨rfl, rfl⟩

theorem captureCell_eq_ok {i : Nat} {c : CellId} (h : (captureCell i).run d = .ok c d') :
    (d.function.bind fun a => a.captures[i]?) = some c ∧ d' = d := by
  obtain ⟨a, d₁, ha, hrest⟩ := run_bind_eq_ok h
  obtain ⟨hfunction, rfl⟩ := currentFunction_eq_ok ha
  rw [hfunction, Option.bind_some]
  cases hcell : a.captures[i]? with
  | none =>
    rw [hcell] at hrest
    cases hrest
  | some c' =>
    rw [hcell] at hrest
    cases hrest
    exact ⟨rfl, rfl⟩

theorem readGlobal_eq_ok {name : String} {v : Value} (h : (readGlobal name).run d = .ok v d') :
    d.env.globals name = some v ∧ d' = d := by
  obtain ⟨env, d₁, henv, h⟩ := run_bind_eq_ok h
  cases henv
  cases hglobal : d.env.globals name with
  | none =>
    rw [hglobal] at h
    cases h
  | some w =>
    rw [hglobal] at h
    cases h
    exact ⟨rfl, rfl⟩

theorem readTarget_eq_ok {t : StoreTarget} {v : Value} (h : (readTarget t).run d = .ok v d') :
    d.valueAt t = some v ∧ d' = d := by
  cases t with
  | local_ slot =>
    obtain ⟨s, d₁, hs, hread⟩ := run_bind_eq_ok h
    obtain ⟨hs, rfl⟩ := localSlot_eq_ok hs
    cases hread
    exact ⟨congrArg (Option.map (Slot.read d'.env)) hs, rfl⟩
  | capture i =>
    obtain ⟨c, d₁, hc, hread⟩ := run_bind_eq_ok h
    obtain ⟨hc, rfl⟩ := captureCell_eq_ok hc
    cases hread
    exact ⟨congrArg (Option.map d'.env.readCell) hc, rfl⟩
  | var name => exact readGlobal_eq_ok h

theorem readCell_writeCell (env : Env W) (c c' : CellId) (v : Value) (h : c < env.cells.length) :
    (env.writeCell c v).readCell c' = if c' = c then v else env.readCell c' := by
  unfold Env.writeCell Env.readCell
  by_cases hc : c' = c
  · rw [if_pos hc, hc]
    simp [h]
  · rw [if_neg hc]
    simp [List.getElem?_set_ne (Ne.symm hc)]

/-- A store into a cell changes the bindings of the cell. -/
theorem valueAt_writeCell {c : CellId} (h : c < d.env.cells.length) (v : Value) (t : StoreTarget) :
    Data.valueAt { d with env := d.env.writeCell c v } t =
      if d.cellAt t = some c then some v else d.valueAt t := by
  have hmap : ∀ c' : CellId, some ((d.env.writeCell c v).readCell c') =
      if some c' = some c then some v else some (d.env.readCell c') := by
    intro c'
    rw [readCell_writeCell _ _ _ _ h]
    by_cases hc : c' = c
    · rw [if_pos hc, if_pos (congrArg some hc)]
    · rw [if_neg hc, if_neg fun heq => hc (Option.some.inj heq)]
  cases t with
  | local_ slot =>
    show Option.map (Slot.read _) (d.function.bind fun a => a.locals[slot]?) =
      if (d.function.bind fun a => a.locals[slot]?).bind Slot.cell? = some c then some v
      else Option.map (Slot.read _) (d.function.bind fun a => a.locals[slot]?)
    rcases d.function.bind fun a => a.locals[slot]? with _ | w | c'
    · rfl
    · rfl
    · exact hmap c'
  | capture i =>
    show Option.map _ (d.function.bind fun a => a.captures[i]?) =
      if (d.function.bind fun a => a.captures[i]?) = some c then some v
      else Option.map _ (d.function.bind fun a => a.captures[i]?)
    rcases d.function.bind fun a => a.captures[i]? with _ | c'
    · rfl
    · exact hmap c'
  | var name => rfl

/-- A store into a slot without a cell. -/
theorem valueAt_setSlot {slot : Nat} {w : Value}
    (h : (d.function.bind fun a => a.locals[slot]?) = some (.value w)) (s : Slot)
    (t : StoreTarget) :
    Data.valueAt { d with
      function := d.function.map fun a => { a with locals := a.locals.set slot s } } t =
      if t = .local_ slot then some (s.read d.env) else d.valueAt t := by
  obtain ⟨a, ha, hslot⟩ := Option.bind_eq_some_iff.mp h
  unfold Data.valueAt
  rw [ha]
  cases t with
  | local_ slot' =>
    show Option.map _ ((a.locals.set slot s)[slot']?) = _
    by_cases heq : slot' = slot
    · subst heq
      rw [if_pos rfl, List.getElem?_set_self (List.getElem?_eq_some_iff.mp hslot).1]
      rfl
    · rw [if_neg fun h => heq (StoreTarget.local_.inj h), List.getElem?_set_ne (Ne.symm heq)]
      rfl
  | capture i => rfl
  | var name => rfl

/-- A store changes one binding. -/
theorem writeTarget_eq_ok (hapart : Apart d) {t : StoreTarget} {v : Value}
    (h : (writeTarget t v).run d = .ok () d') :
    d'.stack = d.stack ∧ d'.valueAt t = some v ∧ ∀ t', t' ≠ t → d'.valueAt t' = d.valueAt t' := by
  have hcell : ∀ c, d.cellAt t = some c → d' = { d with env := d.env.writeCell c v } →
      d'.stack = d.stack ∧ d'.valueAt t = some v ∧
        ∀ t', t' ≠ t → d'.valueAt t' = d.valueAt t' := by
    rintro c hc rfl
    have hlt := hapart.allocated t c hc
    refine ⟨rfl, by rw [valueAt_writeCell hlt, if_pos hc], fun t' ht => ?_⟩
    rw [valueAt_writeCell hlt, if_neg fun hc' => ht (hapart.distinct t' t c hc' hc)]
  cases t with
  | local_ slot =>
    obtain ⟨s, d₁, hs, hwrite⟩ := run_bind_eq_ok h
    obtain ⟨hs, rfl⟩ := localSlot_eq_ok hs
    cases s with
    | cell c =>
      refine hcell c (congrArg (Option.bind · Slot.cell?) hs) ?_
      cases hwrite
      rfl
    | value w =>
      cases hwrite
      refine ⟨rfl, by rw [valueAt_setSlot hs, if_pos rfl]; rfl, fun t' ht => ?_⟩
      rw [valueAt_setSlot hs, if_neg ht]
  | capture i =>
    obtain ⟨c, d₁, hc, hwrite⟩ := run_bind_eq_ok h
    obtain ⟨hc, rfl⟩ := captureCell_eq_ok hc
    cases hwrite
    exact hcell c hc rfl
  | var name =>
    cases h
    refine ⟨rfl, if_pos rfl, fun t' ht => ?_⟩
    cases t' with
    | local_ slot => rfl
    | capture i => rfl
    | var name' => exact if_neg fun heq => ht (congrArg _ heq)

end Exec

namespace ConstProp

/-! ### Facts -/

/-- A value that is known is the value there is. -/
def Known {α : Type} (fact : Option α) (v : α) : Prop := ∀ w, fact = some w → w = v

theorem Known.none {α : Type} (v : α) : Known none v := by
  rintro _ ⟨⟩

theorem Known.some {α : Type} (v : α) : Known (some v) v := fun _ h => (Option.some.inj h).symm

/-- What follows from a fact. -/
theorem Known.bind {α β : Type} {fact : Option α} {v : α} (h : Known fact v) {f : α → Option β}
    {w : β} (hf : Known (f v) w) : Known (fact.bind f) w := by
  intro x hx
  obtain ⟨u, hu, hx⟩ := Option.bind_eq_some_iff.mp hx
  rw [h u hu] at hx
  exact hf x hx

theorem Known.map {α β : Type} {fact : Option α} {v : α} (h : Known fact v) (f : α → β) :
    Known (fact.map f) (f v) := by
  intro x hx
  obtain ⟨u, hu, rfl⟩ := Option.map_eq_some_iff.mp hx
  rw [h u hu]

theorem known_trackableValue (v : Value) : Known (trackableValue v) v := by
  intro w h
  unfold trackableValue at h
  split at h <;> first | exact (Option.some.inj h).symm | cases h

theorem Known.trackable {fact : Option Value} {v : Value} (h : Known fact v) :
    Known (fact.bind trackableValue) v := h.bind (known_trackableValue v)

/-- A fact of the stack is about a value that is followed. -/
def Tracked (fact : Option Value) (v : Value) : Prop :=
  ∀ w, fact = some w → w = v ∧ trackableValue v = some v

theorem Tracked.known {fact : Option Value} {v : Value} (h : Tracked fact v) : Known fact v :=
  fun w hw => (h w hw).1

theorem Known.tracked {fact : Option Value} {v : Value} (h : Known fact v) :
    Tracked (fact.bind trackableValue) v := by
  intro w hw
  have hsame := h.trackable w hw
  obtain ⟨u, hu, hw⟩ := Option.bind_eq_some_iff.mp hw
  rw [h u hu, hsame] at hw
  exact ⟨hsame, hw⟩

theorem Tracked.none (v : Value) : Tracked none v := by
  rintro _ ⟨⟩

theorem known_collectKnown {facts : List (Option Value)} {vs : List Value}
    (h : List.Forall₂ Known facts vs) : Known (collectKnown facts) vs := by
  induction h with
  | nil => exact .some []
  | cons h _ ih => exact h.bind (ih.bind (.some _))

variable {W : Type} {l c : Nat}

theorem target_clearVolatileFacts (s : State l c) (t : StoreTarget) :
    s.clearVolatileFacts.target t = none := by
  have hnone : ∀ n i : Nat, ((List.replicate n (none : Option Value))[i]?).join = none := by
    intro n i
    rw [List.getElem?_replicate]
    split <;> rfl
  cases t with
  | local_ slot => exact hnone l slot
  | capture i => exact hnone c i
  | var name => rfl

theorem join_getElem?_set {xs : List (Option Value)} {i i' : Nat} {fact : Option Value} {v : Value}
    (h : ((xs.set i fact)[i']?).join = some v) :
    i' = i ∧ fact = some v ∨ i' ≠ i ∧ (xs[i']?).join = some v := by
  by_cases heq : i' = i
  · subst heq
    rw [List.getElem?_set_self'] at h
    obtain ⟨_, _, hfact⟩ := Option.map_eq_some_iff.mp (Option.join_eq_some_iff.mp h)
    exact .inl ⟨rfl, hfact⟩
  · rw [List.getElem?_set_ne (Ne.symm heq)] at h
    exact .inr ⟨heq, h⟩

theorem global_setGlobal {s : State l c} {name name' : String} {fact : Option Value} {v : Value}
    (h : (s.setGlobal name fact).global name' = some v) :
    StoreTarget.var name' = .var name ∧ fact.bind trackableValue = some v ∨
      StoreTarget.var name' ≠ .var name ∧ s.global name' = some v := by
  unfold State.setGlobal at h
  cases hfact : fact.bind trackableValue with
  | some w =>
    rw [hfact] at h
    have hget : IndexMap.get? (IndexMap.insert s.globals.entries name w) name' = some v := h
    rw [IndexMap.get?_insert] at hget
    by_cases heq : name = name'
    · rw [if_pos heq] at hget
      exact .inl ⟨congrArg _ heq.symm, hget⟩
    · rw [if_neg heq] at hget
      exact .inr ⟨fun h => heq (StoreTarget.var.inj h).symm, hget⟩
  | none =>
    rw [hfact] at h
    obtain ⟨hget, hkeep⟩ := Globals.get?_retain h
    exact .inr ⟨fun h => of_decide_eq_true hkeep (StoreTarget.var.inj h), hget⟩

/-- A store into a state: the target has the new fact at most, others keep theirs. -/
theorem target_setTarget {s : State l c} {t : StoreTarget} {fact : Option Value} {t' : StoreTarget}
    {v : Value} (h : (s.setTarget t fact).target t' = some v) :
    t' = t ∧ fact.bind trackableValue = some v ∨ t' ≠ t ∧ s.target t' = some v := by
  cases t with
  | local_ slot =>
    cases t' with
    | local_ slot' =>
      refine (join_getElem?_set h).imp (fun h => ⟨congrArg _ h.1, h.2⟩) fun h => ⟨?_, h.2⟩
      exact fun heq => h.1 (StoreTarget.local_.inj heq)
    | capture i => exact .inr ⟨by rintro ⟨⟩, h⟩
    | var name => exact .inr ⟨by rintro ⟨⟩, h⟩
  | capture i =>
    cases t' with
    | local_ slot => exact .inr ⟨by rintro ⟨⟩, h⟩
    | capture i' =>
      refine (join_getElem?_set h).imp (fun h => ⟨congrArg _ h.1, h.2⟩) fun h => ⟨?_, h.2⟩
      exact fun heq => h.1 (StoreTarget.capture.inj heq)
    | var name => exact .inr ⟨by rintro ⟨⟩, h⟩
  | var name =>
    have hother : (∀ name', t' ≠ .var name') → (s.setGlobal name fact).target t' = s.target t' := by
      intro hvar
      unfold State.setGlobal
      cases t' with
      | local_ slot => split <;> rfl
      | capture i => split <;> rfl
      | var name' => exact absurd rfl (hvar name')
    cases t' with
    | local_ slot => exact .inr ⟨by rintro ⟨⟩, (hother (by rintro _ ⟨⟩)).symm.trans h⟩
    | capture i => exact .inr ⟨by rintro ⟨⟩, (hother (by rintro _ ⟨⟩)).symm.trans h⟩
    | var name' => exact global_setGlobal h

/-- What a state knows is so. -/
structure Describes (s : State l c) (d : Data W) : Prop where
  targets : ∀ t v, s.target t = some v → d.valueAt t = some v
  stack : ∀ facts, s.stack = some facts → List.Forall₂ Tracked facts d.stack

namespace Describes

variable {s : State l c} {d d' : Data W}

theorem known (h : Describes s d) {t : StoreTarget} {v : Value} (hv : d.valueAt t = some v) :
    Known (s.target t) v := by
  intro w hw
  exact Option.some.inj ((h.targets t w hw).symm.trans hv)

/-- Data with the same bindings. -/
theorem withStack (h : Describes s d) {stack : Option (List (Option Value))}
    (hvalues : d'.valueAt = d.valueAt)
    (hstack : ∀ facts, stack = some facts → List.Forall₂ Tracked facts d'.stack) :
    Describes { s with stack := stack } d' where
  targets t v hv := hvalues ▸ h.targets t v hv
  stack := hstack

theorem push (h : Describes s d) {fact : Option Value} {v : Value} (hv : Known fact v) :
    Describes (s.push fact) { d with stack := v :: d.stack } := by
  refine h.withStack rfl fun facts hfacts => ?_
  obtain ⟨rest, hrest, rfl⟩ := Option.map_eq_some_iff.mp hfacts
  exact .cons hv.tracked (h.stack rest hrest)

theorem pushUnknown (h : Describes s d) (v : Value) :
    Describes s.pushUnknown { d with stack := v :: d.stack } := h.push (.none v)

theorem clearVolatileFacts (h : Describes s d) (hstack : d'.stack = d.stack) :
    Describes s.clearVolatileFacts d' where
  targets t v hv := by
    rw [target_clearVolatileFacts] at hv
    cases hv
  stack facts hfacts := hstack ▸ h.stack facts hfacts

theorem pop (h : Describes s d) {v : Value} {stack : List Value} (hd : d.stack = v :: stack) :
    Known s.pop.1 v ∧ Describes s.pop.2 { d with stack } := by
  unfold State.pop
  rcases hs : s.stack with _ | _ | ⟨fact, facts⟩
  · refine ⟨.none v, h.targets, fun facts hfacts => ?_⟩
    rw [hs] at hfacts
    cases hfacts
  · exact ⟨.none v, h.targets, by rintro _ ⟨⟩⟩
  · have hstack := h.stack _ hs
    rw [hd] at hstack
    cases hstack with
    | cons hfact hfacts =>
      exact ⟨hfact.known, h.targets, fun facts heq => Option.some.inj heq ▸ hfacts⟩

/-- The machine drops an operand, if there is one. -/
theorem drop (h : Describes s d) : Describes s.drop { d with stack := d.stack.tail } := by
  cases hd : d.stack with
  | nil =>
    unfold State.drop State.pop
    rcases hs : s.stack with _ | _ | ⟨fact, facts⟩
    · refine ⟨h.targets, fun facts hfacts => ?_⟩
      rw [hs] at hfacts
      cases hfacts
    · exact ⟨h.targets, by rintro _ ⟨⟩⟩
    · have hstack := h.stack _ hs
      rw [hd] at hstack
      cases hstack
  | cons v stack => exact (h.pop hd).2

theorem peek (h : Describes s d) {v : Value} {stack : List Value} (hd : d.stack = v :: stack) :
    Known s.peek v := by
  unfold State.peek
  rcases hs : s.stack with _ | _ | ⟨fact, facts⟩
  · exact .none v
  · exact .none v
  · have hstack := h.stack _ hs
    rw [hd] at hstack
    cases hstack with
    | cons hfact _ => exact hfact.known

theorem popArgs (h : Describes s d) (argc : Nat) :
    Known (s.popArgs argc).1 (d.stack.take argc).reverse ∧
      Describes (s.popArgs argc).2 { d with stack := d.stack.drop argc } := by
  unfold State.popArgs
  cases hs : s.stack with
  | none =>
    refine ⟨.none _, h.targets, fun facts hfacts => ?_⟩
    rw [hs] at hfacts
    cases hfacts
  | some facts =>
    have hstack := h.stack _ hs
    dsimp only
    split
    · exact ⟨.none _, h.targets, by rintro _ ⟨⟩⟩
    · refine ⟨known_collectKnown ?_, h.targets, fun rest heq => ?_⟩
      · exact List.rel_reverse (List.forall₂_take _ (hstack.imp fun _ _ h => h.known))
      · exact Option.some.inj heq ▸ List.forall₂_drop _ hstack

theorem popCallTargetAndArgs (h : Describes s d) {argc : Nat} {target : Value}
    (htarget : d.stack[argc]? = some target) :
    Tracked (s.popCallTargetAndArgs argc).1.1 target ∧
      Known (s.popCallTargetAndArgs argc).1.2 (d.stack.take argc).reverse ∧
      Describes (s.popCallTargetAndArgs argc).2 { d with stack := d.stack.drop (argc + 1) } := by
  unfold State.popCallTargetAndArgs
  cases hs : s.stack with
  | none =>
    refine ⟨.none _, .none _, h.targets, fun facts hfacts => ?_⟩
    rw [hs] at hfacts
    cases hfacts
  | some facts =>
    have hstack := h.stack _ hs
    dsimp only
    split
    · exact ⟨.none _, .none _, h.targets, by rintro _ ⟨⟩⟩
    · refine ⟨?_, known_collectKnown ?_, h.targets, fun rest heq => ?_⟩
      · intro w hw
        obtain ⟨x, hx, htracked⟩ := forall₂_getElem? hstack (Option.join_eq_some_iff.mp hw)
        rw [Option.some.inj (htarget.symm.trans hx)]
        exact htracked w rfl
      · exact List.rel_reverse (List.forall₂_take _ (hstack.imp fun _ _ h => h.known))
      · exact Option.some.inj heq ▸ List.forall₂_drop _ hstack

/-- The top of the stack is known once it is seen. -/
theorem replaceStackTop (h : Describes s d) {v : Value} {stack : List Value}
    (hd : d.stack = v :: stack) : Describes (s.replaceStackTop (some v)) d := by
  refine ⟨h.targets, fun facts hfacts => ?_⟩
  obtain ⟨facts', hs, rfl⟩ := Option.map_eq_some_iff.mp hfacts
  have hstack := h.stack facts' hs
  rw [hd] at hstack ⊢
  cases hstack with
  | cons _ hrest => exact .cons (Known.some v).tracked hrest

/-- A store of a value of which `fact` is known. -/
theorem setTarget (h : Describes s d) (hapart : Apart d) {t : StoreTarget} {fact : Option Value}
    {v : Value} (hv : Known fact v) (hrun : (writeTarget t v).run d = .ok () d') :
    Describes (s.setTarget t fact) d' := by
  obtain ⟨hstack, hat, hother⟩ := writeTarget_eq_ok hapart hrun
  constructor
  · intro t' w hw
    rcases target_setTarget hw with ⟨rfl, hfact⟩ | ⟨hne, hw⟩
    · rw [hat, hv.trackable w hfact]
    · rw [hother t' hne]
      exact h.targets t' w hw
  · intro facts hfacts
    have hsame : (s.setTarget t fact).stack = s.stack := by
      cases t with
      | local_ slot => rfl
      | capture i => rfl
      | var name =>
        show (s.setGlobal name fact).stack = s.stack
        unfold State.setGlobal
        split <;> rfl
    rw [hstack]
    exact h.stack facts (hsame ▸ hfacts)

end Describes

/-! ### The operations of the machine -/

/-- A state describes data whose bindings have cells of their own. -/
structure Matches (s : State l c) (d : Data W) : Prop where
  describes : Describes s d
  apart : Apart d

namespace Matches

variable {s : State l c} {d d' : Data W}

theorem mk' (h : Matches s d) {s' : State l c} (hdescribes : Describes s' d')
    (hfunction : d'.function = d.function) (henv : d'.env = d.env) : Matches s' d' := by
  have hcell : d'.cellAt = d.cellAt := by
    funext t
    unfold Data.cellAt
    rw [hfunction]
  refine ⟨hdescribes, hcell ▸ h.apart.distinct, ?_⟩
  rw [hcell, henv]
  exact h.apart.allocated

theorem pop1 (h : Matches s d) {v : Value} (hrun : Exec.pop1.run d = .ok v d') :
    Known s.pop.1 v ∧ Matches s.pop.2 d' := by
  unfold Exec.pop1 at hrun
  cases hd : d.stack with
  | nil =>
    simp only [hd, reduceCtorEq] at hrun
  | cons w stack =>
    simp only [hd, ExecResult.ok.injEq] at hrun
    obtain ⟨rfl, rfl⟩ := hrun
    obtain ⟨hknown, hdescribes⟩ := h.describes.pop hd
    exact ⟨hknown, h.mk' hdescribes rfl rfl⟩

theorem peek (h : Matches s d) {v : Value} (hrun : Exec.peek.run d = .ok v d') :
    Known s.peek v ∧ d' = d := by
  unfold Exec.peek at hrun
  cases hd : d.stack with
  | nil => simp only [hd, reduceCtorEq] at hrun
  | cons w stack =>
    simp only [hd, ExecResult.ok.injEq] at hrun
    obtain ⟨rfl, rfl⟩ := hrun
    exact ⟨h.describes.peek hd, rfl⟩

theorem popMany (h : Matches s d) {n : Nat} {vs : List Value}
    (hrun : (Exec.popMany n).run d = .ok vs d') :
    Known (s.popMany n).1 vs ∧ Matches (s.popMany n).2 d' := by
  obtain ⟨u, d₁, hlen, hrest⟩ := run_bind_eq_ok hrun
  unfold ensureStackLen at hlen
  dsimp only at hlen
  split at hlen
  · cases hlen
  · cases hlen
    cases hrest
    obtain ⟨hknown, hdescribes⟩ := h.describes.popArgs n
    exact ⟨hknown, h.mk' hdescribes rfl rfl⟩

theorem pop2 (h : Matches s d) {left right : Value}
    (hrun : Exec.pop2.run d = .ok (left, right) d') :
    Known (s.popMany 2).1 [left, right] ∧ Matches (s.popMany 2).2 d' := by
  unfold Exec.pop2 at hrun
  dsimp only at hrun
  split at hrun
  · rename_i hd
    cases hrun
    obtain ⟨hknown, hdescribes⟩ := h.describes.popArgs 2
    rw [hd] at hknown hdescribes
    exact ⟨hknown, h.mk' hdescribes rfl rfl⟩
  · cases hrun

theorem readTarget (h : Matches s d) {t : StoreTarget} {v : Value}
    (hrun : (Exec.readTarget t).run d = .ok v d') : Known (s.target t) v ∧ d' = d := by
  obtain ⟨hat, rfl⟩ := readTarget_eq_ok hrun
  exact ⟨h.describes.known hat, rfl⟩

theorem resolveOperand (h : Matches s d) (ops : Ops W) {operand : Operand} {v : Value}
    (hrun : (Exec.resolveOperand ops operand).run d = .ok v d') :
    Known (resolveTransferOperand s operand).1 v ∧
      Matches (resolveTransferOperand s operand).2 d' := by
  cases operand with
  | stack => exact h.pop1 hrun
  | const w =>
    cases hrun
    exact ⟨known_trackableValue _, h⟩
  | local_ slot =>
    obtain ⟨hknown, rfl⟩ := h.readTarget (t := .local_ slot) hrun
    exact ⟨hknown, h⟩
  | capture i =>
    obtain ⟨hknown, rfl⟩ := h.readTarget (t := .capture i) hrun
    exact ⟨hknown, h⟩
  | var name =>
    obtain ⟨env, d₁, henv, hrest⟩ := run_bind_eq_ok hrun
    cases henv
    cases hglobal : d.env.globals name with
    | some w =>
      simp only [hglobal] at hrest
      cases hrest
      exact ⟨h.describes.known (t := .var name) hglobal, h⟩
    | none =>
      simp only [hglobal] at hrest
      have hunknown : s.global name = none := by
        cases hfact : s.global name with
        | none => rfl
        | some w =>
          have hw := h.describes.targets (.var name) w hfact
          rw [show d.valueAt (.var name) = none from hglobal] at hw
          cases hw
      cases hbuiltin : ops.builtinValue name with
      | none =>
        rw [hbuiltin] at hrest
        cases hrest
      | some w =>
        rw [hbuiltin] at hrest
        cases hrest
        refine ⟨?_, h⟩
        show Known (s.global name) _
        rw [hunknown]
        exact .none _
  | self =>
    obtain ⟨a, d₁, ha, hrest⟩ := run_bind_eq_ok hrun
    obtain ⟨-, rfl⟩ := currentFunction_eq_ok ha
    cases hrest
    exact ⟨.none _, h⟩

end Matches

end ConstProp

end Wqpl
