/-
# Constant propagation is sound

An instruction leads from data that a state describes to data that the state
of its successor describes (`exec_leads`): there is a case for each instruction.
The two operands of an integer operator are taken at once by the machine and one by one
by the analysis, which agree where the operator does what the machine does for
integers (`IntFastPath`).
-/
import Wqpl.Compile.ConstPropFacts
import Wqpl.Vm.Effect
import Wqpl.Vm.Flow

namespace Wqpl

open Exec

/-- What code has when constants are propagated: tail calls are made later, the target of a
call has a name, and a try region has instructions. -/
def Instruction.isSource : Instruction → Bool
  | .tailCallLocal _ _ | .tailCallUser _ _ | .tailCallAnon _ | .tailPostfix _
  | .loadCallTarget .stack => false
  | .try_ len => 0 < len
  | .namedCall call _ => call.isSource && call.tryLen.isNone
  | _ => true

theorem Instruction.isSource_noTail {i : Instruction} (h : i.isSource = true) :
    i.isTailCall = false := by
  induction i with
  | namedCall call metadata ih => exact ih (Bool.and_eq_true_iff.mp h).1
  | _ => first | rfl | cases h

theorem Instruction.isSource_tryLen {i : Instruction} (h : i.isSource = true) {len : Nat}
    (hlen : i.tryLen = some len) : i = .try_ len ∧ 0 < len := by
  cases i with
  | try_ len' =>
    obtain rfl := Option.some.inj hlen
    exact ⟨rfl, of_decide_eq_true h⟩
  | namedCall call metadata =>
    have hnone := (Bool.and_eq_true_iff.mp h).2
    rw [show call.tryLen = some len from hlen] at hnone
    cases hnone
  | _ => cases hlen

namespace ConstProp

variable {W : Type} {l c : Nat} {ops : Ops W}

/-! ### Operators -/

section Operators

variable {s : State l c} {d d' : Data W}

/-- An integer at hand is what the operand resolves to. -/
theorem resolveOperand_of_intOperand {operand : Operand} {n : Int64}
    (h : intOperand operand 0 d = some n) :
    (resolveOperand ops operand).run d = .ok (.int n) (d.drop (stackCount operand)) := by
  cases operand with
  | stack =>
    unfold intOperand at h
    unfold resolveOperand pop1
    rcases hd : d.stack with _ | ⟨v, stack⟩
    · simp [hd] at h
    · simp only [hd, List.getElem?_cons_zero] at h
      split at h
      · rename_i hv
        obtain rfl := Option.some.inj h
        obtain rfl := Option.some.inj hv
        simp [hd, Data.drop, stackCount]
      · cases h
  | const v =>
    cases v with
    | int m =>
      obtain rfl := Option.some.inj h
      rfl
    | _ => cases h
  | local_ slot =>
    unfold intOperand at h
    dsimp only at h
    split at h
    · rename_i s hslot
      split at h
      · rename_i hread
        obtain rfl := Option.some.inj h
        obtain ⟨a, ha, hs⟩ := Option.bind_eq_some_iff.mp hslot
        exact (readLocal_run ha hs).trans (congrArg (ExecResult.ok · d) hread)
      · cases h
    · cases h
  | capture i => cases h
  | var name => cases h
  | self => cases h

/-- The fast path gives way, or answers for integers that the operands resolve to. -/
theorem tryIntOperands_eq_ok (ops : Ops W) {α : Type} {left right : Operand}
    {eval : Int64 → Int64 → Option α} {r : Option α}
    (hrun : (tryIntOperands left right eval).run d = .ok r d') :
    r = none ∧ d' = d ∨ ∃ x y a d₁, r = some a ∧ eval x y = some a ∧
      (resolveOperand ops right).run d = .ok (.int y) d₁ ∧
      (resolveOperand ops left).run d₁ = .ok (.int x) d' := by
  unfold tryIntOperands at hrun
  dsimp only at hrun
  split at hrun
  · cases hrun
    exact .inl ⟨rfl, rfl⟩
  · split at hrun
    · rename_i y x hy hx
      split at hrun
      · rename_i a ha
        cases hrun
        rw [intOperand_depth] at hx
        refine .inr ⟨x, y, a, d.drop (stackCount right), rfl, ha,
          resolveOperand_of_intOperand hy, ?_⟩
        rw [resolveOperand_of_intOperand hx]
        unfold Data.drop
        rw [List.drop_drop, Nat.add_comm]
      · cases hrun
        exact .inl ⟨rfl, rfl⟩
    · cases hrun
      exact .inl ⟨rfl, rfl⟩

theorem known_pair {l r : Option Value} {x y : Value} (hl : Known l x) (hr : Known r y) :
    Known (do return (← l, ← r)) (x, y) := hl.bind (hr.bind (.some _))

theorem Matches.resolveOperands (h : Matches s d) {left right : Operand} {x y : Value} {d₁ : Data W}
    (hr : (Exec.resolveOperand ops right).run d = .ok y d₁)
    (hl : (Exec.resolveOperand ops left).run d₁ = .ok x d') :
    Known (resolveTransferOperands s left right).1 (x, y) ∧
      Matches (resolveTransferOperands s left right).2 d' := by
  obtain ⟨hy, h⟩ := h.resolveOperand ops hr
  obtain ⟨hx, h⟩ := h.resolveOperand ops hl
  exact ⟨known_pair hx hy, h⟩

theorem known_evalBinary? {op : BinaryOperator} {operands : Option (Value × Value)} {x y v : Value}
    (h : Known operands (x, y)) (hv : evalBinary ops op x y = .ok v) :
    Known (evalBinary? ops op operands) v := by
  refine h.bind ?_
  dsimp only
  rw [hv]
  exact .some v

theorem Matches.binaryOp (h : Matches s d) (hfast : IntFastPath ops) {op : BinaryOperator}
    {left right : Operand} {v : Value} (hrun : (Exec.binaryOp ops op left right).run d = .ok v d') :
    Known (evalBinary? ops op (resolveTransferOperands s left right).1) v ∧
      Matches (resolveTransferOperands s left right).2 d' := by
  obtain ⟨r, d₁, htry, hrest⟩ := run_bind_eq_ok hrun
  rcases tryIntOperands_eq_ok ops htry with ⟨rfl, rfl⟩ | ⟨x, y, a, d₂, rfl, ha, hr, hl⟩
  · obtain ⟨⟨x, y⟩, d₂, hresolve, hrest⟩ := run_bind_eq_ok hrest
    obtain ⟨y', d₃, hr, hresolve⟩ := run_bind_eq_ok hresolve
    obtain ⟨x', d₄, hl, hresolve⟩ := run_bind_eq_ok hresolve
    cases hresolve
    obtain ⟨hv, rfl⟩ := run_liftResult_eq_ok hrest
    obtain ⟨hknown, h⟩ := h.resolveOperands hr hl
    exact ⟨known_evalBinary? hknown hv, h⟩
  · cases hrest
    obtain ⟨hknown, h⟩ := h.resolveOperands hr hl
    exact ⟨known_evalBinary? hknown (hfast op x y _ ha), h⟩

theorem known_bool (b : Bool) : Known (Value.tryToRustBool (.bool b)) b := .some b

theorem condition_eq_ok {v : Value} {b : Bool} (hrun : (condition v).run d = .ok b d') :
    v.tryToRustBool = some b ∧ d' = d := by
  unfold condition at hrun
  split at hrun
  · rename_i b' hb
    cases hrun
    exact ⟨hb, rfl⟩
  · cases hrun

theorem evalIntBinary_of_comparison {op : BinaryOperator} {x y : Int64} {b : Bool}
    (h : evalIntComparison op x y = some b) : evalIntBinary ops op x y = some (.bool b) := by
  cases op <;> cases h <;> rfl

theorem Matches.evalCmpBranchCondition (h : Matches s d) (hfast : IntFastPath ops)
    {op : BinaryOperator} {left right : Operand} {b : Bool}
    (hrun : (Exec.evalCmpBranchCondition ops op left right).run d = .ok b d') :
    Known ((evalBinary? ops op (resolveTransferOperands s left right).1).bind
        Value.tryToRustBool) b ∧
      Matches (resolveTransferOperands s left right).2 d' := by
  obtain ⟨r, d₁, htry, hrest⟩ := run_bind_eq_ok hrun
  rcases tryIntOperands_eq_ok ops htry with ⟨rfl, rfl⟩ | ⟨x, y, a, d₂, rfl, ha, hr, hl⟩
  · obtain ⟨v, d₂, hbinary, hrest⟩ := run_bind_eq_ok hrest
    obtain ⟨hv, h⟩ := h.binaryOp hfast hbinary
    obtain ⟨hb, rfl⟩ := condition_eq_ok hrest
    refine ⟨hv.bind ?_, h⟩
    rw [hb]
    exact .some b
  · cases hrest
    obtain ⟨hknown, h⟩ := h.resolveOperands hr hl
    have hv := hfast op x y _ (evalIntBinary_of_comparison ha)
    exact ⟨(known_evalBinary? hknown hv).bind (known_bool _), h⟩

theorem known_evalNLoopCondition {i n : Value} {fi fn : Option Value} (hi : Known fi i)
    (hn : Known fn n) {b : Bool} (hrun : (evalNLoopCondition ops i n).run d = .ok b d') :
    Known ((evalBinary? ops .lt (do return (← fi, ← fn))).bind Value.tryToRustBool) b ∧ d' = d := by
  unfold evalNLoopCondition at hrun
  split at hrun
  · cases hrun
    exact ⟨(known_evalBinary? (known_pair hi hn) rfl).bind (known_bool _), rfl⟩
  · obtain ⟨v, d₁, hlift, hrest⟩ := run_bind_eq_ok hrun
    obtain ⟨hv, rfl⟩ := run_liftResult_eq_ok hlift
    obtain ⟨hb, rfl⟩ := condition_eq_ok hrest
    refine ⟨(known_evalBinary? (known_pair hi hn) hv).bind ?_, rfl⟩
    rw [hb]
    exact .some b

end Operators

/-! ### Captures -/

section Captures

variable {s : State l c} {d d' : Data W}

theorem readCell_allocCell (env : Env W) (v : Value) {cell : CellId} (h : cell < env.cells.length) :
    (env.allocCell v).2.readCell cell = env.readCell cell := by
  unfold Env.allocCell Env.readCell
  simp [List.getElem?_append_left h]

theorem readCell_allocCell_self (env : Env W) (v : Value) :
    (env.allocCell v).2.readCell (env.allocCell v).1 = v := by
  unfold Env.allocCell Env.readCell
  simp

theorem valueAt_allocCell (hapart : Apart d) (v : Value) (t : StoreTarget) :
    Data.valueAt { d with env := (d.env.allocCell v).2 } t = d.valueAt t := by
  have hallocated := hapart.allocated t
  cases t with
  | local_ slot =>
    unfold Data.cellAt at hallocated
    show Option.map (Slot.read _) (d.function.bind fun a => a.locals[slot]?) =
      Option.map (Slot.read _) (d.function.bind fun a => a.locals[slot]?)
    dsimp only at hallocated
    rcases hslot : d.function.bind fun a => a.locals[slot]? with _ | w | cell
    · rfl
    · rfl
    · rw [hslot] at hallocated
      exact congrArg some (readCell_allocCell _ _ (hallocated cell rfl))
  | capture i =>
    unfold Data.cellAt at hallocated
    show Option.map _ (d.function.bind fun a => a.captures[i]?) =
      Option.map _ (d.function.bind fun a => a.captures[i]?)
    dsimp only at hallocated
    rcases hcell : d.function.bind fun a => a.captures[i]? with _ | cell
    · rfl
    · rw [hcell] at hallocated
      exact congrArg some (readCell_allocCell _ _ (hallocated cell rfl))
  | var name => rfl

/-- A new cell changes nothing. -/
theorem Matches.allocCell (h : Matches s d) (v : Value) :
    Matches s { d with env := (d.env.allocCell v).2 } where
  describes :=
    { targets := fun t w hw => (valueAt_allocCell h.apart v t).trans (h.describes.targets t w hw)
      stack := h.describes.stack }
  apart :=
    { distinct := h.apart.distinct
      allocated := fun t cell hcell => by
        have hlt := h.apart.allocated t cell hcell
        show cell < (d.env.cells ++ [v]).length
        rw [List.length_append]
        exact Nat.lt_add_right _ hlt }

theorem cellAt_setSlot {slot : Nat} {w : Value}
    (h : (d.function.bind fun a => a.locals[slot]?) = some (.value w)) (cell : CellId)
    (t : StoreTarget) :
    Data.cellAt { d with
      function := d.function.map fun a => { a with locals := a.locals.set slot (.cell cell) } } t =
      if t = .local_ slot then some cell else d.cellAt t := by
  obtain ⟨a, ha, hslot⟩ := Option.bind_eq_some_iff.mp h
  unfold Data.cellAt
  rw [ha]
  cases t with
  | local_ slot' =>
    show Option.bind ((a.locals.set slot (.cell cell))[slot']?) _ = _
    by_cases heq : slot' = slot
    · subst heq
      rw [if_pos rfl, List.getElem?_set_self (List.getElem?_eq_some_iff.mp hslot).1]
      rfl
    · rw [if_neg fun h => heq (StoreTarget.local_.inj h), List.getElem?_set_ne (Ne.symm heq)]
      rfl
  | capture i => rfl
  | var name => rfl

/-- A slot that gets a cell with its value. -/
theorem Matches.shareSlot (h : Matches s d) {slot : Nat} {w : Value}
    (hslot : (d.function.bind fun a => a.locals[slot]?) = some (.value w)) :
    Matches s { d with
      env := (d.env.allocCell w).2
      function := d.function.map fun a =>
        { a with locals := a.locals.set slot (.cell (d.env.allocCell w).1) } } := by
  have halloc := h.allocCell w
  have hvalue := fun t => @valueAt_setSlot W { d with env := (d.env.allocCell w).2 } slot w hslot
    (.cell (d.env.allocCell w).1) t
  have hcell := fun t => @cellAt_setSlot W { d with env := (d.env.allocCell w).2 } slot w hslot
    (d.env.allocCell w).1 t
  have hfresh : ∀ t, d.cellAt t ≠ some (d.env.allocCell w).1 := fun t ht =>
    Nat.lt_irrefl _ (h.apart.allocated t _ ht)
  constructor
  · refine ⟨fun t v hv => ?_, halloc.describes.stack⟩
    have hv := halloc.describes.targets t v hv
    rw [hvalue]
    by_cases ht : t = .local_ slot
    · rw [if_pos ht]
      subst ht
      rw [show Data.valueAt { d with env := (d.env.allocCell w).2 } (.local_ slot) = some w from
        congrArg (Option.map _) hslot] at hv
      rw [← hv]
      exact congrArg some (readCell_allocCell_self _ _)
    · rw [if_neg ht]
      exact hv
  · constructor
    · intro t t' cell ht ht'
      rw [hcell] at ht ht'
      by_cases hl : t = .local_ slot
      · by_cases hl' : t' = .local_ slot
        · exact hl.trans hl'.symm
        · rw [if_pos hl] at ht
          rw [if_neg hl'] at ht'
          exact absurd (ht'.trans ht.symm) (hfresh t')
      · rw [if_neg hl] at ht
        by_cases hl' : t' = .local_ slot
        · rw [if_pos hl'] at ht'
          exact absurd (ht.trans ht'.symm) (hfresh t)
        · rw [if_neg hl'] at ht'
          exact h.apart.distinct t t' cell ht ht'
    · intro t cell ht
      rw [hcell] at ht
      by_cases hl : t = .local_ slot
      · rw [if_pos hl] at ht
        obtain rfl := Option.some.inj ht
        show d.env.cells.length < (d.env.cells ++ [w]).length
        rw [List.length_append]
        exact Nat.lt_succ_self _
      · rw [if_neg hl] at ht
        exact halloc.apart.allocated t cell ht

theorem Matches.capture (h : Matches s d) {captured : Capture} {cell : CellId}
    (hrun : (Exec.capture captured).run d = .ok cell d') : Matches s d' := by
  cases captured with
  | local_ slot =>
    cases hrun
    exact h.allocCell _
  | localShared slot =>
    unfold Exec.capture captureShared at hrun
    dsimp only at hrun
    split at hrun
    · cases hrun
      exact h
    · rename_i w hslot
      cases hrun
      exact h.shareSlot hslot
    · cases hrun
      exact h.allocCell _
  | fromCapture i =>
    unfold Exec.capture at hrun
    dsimp only at hrun
    split at hrun
    · cases hrun
      exact h
    · cases hrun
      exact h.allocCell _
  | global name =>
    obtain ⟨v, d₁, hread, hrest⟩ := run_bind_eq_ok hrun
    obtain ⟨-, rfl⟩ := readGlobal_eq_ok hread
    cases hrest
    exact h.allocCell v

theorem Matches.captures {captures : List Capture} {cells : List CellId} {d d' : Data W}
    (h : Matches s d)
    (hrun : (captures.mapM (Exec.capture : Capture → Exec W CellId)).run d = .ok cells d') :
    Matches s d' := by
  induction captures generalizing cells d with
  | nil =>
    cases hrun
    exact h
  | cons captured captures ih =>
    rw [List.mapM_cons] at hrun
    obtain ⟨cell, d₁, hcapture, hrest⟩ := run_bind_eq_ok hrun
    obtain ⟨rest, d₂, hrecursive, hrest⟩ := run_bind_eq_ok hrest
    cases hrest
    exact ih (h.capture hcapture) hrecursive

end Captures

/-! ### Instructions -/

/-- Where control goes, a state of a successor describes the data: those of now, or those
there are when a call or a try region has ended. -/
def Leads (pc : Nat) (next : Successors l c) (d : Data W) : Flow W → Prop
  | .next => ∃ s, (pc + 1, s) ∈ next ∧ Describes s d
  | .jump target => ∃ s, (target, s) ∈ next ∧ Describes s d
  | .builtin _ | .import_ _ =>
    ∃ s, (pc + 1, s) ∈ next ∧ ∀ v (d' : Data W), d'.stack = v :: d.stack → Describes s d'
  | .enter _ argc =>
    ∃ s, (pc + 1, s) ∈ next ∧ ∀ v (d' : Data W), d'.stack = v :: d.stack.drop argc → Describes s d'
  | .try_ len =>
    (0 < len → ∃ s, (pc + 1, s) ∈ next ∧ Describes s d) ∧
      ∃ s, (pc + 1 + len, s) ∈ next ∧ ∀ v (d' : Data W), d'.stack = v :: d.stack → Describes s d'
  | .return_ | .tail _ _ => True

section Instructions

variable {s : State l c} {d d' : Data W} {pc : Nat}

theorem leads_next (h : Describes s d) : Leads pc (fallthrough pc s) d .next :=
  ⟨s, List.mem_singleton_self _, h⟩

theorem leads_branch (h : Describes s d) {cond : Option Bool} {b : Bool} (hcond : Known cond b)
    (target : Nat) : Leads pc (branch pc target cond s) d (jumpUnless target b) := by
  rcases cond with _ | _ | _
  · cases b
    · exact ⟨s, List.mem_cons_of_mem _ List.mem_cons_self, h⟩
    · exact ⟨s, List.mem_cons_self, h⟩
  · obtain rfl := hcond false rfl
    exact ⟨s, List.mem_cons_self, h⟩
  · obtain rfl := hcond true rfl
    exact ⟨s, List.mem_cons_self, h⟩

/-- The value of a call, of which nothing is known, over the operands that stay. -/
theorem Describes.answer (h : Describes s d) (v : Value) (hd : d'.stack = v :: d.stack) :
    Describes s.clearVolatileFacts.pushUnknown d' := by
  constructor
  · intro t w hw
    have hnone : s.clearVolatileFacts.pushUnknown.target t = s.clearVolatileFacts.target t := rfl
    rw [hnone, target_clearVolatileFacts] at hw
    cases hw
  · intro facts hfacts
    obtain ⟨rest, hrest, rfl⟩ := Option.map_eq_some_iff.mp hfacts
    rw [hd]
    exact .cons (.none v) (h.stack rest hrest)

/-- What a call does: it is over, or goes on elsewhere. -/
def Answers : Flow W → Prop
  | .next | .builtin _ | .enter _ _ => True
  | _ => False

theorem callFlows_answers : CallFlows false (Answers : Flow W → Prop) :=
  ⟨trivial, fun _ => trivial, fun _ _ => trivial⟩

theorem leads_call {rest : List Value} {n : Nat} {flow : Flow W} (hanswers : Answers flow)
    (hover : Over rest n n (Flow.leaves 1) (.ok flow d'))
    (h : Describes s { d with stack := rest }) :
    Leads pc (fallthrough pc s.clearVolatileFacts.pushUnknown) d' flow := by
  obtain ⟨upper, hstack, hlength⟩ := hover
  have hlength : upper.length = Flow.leaves 1 flow := by omega
  cases flow with
  | next =>
    obtain ⟨v, rfl⟩ := List.length_eq_one_iff.mp hlength
    exact leads_next (h.answer v hstack)
  | builtin run =>
    obtain rfl := List.length_eq_zero_iff.mp hlength
    refine ⟨_, List.mem_singleton_self _, fun v d'' hd => h.answer v ?_⟩
    rw [hd, hstack]
    rfl
  | enter callee argc =>
    refine ⟨_, List.mem_singleton_self _, fun v d'' hd => h.answer v ?_⟩
    have hlength : upper.length = argc := hlength
    rw [hd, hstack, ← hlength, List.drop_left]
  | _ => cases hanswers

theorem popMany_eq_ok {n : Nat} {vs : List Value} (hrun : (popMany n).run d = .ok vs d') :
    n ≤ d.stack.length ∧ vs = (d.stack.take n).reverse ∧ d' = d.drop n := by
  obtain ⟨u, d₁, hlen, hrest⟩ := run_bind_eq_ok hrun
  unfold ensureStackLen at hlen
  dsimp only at hlen
  split at hlen
  · cases hlen
  · rename_i hn
    cases hlen
    cases hrest
    exact ⟨Nat.le_of_not_lt hn, rfl, rfl⟩

theorem popUnder_eq_ok {n : Nat} {v : Value} (hrun : (popUnder n).run d = .ok v d') :
    d.stack[n]? = some v ∧ d' = { d with stack := d.stack.eraseIdx n } := by
  obtain ⟨u, d₁, hlen, hrest⟩ := run_bind_eq_ok hrun
  unfold ensureStackLen at hlen
  dsimp only at hlen hrest
  split at hlen
  · cases hlen
  · cases hlen
    cases hv : d.stack[n]? with
    | none =>
      rw [hv] at hrest
      cases hrest
    | some w =>
      rw [hv] at hrest
      cases hrest
      exact ⟨rfl, rfl⟩

theorem takeBuiltinArgs_eq_ok {argc : Nat} {args : BuiltinFnArgs × Bool}
    (hrun : (takeBuiltinArgs argc).run d = .ok args d') :
    argc ≤ d.stack.length ∧ d' = { d.drop argc with pendingNamedMeta := none } := by
  obtain ⟨metadata, d₁, htake, hrest⟩ := run_bind_eq_ok hrun
  cases htake
  obtain ⟨values, d₂, hpop, hrest⟩ := run_bind_eq_ok hrest
  obtain ⟨hlen, -, rfl⟩ := popMany_eq_ok hpop
  cases hm : d.pendingNamedMeta with
  | none =>
    rw [hm] at hrest
    cases hrest
    exact ⟨hlen, rfl⟩
  | some m =>
    rw [hm] at hrest
    cases hrest
    exact ⟨hlen, rfl⟩

/-- A call takes its operands off the stack. -/
theorem leads_callPlain (table : FnTable) {i : Instruction} (hpushes : i.pushes = 1)
    (hlen : i.pops ≤ d.stack.length) {flow : Flow W} (hanswers : Answers flow)
    (hrun : (execPlain ops table i).run d = .ok flow d') (h : Describes s (d.drop i.pops)) :
    Leads pc (fallthrough pc s.clearVolatileFacts.pushUnknown) d' flow := by
  have htake : (d.stack.take i.pops).length = i.pops := List.length_take_of_le hlen
  have hover := execPlain_stack ops table i (List.take_append_drop i.pops d.stack).symm htake.ge
  rw [hrun, hpushes, htake] at hover
  exact leads_call hanswers hover h

/-- A call of the value under the arguments. -/
theorem Matches.callUnder (h : Matches s d) (table : FnTable) {i : Instruction} {argc : Nat}
    (hpops : i.pops = argc + 1) (hpushes : i.pushes = 1) {callee : Value}
    (hcallee : d.stack[argc]? = some callee) {flow : Flow W} (hanswers : Answers flow)
    (hrun : (execPlain ops table i).run d = .ok flow d') :
    Leads pc (fallthrough pc
      (s.popCallTargetAndArgs argc).2.clearVolatileFacts.pushUnknown) d' flow := by
  refine leads_callPlain table hpushes ?_ hanswers hrun ?_
  · rw [hpops]
    exact (List.getElem?_eq_some_iff.mp hcallee).1
  · rw [hpops]
    exact (h.describes.popCallTargetAndArgs hcallee).2.2

/-- A call of a builtin. -/
theorem Matches.callBuiltin (h : Matches s d) (table : FnTable) {i : Instruction} {id argc : Nat}
    {discard : Bool} (hi : execPlain ops table i = invokeBuiltinId ops table id argc discard)
    (hpops : i.pops = argc) (hpushes : i.pushes = 1) {flow : Flow W}
    (hrun : (execPlain ops table i).run d = .ok flow d') :
    Leads pc (fallthrough pc (s.popArgs argc).2.clearVolatileFacts.pushUnknown) d' flow := by
  have hinvoke := hi ▸ hrun
  obtain ⟨args, d₁, hargs, -⟩ := run_bind_eq_ok hinvoke
  obtain ⟨hlen, -⟩ := takeBuiltinArgs_eq_ok hargs
  have hanswers := callFlows_answers.invokeBuiltinId ops table id argc discard d flow d' hinvoke
  refine leads_callPlain table hpushes (hpops ▸ hlen) hanswers hrun ?_
  rw [hpops]
  exact (h.describes.popArgs argc).2

theorem leads_pushNext (h : Matches s d) {fact : Option Value} {v : Value} (hv : Known fact v)
    {flow : Flow W} (hrun : (do push v; return .next : Exec W (Flow W)).run d = .ok flow d') :
    Leads pc (fallthrough pc (s.push fact)) d' flow := by
  cases hrun
  exact leads_next (h.describes.push hv)

theorem ensureStackLen_eq_ok {n : Nat} {u : Unit}
    (hrun : (ensureStackLen n : Exec W Unit).run d = .ok u d') : d' = d := by
  unfold ensureStackLen at hrun
  dsimp only at hrun
  split at hrun
  · cases hrun
  · cases hrun
    rfl

/-! #### Bindings that change in place -/

theorem mutateTarget_eq_ok {α : Type} {t : StoreTarget} {f : Value → WqResult α × Value} {a : α}
    (hrun : (mutateTarget t f).run d = .ok a d') :
    ∃ old, d.valueAt t = some old ∧ (f old).1 = .ok a ∧
      (writeTarget t (f old).2).run d = .ok () d' := by
  obtain ⟨old, d₁, hread, hrest⟩ := run_bind_eq_ok hrun
  obtain ⟨hold, rfl⟩ := readTarget_eq_ok hread
  obtain ⟨u, d₂, hwrite, hrest⟩ := run_bind_eq_ok hrest
  obtain ⟨hf, rfl⟩ := run_liftResult_eq_ok hrest
  exact ⟨old, hold, hf, hwrite⟩

/-- An assignment into the value of a binding. -/
theorem Matches.assignInto (h : Matches s d) {t : StoreTarget} {old new : Value}
    {assign : Option (Value → Bool × Value)} (hold : d.valueAt t = some old)
    (hassign : ∀ f, assign = some f → f old = (true, new))
    (hrun : (writeTarget t new).run d = .ok () d') :
    Describes (ConstProp.assignInto t assign s) d' := by
  unfold ConstProp.assignInto
  split
  · rename_i f fact hfact
    have hfold := h.describes.known hold fact hfact
    rw [hfold, hassign f rfl]
    exact h.describes.setTarget h.apart (.some new) hrun
  · exact h.describes.setTarget h.apart (.none new) hrun

theorem Matches.mutated (h : Matches s d) {α : Type} {t : StoreTarget}
    {f : Value → WqResult α × Value} {a : α} (hrun : (mutateTarget t f).run d = .ok a d') :
    Describes (s.setTarget t none) d' := by
  obtain ⟨old, -, -, hwrite⟩ := mutateTarget_eq_ok hrun
  exact h.describes.setTarget h.apart (.none _) hwrite

/-- An index assignment in a binding, of which the state keeps what `known` says. -/
theorem leads_indexAssignOne {t : StoreTarget} {keep : Bool} {flow : Flow W} (h : Matches s d)
    (after : Option Value → Option Value → State l c → State l c)
    (hafter : ∀ {s : State l c} {d d' : Data W} {idx value : Value} {fi fv : Option Value},
      Matches s d → Known fi idx → Known fv value →
      (mutateTarget t fun t => ((if (ops.assignByIndex t idx value).1 then .ok () else
        .error .index : WqResult Unit), (ops.assignByIndex t idx value).2)).run d = .ok () d' →
      Describes (after fi fv s) d')
    (hrun : (indexAssignOne ops t keep).run d = .ok flow d') :
    Leads pc (fallthrough pc (if keep then (after s.pop.2.pop.1 s.pop.1 s.pop.2.pop.2).push s.pop.1
      else after s.pop.2.pop.1 s.pop.1 s.pop.2.pop.2)) d' flow := by
  obtain ⟨value, d₁, hvalue, hrest⟩ := run_bind_eq_ok hrun
  obtain ⟨hv, h⟩ := h.pop1 hvalue
  obtain ⟨idx, d₂, hidx, hrest⟩ := run_bind_eq_ok hrest
  obtain ⟨hi, h⟩ := h.pop1 hidx
  obtain ⟨u, d₃, hmutate, hrest⟩ := run_bind_eq_ok hrest
  have hdescribes := hafter h hi hv hmutate
  cases keep with
  | true =>
    cases hrest
    exact leads_next (hdescribes.push hv)
  | false =>
    cases hrest
    exact leads_next hdescribes

theorem leads_indexAssignMany {t : StoreTarget} {argc : Nat} {keep : Bool} {flow : Flow W}
    (h : Matches s d) (after : Option (List Value) → Option Value → State l c → State l c)
    (hafter : ∀ {s : State l c} {d d' : Data W} {args : List Value} {value : Value}
      {fa : Option (List Value)} {fv : Option Value}, Matches s d → Known fa args → Known fv value →
      (mutateTarget t fun t => ((if (ops.assignByIndices t args value).1 then .ok () else
        .error .index : WqResult Unit), (ops.assignByIndices t args value).2)).run d = .ok () d' →
      Describes (after fa fv s) d')
    (hrun : (indexAssignMany ops t argc keep).run d = .ok flow d') :
    Leads pc (fallthrough pc
      (if keep then (after (s.pop.2.popArgs argc).1 s.pop.1 (s.pop.2.popArgs argc).2).push s.pop.1
      else after (s.pop.2.popArgs argc).1 s.pop.1 (s.pop.2.popArgs argc).2)) d' flow := by
  obtain ⟨value, d₁, hvalue, hrest⟩ := run_bind_eq_ok hrun
  obtain ⟨hv, h⟩ := h.pop1 hvalue
  obtain ⟨args, d₂, hargs, hrest⟩ := run_bind_eq_ok hrest
  obtain ⟨ha, h⟩ := h.popMany hargs
  obtain ⟨u, d₃, hmutate, hrest⟩ := run_bind_eq_ok hrest
  have hdescribes := hafter h ha hv hmutate
  cases keep with
  | true =>
    cases hrest
    exact leads_next (hdescribes.push hv)
  | false =>
    cases hrest
    exact leads_next hdescribes

theorem describes_assignIndex {t : StoreTarget} {idx value : Value} {fi fv : Option Value}
    (h : Matches s d) (hi : Known fi idx) (hv : Known fv value)
    (hrun : (mutateTarget t fun t => ((if (ops.assignByIndex t idx value).1 then .ok () else
      .error .index : WqResult Unit), (ops.assignByIndex t idx value).2)).run d = .ok () d') :
    Describes (assignIndex ops t fi fv s) d' := by
  obtain ⟨old, hold, hok, hwrite⟩ := mutateTarget_eq_ok hrun
  refine h.assignInto hold (fun f hf => ?_) hwrite
  obtain ⟨i, hi', hf⟩ := Option.bind_eq_some_iff.mp hf
  obtain ⟨w, hv', hf⟩ := Option.bind_eq_some_iff.mp hf
  cases hf
  rw [hi i hi', hv w hv']
  refine Prod.ext ?_ rfl
  by_contra hfails
  rw [if_neg hfails] at hok
  cases hok

theorem describes_assignIndices {t : StoreTarget} {args : List Value} {value : Value}
    {fa : Option (List Value)} {fv : Option Value} (h : Matches s d) (ha : Known fa args)
    (hv : Known fv value)
    (hrun : (mutateTarget t fun t => ((if (ops.assignByIndices t args value).1 then .ok () else
      .error .index : WqResult Unit), (ops.assignByIndices t args value).2)).run d = .ok () d') :
    Describes (assignIndices ops t fa fv s) d' := by
  obtain ⟨old, hold, hok, hwrite⟩ := mutateTarget_eq_ok hrun
  refine h.assignInto hold (fun f hf => ?_) hwrite
  obtain ⟨i, hi', hf⟩ := Option.bind_eq_some_iff.mp hf
  obtain ⟨w, hv', hf⟩ := Option.bind_eq_some_iff.mp hf
  cases hf
  rw [ha i hi', hv w hv']
  refine Prod.ext ?_ rfl
  by_contra hfails
  rw [if_neg hfails] at hok
  cases hok

/-- An index assignment in a global, of which nothing is known after it. -/
theorem leads_indexAssignVar (h : Matches s d) {name : String} {keep : Bool} {flow : Flow W}
    (hrun : (indexAssignOne ops (.var name) keep).run d = .ok flow d') :
    Leads pc (fallthrough pc
      (if keep then (s.pop.2.pop.2.setTarget (.var name) none).push s.pop.1
      else s.pop.2.pop.2.setTarget (.var name) none)) d' flow :=
  leads_indexAssignOne h (fun _ _ s => s.setTarget (.var name) none)
    (fun h _ _ hmutate => h.mutated hmutate) hrun

theorem leads_indexManyAssignVar (h : Matches s d) {name : String} {argc : Nat} {keep : Bool}
    {flow : Flow W} (hrun : (indexAssignMany ops (.var name) argc keep).run d = .ok flow d') :
    Leads pc (fallthrough pc
      (if keep then ((s.pop.2.popArgs argc).2.setTarget (.var name) none).push s.pop.1
      else (s.pop.2.popArgs argc).2.setTarget (.var name) none)) d' flow :=
  leads_indexAssignMany h (fun _ _ s => s.setTarget (.var name) none)
    (fun h _ _ hmutate => h.mutated hmutate) hrun

/-! #### Items -/

theorem known_indexOne {obj idx v : Value} {fo fi : Option Value} (ho : Known fo obj)
    (hi : Known fi idx) (hrun : (indexOne ops obj idx).run d = .ok v d') :
    Known (indexKnown ops fo fi) v ∧ d' = d := by
  unfold indexOne at hrun
  split at hrun
  · rename_i w hw
    cases hrun
    refine ⟨ho.bind (hi.bind ?_), rfl⟩
    rw [hw]
    exact .some _
  · cases hrun

theorem known_indexWithArgs {obj v : Value} {args : List Value} {fo : Option Value}
    {fa : Option (List Value)} (ho : Known fo obj) (ha : Known fa args)
    (hrun : (indexWithArgs ops obj args).run d = .ok v d') :
    Known (indexManyKnown ops fo fa) v ∧ d' = d := by
  unfold indexWithArgs at hrun
  split at hrun
  · rename_i idx
    obtain ⟨hv, rfl⟩ := known_indexOne (.some obj) (.some idx) hrun
    exact ⟨ho.bind (ha.bind hv), rfl⟩
  · rename_i args hargs
    split at hrun
    · rename_i w hw
      cases hrun
      refine ⟨ho.bind (ha.bind ?_), rfl⟩
      unfold postfixIndex
      split
      · exact absurd rfl (hargs _)
      · rw [hw]
        exact .some _
    · cases hrun

theorem known_cat (ops : Ops W) {ft fr : Option Value} {t r : Value} (ht : Known ft t)
    (hr : Known fr r) : Known (do return ops.cat (← ft) (← fr)) (ops.cat t r) :=
  ht.bind (hr.bind (.some _))

end Instructions

/-! ### Each instruction -/

/-- The instruction leads where its transfer says. -/
def Sound (ops : Ops W) (table : FnTable) (i : Instruction) : Prop :=
  ∀ {l c : Nat} {s : State l c} {d d' : Data W} {pc : Nat} {flow : Flow W}, Matches s d →
    (execPlain ops table i).run d = .ok flow d' → Leads pc (transfer ops pc i s) d' flow

section Sound

variable {table : FnTable}

/-! #### Loads and stores -/

theorem sound_loadOwnedConst (slot : Nat) : Sound ops table (.loadOwnedConst slot) := by
  intro l c s d d' pc flow h hrun
  obtain ⟨env, d₁, henv, hrest⟩ := run_bind_eq_ok hrun
  cases henv
  split at hrest
  · cases hrest
    have hvalues : Data.valueAt { d with
        env := { d.env with ownedConsts := d.env.ownedConsts.set slot none } } = d.valueAt := by
      funext t
      cases t <;> rfl
    exact leads_next ((h.describes.withStack hvalues h.describes.stack).pushUnknown _)
  · cases hrest

theorem sound_loadClosure (payload : ClosurePayload) : Sound ops table (.loadClosure payload) := by
  intro l c s d d' pc flow h hrun
  obtain ⟨cells, d₁, hcaptures, hrest⟩ := run_bind_eq_ok hrun
  exact leads_pushNext (h.captures hcaptures) (.none _) hrest

theorem sound_loadVar (name : String) : Sound ops table (.loadVar name) := by
  intro l c s d d' pc flow h hrun
  obtain ⟨v, d₁, hread, hrest⟩ := run_bind_eq_ok hrun
  obtain ⟨hv, h⟩ := h.resolveOperand ops hread
  exact leads_pushNext h hv hrest

theorem sound_loadCallTarget {operand : Operand}
    (hsource : (Instruction.loadCallTarget operand).isSource = true) :
    Sound ops table (.loadCallTarget operand) := by
  intro l c s d d' pc flow h hrun
  obtain ⟨v, d₁, hresolve, hrest⟩ := run_bind_eq_ok hrun
  obtain ⟨hv, h⟩ := h.resolveOperand ops hresolve
  cases operand with
  | stack => cases hsource
  | const w =>
    cases hresolve
    exact leads_pushNext h (.some _) hrest
  | local_ slot => exact leads_pushNext h hv hrest
  | capture i => exact leads_pushNext h hv hrest
  | var name => exact leads_pushNext h hv hrest
  | self => exact leads_pushNext h hv hrest

theorem sound_loadSelf : Sound ops table .loadSelf := by
  intro l c s d d' pc flow h hrun
  obtain ⟨a, d₁, ha, hrest⟩ := run_bind_eq_ok hrun
  obtain ⟨-, rfl⟩ := currentFunction_eq_ok ha
  exact leads_pushNext h (.none _) hrest

/-- A load of a binding. -/
theorem leads_load {l c : Nat} {s : State l c} {d d' : Data W} {pc : Nat} {flow : Flow W}
    (h : Matches s d) {t : StoreTarget}
    (hrun : (do push (← readTarget t); return .next : Exec W (Flow W)).run d = .ok flow d') :
    Leads pc (fallthrough pc (s.push (s.target t))) d' flow := by
  obtain ⟨v, d₁, hread, hrest⟩ := run_bind_eq_ok hrun
  obtain ⟨hv, rfl⟩ := h.readTarget hread
  exact leads_pushNext h hv hrest

/-- A store of the upper value, which is taken off the stack. -/
theorem leads_store {l c : Nat} {s : State l c} {d d' : Data W} {pc : Nat} {flow : Flow W}
    (h : Matches s d) {t : StoreTarget}
    (hrun : (do writeTarget t (← pop1); return .next : Exec W (Flow W)).run d = .ok flow d') :
    Leads pc (fallthrough pc (s.pop.2.setTarget t s.pop.1)) d' flow := by
  obtain ⟨v, d₁, hpop, hrest⟩ := run_bind_eq_ok hrun
  obtain ⟨hv, h⟩ := h.pop1 hpop
  obtain ⟨u, d₂, hwrite, hrest₁⟩ := run_bind_eq_ok hrest
  cases hrest₁
  exact leads_next (h.describes.setTarget h.apart hv hwrite)

theorem leads_storeKeep {l c : Nat} {s : State l c} {d d' : Data W} {pc : Nat} {flow : Flow W}
    (h : Matches s d) {t : StoreTarget}
    (hrun : (do writeTarget t (← peek); return .next : Exec W (Flow W)).run d = .ok flow d') :
    Leads pc (fallthrough pc (s.setTarget t s.peek)) d' flow := by
  obtain ⟨v, d₁, hpeek, hrest⟩ := run_bind_eq_ok hrun
  obtain ⟨hv, rfl⟩ := h.peek hpeek
  obtain ⟨u, d₂, hwrite, hrest₁⟩ := run_bind_eq_ok hrest
  cases hrest₁
  exact leads_next (h.describes.setTarget h.apart hv hwrite)

theorem sound_unpack (paths : List UnpackPath) : Sound ops table (.unpack paths) := by
  intro l c s d d' pc flow h hrun
  obtain ⟨source, d₁, hpop, hrest⟩ := run_bind_eq_ok hrun
  obtain ⟨-, h⟩ := h.pop1 hpop
  split at hrest
  · cases hrest
    exact leads_next (h.describes.clearVolatileFacts rfl)
  · cases hrest

theorem sound_loadUnpack (slot : Nat) : Sound ops table (.loadUnpack slot) := by
  intro l c s d d' pc flow h hrun
  unfold execPlain at hrun
  dsimp only at hrun
  split at hrun
  · cases hrun
    exact leads_next (h.describes.pushUnknown _)
  · cases hrun

theorem sound_endUnpack : Sound ops table .endUnpack := by
  intro l c s d d' pc flow h hrun
  unfold execPlain at hrun
  dsimp only at hrun
  split at hrun
  · cases hrun
    exact leads_next ⟨h.describes.targets, h.describes.stack⟩
  · cases hrun

/-! #### Operators -/

theorem sound_binaryOp (hfast : IntFastPath ops) (op : BinaryOperator) (left right : Operand) :
    Sound ops table (.binaryOp op left right) := by
  intro l c s d d' pc flow h hrun
  obtain ⟨v, d₁, hbinary, hrest⟩ := run_bind_eq_ok hrun
  obtain ⟨hv, h⟩ := h.binaryOp hfast hbinary
  exact leads_pushNext h hv hrest

theorem sound_catAssign (target : StoreTarget) (right : Operand) :
    Sound ops table (.catAssign target right) := by
  intro l c s d d' pc flow h hrun
  obtain ⟨r, d₁, hresolve, hrest⟩ := run_bind_eq_ok hrun
  obtain ⟨hr, h⟩ := h.resolveOperand ops hresolve
  obtain ⟨v, d₂, hmutate, hrest₁⟩ := run_bind_eq_ok hrest
  obtain ⟨old, hold, hok, hwrite⟩ := mutateTarget_eq_ok hmutate
  cases hok
  cases hrest₁
  have hv := (known_cat ops (h.describes.known hold) hr).trackable
  exact leads_next ((h.describes.setTarget h.apart hv hwrite).push hv)

theorem sound_cmpChain (chain : List BinaryOperator) : Sound ops table (.cmpChain chain) := by
  intro l c s d d' pc flow h hrun
  obtain ⟨u, d₁, hlen, hrest⟩ := run_bind_eq_ok hrun
  obtain rfl := ensureStackLen_eq_ok hlen
  obtain ⟨hvs, hdescribes⟩ := h.describes.popArgs (chain.length + 1)
  dsimp only at hrest
  split at hrest
  · rename_i v hv
    cases hrest
    refine leads_next (hdescribes.push (hvs.bind ?_))
    rw [hv]
    exact .some v
  · cases hrest

theorem sound_cat (n : Nat) : Sound ops table (.cat n) := by
  intro l c s d d' pc flow h hrun
  obtain ⟨vs, d₁, hpop, hrest⟩ := run_bind_eq_ok hrun
  obtain ⟨hvs, h⟩ := h.popMany hpop
  exact leads_pushNext h (hvs.map ops.catMany) hrest

theorem sound_unaryOp (op : UnaryOperator) (operand : Operand) :
    Sound ops table (.unaryOp op operand) := by
  intro l c s d d' pc flow h hrun
  obtain ⟨x, d₁, hresolve, hrest⟩ := run_bind_eq_ok hrun
  obtain ⟨hx, h⟩ := h.resolveOperand ops hresolve
  obtain ⟨v, d₂, hlift, hrest₁⟩ := run_bind_eq_ok hrest
  obtain ⟨hv, rfl⟩ := run_liftResult_eq_ok hlift
  refine leads_pushNext h (hx.bind ?_) hrest₁
  rw [hv]
  exact .some v

theorem sound_boolCombine (op : BoolOperator) : Sound ops table (.boolCombine op) := by
  intro l c s d d' pc flow h hrun
  obtain ⟨⟨left, right⟩, d₁, hpop, hrest⟩ := run_bind_eq_ok hrun
  obtain ⟨hvs, h⟩ := h.pop2 hpop
  obtain ⟨v, d₂, hlift, hrest₁⟩ := run_bind_eq_ok hrest
  obtain ⟨hv, rfl⟩ := run_liftResult_eq_ok hlift
  refine leads_pushNext h (hvs.bind ?_) hrest₁
  dsimp only
  rw [hv]
  exact .some v

/-! #### Calls -/

theorem sound_callBuiltinId (id argc : Nat) : Sound ops table (.callBuiltinId id argc) :=
  fun h hrun => h.callBuiltin table (i := .callBuiltinId id argc) rfl rfl rfl hrun

theorem sound_callBuiltinDiscardId (id argc : Nat) :
    Sound ops table (.callBuiltinDiscardId id argc) :=
  fun h hrun => h.callBuiltin table (i := .callBuiltinDiscardId id argc) rfl rfl rfl hrun

theorem sound_callLocal (slot argc : Nat) : Sound ops table (.callLocal slot argc) := by
  intro l c s d d' pc flow h hrun
  obtain ⟨f, d₁, hpop, hrest⟩ := run_bind_eq_ok hrun
  have hanswers := callFlows_answers.dispatchLoadedLocalCall ops table f argc d₁ flow d' hrest
  exact h.callUnder table rfl rfl (popUnder_eq_ok hpop).1 hanswers hrun

theorem sound_callUser (name : String) (argc : Nat) : Sound ops table (.callUser name argc) := by
  intro l c s d d' pc flow h hrun
  obtain ⟨f, d₁, hpop, hrest⟩ := run_bind_eq_ok hrun
  have hanswers := callFlows_answers.dispatchLoadedUserCall ops table f argc d₁ flow d' hrest
  exact h.callUnder table rfl rfl (popUnder_eq_ok hpop).1 hanswers hrun

theorem sound_callAnon (argc : Nat) : Sound ops table (.callAnon argc) := by
  intro l c s d d' pc flow h hrun
  obtain ⟨f, d₁, hpop, hrest⟩ := run_bind_eq_ok hrun
  have hanswers := callFlows_answers.dispatchAnonCall ops table f argc d₁ flow d' hrest
  exact h.callUnder table rfl rfl (popUnder_eq_ok hpop).1 hanswers hrun

/-- A known target of a call is not called: it is an index, or takes arguments as a
symbolic expression, which has no items. -/
theorem dispatchPostfix_eq_ok (hno : IndexesNoCas ops) {target : Value}
    (htarget : trackableValue target = some target) {argc : Nat} {d d' : Data W} {flow : Flow W}
    (hrun : (dispatchPostfix ops table false target argc).run d = .ok flow d') :
    flow = .next ∧ ∃ v, Known (postfixIndex ops target (d.stack.take argc).reverse) v ∧
      d' = { d with stack := v :: d.stack.drop argc, pendingNamedMeta := none } := by
  have hindex : (do
      if (← takePendingNamedMeta).isSome then throw .arity
      let args ← popMany argc
      push (← indexWithArgs ops target args)
      return .next : Exec W (Flow W)).run d = .ok flow d' →
      flow = .next ∧ ∃ v, Known (postfixIndex ops target (d.stack.take argc).reverse) v ∧
        d' = { d with stack := v :: d.stack.drop argc, pendingNamedMeta := none } := by
    intro hrun
    obtain ⟨metadata, d₁, htake, hrest⟩ := run_bind_eq_ok hrun
    cases htake
    split at hrest
    · cases hrest
    · obtain ⟨args, d₂, hargs, hrest₁⟩ := run_bind_eq_ok hrest
      obtain ⟨-, rfl, rfl⟩ := popMany_eq_ok hargs
      obtain ⟨v, d₃, hv, hrest₂⟩ := run_bind_eq_ok hrest₁
      obtain ⟨hknown, rfl⟩ := known_indexWithArgs (.some target) (.some _) hv
      cases hrest₂
      exact ⟨rfl, v, hknown, rfl⟩
  cases target with
  | cas kind =>
    obtain ⟨args, d₁, hargs, hrest⟩ := run_bind_eq_ok hrun
    obtain ⟨-, rfl⟩ := takeBuiltinArgs_eq_ok hargs
    dsimp only at hrest
    split at hrest
    · obtain ⟨v, d₂, hlift, hrest₁⟩ := run_bind_eq_ok hrest
      obtain ⟨-, rfl⟩ := run_liftResult_eq_ok hlift
      cases hrest₁
      refine ⟨rfl, v, ?_, rfl⟩
      rw [show postfixIndex ops (.cas kind) (d.stack.take argc).reverse = none from ?_]
      · exact .none v
      · unfold postfixIndex
        split
        · exact hno.index kind _
        · exact hno.indexMany kind _
    · cases hrest
  | compiledFunction fn => cases htarget
  | closure fn captured => cases htarget
  | liftedCallable expr => cases htarget
  | builtinFunction name id => cases htarget
  | rng handle => cases htarget
  | stream handle => cases htarget
  | _ => exact hindex hrun

theorem sound_postfix (hno : IndexesNoCas ops) (argc : Nat) :
    Sound ops table (.postfix_ argc) := by
  intro l c s d d' pc flow h hrun
  obtain ⟨t, d₁, hpop, hrest⟩ := run_bind_eq_ok hrun
  obtain ⟨ht, hd₁⟩ := popUnder_eq_ok hpop
  obtain ⟨htracked, hargs, hdescribes⟩ := h.describes.popCallTargetAndArgs ht
  unfold transfer
  dsimp only
  cases hfact : (s.popCallTargetAndArgs argc).1.1 with
  | none =>
    have hanswers := callFlows_answers.dispatchPostfix ops table t argc d₁ flow d' hrest
    exact h.callUnder (i := .postfix_ argc) table rfl rfl ht hanswers hrun
  | some w =>
    obtain ⟨rfl, htrackable⟩ := htracked w hfact
    obtain ⟨rfl, v, hv, rfl⟩ := dispatchPostfix_eq_ok hno htrackable hrest
    have hlength : (d.stack.take argc).length = argc :=
      List.length_take_of_le (List.getElem?_eq_some_iff.mp ht).1.le
    subst hd₁
    dsimp only at hv ⊢
    rw [List.eraseIdx_eq_take_drop_succ, List.take_left' hlength] at hv
    rw [List.eraseIdx_eq_take_drop_succ, List.drop_left' hlength]
    have hpush := hdescribes.push (hargs.bind hv)
    exact leads_next ⟨hpush.targets, hpush.stack⟩

/-! #### Constructors and items -/

theorem sound_makeDict (n : Nat) : Sound ops table (.makeDict n) := by
  intro l c s d d' pc flow h hrun
  obtain ⟨vs, d₁, hpop, hrest⟩ := run_bind_eq_ok hrun
  obtain ⟨hvs, h⟩ := h.popMany hpop
  split at hrest
  · rename_i items hitems
    refine leads_pushNext h (hvs.bind fun v hv => ?_) hrest
    unfold makeConstDict at hv
    split at hv
    · cases hv
    · rw [hitems] at hv
      exact (Option.some.inj hv).symm
  · cases hrest

theorem sound_makeRange (inclusive hasNext : Bool) :
    Sound ops table (.makeRange inclusive hasNext) := by
  intro l c s d d' pc flow h hrun
  obtain ⟨end_, d₁, hend, hrest⟩ := run_bind_eq_ok hrun
  obtain ⟨-, h⟩ := h.pop1 hend
  have hfinish : ∀ (make : Value → WqResult Value) {s : State l c} {d : Data W}, Matches s d →
      (do
        let start ← pop1
        push (← liftResult (make start))
        return .next : Exec W (Flow W)).run d = .ok flow d' →
      Leads pc (fallthrough pc s.drop.pushUnknown) d' flow := by
    intro make s d h hrun
    obtain ⟨start, d₂, hstart, hrest⟩ := run_bind_eq_ok hrun
    obtain ⟨-, h⟩ := h.pop1 hstart
    obtain ⟨v, d₃, hlift, hrest₁⟩ := run_bind_eq_ok hrest
    obtain ⟨-, rfl⟩ := run_liftResult_eq_ok hlift
    exact leads_pushNext h (.none _) hrest₁
  cases hasNext with
  | true =>
    obtain ⟨next_, d₂, hnext, hrest₁⟩ := run_bind_eq_ok hrest
    obtain ⟨next', d₃, hpop, hnext⟩ := run_bind_eq_ok hnext
    cases hnext
    exact hfinish (fun start => ops.makeRangeFromNext start next' end_ inclusive) (h.pop1 hpop).2
      hrest₁
  | false => exact hfinish (fun start => ops.makeRange start end_ none inclusive) h hrest

theorem sound_index : Sound ops table .index := by
  intro l c s d d' pc flow h hrun
  obtain ⟨idx, d₁, hidx, hrest⟩ := run_bind_eq_ok hrun
  obtain ⟨hi, h⟩ := h.pop1 hidx
  obtain ⟨obj, d₂, hobj, hrest₁⟩ := run_bind_eq_ok hrest
  obtain ⟨ho, h⟩ := h.pop1 hobj
  obtain ⟨v, d₃, hindex, hrest₂⟩ := run_bind_eq_ok hrest₁
  obtain ⟨hv, rfl⟩ := known_indexOne ho hi hindex
  exact leads_pushNext h hv hrest₂

theorem sound_indexMany (argc : Nat) : Sound ops table (.indexMany argc) := by
  intro l c s d d' pc flow h hrun
  obtain ⟨args, d₁, hargs, hrest⟩ := run_bind_eq_ok hrun
  obtain ⟨ha, h⟩ := h.popMany hargs
  obtain ⟨obj, d₂, hobj, hrest₁⟩ := run_bind_eq_ok hrest
  obtain ⟨ho, h⟩ := h.pop1 hobj
  obtain ⟨v, d₃, hindex, hrest₂⟩ := run_bind_eq_ok hrest₁
  obtain ⟨hv, rfl⟩ := known_indexWithArgs ho ha hindex
  exact leads_pushNext h hv hrest₂

theorem sound_checkAtomPathIndex : Sound ops table .checkAtomPathIndex := by
  intro l c s d d' pc flow h hrun
  obtain ⟨v, d₁, hpeek, hrest⟩ := run_bind_eq_ok hrun
  obtain ⟨-, rfl⟩ := h.peek hpeek
  split at hrest
  · cases hrest
  · cases hrest
    exact leads_next h.describes

/-- An item of a binding. -/
theorem leads_indexLoad {l c : Nat} {s : State l c} {d d' : Data W} {pc : Nat} {flow : Flow W}
    (h : Matches s d) {t : StoreTarget}
    (hrun : (do
      let idx ← pop1
      push (← indexOne ops (← readTarget t) idx)
      return .next : Exec W (Flow W)).run d = .ok flow d') :
    Leads pc (fallthrough pc
      (s.pop.2.push (indexKnown ops (s.pop.2.target t) s.pop.1))) d' flow := by
  obtain ⟨idx, d₁, hidx, hrest⟩ := run_bind_eq_ok hrun
  obtain ⟨hi, h⟩ := h.pop1 hidx
  obtain ⟨obj, d₂, hread, hrest₁⟩ := run_bind_eq_ok hrest
  obtain ⟨ho, rfl⟩ := h.readTarget hread
  obtain ⟨v, d₃, hindex, hrest₂⟩ := run_bind_eq_ok hrest₁
  obtain ⟨hv, rfl⟩ := known_indexOne ho hi hindex
  exact leads_pushNext h hv hrest₂

theorem leads_indexManyLoad {l c : Nat} {s : State l c} {d d' : Data W} {pc : Nat} {flow : Flow W}
    (h : Matches s d) {t : StoreTarget} {argc : Nat}
    (hrun : (do
      let args ← popMany argc
      push (← indexWithArgs ops (← readTarget t) args)
      return .next : Exec W (Flow W)).run d = .ok flow d') :
    Leads pc (fallthrough pc ((s.popArgs argc).2.push
      (indexManyKnown ops ((s.popArgs argc).2.target t) (s.popArgs argc).1))) d' flow := by
  obtain ⟨args, d₁, hargs, hrest⟩ := run_bind_eq_ok hrun
  obtain ⟨ha, h⟩ := h.popMany hargs
  obtain ⟨obj, d₂, hread, hrest₁⟩ := run_bind_eq_ok hrest
  obtain ⟨ho, rfl⟩ := h.readTarget hread
  obtain ⟨v, d₃, hindex, hrest₂⟩ := run_bind_eq_ok hrest₁
  obtain ⟨hv, rfl⟩ := known_indexWithArgs ho ha hindex
  exact leads_pushNext h hv hrest₂

theorem sound_indexMutate (target : StoreTarget) (op : MutationOp) :
    Sound ops table (.indexMutate target op) := by
  intro l c s d d' pc flow h hrun
  have hfinish : ∀ {s : State l c} {d : Data W} {f : Value → WqResult Value × Value},
      Matches s d →
      (do push (← mutateTarget target f); return .next : Exec W (Flow W)).run d = .ok flow d' →
      Leads pc (fallthrough pc (s.setTarget target none).pushUnknown) d' flow := by
    intro s d f h hrun
    obtain ⟨v, d₁, hmutate, hrest⟩ := run_bind_eq_ok hrun
    cases hrest
    exact leads_next ((h.mutated hmutate).pushUnknown v)
  cases op with
  | pop =>
    obtain ⟨v, d₁, hpop, hrest⟩ := run_bind_eq_ok hrun
    obtain ⟨count, d₂, hlift, hrest₁⟩ := run_bind_eq_ok hrest
    obtain ⟨-, rfl⟩ := run_liftResult_eq_ok hlift
    exact hfinish (h.pop1 hpop).2 hrest₁
  | remove =>
    obtain ⟨idx, d₁, hpop, hrest⟩ := run_bind_eq_ok hrun
    exact hfinish (h.pop1 hpop).2 hrest
  | insert =>
    obtain ⟨xs, d₁, hpop, hrest⟩ := run_bind_eq_ok hrun
    exact hfinish (h.pop1 hpop).2 hrest
  | insertAt =>
    obtain ⟨dst, d₁, hdst, hrest⟩ := run_bind_eq_ok hrun
    obtain ⟨xs, d₂, hxs, hrest₁⟩ := run_bind_eq_ok hrest
    exact hfinish ((h.pop1 hdst).2.pop1 hxs).2 hrest₁

/-! #### Jumps -/

theorem sound_jumpIfFalse (target : Nat) : Sound ops table (.jumpIfFalse target) := by
  intro l c s d d' pc flow h hrun
  obtain ⟨v, d₁, hpop, hrest⟩ := run_bind_eq_ok hrun
  obtain ⟨hv, h⟩ := h.pop1 hpop
  obtain ⟨b, d₂, hcond, hrest₁⟩ := run_bind_eq_ok hrest
  obtain ⟨hb, rfl⟩ := condition_eq_ok hcond
  cases hrest₁
  refine leads_branch h.describes (hv.bind ?_) target
  rw [hb]
  exact .some b

theorem sound_jumpIfCmpFalse (hfast : IntFastPath ops) (op : BinaryOperator)
    (left right : Operand) (target : Nat) :
    Sound ops table (.jumpIfCmpFalse op left right target) := by
  intro l c s d d' pc flow h hrun
  obtain ⟨b, d₁, hcond, hrest⟩ := run_bind_eq_ok hrun
  obtain ⟨hb, h⟩ := h.evalCmpBranchCondition hfast hcond
  cases hrest
  exact leads_branch h.describes hb target

theorem tryToRustBool_eq_some {v : Value} {b : Bool} (h : v.tryToRustBool = some b) :
    v = .bool b := by
  cases v with
  | bool b' => exact congrArg _ (Option.some.inj h)
  | _ => cases h

/-- A shortcut jumps on the operand that decides it, and leaves it. -/
theorem leads_shortcut {l c : Nat} {s : State l c} {d : Data W} {pc : Nat} (h : Matches s d)
    {target : Nat} {b : Bool} {next : Successors l c} {flow : Flow W}
    (hflow : flow = .jump target ∧ d.stack.head? = some (.bool b) ∨
      flow = .next ∧ d.stack.head? ≠ some (.bool b))
    (hjump : s.peek.bind Value.tryToRustBool ≠ some (!b) →
      (target, s.replaceStackTop (some (.bool b))) ∈ next)
    (hnext : s.peek.bind Value.tryToRustBool ≠ some b → (pc + 1, s) ∈ next) :
    Leads pc next d flow := by
  have hpeek : ∀ b', s.peek.bind Value.tryToRustBool = some b' →
      d.stack.head? = some (.bool b') := by
    intro b' hb'
    obtain ⟨v, hv, hbool⟩ := Option.bind_eq_some_iff.mp hb'
    obtain rfl := tryToRustBool_eq_some hbool
    unfold State.peek at hv
    rcases hs : s.stack with _ | _ | ⟨fact, facts⟩
    · rw [hs] at hv
      cases hv
    · rw [hs] at hv
      cases hv
    · rw [hs] at hv
      have hstack := h.describes.stack _ hs
      cases hd : d.stack with
      | nil =>
        rw [hd] at hstack
        cases hstack
      | cons w stack =>
        rw [hd, List.forall₂_cons] at hstack
        exact congrArg some (hstack.1.known _ hv).symm
  rcases hflow with ⟨rfl, hd⟩ | ⟨rfl, hd⟩
  · refine ⟨_, hjump fun hb => ?_, ?_⟩
    · have hboth := hd.symm.trans (hpeek _ hb)
      cases b <;> cases hboth
    · obtain ⟨stack, hstack⟩ := List.head?_eq_some_iff.mp hd
      exact h.describes.replaceStackTop hstack
  · exact ⟨s, hnext fun hb => hd (hpeek b hb), h.describes⟩

theorem sound_boolAndLazy (target : Nat) : Sound ops table (.boolAndLazy target) := by
  intro l c s d d' pc flow h hrun
  have hflow : d' = d ∧ (flow = .jump target ∧ d.stack.head? = some (.bool false) ∨
      flow = .next ∧ d.stack.head? ≠ some (.bool false)) := by
    unfold execPlain at hrun
    dsimp only at hrun
    split at hrun
    · rename_i hd
      cases hrun
      exact ⟨rfl, .inl ⟨rfl, hd ▸ rfl⟩⟩
    · rename_i hd
      cases hrun
      refine ⟨rfl, .inr ⟨rfl, fun hhead => ?_⟩⟩
      obtain ⟨stack, hstack⟩ := List.head?_eq_some_iff.mp hhead
      exact hd stack hstack
  obtain ⟨rfl, hflow⟩ := hflow
  refine leads_shortcut h hflow ?_ ?_ <;> intro hb <;> unfold transfer <;> dsimp only
  · split
    · exact List.mem_singleton_self _
    · exact absurd ‹_› hb
    · exact List.mem_cons_of_mem _ List.mem_cons_self
  · split
    · exact absurd ‹_› hb
    · exact List.mem_singleton_self _
    · exact List.mem_cons_self

theorem sound_boolOrLazy (target : Nat) : Sound ops table (.boolOrLazy target) := by
  intro l c s d d' pc flow h hrun
  have hflow : d' = d ∧ (flow = .jump target ∧ d.stack.head? = some (.bool true) ∨
      flow = .next ∧ d.stack.head? ≠ some (.bool true)) := by
    unfold execPlain at hrun
    dsimp only at hrun
    split at hrun
    · rename_i hd
      cases hrun
      exact ⟨rfl, .inl ⟨rfl, hd ▸ rfl⟩⟩
    · rename_i hd
      cases hrun
      refine ⟨rfl, .inr ⟨rfl, fun hhead => ?_⟩⟩
      obtain ⟨stack, hstack⟩ := List.head?_eq_some_iff.mp hhead
      exact hd stack hstack
  obtain ⟨rfl, hflow⟩ := hflow
  refine leads_shortcut h hflow ?_ ?_ <;> intro hb <;> unfold transfer <;> dsimp only
  · split
    · exact List.mem_singleton_self _
    · exact absurd ‹_› hb
    · exact List.mem_cons_of_mem _ List.mem_cons_self
  · split
    · exact absurd ‹_› hb
    · exact List.mem_singleton_self _
    · exact List.mem_cons_self

theorem sound_nLoopEnter (index count snapshot target : Nat) :
    Sound ops table (.nLoopEnter index count snapshot target) := by
  intro l c s d d' pc flow h hrun
  obtain ⟨i, d₁, hindex, hrest⟩ := run_bind_eq_ok hrun
  obtain ⟨hi, rfl⟩ := h.readTarget (t := .local_ index) hindex
  obtain ⟨n, d₂, hcount, hrest₁⟩ := run_bind_eq_ok hrest
  obtain ⟨hn, rfl⟩ := h.readTarget (t := .local_ count) hcount
  obtain ⟨b, d₃, hcond, hrest₂⟩ := run_bind_eq_ok hrest₁
  obtain ⟨hb, rfl⟩ := known_evalNLoopCondition hi hn hcond
  unfold transfer
  dsimp only
  cases b with
  | true =>
    obtain ⟨u, d₄, hwrite, hrest₃⟩ := run_bind_eq_ok hrest₂
    cases hrest₃
    have hentered := h.describes.setTarget h.apart (t := .local_ snapshot) hi hwrite
    split
    · exact leads_next hentered
    · rename_i hfact
      cases hb false hfact
    · exact ⟨_, List.mem_cons_self, hentered⟩
  | false =>
    cases hrest₂
    split
    · rename_i hfact
      cases hb true hfact
    · exact ⟨s, List.mem_singleton_self _, h.describes⟩
    · exact ⟨s, List.mem_cons_of_mem _ List.mem_cons_self, h.describes⟩

theorem sound_nLoopNext (hfast : IntFastPath ops) (snapshot index target : Nat) :
    Sound ops table (.nLoopNext snapshot index target) := by
  intro l c s d d' pc flow h hrun
  obtain ⟨v, d₁, hread, hrest⟩ := run_bind_eq_ok hrun
  obtain ⟨hv, hd₁⟩ := h.readTarget (t := .local_ snapshot) hread
  subst hd₁
  have hfinish : ∀ {next_ : Value}, evalBinary ops .add v (.int 1) = .ok next_ →
      (do writeLocal index next_; return .jump target : Exec W (Flow W)).run d₁ = .ok flow d' →
      Leads pc (transfer ops pc (.nLoopNext snapshot index target) s) d' flow := by
    intro next_ hnext hrun
    obtain ⟨u, d₂, hwrite, hrest⟩ := run_bind_eq_ok hrun
    cases hrest
    refine ⟨_, List.mem_singleton_self _,
      h.describes.setTarget h.apart (t := .local_ index) ?_ hwrite⟩
    exact known_evalBinary? (hv.map fun v => (v, Value.int 1)) hnext
  have hslow : (do
      writeLocal index (← liftResult (evalBinary ops .add v (.int 1)))
      return .jump target : Exec W (Flow W)).run d₁ = .ok flow d' →
      Leads pc (transfer ops pc (.nLoopNext snapshot index target) s) d' flow := by
    intro hrun
    obtain ⟨next_, d₂, hlift, hwrite⟩ := run_bind_eq_ok hrun
    obtain ⟨hnext, rfl⟩ := run_liftResult_eq_ok hlift
    exact hfinish hnext hwrite
  by_cases hint : ∃ n, v = .int n
  · obtain ⟨n, rfl⟩ := hint
    dsimp only at hrest
    split at hrest
    · rename_i n' hn'
      refine hfinish (hfast .add n 1 (.int n') ?_) hrest
      exact congrArg (Option.map Value.int) hn'
    · exact hslow hrest
  · cases v with
    | int n => exact absurd ⟨n, rfl⟩ hint
    | _ => exact hslow hrest

theorem sound_jumpIfGE (target : Nat) : Sound ops table (.jumpIfGE target) := by
  intro l c s d d' pc flow h hrun
  obtain ⟨⟨left, right⟩, d₁, hpop, hrest⟩ := run_bind_eq_ok hrun
  have h₁ : Describes s.drop.drop d₁ := by
    unfold pop2 at hpop
    dsimp only at hpop
    split at hpop
    · rename_i hd
      cases hpop
      have hdrop := h.describes.drop.drop
      rw [hd] at hdrop
      exact hdrop
    · cases hpop
  dsimp only at hrest
  split at hrest
  · cases hrest
    exact leads_branch h₁ (.none _) target
  · obtain ⟨v, d₂, hlift, hrest₁⟩ := run_bind_eq_ok hrest
    obtain ⟨-, rfl⟩ := run_liftResult_eq_ok hlift
    obtain ⟨b, d₃, hcond, hrest₂⟩ := run_bind_eq_ok hrest₁
    obtain ⟨-, rfl⟩ := condition_eq_ok hcond
    cases hrest₂
    exact leads_branch h₁ (.none _) target

theorem sound_jumpIfLEZLocal (hfast : IntFastPath ops) (slot target : Nat) :
    Sound ops table (.jumpIfLEZLocal slot target) := by
  intro l c s d d' pc flow h hrun
  obtain ⟨v, d₁, hread, hrest⟩ := run_bind_eq_ok hrun
  obtain ⟨hv, rfl⟩ := h.readTarget (t := .local_ slot) hread
  -- the machine goes on where the value is above zero, which is the other way round
  have hbranch : transfer ops pc (.jumpIfLEZLocal slot target) s =
      branch pc target (((s.local_ slot).bind leZero).map (!·)) s := by
    unfold transfer
    rcases (s.local_ slot).bind leZero with _ | _ | _ <;> rfl
  rw [hbranch]
  have hknown : ∀ {b : Bool}, Known (leZero v) (!b) →
      Known (((s.local_ slot).bind leZero).map (!·)) b := by
    intro b hb
    have hmap := (hv.bind hb).map (!·)
    rw [Bool.not_not] at hmap
    exact hmap
  split at hrest
  · cases hrest
    refine leads_branch h.describes (hknown ?_) target
    rw [← decide_not, decide_eq_decide.mpr Int.not_lt]
    exact .some _
  · cases hrest
    refine leads_branch h.describes (hknown ?_) target
    rw [Bool.not_not, Bool.decide_or]
    exact .some _
  · rename_i hint hfloat
    obtain ⟨b, d₂, hcond, hrest₁⟩ := run_bind_eq_ok hrest
    obtain ⟨-, h⟩ := h.evalCmpBranchCondition hfast hcond
    cases hrest₁
    refine leads_branch h.describes (hknown ?_) target
    have hnone : leZero v = none := by
      cases v with
      | int n => exact absurd rfl (hint n)
      | float f => exact absurd rfl (hfloat f)
      | _ => rfl
    rw [hnone]
    exact .none _

theorem sound_jumpIfNamedProvided (slot bit target : Nat) :
    Sound ops table (.jumpIfNamedProvided slot bit target) := by
  intro l c s d d' pc flow h hrun
  obtain ⟨v, d₁, hread, hrest⟩ := run_bind_eq_ok hrun
  obtain ⟨hv, rfl⟩ := h.readTarget (t := .local_ slot) hread
  unfold transfer
  cases hfact : s.local_ slot with
  | none =>
    split at hrest <;> cases hrest
    · exact leads_branch h.describes (.none _) target
    · exact ⟨s, List.mem_cons_self, h.describes⟩
  | some w =>
    obtain rfl := hv w hfact
    split at hrest
    · rename_i mask
      cases hrest
      dsimp only
      by_cases hbit : mask.toBitVec.getLsbD bit = true
      · rw [if_pos hbit, hbit]
        exact ⟨s, List.mem_singleton_self _, h.describes⟩
      · rw [if_neg hbit, Bool.eq_false_iff.mpr hbit]
        exact leads_next h.describes
    · rename_i hint
      cases hrest
      split
      · rename_i mask heq
        exact absurd (Option.some.inj heq) (hint mask)
      · exact leads_next h.describes
      · rename_i heq
        cases heq

theorem sound_try (len : Nat) : Sound ops table (.try_ len) := by
  intro l c s d d' pc flow h hrun
  cases hrun
  have hafter : ∀ v (d' : Data W), d'.stack = v :: d.stack →
      Describes s.clearVolatileFacts.pushUnknown d' := fun v d' hd => h.describes.answer v hd
  unfold transfer
  dsimp only
  by_cases hlen : 0 < len
  · rw [if_pos hlen]
    exact ⟨fun _ => ⟨s, List.mem_cons_self, h.describes⟩,
      _, List.mem_cons_of_mem _ List.mem_cons_self, hafter⟩
  · rw [if_neg hlen]
    exact ⟨fun h => absurd h hlen, _, List.mem_singleton_self _, hafter⟩

theorem execPlain_leads (hfast : IntFastPath ops) (hno : IndexesNoCas ops) (table : FnTable)
    {i : Instruction} (hsource : i.isSource = true) : Sound ops table i := by
  intro l c s d d' pc flow h hrun
  cases i with
  | loadConst v =>
    cases hrun
    exact leads_next (h.describes.push (.some v))
  | loadOwnedConst slot => exact sound_loadOwnedConst slot h hrun
  | loadClosure payload => exact sound_loadClosure payload h hrun
  | loadVar name => exact sound_loadVar name h hrun
  | loadCallTarget operand => exact sound_loadCallTarget hsource h hrun
  | loadVarExists name =>
    cases hrun
    exact leads_next (h.describes.pushUnknown _)
  | loadCapture i => exact leads_load (t := .capture i) h hrun
  | loadSelf => exact sound_loadSelf h hrun
  | storeVar name => exact leads_store (t := .var name) h hrun
  | storeVarKeep name => exact leads_storeKeep (t := .var name) h hrun
  | loadLocal slot => exact leads_load (t := .local_ slot) h hrun
  | storeLocal slot => exact leads_store (t := .local_ slot) h hrun
  | storeLocalKeep slot => exact leads_storeKeep (t := .local_ slot) h hrun
  | storeCapture i => exact leads_store (t := .capture i) h hrun
  | storeCaptureKeep i => exact leads_storeKeep (t := .capture i) h hrun
  | unpack paths => exact sound_unpack paths h hrun
  | loadUnpack slot => exact sound_loadUnpack slot h hrun
  | endUnpack => exact sound_endUnpack h hrun
  | binaryOp op left right => exact sound_binaryOp hfast op left right h hrun
  | catAssign target right => exact sound_catAssign target right h hrun
  | cmpChain chain => exact sound_cmpChain chain h hrun
  | cat n => exact sound_cat n h hrun
  | unaryOp op operand => exact sound_unaryOp op operand h hrun
  | boolAndLazy target => exact sound_boolAndLazy target h hrun
  | boolOrLazy target => exact sound_boolOrLazy target h hrun
  | boolCombine op => exact sound_boolCombine op h hrun
  | callBuiltinId id argc => exact sound_callBuiltinId id argc h hrun
  | callBuiltinDiscardId id argc => exact sound_callBuiltinDiscardId id argc h hrun
  | callLocal slot argc => exact sound_callLocal slot argc h hrun
  | callUser name argc => exact sound_callUser name argc h hrun
  | callAnon argc => exact sound_callAnon argc h hrun
  | postfix_ argc => exact sound_postfix hno argc h hrun
  | tailCallLocal slot argc => cases hsource
  | tailCallUser name argc => cases hsource
  | tailCallAnon argc => cases hsource
  | tailPostfix argc => cases hsource
  | makeList n =>
    obtain ⟨vs, d₁, hpop, hrest⟩ := run_bind_eq_ok hrun
    obtain ⟨hvs, h⟩ := h.popMany hpop
    exact leads_pushNext h (hvs.map Value.fromItems) hrest
  | makeDict n => exact sound_makeDict n h hrun
  | makeRange inclusive hasNext => exact sound_makeRange inclusive hasNext h hrun
  | index => exact sound_index h hrun
  | indexMany argc => exact sound_indexMany argc h hrun
  | checkAtomPathIndex => exact sound_checkAtomPathIndex h hrun
  | indexLoadLocal slot => exact leads_indexLoad (t := .local_ slot) h hrun
  | indexLoadCapture i => exact leads_indexLoad (t := .capture i) h hrun
  | indexLoadVar name => exact leads_indexLoad (t := .var name) h hrun
  | indexManyLoadLocal slot argc => exact leads_indexManyLoad (t := .local_ slot) h hrun
  | indexManyLoadCapture i argc => exact leads_indexManyLoad (t := .capture i) h hrun
  | indexManyLoadVar name argc => exact leads_indexManyLoad (t := .var name) h hrun
  | indexAssignVar name => exact leads_indexAssignVar h hrun
  | indexAssignLocal slot =>
    exact leads_indexAssignOne h (assignIndex ops _) describes_assignIndex hrun
  | indexAssignCapture i =>
    exact leads_indexAssignOne h (assignIndex ops _) describes_assignIndex hrun
  | indexManyAssignVar name argc => exact leads_indexManyAssignVar h hrun
  | indexManyAssignLocal slot argc =>
    exact leads_indexAssignMany h (assignIndices ops _) describes_assignIndices hrun
  | indexManyAssignCapture i argc =>
    exact leads_indexAssignMany h (assignIndices ops _) describes_assignIndices hrun
  | indexAssignVarDrop name => exact leads_indexAssignVar h hrun
  | indexAssignLocalDrop slot =>
    exact leads_indexAssignOne h (assignIndex ops _) describes_assignIndex hrun
  | indexAssignCaptureDrop i =>
    exact leads_indexAssignOne h (assignIndex ops _) describes_assignIndex hrun
  | indexManyAssignVarDrop name argc => exact leads_indexManyAssignVar h hrun
  | indexManyAssignLocalDrop slot argc =>
    exact leads_indexAssignMany h (assignIndices ops _) describes_assignIndices hrun
  | indexManyAssignCaptureDrop i argc =>
    exact leads_indexAssignMany h (assignIndices ops _) describes_assignIndices hrun
  | jump target =>
    cases hrun
    exact ⟨s, List.mem_singleton_self _, h.describes⟩
  | jumpIfFalse target => exact sound_jumpIfFalse target h hrun
  | jumpIfCmpFalse op left right target =>
    exact sound_jumpIfCmpFalse hfast op left right target h hrun
  | nLoopEnter index count snapshot target =>
    exact sound_nLoopEnter index count snapshot target h hrun
  | nLoopNext snapshot index target => exact sound_nLoopNext hfast snapshot index target h hrun
  | jumpIfGE target => exact sound_jumpIfGE target h hrun
  | jumpIfLEZLocal slot target => exact sound_jumpIfLEZLocal hfast slot target h hrun
  | jumpIfNamedProvided slot bit target => exact sound_jumpIfNamedProvided slot bit target h hrun
  | indexMutate target op => exact sound_indexMutate target op h hrun
  | pop =>
    cases hrun
    exact leads_next h.describes.drop
  | return_ =>
    cases hrun
    trivial
  | traceBegin =>
    cases hrun
    exact leads_next h.describes
  | debug =>
    obtain ⟨v, d₁, hpeek, hrest⟩ := run_bind_eq_ok hrun
    obtain ⟨-, rfl⟩ := h.peek hpeek
    cases hrest
    exact leads_next h.describes
  | pause =>
    cases hrun
    exact leads_next h.describes
  | try_ len => exact sound_try len h hrun
  | import_ data =>
    cases hrun
    exact ⟨_, List.mem_singleton_self _, fun v d' hd => h.describes.answer v hd⟩
  | namedCall call metadata => cases hrun

/-- **An instruction leads where its transfer says**, with the metadata of named arguments or
without. -/
theorem exec_leads (hfast : IntFastPath ops) (hno : IndexesNoCas ops) (table : FnTable)
    {i : Instruction} (hsource : i.isSource = true) {l c : Nat} {s : State l c} {d d' : Data W}
    {pc : Nat} {flow : Flow W} (h : Matches s d)
    (hrun : (exec ops table i).run d = .ok flow d') : Leads pc (transfer ops pc i s) d' flow := by
  rcases exec_cases ops table i with ⟨call, metadata, rfl⟩ | heq
  · have hpending : Matches s { d with pendingNamedMeta := some metadata } :=
      h.mk' ⟨h.describes.targets, h.describes.stack⟩ rfl rfl
    have hcall : call.isSource = true := (Bool.and_eq_true_iff.mp hsource).1
    exact execPlain_leads hfast hno table hcall hpending hrun
  · rw [heq] at hrun
    exact execPlain_leads hfast hno table hsource h hrun

end Sound

end ConstProp

end Wqpl
