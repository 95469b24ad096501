/-
# Runs of loop code

What the instructions of a loop do to its variables, wherever the scope keeps
them (`Scope.store`, `Scope.read`), and how the loop variable is saved before a
loop and restored behind it (`begin_runs`, `finish_runs`). What the program
sees depends only on what it saw before (`LoopState.SameUser`).
-/
import Wqpl.Loop.Code

namespace Wqpl

/-! ### Steps -/

namespace LoopRun

variable {W : Type} {ops : Ops W} {code : List (LoopInst W)} {pc : Nat} {s s' : LoopState W}
  {i : LoopInst W}

theorem steps_next (hi : code[pc]? = some i) (h : i.exec ops s = .next s') :
    (machine ops code).Steps 1 (at_ pc s) (at_ (pc + 1) s') := by
  have hstep : step ops code (at_ pc s) = at_ (pc + 1) s' := by
    rw [step, hi]
    dsimp only
    rw [h]
  exact hstep ▸ .one rfl

theorem steps_jump {target : Nat} (hi : code[pc]? = some i) (h : i.exec ops s = .jump target s') :
    (machine ops code).Steps 1 (at_ pc s) (at_ target s') := by
  have hstep : step ops code (at_ pc s) = at_ target s' := by
    rw [step, hi]
    dsimp only
    rw [h]
  exact hstep ▸ .one rfl

theorem steps_leave {x : Leave} (hi : code[pc]? = some i) (h : i.exec ops s = .leave x s') :
    (machine ops code).Steps 1 (at_ pc s) (ended (.left x s')) := by
  have hstep : step ops code (at_ pc s) = ended (.left x s') := by
    rw [step, hi]
    dsimp only
    rw [h]
  exact hstep ▸ .one rfl

theorem steps_lost (hi : code[pc]? = some i) (h : i.exec ops s = .lost) :
    (machine ops code).Steps 1 (at_ pc s) lost := by
  have hstep : step ops code (at_ pc s) = lost := by
    rw [step, hi]
    dsimp only
    rw [h]
  exact hstep ▸ .one rfl

theorem steps_end (hi : code[pc]? = none) :
    (machine ops code).Steps 1 (at_ pc s) (ended (.done s)) := by
  have hstep : step ops code (at_ pc s) = ended (.done s) := by
    rw [step, hi]
  exact hstep ▸ .one rfl

theorem not_ends_lost (r : LoopEnd W) : ¬(machine ops code).Ends lost r := by
  rintro ⟨n, t, ht, hr⟩
  have hlost : t = lost := by
    generalize hs : (lost : LoopRun W) = l at ht
    induction ht with
    | refl => rfl
    | head _ _ ih =>
      subst hs
      exact ih hr rfl
  subst hlost
  cases hr

end LoopRun

/-- The part of the code from the place on. -/
def CodeAt {W : Type} (code : List (LoopInst W)) (base : Nat) (part : List (LoopInst W)) : Prop :=
  ∀ (k : Nat) (i : LoopInst W), part[k]? = some i → code[base + k]? = some i

theorem codeAt_self {W : Type} (code : List (LoopInst W)) : CodeAt code 0 code := by
  intro k i hi
  rwa [Nat.zero_add]

section CodeAt

variable {W : Type} {code part part' : List (LoopInst W)} {base : Nat}

theorem CodeAt.left (h : CodeAt code base (part ++ part')) : CodeAt code base part := by
  intro k i hi
  refine h k i ?_
  rw [List.getElem?_append_left (List.getElem?_eq_some_iff.mp hi).1, hi]

theorem CodeAt.right (h : CodeAt code base (part ++ part')) :
    CodeAt code (base + part.length) part' := by
  intro k i hi
  rw [Nat.add_assoc]
  refine h (part.length + k) i ?_
  rw [List.getElem?_append_right (Nat.le_add_right ..), Nat.add_sub_cancel_left, hi]

end CodeAt

/-! ### What the program sees -/

namespace LoopState.SameUser

variable {W : Type} {s s' s'' : LoopState W}

theorem refl (s : LoopState W) : s.SameUser s := ⟨rfl, fun _ _ => rfl, rfl, rfl, fun _ _ => rfl, rfl⟩

theorem symm (h : s.SameUser s') : s'.SameUser s :=
  ⟨h.stack.symm, fun x hx => (h.locals x hx).symm, h.captures.symm, h.self.symm,
    fun x hx => (h.globals x hx).symm, h.world.symm⟩

theorem trans (h : s.SameUser s') (h' : s'.SameUser s'') : s.SameUser s'' :=
  ⟨h.stack.trans h'.stack, fun x hx => (h.locals x hx).trans (h'.locals x hx),
    h.captures.trans h'.captures, h.self.trans h'.self,
    fun x hx => (h.globals x hx).trans (h'.globals x hx), h.world.trans h'.world⟩

theorem setStack (h : s.SameUser s') (stack : List Value) :
    LoopState.SameUser { s with stack := stack } { s' with stack := stack } :=
  ⟨rfl, h.locals, h.captures, h.self, h.globals, h.world⟩

theorem push (h : s.SameUser s') (v : Value) : (s.push v).SameUser (s'.push v) :=
  ⟨congrArg (v :: ·) h.stack, h.locals, h.captures, h.self, h.globals, h.world⟩

theorem setLocal (h : s.SameUser s') (x : String) (v : Value) :
    (s.setLocal x v).SameUser (s'.setLocal x v) := by
  refine ⟨h.stack, fun y hy => ?_, h.captures, h.self, h.globals, h.world⟩
  show (if y = x then v else s.locals y) = if y = x then v else s'.locals y
  rw [h.locals y hy]

theorem setGlobal (h : s.SameUser s') (x : String) (v : Value) :
    (s.setGlobal x v).SameUser (s'.setGlobal x v) := by
  refine ⟨h.stack, h.locals, h.captures, h.self, fun y hy => ?_, h.world⟩
  show (if y = x then some v else s.globals y) = if y = x then some v else s'.globals y
  rw [h.globals y hy]

theorem setCapture (h : s.SameUser s') (i : Nat) (v : Value) :
    (s.setCapture i v).SameUser (s'.setCapture i v) := by
  refine ⟨h.stack, h.locals, ?_, h.self, h.globals, h.world⟩
  show (fun j => if j = i then v else s.captures j) = fun j => if j = i then v else s'.captures j
  rw [h.captures]

theorem ne_of_temp {x y : String} (hx : isTemp x = true) (hy : isTemp y = false) : y ≠ x := by
  rintro rfl
  rw [hx] at hy
  cases hy

theorem setLocal_temp {x : String} (hx : isTemp x = true) (v : Value) :
    s.SameUser (s.setLocal x v) := by
  refine ⟨rfl, fun y hy => ?_, rfl, rfl, fun _ _ => rfl, rfl⟩
  exact (if_neg (ne_of_temp hx hy)).symm

theorem setGlobal_temp {x : String} (hx : isTemp x = true) (v : Value) :
    s.SameUser (s.setGlobal x v) := by
  refine ⟨rfl, fun _ _ => rfl, rfl, rfl, fun y hy => ?_, rfl⟩
  exact (if_neg (ne_of_temp hx hy)).symm

end LoopState.SameUser

/-! ### Names of the compiler's own -/

theorem isTemp_index : isTemp "_n" = false := by decide

theorem isTemp_append {x : String} (h : isTemp x = true) (y : String) : isTemp (x ++ y) = true := by
  unfold isTemp at h ⊢
  have htake : x.toList.take 2 = ['-', '-'] := eq_of_beq h
  have hlen : 2 ≤ x.toList.length := by
    have hlen := congrArg List.length htake
    rw [List.length_take, List.length_cons, List.length_cons, List.length_nil] at hlen
    omega
  rw [String.toList_append, List.take_append_of_le_length hlen, htake]
  rfl

theorem isTemp_wLoopResVar (id : Nat) : isTemp (wLoopResVar id) = true :=
  isTemp_append (x := "--w-loop-res-") (by decide) _

theorem isTemp_nLoopCountVar (id : Nat) : isTemp (nLoopCountVar id) = true :=
  isTemp_append (x := "--vm-n-loop-count-") (by decide) _

theorem isTemp_nLoopResVar (id : Nat) : isTemp (nLoopResVar id) = true :=
  isTemp_append (x := "--vm-n-loop-res-") (by decide) _

theorem isTemp_nLoopOldVar (id : Nat) : isTemp (nLoopOldVar id) = true :=
  isTemp_append (x := "--vm-n-loop-old-") (by decide) _

theorem isTemp_loopOldVar (id : Nat) : isTemp (loopOldVar "_n" id) = true :=
  isTemp_append (x := "--vm-loop-old-" ++ "_n" ++ "-") (by decide) _

theorem isTemp_loopWasBoundVar (id : Nat) : isTemp (loopWasBoundVar "_n" id) = true :=
  isTemp_append (x := "--vm-loop-was-bound-" ++ "_n" ++ "-") (by decide) _

/-- Names of different kinds differ at a place before their numbers. -/
theorem append_ne {x y : String} (k : Nat) (hx : k < x.toList.length) (hy : k < y.toList.length)
    (h : x.toList[k]? ≠ y.toList[k]?) (u v : String) : x ++ u ≠ y ++ v := by
  intro heq
  have hlist := congrArg (·.toList[k]?) heq
  simp only [String.toList_append] at hlist
  rw [List.getElem?_append_left hx, List.getElem?_append_left hy] at hlist
  exact h hlist

theorem loopOldVar_ne_wasBound (id id' : Nat) : loopOldVar "_n" id ≠ loopWasBoundVar "_n" id' :=
  append_ne (x := "--vm-loop-old-" ++ "_n" ++ "-") (y := "--vm-loop-was-bound-" ++ "_n" ++ "-") 10
    (by decide) (by decide) (by decide) _ _

/-! ### Variables -/

namespace Scope

variable {W : Type} (σ : Scope) (s : LoopState W) (x : String)

/-- The state after the variable is assigned. -/
def store (v : Value) : LoopState W :=
  if 0 < σ.fnDepth then
    if σ.isRefDefaultName x then
      match σ.refCaptureMap x with
      | some i => s.setCapture i v
      | none => s.setGlobal x v
    else s.setLocal x v
  else s.setGlobal x v

/-- The value that was assigned last. -/
def read : Option Value :=
  if 0 < σ.fnDepth then
    if σ.isRefDefaultName x then
      match σ.refCaptureMap x with
      | some i => some (s.captures i)
      | none => s.globals x
    else some (s.locals x)
  else s.globals x

/-- The scope after the variable is assigned. -/
def bind : Scope :=
  if 0 < σ.fnDepth then
    if σ.isRefDefaultName x then σ else σ.addLocal x
  else σ

end Scope

section Variables

variable {W : Type} {ops : Ops W} {σ σ' : Scope} {s s' : LoopState W} {x y : String} {v : Value}

theorem emitStore_snd (σ : Scope) (x : String) : (emitStore σ x : LoopInst W × Scope).2 = σ.bind x := by
  unfold emitStore Scope.bind
  split
  · split
    · cases σ.refCaptureMap x <;> rfl
    · rfl
  · rfl

theorem exec_jumpIfFalse (v : Value) (s : LoopState W) (target : Nat) :
    (LoopInst.jumpIfFalse target).exec ops (s.push v) =
      match v.tryToRustBool with
      | some true => .next s
      | some false => .jump target s
      | none => .leave (.error .domain) s := rfl

theorem exec_emitStore (σ : Scope) (x : String) (s : LoopState W) (v : Value) :
    (emitStore σ x).1.exec ops (s.push v) = .next (σ.store s x v) := by
  unfold emitStore Scope.store
  split
  · split
    · cases σ.refCaptureMap x <;> rfl
    · rfl
  · rfl

theorem isRefDefaultName_temp (σ : Scope) (hx : isTemp x = true) :
    σ.isRefDefaultName x = false := by
  unfold Scope.isRefDefaultName
  rw [Bool.and_eq_false_iff]
  refine .inr (Bool.eq_false_iff.mpr fun h => ?_)
  have hnot := σ.ref_not_temp x (List.contains_iff_mem.mp h)
  rw [hx] at hnot
  cases hnot

/-- A name of the compiler's own is a local of a function or a global. -/
theorem store_temp (σ : Scope) (s : LoopState W) (hx : isTemp x = true) (v : Value) :
    σ.store s x v = if 0 < σ.fnDepth then s.setLocal x v else s.setGlobal x v := by
  unfold Scope.store
  rw [isRefDefaultName_temp σ hx, if_neg Bool.false_ne_true]

theorem read_temp (σ : Scope) (s : LoopState W) (hx : isTemp x = true) :
    σ.read s x = if 0 < σ.fnDepth then some (s.locals x) else s.globals x := by
  unfold Scope.read
  rw [isRefDefaultName_temp σ hx, if_neg Bool.false_ne_true]

theorem sameUser_store_temp (σ : Scope) (s : LoopState W) (hx : isTemp x = true) (v : Value) :
    s.SameUser (σ.store s x v) := by
  rw [store_temp σ s hx]
  split
  · exact .setLocal_temp hx v
  · exact .setGlobal_temp hx v

theorem isRefDefaultName_congr (h : σ.SameUser σ') (x : String) :
    σ.isRefDefaultName x = σ'.isRefDefaultName x := by
  unfold Scope.isRefDefaultName
  rw [h.fnDepth, h.refDefaultNames]

theorem LoopState.SameUser.store (h : s.SameUser s') (hσ : σ.SameUser σ') (x : String) (v : Value) :
    (σ.store s x v).SameUser (σ'.store s' x v) := by
  unfold Scope.store
  rw [isRefDefaultName_congr hσ, hσ.fnDepth, hσ.refCaptureMap]
  split
  · split
    · cases σ'.refCaptureMap x with
      | some i => exact h.setCapture i v
      | none => exact h.setGlobal x v
    · exact h.setLocal x v
  · exact h.setGlobal x v

theorem read_store_self (σ : Scope) (s : LoopState W) (x : String) (v : Value) :
    σ.read (σ.store s x v) x = some v := by
  unfold Scope.read Scope.store
  by_cases hfn : 0 < σ.fnDepth
  · simp only [if_pos hfn]
    by_cases href : σ.isRefDefaultName x = true
    · simp only [if_pos href]
      cases σ.refCaptureMap x with
      | some i => exact congrArg some (if_pos rfl)
      | none => exact if_pos rfl
    · simp only [if_neg href]
      exact congrArg some (if_pos rfl)
  · simp only [if_neg hfn]
    exact if_pos rfl

/-- Assigning another variable leaves a name of the compiler's own. -/
theorem read_temp_store (σ : Scope) (s : LoopState W) (hy : isTemp y = true) (hne : y ≠ x)
    (v : Value) : σ.read (σ.store s x v) y = σ.read s y := by
  rw [read_temp σ _ hy, read_temp σ _ hy]
  unfold Scope.store
  split
  · split
    · cases σ.refCaptureMap x <;> rfl
    · exact congrArg some (if_neg hne)
  · exact if_neg hne

theorem grows_bind (σ : Scope) (x : String) : σ.Grows (σ.bind x) := by
  unfold Scope.bind Scope.addLocal
  split
  · split
    · exact ⟨rfl, fun _ h => h, rfl, rfl, le_rfl⟩
    · split
      · exact ⟨rfl, fun _ h => h, rfl, rfl, le_rfl⟩
      · refine ⟨rfl, fun y hy => ?_, rfl, rfl, le_rfl⟩
        have hmem := List.contains_iff_mem.mp hy
        exact List.contains_iff_mem.mpr (List.mem_append_left _ hmem)
  · exact ⟨rfl, fun _ h => h, rfl, rfl, le_rfl⟩

/-! ### Scopes -/

theorem isLocal_addLocal (σ : Scope) (x y : String) :
    (σ.addLocal x).isLocal y = (σ.isLocal y || decide (y = x)) := by
  unfold Scope.addLocal
  by_cases hx : σ.isLocal x = true
  · rw [if_pos hx]
    by_cases hy : y = x
    · subst hy
      rw [hx, Bool.true_or]
    · rw [decide_eq_false hy, Bool.or_false]
  · rw [if_neg hx]
    show (σ.locals ++ [x]).contains y = (σ.locals.contains y || decide (y = x))
    rw [List.contains_append, List.contains_cons, List.contains_nil, Bool.or_false]
    congr 1

theorem isLocal_bind (σ : Scope) (x y : String) : (σ.bind x).isLocal y =
    (σ.isLocal y || (decide (y = x) && decide (0 < σ.fnDepth) && !σ.isRefDefaultName x)) := by
  unfold Scope.bind
  by_cases hfn : 0 < σ.fnDepth
  · rw [if_pos hfn, decide_eq_true hfn, Bool.and_true]
    by_cases href : σ.isRefDefaultName x = true
    · rw [if_pos href, href, Bool.not_true, Bool.and_false, Bool.or_false]
    · rw [if_neg href, Bool.eq_false_iff.mpr href, Bool.not_false, Bool.and_true,
        isLocal_addLocal]
  · rw [if_neg hfn, decide_eq_false hfn, Bool.and_false, Bool.false_and, Bool.or_false]

theorem Scope.SameUser.refl (σ : Scope) : σ.SameUser σ :=
  ⟨rfl, fun _ _ => rfl, rfl, rfl, rfl, rfl, rfl, rfl, rfl, rfl⟩

theorem Scope.SameUser.symm (h : σ.SameUser σ') : σ'.SameUser σ :=
  ⟨h.fnDepth.symm, fun x hx => (h.locals x hx).symm, h.definingName.symm, h.captureMap.symm,
    h.refCaptureMap.symm, h.refDefaultNames.symm, h.captures.symm, h.isolatedModule.symm,
    h.traceSymbolOperands.symm, h.hasFunction.symm⟩

theorem Scope.SameUser.trans {σ'' : Scope} (h : σ.SameUser σ') (h' : σ'.SameUser σ'') :
    σ.SameUser σ'' :=
  ⟨h.fnDepth.trans h'.fnDepth, fun x hx => (h.locals x hx).trans (h'.locals x hx),
    h.definingName.trans h'.definingName, h.captureMap.trans h'.captureMap,
    h.refCaptureMap.trans h'.refCaptureMap, h.refDefaultNames.trans h'.refDefaultNames,
    h.captures.trans h'.captures, h.isolatedModule.trans h'.isolatedModule,
    h.traceSymbolOperands.trans h'.traceSymbolOperands, h.hasFunction.trans h'.hasFunction⟩

theorem Scope.SameUser.next (h : σ.SameUser σ') : σ.SameUser σ'.next :=
  ⟨h.fnDepth, h.locals, h.definingName, h.captureMap, h.refCaptureMap, h.refDefaultNames,
    h.captures, h.isolatedModule, h.traceSymbolOperands, h.hasFunction⟩

/-- Only the locals of the scope change. -/
theorem bind_eq (σ : Scope) (x : String) : ∃ locals, σ.bind x = { σ with locals := locals } := by
  unfold Scope.bind Scope.addLocal
  split
  · split
    · exact ⟨_, rfl⟩
    · split <;> exact ⟨_, rfl⟩
  · exact ⟨_, rfl⟩

theorem Scope.SameUser.bind (h : σ.SameUser σ') (x : String) : (σ.bind x).SameUser (σ'.bind x) := by
  have hlocals : ∀ y, isTemp y = false → (σ.bind x).isLocal y = (σ'.bind x).isLocal y := by
    intro y hy
    rw [isLocal_bind, isLocal_bind, h.locals y hy, h.fnDepth, isRefDefaultName_congr h]
  obtain ⟨locals, heq⟩ := bind_eq σ x
  obtain ⟨locals', heq'⟩ := bind_eq σ' x
  rw [heq, heq'] at hlocals ⊢
  exact ⟨h.fnDepth, hlocals, h.definingName, h.captureMap, h.refCaptureMap, h.refDefaultNames,
    h.captures, h.isolatedModule, h.traceSymbolOperands, h.hasFunction⟩

theorem Scope.SameUser.bind_temp (h : σ.SameUser σ') (hx : isTemp x = true) :
    σ.SameUser (σ'.bind x) := by
  refine h.trans ?_
  have hlocals : ∀ y, isTemp y = false → σ'.isLocal y = (σ'.bind x).isLocal y := by
    intro y hy
    rw [isLocal_bind, decide_eq_false (LoopState.SameUser.ne_of_temp hx hy), Bool.false_and,
      Bool.false_and, Bool.or_false]
  obtain ⟨locals, heq⟩ := bind_eq σ' x
  rw [heq] at hlocals ⊢
  exact ⟨rfl, hlocals, rfl, rfl, rfl, rfl, rfl, rfl, rfl, rfl⟩

theorem Scope.Grows.refl (σ : Scope) : σ.Grows σ := ⟨rfl, fun _ h => h, rfl, rfl, le_rfl⟩

theorem Scope.Grows.trans {σ'' : Scope} (h : σ.Grows σ') (h' : σ'.Grows σ'') : σ.Grows σ'' :=
  ⟨h'.fnDepth.trans h.fnDepth, fun x hx => h'.locals x (h.locals x hx),
    h'.refCaptureMap.trans h.refCaptureMap, h'.refDefaultNames.trans h.refDefaultNames,
    h.gensym.trans h'.gensym⟩

theorem Scope.Grows.next (h : σ.Grows σ') : σ.Grows σ'.next :=
  ⟨h.fnDepth, h.locals, h.refCaptureMap, h.refDefaultNames, Nat.le_succ_of_le h.gensym⟩

theorem Scope.Grows.bind (h : σ.Grows σ') (x : String) : σ.Grows (σ'.bind x) :=
  h.trans (grows_bind σ' x)

theorem Scope.Grows.isRefDefaultName (h : σ.Grows σ') (x : String) :
    σ'.isRefDefaultName x = σ.isRefDefaultName x := by
  unfold Scope.isRefDefaultName
  rw [h.fnDepth, h.refDefaultNames]

/-- Variables stay where they are. -/
theorem Scope.Grows.store (h : σ.Grows σ') (s : LoopState W) (x : String) (v : Value) :
    σ'.store s x v = σ.store s x v := by
  unfold Scope.store
  rw [h.isRefDefaultName, h.fnDepth, h.refCaptureMap]

theorem Scope.Grows.read (h : σ.Grows σ') (s : LoopState W) (x : String) :
    σ'.read s x = σ.read s x := by
  unfold Scope.read
  rw [h.isRefDefaultName, h.fnDepth, h.refCaptureMap]

/-! ### Loading what was assigned -/

/-- The variable is loaded from where it is assigned. -/
def Scope.Held (σ : Scope) (x : String) : Prop :=
  σ.fnDepth = 0 ∨ (0 < σ.fnDepth ∧ σ.isLocal x = true ∧ σ.isRefDefaultName x = false) ∨
    (0 < σ.fnDepth ∧ σ.isLocal x = false ∧ σ.isRefDefaultName x = true ∧ σ.definingName ≠ some x)

/-- A variable that a function takes by reference is neither a local of it nor
the function itself. -/
def Scope.OneHome (σ : Scope) (x : String) : Prop :=
  σ.isRefDefaultName x = true → σ.isLocal x = false ∧ σ.definingName ≠ some x

theorem oneHome_temp (σ : Scope) (hx : isTemp x = true) : σ.OneHome x := by
  intro href
  rw [isRefDefaultName_temp σ hx] at href
  cases href

theorem Scope.OneHome.congr (h : σ.OneHome x) (hσ : σ.SameUser σ') (hx : isTemp x = false) :
    σ'.OneHome x := by
  intro href
  rw [← isRefDefaultName_congr hσ] at href
  rw [← hσ.locals x hx, ← hσ.definingName]
  exact h href

theorem held_bind (σ : Scope) (x : String) (h : σ.OneHome x) : (σ.bind x).Held x := by
  have hgrows := grows_bind σ x
  by_cases hfn : 0 < σ.fnDepth
  · refine .inr ?_
    cases href : σ.isRefDefaultName x with
    | false =>
      refine .inl ⟨hgrows.fnDepth ▸ hfn, ?_, (hgrows.isRefDefaultName x).trans href⟩
      rw [isLocal_bind, href, decide_eq_true rfl, decide_eq_true hfn]
      exact Bool.or_true _
    | true =>
      have hbind : σ.bind x = σ := by
        unfold Scope.bind
        rw [if_pos hfn, if_pos href]
      rw [hbind]
      exact .inr ⟨hfn, (h href).1, href, (h href).2⟩
  · refine .inl ?_
    rw [hgrows.fnDepth]
    omega

theorem held_bind_temp (σ : Scope) (hx : isTemp x = true) : (σ.bind x).Held x :=
  held_bind σ x (oneHome_temp σ hx)

theorem isLocal_bind_temp (σ : Scope) (hfn : 0 < σ.fnDepth) (hx : isTemp x = true) :
    (σ.bind x).isLocal x = true := by
  rw [isLocal_bind, decide_eq_true rfl, decide_eq_true hfn, isRefDefaultName_temp σ hx,
    Bool.true_and, Bool.true_and, Bool.not_false, Bool.or_true]

theorem Scope.Held.grows (h : σ.Held x) (hx : isTemp x = true) (hgrows : σ.Grows σ') :
    σ'.Held x := by
  rcases h with hfn | ⟨hfn, hlocal, -⟩ | ⟨-, -, href, -⟩
  · exact .inl (hgrows.fnDepth.trans hfn)
  · exact .inr (.inl ⟨hgrows.fnDepth ▸ hfn, hgrows.locals x hlocal, isRefDefaultName_temp σ' hx⟩)
  · rw [isRefDefaultName_temp σ hx] at href
    cases href

theorem emitLoad_scope (h : σ.Held x) : (emitLoad σ x : LoopInst W × Scope).2 = σ := by
  unfold emitLoad
  rcases h with hfn | ⟨hfn, hlocal, -⟩ | ⟨hfn, hlocal, href, hdef⟩
  · rw [if_neg (by omega)]
  · rw [if_pos hfn, if_pos hlocal]
  · rw [if_pos hfn, hlocal, if_neg Bool.false_ne_true, if_neg hdef, if_pos href]
    cases σ.refCaptureMap x <;> rfl

theorem operandForName_scope (h : σ.Held x) : (operandForName σ x).2 = σ := by
  unfold operandForName
  rcases h with hfn | ⟨hfn, hlocal, -⟩ | ⟨hfn, hlocal, href, hdef⟩
  · rw [if_neg (by omega)]
  · rw [if_pos hfn, if_pos hlocal]
  · rw [if_pos hfn, hlocal, if_neg Bool.false_ne_true, if_neg hdef, if_pos href]
    cases σ.refCaptureMap x <;> rfl

theorem emitLoad_held (h : σ.Held x) (hv : σ.read s x = some v) :
    (emitLoad σ x).1.exec ops s = .next (s.push v) := by
  unfold Scope.read at hv
  unfold emitLoad
  rcases h with hfn | ⟨hfn, hlocal, href⟩ | ⟨hfn, hlocal, href, hdef⟩
  · rw [if_neg (by omega)] at hv
    rw [if_neg (by omega)]
    simp only [LoopInst.exec, LoopOperand.value, hv]
  · rw [if_pos hfn, href, if_neg Bool.false_ne_true, Option.some.injEq] at hv
    rw [if_pos hfn, if_pos hlocal, ← hv]
    rfl
  · rw [if_pos hfn, if_pos href] at hv
    rw [if_pos hfn, hlocal, if_neg Bool.false_ne_true, if_neg hdef, if_pos href]
    cases hmap : σ.refCaptureMap x with
    | some i =>
      rw [hmap] at hv
      obtain rfl := Option.some.inj hv
      rfl
    | none =>
      rw [hmap] at hv
      simp only [LoopInst.exec, LoopOperand.value, hv]

theorem operandForName_held (h : σ.Held x) (hv : σ.read s x = some v) :
    (operandForName σ x).1.value ops s = .ok v := by
  unfold Scope.read at hv
  unfold operandForName
  rcases h with hfn | ⟨hfn, hlocal, href⟩ | ⟨hfn, hlocal, href, hdef⟩
  · rw [if_neg (by omega)] at hv
    rw [if_neg (by omega)]
    simp only [LoopOperand.value, hv]
  · rw [if_pos hfn, href, if_neg Bool.false_ne_true, Option.some.injEq] at hv
    rw [if_pos hfn, if_pos hlocal, ← hv]
    rfl
  · rw [if_pos hfn, if_pos href] at hv
    rw [if_pos hfn, hlocal, if_neg Bool.false_ne_true, if_neg hdef, if_pos href]
    cases hmap : σ.refCaptureMap x with
    | some i =>
      rw [hmap] at hv
      obtain rfl := Option.some.inj hv
      rfl
    | none =>
      rw [hmap] at hv
      simp only [LoopOperand.value, hv]

end Variables

/-! ### The loop variable -/

section LoopVar

variable {W : Type} (ops : Ops W)

/-- Whether a function knows the loop variable before the loop. -/
def Scope.knowsIndex (σ : Scope) : Bool :=
  σ.isLocal "_n" || σ.definingName = some "_n" || (σ.captureMap "_n").isSome ||
    (σ.refCaptureMap "_n").isSome || σ.isRefDefaultName "_n"

/-- The value of the variable where the scope loads it from. -/
def Scope.loaded (σ : Scope) (s : LoopState W) (x : String) : WqResult Value :=
  match (emitLoad σ x : LoopInst W × Scope).1 with
  | .loadLocal x => .ok (s.locals x)
  | .loadSelf => .ok s.self
  | .loadCapture i => .ok (s.captures i)
  | _ => (LoopOperand.var x).value ops s

/-- The value of the loop variable that is restored behind the loop, if any. -/
def Scope.savedIndex (σ : Scope) (s : LoopState W) : WqResult (Option Value) :=
  if σ.fnDepth = 0 then .ok (s.globals "_n")
  else if σ.knowsIndex then some <$> σ.loaded ops s "_n"
  else if σ.isolatedModule then .ok none
  else .ok (s.globals "_n")

/-- What is left on the stack where a function asks for a global it does not
know. -/
def Scope.leftover (σ : Scope) (s : LoopState W) : List Value :=
  if σ.fnDepth = 0 ∨ σ.knowsIndex = true ∨ σ.isolatedModule = true then []
  else [.bool (s.globals "_n").isSome]

/-- The names that hold what is restored. -/
def LoopVarRestore.names : LoopVarRestore → List String
  | .topLevel oldVar wasBoundVar => [oldVar, wasBoundVar]
  | .function oldVar wasBoundVar => oldVar :: wasBoundVar.toList

/-- The state holds the value to restore. -/
inductive Restores (σ : Scope) (s : LoopState W) : LoopVarRestore → Option Value → Prop
  | topLevel {oldVar wasBoundVar : String} {saved : Option Value} (hfn : σ.fnDepth = 0)
    (hwas : s.globals wasBoundVar = some (.bool saved.isSome))
    (hold : ∀ v, saved = some v → s.globals oldVar = some v) :
    Restores σ s (.topLevel oldVar wasBoundVar) saved
  | known {oldVar : String} {v : Value} (hfn : 0 < σ.fnDepth) (hlocal : σ.isLocal oldVar = true)
    (hold : s.locals oldVar = v) : Restores σ s (.function oldVar none) (some v)
  | unknown {oldVar wasBoundVar : String} {saved : Option Value} (hfn : 0 < σ.fnDepth)
    (hlocal : σ.isLocal oldVar = true) (hlocal' : σ.isLocal wasBoundVar = true)
    (hwas : s.locals wasBoundVar = .bool saved.isSome)
    (hold : ∀ v, saved = some v → s.locals oldVar = v) :
    Restores σ s (.function oldVar (some wasBoundVar)) saved

variable {ops} {code : List (LoopInst W)} {σ σ' : Scope} {base : Nat} {s s' : LoopState W}
  {r : LoopVarRestore} {saved : Option Value}

theorem Restores.keeps (h : Restores σ s r saved) (hgrows : σ.Grows σ')
    (hkeeps : ∀ x ∈ r.names, s'.locals x = s.locals x ∧ s'.globals x = s.globals x) :
    Restores σ' s' r saved := by
  cases h with
  | topLevel hfn hwas hold =>
    have hkeeps₁ := (hkeeps _ (List.mem_cons_self ..)).2
    have hkeeps₂ := (hkeeps _ (List.mem_cons_of_mem _ (List.mem_cons_self ..))).2
    exact .topLevel (hgrows.fnDepth.trans hfn) (hkeeps₂.trans hwas) fun v hv =>
      hkeeps₁.trans (hold v hv)
  | known hfn hlocal hold =>
    have hkeeps₁ := (hkeeps _ (List.mem_cons_self ..)).1
    exact .known (hgrows.fnDepth ▸ hfn) (hgrows.locals _ hlocal) (hkeeps₁.trans hold)
  | unknown hfn hlocal hlocal' hwas hold =>
    have hkeeps₁ := (hkeeps _ (List.mem_cons_self ..)).1
    have hkeeps₂ := (hkeeps _ (List.mem_cons_of_mem _ (List.mem_cons_self ..))).1
    exact .unknown (hgrows.fnDepth ▸ hfn) (hgrows.locals _ hlocal) (hgrows.locals _ hlocal')
      (hkeeps₂.trans hwas) fun v hv => hkeeps₁.trans (hold v hv)

/-- A function loads its locals. -/
theorem emitLoad_local (hfn : 0 < σ.fnDepth) {x : String} (hlocal : σ.isLocal x = true) :
    (emitLoad σ x : LoopInst W × Scope) = (.loadLocal x, σ) := by
  unfold emitLoad
  rw [if_pos hfn, if_pos hlocal]

theorem emitLoad_topLevel (hfn : σ.fnDepth = 0) (x : String) :
    (emitLoad σ x : LoopInst W × Scope) = (.loadVar x, σ) := by
  unfold emitLoad
  rw [if_neg (by omega)]

open LoopRun

/-- The state behind the loop: the loop variable is restored. -/
def Scope.restored (σ : Scope) (s : LoopState W) : Option Value → LoopState W
  | some v => σ.store s "_n" v
  | none => s

theorem finish_runs (hcode : CodeAt code base (finishLoopVarRestore σ base "_n" r).1)
    (h : Restores σ s r saved) :
    ∃ n, (machine ops code).Steps n (at_ base s)
      (at_ (base + (finishLoopVarRestore σ base "_n" r : List (LoopInst W) × Scope).1.length)
        (σ.restored s saved)) := by
  cases h with
  | @topLevel oldVar wasBoundVar saved hfn hwas hold =>
    simp only [finishLoopVarRestore, emitLoad_topLevel hfn] at hcode ⊢
    have h0 := hcode 0 _ rfl
    have h1 := hcode 1 _ rfl
    have h2 := hcode 2 _ rfl
    have h3 := hcode 3 _ rfl
    have hload : (LoopInst.loadVar wasBoundVar).exec ops s = .next (s.push (.bool saved.isSome)) := by
      simp only [LoopInst.exec, LoopOperand.value, hwas]
    have hsteps := steps_next h0 hload
    cases saved with
    | none =>
      exact ⟨_, hsteps.trans (steps_jump h1 rfl)⟩
    | some v =>
      have hload' : (LoopInst.loadVar oldVar).exec ops s = .next (s.push v) := by
        simp only [LoopInst.exec, LoopOperand.value, hold v rfl]
      have hstore : (LoopInst.storeVar "_n").exec ops (s.push v) = .next (σ.store s "_n" v) := by
        unfold Scope.store
        rw [if_neg (by omega)]
        rfl
      exact ⟨_, ((hsteps.trans (steps_next h1 rfl)).trans (steps_next h2 hload')).trans
        (steps_next h3 hstore)⟩
  | @known oldVar v hfn hlocal hold =>
    simp only [finishLoopVarRestore, emitLoad_local hfn hlocal] at hcode ⊢
    have h0 := hcode 0 _ rfl
    have h1 := hcode 1 _ rfl
    have hload : (LoopInst.loadLocal oldVar).exec ops s = .next (s.push v) := by
      rw [← hold]
      rfl
    exact ⟨_, (steps_next h0 hload).trans (steps_next h1 (exec_emitStore σ "_n" s v))⟩
  | @unknown oldVar wasBoundVar saved hfn hlocal hlocal' hwas hold =>
    simp only [finishLoopVarRestore, emitLoad_local hfn hlocal, emitLoad_local hfn hlocal'] at hcode ⊢
    have h0 := hcode 0 _ rfl
    have h1 := hcode 1 _ rfl
    have h2 := hcode 2 _ rfl
    have h3 := hcode 3 _ rfl
    have hload : (LoopInst.loadLocal wasBoundVar).exec ops s =
        .next (s.push (.bool saved.isSome)) := by
      rw [← hwas]
      rfl
    have hsteps := steps_next h0 hload
    cases saved with
    | none => exact ⟨_, hsteps.trans (steps_jump h1 rfl)⟩
    | some v =>
      have hload' : (LoopInst.loadLocal oldVar).exec ops s = .next (s.push v) := by
        rw [← hold v rfl]
        rfl
      exact ⟨_, ((hsteps.trans (steps_next h1 rfl)).trans (steps_next h2 hload')).trans
        (steps_next h3 (exec_emitStore σ "_n" s v))⟩

/-! ### The code before a loop -/

theorem emitStore_topLevel (hfn : σ.fnDepth = 0) (x : String) :
    (emitStore σ x : LoopInst W × Scope) = (.storeVar x, σ) := by
  unfold emitStore
  rw [if_neg (by omega)]

theorem emitStoreKeep_topLevel (hfn : σ.fnDepth = 0) (x : String) :
    (emitStoreKeep σ x : LoopInst W × Scope) = (.storeVarKeep x, σ) := by
  unfold emitStoreKeep
  rw [if_neg (by omega)]

theorem emitStore_function (hfn : 0 < σ.fnDepth) {x : String} (hx : isTemp x = true) :
    (emitStore σ x : LoopInst W × Scope) = (.storeLocal x, σ.bind x) := by
  unfold emitStore Scope.bind
  rw [if_pos hfn, if_pos hfn, isRefDefaultName_temp σ hx, if_neg Bool.false_ne_true,
    if_neg Bool.false_ne_true]

theorem emitStoreKeep_function (hfn : 0 < σ.fnDepth) {x : String} (hx : isTemp x = true) :
    (emitStoreKeep σ x : LoopInst W × Scope) = (.storeLocalKeep x, σ.bind x) := by
  unfold emitStoreKeep Scope.bind
  rw [if_pos hfn, if_pos hfn, isRefDefaultName_temp σ hx, if_neg Bool.false_ne_true,
    if_neg Bool.false_ne_true]

/-- A variable of the program is loaded by one of four instructions. -/
theorem emitLoad_cases (σ : Scope) (x : String) :
    (emitLoad σ x : LoopInst W × Scope).1 = .loadLocal x ∨
      (emitLoad σ x : LoopInst W × Scope).1 = .loadSelf ∨
      (∃ i, (emitLoad σ x : LoopInst W × Scope).1 = .loadCapture i) ∨
      (emitLoad σ x : LoopInst W × Scope).1 = .loadVar x := by
  unfold emitLoad
  split
  · split
    · exact .inl rfl
    · split
      · exact .inr (.inl rfl)
      · split
        · cases σ.refCaptureMap x with
          | some i => exact .inr (.inr (.inl ⟨i, rfl⟩))
          | none => exact .inr (.inr (.inr rfl))
        · cases σ.captureMap x with
          | some i => exact .inr (.inr (.inl ⟨i, rfl⟩))
          | none =>
            dsimp only
            split
            · exact .inr (.inr (.inr rfl))
            · exact .inr (.inr (.inl ⟨_, rfl⟩))
  · exact .inr (.inr (.inr rfl))

theorem exec_emitLoad (ops : Ops W) (σ : Scope) (x : String) (s : LoopState W) :
    (emitLoad σ x).1.exec ops s =
      match σ.loaded ops s x with
      | .ok v => .next (s.push v)
      | .error e => .leave (.error e) s := by
  unfold Scope.loaded
  rcases emitLoad_cases (W := W) σ x with h | h | ⟨i, h⟩ | h
  all_goals
    rw [h]
    rfl

theorem emitLoad_congr (h : σ.SameUser σ') {x : String} (hx : isTemp x = false) :
    (emitLoad σ x : LoopInst W × Scope).1 = (emitLoad σ' x : LoopInst W × Scope).1 ∧
      (emitLoad σ x : LoopInst W × Scope).2.SameUser (emitLoad σ' x : LoopInst W × Scope).2 := by
  unfold emitLoad
  rw [h.fnDepth, h.locals x hx, h.definingName, isRefDefaultName_congr h, h.refCaptureMap,
    h.captureMap, h.hasFunction, h.captures]
  split
  · split
    · exact ⟨rfl, h⟩
    · split
      · exact ⟨rfl, h⟩
      · split
        · cases σ'.refCaptureMap x <;> exact ⟨rfl, h⟩
        · cases σ'.captureMap x with
          | some i => exact ⟨rfl, h⟩
          | none =>
            dsimp only
            split
            · exact ⟨rfl, h⟩
            · refine ⟨rfl, h.fnDepth, h.locals, h.definingName, ?_, h.refCaptureMap,
                h.refDefaultNames, ?_, h.isolatedModule, h.traceSymbolOperands, h.hasFunction⟩
              · show (fun y => if y = x then some σ.captures else σ.captureMap y) =
                  fun y => if y = x then some σ'.captures else σ'.captureMap y
                rw [h.captures, h.captureMap]
              · exact congrArg (· + 1) h.captures
  · exact ⟨rfl, h⟩

theorem grows_emitLoad (σ : Scope) (x : String) :
    σ.Grows (emitLoad σ x : LoopInst W × Scope).2 := by
  have hcapture : σ.Grows (σ.captureGlobal x) := ⟨rfl, fun _ h => h, rfl, rfl, le_rfl⟩
  unfold emitLoad
  split
  · split
    · exact .refl σ
    · split
      · exact .refl σ
      · split
        · cases σ.refCaptureMap x <;> exact .refl σ
        · cases σ.captureMap x with
          | some i => exact .refl σ
          | none =>
            dsimp only
            split
            · exact .refl σ
            · exact hcapture
  · exact .refl σ

theorem loaded_congr (h : σ.SameUser σ') (hs : s.SameUser s') {x : String}
    (hx : isTemp x = false) : σ.loaded ops s x = σ'.loaded ops s' x := by
  unfold Scope.loaded
  rw [(emitLoad_congr (W := W) h hx).1]
  rcases emitLoad_cases (W := W) σ' x with heq | heq | ⟨i, heq⟩ | heq
  · rw [heq]
    exact congrArg Except.ok (hs.locals x hx)
  · rw [heq]
    exact congrArg Except.ok hs.self
  · rw [heq]
    exact congrArg (fun c => Except.ok (c i)) hs.captures
  · rw [heq]
    simp only [LoopOperand.value, hs.globals x hx]

theorem begin_topLevel (hfn : σ.fnDepth = 0) (base : Nat) :
    (beginLoopVarRestore σ base "_n" : List (LoopInst W) × LoopVarRestore × Scope) =
      ([.loadVarExists "_n", .storeVarKeep (loopWasBoundVar "_n" σ.gensym),
        .jumpIfFalse (base + 5), .loadVar "_n", .storeVar (loopOldVar "_n" σ.gensym)],
        .topLevel (loopOldVar "_n" σ.gensym) (loopWasBoundVar "_n" σ.gensym), σ.next) := by
  have hnext : σ.next.fnDepth = 0 := hfn
  unfold beginLoopVarRestore
  simp only [hnext, if_true, emitStoreKeep_topLevel hnext, emitStore_topLevel hnext]

theorem begin_known (hfn : 0 < σ.fnDepth) (hknows : σ.knowsIndex = true) (base : Nat) :
    (beginLoopVarRestore σ base "_n" : List (LoopInst W) × LoopVarRestore × Scope) =
      let old := loopOldVar "_n" σ.gensym
      let load : LoopInst W × Scope := emitLoad (σ.next.bind old) "_n"
      ([.loadConst Value.emptyList, .storeLocal old, load.1, .storeLocal old],
        .function old none, load.2.bind old) := by
  have hnext : 0 < σ.next.fnDepth := hfn
  have hne : σ.next.fnDepth ≠ 0 := Nat.ne_of_gt hnext
  have hload : 0 < (emitLoad (σ.next.bind (loopOldVar "_n" σ.gensym)) "_n" :
      LoopInst W × Scope).2.fnDepth := by
    rw [(grows_emitLoad _ _).fnDepth, (grows_bind _ _).fnDepth]
    exact hnext
  have hknows' : σ.next.knowsIndex = true := hknows
  unfold Scope.knowsIndex at hknows'
  unfold beginLoopVarRestore
  simp only [hne, if_false, hknows', if_true, emitStore_function hnext (isTemp_loopOldVar _),
    emitStore_function hload (isTemp_loopOldVar _)]

theorem begin_isolated (hfn : 0 < σ.fnDepth) (hknows : σ.knowsIndex = false)
    (hisolated : σ.isolatedModule = true) (base : Nat) :
    (beginLoopVarRestore σ base "_n" : List (LoopInst W) × LoopVarRestore × Scope) =
      let old := loopOldVar "_n" σ.gensym
      let was := loopWasBoundVar "_n" σ.gensym
      ([.loadConst (.bool false), .storeLocal was, .loadConst Value.emptyList, .storeLocal old],
        .function old (some was), (σ.next.bind was).bind old) := by
  have hnext : 0 < σ.next.fnDepth := hfn
  have hne : σ.next.fnDepth ≠ 0 := Nat.ne_of_gt hnext
  have hbind : ∀ x, 0 < (σ.next.bind x).fnDepth := fun x => by
    rw [(grows_bind _ _).fnDepth]
    exact hnext
  have hknows' : σ.next.knowsIndex = false := hknows
  have hisolated' : σ.next.isolatedModule = true := hisolated
  unfold Scope.knowsIndex at hknows'
  unfold beginLoopVarRestore
  simp only [hne, if_false, hknows', Bool.false_eq_true, hisolated', if_true,
    emitStore_function hnext (isTemp_loopWasBoundVar _),
    emitStore_function (hbind _) (isTemp_loopOldVar _)]

theorem begin_unknown (hfn : 0 < σ.fnDepth) (hknows : σ.knowsIndex = false)
    (hisolated : σ.isolatedModule = false) (base : Nat) :
    (beginLoopVarRestore σ base "_n" : List (LoopInst W) × LoopVarRestore × Scope) =
      let old := loopOldVar "_n" σ.gensym
      let was := loopWasBoundVar "_n" σ.gensym
      ([.loadVarExists "_n", .storeLocalKeep was, .loadConst Value.emptyList, .storeLocal old,
        .loadVarExists "_n", .jumpIfFalse (base + 8), .loadVar "_n", .storeLocal old],
        .function old (some was), ((σ.next.bind was).bind old).bind old) := by
  have hnext : 0 < σ.next.fnDepth := hfn
  have hne : σ.next.fnDepth ≠ 0 := Nat.ne_of_gt hnext
  have hbind : ∀ x, 0 < (σ.next.bind x).fnDepth := fun x => by
    rw [(grows_bind _ _).fnDepth]
    exact hnext
  have hbind' : ∀ x y, 0 < ((σ.next.bind x).bind y).fnDepth := fun x y => by
    rw [(grows_bind _ _).fnDepth]
    exact hbind x
  have hknows' : σ.next.knowsIndex = false := hknows
  have hisolated' : σ.next.isolatedModule = false := hisolated
  unfold Scope.knowsIndex at hknows'
  unfold beginLoopVarRestore
  simp only [hne, if_false, hknows', Bool.false_eq_true, hisolated',
    emitStoreKeep_function hnext (isTemp_loopWasBoundVar _),
    emitStore_function (hbind _) (isTemp_loopOldVar _),
    emitStore_function (hbind' _ _) (isTemp_loopOldVar _)]

/-- What the code before a loop leaves. -/
structure Begun (σ σ' : Scope) (s s' : LoopState W) (r : LoopVarRestore) (saved : Option Value) :
    Prop where
  user : LoopState.SameUser { s with stack := σ.leftover s ++ s.stack } s'
  restores : Restores σ' s' r saved
  keeps : ∀ x ∉ r.names, s'.locals x = s.locals x ∧ s'.globals x = s.globals x
  grows : σ.Grows σ'

/-- The code before a loop saves the loop variable, or fails to load it. -/
def Begins (ops : Ops W) (code : List (LoopInst W)) (σ : Scope) (base : Nat) (s : LoopState W) :
    Prop :=
  match σ.savedIndex ops s, (beginLoopVarRestore σ base "_n" :
      List (LoopInst W) × LoopVarRestore × Scope) with
  | .ok saved, (part, r, σ') => ∃ n s', (machine ops code).Steps n (at_ base s)
      (at_ (base + part.length) s') ∧ Begun σ σ' s s' r saved
  | .error e, _ => ∃ n s', (machine ops code).Steps n (at_ base s)
      (ended (.left (.error e) s')) ∧ s.SameUser s'

theorem setGlobal_ne (s : LoopState W) {x y : String} (h : y ≠ x) (v : Value) :
    (s.setGlobal x v).globals y = s.globals y := if_neg h

theorem setGlobal_self (s : LoopState W) (x : String) (v : Value) :
    (s.setGlobal x v).globals x = some v := if_pos rfl

theorem setLocal_ne (s : LoopState W) {x y : String} (h : y ≠ x) (v : Value) :
    (s.setLocal x v).locals y = s.locals y := if_neg h

theorem setLocal_self (s : LoopState W) (x : String) (v : Value) :
    (s.setLocal x v).locals x = v := if_pos rfl

theorem index_ne_temp {x : String} (hx : isTemp x = true) : "_n" ≠ x :=
  LoopState.SameUser.ne_of_temp hx isTemp_index

section Begin

variable (hcode : CodeAt code base (beginLoopVarRestore σ base "_n" :
  List (LoopInst W) × LoopVarRestore × Scope).1)
include hcode

theorem begins_topLevel (hfn : σ.fnDepth = 0) (s : LoopState W) : Begins ops code σ base s := by
  have hsaved : σ.savedIndex ops s = .ok (s.globals "_n") := if_pos hfn
  have hleft : σ.leftover s = [] := if_pos (.inl hfn)
  unfold Begins
  rw [begin_topLevel hfn] at hcode
  rw [hsaved, begin_topLevel hfn]
  dsimp only at hcode ⊢
  generalize hold : loopOldVar "_n" σ.gensym = old at hcode ⊢
  generalize hwas : loopWasBoundVar "_n" σ.gensym = was at hcode ⊢
  have hold_temp : isTemp old = true := hold ▸ isTemp_loopOldVar _
  have hwas_temp : isTemp was = true := hwas ▸ isTemp_loopWasBoundVar _
  have hne : old ≠ was := hold ▸ hwas ▸ loopOldVar_ne_wasBound _ _
  generalize hbound : s.globals "_n" = bound
  have h0 := hcode 0 _ rfl
  have h1 := hcode 1 _ rfl
  have h2 := hcode 2 _ rfl
  have h3 := hcode 3 _ rfl
  have h4 := hcode 4 _ rfl
  have hexists : (LoopInst.loadVarExists "_n").exec ops s = .next (s.push (.bool bound.isSome)) := by
    rw [← hbound]
    rfl
  have hsteps := (steps_next h0 hexists).trans (steps_next h1 rfl)
  have hgrows : σ.Grows σ.next := (Scope.Grows.refl σ).next
  cases bound with
  | none =>
    refine ⟨_, _, hsteps.trans (steps_jump h2 rfl), ?_, ?_, fun x hx => ⟨rfl, ?_⟩, hgrows⟩
    · rw [hleft]
      exact .setGlobal_temp hwas_temp _
    · exact .topLevel hfn (setGlobal_self ..) nofun
    · have hx : x ≠ was := fun heq => hx (heq ▸ List.mem_cons_of_mem _ (List.mem_cons_self ..))
      exact setGlobal_ne _ hx _
  | some v =>
    have hload : (LoopInst.loadVar "_n").exec ops (s.setGlobal was (.bool true)) =
        .next ((s.setGlobal was (.bool true)).push v) := by
      have hglobal : (s.setGlobal was (.bool true)).globals "_n" = some v :=
        (setGlobal_ne s (index_ne_temp hwas_temp) _).trans hbound
      simp only [LoopInst.exec, LoopOperand.value, hglobal]
    refine ⟨_, _, ((hsteps.trans (steps_next h2 rfl)).trans (steps_next h3 hload)).trans
      (steps_next h4 rfl), ?_, ?_, fun x hx => ⟨rfl, ?_⟩, hgrows⟩
    · rw [hleft]
      exact (LoopState.SameUser.setGlobal_temp hwas_temp _).trans (.setGlobal_temp hold_temp _)
    · refine .topLevel hfn ?_ fun w hw => ?_
      · exact (setGlobal_ne _ hne.symm _).trans (setGlobal_self ..)
      · cases hw
        exact setGlobal_self ..
    · have hx₁ : x ≠ old := fun heq => hx (heq ▸ List.mem_cons_self ..)
      have hx₂ : x ≠ was := fun heq =>
        hx (heq ▸ List.mem_cons_of_mem _ (List.mem_cons_self ..))
      exact (setGlobal_ne _ hx₁ _).trans (setGlobal_ne _ hx₂ _)

theorem begins_known (hfn : 0 < σ.fnDepth) (hknows : σ.knowsIndex = true) (s : LoopState W) :
    Begins ops code σ base s := by
  have hsaved : σ.savedIndex ops s = some <$> σ.loaded ops s "_n" := by
    unfold Scope.savedIndex
    rw [if_neg (Nat.ne_of_gt hfn), if_pos hknows]
  have hleft : σ.leftover s = [] := if_pos (.inr (.inl hknows))
  unfold Begins
  rw [begin_known hfn hknows] at hcode
  rw [hsaved, begin_known hfn hknows]
  dsimp only at hcode ⊢
  generalize hold : loopOldVar "_n" σ.gensym = old at hcode ⊢
  have hold_temp : isTemp old = true := hold ▸ isTemp_loopOldVar _
  have hscope : σ.SameUser (σ.next.bind old) := (Scope.SameUser.refl σ).next.bind_temp hold_temp
  have hgrows : σ.Grows (σ.next.bind old) := (Scope.Grows.refl σ).next.bind old
  have hstate : s.SameUser (s.setLocal old Value.emptyList) := .setLocal_temp hold_temp _
  have h0 := hcode 0 _ rfl
  have h1 := hcode 1 _ rfl
  have h2 := hcode 2 _ rfl
  have h3 := hcode 3 _ rfl
  have hsteps : (machine ops code).Steps 2 (at_ base s)
      (at_ (base + 2) (s.setLocal old Value.emptyList)) :=
    (steps_next h0 rfl).trans (steps_next h1 rfl)
  have hload := exec_emitLoad ops (σ.next.bind old) "_n" (s.setLocal old Value.emptyList)
  rw [← loaded_congr hscope hstate isTemp_index] at hload
  cases hvalue : σ.loaded ops s "_n" with
  | error e =>
    rw [hvalue] at hload
    exact ⟨_, _, hsteps.trans (steps_leave h2 hload), hstate⟩
  | ok v =>
    rw [hvalue] at hload
    have hgrows' : σ.Grows ((emitLoad (σ.next.bind old) "_n" : LoopInst W × Scope).2.bind old) :=
      (hgrows.trans (grows_emitLoad _ _)).bind old
    refine ⟨_, _, (hsteps.trans (steps_next h2 hload)).trans (steps_next h3 rfl), ?_, ?_,
      fun x hx => ⟨?_, rfl⟩, hgrows'⟩
    · rw [hleft]
      exact hstate.trans (.setLocal_temp hold_temp _)
    · refine .known (hgrows'.fnDepth ▸ hfn) (isLocal_bind_temp _ ?_ hold_temp) (setLocal_self ..)
      rw [(hgrows.trans (grows_emitLoad _ _)).fnDepth]
      exact hfn
    · have hx : x ≠ old := fun heq => hx (heq ▸ List.mem_cons_self ..)
      exact (setLocal_ne _ hx _).trans (setLocal_ne _ hx _)

theorem begins_isolated (hfn : 0 < σ.fnDepth) (hknows : σ.knowsIndex = false)
    (hisolated : σ.isolatedModule = true) (s : LoopState W) : Begins ops code σ base s := by
  have hsaved : σ.savedIndex ops s = .ok none := by
    unfold Scope.savedIndex
    rw [if_neg (Nat.ne_of_gt hfn), hknows, if_neg Bool.false_ne_true, if_pos hisolated]
  have hleft : σ.leftover s = [] := if_pos (.inr (.inr hisolated))
  unfold Begins
  rw [begin_isolated hfn hknows hisolated] at hcode
  rw [hsaved, begin_isolated hfn hknows hisolated]
  dsimp only at hcode ⊢
  generalize hold : loopOldVar "_n" σ.gensym = old at hcode ⊢
  generalize hwas : loopWasBoundVar "_n" σ.gensym = was at hcode ⊢
  have hold_temp : isTemp old = true := hold ▸ isTemp_loopOldVar _
  have hwas_temp : isTemp was = true := hwas ▸ isTemp_loopWasBoundVar _
  have hne : old ≠ was := hold ▸ hwas ▸ loopOldVar_ne_wasBound _ _
  have h0 := hcode 0 _ rfl
  have h1 := hcode 1 _ rfl
  have h2 := hcode 2 _ rfl
  have h3 := hcode 3 _ rfl
  have hgrows : σ.Grows (σ.next.bind was) := (Scope.Grows.refl σ).next.bind was
  have hgrows' : σ.Grows ((σ.next.bind was).bind old) := hgrows.bind old
  refine ⟨_, _, (((steps_next h0 rfl).trans (steps_next h1 rfl)).trans (steps_next h2 rfl)).trans
    (steps_next h3 rfl), ?_, ?_, fun x hx => ⟨?_, rfl⟩, hgrows'⟩
  · rw [hleft]
    exact (LoopState.SameUser.setLocal_temp hwas_temp _).trans (.setLocal_temp hold_temp _)
  · refine .unknown (hgrows'.fnDepth ▸ hfn) (isLocal_bind_temp _ (hgrows.fnDepth ▸ hfn) hold_temp)
      ?_ ?_ nofun
    · exact (grows_bind _ _).locals _ (isLocal_bind_temp _ hfn hwas_temp)
    · exact (setLocal_ne _ hne.symm _).trans (setLocal_self ..)
  · have hx₁ : x ≠ old := fun heq => hx (heq ▸ List.mem_cons_self ..)
    have hx₂ : x ≠ was := fun heq => hx (heq ▸ List.mem_cons_of_mem _ (List.mem_cons_self ..))
    exact (setLocal_ne _ hx₁ _).trans (setLocal_ne _ hx₂ _)

theorem begins_unknown (hfn : 0 < σ.fnDepth) (hknows : σ.knowsIndex = false)
    (hisolated : σ.isolatedModule = false) (s : LoopState W) : Begins ops code σ base s := by
  have hsaved : σ.savedIndex ops s = .ok (s.globals "_n") := by
    unfold Scope.savedIndex
    rw [if_neg (Nat.ne_of_gt hfn), hknows, if_neg Bool.false_ne_true, hisolated,
      if_neg Bool.false_ne_true]
  have hleft : σ.leftover s = [.bool (s.globals "_n").isSome] := by
    unfold Scope.leftover
    rw [hknows, hisolated, if_neg]
    rintro (h | h | h)
    · omega
    · cases h
    · cases h
  unfold Begins
  rw [begin_unknown hfn hknows hisolated] at hcode
  rw [hsaved, begin_unknown hfn hknows hisolated]
  dsimp only at hcode ⊢
  generalize hold : loopOldVar "_n" σ.gensym = old at hcode ⊢
  generalize hwas : loopWasBoundVar "_n" σ.gensym = was at hcode ⊢
  have hold_temp : isTemp old = true := hold ▸ isTemp_loopOldVar _
  have hwas_temp : isTemp was = true := hwas ▸ isTemp_loopWasBoundVar _
  have hne : old ≠ was := hold ▸ hwas ▸ loopOldVar_ne_wasBound _ _
  generalize hbound : s.globals "_n" = bound at hleft ⊢
  have h0 := hcode 0 _ rfl
  have h1 := hcode 1 _ rfl
  have h2 := hcode 2 _ rfl
  have h3 := hcode 3 _ rfl
  have h4 := hcode 4 _ rfl
  have h5 := hcode 5 _ rfl
  have h6 := hcode 6 _ rfl
  have h7 := hcode 7 _ rfl
  have hexists : ∀ t : LoopState W, t.globals "_n" = bound →
      (LoopInst.loadVarExists "_n").exec ops t = .next (t.push (.bool bound.isSome)) := by
    intro t ht
    rw [← ht]
    rfl
  have hgrows : σ.Grows (σ.next.bind was) := (Scope.Grows.refl σ).next.bind was
  have hgrows' : σ.Grows (((σ.next.bind was).bind old).bind old) := (hgrows.bind old).bind old
  have hlocal : (((σ.next.bind was).bind old).bind old).isLocal old = true :=
    isLocal_bind_temp _ ((hgrows.bind old).fnDepth ▸ hfn) hold_temp
  have hlocal' : (((σ.next.bind was).bind old).bind old).isLocal was = true :=
    (grows_bind _ _).locals _ ((grows_bind _ _).locals _ (isLocal_bind_temp _ hfn hwas_temp))
  have hsteps := (((steps_next h0 (hexists s hbound)).trans (steps_next h1 rfl)).trans
    (steps_next h2 rfl)).trans (steps_next h3 rfl)
  have hsteps' := hsteps.trans (steps_next h4 (hexists _ hbound))
  have hkeeps : ∀ x ∉ (LoopVarRestore.function old (some was)).names, x ≠ old ∧ x ≠ was :=
    fun x hx => ⟨fun heq => hx (heq ▸ List.mem_cons_self ..),
      fun heq => hx (heq ▸ List.mem_cons_of_mem _ (List.mem_cons_self ..))⟩
  cases bound with
  | none =>
    refine ⟨_, _, hsteps'.trans (steps_jump h5 rfl), ?_, ?_, fun x hx => ⟨?_, rfl⟩, hgrows'⟩
    · rw [hleft]
      exact (LoopState.SameUser.setLocal_temp hwas_temp _).trans (.setLocal_temp hold_temp _)
    · refine .unknown (hgrows'.fnDepth ▸ hfn) hlocal hlocal' ?_ nofun
      exact (setLocal_ne _ hne.symm _).trans (setLocal_self ..)
    · exact (setLocal_ne _ (hkeeps x hx).1 _).trans (setLocal_ne _ (hkeeps x hx).2 _)
  | some v =>
    have hload : ∀ t : LoopState W, t.globals "_n" = some v →
        (LoopInst.loadVar "_n").exec ops t = .next (t.push v) := by
      intro t ht
      simp only [LoopInst.exec, LoopOperand.value, ht]
    refine ⟨_, _, ((hsteps'.trans (steps_next h5 rfl)).trans (steps_next h6 (hload _ hbound))).trans
      (steps_next h7 rfl), ?_, ?_, fun x hx => ⟨?_, rfl⟩, hgrows'⟩
    · rw [hleft]
      exact ((LoopState.SameUser.setLocal_temp hwas_temp _).trans
        (.setLocal_temp hold_temp _)).trans (.setLocal_temp hold_temp _)
    · refine .unknown (hgrows'.fnDepth ▸ hfn) hlocal hlocal' ?_ fun w hw => ?_
      · exact (setLocal_ne _ hne.symm _).trans
          ((setLocal_ne _ hne.symm _).trans (setLocal_self ..))
      · cases hw
        exact setLocal_self ..
    · have hx := hkeeps x hx
      exact (setLocal_ne _ hx.1 _).trans ((setLocal_ne _ hx.1 _).trans (setLocal_ne _ hx.2 _))

/-- **Before a loop** its variable is saved. -/
theorem begin_runs (s : LoopState W) : Begins ops code σ base s := by
  by_cases hfn : σ.fnDepth = 0
  · exact begins_topLevel hcode hfn s
  have hpos : 0 < σ.fnDepth := Nat.pos_of_ne_zero hfn
  cases hknows : σ.knowsIndex with
  | true => exact begins_known hcode hpos hknows s
  | false =>
    cases hisolated : σ.isolatedModule with
    | true => exact begins_isolated hcode hpos hknows hisolated s
    | false => exact begins_unknown hcode hpos hknows hisolated s

end Begin

end LoopVar

end Wqpl
