/-
# Loops in their forms

Two forms of a loop agree from a state when both end or neither does, and what
they leave is the same: the value if it is needed, the rest of the stack, the
variables of the program as the code behind the loop reads them, and the
world. The W-loop with a constant body agrees with the general one unless its
body never runs (`constWLoop_agrees_iff`); the N-loop that keeps its index in
slots agrees with the one that does not (`slotNLoop_agrees`).
-/
import Wqpl.Loop.Run

namespace Wqpl

open LoopRun

/-! ### What is left behind a loop -/

section

variable {W : Type} (ops : Ops W)

structure SameAfter (needed : Bool) (σ σ' : Scope) (s s' : LoopState W) : Prop where
  value : needed = true → s.stack.head? = s'.stack.head?
  stack : s.stack.tail = s'.stack.tail
  captures : s.captures = s'.captures
  self : s.self = s'.self
  globals : ∀ x, isTemp x = false → s.globals x = s'.globals x
  bindings : ∀ x, isTemp x = false → σ.loaded ops s x = σ'.loaded ops s' x
  world : s.world = s'.world

/-- The ends of two forms of a loop; the code behind them is compiled in the
scopes. -/
inductive LoopEnd.Same (needed : Bool) (σ σ' : Scope) : LoopEnd W → LoopEnd W → Prop
  | done {s s' : LoopState W} (h : SameAfter ops needed σ σ' s s') :
    Same needed σ σ' (.done s) (.done s')
  | left (x : Leave) {s s' : LoopState W} (h : s.SameUser s') :
    Same needed σ σ' (.left x s) (.left x s')

/-- The two forms of a loop agree from the state. -/
def LoopsAgree (needed : Bool) (p p' : List (LoopInst W) × Scope) (s : LoopState W) : Prop :=
  Machine.Alike (machine ops p.1) (machine ops p'.1) (LoopEnd.Same ops needed p.2 p'.2) (at_ 0 s)
    (at_ 0 s)

variable {ops} {needed : Bool} {σ σ' : Scope} {s s' : LoopState W}

/-- What is loaded does not depend on the stack. -/
theorem loaded_push (σ : Scope) (s : LoopState W) (v : Value) (x : String) :
    σ.loaded ops (s.push v) x = σ.loaded ops s x := by
  unfold Scope.loaded
  rcases emitLoad_cases (W := W) σ x with h | h | ⟨i, h⟩ | h
  all_goals
    rw [h]
    rfl

theorem SameAfter.push (hs : s.SameUser s') (hσ : σ.SameUser σ') {v v' : Value}
    (hv : needed = true → v = v') : SameAfter ops needed σ σ' (s.push v) (s'.push v') where
  value h := congrArg some (hv h)
  stack := hs.stack
  captures := hs.captures
  self := hs.self
  globals := hs.globals
  bindings x hx := by
    rw [loaded_push, loaded_push]
    exact loaded_congr hσ hs hx
  world := hs.world

theorem SameAfter.refl (needed : Bool) (σ : Scope) (s : LoopState W) :
    SameAfter ops needed σ σ s s :=
  ⟨fun _ => rfl, rfl, rfl, rfl, fun _ _ => rfl, fun _ _ => rfl, rfl⟩

theorem LoopsAgree.refl (needed : Bool) (p : List (LoopInst W) × Scope) (s : LoopState W) :
    LoopsAgree ops needed p p s := by
  have hself : ∀ r : LoopEnd W, LoopEnd.Same ops needed p.2 p.2 r r := by
    rintro (s | ⟨x, s⟩)
    · exact .done (.refl _ _ _)
    · exact .left x (.refl _)
  exact ⟨fun r hr => ⟨r, hr, hself r⟩, fun r hr => ⟨r, hr, hself r⟩⟩

/-! ### Blocks -/

theorem Issued.isTemp {n : Nat} {x : String} (h : Issued n x) : isTemp x = true := by
  obtain ⟨id, -, h⟩ := h
  rcases h with rfl | rfl | rfl | rfl | rfl | rfl
  · exact isTemp_wLoopResVar id
  · exact isTemp_nLoopCountVar id
  · exact isTemp_nLoopResVar id
  · exact isTemp_nLoopOldVar id
  · exact isTemp_loopOldVar id
  · exact isTemp_loopWasBoundVar id

theorem Issued.mono {m n : Nat} {x : String} (h : Issued m x) (hle : m ≤ n) : Issued n x := by
  obtain ⟨id, hid, h⟩ := h
  exact ⟨id, hid.trans_le hle, h⟩

/-- Code leaves what is stored under a name that the compiler made up before. -/
theorem Code.read_kept {c : Code W} {τ : Scope} {e : BlockEnd W}
    (he : (c.compile τ).1 s = some e) {x : String} (hx : Issued τ.gensym x) (σ : Scope) :
    σ.read e.state x = σ.read s x := by
  obtain ⟨hlocals, hglobals⟩ := c.keeps τ s e he x hx
  rw [read_temp σ _ hx.isTemp, read_temp σ _ hx.isTemp, hlocals, hglobals]

end

/-! ### The W-loop whose body is a constant -/

section WLoop

variable {W : Type} {ops : Ops W}

theorem compileWLoopGeneral_eq (σ : Scope) (cond body : Code W) :
    compileWLoopGeneral σ true cond body =
      let res := wLoopResVar σ.gensym
      let c := cond.compile (σ.next.bind res)
      let b := body.compile c.2
      ([.loadConst Value.emptyList, (emitStore σ.next res).1, .block c.1 none, .jumpIfFalse 7,
        .block b.1 (some (7, 6)), (emitStore b.2 res).1, .jump 2, (emitLoad (b.2.bind res) res).1],
        b.2.bind res) := by
  have hheld : ∀ τ : Scope, (emitLoad (τ.bind (wLoopResVar σ.gensym)) (wLoopResVar σ.gensym) :
      LoopInst W × Scope).2 = τ.bind (wLoopResVar σ.gensym) :=
    fun τ => emitLoad_scope (held_bind_temp τ (isTemp_wLoopResVar _))
  unfold compileWLoopGeneral
  simp only [if_true, emitStore_snd, hheld]

/-- The condition ends the loop before its first round. -/
def EndsAtOnce (c : Block W) (s : LoopState W) : Prop :=
  ∃ v s', c s = some (.value v s') ∧ v.tryToRustBool = some false

/-- The code of the two forms: `a` has the constant, `b` the body, and `read`
is what the result variable holds. -/
structure WForms (ops : Ops W) (a b : List (LoopInst W)) (value : Value) (c c' : Block W)
    (read : LoopState W → Option Value) (τ τ' : Scope) where
  body : Block W
  store : LoopInst W
  load : LoopInst W
  code : a = [.block c none, .jumpIfFalse 3, .jump 0, .loadConst value]
  code' : b.drop 2 = [.block c' none, .jumpIfFalse 7, .block body (some (7, 6)), store, .jump 2, load]
  same : c.Same c'
  const : ∀ s, body s = some (.value value s)
  stores : ∀ s : LoopState W, ∃ s' : LoopState W, store.exec ops (s.push value) = .next s' ∧
    s.SameUser s' ∧ read s' = some value
  loads : ∀ (s : LoopState W) r, read s = some r → load.exec ops s = .next (s.push r)
  kept : ∀ s e, c' s = some e → read e.state = read s
  scope : τ.SameUser τ'

/-- The forms are alike at the start of a round. -/
def AlikeAt (ops : Ops W) (a b : List (LoopInst W)) (τ τ' : Scope) (s g : LoopState W) : Prop :=
  Machine.Alike (machine ops a) (machine ops b) (LoopEnd.Same ops true τ τ') (at_ 0 s) (at_ 2 g)

namespace WForms

variable {a b : List (LoopInst W)} {value r : Value} {c c' : Block W}
  {read : LoopState W → Option Value} {τ τ' : Scope} {s g : LoopState W}

theorem at_b {k : Nat} {i : LoopInst W} (hi : (b.drop 2)[k]? = some i) : b[2 + k]? = some i := by
  rwa [List.getElem?_drop] at hi

theorem at_end (h : WForms ops a b value c c' read τ τ') : b[8]? = none := by
  have hdrop : (b.drop 2)[6]? = none := by
    rw [h.code']
    rfl
  rwa [List.getElem?_drop] at hdrop

/-- A round of both: they come to the next one, or are alike, or end here. -/
theorem round (h : WForms ops a b value c c' read τ τ') (hs : s.SameUser g)
    (hr : read g = some r) :
    (¬EndsAtOnce c s ∧ ∃ m n s' g', (machine ops a).Steps (m + 1) (at_ 0 s) (at_ 0 s') ∧
        (machine ops b).Steps (n + 1) (at_ 2 g) (at_ 2 g') ∧ s'.SameUser g' ∧ read g' = some value) ∨
      (¬EndsAtOnce c s ∧ AlikeAt ops a b τ τ' s g) ∨
      (EndsAtOnce c s ∧ (AlikeAt ops a b τ τ' s g ↔ value = r)) := by
  have a0 : a[0]? = some (.block c none) := h.code ▸ rfl
  have a1 : a[1]? = some (.jumpIfFalse 3) := h.code ▸ rfl
  have a2 : a[2]? = some (.jump 0) := h.code ▸ rfl
  have a3 : a[3]? = some (.loadConst value) := h.code ▸ rfl
  have a4 : a[4]? = none := h.code ▸ rfl
  have b0 : b[2]? = some (.block c' none) := at_b (k := 0) (h.code' ▸ rfl)
  have b1 : b[3]? = some (.jumpIfFalse 7) := at_b (k := 1) (h.code' ▸ rfl)
  have b2 : b[4]? = some (.block h.body (some (7, 6))) := at_b (k := 2) (h.code' ▸ rfl)
  have b3 : b[5]? = some h.store := at_b (k := 3) (h.code' ▸ rfl)
  have b4 : b[6]? = some (.jump 2) := at_b (k := 4) (h.code' ▸ rfl)
  have b5 : b[7]? = some h.load := at_b (k := 5) (h.code' ▸ rfl)
  have hrel := h.same s g hs
  have leaves : ∀ (x : Leave) (s' g' : LoopState W),
      (LoopInst.block c none).exec ops s = .leave x s' →
      (LoopInst.block c' none).exec ops g = .leave x g' → s'.SameUser g' →
      AlikeAt ops a b τ τ' s g := by
    intro x s' g' hx hx' hsame
    refine (Machine.Alike.iff_of_steps (steps_leave a0 hx) (steps_leave b0 hx')).mpr ?_
    exact (Machine.Alike.iff_of_final rfl rfl).mpr (.left x hsame)
  rcases hc : c s with _ | e
  · rcases hc' : c' g with _ | e'
    · refine .inr (.inl ⟨?_, ?_⟩)
      · rintro ⟨v, s', hv, -⟩
        rw [hc] at hv
        cases hv
      · have hlost : (LoopInst.block c none).exec ops s = .lost := by simp only [LoopInst.exec, hc]
        have hlost' : (LoopInst.block c' none).exec ops g = .lost := by
          simp only [LoopInst.exec, hc']
        refine (Machine.Alike.iff_of_steps (steps_lost a0 hlost) (steps_lost b0 hlost')).mpr ?_
        exact .of_endless not_ends_lost not_ends_lost
    · rw [hc, hc'] at hrel
      cases hrel
  · rcases hc' : c' g with _ | e'
    · rw [hc, hc'] at hrel
      cases hrel
    rw [hc, hc'] at hrel
    obtain ⟨hrel⟩ := hrel
    have hkept := h.kept g e' hc'
    rcases hrel with @⟨v, s₁, g₁, hsame⟩ | @⟨s₁, g₁, hsame⟩ | @⟨s₁, g₁, hsame⟩ | @⟨x, s₁, g₁, hsame⟩
    · have hnext : (LoopInst.block c none).exec ops s = .next (s₁.push v) := by
        simp only [LoopInst.exec, hc]
      have hnext' : (LoopInst.block c' none).exec ops g = .next (g₁.push v) := by
        simp only [LoopInst.exec, hc']
      have hsteps := steps_next a0 hnext
      have hsteps' := steps_next b0 hnext'
      have hbool := @exec_jumpIfFalse W ops v
      rcases hv : v.tryToRustBool with _ | _ | _
      · refine .inr (.inl ⟨?_, ?_⟩)
        · rintro ⟨w, s', hw, hfalse⟩
          rw [hc] at hw
          cases hw
          rw [hv] at hfalse
          cases hfalse
        · have hleave := hbool s₁ 3
          have hleave' := hbool g₁ 7
          rw [hv] at hleave hleave'
          refine (Machine.Alike.iff_of_steps (hsteps.trans (steps_leave a1 hleave))
            (hsteps'.trans (steps_leave b1 hleave'))).mpr ?_
          exact (Machine.Alike.iff_of_final rfl rfl).mpr (.left _ hsame)
      · refine .inr (.inr ⟨⟨v, s₁, hc, hv⟩, ?_⟩)
        have hjump := hbool s₁ 3
        have hjump' := hbool g₁ 7
        rw [hv] at hjump hjump'
        have hload : (LoopInst.loadConst value).exec ops s₁ = .next (s₁.push value) := rfl
        have hend := (hsteps.trans (steps_jump a1 hjump)).trans
          ((steps_next a3 hload).trans (steps_end a4))
        have hend' := (hsteps'.trans (steps_jump b1 hjump')).trans
          ((steps_next b5 (h.loads g₁ r (hkept.trans hr))).trans (steps_end h.at_end))
        refine (Machine.Alike.iff_of_steps hend hend').trans ?_
        refine (Machine.Alike.iff_of_final rfl rfl).trans ⟨?_, ?_⟩
        · rintro ⟨hafter⟩
          exact Option.some.inj (hafter.value rfl)
        · intro hvalue
          exact .done (.push hsame h.scope fun _ => hvalue)
      · refine .inl ⟨?_, ?_⟩
        · rintro ⟨w, s', hw, hfalse⟩
          rw [hc] at hw
          cases hw
          rw [hv] at hfalse
          cases hfalse
        · have hnext₁ := hbool s₁ 3
          have hnext₁' := hbool g₁ 7
          rw [hv] at hnext₁ hnext₁'
          obtain ⟨g₂, hstore, hsame₂, hread⟩ := h.stores g₁
          have hbody : (LoopInst.block h.body (some (7, 6))).exec ops g₁ = .next (g₁.push value) := by
            simp only [LoopInst.exec, h.const]
          exact ⟨_, _, s₁, g₂, (hsteps.trans (steps_next a1 hnext₁)).trans (steps_jump a2 rfl),
            (((hsteps'.trans (steps_next b1 hnext₁')).trans (steps_next b2 hbody)).trans
              (steps_next b3 hstore)).trans (steps_jump b4 rfl), hsame.trans hsame₂, hread⟩
    · refine .inr (.inl ⟨?_, leaves .break_ s₁ g₁ ?_ ?_ hsame⟩)
      · rintro ⟨w, s', hw, -⟩
        rw [hc] at hw
        cases hw
      · simp only [LoopInst.exec, hc]
      · simp only [LoopInst.exec, hc']
    · refine .inr (.inl ⟨?_, leaves .continue_ s₁ g₁ ?_ ?_ hsame⟩)
      · rintro ⟨w, s', hw, -⟩
        rw [hc] at hw
        cases hw
      · simp only [LoopInst.exec, hc]
      · simp only [LoopInst.exec, hc']
    · refine .inr (.inl ⟨?_, leaves x s₁ g₁ ?_ ?_ hsame⟩)
      · rintro ⟨w, s', hw, -⟩
        rw [hc] at hw
        cases hw
      · simp only [LoopInst.exec, hc]
      · simp only [LoopInst.exec, hc']

/-- After a round the forms are alike. -/
theorem alike (h : WForms ops a b value c c' read τ τ') (hs : s.SameUser g)
    (hr : read g = some value) : AlikeAt ops a b τ τ' s g := by
  let Rel : LoopRun W → LoopRun W → Prop := fun t t' =>
    ∃ s g, t = at_ 0 s ∧ t' = at_ 2 g ∧ s.SameUser g ∧ read g = some value
  have hrel : Rel (at_ 0 s) (at_ 2 g) := ⟨s, g, rfl, rfl, hs, hr⟩
  refine Machine.Alike.of_rounds ?_ hrel
  rintro _ _ ⟨s, g, rfl, rfl, hs, hr⟩
  have now : ∀ halike : AlikeAt ops a b τ τ' s g, ∃ m n t t',
      (machine ops a).Steps (m + 1) (at_ 0 s) t ∧ (machine ops b).Steps (n + 1) (at_ 2 g) t' ∧
        (Rel t t' ∨ Machine.Alike (machine ops a) (machine ops b) (LoopEnd.Same ops true τ τ') t t') := by
    intro halike
    have hm := Machine.Steps.one (M := machine ops a) (s := at_ 0 s) rfl
    have hn := Machine.Steps.one (M := machine ops b) (s := at_ 2 g) rfl
    exact ⟨0, 0, _, _, hm, hn, .inr ((Machine.Alike.iff_of_steps hm hn).mp halike)⟩
  rcases h.round hs hr with ⟨-, m, n, s', g', hm, hn, hs', hr'⟩ | ⟨-, halike⟩ | ⟨-, hiff⟩
  · exact ⟨m, n, _, _, hm, hn, .inl ⟨s', g', rfl, rfl, hs', hr'⟩⟩
  · exact now halike
  · exact now (hiff.mpr rfl)

/-- The forms differ only where the loop ends before its first round. -/
theorem alike_iff (h : WForms ops a b value c c' read τ τ') (hs : s.SameUser g)
    (hr : read g = some r) : AlikeAt ops a b τ τ' s g ↔ (EndsAtOnce c s → value = r) := by
  rcases h.round hs hr with ⟨hnot, m, n, s', g', hm, hn, hs', hr'⟩ | ⟨hnot, halike⟩ | ⟨hends, hiff⟩
  · refine iff_of_true ?_ fun hends => absurd hends hnot
    exact (Machine.Alike.iff_of_steps hm hn).mpr (h.alike hs' hr')
  · exact iff_of_true halike fun hends => absurd hends hnot
  · rw [hiff]
    exact ⟨fun hvalue _ => hvalue, fun himp => himp hends⟩

end WForms

theorem compileWLoop_const (σ : Scope) (cond : Code W) (body : LoopBody W) {value : Value}
    (hpure : body.node.pureConstBody = true) (hvalue : body.node.constBodyValue = some value) :
    compileWLoop σ true cond body =
      ([.block (cond.compile σ).1 none, .jumpIfFalse 3, .jump 0, .loadConst value],
        (cond.compile σ).2) := by
  simp only [compileWLoop, hpure, hvalue, Bool.true_and]

/-- The two forms of a W-loop whose body is a constant. -/
theorem wForms (ops : Ops W) (σ : Scope) (cond : Code W) (body : LoopBody W) {value : Value}
    (hpure : body.node.pureConstBody = true) (hvalue : body.node.constBodyValue = some value) :
    Nonempty (WForms ops (compileWLoop σ true cond body).1
      (compileWLoopGeneral σ true cond (body.code true)).1 value (cond.compile σ).1
      (cond.compile (σ.next.bind (wLoopResVar σ.gensym))).1
      (fun s => σ.read s (wLoopResVar σ.gensym)) (compileWLoop σ true cond body).2
      (compileWLoopGeneral σ true cond (body.code true)).2) := by
  rw [compileWLoop_const σ cond body hpure hvalue, compileWLoopGeneral_eq]
  dsimp only
  have htemp : isTemp (wLoopResVar σ.gensym) = true := isTemp_wLoopResVar _
  have hissued : Issued (σ.next.bind (wLoopResVar σ.gensym)).gensym (wLoopResVar σ.gensym) :=
    ⟨σ.gensym, (grows_bind σ.next _).gensym, .inl rfl⟩
  generalize wLoopResVar σ.gensym = res at htemp hissued ⊢
  have hscope : σ.SameUser (σ.next.bind res) := (Scope.SameUser.refl σ).next.bind_temp htemp
  generalize hτ : (cond.compile (σ.next.bind res)) = c
  have hgrows : σ.Grows ((body.code true).compile c.2).2 := by
    have hnext : σ.Grows (σ.next.bind res) := (Scope.Grows.refl σ).next.bind res
    have hcond : (σ.next.bind res).Grows c.2 := hτ ▸ cond.grows _
    exact (hnext.trans hcond).trans ((body.code true).grows _)
  refine ⟨{
    body := ((body.code true).compile c.2).1
    store := (emitStore ((body.code true).compile c.2).2 res).1
    load := (emitLoad (((body.code true).compile c.2).2.bind res) res).1
    code := rfl
    code' := rfl
    same := ?_
    const := (body.const value hpure hvalue c.2).2
    stores := fun s => ⟨_, exec_emitStore _ res s value, sameUser_store_temp _ s htemp value, ?_⟩
    loads := fun s r hr => emitLoad_held (held_bind_temp _ htemp) ?_
    kept := fun s e he => ?_
    scope := ?_ }⟩
  · rw [← hτ]
    exact cond.respects _ _ hscope
  · rw [hgrows.store]
    exact read_store_self σ s res value
  · rw [(hgrows.bind res).read]
    exact hr
  · rw [← hτ] at he
    exact cond.read_kept he hissued σ
  · have hbody := (body.const value hpure hvalue c.2).1
    have hcond : (cond.compile σ).2.SameUser c.2 := hτ ▸ cond.scope _ _ hscope
    exact (hcond.trans hbody.symm).bind_temp htemp

/-- **The W-loop with a constant body** agrees with the general one unless its
body never runs and the constant is not the empty list. -/
theorem constWLoop_agrees_iff (ops : Ops W) (σ : Scope) (needed : Bool) (cond : Code W)
    (body : LoopBody W) (s : LoopState W) :
    LoopsAgree ops needed (compileWLoop σ needed cond body)
        (compileWLoopGeneral σ needed cond (body.code needed)) s ↔
      (needed = true → body.node.pureConstBody = true →
        ∀ value, body.node.constBodyValue = some value →
          EndsAtOnce (cond.compile σ).1 s → value = Value.emptyList) := by
  by_cases hspecial : needed = true ∧ body.node.pureConstBody = true ∧
      ∃ value, body.node.constBodyValue = some value
  · obtain ⟨rfl, hpure, value, hvalue⟩ := hspecial
    obtain ⟨h⟩ := wForms ops σ cond body hpure hvalue
    have htemp : isTemp (wLoopResVar σ.gensym) = true := isTemp_wLoopResVar _
    have hstart : (machine ops (compileWLoopGeneral σ true cond (body.code true)).1).Steps 2
        (at_ 0 s) (at_ 2 (σ.next.store s (wLoopResVar σ.gensym) Value.emptyList)) := by
      rw [compileWLoopGeneral_eq]
      exact (steps_next (i := .loadConst Value.emptyList) rfl rfl).trans
        (steps_next rfl (exec_emitStore _ _ s _))
    have hread : σ.read (σ.next.store s (wLoopResVar σ.gensym) Value.emptyList)
        (wLoopResVar σ.gensym) = some Value.emptyList := by
      rw [(Scope.Grows.refl σ).next.store]
      exact read_store_self σ s _ _
    have hiff := h.alike_iff (sameUser_store_temp σ.next s htemp Value.emptyList) hread
    refine (Machine.Alike.iff_of_steps (.refl _) hstart).trans (hiff.trans ?_)
    constructor
    · intro himp _ _ value' hvalue' hends
      obtain rfl := Option.some.inj (hvalue.symm.trans hvalue')
      exact himp hends
    · intro himp hends
      exact himp rfl hpure value hvalue hends
  · have hgeneral : compileWLoop σ needed cond body =
        compileWLoopGeneral σ needed cond (body.code needed) := by
      unfold compileWLoop
      split
      · rename_i hneeded hvalue
        rw [Bool.and_eq_true] at hneeded
        exact absurd ⟨hneeded.1, hneeded.2, _, hvalue⟩ hspecial
      · rfl
    rw [hgeneral]
    refine iff_of_true (.refl _ _ _) fun hneeded hpure value hvalue => ?_
    exact absurd ⟨hneeded, hpure, value, hvalue⟩ hspecial

end WLoop

end Wqpl
