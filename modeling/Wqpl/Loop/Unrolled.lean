/-
# Unrolled loops

The N-loop with a small literal count runs its rounds one after the other, each
in code of its own. It agrees with the loop that counts at run time where the
index is restored and every copy of the body does what the first one does
(`unrolledNLoop_agrees`); without rounds, where the index is bound before the
loop and its body brings in no variable (`emptyNLoop_agrees`).
-/
import Wqpl.Loop.Counted

namespace Wqpl

open LoopRun

section Unrolled

variable {W : Type} {ops : Ops W} {σ τ τ' : Scope} {s s' g g' u : LoopState W}

/-! ### The index assigned twice -/

theorem setLocal_setLocal (s : LoopState W) (x : String) (v w : Value) :
    (s.setLocal x v).setLocal x w = s.setLocal x w := by
  have hfun : (fun y => if y = x then w else if y = x then v else s.locals y) =
      fun y => if y = x then w else s.locals y := by
    funext y
    split <;> rfl
  exact congrArg (fun f => { s with locals := f }) hfun

theorem setGlobal_setGlobal (s : LoopState W) (x : String) (v w : Value) :
    (s.setGlobal x v).setGlobal x w = s.setGlobal x w := by
  have hfun : (fun y => if y = x then some w else if y = x then some v else s.globals y) =
      fun y => if y = x then some w else s.globals y := by
    funext y
    split <;> rfl
  exact congrArg (fun f => { s with globals := f }) hfun

theorem setCapture_setCapture (s : LoopState W) (i : Nat) (v w : Value) :
    (s.setCapture i v).setCapture i w = s.setCapture i w := by
  have hfun : (fun j => if j = i then w else if j = i then v else s.captures j) =
      fun j => if j = i then w else s.captures j := by
    funext j
    split <;> rfl
  exact congrArg (fun f => { s with captures := f }) hfun

theorem store_store (σ : Scope) (s : LoopState W) (x : String) (v w : Value) :
    σ.store (σ.store s x v) x w = σ.store s x w := by
  unfold Scope.store
  split
  · split
    · rcases σ.refCaptureMap x with _ | i
      · exact setGlobal_setGlobal s x v w
      · exact setCapture_setCapture s i v w
    · exact setLocal_setLocal s x v w
  · exact setGlobal_setGlobal s x v w

theorem store_push (σ : Scope) (s : LoopState W) (x : String) (a v : Value) :
    σ.store (s.push a) x v = (σ.store s x v).push a := by
  unfold Scope.store
  split
  · split
    · rcases σ.refCaptureMap x <;> rfl
    · rfl
  · rfl

theorem restored_push (σ : Scope) (s : LoopState W) (a : Value) (saved : Option Value) :
    σ.restored (s.push a) saved = (σ.restored s saved).push a := by
  rcases saved with _ | v
  · rfl
  · exact store_push σ s "_n" a v

/-! ### Scopes -/

theorem Scope.SameUser.begin_ (h : σ.SameUser τ) (base base' : Nat) :
    (beginLoopVarRestore σ base "_n" : List (LoopInst W) × LoopVarRestore × Scope).2.2.SameUser
      (beginLoopVarRestore τ base' "_n" : List (LoopInst W) × LoopVarRestore × Scope).2.2 := by
  have hnext : σ.next.SameUser τ.next := (h.symm.next).symm.next
  by_cases hfn : σ.fnDepth = 0
  · rw [begin_topLevel hfn, begin_topLevel (h.fnDepth.symm.trans hfn)]
    exact hnext
  have hpos : 0 < σ.fnDepth := Nat.pos_of_ne_zero hfn
  have hpos' : 0 < τ.fnDepth := h.fnDepth ▸ hpos
  have drop : ∀ {σ τ : Scope} {x y : String}, σ.SameUser τ → isTemp x = true → isTemp y = true →
      (σ.bind x).SameUser (τ.bind y) := fun h hx hy =>
    ((h.symm.bind_temp hx).symm).bind_temp hy
  rcases hknows : σ.knowsIndex with _ | _
  · have hknows' := (knowsIndex_congr h).symm.trans hknows
    rcases hisolated : σ.isolatedModule with _ | _
    · rw [begin_unknown hpos hknows hisolated,
        begin_unknown hpos' hknows' (h.isolatedModule.symm.trans hisolated)]
      exact drop (drop (drop hnext (isTemp_loopWasBoundVar _) (isTemp_loopWasBoundVar _))
        (isTemp_loopOldVar _) (isTemp_loopOldVar _)) (isTemp_loopOldVar _) (isTemp_loopOldVar _)
    · rw [begin_isolated hpos hknows hisolated,
        begin_isolated hpos' hknows' (h.isolatedModule.symm.trans hisolated)]
      exact drop (drop hnext (isTemp_loopWasBoundVar _) (isTemp_loopWasBoundVar _))
        (isTemp_loopOldVar _) (isTemp_loopOldVar _)
  · rw [begin_known hpos hknows, begin_known hpos' ((knowsIndex_congr h).symm.trans hknows)]
    exact drop (emitLoad_congr (drop hnext (isTemp_loopOldVar _) (isTemp_loopOldVar _))
      isTemp_index).2 (isTemp_loopOldVar _) (isTemp_loopOldVar _)

theorem isLocal_bind_index (σ : Scope) (h : σ.isRefDefaultName "_n" = false) (hfn : 0 < σ.fnDepth) :
    (σ.bind "_n").isLocal "_n" = true := by
  rw [isLocal_bind, decide_eq_true rfl, decide_eq_true hfn, h]
  exact Bool.or_true _

theorem bind_bind (σ : Scope) (x : String) : (σ.bind x).bind x = σ.bind x := by
  have hgrows := grows_bind σ x
  by_cases hfn : 0 < σ.fnDepth
  · by_cases href : σ.isRefDefaultName x = true
    · have hbind : σ.bind x = σ := by
        unfold Scope.bind
        rw [if_pos hfn, if_pos href]
      rw [hbind, hbind]
    · refine bind_local ?_
      rw [isLocal_bind, decide_eq_true rfl, decide_eq_true hfn, Bool.eq_false_iff.mpr href]
      exact Bool.or_true _
  · have hbind : σ.bind x = σ := if_neg hfn
    rw [hbind, hbind]

/-! ### The copies of the body -/

/-- Each of the copies does what the block does, and leaves its scope. -/
def CopiesSame (body : Code W) (b : Block W × Scope) : Nat → Scope → Prop
  | 0, _ => True
  | k + 1, τ =>
    (body.compile (τ.bind "_n")).1.Same b.1 ∧ (body.compile (τ.bind "_n")).2.SameUser b.2 ∧
      CopiesSame body b k (body.compile (τ.bind "_n")).2

/-- At the top level the copies are all alike. -/
theorem copiesSame_topLevel (body : Code W) (hfn : σ.fnDepth = 0) (k : Nat) : ∀ τ : Scope,
    τ.SameUser σ → CopiesSame body (body.compile σ) k τ := by
  induction k with
  | zero => exact fun _ _ => trivial
  | succ k ih =>
    intro τ hτ
    have hbind : τ.bind "_n" = τ := if_neg (by rw [hτ.fnDepth]; omega)
    unfold CopiesSame
    rw [hbind]
    refine ⟨body.respects _ _ hτ, body.scope _ _ hτ, ih _ ?_⟩
    exact (body.scope _ _ hτ).trans (body.topLevel σ hfn)

theorem unrolledCopies_succ (n k : Nat) (body : Code W) (τ : Scope) :
    unrolledCopies n body (k + 1) τ =
      ([.loadConst (.int (Int64.ofNat (n - (k + 1)))), (emitStore τ "_n").1,
          .block (body.compile (τ.bind "_n")).1 none] ++ (if 0 < k then [.pop] else []) ++
        (unrolledCopies n body k (body.compile (τ.bind "_n")).2).1,
        (unrolledCopies n body k (body.compile (τ.bind "_n")).2).2) := by
  simp only [unrolledCopies, emitStore_snd]

theorem grows_unrolledCopies (n : Nat) (body : Code W) (k : Nat) : ∀ τ : Scope,
    τ.Grows (unrolledCopies n body k τ).2 := by
  induction k with
  | zero => exact Scope.Grows.refl
  | succ k ih =>
    intro τ
    rw [unrolledCopies_succ]
    exact ((grows_bind τ "_n").trans (body.grows _)).trans (ih _)

/-- The last copy leaves the scope of the block. -/
theorem CopiesSame.scope {body : Code W} {b : Block W × Scope} (n : Nat) {k : Nat} :
    ∀ {τ : Scope}, CopiesSame body b (k + 1) τ →
      (unrolledCopies n body (k + 1) τ).2.SameUser b.2 := by
  induction k with
  | zero =>
    intro τ h
    rw [unrolledCopies_succ]
    exact h.2.1
  | succ k ih =>
    intro τ h
    rw [unrolledCopies_succ]
    exact ih h.2.2

/-! ### Small counts -/

theorem toInt_ofNat_small {j : Nat} (h : j ≤ 64) : (Int64.ofNat j).toInt = j :=
  Int64.toInt_ofNat_of_lt (by omega)

theorem nLoopCondition_small (ops : Ops W) {j n : Nat} (hj : j ≤ 64) (hn : n ≤ 64) :
    nLoopCondition ops (.int (Int64.ofNat j)) (.int (Int64.ofNat n)) = .ok (decide (j < n)) := by
  simp only [nLoopCondition, toInt_ofNat_small hj, toInt_ofNat_small hn, Nat.cast_lt]

theorem nLoopIndex_small (ops : Ops W) {j : Nat} (hj : j < 64) :
    nLoopIndex ops (.int (Int64.ofNat j)) = .ok (.int (Int64.ofNat (j + 1))) := by
  have hfits : i64? ((Int64.ofNat j).toInt + 1) = some (Int64.ofNat (j + 1)) := by
    rw [i64?_some_iff, toInt_ofNat_small hj.le, toInt_ofNat_small hj]
    rfl
  simp only [nLoopIndex, hfits]

/-! ### The rounds one after the other -/

/-- Blocks that do the same as a third. -/
theorem sameRel_trans {e e' e'' : Option (BlockEnd W)} (h : Option.Rel BlockEnd.Rel e e')
    (h' : Option.Rel BlockEnd.Rel e' e'') : Option.Rel BlockEnd.Rel e e'' := by
  rcases h with ⟨h⟩ | _
  · rcases h' with ⟨h'⟩
    rcases h with ⟨v, hs⟩ | ⟨hs⟩ | ⟨hs⟩ | ⟨x, hs⟩
    · rcases h' with ⟨_, hs'⟩
      exact .some (.value v (hs.trans hs'))
    · rcases h' with _ | ⟨hs'⟩
      exact .some (.break_ (hs.trans hs'))
    · rcases h' with _ | _ | ⟨hs'⟩
      exact .some (.continue_ (hs.trans hs'))
    · rcases h' with _ | _ | _ | ⟨_, hs'⟩
      exact .some (.leave x (hs.trans hs'))
  · exact h'

section Rounds

variable {L : NLoop W} {a : List (LoopInst W)} {n id : Nat} {body : Code W}
  {b : Block W × Scope} {restore : LoopVarRestore} {needed : Bool} {saved saved' : Option Value}
  {Q : LoopEnd W → LoopEnd W → Prop} {end_ : Nat} {τend : Scope}

/-- Behind the last copy the unrolled loop ends as the other one does. -/
def AlikeBehind (ops : Ops W) (L : NLoop W) (a : List (LoopInst W)) (σ : Scope) (n id : Nat)
    (restore : LoopVarRestore) (needed : Bool) (saved saved' : Option Value)
    (Q : LoopEnd W → LoopEnd W → Prop) (end_ : Nat) (τend : Scope) : Prop :=
  ∀ u v g r, Restores τend u restore saved →
    (σ.store u "_n" (.int (Int64.ofNat n))).SameUser g →
    NExit L needed id saved' g (.int (Int64.ofNat n)) r → (needed = true → v = r) →
    Machine.Alike (machine ops a) (machine ops L.code) Q (at_ end_ (u.push v)) (at_ L.exit g)

/-- One copy of the body goes along with one round. -/
theorem copy_round (hform : NForm ops L needed id saved') {j pc : Nat} {c : Block W} {r : Value}
    (hj : j < n) (hn : n ≤ 64)
    (hcode : CodeAt a pc [.loadConst (.int (Int64.ofNat j)), (emitStore τ "_n").1, .block c none])
    (hc : c.Same L.body)
    (hctrl : ∀ s s', c s ≠ some (.break_ s') ∧ c s ≠ some (.continue_ s'))
    (hτ : σ.Grows τ) (hscope : σ.Grows L.scope)
    (hleft : ∀ x (g g' : LoopState W), g.SameUser g' → Q (.left x g) (.left x g'))
    (hu : (σ.store u "_n" (.int (Int64.ofNat j))).SameUser g)
    (hhead : NHead L needed id saved' g (.int (Int64.ofNat j)) (.int (Int64.ofNat n)) r)
    (hnext : ∀ v s g', c (σ.store u "_n" (.int (Int64.ofNat j))) = some (.value v s) →
      (σ.store s "_n" (.int (Int64.ofNat (j + 1)))).SameUser g' →
      NHead L needed id saved' g' (.int (Int64.ofNat (j + 1))) (.int (Int64.ofNat n))
        (if needed then v else r) →
      Machine.Alike (machine ops a) (machine ops L.code) Q (at_ (pc + 3) (s.push v))
        (at_ L.start g')) :
    Machine.Alike (machine ops a) (machine ops L.code) Q (at_ pc u) (at_ L.start g) := by
  have hstore : (emitStore τ "_n").1.exec ops (u.push (.int (Int64.ofNat j))) =
      .next (σ.store u "_n" (.int (Int64.ofNat j))) := by
    rw [exec_emitStore, hτ.store]
  have hconst : (LoopInst.loadConst (.int (Int64.ofNat j))).exec ops u =
      .next (u.push (.int (Int64.ofNat j))) := rfl
  have hsteps := (steps_next (hcode 0 _ rfl) hconst).trans (steps_next (hcode 1 _ rfl) hstore)
  have h2 : a[pc + 2]? = some (.block c none) := hcode 2 _ rfl
  have hcond : nLoopCondition ops (.int (Int64.ofNat j)) (.int (Int64.ofNat n)) = .ok true := by
    rw [nLoopCondition_small ops (by omega) hn, decide_eq_true hj]
  obtain ⟨g₁, hg₁, hround⟩ := hform.enter hhead hcond
  have hsame := hc _ g₁ (hu.trans hg₁)
  have hnot := hctrl (σ.store u "_n" (.int (Int64.ofNat j)))
  revert hround hnext hnot
  generalize σ.store u "_n" (.int (Int64.ofNat j)) = u₁ at hsteps hsame
  generalize L.body g₁ = e' at hsame
  rcases he : c u₁ with _ | e
  · rw [he] at hsame
    rcases hsame with _ | _
    rintro - ⟨m, hm⟩ -
    have hlost : (LoopInst.block c none).exec ops u₁ = .lost := by simp only [LoopInst.exec, he]
    exact (Machine.Alike.iff_of_steps (hsteps.trans (steps_lost h2 hlost)) hm).mpr
      (.of_endless not_ends_lost not_ends_lost)
  rw [he] at hsame
  rcases hsame with ⟨hsame⟩
  rcases hsame with @⟨v, s, s', hs⟩ | @⟨s, s', hs⟩ | @⟨s, s', hs⟩ | @⟨x, s, s', hs⟩
  · intro hnext hround _
    have hvalue : (LoopInst.block c none).exec ops u₁ = .next (s.push v) := by
      simp only [LoopInst.exec, he]
    unfold NRound NNext at hround
    rw [nLoopIndex_small ops (by omega)] at hround
    obtain ⟨m, g', hm, hg', hhead'⟩ := hround
    rw [hscope.store] at hg'
    refine (Machine.Alike.iff_of_steps (hsteps.trans (steps_next h2 hvalue)) hm).mpr ?_
    exact hnext v s g' rfl ((hs.store (.refl σ) "_n" _).trans hg') hhead'
  · exact fun _ _ hnot => absurd rfl (hnot s).1
  · exact fun _ _ hnot => absurd rfl (hnot s).2
  · rintro - ⟨m, g', hm, hg'⟩ -
    have hleave : (LoopInst.block c none).exec ops u₁ = .leave x s := by
      simp only [LoopInst.exec, he]
    refine (Machine.Alike.iff_of_steps (hsteps.trans (steps_leave h2 hleave)) hm).mpr ?_
    exact (Machine.Alike.iff_of_final rfl rfl).mpr (hleft x _ _ (hs.trans hg'))

/-- The induction is on the copies left; before a copy the loop that counts has
already assigned its index. -/
theorem copies_alike (hform : NForm ops L needed id saved') (hn : n ≤ 64) (hb : b.1.Same L.body)
    (hctrl : ∀ σ s s', (body.compile σ).1 s ≠ some (.break_ s') ∧
      (body.compile σ).1 s ≠ some (.continue_ s'))
    (hscope : σ.Grows L.scope)
    (hleft : ∀ x (g g' : LoopState W), g.SameUser g' → Q (.left x g) (.left x g'))
    (hissued : ∀ x ∈ restore.names, Issued σ.gensym x) (hindex : "_n" ∉ restore.names)
    (hend : AlikeBehind ops L a σ n id restore needed saved saved' Q end_ τend) (k : Nat) :
    ∀ {τ : Scope} {u g : LoopState W} {r : Value} {pc : Nat},
      CodeAt a pc (unrolledCopies n body (k + 1) τ).1 →
      end_ = pc + (unrolledCopies n body (k + 1) τ).1.length →
      τend = (unrolledCopies n body (k + 1) τ).2 → k + 1 ≤ n → σ.Grows τ →
      CopiesSame body b (k + 1) τ → Restores τ u restore saved →
      (σ.store u "_n" (.int (Int64.ofNat (n - (k + 1))))).SameUser g →
      NHead L needed id saved' g (.int (Int64.ofNat (n - (k + 1)))) (.int (Int64.ofNat n)) r →
      Machine.Alike (machine ops a) (machine ops L.code) Q (at_ pc u) (at_ L.start g) := by
  -- what the copy leaves of the saved index
  have hkept : ∀ {τ : Scope} {u : LoopState W} {i : Value} {e : BlockEnd W}, σ.Grows τ →
      Restores τ u restore saved → (body.compile (τ.bind "_n")).1 (σ.store u "_n" i) = some e →
      Restores (body.compile (τ.bind "_n")).2 e.state restore saved := by
    intro τ u i e hτ hrestores he
    have hgrows := grows_bind τ "_n"
    have hbody := body.keeps _ _ e he
    refine hrestores.keeps (hgrows.trans (body.grows _)) fun x hx => ?_
    have hx' := hbody x ((hissued x hx).mono (hτ.gensym.trans hgrows.gensym))
    have hstored := Kept.store σ u hindex i x hx
    exact ⟨hx'.1.trans hstored.1, hx'.2.trans hstored.2⟩
  have hsame : ∀ {c : Block W}, c.Same b.1 → c.Same L.body := fun hc s s' hs => by
    have hrel := hc s s' hs
    have hrel' := hb s' s' (.refl s')
    exact sameRel_trans hrel hrel'
  induction k with
  | zero =>
    intro τ u g r pc hcode hpc hτend hk hτ hcopies hrestores hu hhead
    rw [unrolledCopies_succ] at hcode hpc hτend
    refine copy_round hform (by omega) hn hcode.left.left (hsame hcopies.1) (hctrl _) hτ hscope hleft
      hu hhead fun v s g' he hg' hhead' => ?_
    have hnext : n - (0 + 1) + 1 = n := by omega
    rw [hnext] at hg' hhead'
    have hstop : nLoopCondition ops (.int (Int64.ofNat n)) (.int (Int64.ofNat n)) = .ok false := by
      rw [nLoopCondition_small ops hn hn, decide_eq_false (Nat.lt_irrefl n)]
    obtain ⟨m, g'', hm, hg'', hexit⟩ := hform.stop hhead' hstop
    refine (Machine.Alike.iff_of_steps (.refl _) hm).mpr ?_
    have hpc : end_ = pc + 3 := hpc
    rw [← hpc]
    refine hend s v g'' _ ?_ (hg'.trans hg'') hexit fun hneeded => (if_pos hneeded).symm
    rw [hτend]
    exact hkept hτ hrestores he
  | succ k ih =>
    intro τ u g r pc hcode hpc hτend hk hτ hcopies hrestores hu hhead
    rw [unrolledCopies_succ] at hcode hpc hτend
    rw [if_pos (Nat.succ_pos k)] at hcode hpc
    refine copy_round hform (by omega) hn hcode.left.left (hsame hcopies.1) (hctrl _) hτ hscope hleft
      hu hhead fun v s g' he hg' hhead' => ?_
    have hpop : a[pc + 3]? = some .pop := hcode.left.right 0 _ rfl
    have hnext : n - (k + 1 + 1) + 1 = n - (k + 1) := by omega
    rw [hnext] at hg' hhead'
    have hdrop : (LoopInst.pop).exec ops (s.push v) = .next s := rfl
    refine (Machine.Alike.iff_of_steps (steps_next hpop hdrop) (.refl _)).mpr ?_
    refine ih hcode.right ?_ hτend (by omega) ?_ hcopies.2.2 (hkept hτ hrestores he) hg' hhead'
    · rw [hpc, List.length_append]
      exact (Nat.add_assoc pc 4 _).symm
    · exact (hτ.trans (grows_bind τ "_n")).trans (body.grows _)

end Rounds

/-! ### The unrolled loop -/

theorem compileNLoopUnrolled_eq (σ : Scope) {n : Nat} (hn : n ≠ 0) (body : Code W) :
    compileNLoopUnrolled σ n body =
      let begin_ : List (LoopInst W) × LoopVarRestore × Scope := beginLoopVarRestore σ 0 "_n"
      let copies := unrolledCopies n body n begin_.2.2
      let finish : List (LoopInst W) × Scope := finishLoopVarRestore copies.2
        (begin_.1.length + copies.1.length) "_n" begin_.2.1
      (begin_.1 ++ copies.1 ++ finish.1, finish.2) := if_neg hn

theorem sameUser_bindResult (h : σ.SameUser τ) (needed : Bool) (id : Nat) :
    σ.SameUser (bindResult needed τ (nLoopResVar id)) := by
  rw [bindResult]
  split
  · exact h.bind_temp (isTemp_nLoopResVar id)
  · exact h

/-- The scope of the body in the loop that counts, and in the first copy. -/
theorem countedSetUp_sameUser (σ : Scope) (needed : Bool) (v : Value) :
    ((beginLoopVarRestore σ 0 "_n" : List (LoopInst W) × LoopVarRestore × Scope).2.2.bind
      "_n").SameUser (countedSetUp σ needed (.literal v : Code W)).2.2 := by
  have hstart : σ.SameUser (σ.next.bind (nLoopCountVar σ.gensym)) :=
    (Scope.SameUser.refl σ).next.bind_temp (isTemp_nLoopCountVar _)
  rw [countedSetUp_scope]
  exact sameUser_bindResult ((hstart.begin_ 0 2).bind "_n") needed σ.gensym

theorem grows_countedSetUp (σ : Scope) (needed : Bool) (count : Code W) :
    σ.next.Grows (countedSetUp σ needed count).2.2 := by
  rw [countedSetUp_scope]
  exact ((((count.grows _).bind _).trans (grows_begin _ 2)).bind "_n").trans
    (grows_bindResult needed _ _)

/-- Behind the copies the index is restored, and the value of the last copy is
the value of the loop. -/
theorem alikeBehind {L : NLoop W} {a pre pre' : List (LoopInst W)} {n id : Nat} {needed : Bool}
    {restore : LoopVarRestore} {saved : Value}
    (hcode : a = pre ++ (finishLoopVarRestore τ pre.length "_n" restore).1)
    (hcode' : L.code = pre' ++ (countedEnd needed id L.exit L.restore τ').1)
    (hpre' : pre'.length = L.exit) (hgrows : σ.Grows τ) (hgrows' : L.scope.Grows τ')
    (hscope : σ.Grows L.scope) (hheld' : needed = true → τ'.Held (nLoopResVar id))
    (hsame : (τ.bind "_n").SameUser (τ'.bind "_n")) :
    AlikeBehind ops L a σ n id restore needed (some saved) (some saved) (LoopEnd.Same ops needed
      (finishLoopVarRestore τ pre.length "_n" restore : List (LoopInst W) × Scope).2
      (countedEnd needed id L.exit L.restore τ' : List (LoopInst W) × Scope).2) pre.length τ := by
  intro u v g r hrestores hu hexit hvalue
  have hat : CodeAt a pre.length (finishLoopVarRestore τ pre.length "_n" restore).1 := by
    rw [hcode]
    have hright := (codeAt_self (pre ++ (finishLoopVarRestore τ pre.length "_n" restore).1)).right
    rwa [Nat.zero_add] at hright
  have hpushed : Restores τ (u.push v) restore (some saved) :=
    hrestores.keeps (.refl τ) fun _ _ => ⟨rfl, rfl⟩
  have hfinish : ∃ n, (machine ops a).Steps n (at_ pre.length (u.push v)) _ := finish_runs hat hpushed
  obtain ⟨m, hm⟩ := hfinish
  rw [restored_push] at hm
  have hnone : a[pre.length + (finishLoopVarRestore τ pre.length "_n" restore :
      List (LoopInst W) × Scope).1.length]? = none := by
    rw [List.getElem?_eq_none_iff, hcode, List.length_append]
  have hres' : needed = true → τ'.read g (nLoopResVar id) = some r := fun hn => by
    rw [hgrows'.read]
    exact hexit.result hn
  have hrestores' := hexit.restores.keeps hgrows' fun _ _ => ⟨rfl, rfl⟩
  have hend : (∃ n, (machine ops L.code).Steps n (at_ L.exit g) _) ∧ _ :=
    countedEnd_runs ops hcode' hpre' hrestores' hheld' hres'
  obtain ⟨⟨n', hn'⟩, hscope'⟩ := hend
  rw [finish_scope hrestores, hscope', Machine.Alike.iff_of_steps (hm.trans (steps_end hnone)) hn',
    Machine.Alike.iff_of_final rfl rfl]
  refine .done (.push ?_ hsame fun hneeded => ?_)
  · show (τ.store u "_n" saved).SameUser (τ'.store g "_n" saved)
    rw [hgrows.store, (hscope.trans hgrows').store, ← store_store σ u "_n" (.int (Int64.ofNat n))]
    exact hu.store (.refl σ) "_n" saved
  · rw [hvalue hneeded, loopValue, if_pos hneeded]

/-- **The unrolled N-loop** agrees with the loop that counts where its index was
bound and the copies of its body are alike. -/
theorem unrolledNLoop_agrees (hfast : IntFastPath ops) {n : Nat} (hpos : n ≠ 0) (hn : n ≤ 64)
    (needed : Bool) (body : Code W) (hone : σ.OneHome "_n")
    (hctrl : ∀ σ s s', (body.compile σ).1 s ≠ some (.break_ s') ∧
      (body.compile σ).1 s ≠ some (.continue_ s'))
    (hcopies : CopiesSame body (body.compile ((beginLoopVarRestore σ 0 "_n" :
      List (LoopInst W) × LoopVarRestore × Scope).2.2.bind "_n")) n
      (beginLoopVarRestore σ 0 "_n" : List (LoopInst W) × LoopVarRestore × Scope).2.2)
    {p' : List (LoopInst W) × Scope}
    (hp' : compileNLoopGeneral σ needed false (.literal (.int (Int64.ofNat n))) body = some p')
    (s : LoopState W) (hsaved : σ.savedIndex ops s ≠ .ok none) :
    LoopsAgree ops needed (compileNLoopUnrolled σ n body) p' s := by
  obtain rfl := Option.some.inj (hp'.symm.trans
    (generalNLoop_eq σ needed (.literal (.int (Int64.ofNat n))) body hone))
  rw [compileNLoopUnrolled_eq σ hpos]
  have hscopes := countedSetUp_sameUser (W := W) σ needed (.int (Int64.ofNat n))
  have hgrows := grows_countedSetUp σ needed (.literal (.int (Int64.ofNat n)) : Code W)
  have hholds := holdsLoop (W := W) σ needed (.literal (.int (Int64.ofNat n))) hone
  have hown := countedSetUp_own (W := W) σ needed (.literal (.int (Int64.ofNat n)))
  have hissued := countedSetUp_issued (W := W) σ needed (.literal (.int (Int64.ofNat n)))
  have hsetsUp := countedSetUp_setsUp ops σ needed (.literal (.int (Int64.ofNat n))) s
  have hgrows₂ := grows_begin_next (W := W) σ 0
  have hnames := begin_names (W := W) σ 0
  have hbegin : ∀ copies finish : List (LoopInst W), Begins ops ((beginLoopVarRestore σ 0 "_n").1 ++
      copies ++ finish) σ 0 s := fun _ _ => begin_runs (codeAt_self _).left.left s
  unfold Begins at hbegin
  generalize beginLoopVarRestore σ 0 "_n" = begin_ at *
  generalize countedSetUp σ needed (.literal (.int (Int64.ofNat n))) = setUp at *
  obtain ⟨first, restore, σ₂⟩ := begin_
  obtain ⟨part, restore', τ⟩ := setUp
  dsimp only at *
  set old := nLoopOldVar σ.gensym
  have hgrows' : τ.Grows ((bindResult needed (body.compile (τ.bind old)).2
      (nLoopResVar σ.gensym)).bind "_n") :=
    (((grows_bind τ _).trans (body.grows _)).trans (grows_bindResult needed _ _)).bind "_n"
  have hbodies : (σ₂.bind "_n").SameUser (τ.bind old) :=
    hscopes.bind_temp (isTemp_nLoopOldVar σ.gensym)
  have hset := hsetsUp (generalRounds needed σ.gensym part.length τ (body.compile (τ.bind old)))
    (countedEnd needed σ.gensym (part.length + 9) restore' ((bindResult needed
      (body.compile (τ.bind old)).2 (nLoopResVar σ.gensym)).bind "_n")).1 (part.length + 9)
      (body.compile (τ.bind old)).1
  have hbegin := hbegin (unrolledCopies n body n σ₂).1 (finishLoopVarRestore
    (unrolledCopies n body n σ₂).2 (first.length + (unrolledCopies n body n σ₂).1.length) "_n"
      restore).1
  unfold SetsUp at hset
  dsimp only [Code.literal] at hset
  rw [← savedIndex_congr (Scope.SameUser.refl σ).next (.refl s)] at hset
  rcases hvalue : σ.savedIndex ops s with e | _ | saved
  · rw [hvalue] at hset hbegin
    obtain ⟨m, u, hm, hu⟩ := hbegin
    obtain ⟨m', g, hm', hg⟩ := hset
    refine (Machine.Alike.iff_of_steps hm hm').mpr ?_
    exact (Machine.Alike.iff_of_final rfl rfl).mpr (.left _ (hu.symm.trans hg))
  · exact absurd hvalue hsaved
  rw [hvalue] at hset hbegin
  obtain ⟨m, u, hm, hbegun⟩ := hbegin
  obtain ⟨m', g, hm', hg, hhead⟩ := hset
  refine (Machine.Alike.iff_of_steps hm hm').mpr ?_
  obtain ⟨k, rfl⟩ := Nat.exists_eq_succ_of_ne_zero hpos
  have hu : (σ.store u "_n" (.int (Int64.ofNat (k + 1 - (k + 1))))).SameUser g := by
    rw [Nat.sub_self]
    refine LoopState.SameUser.trans ?_ hg
    refine (hbegun.user.symm.store (.refl σ) "_n" _).trans ?_
    exact entered_congr (Scope.SameUser.refl σ).next (.refl s) _
  have hindex : "_n" ∉ restore.names := fun hmem => by
    rcases hnames _ hmem with heq | heq
    · exact index_ne_temp (isTemp_loopOldVar σ.gensym) heq
    · exact index_ne_temp (isTemp_loopWasBoundVar σ.gensym) heq
  have hissued₂ : ∀ x ∈ restore.names, Issued σ.next.gensym x := fun x hx => by
    rcases hnames x hx with rfl | rfl
    · exact ⟨σ.gensym, Nat.lt_succ_self _, .inr (.inr (.inr (.inr (.inl rfl))))⟩
    · exact ⟨σ.gensym, Nat.lt_succ_self _, .inr (.inr (.inr (.inr (.inr rfl))))⟩
  have hheld : needed = true → ((bindResult needed (body.compile (τ.bind old)).2
      (nLoopResVar σ.gensym)).bind "_n").Held (nLoopResVar σ.gensym) := fun hneeded =>
    (held_bindResult _ hneeded σ.gensym).grows (isTemp_nLoopResVar _) (grows_bind _ "_n")
  have hbody := body.scope _ _ hbodies
  have hscope : ((unrolledCopies (k + 1) body (k + 1) σ₂).2.bind "_n").SameUser
      (((bindResult needed (body.compile (τ.bind old)).2 (nLoopResVar σ.gensym)).bind "_n").bind
        "_n") := by
    rw [bind_bind]
    exact (sameUser_bindResult ((hcopies.scope (k + 1)).trans hbody) needed σ.gensym).bind "_n"
  have hzero : (Value.int 0) = .int (Int64.ofNat (k + 1 - (k + 1))) := by
    rw [Nat.sub_self]
    rfl
  rw [hzero] at hhead
  have hpre : (first ++ (unrolledCopies (k + 1) body (k + 1) σ₂).1).length =
      first.length + (unrolledCopies (k + 1) body (k + 1) σ₂).1.length := List.length_append
  rw [← hpre]
  refine copies_alike (generalForm hfast hholds (codeAt_middle _ _ _) hown hissued) hn
    (body.respects _ _ hbodies) hctrl hgrows (fun x g g' hg => .left x hg) hissued₂ hindex
    (alikeBehind rfl rfl ?_ (hgrows₂.trans (grows_unrolledCopies _ body _ σ₂)) hgrows' hgrows hheld
      hscope) k ?_ ?_ rfl le_rfl hgrows₂ hcopies hbegun.restores hu hhead
  · rw [List.length_append]
    rfl
  · exact (codeAt_self _).left.right
  · rw [hpre, Nat.zero_add]

/-! ### No rounds -/

/-- The index is bound before the loop, and a function that knows it finds it
where it was. -/
structure IndexBound (ops : Ops W) (σ : Scope) (s : LoopState W) : Prop where
  saved : ∃ v, σ.savedIndex ops s = .ok (some v)
  leftover : σ.leftover s = []
  found : (emitLoad σ "_n" : LoopInst W × Scope).2 = σ
  global : (emitLoad σ "_n" : LoopInst W × Scope).1 = .loadVar "_n" → (s.globals "_n").isSome = true

theorem setGlobal_same {x : String} {v : Value} (h : s.globals x = some v) : s.setGlobal x v = s := by
  have hfun : (fun y => if y = x then some v else s.globals y) = s.globals := by
    funext y
    split
    · rename_i heq
      rw [heq, h]
    · rfl
  exact congrArg (fun f => { s with globals := f }) hfun

theorem setCapture_same {i : Nat} {v : Value} (h : s.captures i = v) : s.setCapture i v = s := by
  have hfun : (fun j => if j = i then v else s.captures j) = s.captures := by
    funext j
    split
    · rename_i heq
      rw [heq, h]
    · rfl
  exact congrArg (fun f => { s with captures := f }) hfun

/-- A local of its own does not change where other variables are loaded from. -/
theorem emitLoad_bind_ne {x y : String} (hne : x ≠ y) :
    (emitLoad (σ.bind y) x : LoopInst W × Scope).1 = (emitLoad σ x : LoopInst W × Scope).1 := by
  have hlocal : (σ.bind y).isLocal x = σ.isLocal x := by
    rw [isLocal_bind, decide_eq_false hne, Bool.false_and, Bool.false_and, Bool.or_false]
  obtain ⟨locals, hbind⟩ := bind_eq σ y
  have href := (grows_bind σ y).isRefDefaultName x
  rw [hbind] at hlocal href ⊢
  unfold emitLoad
  rw [hlocal, href]
  dsimp only
  split
  · split
    · rfl
    split
    · rfl
    split
    · rcases σ.refCaptureMap x <;> rfl
    rcases σ.captureMap x with _ | i
    · dsimp only
      split <;> rfl
    · rfl
  · rfl

theorem loaded_setLocal_ne {x y : String} (hne : x ≠ y) (v : Value) :
    (σ.bind y).loaded ops (s.setLocal y v) x = σ.loaded ops s x := by
  unfold Scope.loaded
  rw [emitLoad_bind_ne hne]
  rcases emitLoad_cases (W := W) σ x with h | h | ⟨i, h⟩ | h
  · rw [h]
    exact congrArg Except.ok (setLocal_ne s hne v)
  all_goals
    rw [h]
    rfl

theorem emitLoad_capture {x : String} (hpos : 0 < σ.fnDepth) (hlocal : σ.isLocal x = false)
    (hself : ¬σ.definingName = some x) (href : σ.isRefDefaultName x = true) :
    (emitLoad σ x : LoopInst W × Scope).1 =
      match σ.refCaptureMap x with
      | some i => .loadCapture i
      | none => .loadVar x := by
  unfold emitLoad
  rw [if_pos hpos, hlocal, if_neg Bool.false_ne_true, if_neg hself, if_pos href]
  rcases σ.refCaptureMap x <;> rfl

/-- Assigning the saved index leaves what the program sees. -/
theorem store_saved (hone : σ.OneHome "_n") (h : IndexBound ops σ s) {v : Value}
    (hv : σ.savedIndex ops s = .ok (some v)) :
    (σ.bind "_n" = σ ∧ σ.store s "_n" v = s) ∨ (0 < σ.fnDepth ∧
      σ.store s "_n" v = s.setLocal "_n" v ∧ (σ.bind "_n").isLocal "_n" = true ∧
        σ.loaded ops s "_n" = .ok v) := by
  by_cases hfn : σ.fnDepth = 0
  · rw [Scope.savedIndex, if_pos hfn, Except.ok.injEq] at hv
    refine .inl ⟨if_neg (by omega), ?_⟩
    rw [Scope.store, if_neg (by omega), setGlobal_same hv]
  have hpos : 0 < σ.fnDepth := Nat.pos_of_ne_zero hfn
  have hknows : σ.knowsIndex = true := by
    rw [← Bool.not_eq_false]
    intro hnot
    rw [Scope.savedIndex, if_neg hfn, hnot, if_neg Bool.false_ne_true] at hv
    rcases hisolated : σ.isolatedModule with _ | _
    · have hleft := h.leftover
      rw [Scope.leftover, hnot, hisolated, if_neg] at hleft
      · cases hleft
      · rintro (hzero | hfalse | hfalse)
        · exact hfn hzero
        · cases hfalse
        · cases hfalse
    · rw [hisolated, if_pos rfl] at hv
      cases hv
  have hloaded : σ.loaded ops s "_n" = .ok v := by
    rw [Scope.savedIndex, if_neg hfn, if_pos hknows] at hv
    rcases hload : σ.loaded ops s "_n" with e | w
    · rw [hload] at hv
      cases hv
    · rw [hload] at hv
      exact congrArg Except.ok (Option.some.inj (Except.ok.inj hv))
  rcases href : σ.isRefDefaultName "_n" with _ | _
  · exact .inr ⟨hpos, store_local hpos href s v, isLocal_bind_index σ href hpos, hloaded⟩
  · have hbind : σ.bind "_n" = σ := by
      unfold Scope.bind
      rw [if_pos hpos, if_pos href]
    refine .inl ⟨hbind, ?_⟩
    obtain ⟨hlocal, hself⟩ := hone href
    have hload := @emitLoad_capture W σ "_n" hpos hlocal hself href
    unfold Scope.store
    rw [if_pos hpos, if_pos href]
    unfold Scope.loaded at hloaded
    rcases hmap : σ.refCaptureMap "_n" with _ | i
    · rw [hmap] at hload
      obtain ⟨w, hw⟩ := Option.isSome_iff_exists.mp (h.global hload)
      rw [hload] at hloaded
      simp only [LoopOperand.value, hw, Except.ok.injEq] at hloaded
      exact setGlobal_same (hloaded ▸ hw)
    · rw [hmap] at hload
      rw [hload] at hloaded
      exact setCapture_same (Except.ok.inj hloaded)

theorem sameAfter_saved (hone : σ.OneHome "_n") (h : IndexBound ops σ s) {v r : Value}
    (hv : σ.savedIndex ops s = .ok (some v)) {needed : Bool} (hg : (σ.store s "_n" v).SameUser g)
    (hτ : (σ.bind "_n").SameUser τ) (hr : needed = true → r = Value.emptyList) :
    SameAfter ops needed σ τ (s.push Value.emptyList) (g.push r) := by
  rcases store_saved hone h hv with ⟨hbind, hstore⟩ | ⟨hpos, hstore, hlocal, hloaded⟩
  · rw [hbind] at hτ
    rw [hstore] at hg
    exact .push hg hτ fun hn => (hr hn).symm
  rw [hstore] at hg
  refine ⟨fun hn => congrArg some (hr hn).symm, hg.stack, hg.captures, hg.self, hg.globals,
    fun x hx => ?_, hg.world⟩
  rw [loaded_push, loaded_push, ← loaded_congr hτ hg hx]
  by_cases hne : x = "_n"
  · rw [hne, hloaded, Scope.loaded,
      emitLoad_local ((grows_bind σ "_n").fnDepth.symm ▸ hpos) hlocal]
    exact congrArg Except.ok (setLocal_self s "_n" v).symm
  · exact (loaded_setLocal_ne hne v).symm

theorem begin_sameUser (hfound : (emitLoad σ "_n" : LoopInst W × Scope).2 = σ) (base : Nat) :
    σ.SameUser (beginLoopVarRestore σ base "_n" : List (LoopInst W) × LoopVarRestore × Scope).2.2 := by
  have hnext := (Scope.SameUser.refl σ).next
  by_cases hfn : σ.fnDepth = 0
  · rw [begin_topLevel hfn]
    exact hnext
  have hpos : 0 < σ.fnDepth := Nat.pos_of_ne_zero hfn
  rcases hknows : σ.knowsIndex with _ | _
  · rcases hisolated : σ.isolatedModule with _ | _
    · rw [begin_unknown hpos hknows hisolated]
      exact ((hnext.bind_temp (isTemp_loopWasBoundVar _)).bind_temp
        (isTemp_loopOldVar _)).bind_temp (isTemp_loopOldVar _)
    · rw [begin_isolated hpos hknows hisolated]
      exact (hnext.bind_temp (isTemp_loopWasBoundVar _)).bind_temp (isTemp_loopOldVar _)
  · rw [begin_known hpos hknows]
    have hload := (emitLoad_congr (W := W) (hnext.bind_temp (isTemp_loopOldVar σ.gensym))
      isTemp_index).2
    rw [hfound] at hload
    exact hload.bind_temp (isTemp_loopOldVar _)

/-- **The N-loop without rounds** agrees with the loop that counts to zero where
its index was bound and its body brings in no variable. -/
theorem emptyNLoop_agrees (hfast : IntFastPath ops) (needed : Bool) (body : Code W)
    (hone : σ.OneHome "_n")
    (hbody : (body.compile (σ.bind "_n")).2.SameUser (σ.bind "_n"))
    {p' : List (LoopInst W) × Scope}
    (hp' : compileNLoopGeneral σ needed false (.literal (.int 0)) body = some p')
    (s : LoopState W) (hbound : IndexBound ops σ s) :
    LoopsAgree ops needed (compileNLoopUnrolled σ 0 body) p' s := by
  obtain rfl := Option.some.inj (hp'.symm.trans
    (generalNLoop_eq σ needed (.literal (.int 0)) body hone))
  have hscopes := countedSetUp_sameUser (W := W) σ needed (.int 0)
  have hgrows := grows_countedSetUp σ needed (.literal (.int 0) : Code W)
  have hholds := holdsLoop (W := W) σ needed (.literal (.int 0)) hone
  have hown := countedSetUp_own (W := W) σ needed (.literal (.int 0))
  have hissued := countedSetUp_issued (W := W) σ needed (.literal (.int 0))
  have hsetsUp := countedSetUp_setsUp ops σ needed (.literal (.int 0)) s
  generalize countedSetUp σ needed (.literal (.int 0)) = setUp at *
  obtain ⟨part, restore, τ⟩ := setUp
  dsimp only at *
  set old := nLoopOldVar σ.gensym
  have hset := hsetsUp (generalRounds needed σ.gensym part.length τ (body.compile (τ.bind old)))
    (countedEnd needed σ.gensym (part.length + 9) restore ((bindResult needed
      (body.compile (τ.bind old)).2 (nLoopResVar σ.gensym)).bind "_n")).1 (part.length + 9)
      (body.compile (τ.bind old)).1
  unfold SetsUp at hset
  dsimp only [Code.literal] at hset
  rw [← savedIndex_congr (Scope.SameUser.refl σ).next (.refl s)] at hset
  obtain ⟨v, hv⟩ := hbound.saved
  rw [hv] at hset
  obtain ⟨m, g, hm, hg, hhead⟩ := hset
  obtain ⟨n, g', hn, hg', hexit⟩ := NForm.stop
    (generalForm hfast hholds (codeAt_middle _ _ _) hown hissued) hhead rfl
  have hfirst : (σ.bind "_n").SameUser (τ.bind old) :=
    ((begin_sameUser hbound.found 0).bind "_n").trans
      (hscopes.bind_temp (isTemp_nLoopOldVar σ.gensym))
  have hgrows' : τ.Grows ((bindResult needed (body.compile (τ.bind old)).2
      (nLoopResVar σ.gensym)).bind "_n") :=
    (((grows_bind τ _).trans (body.grows _)).trans (grows_bindResult needed _ _)).bind "_n"
  have hheld : needed = true → ((bindResult needed (body.compile (τ.bind old)).2
      (nLoopResVar σ.gensym)).bind "_n").Held (nLoopResVar σ.gensym) := fun hneeded =>
    (held_bindResult _ hneeded σ.gensym).grows (isTemp_nLoopResVar _) (grows_bind _ "_n")
  have hscope : (σ.bind "_n").SameUser (((bindResult needed (body.compile (τ.bind old)).2
      (nLoopResVar σ.gensym)).bind "_n").bind "_n") := by
    have hbodies := hbody.symm.trans (body.scope _ _ hfirst)
    have hlast := (sameUser_bindResult hbodies needed σ.gensym).bind "_n"
    rw [bind_bind] at hlast
    rw [bind_bind]
    exact hlast
  have hres : needed = true → ((bindResult needed (body.compile (τ.bind old)).2
      (nLoopResVar σ.gensym)).bind "_n").read g' (nLoopResVar σ.gensym) = some Value.emptyList :=
    fun hneeded => by
      rw [hgrows'.read]
      exact hexit.result hneeded
  have hpre : (part ++ generalRounds needed σ.gensym part.length τ
      (body.compile (τ.bind old))).length = part.length + 9 := by
    rw [List.length_append]
    rfl
  obtain ⟨⟨n', hn'⟩, hend⟩ := countedEnd_runs ops rfl hpre
    (hexit.restores.keeps hgrows' fun _ _ => ⟨rfl, rfl⟩) hheld hres
  have hsteps : (machine ops (compileNLoopUnrolled σ 0 body).1).Steps 2 (at_ 0 s)
      (ended (.done (s.push Value.emptyList))) :=
    (steps_next (i := .loadConst Value.emptyList) rfl rfl).trans (steps_end rfl)
  refine (Machine.Alike.iff_of_steps hsteps ((hm.trans hn).trans hn')).mpr ?_
  refine (Machine.Alike.iff_of_final rfl rfl).mpr (.done ?_)
  rw [hend]
  have hstate : (σ.store s "_n" v).SameUser
      (((bindResult needed (body.compile (τ.bind old)).2 (nLoopResVar σ.gensym)).bind "_n").store g'
        "_n" v) := by
    rw [hgrows'.store, hgrows.store, ← store_store σ s "_n" (.int 0)]
    refine LoopState.SameUser.store ?_ (.refl σ) "_n" v
    have hentered : σ.next.entered s (.int 0) = σ.store s "_n" (.int 0) := by
      have hleft : σ.next.leftover s = [] := hbound.leftover
      rw [Scope.entered, hleft]
      rfl
    rw [← hentered]
    exact hg.trans hg'
  exact sameAfter_saved hone hbound hv hstate hscope fun hneeded => by rw [loopValue, if_pos hneeded]

end Unrolled

/-! ### Loops in the forms of the compiler -/

section Forms

variable {W : Type}

/-- The unrolled loop of `n` copies is the loop that counts to `n`. -/
def UnrollsAlike (ops : Ops W) (σ : Scope) (n : Nat) (body : Code W) (s : LoopState W) : Prop :=
  let first := (beginLoopVarRestore σ 0 "_n" : List (LoopInst W) × LoopVarRestore × Scope).2.2
  if n = 0 then
    IndexBound ops σ s ∧ (body.compile (σ.bind "_n")).2.SameUser (σ.bind "_n")
  else
    σ.savedIndex ops s ≠ .ok none ∧ CopiesSame body (body.compile (first.bind "_n")) n first

/-- The index of an N-loop has one home, and an unrolled loop restores it. -/
def NLoopSettled (ops : Ops W) (σ : Scope) (count : LoopCount W) (body : LoopBody W) (needed : Bool)
    (s : LoopState W) : Prop :=
  (count.code.compile σ.next).2.OneHome "_n" ∧
    ∀ n, count = .literal (.int n) → 0 ≤ n.toInt → n.toInt ≤ 64 → body.node.hasCtrl = false →
      UnrollsAlike ops σ n.toInt.toNat (body.code needed) s

variable {ops : Ops W} {σ : Scope} {needed : Bool} {body : LoopBody W} {s : LoopState W}
  {p p' : List (LoopInst W) × Scope}

theorem unrolled_agrees (hfast : IntFastPath ops) {n : Nat} (hn : n ≤ 64) (hone : σ.OneHome "_n")
    (hctrl : body.node.hasCtrl = false)
    (hp' : compileNLoopGeneral σ needed false (.literal (.int (Int64.ofNat n))) (body.code needed) =
      some p')
    (h : UnrollsAlike ops σ n (body.code needed) s) :
    LoopsAgree ops needed (compileNLoopUnrolled σ n (body.code needed)) p' s := by
  unfold UnrollsAlike at h
  by_cases hzero : n = 0
  · subst hzero
    rw [if_pos rfl] at h
    exact emptyNLoop_agrees hfast needed _ hone h.2 hp' s h.1
  · rw [if_neg hzero] at h
    exact unrolledNLoop_agrees hfast hzero hn needed _ hone (body.noCtrl hctrl needed) h.2 hp' s h.1

/-- The form that the compiler picks, where it is not unrolled. -/
theorem counted_agrees (hfast : IntFastPath ops) {count body : Code W}
    (hone : (count.compile σ.next).2.OneHome "_n")
    (hp : compileNLoopGeneral σ needed (0 < σ.fnDepth && !σ.traceSymbolOperands) count body = some p)
    (hp' : compileNLoopGeneral σ needed false count body = some p') :
    LoopsAgree ops needed p p' s := by
  rcases hslots : decide (0 < σ.fnDepth) && !σ.traceSymbolOperands with _ | _
  · rw [hslots] at hp
    obtain rfl := Option.some.inj (hp.symm.trans hp')
    exact .refl needed p s
  · rw [hslots] at hp
    rw [Bool.and_eq_true, decide_eq_true_eq] at hslots
    exact slotNLoop_agrees hfast needed count body hslots.1 hone hp hp' s

theorem ofNat_toNat_small {n : Int64} (h : 0 ≤ n.toInt) (h' : n.toInt ≤ 64) :
    Int64.ofNat n.toInt.toNat = n := by
  apply Int64.toInt.inj
  rw [toInt_ofNat_small (by omega), Int.toNat_of_nonneg h]

theorem nLoop_agrees (hfast : IntFastPath ops) {count : LoopCount W}
    (hp : compileNLoop σ needed count body = some p)
    (hp' : compileNLoopGeneral σ needed false count.code (body.code needed) = some p')
    (h : NLoopSettled ops σ count body needed s) : LoopsAgree ops needed p p' s := by
  obtain ⟨hone, hunroll⟩ := h
  unfold compileNLoop at hp
  dsimp only at hp
  split at hp
  · rename_i n
    split at hp
    · rename_i hsmall
      obtain rfl := Option.some.inj hp
      have hn := ofNat_toNat_small hsmall.1 hsmall.2.2
      refine unrolled_agrees hfast (by omega) hone hsmall.2.1 ?_
        (hunroll n rfl hsmall.1 hsmall.2.2 hsmall.2.1)
      rw [hn]
      exact hp'
    · exact counted_agrees hfast hone hp hp'
  · exact counted_agrees hfast hone hp hp'
  · exact absurd hp nofun
  · exact counted_agrees hfast hone hp hp'

end Forms

/-! ### A loop whose body never runs -/

/-- The top level of a program. -/
def Scope.main : Scope where
  fnDepth := 0
  locals := []
  definingName := none
  captureMap _ := none
  refCaptureMap _ := none
  refDefaultNames := []
  captures := 0
  isolatedModule := false
  traceSymbolOperands := false
  hasFunction _ := false
  gensym := 0
  ref_not_temp := nofun

/-- The body of `W[F;1]`. -/
def LoopBody.literal {W : Type} (v : Value) : LoopBody W where
  node := .literal v
  code _ := .literal v
  const := by
    rintro w - hw σ
    obtain rfl := Option.some.inj hw
    exact ⟨.refl σ, fun _ => rfl⟩
  noCtrl _ _ _ _ _ := ⟨nofun, nofun⟩

/-- A state where the index of loops is bound. -/
def LoopState.indexed : LoopState Unit where
  stack := []
  locals _ := Value.emptyList
  captures _ := Value.emptyList
  self := Value.emptyList
  globals x := if x = "_n" then some (.int 5) else none
  world := ()

end Wqpl
