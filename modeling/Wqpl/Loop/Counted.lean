/-
# Counted loops

The N-loop that counts at run time sets up its variables, runs in rounds, and
restores its index. A round is the same whether the index is kept in slots or
not (`NForm`), so the two forms agree (`slotNLoop_agrees`). The unrolled form
runs the same rounds one after the other; it agrees where the index is restored
and all copies of the body are compiled alike (`unrolledNLoop_agrees`).
-/
import Wqpl.Loop.Agreement
import Wqpl.Vm.IntOperators

namespace Wqpl

open LoopRun

section Counted

variable {W : Type} {ops : Ops W} {σ τ τ' : Scope} {s s' g g' : LoopState W}

/-! ### The code around the rounds -/

/-- A variable stays where it is while names of the compiler's own come in. -/
theorem Scope.Held.bind_temp {x y : String} (h : σ.Held x) (hne : x ≠ y) : (σ.bind y).Held x := by
  have hgrows := grows_bind σ y
  have hlocal : (σ.bind y).isLocal x = σ.isLocal x := by
    rw [isLocal_bind, decide_eq_false hne, Bool.false_and, Bool.false_and, Bool.or_false]
  obtain ⟨locals, hbind⟩ := bind_eq σ y
  have hdef : (σ.bind y).definingName = σ.definingName := by rw [hbind]
  rcases h with hfn | ⟨hfn, hx, href⟩ | ⟨hfn, hx, href, hself⟩
  · exact .inl (hgrows.fnDepth.trans hfn)
  · refine .inr (.inl ⟨hgrows.fnDepth ▸ hfn, hlocal.trans hx, ?_⟩)
    rw [hgrows.isRefDefaultName, href]
  · refine .inr (.inr ⟨hgrows.fnDepth ▸ hfn, hlocal.trans hx, ?_, hdef ▸ hself⟩)
    rw [hgrows.isRefDefaultName, href]

/-- The code before the first round, what restores the index, and the scope. -/
def countedSetUp (σ : Scope) (needed : Bool) (count : Code W) :
    List (LoopInst W) × LoopVarRestore × Scope :=
  let c := count.compile σ.next
  let begin_ := beginLoopVarRestore (c.2.bind (nLoopCountVar σ.gensym)) 2 "_n"
  let head := begin_.2.2.bind "_n"
  let init := if needed then
    [.loadConst Value.emptyList, (emitStore head (nLoopResVar σ.gensym)).1] else []
  ([.block c.1 none, (emitStore c.2 (nLoopCountVar σ.gensym)).1] ++ begin_.1 ++
    [.loadConst (.int 0), (emitStore begin_.2.2 "_n").1] ++ init, begin_.2.1,
    if needed then head.bind (nLoopResVar σ.gensym) else head)

/-- The instruction that takes the value of the body, and the one that gives
the value of the loop. -/
def storeResult (needed : Bool) (σ : Scope) (res : String) : LoopInst W :=
  if needed then (emitStore σ res).1 else .pop

def loadResult (needed : Bool) (σ : Scope) (res : String) : LoopInst W :=
  if needed then (emitLoad σ res).1 else .loadConst Value.emptyList

def bindResult (needed : Bool) (σ : Scope) (res : String) : Scope :=
  if needed then σ.bind res else σ

/-- The loop that keeps its index in slots. -/
def slotRounds (needed : Bool) (id start : Nat) (b : Block W × Scope) : List (LoopInst W) :=
  [.nLoopEnter "_n" (nLoopCountVar id) (nLoopOldVar id) (start + 4),
    .block b.1 (some (start + 4, start + 3)), storeResult needed b.2 (nLoopResVar id),
    .nLoopNext (nLoopOldVar id) "_n" start]

/-- The code and the scope behind the rounds. -/
def countedEnd (needed : Bool) (id base : Nat) (restore : LoopVarRestore) (τ : Scope) :
    List (LoopInst W) × Scope :=
  let finish := finishLoopVarRestore τ base "_n" restore
  (finish.1 ++ [loadResult needed finish.2 (nLoopResVar id)],
    if needed then (emitLoad finish.2 (nLoopResVar id) : LoopInst W × Scope).2 else finish.2)

theorem slotNLoop_eq (σ : Scope) (needed : Bool) (count body : Code W) {p : List (LoopInst W) × Scope}
    (h : compileNLoopGeneral σ needed true count body = some p) :
    let setUp : List (LoopInst W) × LoopVarRestore × Scope := countedSetUp σ needed count
    let start := setUp.1.length
    let b := body.compile (setUp.2.2.addLocal (nLoopOldVar σ.gensym))
    let end_ := countedEnd needed σ.gensym (start + 4) setUp.2.1
      (bindResult needed b.2 (nLoopResVar σ.gensym))
    setUp.2.2.isLocal "_n" = true ∧ setUp.2.2.isLocal (nLoopCountVar σ.gensym) = true ∧
      p = (setUp.1 ++ slotRounds needed σ.gensym start b ++ end_.1, end_.2) := by
  rcases needed with _ | _
  · simp only [compileNLoopGeneral, emitStore_snd, Bool.false_eq_true, if_false, if_true,
      Option.ite_none_right_eq_some, Bool.and_eq_true, Option.some.injEq] at h
    obtain ⟨⟨hindex, hcount⟩, rfl⟩ := h
    refine ⟨hindex, hcount, ?_⟩
    simp only [countedSetUp, slotRounds, countedEnd, storeResult, loadResult, bindResult,
      Bool.false_eq_true, if_false, List.append_assoc]
  · simp only [compileNLoopGeneral, emitStore_snd, if_true,
      Option.ite_none_right_eq_some, Bool.and_eq_true, Option.some.injEq] at h
    obtain ⟨⟨hindex, hcount⟩, rfl⟩ := h
    refine ⟨hindex, hcount, ?_⟩
    simp only [countedSetUp, slotRounds, countedEnd, storeResult, loadResult, bindResult,
      if_true, List.append_assoc]

/-! ### The scope at the first round -/

theorem emitLoad_snd (σ : Scope) (x : String) :
    (emitLoad σ x : LoopInst W × Scope).2 = σ ∨
      (emitLoad σ x : LoopInst W × Scope).2 = σ.captureGlobal x := by
  unfold emitLoad
  split
  · split
    · exact .inl rfl
    split
    · exact .inl rfl
    split
    · rcases σ.refCaptureMap x with _ | i <;> exact .inl rfl
    rcases σ.captureMap x with _ | i
    · dsimp only
      split
      · exact .inl rfl
      · exact .inr rfl
    · exact .inl rfl
  · exact .inl rfl

theorem Scope.OneHome.emitLoad (h : σ.OneHome "_n") (x : String) :
    (emitLoad σ x : LoopInst W × Scope).2.OneHome "_n" := by
  rcases emitLoad_snd (W := W) σ x with heq | heq
  · rw [heq]
    exact h
  · rw [heq]
    exact h

theorem Scope.OneHome.bind_temp (h : σ.OneHome "_n") {y : String} (hy : isTemp y = true) :
    (σ.bind y).OneHome "_n" :=
  h.congr ((Scope.SameUser.refl σ).bind_temp hy) isTemp_index

theorem Scope.OneHome.begin_ (h : σ.OneHome "_n") (base : Nat) :
    (beginLoopVarRestore σ base "_n" : List (LoopInst W) × LoopVarRestore × Scope).2.2.OneHome
      "_n" := by
  have hnext : σ.next.OneHome "_n" := h
  by_cases hfn : σ.fnDepth = 0
  · rw [begin_topLevel hfn]
    exact hnext
  have hpos : 0 < σ.fnDepth := Nat.pos_of_ne_zero hfn
  rcases hknows : σ.knowsIndex with _ | _
  · rcases hisolated : σ.isolatedModule with _ | _
    · rw [begin_unknown hpos hknows hisolated]
      exact ((hnext.bind_temp (isTemp_loopWasBoundVar _)).bind_temp
        (isTemp_loopOldVar _)).bind_temp (isTemp_loopOldVar _)
    · rw [begin_isolated hpos hknows hisolated]
      exact (hnext.bind_temp (isTemp_loopWasBoundVar _)).bind_temp (isTemp_loopOldVar _)
  · rw [begin_known hpos hknows]
    exact (hnext.bind_temp (isTemp_loopOldVar _)).emitLoad (W := W) "_n" |>.bind_temp
      (isTemp_loopOldVar _)

/-- The loop keeps its index in one place, and its count in a name of its own. -/
structure HoldsLoop (τ : Scope) (id : Nat) : Prop where
  index : τ.Held "_n"
  count : τ.Held (nLoopCountVar id)

theorem grows_begin_next (σ : Scope) (base : Nat) :
    σ.next.Grows (beginLoopVarRestore σ base "_n" : List (LoopInst W) × LoopVarRestore × Scope).2.2 := by
  have hnext := Scope.Grows.refl σ.next
  by_cases hfn : σ.fnDepth = 0
  · rw [begin_topLevel hfn]
    exact hnext
  have hpos : 0 < σ.fnDepth := Nat.pos_of_ne_zero hfn
  rcases hknows : σ.knowsIndex with _ | _
  · rcases hisolated : σ.isolatedModule with _ | _
    · rw [begin_unknown hpos hknows hisolated]
      exact ((hnext.bind _).bind _).bind _
    · rw [begin_isolated hpos hknows hisolated]
      exact (hnext.bind _).bind _
  · rw [begin_known hpos hknows]
    exact ((hnext.bind _).trans (grows_emitLoad _ _)).bind _

theorem grows_begin (σ : Scope) (base : Nat) :
    σ.Grows (beginLoopVarRestore σ base "_n" : List (LoopInst W) × LoopVarRestore × Scope).2.2 :=
  ((Scope.Grows.refl σ).next).trans (grows_begin_next σ base)

theorem grows_bindResult (needed : Bool) (σ : Scope) (res : String) :
    σ.Grows (bindResult needed σ res) := by
  rw [bindResult]
  split
  · exact grows_bind σ res
  · exact .refl σ

theorem countedSetUp_scope (σ : Scope) (needed : Bool) (count : Code W) :
    (countedSetUp σ needed count).2.2 = bindResult needed ((beginLoopVarRestore
      ((count.compile σ.next).2.bind (nLoopCountVar σ.gensym)) 2 "_n" :
        List (LoopInst W) × LoopVarRestore × Scope).2.2.bind "_n") (nLoopResVar σ.gensym) := by
  rcases needed <;> rfl

theorem Scope.Held.bindResult {x : String} (h : σ.Held x) (needed : Bool) {res : String}
    (hne : x ≠ res) : (bindResult needed σ res).Held x := by
  rw [Wqpl.bindResult]
  split
  · exact h.bind_temp hne
  · exact h

theorem nLoopCountVar_ne_res (id id' : Nat) : nLoopCountVar id ≠ nLoopResVar id' :=
  append_ne (x := "--vm-n-loop-count-") (y := "--vm-n-loop-res-") 12 (by decide) (by decide)
    (by decide) _ _

theorem holdsLoop (σ : Scope) (needed : Bool) (count : Code W)
    (hone : (count.compile σ.next).2.OneHome "_n") :
    HoldsLoop (countedSetUp σ needed count).2.2 σ.gensym := by
  rw [countedSetUp_scope]
  have hcount := held_bind_temp (count.compile σ.next).2 (isTemp_nLoopCountVar σ.gensym)
  have hone' := (hone.bind_temp (isTemp_nLoopCountVar σ.gensym)).begin_ (W := W) 2
  refine ⟨(held_bind _ _ hone').bindResult needed (index_ne_temp (isTemp_nLoopResVar _)), ?_⟩
  refine Scope.Held.bindResult ?_ needed (nLoopCountVar_ne_res _ _)
  exact hcount.grows (isTemp_nLoopCountVar _) ((grows_begin _ _).trans (grows_bind _ _))

/-- The loop that keeps its index in a variable. -/
def generalRounds (needed : Bool) (id start : Nat) (τ : Scope) (b : Block W × Scope) :
    List (LoopInst W) :=
  let τ' := bindResult needed b.2 (nLoopResVar id)
  [.binaryOp .lt (operandForName τ "_n").1 (operandForName τ (nLoopCountVar id)).1,
    .jumpIfFalse (start + 9), (emitLoad τ "_n").1, (emitStore τ (nLoopOldVar id)).1,
    .block b.1 (some (start + 9, start + 6)), storeResult needed b.2 (nLoopResVar id),
    .binaryOp .add (operandForName τ' (nLoopOldVar id)).1 (.const (.int 1)),
    (emitStore τ' "_n").1, .jump start]

theorem generalNLoop_eq (σ : Scope) (needed : Bool) (count body : Code W)
    (hone : (count.compile σ.next).2.OneHome "_n") :
    let setUp : List (LoopInst W) × LoopVarRestore × Scope := countedSetUp σ needed count
    let start := setUp.1.length
    let b := body.compile (setUp.2.2.bind (nLoopOldVar σ.gensym))
    let end_ := countedEnd needed σ.gensym (start + 9) setUp.2.1
      ((bindResult needed b.2 (nLoopResVar σ.gensym)).bind "_n")
    compileNLoopGeneral σ needed false count body =
      some (setUp.1 ++ generalRounds needed σ.gensym start setUp.2.2 b ++ end_.1, end_.2) := by
  have hholds := holdsLoop σ needed count hone
  have hindex := operandForName_scope hholds.index
  have hcount := operandForName_scope hholds.count
  have hload := emitLoad_scope (W := W) hholds.index
  have hold : (bindResult needed (body.compile ((countedSetUp σ needed count).2.2.bind
      (nLoopOldVar σ.gensym))).2 (nLoopResVar σ.gensym)).Held (nLoopOldVar σ.gensym) :=
    (held_bind_temp _ (isTemp_nLoopOldVar _)).grows (isTemp_nLoopOldVar _)
      ((body.grows _).trans (grows_bindResult needed _ _))
  have holdScope := operandForName_scope hold
  rcases needed with _ | _
  · simp only [countedSetUp, bindResult, Bool.false_eq_true, if_false] at hindex hcount hload holdScope
    simp only [compileNLoopGeneral, emitStore_snd, Bool.false_eq_true, if_false, hindex, hcount, hload,
      holdScope, countedSetUp, generalRounds, countedEnd, storeResult, loadResult, bindResult,
      List.append_assoc]
  · simp only [countedSetUp, bindResult, if_true] at hindex hcount hload holdScope
    simp only [compileNLoopGeneral, emitStore_snd, Bool.false_eq_true, if_false, if_true, hindex,
      hcount, hload, holdScope, countedSetUp, generalRounds, countedEnd, storeResult, loadResult,
      bindResult, List.append_assoc]

/-! ### Rounds -/

/-- The names that hold the loop's own values over its rounds. -/
def loopNames (id : Nat) (restore : LoopVarRestore) : List String :=
  nLoopCountVar id :: nLoopResVar id :: restore.names

/-- What stays under the names. -/
def Kept (names : List String) (s s' : LoopState W) : Prop :=
  ∀ x ∈ names, s'.locals x = s.locals x ∧ s'.globals x = s.globals x

theorem Kept.store {names : List String} (σ : Scope) (s : LoopState W) {x : String}
    (hx : x ∉ names) (v : Value) : Kept names s (σ.store s x v) := by
  intro y hy
  have hne : y ≠ x := fun heq => hx (heq ▸ hy)
  unfold Scope.store
  split
  · split
    · rcases σ.refCaptureMap x with _ | i
      · exact ⟨rfl, if_neg hne⟩
      · exact ⟨rfl, rfl⟩
    · exact ⟨if_neg hne, rfl⟩
  · exact ⟨rfl, if_neg hne⟩

/-- A counted loop in one of its forms: the code, the places of the first round
and of the end, the scope, what restores the index, and the body. -/
structure NLoop (W : Type) where
  code : List (LoopInst W)
  start : Nat
  exit : Nat
  scope : Scope
  restore : LoopVarRestore
  body : Block W

/-- The state behind the rounds. -/
structure NExit (L : NLoop W) (needed : Bool) (id : Nat) (saved : Option Value) (g : LoopState W)
    (k r : Value) : Prop where
  count : L.scope.read g (nLoopCountVar id) = some k
  result : needed = true → L.scope.read g (nLoopResVar id) = some r
  restores : Restores L.scope g L.restore saved

/-- The state before a round, with the index, the count and the result so far. -/
structure NHead (L : NLoop W) (needed : Bool) (id : Nat) (saved : Option Value) (g : LoopState W)
    (i k r : Value) : Prop extends NExit L needed id saved g k r where
  index : L.scope.read g "_n" = some i

/-- The state after the body: the next index is assigned, or there is none. -/
def NNext (ops : Ops W) (L : NLoop W) (needed : Bool) (id : Nat) (saved : Option Value)
    (g s : LoopState W) (i k r : Value) : Prop :=
  match nLoopIndex ops i with
  | .ok j => ∃ n g', (machine ops L.code).Steps (n + 1) (at_ L.start g) (at_ L.start g') ∧
      (L.scope.store s "_n" j).SameUser g' ∧ NHead L needed id saved g' j k r
  | .error e => ∃ n g', (machine ops L.code).Steps (n + 1) (at_ L.start g)
      (ended (.left (.error e) g')) ∧ s.SameUser g'

/-- How a round goes on after its body. -/
def NRound (ops : Ops W) (L : NLoop W) (needed : Bool) (id : Nat) (saved : Option Value)
    (g : LoopState W) (i k r : Value) : Option (BlockEnd W) → Prop
  | none => ∃ n, (machine ops L.code).Steps (n + 1) (at_ L.start g) lost
  | some (.value v s) => NNext ops L needed id saved g s i k (if needed then v else r)
  | some (.continue_ s) => NNext ops L needed id saved g s i k r
  | some (.break_ s) => ∃ n g', (machine ops L.code).Steps (n + 1) (at_ L.start g)
      (at_ L.exit g') ∧ s.SameUser g' ∧ NExit L needed id saved g' k r
  | some (.leave x s) => ∃ n g', (machine ops L.code).Steps (n + 1) (at_ L.start g)
      (ended (.left x g')) ∧ s.SameUser g'

/-- Every round tests the index, runs the body and counts on. -/
structure NForm (ops : Ops W) (L : NLoop W) (needed : Bool) (id : Nat) (saved : Option Value) :
    Prop where
  error : ∀ {g i k r e}, NHead L needed id saved g i k r → nLoopCondition ops i k = .error e →
    ∃ n g', (machine ops L.code).Steps (n + 1) (at_ L.start g) (ended (.left (.error e) g')) ∧
      g.SameUser g'
  stop : ∀ {g i k r}, NHead L needed id saved g i k r → nLoopCondition ops i k = .ok false →
    ∃ n g', (machine ops L.code).Steps (n + 1) (at_ L.start g) (at_ L.exit g') ∧
      g.SameUser g' ∧ NExit L needed id saved g' k r
  enter : ∀ {g i k r}, NHead L needed id saved g i k r → nLoopCondition ops i k = .ok true →
    ∃ g₁, g.SameUser g₁ ∧ NRound ops L needed id saved g i k r (L.body g₁)

/-! ### What a round keeps -/

theorem read_kept_names {names : List String} (h : Kept names s s') {x : String} (hx : x ∈ names)
    (htemp : isTemp x = true) (σ : Scope) : σ.read s' x = σ.read s x := by
  rw [read_temp σ _ htemp, read_temp σ _ htemp, (h x hx).1, (h x hx).2]

theorem mem_names_restore {id : Nat} {restore : LoopVarRestore} {x : String}
    (hx : x ∈ restore.names) : x ∈ loopNames id restore :=
  List.mem_cons_of_mem _ (List.mem_cons_of_mem _ hx)

section Keeps

variable {L : NLoop W} {needed : Bool} {id : Nat} {saved : Option Value} {k r : Value}

theorem NExit.keeps (h : NExit L needed id saved g k r)
    (hk : Kept (loopNames id L.restore) g g') : NExit L needed id saved g' k r where
  count := by
    rw [read_kept_names hk (List.mem_cons_self ..) (isTemp_nLoopCountVar id)]
    exact h.count
  result hn := by
    have hmem : nLoopResVar id ∈ loopNames id L.restore :=
      List.mem_cons_of_mem _ (List.mem_cons_self ..)
    rw [read_kept_names hk hmem (isTemp_nLoopResVar id)]
    exact h.result hn
  restores := h.restores.keeps (.refl _) fun x hx => hk x (mem_names_restore hx)

/-- The names of a loop are none of the program's. -/
def OwnNames (id : Nat) (restore : LoopVarRestore) : Prop :=
  nLoopResVar id ∉ restore.names ∧ nLoopOldVar id ∉ loopNames id restore ∧
    ∀ x ∈ loopNames id restore, isTemp x = true

theorem NExit.takes (h : NExit L needed id saved g k r) (hown : OwnNames id L.restore) (v : Value) :
    NExit L needed id saved (if needed then L.scope.store g (nLoopResVar id) v else g) k
      (if needed then v else r) := by
  rcases needed with _ | _
  · exact h
  · refine ⟨?_, fun _ => read_store_self L.scope g _ v, ?_⟩
    · simp only [if_true]
      rw [read_temp_store _ _ (isTemp_nLoopCountVar id) (nLoopCountVar_ne_res id id)]
      exact h.count
    · exact h.restores.keeps (.refl _) fun x hx => Kept.store _ _ hown.1 v x hx

theorem NExit.setIndex (h : NExit L needed id saved g k r) (hown : OwnNames id L.restore)
    (j : Value) : NHead L needed id saved (L.scope.store g "_n" j) j k r := by
  have hindex : "_n" ∉ loopNames id L.restore := fun hmem => by
    have htemp := hown.2.2 _ hmem
    rw [isTemp_index] at htemp
    exact absurd htemp nofun
  exact { h.keeps (Kept.store _ _ hindex j) with index := read_store_self L.scope g "_n" j }

theorem sameUser_takes (σ : Scope) (s : LoopState W) (needed : Bool) (id : Nat) (v : Value) :
    s.SameUser (if needed then σ.store s (nLoopResVar id) v else s) := by
  split
  · exact sameUser_store_temp σ s (isTemp_nLoopResVar id) v
  · exact .refl s

theorem exec_storeResult (ops : Ops W) (needed : Bool) (σ : Scope) (id : Nat) (s : LoopState W)
    (v : Value) : (storeResult needed σ (nLoopResVar id)).exec ops (s.push v) =
      .next (if needed then σ.store s (nLoopResVar id) v else s) := by
  rcases needed with _ | _
  · rfl
  · exact exec_emitStore σ _ s v

end Keeps

/-! ### The parts of a round -/

/-- The test of the index runs into the body, to the end, or into an error. -/
def NTest (ops : Ops W) (code : List (LoopInst W)) (τ : Scope) (id start pc exit : Nat) : Prop :=
  ∀ g i k, τ.read g "_n" = some i → τ.read g (nLoopCountVar id) = some k →
    match nLoopCondition ops i k with
    | .ok true => ∃ n, (machine ops code).Steps (n + 1) (at_ start g)
        (at_ pc (τ.store g (nLoopOldVar id) i))
    | .ok false => ∃ n, (machine ops code).Steps (n + 1) (at_ start g) (at_ exit g)
    | .error e => ∃ n, (machine ops code).Steps (n + 1) (at_ start g) (ended (.left (.error e) g))

/-- Behind the body the next index is assigned. -/
def NBack (ops : Ops W) (code : List (LoopInst W)) (τ : Scope) (id start pc : Nat) : Prop :=
  ∀ s i, τ.read s (nLoopOldVar id) = some i →
    match nLoopIndex ops i with
    | .ok j => ∃ n, (machine ops code).Steps n (at_ pc s) (at_ start (τ.store s "_n" j))
    | .error e => ∃ n, (machine ops code).Steps n (at_ pc s) (ended (.left (.error e) s))

section Parts

variable {code : List (LoopInst W)} {start pc exit id : Nat} {restore : LoopVarRestore}
  {needed : Bool} {body : Code W} {saved : Option Value}

theorem NBack.next {L : NLoop W} {k r i : Value} {n : Nat}
    (hback : NBack ops L.code L.scope id L.start pc) (hown : OwnNames id L.restore)
    (hsteps : (machine ops L.code).Steps (n + 1) (at_ L.start g) (at_ pc s'))
    (hsame : s.SameUser s') (hexit : NExit L needed id saved s' k r)
    (hold : L.scope.read s' (nLoopOldVar id) = some i) :
    NNext ops L needed id saved g s i k r := by
  have hnext := hback s' i hold
  unfold NNext
  rcases hj : nLoopIndex ops i with e | j
  · rw [hj] at hnext
    obtain ⟨m, hm⟩ := hnext
    refine ⟨n + m, s', ?_, hsame⟩
    have htotal := hsteps.trans hm
    rwa [Nat.add_right_comm] at htotal
  · rw [hj] at hnext
    obtain ⟨m, hm⟩ := hnext
    refine ⟨n + m, _, ?_, hsame.store (.refl _) "_n" j, hexit.setIndex hown j⟩
    have htotal := hsteps.trans hm
    rwa [Nat.add_right_comm] at htotal

/-- **A round from its parts.** -/
theorem NForm.of_parts (htest : NTest ops code τ id start pc exit)
    (hblock : code[pc]? = some (.block (body.compile (τ.bind (nLoopOldVar id))).1
      (some (exit, pc + 2))))
    (hstore : code[pc + 1]? = some (storeResult needed (body.compile (τ.bind (nLoopOldVar id))).2
      (nLoopResVar id)))
    (hback : NBack ops code τ id start (pc + 2)) (hown : OwnNames id restore)
    (hissued : ∀ x ∈ nLoopOldVar id :: loopNames id restore, Issued τ.gensym x) :
    NForm ops ⟨code, start, exit, τ, restore, (body.compile (τ.bind (nLoopOldVar id))).1⟩ needed id
      saved := by
  have hgensym : (τ.bind (nLoopOldVar id)).gensym = τ.gensym := by
    obtain ⟨locals, hbind⟩ := bind_eq τ (nLoopOldVar id)
    rw [hbind]
  have hgrows : τ.Grows (body.compile (τ.bind (nLoopOldVar id))).2 :=
    (grows_bind τ _).trans (body.grows _)
  constructor
  · intro g i k r e hhead hcond
    have htest := htest g i k hhead.index hhead.count
    rw [hcond] at htest
    obtain ⟨n, hn⟩ := htest
    exact ⟨n, g, hn, .refl g⟩
  · intro g i k r hhead hcond
    have htest := htest g i k hhead.index hhead.count
    rw [hcond] at htest
    obtain ⟨n, hn⟩ := htest
    exact ⟨n, g, hn, .refl g, hhead.toNExit⟩
  · intro g i k r hhead hcond
    have htest := htest g i k hhead.index hhead.count
    rw [hcond] at htest
    obtain ⟨n, hn⟩ := htest
    refine ⟨τ.store g (nLoopOldVar id) i, sameUser_store_temp τ g (isTemp_nLoopOldVar id) i, ?_⟩
    have hexit := hhead.toNExit.keeps (Kept.store τ g hown.2.1 i)
    have hread := read_store_self τ g (nLoopOldVar id) i
    generalize τ.store g (nLoopOldVar id) i = g₁ at hn hexit hread
    dsimp only
    rcases hb : (body.compile (τ.bind (nLoopOldVar id))).1 g₁ with _ | e
    · have hlost : (LoopInst.block (body.compile (τ.bind (nLoopOldVar id))).1
          (some (exit, pc + 2))).exec ops g₁ = .lost := by
        simp only [LoopInst.exec, hb]
      exact ⟨_, hn.trans (steps_lost hblock hlost)⟩
    -- the body leaves the values of the loop
    have hkept : Kept (nLoopOldVar id :: loopNames id restore) g₁ e.state := fun x hx =>
      body.keeps _ _ e hb x (hgensym.symm ▸ hissued x hx)
    have hexit' := hexit.keeps fun x hx => hkept x (List.mem_cons_of_mem _ hx)
    have hread' : τ.read e.state (nLoopOldVar id) = some i := by
      rw [read_kept_names hkept (List.mem_cons_self ..) (isTemp_nLoopOldVar id)]
      exact hread
    rcases e with ⟨v, s⟩ | s | s | ⟨x, s⟩
    · have hnext : (LoopInst.block (body.compile (τ.bind (nLoopOldVar id))).1
          (some (exit, pc + 2))).exec ops g₁ = .next (s.push v) := by
        simp only [LoopInst.exec, hb]
      have htake : (storeResult needed (body.compile (τ.bind (nLoopOldVar id))).2
          (nLoopResVar id)).exec ops (s.push v) =
            .next (if needed then τ.store s (nLoopResVar id) v else s) := by
        rw [exec_storeResult, hgrows.store]
      have hsteps := (hn.trans (steps_next hblock hnext)).trans (steps_next hstore htake)
      refine hback.next hown hsteps (sameUser_takes τ s needed id v) (hexit'.takes hown v) ?_
      have hne : nLoopOldVar id ≠ nLoopResVar id := fun heq => hown.2.1 <| by
        rw [heq]
        exact List.mem_cons_of_mem _ (List.mem_cons_self ..)
      dsimp only
      split
      · rw [read_temp_store τ s (isTemp_nLoopOldVar id) hne]
        exact hread'
      · exact hread'
    · have hjump : (LoopInst.block (body.compile (τ.bind (nLoopOldVar id))).1
          (some (exit, pc + 2))).exec ops g₁ = .jump exit s := by
        simp only [LoopInst.exec, hb]
      exact ⟨_, s, hn.trans (steps_jump hblock hjump), .refl s, hexit'⟩
    · have hjump : (LoopInst.block (body.compile (τ.bind (nLoopOldVar id))).1
          (some (exit, pc + 2))).exec ops g₁ = .jump (pc + 2) s := by
        simp only [LoopInst.exec, hb]
      exact hback.next hown (hn.trans (steps_jump hblock hjump)) (.refl s) hexit' hread'
    · have hleave : (LoopInst.block (body.compile (τ.bind (nLoopOldVar id))).1
          (some (exit, pc + 2))).exec ops g₁ = .leave x s := by
        simp only [LoopInst.exec, hb]
      exact ⟨_, s, hn.trans (steps_leave hblock hleave), .refl s⟩

end Parts

theorem codeAt_middle (part rounds end_ : List (LoopInst W)) :
    CodeAt (part ++ rounds ++ end_) part.length rounds := by
  have hright := (codeAt_self (part ++ rounds ++ end_)).left.right
  rwa [Nat.zero_add] at hright

/-! ### The index in slots -/

theorem read_local {x : String} (hfn : 0 < τ.fnDepth) (href : τ.isRefDefaultName x = false)
    (g : LoopState W) : τ.read g x = some (g.locals x) := by
  unfold Scope.read
  rw [if_pos hfn, href, if_neg Bool.false_ne_true]

theorem store_local {x : String} (hfn : 0 < τ.fnDepth) (href : τ.isRefDefaultName x = false)
    (g : LoopState W) (v : Value) : τ.store g x v = g.setLocal x v := by
  unfold Scope.store
  rw [if_pos hfn, href, if_neg Bool.false_ne_true]

theorem addLocal_temp {x : String} (hfn : 0 < τ.fnDepth) (hx : isTemp x = true) :
    τ.addLocal x = τ.bind x := by
  unfold Scope.bind
  rw [if_pos hfn, isRefDefaultName_temp τ hx, if_neg Bool.false_ne_true]

section Slots

variable {code : List (LoopInst W)} {start id : Nat} {restore : LoopVarRestore} {needed : Bool}
  {body : Code W} {saved : Option Value}

theorem slotTest (hfn : 0 < τ.fnDepth) (href : τ.isRefDefaultName "_n" = false)
    (h : code[start]? = some (.nLoopEnter "_n" (nLoopCountVar id) (nLoopOldVar id) (start + 4))) :
    NTest ops code τ id start (start + 1) (start + 4) := by
  intro g i k hindex hcount
  rw [read_local hfn href] at hindex
  rw [read_local hfn (isRefDefaultName_temp τ (isTemp_nLoopCountVar id))] at hcount
  obtain rfl := Option.some.inj hindex
  obtain rfl := Option.some.inj hcount
  rcases hcond : nLoopCondition ops (g.locals "_n") (g.locals (nLoopCountVar id)) with e | _ | _
  · have hleave : (LoopInst.nLoopEnter "_n" (nLoopCountVar id) (nLoopOldVar id) (start + 4)).exec
        ops g = .leave (.error e) g := by
      simp only [LoopInst.exec, hcond]
    exact ⟨0, steps_leave h hleave⟩
  · have hjump : (LoopInst.nLoopEnter "_n" (nLoopCountVar id) (nLoopOldVar id) (start + 4)).exec
        ops g = .jump (start + 4) g := by
      simp only [LoopInst.exec, hcond]
    exact ⟨0, steps_jump h hjump⟩
  · have hnext : (LoopInst.nLoopEnter "_n" (nLoopCountVar id) (nLoopOldVar id) (start + 4)).exec
        ops g = .next (τ.store g (nLoopOldVar id) (g.locals "_n")) := by
      rw [store_local hfn (isRefDefaultName_temp τ (isTemp_nLoopOldVar id))]
      simp only [LoopInst.exec, hcond]
    exact ⟨0, steps_next h hnext⟩

theorem slotBack {pc : Nat} (hfn : 0 < τ.fnDepth) (href : τ.isRefDefaultName "_n" = false)
    (h : code[pc]? = some (.nLoopNext (nLoopOldVar id) "_n" start)) :
    NBack ops code τ id start pc := by
  intro s i hold
  rw [read_local hfn (isRefDefaultName_temp τ (isTemp_nLoopOldVar id))] at hold
  obtain rfl := Option.some.inj hold
  rcases hj : nLoopIndex ops (s.locals (nLoopOldVar id)) with e | j
  · have hleave : (LoopInst.nLoopNext (nLoopOldVar id) "_n" start).exec ops s =
        .leave (.error e) s := by
      simp only [LoopInst.exec, hj]
    exact ⟨1, steps_leave h hleave⟩
  · have hjump : (LoopInst.nLoopNext (nLoopOldVar id) "_n" start).exec ops s =
        .jump start (τ.store s "_n" j) := by
      rw [store_local hfn href]
      simp only [LoopInst.exec, hj]
    exact ⟨1, steps_jump h hjump⟩

theorem slotForm (hfn : 0 < τ.fnDepth) (href : τ.isRefDefaultName "_n" = false)
    (hcode : CodeAt code start (slotRounds needed id start (body.compile (τ.bind (nLoopOldVar id)))))
    (hown : OwnNames id restore)
    (hissued : ∀ x ∈ nLoopOldVar id :: loopNames id restore, Issued τ.gensym x) :
    NForm ops ⟨code, start, start + 4, τ, restore, (body.compile (τ.bind (nLoopOldVar id))).1⟩
      needed id saved :=
  .of_parts (slotTest hfn href (hcode 0 _ rfl)) (hcode 1 _ rfl) (hcode 2 _ rfl)
    (slotBack hfn href (hcode 3 _ rfl)) hown hissued

/-! ### The index in a variable -/

/-- The operator decides, unless the fast path answers. -/
theorem binaryOpValue_cases (op : BinaryOperator) {left right : LoopOperand} {i k : Value}
    {s : LoopState W} (hl : left.value ops s = .ok i) (hr : right.value ops s = .ok k) :
    binaryOpValue ops op left right s = Exec.evalBinary ops op i k ∨
      ∃ a b v, i = .int a ∧ k = .int b ∧ Exec.evalIntBinary ops op a b = some v ∧
        binaryOpValue ops op left right s = .ok v := by
  unfold binaryOpValue
  rw [hr, hl]
  dsimp only [bind, Except.bind]
  split
  · rename_i a b
    split
    · rcases hv : Exec.evalIntBinary ops op a b with _ | v
      · exact .inl rfl
      · exact .inr ⟨a, b, v, rfl, rfl, hv, rfl⟩
    · exact .inl rfl
  · exact .inl rfl

theorem binaryOpValue_lt {left right : LoopOperand} {i k : Value} {s : LoopState W}
    (hl : left.value ops s = .ok i) (hr : right.value ops s = .ok k) :
    binaryOpValue ops .lt left right s = Exec.evalBinary ops .lt i k := by
  rcases binaryOpValue_cases .lt hl hr with h | ⟨a, b, v, rfl, rfl, hv, h⟩
  · exact h
  · rw [h, ← Option.some.inj hv]
    rfl

theorem nLoopCondition_eq (ops : Ops W) (i k : Value) :
    nLoopCondition ops i k = (Exec.evalBinary ops .lt i k).bind fun v =>
      match v.tryToRustBool with
      | some b => .ok b
      | none => .error .domain := by
  unfold nLoopCondition
  split
  · rfl
  · rfl

/-- The next index is the sum, where integers are added as the operator adds them. -/
theorem nLoopIndex_eq (hfast : IntFastPath ops) (i : Value) :
    nLoopIndex ops i = Exec.evalBinary ops .add i (.int 1) := by
  unfold nLoopIndex
  split
  · rename_i a
    split
    · rename_i n hsum
      have hsome : Exec.evalIntBinary ops .add a 1 = some (.int n) :=
        congrArg (Option.map Value.int) hsum
      exact (hfast _ _ _ _ hsome).symm
    · rfl
  · rfl

theorem binaryOpValue_add (hfast : IntFastPath ops) {left : LoopOperand} {i : Value}
    {s : LoopState W} (hl : left.value ops s = .ok i) :
    binaryOpValue ops .add left (.const (.int 1)) s = nLoopIndex ops i := by
  rw [nLoopIndex_eq hfast]
  have hr : (LoopOperand.const (.int 1)).value ops s = .ok (.int 1) := rfl
  rcases binaryOpValue_cases .add hl hr with h | ⟨a, b, v, rfl, hb, hv, h⟩
  · exact h
  · obtain rfl := Value.int.inj hb
    rw [h, hfast _ _ _ _ hv]

theorem generalTest (hholds : HoldsLoop τ id)
    (hcode : CodeAt code start (generalRounds needed id start τ (body.compile (τ.bind (nLoopOldVar id))))) :
    NTest ops code τ id start (start + 4) (start + 9) := by
  intro g i k hindex hcount
  have h0 := hcode 0 _ rfl
  have h1 := hcode 1 _ rfl
  have h2 := hcode 2 _ rfl
  have h3 := hcode 3 _ rfl
  have hleft : (operandForName τ "_n").1.value ops g = .ok i :=
    operandForName_held hholds.index hindex
  have hvalue := binaryOpValue_lt hleft (operandForName_held hholds.count hcount)
  rw [nLoopCondition_eq]
  rcases hless : Exec.evalBinary ops .lt i k with e | v
  · rw [hless] at hvalue
    have hleave : (LoopInst.binaryOp .lt (operandForName τ "_n").1
        (operandForName τ (nLoopCountVar id)).1).exec ops g = .leave (.error e) g := by
      simp only [LoopInst.exec, hvalue]
    exact ⟨0, steps_leave h0 hleave⟩
  rw [hless] at hvalue
  have hnext : (LoopInst.binaryOp .lt (operandForName τ "_n").1
      (operandForName τ (nLoopCountVar id)).1).exec ops g = .next (g.push v) := by
    simp only [LoopInst.exec, hvalue]
  have hbool := @exec_jumpIfFalse W ops v g (start + 9)
  have hsteps := steps_next h0 hnext
  dsimp only [Except.bind]
  rcases hb : v.tryToRustBool with _ | _ | _
  · rw [hb] at hbool
    exact ⟨1, hsteps.trans (steps_leave h1 hbool)⟩
  · rw [hb] at hbool
    exact ⟨1, hsteps.trans (steps_jump h1 hbool)⟩
  · rw [hb] at hbool
    exact ⟨3, ((hsteps.trans (steps_next h1 hbool)).trans
      (steps_next h2 (emitLoad_held hholds.index hindex))).trans
      (steps_next h3 (exec_emitStore τ (nLoopOldVar id) g i))⟩

theorem generalBack (hfast : IntFastPath ops)
    (hcode : CodeAt code start (generalRounds needed id start τ (body.compile (τ.bind (nLoopOldVar id))))) :
    NBack ops code τ id start (start + 6) := by
  intro s i hold
  have h6 := hcode 6 _ rfl
  have h7 := hcode 7 _ rfl
  have h8 := hcode 8 _ rfl
  have hgrows : τ.Grows (bindResult needed (body.compile (τ.bind (nLoopOldVar id))).2
      (nLoopResVar id)) :=
    ((grows_bind τ _).trans (body.grows _)).trans (grows_bindResult needed _ _)
  have hheld : (bindResult needed (body.compile (τ.bind (nLoopOldVar id))).2
      (nLoopResVar id)).Held (nLoopOldVar id) :=
    (held_bind_temp _ (isTemp_nLoopOldVar _)).grows (isTemp_nLoopOldVar _)
      ((body.grows _).trans (grows_bindResult needed _ _))
  have hread := hold
  rw [← hgrows.read] at hread
  have hvalue := binaryOpValue_add hfast (operandForName_held hheld hread)
  rcases hj : nLoopIndex ops i with e | j
  · rw [hj] at hvalue
    have hleave : (LoopInst.binaryOp .add (operandForName (bindResult needed (body.compile
        (τ.bind (nLoopOldVar id))).2 (nLoopResVar id)) (nLoopOldVar id)).1 (.const (.int 1))).exec
          ops s = .leave (.error e) s := by
      simp only [LoopInst.exec, hvalue]
    exact ⟨1, steps_leave h6 hleave⟩
  · rw [hj] at hvalue
    have hnext : (LoopInst.binaryOp .add (operandForName (bindResult needed (body.compile
        (τ.bind (nLoopOldVar id))).2 (nLoopResVar id)) (nLoopOldVar id)).1 (.const (.int 1))).exec
          ops s = .next (s.push j) := by
      simp only [LoopInst.exec, hvalue]
    have hstore : (emitStore (bindResult needed (body.compile (τ.bind (nLoopOldVar id))).2
        (nLoopResVar id)) "_n").1.exec ops (s.push j) = .next (τ.store s "_n" j) := by
      rw [exec_emitStore, hgrows.store]
    exact ⟨_, ((steps_next h6 hnext).trans (steps_next h7 hstore)).trans (steps_jump h8 rfl)⟩

theorem generalForm (hfast : IntFastPath ops) (hholds : HoldsLoop τ id)
    (hcode : CodeAt code start (generalRounds needed id start τ (body.compile (τ.bind (nLoopOldVar id)))))
    (hown : OwnNames id restore)
    (hissued : ∀ x ∈ nLoopOldVar id :: loopNames id restore, Issued τ.gensym x) :
    NForm ops ⟨code, start, start + 9, τ, restore, (body.compile (τ.bind (nLoopOldVar id))).1⟩
      needed id saved :=
  .of_parts (generalTest hholds hcode) (hcode 4 _ rfl) (hcode 5 _ rfl) (generalBack hfast hcode)
    hown hissued

end Slots

/-! ### Two forms of the rounds -/

section Alike

variable {L L' : NLoop W} {needed : Bool} {id : Nat} {saved : Option Value}

/-- The rounds end alike from states that the program cannot tell apart. -/
def AlikeAtEnds (ops : Ops W) (L L' : NLoop W) (needed : Bool) (id : Nat) (saved : Option Value)
    (Q : LoopEnd W → LoopEnd W → Prop) : Prop :=
  ∀ g g' k r, g.SameUser g' → NExit L needed id saved g k r → NExit L' needed id saved g' k r →
    Machine.Alike (machine ops L.code) (machine ops L'.code) Q (at_ L.exit g) (at_ L'.exit g')

/-- **Forms of a counted loop** whose bodies do the same are alike at their
heads, if they are behind their rounds. -/
theorem NForm.alike {Q : LoopEnd W → LoopEnd W → Prop} (h : NForm ops L needed id saved)
    (h' : NForm ops L' needed id saved) (hscope : L.scope.SameUser L'.scope)
    (hbody : L.body.Same L'.body) (hends : AlikeAtEnds ops L L' needed id saved Q)
    (hleft : ∀ x (g g' : LoopState W), g.SameUser g' → Q (.left x g) (.left x g'))
    {i k r : Value} (hg : g.SameUser g') (hhead : NHead L needed id saved g i k r)
    (hhead' : NHead L' needed id saved g' i k r) :
    Machine.Alike (machine ops L.code) (machine ops L'.code) Q (at_ L.start g) (at_ L'.start g') := by
  let Rel : LoopRun W → LoopRun W → Prop := fun t t' => ∃ g g' i k r, t = at_ L.start g ∧
    t' = at_ L'.start g' ∧ g.SameUser g' ∧ NHead L needed id saved g i k r ∧
      NHead L' needed id saved g' i k r
  have hrel : Rel (at_ L.start g) (at_ L'.start g') := ⟨g, g', i, k, r, rfl, rfl, hg, hhead, hhead'⟩
  refine Machine.Alike.of_rounds ?_ hrel
  rintro _ _ ⟨g, g', i, k, r, rfl, rfl, hg, hhead, hhead'⟩
  have left_ : ∀ {m n x s s'}, s.SameUser s' →
      (machine ops L.code).Steps (m + 1) (at_ L.start g) (ended (.left x s)) →
      (machine ops L'.code).Steps (n + 1) (at_ L'.start g') (ended (.left x s')) →
      ∃ m n t t', (machine ops L.code).Steps (m + 1) (at_ L.start g) t ∧
        (machine ops L'.code).Steps (n + 1) (at_ L'.start g') t' ∧
          (Rel t t' ∨ Machine.Alike (machine ops L.code) (machine ops L'.code) Q t t') :=
    fun hs hm hn => ⟨_, _, _, _, hm, hn, .inr ((Machine.Alike.iff_of_final rfl rfl).mpr
      (hleft _ _ _ hs))⟩
  have exit_ : ∀ {m n s s' r}, s.SameUser s' →
      (machine ops L.code).Steps (m + 1) (at_ L.start g) (at_ L.exit s) →
      (machine ops L'.code).Steps (n + 1) (at_ L'.start g') (at_ L'.exit s') →
      NExit L needed id saved s k r → NExit L' needed id saved s' k r →
      ∃ m n t t', (machine ops L.code).Steps (m + 1) (at_ L.start g) t ∧
        (machine ops L'.code).Steps (n + 1) (at_ L'.start g') t' ∧
          (Rel t t' ∨ Machine.Alike (machine ops L.code) (machine ops L'.code) Q t t') :=
    fun hs hm hn he he' => ⟨_, _, _, _, hm, hn, .inr (hends _ _ _ _ hs he he')⟩
  have next_ : ∀ {s s' r}, s.SameUser s' → NNext ops L needed id saved g s i k r →
      NNext ops L' needed id saved g' s' i k r →
      ∃ m n t t', (machine ops L.code).Steps (m + 1) (at_ L.start g) t ∧
        (machine ops L'.code).Steps (n + 1) (at_ L'.start g') t' ∧
          (Rel t t' ∨ Machine.Alike (machine ops L.code) (machine ops L'.code) Q t t') := by
    intro s s' r hs hnext hnext'
    unfold NNext at hnext hnext'
    rcases hj : nLoopIndex ops i with e | j
    · rw [hj] at hnext hnext'
      obtain ⟨m, t, hm, ht⟩ := hnext
      obtain ⟨n, t', hn, ht'⟩ := hnext'
      exact left_ ((ht.symm.trans hs).trans ht') hm hn
    · rw [hj] at hnext hnext'
      obtain ⟨m, t, hm, ht, hhead⟩ := hnext
      obtain ⟨n, t', hn, ht', hhead'⟩ := hnext'
      have hsame := (ht.symm.trans (hs.store hscope "_n" j)).trans ht'
      exact ⟨m, n, _, _, hm, hn, .inl ⟨t, t', j, k, r, rfl, rfl, hsame, hhead, hhead'⟩⟩
  rcases hcond : nLoopCondition ops i k with e | _ | _
  · obtain ⟨m, t, hm, ht⟩ := h.error hhead hcond
    obtain ⟨n, t', hn, ht'⟩ := h'.error hhead' hcond
    exact left_ ((ht.symm.trans hg).trans ht') hm hn
  · obtain ⟨m, t, hm, ht, he⟩ := h.stop hhead hcond
    obtain ⟨n, t', hn, ht', he'⟩ := h'.stop hhead' hcond
    exact exit_ ((ht.symm.trans hg).trans ht') hm hn he he'
  · obtain ⟨g₁, hg₁, hround⟩ := h.enter hhead hcond
    obtain ⟨g₁', hg₁', hround'⟩ := h'.enter hhead' hcond
    have hsame := hbody g₁ g₁' ((hg₁.symm.trans hg).trans hg₁')
    revert hround hround'
    generalize L.body g₁ = b at hsame
    generalize L'.body g₁' = b' at hsame
    intro hround hround'
    rcases hsame with ⟨hsame⟩ | _
    · rcases hsame with @⟨v, s, s', hs⟩ | @⟨s, s', hs⟩ | @⟨s, s', hs⟩ | @⟨x, s, s', hs⟩
      · exact next_ hs hround hround'
      · obtain ⟨m, t, hm, ht, he⟩ := hround
        obtain ⟨n, t', hn, ht', he'⟩ := hround'
        exact exit_ ((ht.symm.trans hs).trans ht') hm hn he he'
      · exact next_ hs hround hround'
      · obtain ⟨m, t, hm, ht⟩ := hround
        obtain ⟨n, t', hn, ht'⟩ := hround'
        exact left_ ((ht.symm.trans hs).trans ht') hm hn
    · obtain ⟨m, hm⟩ := hround
      obtain ⟨n, hn⟩ := hround'
      exact ⟨m, n, _, _, hm, hn, .inr (.of_endless not_ends_lost not_ends_lost)⟩

end Alike

/-! ### Behind the rounds -/

theorem finish_scope {r : LoopVarRestore} {saved : Option Value} (h : Restores τ s r saved)
    (base : Nat) :
    (finishLoopVarRestore τ base "_n" r : List (LoopInst W) × Scope).2 = τ.bind "_n" := by
  rcases h with @⟨old, was, saved, hfn, -, -⟩ | @⟨old, v, hfn, hlocal, -⟩ |
    @⟨old, was, saved, hfn, hlocal, hlocal', -, -⟩
  · simp only [finishLoopVarRestore, emitLoad_topLevel hfn]
    unfold Scope.bind
    rw [if_neg (by omega)]
  · simp only [finishLoopVarRestore, emitLoad_local hfn hlocal, emitStore_snd]
  · simp only [finishLoopVarRestore, emitLoad_local hfn hlocal, emitLoad_local hfn hlocal',
      emitStore_snd]

theorem read_restored (τ : Scope) (s : LoopState W) (saved : Option Value) {x : String}
    (hx : isTemp x = true) : τ.read (τ.restored s saved) x = τ.read s x := by
  rcases saved with _ | v
  · rfl
  · exact read_temp_store τ s hx (index_ne_temp hx).symm v

/-- The value of a loop. -/
def loopValue (needed : Bool) (r : Value) : Value := if needed then r else Value.emptyList

theorem countedEnd_runs (ops : Ops W) {needed : Bool} {id base : Nat} {restore : LoopVarRestore}
    {saved : Option Value} {r : Value} {code pre : List (LoopInst W)}
    (hcode : code = pre ++ (countedEnd needed id base restore τ).1) (hpre : pre.length = base)
    (hrestores : Restores τ g restore saved)
    (hheld : needed = true → τ.Held (nLoopResVar id))
    (hres : needed = true → τ.read g (nLoopResVar id) = some r) :
    (∃ n, (machine ops code).Steps n (at_ base g)
      (ended (.done ((τ.restored g saved).push (loopValue needed r))))) ∧
      (countedEnd needed id base restore τ : List (LoopInst W) × Scope).2 = τ.bind "_n" := by
  have hscope := finish_scope (W := W) hrestores base
  have hheld' : needed = true → (τ.bind "_n").Held (nLoopResVar id) := fun hn =>
    (hheld hn).grows (isTemp_nLoopResVar id) (grows_bind τ _)
  constructor
  · have hat : CodeAt code base (countedEnd needed id base restore τ).1 := by
      rw [hcode, ← hpre]
      have happend := (codeAt_self (pre ++ (countedEnd needed id pre.length restore τ).1)).right
      rwa [Nat.zero_add] at happend
    have hfinish : ∃ n, (machine ops code).Steps n (at_ base g) _ := finish_runs hat.left hrestores
    obtain ⟨n, hn⟩ := hfinish
    have hload := hat.right 0 _ rfl
    have hexec : (loadResult needed (τ.bind "_n") (nLoopResVar id)).exec ops (τ.restored g saved) =
        .next ((τ.restored g saved).push (loopValue needed r)) := by
      rcases needed with _ | _
      · rfl
      · refine emitLoad_held (hheld' rfl) ?_
        rw [(grows_bind τ _).read, read_restored τ g saved (isTemp_nLoopResVar id)]
        exact hres rfl
    rw [hscope, Nat.add_zero] at hload
    have hend : code[base + (finishLoopVarRestore τ base "_n" restore :
        List (LoopInst W) × Scope).1.length + 1]? = none := by
      rw [List.getElem?_eq_none_iff, hcode, List.length_append, hpre]
      simp only [countedEnd, List.length_append, List.length_singleton]
      omega
    exact ⟨_, (hn.trans (steps_next hload hexec)).trans (steps_end hend)⟩
  · rcases needed with _ | _
    · exact hscope
    · simp only [countedEnd, if_true]
      rw [hscope, emitLoad_scope (hheld' rfl)]

/-! ### Before the rounds -/

theorem knowsIndex_congr (h : σ.SameUser τ) : σ.knowsIndex = τ.knowsIndex := by
  unfold Scope.knowsIndex
  rw [h.locals "_n" isTemp_index, h.definingName, h.captureMap, h.refCaptureMap,
    isRefDefaultName_congr h]

theorem savedIndex_congr (h : σ.SameUser τ) (hs : s.SameUser s') :
    σ.savedIndex ops s = τ.savedIndex ops s' := by
  unfold Scope.savedIndex
  rw [h.fnDepth, knowsIndex_congr h, h.isolatedModule, loaded_congr h hs isTemp_index,
    hs.globals "_n" isTemp_index]

theorem leftover_congr (h : σ.SameUser τ) (hs : s.SameUser s') : σ.leftover s = τ.leftover s' := by
  unfold Scope.leftover
  rw [h.fnDepth, knowsIndex_congr h, h.isolatedModule, hs.globals "_n" isTemp_index]

theorem begin_names (σ : Scope) (base : Nat) :
    ∀ x ∈ (beginLoopVarRestore σ base "_n" : List (LoopInst W) × LoopVarRestore × Scope).2.1.names,
      x = loopOldVar "_n" σ.gensym ∨ x = loopWasBoundVar "_n" σ.gensym := by
  have hpair : ∀ x ∈ [loopOldVar "_n" σ.gensym, loopWasBoundVar "_n" σ.gensym],
      x = loopOldVar "_n" σ.gensym ∨ x = loopWasBoundVar "_n" σ.gensym := by
    intro x hx
    rwa [List.mem_pair] at hx
  by_cases hfn : σ.fnDepth = 0
  · rw [begin_topLevel hfn]
    exact hpair
  have hpos : 0 < σ.fnDepth := Nat.pos_of_ne_zero hfn
  rcases hknows : σ.knowsIndex with _ | _
  · rcases hisolated : σ.isolatedModule with _ | _
    · rw [begin_unknown hpos hknows hisolated]
      exact hpair
    · rw [begin_isolated hpos hknows hisolated]
      exact hpair
  · rw [begin_known hpos hknows]
    exact fun x hx => .inl (List.mem_singleton.mp hx)

theorem nLoopResVar_ne_loopOld (id id' : Nat) : nLoopResVar id ≠ loopOldVar "_n" id' :=
  append_ne (x := "--vm-n-loop-res-") (y := "--vm-loop-old-" ++ "_n" ++ "-") 5 (by decide)
    (by decide) (by decide) _ _

theorem nLoopResVar_ne_wasBound (id id' : Nat) : nLoopResVar id ≠ loopWasBoundVar "_n" id' :=
  append_ne (x := "--vm-n-loop-res-") (y := "--vm-loop-was-bound-" ++ "_n" ++ "-") 5 (by decide)
    (by decide) (by decide) _ _

theorem nLoopCountVar_ne_loopOld (id id' : Nat) : nLoopCountVar id ≠ loopOldVar "_n" id' :=
  append_ne (x := "--vm-n-loop-count-") (y := "--vm-loop-old-" ++ "_n" ++ "-") 5 (by decide)
    (by decide) (by decide) _ _

theorem nLoopCountVar_ne_wasBound (id id' : Nat) : nLoopCountVar id ≠ loopWasBoundVar "_n" id' :=
  append_ne (x := "--vm-n-loop-count-") (y := "--vm-loop-was-bound-" ++ "_n" ++ "-") 5 (by decide)
    (by decide) (by decide) _ _

theorem nLoopOldVar_ne_loopOld (id id' : Nat) : nLoopOldVar id ≠ loopOldVar "_n" id' :=
  append_ne (x := "--vm-n-loop-old-") (y := "--vm-loop-old-" ++ "_n" ++ "-") 5 (by decide)
    (by decide) (by decide) _ _

theorem nLoopOldVar_ne_wasBound (id id' : Nat) : nLoopOldVar id ≠ loopWasBoundVar "_n" id' :=
  append_ne (x := "--vm-n-loop-old-") (y := "--vm-loop-was-bound-" ++ "_n" ++ "-") 5 (by decide)
    (by decide) (by decide) _ _

theorem nLoopOldVar_ne_count (id id' : Nat) : nLoopOldVar id ≠ nLoopCountVar id' :=
  append_ne (x := "--vm-n-loop-old-") (y := "--vm-n-loop-count-") 12 (by decide) (by decide)
    (by decide) _ _

theorem nLoopOldVar_ne_res (id id' : Nat) : nLoopOldVar id ≠ nLoopResVar id' :=
  append_ne (x := "--vm-n-loop-old-") (y := "--vm-n-loop-res-") 12 (by decide) (by decide)
    (by decide) _ _

section SetUp

variable {needed : Bool} {count : Code W}

/-- Names of a loop, and of the save of its index under another number. -/
theorem ownNames (id : Nat) {id' : Nat} {restore : LoopVarRestore}
    (h : ∀ x ∈ restore.names, x = loopOldVar "_n" id' ∨ x = loopWasBoundVar "_n" id') :
    OwnNames id restore := by
  refine ⟨fun hmem => ?_, fun hmem => ?_, fun x hx => ?_⟩
  · rcases h _ hmem with heq | heq
    · exact nLoopResVar_ne_loopOld id id' heq
    · exact nLoopResVar_ne_wasBound id id' heq
  · unfold loopNames at hmem
    rw [List.mem_cons, List.mem_cons] at hmem
    rcases hmem with heq | heq | hmem
    · exact nLoopOldVar_ne_count id id heq
    · exact nLoopOldVar_ne_res id id heq
    · rcases h _ hmem with heq | heq
      · exact nLoopOldVar_ne_loopOld id id' heq
      · exact nLoopOldVar_ne_wasBound id id' heq
  · unfold loopNames at hx
    rw [List.mem_cons, List.mem_cons] at hx
    rcases hx with rfl | rfl | hmem
    · exact isTemp_nLoopCountVar id
    · exact isTemp_nLoopResVar id
    · rcases h _ hmem with rfl | rfl
      · exact isTemp_loopOldVar id'
      · exact isTemp_loopWasBoundVar id'

theorem countedSetUp_own (σ : Scope) (needed : Bool) (count : Code W) :
    OwnNames σ.gensym (countedSetUp σ needed count).2.1 :=
  ownNames σ.gensym (begin_names _ 2)

/-- The names of a loop are issued before its body is compiled. -/
theorem countedSetUp_issued (σ : Scope) (needed : Bool) (count : Code W) :
    ∀ x ∈ nLoopOldVar σ.gensym :: loopNames σ.gensym (countedSetUp σ needed count).2.1,
      Issued (countedSetUp σ needed count).2.2.gensym x := by
  have hcount : σ.next.Grows ((count.compile σ.next).2.bind (nLoopCountVar σ.gensym)) :=
    (count.grows _).bind _
  have hbegin := (grows_begin_next (W := W)
    ((count.compile σ.next).2.bind (nLoopCountVar σ.gensym)) 2).gensym
  have hend : ∀ τ : Scope, τ.gensym ≤ (bindResult needed (τ.bind "_n")
      (nLoopResVar σ.gensym)).gensym := fun τ =>
    ((grows_bind τ "_n").trans (grows_bindResult needed _ _)).gensym
  rw [countedSetUp_scope]
  have htotal := hbegin.trans (hend _)
  have hnext := hcount.gensym
  have hid : σ.gensym < σ.next.gensym := Nat.lt_succ_self _
  have hid' : ((count.compile σ.next).2.bind (nLoopCountVar σ.gensym)).gensym <
      ((count.compile σ.next).2.bind (nLoopCountVar σ.gensym)).next.gensym := Nat.lt_succ_self _
  have hfirst := hid.trans_le (hnext.trans (hid'.le.trans htotal))
  intro x hx
  unfold loopNames at hx
  rw [List.mem_cons, List.mem_cons, List.mem_cons] at hx
  rcases hx with rfl | rfl | rfl | hmem
  · exact ⟨σ.gensym, hfirst, .inr (.inr (.inr (.inl rfl)))⟩
  · exact ⟨σ.gensym, hfirst, .inr (.inl rfl)⟩
  · exact ⟨σ.gensym, hfirst, .inr (.inr (.inl rfl))⟩
  · rcases begin_names _ 2 x hmem with rfl | rfl
    · exact ⟨_, hid'.trans_le htotal, .inr (.inr (.inr (.inr (.inl rfl))))⟩
    · exact ⟨_, hid'.trans_le htotal, .inr (.inr (.inr (.inr (.inr rfl))))⟩

/-- What the program sees before the first round. -/
def Scope.entered (σ : Scope) (s : LoopState W) (j : Value) : LoopState W :=
  σ.store { s with stack := σ.leftover s ++ s.stack } "_n" j

theorem entered_congr (h : σ.SameUser τ) (hs : s.SameUser s') (j : Value) :
    (σ.entered s j).SameUser (τ.entered s' j) := by
  unfold Scope.entered
  rw [leftover_congr h hs, hs.stack]
  exact (hs.setStack _).store h "_n" j

theorem read_index_store_temp (τ : Scope) (g : LoopState W) {x : String} (hx : isTemp x = true)
    (v : Value) : τ.read (τ.store g x v) "_n" = τ.read g "_n" := by
  have hne := index_ne_temp hx
  rw [store_temp τ g hx]
  unfold Scope.read
  by_cases hfn : 0 < τ.fnDepth
  · rw [if_pos hfn, if_pos hfn, if_pos hfn]
    split
    · rcases τ.refCaptureMap "_n" <;> rfl
    · exact congrArg some (setLocal_ne g hne v)
  · rw [if_neg hfn, if_neg hfn, if_neg hfn]
    exact setGlobal_ne g hne v

/-- **Set-up of a counted loop.** Its count is evaluated, its index is saved and
set to zero. -/
def SetsUp (ops : Ops W) (L : NLoop W) (σ : Scope) (needed : Bool) (count : Code W)
    (s : LoopState W) : Prop :=
  match (count.compile σ.next).1 s with
  | none => ∃ n, (machine ops L.code).Steps n (at_ 0 s) lost
  | some (.value k s₁) =>
    match (count.compile σ.next).2.savedIndex ops s₁ with
    | .error e => ∃ n g, (machine ops L.code).Steps n (at_ 0 s) (ended (.left (.error e) g)) ∧
        s₁.SameUser g
    | .ok saved => ∃ n g, (machine ops L.code).Steps n (at_ 0 s) (at_ L.start g) ∧
        ((count.compile σ.next).2.entered s₁ (.int 0)).SameUser g ∧
          NHead L needed σ.gensym saved g (.int 0) k Value.emptyList
  | some (.break_ s₁) => ∃ n, (machine ops L.code).Steps n (at_ 0 s) (ended (.left .break_ s₁))
  | some (.continue_ s₁) => ∃ n, (machine ops L.code).Steps n (at_ 0 s)
      (ended (.left .continue_ s₁))
  | some (.leave x s₁) => ∃ n, (machine ops L.code).Steps n (at_ 0 s) (ended (.left x s₁))

theorem nLoopCountVar_notMem (id : Nat) {id' : Nat} {names : List String}
    (h : ∀ x ∈ names, x = loopOldVar "_n" id' ∨ x = loopWasBoundVar "_n" id') :
    nLoopCountVar id ∉ names := by
  intro hmem
  rcases h _ hmem with heq | heq
  · exact nLoopCountVar_ne_loopOld id id' heq
  · exact nLoopCountVar_ne_wasBound id id' heq

theorem setUp_runs {L : NLoop W} (hcode : CodeAt L.code 0 (countedSetUp σ needed count).1)
    (hstart : L.start = (countedSetUp σ needed count).1.length)
    (hscope : L.scope = (countedSetUp σ needed count).2.2)
    (hrestore : L.restore = (countedSetUp σ needed count).2.1) (s : LoopState W) :
    SetsUp ops L σ needed count s := by
  have hown := countedSetUp_own σ needed count
  rw [← hrestore] at hown
  unfold SetsUp
  rw [countedSetUp_scope] at hscope
  simp only [countedSetUp] at hcode hstart hrestore
  generalize count.compile σ.next = c at hcode hstart hscope hrestore ⊢
  obtain ⟨b, σ₁⟩ := c
  dsimp only at hcode hstart hscope hrestore ⊢
  have h0 : L.code[0]? = some (.block b none) := hcode.left.left.left 0 _ rfl
  have h1 : L.code[1]? = some (emitStore σ₁ (nLoopCountVar σ.gensym)).1 :=
    hcode.left.left.left 1 _ rfl
  rcases hb : b s with _ | e
  · have hlost : (LoopInst.block b none).exec ops s = .lost := by simp only [LoopInst.exec, hb]
    exact ⟨_, steps_lost h0 hlost⟩
  rcases e with ⟨k, s₁⟩ | s₁ | s₁ | ⟨x, s₁⟩
  rotate_left
  · have hleave : (LoopInst.block b none).exec ops s = .leave .break_ s₁ := by
      simp only [LoopInst.exec, hb]
    exact ⟨_, steps_leave h0 hleave⟩
  · have hleave : (LoopInst.block b none).exec ops s = .leave .continue_ s₁ := by
      simp only [LoopInst.exec, hb]
    exact ⟨_, steps_leave h0 hleave⟩
  · have hleave : (LoopInst.block b none).exec ops s = .leave x s₁ := by
      simp only [LoopInst.exec, hb]
    exact ⟨_, steps_leave h0 hleave⟩
  have hnext : (LoopInst.block b none).exec ops s = .next (s₁.push k) := by
    simp only [LoopInst.exec, hb]
  have hsteps := (steps_next h0 hnext).trans (steps_next h1 (exec_emitStore σ₁ _ s₁ k))
  have htemp := isTemp_nLoopCountVar σ.gensym
  have hs₁ := sameUser_store_temp σ₁ s₁ htemp k
  have hread := read_store_self σ₁ s₁ (nLoopCountVar σ.gensym) k
  have hσ₁ := (Scope.SameUser.refl σ₁).bind_temp htemp
  have hgrows₁ := grows_bind σ₁ (nLoopCountVar σ.gensym)
  have hsaved : σ₁.savedIndex ops s₁ = (σ₁.bind (nLoopCountVar σ.gensym)).savedIndex ops
      (σ₁.store s₁ (nLoopCountVar σ.gensym) k) := savedIndex_congr hσ₁ hs₁
  have hbegin : Begins ops L.code (σ₁.bind (nLoopCountVar σ.gensym)) 2
      (σ₁.store s₁ (nLoopCountVar σ.gensym) k) := begin_runs hcode.left.left.right _
  have hnot := nLoopCountVar_notMem σ.gensym (begin_names (W := W)
    (σ₁.bind (nLoopCountVar σ.gensym)) 2)
  generalize σ₁.store s₁ (nLoopCountVar σ.gensym) k = s₂ at hsteps hs₁ hread hsaved hbegin
  unfold Begins at hbegin
  rw [← hsaved] at hbegin
  rw [hrestore] at hown
  generalize hbegin_eq : (beginLoopVarRestore (σ₁.bind (nLoopCountVar σ.gensym)) 2 "_n" :
    List (LoopInst W) × LoopVarRestore × Scope) = begin_ at hcode hstart hscope hrestore hbegin hown hnot
  obtain ⟨part, restore, σ₂⟩ := begin_
  dsimp only at hcode hstart hscope hrestore hbegin hown hnot ⊢
  rcases hvalue : σ₁.savedIndex ops s₁ with e | saved
  · rw [hvalue] at hbegin
    obtain ⟨n, g, hn, hg⟩ := hbegin
    exact ⟨_, g, hsteps.trans hn, hs₁.trans hg⟩
  rw [hvalue] at hbegin
  obtain ⟨n, s₃, hn, hbegun⟩ := hbegin
  have hat : CodeAt L.code (2 + part.length)
      [.loadConst (.int 0), (emitStore σ₂ "_n").1] := by
    have hright := hcode.left.right
    rwa [List.length_append, Nat.zero_add] at hright
  have hsteps₃ := (hsteps.trans hn).trans ((steps_next (hat 0 _ rfl) rfl).trans
    (steps_next (hat 1 _ rfl) (exec_emitStore σ₂ "_n" s₃ (.int 0))))
  have huser : (σ₁.entered s₁ (.int 0)).SameUser (σ₂.store s₃ "_n" (.int 0)) := by
    refine (entered_congr hσ₁ hs₁ (.int 0)).trans ?_
    rw [hbegun.grows.store]
    exact hbegun.user.store (.refl _) "_n" (.int 0)
  have hcount : σ₂.read (σ₂.store s₃ "_n" (.int 0)) (nLoopCountVar σ.gensym) = some k := by
    rw [read_temp_store σ₂ s₃ htemp (index_ne_temp htemp).symm, read_temp σ₂ s₃ htemp,
      (hbegun.keeps _ hnot).1, (hbegun.keeps _ hnot).2, ← read_temp σ₂ s₂ htemp,
      hbegun.grows.read, hgrows₁.read]
    exact hread
  have hindex : "_n" ∉ restore.names := fun hmem => by
    have htemp := hown.2.2 _ (mem_names_restore hmem)
    rw [isTemp_index] at htemp
    cases htemp
  have hrestores : Restores σ₂ (σ₂.store s₃ "_n" (.int 0)) restore saved :=
    hbegun.restores.keeps (.refl _) (Kept.store σ₂ s₃ hindex (.int 0))
  have hzero := read_store_self σ₂ s₃ "_n" (.int 0)
  generalize σ₂.store s₃ "_n" (.int 0) = s₄ at hsteps₃ huser hcount hrestores hzero
  have hgrows : σ₂.Grows (σ₂.bind "_n") := grows_bind σ₂ "_n"
  rcases needed with _ | _
  · have hstart : L.start = 2 + part.length + 0 + 1 + 1 := by
      rw [hstart]
      simp only [Bool.false_eq_true, if_false, List.append_nil, List.length_append,
        List.length_cons, List.length_nil]
    have hscope : L.scope = σ₂.bind "_n" := hscope
    refine ⟨_, s₄, hstart ▸ hsteps₃, huser, ⟨?_, (fun h => by cases h), ?_⟩, ?_⟩
    · rw [hscope, hgrows.read]
      exact hcount
    · rw [hscope, hrestore]
      exact hrestores.keeps hgrows fun _ _ => ⟨rfl, rfl⟩
    · rw [hscope, hgrows.read]
      exact hzero
  · have hscope : L.scope = (σ₂.bind "_n").bind (nLoopResVar σ.gensym) := hscope
    have hgrows' : σ₂.Grows ((σ₂.bind "_n").bind (nLoopResVar σ.gensym)) := hgrows.bind _
    have hlast : CodeAt L.code (2 + part.length + 2) [.loadConst Value.emptyList,
        (emitStore (σ₂.bind "_n") (nLoopResVar σ.gensym)).1] := by
      have hright := hcode.right
      simp only [if_true, List.length_append, List.length_cons, List.length_nil, Nat.zero_add]
        at hright
      exact hright
    have hsteps₄ := hsteps₃.trans ((steps_next (hlast 0 _ rfl) rfl).trans (steps_next (hlast 1 _ rfl)
      (exec_emitStore (σ₂.bind "_n") (nLoopResVar σ.gensym) s₄ Value.emptyList)))
    rw [hgrows.store] at hsteps₄
    have hstart : L.start = 2 + part.length + 2 + 0 + 1 + 1 := by
      rw [hstart]
      simp only [if_true, List.length_append, List.length_cons, List.length_nil]
    have htemp' := isTemp_nLoopResVar σ.gensym
    refine ⟨_, _, hstart ▸ hsteps₄, huser.trans (sameUser_store_temp σ₂ s₄ htemp' _),
      ⟨?_, fun _ => ?_, ?_⟩, ?_⟩
    · rw [hscope, hgrows'.read, read_temp_store σ₂ s₄ htemp (nLoopCountVar_ne_res _ _)]
      exact hcount
    · rw [hscope, hgrows'.read]
      exact read_store_self σ₂ s₄ _ _
    · rw [hscope, hrestore]
      refine hrestores.keeps hgrows' (Kept.store σ₂ s₄ ?_ _)
      exact hrestore ▸ hown.1
    · rw [hscope, hgrows'.read, read_index_store_temp σ₂ s₄ htemp']
      exact hzero

theorem countedSetUp_setsUp (ops : Ops W) (σ : Scope) (needed : Bool) (count : Code W)
    (s : LoopState W) (rounds end_ : List (LoopInst W)) (exit : Nat) (b : Block W) :
    SetsUp ops ⟨(countedSetUp σ needed count).1 ++ rounds ++ end_,
      (countedSetUp σ needed count).1.length, exit, (countedSetUp σ needed count).2.2,
      (countedSetUp σ needed count).2.1, b⟩ σ needed count s :=
  setUp_runs (codeAt_self _).left.left rfl rfl rfl s

/-- Loops that set up alike are alike if their rounds are. -/
theorem SetsUp.alike {L L' : NLoop W} {Q : LoopEnd W → LoopEnd W → Prop}
    (h : SetsUp ops L σ needed count s) (h' : SetsUp ops L' σ needed count s)
    (hleft : ∀ x (g g' : LoopState W), g.SameUser g' → Q (.left x g) (.left x g'))
    (hrounds : ∀ saved g g' i k r, g.SameUser g' → NHead L needed σ.gensym saved g i k r →
      NHead L' needed σ.gensym saved g' i k r →
      Machine.Alike (machine ops L.code) (machine ops L'.code) Q (at_ L.start g) (at_ L'.start g')) :
    Machine.Alike (machine ops L.code) (machine ops L'.code) Q (at_ 0 s) (at_ 0 s) := by
  have leaves : ∀ {m n x g g'}, g.SameUser g' →
      (machine ops L.code).Steps m (at_ 0 s) (ended (.left x g)) →
      (machine ops L'.code).Steps n (at_ 0 s) (ended (.left x g')) →
      Machine.Alike (machine ops L.code) (machine ops L'.code) Q (at_ 0 s) (at_ 0 s) :=
    fun hg hm hn => (Machine.Alike.iff_of_steps hm hn).mpr
      ((Machine.Alike.iff_of_final rfl rfl).mpr (hleft _ _ _ hg))
  unfold SetsUp at h h'
  rcases hb : (count.compile σ.next).1 s with _ | ⟨k, s₁⟩ | s₁ | s₁ | ⟨x, s₁⟩
  · rw [hb] at h h'
    obtain ⟨m, hm⟩ := h
    obtain ⟨n, hn⟩ := h'
    exact (Machine.Alike.iff_of_steps hm hn).mpr (.of_endless not_ends_lost not_ends_lost)
  · rw [hb] at h h'
    dsimp only at h h'
    rcases hsaved : (count.compile σ.next).2.savedIndex ops s₁ with e | saved
    · rw [hsaved] at h h'
      obtain ⟨m, g, hm, hg⟩ := h
      obtain ⟨n, g', hn, hg'⟩ := h'
      exact leaves (hg.symm.trans hg') hm hn
    · rw [hsaved] at h h'
      obtain ⟨m, g, hm, hg, hhead⟩ := h
      obtain ⟨n, g', hn, hg', hhead'⟩ := h'
      exact (Machine.Alike.iff_of_steps hm hn).mpr
        (hrounds saved g g' _ _ _ (hg.symm.trans hg') hhead hhead')
  all_goals
    rw [hb] at h h'
    obtain ⟨m, hm⟩ := h
    obtain ⟨n, hn⟩ := h'
    exact leaves (.refl _) hm hn

theorem restored_congr (h : σ.SameUser τ) (hs : s.SameUser s') (saved : Option Value) :
    (σ.restored s saved).SameUser (τ.restored s' saved) := by
  rcases saved with _ | v
  · exact hs
  · exact hs.store h "_n" v

/-- Behind their rounds, loops in scopes alike end alike. -/
theorem alikeAtEnds {L L' : NLoop W} {id : Nat} {saved : Option Value} {pre pre' : List (LoopInst W)}
    {τ' : Scope} (hcode : L.code = pre ++ (countedEnd needed id L.exit L.restore τ).1)
    (hcode' : L'.code = pre' ++ (countedEnd needed id L'.exit L'.restore τ').1)
    (hpre : pre.length = L.exit) (hpre' : pre'.length = L'.exit) (hgrows : L.scope.Grows τ)
    (hgrows' : L'.scope.Grows τ') (hheld : needed = true → τ.Held (nLoopResVar id))
    (hheld' : needed = true → τ'.Held (nLoopResVar id)) (hsame : τ.SameUser τ') :
    AlikeAtEnds ops L L' needed id saved (LoopEnd.Same ops needed
      (countedEnd needed id L.exit L.restore τ : List (LoopInst W) × Scope).2
      (countedEnd needed id L'.exit L'.restore τ' : List (LoopInst W) × Scope).2) := by
  intro g g' k r hg hexit hexit'
  have hres : needed = true → τ.read g (nLoopResVar id) = some r := fun hn => by
    rw [hgrows.read]
    exact hexit.result hn
  have hres' : needed = true → τ'.read g' (nLoopResVar id) = some r := fun hn => by
    rw [hgrows'.read]
    exact hexit'.result hn
  have hrestores := hexit.restores.keeps hgrows fun _ _ => ⟨rfl, rfl⟩
  have hrestores' := hexit'.restores.keeps hgrows' fun _ _ => ⟨rfl, rfl⟩
  obtain ⟨⟨m, hm⟩, hscope⟩ := countedEnd_runs ops hcode hpre hrestores hheld hres
  obtain ⟨⟨n, hn⟩, hscope'⟩ := countedEnd_runs ops hcode' hpre' hrestores' hheld' hres'
  rw [hscope, hscope', Machine.Alike.iff_of_steps hm hn, Machine.Alike.iff_of_final rfl rfl]
  exact .done (.push (restored_congr hsame hg saved) (hsame.bind "_n") fun _ => rfl)

end SetUp

/-! ### The loop with its index in slots -/

theorem held_bindResult (σ : Scope) {needed : Bool} (hn : needed = true) (id : Nat) :
    (bindResult needed σ (nLoopResVar id)).Held (nLoopResVar id) := by
  rw [bindResult, if_pos hn]
  exact held_bind_temp σ (isTemp_nLoopResVar id)

theorem bind_local {x : String} (hlocal : σ.isLocal x = true) : σ.bind x = σ := by
  unfold Scope.bind Scope.addLocal
  rw [if_pos hlocal, ite_self, ite_self]

/-- **The N-loop that keeps its index in slots** agrees with the one that does
not, wherever its index is assigned to a local. -/
theorem slotNLoop_agrees (hfast : IntFastPath ops) (needed : Bool) (count body : Code W)
    (hfn : 0 < σ.fnDepth) (hone : (count.compile σ.next).2.OneHome "_n")
    {p p' : List (LoopInst W) × Scope} (hp : compileNLoopGeneral σ needed true count body = some p)
    (hp' : compileNLoopGeneral σ needed false count body = some p') (s : LoopState W) :
    LoopsAgree ops needed p p' s := by
  obtain ⟨hindex, -, rfl⟩ := slotNLoop_eq σ needed count body hp
  obtain rfl := Option.some.inj (hp'.symm.trans (generalNLoop_eq σ needed count body hone))
  have hholds := holdsLoop (W := W) σ needed count hone
  have hown := countedSetUp_own (W := W) σ needed count
  have hissued := countedSetUp_issued (W := W) σ needed count
  have hscope := countedSetUp_scope (W := W) σ needed count
  have hdepth : 0 < (countedSetUp σ needed count).2.2.fnDepth := by
    have hgrows := (((((count.grows σ.next).bind (nLoopCountVar σ.gensym)).trans
      (grows_begin (W := W) _ 2)).bind "_n").trans (grows_bindResult needed _ (nLoopResVar σ.gensym)))
    rw [hscope, hgrows.fnDepth]
    exact hfn
  have href : (countedSetUp σ needed count).2.2.isRefDefaultName "_n" = false := by
    rcases hholds.index with h | ⟨-, -, h⟩ | ⟨-, h, -⟩
    · omega
    · exact h
    · rw [hindex] at h
      exact absurd h nofun
  have hset := countedSetUp_setsUp ops σ needed count s
  rw [addLocal_temp hdepth (isTemp_nLoopOldVar σ.gensym)]
  clear hscope hp hp'
  generalize countedSetUp σ needed count = setUp at *
  obtain ⟨part, restore, τ⟩ := setUp
  dsimp only at *
  have hgrows : τ.Grows (bindResult needed (body.compile (τ.bind (nLoopOldVar σ.gensym))).2
      (nLoopResVar σ.gensym)) :=
    ((grows_bind τ _).trans (body.grows _)).trans (grows_bindResult needed _ _)
  rw [bind_local (hgrows.locals _ hindex)]
  have hheld : needed = true → (bindResult needed (body.compile (τ.bind (nLoopOldVar σ.gensym))).2
      (nLoopResVar σ.gensym)).Held (nLoopResVar σ.gensym) :=
    fun hn => held_bindResult _ hn σ.gensym
  refine SetsUp.alike (hset _ _ (part.length + 4) (body.compile (τ.bind (nLoopOldVar σ.gensym))).1)
    (hset _ _ (part.length + 9) (body.compile (τ.bind (nLoopOldVar σ.gensym))).1)
    (fun x g g' hg => .left x hg) ?_
  intro saved g g' i k r hg hhead hhead'
  refine (slotForm hdepth href (codeAt_middle _ _ _) hown hissued).alike
    (generalForm hfast hholds (codeAt_middle _ _ _) hown hissued) (.refl τ) (body.respects _ _ (.refl _))
    (alikeAtEnds rfl rfl ?_ ?_ hgrows hgrows hheld hheld (.refl _))
    (fun x g g' hg => .left x hg) hg hhead hhead'
  · rw [List.length_append]
    rfl
  · rw [List.length_append]
    rfl

end Counted

end Wqpl
