/-
# findw and rfindw

The recursive search asks once about an atom it goes into; the frame, after
an answer `false`, goes into the atom again as long as layers are left. The
two also turn an index beyond `i64` into different integers. `search` is both
traversals, by the number of layers left (`findwithSearch_eq_search`,
`FindFrame.unfolds_explore`).

They are the same dialogue exactly when the threshold is 0 or every value
above the last layer is a container, and no index is recorded beyond `i64`
(`frameFind_eq_syncFind_iff`).
-/
import Wqpl.HigherOrder.Agreement

namespace Wqpl
namespace Ho

open Dialogue

/-! ### One traversal for both -/

/-- The value recorded for a path. -/
def pathValue (idx : Nat → Int64) (path : List Nat) : Value := .intList (path.map idx)

abbrev Visit := List Value → HoM (List Value × Bool)

/-- The search below an item. -/
abbrev Below := Value → List Nat → List Value → HoM (List Value)

section Search

variable (ctx : FindWithCtx) (entry : List Nat → Value) (again : Bool)

abbrev reached (results : List Value) : Bool :=
  findwithThresholdReached results.length ctx.threshold

/-- One item of a container, with the search below it if a layer is left. -/
def layerVisit (below : Option Below) (path : List Nat) (p : Value × Nat) : Visit :=
  fun results => do
    if reached ctx results then return (results, true)
    if ← callPredicate ctx.func p.1 then
      return (results ++ [entry (path ++ [p.2])], reached ctx (results ++ [entry (path ++ [p.2])]))
    match below with
    | some search => return (← search p.1 (path ++ [p.2]) results, false)
    | none => return (results, false)

/-- The items of a container with their indices, in the direction of the
search. -/
def directed (items : List Value) : List (Value × Nat) :=
  if ctx.reverse then items.zipIdx.reverse else items.zipIdx

def searchLayer (below : Option Below) : Below := fun v path results =>
  if reached ctx results then return results
  else if v.isAtom then do
    if ← callPredicate ctx.func v then return results ++ [entry path]
    match below with
    | some search => if again then search v path results else return results
    | none => return results
  else findRun ((directed ctx v.containerItems).map (layerVisit ctx entry below path)) results

/-- The search with `n` layers left. -/
def search : Nat → Below
  | 0 => searchLayer ctx entry again none
  | n + 1 => searchLayer ctx entry again (some (search n))

/-- The layers below `n`. -/
def searchBelow : Nat → Option Below
  | 0 => none
  | n + 1 => some (search ctx entry again n)

theorem search_eq (n : Nat) :
    search ctx entry again n = searchLayer ctx entry again (searchBelow ctx entry again n) := by
  cases n <;> rfl

end Search

/-! ### The recursive search -/

section Sync

variable (ctx : FindWithCtx)

/-- The visits of the items of any container. -/
def itemVisits (depth : Nat) (path : List Int64) (i : Nat) (items : List Value) :
    List (List Value → HoM (List Value × Bool)) :=
  (items.zipIdx i).map fun p =>
    findVisit ctx depth path (findwithSearch ctx (depth + 1) p.1) p.2 p.1

theorem findVisits_eq (depth : Nat) (path : List Int64) : ∀ (i : Nat) (items : List Value),
    findVisits ctx depth path i items = itemVisits ctx depth path i items
  | _, [] => by rw [findVisits]; rfl
  | i, v :: vs => by
    rw [findVisits, findVisits_eq depth path (i + 1) vs]
    rfl

theorem findEntryVisits_eq (depth : Nat) (path : List Int64) :
    ∀ (i : Nat) (entries : List (String × Value)),
      findEntryVisits ctx depth path i entries =
        itemVisits ctx depth path i (entries.map Prod.snd)
  | _, [] => by rw [findEntryVisits]; rfl
  | i, (k, v) :: es => by
    rw [findEntryVisits, findEntryVisits_eq depth path (i + 1) es]
    rfl

theorem findwithSearch_atom (depth : Nat) {v : Value} (hv : v.isAtom = true) :
    findwithSearch ctx depth v = findAtom ctx v := by
  funext path results
  rw [findwithSearch.eq_def]
  by_cases h : findwithThresholdReached results.length ctx.threshold = true
  · rw [if_pos h, findAtom, if_pos h]
  · rw [if_neg h]
    cases v <;> first | rfl | cases hv

theorem findAtomVisits_eq (depth : Nat) (path : List Int64) :
    ∀ (i : Nat) (items : List Value), (∀ v ∈ items, v.isAtom = true) →
      findAtomVisits ctx depth path i items = itemVisits ctx depth path i items
  | _, [], _ => rfl
  | i, v :: vs, h => by
    rw [findAtomVisits, findAtomVisits_eq depth path (i + 1) vs fun x hx =>
      h x (List.mem_cons_of_mem v hx), ← findwithSearch_atom ctx (depth + 1) (h v List.mem_cons_self)]
    rfl

theorem findwithSearch_container (depth : Nat) {v : Value} (hv : v.isAtom = false)
    (path : List Int64) {results : List Value} (h : reached ctx results = false) :
    findwithSearch ctx depth v path results =
      findRun (findDirected ctx (itemVisits ctx depth path 0 v.containerItems)) results := by
  have hreached : ¬findwithThresholdReached results.length ctx.threshold = true := by
    rw [← reached, h]
    simp
  rw [findwithSearch.eq_def, if_neg hreached]
  have packed : ∀ {seq}, ValueSeq.fromValue v = some seq → (∀ items, v ≠ .list items) →
      findAtomVisits ctx depth path 0 seq.values = itemVisits ctx depth path 0 v.containerItems := by
    intro seq hs hl
    rw [Value.containerItems_of_fromValue hs]
    exact findAtomVisits_eq ctx depth path 0 _ fun x hx => Value.isAtom_of_mem_values hs hx hl
  cases v with
  | list items => simp only [findVisits_eq]; rfl
  | dict entries => simp only [findEntryVisits_eq]; rfl
  | intList items => rw [← packed rfl (by simp)]; rfl
  | intRange range => rw [← packed rfl (by simp)]; rfl
  | floatList items => rw [← packed rfl (by simp)]; rfl
  | boolList items => rw [← packed rfl (by simp)]; rfl
  | string s => rw [← packed rfl (by simp)]; rfl
  | _ => cases hv

/-- One layer, given what is below it. -/
theorem findwithSearch_eq_searchLayer (depth : Nat) (below : Option Below)
    (hnone : below = none → ¬(depth : Int) < ctx.maxDepth)
    (hsome : ∀ next, below = some next → (depth : Int) < ctx.maxDepth ∧ ∀ x path results,
      findwithSearch ctx (depth + 1) x (path.map idxAsI64) results = next x path results)
    (v : Value) (path : List Nat) (results : List Value) :
    findwithSearch ctx depth v (path.map idxAsI64) results =
      searchLayer ctx (pathValue idxAsI64) false below v path results := by
  unfold searchLayer
  by_cases hr : reached ctx results = true
  · rw [if_pos hr, findwithSearch.eq_def, if_pos hr]
  rw [if_neg hr]
  by_cases hv : v.isAtom = true
  · rw [if_pos hv, findwithSearch_atom ctx depth hv, findAtom, if_neg hr]
    congr 1
    funext matched
    cases below <;> rfl
  rw [if_neg hv, findwithSearch_container ctx depth (by simpa using hv) _ (by simpa using hr)]
  have hvisit : ∀ p : Value × Nat,
      findVisit ctx depth (path.map idxAsI64) (findwithSearch ctx (depth + 1) p.1) p.2 p.1 =
        layerVisit ctx (pathValue idxAsI64) below path p := by
    intro p
    funext results
    unfold findVisit layerVisit
    have hpath : path.map idxAsI64 ++ [idxAsI64 p.2] = (path ++ [p.2]).map idxAsI64 := by simp
    simp only [hpath]
    cases hb : below with
    | none =>
      simp only [hnone hb, if_false]
      rfl
    | some next =>
      obtain ⟨hlt, heq⟩ := hsome next hb
      simp only [hlt, if_true, heq]
      rfl
  congr 1
  unfold itemVisits findDirected directed
  simp only [hvisit]
  cases ctx.reverse <;> simp

/-- The recursive search is `search` without going into an atom again. -/
theorem findwithSearch_eq_search : ∀ (n depth : Nat) (v : Value) (path : List Nat)
    (results : List Value), (ctx.maxDepth - depth).toNat = n →
      findwithSearch ctx depth v (path.map idxAsI64) results =
        search ctx (pathValue idxAsI64) false n v path results
  | 0, depth, v, path, results, hn =>
    findwithSearch_eq_searchLayer ctx depth none (fun _ => by omega) (by simp) v path results
  | n + 1, depth, v, path, results, hn => by
    refine findwithSearch_eq_searchLayer ctx depth
      (some (search ctx (pathValue idxAsI64) false n)) (by simp) ?_ v path results
    rintro _ ⟨⟩
    exact ⟨by omega, fun x path results =>
      findwithSearch_eq_search n (depth + 1) x path results (by omega)⟩

end Sync

/-! ### The frame -/

namespace FindFrame

/-- The value the frame records for a path. -/
def entry (d : Bool) (path : List Nat) : Value :=
  if d then Value.emptyList else pathValue idxSaturating path

/-- The candidate of an item of a container. -/
def candidateOf (depth : Int) (path : List Nat) (p : Value × Nat) : FindTask :=
  .candidate { value := p.1, parentDepth := depth, path := (path ++ [p.2]).map idxSaturating }

theorem range_filterMap (items : List Value) (g : Value × Nat → FindTask) :
    ((List.range items.length).filterMap fun i => items[i]?.map fun x => g (x, i)) =
      items.zipIdx.map g := by
  induction items using List.reverseRecOn with
  | nil => rfl
  | append_singleton xs x ih =>
    have hprefix : ((List.range xs.length).filterMap fun i =>
        (xs ++ [x])[i]?.map fun y => g (y, i)) =
          (List.range xs.length).filterMap fun i => xs[i]?.map fun y => g (y, i) := by
      refine List.filterMap_congr fun i hi => ?_
      rw [List.getElem?_append_left (List.mem_range.mp hi)]
    rw [List.length_append, List.length_singleton, List.range_succ, List.filterMap_append, hprefix,
      ih]
    simp [List.zipIdx_append]

theorem children_container {v : Value} (hv : v.isAtom = false) (ctx : FindWithCtx) (depth : Int)
    (path : List Nat) :
    children ctx.reverse v depth (path.map idxSaturating) =
      some ((directed ctx v.containerItems).map (candidateOf depth path)) := by
  have h := range_filterMap v.containerItems (candidateOf depth path)
  have hpath : ∀ i, path.map idxSaturating ++ [idxSaturating i] =
      (path ++ [i]).map idxSaturating := by simp
  simp only [children, containerLen_of_container hv, containerGet_eq, hpath, directed]
  cases ctx.reverse with
  | false => exact congrArg some h
  | true =>
    simp only [if_true, List.filterMap_reverse, List.map_reverse, ← h]
    rfl

theorem children_atom {v : Value} (hv : v.isAtom = true) (reverse : Bool) (depth : Int)
    (path : List Int64) : children reverse v depth path = none := by
  simp [children, containerLen_of_isAtom hv]

variable (ctx : FindWithCtx) (d : Bool)

/-- The frame of a search with tasks left and no question open. -/
def searching (tasks : List FindTask) (results : List Value) : FindFrame :=
  ⟨ctx.func, ctx.threshold, ctx.maxDepth, ctx.reverse, tasks, none, none, results, d⟩

/-- Above the threshold the tasks left do not matter. -/
theorem step_reached {results : List Value} (h : reached ctx results = true)
    (tasks tasks' : List FindTask) :
    step (searching ctx d tasks results) = step (searching ctx d tasks' results) := by
  have hr : ∀ ts, (searching ctx d ts results).thresholdReached = true := fun _ => h
  simp only [step, hr, if_true]
  rfl

/-- A candidate: its callback, and what its answer leaves to do. -/
theorem unfolds_candidate {results : List Value} (h : reached ctx results = false)
    (tasks : List FindTask) (v : Value) (depth : Int) (path : List Nat) (k : Bool → HoM Value)
    (hk : ∀ matched, Unfolds step
      (takeAnswer (searching ctx d tasks results) matched ⟨v, depth, path.map idxSaturating⟩) (k matched)) :
    Unfolds step (searching ctx d (.candidate ⟨v, depth, path.map idxSaturating⟩ :: tasks) results)
      (callPredicate ctx.func v >>= k) := by
  have hr : ∀ ts pending cb, thresholdReached ⟨ctx.func, ctx.threshold, ctx.maxDepth, ctx.reverse,
      ts, pending, cb, results, d⟩ = false := fun _ _ _ => h
  have hcall : step (searching ctx d (.candidate ⟨v, depth, path.map idxSaturating⟩ :: tasks) results) =
      .call (ctx.func, [v]) (acceptCallbackResult ⟨ctx.func, ctx.threshold, ctx.maxDepth,
        ctx.reverse, tasks, some ⟨v, depth, path.map idxSaturating⟩, none, results, d⟩) := by
    simp [step, searching, hr, stepTask]
  rw [callPredicate_bind]
  refine .call hcall fun a => ?_
  cases ha : predicateResult a with
  | error e => exact .ready (by simp [step, acceptCallbackResult, hr, predicateBool_eq, ha])
  | ok matched =>
    have hstate : takeAnswer ⟨ctx.func, ctx.threshold, ctx.maxDepth, ctx.reverse, tasks,
        some ⟨v, depth, path.map idxSaturating⟩, some a, results, d⟩ matched
          ⟨v, depth, path.map idxSaturating⟩ =
        takeAnswer (searching ctx d tasks results) matched ⟨v, depth, path.map idxSaturating⟩ := rfl
    refine .silent ?_ (hk matched)
    simp [step, acceptCallbackResult, hr, predicateBool_eq, ha, hstate]

section Unfolds

variable {ctx d}

/-- The candidates of a container in order, given how the search goes on below
an item. -/
theorem unfolds_candidates (depth : Int) (path : List Nat) (below : Option Below)
    (hnone : below = none → ¬depth < ctx.maxDepth)
    (hsome : ∀ next, below = some next → depth < ctx.maxDepth ∧
      ∀ x path tasks results (k : List Value → HoM Value),
        (∀ rs, Unfolds step (searching ctx d tasks rs) (k rs)) →
        Unfolds step (searching ctx d (.explore x (depth + 1) (path.map idxSaturating) :: tasks)
          results) (next x path results >>= k))
    {tasks : List FindTask} {k : List Value → HoM Value}
    (hk : ∀ rs, Unfolds step (searching ctx d tasks rs) (k rs)) :
    ∀ (ps : List (Value × Nat)) (results : List Value),
      Unfolds step (searching ctx d (ps.map (candidateOf depth path) ++ tasks) results)
        (findRun (ps.map (layerVisit ctx (entry d) below path)) results >>= k)
  | [], results => hk results
  | p :: ps, results => by
    have ih := unfolds_candidates depth path below hnone hsome hk ps
    simp only [List.map_cons, List.cons_append, findRun, layerVisit]
    by_cases hr : reached ctx results = true
    · simp only [if_pos hr, pure_bind, if_true]
      exact .of_step_eq (step_reached ctx d hr _ tasks) (hk results)
    simp only [if_neg hr, bind_assoc]
    refine unfolds_candidate ctx d (by simpa using hr) _ p.1 depth (path ++ [p.2]) _ fun matched => ?_
    cases matched with
    | true =>
      simp only [if_true, pure_bind, takeAnswer]
      by_cases hr' : reached ctx (results ++ [entry d (path ++ [p.2])]) = true
      · simp only [if_pos hr', pure_bind]
        exact .of_step_eq (step_reached ctx d hr' _ tasks) (hk _)
      · simp only [if_neg hr']
        exact ih _
    | false =>
      simp only [Bool.false_eq_true, if_false, takeAnswer]
      cases hb : below with
      | none =>
        simp only [searching, hnone hb, if_false, pure_bind, Bool.false_eq_true]
        rw [hb] at ih
        exact ih results
      | some next =>
        obtain ⟨hlt, hnext⟩ := hsome next hb
        simp only [searching, hlt, if_true, bind_assoc, pure_bind, Bool.false_eq_true, if_false]
        rw [hb] at ih
        exact hnext p.1 (path ++ [p.2]) _ results _ ih

/-- One layer, given how the search goes on below it. -/
theorem unfolds_layer (depth : Int) (below : Option Below)
    (hnone : below = none → ¬depth < ctx.maxDepth)
    (hsome : ∀ next, below = some next → depth < ctx.maxDepth ∧
      ∀ x path tasks results (k : List Value → HoM Value),
        (∀ rs, Unfolds step (searching ctx d tasks rs) (k rs)) →
        Unfolds step (searching ctx d (.explore x (depth + 1) (path.map idxSaturating) :: tasks)
          results) (next x path results >>= k))
    (v : Value) (path : List Nat) {tasks : List FindTask} (results : List Value)
    {k : List Value → HoM Value} (hk : ∀ rs, Unfolds step (searching ctx d tasks rs) (k rs)) :
    Unfolds step (searching ctx d (.explore v depth (path.map idxSaturating) :: tasks) results)
      (searchLayer ctx (entry d) true below v path results >>= k) := by
  unfold searchLayer
  by_cases hr : reached ctx results = true
  · rw [if_pos hr, pure_bind]
    exact .of_step_eq (step_reached ctx d hr _ tasks) (hk results)
  have hr' : reached ctx results = false := by simpa using hr
  have hthreshold : ∀ ts, (searching ctx d ts results).thresholdReached = false := fun _ => hr'
  rw [if_neg hr]
  by_cases hv : v.isAtom = true
  · have hexplore : step (searching ctx d
        (.explore v depth (path.map idxSaturating) :: tasks) results) =
          .silent (searching ctx d
            (.candidate ⟨v, depth, path.map idxSaturating⟩ :: tasks) results) := by
      simp only [step, hthreshold]
      simp [searching, stepTask, children_atom hv]
    rw [if_pos hv, bind_assoc]
    refine .silent hexplore (unfolds_candidate ctx d hr' tasks v depth path _ fun matched => ?_)
    cases matched with
    | true => exact hk _
    | false =>
      simp only [Bool.false_eq_true, if_false, takeAnswer]
      cases hb : below with
      | none =>
        simp only [searching, hnone hb, if_false, pure_bind]
        exact hk results
      | some next =>
        obtain ⟨hlt, hnext⟩ := hsome next hb
        simp only [searching, hlt, if_true]
        exact hnext v path tasks results k hk
  · have hv' : v.isAtom = false := by simpa using hv
    have hexplore : step (searching ctx d
        (.explore v depth (path.map idxSaturating) :: tasks) results) =
          .silent (searching ctx d ((directed ctx v.containerItems).map (candidateOf depth path) ++
            tasks) results) := by
      simp only [step, hthreshold]
      simp [searching, stepTask, children_container hv' ctx]
    rw [if_neg hv]
    exact .silent hexplore (unfolds_candidates depth path below hnone hsome hk _ results)

/-- The frame is `search`, going into an atom again. -/
theorem unfolds_explore : ∀ (n : Nat) (v : Value) (depth : Int) (path : List Nat)
    (tasks : List FindTask) (results : List Value) (k : List Value → HoM Value),
    (ctx.maxDepth - depth).toNat = n →
    (∀ rs, Unfolds step (searching ctx d tasks rs) (k rs)) →
    Unfolds step (searching ctx d (.explore v depth (path.map idxSaturating) :: tasks) results)
      (search ctx (entry d) true n v path results >>= k)
  | 0, v, depth, path, tasks, results, k, hn, hk =>
    unfolds_layer depth none (fun _ => by omega) (by simp) v path results hk
  | n + 1, v, depth, path, tasks, results, k, hn, hk => by
    refine unfolds_layer depth (some (search ctx (entry d) true n)) (by simp) ?_ v path results hk
    rintro _ ⟨⟩
    exact ⟨by omega, fun x path tasks results k =>
      unfolds_explore n x (depth + 1) path tasks results k (by omega)⟩

end Unfolds

/-- The frame after the check of its parameters. -/
theorem unfolds_new (v : Value) :
    Unfolds step (searching ctx d [.explore v 0 []] [])
      (do return finalValue d (.list (← search ctx (entry d) true ctx.maxDepth.toNat v [] []))) :=
  unfolds_explore ctx.maxDepth.toNat v 0 [] [] [] (fun rs => pure (finalValue d (.list rs)))
    (by omega) fun rs => .ready (by
      unfold step
      split_ifs <;> cases d <;> rfl)

end FindFrame

/-! ### Where the traversals agree -/

/-- Above the last layer there are only containers. -/
def findDeep : Nat → Value → Bool
  | 0, _ => true
  | n + 1, v => !v.isAtom && v.containerItems.all (findDeep n)

/-- Every index recorded fits `i64`. -/
def findIndexable : Nat → Value → Bool
  | 0, v => decide (v.containerItems.length ≤ 2 ^ 63)
  | n + 1, v =>
    decide (v.containerItems.length ≤ 2 ^ 63) && v.containerItems.all (findIndexable n)

theorem pathValue_eq {path : List Nat} (h : ∀ i ∈ path, i < 2 ^ 63) :
    pathValue idxSaturating path = pathValue idxAsI64 path := by
  unfold pathValue
  congr 1
  refine List.map_congr_left fun i hi => ?_
  rw [idxSaturating, if_pos (h i hi), idxAsI64]

/-- An index beyond `i64` is recorded differently. -/
theorem idx_ne : idxAsI64 (2 ^ 63) ≠ idxSaturating (2 ^ 63) := by decide

section Compare

variable (ctx : FindWithCtx) (d : Bool)

/-- Results that no later step tells apart: equal ones, or as many when they
are dropped. -/
def Alike (rs rs' : List Value) : Prop :=
  rs.length = rs'.length ∧ (d = false → rs = rs')

theorem Alike.append {rs rs' : List Value} (h : Alike d rs rs') {path : List Nat}
    (hpath : d = false → ∀ i ∈ path, i < 2 ^ 63) :
    Alike d (rs ++ [pathValue idxAsI64 path]) (rs' ++ [FindFrame.entry d path]) := by
  refine ⟨by simp [h.1], fun hd => ?_⟩
  rw [h.2 hd, FindFrame.entry, if_neg (by simp [hd]), pathValue_eq (hpath hd)]

theorem Alike.reached {rs rs' : List Value} (h : Alike d rs rs') :
    Ho.reached ctx rs = Ho.reached ctx rs' := by
  rw [Ho.reached, Ho.reached, h.1]

variable {d}

/-- What is below a layer agrees on a value: nothing is, or searches that do. -/
def BelowAgree (d : Bool) (below below' : Option Below) (x : Value) : Prop :=
  (below = none ∧ below' = none) ∨
  ∃ next next', below = some next ∧ below' = some next' ∧
    ∀ (path : List Nat) (rs rs' : List Value) (k k' : List Value → HoM Value),
      (d = false → ∀ i ∈ path, i < 2 ^ 63) → Alike d rs rs' →
      (∀ rs rs', Alike d rs rs' → k rs = k' rs') →
      (next x path rs >>= k) = (next' x path rs' >>= k')

theorem mem_directed {items : List Value} {p : Value × Nat} (h : p ∈ directed ctx items) :
    p.1 ∈ items ∧ p.2 < items.length := by
  have h' : p ∈ items.zipIdx := by
    unfold directed at h
    split_ifs at h
    · exact List.mem_reverse.mp h
    · exact h
  have hget := List.mem_zipIdx' h'
  exact ⟨by rw [hget.2]; exact List.getElem_mem _, hget.1⟩

theorem findRun_agree {below below' : Option Below} {path : List Nat}
    (hpath : d = false → ∀ i ∈ path, i < 2 ^ 63) {k k' : List Value → HoM Value}
    (hk : ∀ rs rs', Alike d rs rs' → k rs = k' rs') :
    ∀ (ps : List (Value × Nat)) (rs rs' : List Value),
      (∀ p ∈ ps, BelowAgree d below below' p.1) → (d = false → ∀ p ∈ ps, p.2 < 2 ^ 63) →
      Alike d rs rs' →
      (findRun (ps.map (layerVisit ctx (pathValue idxAsI64) below path)) rs >>= k) =
        (findRun (ps.map (layerVisit ctx (FindFrame.entry d) below' path)) rs' >>= k')
  | [], rs, rs', _, _, ha => hk rs rs' ha
  | p :: ps, rs, rs', hbelow, hidx, ha => by
    have ih := fun rs rs' ha => findRun_agree hpath hk ps rs rs'
      (fun q hq => hbelow q (List.mem_cons_of_mem p hq))
      (fun hd q hq => hidx hd q (List.mem_cons_of_mem p hq)) ha
    have hpath' : d = false → ∀ i ∈ path ++ [p.2], i < 2 ^ 63 := by
      intro hd i hi
      rcases List.mem_append.mp hi with hi | hi
      · exact hpath hd i hi
      · rw [List.mem_singleton.mp hi]
        exact hidx hd p List.mem_cons_self
    have happ := ha.append d hpath'
    simp only [List.map_cons, findRun, layerVisit, ha.reached ctx d, happ.reached ctx d]
    by_cases hr : reached ctx rs' = true
    · simp only [if_pos hr, pure_bind, if_true]
      exact hk rs rs' ha
    simp only [if_neg hr, bind_assoc]
    congr 1
    funext matched
    cases matched with
    | true =>
      simp only [if_true, pure_bind]
      split_ifs
      · exact hk _ _ happ
      · exact ih _ _ happ
    | false =>
      simp only [Bool.false_eq_true, if_false]
      rcases hbelow p List.mem_cons_self with ⟨rfl, rfl⟩ | ⟨next, next', rfl, rfl, hnext⟩
      · simp only [pure_bind, Bool.false_eq_true, if_false]
        exact ih rs rs' ha
      · simp only [bind_assoc, pure_bind, Bool.false_eq_true, if_false]
        exact hnext _ rs rs' _ _ hpath' ha ih

theorem searchLayer_agree {below below' : Option Below} {v : Value}
    (hbelow : ∀ x ∈ v.containerItems, BelowAgree d below below' x) {path : List Nat}
    (hidx : d = false → v.containerItems.length ≤ 2 ^ 63)
    (hpath : d = false → ∀ i ∈ path, i < 2 ^ 63) {rs rs' : List Value} (ha : Alike d rs rs')
    {k k' : List Value → HoM Value} (hk : ∀ rs rs', Alike d rs rs' → k rs = k' rs') :
    (searchLayer ctx (pathValue idxAsI64) false below v path rs >>= k) =
      (searchLayer ctx (FindFrame.entry d) false below' v path rs' >>= k') := by
  unfold searchLayer
  rw [ha.reached ctx d]
  by_cases hr : reached ctx rs' = true
  · rw [if_pos hr, if_pos hr]
    exact hk rs rs' ha
  rw [if_neg hr, if_neg hr]
  by_cases hv : v.isAtom = true
  · rw [if_pos hv, if_pos hv, bind_assoc, bind_assoc]
    congr 1
    funext matched
    cases matched with
    | true => exact hk _ _ (ha.append d hpath)
    | false => cases below <;> cases below' <;> exact hk rs rs' ha
  · rw [if_neg hv, if_neg hv]
    refine findRun_agree ctx hpath hk _ rs rs' (fun p hp => hbelow _ (mem_directed ctx hp).1)
      (fun hd p hp => ?_) ha
    have := (mem_directed ctx hp).2
    have := hidx hd
    omega

/-- A search with alike results, given that what follows agrees. -/
theorem search_agree : ∀ (n : Nat) (v : Value) (path : List Nat) (rs rs' : List Value)
    (k k' : List Value → HoM Value), (d = false → findIndexable n v = true) →
    (d = false → ∀ i ∈ path, i < 2 ^ 63) → Alike d rs rs' →
    (∀ rs rs', Alike d rs rs' → k rs = k' rs') →
    (search ctx (pathValue idxAsI64) false n v path rs >>= k) =
      (search ctx (FindFrame.entry d) false n v path rs' >>= k')
  | 0, v, path, rs, rs', k, k', hidx, hpath, ha, hk =>
    searchLayer_agree ctx (fun _ _ => .inl ⟨rfl, rfl⟩) (fun hd => of_decide_eq_true (hidx hd)) hpath
      ha hk
  | n + 1, v, path, rs, rs', k, k', hidx, hpath, ha, hk => by
    have hidx' : d = false → v.containerItems.length ≤ 2 ^ 63 ∧
        ∀ x ∈ v.containerItems, findIndexable n x = true := by
      intro hd
      have h := hidx hd
      rw [findIndexable, Bool.and_eq_true, List.all_eq_true] at h
      exact ⟨of_decide_eq_true h.1, h.2⟩
    refine searchLayer_agree ctx (fun x hx => .inr ⟨_, _, rfl, rfl, ?_⟩) (fun hd => (hidx' hd).1)
      hpath ha hk
    intro path rs rs' k k' hpath ha hk
    exact search_agree n x path rs rs' k k' (fun hd => (hidx' hd).2 x hx) hpath ha hk

/-- Above the last layer there is no atom to go into again. -/
theorem search_again (entry : List Nat → Value) : ∀ (n : Nat) (v : Value), findDeep n v = true →
    search ctx entry true n v = search ctx entry false n v
  | 0, v, _ => by
    funext path results
    simp only [search, searchLayer]
  | n + 1, v, hdeep => by
    rw [findDeep, Bool.and_eq_true, List.all_eq_true] at hdeep
    have hv : v.isAtom = false := by simpa using hdeep.1
    have hvisit : ∀ path, ∀ p ∈ directed ctx v.containerItems,
        layerVisit ctx entry (some (search ctx entry true n)) path p =
          layerVisit ctx entry (some (search ctx entry false n)) path p := by
      intro path p hp
      unfold layerVisit
      simp only [search_again entry n p.1 (hdeep.2 _ (mem_directed ctx hp).1)]
    funext path results
    simp only [search, searchLayer, hv, Bool.false_eq_true, if_false,
      List.map_congr_left (hvisit path)]

end Compare

/-! ### Where they do not -/

section Count

variable (ctx : FindWithCtx) (entry : List Nat → Value) (again : Bool)

/-- The callbacks of a search when every answer is `false`. -/
def searchCount : Nat → Value → Nat
  | 0, v => if v.isAtom then 1 else v.containerItems.length
  | n + 1, v =>
    if v.isAtom then 1 + if again then searchCount n v else 0
    else (v.containerItems.map fun x => 1 + searchCount n x).sum

/-- The answer `false`. -/
abbrev no : Value := .bool false

theorem ends_callPredicate {α : Type} (f v : Value) (k : Bool → HoM α) :
    ends no (callPredicate f v >>= k) = ends no (k false) := rfl

theorem asks_callPredicate {α : Type} (f v : Value) (k : Bool → HoM α) :
    asks no (callPredicate f v >>= k) = asks no (k false) + 1 := rfl

/-- Below a layer the search ends without a result, after so many callbacks. -/
def BelowCounts (below : Option Below) (count : Value → Nat) : Prop :=
  match below with
  | none => ∀ x, count x = 0
  | some next => ∀ x path rs, reached ctx rs = false →
      ends no (next x path rs) = .ok rs ∧ asks no (next x path rs) = count x

theorem findRun_counts {below : Option Below} {count : Value → Nat}
    (hbelow : BelowCounts ctx below count) (path : List Nat) {rs : List Value}
    (hr : reached ctx rs = false) : ∀ ps : List (Value × Nat),
      ends no (findRun (ps.map (layerVisit ctx entry below path)) rs) = .ok rs ∧
      asks no (findRun (ps.map (layerVisit ctx entry below path)) rs) =
        (ps.map fun p => 1 + count p.1).sum
  | [] => ⟨rfl, rfl⟩
  | p :: ps => by
    obtain ⟨hends, hasks⟩ := findRun_counts hbelow path hr ps
    simp only [List.map_cons, findRun, layerVisit, hr, Bool.false_eq_true, if_false, bind_assoc,
      List.sum_cons, ends_callPredicate, asks_callPredicate]
    cases hb : below with
    | none =>
      rw [hb] at hbelow hends hasks
      simp only [pure_bind, Bool.false_eq_true, if_false, hends, hasks, hbelow p.1, true_and]
      omega
    | some next =>
      rw [hb] at hbelow hends hasks
      obtain ⟨hnext, hcount⟩ := hbelow p.1 (path ++ [p.2]) rs hr
      simp only [bind_assoc, pure_bind, Bool.false_eq_true, if_false]
      rw [ends_bind, asks_bind, hnext, hcount]
      simp only [asksAfter, hasks]
      exact ⟨hends, by omega⟩

theorem sum_directed (items : List Value) (g : Value → Nat) :
    ((directed ctx items).map fun p => g p.1).sum = (items.map g).sum := by
  have h : (items.zipIdx.map fun p => g p.1) = items.map g := by
    show items.zipIdx.map (g ∘ Prod.fst) = _
    rw [← List.map_map, List.zipIdx_map_fst]
  unfold directed
  split_ifs
  · rw [List.map_reverse, List.sum_reverse, h]
  · rw [h]

theorem searchLayer_counts {below : Option Below} {count : Value → Nat}
    (hbelow : BelowCounts ctx below count) (v : Value) (path : List Nat) {rs : List Value}
    (hr : reached ctx rs = false) :
    ends no (searchLayer ctx entry again below v path rs) = .ok rs ∧
      asks no (searchLayer ctx entry again below v path rs) =
        if v.isAtom then 1 + if again then count v else 0
        else (v.containerItems.map fun x => 1 + count x).sum := by
  unfold searchLayer
  rw [if_neg (by simp [hr])]
  by_cases hv : v.isAtom = true
  · simp only [if_pos hv, ends_callPredicate, asks_callPredicate, Bool.false_eq_true, if_false]
    cases hb : below with
    | none =>
      rw [hb] at hbelow
      have hcount : count v = 0 := hbelow v
      exact ⟨rfl, by rw [hcount, ite_self]; rfl⟩
    | some next =>
      rw [hb] at hbelow
      obtain ⟨hends, hasks⟩ := hbelow v path rs hr
      cases again
      · exact ⟨rfl, rfl⟩
      · exact ⟨hends, by simp only [if_true, hasks]; omega⟩
  · rw [if_neg hv, if_neg hv, ← sum_directed ctx v.containerItems fun x => 1 + count x]
    exact findRun_counts ctx entry hbelow path hr _

/-- The callbacks below an item of a search with `n` layers left. -/
def searchBelowCount : Nat → Value → Nat
  | 0, _ => 0
  | n + 1, x => searchCount again n x

theorem search_counts : ∀ (n : Nat) (v : Value) (path : List Nat) (rs : List Value),
    reached ctx rs = false →
      ends no (search ctx entry again n v path rs) = .ok rs ∧
      asks no (search ctx entry again n v path rs) = searchCount again n v
  | 0, v, path, rs, hr => by
    have hnone : BelowCounts ctx none fun _ => 0 := fun _ => rfl
    have h := searchLayer_counts ctx entry again hnone v path hr
    refine ⟨h.1, h.2.trans ?_⟩
    rw [searchCount]
    split_ifs <;> simp
  | n + 1, v, path, rs, hr =>
    have hsome : BelowCounts ctx (some (search ctx entry again n)) (searchCount again n) :=
      fun x path rs hr => search_counts n x path rs hr
    searchLayer_counts ctx entry again hsome v path hr

theorem searchBelow_counts : ∀ n : Nat,
    BelowCounts ctx (searchBelow ctx entry again n) (searchBelowCount again n)
  | 0 => fun _ => rfl
  | n + 1 => fun x path rs hr => search_counts ctx entry again n x path rs hr

theorem searchCount_atom_pos (n : Nat) {v : Value} (hv : v.isAtom = true) :
    0 < searchCount again n v := by
  cases n with
  | zero => simp [searchCount, hv]
  | succ n =>
    simp only [searchCount, if_pos hv]
    omega

/-- Going into atoms again makes more callbacks, unless there are none above
the last layer. -/
theorem searchCount_le : ∀ (n : Nat) (v : Value),
    searchCount false n v ≤ searchCount true n v ∧
      (searchCount false n v = searchCount true n v → findDeep n v = true)
  | 0, v => ⟨le_rfl, fun _ => rfl⟩
  | n + 1, v => by
    by_cases hv : v.isAtom = true
    · have hpos := searchCount_atom_pos true n hv
      simp only [searchCount, if_pos hv, if_true, Bool.false_eq_true, if_false]
      exact ⟨by omega, fun h => absurd h (by omega)⟩
    · have hle : ∀ x ∈ v.containerItems, 1 + searchCount false n x ≤ 1 + searchCount true n x :=
        fun x _ => Nat.add_le_add_left (searchCount_le n x).1 1
      obtain ⟨h1, h2⟩ := sum_eq_of_le hle
      simp only [searchCount, if_neg hv]
      refine ⟨h1, fun heq => ?_⟩
      rw [findDeep, Bool.and_eq_true, List.all_eq_true]
      refine ⟨by simpa using hv, fun x hx => (searchCount_le n x).2 ?_⟩
      have := h2 heq x hx
      omega

end Count

/-! ### The paths a search can record -/

section Paths

/-- The path of an item that a search with `n` layers left visits below the
value at `path`. -/
inductive Visited : Nat → Value → List Nat → List Nat → Prop
  | item {n v path i x} : v.isAtom = false → v.containerItems[i]? = some x →
      Visited n v path (path ++ [i])
  | inner {n v path i x p} : v.isAtom = false → v.containerItems[i]? = some x →
      Visited n x (path ++ [i]) p → Visited (n + 1) v path p

/-- A value that is not indexable has an item beyond the largest index. -/
theorem exists_visited : ∀ (n : Nat) (v : Value) (path : List Nat), findIndexable n v = false →
    ∃ p, Visited n v path (p ++ [2 ^ 63])
  | n, v, path, h => by
    have hv : v.isAtom = false ∨ findIndexable n v = true := by
      cases hv : v.isAtom
      · exact .inl rfl
      · have hnil : v.containerItems = [] := by cases v <;> first | rfl | cases hv
        exact .inr (by cases n <;> simp [findIndexable, hnil])
    rcases hv with hv | hv
    swap
    · rw [h] at hv
      cases hv
    by_cases hlen : v.containerItems.length ≤ 2 ^ 63
    · cases n with
      | zero =>
        rw [findIndexable, decide_eq_false_iff_not] at h
        exact absurd hlen h
      | succ n =>
        simp only [findIndexable, hlen, decide_true, Bool.true_and] at h
        obtain ⟨x, hx, hn⟩ := List.all_eq_false.mp h
        obtain ⟨i, hi⟩ := List.getElem?_of_mem hx
        obtain ⟨p, hp⟩ := exists_visited n x (path ++ [i]) (by simpa using hn)
        exact ⟨p, .inner hv hi hp⟩
    · have hi : 2 ^ 63 < v.containerItems.length := by omega
      exact ⟨path, .item hv (List.getElem?_eq_getElem hi)⟩

variable (ctx : FindWithCtx)

/-- The answer `true`. -/
abbrev yes : Value := .bool true

/-- In one place, whatever is recorded for a path, the answer `true` makes
the search record `p` and nothing else. -/
def Records (t : (List Nat → Value) → List Value → HoM (List Value)) (p : List Nat) : Prop :=
  ∃ c, ∀ entry rs, reached ctx rs = false →
    c < asks no (t entry rs) ∧ playAt no yes c (t entry rs) = .ok (rs ++ [entry p])

/-- As `Records`, for one visit. -/
def VisitRecords (t : (List Nat → Value) → Visit) (p : List Nat) : Prop :=
  ∃ c, ∀ entry rs, reached ctx rs = false → c < asks no (t entry rs) ∧
    ∃ stop, playAt no yes c (t entry rs) = .ok (rs ++ [entry p], stop)

variable {below : (List Nat → Value) → Option Below} {count : Value → Nat}
  (hbelow : ∀ entry, BelowCounts ctx (below entry) count)

include hbelow

theorem layerVisit_counts (entry : List Nat → Value) (path : List Nat) (q : Value × Nat)
    {rs : List Value} (hr : reached ctx rs = false) :
    ends no (layerVisit ctx entry (below entry) path q rs) = .ok (rs, false) ∧
      asks no (layerVisit ctx entry (below entry) path q rs) = 1 + count q.1 := by
  have h := hbelow entry
  simp only [layerVisit, hr, Bool.false_eq_true, if_false, ends_callPredicate, asks_callPredicate]
  cases hb : below entry with
  | none =>
    rw [hb] at h
    exact ⟨rfl, by rw [h q.1]; rfl⟩
  | some next =>
    rw [hb] at h
    obtain ⟨hends, hasks⟩ := h q.1 (path ++ [q.2]) rs hr
    simp only [ends_bind, asks_bind, hends, hasks, asksAfter]
    exact ⟨rfl, by show count q.1 + 0 + 1 = _; omega⟩

/-- Without a match the results stay. -/
theorem findRun_ends (entry : List Nat → Value) (path : List Nat) (ps : List (Value × Nat))
    (rs : List Value) :
    ends no (findRun (ps.map (layerVisit ctx entry (below entry) path)) rs) = .ok rs := by
  by_cases hr : reached ctx rs = true
  · cases ps with
    | nil => rfl
    | cons q ps => simp only [List.map_cons, findRun, layerVisit, if_pos hr, pure_bind, if_true]; rfl
  · exact (findRun_counts ctx entry (hbelow entry) path (by simpa using hr) ps).1

/-- A visit that can record a path lets the whole container record it. -/
theorem findRun_records (path p : List Nat) : ∀ (ps : List (Value × Nat)) (q : Value × Nat), q ∈ ps →
    VisitRecords ctx (fun entry => layerVisit ctx entry (below entry) path q) p →
    Records ctx (fun entry => findRun (ps.map (layerVisit ctx entry (below entry) path))) p
  | q' :: ps, q, hq, hv => by
    rcases List.mem_cons.mp hq with rfl | hq
    · obtain ⟨c, hc⟩ := hv
      refine ⟨c, fun entry rs hr => ?_⟩
      obtain ⟨hlt, stop, hplay⟩ := hc entry rs hr
      have hlt' : c < asks no (layerVisit ctx entry (below entry) path q rs) := hlt
      simp only [List.map_cons, findRun]
      refine ⟨by rw [asks_bind]; omega, ?_⟩
      rw [playAt_bind_left hlt hplay]
      cases stop
      · exact findRun_ends ctx hbelow entry path ps _
      · rfl
    · obtain ⟨c, hc⟩ := findRun_records path p ps q hq hv
      refine ⟨1 + count q'.1 + c, fun entry rs hr => ?_⟩
      obtain ⟨hends, hasks⟩ := layerVisit_counts ctx hbelow entry path q' hr
      obtain ⟨hlt, hplay⟩ := hc entry rs hr
      simp only [List.map_cons, findRun]
      refine ⟨?_, ?_⟩
      · rw [asks_bind, hends, hasks]
        exact Nat.add_lt_add_left hlt _
      · rw [← hasks, playAt_bind_right c hends]
        exact hplay

omit hbelow in
/-- The path of an item is recorded when the answer about it is `true`. -/
theorem layerVisit_records_item (path : List Nat) (q : Value × Nat) :
    VisitRecords ctx (fun entry => layerVisit ctx entry (below entry) path q)
      (path ++ [q.2]) := by
  refine ⟨0, fun entry rs hr => ?_⟩
  simp only [layerVisit, hr, Bool.false_eq_true, if_false]
  exact ⟨Nat.succ_pos _, _, rfl⟩

omit hbelow in
/-- A path that can be recorded below an item is recorded. -/
theorem layerVisit_records_inner {next : (List Nat → Value) → Below}
    (hnext : ∀ entry, below entry = some (next entry)) (path p : List Nat) (q : Value × Nat)
    (h : Records ctx (fun entry => next entry q.1 (path ++ [q.2])) p) :
    VisitRecords ctx (fun entry => layerVisit ctx entry (below entry) path q) p := by
  obtain ⟨c, hc⟩ := h
  refine ⟨c + 1, fun entry rs hr => ?_⟩
  obtain ⟨hlt, hplay⟩ := hc entry rs hr
  have hlt' : c < asks no (next entry q.1 (path ++ [q.2]) rs) := hlt
  simp only [layerVisit, hr, Bool.false_eq_true, if_false, hnext entry, asks_callPredicate]
  refine ⟨?_, false, ?_⟩
  · rw [asks_bind]
    omega
  · have h := playAt_bind_left (f := fun r => (pure (r, false) : HoM (List Value × Bool))) hlt hplay
    exact h

omit hbelow in
theorem search_records : ∀ (n : Nat) (v : Value) (path p : List Nat), Visited n v path p →
    Records ctx (fun entry => search ctx entry false n v path) p := by
  have hlayer : ∀ {below : (List Nat → Value) → Option Below} {count : Value → Nat},
      (∀ entry, BelowCounts ctx (below entry) count) → ∀ (v : Value) (path p : List Nat),
      v.isAtom = false → ∀ q ∈ directed ctx v.containerItems,
      VisitRecords ctx (fun entry => layerVisit ctx entry (below entry) path q) p →
      Records ctx (fun entry => searchLayer ctx entry false (below entry) v path) p := by
    intro below count hbelow v path p hv q hq h
    obtain ⟨c, hc⟩ := findRun_records ctx hbelow path p _ q hq h
    refine ⟨c, fun entry rs hr => ?_⟩
    simp only [searchLayer, hr, hv, Bool.false_eq_true, if_false]
    exact hc entry rs hr
  have hmem : ∀ {items : List Value} {i : Nat} {x : Value}, items[i]? = some x →
      (x, i) ∈ directed ctx items := by
    intro items i x hx
    have h : (x, i) ∈ items.zipIdx := List.mk_mem_zipIdx_iff_getElem?.mpr hx
    unfold directed
    split_ifs
    · exact List.mem_reverse.mpr h
    · exact h
  intro n v path p hp
  induction hp with
  | @item n v path i x hv hx =>
    have hrec : VisitRecords ctx
        (fun entry => layerVisit ctx entry (searchBelow ctx entry false n) path (x, i))
        (path ++ [i]) := layerVisit_records_item ctx path (x, i)
    simp only [search_eq]
    exact hlayer (fun entry => searchBelow_counts ctx entry false n) v path _ hv (x, i) (hmem hx)
      hrec
  | @inner n v path i x p hv hx _ ih =>
    have hrec : VisitRecords ctx
        (fun entry => layerVisit ctx entry (searchBelow ctx entry false (n + 1)) path (x, i)) p :=
      layerVisit_records_inner ctx (fun _ => rfl) path p (x, i) ih
    exact hlayer (fun entry => searchBelow_counts ctx entry false (n + 1)) v path p hv (x, i)
      (hmem hx) hrec

end Paths

/-! ### When they agree -/

section Agree

variable (ctx : FindWithCtx) (d : Bool)

/-- The recursive search, from the check of its parameters on. -/
def syncFind (v : Value) : HoM Value := do
  return finalValue d (.list (← search ctx (pathValue idxAsI64) false ctx.maxDepth.toNat v [] []))

/-- The search of the frame, from the check of its parameters on. -/
def frameFind (v : Value) : HoM Value := do
  return finalValue d (.list (← search ctx (FindFrame.entry d) true ctx.maxDepth.toNat v [] []))

/-- What the two searches ask about and return is the same. -/
def findAgree (v : Value) : Bool :=
  findwithThresholdReached 0 ctx.threshold ||
    findDeep ctx.maxDepth.toNat v && (d || findIndexable ctx.maxDepth.toNat v)

theorem search_of_reached (entry : List Nat → Value) (again : Bool) {n : Nat} {v : Value}
    {path : List Nat} {rs : List Value} (h : reached ctx rs = true) :
    search ctx entry again n v path rs = pure rs := by
  rw [search_eq]
  exact if_pos h

/-- Equal searches make as many callbacks, so no atom is gone into again. -/
theorem findDeep_of_eq {v : Value} (hr : reached ctx [] = false)
    (h : frameFind ctx d v = syncFind ctx d v) : findDeep ctx.maxDepth.toNat v = true := by
  have hasks : ∀ entry again, asks no (do
      return finalValue d (.list (← search ctx entry again ctx.maxDepth.toNat v [] []))) =
        searchCount again ctx.maxDepth.toNat v := by
    intro entry again
    obtain ⟨hends, hcount⟩ := search_counts ctx entry again ctx.maxDepth.toNat v [] [] hr
    rw [asks_bind, hends, hcount]
    rfl
  have hcounts := congrArg (asks no) h
  rw [frameFind, syncFind, hasks, hasks] at hcounts
  exact (searchCount_le ctx.maxDepth.toNat v).2 hcounts.symm

/-- Equal searches record the same integers. -/
theorem findIndexable_of_eq {v : Value} (hr : reached ctx [] = false)
    (hdeep : findDeep ctx.maxDepth.toNat v = true)
    (h : frameFind ctx false v = syncFind ctx false v) :
    findIndexable ctx.maxDepth.toNat v = true := by
  by_contra hidx
  obtain ⟨p, hp⟩ := exists_visited ctx.maxDepth.toNat v [] (by simpa using hidx)
  obtain ⟨c, hc⟩ := search_records ctx ctx.maxDepth.toNat v [] _ hp
  have hplay : ∀ entry, playAt no yes c (do
      return finalValue false (.list (← search ctx entry false ctx.maxDepth.toNat v [] []))) =
        .ok (.list [entry (p ++ [2 ^ 63])]) := by
    intro entry
    obtain ⟨hlt, hplay⟩ := hc entry [] hr
    rw [playAt_bind_left hlt hplay]
    rfl
  have heq := congrArg (playAt no yes c) h
  rw [frameFind, syncFind, search_again ctx _ _ v hdeep, hplay, hplay] at heq
  simp only [FindFrame.entry, pathValue, Bool.false_eq_true, if_false, Except.ok.injEq,
    Value.list.injEq, List.cons.injEq, and_true, Value.intList.injEq, List.map_append,
    List.map_cons, List.map_nil] at heq
  exact idx_ne (List.singleton_inj.mp (List.append_inj_right' heq rfl)).symm

/-- The frame and the recursion are the same dialogue exactly then. -/
theorem frameFind_eq_syncFind_iff (v : Value) :
    frameFind ctx d v = syncFind ctx d v ↔ findAgree ctx d v = true := by
  by_cases hr : reached ctx [] = true
  · have hagree : findAgree ctx d v = true := by
      have h0 : findwithThresholdReached 0 ctx.threshold = true := hr
      rw [findAgree, h0, Bool.true_or]
    rw [frameFind, syncFind, search_of_reached ctx _ _ hr, search_of_reached ctx _ _ hr]
    exact ⟨fun _ => hagree, fun _ => rfl⟩
  have hr' : reached ctx [] = false := by simpa using hr
  have h0 : findwithThresholdReached 0 ctx.threshold = false := hr'
  simp only [findAgree, h0, Bool.false_or, Bool.and_eq_true, Bool.or_eq_true]
  constructor
  · intro h
    have hdeep := findDeep_of_eq ctx d hr' h
    cases d with
    | true => exact ⟨hdeep, .inl rfl⟩
    | false => exact ⟨hdeep, .inr (findIndexable_of_eq ctx hr' hdeep h)⟩
  · rintro ⟨hdeep, hidx⟩
    have hidx' : d = false → findIndexable ctx.maxDepth.toNat v = true := by
      rintro rfl
      exact hidx.resolve_left (by simp)
    rw [frameFind, syncFind, search_again ctx _ _ v hdeep]
    refine (search_agree ctx ctx.maxDepth.toNat v [] [] [] _ _ hidx' (by simp)
      ⟨rfl, fun _ => rfl⟩ fun rs rs' ha => ?_).symm
    cases d with
    | true => rfl
    | false => rw [ha.2 rfl]

end Agree

end Ho
end Wqpl
