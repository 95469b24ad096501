/-
# zipw

The recursive `zipw` compares the keys of two dictionaries one by one, each
before the pair of its values is visited; the frame compares all keys before
it visits any pair. `syncZip` and `frameZip` are the two traversals by the
number of layers left (`bc2Until_eq_syncZip`, `ZipFrame.unfolds_visit`).

They are the same dialogue exactly when `zipAgree` holds
(`frameZip_eq_syncZip_iff`): wherever the keys of two dictionaries of one
length differ, no callback is made for the pairs of values before.
-/
import Mathlib.Data.List.TakeWhile
import Wqpl.HigherOrder.Agreement

namespace Wqpl
namespace Ho

open Dialogue

/-! ### Pairs of containers -/

theorem len_of_container {v : Value} (h : v.isAtom = false) :
    v.len = v.containerItems.length := by
  cases v with
  | dict entries => simp [Value.len, ValueSeq.fromValue, Value.containerItems]
  | _ =>
    first
    | (simp [Value.len, ValueSeq.fromValue, Value.containerItems, ← ValueSeq.length_values]; done)
    | cases h

namespace ZipFrame

/-- Containers whose lengths agree, and atoms against containers, have pairs. -/
theorem pairCount_ok {l r : Value} (hatoms : ¬(l.isAtom = true ∧ r.isAtom = true))
    (h : l.isAtom = true ∨ r.isAtom = true ∨ l.len = r.len) :
    pairCount l r = .ok (Value.pairItems l r).length := by
  cases hl : l.isAtom <;> cases hr : r.isAtom
  · have hlen : l.containerItems.length = r.containerItems.length := by
      simpa [hl, hr, len_of_container] using h
    simp [pairCount, containerLen_of_container hl, containerLen_of_container hr, hlen,
      Value.pairItems, hl, hr]
  · simp [pairCount, containerLen_of_container hl, containerLen_of_isAtom hr, Value.pairItems,
      hl, hr]
  · simp [pairCount, containerLen_of_container hr, containerLen_of_isAtom hl, Value.pairItems, hl]
  · exact absurd ⟨hl, hr⟩ hatoms

theorem pairCount_error {l r : Value} (hl : l.isAtom = false) (hr : r.isAtom = false)
    (h : l.len ≠ r.len) : pairCount l r = .error .length := by
  rw [len_of_container hl, len_of_container hr] at h
  simp [pairCount, containerLen_of_container hl, containerLen_of_container hr, h]

/-- Reading both operands by index reads the pairs of their items. -/
theorem pairItems_getElem? {l r : Value} {i : Nat} (h : i < (Value.pairItems l r).length) :
    (Value.pairItems l r)[i]? = some ((containerGet l i).getD l, (containerGet r i).getD r) := by
  have hnil : ∀ {v : Value}, v.isAtom = true → v.containerItems = [] := by
    intro v hv
    cases v <;> first | rfl | cases hv
  unfold Value.pairItems at h ⊢
  rw [containerGet_eq, containerGet_eq]
  by_cases hl : l.isAtom = true
  · rw [if_pos hl] at h ⊢
    simp only [List.length_map] at h
    simp [hnil hl, List.getElem?_eq_getElem h]
  by_cases hr : r.isAtom = true
  · rw [if_neg hl, if_pos hr] at h ⊢
    simp only [List.length_map] at h
    simp [hnil hr, List.getElem?_eq_getElem h]
  · rw [if_neg hl, if_neg hr] at h ⊢
    rw [List.length_zip, Nat.lt_min] at h
    simp [List.getElem?_zip_eq_some, List.getElem?_eq_getElem h.1, List.getElem?_eq_getElem h.2]

theorem buildResult_eq {l r : Value} {keys : Option (List String)}
    (h : resultKeys l r = .ok keys) : buildResult keys = Value.rebuildPair l r := by
  funext items
  unfold resultKeys at h
  split at h
  · split_ifs at h
    obtain rfl := Except.ok.inj h
    rfl
  · obtain rfl := Except.ok.inj h
    rfl
  · obtain rfl := Except.ok.inj h
    cases l <;> first | rfl | simp_all
  · obtain rfl := Except.ok.inj h
    cases l <;> cases r <;> first | rfl | simp_all

end ZipFrame

/-! ### The two traversals -/

/-- The pairs visited before a difference of keys is found, all pairs when
there is none. -/
def reachedPairs (l r : Value) : List (Value × Value) :=
  match l, r with
  | .dict dx, .dict dy =>
    ((dx.zip dy).takeWhile fun p => p.1.1 = p.2.1).map fun p => (p.1.2, p.2.2)
  | l, r => Value.pairItems l r

section Traversals

variable (op : Value → Value → HoM Value)

/-- The recursive traversal, with `n` layers left. -/
def syncZip : Nat → Value → Value → HoM Value
  | 0, l, r => op l r
  | n + 1, l, r =>
    if l.isAtom ∧ r.isAtom then op l r
    else
      match ZipFrame.pairCount l r with
      | .error e => fail e
      | .ok _ => do
        let items ← (reachedPairs l r).mapM fun p => syncZip n p.1 p.2
        match ZipFrame.resultKeys l r with
        | .error e => fail e
        | .ok _ => return Value.rebuildPair l r items

/-- The traversal of the frame, with `n` layers left. -/
def frameZip : Nat → Value → Value → HoM Value
  | 0, l, r => op l r
  | n + 1, l, r =>
    if l.isAtom ∧ r.isAtom then op l r
    else
      match ZipFrame.pairCount l r with
      | .error e => fail e
      | .ok _ =>
        match ZipFrame.resultKeys l r with
        | .error e => fail e
        | .ok _ => do
          return Value.rebuildPair l r
            (← (Value.pairItems l r).mapM fun p => frameZip n p.1 p.2)

/-- Two dictionaries entry by entry: the pairs before the first difference of
keys, and the failure there. -/
theorem zipDicts_eq (stop : Bc2Stop) (depth : Nat) :
    ∀ dx dy : List (String × Value), dx.length = dy.length →
      Value.zipDicts stop op depth dx dy = (do
        let items ← (((dx.zip dy).takeWhile fun p => p.1.1 = p.2.1).map fun p =>
          (p.1.2, p.2.2)).mapM fun p => Value.bc2Until stop op depth p.1 p.2
        if (dx.zip dy).all fun p => p.1.1 = p.2.1 then return (dx.map Prod.fst).zip items
        else fail .length)
  | [], [], _ => by simp [Value.zipDicts]
  | (kx, x) :: dx, (ky, y) :: dy, h => by
    rw [Value.zipDicts.eq_def]
    by_cases hk : kx = ky
    · simp only [hk, ne_eq, not_true_eq_false, if_false, zipDicts_eq stop depth dx dy (by simpa using h)]
      simp only [List.zip_cons_cons, List.takeWhile_cons, List.all_cons, decide_true, if_true,
        List.map_cons, List.mapM_cons, bind_assoc, pure_bind, Bool.true_and]
      congr 1
      funext z
      congr 1
      funext zs
      split_ifs <;> rfl
    · simp [hk]
      rfl

theorem bc2Until_eq_syncZip (el : Int) : ∀ (n depth : Nat) (l r : Value),
    (el - depth).toNat = n →
      Value.bc2Until (.bothAtomOrDepth el) op depth l r = syncZip op n l r
  | 0, depth, l, r, h => by
    have hel : el ≤ depth := by omega
    exact Value.bc2Until_of_stop _ _ _ (by simp [Bc2Stop.shouldStop, hel])
  | n + 1, depth, l, r, h => by
    have hel : ¬el ≤ depth := by omega
    rw [syncZip]
    by_cases hatoms : l.isAtom = true ∧ r.isAtom = true
    · rw [if_pos hatoms]
      exact Value.bc2Until_of_stop _ _ _ (by simp [Bc2Stop.shouldStop, hatoms])
    have hstop : Bc2Stop.shouldStop (.bothAtomOrDepth el) depth l r = false := by
      simpa [Bc2Stop.shouldStop, hel] using hatoms
    rw [if_neg hatoms]
    by_cases hlen : l.isAtom = true ∨ r.isAtom = true ∨ l.len = r.len
    · have ih : ∀ p : Value × Value, Value.bc2Until (.bothAtomOrDepth el) op (depth + 1) p.1 p.2 =
          syncZip op n p.1 p.2 := fun p =>
        bc2Until_eq_syncZip el n (depth + 1) p.1 p.2 (by omega)
      rw [ZipFrame.pairCount_ok hatoms hlen]
      by_cases hd : l.isDict = true ∧ r.isDict = true
      · obtain ⟨dx, rfl⟩ := Value.exists_dict hd.1
        obtain ⟨dy, rfl⟩ := Value.exists_dict hd.2
        have hlen' : dx.length = dy.length := by
          simpa [Value.isAtom, Value.len, ValueSeq.fromValue] using hlen
        rw [Value.bc2Until_dicts _ _ _ _ _ hstop hlen', zipDicts_eq op _ _ dx dy hlen']
        simp only [bind_assoc, ih, reachedPairs]
        congr 1
        funext items
        by_cases hall : ((dx.zip dy).all fun p => p.1.1 = p.2.1) = true
        · simp only [ZipFrame.resultKeys, hall, if_true]
          rfl
        · simp only [ZipFrame.resultKeys, hall]
          rfl
      · have hreached : reachedPairs l r = Value.pairItems l r := by
          cases l <;> cases r <;> first | rfl | exact absurd ⟨rfl, rfl⟩ hd
        have hkeys : ∃ keys, ZipFrame.resultKeys l r = .ok keys := by
          cases l <;> cases r <;> first | exact ⟨_, rfl⟩ | exact absurd ⟨rfl, rfl⟩ hd
        obtain ⟨keys, hkeys⟩ := hkeys
        rw [Value.bc2Until_container _ _ _ hstop hd hlen, hreached]
        simp only [ih, hkeys]
    · simp only [not_or] at hlen
      obtain ⟨hl, hr, hne⟩ := hlen
      have hl' : l.isAtom = false := by simpa using hl
      have hr' : r.isAtom = false := by simpa using hr
      rw [ZipFrame.pairCount_error hl' hr' hne, Value.bc2Until_length _ _ _ hstop hl' hr' hne]
      rfl

end Traversals

/-! ### The frame follows `frameZip` -/

namespace ZipFrame

open MapFrame (pushed partialResults pushed_partialResults foldResults_partialResults)

variable (f : Value) (maxDepth : Int) (d : Bool)

/-- The function of `zipw` on a pair of leaves. -/
abbrev leaf : Value → Value → HoM Value := fun a b => callFn f [a, b]

theorem unfolds_leaf (l r : Value) (depth : Int)
    (h : (l.isAtom ∧ r.isAtom) ∨ maxDepth ≤ depth) {tasks : List ZipTask} {results : List Value}
    {k : Value → HoM Value}
    (hk : ∀ v, Unfolds step ⟨f, maxDepth, d, tasks, pushed d results v, none⟩ (k v)) :
    Unfolds step ⟨f, maxDepth, d, .visit l r depth :: tasks, results, none⟩
      (callFn f [l, r] >>= k) := by
  have hcall : step ⟨f, maxDepth, d, .visit l r depth :: tasks, results, none⟩ =
      .call (f, [l, r]) (acceptCallbackResult ⟨f, maxDepth, d, tasks, results, none⟩) := by
    simp only [step, stepTask, if_pos h]
  rw [callFn_bind]
  exact .call_silent hcall (fun _ => rfl) hk

/-- The pairs of two operands from `next` on, given how each is visited. -/
theorem unfolds_pairs {l r : Value} (depth : Int) (keys : Option (List String))
    (visit : Value → Value → HoM Value)
    (hvisit : ∀ x y tasks results (k : Value → HoM Value),
      (∀ v, Unfolds step ⟨f, maxDepth, d, tasks, pushed d results v, none⟩ (k v)) →
      Unfolds step ⟨f, maxDepth, d, .visit x y (depth + 1) :: tasks, results, none⟩
        (visit x y >>= k))
    {tasks : List ZipTask} {base : List Value} :
    ∀ (ps : List (Value × Value)) (next : Nat) (prev : List Value) (k : List Value → HoM Value),
      (Value.pairItems l r).drop next = ps →
      (∀ rs, Unfolds step ⟨f, maxDepth, d, tasks, pushed d base (buildResult keys (prev ++ rs)),
        none⟩ (k rs)) →
      Unfolds step ⟨f, maxDepth, d,
          .container l r depth next (Value.pairItems l r).length base.length keys :: tasks,
          partialResults d base prev, none⟩
        ((ps.mapM fun p => visit p.1 p.2) >>= k)
  | [], next, prev, k, h, hk => by
    have hnext : ¬next < (Value.pairItems l r).length := by simpa using h
    have hlast : step ⟨f, maxDepth, d,
        .container l r depth next (Value.pairItems l r).length base.length keys :: tasks,
        partialResults d base prev, none⟩ =
          .silent ⟨f, maxDepth, d, tasks, pushed d base (buildResult keys (prev ++ [])), none⟩ := by
      simp only [step, stepTask, if_neg hnext, foldResults_partialResults, List.append_nil]
    rw [List.mapM_nil, pure_bind]
    exact .silent hlast (hk [])
  | (x, y) :: ps, next, prev, k, h, hk => by
    have hget : (Value.pairItems l r)[next]? = some (x, y) := by
      rw [← List.head?_drop, h, List.head?_cons]
    have hnext : next < (Value.pairItems l r).length := (List.getElem?_eq_some_iff.mp hget).1
    have hps : (Value.pairItems l r).drop (next + 1) = ps := by
      rw [← List.drop_drop, h, List.drop_one, List.tail_cons]
    rw [pairItems_getElem? hnext, Option.some.injEq, Prod.mk.injEq] at hget
    have hpair : step ⟨f, maxDepth, d,
        .container l r depth next (Value.pairItems l r).length base.length keys :: tasks,
        partialResults d base prev, none⟩ =
          .silent ⟨f, maxDepth, d, .visit x y (depth + 1) ::
            .container l r depth (next + 1) (Value.pairItems l r).length base.length keys :: tasks,
            partialResults d base prev, none⟩ := by
      simp only [step, stepTask, if_pos hnext, hget.1, hget.2]
    rw [List.mapM_cons, bind_assoc]
    refine .silent hpair (hvisit x y _ _ _ fun v => ?_)
    rw [pushed_partialResults, bind_assoc]
    refine unfolds_pairs depth keys visit hvisit ps (next + 1) (prev ++ [v]) _ hps fun rs => ?_
    have h := hk (v :: rs)
    rwa [← List.singleton_append, ← List.append_assoc] at h

theorem unfolds_visit : ∀ (n : Nat) (l r : Value) (depth : Int) (tasks : List ZipTask)
    (results : List Value) (k : Value → HoM Value), (maxDepth - depth).toNat = n →
    (∀ v, Unfolds step ⟨f, maxDepth, d, tasks, pushed d results v, none⟩ (k v)) →
    Unfolds step ⟨f, maxDepth, d, .visit l r depth :: tasks, results, none⟩
      (frameZip (leaf f) n l r >>= k)
  | 0, l, r, depth, tasks, results, k, hn, hk =>
    unfolds_leaf f maxDepth d l r depth (.inr (by omega)) hk
  | n + 1, l, r, depth, tasks, results, k, hn, hk => by
    rw [frameZip]
    by_cases hatoms : l.isAtom = true ∧ r.isAtom = true
    · rw [if_pos hatoms]
      exact unfolds_leaf f maxDepth d l r depth (.inl hatoms) hk
    have hstop : ¬((l.isAtom = true ∧ r.isAtom = true) ∨ maxDepth ≤ depth) := by
      rintro (h | h)
      · exact hatoms h
      · omega
    rw [if_neg hatoms]
    cases hcount : pairCount l r with
    | error e => exact .ready (by simp only [step, stepTask, if_neg hstop, hcount])
    | ok len =>
      cases hkeys : resultKeys l r with
      | error e => exact .ready (by simp only [step, stepTask, if_neg hstop, hcount, hkeys])
      | ok keys =>
        have hlen : len = (Value.pairItems l r).length := by
          by_cases h : l.isAtom = true ∨ r.isAtom = true ∨ l.len = r.len
          · rw [pairCount_ok hatoms h] at hcount
            exact (Except.ok.inj hcount).symm
          · simp only [not_or] at h
            rw [pairCount_error (by simpa using h.1) (by simpa using h.2.1) h.2.2] at hcount
            cases hcount
        have hbase : results = partialResults d results [] := by
          cases d <;> simp [partialResults]
        have hfirst : step ⟨f, maxDepth, d, .visit l r depth :: tasks, results, none⟩ =
            .silent ⟨f, maxDepth, d, .container l r depth 0 (Value.pairItems l r).length
              results.length keys :: tasks, partialResults d results [], none⟩ := by
          rw [← hbase]
          simp only [step, stepTask, if_neg hstop, hcount, hkeys, hlen]
        simp only [bind_assoc]
        refine .silent hfirst ?_
        refine unfolds_pairs f maxDepth d depth keys (frameZip (leaf f) n)
          (fun x y tasks results k => unfolds_visit n x y (depth + 1) tasks results k (by omega))
          _ 0 [] _ rfl fun rs => ?_
        rw [List.nil_append, buildResult_eq hkeys, pure_bind]
        exact hk _

/-- The frame after the check of its depth. -/
theorem unfolds_new (l r : Value) :
    Unfolds step ⟨f, maxDepth, d, [.visit l r 0], [], none⟩
      (finalValue d <$> frameZip (leaf f) maxDepth.toNat l r) := by
  have h := unfolds_visit f maxDepth d maxDepth.toNat l r 0 [] [] (fun v => pure (finalValue d v))
    (by omega) fun v => .ready (by cases d <;> rfl)
  simpa using h

end ZipFrame

/-! ### Where the traversals agree -/

/-- The traversal fails even when every callback succeeds. -/
def zipFails : Nat → Value → Value → Bool
  | 0, _, _ => false
  | n + 1, l, r =>
    if l.isAtom ∧ r.isAtom then false
    else
      match ZipFrame.pairCount l r, ZipFrame.resultKeys l r with
      | .ok _, .ok _ => (Value.pairItems l r).any fun p => zipFails n p.1 p.2
      | _, _ => true

/-- The recursive traversal makes no callback. -/
def zipQuiet : Nat → Value → Value → Bool
  | 0, _, _ => false
  | n + 1, l, r =>
    if l.isAtom ∧ r.isAtom then false
    else
      match ZipFrame.pairCount l r with
      | .error _ => true
      | .ok _ => (upTo (fun p => zipFails n p.1 p.2) (reachedPairs l r)).all fun p =>
        zipQuiet n p.1 p.2

/-- Where two dictionaries of one length are reached and their keys differ,
the pairs of values before the difference make no callback. -/
def zipAgree : Nat → Value → Value → Bool
  | 0, _, _ => true
  | n + 1, l, r =>
    if l.isAtom ∧ r.isAtom then true
    else
      match ZipFrame.pairCount l r, ZipFrame.resultKeys l r with
      | .error _, _ => true
      | .ok _, .error _ =>
        (upTo (fun p => zipFails n p.1 p.2) (reachedPairs l r)).all fun p => zipQuiet n p.1 p.2
      | .ok _, .ok _ =>
        (upTo (fun p => zipFails n p.1 p.2) (Value.pairItems l r)).all fun p =>
          zipAgree n p.1 p.2

theorem pairCount_error_eq {l r : Value} (hatoms : ¬(l.isAtom = true ∧ r.isAtom = true))
    {e : WqErrorType} (h : ZipFrame.pairCount l r = .error e) : e = .length := by
  by_cases hlen : l.isAtom = true ∨ r.isAtom = true ∨ l.len = r.len
  · rw [ZipFrame.pairCount_ok hatoms hlen] at h
    cases h
  · simp only [not_or] at hlen
    rw [ZipFrame.pairCount_error (by simpa using hlen.1) (by simpa using hlen.2.1) hlen.2.2] at h
    exact (Except.error.inj h).symm

theorem resultKeys_error_eq {l r : Value} {e : WqErrorType}
    (h : ZipFrame.resultKeys l r = .error e) : e = .length := by
  unfold ZipFrame.resultKeys at h
  split at h
  · split_ifs at h
    exact (Except.error.inj h).symm
  all_goals cases h

/-- Without a difference of keys all pairs are reached. -/
theorem reachedPairs_eq {l r : Value} {keys : Option (List String)}
    (h : ZipFrame.resultKeys l r = .ok keys) : reachedPairs l r = Value.pairItems l r := by
  unfold reachedPairs
  split
  · rename_i dx dy
    have hall : ∀ p ∈ dx.zip dy, p.1.1 = p.2.1 := by
      simp only [ZipFrame.resultKeys] at h
      split_ifs at h with hall
      simpa using hall
    rw [List.takeWhile_eq_self_iff.mpr (by simpa using hall)]
    show _ = (dx.map Prod.snd).zip (dy.map Prod.snd)
    rw [List.zip_map]
    rfl
  · rfl

section Agree

variable (f a : Value)

theorem syncZip_isOk : ∀ (n : Nat) (l r : Value),
    (ends a (syncZip (ZipFrame.leaf f) n l r)).isOk = !zipFails n l r
  | 0, l, r => rfl
  | n + 1, l, r => by
    rw [syncZip, zipFails]
    by_cases hatoms : l.isAtom = true ∧ r.isAtom = true
    · rw [if_pos hatoms, if_pos hatoms]
      rfl
    rw [if_neg hatoms, if_neg hatoms]
    cases hcount : ZipFrame.pairCount l r with
    | error e => rfl
    | ok len =>
      have hall := ends_mapM_isOk a (fun p : Value × Value =>
        syncZip (ZipFrame.leaf f) n p.1 p.2) (reachedPairs l r)
      simp only [syncZip_isOk n] at hall
      simp only [ends_bind]
      cases hkeys : ZipFrame.resultKeys l r with
      | error e =>
        cases ends a ((reachedPairs l r).mapM fun p => syncZip (ZipFrame.leaf f) n p.1 p.2) <;> rfl
      | ok keys =>
        rw [reachedPairs_eq hkeys] at hall ⊢
        rw [List.not_any_eq_all_not, ← hall]
        cases ends a ((Value.pairItems l r).mapM fun p => syncZip (ZipFrame.leaf f) n p.1 p.2) <;>
          rfl

theorem frameZip_isOk : ∀ (n : Nat) (l r : Value),
    (ends a (frameZip (ZipFrame.leaf f) n l r)).isOk = !zipFails n l r
  | 0, l, r => rfl
  | n + 1, l, r => by
    rw [frameZip, zipFails]
    by_cases hatoms : l.isAtom = true ∧ r.isAtom = true
    · rw [if_pos hatoms, if_pos hatoms]
      rfl
    rw [if_neg hatoms, if_neg hatoms]
    cases hcount : ZipFrame.pairCount l r with
    | error e => rfl
    | ok len =>
      cases hkeys : ZipFrame.resultKeys l r with
      | error e => rfl
      | ok keys =>
        have hall := ends_mapM_isOk a (fun p : Value × Value =>
          frameZip (ZipFrame.leaf f) n p.1 p.2) (Value.pairItems l r)
        simp only [frameZip_isOk n] at hall
        simp only [ends_bind]
        rw [List.not_any_eq_all_not, ← hall]
        cases ends a ((Value.pairItems l r).mapM fun p => frameZip (ZipFrame.leaf f) n p.1 p.2) <;>
          rfl

/-- The only error of its own is the one about lengths and keys. -/
theorem syncZip_error : ∀ (n : Nat) (l r : Value) (e : WqErrorType),
    ends a (syncZip (ZipFrame.leaf f) n l r) = .error e → e = .length
  | 0, l, r, e, h => by cases h
  | n + 1, l, r, e, h => by
    rw [syncZip] at h
    by_cases hatoms : l.isAtom = true ∧ r.isAtom = true
    · rw [if_pos hatoms] at h
      cases h
    rw [if_neg hatoms] at h
    cases hcount : ZipFrame.pairCount l r with
    | error e' =>
      rw [hcount] at h
      exact (Except.error.inj h) ▸ pairCount_error_eq hatoms hcount
    | ok len =>
      rw [hcount] at h
      simp only [ends_bind] at h
      cases hitems : ends a ((reachedPairs l r).mapM fun p =>
          syncZip (ZipFrame.leaf f) n p.1 p.2) with
      | error e' =>
        rw [hitems] at h
        obtain ⟨p, -, hp⟩ := ends_mapM_error hitems
        exact (Except.error.inj h) ▸ syncZip_error n p.1 p.2 e' hp
      | ok items =>
        rw [hitems] at h
        cases hkeys : ZipFrame.resultKeys l r with
        | error e' =>
          rw [hkeys] at h
          exact (Except.error.inj h) ▸ resultKeys_error_eq hkeys
        | ok keys =>
          rw [hkeys] at h
          cases h

theorem syncZip_fails : ∀ (n : Nat) (l r : Value), zipFails n l r = true →
    Fails (syncZip (ZipFrame.leaf f) n l r)
  | 0, l, r, h => by cases h
  | n + 1, l, r, h => by
    rw [zipFails] at h
    rw [syncZip]
    by_cases hatoms : l.isAtom = true ∧ r.isAtom = true
    · rw [if_pos hatoms] at h
      cases h
    rw [if_neg hatoms] at h ⊢
    cases hcount : ZipFrame.pairCount l r with
    | error e => exact fails_fail e
    | ok len =>
      cases hkeys : ZipFrame.resultKeys l r with
      | error e => exact fails_bind_right _ fun _ => fails_fail e
      | ok keys =>
        rw [hcount, hkeys] at h
        obtain ⟨p, hp, hfails⟩ := List.any_eq_true.mp h
        rw [reachedPairs_eq hkeys]
        have hmem : Fails ((fun p : Value × Value =>
            syncZip (ZipFrame.leaf f) n p.1 p.2) p) := syncZip_fails n p.1 p.2 hfails
        exact Fails.bind_left (fails_mapM (g := fun p : Value × Value =>
          syncZip (ZipFrame.leaf f) n p.1 p.2) hmem hp) _

theorem asks_syncZip_succ {n : Nat} {l r : Value} (hatoms : ¬(l.isAtom = true ∧ r.isAtom = true))
    {len : Nat} (hcount : ZipFrame.pairCount l r = .ok len) :
    asks a (syncZip (ZipFrame.leaf f) (n + 1) l r) =
      ((upTo (fun p => zipFails n p.1 p.2) (reachedPairs l r)).map fun p =>
        asks a (syncZip (ZipFrame.leaf f) n p.1 p.2)).sum := by
  have hfails : (fun p : Value × Value => !(ends a (syncZip (ZipFrame.leaf f) n p.1 p.2)).isOk) =
      fun p => zipFails n p.1 p.2 := by
    funext p
    rw [syncZip_isOk, Bool.not_not]
  rw [syncZip, if_neg hatoms, hcount, ← hfails, ← asks_mapM]
  simp only [asks_bind]
  cases ends a ((reachedPairs l r).mapM fun p => syncZip (ZipFrame.leaf f) n p.1 p.2) with
  | error e => rfl
  | ok items => cases ZipFrame.resultKeys l r <;> rfl

theorem asks_frameZip_succ {n : Nat} {l r : Value}
    (hatoms : ¬(l.isAtom = true ∧ r.isAtom = true)) {len : Nat} {keys : Option (List String)}
    (hcount : ZipFrame.pairCount l r = .ok len) (hkeys : ZipFrame.resultKeys l r = .ok keys) :
    asks a (frameZip (ZipFrame.leaf f) (n + 1) l r) =
      ((upTo (fun p => zipFails n p.1 p.2) (Value.pairItems l r)).map fun p =>
        asks a (frameZip (ZipFrame.leaf f) n p.1 p.2)).sum := by
  have hfails : (fun p : Value × Value => !(ends a (frameZip (ZipFrame.leaf f) n p.1 p.2)).isOk) =
      fun p => zipFails n p.1 p.2 := by
    funext p
    rw [frameZip_isOk, Bool.not_not]
  rw [frameZip, if_neg hatoms, hcount, hkeys, ← hfails, ← asks_mapM]
  simp only [asks_bind]
  cases ends a ((Value.pairItems l r).mapM fun p => frameZip (ZipFrame.leaf f) n p.1 p.2) <;> rfl

/-- No callback is made exactly when `zipQuiet` holds. -/
theorem asks_syncZip_eq_zero : ∀ (n : Nat) (l r : Value),
    asks a (syncZip (ZipFrame.leaf f) n l r) = 0 ↔ zipQuiet n l r = true
  | 0, l, r => by simp [syncZip, zipQuiet, callFn, query, asks]
  | n + 1, l, r => by
    rw [zipQuiet]
    by_cases hatoms : l.isAtom = true ∧ r.isAtom = true
    · rw [syncZip, if_pos hatoms, if_pos hatoms]
      simp [callFn, query, asks]
    rw [if_neg hatoms]
    cases hcount : ZipFrame.pairCount l r with
    | error e =>
      rw [syncZip, if_neg hatoms, hcount]
      simp [fail, asks]
    | ok len =>
      rw [asks_syncZip_succ f a hatoms hcount, sum_map_eq_zero]
      simp only [List.all_eq_true, asks_syncZip_eq_zero n]

/-- The frame makes no more callbacks, and as many only where the traversals
agree. -/
theorem asks_frameZip_le : ∀ (n : Nat) (l r : Value),
    asks a (frameZip (ZipFrame.leaf f) n l r) ≤ asks a (syncZip (ZipFrame.leaf f) n l r) ∧
      (asks a (frameZip (ZipFrame.leaf f) n l r) = asks a (syncZip (ZipFrame.leaf f) n l r) →
        zipAgree n l r = true)
  | 0, l, r => ⟨le_rfl, fun _ => rfl⟩
  | n + 1, l, r => by
    rw [zipAgree]
    by_cases hatoms : l.isAtom = true ∧ r.isAtom = true
    · rw [if_pos hatoms, frameZip, syncZip, if_pos hatoms, if_pos hatoms]
      exact ⟨le_rfl, fun _ => rfl⟩
    rw [if_neg hatoms]
    cases hcount : ZipFrame.pairCount l r with
    | error e =>
      rw [frameZip, syncZip, if_neg hatoms, if_neg hatoms, hcount]
      exact ⟨le_rfl, fun _ => rfl⟩
    | ok len =>
      rw [asks_syncZip_succ f a hatoms hcount]
      cases hkeys : ZipFrame.resultKeys l r with
      | error e =>
        have hzero : asks a (frameZip (ZipFrame.leaf f) (n + 1) l r) = 0 := by
          rw [frameZip, if_neg hatoms, hcount, hkeys]
          rfl
        rw [hzero]
        refine ⟨Nat.zero_le _, fun h => ?_⟩
        exact List.all_eq_true.mpr fun p hp =>
          (asks_syncZip_eq_zero f a n p.1 p.2).mp (sum_map_eq_zero.mp h.symm p hp)
      | ok keys =>
        rw [asks_frameZip_succ f a hatoms hcount hkeys, reachedPairs_eq hkeys]
        have hle : ∀ p ∈ upTo (fun p => zipFails n p.1 p.2) (Value.pairItems l r),
            asks a (frameZip (ZipFrame.leaf f) n p.1 p.2) ≤
              asks a (syncZip (ZipFrame.leaf f) n p.1 p.2) :=
          fun p _ => (asks_frameZip_le n p.1 p.2).1
        obtain ⟨h1, h2⟩ := sum_eq_of_le hle
        refine ⟨h1, fun heq => List.all_eq_true.mpr fun p hp => ?_⟩
        exact (asks_frameZip_le n p.1 p.2).2 (h2 heq p hp)

/-- Where `zipAgree` holds, the two traversals are one dialogue. -/
theorem frameZip_eq_syncZip : ∀ (n : Nat) (l r : Value), zipAgree n l r = true →
    frameZip (ZipFrame.leaf f) n l r = syncZip (ZipFrame.leaf f) n l r
  | 0, _, _, _ => rfl
  | n + 1, l, r, h => by
    rw [zipAgree] at h
    rw [frameZip, syncZip]
    by_cases hatoms : l.isAtom = true ∧ r.isAtom = true
    · rw [if_pos hatoms, if_pos hatoms]
    rw [if_neg hatoms] at h ⊢
    rw [if_neg hatoms]
    cases hcount : ZipFrame.pairCount l r with
    | error e => rfl
    | ok len =>
      cases hkeys : ZipFrame.resultKeys l r with
      | error e =>
        rw [hcount, hkeys] at h
        -- no callback before the difference of keys: only its error is left
        have hquiet : asks Value.emptyList ((reachedPairs l r).mapM fun p =>
            syncZip (ZipFrame.leaf f) n p.1 p.2) = 0 := by
          have hfails : (fun p : Value × Value =>
              !(ends Value.emptyList (syncZip (ZipFrame.leaf f) n p.1 p.2)).isOk) =
                fun p => zipFails n p.1 p.2 := by
            funext p
            rw [syncZip_isOk, Bool.not_not]
          rw [asks_mapM, hfails]
          exact sum_map_eq_zero.mpr fun p hp =>
            (asks_syncZip_eq_zero f Value.emptyList n p.1 p.2).mpr (List.all_eq_true.mp h p hp)
        rw [eq_done_of_asks_eq_zero hquiet]
        cases hends : ends Value.emptyList ((reachedPairs l r).mapM fun p =>
            syncZip (ZipFrame.leaf f) n p.1 p.2) with
        | ok items => rfl
        | error e' =>
          obtain ⟨p, -, hp⟩ := ends_mapM_error hends
          rw [resultKeys_error_eq hkeys, syncZip_error f Value.emptyList n p.1 p.2 e' hp]
          rfl
      | ok keys =>
        rw [hcount, hkeys] at h
        have hpairs := mapM_congr_upTo (p := fun p : Value × Value => zipFails n p.1 p.2)
          (g := fun p => syncZip (ZipFrame.leaf f) n p.1 p.2)
          (h := fun p => frameZip (ZipFrame.leaf f) n p.1 p.2)
          (fun p hp => syncZip_fails f n p.1 p.2 hp)
          fun p hp => (frameZip_eq_syncZip n p.1 p.2 (List.all_eq_true.mp h p hp)).symm
        simp only [reachedPairs_eq hkeys, hpairs]

end Agree

/-- **zipw agrees exactly under `zipAgree`.** -/
theorem frameZip_eq_syncZip_iff (f : Value) (d : Bool) (n : Nat) (l r : Value) :
    finalValue d <$> frameZip (ZipFrame.leaf f) n l r =
      finalValue d <$> syncZip (ZipFrame.leaf f) n l r ↔ zipAgree n l r = true := by
  constructor
  · intro h
    have hasks := congrArg (asks Value.emptyList) h
    rw [asks_map, asks_map] at hasks
    exact (asks_frameZip_le f Value.emptyList n l r).2 hasks
  · intro h
    rw [frameZip_eq_syncZip f n l r h]

end Ho
end Wqpl
