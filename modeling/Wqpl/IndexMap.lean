/-
# Insertion-ordered maps and writes in order

A map is the list of its entries, in the order in which their keys came. After
inserting pairs one by one a key has the value it was last inserted with
(`get?_insertAll`), and the keys that were there keep their places
(`keys_insertAll`). Writes to the positions of a list in order do the same
(`getElem?_setAll`).
-/
import Mathlib.Data.List.Basic
import Mathlib.Data.List.Nodup

namespace Wqpl

namespace IndexMap

variable {K V : Type*} [DecidableEq K]

/-- A present key keeps its place and takes the new value; a new key goes to
the end. -/
def insert : List (K × V) → K → V → List (K × V)
  | [], k, v => [(k, v)]
  | (k', v') :: es, k, v => if k' = k then (k', v) :: es else (k', v') :: insert es k v

/-- The map that holds the pairs, inserted in order. -/
def collect (pairs : List (K × V)) : List (K × V) :=
  pairs.foldl (fun m p => insert m p.1 p.2) []

def get? (m : List (K × V)) (k : K) : Option V := (m.find? fun p => p.1 = k).map Prod.snd

/-- The pairs inserted into a map, in order. -/
def insertAll (m pairs : List (K × V)) : List (K × V) :=
  pairs.foldl (fun m p => insert m p.1 p.2) m

/-- The value that a key has in the last of the pairs that have the key. -/
def last? (pairs : List (K × V)) (k : K) : Option V := get? pairs.reverse k

/-- The entry of a key taken out, those after it moving up. -/
def shiftRemove : List (K × V) → K → Option (V × List (K × V))
  | [], _ => none
  | (k', v') :: es, k =>
    if k' = k then some (v', es)
    else (shiftRemove es k).map fun p => (p.1, (k', v') :: p.2)

/-- The entry at a position taken out, those after it moving up. -/
def shiftRemoveIndex (m : List (K × V)) (i : Nat) : Option ((K × V) × List (K × V)) :=
  m[i]?.map fun e => (e, m.eraseIdx i)

/-- The value at a position replaced. -/
def setAt (m : List (K × V)) (i : Nat) (v : V) : List (K × V) := m.modify i fun e => (e.1, v)

theorem get?_cons (k' : K) (v' : V) (es : List (K × V)) (k : K) :
    get? ((k', v') :: es) k = if k' = k then some v' else get? es k := by
  unfold get?
  by_cases h : k' = k <;> simp [h]

theorem get?_append (m m' : List (K × V)) (k : K) :
    get? (m ++ m') k = (get? m k).or (get? m' k) := by
  unfold get?
  rw [List.find?_append]
  cases m.find? fun p => p.1 = k <;> simp

theorem get?_isSome (m : List (K × V)) (k : K) : (get? m k).isSome = true ↔ k ∈ m.map Prod.fst := by
  induction m with
  | nil => simp [get?]
  | cons e es ih =>
    obtain ⟨k', v'⟩ := e
    rw [get?_cons, List.map_cons, List.mem_cons]
    by_cases h : k' = k
    · simp [h]
    · rw [if_neg h, ih]
      exact ⟨.inr, fun hmem => hmem.resolve_left (Ne.symm h)⟩

/-- Inserting changes the value of one key. -/
theorem get?_insert (m : List (K × V)) (k : K) (v : V) (k' : K) :
    get? (insert m k v) k' = if k = k' then some v else get? m k' := by
  induction m with
  | nil => rw [insert, get?_cons]
  | cons e es ih =>
    obtain ⟨k₁, v₁⟩ := e
    rw [insert]
    by_cases h : k₁ = k
    · subst h
      rw [if_pos rfl, get?_cons, get?_cons]
      by_cases hk : k₁ = k' <;> simp [hk]
    · rw [if_neg h, get?_cons, get?_cons, ih]
      by_cases hk : k₁ = k'
      · subst hk
        simp [Ne.symm h]
      · simp [hk]

theorem keys_insert (m : List (K × V)) (k : K) (v : V) :
    (insert m k v).map Prod.fst =
      if k ∈ m.map Prod.fst then m.map Prod.fst else m.map Prod.fst ++ [k] := by
  induction m with
  | nil => simp [insert]
  | cons e es ih =>
    obtain ⟨k₁, v₁⟩ := e
    rw [insert]
    by_cases h : k₁ = k
    · simp [h]
    · rw [if_neg h, List.map_cons, ih, List.map_cons]
      by_cases hmem : k ∈ es.map Prod.fst
      · rw [if_pos hmem, if_pos (List.mem_cons_of_mem _ hmem)]
      · have hne : k ∉ k₁ :: es.map Prod.fst := by
          intro hk
          rcases List.mem_cons.mp hk with hk | hk
          · exact h hk.symm
          · exact hmem hk
        rw [if_neg hmem, if_neg hne, List.cons_append]

theorem nodup_keys_insert {m : List (K × V)} (h : (m.map Prod.fst).Nodup) (k : K) (v : V) :
    ((insert m k v).map Prod.fst).Nodup := by
  rw [keys_insert]
  by_cases hmem : k ∈ m.map Prod.fst
  · rwa [if_pos hmem]
  · rw [if_neg hmem, ← List.concat_eq_append]
    exact h.concat hmem

/-! ### Insertions in order -/

/-- A key has the value it was last inserted with. -/
theorem get?_insertAll (pairs : List (K × V)) : ∀ (m : List (K × V)) (k : K),
    get? (insertAll m pairs) k = (last? pairs k).or (get? m k) := by
  induction pairs with
  | nil => exact fun _ _ => rfl
  | cons p ps ih =>
    intro m k
    have hlast : last? (p :: ps) k = (last? ps k).or (if p.1 = k then some p.2 else none) := by
      unfold last?
      rw [List.reverse_cons, get?_append, show [p] = [(p.1, p.2)] from rfl, get?_cons]
      rfl
    show get? (insertAll (insert m p.1 p.2) ps) k = _
    rw [ih, get?_insert, hlast]
    by_cases hk : p.1 = k
    · rw [if_pos hk, if_pos hk]
      cases last? ps k <;> rfl
    · rw [if_neg hk, if_neg hk]
      cases last? ps k <;> rfl

/-- The keys that were there keep their places, the new ones follow. -/
theorem keys_insertAll (pairs : List (K × V)) : ∀ m : List (K × V),
    ∃ new, (insertAll m pairs).map Prod.fst = m.map Prod.fst ++ new ∧
      ∀ k ∈ new, k ∈ pairs.map Prod.fst := by
  induction pairs with
  | nil => exact fun m => ⟨[], (List.append_nil _).symm, nofun⟩
  | cons p ps ih =>
    intro m
    obtain ⟨new, hnew, hmem⟩ := ih (insert m p.1 p.2)
    show ∃ new', (insertAll (insert m p.1 p.2) ps).map Prod.fst = _ ∧ _
    rw [hnew, keys_insert]
    by_cases h : p.1 ∈ m.map Prod.fst
    · rw [if_pos h]
      exact ⟨new, rfl, fun k hk => List.mem_cons_of_mem _ (hmem k hk)⟩
    · rw [if_neg h]
      refine ⟨p.1 :: new, List.append_assoc _ _ _, fun k hk => ?_⟩
      rcases List.mem_cons.mp hk with rfl | hk
      · exact List.mem_cons_self
      · exact List.mem_cons_of_mem _ (hmem k hk)

/-- Without repeated keys, an entry is what its key has. -/
theorem get?_of_mem {m : List (K × V)} (hm : (m.map Prod.fst).Nodup) {k : K} {v : V}
    (h : (k, v) ∈ m) : get? m k = some v := by
  induction m with
  | nil => cases h
  | cons e es ih =>
    obtain ⟨k₁, v₁⟩ := e
    rw [List.map_cons, List.nodup_cons] at hm
    rw [get?_cons]
    rcases List.mem_cons.mp h with he | hmem
    · obtain ⟨rfl, rfl⟩ := Prod.mk.inj he
      exact if_pos rfl
    · have hne : k₁ ≠ k := by
        rintro rfl
        exact hm.1 (List.mem_map.mpr ⟨_, hmem, rfl⟩)
      rw [if_neg hne]
      exact ih hm.2 hmem

/-- A key has a last value if a pair has the key. -/
theorem last?_isSome (pairs : List (K × V)) (k : K) :
    (last? pairs k).isSome = true ↔ k ∈ pairs.map Prod.fst := by
  unfold last?
  rw [get?_isSome, List.map_reverse, List.mem_reverse]

/-- Inserting keys that are there adds none. -/
theorem keys_insertAll_of_subset {m pairs : List (K × V)} (h : ∀ k ∈ pairs.map Prod.fst,
    k ∈ m.map Prod.fst) : (insertAll m pairs).map Prod.fst = m.map Prod.fst := by
  induction pairs generalizing m with
  | nil => rfl
  | cons p ps ih =>
    have hkeys : (insert m p.1 p.2).map Prod.fst = m.map Prod.fst := by
      rw [keys_insert, if_pos (h p.1 List.mem_cons_self)]
    rw [← hkeys]
    refine ih fun k hk => ?_
    rw [hkeys]
    exact h k (List.mem_cons_of_mem _ hk)

/-- Taking out a key takes its entry out of the others. -/
theorem shiftRemove_eq {m : List (K × V)} (hm : (m.map Prod.fst).Nodup) (k : K) :
    shiftRemove m k = (get? m k).map fun v => (v, m.filter fun e => e.1 ≠ k) := by
  induction m with
  | nil => rfl
  | cons e es ih =>
    obtain ⟨k₁, v₁⟩ := e
    rw [List.map_cons, List.nodup_cons] at hm
    rw [shiftRemove, get?_cons]
    by_cases h : k₁ = k
    · subst h
      have hrest : es.filter (fun e => e.1 ≠ k₁) = es :=
        List.filter_eq_self.mpr fun e he => by
          have hne : e.1 ≠ k₁ := fun hk => hm.1 (List.mem_map.mpr ⟨e, he, hk⟩)
          simpa using hne
      rw [if_pos rfl, if_pos rfl, List.filter_cons_of_neg (by simp), hrest]
      rfl
    · rw [if_neg h, if_neg h, ih hm.2, List.filter_cons_of_pos (by simpa using h)]
      cases get? es k <;> rfl

/-- Without one key the others have what they had. -/
theorem get?_filter_ne (m : List (K × V)) {k k' : K} (h : k' ≠ k) :
    get? (m.filter fun e => e.1 ≠ k) k' = get? m k' := by
  induction m with
  | nil => rfl
  | cons e es ih =>
    obtain ⟨k₁, v₁⟩ := e
    by_cases h₁ : k₁ = k
    · have hne : k₁ ≠ k' := fun hk => h (hk.symm.trans h₁)
      rw [List.filter_cons_of_neg (by simpa using h₁), ih, get?_cons, if_neg hne]
    · rw [List.filter_cons_of_pos (by simpa using h₁), get?_cons, get?_cons, ih]

theorem nodup_keys_insertAll {m : List (K × V)} (hm : (m.map Prod.fst).Nodup)
    (pairs : List (K × V)) : ((insertAll m pairs).map Prod.fst).Nodup := by
  induction pairs generalizing m with
  | nil => exact hm
  | cons p ps ih => exact ih (nodup_keys_insert hm p.1 p.2)

/-- Replacing the value at a position inserts it under the key there. -/
theorem setAt_eq_insert {m : List (K × V)} (hm : (m.map Prod.fst).Nodup) {i : Nat} {k : K} {w v : V}
    (h : m[i]? = some (k, w)) : setAt m i v = insert m k v := by
  induction m generalizing i with
  | nil => cases h
  | cons e es ih =>
    obtain ⟨k₁, v₁⟩ := e
    rw [List.map_cons, List.nodup_cons] at hm
    cases i with
    | zero =>
      obtain ⟨rfl, rfl⟩ : k₁ = k ∧ v₁ = w := by simpa using h
      rw [insert, if_pos rfl]
      rfl
    | succ i =>
      rw [List.getElem?_cons_succ] at h
      have hne : k₁ ≠ k := by
        rintro rfl
        exact hm.1 (List.mem_map.mpr ⟨_, List.mem_of_getElem? h, rfl⟩)
      rw [insert, if_neg hne, ← ih hm.2 h]
      rfl

end IndexMap

/-! ### Writes to the positions of a list -/

section Writes

variable {α β : Type*}

/-- The writes made one after the other. -/
def setAll (xs : List α) (writes : List (Nat × α)) : List α :=
  writes.foldl (fun xs p => xs.set p.1 p.2) xs

@[simp] theorem length_setAll (writes : List (Nat × α)) : ∀ xs : List α,
    (setAll xs writes).length = xs.length := by
  induction writes with
  | nil => exact fun _ => rfl
  | cons p ps ih => exact fun xs => (ih (xs.set p.1 p.2)).trans List.length_set

theorem map_setAll (f : α → β) (writes : List (Nat × α)) : ∀ xs : List α,
    (setAll xs writes).map f = setAll (xs.map f) (writes.map fun p => (p.1, f p.2)) := by
  induction writes with
  | nil => exact fun _ => rfl
  | cons p ps ih =>
    intro xs
    show (setAll (xs.set p.1 p.2) ps).map f = setAll ((xs.map f).set p.1 (f p.2)) _
    rw [ih, List.map_set]

/-- A position holds what was last written to it. -/
theorem getElem?_setAll (writes : List (Nat × α)) : ∀ (xs : List α) (i : Nat),
    i < xs.length → (setAll xs writes)[i]? = (IndexMap.last? writes i).or xs[i]? := by
  induction writes with
  | nil => exact fun _ _ _ => rfl
  | cons p ps ih =>
    intro xs i hi
    have hlast : IndexMap.last? (p :: ps) i =
        (IndexMap.last? ps i).or (if p.1 = i then some p.2 else none) := by
      unfold IndexMap.last?
      rw [List.reverse_cons, IndexMap.get?_append, show [p] = [(p.1, p.2)] from rfl,
        IndexMap.get?_cons]
      rfl
    show (setAll (xs.set p.1 p.2) ps)[i]? = _
    rw [ih _ _ (by rwa [List.length_set]), hlast, List.getElem?_set]
    by_cases hp : p.1 = i
    · subst hp
      cases IndexMap.last? ps p.1 <;> simp [hi]
    · cases IndexMap.last? ps i <;> simp [hp]

end Writes

end Wqpl
