/-
# Taking elements out of a list by position

A list is taken apart by positions: `gather` reads the elements at some
positions in the order of the positions, `dropWhere` is what is left without
them. `removeEach` removes one position after the other, each from what the
removals before it left; from the highest position down this leaves
`dropWhere` of the positions (`removeEach_descending`). Repeated positions are
found by sorting and comparing neighbours (`hasDuplicate_eq_false`).
-/
import Mathlib.Data.List.Basic
import Mathlib.Data.List.Nodup
import Mathlib.Order.Lattice

namespace Wqpl

variable {α β : Type*}

/-! ### Repeated elements -/

/-- `windows(2).any(|pair| pair[0] == pair[1])`. -/
def hasEqualNeighbours [DecidableEq α] : List α → Bool
  | [] => false
  | [_] => false
  | a :: b :: rest => a = b || hasEqualNeighbours (b :: rest)

/-- Equal neighbours after sorting. -/
def hasDuplicate [LinearOrder α] (xs : List α) : Bool :=
  hasEqualNeighbours (xs.mergeSort fun a b => a ≤ b)

/-- In a sorted list equal elements are neighbours. -/
theorem hasEqualNeighbours_eq_false [LinearOrder α] : ∀ xs : List α, xs.Pairwise (· ≤ ·) →
    (hasEqualNeighbours xs = false ↔ xs.Nodup)
  | [], _ => by simp [hasEqualNeighbours]
  | [_], _ => by simp [hasEqualNeighbours]
  | a :: b :: rest, h => by
    have hrest := (List.pairwise_cons.mp h).2
    have ih := hasEqualNeighbours_eq_false (b :: rest) hrest
    have hab : a ≤ b := (List.pairwise_cons.mp h).1 b List.mem_cons_self
    have hne : ¬a = b ↔ a ∉ b :: rest := by
      constructor
      · intro hne hmem
        rcases List.mem_cons.mp hmem with he | hmem
        · exact hne he
        · -- `a ≤ b`, and `b` is the least of the others
          have hba : b ≤ a := (List.pairwise_cons.mp hrest).1 a hmem
          exact hne (le_antisymm hab hba)
      · rintro hmem rfl
        exact hmem List.mem_cons_self
    rw [hasEqualNeighbours, Bool.or_eq_false_iff, decide_eq_false_iff_not, ih,
      List.nodup_cons (a := a), hne]

theorem hasDuplicate_eq_false [LinearOrder α] (xs : List α) :
    hasDuplicate xs = false ↔ xs.Nodup := by
  have hsorted : (xs.mergeSort fun a b => decide (a ≤ b)).Pairwise (· ≤ ·) := by
    have h := @List.pairwise_mergeSort α (fun a b => decide (a ≤ b))
      (fun a b c hab hbc => by simpa using le_trans (by simpa using hab) (by simpa using hbc))
      (fun a b => by simpa using le_total a b) xs
    exact h.imp fun hab => by simpa using hab
  unfold hasDuplicate
  rw [hasEqualNeighbours_eq_false _ hsorted]
  exact (List.mergeSort_perm xs _).nodup_iff

/-! ### The elements without some positions -/

/-- The elements at the positions where `q` is false, in order. -/
def dropWhere (q : Nat → Bool) : List α → List α
  | [] => []
  | x :: xs =>
    if q 0 then dropWhere (fun i => q (i + 1)) xs else x :: dropWhere (fun i => q (i + 1)) xs

theorem dropWhere_congr {q r : Nat → Bool} : ∀ {xs : List α}, (∀ i < xs.length, q i = r i) →
    dropWhere q xs = dropWhere r xs
  | [], _ => rfl
  | x :: xs, h => by
    have htail : dropWhere (fun i => q (i + 1)) xs = dropWhere (fun i => r (i + 1)) xs :=
      dropWhere_congr fun i hi => h (i + 1) (by simpa using hi)
    rw [dropWhere, dropWhere, htail, h 0 (by simp)]

theorem dropWhere_false : ∀ xs : List α, dropWhere (fun _ => false) xs = xs
  | [] => rfl
  | x :: xs => by simp [dropWhere, dropWhere_false xs]

theorem map_dropWhere (f : α → β) : ∀ (q : Nat → Bool) (xs : List α),
    (dropWhere q xs).map f = dropWhere q (xs.map f)
  | _, [] => rfl
  | q, x :: xs => by
    rw [List.map_cons, dropWhere, dropWhere, ← map_dropWhere f _ xs]
    by_cases h : q 0 = true
    · rw [if_pos h, if_pos h]
    · rw [if_neg h, if_neg h, List.map_cons]

/-- Where the positions are those of the elements of a kind, their removal is
a filter. -/
theorem dropWhere_eq_filter (p : α → Bool) : ∀ (q : Nat → Bool) (xs : List α),
    (∀ (i : Nat) (x : α), xs[i]? = some x → q i = !p x) → dropWhere q xs = xs.filter p
  | _, [], _ => rfl
  | q, x :: xs, h => by
    have htail : dropWhere (fun i => q (i + 1)) xs = xs.filter p :=
      dropWhere_eq_filter p _ xs fun i y hy => h (i + 1) y (by simpa using hy)
    rw [dropWhere, htail, h 0 x rfl, List.filter_cons]
    cases p x <;> rfl

/-- The highest position goes first: the others keep their places. -/
theorem dropWhere_eraseIdx : ∀ {q : Nat → Bool} {i : Nat} {xs : List α},
    (∀ j, q j = true → j < i) → i < xs.length →
    dropWhere (fun j => j = i || q j) xs = dropWhere q (xs.eraseIdx i)
  | _, _, [], _, hi => by simp at hi
  | q, 0, x :: xs, hq, _ => by
    have hnone : ∀ j, q j = false := fun j => by
      cases hj : q j with
      | false => rfl
      | true => exact absurd (hq j hj) (Nat.not_lt_zero j)
    rw [List.eraseIdx_cons_zero, dropWhere, if_pos (by simp)]
    refine (dropWhere_congr fun j _ => ?_).trans
      (dropWhere_congr (r := q) fun j _ => (hnone j).symm)
    simp [hnone]
  | q, i + 1, x :: xs, hq, hi => by
    have htail : dropWhere (fun j => decide (j + 1 = i + 1) || q (j + 1)) xs =
        dropWhere (fun j => q (j + 1)) (xs.eraseIdx i) := by
      rw [← dropWhere_eraseIdx (q := fun j => q (j + 1)) (i := i)]
      · exact dropWhere_congr fun j _ => by simp
      · exact fun j hj => by
          have := hq (j + 1) hj
          omega
      · simpa using hi
    rw [List.eraseIdx_cons_succ, dropWhere, dropWhere, htail]
    simp

/-! ### Removal in steps -/

/-- `Vec::remove`, without its element; `none` is its panic. -/
def removeAt (xs : List α) (i : Nat) : Option (List α) :=
  if i < xs.length then some (xs.eraseIdx i) else none

/-- The positions removed one after the other. -/
def removeEach (xs : List α) : List Nat → Option (List α)
  | [] => some xs
  | i :: is => do removeEach (← removeAt xs i) is

/-- **From the highest position down, the others are left in order.** The
induction is on the positions; what is erased first does not move the rest. -/
theorem removeEach_descending : ∀ {is : List Nat} {xs : List α}, is.Pairwise (· > ·) →
    (∀ i ∈ is, i < xs.length) → removeEach xs is = some (dropWhere (fun j => j ∈ is) xs)
  | [], xs, _, _ => by simp [removeEach, dropWhere_false]
  | i :: is, xs, hdesc, hlt => by
    obtain ⟨hfirst, hrest⟩ := List.pairwise_cons.mp hdesc
    have hi : i < xs.length := hlt i List.mem_cons_self
    have hlen : ∀ j ∈ is, j < (xs.eraseIdx i).length := fun j hj => by
      have := hfirst j hj
      rw [List.length_eraseIdx_of_lt hi]
      omega
    rw [removeEach, removeAt, if_pos hi]
    show removeEach (xs.eraseIdx i) is = _
    rw [removeEach_descending hrest hlen, ← dropWhere_eraseIdx (fun j hj => hfirst j ?_) hi]
    · exact congrArg some (dropWhere_congr fun j _ => by simp)
    · simpa using hj

/-- The elements at some positions, in the order of the positions. -/
def gather (xs : List α) (positions : List Nat) : Option (List α) :=
  positions.mapM fun (i : Nat) => xs[i]?

theorem gather_map (f : α → β) (xs : List α) (positions : List Nat) :
    gather (xs.map f) positions = (gather xs positions).map (List.map f) := by
  unfold gather
  induction positions with
  | nil => rfl
  | cons i is ih =>
    rw [List.mapM_cons, List.mapM_cons, ih, List.getElem?_map]
    cases xs[i]? with
    | none => rfl
    | some x => cases is.mapM fun (i : Nat) => xs[i]? <;> rfl

theorem gather_isSome {xs : List α} : ∀ {positions : List Nat}, (∀ i ∈ positions, i < xs.length) →
    ∃ ys, gather xs positions = some ys
  | [], _ => ⟨[], rfl⟩
  | i :: is, h => by
    obtain ⟨ys, hys⟩ := gather_isSome fun j hj => h j (List.mem_cons_of_mem i hj)
    have hi : i < xs.length := h i List.mem_cons_self
    refine ⟨xs[i] :: ys, ?_⟩
    unfold gather at hys ⊢
    rw [List.mapM_cons, List.getElem?_eq_getElem hi, hys]
    rfl

theorem mem_gather {xs : List α} : ∀ {positions : List Nat} {ys : List α},
    gather xs positions = some ys → ∀ y, y ∈ ys ↔ ∃ i ∈ positions, xs[i]? = some y
  | [], ys, h, y => by
    obtain rfl : [] = ys := Option.some.inj h
    simp
  | i :: is, ys, h, y => by
    unfold gather at h
    simp only [List.mapM_cons, bind, Option.bind_eq_some_iff, pure, Option.some.injEq] at h
    obtain ⟨x, hx, zs, hzs, rfl⟩ := h
    rw [List.mem_cons, mem_gather hzs, List.exists_mem_cons_iff, hx, Option.some.injEq]
    exact or_congr_left eq_comm

/-- Positions of different elements are different. -/
theorem nodup_gather {xs : List α} (hxs : xs.Nodup) : ∀ {positions : List Nat} {ys : List α},
    gather xs positions = some ys → (ys.Nodup ↔ positions.Nodup)
  | [], ys, h => by
    obtain rfl : [] = ys := Option.some.inj h
    simp
  | i :: is, ys, h => by
    unfold gather at h
    simp only [List.mapM_cons, bind, Option.bind_eq_some_iff, pure, Option.some.injEq] at h
    obtain ⟨x, hx, zs, hzs, rfl⟩ := h
    rw [List.nodup_cons, List.nodup_cons, nodup_gather hxs hzs, mem_gather hzs]
    refine and_congr_left fun _ => not_congr ⟨?_, fun hmem => ⟨i, hmem, hx⟩⟩
    rintro ⟨j, hj, hjx⟩
    have hi : i < xs.length := (List.getElem?_eq_some_iff.mp hx).1
    obtain rfl : i = j := (List.getElem?_inj hi hxs).mp (hx.trans hjx.symm)
    exact hj

/-- One position. -/
theorem dropWhere_singleton {i : Nat} {xs : List α} (hi : i < xs.length) :
    dropWhere (fun j => j ∈ [i]) xs = xs.eraseIdx i := by
  have h := dropWhere_eraseIdx (q := fun _ => false) (fun j hj => by cases hj) hi
  rw [dropWhere_false] at h
  rw [← h]
  exact dropWhere_congr fun j _ => by simp

/-- The positions sorted from the highest down and then removed. -/
def removeMany (xs : List α) (positions : List Nat) : Option (List α) :=
  removeEach xs (positions.mergeSort fun a b => b ≤ a)

theorem removeMany_eq {xs : List α} {positions : List Nat} (hnodup : positions.Nodup)
    (hlt : ∀ i ∈ positions, i < xs.length) :
    removeMany xs positions = some (dropWhere (fun j => j ∈ positions) xs) := by
  have hperm := List.mergeSort_perm positions fun a b => decide (b ≤ a)
  have hdesc : (positions.mergeSort fun a b => decide (b ≤ a)).Pairwise (· > ·) := by
    have hle := @List.pairwise_mergeSort Nat (fun a b => decide (b ≤ a))
      (fun a b c => by simp only [decide_eq_true_eq]; omega)
      (fun a b => by simp only [Bool.or_eq_true, decide_eq_true_eq]; omega) positions
    refine (hle.and (hperm.nodup_iff.mpr hnodup)).imp fun {a b} h => ?_
    have : b ≤ a := by simpa using h.1
    have := h.2
    omega
  unfold removeMany
  rw [removeEach_descending hdesc fun i hi => hlt i (hperm.mem_iff.mp hi)]
  exact congrArg some (dropWhere_congr fun j _ => by rw [decide_eq_decide]; exact hperm.mem_iff)

end Wqpl
