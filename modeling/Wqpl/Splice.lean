/-
# Splicing pieces into a list

`splice` puts pieces of elements into a list: at each position the pieces that
are for it, in their order, then the element there. `insertSorted` is a loop
that sorts the pieces by position and merges them with the list; it computes
the splice (`insertSorted_eq`), because the sort is stable.
-/
import Mathlib.Data.List.Basic

namespace Wqpl

variable {α β : Type*}

/-- The pieces for a position. -/
def piecesAt (c : Nat) (ops : List (Nat × List α)) : List α :=
  (ops.filter fun op => op.1 = c).flatMap Prod.snd

/-- The pieces put into a list that starts at position `c`. -/
def splice (c : Nat) : List α → List (Nat × List α) → List α
  | [], ops => piecesAt c ops
  | x :: xs, ops => piecesAt c ops ++ x :: splice (c + 1) xs ops

/-- The pieces merged into a list that starts at position `i`: those at the
front for `i`, then the element there. -/
def insertFrom (i : Nat) : List α → List (Nat × List α) → List α
  | [], ops => (ops.takeWhile fun op => op.1 = i).flatMap Prod.snd
  | x :: base, ops =>
    (ops.takeWhile fun op => op.1 = i).flatMap Prod.snd ++
      x :: insertFrom (i + 1) base (ops.dropWhile fun op => op.1 = i)

/-- `sort_by_key` by the position. -/
def sortByPosition (ops : List (Nat × β)) : List (Nat × β) :=
  ops.mergeSort fun a b => a.1 ≤ b.1

/-- The pieces sorted by position and merged. -/
def insertSorted (base : List α) (ops : List (Nat × List α)) : List α :=
  insertFrom 0 base (sortByPosition ops)

/-! ### The sort -/

theorem pairwise_sortByPosition (ops : List (Nat × β)) :
    (sortByPosition ops).Pairwise fun a b => a.1 ≤ b.1 := by
  have h := @List.pairwise_mergeSort (Nat × β) (fun a b => decide (a.1 ≤ b.1))
    (fun a b c => by simp only [decide_eq_true_eq]; omega)
    (fun a b => by simp only [Bool.or_eq_true, decide_eq_true_eq]; omega) ops
  exact h.imp fun hab => by simpa using hab

/-- The sort is stable: what is for one position keeps its order. -/
theorem filter_sortByPosition (ops : List (Nat × β)) (c : Nat) :
    ((sortByPosition ops).filter fun op => op.1 = c) = ops.filter fun op => op.1 = c := by
  have hsame : (ops.filter fun op => decide (op.1 = c)).Pairwise fun a b => decide (a.1 ≤ b.1) := by
    refine List.pairwise_of_forall_mem_list fun a ha b hb => ?_
    have ha : a.1 = c := by simpa using (List.mem_filter.mp ha).2
    have hb : b.1 = c := by simpa using (List.mem_filter.mp hb).2
    simp [ha, hb]
  have hsub := @List.sublist_mergeSort (Nat × β) (fun a b => decide (a.1 ≤ b.1)) ops
    (fun a b c => by simp only [decide_eq_true_eq]; omega)
    (fun a b => by simp only [Bool.or_eq_true, decide_eq_true_eq]; omega) _ hsame
    List.filter_sublist
  have hfilter := hsub.filter fun op => decide (op.1 = c)
  rw [List.filter_filter] at hfilter
  have hidem : (ops.filter fun op => decide (op.1 = c) && decide (op.1 = c)) =
      ops.filter fun op => decide (op.1 = c) := by simp
  rw [hidem] at hfilter
  have hperm : (sortByPosition ops).Perm ops := List.mergeSort_perm ops _
  exact (hfilter.eq_of_length (hperm.filter _).length_eq.symm).symm

/-! ### The merge -/

section Merge

variable {i : Nat} {ops : List (Nat × List α)}

/-- In sorted pieces those for the first position are at the front. -/
theorem takeWhile_eq_filter : ∀ {ops : List (Nat × List α)}, ops.Pairwise (fun a b => a.1 ≤ b.1) →
    (∀ op ∈ ops, i ≤ op.1) →
    (ops.takeWhile fun op => op.1 = i) = ops.filter fun op => op.1 = i
  | [], _, _ => rfl
  | op :: ops, hsorted, hlow => by
    obtain ⟨hfirst, hrest⟩ := List.pairwise_cons.mp hsorted
    by_cases h : op.1 = i
    · rw [List.takeWhile_cons_of_pos (by simpa using h), List.filter_cons_of_pos (by simpa using h),
        takeWhile_eq_filter hrest fun op' h' => hlow op' (List.mem_cons_of_mem _ h')]
    · rw [List.takeWhile_cons_of_neg (by simpa using h), List.filter_cons_of_neg (by simpa using h)]
      refine (List.filter_eq_nil_iff.mpr fun op' h' => ?_).symm
      have h₁ := hfirst op' h'
      have h₂ := hlow op List.mem_cons_self
      have : op'.1 ≠ i := by omega
      simpa using this

theorem dropWhile_eq_filter : ∀ {ops : List (Nat × List α)}, ops.Pairwise (fun a b => a.1 ≤ b.1) →
    (∀ op ∈ ops, i ≤ op.1) →
    (ops.dropWhile fun op => op.1 = i) = ops.filter fun op => op.1 ≠ i
  | [], _, _ => rfl
  | op :: ops, hsorted, hlow => by
    obtain ⟨hfirst, hrest⟩ := List.pairwise_cons.mp hsorted
    by_cases h : op.1 = i
    · rw [List.dropWhile_cons_of_pos (by simpa using h), List.filter_cons_of_neg (by simpa using h),
        dropWhile_eq_filter hrest fun op' h' => hlow op' (List.mem_cons_of_mem _ h')]
    · rw [List.dropWhile_cons_of_neg (by simpa using h)]
      refine (List.filter_eq_self.mpr fun op' h' => ?_).symm
      have hlow' := hlow op List.mem_cons_self
      rcases List.mem_cons.mp h' with rfl | h'
      · simpa using h
      · have := hfirst op' h'
        have : op'.1 ≠ i := by omega
        simpa using this

/-- A splice depends on the pieces for each position. -/
theorem splice_congr : ∀ {base : List α} {c : Nat} {ops ops' : List (Nat × List α)},
    (∀ j, c ≤ j → (ops.filter fun op => op.1 = j) = ops'.filter fun op => op.1 = j) →
    splice c base ops = splice c base ops'
  | [], c, ops, ops', h => by
    rw [splice, splice, piecesAt, piecesAt, h c (Nat.le_refl c)]
  | x :: base, c, ops, ops', h => by
    rw [splice, splice, piecesAt, piecesAt, h c (Nat.le_refl c),
      splice_congr fun j hj => h j (Nat.le_of_succ_le hj)]

/-- The merge is the splice. -/
theorem insertFrom_eq : ∀ {base : List α} {i : Nat} {ops : List (Nat × List α)},
    ops.Pairwise (fun a b => a.1 ≤ b.1) → (∀ op ∈ ops, i ≤ op.1) →
    insertFrom i base ops = splice i base ops
  | [], i, ops, hsorted, hlow => by
    rw [insertFrom, splice, piecesAt, takeWhile_eq_filter hsorted hlow]
  | x :: base, i, ops, hsorted, hlow => by
    have hlow' : ∀ op ∈ ops.filter (fun op => op.1 ≠ i), i + 1 ≤ op.1 := fun op hop => by
      have h₁ := hlow op (List.mem_filter.mp hop).1
      have h₂ : op.1 ≠ i := by simpa using (List.mem_filter.mp hop).2
      omega
    have hrest : splice (i + 1) base (ops.filter fun op => op.1 ≠ i) = splice (i + 1) base ops := by
      refine splice_congr fun j hj => ?_
      rw [List.filter_filter]
      refine List.filter_congr fun op _ => ?_
      by_cases h : op.1 = j
      · simp [h]
        omega
      · simp [h]
    rw [insertFrom, splice, piecesAt, takeWhile_eq_filter hsorted hlow,
      dropWhile_eq_filter hsorted hlow, insertFrom_eq (hsorted.filter _) hlow', hrest]

end Merge

/-- **Sorting and merging computes the splice.** -/
theorem insertSorted_eq (base : List α) (ops : List (Nat × List α)) :
    insertSorted base ops = splice 0 base ops := by
  unfold insertSorted
  rw [insertFrom_eq (pairwise_sortByPosition ops) fun op _ => Nat.zero_le op.1]
  exact splice_congr fun j _ => filter_sortByPosition ops j

/-! ### Splices -/

theorem splice_nil : ∀ (base : List α) (c : Nat), splice c base [] = base
  | [], _ => rfl
  | x :: base, c => by rw [splice, splice_nil base]; rfl

/-- One piece. -/
theorem splice_single (vs : List α) : ∀ {base : List α} {c d : Nat}, d ≤ base.length →
    splice c base [(c + d, vs)] = base.take d ++ vs ++ base.drop d
  | [], c, d, h => by
    obtain rfl : d = 0 := by simpa using h
    simp [splice, piecesAt]
  | x :: base, c, 0, _ => by
    have hrest : splice (c + 1) base [(c, vs)] = base := by
      have hnone : splice (c + 1) base [(c, vs)] = splice (c + 1) base [] := by
        refine splice_congr fun j hj => ?_
        rw [List.filter_cons_of_neg (by simp; omega)]
      rw [hnone, splice_nil]
    rw [Nat.add_zero, splice, hrest, piecesAt]
    simp
  | x :: base, c, d + 1, h => by
    have hd : d ≤ base.length := by simpa using h
    have ih := @splice_single vs base (c + 1) d hd
    rw [Nat.add_right_comm, Nat.add_assoc] at ih
    rw [splice, piecesAt, ih]
    simp

theorem map_splice (f : α → β) : ∀ (base : List α) (c : Nat) (ops : List (Nat × List α)),
    (splice c base ops).map f = splice c (base.map f) (ops.map fun op => (op.1, op.2.map f)) := by
  have hpieces : ∀ (c : Nat) (ops : List (Nat × List α)),
      (piecesAt c ops).map f = piecesAt c (ops.map fun op => (op.1, op.2.map f)) := by
    intro c ops
    unfold piecesAt
    rw [List.filter_map, List.map_flatMap, List.flatMap_map]
    rfl
  intro base
  induction base with
  | nil => exact fun c ops => hpieces c ops
  | cons x base ih =>
    intro c ops
    rw [List.map_cons, splice, splice, List.map_append, List.map_cons, hpieces, ih]

end Wqpl
