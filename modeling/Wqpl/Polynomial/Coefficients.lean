/-
# Polynomials as lists of coefficients

The polynomial with the coefficients of a list, the constant one first
(`ofCoeffs`). An item past the end counts as zero, so the coefficients of the
polynomial are the items of the list (`coeff_ofCoeffs`), and a last item that is
not zero is the leading coefficient (`leadingCoeff_concat`).
-/
import Mathlib.Algebra.Polynomial.Degree.Lemmas
import Mathlib.Algebra.Polynomial.Derivative
import Mathlib.Algebra.Polynomial.Eval.Degree
import Mathlib.Data.List.GetD

namespace Wqpl

open Polynomial

section Semiring

variable {K : Type*} [Semiring K]

/-- The polynomial with these coefficients, from the constant one up. -/
noncomputable def ofCoeffs : List K → K[X]
  | [] => 0
  | c :: cs => C c + X * ofCoeffs cs

@[simp] theorem ofCoeffs_nil : ofCoeffs ([] : List K) = 0 := rfl

theorem ofCoeffs_cons (c : K) (cs : List K) : ofCoeffs (c :: cs) = C c + X * ofCoeffs cs := rfl

theorem ofCoeffs_singleton (c : K) : ofCoeffs [c] = C c := by
  rw [ofCoeffs_cons, ofCoeffs_nil, mul_zero, add_zero]

/-- The coefficients are the items. -/
theorem coeff_ofCoeffs : ∀ (cs : List K) (i : Nat), (ofCoeffs cs).coeff i = cs.getD i 0
  | [], i => by simp
  | c :: cs, 0 => by simp [ofCoeffs_cons]
  | c :: cs, i + 1 => by
    rw [ofCoeffs_cons, coeff_add, coeff_C_succ, zero_add, coeff_X_mul, coeff_ofCoeffs cs i,
      List.getD_cons_succ]

theorem ofCoeffs_append : ∀ cs ds : List K,
    ofCoeffs (cs ++ ds) = ofCoeffs cs + X ^ cs.length * ofCoeffs ds
  | [], ds => by simp
  | c :: cs, ds => by
    rw [List.cons_append, ofCoeffs_cons, ofCoeffs_append cs ds, ofCoeffs_cons, List.length_cons,
      pow_succ', mul_add, add_assoc, mul_assoc]

theorem ofCoeffs_concat (cs : List K) (c : K) :
    ofCoeffs (cs ++ [c]) = ofCoeffs cs + C c * X ^ cs.length := by
  rw [ofCoeffs_append, ofCoeffs_singleton, X_pow_mul]

theorem ofCoeffs_eq_zero {cs : List K} : ofCoeffs cs = 0 ↔ ∀ c ∈ cs, c = 0 := by
  constructor
  · intro h c hc
    obtain ⟨i, hi, rfl⟩ := List.mem_iff_getElem.mp hc
    have hcoeff := coeff_ofCoeffs cs i
    rw [h, coeff_zero, List.getD_eq_getElem _ _ hi] at hcoeff
    exact hcoeff.symm
  · intro h
    ext i
    rw [coeff_ofCoeffs, coeff_zero]
    rcases lt_or_ge i cs.length with hi | hi
    · rw [List.getD_eq_getElem _ _ hi]
      exact h _ (List.getElem_mem hi)
    · exact List.getD_eq_default _ _ hi

theorem degree_ofCoeffs_lt (cs : List K) : (ofCoeffs cs).degree < cs.length := by
  rw [degree_lt_iff_coeff_zero]
  intro i hi
  rw [coeff_ofCoeffs]
  exact List.getD_eq_default _ _ hi

theorem natDegree_concat (cs : List K) {c : K} (hc : c ≠ 0) :
    (ofCoeffs (cs ++ [c])).natDegree = cs.length := by
  rw [ofCoeffs_concat]
  refine natDegree_eq_of_degree_eq_some ?_
  rw [add_comm, degree_add_eq_left_of_degree_lt, degree_C_mul_X_pow _ hc]
  rw [degree_C_mul_X_pow _ hc]
  exact degree_ofCoeffs_lt cs

/-- A last item that is not zero is the leading coefficient. -/
theorem leadingCoeff_concat (cs : List K) {c : K} (hc : c ≠ 0) :
    (ofCoeffs (cs ++ [c])).leadingCoeff = c := by
  rw [leadingCoeff, natDegree_concat cs hc, coeff_ofCoeffs]
  simp

theorem ofCoeffs_concat_zero (cs : List K) : ofCoeffs (cs ++ [0]) = ofCoeffs cs := by
  rw [ofCoeffs_concat, C_0, zero_mul, add_zero]

theorem ofCoeffs_map {L : Type*} [Semiring L] (f : K →+* L) (cs : List K) :
    ofCoeffs (cs.map f) = (ofCoeffs cs).map f := by
  induction cs with
  | nil => simp
  | cons c cs ih =>
    rw [List.map_cons, ofCoeffs_cons, ih, ofCoeffs_cons, Polynomial.map_add, Polynomial.map_mul,
      map_C, map_X]

theorem ofCoeffs_replicate (n : Nat) : ofCoeffs (List.replicate n (0 : K)) = 0 :=
  ofCoeffs_eq_zero.mpr fun _ hc => (List.mem_replicate.mp hc).2

end Semiring

section Ring

variable {K : Type*} [CommRing K]

/-- A change of one item. -/
theorem ofCoeffs_set : ∀ (cs : List K) (i : Nat) (c : K), i < cs.length →
    ofCoeffs (cs.set i c) = ofCoeffs cs + C (c - cs.getD i 0) * X ^ i
  | [], i, c, h => absurd h (Nat.not_lt_zero i)
  | d :: cs, 0, c, _ => by
    simp only [List.set_cons_zero, ofCoeffs_cons, List.getD_cons_zero, C_sub, pow_zero, mul_one]
    ring
  | d :: cs, i + 1, c, h => by
    rw [List.set_cons_succ, ofCoeffs_cons, ofCoeffs_cons,
      ofCoeffs_set cs i c (Nat.lt_of_succ_lt_succ h), List.getD_cons_succ]
    ring

end Ring

end Wqpl
