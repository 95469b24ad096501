/-
# Division, greatest common divisors and resultants

What the steps of the Euclidean algorithms rest on: a multiple of the divisor
that cancels the leading term lowers the degree (`degree_cancel_lt`), a
remainder has the same common divisors (`IsGcd.of_remainder`), and the resultant
of two polynomials is that of the divisor and the remainder up to a sign and a
power of the leading coefficient (`resultant_remainder`).
-/
import Mathlib.RingTheory.Polynomial.Resultant.Basic
import Mathlib.FieldTheory.IsAlgClosed.Basic
import Mathlib.Algebra.Polynomial.FieldDivision

namespace Wqpl

open Polynomial

section Gcd

variable {R : Type*} [EuclideanDomain R]

/-- A greatest common divisor. -/
structure IsGcd (g a b : R) : Prop where
  left : g ∣ a
  right : g ∣ b
  greatest : ∀ c, c ∣ a → c ∣ b → c ∣ g

namespace IsGcd

variable {a b g q r : R}

theorem zero_right (a : R) : IsGcd a a 0 := ⟨dvd_rfl, dvd_zero a, fun _ hc _ => hc⟩

theorem symm (h : IsGcd g a b) : IsGcd g b a :=
  ⟨h.right, h.left, fun c ha hb => h.greatest c hb ha⟩

/-- The divisor and the remainder have the same common divisors. -/
theorem of_remainder (h : IsGcd g b r) (ha : a = q * b + r) : IsGcd g a b where
  left := by
    rw [ha]
    exact dvd_add (h.left.mul_left q) h.right
  right := h.left
  greatest c hca hcb := by
    refine h.greatest c hcb ?_
    have hr : r = a - q * b := by rw [ha, add_sub_cancel_left]
    rw [hr]
    exact dvd_sub hca (hcb.mul_left q)

theorem associated {g' : R} (h : IsGcd g a b) (hg : Associated g g') : IsGcd g' a b where
  left := hg.symm.dvd.trans h.left
  right := hg.symm.dvd.trans h.right
  greatest c hca hcb := (h.greatest c hca hcb).trans hg.dvd

theorem ne_zero (h : IsGcd g a b) (hab : a ≠ 0 ∨ b ≠ 0) : g ≠ 0 := by
  rintro rfl
  rcases hab with ha | hb
  · exact ha (zero_dvd_iff.mp h.left)
  · exact hb (zero_dvd_iff.mp h.right)

/-- Without their greatest common divisor two elements are coprime. -/
theorem isCoprime (h : IsGcd g a b) (hg : g ≠ 0) {a' b' : R} (ha : a = a' * g)
    (hb : b = b' * g) : IsCoprime a' b' := by
  classical
  rw [← EuclideanDomain.gcd_isUnit_iff]
  have hd : EuclideanDomain.gcd a' b' * g ∣ g := by
    refine h.greatest _ ?_ ?_
    · rw [ha]
      exact mul_dvd_mul_right (EuclideanDomain.gcd_dvd_left a' b') g
    · rw [hb]
      exact mul_dvd_mul_right (EuclideanDomain.gcd_dvd_right a' b') g
  obtain ⟨c, hc⟩ := hd
  refine IsUnit.of_mul_eq_one c (mul_right_cancel₀ hg ?_)
  rw [one_mul, mul_right_comm, ← hc]

end IsGcd

end Gcd

section Field

variable {K : Type*} [Field K] {f g q r : K[X]}

/-- The multiple of `g` that cancels the leading term of `f`. -/
noncomputable def cancel (f g : K[X]) : K[X] :=
  C (f.leadingCoeff / g.leadingCoeff) * X ^ (f.natDegree - g.natDegree) * g

theorem degree_cancel_lt (hf : f ≠ 0) (hg : g ≠ 0) (hle : g.natDegree ≤ f.natDegree) :
    (f - cancel f g).degree < f.degree := by
  have hlead : g.leadingCoeff ≠ 0 := leadingCoeff_ne_zero.mpr hg
  have hc : f.leadingCoeff / g.leadingCoeff ≠ 0 :=
    div_ne_zero (leadingCoeff_ne_zero.mpr hf) hlead
  refine degree_sub_lt_left ?_ hf ?_
  · rw [cancel, degree_mul, degree_C_mul_X_pow _ hc, degree_eq_natDegree hf, degree_eq_natDegree hg,
      ← Nat.cast_add, Nat.sub_add_cancel hle]
  · rw [cancel, leadingCoeff_mul, leadingCoeff_C_mul_X_pow, div_mul_cancel₀ _ hlead]

/-- The polynomials have a common root in the extension. -/
def ShareRoot (L : Type*) [Field L] [Algebra K L] (f g : K[X]) : Prop :=
  ∃ z : L, aeval z f = 0 ∧ aeval z g = 0

/-- Over an algebraically closed field a common factor has a root. -/
theorem shareRoot_iff (L : Type*) [Field L] [Algebra K L] [IsAlgClosed L] :
    ShareRoot L f g ↔ ¬IsCoprime f g := by
  rw [isCoprime_iff_aeval_ne_zero_of_isAlgClosed K L]
  push Not
  rfl

/-- **Resultants.** The resultant is that of the divisor and the remainder. -/
theorem resultant_remainder (hf : f = q * g + r) (hr : r.natDegree ≤ f.natDegree)
    (hq : q.natDegree + g.natDegree ≤ f.natDegree) :
    resultant f g = (-1) ^ (f.natDegree * g.natDegree) *
      g.leadingCoeff ^ (f.natDegree - r.natDegree) * resultant g r := by
  obtain ⟨k, hk⟩ := Nat.exists_eq_add_of_le hr
  have hreduce : resultant f g = resultant r g f.natDegree g.natDegree := by
    have hadd := resultant_add_mul_left r g q f.natDegree g.natDegree hq le_rfl
    rw [← hadd]
    congr 1
    rw [hf]
    ring
  rw [hreduce, hk, Nat.add_sub_cancel_left, resultant_add_left_deg _ _ _ _ _ le_rfl,
    resultant_comm r g, ← leadingCoeff]
  have hsign : (-1 : K) ^ (g.natDegree * k) * (-1) ^ (r.natDegree * g.natDegree) =
      (-1) ^ ((r.natDegree + k) * g.natDegree) := by
    rw [← pow_add]
    congr 1
    ring
  rw [← hsign]
  ring

end Field

end Wqpl
