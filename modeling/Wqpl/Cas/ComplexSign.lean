/-
# Signs of complex numbers

A complex number may be real, positive, negative or an integer. What products,
sums and integer powers make of these, with the weak signs (`IsNonNegative`,
`IsNonPositive`) as the complements of the strict ones among the reals. The
sign of a product is followed by one flag (`IsSigned`): a factor of known sign
keeps or turns what is asked of the rest.
-/
import Mathlib

namespace Wqpl

def IsReal (z : ℂ) : Prop := ∃ x : ℝ, z = x

def IsPositive (z : ℂ) : Prop := ∃ x : ℝ, 0 < x ∧ z = x

def IsNegative (z : ℂ) : Prop := ∃ x : ℝ, x < 0 ∧ z = x

def IsNonNegative (z : ℂ) : Prop := ∃ x : ℝ, 0 ≤ x ∧ z = x

def IsNonPositive (z : ℂ) : Prop := ∃ x : ℝ, x ≤ 0 ∧ z = x

def IsInteger (z : ℂ) : Prop := ∃ n : ℤ, z = n

theorem IsReal.zero : IsReal 0 := ⟨0, Complex.ofReal_zero.symm⟩

theorem IsPositive.one : IsPositive 1 := ⟨1, one_pos, Complex.ofReal_one.symm⟩

theorem IsPositive.ne_zero {z : ℂ} (h : IsPositive z) : z ≠ 0 := by
  obtain ⟨x, hx, rfl⟩ := h
  exact Complex.ofReal_ne_zero.mpr hx.ne'

theorem IsNegative.ne_zero {z : ℂ} (h : IsNegative z) : z ≠ 0 := by
  obtain ⟨x, hx, rfl⟩ := h
  exact Complex.ofReal_ne_zero.mpr hx.ne

theorem IsPositive.nonNegative {z : ℂ} (h : IsPositive z) : IsNonNegative z := by
  obtain ⟨x, hx, rfl⟩ := h
  exact ⟨x, hx.le, rfl⟩

theorem IsNegative.nonPositive {z : ℂ} (h : IsNegative z) : IsNonPositive z := by
  obtain ⟨x, hx, rfl⟩ := h
  exact ⟨x, hx.le, rfl⟩

theorem IsNonNegative.zero : IsNonNegative 0 := ⟨0, le_rfl, Complex.ofReal_zero.symm⟩

theorem IsNonPositive.zero : IsNonPositive 0 := ⟨0, le_rfl, Complex.ofReal_zero.symm⟩

theorem IsNonNegative.isPositive {z : ℂ} (h : IsNonNegative z) (hz : z ≠ 0) : IsPositive z := by
  obtain ⟨x, hx, rfl⟩ := h
  exact ⟨x, lt_of_le_of_ne hx (Complex.ofReal_ne_zero.mp hz).symm, rfl⟩

theorem IsNonPositive.isNegative {z : ℂ} (h : IsNonPositive z) (hz : z ≠ 0) : IsNegative z := by
  obtain ⟨x, hx, rfl⟩ := h
  exact ⟨x, lt_of_le_of_ne hx (Complex.ofReal_ne_zero.mp hz), rfl⟩

theorem IsPositive.not_isNonPositive {z : ℂ} (h : IsPositive z) : ¬IsNonPositive z := by
  obtain ⟨x, hx, rfl⟩ := h
  rintro ⟨y, hy, hxy⟩
  exact absurd hx (not_lt.mpr (Complex.ofReal_injective hxy ▸ hy))

theorem IsNegative.not_isNonNegative {z : ℂ} (h : IsNegative z) : ¬IsNonNegative z := by
  obtain ⟨x, hx, rfl⟩ := h
  rintro ⟨y, hy, hxy⟩
  exact absurd hx (not_lt.mpr (Complex.ofReal_injective hxy ▸ hy))

theorem IsReal.prod : ∀ {zs : List ℂ}, (∀ z ∈ zs, IsReal z) → IsReal zs.prod
  | [], _ => ⟨1, Complex.ofReal_one.symm⟩
  | z :: zs, h => by
    obtain ⟨x, hx⟩ := h z List.mem_cons_self
    obtain ⟨y, hy⟩ := IsReal.prod fun w hw => h w (List.mem_cons_of_mem z hw)
    exact ⟨x * y, by rw [List.prod_cons, hx, hy, Complex.ofReal_mul]⟩

theorem IsReal.sum : ∀ {zs : List ℂ}, (∀ z ∈ zs, IsReal z) → IsReal zs.sum
  | [], _ => IsReal.zero
  | z :: zs, h => by
    obtain ⟨x, hx⟩ := h z List.mem_cons_self
    obtain ⟨y, hy⟩ := IsReal.sum fun w hw => h w (List.mem_cons_of_mem z hw)
    exact ⟨x + y, by rw [List.sum_cons, hx, hy, Complex.ofReal_add]⟩

theorem IsInteger.prod : ∀ {zs : List ℂ}, (∀ z ∈ zs, IsInteger z) → IsInteger zs.prod
  | [], _ => ⟨1, Int.cast_one.symm⟩
  | z :: zs, h => by
    obtain ⟨m, hm⟩ := h z List.mem_cons_self
    obtain ⟨n, hn⟩ := IsInteger.prod fun w hw => h w (List.mem_cons_of_mem z hw)
    exact ⟨m * n, by rw [List.prod_cons, hm, hn, Int.cast_mul]⟩

theorem IsInteger.sum : ∀ {zs : List ℂ}, (∀ z ∈ zs, IsInteger z) → IsInteger zs.sum
  | [], _ => ⟨0, Int.cast_zero.symm⟩
  | z :: zs, h => by
    obtain ⟨m, hm⟩ := h z List.mem_cons_self
    obtain ⟨n, hn⟩ := IsInteger.sum fun w hw => h w (List.mem_cons_of_mem z hw)
    exact ⟨m + n, by rw [List.sum_cons, hm, hn, Int.cast_add]⟩

theorem IsInteger.zpow {z : ℂ} (h : IsInteger z) {n : Int} (hn : 0 ≤ n) : IsInteger (z ^ n) := by
  obtain ⟨m, rfl⟩ := h
  obtain ⟨k, rfl⟩ := Int.eq_ofNat_of_zero_le hn
  exact ⟨m ^ k, by rw [zpow_natCast, Int.cast_pow]⟩

/-- Positive, or negative for `false`. -/
def IsSigned : Bool → ℂ → Prop
  | true, z => IsPositive z
  | false, z => IsNegative z

/-- Not positive, or not negative for `false`, and real. -/
def IsNotSigned : Bool → ℂ → Prop
  | true, z => IsNonPositive z
  | false, z => IsNonNegative z

theorem IsPositive.mul_isSigned {w z : ℂ} (hw : IsPositive w) : ∀ {b : Bool}, IsSigned b z →
    IsSigned b (w * z)
  | true, ⟨x, hx, hz⟩ => by
    obtain ⟨y, hy, rfl⟩ := hw
    exact ⟨y * x, mul_pos hy hx, by rw [hz, Complex.ofReal_mul]⟩
  | false, ⟨x, hx, hz⟩ => by
    obtain ⟨y, hy, rfl⟩ := hw
    exact ⟨y * x, mul_neg_of_pos_of_neg hy hx, by rw [hz, Complex.ofReal_mul]⟩

theorem IsPositive.mul_isNotSigned {w z : ℂ} (hw : IsPositive w) : ∀ {b : Bool},
    IsNotSigned b z → IsNotSigned b (w * z)
  | true, ⟨x, hx, hz⟩ => by
    obtain ⟨y, hy, rfl⟩ := hw
    exact ⟨y * x, mul_nonpos_of_nonneg_of_nonpos hy.le hx, by rw [hz, Complex.ofReal_mul]⟩
  | false, ⟨x, hx, hz⟩ => by
    obtain ⟨y, hy, rfl⟩ := hw
    exact ⟨y * x, mul_nonneg hy.le hx, by rw [hz, Complex.ofReal_mul]⟩

theorem IsNegative.mul_isSigned {w z : ℂ} (hw : IsNegative w) : ∀ {b : Bool}, IsSigned (!b) z →
    IsSigned b (w * z)
  | true, ⟨x, hx, hz⟩ => by
    obtain ⟨y, hy, rfl⟩ := hw
    exact ⟨y * x, mul_pos_of_neg_of_neg hy hx, by rw [hz, Complex.ofReal_mul]⟩
  | false, ⟨x, hx, hz⟩ => by
    obtain ⟨y, hy, rfl⟩ := hw
    exact ⟨y * x, mul_neg_of_neg_of_pos hy hx, by rw [hz, Complex.ofReal_mul]⟩

theorem IsNegative.mul_isNotSigned {w z : ℂ} (hw : IsNegative w) : ∀ {b : Bool},
    IsNotSigned (!b) z → IsNotSigned b (w * z)
  | true, ⟨x, hx, hz⟩ => by
    obtain ⟨y, hy, rfl⟩ := hw
    exact ⟨y * x, mul_nonpos_of_nonpos_of_nonneg hy.le hx, by rw [hz, Complex.ofReal_mul]⟩
  | false, ⟨x, hx, hz⟩ => by
    obtain ⟨y, hy, rfl⟩ := hw
    exact ⟨y * x, mul_nonneg_of_nonpos_of_nonpos hy.le hx, by rw [hz, Complex.ofReal_mul]⟩

theorem IsNotSigned.zero : ∀ b : Bool, IsNotSigned b 0
  | true => IsNonPositive.zero
  | false => IsNonNegative.zero

section Power

variable {n : Int} {x : ℝ}

theorem isReal_zpow {z : ℂ} (h : IsReal z) (n : Int) : IsReal (z ^ n) := by
  obtain ⟨x, rfl⟩ := h
  exact ⟨x ^ n, (Complex.ofReal_zpow x n).symm⟩

theorem isPositive_zpow {z : ℂ} (h : IsPositive z) (n : Int) : IsPositive (z ^ n) := by
  obtain ⟨x, hx, rfl⟩ := h
  exact ⟨x ^ n, zpow_pos hx n, (Complex.ofReal_zpow x n).symm⟩

theorem isPositive_even_zpow {z : ℂ} (h : IsReal z) (hz : z ≠ 0) (hn : n % 2 = 0) :
    IsPositive (z ^ n) := by
  obtain ⟨x, rfl⟩ := h
  have heven : Even n := Int.even_iff.mpr hn
  exact ⟨x ^ n, heven.zpow_pos (Complex.ofReal_ne_zero.mp hz), (Complex.ofReal_zpow x n).symm⟩

theorem isNonNegative_even_zpow {z : ℂ} (h : IsReal z) (hn : n % 2 = 0) :
    IsNonNegative (z ^ n) := by
  obtain ⟨x, rfl⟩ := h
  have heven : Even n := Int.even_iff.mpr hn
  exact ⟨x ^ n, heven.zpow_nonneg x, (Complex.ofReal_zpow x n).symm⟩

theorem isNegative_odd_zpow {z : ℂ} (h : IsNegative z) (hn : n % 2 ≠ 0) : IsNegative (z ^ n) := by
  obtain ⟨x, hx, rfl⟩ := h
  have hodd : Odd n := Int.not_even_iff_odd.mp (mt Int.even_iff.mp hn)
  exact ⟨x ^ n, hodd.zpow_neg hx, (Complex.ofReal_zpow x n).symm⟩

theorem isNonNegative_zpow {z : ℂ} (h : IsNonNegative z) (n : Int) : IsNonNegative (z ^ n) := by
  obtain ⟨x, hx, rfl⟩ := h
  exact ⟨x ^ n, zpow_nonneg hx n, (Complex.ofReal_zpow x n).symm⟩

theorem isNonPositive_odd_zpow {z : ℂ} (h : IsNonPositive z) (hn : n % 2 ≠ 0) :
    IsNonPositive (z ^ n) := by
  by_cases hz : z = 0
  · obtain rfl := hz
    have hn0 : n ≠ 0 := by
      rintro rfl
      exact hn rfl
    rw [zero_zpow n hn0]
    exact IsNonPositive.zero
  · exact (isNegative_odd_zpow (h.isNegative hz) hn).nonPositive

end Power

end Wqpl
