/-
# Square-free factorisation

A polynomial and its derivative without their common factor, `F = s G` and
`F' = t G` (`Reduced`). Then `s` is square-free, and the greatest common divisor
of `s` and `t - s'` is the part of `F` that occurs once. Without it `s` and
`t - s'` are what `G` and its derivative are without their common factor
(`Reduced.next`), so that the parts come out by rising multiplicity
(`Parts.cons`), until only a constant is left (`Parts.nil`).
-/
import Mathlib.Algebra.Squarefree.Basic
import Wqpl.Polynomial.Euclid

namespace Wqpl

open Polynomial

variable {K : Type*} [Field K]

/-- `F` and its derivative without their common factor. -/
structure Reduced (F G s t : K[X]) : Prop where
  self : F = s * G
  deriv : derivative F = t * G
  coprime : IsCoprime s t

namespace Reduced

variable {F G s t : K[X]}

theorem ne_zero (h : Reduced F G s t) (hF : F ≠ 0) : s ≠ 0 ∧ G ≠ 0 :=
  mul_ne_zero_iff.mp (h.self ▸ hF)

theorem natDegree (h : Reduced F G s t) (hF : F ≠ 0) :
    F.natDegree = s.natDegree + G.natDegree := by
  rw [h.self, natDegree_mul (h.ne_zero hF).1 (h.ne_zero hF).2]

/-- What the derivative of the common factor is. -/
theorem cofactor (h : Reduced F G s t) : (t - derivative s) * G = s * derivative G := by
  have hF := h.deriv
  rw [h.self, derivative_mul] at hF
  rw [sub_mul, ← hF]
  ring

/-- The next pair of polynomials reduces the common factor. -/
theorem next (h : Reduced F G s t) (hF : F ≠ 0) {a s' t' : K[X]}
    (ha : IsGcd a s (t - derivative s)) (hs : s = s' * a) (ht : t - derivative s = t' * a) :
    ∃ H, Reduced G H s' t' := by
  have ha0 : a ≠ 0 := ha.ne_zero (.inl (h.ne_zero hF).1)
  have hcoprime : IsCoprime s' t' := ha.isCoprime ha0 hs ht
  have heq : t' * G = s' * derivative G := by
    have hcofactor := h.cofactor
    rw [ht, hs] at hcofactor
    refine mul_left_cancel₀ ha0 ?_
    linear_combination hcofactor
  obtain ⟨H, hH⟩ := hcoprime.dvd_of_dvd_mul_left ⟨derivative G, heq⟩
  have hs' : s' ≠ 0 := by
    rintro rfl
    exact (h.ne_zero hF).1 (by rw [hs, zero_mul])
  refine ⟨H, hH, mul_left_cancel₀ hs' ?_, hcoprime⟩
  rw [← heq, hH]
  ring

/-- A square factor of `s` would divide `t` as well. -/
theorem squarefree (h : Reduced F G s t) (hF : F ≠ 0) : Squarefree s := by
  obtain ⟨hs, hG⟩ := h.ne_zero hF
  rw [squarefree_iff_irreducible_sq_not_dvd_of_ne_zero hs]
  intro p hp hsq
  obtain ⟨u, hGu, hu⟩ :=
    (FiniteMultiplicity.of_not_isUnit hp.not_isUnit hG).exists_eq_pow_mul_and_not_dvd
  generalize multiplicity p G = m at hGu
  have hps : p ∣ s := dvd_of_mul_right_dvd hsq
  have hps' : p ∣ derivative s := by
    have := pow_sub_one_dvd_derivative_of_pow_dvd (show p ^ 2 ∣ s by rwa [pow_two])
    rwa [show 2 - 1 = 1 from rfl, pow_one] at this
  have hleft : p ^ (m + 1) ∣ derivative s * G := by
    rw [pow_succ', hGu]
    exact mul_dvd_mul hps' (Dvd.intro u rfl)
  have hright : p ^ (m + 1) ∣ s * derivative G := by
    rcases m with _ | m
    · rw [zero_add, pow_one]
      exact hps.mul_right _
    · have hG' : p ^ m ∣ derivative G :=
        pow_sub_one_dvd_derivative_of_pow_dvd (n := m + 1) ⟨u, hGu⟩
      rw [show m + 1 + 1 = 2 + m by omega, pow_add, pow_two]
      exact mul_dvd_mul hsq hG'
  have htG : p ^ (m + 1) ∣ t * G := by
    have heq : t * G = derivative s * G + s * derivative G := by
      rw [← h.deriv, h.self, derivative_mul]
    rw [heq]
    exact dvd_add hleft hright
  rw [hGu, pow_succ, mul_left_comm] at htG
  have hpt : p ∣ t :=
    (hp.prime.dvd_or_dvd ((mul_dvd_mul_iff_left (pow_ne_zero m hp.ne_zero)).mp htG)).resolve_right
      hu
  exact hp.not_isUnit (h.coprime.isUnit_of_dvd' hps hpt)

/-- Where nothing but a constant is left, the polynomial is one. -/
theorem constant [CharZero K] (h : Reduced F G s t) (hF : F ≠ 0) (hs : s.natDegree = 0) :
    F.natDegree = 0 := by
  by_contra hdeg
  have hlt : (derivative F).natDegree < F.natDegree := natDegree_derivative_lt hdeg
  have hG : F.natDegree = G.natDegree := by rw [h.natDegree hF, hs, zero_add]
  have hF' : derivative F ≠ 0 := fun h0 => hdeg (derivative_eq_zero.mp h0)
  rw [h.deriv] at hF' hlt
  obtain ⟨ht, hG0⟩ := mul_ne_zero_iff.mp hF'
  rw [natDegree_mul ht hG0, hG] at hlt
  omega

end Reduced

/-- What is found of a polynomial `F` and of its square-free part `s` from
multiplicity `i` on: monic factors with rising multiplicities. -/
structure Parts (i : Nat) (F s : K[X]) (parts : List (K[X] × Nat)) : Prop where
  monic : ∀ p ∈ parts, p.1.Monic
  degree : ∀ p ∈ parts, 0 < p.1.natDegree
  le : ∀ p ∈ parts, i ≤ p.2
  increasing : parts.Pairwise (fun p q => p.2 < q.2)
  product : (parts.map Prod.fst).prod * C s.leadingCoeff = s
  powers : (parts.map fun p => p.1 ^ (p.2 + 1 - i)).prod * C F.leadingCoeff = F

namespace Parts

variable {F G s s' a : K[X]} {i : Nat} {parts : List (K[X] × Nat)}

theorem nil (hF : F.natDegree = 0) (hs : s.natDegree = 0) : Parts i F s [] where
  monic := nofun
  degree := nofun
  le := nofun
  increasing := .nil
  product := by
    rw [List.map_nil, List.prod_nil, one_mul, leadingCoeff, hs]
    exact (eq_C_of_natDegree_eq_zero hs).symm
  powers := by
    rw [List.map_nil, List.prod_nil, one_mul, leadingCoeff, hF]
    exact (eq_C_of_natDegree_eq_zero hF).symm

/-- Multiplicities from the next one on. -/
theorem powers_succ (h : Parts (i + 1) G s' parts) :
    (parts.map fun p => p.1 ^ (p.2 + 1 - i)).prod =
      (parts.map fun p => p.1 ^ (p.2 + 1 - (i + 1))).prod * (parts.map Prod.fst).prod := by
  rw [← List.prod_map_mul]
  refine congrArg List.prod (List.map_congr_left fun p hp => ?_)
  have hle := h.le p hp
  rw [show p.2 + 1 - i = p.2 + 1 - (i + 1) + 1 by omega, pow_succ]

/-- The factors of a polynomial with one more part. -/
theorem all_powers (h : Parts (i + 1) G s' parts) (ha : a.Monic) (hF : F = a * s' * G) :
    a * (parts.map fun p => p.1 ^ (p.2 + 1 - i)).prod * C F.leadingCoeff = F := by
  have hlead : F.leadingCoeff = s'.leadingCoeff * G.leadingCoeff := by
    rw [hF, leadingCoeff_mul, leadingCoeff_mul, ha.leadingCoeff, one_mul]
  rw [h.powers_succ, hlead, C_mul, hF]
  conv_rhs => rw [← h.product, ← h.powers]
  ring

theorem cons (h : Parts (i + 1) G s' parts) (ha : a.Monic) (hdeg : 0 < a.natDegree)
    (hs : s = a * s') (hF : F = s * G) : Parts i F s ((a, i) :: parts) where
  monic p hp := by
    rcases List.mem_cons.mp hp with rfl | hp
    · exact ha
    · exact h.monic p hp
  degree p hp := by
    rcases List.mem_cons.mp hp with rfl | hp
    · exact hdeg
    · exact h.degree p hp
  le p hp := by
    rcases List.mem_cons.mp hp with rfl | hp
    · exact le_rfl
    · exact Nat.le_of_succ_le (h.le p hp)
  increasing := List.pairwise_cons.mpr ⟨fun p hp => h.le p hp, h.increasing⟩
  product := by
    rw [List.map_cons, List.prod_cons, mul_assoc, hs, leadingCoeff_mul, ha.leadingCoeff, one_mul,
      h.product]
  powers := by
    rw [List.map_cons, List.prod_cons, show i + 1 - i = 1 by omega, pow_one]
    exact h.all_powers ha (by rw [hF, hs])

/-- No factor occurs just that often. -/
theorem skip (h : Parts (i + 1) G s parts) (hF : F = s * G) : Parts i F s parts where
  monic := h.monic
  degree := h.degree
  le p hp := Nat.le_of_succ_le (h.le p hp)
  increasing := h.increasing
  product := h.product
  powers := by
    have hpowers := h.all_powers monic_one (F := F) (by rw [hF, one_mul])
    rwa [one_mul] at hpowers

end Parts

/-- The factors of a square-free product are square-free and coprime. -/
theorem squarefree_factors {R : Type*} [CommRing R] [IsDomain R] [IsPrincipalIdealRing R] :
    ∀ factors : List R, Squarefree factors.prod →
      (∀ p ∈ factors, Squarefree p) ∧ factors.Pairwise IsCoprime
  | [], _ => ⟨nofun, .nil⟩
  | p :: factors, h => by
    rw [List.prod_cons] at h
    obtain ⟨hall, hpairwise⟩ := squarefree_factors factors h.of_mul_right
    refine ⟨List.forall_mem_cons.mpr ⟨h.of_mul_left, hall⟩,
      List.pairwise_cons.mpr ⟨fun q hq => ?_, hpairwise⟩⟩
    have hcoprime : IsCoprime p factors.prod :=
      isRelPrime_iff_isCoprime.mp (IsRelPrime.of_squarefree_mul h)
    exact hcoprime.of_isCoprime_of_dvd_right (List.dvd_prod hq)

theorem Parts.squarefree {F s : K[X]} {i : Nat} {parts : List (K[X] × Nat)}
    (h : Parts i F s parts) (hs : Squarefree s) :
    (∀ p ∈ parts, Squarefree p.1) ∧ (parts.map Prod.fst).Pairwise IsCoprime := by
  rw [← h.product] at hs
  obtain ⟨hall, hpairwise⟩ := squarefree_factors _ hs.of_mul_left
  exact ⟨fun p hp => hall _ (List.mem_map_of_mem hp), hpairwise⟩

end Wqpl
