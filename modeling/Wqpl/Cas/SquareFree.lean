/-
# Square-free factorisation of rational polynomials

The factorisation of a polynomial that is not zero ends, and its factors are
square-free, coprime and of rising multiplicity (`squareFreeFactor_spec`). The
factors are monic, since every greatest common divisor is, so they multiply to
the monic multiple of the polynomial: to the polynomial itself exactly if it is
monic (`square_free_factor_iff`).
-/
import Wqpl.Cas.PolyEuclid
import Wqpl.Polynomial.SquareFree

namespace Wqpl

open Polynomial

/-- The factors are those polynomials, with these multiplicities. -/
def FactorsDenote (factors : List (List Value × Nat)) (parts : List (ℚ[X] × Nat)) : Prop :=
  List.Forall₂ (fun f p => Denotes f.1 p.1 ∧ f.2 = p.2) factors parts

theorem FactorsDenote.unique {factors : List (List Value × Nat)} {parts parts' : List (ℚ[X] × Nat)}
    (h : FactorsDenote factors parts) (h' : FactorsDenote factors parts') : parts = parts' := by
  induction h generalizing parts' with
  | nil =>
    cases h'
    rfl
  | cons hf _ ih =>
    obtain ⟨p', parts', hf', htail, rfl⟩ := List.forall₂_cons_left_iff.mp h'
    rw [ih htail]
    congr 1
    exact Prod.ext (hf.1.poly.symm.trans hf'.1.poly) (hf.2.symm.trans hf'.2)

section SquareFree

variable (numbers : NumberOps)

/-- A division without a remainder. -/
theorem polyDivide_exact {numer denom : List Value} {N D : ℚ[X]} (hn : Denotes numer N)
    (hd : Denotes denom D) (hD : D ≠ 0) (hdvd : D ∣ N) :
    ∃ q r Q, Returns (fun fuel => polyDivide numbers fuel numer denom) (q, r) ∧ Denotes q Q ∧
      N = Q * D := by
  obtain ⟨q, r, Q, R, hdivide, hq, -, heq, hR⟩ := polyDivide_spec numbers hn hd hD
  refine ⟨q, r, Q, hdivide, hq, ?_⟩
  have hdvdR : D ∣ R := by
    rw [eq_sub_of_add_eq' heq.symm]
    exact dvd_sub hdvd (Dvd.intro_left Q rfl)
  rw [heq, eq_zero_of_dvd_of_degree_lt hdvdR hR, add_zero]

/-- Both divisions of a round. -/
theorem returns_divisions {α : Type} {a b g : List Value} {x y : List Value × List Value}
    (ha : Returns (fun fuel => polyDivide numbers fuel a g) x)
    (hb : Returns (fun fuel => polyDivide numbers fuel b g) y)
    (k : List Value → List Value → Nat → Checked α) {r : α} (hk : Returns (k x.1 y.1) r) :
    Returns (fun fuel => do
      let (s, _) ← polyDivide numbers fuel a g
      let (t, _) ← polyDivide numbers fuel b g
      k s t fuel) r :=
  ha.bind (fun x fuel => do
    let (t, _) ← polyDivide numbers fuel b g
    k x.1 t fuel) (hb.bind (fun y fuel => k x.1 y.1 fuel) hk)

/-- The rounds from multiplicity `i` on. -/
theorem squareFreeLoop_spec : ∀ (n i : Nat) (s t : List Value)
    (result : List (List Value × Nat)) (F G S T : ℚ[X]), F.natDegree < n → F ≠ 0 →
    Reduced F G S T → Denotes s S → Denotes t T →
    ∃ factors parts, Returns (fun fuel => squareFreeLoop numbers fuel i s t result)
      (result ++ factors) ∧ FactorsDenote factors parts ∧ Parts i F S parts := by
  intro n
  induction n with
  | zero => intro i s t result F G S T hlt; exact absurd hlt (Nat.not_lt_zero _)
  | succ n ih =>
    intro i s t result F G S T hlt hF hreduced hs ht
    obtain ⟨hS, hG⟩ := hreduced.ne_zero hF
    by_cases hdeg : S.natDegree = 0
    · refine ⟨[], [], .succ (.of_all fun fuel => ?_), .nil,
        .nil (hreduced.constant hF hdeg) hdeg⟩
      rw [List.append_nil]
      exact if_pos ((polyDegree_eq s S hs).trans hdeg)
    · obtain ⟨d, hd, hderiv⟩ := polyDerivative_spec numbers hs
      obtain ⟨h, hh, hdenotes⟩ := polySub_spec numbers ht hderiv
      obtain ⟨g, A, hgcd, hg, hA, hmonic⟩ := polyGcd_spec numbers hs hdenotes (.inl hS)
      have hA0 : A ≠ 0 := hmonic.ne_zero
      obtain ⟨s', r, S', hdivides, hs', hSeq⟩ := polyDivide_exact numbers hs hg hA0 hA.left
      obtain ⟨t', r', T', hdividet, ht', hTeq⟩ :=
        polyDivide_exact numbers hdenotes hg hA0 hA.right
      obtain ⟨H, hnext⟩ := hreduced.next hF hA hSeq hTeq
      have hdegree := hreduced.natDegree hF
      obtain ⟨factors, parts, hloop, hfactors, hparts⟩ := ih (i + 1) s' t'
        (if 0 < polyDegree g then result ++ [(g, i)] else result) G H S' T' (by omega) hG hnext hs'
        ht'
      have hreturns : Returns (fun fuel => squareFreeLoop numbers fuel i s t result)
          ((if 0 < polyDegree g then result ++ [(g, i)] else result) ++ factors) := by
        refine .succ (.congr (hgcd.bind (fun g fuel => do
          let result := if 0 < polyDegree g then result ++ [(g, i)] else result
          let (s, _) ← polyDivide numbers fuel s g
          let (t, _) ← polyDivide numbers fuel h g
          squareFreeLoop numbers fuel (i + 1) s t result)
          (returns_divisions numbers hdivides hdividet
            (fun s t fuel => squareFreeLoop numbers fuel (i + 1) s t _) hloop))
          fun fuel => (if_neg (by rwa [polyDegree_eq s S hs])).trans ?_)
        rw [hd, pure_bind, hh, pure_bind]
      rw [polyDegree_eq g A hg] at hreturns
      by_cases hpos : 0 < A.natDegree
      · refine ⟨(g, i) :: factors, (A, i) :: parts, ?_, .cons ⟨hg, rfl⟩ hfactors,
          hparts.cons hmonic hpos (by rw [hSeq, mul_comm]) hreduced.self⟩
        rwa [if_pos hpos, List.append_assoc] at hreturns
      · have hone : A = 1 := eq_one_of_monic_natDegree_zero hmonic (by omega)
        rw [hone, mul_one] at hSeq
        refine ⟨factors, parts, ?_, hfactors, ?_⟩
        · rwa [if_neg hpos] at hreturns
        · rw [hSeq]
          exact hparts.skip (by rw [← hSeq]; exact hreduced.self)

/-- The factorisation ends, and its factors are monic. -/
theorem squareFreeFactor_spec {poly : List Value} {F : ℚ[X]} (hpoly : Denotes poly F)
    (hF : F ≠ 0) :
    ∃ factors parts G S T, Returns (fun fuel => squareFreeFactor numbers fuel poly) factors ∧
      FactorsDenote factors parts ∧ Reduced F G S T ∧ Parts 1 F S parts := by
  have htrim := hpoly.trim
  obtain ⟨d, hd, hderiv⟩ := polyDerivative_spec numbers htrim
  obtain ⟨g, G, hgcd, hg, hG, hmonic⟩ := polyGcd_spec numbers htrim hderiv.trim (.inl hF)
  have hG0 : G ≠ 0 := hmonic.ne_zero
  obtain ⟨s, r, S, hdivides, hs, hSeq⟩ := polyDivide_exact numbers htrim hg hG0 hG.left
  obtain ⟨t, r', T, hdividet, ht, hTeq⟩ := polyDivide_exact numbers hderiv.trim hg hG0 hG.right
  have hreduced : Reduced F G S T := ⟨hSeq, hTeq, hG.isCoprime hG0 hSeq hTeq⟩
  obtain ⟨factors, parts, hloop, hfactors, hparts⟩ := squareFreeLoop_spec numbers _ 1 s t [] F G S T
    (Nat.lt_succ_self _) hF hreduced hs ht
  refine ⟨factors, parts, G, S, T, ?_, hfactors, hreduced, hparts⟩
  refine .congr (hgcd.bind (fun g fuel => do
    if polyIsZero g then throw .vm
    let (s, _) ← polyDivide numbers fuel (polyTrim poly) g
    let (t, _) ← polyDivide numbers fuel (polyTrim d) g
    squareFreeLoop numbers fuel 1 s t [])
    ((returns_divisions numbers hdivides hdividet
      (fun s t fuel => squareFreeLoop numbers fuel 1 s t []) hloop).congr
      fun fuel => if_neg (mt hg.isZero_iff.mp hG0)))
    fun fuel => (if_neg (mt hpoly.isZero_iff.mp hF)).trans ?_
  dsimp only
  rw [hd, pure_bind]

/-- The factorisation ends with square-free and coprime factors of rising
multiplicity whose product is `p`. -/
def FactorsInto (poly : List Value) (p : ℚ[X]) : Prop :=
  ∃ factors parts, Returns (fun fuel => squareFreeFactor numbers fuel poly) factors ∧
    FactorsDenote factors parts ∧ (∀ part ∈ parts, Squarefree part.1) ∧
    (parts.map Prod.fst).Pairwise IsCoprime ∧ (parts.map Prod.snd).Pairwise (· < ·) ∧
    (parts.map fun part => part.1 ^ part.2).prod = p

variable {numbers} in
/-- There is one product. -/
theorem FactorsInto.unique {poly : List Value} {p q : ℚ[X]} (hp : FactorsInto numbers poly p)
    (hq : FactorsInto numbers poly q) : p = q := by
  obtain ⟨factors, parts, hreturns, hdenote, -, -, -, hprod⟩ := hp
  obtain ⟨factors', parts', hreturns', hdenote', -, -, -, hprod'⟩ := hq
  obtain rfl := Returns.unique (fun _ _ => checked_pure_inj) hreturns hreturns'
  obtain rfl := hdenote.unique hdenote'
  rw [← hprod, hprod']

/-- The product of the factors is the monic multiple. -/
theorem factorsInto_monic {poly : List Value} {F : ℚ[X]} (hpoly : Denotes poly F) (hF : F ≠ 0) :
    FactorsInto numbers poly (F * C F.leadingCoeff⁻¹) := by
  obtain ⟨factors, parts, G, S, T, hreturns, hdenote, hreduced, hparts⟩ :=
    squareFreeFactor_spec numbers hpoly hF
  obtain ⟨hsquarefree, hcoprime⟩ := hparts.squarefree (hreduced.squarefree hF)
  refine ⟨factors, parts, hreturns, hdenote, hsquarefree, hcoprime,
    List.pairwise_map.mpr hparts.increasing, ?_⟩
  have hpowers : (parts.map fun part => part.1 ^ part.2).prod * C F.leadingCoeff = F := by
    have h := hparts.powers
    simpa only [Nat.add_sub_cancel] using h
  have hlead : C F.leadingCoeff * C F.leadingCoeff⁻¹ = 1 := by
    rw [← C_mul, mul_inv_cancel₀ (leadingCoeff_ne_zero.mpr hF), C_1]
  calc (parts.map fun part => part.1 ^ part.2).prod
      = (parts.map fun part => part.1 ^ part.2).prod *
          (C F.leadingCoeff * C F.leadingCoeff⁻¹) := by rw [hlead, mul_one]
    _ = F * C F.leadingCoeff⁻¹ := by rw [← mul_assoc, hpowers]

theorem factorsInto_iff {poly : List Value} {F : ℚ[X]} (hpoly : Denotes poly F) (hF : F ≠ 0) :
    FactorsInto numbers poly F ↔ F.Monic := by
  have hmonic := factorsInto_monic numbers hpoly hF
  constructor
  · intro h
    rw [h.unique hmonic]
    exact monic_mul_leadingCoeff_inv hF
  · intro h
    rwa [h.leadingCoeff, inv_one, C_1, mul_one] at hmonic

/-- **Square-free factorisation.** The factors multiply to the polynomial
divided by its leading coefficient, so to the polynomial exactly if it is monic. -/
theorem square_free_factor_iff {poly : List Value} {F : ℚ[X]} (hpoly : Denotes poly F)
    (hF : F ≠ 0) :
    FactorsInto numbers poly (F * C F.leadingCoeff⁻¹) ∧
      (FactorsInto numbers poly F ↔ F.Monic) :=
  ⟨factorsInto_monic numbers hpoly hF, factorsInto_iff numbers hpoly hF⟩

end SquareFree

theorem ofCoeffs_linear_ne_zero : ofCoeffs [(1 : ℚ), 2] ≠ 0 := fun h =>
  absurd (ofCoeffs_eq_zero.mp h 1 List.mem_cons_self) one_ne_zero

theorem square_free_factor_linear :
    FactorsInto .inert linearCoeffs
        (ofCoeffs [(1 : ℚ), 2] * C (ofCoeffs [(1 : ℚ), 2]).leadingCoeff⁻¹) ∧
      (FactorsInto .inert linearCoeffs (ofCoeffs [1, 2]) ↔ (ofCoeffs [(1 : ℚ), 2]).Monic) :=
  square_free_factor_iff .inert denotes_linearCoeffs ofCoeffs_linear_ne_zero

/-- The factors of `1 + 2x` do not multiply to `1 + 2x`. -/
theorem leading_coefficient_lost : ¬FactorsInto .inert linearCoeffs (ofCoeffs [1, 2]) := by
  rw [factorsInto_iff .inert denotes_linearCoeffs ofCoeffs_linear_ne_zero]
  intro h
  have hlead : (ofCoeffs [(1 : ℚ), 2]).leadingCoeff = 2 := leadingCoeff_concat [1] two_ne_zero
  exact absurd (h.leadingCoeff.symm.trans hlead) (by norm_num)

end Wqpl
