/-
# Division, greatest common divisor and resultant of rational polynomials

Every round of the division cancels the leading term, so the loop ends
(`polyDivide_spec`), and with it the Euclidean loops of the greatest common
divisor and of the resultant. The greatest common divisor is monic, unless both
arguments are zero, and the resultant is the determinant of the Sylvester
matrix, unless an argument is zero (`polynomial_operations`).
-/
import Wqpl.Cas.PolyRational

namespace Wqpl

open Polynomial

section Division

variable (numbers : NumberOps)

/-! ### Division -/

/-- A multiple of the divisor is taken off the remainder. -/
theorem subtractMultiple_spec {coeff : Value} {x : ℚ} (hx : coeff.Is x) :
    ∀ (denom : List Value) (idx : Nat) (remainder : List Value) (r : ℚ[X]),
      (∀ v ∈ denom, v.Is v.rat) → Denotes remainder r →
      idx + denom.length ≤ remainder.length →
      ∃ result, subtractMultiple numbers coeff denom idx remainder = pure result ∧
        Denotes result (r - C x * X ^ idx * ofCoeffs (denom.map Value.rat))
  | [], idx, remainder, r, _, hr, _ => by
    refine ⟨remainder, rfl, ?_⟩
    rw [List.map_nil, ofCoeffs_nil, mul_zero, sub_zero]
    exact hr
  | d :: denom, idx, remainder, r, hdenom, hr, hlen => by
    rw [List.length_cons] at hlen
    have hidx : idx < remainder.length := by omega
    have hget := List.getElem?_eq_getElem hidx
    obtain ⟨term, hterm, hvalue⟩ :=
      evalNumericBinary_multiply numbers hx (hdenom d List.mem_cons_self)
    obtain ⟨c, hc, hcvalue⟩ := evalNumericBinary_subtract numbers (hr.coeff hget) hvalue
    have hset : Denotes (remainder.set idx c) (r - C (x * d.rat) * X ^ idx) := by
      convert hr.set hidx hcvalue using 1
      rw [sub_sub_cancel_left, C_neg, neg_mul, sub_eq_add_neg]
    obtain ⟨result, hresult, hdenotes⟩ := subtractMultiple_spec hx denom (idx + 1) _ _
      (fun v hv => hdenom v (List.mem_cons_of_mem _ hv)) hset (by rw [List.length_set]; omega)
    refine ⟨result, ?_, ?_⟩
    · rw [subtractMultiple, hterm, pure_bind, hget]
      refine (pure_bind _ _).trans ?_
      rw [hc, pure_bind]
      exact hresult
    · convert hdenotes using 1
      rw [List.map_cons, ofCoeffs_cons, C_mul]
      ring

theorem degree_lt_of_lt_succ {p q : ℚ[X]} {n : Nat} (hp : p.degree < (n + 1 : Nat))
    (hq : q.degree < p.degree) : q.degree < n :=
  lt_of_lt_of_le hq (Order.le_of_lt_succ (by exact_mod_cast hp))

/-- A round of the division cancels the leading term of the remainder. -/
theorem divideLoop_spec {denom : List Value} {denomLead : Value} {D : ℚ[X]}
    (hd : Denotes denom D) (hD : D ≠ 0) (hlead : denomLead.Is D.leadingCoeff) :
    ∀ (n : Nat) (quotient remainder : List Value) (Q R : ℚ[X]),
      Denotes quotient Q → Denotes remainder R → R.degree < n →
      R.natDegree < quotient.length + D.natDegree →
      ∃ q r Q' R',
        Returns (fun fuel => divideLoop numbers denom denomLead fuel quotient remainder) (q, r) ∧
        Denotes q Q' ∧ Denotes r R' ∧ Q' * D + R' = Q * D + R ∧ R'.degree < D.degree := by
  intro n
  induction n with
  | zero =>
    intro quotient remainder Q R hq hr hdeg _
    have hR : R = 0 := degree_eq_bot.mp (Nat.WithBot.lt_zero_iff.mp hdeg)
    refine ⟨quotient, remainder, Q, R, .succ (.of_all fun fuel => ?_), hq, hr, rfl, ?_⟩
    · exact if_pos (.inl (hr.isZero_iff.mpr hR))
    · rw [hR, degree_zero]
      exact bot_lt_iff_ne_bot.mpr (degree_ne_bot.mpr hD)
  | succ n ih =>
    intro quotient remainder Q R hq hr hdeg hlen
    have hcond : (polyIsZero remainder = true ∨ polyDegree remainder < polyDegree denom) ↔
        R = 0 ∨ R.natDegree < D.natDegree := by
      rw [hr.isZero_iff, polyDegree_eq remainder R hr, polyDegree_eq denom D hd]
    by_cases hdone : R = 0 ∨ R.natDegree < D.natDegree
    · refine ⟨quotient, remainder, Q, R, .succ (.of_all fun fuel => ?_), hq, hr, rfl, ?_⟩
      · exact if_pos (hcond.mpr hdone)
      · rcases hdone with hR | hlt
        · rw [hR, degree_zero]
          exact bot_lt_iff_ne_bot.mpr (degree_ne_bot.mpr hD)
        · exact degree_lt_degree hlt
    · obtain ⟨hR, hle⟩ := not_or.mp hdone
      rw [not_lt] at hle
      obtain ⟨lc, hget, hlc⟩ := hr.lead hR
      obtain ⟨coeff, hcoeff, hx⟩ :=
        evalExactNumericDiv_spec numbers hlc hlead (leadingCoeff_ne_zero.mpr hD)
      have hshift : R.natDegree - D.natDegree < quotient.length := by omega
      have hqget := List.getElem?_eq_getElem hshift
      obtain ⟨c, hc, hcvalue⟩ := evalNumericBinary_add numbers (hq.coeff hqget) hx
      have htake := hd.take (Nat.lt_succ_self D.natDegree)
      obtain ⟨result, hresult, hdenotes⟩ := subtractMultiple_spec numbers hx
        (denom.take (D.natDegree + 1)) (R.natDegree - D.natDegree) remainder R htake.rational hr (by
          have := hr.natDegree_lt hR
          have := List.length_take_le (D.natDegree + 1) denom
          omega)
      rw [htake.poly] at hdenotes
      have hlt : (R - cancel R D).degree < R.degree := degree_cancel_lt hR hD hle
      obtain ⟨q, r, Q', R', hloop, hq', hr', heq, hdeg'⟩ := ih _ _ _ _
        (hq.set hshift hcvalue) hdenotes.trim (degree_lt_of_lt_succ hdeg hlt) (by
          rw [List.length_set]
          exact lt_of_le_of_lt (natDegree_le_natDegree hlt.le) hlen)
      refine ⟨q, r, Q', R', .succ (hloop.congr fun fuel => ?_), hq', hr', ?_, hdeg'⟩
      · refine (if_neg (mt hcond.mp hdone)).trans ?_
        rw [polyDegree_eq remainder R hr, polyDegree_eq denom D hd]
        dsimp only
        rw [hget, hqget]
        refine (pure_bind _ _).trans ?_
        rw [hcoeff, pure_bind]
        refine (pure_bind _ _).trans ?_
        rw [hc, pure_bind, hresult, pure_bind]
      · rw [heq, add_sub_cancel_left]
        ring

/-- **Division.** It ends with quotient and remainder. -/
theorem polyDivide_spec {numer denom : List Value} {N D : ℚ[X]} (hn : Denotes numer N)
    (hd : Denotes denom D) (hD : D ≠ 0) :
    ∃ q r Q R, Returns (fun fuel => polyDivide numbers fuel numer denom) (q, r) ∧
      Denotes q Q ∧ Denotes r R ∧ N = Q * D + R ∧ R.degree < D.degree := by
  have hdtrim := hd.trim
  have hntrim := hn.trim
  have hdzero : ¬polyIsZero (polyTrim denom) = true := fun h => hD (hdtrim.isZero_iff.mp h)
  have hcond : polyDegree (polyTrim numer) < polyDegree (polyTrim denom) ↔
      N.natDegree < D.natDegree := by
    rw [polyDegree_eq _ N hntrim, polyDegree_eq _ D hdtrim]
  by_cases hlt : N.natDegree < D.natDegree
  · refine ⟨[.int 0], polyTrim numer, 0, N, .of_all fun fuel => ?_, .zero, hntrim, by ring,
      degree_lt_degree hlt⟩
    rw [polyDivide]
    dsimp only
    rw [if_neg hdzero, if_pos (hcond.mpr hlt)]
  · obtain ⟨denomLead, hget, hlead⟩ := hdtrim.lead hD
    have hdegree : N.degree < (N.natDegree + 1 : Nat) :=
      lt_of_le_of_lt degree_le_natDegree (by exact_mod_cast Nat.lt_succ_self _)
    obtain ⟨q, r, Q, R, hloop, hq, hr, heq, hR⟩ := divideLoop_spec numbers hdtrim hD hlead _
      (List.replicate (N.natDegree - D.natDegree + 1) (.int 0)) (polyTrim numer) 0 N
      (.replicate _) hntrim hdegree (by rw [List.length_replicate]; omega)
    refine ⟨polyTrim q, polyTrim r, Q, R, ?_, hq.trim, hr.trim, by rw [heq]; ring, hR⟩
    refine (hloop.map fun x => (polyTrim x.1, polyTrim x.2)).congr fun fuel => ?_
    rw [polyDivide]
    dsimp only
    rw [if_neg hdzero, if_neg (mt hcond.mp hlt), polyDegree_eq _ D hdtrim, polyDegree_eq _ N hntrim,
      hget]
    exact pure_bind _ _

/-! ### Greatest common divisor -/

/-- The divisor and the remainder take the places of both. -/
theorem gcdLoop_spec : ∀ (n : Nat) (a b : List Value) (A B : ℚ[X]), Denotes a A → Denotes b B →
    B.degree < n →
    ∃ g G, Returns (fun fuel => gcdLoop numbers fuel a b) g ∧ Denotes g G ∧ IsGcd G A B := by
  intro n
  induction n with
  | zero =>
    intro a b A B ha hb hdeg
    have hB : B = 0 := degree_eq_bot.mp (Nat.WithBot.lt_zero_iff.mp hdeg)
    refine ⟨a, A, .succ (.of_all fun fuel => if_pos (hb.isZero_iff.mpr hB)), ha, ?_⟩
    rw [hB]
    exact .zero_right A
  | succ n ih =>
    intro a b A B ha hb hdeg
    by_cases hB : B = 0
    · refine ⟨a, A, .succ (.of_all fun fuel => if_pos (hb.isZero_iff.mpr hB)), ha, ?_⟩
      rw [hB]
      exact .zero_right A
    · obtain ⟨q, r, Q, R, hdivide, hq, hr, heq, hR⟩ := polyDivide_spec numbers ha hb hB
      obtain ⟨g, G, hloop, hg, hgcd⟩ := ih b (polyTrim r) B R hb hr.trim
        (degree_lt_of_lt_succ hdeg hR)
      refine ⟨g, G, .succ ((hdivide.bind (fun x fuel => gcdLoop numbers fuel b (polyTrim x.2))
        hloop).congr fun fuel => ?_), hg, hgcd.of_remainder heq⟩
      exact if_neg (mt hb.isZero_iff.mp hB)

theorem monic_scaled {G A B : ℚ[X]} (h : IsGcd G A B) (hAB : A ≠ 0 ∨ B ≠ 0) :
    (G * C G.leadingCoeff⁻¹).Monic ∧ IsGcd (G * C G.leadingCoeff⁻¹) A B := by
  have hG : G ≠ 0 := h.ne_zero hAB
  refine ⟨monic_mul_leadingCoeff_inv hG, h.associated ?_⟩
  have hunit : IsUnit (C G.leadingCoeff⁻¹) :=
    isUnit_C.mpr (IsUnit.mk0 _ (inv_ne_zero (leadingCoeff_ne_zero.mpr hG)))
  exact (associated_mul_unit_left G _ hunit).symm

/-- **Greatest common divisor.** It is monic. -/
theorem polyGcd_spec {a b : List Value} {A B : ℚ[X]} (ha : Denotes a A) (hb : Denotes b B)
    (hAB : A ≠ 0 ∨ B ≠ 0) :
    ∃ g G, Returns (fun fuel => polyGcd numbers fuel a b) g ∧ Denotes g G ∧ IsGcd G A B ∧
      G.Monic := by
  have hatrim := ha.trim
  have hbtrim := hb.trim
  by_cases hA : A = 0
  · have hB : B ≠ 0 := hAB.resolve_left (not_not.mpr hA)
    obtain ⟨g, hg, hdenotes⟩ := polyMakeMonic_spec numbers hbtrim hB
    have hgcd : IsGcd B A B := by
      rw [hA]
      exact (IsGcd.zero_right B).symm
    obtain ⟨hmonic, hgcd⟩ := monic_scaled hgcd hAB
    refine ⟨g, _, .of_all fun fuel => ?_, hdenotes, hgcd, hmonic⟩
    exact (if_pos (hatrim.isZero_iff.mpr hA)).trans hg
  · by_cases hB : B = 0
    · obtain ⟨g, hg, hdenotes⟩ := polyMakeMonic_spec numbers hatrim hA
      have hgcd : IsGcd A A B := by
        rw [hB]
        exact .zero_right A
      obtain ⟨hmonic, hgcd⟩ := monic_scaled hgcd hAB
      refine ⟨g, _, .of_all fun fuel => ?_, hdenotes, hgcd, hmonic⟩
      exact (if_neg (mt hatrim.isZero_iff.mp hA)).trans
        ((if_pos (hbtrim.isZero_iff.mpr hB)).trans hg)
    · obtain ⟨g, G, hloop, hg, hgcd⟩ := gcdLoop_spec numbers (B.natDegree + 1) _ _ A B hatrim hbtrim
        (lt_of_le_of_lt degree_le_natDegree (by exact_mod_cast Nat.lt_succ_self _))
      obtain ⟨c, hc, hdenotes⟩ := polyMakeMonic_spec numbers hg (hgcd.ne_zero hAB)
      obtain ⟨hmonic, hgcd⟩ := monic_scaled hgcd hAB
      refine ⟨c, _, (hloop.bind (fun x _ => polyMakeMonic numbers x)
        (.of_all fun _ => hc)).congr fun fuel => ?_, hdenotes, hgcd, hmonic⟩
      exact (if_neg (mt hatrim.isZero_iff.mp hA)).trans (if_neg (mt hbtrim.isZero_iff.mp hB))

/-- The greatest common divisor of zeros is zero. -/
theorem polyGcd_zero {a b : List Value} (ha : Denotes a 0) (hb : Denotes b 0) :
    ∃ g, Returns (fun fuel => polyGcd numbers fuel a b) g ∧ Denotes g 0 := by
  obtain ⟨g, hg, hdenotes⟩ := polyMakeMonic_zero numbers hb.trim
  exact ⟨g, .of_all fun fuel => (if_pos (ha.trim.isZero_iff.mpr rfl)).trans hg, hdenotes⟩

/-! ### Resultant -/

theorem swapSign_is (m n : Nat) : (swapSign m n).Is ((-1) ^ (m * n)) := by
  rw [swapSign]
  split
  · rename_i hodd
    rw [Odd.neg_one_pow (Nat.odd_iff.mpr hodd)]
    exact Value.is_neg_one
  · rename_i heven
    rw [Even.neg_one_pow (Nat.not_odd_iff_even.mp (mt Nat.odd_iff.mp heven))]
    exact Value.is_one

theorem multiplyBy_spec {factor : Value} {x : ℚ} (hx : factor.Is x) : ∀ (n : Nat) (acc : Value)
    (y : ℚ), acc.Is y → ∃ v, multiplyBy numbers factor n acc = pure v ∧ v.Is (y * x ^ n)
  | 0, acc, y, hy => ⟨acc, rfl, by rwa [pow_zero, mul_one]⟩
  | n + 1, acc, y, hy => by
    obtain ⟨c, hc, hcvalue⟩ := evalNumericBinary_multiply numbers hy hx
    obtain ⟨v, hv, hvalue⟩ := multiplyBy_spec hx n c _ hcvalue
    refine ⟨v, ?_, ?_⟩
    · rw [multiplyBy, hc, pure_bind, hv]
    · rwa [pow_succ', ← mul_assoc]

theorem polyResultant_zero {a b : List Value} {A B : ℚ[X]} (ha : Denotes a A) (hb : Denotes b B)
    (hAB : A = 0 ∨ B = 0) : Returns (fun fuel => polyResultant numbers fuel a b) (.int 0) := by
  refine .succ (.of_all fun fuel => ?_)
  rw [polyResultant]
  refine if_pos ?_
  rw [ha.trim.isZero_iff, hb.trim.isZero_iff]
  exact hAB

/-- **Resultant**, of a polynomial and one of lower or the same degree. -/
theorem polyResultant_ordered : ∀ (n : Nat) (a b : List Value) (A B : ℚ[X]), Denotes a A →
    Denotes b B → A ≠ 0 → B ≠ 0 → B.natDegree ≤ A.natDegree → B.natDegree < n →
    ∃ v, Returns (fun fuel => polyResultant numbers fuel a b) v ∧ v.Is (resultant A B) := by
  intro n
  induction n with
  | zero => intro a b A B _ _ _ _ _ h; exact absurd h (Nat.not_lt_zero _)
  | succ n ih =>
    intro a b A B ha hb hA hB hle hlt
    have hatrim := ha.trim
    have hbtrim := hb.trim
    obtain ⟨lc, hget, hlc⟩ := hbtrim.lead hB
    have hnonzero : ¬(polyIsZero (polyTrim a) = true ∨ polyIsZero (polyTrim b) = true) := by
      rw [hatrim.isZero_iff, hbtrim.isZero_iff]
      exact not_or.mpr ⟨hA, hB⟩
    have hstep : ∀ fuel, polyResultant numbers (fuel + 1) a b =
        (if B.natDegree = 0 then
          if A.natDegree = 0 then pure (.int 1) else multiplyBy numbers lc (A.natDegree - 1) lc
        else do
          let x ← polyDivide numbers fuel (polyTrim a) (polyTrim b)
          let factor ← multiplyBy numbers lc (A.natDegree - polyDegree x.2)
            (swapSign A.natDegree B.natDegree)
          let res ← polyResultant numbers fuel (polyTrim b) x.2
          evalNumericBinary numbers .multiply factor res) := by
      intro fuel
      rw [polyResultant]
      dsimp only
      rw [if_neg hnonzero, polyDegree_eq _ A hatrim, polyDegree_eq _ B hbtrim,
        if_neg (not_lt.mpr hle), hget]
      exact pure_bind _ _
    by_cases hB0 : B.natDegree = 0
    · have hlead : B.leadingCoeff = B.coeff 0 := by rw [leadingCoeff, hB0]
      have hresultant : resultant A B = B.coeff 0 ^ A.natDegree := by
        rw [hB0, resultant_zero_right_deg]
      by_cases hA0 : A.natDegree = 0
      · refine ⟨.int 1, .succ (.of_all fun fuel => ?_), ?_⟩
        · rw [hstep, if_pos hB0, if_pos hA0]
        · rw [hresultant, hA0, pow_zero]
          exact Value.is_one
      · obtain ⟨v, hv, hvalue⟩ := multiplyBy_spec numbers hlc (A.natDegree - 1) lc _ hlc
        refine ⟨v, .succ (.of_all fun fuel => ?_), ?_⟩
        · rw [hstep, if_pos hB0, if_neg hA0, hv]
        · rw [hresultant, ← hlead]
          rwa [← pow_succ', Nat.sub_add_cancel (Nat.pos_of_ne_zero hA0)] at hvalue
    · obtain ⟨q, r, Q, R, hdivide, hq, hr, heq, hR⟩ := polyDivide_spec numbers hatrim hbtrim hB
      have hRle : R.natDegree ≤ B.natDegree := natDegree_le_natDegree hR.le
      obtain ⟨factor, hfactor, hfvalue⟩ := multiplyBy_spec numbers hlc
        (A.natDegree - R.natDegree) _ _ (swapSign_is A.natDegree B.natDegree)
      obtain ⟨inner, hinner, hivalue⟩ : ∃ v,
          Returns (fun fuel => polyResultant numbers fuel (polyTrim b) r) v ∧
            v.Is (resultant B R) := by
        by_cases hR0 : R = 0
        · refine ⟨.int 0, polyResultant_zero numbers hbtrim hr (.inr hR0), ?_⟩
          rw [hR0, resultant_zero_right, natDegree_zero, pow_zero, mul_one, zero_pow hB0]
          exact Value.is_zero
        · have hRlt : R.natDegree < B.natDegree := natDegree_lt_natDegree hR0 hR
          exact ih _ _ B R hbtrim hr hB hR0 hRle (by omega)
      obtain ⟨v, hv, hvalue⟩ := evalNumericBinary_multiply numbers hfvalue hivalue
      have hQ : Q.natDegree + B.natDegree ≤ A.natDegree := by
        by_cases hQ0 : Q = 0
        · rwa [hQ0, natDegree_zero, zero_add]
        · rw [← natDegree_mul hQ0 hB, eq_sub_of_add_eq heq.symm]
          exact (natDegree_sub_le_of_le (le_refl A.natDegree) (hRle.trans hle)).trans_eq
            (max_self _)
      refine ⟨v, .succ ((hdivide.bind (fun x fuel => do
          let factor ← multiplyBy numbers lc (A.natDegree - polyDegree x.2)
            (swapSign A.natDegree B.natDegree)
          let res ← polyResultant numbers fuel (polyTrim b) x.2
          evalNumericBinary numbers .multiply factor res)
        ((hinner.bind (fun res _ => evalNumericBinary numbers .multiply factor res)
          (.of_all fun _ => hv)).congr fun fuel => ?_)).congr fun fuel => ?_), ?_⟩
      · rw [polyDegree_eq r R hr, hfactor, pure_bind]
      · rw [hstep, if_neg hB0]
      · rwa [resultant_remainder heq (hRle.trans hle) hQ]

/-- **Resultant.** It is the determinant of the Sylvester matrix. -/
theorem polyResultant_spec {a b : List Value} {A B : ℚ[X]} (ha : Denotes a A) (hb : Denotes b B)
    (hA : A ≠ 0) (hB : B ≠ 0) :
    ∃ v, Returns (fun fuel => polyResultant numbers fuel a b) v ∧ v.Is (resultant A B) := by
  rcases le_or_gt B.natDegree A.natDegree with hle | hlt
  · exact polyResultant_ordered numbers _ a b A B ha hb hA hB hle (Nat.lt_succ_self _)
  · have hatrim := ha.trim
    have hbtrim := hb.trim
    have hnonzero : ¬(polyIsZero (polyTrim a) = true ∨ polyIsZero (polyTrim b) = true) := by
      rw [hatrim.isZero_iff, hbtrim.isZero_iff]
      exact not_or.mpr ⟨hA, hB⟩
    obtain ⟨r, hr, hrvalue⟩ := polyResultant_ordered numbers _ _ _ B A hbtrim hatrim hB hA hlt.le
      (Nat.lt_succ_self _)
    obtain ⟨v, hv, hvalue⟩ := evalNumericBinary_multiply numbers
      (swapSign_is A.natDegree B.natDegree) hrvalue
    refine ⟨v, .succ ((hr.bind (fun r _ => evalNumericBinary numbers .multiply
      (swapSign A.natDegree B.natDegree) r) (.of_all fun _ => hv)).congr fun fuel => ?_), ?_⟩
    · rw [polyResultant]
      dsimp only
      rw [if_neg hnonzero, polyDegree_eq _ A hatrim, polyDegree_eq _ B hbtrim, if_pos hlt]
    · rwa [resultant_comm]

end Division

/-- A resultant vanishes where the polynomials share a root. -/
theorem resultant_eq_zero_iff_shareRoot {A B : ℚ[X]} (hA : A ≠ 0) :
    resultant A B = 0 ↔ ShareRoot ℂ A B := by
  rw [resultant_eq_zero_iff, shareRoot_iff]
  exact and_iff_right (.inl hA)

/-- **Polynomials with rational coefficients.** Division, greatest common
divisor and resultant. -/
theorem polynomial_operations (numbers : NumberOps) {a b : List Value} {A B : ℚ[X]}
    (ha : Denotes a A) (hb : Denotes b B) :
    (B ≠ 0 → ∃ q r Q R, Returns (fun fuel => polyDivide numbers fuel a b) (q, r) ∧
      Denotes q Q ∧ Denotes r R ∧ A = Q * B + R ∧ R.degree < B.degree) ∧
    (∃ g G, Returns (fun fuel => polyGcd numbers fuel a b) g ∧ Denotes g G ∧ IsGcd G A B ∧
      (A ≠ 0 ∨ B ≠ 0 → G.Monic)) ∧
    ∃ v, Returns (fun fuel => polyResultant numbers fuel a b) v ∧
      (A = 0 ∨ B = 0 → v.Is 0) ∧
      (A ≠ 0 → B ≠ 0 → v.Is (sylvester A B A.natDegree B.natDegree).det ∧
        (v.Is 0 ↔ ShareRoot ℂ A B)) := by
  refine ⟨polyDivide_spec numbers ha hb, ?_, ?_⟩
  · by_cases hAB : A ≠ 0 ∨ B ≠ 0
    · obtain ⟨g, G, hg, hdenotes, hgcd, hmonic⟩ := polyGcd_spec numbers ha hb hAB
      exact ⟨g, G, hg, hdenotes, hgcd, fun _ => hmonic⟩
    · rw [not_or, not_not, not_not] at hAB
      obtain ⟨rfl, rfl⟩ := hAB
      obtain ⟨g, hg, hdenotes⟩ := polyGcd_zero numbers ha hb
      exact ⟨g, 0, hg, hdenotes, .zero_right 0, fun h => absurd rfl (h.elim id id)⟩
  · by_cases hAB : A = 0 ∨ B = 0
    · refine ⟨.int 0, polyResultant_zero numbers ha hb hAB, fun _ => Value.is_zero,
        fun hA hB => absurd hAB (not_or.mpr ⟨hA, hB⟩)⟩
    · obtain ⟨hA, hB⟩ := not_or.mp hAB
      obtain ⟨v, hv, hvalue⟩ := polyResultant_spec numbers ha hb hA hB
      refine ⟨v, hv, fun h => absurd h hAB, fun _ _ => ⟨hvalue, ?_⟩⟩
      rw [← resultant_eq_zero_iff_shareRoot hA]
      constructor
      · intro hzero
        exact Option.some.inj (hvalue.symm.trans hzero)
      · intro hzero
        rwa [hzero] at hvalue

/-- The polynomial `1 + 2x`. -/
def linearCoeffs : List Value := [.int 1, .int 2]

theorem denotes_linearCoeffs : Denotes linearCoeffs (ofCoeffs [1, 2]) where
  rational := by
    intro v hv
    rcases List.mem_cons.mp hv with rfl | hv
    · exact (Value.is_int 1).self
    · rw [List.mem_singleton.mp hv]
      exact (Value.is_int 2).self
  poly := by
    have h1 : (Value.int 1).rat = 1 := Value.is_one.rat
    have h2 : (Value.int 2).rat = 2 := (Value.is_int 2).rat
    rw [linearCoeffs, List.map_cons, List.map_singleton, h1, h2]

theorem polynomial_operations_linear :
    (ofCoeffs [(1 : ℚ), 2] ≠ 0 → ∃ q r Q R,
      Returns (fun fuel => polyDivide .inert fuel linearCoeffs linearCoeffs) (q, r) ∧
      Denotes q Q ∧ Denotes r R ∧ ofCoeffs [1, 2] = Q * ofCoeffs [1, 2] + R ∧
      R.degree < (ofCoeffs [(1 : ℚ), 2]).degree) ∧
    (∃ g G, Returns (fun fuel => polyGcd .inert fuel linearCoeffs linearCoeffs) g ∧ Denotes g G ∧
      IsGcd G (ofCoeffs [1, 2]) (ofCoeffs [1, 2]) ∧
      (ofCoeffs [(1 : ℚ), 2] ≠ 0 ∨ ofCoeffs [(1 : ℚ), 2] ≠ 0 → G.Monic)) ∧
    ∃ v, Returns (fun fuel => polyResultant .inert fuel linearCoeffs linearCoeffs) v ∧
      (ofCoeffs [(1 : ℚ), 2] = 0 ∨ ofCoeffs [(1 : ℚ), 2] = 0 → v.Is 0) ∧
      (ofCoeffs [(1 : ℚ), 2] ≠ 0 → ofCoeffs [(1 : ℚ), 2] ≠ 0 →
        v.Is (sylvester (ofCoeffs [(1 : ℚ), 2]) (ofCoeffs [1, 2])
          (ofCoeffs [(1 : ℚ), 2]).natDegree (ofCoeffs [(1 : ℚ), 2]).natDegree).det ∧
        (v.Is 0 ↔ ShareRoot ℂ (ofCoeffs [(1 : ℚ), 2]) (ofCoeffs [1, 2]))) :=
  polynomial_operations .inert denotes_linearCoeffs denotes_linearCoeffs

/-- The greatest common divisor of zero and zero is not monic, and the
resultant of zero and a constant is not the determinant of the empty matrix. -/
theorem zero_polynomials :
    (¬∃ g G, Returns (fun fuel => polyGcd .inert fuel [.int 0] [.int 0]) g ∧ Denotes g G ∧
      G.Monic) ∧
    ¬∃ v, Returns (fun fuel => polyResultant .inert fuel [.int 0] [.int 1]) v ∧
      v.Is (sylvester (0 : ℚ[X]) 1 0 0).det := by
  have hinj : ∀ {α : Type} (a b : α), (pure a : Checked α) = pure b → a = b :=
    fun _ _ => checked_pure_inj
  constructor
  · rintro ⟨g, G, hg, hdenotes, hmonic⟩
    obtain ⟨g', hg', hzero⟩ := polyGcd_zero .inert .zero .zero
    obtain rfl := Returns.unique hinj hg hg'
    rw [← hdenotes.poly, hzero.poly] at hmonic
    exact not_monic_zero hmonic
  · rintro ⟨v, hv, hvalue⟩
    have hone : Denotes [.int 1] 1 := by
      rw [← C_1]
      exact .singleton Value.is_one
    have hzero := polyResultant_zero .inert .zero hone (.inl rfl)
    obtain rfl := Returns.unique hinj hv hzero
    have hdet : (sylvester (0 : ℚ[X]) 1 0 0).det = 1 :=
      (resultant_zero_left_deg (0 : ℚ[X]) 1 0).trans (pow_zero _)
    rw [hdet] at hvalue
    exact absurd (Option.some.inj (Value.is_zero.symm.trans hvalue)) zero_ne_one

end Wqpl
