/-
# The index identifies the root

The sequence that the code builds is a chain of remainders (`sturmSequence_spec`),
so Sturm's theorem counts the roots between the ends of the interval and below
it: the index is found if there is one root in the interval, and it is the
number of roots below that root (`realRootIndexBetween_spec`).
-/
import Wqpl.Algebraic.RealRoot
import Wqpl.Polynomial.Coefficients
import Wqpl.Polynomial.Euclid
import Wqpl.Polynomial.Sturm

namespace Wqpl

open Polynomial

/-! ### Rational polynomials -/

/-- A polynomial whose last coefficient is not zero, unless it is the only one. -/
structure Trimmed (poly : RationalPoly) : Prop where
  ne_nil : poly ≠ []
  last : 1 < poly.length → poly.getLast? ≠ some 0

theorem popRationalZeros_append : ∀ coeffs : List ℚ,
    ∃ zeros, coeffs = zeros ++ popRationalZeros coeffs ∧ ∀ z ∈ zeros, z = 0
  | [] | [_] => ⟨[], rfl, nofun⟩
  | c :: d :: cs => by
    rw [popRationalZeros]
    split
    · rename_i hc
      obtain ⟨zeros, heq, hzeros⟩ := popRationalZeros_append (d :: cs)
      refine ⟨c :: zeros, ?_, List.forall_mem_cons.mpr ⟨hc, hzeros⟩⟩
      rw [List.cons_append, ← heq]
    · exact ⟨[], rfl, nofun⟩

theorem popRationalZeros_head : ∀ (coeffs : List ℚ) (c d : ℚ) (cs : List ℚ),
    popRationalZeros coeffs = c :: d :: cs → c ≠ 0
  | [], _, _, _, h => absurd h nofun
  | [_], _, _, _, h => absurd h (by simp [popRationalZeros])
  | a :: b :: rest, c, d, cs, h => by
    rw [popRationalZeros] at h
    split at h
    · exact popRationalZeros_head (b :: rest) c d cs h
    · rename_i ha
      rwa [← (List.cons.inj h).1]

theorem popRationalZeros_ne_nil : ∀ coeffs : List ℚ, coeffs ≠ [] → popRationalZeros coeffs ≠ []
  | [], h => h
  | [_], h => h
  | c :: d :: cs, _ => by
    rw [popRationalZeros]
    split
    · exact popRationalZeros_ne_nil (d :: cs) (List.cons_ne_nil d cs)
    · exact List.cons_ne_nil _ _

theorem ofCoeffs_trim (poly : RationalPoly) : ofCoeffs (rationalPolyTrim poly) = ofCoeffs poly := by
  obtain ⟨zeros, heq, hzeros⟩ := popRationalZeros_append poly.reverse
  have hpoly : poly = rationalPolyTrim poly ++ zeros.reverse := by
    rw [rationalPolyTrim, ← List.reverse_append, ← heq, List.reverse_reverse]
  have hzero : ofCoeffs zeros.reverse = 0 :=
    ofCoeffs_eq_zero.mpr fun z hz => hzeros z (List.mem_reverse.mp hz)
  conv_rhs => rw [hpoly]
  rw [ofCoeffs_append, hzero, mul_zero, add_zero]

theorem trimmed_trim {poly : RationalPoly} (h : poly ≠ []) : Trimmed (rationalPolyTrim poly) where
  ne_nil := by
    rw [rationalPolyTrim, Ne, List.reverse_eq_nil_iff]
    exact popRationalZeros_ne_nil _ (by simpa using h)
  last hlen := by
    rw [rationalPolyTrim, List.length_reverse] at hlen
    rw [rationalPolyTrim, List.getLast?_reverse]
    match hcoeffs : popRationalZeros poly.reverse with
    | [] | [_] => simp [hcoeffs] at hlen
    | c :: d :: cs =>
      rw [List.head?_cons, Ne, Option.some.injEq]
      exact popRationalZeros_head _ c d cs hcoeffs

/-- A trimmed polynomial that is not zero ends with its leading coefficient. -/
theorem Trimmed.lead {poly : RationalPoly} (h : Trimmed poly) (hne : ofCoeffs poly ≠ 0) :
    ∃ cs c, poly = cs ++ [c] ∧ c ≠ 0 := by
  rcases List.eq_nil_or_concat poly with rfl | ⟨cs, c, rfl⟩
  · exact absurd rfl h.ne_nil
  · rw [List.concat_eq_append] at h hne ⊢
    refine ⟨cs, c, rfl, ?_⟩
    rintro rfl
    rw [ofCoeffs_concat_zero] at hne
    cases cs with
    | nil => exact hne rfl
    | cons d cs => exact h.last (by simp) List.getLast?_concat

theorem Trimmed.natDegree {poly : RationalPoly} (h : Trimmed poly) (hne : ofCoeffs poly ≠ 0) :
    poly.length = (ofCoeffs poly).natDegree + 1 := by
  obtain ⟨cs, c, rfl, hc⟩ := h.lead hne
  rw [natDegree_concat cs hc, List.length_append, List.length_singleton]

theorem Trimmed.getLast? {poly : RationalPoly} (h : Trimmed poly) (hne : ofCoeffs poly ≠ 0) :
    poly.getLast? = some (ofCoeffs poly).leadingCoeff := by
  obtain ⟨cs, c, rfl, hc⟩ := h.lead hne
  rw [leadingCoeff_concat cs hc, List.getLast?_concat]

theorem all_zero_iff {poly : RationalPoly} : poly.all (· = 0) = true ↔ ofCoeffs poly = 0 := by
  rw [ofCoeffs_eq_zero, List.all_eq_true]
  simp only [decide_eq_true_eq]

/-! ### Division -/

theorem modify_sub (remainder : RationalPoly) (i : Nat) (c : ℚ) (hi : i < remainder.length) :
    ofCoeffs (remainder.modify i (· - c)) = ofCoeffs remainder - C c * X ^ i := by
  have hset : remainder.modify i (· - c) = remainder.set i (remainder.getD i 0 - c) := by
    rw [List.getD_eq_getElem _ _ hi]
    exact List.modify_eq_set_get _ hi
  rw [hset, ofCoeffs_set remainder i _ hi, sub_sub_cancel_left, C_neg, neg_mul, sub_eq_add_neg]

theorem subtractFrom_spec (factor : ℚ) (shift : Nat) : ∀ (denom : RationalPoly) (k : Nat)
    (remainder : RationalPoly), k + shift + denom.length ≤ remainder.length →
    (ofCoeffs ((denom.zipIdx k).foldl (fun remainder (coeff, degree) =>
      remainder.modify (degree + shift) (· - factor * coeff)) remainder) =
      ofCoeffs remainder - C factor * X ^ (k + shift) * ofCoeffs denom) ∧
    ((denom.zipIdx k).foldl (fun remainder (coeff, degree) =>
      remainder.modify (degree + shift) (· - factor * coeff)) remainder).length = remainder.length
  | [], k, remainder, _ => by simp
  | d :: denom, k, remainder, hlen => by
    rw [List.length_cons] at hlen
    obtain ⟨hpoly, hlength⟩ := subtractFrom_spec factor shift denom (k + 1)
      (remainder.modify (k + shift) (· - factor * d)) (by rw [List.length_modify]; omega)
    rw [List.zipIdx_cons, List.foldl_cons]
    refine ⟨?_, ?_⟩
    · rw [hpoly, modify_sub remainder (k + shift) _ (by omega), ofCoeffs_cons, C_mul]
      ring
    · rw [hlength, List.length_modify]

/-- A round of the division cancels the leading term. -/
theorem subtractShifted_spec {remainder denom : RationalPoly} (hr : Trimmed remainder)
    (hd : Trimmed denom) (hr0 : ofCoeffs remainder ≠ 0) (hd0 : ofCoeffs denom ≠ 0)
    (hlen : denom.length ≤ remainder.length) :
    ofCoeffs (subtractShifted ((ofCoeffs remainder).leadingCoeff / (ofCoeffs denom).leadingCoeff)
      (remainder.length - denom.length) denom remainder) =
        ofCoeffs remainder - cancel (ofCoeffs remainder) (ofCoeffs denom) ∧
      subtractShifted ((ofCoeffs remainder).leadingCoeff / (ofCoeffs denom).leadingCoeff)
        (remainder.length - denom.length) denom remainder ≠ [] := by
  obtain ⟨hpoly, hlength⟩ := subtractFrom_spec
    ((ofCoeffs remainder).leadingCoeff / (ofCoeffs denom).leadingCoeff)
    (remainder.length - denom.length) denom 0 remainder (by omega)
  refine ⟨?_, ?_⟩
  · have hshift : 0 + (remainder.length - denom.length) =
        (ofCoeffs remainder).natDegree - (ofCoeffs denom).natDegree := by
      rw [hr.natDegree hr0, hd.natDegree hd0]
      omega
    rw [hshift] at hpoly
    exact hpoly
  · intro hnil
    have hpos := List.length_pos_of_ne_nil hr.ne_nil
    unfold subtractShifted at hnil
    rw [hnil, List.length_nil] at hlength
    omega

/-- The rounds of the division end with a remainder. -/
theorem divRemLoop_spec {denom : RationalPoly} (hd : Trimmed denom) (hd0 : ofCoeffs denom ≠ 0) :
    ∀ (n : Nat) (remainder : RationalPoly), Trimmed remainder → (ofCoeffs remainder).degree < n →
      ∃ r q, Returns (fun fuel => divRemLoop denom (ofCoeffs denom).leadingCoeff fuel remainder) r ∧
        Trimmed r ∧ ofCoeffs remainder = q * ofCoeffs denom + ofCoeffs r ∧
        (ofCoeffs r).degree < (ofCoeffs denom).degree := by
  intro n
  induction n with
  | zero =>
    intro remainder hr hdeg
    have hr0 : ofCoeffs remainder = 0 := degree_eq_bot.mp (Nat.WithBot.lt_zero_iff.mp hdeg)
    refine ⟨remainder, 0, .succ (.of_all fun fuel => ?_), hr, by rw [zero_mul, zero_add], ?_⟩
    · exact if_neg fun h => h.2 (all_zero_iff.mpr hr0)
    · rw [hr0, degree_zero]
      exact bot_lt_iff_ne_bot.mpr (degree_ne_bot.mpr hd0)
  | succ n ih =>
    intro remainder hr hdeg
    by_cases hr0 : ofCoeffs remainder = 0
    · refine ⟨remainder, 0, .succ (.of_all fun fuel => ?_), hr, by rw [zero_mul, zero_add], ?_⟩
      · exact if_neg fun h => h.2 (all_zero_iff.mpr hr0)
      · rw [hr0, degree_zero]
        exact bot_lt_iff_ne_bot.mpr (degree_ne_bot.mpr hd0)
    have hrlen := hr.natDegree hr0
    have hdlen := hd.natDegree hd0
    by_cases hlen : denom.length ≤ remainder.length
    · obtain ⟨hpoly, hne⟩ := subtractShifted_spec hr hd hr0 hd0 hlen
      have hlt : (ofCoeffs remainder - cancel (ofCoeffs remainder) (ofCoeffs denom)).degree <
          (ofCoeffs remainder).degree := degree_cancel_lt hr0 hd0 (by omega)
      obtain ⟨r, q, hloop, hrt, heq, hrdeg⟩ := ih _ (trimmed_trim hne) (by
        rw [ofCoeffs_trim, hpoly]
        exact lt_of_lt_of_le hlt (Order.le_of_lt_succ (by exact_mod_cast hdeg)))
      refine ⟨r, q + C ((ofCoeffs remainder).leadingCoeff / (ofCoeffs denom).leadingCoeff) *
        X ^ ((ofCoeffs remainder).natDegree - (ofCoeffs denom).natDegree),
        .succ (hloop.congr fun fuel => ?_), hrt, ?_, hrdeg⟩
      · refine (if_pos ⟨hlen, fun h => hr0 (all_zero_iff.mp h)⟩).trans ?_
        rw [hr.getLast? hr0]
        refine (pure_bind _ _).trans ?_
        unfold rationalDiv
        rw [if_neg (leadingCoeff_ne_zero.mpr hd0)]
        exact pure_bind _ _
      · rw [ofCoeffs_trim, hpoly, sub_eq_iff_eq_add] at heq
        refine heq.trans ?_
        rw [cancel]
        ring
    · refine ⟨remainder, 0, .succ (.of_all fun fuel => ?_), hr, by rw [zero_mul, zero_add], ?_⟩
      · exact if_neg fun h => hlen h.1
      · exact degree_lt_degree (by omega)

/-- **The remainder.** -/
theorem rationalPolyDivRem_spec {numer denom : RationalPoly} (hn : numer ≠ []) (hd : Trimmed denom)
    (hd0 : ofCoeffs denom ≠ 0) :
    ∃ r q, Returns (fun fuel => rationalPolyDivRem fuel numer denom) r ∧ Trimmed r ∧
      ofCoeffs numer = q * ofCoeffs denom + ofCoeffs r ∧
      (ofCoeffs r).degree < (ofCoeffs denom).degree := by
  obtain ⟨r, q, hloop, hr, heq, hdeg⟩ := divRemLoop_spec hd hd0 _ _ (trimmed_trim hn)
    (degree_ofCoeffs_lt _)
  rw [ofCoeffs_trim] at heq
  refine ⟨r, q, hloop.congr fun fuel => ?_, hr, heq, hdeg⟩
  unfold rationalPolyDivRem
  rw [hd.getLast? hd0]
  exact pure_bind _ _

/-! ### The Sturm sequence -/

theorem ofCoeffs_neg (poly : RationalPoly) : ofCoeffs (poly.map (-·)) = -ofCoeffs poly := by
  induction poly with
  | nil => simp
  | cons c poly ih =>
    rw [List.map_cons, ofCoeffs_cons, ofCoeffs_cons, ih, C_neg]
    ring

/-- The loop pushes the negated remainders, and ends because their degrees fall. -/
theorem sturmLoop_spec : ∀ (n : Nat) (a b : RationalPoly), a ≠ [] → Trimmed b →
    ofCoeffs b ≠ 0 → (ofCoeffs b).degree < n →
    ∃ rest, Returns (fun fuel => sturmLoop fuel a b) rest ∧
      RemainderChain (· ≠ 0) (ofCoeffs a :: ofCoeffs b :: rest.map ofCoeffs) ∧
      ∀ poly ∈ rest, Trimmed poly ∧ ofCoeffs poly ≠ 0 := by
  intro n
  induction n with
  | zero =>
    intro a b _ _ hb0 hdeg
    exact absurd (degree_eq_bot.mp (Nat.WithBot.lt_zero_iff.mp hdeg)) hb0
  | succ n ih =>
    intro a b ha hb hb0 hdeg
    obtain ⟨r, q, hdiv, hr, heq, hrdeg⟩ := rationalPolyDivRem_spec ha hb hb0
    by_cases hr0 : ofCoeffs r = 0
    · refine ⟨[], .succ ((hdiv.bind _ (.of_all fun fuel => if_pos (all_zero_iff.mpr hr0))).congr
        fun fuel => rfl), ⟨⟨q, ?_⟩, hb0⟩, nofun⟩
      rw [List.map_nil, List.headD_nil, add_zero, heq, hr0, add_zero]
    · have hmap : r.map (-·) ≠ [] := by simpa using hr.ne_nil
      have hnext : ofCoeffs (rationalPolyTrim (r.map (-·))) = -ofCoeffs r := by
        rw [ofCoeffs_trim, ofCoeffs_neg]
      have hnext0 : ofCoeffs (rationalPolyTrim (r.map (-·))) ≠ 0 := by
        rw [hnext]
        exact neg_ne_zero.mpr hr0
      obtain ⟨rest, hloop, hchain, hrest⟩ := ih b _ hb.ne_nil (trimmed_trim hmap) hnext0 (by
        rw [hnext, degree_neg]
        exact lt_of_lt_of_le hrdeg (Order.le_of_lt_succ (by exact_mod_cast hdeg)))
      refine ⟨rationalPolyTrim (r.map (-·)) :: rest, .succ ((hdiv.bind _ ?_).congr fun fuel => rfl),
        ⟨⟨q, ?_⟩, hchain⟩, List.forall_mem_cons.mpr ⟨⟨trimmed_trim hmap, hnext0⟩, hrest⟩⟩
      · exact (hloop.bind _ (.of_all fun fuel => rfl)).congr fun fuel =>
          if_neg fun h => hr0 (all_zero_iff.mp h)
      · rw [List.map_cons, List.headD_cons, hnext, heq]
        ring

theorem zipIdx_map_getD (f : ℚ × Nat → ℚ) (hf : ∀ k, f (0, k) = 0) (poly : RationalPoly) (k i : Nat) :
    ((poly.zipIdx k).map f).getD i 0 = f (poly.getD i 0, k + i) := by
  rw [List.getD_eq_getElem?_getD, List.getD_eq_getElem?_getD, List.getElem?_map,
    List.getElem?_zipIdx]
  cases poly[i]? with
  | none => exact (hf _).symm
  | some c => rfl

/-- The derivative. -/
theorem rationalPolyDerivative_spec (poly : RationalPoly) :
    ofCoeffs (rationalPolyDerivative poly) = derivative (ofCoeffs poly) ∧
      Trimmed (rationalPolyDerivative poly) := by
  have hcoeffs : ofCoeffs ((poly.zipIdx.drop 1).map fun (coeff, degree) => coeff * degree) =
      derivative (ofCoeffs poly) := by
    ext i
    rw [coeff_derivative, coeff_ofCoeffs, coeff_ofCoeffs]
    cases poly with
    | nil => simp
    | cons c poly =>
      rw [List.zipIdx_cons, List.drop_one, List.tail_cons, zipIdx_map_getD _ (by simp),
        List.getD_cons_succ]
      push_cast
      ring
  unfold rationalPolyDerivative
  rw [ofCoeffs_trim]
  dsimp only
  split_ifs with hempty
  · rw [← hcoeffs, List.isEmpty_iff.mp hempty]
    exact ⟨by simp [ofCoeffs_singleton], trimmed_trim (by simp)⟩
  · exact ⟨hcoeffs, trimmed_trim fun h => hempty (List.isEmpty_iff.mpr h)⟩

/-- **The Sturm sequence** is a chain of remainders. -/
theorem sturmSequence_spec {poly : List ℤ} (hlen : 2 ≤ poly.length)
    (hlast : poly.getLast? ≠ some 0) :
    ∃ rest, Returns (fun fuel => sturmSequence fuel poly)
        (poly.map (↑) :: rationalPolyDerivative (poly.map (↑)) :: rest) ∧
      RemainderChain (· ≠ 0) ((poly.map (↑) :: rationalPolyDerivative (poly.map (↑)) :: rest).map
        ofCoeffs) ∧
      ∀ q ∈ (poly.map (↑) :: rationalPolyDerivative (poly.map (↑)) :: rest : List RationalPoly),
        Trimmed q ∧ ofCoeffs q ≠ 0 := by
  have hfirst : Trimmed (poly.map (↑) : RationalPoly) := by
    refine ⟨fun h => ?_, fun _ h => hlast ?_⟩
    · rw [List.map_eq_nil_iff.mp h] at hlen
      exact absurd hlen (by decide)
    · rw [List.getLast?_map, Option.map_eq_some_iff] at h
      obtain ⟨c, hc, hc0⟩ := h
      rw [hc, Int.cast_eq_zero.mp hc0]
  have hfirst0 : ofCoeffs (poly.map (↑) : RationalPoly) ≠ 0 := by
    intro h
    obtain ⟨cs, c, rfl⟩ : ∃ cs c, poly = cs ++ [c] := by
      rcases List.eq_nil_or_concat poly with rfl | ⟨cs, c, rfl⟩
      · exact absurd hlen (by decide)
      · exact ⟨cs, c, List.concat_eq_append⟩
    refine hlast ?_
    have hc := ofCoeffs_eq_zero.mp h (c : ℚ) (by simp)
    rw [List.getLast?_concat, Int.cast_eq_zero.mp hc]
  have hdegree := hfirst.natDegree hfirst0
  rw [List.length_map] at hdegree
  obtain ⟨hsecond, htrimmed⟩ := rationalPolyDerivative_spec (poly.map (↑))
  have hsecond0 : ofCoeffs (rationalPolyDerivative (poly.map (↑))) ≠ 0 := by
    rw [hsecond, Ne, derivative_eq_zero]
    omega
  obtain ⟨rest, hloop, hchain, hrest⟩ := sturmLoop_spec _ _ _ hfirst.ne_nil htrimmed hsecond0
    (degree_ofCoeffs_lt _)
  refine ⟨rest, ?_, hchain, List.forall_mem_cons.mpr ⟨⟨hfirst, hfirst0⟩,
    List.forall_mem_cons.mpr ⟨⟨htrimmed, hsecond0⟩, hrest⟩⟩⟩
  exact (hloop.bind _ (.of_all fun fuel => rfl)).congr fun fuel => rfl

/-! ### Signs -/

/-- The polynomial over the reals. -/
noncomputable def realPoly (poly : RationalPoly) : ℝ[X] := (ofCoeffs poly).map (Rat.castHom ℝ)

theorem evalRationalPoly_eq (poly : RationalPoly) (x : ℚ) :
    evalRationalPoly poly x = (ofCoeffs poly).eval x := by
  unfold evalRationalPoly
  rw [List.foldl_reverse]
  induction poly with
  | nil => simp
  | cons c poly ih =>
    rw [List.foldr_cons, ih, ofCoeffs_cons, eval_add, eval_C, eval_mul, eval_X]
    ring

theorem eval_realPoly (poly : RationalPoly) (x : ℚ) :
    (realPoly poly).eval (x : ℝ) = (evalRationalPoly poly x : ℚ) := by
  rw [evalRationalPoly_eq, realPoly, eval_map]
  exact eval₂_at_apply (Rat.castHom ℝ) x

theorem rationalSign_eq (q : ℚ) : rationalSign q = SignType.sign (q : ℝ) := by
  unfold rationalSign
  split_ifs with hpos hneg
  · rw [sign_pos (Rat.cast_pos.mpr hpos)]
  · rw [sign_neg (Rat.cast_lt_zero.mpr hneg)]
  · rw [le_antisymm (not_lt.mp hpos) (not_lt.mp hneg), Rat.cast_zero, sign_zero]

theorem foldl_variations (signs : List SignType) : ∀ (previous : SignType) (n : Nat),
    (signs.foldl (fun (previous, variations) sign =>
      if sign = 0 then (previous, variations)
      else (sign, if previous ≠ 0 ∧ sign ≠ previous then variations + 1 else variations))
      (previous, n)).2 = n + variationsFrom previous signs := by
  induction signs with
  | nil => exact fun _ _ => rfl
  | cons sign signs ih =>
    intro previous n
    rw [List.foldl_cons, variationsFrom]
    by_cases hsign : sign = 0
    · rw [if_pos hsign]
      simp only [hsign, if_true]
      exact ih previous n
    · simp only [if_neg hsign]
      rw [ih]
      split_ifs <;> omega

/-- The loop counts the variations. -/
theorem signVariations_eq (signs : List SignType) :
    signVariations signs = variationsFrom 0 signs := by
  rw [signVariations, foldl_variations, Nat.zero_add]

theorem sturmVariationsAt_eq (sequence : List RationalPoly) (x : ℚ) :
    sturmVariationsAt sequence x = variationsAt (sequence.map realPoly) x := by
  rw [sturmVariationsAt, signVariations_eq, variationsAt, signsAt, List.map_map]
  congr 1
  refine List.map_congr_left fun poly _ => ?_
  rw [rationalSign_eq, ← eval_realPoly]
  rfl

theorem leadSign_eq {poly : RationalPoly} (h : Trimmed poly) (h0 : ofCoeffs poly ≠ 0) :
    (if (poly.length - 1) % 2 = 0 then rationalSign (ofCoeffs poly).leadingCoeff
      else -rationalSign (ofCoeffs poly).leadingCoeff) = signAtBot (realPoly poly) := by
  have hinjective : Function.Injective (Rat.castHom ℝ) := (Rat.castHom ℝ).injective
  rw [rationalSign_eq, signAtBot, realPoly, natDegree_map_eq_of_injective hinjective,
    leadingCoeff_map_of_injective hinjective, h.natDegree h0, Nat.add_sub_cancel]
  exact if_congr Nat.even_iff.symm rfl rfl

/-- The signs at minus infinity are those of the leading terms. -/
theorem sturmVariationsAtNegativeInfinity_eq {sequence : List RationalPoly}
    (h : ∀ poly ∈ sequence, Trimmed poly ∧ ofCoeffs poly ≠ 0) :
    sturmVariationsAtNegativeInfinity sequence =
      pure (variationsFrom 0 ((sequence.map realPoly).map signAtBot)) := by
  have hsigns : (sequence.mapM fun poly : RationalPoly => (do
      let leadSign := rationalSign (← Checked.ofOption poly.getLast?)
      return if (poly.length - 1) % 2 = 0 then leadSign else -leadSign : Checked SignType)) =
      pure ((sequence.map realPoly).map signAtBot) := by
    induction sequence with
    | nil => rfl
    | cons poly sequence ih =>
      obtain ⟨⟨htrimmed, h0⟩, hrest⟩ := List.forall_mem_cons.mp h
      rw [List.mapM_cons, ih hrest, htrimmed.getLast? h0, List.map_cons, List.map_cons,
        ← leadSign_eq htrimmed h0]
      rfl
  unfold sturmVariationsAtNegativeInfinity
  rw [hsigns, pure_bind, signVariations_eq]

/-! ### The index -/

/-- A real root of an integer polynomial. -/
def IsRealRoot (poly : List ℤ) (x : ℝ) : Prop := aeval x (ofCoeffs poly) = 0

/-- A root between two bounds. -/
def Selects (poly : List ℤ) (lo hi : ℚ) (x : ℝ) : Prop := IsRealRoot poly x ∧ lo < x ∧ x < hi

/-- The number of distinct real roots below a number. -/
noncomputable def rootsBelow (poly : List ℤ) (x : ℝ) : ℕ := {r | IsRealRoot poly r ∧ r < x}.ncard

theorem realPoly_intCast (poly : List ℤ) :
    realPoly (poly.map (↑)) = (ofCoeffs poly).map (Int.castRingHom ℝ) := by
  rw [realPoly, show poly.map ((↑) : ℤ → ℚ) = poly.map (Int.castRingHom ℚ) from rfl, ofCoeffs_map,
    Polynomial.map_map]
  congr 1

theorem isRealRoot_iff (poly : List ℤ) (x : ℝ) :
    IsRealRoot poly x ↔ (realPoly (poly.map (↑))).eval x = 0 := by
  rw [IsRealRoot, aeval_def, realPoly_intCast, eval_map]
  rfl

/-- What a search for the index of a root between two bounds comes to. -/
structure FindsIndex (search : Nat → Checked Nat) (poly : List ℤ) (lo hi : ℚ) : Prop where
  /-- With one root in the interval it ends with the number of roots below it. -/
  one : ∀ x, Selects poly lo hi x → (∀ y, Selects poly lo hi y → y = x) →
    Returns search (rootsBelow poly x)
  other : (¬∃! x, Selects poly lo hi x) →
    Returns (fun fuel => (search fuel).run) (.error .domain)

/-- The variations that are lost up to a point are its roots. -/
theorem sturmSequence_count {poly : List ℤ} (hlen : 2 ≤ poly.length)
    (hlast : poly.getLast? ≠ some 0) :
    ∃ sequence atBot, Returns (fun fuel => sturmSequence fuel poly) sequence ∧
      sequence.head? = some (poly.map (↑)) ∧ realPoly (poly.map (↑)) ≠ 0 ∧
      sturmVariationsAtNegativeInfinity sequence = pure atBot ∧
      ∀ x : ℚ, ¬IsRealRoot poly x →
        sturmVariationsAt sequence x + (rootsUpTo (realPoly (poly.map (↑))) x).card = atBot := by
  obtain ⟨rest, hsequence, hchain, htrimmed⟩ := sturmSequence_spec hlen hlast
  have hP : realPoly (poly.map (↑)) ≠ 0 := by
    rw [realPoly, Polynomial.map_ne_zero_iff (Rat.castHom ℝ).injective]
    exact (htrimmed _ List.mem_cons_self).2
  have hderivative : realPoly (rationalPolyDerivative (poly.map (↑))) =
      derivative (realPoly (poly.map (↑))) := by
    rw [realPoly, (rationalPolyDerivative_spec _).1, realPoly, derivative_map]
  have hmap : ((poly.map (↑) :: rationalPolyDerivative (poly.map (↑)) :: rest).map ofCoeffs).map
      (mapRingHom (Rat.castHom ℝ)) = realPoly (poly.map (↑)) ::
        derivative (realPoly (poly.map (↑))) :: rest.map realPoly := by
    rw [← hderivative, List.map_map]
    rfl
  have hreal : RemainderChain (· ≠ 0) (realPoly (poly.map (↑)) ::
      derivative (realPoly (poly.map (↑))) :: rest.map realPoly) := by
    rw [← hmap]
    refine hchain.map (mapRingHom (Rat.castHom ℝ)) (fun p hp => ?_) _
    rwa [coe_mapRingHom, Polynomial.map_ne_zero_iff (Rat.castHom ℝ).injective]
  refine ⟨_, _, hsequence, rfl, hP, sturmVariationsAtNegativeInfinity_eq htrimmed, fun x hx => ?_⟩
  rw [isRealRoot_iff] at hx
  rw [sturmVariationsAt_eq, List.map_cons, List.map_cons, hderivative]
  exact variationsAt_add_card hP hreal hx

/-- An end of the interval that is a root is rejected. -/
theorem realRootIndexBetween_root {poly : List ℤ} (hlen : 2 ≤ poly.length)
    (hlast : poly.getLast? ≠ some 0) {lo hi : ℚ} (h : IsRealRoot poly lo ∨ IsRealRoot poly hi) :
    Returns (fun fuel => (realRootIndexBetween fuel poly lo hi).run) (.error .domain) := by
  obtain ⟨sequence, _, ⟨n, hn⟩, hfirst, -⟩ := sturmSequence_count hlen hlast
  have heval : ∀ x : ℚ, IsRealRoot poly x → evalRationalPoly (poly.map (↑)) x = 0 := by
    intro x hx
    rw [isRealRoot_iff, eval_realPoly] at hx
    exact_mod_cast hx
  refine ⟨n, fun fuel hfuel => ?_⟩
  have hsequence : sturmSequence fuel poly = pure sequence := hn fuel hfuel
  have hthrow : realRootIndexBetween fuel poly lo hi = throw .domain := by
    unfold realRootIndexBetween
    rw [hsequence, pure_bind, hfirst]
    refine (pure_bind _ _).trans ?_
    rw [if_pos (h.imp (heval lo) (heval hi))]
    rfl
  show (realRootIndexBetween fuel poly lo hi).run = _
  rw [hthrow]
  rfl

/-- **The index of a root.** -/
theorem realRootIndexBetween_spec {poly : List ℤ} (hlen : 2 ≤ poly.length)
    (hlast : poly.getLast? ≠ some 0) {lo hi : ℚ} (hlo : ¬IsRealRoot poly lo)
    (hhi : ¬IsRealRoot poly hi) :
    FindsIndex (fun fuel => realRootIndexBetween fuel poly lo hi) poly lo hi := by
  obtain ⟨sequence, atBot, hsequence, hfirst, hP, hbot, hcount⟩ := sturmSequence_count hlen hlast
  have hatLo := hcount lo hlo
  have hatHi := hcount hi hhi
  have hroots := card_rootsUpTo_sub hP lo ((isRealRoot_iff poly hi).not.mp hhi)
  have hselects : ∀ x, x ∈ rootsBetween (realPoly (poly.map (↑))) lo hi ↔ Selects poly lo hi x := by
    intro x
    rw [mem_rootsBetween hP, Selects, isRealRoot_iff]
  have heval : ∀ x : ℚ, ¬IsRealRoot poly x → ¬evalRationalPoly (poly.map (↑)) x = 0 := by
    intro x hx h
    rw [isRealRoot_iff, eval_realPoly, h, Rat.cast_zero] at hx
    exact hx rfl
  have hguard : ¬(evalRationalPoly (poly.map (↑)) lo = 0 ∨ evalRationalPoly (poly.map (↑)) hi = 0) :=
    not_or.mpr ⟨heval lo hlo, heval hi hhi⟩
  constructor
  · intro x hx hunique
    have hcard : (rootsBetween (realPoly (poly.map (↑))) lo hi).card = 1 := by
      rw [Finset.card_eq_one]
      refine ⟨x, Finset.eq_singleton_iff_unique_mem.mpr ⟨(hselects x).mpr hx, fun y hy => ?_⟩⟩
      exact hunique y ((hselects y).mp hy)
    have hbelow : rootsBelow poly x = (rootsUpTo (realPoly (poly.map (↑))) lo).card := by
      rw [rootsBelow, ← Set.ncard_coe_finset]
      congr 1
      ext r
      rw [Finset.mem_coe, mem_rootsUpTo hP, ← isRealRoot_iff, Set.mem_ofPred_eq]
      refine and_congr_right fun hr => ⟨fun hlt => ?_, fun hle => lt_of_le_of_lt hle hx.2.1⟩
      -- a root behind the lower end would be a second one in the interval
      by_contra hgt
      exact absurd (hunique r ⟨hr, not_le.mp hgt, hlt.trans hx.2.2⟩) hlt.ne
    have hindex : atBot - sturmVariationsAt sequence lo = rootsBelow poly x := by
      rw [hbelow]
      omega
    have hone : ¬(sturmVariationsAt sequence lo - sturmVariationsAt sequence hi ≠ 1) := by omega
    obtain ⟨n, hn⟩ := hsequence
    refine ⟨n, fun fuel hfuel => ?_⟩
    have hsequence : sturmSequence fuel poly = pure sequence := hn fuel hfuel
    show realRootIndexBetween fuel poly lo hi = _
    unfold realRootIndexBetween
    rw [hsequence, pure_bind, hfirst]
    refine (pure_bind _ _).trans ?_
    rw [if_neg hguard]
    simp only [pure_bind, if_neg hone, hbot, hindex]
  · intro hnot
    have hcard : (rootsBetween (realPoly (poly.map (↑))) lo hi).card ≠ 1 := by
      rw [Ne, Finset.card_eq_one]
      rintro ⟨x, hx⟩
      obtain ⟨hmem, hunique⟩ := Finset.eq_singleton_iff_unique_mem.mp hx
      exact hnot ⟨x, (hselects x).mp hmem, fun y hy => hunique y ((hselects y).mpr hy)⟩
    have hcount : sturmVariationsAt sequence lo - sturmVariationsAt sequence hi ≠ 1 := by omega
    obtain ⟨n, hn⟩ := hsequence
    refine ⟨n, fun fuel hfuel => ?_⟩
    have hsequence : sturmSequence fuel poly = pure sequence := hn fuel hfuel
    have hthrow : realRootIndexBetween fuel poly lo hi = throw .domain := by
      unfold realRootIndexBetween
      rw [hsequence, pure_bind, hfirst]
      refine (pure_bind _ _).trans ?_
      rw [if_neg hguard]
      simp only [if_pos hcount]
      rfl
    show (realRootIndexBetween fuel poly lo hi).run = _
    rw [hthrow]
    rfl

end Wqpl
