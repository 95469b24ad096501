/-
# The root of a field

A finite float has an exact value, and finite floats compare as their values do
(`F64.partialCmp_eq`), so an interval of floats selects a root as the interval
of the values does. The generator of a field that the code makes is the one
root in its interval (`newRealRootOver_spec`), and fields of the same polynomial
are equal if their generators are (`root_identity`).
-/
import Wqpl.Algebraic.RootIdentity

namespace Wqpl

open Polynomial

/-! ### Intervals of floats -/

namespace F64

/-- The number of units of the smallest positive float in a finite float whose
bits, without the sign, are those of `n`. -/
def units (n : Nat) : Nat :=
  if n < 2 ^ 52 then n else (2 ^ 52 + n % 2 ^ 52) * 2 ^ (n / 2 ^ 52 - 1)

theorem units_strictMono : StrictMono units := by
  refine strictMono_nat_of_lt_succ fun n => ?_
  unfold units
  rcases lt_trichotomy (n + 1) (2 ^ 52) with hlt | heq | hgt
  · rw [if_pos hlt, if_pos (by omega)]
    exact Nat.lt_succ_self n
  · rw [if_pos (by omega), if_neg (by omega), heq]
    norm_num
    omega
  · rw [if_neg (by omega), if_neg (by omega)]
    by_cases hcarry : n % 2 ^ 52 + 1 < 2 ^ 52
    · have hdiv : (n + 1) / 2 ^ 52 = n / 2 ^ 52 := by omega
      have hmod : (n + 1) % 2 ^ 52 = n % 2 ^ 52 + 1 := by omega
      rw [hdiv, hmod]
      exact Nat.mul_lt_mul_of_pos_right (by omega) (Nat.two_pow_pos _)
    · -- the next float has the next exponent
      have hdiv : (n + 1) / 2 ^ 52 - 1 = n / 2 ^ 52 - 1 + 1 := by omega
      have hmod : (n + 1) % 2 ^ 52 = 0 := by omega
      have hpos := Nat.two_pow_pos (n / 2 ^ 52 - 1)
      have hfraction : n % 2 ^ 52 < 2 ^ 52 := Nat.mod_lt _ (by norm_num)
      have hpow : 2 ^ (n / 2 ^ 52 - 1 + 1) = 2 * 2 ^ (n / 2 ^ 52 - 1) := pow_succ' 2 _
      rw [hdiv, hmod, hpow, Nat.add_zero, ← mul_assoc]
      exact Nat.mul_lt_mul_of_pos_right (by omega) hpos

/-- The value of a rank, in units. -/
def signedUnits (r : ℤ) : ℤ := if r < 0 then -units r.natAbs else units r.natAbs

theorem signedUnits_strictMono : StrictMono signedUnits := by
  intro a b hab
  have hzero : units 0 = 0 := rfl
  unfold signedUnits
  by_cases hb : b < 0
  · have hlt := units_strictMono (show b.natAbs < a.natAbs by omega)
    rw [if_pos hb, if_pos (by omega)]
    omega
  · rw [if_neg hb]
    by_cases ha : a < 0
    · have hlt := units_strictMono (show 0 < a.natAbs by omega)
      rw [if_pos ha]
      omega
    · have hlt := units_strictMono (show a.natAbs < b.natAbs by omega)
      rw [if_neg ha]
      omega

/-- The exact value of a finite float goes by its rank. -/
theorem toRational_eq {f : F64} {q : ℚ} (h : f.toRational = some q) :
    q = signedUnits f.rank * 2 ^ (-1074 : ℤ) := by
  have hbits := f.bits.isLt
  have hmagnitude : (if f.exponent = 0 then (f.fraction : ℚ) * 2 ^ (-1074 : ℤ)
      else (2 ^ 52 + f.fraction) * 2 ^ ((f.exponent : ℤ) - 1075)) =
      units (f.bits.toNat % 2 ^ 63) * 2 ^ (-1074 : ℤ) := by
    have hfraction : f.bits.toNat % 2 ^ 63 % 2 ^ 52 = f.fraction := by
      unfold fraction
      omega
    have hexponent : f.bits.toNat % 2 ^ 63 / 2 ^ 52 = f.exponent := by
      unfold exponent
      omega
    unfold units
    rw [hfraction, hexponent]
    by_cases he : f.exponent = 0
    · have hsmall : f.bits.toNat % 2 ^ 63 = f.fraction := by omega
      have hlt : f.fraction < 2 ^ 52 := Nat.mod_lt _ (by norm_num)
      rw [if_pos he, hsmall, if_pos hlt]
    · rw [if_neg he, if_neg (by omega)]
      obtain ⟨e, he⟩ := Nat.exists_eq_succ_of_ne_zero he
      have hpow : (2 : ℚ) ^ ((e.succ : ℤ) - 1075) = 2 ^ e * 2 ^ (-1074 : ℤ) := by
        rw [← zpow_natCast, ← zpow_add₀ two_ne_zero]
        congr 1
        push_cast
        ring
      rw [he, hpow]
      simp only [Nat.cast_mul, Nat.cast_add, Nat.cast_pow, Nat.cast_ofNat, Nat.succ_sub_one,
        mul_assoc]
  unfold toRational at h
  rw [Option.ite_none_right_eq_some, Option.some.injEq] at h
  rw [← h.2, hmagnitude]
  unfold rank signedUnits
  generalize (2 : ℚ) ^ (-1074 : ℤ) = scale
  cases f.signBit with
  | false =>
    simp only [Bool.false_eq_true, if_false, Int.natAbs_natCast]
    rw [if_neg (by omega), Int.cast_natCast]
  | true =>
    simp only [if_true, Int.natAbs_neg, Int.natAbs_natCast]
    by_cases hzero : f.bits.toNat % 2 ^ 63 = 0
    · rw [hzero]
      simp [units]
    · rw [if_pos (by omega), Int.cast_neg, Int.cast_natCast, neg_mul]

theorem toRational_toReal {f : F64} {q : ℚ} (h : f.toRational = some q) : (q : ℝ) = f.toReal := by
  unfold toRational at h
  rw [Option.ite_none_right_eq_some, Option.some.injEq] at h
  rw [← h.2, toReal]
  split_ifs <;>
    simp only [Rat.cast_neg, Rat.cast_mul, Rat.cast_add, Rat.cast_pow, Rat.cast_zpow,
      Rat.cast_natCast, Rat.cast_ofNat]

theorem toRational_normal {f : F64} (hfinite : f.isFinite = true) (hnormal : f.exponent ≠ 0)
    (hsign : f.signBit = false) :
    f.toRational = some ((2 ^ 52 + f.fraction : ℚ) * 2 ^ ((f.exponent : ℤ) - 1075)) := by
  rw [toRational, if_pos hfinite, hsign, if_neg hnormal]
  rfl

/-- Finite floats compare as their values do. -/
theorem partialCmp_eq {f g : F64} {p q : ℚ} (hp : f.toRational = some p)
    (hq : g.toRational = some q) : f.partialCmp g = some (compare p q) := by
  have hfinite : ∀ {f : F64} {q : ℚ}, f.toRational = some q → f.isFinite = true ∧ f.isNaN = false := by
    intro f q h
    unfold toRational at h
    rw [Option.ite_none_right_eq_some] at h
    refine ⟨h.1, ?_⟩
    have hne : f.exponent ≠ 2047 := by simpa [isFinite] using h.1
    simp [isNaN, hne]
  have hscale : (0 : ℚ) < 2 ^ (-1074 : ℤ) := zpow_pos two_pos _
  have hlt : ∀ a b : ℤ, (signedUnits a * 2 ^ (-1074 : ℤ) : ℚ) < signedUnits b * 2 ^ (-1074 : ℤ) ↔
      a < b := by
    intro a b
    rw [mul_lt_mul_iff_left₀ hscale, Int.cast_lt, signedUnits_strictMono.lt_iff_lt]
  unfold partialCmp
  rw [(hfinite hp).2, (hfinite hq).2, toRational_eq hp, toRational_eq hq]
  simp only [Bool.or_self, Bool.false_eq_true, if_false, Option.some.injEq]
  rcases lt_trichotomy f.rank g.rank with h | h | h
  · rw [compare_lt_iff_lt.mpr h, compare_lt_iff_lt.mpr ((hlt _ _).mpr h)]
  · rw [h, compare_eq_iff_eq.mpr rfl, compare_eq_iff_eq.mpr rfl]
  · rw [compare_gt_iff_gt.mpr h, compare_gt_iff_gt.mpr ((hlt _ _).mpr h)]

end F64

/-- An interval of floats is searched as the interval of their values. -/
theorem selectedRealRootIndex_spec {poly : List ℤ} (hlen : 2 ≤ poly.length)
    (hlast : poly.getLast? ≠ some 0) {f g : F64} {lo hi : ℚ} (hf : f.toRational = some lo)
    (hg : g.toRational = some hi) (hlo : ¬IsRealRoot poly lo) (hhi : ¬IsRealRoot poly hi) :
    FindsIndex (fun fuel => selectedRealRootIndex fuel poly (f, g)) poly lo hi := by
  have hcmp := F64.partialCmp_eq hf hg
  have hfinite : ∀ {f : F64} {q : ℚ}, f.toRational = some q → f.isFinite = true := by
    intro f q h
    unfold F64.toRational at h
    rw [Option.ite_none_right_eq_some] at h
    exact h.1
  by_cases hlt : lo < hi
  · have hinterval : exactInterval (f, g) = .ok (lo, hi) := by
      simp [exactInterval, hfinite hf, hfinite hg, hcmp, compare_lt_iff_lt.mpr hlt, hf, hg]
    have hspec := realRootIndexBetween_spec hlen hlast hlo hhi
    have hsame : ∀ fuel, selectedRealRootIndex fuel poly (f, g) =
        realRootIndexBetween fuel poly lo hi := by
      intro fuel
      rw [selectedRealRootIndex, hinterval]
      rfl
    simpa only [hsame] using hspec
  · -- an empty interval is rejected
    have hempty : ∀ x, ¬Selects poly lo hi x := fun x h =>
      hlt (by exact_mod_cast h.2.1.trans h.2.2)
    have hinterval : exactInterval (f, g) = .error .domain := by
      rcases lt_or_eq_of_le (not_lt.mp hlt) with h | h
      · simp [exactInterval, hcmp, compare_gt_iff_gt.mpr h]
      · simp [exactInterval, hcmp, compare_eq_iff_eq.mpr h.symm]
    refine ⟨fun x hx _ => absurd hx (hempty x), fun _ => .of_all fun fuel => ?_⟩
    rw [selectedRealRootIndex, hinterval]
    rfl

/-! ### Normalized polynomials -/

theorem bigintGcd_zero (a : ℤ) : bigintGcd a 0 = a := by
  rw [bigintGcd, if_pos rfl]

theorem bigintGcd_step (a : ℤ) {b : ℤ} (hb : b ≠ 0) :
    bigintGcd a b = bigintGcd b (a.tmod b) := by
  rw [bigintGcd, if_neg hb]

theorem bigintGcd_dvd (a b : ℤ) : bigintGcd a b ∣ a ∧ bigintGcd a b ∣ b := by
  fun_induction bigintGcd a b with
  | case1 a => exact ⟨dvd_rfl, dvd_zero a⟩
  | case2 a b hb ih =>
    obtain ⟨hleft, hright⟩ := ih
    refine ⟨?_, hleft⟩
    have hsum := dvd_add hright (hleft.mul_right (a.tdiv b))
    rwa [Int.tmod_add_mul_tdiv] at hsum

theorem content_dvd (poly : List ℤ) : ∀ (content : ℤ),
    poly.foldl (fun content coeff => bigintGcd content |coeff|) content ∣ content ∧
      ∀ c ∈ poly, poly.foldl (fun content coeff => bigintGcd content |coeff|) content ∣ c := by
  induction poly with
  | nil => exact fun content => ⟨dvd_rfl, nofun⟩
  | cons c poly ih =>
    intro content
    obtain ⟨hcontent, hpoly⟩ := ih (bigintGcd content |c|)
    obtain ⟨hleft, hright⟩ := bigintGcd_dvd content |c|
    rw [List.foldl_cons]
    exact ⟨hcontent.trans hleft, List.forall_mem_cons.mpr
      ⟨(dvd_abs _ c).mp (hcontent.trans hright), hpoly⟩⟩

/-- A list of at least three coefficients, the last one not zero. -/
structure IsFieldPoly (poly : List ℤ) : Prop where
  length : 3 ≤ poly.length
  last : poly.getLast? ≠ some 0

theorem IsFieldPoly.map {poly : List ℤ} (h : IsFieldPoly poly) {f : ℤ → ℤ}
    (hf : ∀ c ∈ poly, f c = 0 → c = 0) : IsFieldPoly (poly.map f) where
  length := by
    rw [List.length_map]
    exact h.length
  last hlast := by
    rw [List.getLast?_map, Option.map_eq_some_iff] at hlast
    obtain ⟨c, hc, hzero⟩ := hlast
    exact h.last (hf c (List.mem_of_getLast? hc) hzero ▸ hc)

/-- **Normalization.** -/
theorem normalizeFieldPoly_spec {poly q : List ℤ} (h : normalizeFieldPoly poly = .ok q) :
    IsFieldPoly q := by
  unfold normalizeFieldPoly at h
  dsimp only at h
  generalize htrim : (poly.reverse.dropWhile (· = 0)).reverse = trimmed at h
  generalize hcontent : trimmed.foldl (fun content coeff => bigintGcd content |coeff|) 0 = content at h
  by_cases hlen : trimmed.length < 3
  · rw [if_pos hlen] at h
    cases h
  rw [if_neg hlen] at h
  by_cases hzero : content = 0
  · rw [if_pos hzero] at h
    cases h
  rw [if_neg hzero] at h
  have htrimmed : IsFieldPoly trimmed := by
    refine ⟨not_lt.mp hlen, fun hlast => ?_⟩
    have hhead := List.head?_dropWhile_not (fun c : ℤ => decide (c = 0)) poly.reverse
    rw [← htrim, List.getLast?_reverse] at hlast
    rw [hlast] at hhead
    exact absurd hhead (by decide)
  have hprimitive : IsFieldPoly
      (if content ≠ 1 then trimmed.map (·.tdiv content) else trimmed) := by
    split_ifs
    · refine htrimmed.map fun c hc hdiv => ?_
      have hdvd : content ∣ c := hcontent ▸ (content_dvd trimmed 0).2 c hc
      rw [← Int.mul_tdiv_cancel' hdvd, hdiv, mul_zero]
    · exact htrimmed
  generalize (if content ≠ 1 then trimmed.map (·.tdiv content) else trimmed) = primitive
    at h hprimitive
  rw [← Except.ok.inj h]
  split_ifs
  · exact hprimitive.map fun c _ hneg => neg_eq_zero.mp hneg
  · exact hprimitive

/-! ### Fields -/

theorem getD_countP : ∀ l : List ℝ, l.Pairwise (· < ·) → ∀ x ∈ l,
    l.getD (l.countP (· < x)) 0 = x
  | [], _, x, hx => absurd hx List.not_mem_nil
  | a :: l, hl, x, hx => by
    obtain ⟨ha, hl⟩ := List.pairwise_cons.mp hl
    rcases List.mem_cons.mp hx with rfl | hmem
    · have hnone : l.countP (· < x) = 0 :=
        List.countP_eq_zero.mpr fun b hb => by simpa using (ha b hb).le
      rw [List.countP_cons, hnone]
      simp
    · rw [List.countP_cons, if_pos (by simpa using ha x hmem), List.getD_cons_succ]
      exact getD_countP l hl x hmem

/-- In the sorted roots a root stands at the index that counts the ones below it. -/
theorem sort_getD_card {F : Finset ℝ} {x : ℝ} (hx : x ∈ F) :
    (F.sort (· ≤ ·)).getD (F.filter (· < x)).card 0 = x := by
  have hcount : (F.filter (· < x)).card = (F.sort (· ≤ ·)).countP (· < x) := by
    rw [Finset.card_def, Finset.filter_val, ← Multiset.countP_eq_card_filter,
      ← Finset.sort_eq F (· ≤ ·), Multiset.coe_countP]
  rw [hcount]
  exact getD_countP _ (Finset.sortedLT_sort F).pairwise x ((Finset.mem_sort _).mpr hx)

/-- A root between two floats. -/
def SelectsIn (poly : List ℤ) (interval : F64 × F64) (x : ℝ) : Prop :=
  IsRealRoot poly x ∧ interval.1.toReal < x ∧ x < interval.2.toReal

namespace AlgebraicField

theorem polynomial_eq (field : AlgebraicField) :
    field.polynomial = realPoly (field.poly.map (↑)) := by
  rw [realPoly_intCast, ← ofCoeffs_map, polynomial]
  induction field.poly with
  | nil => rfl
  | cons c poly ih =>
    rw [List.map_cons, List.map_cons, ofCoeffs_cons, ← ih]
    rfl

/-- The generator is the root with as many roots below it as the index says. -/
theorem generator_eq {field : AlgebraicField} (hne : field.polynomial ≠ 0) {x : ℝ}
    (hx : IsRealRoot field.poly x) (hindex : field.rootIndex = rootsBelow field.poly x) :
    field.generator = x := by
  have hpolynomial := field.polynomial_eq
  have hmem : ∀ r, r ∈ field.polynomial.roots.toFinset ↔ IsRealRoot field.poly r := by
    intro r
    rw [Multiset.mem_toFinset, mem_roots hne, IsRoot.def, hpolynomial, ← isRealRoot_iff]
  have hcard : field.rootIndex = (field.polynomial.roots.toFinset.filter (· < x)).card := by
    rw [hindex, rootsBelow, ← Set.ncard_coe_finset]
    congr 1
    ext r
    rw [Finset.mem_coe, Finset.mem_filter, hmem]
    rfl
  rw [generator, hcard]
  exact sort_getD_card ((hmem x).mpr hx)

/-- What the code leaves in a field: its generator is the one root in its interval. -/
structure IsAround (field : AlgebraicField) : Prop where
  nonzero : field.polynomial ≠ 0
  selects : SelectsIn field.poly field.interval field.generator
  unique : ∀ x, SelectsIn field.poly field.interval x → x = field.generator
  index : field.rootIndex = rootsBelow field.poly field.generator

theorem IsAround.isolated {field : AlgebraicField} (h : field.IsAround) : field.Isolated :=
  h.selects.2

theorem exactInterval_spec {interval : F64 × F64} {lo hi : ℚ}
    (h : exactInterval interval = .ok (lo, hi)) :
    interval.1.toRational = some lo ∧ interval.2.toRational = some hi := by
  unfold exactInterval at h
  dsimp only at h
  split_ifs at h
  split at h
  · rename_i lo' hi' hlo hhi
    obtain ⟨rfl, rfl⟩ := Prod.mk.inj (Except.ok.inj h)
    exact ⟨hlo, hhi⟩
  · cases h

/-- **The constructor of a field.** -/
theorem newRealRootOver_spec {base : AlgebraicBase} {poly : List ℤ} {interval : F64 × F64}
    {field : AlgebraicField}
    (h : Returns (fun fuel => newRealRootOver fuel base poly interval) field) :
    field.IsAround ∧ ∃ q index, field = .mk base q index interval.1 interval.2 := by
  obtain ⟨n, hn⟩ := h
  cases hpoly : normalizeFieldPoly poly with
  | error e =>
    have hrun := congrArg ExceptT.run (hn n le_rfl)
    simp only [newRealRootOver, hpoly] at hrun
    exact absurd hrun nofun
  | ok q =>
    cases hinterval : exactInterval interval with
    | error e =>
      have hrun := congrArg ExceptT.run (hn n le_rfl)
      simp only [newRealRootOver, selectedRealRootIndex, hpoly, hinterval] at hrun
      exact absurd hrun nofun
    | ok bounds =>
      obtain ⟨lo, hi⟩ := bounds
      obtain ⟨hloValue, hhiValue⟩ := exactInterval_spec hinterval
      have hq := normalizeFieldPoly_spec hpoly
      have hlen : 2 ≤ q.length := Nat.le_of_succ_le hq.length
      have hrun : ∀ fuel, newRealRootOver fuel base poly interval = (do
          let index ← realRootIndexBetween fuel q lo hi
          return .mk base q index interval.1 interval.2) := by
        intro fuel
        simp only [newRealRootOver, selectedRealRootIndex, hpoly, hinterval]
        rfl
      -- the search has not failed
      have hfails : ∀ e, ¬Returns (fun fuel => (realRootIndexBetween fuel q lo hi).run)
          (.error e) := by
        rintro e ⟨k, hk⟩
        have hfield := congrArg ExceptT.run (hn (max n k) (le_max_left n k))
        have hsearch : (realRootIndexBetween (max n k) q lo hi).run = some (.error e) :=
          hk _ (le_max_right n k)
        simp only [hrun, ExceptT.run_bind, hsearch] at hfield
        exact absurd hfield nofun
      have hlo : ¬IsRealRoot q lo := fun h =>
        hfails _ (realRootIndexBetween_root hlen hq.last (.inl h))
      have hhi : ¬IsRealRoot q hi := fun h =>
        hfails _ (realRootIndexBetween_root hlen hq.last (.inr h))
      have hspec := realRootIndexBetween_spec hlen hq.last hlo hhi
      by_cases hone : ∃! x, Selects q lo hi x
      · obtain ⟨x, hx, hunique⟩ := hone
        obtain ⟨k, hk⟩ := hspec.one x hx hunique
        have hfield : .mk base q (rootsBelow q x) interval.1 interval.2 = field := by
          have hsearch : realRootIndexBetween (max n k) q lo hi = pure (rootsBelow q x) :=
            hk _ (le_max_right n k)
          have hfield : newRealRootOver (max n k) base poly interval = pure field :=
            hn _ (le_max_left n k)
          rw [hrun, hsearch, pure_bind] at hfield
          exact Except.ok.inj (Option.some.inj (congrArg ExceptT.run hfield))
        subst hfield
        refine ⟨?_, q, _, rfl⟩
        obtain ⟨_, _, -, -, hne, -⟩ := sturmSequence_count hlen hq.last
        have hpolynomial : (AlgebraicField.mk base q (rootsBelow q x) interval.1
            interval.2).polynomial ≠ 0 := by
          rw [polynomial_eq]
          exact hne
        have hgenerator := generator_eq hpolynomial hx.1 rfl
        have hinside : ∀ y, SelectsIn q interval y → Selects q lo hi y := by
          intro y hy
          rwa [Selects, F64.toRational_toReal hloValue, F64.toRational_toReal hhiValue]
        refine ⟨hpolynomial, ?_, ?_, ?_⟩
        · rw [hgenerator]
          rwa [Selects, F64.toRational_toReal hloValue, F64.toRational_toReal hhiValue] at hx
        · rw [hgenerator]
          exact fun y hy => hunique y (hinside y hy)
        · rw [hgenerator]
          rfl
      · exact absurd (hspec.other hone) (hfails _)

/-- Over one polynomial the index tells the generators apart. -/
theorem rootIndex_eq_iff {field field' : AlgebraicField} (h : field.IsAround)
    (h' : field'.IsAround) (hpoly : field.poly = field'.poly) :
    field.rootIndex = field'.rootIndex ↔ field.generator = field'.generator := by
  rw [h.index, h'.index, ← hpoly]
  refine ⟨fun hindex => ?_, fun heq => by rw [heq]⟩
  have hfinite : ∀ x, {r | IsRealRoot field.poly r ∧ r < x}.Finite := by
    intro x
    refine (finite_setOfPred_isRoot h.nonzero).subset fun r hr => ?_
    rw [polynomial_eq]
    exact (isRealRoot_iff _ _).mp hr.1
  have hlt : ∀ x y, IsRealRoot field.poly x → x < y →
      rootsBelow field.poly x < rootsBelow field.poly y := by
    intro x y hx hxy
    refine Set.ncard_lt_ncard ⟨fun r hr => ⟨hr.1, hr.2.trans hxy⟩, fun hsub => ?_⟩ (hfinite y)
    exact lt_irrefl x (hsub ⟨hx, hxy⟩).2
  have hroot' := h'.selects.1
  rw [← hpoly] at hroot'
  rcases lt_trichotomy field.generator field'.generator with hless | heq | hgreater
  · exact absurd hindex (hlt _ _ h.selects.1 hless).ne
  · exact heq
  · exact absurd hindex (hlt _ _ hroot' hgreater).ne'

end AlgebraicField

/-- **The identity of a root.** For every polynomial and every interval whose ends
are no roots the index is found if the interval holds one real root, and then it
counts the roots below; so two fields over the same polynomial are equal if
their intervals are around the same root. -/
theorem root_identity :
    (∀ poly : List ℤ, 2 ≤ poly.length → poly.getLast? ≠ some 0 → ∀ lo hi : ℚ,
      ¬IsRealRoot poly lo → ¬IsRealRoot poly hi →
      FindsIndex (fun fuel => realRootIndexBetween fuel poly lo hi) poly lo hi ∧
      ∀ f g : F64, f.toRational = some lo → g.toRational = some hi →
        FindsIndex (fun fuel => selectedRealRootIndex fuel poly (f, g)) poly lo hi) ∧
    ∀ (base base' : AlgebraicBase) (poly poly' : List ℤ) (interval interval' : F64 × F64)
      (field field' : AlgebraicField),
      Returns (fun fuel => AlgebraicField.newRealRootOver fuel base poly interval) field →
      Returns (fun fuel => AlgebraicField.newRealRootOver fuel base' poly' interval') field' →
      base.eq base' = true → field.poly = field'.poly →
      (∃! x, SelectsIn field.poly interval x) ∧ (∃! x, SelectsIn field'.poly interval' x) ∧
        (field.eq field' = true ↔
          ∃ x, SelectsIn field.poly interval x ∧ SelectsIn field'.poly interval' x) := by
  constructor
  · intro poly hlen hlast lo hi hlo hhi
    exact ⟨realRootIndexBetween_spec hlen hlast hlo hhi,
      fun f g hf hg => selectedRealRootIndex_spec hlen hlast hf hg hlo hhi⟩
  · intro base base' poly poly' interval interval' field field' h h' hbase hpoly
    obtain ⟨haround, q, index, rfl⟩ := AlgebraicField.newRealRootOver_spec h
    obtain ⟨haround', q', index', rfl⟩ := AlgebraicField.newRealRootOver_spec h'
    refine ⟨⟨_, haround.selects, haround.unique⟩, ⟨_, haround'.selects, haround'.unique⟩, ?_⟩
    have heq : (AlgebraicField.mk base q index interval.1 interval.2).eq
        (.mk base' q' index' interval'.1 interval'.2) = true ↔ index = index' := by
      have hq : q = q' := hpoly
      simp [AlgebraicField.eq, hbase, hq]
    rw [heq]
    refine (AlgebraicField.rootIndex_eq_iff haround haround' hpoly).trans
      ⟨fun hgenerator => ⟨_, haround.selects, ?_⟩, fun ⟨x, hx, hx'⟩ => ?_⟩
    · rw [hgenerator]
      exact haround'.selects
    · exact (haround.unique x hx).symm.trans (haround'.unique x hx')

theorem isRealRoot_sqrt_two (x : ℝ) : IsRealRoot [-2, 0, 1] x ↔ x ^ 2 = 2 := by
  simp only [IsRealRoot, ofCoeffs_cons, ofCoeffs_nil, map_add, map_mul, map_neg, aeval_X,
    map_zero, map_one, map_ofNat, mul_zero, add_zero, mul_one, zero_add]
  constructor <;> intro h <;> linarith [sq x]

/-- The intervals from 1 to 2 and from 1 to 1.5 are around the square root of two. -/
theorem root_identity_sqrt_two :
    FindsIndex (fun fuel => realRootIndexBetween fuel [-2, 0, 1] 1 2) [-2, 0, 1] 1 2 ∧
    ∃ field field',
      Returns (fun fuel => AlgebraicField.newRealRootOver fuel .rational [-2, 0, 1]
        (⟨0x3FF0000000000000#64⟩, ⟨0x4000000000000000#64⟩)) field ∧
      Returns (fun fuel => AlgebraicField.newRealRootOver fuel .rational [-2, 0, 1]
        (⟨0x3FF0000000000000#64⟩, ⟨0x3FF8000000000000#64⟩)) field' ∧
      field.eq field' = true := by
  have hone : F64.toRational ⟨0x3FF0000000000000#64⟩ = some 1 := by
    rw [F64.toRational_normal (by decide) (by decide) (by decide),
      show F64.exponent ⟨0x3FF0000000000000#64⟩ = 1023 by decide,
      show F64.fraction ⟨0x3FF0000000000000#64⟩ = 0 by decide]
    norm_num
  have htwo : F64.toRational ⟨0x4000000000000000#64⟩ = some 2 := by
    rw [F64.toRational_normal (by decide) (by decide) (by decide),
      show F64.exponent ⟨0x4000000000000000#64⟩ = 1024 by decide,
      show F64.fraction ⟨0x4000000000000000#64⟩ = 0 by decide]
    norm_num
  have hhalf : F64.toRational ⟨0x3FF8000000000000#64⟩ = some (3 / 2) := by
    rw [F64.toRational_normal (by decide) (by decide) (by decide),
      show F64.exponent ⟨0x3FF8000000000000#64⟩ = 1023 by decide,
      show F64.fraction ⟨0x3FF8000000000000#64⟩ = 2 ^ 51 by decide]
    norm_num
  have hroot : ∀ q : ℚ, q = 1 ∨ q = 2 ∨ q = 3 / 2 → ¬IsRealRoot [-2, 0, 1] q := by
    rintro q (rfl | rfl | rfl) <;> rw [isRealRoot_sqrt_two] <;> norm_num
  have hsqrt : ∀ hi : ℚ, 3 / 2 ≤ hi → Selects [-2, 0, 1] 1 hi (√2) ∧
      ∀ y, Selects [-2, 0, 1] 1 hi y → y = √2 := by
    intro hi hhi
    have hle : ((3 / 2 : ℚ) : ℝ) ≤ hi := Rat.cast_le.mpr hhi
    push_cast at hle
    have hsquare : √2 ^ 2 = (2 : ℝ) := Real.sq_sqrt (by norm_num)
    have hpos := Real.sqrt_nonneg 2
    refine ⟨⟨(isRealRoot_sqrt_two _).mpr hsquare, ?_, ?_⟩, fun y ⟨hy, hlo, _⟩ => ?_⟩
    · rw [Rat.cast_one]
      nlinarith
    · nlinarith
    · rw [isRealRoot_sqrt_two] at hy
      rw [Rat.cast_one] at hlo
      rw [← hy, Real.sqrt_sq (by linarith)]
  have hnormal : normalizeFieldPoly [-2, 0, 1] = .ok [-2, 0, 1] := by
    have hcontent : ([-2, 0, 1] : List ℤ).foldl
        (fun content coeff => bigintGcd content |coeff|) 0 = 1 := by
      show bigintGcd (bigintGcd (bigintGcd 0 2) 0) 1 = 1
      rw [bigintGcd_zero, bigintGcd_step _ one_ne_zero, Int.tmod_one, bigintGcd_zero]
    have htrim : (([-2, 0, 1] : List ℤ).reverse.dropWhile (· = 0)).reverse = [-2, 0, 1] := by decide
    unfold normalizeFieldPoly
    rw [htrim]
    dsimp only
    rw [hcontent]
    rfl
  have hfield : ∀ (g : F64) (hi : ℚ), g.toRational = some hi → hi = 2 ∨ hi = 3 / 2 →
      ∃ field, Returns (fun fuel => AlgebraicField.newRealRootOver fuel .rational [-2, 0, 1]
        (⟨0x3FF0000000000000#64⟩, g)) field ∧ field.poly = [-2, 0, 1] := by
    intro g hi hg hhi
    obtain ⟨hselects, hunique⟩ := hsqrt hi (by rcases hhi with rfl | rfl <;> norm_num)
    have hspec := (root_identity.1 [-2, 0, 1] (by decide) (by decide) 1 hi (hroot 1 (.inl rfl))
      (hroot hi (.inr hhi))).2 _ g hone hg
    refine ⟨.mk .rational [-2, 0, 1] _ ⟨0x3FF0000000000000#64⟩ g,
      ((hspec.one _ hselects hunique).map fun index =>
        AlgebraicField.mk .rational [-2, 0, 1] index ⟨0x3FF0000000000000#64⟩ g).congr
      fun fuel => ?_, rfl⟩
    rw [AlgebraicField.newRealRootOver, hnormal]
    rfl
  refine ⟨(root_identity.1 [-2, 0, 1] (by decide) (by decide) 1 2 (hroot 1 (.inl rfl))
    (hroot 2 (.inr (.inl rfl)))).1, ?_⟩
  obtain ⟨field, hreturns, hpoly⟩ := hfield _ 2 htwo (.inl rfl)
  obtain ⟨field', hreturns', hpoly'⟩ := hfield _ (3 / 2) hhalf (.inr rfl)
  refine ⟨field, field', hreturns, hreturns', ?_⟩
  refine (root_identity.2 _ _ _ _ _ _ _ _ hreturns hreturns' rfl (hpoly.trans hpoly'.symm)).2.2.mpr
    ⟨√2, ?_, ?_⟩
  · rw [hpoly, SelectsIn, ← F64.toRational_toReal hone, ← F64.toRational_toReal htwo]
    exact (hsqrt 2 (by norm_num)).1
  · rw [hpoly', SelectsIn, ← F64.toRational_toReal hone, ← F64.toRational_toReal hhalf]
    exact (hsqrt (3 / 2) le_rfl).1

end Wqpl
