/-
# Exact powers with a fraction for the exponent

The root of an integer is estimated as a float and looked for among the three
integers at the estimate. Whatever the estimate, a root that is found is one
(`exactNthRootBigint_root`). The largest machine integer has no neighbour above
it: an estimate of 2^63 stops the program (`exactNthRootBigint_eq_none_iff`).

`none` is a panic.
-/
import Wqpl.Arith.Rational

namespace Wqpl

namespace F64

/-- `round() as i64` of a finite float: halves away from zero, and the range of
an `i64` at most. -/
def roundToI64 (f : F64) : ℤ :=
  let x := f.toRational.getD 0
  let rounded := if 0 ≤ x then ⌊x + 1 / 2⌋ else -⌊-x + 1 / 2⌋
  max (-2 ^ 63) (min rounded (2 ^ 63 - 1))

/-- `f > i64::MAX as f64`. -/
def aboveI64 (f : F64) : Bool := f.partialCmp (.ofInt (2 ^ 63 - 1)) = some .gt

/-- The floats with a neighbour that no `i64` holds, at the nearest integer. -/
def AtLimit (f : F64) : Prop := ∃ x, f.toRational = some x ∧ (x = 2 ^ 63 ∨ x ≤ -2 ^ 63)

/-- No float lies close to a bound of `i64` without having passed it. -/
theorem toRational_spacing {f : F64} {x : ℚ} (h : f.toRational = some x)
    (hx : 2 ^ 63 - 2 < |x|) : 2 ^ 63 ≤ |x| := by
  have hfraction : f.fraction < 2 ^ 52 := Nat.mod_lt _ (by norm_num)
  unfold toRational at h
  rw [Option.ite_none_right_eq_some, Option.some.injEq] at h
  obtain ⟨-, h⟩ := h
  -- the magnitude is an integer below 2^53 times a power of two
  obtain ⟨m, e, hm, hmagnitude⟩ : ∃ (m : ℕ) (e : ℤ), m < 2 ^ 53 ∧ |x| = m * 2 ^ e := by
    by_cases hzero : f.exponent = 0
    · refine ⟨f.fraction, -1074, by omega, ?_⟩
      rw [← h, if_pos hzero]
      split_ifs
      · rw [abs_neg, abs_of_nonneg (by positivity)]
      · rw [abs_of_nonneg (by positivity)]
    · refine ⟨2 ^ 52 + f.fraction, f.exponent - 1075, by omega, ?_⟩
      rw [← h, if_neg hzero, Nat.cast_add, Nat.cast_pow, Nat.cast_ofNat]
      split_ifs
      · rw [abs_neg, abs_of_nonneg (by positivity)]
      · rw [abs_of_nonneg (by positivity)]
  rw [hmagnitude] at hx ⊢
  rcases le_or_gt e 10 with he | he
  · -- too small to come close
    exfalso
    have hpow : (2 : ℚ) ^ e ≤ 2 ^ (10 : ℤ) := zpow_le_zpow_right₀ one_le_two he
    have hle : (m : ℚ) ≤ 2 ^ 53 - 1 := by
      have : m ≤ 2 ^ 53 - 1 := by omega
      calc (m : ℚ) ≤ ((2 ^ 53 - 1 : ℕ) : ℚ) := Nat.cast_le.mpr this
        _ = 2 ^ 53 - 1 := by norm_num
    have : (m : ℚ) * 2 ^ e ≤ (2 ^ 53 - 1) * 2 ^ (10 : ℤ) :=
      mul_le_mul hle hpow (by positivity) (by norm_num)
    norm_num at this hx
    linarith
  · -- a multiple of 2^11
    obtain ⟨k, rfl⟩ : ∃ k : ℕ, e = k + 11 := ⟨(e - 11).toNat, by omega⟩
    have hmul : (m : ℚ) * 2 ^ ((k : ℤ) + 11) = ((m * 2 ^ k * 2 ^ 11 : ℕ) : ℚ) := by
      rw [zpow_add₀ two_ne_zero, zpow_natCast]
      push_cast
      ring
    rw [hmul] at hx ⊢
    generalize m * 2 ^ k = l at hx ⊢
    have hl : 2 ^ 63 - 2 < l * 2 ^ 11 := by
      have : ((2 ^ 63 - 2 : ℕ) : ℚ) < (l * 2 ^ 11 : ℕ) := by
        calc ((2 ^ 63 - 2 : ℕ) : ℚ) = 2 ^ 63 - 2 := by norm_num
          _ < _ := hx
      exact Nat.cast_lt.mp this
    have hl : 2 ^ 63 ≤ l * 2 ^ 11 := by omega
    calc (2 ^ 63 : ℚ) = ((2 ^ 63 : ℕ) : ℚ) := by norm_num
      _ ≤ _ := Nat.cast_le.mpr hl

theorem isFinite_of_toRational {f : F64} {x : ℚ} (h : f.toRational = some x) :
    f.isFinite = true := by
  unfold toRational at h
  rw [Option.ite_none_right_eq_some] at h
  exact h.1

theorem aboveI64_eq_false_iff {f : F64} {x : ℚ} (h : f.toRational = some x) :
    f.aboveI64 = false ↔ x ≤ 2 ^ 63 := by
  have hmax : (F64.ofInt (2 ^ 63 - 1)).toRational = some (2 ^ 63) := by
    rw [toRational_normal (by decide) (by decide) (by decide)]
    have hexponent : (F64.ofInt (2 ^ 63 - 1)).exponent = 1086 := by decide
    have hfraction : (F64.ofInt (2 ^ 63 - 1)).fraction = 0 := by decide
    rw [hexponent, hfraction]
    norm_num
  rw [aboveI64, partialCmp_eq h hmax, decide_eq_false_iff_not, Option.some.injEq,
    compare_gt_iff_gt, not_lt]

/-- A float up to 2^63 rounds to a bound of `i64` exactly where it has passed
one. -/
theorem roundToI64_limit_iff {f : F64} {x : ℚ} (h : f.toRational = some x) (hx : x ≤ 2 ^ 63) :
    f.AtLimit ↔ f.roundToI64 = 2 ^ 63 - 1 ∨ f.roundToI64 = -2 ^ 63 := by
  have hlimit : f.AtLimit ↔ x = 2 ^ 63 ∨ x ≤ -2 ^ 63 := by
    unfold AtLimit
    rw [h]
    simp only [Option.some.injEq, exists_eq_left']
  rw [hlimit, roundToI64, h, Option.getD_some]
  by_cases hzero : 0 ≤ x
  · rw [if_pos hzero]
    have hround : 0 ≤ ⌊x + 1 / 2⌋ := Int.floor_nonneg.mpr (by linarith)
    constructor
    · rintro (rfl | hlow)
      · left
        have : (2 ^ 63 : ℤ) ≤ ⌊(2 ^ 63 + 1 / 2 : ℚ)⌋ := Int.le_floor.mpr (by norm_num)
        omega
      · linarith
    · intro hbound
      have hhigh : (2 ^ 63 - 1 : ℤ) ≤ ⌊x + 1 / 2⌋ := by omega
      have hhigh := Int.le_floor.mp hhigh
      push_cast at hhigh
      have hspace := toRational_spacing h (by rw [abs_of_nonneg hzero]; linarith)
      rw [abs_of_nonneg hzero] at hspace
      exact .inl (le_antisymm hx hspace)
  · rw [if_neg hzero]
    rw [not_le] at hzero
    have hround : 0 ≤ ⌊-x + 1 / 2⌋ := Int.floor_nonneg.mpr (by linarith)
    constructor
    · rintro (rfl | hlow)
      · linarith
      · right
        have : (2 ^ 63 : ℤ) ≤ ⌊(-x + 1 / 2 : ℚ)⌋ := Int.le_floor.mpr (by push_cast; linarith)
        omega
    · intro hbound
      have hhigh : (2 ^ 63 : ℤ) ≤ ⌊-x + 1 / 2⌋ := by omega
      have hhigh := Int.le_floor.mp hhigh
      push_cast at hhigh
      have hspace := toRational_spacing h (by rw [abs_of_neg hzero]; linarith)
      rw [abs_of_neg hzero] at hspace
      exact .inr (by linarith)

end F64

section Root

-- `to_f64()?.powf(1.0 / q as f64)`
variable (rootEstimate : ℕ → ℕ → Option F64)

/-- `exact_nth_root_bigint`; it panics where a neighbour overflows. -/
def exactNthRootBigint (n : ℤ) (q : ℕ) : Option (Option ℤ) :=
  if q = 0 then some none
  else if n = 0 ∨ n = 1 then some (some n)
  else if n < 0 ∧ q % 2 = 0 then some none
  else
    match rootEstimate n.natAbs q with
    | none => some none
    | some root =>
      if !root.isFinite || root.aboveI64 then some none
      else do
        let candidate := root.roundToI64
        let below ← i64? (candidate - 1)
        let above ← i64? (candidate + 1)
        let root? := [below.toInt, candidate, above.toInt].find? fun c => 0 ≤ c ∧ c ^ q = |n|
        return root?.map fun root => if n < 0 then -root else root

/-- `from_fraction_parts` with its assertion. -/
def fromNonzeroParts (numer denom : ℤ) : Option Value :=
  if denom = 0 then none else some (.fromFractionParts numer denom)

/-- `exact_rational_fractional_pow`. -/
def exactRationalFractionalPow (baseN baseD expN expD : ℤ) : Option (Option Value) :=
  match u32? expD with
  | none => some none
  | some q =>
    match exactNthRootBigint rootEstimate baseN q with
    | none => none
    | some none => some none
    | some (some rootN) =>
      match exactNthRootBigint rootEstimate baseD q with
      | none => none
      | some none => some none
      | some (some rootD) =>
        match u32? |expN| with
        | none => some none
        | some p =>
          if expN < 0 then (fromNonzeroParts (rootD ^ p) (rootN ^ p)).map some
          else (fromNonzeroParts (rootN ^ p) (rootD ^ p)).map some

variable {rootEstimate} {n : ℤ} {q : ℕ}

/-- The numbers whose root is estimated. -/
def Estimated (n : ℤ) (q : ℕ) : Prop := q ≠ 0 ∧ n ≠ 0 ∧ n ≠ 1 ∧ ¬(n < 0 ∧ q % 2 = 0)

/-- The search around the estimate overflows. -/
def SearchOverflows (rootEstimate : ℕ → ℕ → Option F64) (n : ℤ) (q : ℕ) : Prop :=
  Estimated n q ∧ ∃ f, rootEstimate n.natAbs q = some f ∧ f.AtLimit

/-- The root is an integer, and the estimate is next to it. -/
def EstimatesRoot (rootEstimate : ℕ → ℕ → Option F64) (n : ℤ) (q : ℕ) : Prop :=
  q ≠ 0 ∧ (n = 0 ∨ n = 1) ∨
  Estimated n q ∧ ∃ f x, rootEstimate n.natAbs q = some f ∧ f.toRational = some x ∧ x < 2 ^ 63 ∧
    ∃ c : ℤ, |c - f.roundToI64| ≤ 1 ∧ 0 ≤ c ∧ c ^ q = |n|

/-- The root of a number whose root is not estimated. -/
theorem exactNthRootBigint_of_not_estimated (hn : ¬Estimated n q) :
    exactNthRootBigint rootEstimate n q = if q ≠ 0 ∧ (n = 0 ∨ n = 1) then some (some n)
      else some none := by
  unfold Estimated at hn
  unfold exactNthRootBigint
  by_cases hq : q = 0
  · rw [if_pos hq, if_neg fun h => h.1 hq]
  by_cases hunit : n = 0 ∨ n = 1
  · rw [if_neg hq, if_pos hunit, if_pos ⟨hq, hunit⟩]
  · rw [if_neg hq, if_neg hunit, if_pos (by tauto), if_neg fun h => hunit h.2]

section Estimate

variable (hn : Estimated n q) {f : F64} (hf : rootEstimate n.natAbs q = some f)

include hn in
theorem exactNthRootBigint_of_no_estimate (hf : rootEstimate n.natAbs q = none) :
    exactNthRootBigint rootEstimate n q = some none := by
  obtain ⟨hq, hzero, hone, hsign⟩ := hn
  rw [exactNthRootBigint, if_neg hq, if_neg (by tauto), if_neg hsign, hf]

include hn hf

theorem exactNthRootBigint_of_far (hfar : f.isFinite = false ∨ f.aboveI64 = true) :
    exactNthRootBigint rootEstimate n q = some none := by
  obtain ⟨hq, hzero, hone, hsign⟩ := hn
  rw [exactNthRootBigint, if_neg hq, if_neg (by tauto), if_neg hsign, hf]
  rcases hfar with h | h <;> simp [h]

variable {x : ℚ} (hx : f.toRational = some x)

include hx

theorem exactNthRootBigint_of_atLimit (hle : x ≤ 2 ^ 63) (hlimit : f.AtLimit) :
    exactNthRootBigint rootEstimate n q = none := by
  obtain ⟨hq, hzero, hone, hsign⟩ := hn
  rw [exactNthRootBigint, if_neg hq, if_neg (by tauto), if_neg hsign, hf]
  have hfinite := F64.isFinite_of_toRational hx
  have habove := (F64.aboveI64_eq_false_iff hx).mpr hle
  simp only [hfinite, habove, Bool.not_true, Bool.or_self, Bool.false_eq_true, if_false]
  rcases (F64.roundToI64_limit_iff hx hle).mp hlimit with h | h
  · have habove : i64? (f.roundToI64 + 1) = none := if_neg (by rw [h]; decide)
    rw [habove]
    cases i64? (f.roundToI64 - 1) <;> rfl
  · have hbelow : i64? (f.roundToI64 - 1) = none := if_neg (by rw [h]; decide)
    rw [hbelow]
    rfl

theorem exactNthRootBigint_of_near (hle : x ≤ 2 ^ 63) (hlimit : ¬f.AtLimit) :
    exactNthRootBigint rootEstimate n q =
      some (([f.roundToI64 - 1, f.roundToI64, f.roundToI64 + 1].find? fun c =>
        0 ≤ c ∧ c ^ q = |n|).map fun root => if n < 0 then -root else root) := by
  obtain ⟨hq, hzero, hone, hsign⟩ := hn
  rw [exactNthRootBigint, if_neg hq, if_neg (by tauto), if_neg hsign, hf]
  have hfinite := F64.isFinite_of_toRational hx
  have habove := (F64.aboveI64_eq_false_iff hx).mpr hle
  simp only [hfinite, habove, Bool.not_true, Bool.or_self, Bool.false_eq_true, if_false]
  rw [F64.roundToI64_limit_iff hx hle] at hlimit
  have hrange : -2 ^ 63 ≤ f.roundToI64 ∧ f.roundToI64 ≤ 2 ^ 63 - 1 := by
    unfold F64.roundToI64
    dsimp only
    omega
  have hbelow : i64? (f.roundToI64 - 1) = some (Int64.ofInt (f.roundToI64 - 1)) :=
    if_pos ⟨by omega, by omega⟩
  have habove : i64? (f.roundToI64 + 1) = some (Int64.ofInt (f.roundToI64 + 1)) :=
    if_pos ⟨by omega, by omega⟩
  rw [hbelow, habove]
  simp only [Option.bind_eq_bind, Option.bind_some]
  rw [i64?_some_iff.mp hbelow, i64?_some_iff.mp habove]
  rfl

end Estimate

/-- The search finds nothing, overflows or looks at three integers. -/
theorem estimate_cases (rootEstimate : ℕ → ℕ → Option F64) (n : ℤ) (q : ℕ) :
    rootEstimate n.natAbs q = none ∨
      ∃ f, rootEstimate n.natAbs q = some f ∧
        ((f.isFinite = false ∨ f.aboveI64 = true) ∨
          ∃ x, f.toRational = some x ∧ x ≤ 2 ^ 63 ∧ (f.AtLimit ∨ ¬f.AtLimit)) := by
  rcases hf : rootEstimate n.natAbs q with - | f
  · exact .inl rfl
  · refine .inr ⟨f, rfl, ?_⟩
    rcases hx : f.toRational with - | x
    · have hfinite : f.isFinite = false := by
        unfold F64.toRational at hx
        split_ifs at hx with h
        simpa using h
      exact .inl (.inl hfinite)
    · rcases hle : f.aboveI64 with - | -
      · exact .inr ⟨x, rfl, (F64.aboveI64_eq_false_iff hx).mp hle, em _⟩
      · exact .inl (.inr rfl)

/-- The search overflows exactly where the estimate is at a limit. -/
theorem exactNthRootBigint_eq_none_iff :
    exactNthRootBigint rootEstimate n q = none ↔ SearchOverflows rootEstimate n q := by
  by_cases hn : Estimated n q
  · have hiff : SearchOverflows rootEstimate n q ↔
        ∃ f, rootEstimate n.natAbs q = some f ∧ f.AtLimit := and_iff_right hn
    rw [hiff]
    obtain hnone | ⟨f, hf, hcases⟩ := estimate_cases rootEstimate n q
    · rw [exactNthRootBigint_of_no_estimate hn hnone, hnone]
      simp
    · simp only [hf, Option.some.injEq, exists_eq_left']
      obtain hfar | ⟨x, hx, hle, hlimit | hlimit⟩ := hcases
      · rw [exactNthRootBigint_of_far hn hf hfar]
        refine iff_of_false (by simp) ?_
        rintro ⟨x, hx, hbound⟩
        have hle : x ≤ 2 ^ 63 := by
          rcases hbound with rfl | hbound
          · exact le_rfl
          · linarith
        have hfinite := F64.isFinite_of_toRational hx
        have habove := (F64.aboveI64_eq_false_iff hx).mpr hle
        simp [hfinite, habove] at hfar
      · exact iff_of_true (exactNthRootBigint_of_atLimit hn hf hx hle hlimit) hlimit
      · rw [exactNthRootBigint_of_near hn hf hx hle hlimit]
        exact iff_of_false (by simp) hlimit
  · rw [exactNthRootBigint_of_not_estimated hn]
    refine iff_of_false ?_ fun h => hn h.1
    split_ifs <;> simp

/-- A root that is found is one, whatever the estimate. -/
theorem exactNthRootBigint_root {r : ℤ}
    (h : exactNthRootBigint rootEstimate n q = some (some r)) : q ≠ 0 ∧ r ^ q = n := by
  by_cases hn : Estimated n q
  · refine ⟨hn.1, ?_⟩
    obtain hnone | ⟨f, hf, hfar | ⟨x, hx, hle, hlimit | hlimit⟩⟩ := estimate_cases rootEstimate n q
    · rw [exactNthRootBigint_of_no_estimate hn hnone] at h
      cases h
    · rw [exactNthRootBigint_of_far hn hf hfar] at h
      cases h
    · rw [exactNthRootBigint_of_atLimit hn hf hx hle hlimit] at h
      cases h
    · rw [exactNthRootBigint_of_near hn hf hx hle hlimit, Option.some.injEq,
        Option.map_eq_some_iff] at h
      obtain ⟨root, hfind, rfl⟩ := h
      have hroot : 0 ≤ root ∧ root ^ q = |n| := by simpa using List.find?_some hfind
      by_cases hneg : n < 0
      · -- the root of a negative number is an odd one
        have hodd : Odd q := Nat.odd_iff.mpr (by have := hn.2.2.2; omega)
        rw [if_pos hneg, hodd.neg_pow, hroot.2, abs_of_neg hneg, neg_neg]
      · rw [if_neg hneg, hroot.2, abs_of_nonneg (not_lt.mp hneg)]
  · rw [exactNthRootBigint_of_not_estimated hn] at h
    split_ifs at h with hunit
    · obtain ⟨hq, hunit⟩ := hunit
      obtain rfl := Option.some.inj (Option.some.inj h)
      refine ⟨hq, ?_⟩
      rcases hunit with rfl | rfl
      · exact zero_pow hq
      · exact one_pow q
    · cases h

/-- The roots that are found are those next to the estimate. -/
theorem exactNthRootBigint_isSome_iff :
    (∃ r, exactNthRootBigint rootEstimate n q = some (some r)) ↔
      EstimatesRoot rootEstimate n q := by
  by_cases hn : Estimated n q
  · have hiff : EstimatesRoot rootEstimate n q ↔
        ∃ f x, rootEstimate n.natAbs q = some f ∧ f.toRational = some x ∧ x < 2 ^ 63 ∧
          ∃ c : ℤ, |c - f.roundToI64| ≤ 1 ∧ 0 ≤ c ∧ c ^ q = |n| := by
      unfold EstimatesRoot
      refine ⟨fun h => ?_, fun h => .inr ⟨hn, h⟩⟩
      rcases h with ⟨-, h⟩ | ⟨-, h⟩
      · exact absurd h (by have := hn.2; tauto)
      · exact h
    rw [hiff]
    obtain hnone | ⟨f, hf, hcases⟩ := estimate_cases rootEstimate n q
    · rw [exactNthRootBigint_of_no_estimate hn hnone, hnone]
      simp
    · simp only [hf, Option.some.injEq, exists_and_left, exists_eq_left']
      obtain hfar | ⟨x, hx, hle, hlimit | hlimit⟩ := hcases
      · rw [exactNthRootBigint_of_far hn hf hfar]
        refine iff_of_false (by simp) ?_
        rintro ⟨x, hx, hlt, -⟩
        have hfinite := F64.isFinite_of_toRational hx
        have habove := (F64.aboveI64_eq_false_iff hx).mpr hlt.le
        simp [hfinite, habove] at hfar
      · rw [exactNthRootBigint_of_atLimit hn hf hx hle hlimit]
        refine iff_of_false (by simp) ?_
        rintro ⟨y, hy, hlt, c, hnear, hpos, -⟩
        obtain rfl := Option.some.inj (hx.symm.trans hy)
        rw [abs_le] at hnear
        obtain ⟨z, hz, hbound⟩ := hlimit
        obtain rfl := Option.some.inj (hx.symm.trans hz)
        have hneg : ¬0 ≤ x := by rcases hbound with rfl | hbound <;> linarith
        have hround : f.roundToI64 ≤ 0 := by
          have := Int.floor_nonneg.mpr (show (0 : ℚ) ≤ -x + 1 / 2 by linarith)
          rw [F64.roundToI64, hx, Option.getD_some, if_neg hneg]
          omega
        have := (F64.roundToI64_limit_iff hx hle).mp ⟨x, hx, hbound⟩
        omega
      · rw [exactNthRootBigint_of_near hn hf hx hle hlimit]
        have hlt : x < 2 ^ 63 := lt_of_le_of_ne hle fun h => hlimit ⟨x, hx, .inl h⟩
        simp only [Option.some.injEq, Option.map_eq_some_iff]
        constructor
        · rintro ⟨r, c, hfind, -⟩
          have hroot : 0 ≤ c ∧ c ^ q = |n| := by simpa using List.find?_some hfind
          have hmem := List.mem_of_find?_eq_some hfind
          simp only [List.mem_cons, List.not_mem_nil, or_false] at hmem
          exact ⟨x, hx, hlt, c, abs_le.mpr (by omega), hroot⟩
        · rintro ⟨y, -, -, c, hnear, hroot⟩
          rw [abs_le] at hnear
          have hfind : ([f.roundToI64 - 1, f.roundToI64, f.roundToI64 + 1].find? fun c =>
              decide (0 ≤ c ∧ c ^ q = |n|)).isSome := by
            rw [List.find?_isSome]
            refine ⟨c, ?_, decide_eq_true hroot⟩
            simp only [List.mem_cons, List.not_mem_nil, or_false]
            omega
          obtain ⟨root, hroot⟩ := Option.isSome_iff_exists.mp hfind
          exact ⟨_, root, hroot, rfl⟩
  · rw [exactNthRootBigint_of_not_estimated hn]
    unfold EstimatesRoot
    simp only [hn, false_and, or_false]
    split_ifs with hunit
    · exact iff_of_true ⟨n, rfl⟩ hunit
    · exact iff_of_false (by simp) hunit

variable {b e : ℚ}

/-- The power is taken without overflow, and a value of it has the right power. -/
def PowerExact (rootEstimate : ℕ → ℕ → Option F64) (b e : ℚ) : Prop :=
  ∃ out, exactRationalFractionalPow rootEstimate b.num b.den e.num e.den = some out ∧
    ∀ v, out = some v → ∃ r : ℚ, v.Is r ∧ r ^ e.den = b ^ e.num

theorem u32?_natCast (n : ℕ) : u32? n = if n < 2 ^ 32 then some n else none := by
  unfold u32?
  by_cases hn : n < 2 ^ 32
  · rw [if_pos hn, if_pos ⟨Int.natCast_nonneg n, by exact_mod_cast hn⟩, Int.toNat_natCast]
  · rw [if_neg hn, if_neg fun h => hn (by exact_mod_cast h.2)]

/-- The power of the roots of a fraction's parts. -/
theorem root_zpow {rootN rootD : ℤ} (hn : rootN ^ q = b.num) (hd : rootD ^ q = b.den) (p : ℤ) :
    (((rootN : ℚ) / rootD) ^ p) ^ q = b ^ p := by
  have hroot : ((rootN : ℚ) / rootD) ^ q = b := by
    rw [div_pow]
    calc (rootN : ℚ) ^ q / rootD ^ q = ((rootN ^ q : ℤ) : ℚ) / (rootD ^ q : ℤ) := by push_cast; rfl
      _ = b.num / b.den := by rw [hn, hd, Int.cast_natCast]
      _ = b := Rat.num_div_den b
  rw [← zpow_natCast, ← zpow_mul, mul_comm, zpow_mul, zpow_natCast, hroot]

/-- The parts of the power, of which the denominator is not zero. -/
theorem fromNonzeroParts_power {rootN rootD : ℤ} (hn : rootN ^ e.den = b.num)
    (hd : rootD ^ e.den = b.den) (hzero : b = 0 → 0 ≤ e.num) {p : ℕ} (hp : (p : ℤ) = |e.num|) :
    ∃ v, (if e.num < 0 then (fromNonzeroParts (rootD ^ p) (rootN ^ p)).map some
        else (fromNonzeroParts (rootN ^ p) (rootD ^ p)).map some) = some (some v) ∧
      ∃ r : ℚ, v.Is r ∧ r ^ e.den = b ^ e.num := by
  have hrootD : rootD ≠ 0 := by
    rintro rfl
    rw [zero_pow e.den_nz] at hd
    exact b.den_nz (by exact_mod_cast hd.symm)
  have hpow := root_zpow hn hd e.num
  by_cases hneg : e.num < 0
  · have hrootN : rootN ≠ 0 := by
      rintro rfl
      rw [zero_pow e.den_nz] at hn
      have := hzero (Rat.num_eq_zero.mp hn.symm)
      omega
    rw [abs_of_neg hneg] at hp
    have hexp : e.num = -(p : ℤ) := by omega
    rw [if_pos hneg, fromNonzeroParts, if_neg (pow_ne_zero p hrootN)]
    refine ⟨_, rfl, _, Value.is_fromFractionParts _ _, ?_⟩
    rw [← hpow, hexp, zpow_neg, ← inv_zpow, inv_div, zpow_natCast, Int.cast_pow, Int.cast_pow,
      ← div_pow]
  · rw [abs_of_nonneg (not_lt.mp hneg)] at hp
    rw [if_neg hneg, fromNonzeroParts, if_neg (pow_ne_zero p hrootD)]
    refine ⟨_, rfl, _, Value.is_fromFractionParts _ _, ?_⟩
    rw [← hpow, ← hp, zpow_natCast, Int.cast_pow, Int.cast_pow, ← div_pow]

theorem exactRationalFractionalPow_of_none {baseN baseD expN expD : ℤ} (h : u32? expD = none) :
    exactRationalFractionalPow rootEstimate baseN baseD expN expD = some none := by
  rw [exactRationalFractionalPow, h]

theorem exactRationalFractionalPow_of_some {baseN baseD expN expD : ℤ} (h : u32? expD = some q) :
    exactRationalFractionalPow rootEstimate baseN baseD expN expD =
      match exactNthRootBigint rootEstimate baseN q with
      | none => none
      | some none => some none
      | some (some rootN) =>
        match exactNthRootBigint rootEstimate baseD q with
        | none => none
        | some none => some none
        | some (some rootD) =>
          match u32? |expN| with
          | none => some none
          | some p =>
            if expN < 0 then (fromNonzeroParts (rootD ^ p) (rootN ^ p)).map some
            else (fromNonzeroParts (rootN ^ p) (rootD ^ p)).map some := by
  rw [exactRationalFractionalPow, h]

/-- **Exact powers.** Whatever the estimate of the roots, a value that is returned
is the exact power; the search overflows exactly where the estimate of the
numerator's root is at a limit, or that of the denominator's where the numerator
has a root. -/
theorem powerExact_iff (hzero : b = 0 → 0 ≤ e.num) :
    PowerExact rootEstimate b e ↔ (e.den < 2 ^ 32 →
      ¬SearchOverflows rootEstimate b.num e.den ∧
      (EstimatesRoot rootEstimate b.num e.den → ¬SearchOverflows rootEstimate b.den e.den)) := by
  rw [← exactNthRootBigint_eq_none_iff, ← exactNthRootBigint_eq_none_iff,
    ← exactNthRootBigint_isSome_iff]
  have hu32 := u32?_natCast e.den
  unfold PowerExact
  by_cases hden : e.den < 2 ^ 32
  · rw [if_pos hden] at hu32
    rw [exactRationalFractionalPow_of_some hu32]
    simp only [hden, true_imp_iff]
    rcases hrootN : exactNthRootBigint rootEstimate b.num e.den with - | - | rootN
    · have hpanic : ¬∃ out : Option Value, none = some out ∧
          ∀ v, out = some v → ∃ r : ℚ, v.Is r ∧ r ^ e.den = b ^ e.num := by simp
      exact iff_of_false hpanic fun h => h.1 rfl
    · exact iff_of_true ⟨none, rfl, by simp⟩ ⟨by simp, by simp⟩
    rcases hrootD : exactNthRootBigint rootEstimate b.den e.den with - | - | rootD
    · exact iff_of_false (by simp) fun h => h.2 ⟨rootN, rfl⟩ rfl
    · exact iff_of_true ⟨none, rfl, by simp⟩ ⟨by simp, by simp⟩
    refine iff_of_true ?_ ⟨by simp, by simp⟩
    dsimp only
    rcases hp : u32? |e.num| with - | p
    · exact ⟨none, rfl, by simp⟩
    · have hp : (p : ℤ) = |e.num| := by
        unfold u32? at hp
        split_ifs at hp with hrange
        obtain rfl := Option.some.inj hp
        exact Int.toNat_of_nonneg hrange.1
      obtain ⟨v, hv, hexact⟩ := fromNonzeroParts_power (exactNthRootBigint_root hrootN).2
        (exactNthRootBigint_root hrootD).2 hzero hp
      refine ⟨some v, hv, ?_⟩
      rintro w hw
      obtain rfl := Option.some.inj hw
      exact hexact
  · rw [if_neg hden] at hu32
    rw [exactRationalFractionalPow_of_none hu32]
    exact iff_of_true ⟨none, rfl, by simp⟩ fun h => absurd h hden

/-- The root of 8/27 is found next to its estimates. -/
theorem powerExact_eight_twentySevenths :
    PowerExact (fun n _ => some (.ofInt (if n = 8 then 2 else 3))) (8 / 27) (-2 / 3) :=
  (powerExact_iff (by norm_num)).mpr fun _ => by
    have htwo : (F64.ofInt 2).toRational = some 2 := by
      rw [F64.toRational_normal (by decide) (by decide) (by decide),
        show (F64.ofInt 2).exponent = 1024 by decide, show (F64.ofInt 2).fraction = 0 by decide]
      norm_num
    have hthree : (F64.ofInt 3).toRational = some 3 := by
      rw [F64.toRational_normal (by decide) (by decide) (by decide),
        show (F64.ofInt 3).exponent = 1024 by decide, show (F64.ofInt 3).fraction = 2 ^ 51 by decide]
      norm_num
    have hnum : (8 / 27 : ℚ).num = 8 := by norm_num
    have hden : (8 / 27 : ℚ).den = 27 := by norm_num
    rw [hnum, hden]
    refine ⟨?_, fun _ => ?_⟩
    · rintro ⟨-, f, hf, x, hx, hbound⟩
      obtain rfl : F64.ofInt 2 = f := Option.some.inj hf
      obtain rfl := Option.some.inj (htwo.symm.trans hx)
      norm_num at hbound
    · rintro ⟨-, f, hf, x, hx, hbound⟩
      obtain rfl : F64.ofInt 3 = f := Option.some.inj hf
      obtain rfl := Option.some.inj (hthree.symm.trans hx)
      norm_num at hbound

/-- The square root of 2^126 is estimated at 2^63, and the search overflows. -/
theorem powerExact_pow126 :
    ¬PowerExact (fun n q => if n = 2 ^ 126 ∧ q = 2 then some (.ofInt (2 ^ 63)) else none)
      (2 ^ 126) (1 / 2) := by
  have hlimit : (F64.ofInt (2 ^ 63)).AtLimit := by
    refine ⟨2 ^ 63, ?_, .inl rfl⟩
    rw [F64.toRational_normal (by decide) (by decide) (by decide),
      show (F64.ofInt (2 ^ 63)).exponent = 1086 by decide,
      show (F64.ofInt (2 ^ 63)).fraction = 0 by decide]
    norm_num
  have hnum : (2 ^ 126 : ℚ).num = 2 ^ 126 := by norm_num
  have hden : (1 / 2 : ℚ).den = 2 := by norm_num
  unfold PowerExact
  rw [hnum, hden, exactRationalFractionalPow_of_some (q := 2) (by decide),
    exactNthRootBigint_eq_none_iff.mpr ⟨by unfold Estimated; decide, _, if_pos (by decide), hlimit⟩]
  simp

end Root

end Wqpl
