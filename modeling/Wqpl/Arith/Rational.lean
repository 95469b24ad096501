/-
# Exact rational arithmetic

The operations on two rationals, one of them a fraction. Sums, differences,
products, quotients and powers leave a fraction in lowest terms, also when its
denominator is one; only the exact quotient makes an integer of such a
fraction. So two results that denote the same number may differ, an integer and
a fraction, and then `==` tells them apart while they compare as equal.
-/
import Wqpl.Algebraic.FieldRoot
import Wqpl.Arith.FloorDivision
import Wqpl.Compare
import Wqpl.Hash

namespace Wqpl

/-! ### The parts of a fraction -/

/-- `gcd_bigint`. -/
def gcdBigint (a b : ℤ) : ℤ := bigintGcd |a| |b|

/-- The numerator and denominator of `raw_from_fraction_parts_ref`. -/
def rawFromFractionPartsRef (numer denom : ℤ) : ℤ × ℤ :=
  if numer = 0 then (0, 1)
  else
    let g := gcdBigint numer denom
    let numer := numer.tdiv g
    let denom := denom.tdiv g
    if denom < 0 then (-numer, -denom) else (numer, denom)

theorem bigintGcd_eq_gcd {a b : ℤ} (ha : 0 ≤ a) (hb : 0 ≤ b) : bigintGcd a b = Int.gcd a b := by
  fun_induction bigintGcd a b with
  | case1 a => rw [Int.gcd_zero_right, Int.natAbs_of_nonneg ha]
  | case2 a b hne ih =>
    have hmod : a.tmod b = a % b := Int.tmod_eq_emod_of_nonneg ha
    rw [ih hb (by rw [hmod]; exact Int.emod_nonneg a hne), hmod, Int.gcd_comm, Int.gcd_emod]

theorem gcdBigint_eq (a b : ℤ) : gcdBigint a b = Int.gcd a b := by
  rw [gcdBigint, bigintGcd_eq_gcd (abs_nonneg a) (abs_nonneg b), Int.gcd_eq_natAbs,
    Int.natAbs_abs, Int.natAbs_abs, Int.gcd_eq_natAbs]

/-- **Fractions.** The parts of a fraction are those of the rational number in
lowest terms, with a positive denominator. -/
theorem rawFromFractionPartsRef_eq (numer : ℤ) {denom : ℤ} (hd : denom ≠ 0) :
    rawFromFractionPartsRef numer denom =
      ((Rat.divInt numer denom).num, ((Rat.divInt numer denom).den : ℤ)) := by
  rw [Rat.num_divInt, Rat.den_divInt, if_neg hd]
  unfold rawFromFractionPartsRef
  split
  · rename_i hn
    rw [hn, mul_zero, Int.gcd_zero_right, Int.zero_ediv,
      Nat.div_self (Int.natAbs_pos.mpr hd), Nat.cast_one]
  · rename_i hn
    have hg : (Int.gcd numer denom : ℤ) ≠ 0 := by
      exact_mod_cast (Int.gcd_pos_of_ne_zero_left denom hn).ne'
    obtain ⟨n, hnum⟩ := Int.gcd_dvd_left numer denom
    obtain ⟨d, hden⟩ := Int.gcd_dvd_right numer denom
    have hd' : d ≠ 0 := by
      rintro rfl
      exact hd (by rw [hden, mul_zero])
    dsimp only
    rw [gcdBigint_eq, Int.gcd_comm denom]
    generalize Int.gcd numer denom = g at hnum hden hg ⊢
    have hgpos : 0 < (g : ℤ) := by omega
    rw [hnum, hden, Int.mul_tdiv_cancel_left _ hg, Int.mul_tdiv_cancel_left _ hg, Int.sign_mul,
      Int.sign_eq_one_of_pos hgpos, one_mul, mul_left_comm, Int.mul_ediv_cancel_left _ hg,
      Int.natAbs_mul, Int.natAbs_natCast, Nat.mul_div_cancel_left _ (by omega)]
    rcases lt_or_gt_of_ne hd' with hneg | hpos
    · rw [if_pos hneg, Int.sign_eq_neg_one_of_neg hneg, Int.ofNat_natAbs_of_nonpos hneg.le,
        neg_one_mul]
    · rw [if_neg (not_lt.mpr hpos.le), Int.sign_eq_one_of_pos hpos,
        Int.natAbs_of_nonneg hpos.le, one_mul]

/-! ### The operations on fractions -/

/-- The power of a rational, the base or the exponent a fraction. -/
def fractionPower (p : ℚ) (exp : ℤ) : WqResult Value :=
  if exp < 0 ∧ p.num = 0 then .error .zeroDiv
  else
    match u32? |exp| with
    | none => .error .domain
    | some k =>
      .ok (if exp < 0 then .fromFractionParts (p.den ^ k) (p.num ^ k)
        else .fromFractionParts (p.num ^ k) (p.den ^ k))

/-- The operations on two rationals, one of them a fraction; a power only with
an exponent that is an integer. -/
def rationalOp (op : BinaryOperator) (p q : ℚ) : Option (WqResult Value) :=
  match op with
  | .divide =>
    some (if q.num = 0 then .error .zeroDiv
      else .ok (.fromFractionParts (p.num * q.den) (p.den * q.num)))
  | .power | .powerDot => if q.den = 1 then some (fractionPower p q.num) else none
  | op => fractionOp op p q

/-- The operations `numbers`, with fractions as they are computed. -/
def NumberOps.withRationals (numbers : NumberOps) : NumberOps :=
  { numbers with
    otherBinary := fun op a b =>
      match a.rationalParts, b.rationalParts with
      | some p, some q => (rationalOp op p q).getD (numbers.otherBinary op a b)
      | _, _ => numbers.otherBinary op a b }

/-- The operators that keep exact numbers exact, at least sometimes. -/
inductive ExactOp
  | add | subtract | multiply | divide | divideDot | power | powerDot
deriving DecidableEq, Repr

namespace ExactOp

def arith : ExactOp → ArithOp
  | add => .add
  | subtract => .subtract
  | multiply => .multiply
  | divide => .divide
  | divideDot => .divideDot
  | power => .power
  | powerDot => .powerDot

def binary : ExactOp → BinaryOperator
  | add => .add
  | subtract => .subtract
  | multiply => .multiply
  | divide => .divide
  | divideDot => .divideDot
  | power => .power
  | powerDot => .powerDot

def IsPower : ExactOp → Prop
  | power | powerDot => True
  | _ => False

/-- The number that the operation is about. -/
def value : ExactOp → ℚ → ℚ → ℚ
  | add, p, q => p + q
  | subtract, p, q => p - q
  | multiply, p, q => p * q
  | divide, p, q | divideDot, p, q => p / q
  | power, p, q | powerDot, p, q => p ^ q.num

/-- Whether an exact result is kept as a fraction, be it an integer or not. -/
def KeepsFraction (op : ExactOp) (a b : Value) : Prop :=
  match op with
  | add | subtract | multiply | power => a.isFraction = true ∨ b.isFraction = true
  | divide => True
  | divideDot => False
  | powerDot => a.isFraction = true ∨ b.isFraction = true ∨ b.rat < 0

end ExactOp

/-- A computation with a value that is the number, as a fraction or not. -/
def Computes (c : Checked Value) (q : ℚ) (fraction : Prop) : Prop :=
  ∀ r, c.run = some (.ok r) → r.rationalParts.isSome = true →
    r.Is q ∧ (r.isFraction = true ↔ fraction)

section Computes

variable {q : ℚ} {fraction : Prop} {v : Value}

theorem computes_pure (h : v.Is q) (hv : v.isFraction = true ↔ fraction) :
    Computes (pure v) q fraction := by
  rintro r hr -
  cases hr
  exact ⟨h, hv⟩

theorem Computes.congr {c : Checked Value} {q' : ℚ} {fraction' : Prop}
    (h : Computes c q fraction) (hq : q = q') (hf : fraction ↔ fraction') :
    Computes c q' fraction' := by
  rintro r hr hexact
  obtain ⟨hvalue, hkind⟩ := h r hr hexact
  exact ⟨hq ▸ hvalue, hkind.trans hf⟩

theorem computes_throw (e : WqErrorType) : Computes (throw e) q fraction := nofun

/-- A float is not exact. -/
theorem computes_float (f : F64) : Computes (pure (.float f)) q fraction := by
  rintro r hr hexact
  cases hr
  cases hexact

theorem computes_bind {α : Type} {c : Checked α} {f : α → Checked Value}
    (h : ∀ a, c.run = some (.ok a) → Computes (f a) q fraction) :
    Computes (c >>= f) q fraction := by
  intro v hv
  rw [ExceptT.run_bind] at hv
  cases hc : c.run with
  | none =>
    rw [hc] at hv
    cases hv
  | some r =>
    rw [hc] at hv
    cases r with
    | error e => cases hv
    | ok a => exact h a hc v hv

theorem computes_ite {p : Prop} [Decidable p] {c d : Checked Value}
    (hc : p → Computes c q fraction) (hd : ¬p → Computes d q fraction) :
    Computes (if p then c else d) q fraction := by
  split
  · exact hc ‹_›
  · exact hd ‹_›

theorem isFraction_fromBigint (n : ℤ) : (Value.fromBigint n).isFraction = false := by
  rw [Value.fromBigint]
  split <;> rfl

theorem isFraction_ofChecked (n : ℤ) : (Value.ofChecked n).isFraction = false := by
  rw [Value.ofChecked]
  split
  · rfl
  · exact isFraction_fromBigint n

theorem computes_fromBigint {n : ℤ} (hn : (n : ℚ) = q) (hf : ¬fraction) :
    Computes (pure (.fromBigint n)) q fraction :=
  computes_pure (hn ▸ Value.is_fromBigint n) (by simp [isFraction_fromBigint, hf])

theorem computes_ofChecked {n : ℤ} (hn : (n : ℚ) = q) (hf : ¬fraction) :
    Computes (pure (.ofChecked n)) q fraction :=
  computes_pure (hn ▸ Value.is_ofChecked n) (by simp [isFraction_ofChecked, hf])

/-- An integer, where an integer is not kept as a fraction. -/
theorem computes_fromBigint_of (h : ∀ n : ℤ, (n : ℚ) = q → ¬fraction) (n : ℤ) (hn : (n : ℚ) = q) :
    Computes (pure (.fromBigint n)) q fraction := computes_fromBigint hn (h n hn)

theorem computes_ofChecked_of (h : ∀ n : ℤ, (n : ℚ) = q → ¬fraction) (n : ℤ) (hn : (n : ℚ) = q) :
    Computes (pure (.ofChecked n)) q fraction := computes_ofChecked hn (h n hn)

theorem computes_fromFractionParts {n d : ℤ} (hn : (n / d : ℚ) = q) (hf : fraction) :
    Computes (pure (.fromFractionParts n d)) q fraction :=
  computes_pure (hn ▸ Value.is_fromFractionParts n d) (iff_of_true rfl hf)

end Computes

section Operations

variable (numbers : NumberOps) {a b : Value} {p q : ℚ}

theorem otherBinary_withRationals (op : BinaryOperator) {r : WqResult Value} (ha : a.Is p)
    (hb : b.Is q) (h : rationalOp op p q = some r) :
    numbers.withRationals.otherBinary op a b = r := by
  show (match a.rationalParts, b.rationalParts with
    | some p, some q => (rationalOp op p q).getD (numbers.otherBinary op a b)
    | _, _ => numbers.otherBinary op a b) = r
  rw [show a.rationalParts = some p from ha, show b.rationalParts = some q from hb]
  simp only [h, Option.getD_some]

theorem fractionPower_computes {n : ℤ} {fraction : Prop} (hq : q.num = n) (hf : fraction) :
    Computes (.ofResult (fractionPower p q.num)) (p ^ n) fraction := by
  have hp : (p.num : ℚ) / p.den = p := Rat.num_div_den p
  rw [fractionPower, hq]
  by_cases hzero : n < 0 ∧ p.num = 0
  · rw [if_pos hzero]
    exact nofun
  rw [if_neg hzero]
  cases hk : u32? |n| with
  | none => exact nofun
  | some k =>
    have hn : |n| = k := by
      unfold u32? at hk
      split at hk
      · obtain rfl := Option.some.inj hk
        omega
      · cases hk
    dsimp only
    by_cases hneg : n < 0
    · have hnk : n = -(k : ℤ) := by rw [← hn, abs_of_neg hneg, neg_neg]
      rw [if_pos hneg]
      refine computes_fromFractionParts ?_ hf
      push_cast
      rw [hnk, zpow_neg, zpow_natCast, ← div_pow, ← inv_div, hp, inv_pow]
    · have hnk : n = k := by rw [← hn, abs_of_nonneg (not_lt.mp hneg)]
      rw [if_neg hneg]
      refine computes_fromFractionParts ?_ hf
      push_cast
      rw [hnk, zpow_natCast, ← div_pow, hp]

/-- An operation that reaches the arithmetic of fractions. -/
theorem rationalOp_computes {op : ExactOp} (ha : a.Is p) (hb : b.Is q)
    (hfraction : a.isFraction = true ∨ b.isFraction = true) (hpow : op.IsPower → q.den = 1) :
    Computes (.ofResult (numbers.withRationals.otherBinary op.binary a b)) (op.value p q)
      (op.KeepsFraction a b ∨ (op.value p q).den ≠ 1) := by
  have hp : (p.num : ℚ) = p * p.den := (Rat.mul_den_eq_num p).symm
  have hq : (q.num : ℚ) = q * q.den := (Rat.mul_den_eq_num q).symm
  have hpd : (p.den : ℚ) ≠ 0 := Nat.cast_ne_zero.mpr p.den_nz
  have hqd : (q.den : ℚ) ≠ 0 := Nat.cast_ne_zero.mpr q.den_nz
  cases op
  case add =>
    rw [ExactOp.binary, otherBinary_withRationals numbers _ ha hb rfl]
    refine computes_fromFractionParts ?_ (.inl hfraction)
    push_cast
    rw [hp, hq, ExactOp.value]
    field_simp
  case subtract =>
    rw [ExactOp.binary, otherBinary_withRationals numbers _ ha hb rfl]
    refine computes_fromFractionParts ?_ (.inl hfraction)
    push_cast
    rw [hp, hq, ExactOp.value]
    field_simp
  case multiply =>
    rw [ExactOp.binary, otherBinary_withRationals numbers _ ha hb rfl]
    refine computes_fromFractionParts ?_ (.inl hfraction)
    push_cast
    rw [hp, hq, ExactOp.value]
    field_simp
  case divide =>
    rw [ExactOp.binary, otherBinary_withRationals numbers _ ha hb rfl]
    split
    · exact nofun
    · rename_i hzero
      have hne : q ≠ 0 := mt Rat.num_eq_zero.mpr hzero
      refine computes_fromFractionParts ?_ (.inl trivial)
      push_cast
      rw [hp, hq, ExactOp.value]
      field_simp
  case divideDot =>
    rw [ExactOp.binary, otherBinary_withRationals numbers .divideDot ha hb
      (r := if q.num = 0 then .error .zeroDiv
        else if (p.num * q.den).tmod (p.den * q.num) = 0 then
          .ok (.fromBigint ((p.num * q.den).tdiv (p.den * q.num)))
        else .ok (.fromFractionParts (p.num * q.den) (p.den * q.num)))
      (by
        show fractionOp .divideDot p q = _
        rw [fractionOp]
        split_ifs <;> rfl)]
    by_cases hzero : q.num = 0
    · rw [if_pos hzero]
      exact nofun
    rw [if_neg hzero]
    have hne : q ≠ 0 := mt Rat.num_eq_zero.mpr hzero
    have hvalue : ((p.num * q.den : ℤ) / (p.den * q.num : ℤ) : ℚ) = p / q := by
      push_cast
      rw [hp, hq]
      field_simp
    have hden : (p.den * q.num : ℤ) ≠ 0 :=
      mul_ne_zero (Nat.cast_ne_zero.mpr p.den_nz) hzero
    by_cases hmod : (p.num * q.den).tmod (p.den * q.num) = 0
    · rw [if_pos hmod]
      have hint : ((((p.num * q.den).tdiv (p.den * q.num)) : ℤ) : ℚ) = p / q := by
        rw [← hvalue, eq_div_iff (Int.cast_ne_zero.mpr hden), ← Int.cast_mul,
          Int.tdiv_mul_cancel (Int.dvd_of_tmod_eq_zero hmod)]
      refine computes_fromBigint hint ?_
      rintro (h | h)
      · exact h
      · rw [ExactOp.value, ← hint] at h
        exact h (Rat.den_intCast _)
    · rw [if_neg hmod]
      refine computes_fromFractionParts hvalue (.inr fun hone => hmod ?_)
      rw [ExactOp.value, ← hvalue] at hone
      exact Int.tmod_eq_zero_of_dvd ((Rat.den_div_intCast_eq_one_iff _ _ hden).mp hone)
  case power =>
    have hone : q.den = 1 := hpow trivial
    rw [ExactOp.binary, otherBinary_withRationals numbers .power ha hb (if_pos hone)]
    exact fractionPower_computes rfl (.inl hfraction)
  case powerDot =>
    have hone : q.den = 1 := hpow trivial
    rw [ExactOp.binary, otherBinary_withRationals numbers .powerDot ha hb (if_pos hone)]
    exact fractionPower_computes rfl (.inl (hfraction.elim .inl fun h => .inr (.inl h)))

/-- The sums, differences and products of two integers. -/
theorem ring_computes {op : ExactOp} (hop : op = .add ∨ op = .subtract ∨ op = .multiply)
    (ha : a.Is p) (hb : b.Is q) (hint : a.isFraction = false ∧ b.isFraction = false) :
    Computes (op.arith.eval numbers.withRationals a b) (op.value p q)
      (op.KeepsFraction a b ∨ (op.value p q).den ≠ 1) := by
  obtain ⟨haf, hbf⟩ := hint
  have hkeeps : ∀ n : ℤ, (n : ℚ) = op.value p q →
      ¬(op.KeepsFraction a b ∨ (op.value p q).den ≠ 1) := by
    intro n hn
    rw [← hn, Rat.den_intCast]
    rcases hop with rfl | rfl | rfl <;> simp [ExactOp.KeepsFraction, haf, hbf]
  rcases a <;> simp only [Value.Is, Value.rationalParts, Option.some.injEq, reduceCtorEq] at ha <;>
    rcases b <;> simp only [Value.Is, Value.rationalParts, Option.some.injEq, reduceCtorEq] at hb
  case int.int m n =>
    rcases hop with rfl | rfl | rfl
    · exact computes_ofChecked_of hkeeps (m.toInt + n.toInt) (by simp [ExactOp.value, ← ha, ← hb])
    · exact computes_ofChecked_of hkeeps (m.toInt - n.toInt) (by simp [ExactOp.value, ← ha, ← hb])
    · exact computes_ofChecked_of hkeeps (m.toInt * n.toInt) (by simp [ExactOp.value, ← ha, ← hb])
  case int.bigInt m n =>
    rcases hop with rfl | rfl | rfl
    · exact computes_fromBigint_of hkeeps (m.toInt + n) (by simp [ExactOp.value, ← ha, ← hb])
    · exact computes_fromBigint_of hkeeps (m.toInt - n) (by simp [ExactOp.value, ← ha, ← hb])
    · exact computes_fromBigint_of hkeeps (m.toInt * n) (by simp [ExactOp.value, ← ha, ← hb])
  case bigInt.int m n =>
    rcases hop with rfl | rfl | rfl
    · exact computes_fromBigint_of hkeeps (n.toInt + m)
        (by simp [ExactOp.value, ← ha, ← hb, add_comm])
    · exact computes_fromBigint_of hkeeps (m - n.toInt) (by simp [ExactOp.value, ← ha, ← hb])
    · exact computes_fromBigint_of hkeeps (n.toInt * m)
        (by simp [ExactOp.value, ← ha, ← hb, mul_comm])
  case bigInt.bigInt m n =>
    rcases hop with rfl | rfl | rfl
    · exact computes_fromBigint_of hkeeps (m + n) (by simp [ExactOp.value, ← ha, ← hb])
    · exact computes_fromBigint_of hkeeps (m - n) (by simp [ExactOp.value, ← ha, ← hb])
    · exact computes_fromBigint_of hkeeps (m * n) (by simp [ExactOp.value, ← ha, ← hb])
  all_goals simp [Value.isFraction] at haf hbf

theorem computes_exactQuotient {x y : ℤ} (hy : y ≠ 0) :
    Computes (pure (exactQuotient x y)) (x / y) ((x / y : ℚ).den ≠ 1) := by
  have hiff := Rat.den_div_intCast_eq_one_iff x y hy
  unfold exactQuotient
  by_cases hmod : x.tmod y = 0
  · rw [if_pos hmod]
    have hdvd := Int.dvd_of_tmod_eq_zero hmod
    refine computes_fromBigint ?_ fun h => h (hiff.mpr hdvd)
    rw [eq_div_iff (Int.cast_ne_zero.mpr hy), ← Int.cast_mul, Int.tdiv_mul_cancel hdvd]
  · rw [if_neg hmod]
    exact computes_fromFractionParts rfl fun h => hmod (Int.tmod_eq_zero_of_dvd (hiff.mp h))

theorem toInt_ofInt_tdiv {x y : Int64} (h : ¬(x.toInt = -2 ^ 63 ∧ y.toInt = -1)) :
    (Int64.ofInt (x.toInt.tdiv y.toInt)).toInt = x.toInt.tdiv y.toInt := by
  have hlo := x.le_toInt
  have hhi := x.toInt_lt
  have habs : (x.toInt.tdiv y.toInt).natAbs = x.toInt.natAbs / y.toInt.natAbs := Int.natAbs_tdiv ..
  have hle : x.toInt.natAbs / y.toInt.natAbs ≤ x.toInt.natAbs := Nat.div_le_self _ _
  by_cases hmin : x.toInt = -2 ^ 63
  · have hone : y.toInt ≠ -1 := fun hy => h ⟨hmin, hy⟩
    rcases eq_or_ne y.toInt 1 with hy | hy
    · rw [hy, Int.tdiv_one]
      exact Int64.toInt_ofInt_of_le hlo hhi
    · rcases eq_or_ne y.toInt 0 with hzero | hzero
      · rw [hzero, Int.tdiv_zero]
        rfl
      · have htwo : 2 ≤ y.toInt.natAbs := by omega
        have hhalf : x.toInt.natAbs / y.toInt.natAbs ≤ x.toInt.natAbs / 2 :=
          Nat.div_le_div_left htwo (by decide)
        exact Int64.toInt_ofInt_of_le (by omega) (by omega)
  · exact Int64.toInt_ofInt_of_le (by omega) (by omega)

/-- The exact quotient of two machine integers. -/
theorem computes_quotient {x y : Int64} (hy : y.toInt ≠ 0) :
    Computes
      (do
        if (← Checked.ofOption (rem? x y)).toInt = 0 then
          return .int (← Checked.ofOption (quot? x y))
        else return .fromFractionParts x.toInt y.toInt)
      (x.toInt / y.toInt) ((x.toInt / y.toInt : ℚ).den ≠ 1) := by
  have hiff := Rat.den_div_intCast_eq_one_iff x.toInt y.toInt hy
  have hyq : (y.toInt : ℚ) ≠ 0 := Int.cast_ne_zero.mpr hy
  by_cases hover : y = 0 ∨ (x.toInt = -2 ^ 63 ∧ y.toInt = -1)
  · rw [rem?, if_pos hover]
    exact nofun
  rw [rem?, if_neg hover, quot?, if_neg hover]
  have hrem := toInt_ofInt_tmod x y hy
  have hquot := toInt_ofInt_tdiv (mt .inr hover)
  show Computes (if (Int64.ofInt (x.toInt.tmod y.toInt)).toInt = 0 then
      pure (Value.int (Int64.ofInt (x.toInt.tdiv y.toInt)))
    else pure (.fromFractionParts x.toInt y.toInt)) _ _
  rw [hrem]
  by_cases hmod : x.toInt.tmod y.toInt = 0
  · rw [if_pos hmod]
    have hdvd := Int.dvd_of_tmod_eq_zero hmod
    refine computes_pure ?_ (iff_of_false nofun fun h => h (hiff.mpr hdvd))
    have hvalue : ((x.toInt.tdiv y.toInt : ℤ) : ℚ) = x.toInt / y.toInt := by
      rw [eq_div_iff hyq, ← Int.cast_mul, Int.tdiv_mul_cancel hdvd]
    rw [Value.Is, Value.rationalParts, hquot, hvalue]
  · rw [if_neg hmod]
    exact computes_fromFractionParts rfl fun h => hmod (Int.tmod_eq_zero_of_dvd (hiff.mp h))

theorem exponent_inv {n : ℤ} {k : ℕ} (h : (exponent n).run = some (.ok k)) : n = k := by
  unfold exponent at h
  cases hk : u32? n with
  | none =>
    rw [hk] at h
    cases h
  | some m =>
    rw [hk] at h
    obtain rfl : m = k := by
      cases h
      rfl
    unfold u32? at hk
    split at hk
    · obtain rfl := Option.some.inj hk
      omega
    · cases hk

/-- A power of integers with a natural exponent. -/
theorem computes_natPower {x n : ℤ} {fraction : Prop} {make : ℤ → Value}
    (hmake : ∀ m : ℤ, Computes (pure (make m)) m fraction) :
    Computes (do return make (x ^ (← exponent n))) ((x : ℚ) ^ n) fraction := by
  refine computes_bind fun k hk => ?_
  rw [exponent_inv hk, zpow_natCast, ← Int.cast_pow]
  exact hmake _

theorem computes_exactPower {x n : ℤ} {fraction : Prop} (hf : fraction ↔ n < 0) :
    Computes (exactPower x n) ((x : ℚ) ^ n) fraction := by
  unfold exactPower
  refine computes_ite (fun hneg => ?_) fun hneg => ?_
  · refine computes_ite (fun _ => computes_throw _) fun hzero => computes_bind fun k hk => ?_
    have hnk : n = -(k : ℤ) := by rw [← exponent_inv hk, neg_neg]
    refine computes_fromFractionParts ?_ (hf.mpr hneg)
    push_cast
    rw [hnk, zpow_neg, zpow_natCast, one_div]
  · exact computes_natPower fun m => computes_fromBigint rfl (mt hf.mp hneg)

theorem computes_bigToFloat {n : ℤ} {f : F64 → F64} {fraction : Prop} :
    Computes (do return .float (f (← bigToFloat numbers n))) q fraction :=
  computes_bind fun _ _ => computes_float _

theorem den_zpow_of_nonneg (x : ℤ) {n : ℤ} (hn : 0 ≤ n) : ((x : ℚ) ^ n).den = 1 := by
  obtain ⟨k, rfl⟩ := Int.eq_ofNat_of_zero_le hn
  rw [zpow_natCast, ← Int.cast_pow, Rat.den_intCast]

/-- A power of integers that is one is not kept as a fraction. -/
theorem not_keeps_power {x n : ℤ} (hn : 0 ≤ n) (haf : a.isFraction = false)
    (hbf : b.isFraction = false) :
    ¬(ExactOp.power.KeepsFraction a b ∨ (ExactOp.power.value x n).den ≠ 1) := by
  rw [ExactOp.KeepsFraction, ExactOp.value, Rat.num_intCast, den_zpow_of_nonneg x hn]
  simp [haf, hbf]

theorem keeps_powerDot {x n : ℤ} (haf : a.isFraction = false) (hbf : b.isFraction = false)
    (hb : b.Is n) :
    (ExactOp.powerDot.KeepsFraction a b ∨ (ExactOp.powerDot.value x n).den ≠ 1) ↔ n < 0 := by
  rw [ExactOp.KeepsFraction, ExactOp.value, Rat.num_intCast, haf, hbf, hb.rat]
  rcases lt_or_ge n 0 with hn | hn
  · simp [hn]
  · simp [den_zpow_of_nonneg x hn]

/-- The operations on two integers. -/
theorem integers_compute {op : ExactOp} (ha : a.Is p) (hb : b.Is q)
    (hint : a.isFraction = false ∧ b.isFraction = false) :
    Computes (op.arith.eval numbers.withRationals a b) (op.value p q)
      (op.KeepsFraction a b ∨ (op.value p q).den ≠ 1) := by
  by_cases hop : op = .add ∨ op = .subtract ∨ op = .multiply
  · exact ring_computes numbers hop ha hb hint
  obtain ⟨haf, hbf⟩ := hint
  have hquot : ∀ {x y : ℤ} {c : Checked Value}, Computes c (x / y) ((x / y : ℚ).den ≠ 1) →
      Computes c (ExactOp.divideDot.value x y)
        (ExactOp.divideDot.KeepsFraction a b ∨ (ExactOp.divideDot.value x y).den ≠ 1) :=
    fun h => h.congr rfl (or_iff_right id).symm
  have hdot : ∀ {x n : ℤ} {c : Checked Value}, b.Is n → Computes c ((x : ℚ) ^ n) (n < 0) →
      Computes c (ExactOp.powerDot.value x n)
        (ExactOp.powerDot.KeepsFraction a b ∨ (ExactOp.powerDot.value x n).den ≠ 1) := by
    intro x n c hn h
    exact h.congr (by rw [ExactOp.value, Rat.num_intCast]) (keeps_powerDot haf hbf hn).symm
  rcases a <;> simp only [Value.Is, Value.rationalParts, Option.some.injEq, reduceCtorEq] at ha <;>
    rcases b <;> simp only [Value.Is, Value.rationalParts, Option.some.injEq, reduceCtorEq] at hb
  case int.int m n =>
    subst ha hb
    cases op <;> simp only [reduceCtorEq, or_false, false_or, not_true] at hop
    case divide => exact computes_ite (fun _ => computes_throw _) fun _ => computes_float _
    case divideDot =>
      refine computes_ite (fun _ => computes_throw _) fun hzero => hquot (computes_quotient ?_)
      simpa [isZero] using hzero
    case power =>
      refine computes_ite (fun hn => ?_) fun _ => computes_ite (fun _ => computes_throw _) fun _ =>
        computes_float _
      rw [ExactOp.value, Rat.num_intCast]
      exact computes_natPower fun k => computes_ofChecked rfl (not_keeps_power hn haf hbf)
    case powerDot =>
      refine hdot rfl (computes_ite (fun _ => computes_exactPower Iff.rfl) fun hneg => ?_)
      refine computes_ite (fun hn => ?_) fun hn => absurd (not_lt.mp hneg) hn
      exact computes_natPower fun k => computes_ofChecked rfl hneg
  case int.bigInt m n =>
    subst ha hb
    cases op <;> simp only [reduceCtorEq, or_false, false_or, not_true] at hop
    case divide =>
      exact computes_ite (fun _ => computes_throw _) fun _ => computes_bigToFloat numbers
    case divideDot =>
      refine computes_ite (fun _ => computes_throw _) fun hzero =>
        hquot (computes_exactQuotient ?_)
      simpa [isZero] using hzero
    case power =>
      refine computes_ite (fun _ => computes_ite (fun _ => computes_throw _) fun _ =>
        computes_bigToFloat numbers) fun hn => ?_
      rw [ExactOp.value, Rat.num_intCast]
      exact computes_natPower fun k =>
        computes_fromBigint rfl (not_keeps_power (not_lt.mp hn) haf hbf)
    case powerDot => exact hdot rfl (computes_exactPower Iff.rfl)
  case bigInt.int m n =>
    subst ha hb
    cases op <;> simp only [reduceCtorEq, or_false, false_or, not_true] at hop
    case divide =>
      exact computes_ite (fun _ => computes_throw _) fun _ => computes_bigToFloat numbers
    case divideDot =>
      refine computes_ite (fun _ => computes_throw _) fun hzero =>
        hquot (computes_exactQuotient ?_)
      simpa [isZero] using hzero
    case power =>
      refine computes_ite (fun _ => computes_ite (fun _ => computes_throw _) fun _ =>
        computes_bigToFloat numbers) fun hn => ?_
      rw [ExactOp.value, Rat.num_intCast]
      exact computes_natPower fun k =>
        computes_fromBigint rfl (not_keeps_power (not_lt.mp hn) haf hbf)
    case powerDot => exact hdot rfl (computes_exactPower Iff.rfl)
  case bigInt.bigInt m n =>
    subst ha hb
    cases op <;> simp only [reduceCtorEq, or_false, false_or, not_true] at hop
    case divide =>
      exact computes_ite (fun _ => computes_throw _) fun _ =>
        computes_bind fun _ _ => computes_bigToFloat numbers
    case divideDot =>
      refine computes_ite (fun _ => computes_throw _) fun hzero =>
        hquot (computes_exactQuotient ?_)
      simpa [isZero] using hzero
    case power =>
      refine computes_ite (fun _ => computes_ite (fun _ => computes_throw _) fun _ =>
        computes_bind fun _ _ => computes_bigToFloat numbers) fun hn => ?_
      rw [ExactOp.value, Rat.num_intCast]
      exact computes_natPower fun k =>
        computes_fromBigint rfl (not_keeps_power (not_lt.mp hn) haf hbf)
    case powerDot => exact hdot rfl (computes_exactPower Iff.rfl)
  all_goals simp [Value.isFraction] at haf hbf

/-- **Exact operations.** An exact result is the number that the operation is
about; it is a fraction if that is kept, or not an integer. -/
theorem exact_computes {op : ExactOp} (ha : a.Is p) (hb : b.Is q)
    (hpow : op.IsPower → q.den = 1) :
    Computes (op.arith.eval numbers.withRationals a b) (op.value p q)
      (op.KeepsFraction a b ∨ (op.value p q).den ≠ 1) := by
  by_cases hfraction : a.isFraction = true ∨ b.isFraction = true
  · have hother := rationalOp_computes numbers ha hb hfraction hpow
    rcases a <;> simp only [Value.Is, Value.rationalParts, Option.some.injEq, reduceCtorEq] at ha <;>
      rcases b <;>
        simp only [Value.Is, Value.rationalParts, Option.some.injEq, reduceCtorEq] at hb
    case int.fraction | bigInt.fraction | fraction.int | fraction.bigInt | fraction.fraction =>
      cases op <;> first
        | exact hother
        | exact computes_ite (fun _ => computes_throw _) fun _ => hother
    all_goals simp [Value.isFraction] at hfraction
  · rw [not_or, Bool.not_eq_true, Bool.not_eq_true] at hfraction
    exact integers_compute numbers ha hb hfraction

end Operations

/-! ### Normal forms -/

/-- A number in normal form: a fraction is in lowest terms, with a positive
denominator that is not one. -/
def Value.Normal (r : Value) : Prop :=
  ∀ x, r = .fraction x → 0 < x.den ∧ x.num.natAbs.Coprime x.den ∧ x.den ≠ 1

/-- An operation on two exact numbers, a power only with an integer exponent. -/
structure ExactCall where
  op : ExactOp
  left : Value
  right : Value
  left_exact : left.Is left.rat
  right_exact : right.Is right.rat
  exponent_integer : op.IsPower → right.rat.den = 1

namespace ExactCall

def eval (numbers : NumberOps) (e : ExactCall) : Checked Value :=
  e.op.arith.eval numbers.withRationals e.left e.right

/-- The number that the operation is about. -/
def value (e : ExactCall) : ℚ := e.op.value e.left.rat e.right.rat

/-- A result that is an integer is not kept as a fraction. -/
def Collapses (e : ExactCall) : Prop := e.op.KeepsFraction e.left e.right → e.value.den ≠ 1

end ExactCall

/-- Two results have one normal form, and are equal, under `==` and in the order
of atoms, exactly when they are the same number. -/
structure OneNormalForm (toF64 : ToF64) (r₁ r₂ : Value) : Prop where
  normal₁ : r₁.Normal
  normal₂ : r₂.Normal
  eq_iff : Value.eq r₁ r₂ = true ↔ r₁.rat = r₂.rat
  cmp_iff : cmpAtom toF64 r₁ r₂ = some .eq ↔ r₁.rat = r₂.rat
  order : ∀ a b p q, a.Is p → b.Is q → cmpAtom toF64 a b = some (compare p q)

theorem normal_iff {r : Value} {q : ℚ} (h : r.Is q) :
    r.Normal ↔ (r.isFraction = true → q.den ≠ 1) := by
  rcases r <;> simp only [Value.Is, Value.rationalParts, Option.some.injEq, reduceCtorEq] at h
  case fraction x =>
    subst h
    constructor
    · exact fun hnormal _ => (hnormal x rfl).2.2
    · rintro hden y ⟨⟩
      exact ⟨x.den_pos, x.reduced, hden rfl⟩
  all_goals exact iff_of_true (fun _ h => by cases h) (fun h => by cases h)

theorem canon_exact {v : Value} {q : ℚ} (h : v.Is q) :
    v.canon = if v.isFraction then .fraction q else .fromBigint q.num := by
  rcases v <;> simp only [Value.Is, Value.rationalParts, Option.some.injEq, reduceCtorEq] at h <;>
    subst h
  case int n =>
    rw [Rat.num_intCast, fromBigint_toInt]
    rfl
  case bigInt n =>
    rw [Rat.num_intCast]
    rfl
  case fraction x => rfl

theorem den_of_not_fraction {v : Value} {q : ℚ} (h : v.Is q) (hv : v.isFraction = false) :
    q.den = 1 := by
  rcases v <;> simp only [Value.Is, Value.rationalParts, Option.some.injEq, reduceCtorEq] at h <;>
    subst h
  case fraction x => cases hv
  all_goals exact Rat.den_intCast _

/-- Equality tells fractions from integers. -/
theorem eq_exact_iff {a b : Value} {p q : ℚ} (ha : a.Is p) (hb : b.Is q) :
    Value.eq a b = true ↔ p = q ∧ a.isFraction = b.isFraction := by
  have hne : ∀ (x : ℚ) (n : ℤ), (.fraction x : Value) ≠ .fromBigint n := by
    intro x n h
    have hkind := isFraction_fromBigint n
    rw [← h] at hkind
    cases hkind
  rw [Value.eq_iff, canon_exact ha, canon_exact hb]
  cases haf : a.isFraction <;> cases hbf : b.isFraction <;> simp only [if_true, Bool.false_eq_true,
    if_false, and_true, and_false, reduceCtorEq, iff_false]
  · constructor
    · intro h
      have hnum := fromBigint_inj h
      rw [← Rat.coe_int_num_of_den_eq_one (den_of_not_fraction ha haf), hnum,
        Rat.coe_int_num_of_den_eq_one (den_of_not_fraction hb hbf)]
    · rintro rfl
      rfl
  · exact fun h => hne _ _ h.symm
  · exact hne _ _
  · rw [Value.fraction.injEq]

/-- **One normal form.** Results compare as their numbers do, under `==` and in
the order of atoms, exactly if no result that is an integer is kept as a
fraction. -/
theorem oneNormalForm_iff (numbers : NumberOps) (toF64 : ToF64) (e₁ e₂ : ExactCall) {r₁ r₂ : Value}
    (h₁ : (e₁.eval numbers).run = some (.ok r₁)) (h₂ : (e₂.eval numbers).run = some (.ok r₂))
    (hexact₁ : r₁.rationalParts.isSome = true) (hexact₂ : r₂.rationalParts.isSome = true) :
    r₁.Is e₁.value ∧ r₂.Is e₂.value ∧
      (OneNormalForm toF64 r₁ r₂ ↔ e₁.Collapses ∧ e₂.Collapses) := by
  have hspec : ∀ (e : ExactCall) (r : Value), (e.eval numbers).run = some (.ok r) →
      r.rationalParts.isSome = true → r.Is e.value ∧ (r.Normal ↔ e.Collapses) := by
    intro e r hr hexact
    obtain ⟨hvalue, hkind⟩ :=
      exact_computes numbers e.left_exact e.right_exact e.exponent_integer r hr hexact
    refine ⟨hvalue, ?_⟩
    rw [normal_iff hvalue, hkind]
    exact ⟨fun h hkeeps => h (.inl hkeeps), fun h hor => hor.elim h id⟩
  obtain ⟨hvalue₁, hnormal₁⟩ := hspec e₁ r₁ h₁ hexact₁
  obtain ⟨hvalue₂, hnormal₂⟩ := hspec e₂ r₂ h₂ hexact₂
  refine ⟨hvalue₁, hvalue₂, fun h => ⟨hnormal₁.mp h.normal₁, hnormal₂.mp h.normal₂⟩, ?_⟩
  rintro ⟨hc₁, hc₂⟩
  have hn₁ := hnormal₁.mpr hc₁
  have hn₂ := hnormal₂.mpr hc₂
  have hrat₁ : r₁.Is r₁.rat := hvalue₁.self
  have hrat₂ : r₂.Is r₂.rat := hvalue₂.self
  refine ⟨hn₁, hn₂, ?_, ?_, fun a b p q => cmpAtom_exact⟩
  · rw [eq_exact_iff hrat₁ hrat₂]
    refine ⟨And.left, fun h => ⟨h, ?_⟩⟩
    -- a fraction in normal form is no integer
    cases hf₁ : r₁.isFraction <;> cases hf₂ : r₂.isFraction
    · rfl
    · exact absurd (h ▸ den_of_not_fraction hrat₁ hf₁) ((normal_iff hrat₂).mp hn₂ hf₂)
    · exact absurd (h ▸ den_of_not_fraction hrat₂ hf₂) ((normal_iff hrat₁).mp hn₁ hf₁)
    · rfl
  · rw [cmpAtom_exact hrat₁ hrat₂, Option.some.injEq, compare_eq_iff_eq]

namespace ExactCall

/-- `1/2 + 1/2`, which is kept as a fraction. -/
def halves : ExactCall where
  op := .add
  left := .fraction (1 / 2)
  right := .fraction (1 / 2)
  left_exact := rfl
  right_exact := rfl
  exponent_integer := nofun

/-- `1/2 + 1/3`. -/
def halfAndThird : ExactCall where
  op := .add
  left := .fraction (1 / 2)
  right := .fraction (1 / 3)
  left_exact := rfl
  right_exact := rfl
  exponent_integer := nofun

/-- `2 - 1`. -/
def oneLess : ExactCall where
  op := .subtract
  left := .int 2
  right := .int 1
  left_exact := rfl
  right_exact := rfl
  exponent_integer := nofun

theorem eval_halves (numbers : NumberOps) :
    (halves.eval numbers).run = some (.ok (.fraction 1)) := by
  have hvalue : (Rat.divInt ((1 / 2 : ℚ).num * (1 / 2 : ℚ).den + (1 / 2 : ℚ).num * (1 / 2 : ℚ).den)
      ((1 / 2 : ℚ).den * (1 / 2 : ℚ).den)) = 1 := by decide +kernel
  exact congrArg (fun x => some (Except.ok (Value.fraction x))) hvalue

theorem eval_halfAndThird (numbers : NumberOps) :
    (halfAndThird.eval numbers).run = some (.ok (.fraction (5 / 6))) := by
  have hvalue : (Rat.divInt ((1 / 2 : ℚ).num * (1 / 3 : ℚ).den + (1 / 3 : ℚ).num * (1 / 2 : ℚ).den)
      ((1 / 2 : ℚ).den * (1 / 3 : ℚ).den)) = 5 / 6 := by decide +kernel
  exact congrArg (fun x => some (Except.ok (Value.fraction x))) hvalue

theorem eval_oneLess (numbers : NumberOps) :
    (oneLess.eval numbers).run = some (.ok (.int 1)) := rfl

end ExactCall

theorem oneNormalForm_halfAndThird :
    OneNormalForm ⟨fun _ => none, fun _ => none⟩ (.fraction (5 / 6)) (.int 1) := by
  have h := oneNormalForm_iff .inert ⟨fun _ => none, fun _ => none⟩ .halfAndThird .oneLess
    (ExactCall.eval_halfAndThird _) (ExactCall.eval_oneLess _) rfl rfl
  refine h.2.2.mpr ⟨fun _ => ?_, fun hkeeps => ?_⟩
  · show ((1 / 2 : ℚ) + 1 / 3).den ≠ 1
    norm_num
  · exact absurd hkeeps (by simp [ExactCall.oneLess, ExactOp.KeepsFraction, Value.isFraction])

/-- `1/2 + 1/2` and `2 - 1` are the same number and compare as equal, and `==`
tells them apart. -/
theorem halves_ne_one :
    ¬∀ (e₁ e₂ : ExactCall) (r₁ r₂ : Value), (e₁.eval .inert).run = some (.ok r₁) →
      (e₂.eval .inert).run = some (.ok r₂) → r₁.rationalParts.isSome = true →
      r₂.rationalParts.isSome = true →
      OneNormalForm ⟨fun _ => none, fun _ => none⟩ r₁ r₂ := by
  intro h
  have hform := h .halves .oneLess _ _ (ExactCall.eval_halves _) (ExactCall.eval_oneLess _) rfl rfl
  have hsame : (Value.fraction 1).rat = (Value.int 1).rat := (Value.is_one.rat).symm
  have hone : (Value.fraction 1).Is 1 := rfl
  have heq := (eq_exact_iff hone Value.is_one).mp (hform.eq_iff.mpr hsame)
  cases heq.2

end Wqpl
