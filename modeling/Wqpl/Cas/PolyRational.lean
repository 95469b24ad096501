/-
# Polynomials with rational coefficients

On exact rationals the arithmetic of coefficients is that of ℚ, whatever a
number is kept as, so the operations on lists are those on polynomials
(`Denotes`): sums, multiples, derivatives and the monic multiple.
-/
import Wqpl.Cas.Poly
import Wqpl.Polynomial.Coefficients
import Wqpl.Polynomial.Euclid

namespace Wqpl

open Polynomial

/-! ### Exact rationals -/

namespace Value

/-- The value is an exact rational number. -/
def Is (v : Value) (q : ℚ) : Prop := v.rationalParts = some q

/-- The number, if the value is one. -/
def rat (v : Value) : ℚ := v.rationalParts.getD 0

theorem Is.rat {v : Value} {q : ℚ} (h : v.Is q) : v.rat = q := by
  rw [Value.rat, show v.rationalParts = some q from h, Option.getD_some]

theorem Is.self {v : Value} {q : ℚ} (h : v.Is q) : v.Is v.rat := by rwa [h.rat]

theorem is_int (n : Int64) : (Value.int n).Is n.toInt := rfl

theorem is_zero : (Value.int 0).Is 0 := rfl

theorem is_one : (Value.int 1).Is 1 := rfl

theorem is_neg_one : (Value.int (-1)).Is (-1) := by
  rw [Is, rationalParts, show (-1 : Int64).toInt = -1 by decide]
  norm_num

theorem is_fromBigint (n : Int) : (Value.fromBigint n).Is n := by
  rw [Value.fromBigint]
  split
  · rename_i m hm
    rw [Is, rationalParts, i64?_some_iff.mp hm]
  · rfl

theorem is_ofChecked (n : Int) : (Value.ofChecked n).Is n := by
  rw [Value.ofChecked]
  split
  · rename_i m hm
    rw [Is, rationalParts, i64?_some_iff.mp hm]
  · exact is_fromBigint n

theorem is_fromFractionParts (n d : Int) : (Value.fromFractionParts n d).Is (n / d) := by
  rw [Is, Value.fromFractionParts, rationalParts, Rat.divInt_eq_div]

variable {v : Value} {q : ℚ}

/-- The test for zero. -/
theorem numericIsZero_iff (h : v.Is q) : v.numericIsZero = true ↔ q = 0 := by
  rcases v <;> simp only [Is, rationalParts, Option.some.injEq, reduceCtorEq] at h
  case int n => rw [numericIsZero, ← h, decide_eq_true_eq, Int.cast_eq_zero]
  case bigInt n => rw [numericIsZero, ← h, decide_eq_true_eq, Int.cast_eq_zero]
  case fraction p => rw [numericIsZero, ← h, decide_eq_true_eq, Rat.num_eq_zero]

theorem numericIsOne_iff (h : v.Is q) : v.numericIsOne = true ↔ q = 1 := by
  rcases v <;> simp only [Is, rationalParts, Option.some.injEq, reduceCtorEq] at h
  case int n => rw [numericIsOne, ← h, decide_eq_true_eq, Int.cast_eq_one]
  case bigInt n => rw [numericIsOne, ← h, decide_eq_true_eq, Int.cast_eq_one]
  case fraction p =>
    rw [numericIsOne, ← h, decide_eq_true_eq]
    exact ⟨fun h => Rat.ext h.1 h.2, fun hp => by rw [hp]; exact ⟨rfl, rfl⟩⟩

end Value

section Arithmetic

variable (numbers : NumberOps) {a b : Value} {p q : ℚ}

/-- An operation on two rationals, one of them a fraction. -/
theorem otherBinary_withFractions {op : BinaryOperator} {r : WqResult Value} (ha : a.Is p)
    (hb : b.Is q) (h : fractionOp op p q = some r) :
    numbers.withFractions.otherBinary op a b = r := by
  dsimp only [NumberOps.withFractions]
  rw [show a.rationalParts = some p from ha, show b.rationalParts = some q from hb]
  simp only [h, Option.getD_some]

/-- What the operators add, subtract and multiply. -/
def NumericOp.rat : NumericOp → ℚ → ℚ → ℚ
  | .add => (· + ·)
  | .subtract => (· - ·)
  | .multiply => (· * ·)
  | .divide => (· / ·)
  | .power => fun p _ => p

/-- The operator of the language. -/
def NumericOp.binary : NumericOp → BinaryOperator
  | .add => .add
  | .subtract => .subtract
  | .multiply => .multiply
  | .divide => .divideDot
  | .power => .powerDot

/-- The operators that keep integers integers. -/
def NumericOp.IsRing (op : NumericOp) : Prop := op = .add ∨ op = .subtract ∨ op = .multiply

theorem fractionOp_ring {op : NumericOp} (hop : op.IsRing) (p q : ℚ) :
    ∃ v : Value, fractionOp op.binary p q = some (.ok v) ∧ v.Is (op.rat p q) := by
  have hp : (p.num : ℚ) = p * p.den := (Rat.mul_den_eq_num p).symm
  have hq : (q.num : ℚ) = q * q.den := (Rat.mul_den_eq_num q).symm
  have hpd : (p.den : ℚ) ≠ 0 := Nat.cast_ne_zero.mpr p.den_nz
  have hqd : (q.den : ℚ) ≠ 0 := Nat.cast_ne_zero.mpr q.den_nz
  rcases hop with rfl | rfl | rfl
  · refine ⟨_, rfl, ?_⟩
    convert Value.is_fromFractionParts _ _ using 1
    push_cast
    rw [hp, hq, NumericOp.rat]
    field_simp
  · refine ⟨_, rfl, ?_⟩
    convert Value.is_fromFractionParts _ _ using 1
    push_cast
    rw [hp, hq, NumericOp.rat]
    field_simp
  · refine ⟨_, rfl, ?_⟩
    convert Value.is_fromFractionParts _ _ using 1
    push_cast
    rw [hp, hq, NumericOp.rat]
    field_simp

theorem Value.Is.of_int {v : Value} {k : Int} (h : v.Is k) (hk : (k : ℚ) = q) : v.Is q := hk ▸ h

/-- **Coefficients.** Sums, differences and products of exact rationals are
exact. -/
theorem evalNumericBinary_ring {op : NumericOp} (hop : op.IsRing) (ha : a.Is p) (hb : b.Is q) :
    ∃ v, evalNumericBinary numbers op a b = pure v ∧ v.Is (op.rat p q) := by
  obtain ⟨v, hv, hvalue⟩ := fractionOp_ring hop p q
  have hother := otherBinary_withFractions numbers ha hb hv
  rcases a <;> simp only [Value.Is, Value.rationalParts, Option.some.injEq, reduceCtorEq] at ha <;>
    rcases b <;> simp only [Value.Is, Value.rationalParts, Option.some.injEq, reduceCtorEq] at hb
  case int.int m n =>
    rcases hop with rfl | rfl | rfl <;>
      exact ⟨_, rfl, .of_int (Value.is_ofChecked _) (by simp [NumericOp.rat, ← ha, ← hb])⟩
  case int.bigInt m n | bigInt.int m n | bigInt.bigInt m n =>
    rcases hop with rfl | rfl | rfl <;>
      exact ⟨_, rfl, .of_int (Value.is_fromBigint _) (by
        simp [NumericOp.rat, ← ha, ← hb, add_comm, mul_comm])⟩
  all_goals
    rcases hop with rfl | rfl | rfl <;>
      exact ⟨v, congrArg Checked.ofResult hother, hvalue⟩

theorem evalNumericBinary_add (ha : a.Is p) (hb : b.Is q) :
    ∃ v, evalNumericBinary numbers .add a b = pure v ∧ v.Is (p + q) :=
  evalNumericBinary_ring numbers (.inl rfl) ha hb

theorem evalNumericBinary_subtract (ha : a.Is p) (hb : b.Is q) :
    ∃ v, evalNumericBinary numbers .subtract a b = pure v ∧ v.Is (p - q) :=
  evalNumericBinary_ring numbers (.inr (.inl rfl)) ha hb

theorem evalNumericBinary_multiply (ha : a.Is p) (hb : b.Is q) :
    ∃ v, evalNumericBinary numbers .multiply a b = pure v ∧ v.Is (p * q) :=
  evalNumericBinary_ring numbers (.inr (.inr rfl)) ha hb

/-- An exact quotient. -/
theorem evalExactNumericDiv_spec (ha : a.Is p) (hb : b.Is q) (hq : q ≠ 0) :
    ∃ v, evalExactNumericDiv numbers a b = pure v ∧ v.Is (p / q) := by
  have hp' : (p.num : ℚ) = p * p.den := (Rat.mul_den_eq_num p).symm
  have hq' : (q.num : ℚ) = q * q.den := (Rat.mul_den_eq_num q).symm
  have hpd : (p.den : ℚ) ≠ 0 := Nat.cast_ne_zero.mpr p.den_nz
  have hqd : (q.den : ℚ) ≠ 0 := Nat.cast_ne_zero.mpr q.den_nz
  have hvalue : Rat.divInt (p.num * q.den) (p.den * q.num) = p / q := by
    rw [Rat.divInt_eq_div]
    push_cast
    rw [hp', hq']
    field_simp
  rw [evalExactNumericDiv, show a.rationalParts = some p from ha,
    show b.rationalParts = some q from hb]
  dsimp only
  rw [if_neg (Rat.num_ne_zero.mpr hq), hvalue]
  split
  · rename_i hden
    refine ⟨_, rfl, .of_int (Value.is_fromBigint _) ?_⟩
    exact Rat.coe_int_num_of_den_eq_one hden
  · exact ⟨_, rfl, rfl⟩

@[simp] theorem expect_pure {α : Type} (x : α) : (pure x : Checked α).expect = pure x := rfl

end Arithmetic

/-! ### Lists of coefficients -/

/-- The list holds the coefficients of the polynomial, all exact rationals. -/
structure Denotes (coeffs : List Value) (p : ℚ[X]) : Prop where
  rational : ∀ v ∈ coeffs, v.Is v.rat
  poly : ofCoeffs (coeffs.map Value.rat) = p

namespace Denotes

variable {coeffs : List Value} {p : ℚ[X]}

theorem singleton {v : Value} {q : ℚ} (h : v.Is q) : Denotes [v] (C q) where
  rational := by
    intro w hw
    rw [List.mem_singleton.mp hw]
    exact h.self
  poly := by rw [List.map_singleton, ofCoeffs_singleton, h.rat]

theorem zero : Denotes [.int 0] 0 := by
  rw [← C_0]
  exact singleton Value.is_zero

theorem replicate (n : Nat) : Denotes (List.replicate n (.int 0)) 0 where
  rational v hv := by
    rw [(List.mem_replicate.mp hv).2]
    exact Value.is_zero.self
  poly := by
    rw [List.map_replicate, show (Value.int 0).rat = 0 from Value.is_zero.rat]
    exact ofCoeffs_replicate n

theorem coeff (h : Denotes coeffs p) {i : Nat} {v : Value} (hv : coeffs[i]? = some v) :
    v.Is (p.coeff i) := by
  obtain ⟨hi, rfl⟩ := List.getElem?_eq_some_iff.mp hv
  rw [← h.poly, coeff_ofCoeffs, List.getD_eq_getElem _ _ (by rwa [List.length_map]),
    List.getElem_map]
  exact h.rational _ (List.getElem_mem hi)

theorem coeff_of_le (h : Denotes coeffs p) {i : Nat} (hi : coeffs.length ≤ i) :
    p.coeff i = 0 := by
  rw [← h.poly, coeff_ofCoeffs]
  exact List.getD_eq_default _ _ (by rwa [List.length_map])

/-- An item past the end is zero. -/
theorem getD (h : Denotes coeffs p) (i : Nat) : (coeffs.getD i (.int 0)).Is (p.coeff i) := by
  rw [List.getD_eq_getElem?_getD]
  rcases hv : coeffs[i]? with _ | v
  · rw [Option.getD_none, h.coeff_of_le (List.getElem?_eq_none_iff.mp hv)]
    exact Value.is_zero
  · exact h.coeff hv

theorem natDegree_lt (h : Denotes coeffs p) (hp : p ≠ 0) : p.natDegree < coeffs.length := by
  by_contra hle
  exact hp (leadingCoeff_eq_zero.mp (h.coeff_of_le (not_lt.mp hle)))

/-- The leading coefficient is at the degree. -/
theorem lead (h : Denotes coeffs p) (hp : p ≠ 0) :
    ∃ v, coeffs[p.natDegree]? = some v ∧ v.Is p.leadingCoeff :=
  ⟨_, List.getElem?_eq_getElem (h.natDegree_lt hp),
    h.coeff (List.getElem?_eq_getElem (h.natDegree_lt hp))⟩

/-- A list with the coefficients of a polynomial. -/
theorem of_coeff (hall : ∀ (i : Nat) (v : Value), coeffs[i]? = some v → v.Is (p.coeff i))
    (hlast : ∀ i, coeffs.length ≤ i → p.coeff i = 0) : Denotes coeffs p where
  rational v hv := by
    obtain ⟨i, hi⟩ := List.mem_iff_getElem?.mp hv
    exact (hall i v hi).self
  poly := by
    ext i
    rw [coeff_ofCoeffs]
    rcases lt_or_ge i coeffs.length with hi | hi
    · rw [List.getD_eq_getElem _ _ (by rwa [List.length_map]), List.getElem_map]
      exact (hall i _ (List.getElem?_eq_getElem hi)).rat
    · rw [List.getD_eq_default _ _ (by rwa [List.length_map]), hlast i hi]

theorem set (h : Denotes coeffs p) {i : Nat} (hi : i < coeffs.length) {c : Value} {x : ℚ}
    (hc : c.Is x) : Denotes (coeffs.set i c) (p + C (x - p.coeff i) * X ^ i) where
  rational v hv := by
    rcases List.mem_or_eq_of_mem_set hv with hv | rfl
    · exact h.rational v hv
    · exact hc.self
  poly := by
    rw [List.map_set, ofCoeffs_set _ _ _ (by rwa [List.length_map]), ← coeff_ofCoeffs, h.poly,
      hc.rat]

/-- The items up to the degree are enough. -/
theorem take (h : Denotes coeffs p) {n : Nat} (hn : p.natDegree < n) :
    Denotes (coeffs.take n) p :=
  of_coeff (fun i v hv => by
      rw [List.getElem?_take] at hv
      exact h.coeff (Option.ite_none_right_eq_some.mp hv).2) fun i hi => by
    rw [List.length_take] at hi
    rcases min_le_iff.mp hi with hi | hi
    · exact coeff_eq_zero_of_natDegree_lt (lt_of_lt_of_le hn hi)
    · exact h.coeff_of_le hi

theorem isZero_iff (h : Denotes coeffs p) : polyIsZero coeffs = true ↔ p = 0 := by
  rw [← h.poly, ofCoeffs_eq_zero, polyIsZero, List.all_eq_true]
  constructor
  · rintro hall _ hc
    obtain ⟨v, hv, rfl⟩ := List.mem_map.mp hc
    exact (Value.numericIsZero_iff (h.rational v hv)).mp (hall v hv)
  · intro hall v hv
    exact (Value.numericIsZero_iff (h.rational v hv)).mpr (hall _ (List.mem_map_of_mem hv))

end Denotes

/-! ### Degree and trimming -/

theorem rposition_concat (test : Value → Bool) (coeffs : List Value) (c : Value) :
    rposition test (coeffs ++ [c]) = if test c then some coeffs.length else rposition test coeffs := by
  rw [rposition, List.reverse_concat, List.findIdx?_cons, List.length_append, List.length_singleton]
  by_cases hc : test c = true
  · rw [if_pos hc, if_pos hc, Option.map_some]
    rfl
  · rw [if_neg hc, if_neg hc, rposition, Option.map_map]
    refine congrArg (Option.map · _) (funext fun i => ?_)
    show coeffs.length + 1 - 1 - (i + 1) = coeffs.length - 1 - i
    omega

theorem polyDegree_concat (coeffs : List Value) (c : Value) :
    polyDegree (coeffs ++ [c]) =
      if c.numericIsZero then polyDegree coeffs else coeffs.length := by
  rw [polyDegree, rposition_concat]
  rcases c.numericIsZero <;> rfl

theorem Denotes.concat {coeffs : List Value} {c : Value} {p : ℚ[X]}
    (h : Denotes (coeffs ++ [c]) p) :
    Denotes coeffs (p - C c.rat * X ^ coeffs.length) ∧ c.Is c.rat := by
  refine ⟨⟨fun v hv => h.rational v (List.mem_append_left _ hv), ?_⟩,
    h.rational c (List.mem_append_right _ (List.mem_singleton_self c))⟩
  rw [← h.poly, List.map_append, List.map_singleton, ofCoeffs_concat, List.length_map,
    add_sub_cancel_right]

/-- **Degrees.** `polyDegree` is the degree of the polynomial. -/
theorem polyDegree_eq (coeffs : List Value) : ∀ p : ℚ[X], Denotes coeffs p →
    polyDegree coeffs = p.natDegree := by
  induction coeffs using List.reverseRecOn with
  | nil =>
    intro p h
    rw [← h.poly]
    rfl
  | append_singleton coeffs c ih =>
    intro p h
    obtain ⟨hcoeffs, hc⟩ := h.concat
    rw [polyDegree_concat]
    split
    · rename_i hzero
      rw [(Value.numericIsZero_iff hc).mp hzero, C_0, zero_mul, sub_zero] at hcoeffs
      exact ih p hcoeffs
    · rename_i hzero
      have hc0 : c.rat ≠ 0 := fun h0 => hzero ((Value.numericIsZero_iff hc).mpr h0)
      rw [← h.poly, List.map_append, List.map_singleton, natDegree_concat _ hc0, List.length_map]

/-- What is cut off are zeros. -/
theorem popZeros_append : ∀ coeffs : List Value, ∃ zeros, coeffs = zeros ++ popZeros coeffs ∧
    ∀ z ∈ zeros, z.numericIsZero = true
  | [] | [_] => ⟨[], rfl, nofun⟩
  | c :: d :: cs => by
    rw [popZeros]
    split
    · rename_i hc
      obtain ⟨zeros, heq, hzeros⟩ := popZeros_append (d :: cs)
      refine ⟨c :: zeros, ?_, List.forall_mem_cons.mpr ⟨hc, hzeros⟩⟩
      rw [List.cons_append, ← heq]
    · exact ⟨[], rfl, nofun⟩

theorem polyTrim_append (coeffs : List Value) : ∃ zeros, coeffs = polyTrim coeffs ++ zeros ∧
    ∀ z ∈ zeros, z.numericIsZero = true := by
  obtain ⟨zeros, heq, hzeros⟩ := popZeros_append coeffs.reverse
  refine ⟨zeros.reverse, ?_, fun z hz => hzeros z (List.mem_reverse.mp hz)⟩
  rw [polyTrim, ← List.reverse_append, ← heq, List.reverse_reverse]

theorem Denotes.trim {coeffs : List Value} {p : ℚ[X]} (h : Denotes coeffs p) :
    Denotes (polyTrim coeffs) p := by
  obtain ⟨zeros, heq, hzeros⟩ := polyTrim_append coeffs
  rw [heq] at h
  refine ⟨fun v hv => h.rational v (List.mem_append_left _ hv), ?_⟩
  have hzero : ofCoeffs (zeros.map Value.rat) = 0 := by
    refine ofCoeffs_eq_zero.mpr fun c hc => ?_
    obtain ⟨z, hz, rfl⟩ := List.mem_map.mp hc
    exact (Value.numericIsZero_iff (h.rational z (List.mem_append_right _ hz))).mp (hzeros z hz)
  rw [← h.poly, List.map_append, ofCoeffs_append, hzero, mul_zero, add_zero]

/-- The last item of a trimmed list is not zero, unless it is the only one. -/
theorem popZeros_head : ∀ (coeffs : List Value) (c d : Value) (cs : List Value),
    popZeros coeffs = c :: d :: cs → c.numericIsZero = false
  | [], _, _, _, h => absurd h nofun
  | [_], _, _, _, h => absurd h (by simp [popZeros])
  | a :: b :: rest, c, d, cs, h => by
    rw [popZeros] at h
    split at h
    · exact popZeros_head (b :: rest) c d cs h
    · rename_i ha
      rw [← (List.cons.inj h).1]
      exact Bool.eq_false_iff.mpr ha

/-- A trimmed list ends with the leading coefficient. -/
theorem Denotes.trim_length {coeffs : List Value} {p : ℚ[X]} (h : Denotes coeffs p)
    (hp : p ≠ 0) : (polyTrim coeffs).length = p.natDegree + 1 := by
  have htrim := h.trim
  rcases hreverse : popZeros coeffs.reverse with _ | ⟨v, rest⟩
  · refine absurd ?_ hp
    rw [← htrim.poly, polyTrim, hreverse]
    rfl
  · have hlist : polyTrim coeffs = rest.reverse ++ [v] := by
      rw [polyTrim, hreverse, List.reverse_cons]
    rw [hlist] at htrim ⊢
    have hv := htrim.concat.2
    have hv0 : v.rat ≠ 0 := by
      intro h0
      rcases rest with _ | ⟨w, rest⟩
      · refine hp ?_
        rw [← htrim.poly, List.reverse_nil, List.nil_append, List.map_singleton, h0,
          ofCoeffs_singleton, C_0]
      · have hnonzero := popZeros_head coeffs.reverse v w rest hreverse
        rw [(Value.numericIsZero_iff hv).mpr h0] at hnonzero
        exact absurd hnonzero nofun
    rw [← htrim.poly, List.map_append, List.map_singleton, natDegree_concat _ hv0, List.length_map,
      List.length_append, List.length_singleton]

theorem Denotes.last {coeffs : List Value} {p : ℚ[X]} (h : Denotes coeffs p)
    (hlen : coeffs.length = p.natDegree + 1) :
    ∃ v, coeffs.getLast? = some v ∧ v.Is p.leadingCoeff := by
  have hlt : p.natDegree < coeffs.length := by omega
  refine ⟨coeffs[p.natDegree], ?_, h.coeff (List.getElem?_eq_getElem hlt)⟩
  rw [List.getLast?_eq_getElem?, hlen, Nat.add_sub_cancel]
  exact List.getElem?_eq_getElem hlt

/-! ### Operations on lists -/

/-- A map over a list that succeeds on every item. -/
theorem mapM_pure {α β : Type} {f : α → Checked β} : ∀ {xs : List α},
    (∀ x ∈ xs, ∃ y, f x = pure y) → ∃ ys, xs.mapM f = pure ys ∧ ys.length = xs.length ∧
      ∀ (i : Nat) (x : α) (y : β), xs[i]? = some x → ys[i]? = some y → f x = pure y
  | [], _ => ⟨[], rfl, rfl, nofun⟩
  | x :: xs, h => by
    obtain ⟨y, hy⟩ := h x List.mem_cons_self
    obtain ⟨ys, hys, hlen, hall⟩ := mapM_pure fun x hx => h x (List.mem_cons_of_mem _ hx)
    refine ⟨y :: ys, ?_, ?_, ?_⟩
    · rw [List.mapM_cons, hy, pure_bind, hys, pure_bind]
    · rw [List.length_cons, List.length_cons, hlen]
    · intro i x' y' hx' hy'
      rcases i with _ | i
      · rw [List.getElem?_cons_zero, Option.some.injEq] at hx' hy'
        rw [← hx', ← hy', hy]
      · exact hall i x' y' hx' hy'

theorem checked_pure_inj {α : Type} {a b : α} (h : (pure a : Checked α) = pure b) : a = b :=
  Except.ok.inj (Option.some.inj h)

/-- An operation on every coefficient. -/
theorem Denotes.mapM {α : Type} {f : α → Checked Value} {xs : List α} {p : ℚ[X]}
    (hf : ∀ i x, xs[i]? = some x → ∃ v, f x = pure v ∧ v.Is (p.coeff i))
    (hlast : ∀ i, xs.length ≤ i → p.coeff i = 0) :
    ∃ coeffs, xs.mapM f = pure coeffs ∧ Denotes coeffs p ∧ coeffs.length = xs.length := by
  have hpure : ∀ x ∈ xs, ∃ y, f x = pure y := by
    intro x hx
    obtain ⟨i, hi⟩ := List.mem_iff_getElem?.mp hx
    obtain ⟨v, hv, -⟩ := hf i x hi
    exact ⟨v, hv⟩
  obtain ⟨coeffs, hcoeffs, hlen, hall⟩ := mapM_pure hpure
  refine ⟨coeffs, hcoeffs, .of_coeff (fun i v hv => ?_) fun i hi => hlast i (by rwa [← hlen]),
    hlen⟩
  obtain ⟨hi, -⟩ := List.getElem?_eq_some_iff.mp hv
  have hx := List.getElem?_eq_getElem (hlen ▸ hi)
  obtain ⟨w, hw, his⟩ := hf i _ hx
  rwa [checked_pure_inj ((hall i _ v hx hv).symm.trans hw)]

section Operations

variable (numbers : NumberOps) {a b : List Value} {p q : ℚ[X]}

theorem polyAdd_spec (ha : Denotes a p) (hb : Denotes b q) :
    ∃ c, polyAdd numbers a b = pure c ∧ Denotes c (p + q) := by
  obtain ⟨out, hout, hdenotes, -⟩ : ∃ out, ((List.range (max a.length b.length)).mapM fun i =>
      evalNumericBinary numbers .add (a.getD i (.int 0)) (b.getD i (.int 0))) = pure out ∧
      Denotes out (p + q) ∧ out.length = (List.range (max a.length b.length)).length := by
    refine Denotes.mapM (fun i x hx => ?_) fun i hi => ?_
    · obtain ⟨hi, rfl⟩ := List.getElem?_eq_some_iff.mp hx
      rw [List.getElem_range, coeff_add]
      exact evalNumericBinary_add numbers (ha.getD i) (hb.getD i)
    · rw [List.length_range] at hi
      rw [coeff_add, ha.coeff_of_le (le_trans (le_max_left _ _) hi),
        hb.coeff_of_le (le_trans (le_max_right _ _) hi), add_zero]
  refine ⟨polyTrim out, ?_, hdenotes.trim⟩
  exact (congrArg (· >>= fun out => pure (polyTrim out)) hout).trans (pure_bind _ _)

theorem polyNeg_spec (ha : Denotes a p) :
    ∃ c, polyNeg numbers a = pure c ∧ Denotes c (-p) ∧ c.length = a.length := by
  refine Denotes.mapM (fun i v hv => ?_) fun i hi => ?_
  · obtain ⟨w, hw, his⟩ := evalNumericBinary_multiply numbers (ha.coeff hv) Value.is_neg_one
    refine ⟨w, by rw [hw, expect_pure], ?_⟩
    rwa [coeff_neg, ← mul_neg_one]
  · rw [coeff_neg, ha.coeff_of_le hi, neg_zero]

theorem polySub_spec (ha : Denotes a p) (hb : Denotes b q) :
    ∃ c, polySub numbers a b = pure c ∧ Denotes c (p - q) := by
  obtain ⟨n, hn, hneg, -⟩ := polyNeg_spec numbers hb
  rw [polySub, hn, pure_bind, sub_eq_add_neg]
  exact polyAdd_spec numbers ha hneg

theorem polyConstMul_spec (ha : Denotes a p) {factor : Value} {x : ℚ} (hx : factor.Is x) :
    ∃ c, polyConstMul numbers a factor = pure c ∧ Denotes c (p * C x) ∧ c.length = a.length := by
  refine Denotes.mapM (fun i v hv => ?_) fun i hi => ?_
  · rw [coeff_mul_C]
    exact evalNumericBinary_multiply numbers (ha.coeff hv) hx
  · rw [coeff_mul_C, ha.coeff_of_le hi, zero_mul]

theorem polyDerivative_spec (ha : Denotes a p) :
    ∃ c, polyDerivative numbers a = pure c ∧ Denotes c (derivative p) := by
  rw [polyDerivative]
  split
  · rename_i hlen
    refine ⟨_, rfl, ?_⟩
    have hconst : derivative p = 0 := by
      ext i
      rw [coeff_derivative, ha.coeff_of_le (le_trans hlen (Nat.le_add_left 1 i)), zero_mul,
        coeff_zero]
    rw [hconst]
    exact .zero
  · obtain ⟨deriv, hderiv, hdenotes, -⟩ : ∃ deriv, ((a.zipIdx.drop 1).mapM fun x : Value × Nat =>
        (evalNumericBinary numbers .multiply x.1 (.fromBigint x.2)).expect) = pure deriv ∧
        Denotes deriv (derivative p) ∧ deriv.length = (a.zipIdx.drop 1).length := by
      refine Denotes.mapM (fun i x hx => ?_) fun i hi => ?_
      · rw [List.getElem?_drop, List.getElem?_zipIdx] at hx
        obtain ⟨v, hv, rfl⟩ := Option.map_eq_some_iff.mp hx
        obtain ⟨w, hw, his⟩ :=
          evalNumericBinary_multiply numbers (ha.coeff hv) (Value.is_fromBigint (0 + (1 + i) : Nat))
        refine ⟨w, by rw [hw, expect_pure], ?_⟩
        rw [coeff_derivative, add_comm i 1]
        convert his using 2
        push_cast
        ring
      · rw [List.length_drop, List.length_zipIdx] at hi
        rw [coeff_derivative, ha.coeff_of_le (by omega), zero_mul]
    refine ⟨polyTrim deriv, ?_, hdenotes.trim⟩
    exact (congrArg (· >>= fun d => pure (polyTrim d)) hderiv).trans (pure_bind _ _)

theorem polyMakeMonic_zero (ha : Denotes a 0) :
    ∃ c, polyMakeMonic numbers a = pure c ∧ Denotes c 0 := by
  refine ⟨polyTrim a, ?_, ha.trim⟩
  rw [polyMakeMonic]
  dsimp only
  rw [if_pos (ha.trim.isZero_iff.mpr rfl)]

/-- A list that ends with the leading coefficient is divided by it. -/
theorem scale_spec (ha : Denotes a p) (hp : p ≠ 0) (hlen : a.length = p.natDegree + 1) :
    ∃ c, (do
      let lc ← Checked.ofOption a.getLast?
      if lc.numericIsOne then return a
      else
        let scale ← evalExactNumericDiv numbers (.int 1) lc
        return polyTrim (← polyConstMul numbers a scale)) = pure c ∧
      Denotes c (p * C p.leadingCoeff⁻¹) := by
  obtain ⟨lc, hlast, hlc⟩ := ha.last hlen
  rw [hlast]
  by_cases hone : lc.numericIsOne = true
  · refine ⟨a, ?_, ?_⟩
    · exact (pure_bind _ _).trans (if_pos hone)
    · rw [(Value.numericIsOne_iff hlc).mp hone, inv_one, C_1, mul_one]
      exact ha
  · obtain ⟨scale, hscale, hs⟩ :=
      evalExactNumericDiv_spec numbers Value.is_one hlc (leadingCoeff_ne_zero.mpr hp)
    obtain ⟨c, hc, hdenotes, -⟩ := polyConstMul_spec numbers ha hs
    refine ⟨polyTrim c, ?_, ?_⟩
    · refine (pure_bind _ _).trans ((if_neg hone).trans ?_)
      rw [hscale, pure_bind, hc, pure_bind]
    · rw [← one_div]
      exact hdenotes.trim

/-- A polynomial becomes its monic multiple. -/
theorem polyMakeMonic_spec (ha : Denotes a p) (hp : p ≠ 0) :
    ∃ c, polyMakeMonic numbers a = pure c ∧ Denotes c (p * C p.leadingCoeff⁻¹) := by
  have htrim := ha.trim
  have hlen := ha.trim_length hp
  obtain ⟨lc, hlast, hlc⟩ := htrim.last hlen
  have hnonzero : ¬polyIsZero (polyTrim a) = true := fun h => hp (htrim.isZero_iff.mp h)
  rw [polyMakeMonic]
  dsimp only
  rw [if_neg hnonzero, hlast]
  by_cases hneg : lc.numericIsNegative = true
  · obtain ⟨n, hn, hdenotes, hnlen⟩ := polyNeg_spec numbers htrim
    have hn0 : -p ≠ 0 := neg_ne_zero.mpr hp
    obtain ⟨c, hc, hcdenotes⟩ := scale_spec numbers hdenotes hn0
      (by rw [hnlen, hlen, natDegree_neg])
    refine ⟨c, ?_, ?_⟩
    · refine (pure_bind _ _).trans ?_
      rw [if_pos hneg, hn, pure_bind]
      exact hc
    · convert hcdenotes using 1
      rw [leadingCoeff_neg, inv_neg, C_neg, neg_mul_neg]
  · obtain ⟨c, hc, hcdenotes⟩ := scale_spec numbers htrim hp hlen
    refine ⟨c, ?_, hcdenotes⟩
    refine (pure_bind _ _).trans ?_
    rw [if_neg hneg, pure_bind]
    exact hc

end Operations

end Wqpl
