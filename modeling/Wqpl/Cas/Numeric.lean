/-
# Exact numbers of the symbolic algebra

Integers, fractions and elements of a real extension of the rationals: the
tests the symbolic code makes on them (`exactInt`, `numericIsZero`,
`numericIsNegative`, the sign of an algebraic number), and the real number a
value stands for (`Value.real`). An element of an extension is a list of
coefficients; its generator is a real root of the polynomial of the field, and
the field keeps an interval of floats around it. The sign test only knows the
sign of the generator, so it decides a number with one term and gives up on
the others (`numericSignOfAtom_sound`).
-/
import Mathlib
import Wqpl.Hash

namespace Wqpl

/-! ### Floats as reals -/

namespace F64

/-- `f > 0.0`. -/
def isPositive (f : F64) : Bool := f.partialCmp ⟨0#64⟩ = some .gt

/-- `f < 0.0`. -/
def isNegative (f : F64) : Bool := f.partialCmp ⟨0#64⟩ = some .lt

/-- The real number of a finite float. -/
noncomputable def toReal (f : F64) : ℝ :=
  let magnitude : ℝ :=
    if f.exponent = 0 then f.fraction * 2 ^ (-1074 : ℤ)
    else (2 ^ 52 + f.fraction) * 2 ^ ((f.exponent : ℤ) - 1075)
  if f.signBit then -magnitude else magnitude

theorem toReal_eq (f : F64) : ∃ m : ℝ, 0 ≤ m ∧ f.toReal = if f.signBit then -m else m := by
  refine ⟨_, ?_, rfl⟩
  by_cases h : f.exponent = 0
  · rw [if_pos h]
    positivity
  · rw [if_neg h]
    positivity

theorem signBit_of_isPositive {f : F64} (h : f.isPositive = true) : f.signBit = false := by
  rcases hs : f.signBit with _ | _
  · rfl
  · have hr : f.rank ≤ 0 := by
      simp only [rank, hs]
      exact neg_nonpos.mpr (Int.natCast_nonneg _)
    rw [isPositive, decide_eq_true_eq, partialCmp] at h
    split at h
    · exact absurd h (by simp)
    · have h0 : (F64.rank ⟨0#64⟩) = 0 := by decide
      rw [Option.some.injEq, h0, compare_gt_iff_gt] at h
      omega

theorem signBit_of_isNegative {f : F64} (h : f.isNegative = true) : f.signBit = true := by
  rcases hs : f.signBit with _ | _
  · have hr : 0 ≤ f.rank := by
      simp only [rank, hs]
      exact Int.natCast_nonneg _
    rw [isNegative, decide_eq_true_eq, partialCmp] at h
    split at h
    · exact absurd h (by simp)
    · have h0 : (F64.rank ⟨0#64⟩) = 0 := by decide
      rw [Option.some.injEq, h0, compare_lt_iff_lt] at h
      omega
  · rfl

theorem toReal_nonneg {f : F64} (h : f.isPositive = true) : 0 ≤ f.toReal := by
  obtain ⟨m, hm, hf⟩ := toReal_eq f
  rw [hf, signBit_of_isPositive h]
  exact hm

theorem toReal_nonpos {f : F64} (h : f.isNegative = true) : f.toReal ≤ 0 := by
  obtain ⟨m, hm, hf⟩ := toReal_eq f
  rw [hf, signBit_of_isNegative h]
  exact neg_nonpos.mpr hm

end F64

/-! ### Fields -/

namespace AlgebraicField

def poly : AlgebraicField → List Int
  | .mk _ poly _ _ _ => poly

def rootIndex : AlgebraicField → Nat
  | .mk _ _ rootIndex _ _ => rootIndex

def interval : AlgebraicField → F64 × F64
  | .mk _ _ _ lo hi => (lo, hi)

/-- The polynomial with these coefficients, from the constant one up. -/
noncomputable def polynomial (field : AlgebraicField) : Polynomial ℝ :=
  (field.poly.map fun (c : Int) => (c : ℝ)).foldr (fun c p => Polynomial.C c + Polynomial.X * p) 0

/-- The chosen real root: its index counts the distinct real roots below it. -/
noncomputable def generator (field : AlgebraicField) : ℝ :=
  (field.polynomial.roots.toFinset.sort (· ≤ ·)).getD field.rootIndex 0

/-- The generator is a root, if there are as many roots as its index asks for. -/
theorem generator_mem_or_zero (field : AlgebraicField) :
    field.generator ∈ field.polynomial.roots ∨ field.generator = 0 := by
  rw [generator]
  by_cases h : field.rootIndex < (field.polynomial.roots.toFinset.sort (· ≤ ·)).length
  · refine .inl ?_
    rw [List.getD_eq_getElem _ _ h]
    exact Multiset.mem_toFinset.mp ((Finset.mem_sort _).mp (List.getElem_mem h))
  · exact .inr (List.getD_eq_default _ _ (not_lt.mp h))

/-- The interval is around the generator, as every constructor of a field
leaves it. -/
def Isolated (field : AlgebraicField) : Prop :=
  field.interval.1.toReal < field.generator ∧ field.generator < field.interval.2.toReal

theorem generator_canon (field : AlgebraicField) : field.canon.generator = field.generator := by
  obtain ⟨_, _, _, _, _⟩ := field
  rfl

theorem Isolated.pos {field : AlgebraicField} (h : field.Isolated)
    (hlo : field.interval.1.isPositive = true) : 0 < field.generator :=
  lt_of_le_of_lt (F64.toReal_nonneg hlo) h.1

theorem Isolated.neg {field : AlgebraicField} (h : field.Isolated)
    (hhi : field.interval.2.isNegative = true) : field.generator < 0 :=
  lt_of_lt_of_le h.2 (F64.toReal_nonpos hhi)

end AlgebraicField

/-! ### Tests on numbers -/

/-- Proven sign of an exact numeric value. -/
inductive NumericSign
  | negative | zero | positive | unknown
deriving DecidableEq, Repr

def negateSign : NumericSign → NumericSign
  | .negative => .positive
  | .zero => .zero
  | .positive => .negative
  | .unknown => .unknown

/-- The sign of a number read off its comparison with zero. -/
def signOfOrdering : Ordering → NumericSign
  | .lt => .negative
  | .eq => .zero
  | .gt => .positive

namespace Value

/-- `exact_int`. -/
def exactInt : Value → Option Int
  | .int n => some n.toInt
  | .bigInt n => some n
  | .fraction q => if q.den = 1 then some q.num else none
  | _ => none

def isKnownNumeric : Value → Bool
  | .int _ | .bigInt _ | .float _ | .complex _ _ | .fraction _ | .algebraic _ _ => true
  | _ => false

mutual

def numericIsZero : Value → Bool
  | .int n => n.toInt = 0
  | .bigInt n => n = 0
  | .float f => f.isZero
  | .fraction q => q.num = 0
  | .algebraic _ coeffs => allNumericZero coeffs
  | _ => false
termination_by structural v => v

/-- `AlgebraicData::is_zero`. -/
def allNumericZero : List Value → Bool
  | [] => true
  | c :: cs => numericIsZero c && allNumericZero cs
termination_by structural cs => cs

end

/-- The places of the coefficients that are not zero. -/
def nonZeroIndices (coeffs : List Value) : List Nat :=
  (coeffs.zipIdx.filter fun c => !numericIsZero c.1).map Prod.snd

/-- `AlgebraicData::sign`, from the signs of the coefficients. The source tests
a constant first; that is the term of index 0. -/
def algebraicSign (field : AlgebraicField) (coeffs : List Value) (signs : List NumericSign) :
    NumericSign :=
  if allNumericZero coeffs then .zero
  else
    match nonZeroIndices coeffs with
    | [i] =>
      if field.interval.1.isPositive then signs.getD i .unknown
      else if field.interval.2.isNegative then
        if i % 2 = 0 then signs.getD i .unknown else negateSign (signs.getD i .unknown)
      else .unknown
    | _ => .unknown

mutual

def numericSignOfAtom : Value → NumericSign
  | .int n => signOfOrdering (compare n.toInt 0)
  | .bigInt n => signOfOrdering (compare n 0)
  | .fraction q => signOfOrdering (compare q.num 0)
  | .algebraic field coeffs => algebraicSign field coeffs (signsOfAtoms coeffs)
  | _ => .unknown
termination_by structural v => v

def signsOfAtoms : List Value → List NumericSign
  | [] => []
  | c :: cs => numericSignOfAtom c :: signsOfAtoms cs
termination_by structural cs => cs

end

def numericIsNegative : Value → Bool
  | .int n => n.toInt < 0
  | .bigInt n => n < 0
  | .float f => f.isNegative
  | .fraction q => q.num < 0
  | .algebraic field coeffs => numericSignOfAtom (.algebraic field coeffs) = .negative
  | _ => false

/-! ### What a number stands for -/

/-- `c₀ + c₁ α + c₂ α² + …`. -/
noncomputable def evaluate (α : ℝ) : List ℝ → ℝ
  | [] => 0
  | c :: cs => c + α * evaluate α cs

mutual

/-- The real number of an exact number. The coefficients of an algebraic number
are exact, as every constructor leaves them; anything else reads as 0. -/
noncomputable def real : Value → ℝ
  | .int n => (n.toInt : ℝ)
  | .bigInt n => n
  | .fraction q => q
  | .algebraic field coeffs => evaluate field.generator (reals coeffs)
  | _ => 0
termination_by structural v => v

noncomputable def reals : List Value → List ℝ
  | [] => []
  | c :: cs => real c :: reals cs
termination_by structural cs => cs

end

mutual

/-- The intervals of the number and of its coefficients are around their
generators. -/
def Isolated : Value → Prop
  | .algebraic field coeffs => field.Isolated ∧ AllIsolated coeffs
  | _ => True
termination_by structural v => v

def AllIsolated : List Value → Prop
  | [] => True
  | c :: cs => Isolated c ∧ AllIsolated cs
termination_by structural cs => cs

end

/-- An integer, a fraction or an algebraic number. -/
def IsExact : Value → Bool
  | .int _ | .bigInt _ | .fraction _ | .algebraic _ _ => true
  | _ => false

theorem exactInt_real {v : Value} {n : Int} (h : exactInt v = some n) : real v = n := by
  cases v <;> simp only [exactInt, Option.some.injEq, reduceCtorEq] at h
  case int m => rw [← h, real]
  case bigInt m => rw [← h, real]
  case fraction q =>
    split at h
    · rename_i hq
      obtain rfl := Option.some.inj h
      have hq' : q = (q.num : ℚ) := (Rat.coe_int_num_of_den_eq_one hq).symm
      rw [real]
      exact_mod_cast congrArg (fun r : ℚ => (r : ℝ)) hq'
    · exact absurd h (by simp)

/-- A fraction that is not an exact integer is not an integer. -/
theorem exactInt_of_real {v : Value} (hv : IsExact v = true)
    (halg : ∀ field coeffs, v ≠ .algebraic field coeffs) {n : Int} (h : real v = n) :
    exactInt v = some n := by
  cases v <;> simp only [IsExact, Bool.false_eq_true] at hv
  case int m =>
    rw [real] at h
    rw [exactInt, Int.cast_injective h]
  case bigInt m =>
    rw [real] at h
    rw [exactInt, Int.cast_injective h]
  case fraction q =>
    rw [real] at h
    have hq : q = (n : ℚ) := by exact_mod_cast h
    rw [exactInt, hq, if_pos (Rat.den_intCast n), Rat.num_intCast]
  case algebraic field coeffs => exact absurd rfl (halg field coeffs)

theorem exactInt_canon (v : Value) : exactInt (canon v) = exactInt v := by
  cases v
  case bigInt n =>
    simp only [canon, ValueSeq.fromValue, canonAtom]
    rcases hm : i64? n with _ | m
    · rfl
    · simp only [exactInt, i64?_some_iff.mp hm]
  all_goals rfl

/-! ### The tests are right -/

mutual

theorem real_of_numericIsZero : ∀ v : Value, numericIsZero v = true → real v = 0
  | .int n, h => by
    rw [numericIsZero, decide_eq_true_eq] at h
    rw [real, h, Int.cast_zero]
  | .bigInt n, h => by
    rw [numericIsZero, decide_eq_true_eq] at h
    rw [real, h, Int.cast_zero]
  | .fraction q, h => by
    rw [numericIsZero, decide_eq_true_eq, Rat.num_eq_zero] at h
    rw [real, h, Rat.cast_zero]
  | .algebraic field coeffs, h => by
    rw [numericIsZero] at h
    rw [real]
    exact evaluate_of_allNumericZero field.generator coeffs h
  | .float _, _ | .complex _ _, _ | .char _, _ | .tag _, _ | .bool _, _ | .intList _, _
  | .intRange _, _ | .floatList _, _ | .boolList _, _ | .list _, _ | .string _, _ | .cas _, _
  | .dict _, _ | .compiledFunction _, _ | .closure _ _, _ | .builtinFunction _ _, _
  | .liftedCallable _, _ | .rng _, _ | .stream _, _ => rfl
termination_by structural v => v

theorem evaluate_of_allNumericZero (α : ℝ) : ∀ cs : List Value, allNumericZero cs = true →
    evaluate α (reals cs) = 0
  | [], _ => rfl
  | c :: cs, h => by
    rw [allNumericZero, Bool.and_eq_true] at h
    rw [reals, evaluate, real_of_numericIsZero c h.1, evaluate_of_allNumericZero α cs h.2,
      mul_zero, add_zero]
termination_by structural cs => cs

end

theorem allNumericZero_iff : ∀ cs : List Value,
    allNumericZero cs = true ↔ ∀ c ∈ cs, numericIsZero c = true
  | [] => by simp [allNumericZero]
  | c :: cs => by simp [allNumericZero, allNumericZero_iff cs]

/-- The one coefficient that is not zero. -/
theorem single_of_nonZeroIndices {coeffs : List Value} {i : Nat}
    (h : nonZeroIndices coeffs = [i]) : ∃ before c after, coeffs = before ++ c :: after ∧
      before.length = i ∧ numericIsZero c = false ∧ allNumericZero before = true ∧
      allNumericZero after = true := by
  obtain ⟨⟨c, j⟩, as, hfilter, hj, hrest⟩ := List.map_eq_cons_iff.mp h
  obtain rfl := List.map_eq_nil_iff.mp hrest
  obtain ⟨l₁, l₂, hsplit, hbefore, hnonzero, hafter⟩ := List.filter_eq_cons_iff.mp hfilter
  obtain ⟨before, rest, hcoeffs, rfl, hl₂⟩ := List.zipIdx_eq_append_iff.mp hsplit
  obtain ⟨c', after, rfl, hc, rfl⟩ := List.zipIdx_eq_cons_iff.mp hl₂.symm
  obtain ⟨rfl, rfl⟩ := Prod.mk.inj hc
  refine ⟨before, c, after, hcoeffs, by simpa using hj, by simpa using hnonzero, ?_, ?_⟩
  · refine (allNumericZero_iff before).mpr fun x hx => ?_
    obtain ⟨k, hk⟩ := List.mem_iff_getElem?.mp hx
    simpa using hbefore (x, k) (List.mem_zipIdx_iff_getElem?.mpr hk)
  · refine (allNumericZero_iff after).mpr fun x hx => ?_
    have hnil := List.filter_eq_nil_iff.mp hafter
    obtain ⟨k, hk⟩ := List.mem_iff_getElem?.mp hx
    simpa using hnil (x, _ + k) (List.mk_add_mem_zipIdx_iff_getElem?.mpr hk)

theorem evaluate_single (α : ℝ) : ∀ (before : List Value) (c : Value) (after : List Value),
    allNumericZero before = true → allNumericZero after = true →
      evaluate α (reals (before ++ c :: after)) = real c * α ^ before.length
  | [], c, after, _, hafter => by
    rw [List.nil_append, reals, evaluate, evaluate_of_allNumericZero α after hafter]
    simp
  | b :: before, c, after, hbefore, hafter => by
    rw [allNumericZero, Bool.and_eq_true] at hbefore
    rw [List.cons_append, reals, evaluate, evaluate_single α before c after hbefore.2 hafter,
      real_of_numericIsZero b hbefore.1, List.length_cons, pow_succ]
    ring

theorem signsOfAtoms_append : ∀ before after : List Value,
    signsOfAtoms (before ++ after) = signsOfAtoms before ++ signsOfAtoms after
  | [], _ => rfl
  | c :: before, after => by
    rw [List.cons_append, signsOfAtoms, signsOfAtoms, signsOfAtoms_append before after,
      List.cons_append]

theorem length_signsOfAtoms : ∀ cs : List Value, (signsOfAtoms cs).length = cs.length
  | [] => rfl
  | c :: cs => by rw [signsOfAtoms, List.length_cons, length_signsOfAtoms cs, List.length_cons]

theorem getD_signsOfAtoms (before : List Value) (c : Value) (after : List Value) :
    (signsOfAtoms (before ++ c :: after)).getD before.length .unknown = numericSignOfAtom c := by
  rw [signsOfAtoms_append, ← length_signsOfAtoms before]
  simp [signsOfAtoms, List.getD]

end Value

/-- What a sign says of a number. -/
def NumericSign.Of : NumericSign → ℝ → Prop
  | .negative, x => x < 0
  | .zero, x => x = 0
  | .positive, x => 0 < x
  | .unknown, _ => True

namespace NumericSign

theorem of_ordering (n : Int) : (signOfOrdering (compare n 0)).Of (n : ℝ) := by
  rcases h : compare n 0 with _ | _ | _
  · exact Int.cast_lt_zero.mpr (compare_lt_iff_lt.mp h)
  · exact Int.cast_eq_zero.mpr (compare_eq_iff_eq.mp h)
  · exact Int.cast_pos.mpr (compare_gt_iff_gt.mp h)

theorem Of.mul_pos {s : NumericSign} {x y : ℝ} (h : s.Of x) (hy : 0 < y) : s.Of (x * y) := by
  rcases s with _ | _ | _ | _
  · exact mul_neg_of_neg_of_pos h hy
  · exact mul_eq_zero_of_left h y
  · exact Left.mul_pos h hy
  · trivial

theorem Of.mul_neg {s : NumericSign} {x y : ℝ} (h : s.Of x) (hy : y < 0) :
    (negateSign s).Of (x * y) := by
  rcases s with _ | _ | _ | _
  · exact mul_pos_of_neg_of_neg h hy
  · exact mul_eq_zero_of_left h y
  · exact mul_neg_of_pos_of_neg h hy
  · trivial

end NumericSign

namespace Value

theorem algebraicSign_sound {field : AlgebraicField} {coeffs : List Value} (h : field.Isolated)
    (hs : ∀ c ∈ coeffs, (numericSignOfAtom c).Of (real c)) :
    (algebraicSign field coeffs (signsOfAtoms coeffs)).Of
      (evaluate field.generator (reals coeffs)) := by
  rw [algebraicSign]
  split
  · rename_i hzero
    exact evaluate_of_allNumericZero field.generator coeffs hzero
  · split
    · rename_i i hi
      obtain ⟨before, c, after, rfl, rfl, -, hbefore, hafter⟩ := single_of_nonZeroIndices hi
      have hc : (numericSignOfAtom c).Of (real c) := hs c (by simp)
      rw [evaluate_single _ before c after hbefore hafter, getD_signsOfAtoms]
      split
      · rename_i hlo
        exact hc.mul_pos (pow_pos (h.pos hlo) _)
      · split
        · rename_i hhi
          have hneg := h.neg hhi
          split
          · rename_i heven
            exact hc.mul_pos (Even.pow_pos (Nat.even_iff.mpr heven) hneg.ne)
          · rename_i hodd
            exact hc.mul_neg (Odd.pow_neg (Nat.not_even_iff_odd.mp (mt Nat.even_iff.mp hodd)) hneg)
        · trivial
    · trivial

mutual

/-- The sign of an exact number, where the test knows it. -/
theorem numericSignOfAtom_sound : ∀ v : Value, Isolated v → (numericSignOfAtom v).Of (real v)
  | .int n, _ => NumericSign.of_ordering n.toInt
  | .bigInt n, _ => NumericSign.of_ordering n
  | .fraction q, _ => by
    rw [numericSignOfAtom, real]
    have hd : (0 : ℝ) < (q.den : ℝ)⁻¹ := inv_pos.mpr (Nat.cast_pos.mpr q.den_pos)
    have hq := (NumericSign.of_ordering q.num).mul_pos hd
    rwa [← div_eq_mul_inv, ← Rat.cast_def] at hq
  | .algebraic field coeffs, h => by
    rw [Isolated] at h
    rw [numericSignOfAtom, real]
    exact algebraicSign_sound h.1 (signsOfAtoms_sound coeffs h.2)
  | .float _, _ | .complex _ _, _ | .char _, _ | .tag _, _ | .bool _, _ | .intList _, _
  | .intRange _, _ | .floatList _, _ | .boolList _, _ | .list _, _ | .string _, _ | .cas _, _
  | .dict _, _ | .compiledFunction _, _ | .closure _ _, _ | .builtinFunction _ _, _
  | .liftedCallable _, _ | .rng _, _ | .stream _, _ => trivial
termination_by structural v => v

theorem signsOfAtoms_sound : ∀ cs : List Value, AllIsolated cs →
    ∀ c ∈ cs, (numericSignOfAtom c).Of (real c)
  | [], _, _, hc => absurd hc List.not_mem_nil
  | c :: cs, h, x, hx => by
    rw [AllIsolated] at h
    rcases List.mem_cons.mp hx with hx | hx
    · rw [hx]
      exact numericSignOfAtom_sound c h.1
    · exact signsOfAtoms_sound cs h.2 x hx
termination_by structural cs => cs

end

theorem signOfOrdering_eq_zero {o : Ordering} (h : signOfOrdering o = .zero) : o = .eq := by
  cases o <;> simp_all [signOfOrdering]

theorem negateSign_eq_zero {s : NumericSign} (h : negateSign s = .zero) : s = .zero := by
  cases s <;> simp_all [negateSign]

mutual

/-- The sign test says zero only of what the zero test accepts. -/
theorem numericIsZero_of_sign : ∀ v : Value, numericSignOfAtom v = .zero → numericIsZero v = true
  | .int n, h => decide_eq_true (compare_eq_iff_eq.mp (signOfOrdering_eq_zero h))
  | .bigInt n, h => decide_eq_true (compare_eq_iff_eq.mp (signOfOrdering_eq_zero h))
  | .fraction q, h => decide_eq_true (compare_eq_iff_eq.mp (signOfOrdering_eq_zero h))
  | .algebraic field coeffs, h => by
    rw [numericSignOfAtom, algebraicSign] at h
    rw [numericIsZero]
    by_contra hzero
    rw [if_neg hzero] at h
    split at h
    · rename_i i hi
      obtain ⟨before, c, after, hcoeffs, hlength, hnonzero, -, -⟩ := single_of_nonZeroIndices hi
      rw [hcoeffs, ← hlength, getD_signsOfAtoms] at h
      have hc : numericSignOfAtom c = .zero := by
        split_ifs at h with hlo hhi heven
        · exact h
        · exact h
        · exact negateSign_eq_zero h
      have hmem : c ∈ coeffs := by simp [hcoeffs]
      exact Bool.false_ne_true (hnonzero.symm.trans (numericIsZero_of_signs coeffs c hmem hc))
    · exact absurd h (by simp)
  | .float _, h | .complex _ _, h | .char _, h | .tag _, h | .bool _, h | .intList _, h
  | .intRange _, h | .floatList _, h | .boolList _, h | .list _, h | .string _, h | .cas _, h
  | .dict _, h | .compiledFunction _, h | .closure _ _, h | .builtinFunction _ _, h
  | .liftedCallable _, h | .rng _, h | .stream _, h => nomatch h
termination_by structural v => v

theorem numericIsZero_of_signs : ∀ cs : List Value, ∀ c ∈ cs, numericSignOfAtom c = .zero →
    numericIsZero c = true
  | [], _, hc, _ => absurd hc List.not_mem_nil
  | c :: cs, x, hx, h => by
    rcases List.mem_cons.mp hx with hx | hx
    · rw [hx] at h ⊢
      exact numericIsZero_of_sign c h
    · exact numericIsZero_of_signs cs x hx h
termination_by structural cs => cs

end

theorem signOfOrdering_eq_negative (o : Ordering) : signOfOrdering o = .negative ↔ o = .lt := by
  cases o <;> simp [signOfOrdering]

theorem numericIsNegative_iff {v : Value} (hv : IsExact v = true) :
    numericIsNegative v = true ↔ numericSignOfAtom v = .negative := by
  cases v <;> simp only [IsExact, Bool.false_eq_true] at hv
  case algebraic => simp [numericIsNegative]
  all_goals
    simp only [numericSignOfAtom, numericIsNegative, decide_eq_true_eq]
    rw [signOfOrdering_eq_negative, compare_lt_iff_lt]

mutual

/-- Equal values stand for the same number. -/
theorem real_canon : ∀ v : Value, real (canon v) = real v
  | .algebraic field coeffs => by
    rw [canon, real, real, AlgebraicField.generator_canon, reals_canon coeffs]
  | .bigInt n => by
    simp only [canon, ValueSeq.fromValue, canonAtom]
    split
    · rename_i m hm
      rw [real, real, i64?_some_iff.mp hm]
    · rfl
  | .int _ | .fraction _ | .float _ | .complex _ _ | .char _ | .tag _ | .bool _ | .intList _
  | .intRange _ | .floatList _ | .boolList _ | .list _ | .string _ | .cas _ | .dict _
  | .compiledFunction _ | .closure _ _ | .builtinFunction _ _ | .liftedCallable _ | .rng _
  | .stream _ => rfl
termination_by structural v => v

theorem reals_canon : ∀ cs : List Value, reals (canonItems cs) = reals cs
  | [] => rfl
  | c :: cs => by rw [canonItems, reals, reals, real_canon c, reals_canon cs]
termination_by structural cs => cs

end

end Value

end Wqpl
