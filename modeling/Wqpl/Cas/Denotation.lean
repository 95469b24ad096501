/-
# Values of symbolic expressions

Under an assignment of complex numbers to the variables an expression over
sums, products, integer powers, variables and exact numbers has a value
(`Value.denote`), or none where it is not defined. Equal expressions have the
same value (`denote_of_eq`), so a fact that is found by comparing expressions
says something about the value asked for.
-/
import Wqpl.Cas.Assumption
import Wqpl.Cas.ComplexSign

namespace Wqpl

/-! ### Values of expressions -/

/-- Complex numbers for the variables. -/
abbrev Assignment := String → ℂ

/-- An integer power; zero has no negative one. -/
noncomputable def integerPower (n : Int) (z : ℂ) : Option ℂ :=
  if z = 0 ∧ n < 0 then none else some (z ^ n)

namespace Value

mutual

/-- The value of an expression over sums, products, integer powers, variables
and exact numbers. -/
noncomputable def denote (env : Assignment) : Value → Option ℂ
  | .cas kind => denoteKind env kind
  | v => if IsExact v then some (real v : ℂ) else none
termination_by structural v => v

noncomputable def denoteKind (env : Assignment) : CasKind → Option ℂ
  | .var name => some (env name)
  | .const .pi => some (Real.pi : ℂ)
  | .const .e => some (Real.exp 1 : ℂ)
  | .op .add args => (denoteItems env args).map List.sum
  | .op .multiply args => (denoteItems env args).map List.prod
  | .op .power [base, exponent] =>
    (exactInt exponent).bind fun n => (denote env base).bind (integerPower n)
  | _ => none
termination_by structural kind => kind

noncomputable def denoteItems (env : Assignment) : List Value → Option (List ℂ)
  | [] => some []
  | v :: vs => (denote env v).bind fun z => (denoteItems env vs).map (z :: ·)
termination_by structural vs => vs

end

end Value

/-- What a predicate says of a number. -/
def CasPredicate.Of : CasPredicate → ℂ → Prop
  | .zero, z => z = 0
  | .nonZero, z => z ≠ 0
  | .positive, z => IsPositive z
  | .negative, z => IsNegative z
  | .nonNegative, z => IsNonNegative z
  | .real, z => IsReal z
  | .integer, z => IsInteger z

/-- The expression is defined and the predicate holds of its value. -/
def Fact.Holds (env : Assignment) (fact : Fact) : Prop :=
  ∃ z, Value.denote env fact.expr = some z ∧ fact.kind.Of z

theorem CasPredicate.Of.isReal {kind : CasPredicate} {z : ℂ} (h : kind.Of z)
    (hkind : kind ≠ .nonZero) : IsReal z := by
  rcases kind with _ | _ | _ | _ | _ | _ | _
  · obtain rfl : z = 0 := h
    exact IsReal.zero
  · exact absurd rfl hkind
  · obtain ⟨x, -, hx⟩ := h
    exact ⟨x, hx⟩
  · obtain ⟨x, -, hx⟩ := h
    exact ⟨x, hx⟩
  · obtain ⟨x, -, hx⟩ := h
    exact ⟨x, hx⟩
  · exact h
  · obtain ⟨n, rfl⟩ := h
    exact ⟨n, (Complex.ofReal_intCast n).symm⟩

theorem integerPower_eq {n : Int} {z w : ℂ} (h : integerPower n z = some w) :
    (z ≠ 0 ∨ 0 ≤ n) ∧ w = z ^ n := by
  rw [integerPower] at h
  split at h
  · exact absurd h (by simp)
  · rename_i hz
    refine ⟨?_, (Option.some.inj h).symm⟩
    by_contra hcontra
    push Not at hcontra
    exact hz ⟨hcontra.1, hcontra.2⟩

namespace Value

/-! ### The facts -/

mutual

/-- Equal expressions have the same value. -/
theorem denote_canon (env : Assignment) : ∀ v : Value, denote env (canon v) = denote env v
  | .cas kind => by
    rw [canon, denote, denote, denoteKind_canon env kind]
  | .algebraic field coeffs => by
    have h := real_canon (.algebraic field coeffs)
    rw [canon] at h ⊢
    rw [denote, denote, h]
    · rfl
    all_goals nofun
  | .bigInt n => by
    have h := real_canon (.bigInt n)
    simp only [canon, ValueSeq.fromValue, canonAtom] at h ⊢
    rcases hm : i64? n with _ | m
    · rfl
    · rw [hm] at h
      simp only [denote, IsExact, if_true, h]
  | .int _ | .fraction _ | .float _ | .complex _ _ | .char _ | .tag _ | .bool _ | .intList _
  | .intRange _ | .floatList _ | .boolList _ | .list _ | .string _ | .dict _
  | .compiledFunction _ | .closure _ _ | .builtinFunction _ _ | .liftedCallable _ | .rng _
  | .stream _ => rfl
termination_by structural v => v

theorem denoteKind_canon (env : Assignment) : ∀ kind : CasKind,
    denoteKind env (canonKind kind) = denoteKind env kind
  | .op .add args => by rw [canonKind, denoteKind, denoteKind, denoteItems_canon env args]
  | .op .multiply args => by rw [canonKind, denoteKind, denoteKind, denoteItems_canon env args]
  | .op .power [base, exponent] => by
    simp only [canonKind, canonItems, denoteKind, exactInt_canon, denote_canon env base]
  | .op .power [] | .op .power [_] | .op .power (_ :: _ :: _ :: _) | .op .subtract _
  | .op .divide _ | .var _ | .boundVar _ | .const _ | .function _ _ | .apply _ _ | .namedArg _ _
  | .integral _ _ _ | .limit _ _ _ _ | .eq _ _ | .predicate _ _ => rfl
termination_by structural kind => kind

theorem denoteItems_canon (env : Assignment) : ∀ vs : List Value,
    denoteItems env (canonItems vs) = denoteItems env vs
  | [] => rfl
  | v :: vs => by
    rw [canonItems, denoteItems, denoteItems, denote_canon env v, denoteItems_canon env vs]
termination_by structural vs => vs

end

theorem denote_of_eq {a b : Value} (h : eq a b = true) (env : Assignment) :
    denote env a = denote env b := by
  rw [← denote_canon env a, ← denote_canon env b, (eq_iff a b).mp h]

section Facts

variable {env : Assignment} {facts : List Fact} (hfacts : ∀ fact ∈ facts, fact.Holds env)
include hfacts

theorem holds_of_eq {fact : Fact} {value : Value} {z : ℂ} (hmem : fact ∈ facts)
    (heq : eq fact.expr value = true) (hz : denote env value = some z) : fact.kind.Of z := by
  obtain ⟨w, hw, hof⟩ := hfacts fact hmem
  rw [denote_of_eq heq env, hz] at hw
  obtain rfl := Option.some.inj hw
  exact hof

theorem lastFact_holds {α : Type} {answer : CasPredicate → Option α} {value : Value} {z : ℂ}
    {a : α} (h : lastFact answer facts value = some a) (hz : denote env value = some z) :
    ∃ kind : CasPredicate, answer kind = some a ∧ kind.Of z := by
  obtain ⟨fact, hmem, hanswer⟩ := List.exists_of_findSome?_eq_some h
  split at hanswer
  · rename_i heq
    exact ⟨fact.kind, hanswer, holds_of_eq hfacts (List.mem_reverse.mp hmem) heq hz⟩
  · exact absurd hanswer (by simp)

theorem directZeroFact_sound {value : Value} {z : ℂ} {truth : Truth}
    (h : directZeroFact facts value = some truth) (hz : denote env value = some z) :
    truth.Decides (z = 0) (z ≠ 0) := by
  obtain ⟨kind, hanswer, hof⟩ := lastFact_holds hfacts h hz
  rcases kind with _ | _ | _ | _ | _ | _ | _ <;>
    simp only [zeroAnswer, Option.some.injEq, reduceCtorEq] at hanswer <;> subst hanswer
  case zero => exact .ofProven hof
  case nonZero => exact .ofRefuted hof
  case positive => exact .ofRefuted (IsPositive.ne_zero hof)
  case negative => exact .ofRefuted (IsNegative.ne_zero hof)

theorem directRealFact_sound {value : Value} {z : ℂ} (h : directRealFact facts value = true)
    (hz : denote env value = some z) : IsReal z := by
  obtain ⟨fact, hmem, hanswer⟩ := List.any_eq_true.mp h
  have hmem := List.mem_reverse.mp hmem
  have hkind : fact.kind ≠ .nonZero := by
    intro hk
    simp [hk] at hanswer
  have heq : eq fact.expr value = true := by
    rcases hk : fact.kind with _ | _ | _ | _ | _ | _ | _ <;> simp [hk] at hanswer <;> exact hanswer
  exact CasPredicate.Of.isReal (holds_of_eq hfacts hmem heq hz) hkind

theorem directIntegerFact_sound {value : Value} {z : ℂ}
    (h : directIntegerFact facts value = true) (hz : denote env value = some z) :
    IsInteger z := by
  obtain ⟨fact, hmem, hanswer⟩ := List.any_eq_true.mp h
  have hmem := List.mem_reverse.mp hmem
  rcases hk : fact.kind with _ | _ | _ | _ | _ | _ | _ <;> simp only [hk, Bool.false_eq_true] at hanswer
  case zero =>
    have hzero := holds_of_eq hfacts hmem hanswer hz
    rw [hk] at hzero
    obtain rfl : z = 0 := hzero
    exact ⟨0, Int.cast_zero.symm⟩
  case integer =>
    have hinteger := holds_of_eq hfacts hmem hanswer hz
    rw [hk] at hinteger
    exact hinteger

/-- What the facts of a sign query prove and refute. -/
theorem directSignFact_positive {value : Value} {z : ℂ} {truth : Truth}
    (h : directSignFact facts value .positive = some truth) (hz : denote env value = some z) :
    truth.Decides (IsPositive z) (IsNonPositive z) := by
  obtain ⟨kind, hanswer, hof⟩ := lastFact_holds hfacts h hz
  rcases kind with _ | _ | _ | _ | _ | _ | _ <;>
    simp only [signAnswer, Option.some.injEq, reduceCtorEq] at hanswer <;> subst hanswer
  case zero =>
    obtain rfl : z = 0 := hof
    exact .ofRefuted IsNonPositive.zero
  case positive => exact .ofProven hof
  case negative => exact .ofRefuted (IsNegative.nonPositive hof)

theorem directSignFact_negative {value : Value} {z : ℂ} {truth : Truth}
    (h : directSignFact facts value .negative = some truth) (hz : denote env value = some z) :
    truth.Decides (IsNegative z) (IsNonNegative z) := by
  obtain ⟨kind, hanswer, hof⟩ := lastFact_holds hfacts h hz
  rcases kind with _ | _ | _ | _ | _ | _ | _ <;>
    simp only [signAnswer, Option.some.injEq, reduceCtorEq] at hanswer <;> subst hanswer
  case zero =>
    obtain rfl : z = 0 := hof
    exact .ofRefuted IsNonNegative.zero
  case positive => exact .ofRefuted (IsPositive.nonNegative hof)
  case negative => exact .ofProven hof
  case nonNegative => exact .ofRefuted hof

theorem directSignFact_nonNegative {value : Value} {z : ℂ} {truth : Truth}
    (h : directSignFact facts value .nonNegative = some truth) (hz : denote env value = some z) :
    truth.Decides (IsNonNegative z) (IsNegative z) := by
  obtain ⟨kind, hanswer, hof⟩ := lastFact_holds hfacts h hz
  rcases kind with _ | _ | _ | _ | _ | _ | _ <;>
    simp only [signAnswer, Option.some.injEq, reduceCtorEq] at hanswer <;> subst hanswer
  case zero =>
    obtain rfl : z = 0 := hof
    exact .ofProven IsNonNegative.zero
  case positive => exact .ofProven (IsPositive.nonNegative hof)
  case negative => exact .ofRefuted hof
  case nonNegative => exact .ofProven hof

end Facts

end Value

end Wqpl
