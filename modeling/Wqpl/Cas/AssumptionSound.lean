/-
# What the answers of the assumption prover mean

Under an assignment of complex numbers to the variables an expression has a
value, or none where it is not defined. `proven` says that the predicate holds
under every assignment that satisfies the facts, and `refuted` that it fails
(`assumptions_sound`). Two rules of the code do not keep to this, and the
theorem leaves their inputs out (`Reliable`): a number whose sign test gives up
counts as positive, and a sum or product with a number that is not an integer
counts as not an integer.

The search for a sign relies on more than its answers say: where it refutes
that a value is positive, the value is real (`provePositive_sound`), and so
the rule for odd powers may pass the answer on.
-/
import Wqpl.Cas.Denotation

namespace Wqpl

namespace Value

/-! ### The numbers a search comes to -/

mutual

/-- The property holds of the numbers that the searches for zero and for a sign
come to, through products and the bases of powers. -/
def EachNumber (P : Value → Prop) : Value → Prop
  | .cas kind => EachNumberOp P kind
  | v => P v
termination_by structural v => v

def EachNumberOp (P : Value → Prop) : CasKind → Prop
  | .op .multiply factors => EachNumbers P factors
  | .op .power [base, _] => EachNumber P base
  | _ => True
termination_by structural kind => kind

def EachNumbers (P : Value → Prop) : List Value → Prop
  | [] => True
  | v :: vs => EachNumber P v ∧ EachNumbers P vs
termination_by structural vs => vs

end

/-- The intervals of the number are right, and where its sign test gives up
the number has the property. -/
def Tested (P : ℝ → Prop) (v : Value) : Prop :=
  Isolated v ∧ (IsExact v = true → numericSignOfAtom v = .unknown → P (real v))

theorem Tested.imp {P Q : ℝ → Prop} (h : ∀ x, P x → Q x) {v : Value} (hv : Tested P v) :
    Tested Q v :=
  ⟨hv.1, fun hexact hunknown => h _ (hv.2 hexact hunknown)⟩

mutual

theorem EachNumber.imp {P Q : Value → Prop} (h : ∀ v, P v → Q v) : ∀ v : Value,
    EachNumber P v → EachNumber Q v
  | .cas kind, hv => EachNumberOp.imp h kind hv
  | .int _, hv | .bigInt _, hv | .float _, hv | .complex _ _, hv | .fraction _, hv
  | .algebraic _ _, hv | .char _, hv | .tag _, hv | .bool _, hv | .intList _, hv | .intRange _, hv
  | .floatList _, hv | .boolList _, hv | .list _, hv | .string _, hv | .dict _, hv
  | .compiledFunction _, hv | .closure _ _, hv | .builtinFunction _ _, hv | .liftedCallable _, hv
  | .rng _, hv | .stream _, hv => h _ hv
termination_by structural v => v

theorem EachNumberOp.imp {P Q : Value → Prop} (h : ∀ v, P v → Q v) : ∀ kind : CasKind,
    EachNumberOp P kind → EachNumberOp Q kind
  | .op .multiply factors, hfactors => EachNumbers.imp h factors hfactors
  | .op .power [base, _], hbase => EachNumber.imp h base hbase
  | .op .power [], _ | .op .power [_], _ | .op .power (_ :: _ :: _ :: _), _ | .op .add _, _
  | .op .subtract _, _ | .op .divide _, _ | .var _, _ | .boundVar _, _ | .const _, _
  | .function _ _, _ | .apply _ _, _ | .namedArg _ _, _ | .integral _ _ _, _ | .limit _ _ _ _, _
  | .eq _ _, _ | .predicate _ _, _ => trivial
termination_by structural kind => kind

theorem EachNumbers.imp {P Q : Value → Prop} (h : ∀ v, P v → Q v) : ∀ vs : List Value,
    EachNumbers P vs → EachNumbers Q vs
  | [], _ => trivial
  | v :: vs, hvs => ⟨EachNumber.imp h v hvs.1, EachNumbers.imp h vs hvs.2⟩
termination_by structural vs => vs

end

/-- A number that is positive is not zero. -/
theorem EachNumber.nonzero (v : Value) (h : EachNumber (Tested (0 < ·)) v) :
    EachNumber (Tested (· ≠ 0)) v :=
  EachNumber.imp (fun _ hv => hv.imp fun _ hx => hx.ne') v h

/-- An expression is a number with a value, or symbolic. -/
theorem isExact_of_denote {env : Assignment} {v : Value} {z : ℂ} (h : denote env v = some z)
    (hv : ∀ kind, v ≠ .cas kind) : IsExact v = true ∧ z = real v := by
  cases v
  case cas kind => exact absurd rfl (hv kind)
  all_goals
    simp only [denote, IsExact, if_true, Bool.false_eq_true, if_false, Option.some.injEq,
      reduceCtorEq] at h
  all_goals exact ⟨rfl, h.symm⟩

/-- What the sign of a known number says, where a sign the test does not know
counts as positive. -/
theorem knownNumericSign_sound {P : ℝ → Prop} (hP : ∀ x, 0 < x → P x) {v : Value}
    (hexact : IsExact v = true) (hv : Tested P v) :
    knownNumericSign v = some .eq ∧ real v = 0 ∨ knownNumericSign v = some .lt ∧ real v < 0 ∨
      knownNumericSign v = some .gt ∧ P (real v) := by
  have hsign := numericSignOfAtom_sound v hv.1
  have hknown : knownNumericSign v = if numericIsZero v then some .eq
      else if numericIsNegative v then some .lt else some .gt := by
    cases v <;> simp only [IsExact, Bool.false_eq_true] at hexact <;> rfl
  rw [hknown]
  by_cases hzero : numericIsZero v = true
  · rw [if_pos hzero]
    exact .inl ⟨rfl, real_of_numericIsZero v hzero⟩
  · rw [if_neg hzero]
    by_cases hneg : numericIsNegative v = true
    · rw [if_pos hneg]
      rw [(numericIsNegative_iff hexact).mp hneg] at hsign
      exact .inr (.inl ⟨rfl, hsign⟩)
    · rw [if_neg hneg]
      refine .inr (.inr ⟨rfl, ?_⟩)
      rcases hs : numericSignOfAtom v with _ | _ | _ | _
      · exact absurd ((numericIsNegative_iff hexact).mpr hs) hneg
      · exact absurd (numericIsZero_of_sign v hs) hzero
      · rw [hs] at hsign
        exact hP _ hsign
      · exact hv.2 hexact hs

mutual

/-- Through sums and products that no fact settles, the search for an integer
comes to a number that is not one. -/
def reachesNonInteger (facts : List Fact) : Value → Bool
  | .cas kind => !directIntegerFact facts (.cas kind) && reachesNonIntegerOp facts kind
  | v => isKnownNumeric v && (exactInt v).isNone
termination_by structural v => v

def reachesNonIntegerOp (facts : List Fact) : CasKind → Bool
  | .op .add args | .op .multiply args => anyReachesNonInteger facts args
  | _ => false
termination_by structural kind => kind

def anyReachesNonInteger (facts : List Fact) : List Value → Bool
  | [] => false
  | v :: vs => reachesNonInteger facts v || anyReachesNonInteger facts vs
termination_by structural vs => vs

end

/-- The search for an integer is not misled: it comes to no number that is not
an integer, and if the expression is an algebraic number it is not an integer. -/
def IntegerDecided (facts : List Fact) : Value → Prop
  | .cas kind => reachesNonInteger facts (.cas kind) = false
  | .algebraic field coeffs => ∀ n : ℤ, real (.algebraic field coeffs) ≠ n
  | _ => True

theorem isReal_of_isRealConst {env : Assignment} {kind : CasKind} {z : ℂ}
    (h : isRealConst kind = true) (hz : denoteKind env kind = some z) : IsReal z := by
  rcases kind with _ | _ | c | _ | _ | _ | _ | _ | _ | _ | _ <;>
    simp only [isRealConst, Bool.false_eq_true] at h
  rcases c with _ | _ | _ | _ | _ <;> simp only [denoteKind, Option.some.injEq, reduceCtorEq] at hz
  · exact ⟨Real.pi, hz.symm⟩
  · exact ⟨Real.exp 1, by rw [← hz, Complex.ofReal_exp, Complex.ofReal_one]⟩

theorem proveInteger_atom_ne_refuted {facts : List Fact} {v : Value}
    (h : reachesNonInteger facts v = false) (hv : ∀ kind, v ≠ .cas kind) :
    proveInteger facts v ≠ .refuted := by
  have hreach : (isKnownNumeric v && (exactInt v).isNone) = false := by
    cases v <;> first | exact h | exact absurd rfl (hv _)
  have hsearch : proveInteger facts v =
      if (exactInt v).isSome then .proven
      else if isKnownNumeric v then .refuted
      else if directIntegerFact facts v then .proven else .unknown := by
    cases v <;> first | rfl | exact absurd rfl (hv _)
  rw [hsearch]
  rcases hint : exactInt v with _ | n
  · rw [hint, Option.isNone_none, Bool.and_true] at hreach
    rw [hreach]
    simp only [Option.isSome_none, Bool.false_eq_true, if_false]
    split <;> nofun
  · simp

theorem isInteger_of_proveInteger {facts : List Fact} {v : Value} (hexact : IsExact v = true)
    (h : proveInteger facts v = .proven) : IsInteger (real v) := by
  have hint : (exactInt v).isSome = true := by
    by_contra hnone
    cases v <;> simp only [IsExact, Bool.false_eq_true] at hexact <;>
      simp [proveInteger, isKnownNumeric, hnone] at h
  obtain ⟨n, hn⟩ := Option.isSome_iff_exists.mp hint
  exact ⟨n, by rw [exactInt_real hn, Complex.ofReal_intCast]⟩

/-! ### The searches -/

theorem provePositive_of_sign {facts : List Fact} {v : Value} {sign : Ordering}
    (hexact : IsExact v = true) (h : knownNumericSign v = some sign) :
    provePositive facts v = truthForOrdering sign .gt := by
  cases v <;> simp only [IsExact, Bool.false_eq_true] at hexact <;> simp only [provePositive, h]

theorem proveNegative_of_sign {facts : List Fact} {v : Value} {sign : Ordering}
    (hexact : IsExact v = true) (h : knownNumericSign v = some sign) :
    proveNegative facts v = truthForOrdering sign .lt := by
  cases v <;> simp only [IsExact, Bool.false_eq_true] at hexact <;> simp only [proveNegative, h]

theorem proveZero_numeric {facts : List Fact} {v : Value} (hexact : IsExact v = true) :
    proveZero facts v =
      match knownNumericSign v with
      | some .eq => .proven
      | some .lt | some .gt => .refuted
      | none => .unknown := by
  cases v <;> simp only [IsExact, Bool.false_eq_true] at hexact <;> rfl

theorem proveZero_exact {facts : List Fact} {v : Value} (hexact : IsExact v = true)
    (hv : Tested (· ≠ 0) v) :
    (proveZero facts v).Decides ((real v : ℂ) = 0) ((real v : ℂ) ≠ 0) := by
  have hzero := @proveZero_numeric facts v hexact
  rcases knownNumericSign_sound (fun x hx => hx.ne') hexact hv with ⟨h, hx⟩ | ⟨h, hx⟩ | ⟨h, hx⟩
  · rw [hzero, h]
    exact .ofProven (Complex.ofReal_eq_zero.mpr hx)
  · rw [hzero, h]
    exact .ofRefuted (Complex.ofReal_ne_zero.mpr hx.ne)
  · rw [hzero, h]
    exact .ofRefuted (Complex.ofReal_ne_zero.mpr hx)

/-- The power rule of `prove_zero`. -/
theorem proveZero_power {env : Assignment} {facts : List Fact} {base exponent : Value} {z : ℂ}
    (hbase : ∀ w, denote env base = some w → (proveZero facts base).Decides (w = 0) (w ≠ 0))
    (hz : denoteKind env (.op .power [base, exponent]) = some z) :
    (proveZeroOp facts (.op .power [base, exponent])).Decides (z = 0) (z ≠ 0) := by
  rw [denoteKind] at hz
  obtain ⟨n, hn, hz⟩ := Option.bind_eq_some_iff.mp hz
  obtain ⟨w, hw, hz⟩ := Option.bind_eq_some_iff.mp hz
  obtain ⟨-, rfl⟩ := integerPower_eq hz
  have hd := hbase w hw
  simp only [proveZeroOp, hn]
  refine .ite (fun h0 => .ofRefuted ?_) fun h0 => ?_
  · rw [h0, zpow_zero]
    exact one_ne_zero
  · rcases ht : proveZero facts base with _ | _ | _
    · refine .ite (fun hpos => .ofProven ?_) fun _ => .ofUnknown
      rw [hd.proven ht, zero_zpow n h0]
    · exact .ofRefuted (zpow_ne_zero n (hd.refuted ht))
    · exact .ofUnknown

/-- The power rule of `prove_real`. -/
theorem proveReal_power {env : Assignment} {facts : List Fact} {base exponent : Value} {z : ℂ}
    (hbase : ∀ w, denote env base = some w → (proveReal facts base).Decides (IsReal w) False)
    (hz : denoteKind env (.op .power [base, exponent]) = some z) :
    (proveRealOp facts (.op .power [base, exponent])).Decides (IsReal z) False := by
  rw [denoteKind] at hz
  obtain ⟨n, hn, hz⟩ := Option.bind_eq_some_iff.mp hz
  obtain ⟨w, hw, hz⟩ := Option.bind_eq_some_iff.mp hz
  obtain ⟨-, rfl⟩ := integerPower_eq hz
  simp only [proveRealOp, hn]
  exact .ite (fun h => .ofProven (isReal_zpow ((hbase w hw).proven h.1) n)) fun _ => .ofUnknown

/-- The power rule of `prove_integer`. -/
theorem proveInteger_power {env : Assignment} {facts : List Fact} {base exponent : Value} {z : ℂ}
    (hbase : ∀ w, denote env base = some w → proveInteger facts base = .proven → IsInteger w)
    (hz : denoteKind env (.op .power [base, exponent]) = some z)
    (h : proveIntegerOp facts (.op .power [base, exponent]) = .proven) : IsInteger z := by
  rw [denoteKind] at hz
  obtain ⟨n, hn, hz⟩ := Option.bind_eq_some_iff.mp hz
  obtain ⟨w, hw, hz⟩ := Option.bind_eq_some_iff.mp hz
  obtain ⟨-, rfl⟩ := integerPower_eq hz
  simp only [proveIntegerOp, hn] at h
  split at h
  · rename_i hpow
    exact (hbase w hw hpow.2).zpow hpow.1
  · exact absurd h (by simp)

theorem provePositive_exact {facts : List Fact} {v : Value} (hexact : IsExact v = true)
    (hv : Tested (0 < ·) v) :
    (provePositive facts v).Decides (IsPositive (real v)) (IsNonPositive (real v)) := by
  rcases knownNumericSign_sound (fun _ hx => hx) hexact hv with ⟨h, hx⟩ | ⟨h, hx⟩ | ⟨h, hx⟩
  all_goals
    rw [provePositive_of_sign hexact h]
  · exact .ofRefuted ⟨_, hx.le, rfl⟩
  · exact .ofRefuted ⟨_, hx.le, rfl⟩
  · exact .ofProven ⟨_, hx, rfl⟩

theorem proveNegative_exact {facts : List Fact} {v : Value} (hexact : IsExact v = true)
    (hv : Tested (0 < ·) v) :
    (proveNegative facts v).Decides (IsNegative (real v)) (IsNonNegative (real v)) := by
  rcases knownNumericSign_sound (fun _ hx => hx) hexact hv with ⟨h, hx⟩ | ⟨h, hx⟩ | ⟨h, hx⟩
  all_goals
    rw [proveNegative_of_sign hexact h]
  · exact .ofRefuted ⟨_, hx.ge, rfl⟩
  · exact .ofProven ⟨_, hx, rfl⟩
  · exact .ofRefuted ⟨_, hx.le, rfl⟩

/-- The power rule of `prove_positive`. For an odd exponent it passes on that
the base is not positive, which is right because the base is then real. -/
theorem provePositive_power {env : Assignment} {facts : List Fact} {base exponent : Value} {z : ℂ}
    (hzero : ∀ w, denote env base = some w → (proveZero facts base).Decides (w = 0) (w ≠ 0))
    (hreal : ∀ w, denote env base = some w → (proveReal facts base).Decides (IsReal w) False)
    (hbase : ∀ w, denote env base = some w →
      (provePositive facts base).Decides (IsPositive w) (IsNonPositive w))
    (hz : denoteKind env (.op .power [base, exponent]) = some z) :
    (provePositiveOp facts (.op .power [base, exponent])).Decides (IsPositive z)
      (IsNonPositive z) := by
  rw [denoteKind] at hz
  obtain ⟨n, hn, hz⟩ := Option.bind_eq_some_iff.mp hz
  obtain ⟨w, hw, hz⟩ := Option.bind_eq_some_iff.mp hz
  obtain ⟨-, rfl⟩ := integerPower_eq hz
  simp only [provePositiveOp, hn]
  refine .ite (fun h0 => .ofProven ?_) fun h0 => .ite (fun heven => ?_) fun hodd => ?_
  · rw [h0, zpow_zero]
    exact IsPositive.one
  · refine .ite (fun hr => ?_) fun _ => .ofUnknown
    refine (hzero w hw).inverted.imp (fun hne => ?_) fun heq => ?_
    · exact isPositive_even_zpow ((hreal w hw).proven hr) hne heven
    · rw [heq, zero_zpow n h0]
      exact IsNonPositive.zero
  · exact (hbase w hw).imp (isPositive_zpow · n) (isNonPositive_odd_zpow · hodd)

/-- The power rule of `prove_negative`. -/
theorem proveNegative_power {env : Assignment} {facts : List Fact} {base exponent : Value} {z : ℂ}
    (hreal : ∀ w, denote env base = some w → (proveReal facts base).Decides (IsReal w) False)
    (hbase : ∀ w, denote env base = some w →
      (proveNegative facts base).Decides (IsNegative w) (IsNonNegative w))
    (hz : denoteKind env (.op .power [base, exponent]) = some z) :
    (proveNegativeOp facts (.op .power [base, exponent])).Decides (IsNegative z)
      (IsNonNegative z) := by
  rw [denoteKind] at hz
  obtain ⟨n, hn, hz⟩ := Option.bind_eq_some_iff.mp hz
  obtain ⟨w, hw, hz⟩ := Option.bind_eq_some_iff.mp hz
  obtain ⟨-, rfl⟩ := integerPower_eq hz
  simp only [proveNegativeOp, hn]
  refine .ite (fun h0 => .ofRefuted ?_) fun h0 => .ite (fun heven => ?_) fun hodd => ?_
  · rw [h0, zpow_zero]
    exact IsPositive.one.nonNegative
  · refine .ite (fun hr => .ofRefuted ?_) fun _ => .ofUnknown
    exact isNonNegative_even_zpow ((hreal w hw).proven hr) heven
  · exact (hbase w hw).imp (isNegative_odd_zpow · hodd) (isNonNegative_zpow · n)

section Searches

variable {env : Assignment} {facts : List Fact} (hfacts : ∀ fact ∈ facts, fact.Holds env)
include hfacts

mutual

theorem proveZero_sound : ∀ (v : Value) (z : ℂ), EachNumber (Tested (· ≠ 0)) v →
    denote env v = some z → (proveZero facts v).Decides (z = 0) (z ≠ 0)
  | .cas kind, z, hv, hz => by
    rw [proveZero]
    rcases hdirect : directZeroFact facts (.cas kind) with _ | truth
    · exact proveZeroOp_sound kind z hv hz
    · exact directZeroFact_sound hfacts hdirect hz
  | .int n, z, hv, hz | .bigInt n, z, hv, hz | .fraction q, z, hv, hz
  | .algebraic field coeffs, z, hv, hz => by
    obtain ⟨hexact, rfl⟩ := isExact_of_denote hz nofun
    exact proveZero_exact hexact hv
  | .float _, _, _, hz | .complex _ _, _, _, hz | .char _, _, _, hz | .tag _, _, _, hz
  | .bool _, _, _, hz | .intList _, _, _, hz | .intRange _, _, _, hz | .floatList _, _, _, hz
  | .boolList _, _, _, hz | .list _, _, _, hz | .string _, _, _, hz | .dict _, _, _, hz
  | .compiledFunction _, _, _, hz | .closure _ _, _, _, hz | .builtinFunction _ _, _, _, hz
  | .liftedCallable _, _, _, hz | .rng _, _, _, hz | .stream _, _, _, hz => nomatch hz
termination_by structural v => v

theorem proveZeroOp_sound : ∀ (kind : CasKind) (z : ℂ), EachNumberOp (Tested (· ≠ 0)) kind →
    denoteKind env kind = some z → (proveZeroOp facts kind).Decides (z = 0) (z ≠ 0)
  | .op .multiply factors, z, hv, hz => by
    rw [denoteKind] at hz
    obtain ⟨zs, hzs, rfl⟩ := Option.map_eq_some_iff.mp hz
    rw [proveZeroOp]
    exact (proveZeroFactors_sound factors zs true hv hzs).imp id And.right
  | .op .power [base, exponent], z, hv, hz =>
    proveZero_power (fun w hw => proveZero_sound base w hv hw) hz
  | .op .power [], _, _, _ | .op .power [_], _, _, _ | .op .power (_ :: _ :: _ :: _), _, _, _
  | .op .add _, _, _, _ | .op .subtract _, _, _, _ | .op .divide _, _, _, _ | .var _, _, _, _
  | .boundVar _, _, _, _ | .const _, _, _, _ | .function _ _, _, _, _ | .apply _ _, _, _, _
  | .namedArg _ _, _, _, _ | .integral _ _ _, _, _, _ | .limit _ _ _ _, _, _, _ | .eq _ _, _, _, _
  | .predicate _ _, _, _, _ => .ofUnknown
termination_by structural kind => kind

theorem proveZeroFactors_sound : ∀ (vs : List Value) (zs : List ℂ) (allNonzero : Bool),
    EachNumbers (Tested (· ≠ 0)) vs → denoteItems env vs = some zs →
      (proveZeroFactors facts vs allNonzero).Decides (zs.prod = 0)
        (allNonzero = true ∧ zs.prod ≠ 0)
  | [], zs, allNonzero, _, hzs => by
    rw [denoteItems] at hzs
    obtain rfl := Option.some.inj hzs
    rw [proveZeroFactors]
    exact .ite (fun h => .ofRefuted ⟨h, one_ne_zero⟩) fun _ => .ofUnknown
  | v :: vs, zs, allNonzero, hv, hzs => by
    rw [denoteItems] at hzs
    obtain ⟨w, hw, hzs⟩ := Option.bind_eq_some_iff.mp hzs
    obtain ⟨ws, hws, rfl⟩ := Option.map_eq_some_iff.mp hzs
    have hd := proveZero_sound v w hv.1 hw
    rw [proveZeroFactors, List.prod_cons]
    rcases ht : proveZero facts v with _ | _ | _
    · exact .ofProven (mul_eq_zero_of_left (hd.proven ht) _)
    · exact (proveZeroFactors_sound vs ws allNonzero hv.2 hws).imp (mul_eq_zero_of_right w)
        fun h => ⟨h.1, mul_ne_zero (hd.refuted ht) h.2⟩
    · exact (proveZeroFactors_sound vs ws false hv.2 hws).imp (mul_eq_zero_of_right w)
        fun h => absurd h.1 Bool.false_ne_true
termination_by structural vs => vs

end

mutual

/-- The search never refutes that a value of the fragment is real. -/
theorem proveReal_sound : ∀ (v : Value) (z : ℂ), denote env v = some z →
    (proveReal facts v).Decides (IsReal z) False
  | .cas kind, z, hz => by
    rw [proveReal]
    refine .ite (fun hconst => .ofProven ?_) fun _ => ?_
    · exact isReal_of_isRealConst hconst hz
    · refine .ite (fun hdirect => .ofProven ?_) fun _ => proveRealOp_sound kind z hz
      exact directRealFact_sound hfacts hdirect hz
  | .int n, z, hz | .bigInt n, z, hz | .fraction q, z, hz | .algebraic field coeffs, z, hz => by
    obtain ⟨-, rfl⟩ := isExact_of_denote hz nofun
    exact .ofProven ⟨_, rfl⟩
  | .float _, _, hz | .complex _ _, _, hz | .char _, _, hz | .tag _, _, hz | .bool _, _, hz
  | .intList _, _, hz | .intRange _, _, hz | .floatList _, _, hz | .boolList _, _, hz
  | .list _, _, hz | .string _, _, hz | .dict _, _, hz | .compiledFunction _, _, hz
  | .closure _ _, _, hz | .builtinFunction _ _, _, hz | .liftedCallable _, _, hz | .rng _, _, hz
  | .stream _, _, hz => nomatch hz
termination_by structural v => v

theorem proveRealOp_sound : ∀ (kind : CasKind) (z : ℂ), denoteKind env kind = some z →
    (proveRealOp facts kind).Decides (IsReal z) False
  | .op .add args, z, hz => by
    rw [denoteKind] at hz
    obtain ⟨zs, hzs, rfl⟩ := Option.map_eq_some_iff.mp hz
    exact (proveReals_sound args zs hzs).imp IsReal.sum id
  | .op .multiply args, z, hz => by
    rw [denoteKind] at hz
    obtain ⟨zs, hzs, rfl⟩ := Option.map_eq_some_iff.mp hz
    exact (proveReals_sound args zs hzs).imp IsReal.prod id
  | .op .power [base, exponent], z, hz =>
    proveReal_power (fun w hw => proveReal_sound base w hw) hz
  | .op .power [], _, _ | .op .power [_], _, _ | .op .power (_ :: _ :: _ :: _), _, _
  | .op .subtract _, _, _ | .op .divide _, _, _ | .var _, _, _ | .boundVar _, _, _
  | .const _, _, _ | .function _ _, _, _ | .apply _ _, _, _ | .namedArg _ _, _, _
  | .integral _ _ _, _, _ | .limit _ _ _ _, _, _ | .eq _ _, _, _ | .predicate _ _, _, _ =>
    .ofUnknown
termination_by structural kind => kind

theorem proveReals_sound : ∀ (vs : List Value) (zs : List ℂ), denoteItems env vs = some zs →
    (allTruth (proveReals facts vs)).Decides (∀ z ∈ zs, IsReal z) False
  | [], zs, hzs => by
    rw [denoteItems] at hzs
    obtain rfl := Option.some.inj hzs
    exact .ofProven (List.forall_mem_nil _)
  | v :: vs, zs, hzs => by
    rw [denoteItems] at hzs
    obtain ⟨w, hw, hzs⟩ := Option.bind_eq_some_iff.mp hzs
    obtain ⟨ws, hws, rfl⟩ := Option.map_eq_some_iff.mp hzs
    have hall := (proveReal_sound v w hw).cons (proveReals_sound vs ws hws)
    exact hall.imp (fun h => List.forall_mem_cons.mpr h) (Or.elim · id id)
termination_by structural vs => vs

end

mutual

theorem proveInteger_sound : ∀ (v : Value) (z : ℂ), denote env v = some z →
    proveInteger facts v = .proven → IsInteger z
  | .cas kind, z, hz, h => by
    rw [proveInteger] at h
    split at h
    · rename_i hdirect
      exact directIntegerFact_sound hfacts hdirect hz
    · exact proveIntegerOp_sound kind z hz h
  | .int n, z, hz, h | .bigInt n, z, hz, h | .fraction q, z, hz, h
  | .algebraic field coeffs, z, hz, h => by
    obtain ⟨hexact, rfl⟩ := isExact_of_denote hz nofun
    exact isInteger_of_proveInteger hexact h
  | .float _, _, hz, _ | .complex _ _, _, hz, _ | .char _, _, hz, _ | .tag _, _, hz, _
  | .bool _, _, hz, _ | .intList _, _, hz, _ | .intRange _, _, hz, _ | .floatList _, _, hz, _
  | .boolList _, _, hz, _ | .list _, _, hz, _ | .string _, _, hz, _ | .dict _, _, hz, _
  | .compiledFunction _, _, hz, _ | .closure _ _, _, hz, _ | .builtinFunction _ _, _, hz, _
  | .liftedCallable _, _, hz, _ | .rng _, _, hz, _ | .stream _, _, hz, _ => nomatch hz
termination_by structural v => v

theorem proveIntegerOp_sound : ∀ (kind : CasKind) (z : ℂ), denoteKind env kind = some z →
    proveIntegerOp facts kind = .proven → IsInteger z
  | .op .add args, z, hz, h => by
    rw [denoteKind] at hz
    obtain ⟨zs, hzs, rfl⟩ := Option.map_eq_some_iff.mp hz
    exact IsInteger.sum ((proveIntegers_sound args zs hzs).proven h)
  | .op .multiply args, z, hz, h => by
    rw [denoteKind] at hz
    obtain ⟨zs, hzs, rfl⟩ := Option.map_eq_some_iff.mp hz
    exact IsInteger.prod ((proveIntegers_sound args zs hzs).proven h)
  | .op .power [base, exponent], z, hz, h =>
    proveInteger_power (fun w hw => proveInteger_sound base w hw) hz h
  | .op .power [], _, _, h | .op .power [_], _, _, h | .op .power (_ :: _ :: _ :: _), _, _, h
  | .op .subtract _, _, _, h | .op .divide _, _, _, h | .var _, _, _, h | .boundVar _, _, _, h
  | .const _, _, _, h | .function _ _, _, _, h | .apply _ _, _, _, h | .namedArg _ _, _, _, h
  | .integral _ _ _, _, _, h | .limit _ _ _ _, _, _, h | .eq _ _, _, _, h
  | .predicate _ _, _, _, h => nomatch h
termination_by structural kind => kind

theorem proveIntegers_sound : ∀ (vs : List Value) (zs : List ℂ), denoteItems env vs = some zs →
    (allTruth (proveIntegers facts vs)).Decides (∀ z ∈ zs, IsInteger z) True
  | [], zs, hzs => by
    rw [denoteItems] at hzs
    obtain rfl := Option.some.inj hzs
    exact .ofProven (List.forall_mem_nil _)
  | v :: vs, zs, hzs => by
    rw [denoteItems] at hzs
    obtain ⟨w, hw, hzs⟩ := Option.bind_eq_some_iff.mp hzs
    obtain ⟨ws, hws, rfl⟩ := Option.map_eq_some_iff.mp hzs
    have hfirst : (proveInteger facts v).Decides (IsInteger w) True :=
      ⟨proveInteger_sound v w hw, fun _ => trivial⟩
    exact (hfirst.cons (proveIntegers_sound vs ws hws)).imp
      (fun h => List.forall_mem_cons.mpr h) fun _ => trivial
termination_by structural vs => vs

end

theorem directPositive_sound {v : Value} {z : ℂ} {truth : Truth}
    (hv : EachNumber (Tested (0 < ·)) v) (h : directPositive facts v = some truth)
    (hz : denote env v = some z) : truth.Decides (IsPositive z) (IsNonPositive z) := by
  rw [directPositive] at h
  rcases hdirect : directSignFact facts v .positive with _ | t
  · simp only [hdirect] at h
    split at h
    · rename_i hnonzero
      obtain rfl := Option.some.inj h
      have hnonneg := (directSignFact_nonNegative hfacts hnonzero.1 hz).proven rfl
      have hne := (proveZero_sound hfacts v z (EachNumber.nonzero v hv) hz).refuted hnonzero.2
      exact .ofProven (hnonneg.isPositive hne)
    · exact absurd h (by simp)
  · simp only [hdirect] at h
    obtain rfl := Option.some.inj h
    exact directSignFact_positive hfacts hdirect hz

mutual

/-- Where the search refutes that a value is positive, the value is real. -/
theorem provePositive_sound : ∀ (v : Value) (z : ℂ), EachNumber (Tested (0 < ·)) v →
    denote env v = some z → (provePositive facts v).Decides (IsPositive z) (IsNonPositive z)
  | .cas kind, z, hv, hz => by
    rw [provePositive]
    rcases hdirect : directPositive facts (.cas kind) with _ | truth
    · exact provePositiveOp_sound kind z hv hz
    · exact directPositive_sound hfacts hv hdirect hz
  | .int n, z, hv, hz | .bigInt n, z, hv, hz | .fraction q, z, hv, hz
  | .algebraic field coeffs, z, hv, hz => by
    obtain ⟨hexact, rfl⟩ := isExact_of_denote hz nofun
    exact provePositive_exact hexact hv
  | .float _, _, _, hz | .complex _ _, _, _, hz | .char _, _, _, hz | .tag _, _, _, hz
  | .bool _, _, _, hz | .intList _, _, _, hz | .intRange _, _, _, hz | .floatList _, _, _, hz
  | .boolList _, _, _, hz | .list _, _, _, hz | .string _, _, _, hz | .dict _, _, _, hz
  | .compiledFunction _, _, _, hz | .closure _ _, _, _, hz | .builtinFunction _ _, _, _, hz
  | .liftedCallable _, _, _, hz | .rng _, _, _, hz | .stream _, _, _, hz => nomatch hz
termination_by structural v => v

theorem provePositiveOp_sound : ∀ (kind : CasKind) (z : ℂ),
    EachNumberOp (Tested (0 < ·)) kind → denoteKind env kind = some z →
      (provePositiveOp facts kind).Decides (IsPositive z) (IsNonPositive z)
  | .op .multiply factors, z, hv, hz => by
    rw [denoteKind] at hz
    obtain ⟨zs, hzs, rfl⟩ := Option.map_eq_some_iff.mp hz
    exact productSign_sound factors zs false false hv hzs
  | .op .power [base, exponent], z, hv, hz =>
    provePositive_power
      (fun w hw => proveZero_sound hfacts base w (EachNumber.nonzero base hv) hw)
      (fun w hw => proveReal_sound hfacts base w hw)
      (fun w hw => provePositive_sound base w hv hw) hz
  | .op .power [], _, _, _ | .op .power [_], _, _, _ | .op .power (_ :: _ :: _ :: _), _, _, _
  | .op .add _, _, _, _ | .op .subtract _, _, _, _ | .op .divide _, _, _, _ | .var _, _, _, _
  | .boundVar _, _, _, _ | .const _, _, _, _ | .function _ _, _, _, _ | .apply _ _, _, _, _
  | .namedArg _ _, _, _, _ | .integral _ _ _, _, _, _ | .limit _ _ _ _, _, _, _ | .eq _ _, _, _, _
  | .predicate _ _, _, _, _ => .ofUnknown
termination_by structural kind => kind

theorem proveNegative_sound : ∀ (v : Value) (z : ℂ), EachNumber (Tested (0 < ·)) v →
    denote env v = some z → (proveNegative facts v).Decides (IsNegative z) (IsNonNegative z)
  | .cas kind, z, hv, hz => by
    rw [proveNegative]
    rcases hdirect : directSignFact facts (.cas kind) .negative with _ | truth
    · exact proveNegativeOp_sound kind z hv hz
    · exact directSignFact_negative hfacts hdirect hz
  | .int n, z, hv, hz | .bigInt n, z, hv, hz | .fraction q, z, hv, hz
  | .algebraic field coeffs, z, hv, hz => by
    obtain ⟨hexact, rfl⟩ := isExact_of_denote hz nofun
    exact proveNegative_exact hexact hv
  | .float _, _, _, hz | .complex _ _, _, _, hz | .char _, _, _, hz | .tag _, _, _, hz
  | .bool _, _, _, hz | .intList _, _, _, hz | .intRange _, _, _, hz | .floatList _, _, _, hz
  | .boolList _, _, _, hz | .list _, _, _, hz | .string _, _, _, hz | .dict _, _, _, hz
  | .compiledFunction _, _, _, hz | .closure _ _, _, _, hz | .builtinFunction _ _, _, _, hz
  | .liftedCallable _, _, _, hz | .rng _, _, _, hz | .stream _, _, _, hz => nomatch hz
termination_by structural v => v

theorem proveNegativeOp_sound : ∀ (kind : CasKind) (z : ℂ),
    EachNumberOp (Tested (0 < ·)) kind → denoteKind env kind = some z →
      (proveNegativeOp facts kind).Decides (IsNegative z) (IsNonNegative z)
  | .op .multiply factors, z, hv, hz => by
    rw [denoteKind] at hz
    obtain ⟨zs, hzs, rfl⟩ := Option.map_eq_some_iff.mp hz
    exact productSign_sound factors zs false true hv hzs
  | .op .power [base, exponent], z, hv, hz =>
    proveNegative_power (fun w hw => proveReal_sound hfacts base w hw)
      (fun w hw => proveNegative_sound base w hv hw) hz
  | .op .power [], _, _, _ | .op .power [_], _, _, _ | .op .power (_ :: _ :: _ :: _), _, _, _
  | .op .add _, _, _, _ | .op .subtract _, _, _, _ | .op .divide _, _, _, _ | .var _, _, _, _
  | .boundVar _, _, _, _ | .const _, _, _, _ | .function _ _, _, _, _ | .apply _ _, _, _, _
  | .namedArg _ _, _, _, _ | .integral _ _ _, _, _, _ | .limit _ _ _ _, _, _, _ | .eq _ _, _, _, _
  | .predicate _ _, _, _, _ => .ofUnknown
termination_by structural kind => kind

/-- The factors seen so far have a sign; a factor of known sign keeps or turns
what is asked of the rest. -/
theorem productSign_sound : ∀ (vs : List Value) (zs : List ℂ) (negative wantNegative : Bool),
    EachNumbers (Tested (0 < ·)) vs → denoteItems env vs = some zs →
      (productSign facts vs negative wantNegative).Decides
        (IsSigned (negative == wantNegative) zs.prod)
        (IsNotSigned (negative == wantNegative) zs.prod)
  | [], zs, negative, wantNegative, _, hzs => by
    rw [denoteItems] at hzs
    obtain rfl := Option.some.inj hzs
    rw [productSign]
    refine .ite (fun h => .ofProven ?_) fun h => .ofRefuted ?_
    · rw [beq_iff_eq.mpr h]
      exact IsPositive.one
    · rw [beq_false_of_ne h]
      exact IsPositive.one.nonNegative
  | v :: vs, zs, negative, wantNegative, hv, hzs => by
    rw [denoteItems] at hzs
    obtain ⟨w, hw, hzs⟩ := Option.bind_eq_some_iff.mp hzs
    obtain ⟨ws, hws, rfl⟩ := Option.map_eq_some_iff.mp hzs
    rw [productSign, List.prod_cons]
    refine .ite (fun hpos => ?_) fun _ => .ite (fun hneg => ?_) fun _ => .ite (fun hzero => ?_)
      fun _ => .ofUnknown
    · have hw' := (provePositive_sound v w hv.1 hw).proven hpos
      exact (productSign_sound vs ws negative wantNegative hv.2 hws).imp hw'.mul_isSigned
        hw'.mul_isNotSigned
    · have hw' := (proveNegative_sound v w hv.1 hw).proven hneg
      have hrest := productSign_sound vs ws (!negative) wantNegative hv.2 hws
      have hturn : ((!negative) == wantNegative) = !(negative == wantNegative) := by
        rcases negative with _ | _ <;> rcases wantNegative with _ | _ <;> rfl
      rw [hturn] at hrest
      exact hrest.imp hw'.mul_isSigned hw'.mul_isNotSigned
    · have hw' := (proveZero_sound hfacts v w (EachNumber.nonzero v hv.1) hw).proven hzero
      rw [hw', zero_mul]
      exact .ofRefuted (IsNotSigned.zero _)
termination_by structural vs => vs

end

theorem isEvenPowerOfReal_sound {v : Value} {z : ℂ} (h : isEvenPowerOfReal facts v = true)
    (hz : denote env v = some z) : IsNonNegative z := by
  unfold isEvenPowerOfReal at h
  split at h
  · rename_i base exponent
    rw [denote, denoteKind] at hz
    obtain ⟨n, hn, hz⟩ := Option.bind_eq_some_iff.mp hz
    obtain ⟨w, hw, hz⟩ := Option.bind_eq_some_iff.mp hz
    obtain ⟨-, rfl⟩ := integerPower_eq hz
    simp only [hn, decide_eq_true_eq] at h
    exact isNonNegative_even_zpow ((proveReal_sound hfacts base w hw).proven h.2) h.1
  · exact absurd h Bool.false_ne_true

theorem proveNonnegative_sound {v : Value} {z : ℂ} (hv : EachNumber (Tested (0 < ·)) v)
    (hz : denote env v = some z) :
    (proveNonnegative facts v).Decides (IsNonNegative z) (IsNegative z) := by
  rw [proveNonnegative]
  rcases hsign : knownNumericSign v with _ | sign
  · rcases hdirect : directSignFact facts v .nonNegative with _ | truth
    · refine .ite (fun heven => .ofProven ?_) fun _ => ?_
      · exact isEvenPowerOfReal_sound hfacts heven hz
      · have hpos := provePositive_sound hfacts v z hv hz
        have hzero := proveZero_sound hfacts v z (EachNumber.nonzero v hv) hz
        rcases hp : provePositive facts v with _ | _ | _
        · exact .ofProven (hpos.proven hp).nonNegative
        · rcases h0 : proveZero facts v with _ | _ | _
          · exact .ofProven ((hzero.proven h0) ▸ IsNonNegative.zero)
          · exact .ofRefuted ((hpos.refuted hp).isNegative (hzero.refuted h0))
          · exact .ofUnknown
        · rcases h0 : proveZero facts v with _ | _ | _
          · exact .ofProven ((hzero.proven h0) ▸ IsNonNegative.zero)
          · exact .ofUnknown
          · exact .ofUnknown
    · exact directSignFact_nonNegative hfacts hdirect hz
  · have hnot : ∀ kind, v ≠ .cas kind := by
      rintro kind rfl
      exact absurd hsign (by simp [knownNumericSign, numericIsZero, numericIsNegative,
        isKnownNumeric])
    obtain ⟨hexact, rfl⟩ := isExact_of_denote hz hnot
    have htested : Tested (0 < ·) v := by
      cases v <;> simp only [IsExact, Bool.false_eq_true] at hexact <;> exact hv
    rcases knownNumericSign_sound (fun _ hx => hx) hexact htested with ⟨h, hx⟩ | ⟨h, hx⟩ | ⟨h, hx⟩
    all_goals
      obtain rfl := Option.some.inj (hsign.symm.trans h)
    · exact .ofProven ⟨_, hx.ge, rfl⟩
    · exact .ofRefuted ⟨_, hx, rfl⟩
    · exact .ofProven ⟨_, hx.le, rfl⟩

end Searches

mutual

theorem proveInteger_ne_refuted (facts : List Fact) : ∀ v : Value,
    reachesNonInteger facts v = false → proveInteger facts v ≠ .refuted
  | .cas kind, h => by
    rw [reachesNonInteger, Bool.and_eq_false_iff, Bool.not_eq_false'] at h
    rw [proveInteger]
    split
    · nofun
    · rename_i hdirect
      exact proveIntegerOp_ne_refuted facts kind (h.resolve_left hdirect)
  | .int _, h | .bigInt _, h | .float _, h | .complex _ _, h | .fraction _, h | .algebraic _ _, h
  | .char _, h | .tag _, h | .bool _, h | .intList _, h | .intRange _, h | .floatList _, h
  | .boolList _, h | .list _, h | .string _, h | .dict _, h | .compiledFunction _, h
  | .closure _ _, h | .builtinFunction _ _, h | .liftedCallable _, h | .rng _, h | .stream _, h =>
    proveInteger_atom_ne_refuted h nofun
termination_by structural v => v

theorem proveIntegerOp_ne_refuted (facts : List Fact) : ∀ kind : CasKind,
    reachesNonIntegerOp facts kind = false → proveIntegerOp facts kind ≠ .refuted
  | .op .add args, h => proveIntegers_ne_refuted facts args h
  | .op .multiply args, h => proveIntegers_ne_refuted facts args h
  | .op .power [base, exponent], _ => by
    rw [proveIntegerOp]
    rcases exactInt exponent with _ | n
    · nofun
    · simp only
      split <;> nofun
  | .op .power [], _ | .op .power [_], _ | .op .power (_ :: _ :: _ :: _), _ | .op .subtract _, _
  | .op .divide _, _ | .var _, _ | .boundVar _, _ | .const _, _ | .function _ _, _ | .apply _ _, _
  | .namedArg _ _, _ | .integral _ _ _, _ | .limit _ _ _ _, _ | .eq _ _, _ | .predicate _ _, _ =>
    nofun
termination_by structural kind => kind

theorem proveIntegers_ne_refuted (facts : List Fact) : ∀ vs : List Value,
    anyReachesNonInteger facts vs = false → allTruth (proveIntegers facts vs) ≠ .refuted
  | [], _ => nofun
  | v :: vs, h => by
    rw [anyReachesNonInteger, Bool.or_eq_false_iff] at h
    have hv : (proveInteger facts v).Decides True False :=
      ⟨fun _ => trivial, proveInteger_ne_refuted facts v h.1⟩
    have hvs : (allTruth (proveIntegers facts vs)).Decides True False :=
      ⟨fun _ => trivial, proveIntegers_ne_refuted facts vs h.2⟩
    exact fun hrefuted => ((hv.cons hvs).refuted hrefuted).elim id id
termination_by structural vs => vs

end

/-- A number that the search refutes to be an integer is not one. -/
theorem not_isInteger_of_refuted {facts : List Fact} {v : Value} {env : Assignment} {z : ℂ}
    (hv : IntegerDecided facts v) (hz : denote env v = some z)
    (h : proveInteger facts v = .refuted) : ¬IsInteger z := by
  by_cases hcas : ∃ kind, v = .cas kind
  · obtain ⟨kind, rfl⟩ := hcas
    exact absurd h (proveInteger_ne_refuted facts _ hv)
  · obtain ⟨hexact, rfl⟩ := isExact_of_denote hz fun kind hk => hcas ⟨kind, hk⟩
    rintro ⟨n, hn⟩
    have hreal : real v = n := by exact_mod_cast hn
    by_cases halg : ∃ field coeffs, v = .algebraic field coeffs
    · obtain ⟨field, coeffs, rfl⟩ := halg
      exact hv n hreal
    · have hint := exactInt_of_real hexact (fun field coeffs hk => halg ⟨field, coeffs, hk⟩) hreal
      cases v <;> simp only [IsExact, Bool.false_eq_true] at hexact <;>
        simp [proveInteger, hint] at h

end Value

/-! ### Soundness -/

/-- The question does not come to one of the two defects: no number whose sign
test gives up counts as positive without being so, or as not zero where it is
zero, and no sum or product is taken not to be an integer. -/
def Reliable (facts : List Fact) (p : Fact) : Prop :=
  match p.kind with
  | .zero | .nonZero => Value.EachNumber (Value.Tested (· ≠ 0)) p.expr
  | .positive | .negative | .nonNegative => Value.EachNumber (Value.Tested (0 < ·)) p.expr
  | .real => True
  | .integer => Value.IntegerDecided facts p.expr

theorem provePredicate_sound {env : Assignment} {facts : List Fact} {p : Fact} {z : ℂ}
    (hfacts : ∀ fact ∈ facts, fact.Holds env) (hp : Reliable facts p)
    (hz : Value.denote env p.expr = some z) :
    (provePredicate facts p).Decides (p.kind.Of z) (¬p.kind.Of z) := by
  obtain ⟨kind, expr⟩ := p
  rcases kind with _ | _ | _ | _ | _ | _ | _
  · exact Value.proveZero_sound hfacts expr z hp hz
  · exact (Value.proveZero_sound hfacts expr z hp hz).inverted.imp id fun h => not_not.mpr h
  · exact (Value.provePositive_sound hfacts expr z hp hz).imp id
      fun h hpos => hpos.not_isNonPositive h
  · exact (Value.proveNegative_sound hfacts expr z hp hz).imp id
      fun h hneg => hneg.not_isNonNegative h
  · exact (Value.proveNonnegative_sound hfacts hp hz).imp id
      fun h hnonneg => h.not_isNonNegative hnonneg
  · exact (Value.proveReal_sound hfacts expr z hz).imp id False.elim
  · exact ⟨Value.proveInteger_sound hfacts expr z hz,
      fun h => Value.not_isInteger_of_refuted hp hz h⟩

/-- `√2 - 2`, whose sign test gives up, is negative and proven to be positive. -/
theorem unknown_sign_positive (lo hi : F64) :
    Value.real (.algebraic (.mk .rational [-2, 0, 1] 1 lo hi) [.int (-2), .int 1]) < 0 ∧
      Value.provePositive [] (.algebraic (.mk .rational [-2, 0, 1] 1 lo hi) [.int (-2), .int 1]) =
        .proven := by
  refine ⟨?_, rfl⟩
  have hroot : ∀ x ∈ (AlgebraicField.mk .rational [-2, 0, 1] 1 lo hi).polynomial.roots, x < 2 := by
    intro x hx
    have heval := Polynomial.isRoot_of_mem_roots hx
    simp [Polynomial.IsRoot, AlgebraicField.polynomial, AlgebraicField.poly] at heval
    nlinarith
  have hlt : (AlgebraicField.mk .rational [-2, 0, 1] 1 lo hi).generator < 2 := by
    rcases AlgebraicField.generator_mem_or_zero (.mk .rational [-2, 0, 1] 1 lo hi) with h | h
    · exact hroot _ h
    · rw [h]
      exact two_pos
  have hint : (Int64.toInt (-2) : ℝ) = -2 := by norm_num [show Int64.toInt (-2) = -2 from rfl]
  have hone : (Int64.toInt 1 : ℝ) = 1 := by norm_num [show Int64.toInt 1 = 1 from rfl]
  simp only [Value.real, Value.reals, Value.evaluate, hint, hone]
  linarith

end Wqpl
