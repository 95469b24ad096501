/-
# The assumption prover

A list of facts about symbolic expressions, and a search that answers a
question about an expression with `proven`, `refuted` or `unknown`. The seven
questions rest on each other; each looks at known numbers first, then for a
fact about the very expression, then into products, powers and sums. A fact is
kept only if the ones before it leave it open, and rejected if they refute it.
-/
import Wqpl.Cas.Numeric
import Wqpl.FallibleLoop

namespace Wqpl

/-! ### Three-valued answers -/

inductive Truth
  | proven | refuted | unknown
deriving DecidableEq, Repr

def invert : Truth → Truth
  | .proven => .refuted
  | .refuted => .proven
  | .unknown => .unknown

def truthForOrdering (actual expected : Ordering) : Truth :=
  if actual = expected then .proven else .refuted

def allTruth : List Truth → Truth
  | [] => .proven
  | .proven :: ts => allTruth ts
  | .refuted :: _ => .refuted
  | .unknown :: ts => if allTruth ts = .refuted then .refuted else .unknown

/-- The answer is right about two statements: it is `proven` only if the first
holds and `refuted` only if the second does. -/
structure Truth.Decides (t : Truth) (P Q : Prop) : Prop where
  proven : t = .proven → P
  refuted : t = .refuted → Q

namespace Truth.Decides

variable {t : Truth} {P Q : Prop}

theorem ofUnknown : Truth.Decides .unknown P Q := ⟨nofun, nofun⟩

theorem ofProven (h : P) : Truth.Decides .proven P Q := ⟨fun _ => h, nofun⟩

theorem ofRefuted (h : Q) : Truth.Decides .refuted P Q := ⟨nofun, fun _ => h⟩

theorem inverted (h : t.Decides P Q) : (invert t).Decides Q P := by
  rcases t with _ | _ | _
  · exact ofRefuted (h.proven rfl)
  · exact ofProven (h.refuted rfl)
  · exact ofUnknown

theorem imp {P' Q' : Prop} (h : t.Decides P Q) (hP : P → P') (hQ : Q → Q') : t.Decides P' Q' :=
  ⟨fun ht => hP (h.proven ht), fun ht => hQ (h.refuted ht)⟩

theorem ite {c : Prop} [Decidable c] {t' : Truth} (h : c → t.Decides P Q)
    (h' : ¬c → t'.Decides P Q) : (if c then t else t').Decides P Q := by
  split
  · rename_i hc
    exact h hc
  · rename_i hc
    exact h' hc

end Truth.Decides

/-- All answers of a list, and one of them, decide with `allTruth`. -/
theorem Truth.Decides.cons {t : Truth} {ts : List Truth} {P Q P' Q' : Prop} (h : t.Decides P Q)
    (h' : (allTruth ts).Decides P' Q') : (allTruth (t :: ts)).Decides (P ∧ P') (Q ∨ Q') := by
  rcases t with _ | _ | _
  · exact h'.imp (fun hP' => ⟨h.proven rfl, hP'⟩) .inr
  · exact .ofRefuted (.inl (h.refuted rfl))
  · exact .ite (fun hts => .ofRefuted (.inr (h'.refuted hts))) fun _ => .ofUnknown

/-! ### Facts -/

/-- A symbolic condition on an expression. -/
structure Fact where
  kind : CasPredicate
  expr : Value

inductive SignQuery
  | positive | negative | nonNegative
deriving DecidableEq, Repr

namespace Value

/-- The last fact about the value that answers. -/
def lastFact {α : Type} (answer : CasPredicate → Option α) (facts : List Fact) (value : Value) :
    Option α :=
  facts.reverse.findSome? fun fact => if eq fact.expr value then answer fact.kind else none

def zeroAnswer : CasPredicate → Option Truth
  | .zero => some .proven
  | .nonZero | .positive | .negative => some .refuted
  | _ => none

def directZeroFact (facts : List Fact) (value : Value) : Option Truth :=
  lastFact zeroAnswer facts value

def signAnswer : SignQuery → CasPredicate → Option Truth
  | .positive, .positive => some .proven
  | .positive, .zero | .positive, .negative => some .refuted
  | .negative, .negative => some .proven
  | .negative, .zero | .negative, .positive | .negative, .nonNegative => some .refuted
  | .nonNegative, .nonNegative | .nonNegative, .positive | .nonNegative, .zero => some .proven
  | .nonNegative, .negative => some .refuted
  | _, _ => none

def directSignFact (facts : List Fact) (value : Value) (query : SignQuery) : Option Truth :=
  lastFact (signAnswer query) facts value

/-- The loop of `prove_real` over the facts. -/
def directRealFact (facts : List Fact) (value : Value) : Bool :=
  facts.reverse.any fun fact =>
    match fact.kind with
    | .real | .integer | .positive | .negative | .nonNegative | .zero => eq fact.expr value
    | .nonZero => false

/-- The loop of `prove_integer` over the facts. -/
def directIntegerFact (facts : List Fact) (value : Value) : Bool :=
  facts.reverse.any fun fact =>
    match fact.kind with
    | .integer | .zero => eq fact.expr value
    | _ => false

/-! ### The prover -/

def knownNumericSign : Value → Option Ordering
  | .float f => f.partialCmp ⟨0#64⟩
  | .complex re im => if !im.isZero || re.isNaN then none else re.partialCmp ⟨0#64⟩
  | value =>
    if numericIsZero value then some .eq
    else if numericIsNegative value then some .lt
    else if isKnownNumeric value then some .gt
    else none

mutual

def proveZero (facts : List Fact) : Value → Truth
  | .cas kind =>
    match directZeroFact facts (.cas kind) with
    | some truth => truth
    | none => proveZeroOp facts kind
  | value =>
    if isKnownNumeric value then
      match knownNumericSign value with
      | some .eq => .proven
      | some .lt | some .gt => .refuted
      | none => .unknown
    else
      match directZeroFact facts value with
      | some truth => truth
      | none => .unknown
termination_by structural value => value

def proveZeroOp (facts : List Fact) : CasKind → Truth
  | .op .multiply factors => proveZeroFactors facts factors true
  | .op .power [base, exponent] =>
    match exactInt exponent with
    | some n =>
      if n = 0 then .refuted
      else
        match proveZero facts base with
        | .proven => if 0 < n then .proven else .unknown
        | .refuted => .refuted
        | .unknown => .unknown
    | none => .unknown
  | _ => .unknown
termination_by structural kind => kind

/-- The loop of `prove_zero` over the factors of a product. -/
def proveZeroFactors (facts : List Fact) : List Value → Bool → Truth
  | [], allNonzero => if allNonzero then .refuted else .unknown
  | factor :: factors, allNonzero =>
    match proveZero facts factor with
    | .proven => .proven
    | .refuted => proveZeroFactors facts factors allNonzero
    | .unknown => proveZeroFactors facts factors false
termination_by structural factors => factors

end

/-- The constants that are known to be real. -/
def isRealConst : CasKind → Bool
  | .const .pi | .const .e | .const .infinity | .const .negInfinity => true
  | _ => false

mutual

def proveReal (facts : List Fact) : Value → Truth
  | .cas kind =>
    if isRealConst kind then .proven
    else if directRealFact facts (.cas kind) then .proven
    else proveRealOp facts kind
  | .complex _ im => if im.isZero then .proven else .refuted
  | value =>
    if isKnownNumeric value then .proven
    else if directRealFact facts value then .proven
    else .unknown
termination_by structural value => value

def proveRealOp (facts : List Fact) : CasKind → Truth
  | .op .add args | .op .multiply args => allTruth (proveReals facts args)
  | .op .power [base, exponent] =>
    match exactInt exponent with
    | some n =>
      if proveReal facts base = .proven ∧ (0 ≤ n ∨ proveZero facts base = .refuted) then .proven
      else .unknown
    | none => .unknown
  | _ => .unknown
termination_by structural kind => kind

def proveReals (facts : List Fact) : List Value → List Truth
  | [] => []
  | arg :: args => proveReal facts arg :: proveReals facts args
termination_by structural args => args

end

mutual

def proveInteger (facts : List Fact) : Value → Truth
  | .cas kind =>
    if directIntegerFact facts (.cas kind) then .proven else proveIntegerOp facts kind
  | value =>
    if (exactInt value).isSome then .proven
    else if isKnownNumeric value then .refuted
    else if directIntegerFact facts value then .proven
    else .unknown
termination_by structural value => value

def proveIntegerOp (facts : List Fact) : CasKind → Truth
  | .op .add args | .op .multiply args => allTruth (proveIntegers facts args)
  | .op .power [base, exponent] =>
    match exactInt exponent with
    | some n => if 0 ≤ n ∧ proveInteger facts base = .proven then .proven else .unknown
    | none => .unknown
  | _ => .unknown
termination_by structural kind => kind

def proveIntegers (facts : List Fact) : List Value → List Truth
  | [] => []
  | arg :: args => proveInteger facts arg :: proveIntegers facts args
termination_by structural args => args

end

/-- The facts that answer `prove_positive` without a look into the value. -/
def directPositive (facts : List Fact) (value : Value) : Option Truth :=
  match directSignFact facts value .positive with
  | some truth => some truth
  | none =>
    if directSignFact facts value .nonNegative = some .proven ∧
        proveZero facts value = .refuted then some .proven
    else none

mutual

def provePositive (facts : List Fact) : Value → Truth
  | .cas kind =>
    match directPositive facts (.cas kind) with
    | some truth => truth
    | none => provePositiveOp facts kind
  | value =>
    match knownNumericSign value with
    | some sign => truthForOrdering sign .gt
    | none =>
      match directPositive facts value with
      | some truth => truth
      | none => .unknown
termination_by structural value => value

def provePositiveOp (facts : List Fact) : CasKind → Truth
  | .op .multiply factors => productSign facts factors false false
  | .op .power [base, exponent] =>
    match exactInt exponent with
    | some n =>
      if n = 0 then .proven
      else if n % 2 = 0 then
        if proveReal facts base = .proven then invert (proveZero facts base) else .unknown
      else provePositive facts base
    | none => .unknown
  | _ => .unknown
termination_by structural kind => kind

def proveNegative (facts : List Fact) : Value → Truth
  | .cas kind =>
    match directSignFact facts (.cas kind) .negative with
    | some truth => truth
    | none => proveNegativeOp facts kind
  | value =>
    match knownNumericSign value with
    | some sign => truthForOrdering sign .lt
    | none =>
      match directSignFact facts value .negative with
      | some truth => truth
      | none => .unknown
termination_by structural value => value

def proveNegativeOp (facts : List Fact) : CasKind → Truth
  | .op .multiply factors => productSign facts factors false true
  | .op .power [base, exponent] =>
    match exactInt exponent with
    | some n =>
      if n = 0 then .refuted
      else if n % 2 = 0 then
        if proveReal facts base = .proven then .refuted else .unknown
      else proveNegative facts base
    | none => .unknown
  | _ => .unknown
termination_by structural kind => kind

/-- `negative` tells whether the factors before are negative together. -/
def productSign (facts : List Fact) : List Value → Bool → Bool → Truth
  | [], negative, wantNegative => if negative = wantNegative then .proven else .refuted
  | factor :: factors, negative, wantNegative =>
    if provePositive facts factor = .proven then productSign facts factors negative wantNegative
    else if proveNegative facts factor = .proven then
      productSign facts factors (!negative) wantNegative
    else if proveZero facts factor = .proven then .refuted
    else .unknown
termination_by structural factors => factors

end

/-- The even power of `prove_nonnegative`. -/
def isEvenPowerOfReal (facts : List Fact) : Value → Bool
  | .cas (.op .power [base, exponent]) =>
    match exactInt exponent with
    | some n => n % 2 = 0 ∧ proveReal facts base = .proven
    | none => false
  | _ => false

def proveNonnegative (facts : List Fact) (value : Value) : Truth :=
  match knownNumericSign value with
  | some sign => if sign = .lt then .refuted else .proven
  | none =>
    match directSignFact facts value .nonNegative with
    | some truth => truth
    | none =>
      if isEvenPowerOfReal facts value then .proven
      else
        match provePositive facts value, proveZero facts value with
        | .proven, _ | _, .proven => .proven
        | .refuted, .refuted => .refuted
        | _, _ => .unknown

end Value

def provePredicate (facts : List Fact) (predicate : Fact) : Truth :=
  match predicate.kind with
  | .zero => Value.proveZero facts predicate.expr
  | .nonZero => invert (Value.proveZero facts predicate.expr)
  | .positive => Value.provePositive facts predicate.expr
  | .negative => Value.proveNegative facts predicate.expr
  | .nonNegative => Value.proveNonnegative facts predicate.expr
  | .real => Value.proveReal facts predicate.expr
  | .integer => Value.proveInteger facts predicate.expr

/-! ### Collecting facts -/

inductive AssumptionError
  /-- "contradictory CAS assumption …" -/
  | contradictory (predicate : Fact)
  /-- "CAS assumptions currently accept zero equations and symbolic predicates" -/
  | equation (got : Value)
  /-- "CAS assumptions expect a condition or a list of conditions" -/
  | condition (got : Value)

def pushPredicate (facts : List Fact) (predicate : Fact) : Except AssumptionError (List Fact) :=
  match provePredicate facts predicate with
  | .refuted => .error (.contradictory predicate)
  | .unknown => .ok (facts ++ [predicate])
  | .proven => .ok facts

/-- A condition as `push_value` reads it. -/
def conditionOf : Value → Except AssumptionError Fact
  | .cas (.predicate kind expr) => .ok ⟨kind, expr⟩
  | .cas (.eq lhs rhs) =>
    if Value.numericIsZero lhs then .ok ⟨.zero, rhs⟩
    else if Value.numericIsZero rhs then .ok ⟨.zero, lhs⟩
    else .error (.equation (.cas (.eq lhs rhs)))
  | value => .error (.condition value)

mutual

def pushValue (facts : List Fact) : Value → Except AssumptionError (List Fact)
  | .list items => pushValues facts items
  | value => do
    let predicate ← conditionOf value
    pushPredicate facts predicate
termination_by structural value => value

def pushValues (facts : List Fact) : List Value → Except AssumptionError (List Fact)
  | [] => .ok facts
  | item :: items => do
    let facts ← pushValue facts item
    pushValues facts items
termination_by structural items => items

end

def CasAssumptions.fromValue (value : Value) : Except AssumptionError (List Fact) :=
  pushValue [] value

/-- `with_predicate`. -/
def CasAssumptions.withPredicate (facts : List Fact) (predicate : Fact) :
    Except AssumptionError (List Fact) :=
  pushPredicate facts predicate

/-! ### Runs -/

mutual

/-- The conditions in a value, one after the other. -/
def conditions : Value → List Value
  | .list items => conditionsOfItems items
  | value => [value]
termination_by structural value => value

def conditionsOfItems : List Value → List Value
  | [] => []
  | item :: items => conditions item ++ conditionsOfItems items
termination_by structural items => items

end

/-- A condition, read and pushed. -/
def pushCondition (facts : List Fact) (value : Value) : Except AssumptionError (List Fact) := do
  let predicate ← conditionOf value
  pushPredicate facts predicate

mutual

theorem pushValue_eq : ∀ (value : Value) (facts : List Fact),
    pushValue facts value = (conditions value).foldlM pushCondition facts
  | .list items, facts => pushValues_eq items facts
  | .int _, facts | .bigInt _, facts | .float _, facts | .complex _ _, facts | .fraction _, facts
  | .algebraic _ _, facts | .char _, facts | .tag _, facts | .bool _, facts | .intList _, facts
  | .intRange _, facts | .floatList _, facts | .boolList _, facts | .string _, facts
  | .cas _, facts | .dict _, facts | .compiledFunction _, facts | .closure _ _, facts
  | .builtinFunction _ _, facts | .liftedCallable _, facts | .rng _, facts | .stream _, facts =>
    (bind_pure (pushCondition facts _)).symm
termination_by structural value => value

theorem pushValues_eq : ∀ (items : List Value) (facts : List Fact),
    pushValues facts items = (conditionsOfItems items).foldlM pushCondition facts
  | [], _ => rfl
  | item :: items, facts => by
    rw [pushValues, conditionsOfItems, List.foldlM_append, pushValue_eq item facts]
    exact bind_congr fun facts => pushValues_eq items facts
termination_by structural items => items

end

/-- The predicates pushed one after the other, all accepted, and the facts that
are kept of them. -/
inductive Accepted : List Fact → List Fact → Prop
  | nil : Accepted [] []
  | push {stated facts facts' : List Fact} {p : Fact} (h : Accepted stated facts)
      (hpush : pushPredicate facts p = .ok facts') : Accepted (stated ++ [p]) facts'

/-- What is kept was stated. -/
theorem Accepted.subset {stated facts : List Fact} (h : Accepted stated facts) :
    facts ⊆ stated := by
  induction h with
  | nil => exact List.Subset.refl []
  | @push stated facts facts' p _ hpush ih =>
    have hkeep : facts ⊆ stated ++ [p] := List.subset_append_of_subset_left _ ih
    rw [pushPredicate] at hpush
    split at hpush
    · exact absurd hpush (by simp)
    · obtain rfl := Except.ok.inj hpush
      exact List.append_subset.mpr ⟨hkeep, List.subset_append_right _ _⟩
    · obtain rfl := Except.ok.inj hpush
      exact hkeep

theorem Accepted.foldlM : ∀ {values : List Value} {stated facts facts' : List Fact},
    Accepted stated facts → values.foldlM pushCondition facts = .ok facts' →
      ∃ predicates, List.Forall₂ (conditionOf · = .ok ·) values predicates ∧
        Accepted (stated ++ predicates) facts'
  | [], stated, facts, facts', h, hfold => by
    obtain rfl := Except.ok.inj hfold
    exact ⟨[], .nil, by rwa [List.append_nil]⟩
  | value :: values, stated, facts, facts', h, hfold => by
    rw [List.foldlM_cons] at hfold
    obtain ⟨facts₁, hpush, hfold⟩ := ok_of_bind hfold
    obtain ⟨p, hp, hpush⟩ := ok_of_bind hpush
    obtain ⟨predicates, hconditions, haccepted⟩ := (h.push hpush).foldlM hfold
    rw [List.append_assoc] at haccepted
    exact ⟨p :: predicates, .cons hp hconditions, haccepted⟩

/-- The facts made from a value are those kept of the conditions in it. -/
theorem Accepted.fromValue {value : Value} {facts : List Fact}
    (h : CasAssumptions.fromValue value = .ok facts) :
    ∃ stated, List.Forall₂ (conditionOf · = .ok ·) (conditions value) stated ∧
      Accepted stated facts := by
  rw [CasAssumptions.fromValue, pushValue_eq] at h
  exact Accepted.nil.foldlM h

end Wqpl
