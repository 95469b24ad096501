/-
# Polynomials of the symbolic algebra

A polynomial is the list of its coefficients, the constant one first. Its
coefficients are any numbers; arithmetic on them is that of the language, with
exact fractions. Zeros at the end are cut off (`polyTrim`), and the degree of a
list of zeros counts as zero (`polyDegree`).

The loops of division, greatest common divisor, resultant and square-free
factorisation go on as long as a remainder is not recognised as zero, so they
get fuel: without a value left, the program has panicked or the loop goes on.
-/
import Wqpl.Arith.Lists
import Wqpl.Cas.Numeric
import Wqpl.Fuel

namespace Wqpl

namespace Checked

variable {α : Type}

/-- `expect`: an error stops the program. -/
def expect (x : Checked α) : Checked α :=
  ExceptT.mk <|
    match x.run with
    | some (.ok a) => some (.ok a)
    | _ => none

/-- The loop goes on. -/
def outOfFuel : Checked α := ExceptT.mk none

end Checked

/-! ### Numbers -/

/-- `rational_parts`. -/
def Value.rationalParts : Value → Option ℚ
  | .int n => some n.toInt
  | .bigInt n => some n
  | .fraction q => some q
  | _ => none

/-- The operations on two rationals, one of them a fraction. -/
def fractionOp (op : BinaryOperator) (p q : ℚ) : Option (WqResult Value) :=
  match op with
  | .add => some (.ok (.fromFractionParts (p.num * q.den + q.num * p.den) (p.den * q.den)))
  | .subtract => some (.ok (.fromFractionParts (p.num * q.den - q.num * p.den) (p.den * q.den)))
  | .multiply => some (.ok (.fromFractionParts (p.num * q.num) (p.den * q.den)))
  | .divideDot =>
    if q.num = 0 then some (.error .zeroDiv)
    else if (p.num * q.den).tmod (p.den * q.num) = 0 then
      some (.ok (.fromBigint ((p.num * q.den).tdiv (p.den * q.num))))
    else some (.ok (.fromFractionParts (p.num * q.den) (p.den * q.num)))
  | _ => none

/-- The operations `numbers`, with fractions as they are computed. -/
def NumberOps.withFractions (numbers : NumberOps) : NumberOps :=
  { numbers with
    otherBinary := fun op a b =>
      match a.rationalParts, b.rationalParts with
      | some p, some q => (fractionOp op p q).getD (numbers.otherBinary op a b)
      | _, _ => numbers.otherBinary op a b }

/-- The numeric operators of the symbolic algebra. -/
inductive NumericOp
  | add | subtract | multiply | divide | power
deriving DecidableEq, Repr

/-- Division and power keep exact numbers exact. -/
def NumericOp.arith : NumericOp → ArithOp
  | .add => .add
  | .subtract => .subtract
  | .multiply => .multiply
  | .divide => .divideDot
  | .power => .powerDot

/-- `numeric_is_one`; an algebraic number is one if its first coefficient is,
and the others are zero. -/
def Value.numericIsOne : Value → Bool
  | .int n => n.toInt = 1
  | .bigInt n => n = 1
  | .float f => f.partialCmp (.ofInt 1) = some .eq
  | .fraction q => q.num = 1 ∧ q.den = 1
  | .algebraic _ (c :: cs) => numericIsOne c && allNumericZero cs
  | _ => false

section Poly

variable (numbers : NumberOps)

def evalNumericBinary (op : NumericOp) (a b : Value) : Checked Value :=
  op.arith.eval numbers.withFractions a b

/-- `eval_exact_numeric_div`. -/
def evalExactNumericDiv (a b : Value) : Checked Value :=
  match a.rationalParts, b.rationalParts with
  | some p, some q =>
    if q.num = 0 then evalNumericBinary numbers .divide a b
    else
      let value := Rat.divInt (p.num * q.den) (p.den * q.num)
      if value.den = 1 then return .fromBigint value.num else return .fraction value
  | _, _ => evalNumericBinary numbers .divide a b

/-! ### Lists of coefficients -/

/-- Without the zeros in front of a reversed list, the last item aside. -/
def popZeros : List Value → List Value
  | c :: d :: cs => if c.numericIsZero then popZeros (d :: cs) else c :: d :: cs
  | cs => cs

def polyTrim (coeffs : List Value) : List Value := (popZeros coeffs.reverse).reverse

/-- `rposition`: the last index whose item passes. -/
def rposition (p : Value → Bool) (coeffs : List Value) : Option Nat :=
  (coeffs.reverse.findIdx? p).map fun i => coeffs.length - 1 - i

def polyDegree (coeffs : List Value) : Nat :=
  (rposition (fun c => !c.numericIsZero) coeffs).getD 0

def polyIsZero (coeffs : List Value) : Bool := coeffs.all Value.numericIsZero

def polyAdd (lhs rhs : List Value) : Checked (List Value) := do
  let size := max lhs.length rhs.length
  let out ← (List.range size).mapM fun i =>
    evalNumericBinary numbers .add (lhs.getD i (.int 0)) (rhs.getD i (.int 0))
  return polyTrim out

def polyNeg (coeffs : List Value) : Checked (List Value) :=
  coeffs.mapM fun c => (evalNumericBinary numbers .multiply c (.int (-1))).expect

def polyConstMul (coeffs : List Value) (factor : Value) : Checked (List Value) :=
  coeffs.mapM fun c => evalNumericBinary numbers .multiply c factor

def polySub (lhs rhs : List Value) : Checked (List Value) := do
  polyAdd numbers lhs (← polyNeg numbers rhs)

def polyDerivative (coeffs : List Value) : Checked (List Value) :=
  if coeffs.length ≤ 1 then return [.int 0]
  else do
    let deriv ← (coeffs.zipIdx.drop 1).mapM fun (c, i) =>
      (evalNumericBinary numbers .multiply c (.fromBigint i)).expect
    return polyTrim deriv

def polyMakeMonic (poly : List Value) : Checked (List Value) := do
  let poly := polyTrim poly
  if polyIsZero poly then return poly
  let lc ← .ofOption poly.getLast?
  let poly ← if lc.numericIsNegative then polyNeg numbers poly else pure poly
  let lc ← .ofOption poly.getLast?
  if lc.numericIsOne then return poly
  else
    let scale ← evalExactNumericDiv numbers (.int 1) lc
    return polyTrim (← polyConstMul numbers poly scale)

/-! ### Division -/

/-- The `for` loop of the division: a multiple of the divisor is taken off the
remainder, from an index on. -/
def subtractMultiple (coeff : Value) : List Value → Nat → List Value → Checked (List Value)
  | [], _, remainder => return remainder
  | denomCoeff :: denom, idx, remainder => do
    let term ← evalNumericBinary numbers .multiply coeff denomCoeff
    let c ← evalNumericBinary numbers .subtract (← .ofOption remainder[idx]?) term
    subtractMultiple coeff denom (idx + 1) (remainder.set idx c)

/-- The `while` loop of the division, on quotient and remainder. -/
def divideLoop (denom : List Value) (denomLead : Value) :
    Nat → List Value → List Value → Checked (List Value × List Value)
  | 0, _, _ => .outOfFuel
  | fuel + 1, quotient, remainder =>
    if polyIsZero remainder ∨ polyDegree remainder < polyDegree denom then
      return (quotient, remainder)
    else do
      let remDegree := polyDegree remainder
      let shift := remDegree - polyDegree denom
      let coeff ← evalExactNumericDiv numbers (← .ofOption remainder[remDegree]?) denomLead
      let c ← evalNumericBinary numbers .add (← .ofOption quotient[shift]?) coeff
      let remainder ←
        subtractMultiple numbers coeff (denom.take (polyDegree denom + 1)) shift remainder
      divideLoop denom denomLead fuel (quotient.set shift c) (polyTrim remainder)

def polyDivide (fuel : Nat) (numer denom : List Value) :
    Checked (List Value × List Value) := do
  let numer := polyTrim numer
  let denom := polyTrim denom
  if polyIsZero denom then throw .domain
  if polyDegree numer < polyDegree denom then return ([.int 0], numer)
  let denomLead ← .ofOption denom[polyDegree denom]?
  let quotient := List.replicate (polyDegree numer - polyDegree denom + 1) (.int 0)
  let (quotient, remainder) ← divideLoop numbers denom denomLead fuel quotient numer
  return (polyTrim quotient, polyTrim remainder)

/-! ### Greatest common divisor and resultant -/

/-- The `while` loop of the greatest common divisor. -/
def gcdLoop : Nat → List Value → List Value → Checked (List Value)
  | 0, _, _ => .outOfFuel
  | fuel + 1, a, b =>
    if polyIsZero b then return a
    else do
      let (_, r) ← polyDivide numbers fuel a b
      gcdLoop fuel b (polyTrim r)

def polyGcd (fuel : Nat) (a b : List Value) : Checked (List Value) :=
  let a := polyTrim a
  let b := polyTrim b
  if polyIsZero a then polyMakeMonic numbers b
  else if polyIsZero b then polyMakeMonic numbers a
  else do polyMakeMonic numbers (← gcdLoop numbers fuel a b)

/-- The sign of a swap. -/
def swapSign (degA degB : Nat) : Value := if degA * degB % 2 = 1 then .int (-1) else .int 1

/-- `n` factors more. -/
def multiplyBy (factor : Value) : Nat → Value → Checked Value
  | 0, acc => return acc
  | n + 1, acc => do multiplyBy factor n (← evalNumericBinary numbers .multiply acc factor)

def polyResultant : Nat → List Value → List Value → Checked Value
  | 0, _, _ => .outOfFuel
  | fuel + 1, a, b => do
    let a := polyTrim a
    let b := polyTrim b
    if polyIsZero a ∨ polyIsZero b then return .int 0
    let degA := polyDegree a
    let degB := polyDegree b
    if degA < degB then
      let r ← polyResultant fuel b a
      evalNumericBinary numbers .multiply (swapSign degA degB) r
    else
      let lcB ← .ofOption b[degB]?
      if degB = 0 then
        if degA = 0 then return .int 1 else multiplyBy numbers lcB (degA - 1) lcB
      else
        let (_, rem) ← polyDivide numbers fuel a b
        let factor ← multiplyBy numbers lcB (degA - polyDegree rem) (swapSign degA degB)
        let inner ← polyResultant fuel b rem
        evalNumericBinary numbers .multiply factor inner

/-! ### Square-free factorisation -/

/-- The `while` loop of the factorisation, from multiplicity `i` on. -/
def squareFreeLoop : Nat → Nat → List Value → List Value → List (List Value × Nat) →
    Checked (List (List Value × Nat))
  | 0, _, _, _, _ => .outOfFuel
  | fuel + 1, i, s, t, result =>
    if polyDegree s = 0 then return result
    else do
      let h ← polySub numbers t (← polyDerivative numbers s)
      let g ← polyGcd numbers fuel s h
      let result := if 0 < polyDegree g then result ++ [(g, i)] else result
      let (s, _) ← polyDivide numbers fuel s g
      let (t, _) ← polyDivide numbers fuel h g
      squareFreeLoop fuel (i + 1) s t result

def squareFreeFactor (fuel : Nat) (poly : List Value) : Checked (List (List Value × Nat)) := do
  if polyIsZero poly then return []
  let poly := polyTrim poly
  let deriv := polyTrim (← polyDerivative numbers poly)
  let g ← polyGcd numbers fuel poly deriv
  if polyIsZero g then throw .vm
  let (s, _) ← polyDivide numbers fuel poly g
  let (t, _) ← polyDivide numbers fuel deriv g
  squareFreeLoop numbers fuel 1 s t []

end Poly

end Wqpl
