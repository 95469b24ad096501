/-
# The real root of an algebraic field

A field is given by an integer polynomial and an interval of floats around one
of its real roots. The root is identified by its index among the real roots,
which is found by counting the sign variations along the Sturm sequence of the
polynomial: its derivative, and negated remainders.

The loops get fuel: without a value left, the program has panicked or a loop
goes on. The texts of the errors are left out, their kind is `domain`.

Key definitions: `sturmSequence`, `selectedRealRootIndex`,
`AlgebraicField.newRealRootOver`.
-/
import Wqpl.Cas.Numeric
import Wqpl.Cas.Poly

namespace Wqpl

/-! ### Floats as fractions -/

namespace F64

def isFinite (f : F64) : Bool := f.exponent ≠ 2047

/-- `BigRational::from_float`: the exact value. -/
def toRational (f : F64) : Option ℚ :=
  if f.isFinite then
    let magnitude : ℚ :=
      if f.exponent = 0 then f.fraction * 2 ^ (-1074 : ℤ)
      else (2 ^ 52 + f.fraction) * 2 ^ ((f.exponent : ℤ) - 1075)
    some (if f.signBit then -magnitude else magnitude)
  else none

end F64

/-! ### Rational polynomials -/

abbrev RationalPoly := List ℚ

/-- Without the zeros in front of a reversed list, the last item aside. -/
def popRationalZeros : List ℚ → List ℚ
  | c :: d :: cs => if c = 0 then popRationalZeros (d :: cs) else c :: d :: cs
  | cs => cs

def rationalPolyTrim (poly : RationalPoly) : RationalPoly :=
  (popRationalZeros poly.reverse).reverse

def rationalPolyDerivative (poly : RationalPoly) : RationalPoly :=
  let derivative := (poly.zipIdx.drop 1).map fun (coeff, degree) => coeff * degree
  rationalPolyTrim (if derivative.isEmpty then [0] else derivative)

/-- The multiple of a polynomial that begins at `shift` is taken off. -/
def subtractShifted (factor : ℚ) (shift : Nat) (denom : RationalPoly) (remainder : RationalPoly) :
    RationalPoly :=
  denom.zipIdx.foldl
    (fun remainder (coeff, degree) => remainder.modify (degree + shift) (· - factor * coeff))
    remainder

/-- The division of two coefficients, which panics for zero. -/
def rationalDiv (a b : ℚ) : Checked ℚ := .ofOption (if b = 0 then none else some (a / b))

def divRemLoop (denom : RationalPoly) (denomLead : ℚ) : Nat → RationalPoly → Checked RationalPoly
  | 0, _ => .outOfFuel
  | fuel + 1, remainder =>
    if denom.length ≤ remainder.length ∧ ¬remainder.all (· = 0) then do
      let shift := remainder.length - denom.length
      let factor ← rationalDiv (← Checked.ofOption remainder.getLast?) denomLead
      divRemLoop denom denomLead fuel
        (rationalPolyTrim (subtractShifted factor shift denom remainder))
    else return remainder

/-- `rational_poly_div_rem`: the remainder. -/
def rationalPolyDivRem (fuel : Nat) (numer denom : RationalPoly) : Checked RationalPoly := do
  let denomLead ← Checked.ofOption denom.getLast?
  divRemLoop denom denomLead fuel (rationalPolyTrim numer)

/-! ### Sturm sequences -/

/-- What the loop of `sturm_sequence` pushes behind the last two polynomials. -/
def sturmLoop : Nat → RationalPoly → RationalPoly → Checked (List RationalPoly)
  | 0, _, _ => .outOfFuel
  | fuel + 1, a, b => do
    let remainder ← rationalPolyDivRem fuel a b
    if remainder.all (· = 0) then return []
    else
      let next := rationalPolyTrim (remainder.map (-·))
      return next :: (← sturmLoop fuel b next)

def sturmSequence (fuel : Nat) (poly : List ℤ) : Checked (List RationalPoly) := do
  let first : RationalPoly := poly.map (↑)
  let second := rationalPolyDerivative first
  return first :: second :: (← sturmLoop fuel first second)

def evalRationalPoly (poly : RationalPoly) (x : ℚ) : ℚ :=
  poly.reverse.foldl (fun acc coeff => acc * x + coeff) 0

/-- `sign_variations`: the changes of sign, zeros left out. -/
def signVariations (signs : List SignType) : Nat :=
  (signs.foldl (fun (previous, variations) sign =>
    if sign = 0 then (previous, variations)
    else (sign, if previous ≠ 0 ∧ sign ≠ previous then variations + 1 else variations))
    ((0 : SignType), 0)).2

def rationalSign (value : ℚ) : SignType :=
  if 0 < value then 1 else if value < 0 then -1 else 0

def sturmVariationsAt (sequence : List RationalPoly) (x : ℚ) : Nat :=
  signVariations (sequence.map fun poly => rationalSign (evalRationalPoly poly x))

def sturmVariationsAtNegativeInfinity (sequence : List RationalPoly) : Checked Nat := do
  let signs ← sequence.mapM fun poly => do
    let leadSign := rationalSign (← Checked.ofOption poly.getLast?)
    return if (poly.length - 1) % 2 = 0 then leadSign else -leadSign
  return signVariations signs

/-! ### The index of a root -/

/-- `exact_interval`. -/
def exactInterval (interval : F64 × F64) : WqResult (ℚ × ℚ) :=
  let (lo, hi) := interval
  if !lo.isFinite || !hi.isFinite || lo.partialCmp hi = some .gt || lo.partialCmp hi = some .eq then
    .error .domain
  else
    match lo.toRational, hi.toRational with
    | some lo, some hi => .ok (lo, hi)
    | _, _ => .error .domain

/-- `selected_real_root_index` behind `exact_interval`. -/
def realRootIndexBetween (fuel : Nat) (poly : List ℤ) (lo hi : ℚ) : Checked Nat := do
  let sequence ← sturmSequence fuel poly
  let first ← Checked.ofOption sequence.head?
  if evalRationalPoly first lo = 0 ∨ evalRationalPoly first hi = 0 then throw .domain
  let atLo := sturmVariationsAt sequence lo
  let atHi := sturmVariationsAt sequence hi
  let rootCount := atLo - atHi
  if rootCount ≠ 1 then throw .domain
  return (← sturmVariationsAtNegativeInfinity sequence) - atLo

def selectedRealRootIndex (fuel : Nat) (poly : List ℤ) (interval : F64 × F64) : Checked Nat := do
  let (lo, hi) ← Checked.ofResult (exactInterval interval)
  realRootIndexBetween fuel poly lo hi

/-! ### Fields -/

/-- `bigint_gcd`. -/
def bigintGcd (a b : ℤ) : ℤ :=
  if b = 0 then a else bigintGcd b (a.tmod b)
termination_by b.natAbs
decreasing_by
  rw [Int.natAbs_tmod]
  exact Nat.mod_lt _ (by omega)

/-- `normalize_field_poly`. -/
def normalizeFieldPoly (poly : List ℤ) : WqResult (List ℤ) :=
  let poly := (poly.reverse.dropWhile (· = 0)).reverse
  if poly.length < 3 then .error .domain
  else
    let content := poly.foldl (fun content coeff => bigintGcd content |coeff|) 0
    if content = 0 then .error .domain
    else
      let poly := if content ≠ 1 then poly.map (·.tdiv content) else poly
      .ok (if poly.getLast?.any (· < 0) then poly.map (-·) else poly)

namespace AlgebraicField

/-- `new_real_root_over`. -/
def newRealRootOver (fuel : Nat) (base : AlgebraicBase) (poly : List ℤ) (interval : F64 × F64) :
    Checked AlgebraicField := do
  let poly ← Checked.ofResult (normalizeFieldPoly poly)
  let index ← selectedRealRootIndex fuel poly interval
  return .mk base poly index interval.1 interval.2

end AlgebraicField

end Wqpl
