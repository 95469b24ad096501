/-
# Arithmetic on atoms

The arithmetic, bitwise and shift operations on two atoms. A machine integer
that does not hold a result becomes a big integer; a big integer that a machine
integer holds is made one again (`fromBigint`). The remainder of the smallest
machine integer by -1 overflows and stops the program (`rem?`).

Only operands that are integers, big integers and floats are computed here. An
operand of another kind leads to `NumberOps.otherBinary`: lifted callables, symbolic
expressions, complex and algebraic numbers and fractions.
-/
import Mathlib.Data.Int.Bitwise
import Wqpl.Broadcast

namespace Wqpl

/-- A computation that may also stop the program by a panic (`none`). -/
abbrev Checked := ExceptT WqErrorType Option

namespace Checked

variable {α : Type}

def ofResult (r : WqResult α) : Checked α := ExceptT.mk (some r)

/-- An operation of the language that panics where it has no value. -/
def ofOption (o : Option α) : Checked α := ExceptT.mk (o.map Except.ok)

end Checked

/-- What the operations use without looking into it: float arithmetic, and the
operations on other kinds of numbers. Sums and products of floats do not
depend on the order of the operands; the payload of a NaN is not observed. -/
structure NumberOps where
  fadd : F64 → F64 → F64
  fsub : F64 → F64 → F64
  fmul : F64 → F64 → F64
  fdiv : F64 → F64 → F64
  frem : F64 → F64 → F64
  powf : F64 → F64 → F64
  fneg : F64 → F64
  floor : F64 → F64
  /-- `as i64`. -/
  toI64 : F64 → Int64
  /-- `BigInt::to_f64`. -/
  bigIntToF64 : Int → Option F64
  /-- The power of two complex numbers with these real parts. -/
  powc : F64 → F64 → Value
  otherUnary : UnaryOperator → Value → WqResult Value
  otherBinary : BinaryOperator → Value → Value → WqResult Value
  fadd_comm : ∀ x y, fadd x y = fadd y x
  fmul_comm : ∀ x y, fmul x y = fmul y x

/-- Operations for programs on integers: every float is zero. -/
def NumberOps.inert : NumberOps where
  fadd _ _ := ⟨0⟩
  fsub _ _ := ⟨0⟩
  fmul _ _ := ⟨0⟩
  fdiv _ _ := ⟨0⟩
  frem _ _ := ⟨0⟩
  powf _ _ := ⟨0⟩
  fneg _ := ⟨0⟩
  floor _ := ⟨0⟩
  toI64 _ := 0
  bigIntToF64 _ := some ⟨0⟩
  powc _ _ := Value.emptyList
  otherUnary _ _ := .error .domain
  otherBinary _ _ _ := .error .domain
  fadd_comm _ _ := rfl
  fmul_comm _ _ := rfl

/-- `from_bigint`. -/
def Value.fromBigint (n : Int) : Value :=
  match i64? n with
  | some m => .int m
  | none => .bigInt n

/-- A checked machine operation, or else its exact result as a big integer. -/
def Value.ofChecked (exact : Int) : Value :=
  match i64? exact with
  | some m => .int m
  | none => .fromBigint exact

/-- `from_fraction_parts`. -/
def Value.fromFractionParts (numer denom : Int) : Value := .fraction (Rat.divInt numer denom)

/-- `u32::try_from`. -/
def u32? (n : Int) : Option Nat := if 0 ≤ n ∧ n < 2 ^ 32 then some n.toNat else none

/-- `x / y` on machine integers. -/
def quot? (x y : Int64) : Option Int64 :=
  if y = 0 ∨ (x.toInt = -2 ^ 63 ∧ y.toInt = -1) then none
  else some (Int64.ofInt (x.toInt.tdiv y.toInt))

/-- `x % y` on machine integers. It panics also where the quotient overflows. -/
def rem? (x y : Int64) : Option Int64 :=
  if y = 0 ∨ (x.toInt = -2 ^ 63 ∧ y.toInt = -1) then none
  else some (Int64.ofInt (x.toInt.tmod y.toInt))

section Atoms

variable (ops : NumberOps)

/-- `BigInt::to_f64`, or the error that the integer is too large. -/
def bigToFloat (n : Int) : Checked F64 :=
  match ops.bigIntToF64 n with
  | some f => return f
  | none => throw .domain

/-- `is_zero`. -/
def isZero : Value → Bool
  | .int n => n.toInt = 0
  | .float f => f.isZero
  | .bigInt n => n = 0
  | _ => false

/-! ### Sums and products -/

/-- `neg_atom`. -/
def negAtom : Value → Checked Value
  | .int n =>
    match i64? (-n.toInt) with
    | some m => return .int m
    | none => return .bigInt (-n.toInt)
  | .float f => return .float (ops.fneg f)
  | .bigInt n => return .bigInt (-n)
  | v => .ofResult (ops.otherUnary .negate v)

/-- `add_atoms`. -/
def addAtoms : Value → Value → Checked Value
  | .int x, .int y => return .ofChecked (x.toInt + y.toInt)
  | .float x, .float y => return .float (ops.fadd x y)
  | .int x, .float y => return .float (ops.fadd (.ofInt x.toInt) y)
  | .float x, .int y => return .float (ops.fadd (.ofInt y.toInt) x)
  | .int x, .bigInt y => return .fromBigint (x.toInt + y)
  | .bigInt x, .int y => return .fromBigint (y.toInt + x)
  | .float x, .bigInt y => do return .float (ops.fadd x (← bigToFloat ops y))
  | .bigInt x, .float y => do return .float (ops.fadd y (← bigToFloat ops x))
  | .bigInt x, .bigInt y => return .fromBigint (x + y)
  | a, b => .ofResult (ops.otherBinary .add a b)

/-- `sub_atoms`. -/
def subAtoms : Value → Value → Checked Value
  | .int x, .int y => return .ofChecked (x.toInt - y.toInt)
  | .float x, .float y => return .float (ops.fsub x y)
  | .int x, .float y => return .float (ops.fsub (.ofInt x.toInt) y)
  | .float x, .int y => return .float (ops.fsub x (.ofInt y.toInt))
  | .bigInt x, .bigInt y => return .fromBigint (x - y)
  | .int x, .bigInt y => return .fromBigint (x.toInt - y)
  | .bigInt x, .int y => return .fromBigint (x - y.toInt)
  | .bigInt x, .float y => do return .float (ops.fsub (← bigToFloat ops x) y)
  | .float x, .bigInt y => do return .float (ops.fsub x (← bigToFloat ops y))
  | a, b => .ofResult (ops.otherBinary .subtract a b)

/-- `mul_atoms`. -/
def mulAtoms : Value → Value → Checked Value
  | .int x, .int y => return .ofChecked (x.toInt * y.toInt)
  | .float x, .float y => return .float (ops.fmul x y)
  | .int x, .float y => return .float (ops.fmul (.ofInt x.toInt) y)
  | .float x, .int y => return .float (ops.fmul (.ofInt y.toInt) x)
  | .int x, .bigInt y => return .fromBigint (x.toInt * y)
  | .bigInt x, .int y => return .fromBigint (y.toInt * x)
  | .float x, .bigInt y => do return .float (ops.fmul x (← bigToFloat ops y))
  | .bigInt x, .float y => do return .float (ops.fmul y (← bigToFloat ops x))
  | .bigInt x, .bigInt y => return .fromBigint (x * y)
  | a, b => .ofResult (ops.otherBinary .multiply a b)

/-! ### Division -/

/-- `div_atoms`. -/
def divAtoms (a b : Value) : Checked Value :=
  if isZero b then throw .zeroDiv
  else
    match a, b with
    | .int x, .int y => return .float (ops.fdiv (.ofInt x.toInt) (.ofInt y.toInt))
    | .float x, .float y => return .float (ops.fdiv x y)
    | .int x, .float y => return .float (ops.fdiv (.ofInt x.toInt) y)
    | .float x, .int y => return .float (ops.fdiv x (.ofInt y.toInt))
    | .bigInt x, .bigInt y => do
      return .float (ops.fdiv (← bigToFloat ops x) (← bigToFloat ops y))
    | .bigInt x, .int y => do return .float (ops.fdiv (← bigToFloat ops x) (.ofInt y.toInt))
    | .int x, .bigInt y => do return .float (ops.fdiv (.ofInt x.toInt) (← bigToFloat ops y))
    | .bigInt x, .float y => do return .float (ops.fdiv (← bigToFloat ops x) y)
    | .float x, .bigInt y => do return .float (ops.fdiv x (← bigToFloat ops y))
    | a, b => .ofResult (ops.otherBinary .divide a b)

/-- The exact quotient of two integers, one of them big. -/
def exactQuotient (x y : Int) : Value :=
  if x.tmod y = 0 then .fromBigint (x.tdiv y) else .fromFractionParts x y

/-- `div_dot_atoms`. -/
def divDotAtoms (a b : Value) : Checked Value :=
  if isZero b then throw .zeroDiv
  else
    match a, b with
    | .int x, .int y => do
      if (← .ofOption (rem? x y)).toInt = 0 then return .int (← .ofOption (quot? x y))
      else return .fromFractionParts x.toInt y.toInt
    | .float x, .float y => return .float (ops.fdiv x y)
    | .int x, .float y => return .float (ops.fdiv (.ofInt x.toInt) y)
    | .float x, .int y => return .float (ops.fdiv x (.ofInt y.toInt))
    | .bigInt x, .bigInt y => return exactQuotient x y
    | .bigInt x, .int y => return exactQuotient x y.toInt
    | .int x, .bigInt y => return exactQuotient x.toInt y
    | .bigInt x, .float y => do return .float (ops.fdiv (← bigToFloat ops x) y)
    | .float x, .bigInt y => do return .float (ops.fdiv x (← bigToFloat ops y))
    | a, b => .ofResult (ops.otherBinary .divideDot a b)

/-- `mod_atoms`. -/
def modAtoms (a b : Value) : Checked Value :=
  if isZero b then throw .zeroDiv
  else
    match a, b with
    | .int x, .int y => do return .int (← .ofOption (rem? x y))
    | .float x, .float y => return .float (ops.frem x y)
    | .int x, .float y => return .float (ops.frem (.ofInt x.toInt) y)
    | .float x, .int y => return .float (ops.frem x (.ofInt y.toInt))
    | .bigInt x, .bigInt y => return .fromBigint (x.tmod y)
    | .bigInt x, .int y => return .fromBigint (x.tmod y.toInt)
    | .int x, .bigInt y => return .fromBigint (x.toInt.tmod y)
    | .bigInt x, .float y => do return .float (ops.frem (← bigToFloat ops x) y)
    | .float x, .bigInt y => do return .float (ops.frem x (← bigToFloat ops y))
    | a, b => .ofResult (ops.otherBinary .modulo a b)

/-- `Value::floor` on the quotient of numbers, which is a float. -/
def floorFloat : Value → Checked Value
  | .float f =>
    if (ops.floor f).isNaN then throw .domain else return .int (ops.toI64 (ops.floor f))
  | v => return v

/-- The quotient of two machine integers rounded down. -/
def floorQuotient? (x y : Int64) : Option Int64 := do
  let q ← quot? x y
  let r ← rem? x y
  if r.toInt = 0 ∨ 0 ≤ (x ^^^ y).toInt then return q else i64? (q.toInt - 1)

/-- `floor_div_atoms`. -/
def floorDivAtoms : Value → Value → Checked Value
  | .int x, .int y =>
    if y = 0 then throw .zeroDiv
    else if x.toInt = -2 ^ 63 ∧ y.toInt = -1 then return .fromBigint (x.toInt.tdiv y.toInt)
    else do return .int (← .ofOption (floorQuotient? x y))
  | a@(.int _), b@(.float _) | a@(.int _), b@(.bigInt _) | a@(.float _), b@(.int _)
  | a@(.float _), b@(.float _) | a@(.float _), b@(.bigInt _) | a@(.bigInt _), b@(.int _)
  | a@(.bigInt _), b@(.float _) | a@(.bigInt _), b@(.bigInt _) => do
    floorFloat ops (← divAtoms ops a b)
  | a, b => .ofResult (ops.otherBinary .floorDiv a b)

/-! ### Powers -/

/-- An exponent, which must not exceed 32 bits. -/
def exponent (n : Int) : Checked Nat :=
  match u32? n with
  | some k => return k
  | none => throw .domain

/-- The power of two floats, complex for a negative base without a real one. -/
def floatPower (x y : F64) : Value :=
  let r := ops.powf x y
  if r.isNaN ∧ x.partialCmp (.ofInt 0) = some .lt ∧ ¬y.isNaN ∧ ¬y.isInfinite then ops.powc x y
  else .float r

/-- Whether a float is below zero. -/
def isBelowZero (f : F64) : Bool := f.partialCmp (.ofInt 0) = some .lt

/-- A power with a big integer for base or exponent. -/
def bigPower (base exp : Int) : Checked Value :=
  if exp < 0 then
    if base = 0 then throw .zeroDiv
    else do return .float (ops.powf (← bigToFloat ops base) (← bigToFloat ops exp))
  else do return .fromBigint (base ^ (← exponent exp))

/-- `pow_atoms`. -/
def powAtoms : Value → Value → Checked Value
  | .int x, .int y =>
    if 0 ≤ y.toInt then do return .ofChecked (x.toInt ^ (← exponent y.toInt))
    else if x.toInt = 0 then throw .zeroDiv
    else return .float (ops.powf (.ofInt x.toInt) (.ofInt y.toInt))
  | .float x, .float y =>
    if x.isZero ∧ isBelowZero y then throw .zeroDiv else return floatPower ops x y
  | .int x, .float y =>
    if x.toInt = 0 ∧ isBelowZero y then throw .zeroDiv
    else return floatPower ops (.ofInt x.toInt) y
  | .float x, .int y =>
    if x.isZero ∧ y.toInt < 0 then throw .zeroDiv
    else return .float (ops.powf x (.ofInt y.toInt))
  | .bigInt base, .bigInt exp => bigPower ops base exp
  | .bigInt base, .int exp =>
    if exp.toInt < 0 then
      if base = 0 then throw .zeroDiv
      else do return .float (ops.powf (← bigToFloat ops base) (.ofInt exp.toInt))
    else do return .fromBigint (base ^ (← exponent exp.toInt))
  | .int base, .bigInt exp =>
    if exp < 0 then
      if base.toInt = 0 then throw .zeroDiv
      else do return .float (ops.powf (.ofInt base.toInt) (← bigToFloat ops exp))
    else do return .fromBigint (base.toInt ^ (← exponent exp))
  | .bigInt base, .float exp =>
    if base = 0 ∧ isBelowZero exp then throw .zeroDiv
    else do
      let x ← bigToFloat ops base
      let r := ops.powf x exp
      if r.isNaN ∧ base < 0 ∧ ¬exp.isNaN ∧ ¬exp.isInfinite then return ops.powc x exp
      else return .float r
  | .float x, .bigInt exp =>
    if x.isZero ∧ exp < 0 then throw .zeroDiv
    else do return .float (ops.powf x (← bigToFloat ops exp))
  | a, b => .ofResult (ops.otherBinary .power a b)

/-- The exact power of two integers: a fraction when the exponent is negative. -/
def exactPower (base exp : Int) : Checked Value :=
  if exp < 0 then
    if base = 0 then throw .zeroDiv
    else do return .fromFractionParts 1 (base ^ (← exponent (-exp)))
  else do return .fromBigint (base ^ (← exponent exp))

/-- `pow_dot_atoms`. -/
def powDotAtoms : Value → Value → Checked Value
  | .int x, .int y =>
    if y.toInt < 0 then exactPower x.toInt y.toInt else powAtoms ops (.int x) (.int y)
  | .bigInt base, .int exp => exactPower base exp.toInt
  | .bigInt base, .bigInt exp => exactPower base exp
  | .int base, .bigInt exp => exactPower base.toInt exp
  | a@(.int _), b@(.float _) | a@(.float _), b@(.int _) | a@(.float _), b@(.float _)
  | a@(.float _), b@(.bigInt _) | a@(.bigInt _), b@(.float _) => powAtoms ops a b
  | a, b => .ofResult (ops.otherBinary .powerDot a b)

/-! ### Bits -/

/-- The common form of `band_atoms`, `bor_atoms` and `xor_atoms`. -/
def bitAtoms (op : BinaryOperator) (word : Int64 → Int64 → Int64) (big : Int → Int → Int)
    (bit : Bool → Bool → Bool) : Value → Value → Checked Value
  | .int x, .int y => return .int (word x y)
  | .bigInt x, .bigInt y => return .fromBigint (big x y)
  | .bool x, .bool y => return .bool (bit x y)
  | .int x, .bigInt y => return .fromBigint (big x.toInt y)
  | .bigInt x, .int y => return .fromBigint (big y.toInt x)
  | .float _, .int _ | .float _, .float _ | .float _, .bigInt _ | .int _, .float _
  | .bigInt _, .float _ => throw .domain
  | a, b => .ofResult (ops.otherBinary op a b)

/-- `band_atoms`. -/
def bandAtoms : Value → Value → Checked Value :=
  bitAtoms ops .bitAnd (· &&& ·) Int.land (· && ·)

/-- `bor_atoms`. -/
def borAtoms : Value → Value → Checked Value :=
  bitAtoms ops .bitOr (· ||| ·) Int.lor (· || ·)

/-- `xor_atoms`. -/
def xorAtoms : Value → Value → Checked Value :=
  bitAtoms ops .bitXor (· ^^^ ·) Int.xor (· ^^ ·)

/-- `not_atom`. -/
def notAtom : Value → Checked Value
  | .int x => return .int (~~~x)
  | .bigInt x => return .fromBigint (Int.lnot x)
  | .bool b => return .bool (!b)
  | .float _ => throw .domain
  | v => .ofResult (ops.otherUnary .not v)

/-- `shl_i64_exact`. -/
def shlI64Exact (x : Int64) (shift : Nat) : Value :=
  if x.toInt = 0 then .int 0
  else
    -- `1_i64.checked_shl(shift)`, where the sign bit makes the factor negative
    match if shift < 63 then i64? (x.toInt * 2 ^ shift) else none with
    | some result => .int result
    | none => .fromBigint (x.toInt * 2 ^ shift)

/-- `shr_i64_exact`. -/
def shrI64Exact (x : Int64) (shift : Nat) : Value :=
  if 64 ≤ shift then .int (if x.toInt < 0 then -1 else 0)
  else .int (Int64.ofInt (x.toInt / 2 ^ shift))

/-- The common form of `shl_atoms` and `shr_atoms`. -/
def shiftAtoms (op : BinaryOperator) (word : Int64 → Nat → Value) (big : Int → Nat → Int) :
    Value → Value → Checked Value
  | .int x, .int s => do return word x (← exponent s.toInt)
  | .bigInt x, .int s => do return .fromBigint (big x (← exponent s.toInt))
  | .int x, .bigInt s => do return word x (← exponent s)
  | .bigInt x, .bigInt s => do return .fromBigint (big x (← exponent s))
  | .float _, .int _ | .float _, .float _ | .float _, .bigInt _ | .int _, .float _
  | .bigInt _, .float _ => throw .domain
  | a, b => .ofResult (ops.otherBinary op a b)

/-- `shl_atoms`. -/
def shlAtoms : Value → Value → Checked Value :=
  shiftAtoms ops .shl shlI64Exact fun x shift => x * 2 ^ shift

/-- `shr_atoms`. -/
def shrAtoms : Value → Value → Checked Value :=
  shiftAtoms ops .shr shrI64Exact fun x shift => x / 2 ^ shift

end Atoms

end Wqpl
