/-
# The canonical order of symbolic expressions

The arguments of sums and products are sorted by a degree (`canonicalDegree`)
and, where that is the same, by a text (`canonicalKey`) that is written along
the expression.

The texts of the payloads that have identity only are their addresses; which
text an address has is a parameter.
-/
import Wqpl.Hash
import Wqpl.Text
import Wqpl.Cas.Numeric

namespace Wqpl

/-! ### Names -/

def CasOp.symbol : CasOp → String
  | .add => "+"
  | .subtract => "-"
  | .multiply => "*"
  | .divide => "/"
  | .power => "^"

def CasConst.name : CasConst → String
  | .pi => "pi"
  | .e => "e"
  | .infinity => "inf"
  | .negInfinity => "-inf"
  | .undefined => "undef"

def CasFunction.name : CasFunction → String
  | .abs => "abs"
  | .sgn => "sgn"
  | .sin => "sin"
  | .cos => "cos"
  | .tan => "tan"
  | .sec => "sec"
  | .csc => "csc"
  | .cot => "cot"
  | .erf => "erf"
  | .erfc => "erfc"
  | .gamma => "gamma"
  | .lnGamma => "lngamma"
  | .si => "si"
  | .ci => "ci"
  | .ei => "ei"
  | .en => "en"
  | .ellPk => "ellpk"
  | .ellPe => "ellpe"
  | .ellIk => "ellik"
  | .ellIe => "ellie"
  | .heaviside => "heaviside"
  | .delta => "delta"
  | .exp => "exp"
  | .ln => "ln"
  | .log => "log"
  | .log2 => "log2"
  | .log10 => "log10"
  | .sqrt => "sqrt"
  | .arcSin => "arcsin"
  | .arcCos => "arccos"
  | .arcTan => "arctan"
  | .arcTan2 => "arctan2"
  | .sinh => "sinh"
  | .cosh => "cosh"
  | .tanh => "tanh"
  | .arcSinh => "arcsinh"
  | .arcCosh => "arccosh"
  | .arcTanh => "arctanh"
  | .floor => "floor"
  | .ceil => "ceil"
  | .round => "round"

namespace Value

/-! ### Degrees -/

/-- `u32::MAX`. -/
def u32Max : Nat := 2 ^ 32 - 1

def saturatingAdd (a b : Nat) : Nat := min (a + b) u32Max

def saturatingMul (a b : Nat) : Nat := min (a * b) u32Max

def maxDegree (degrees : List Nat) : Nat := degrees.foldr max 0

/-- The degree of an operator from its arguments and their degrees. -/
def opDegree : CasOp → List Value → List Nat → Nat
  | .add, _, degrees => maxDegree degrees
  | .multiply, _, degrees => degrees.foldl saturatingAdd 0
  | .power, [_, exp], [base, _] =>
    match exactInt exp with
    | some n => if 0 ≤ n ∧ n ≤ u32Max then saturatingMul base n.toNat else u32Max / 4
    | none => u32Max / 4
  | _, _, _ => u32Max / 4

mutual

/-- `canonical_degree`. -/
def canonicalDegree : Value → Nat
  | .cas kind => kindDegree kind
  | _ => 0

def degrees : List Value → List Nat
  | [] => []
  | x :: xs => canonicalDegree x :: degrees xs

def kindDegree : CasKind → Nat
  | .boundVar _ => 1
  | .var _ => 1
  | .op op args => opDegree op args (degrees args)
  | .function _ args => saturatingAdd (maxDegree (degrees args)) 1
  | .apply _ args => saturatingAdd (maxDegree (degrees args)) 1
  | .namedArg _ value => canonicalDegree value
  | _ => 0

end

/-! ### Keys -/

/-- `push_text_key`. -/
def textKey (tag text : String) : List Char :=
  tag.toList ++ Text.natDigits text.utf8ByteSize ++ ':' :: text.toList ++ [';']

/-- The sixteen hexadecimal digits of the bits of a float. -/
def bitsKey (f : F64) : List Char := (Nat.toDigits 16 f.bits.toNat).leftpad 16 '0'

def boolKey (b : Bool) : List Char := (if b then "true" else "false").toList

end Value

mutual

def AlgebraicBase.key : AlgebraicBase → List Char
  | .rational => ['Q']
  | .extension field => 'E' :: '(' :: field.key ++ [')']

/-- `push_canonical_key` of a field: the base, the coefficients of its
polynomial and the index of the root. -/
def AlgebraicField.key : AlgebraicField → List Char
  | .mk base poly rootIndex _ _ =>
    "field(base:".toList ++ base.key ++ ";poly:".toList ++
      poly.flatMap (fun c => Text.intDigits c ++ [';']) ++ "root:R:".toList ++
      Text.natDigits rootIndex ++ [')']

end

theorem AlgebraicField.key_mk (base : AlgebraicBase) (poly : List Int) (rootIndex : Nat)
    (lo hi : F64) :
    (AlgebraicField.mk base poly rootIndex lo hi).key =
      "field(base:".toList ++ base.key ++ ";poly:".toList ++
        poly.flatMap (fun c => Text.intDigits c ++ [';']) ++ "root:R:".toList ++
        Text.natDigits rootIndex ++ [')'] := rfl

namespace Value

variable (address : Value → List Char)

/-- The items of a packed list. -/
def packedKey (tag : String) (items : List (List Char)) : List Char :=
  tag.toList ++ Text.natDigits items.length ++ ':' :: items.flatMap (· ++ [';'])

/-- The entries of a dictionary, by their names. -/
def sortedEntries (entries : List (String × List Char)) : List (String × List Char) :=
  entries.mergeSort fun a b => (compare a.1 b.1).isLE

mutual

/-- `push_atom_key`. -/
def atomKey : Value → List Char
  | .int n => 'i' :: ':' :: Text.intDigits n.toInt ++ [';']
  | .bigInt n => 'b' :: 'i' :: ':' :: Text.intDigits n ++ [';']
  | .float f => "f:".toList ++ bitsKey f ++ [';']
  | .complex re im => "z:".toList ++ bitsKey re ++ ':' :: bitsKey im ++ [';']
  | .fraction q => 'q' :: ':' :: Text.intDigits q.num ++ ':' :: Text.natDigits q.den ++ [';']
  | .algebraic field coeffs =>
    "alg(".toList ++ field.key ++ ";coeffs:".toList ++ atomsKey coeffs ++ [')']
  | .char c => "ch:".toList ++ Nat.toDigits 16 c.toNat ++ [';']
  | .tag name => textKey "tag:" name
  | .bool b => "b:".toList ++ boolKey b ++ [';']
  | .boolList items => packedKey "bl:" (items.map boolKey)
  | .floatList items => packedKey "fl:" (items.map bitsKey)
  | .intList items => packedKey "il:" (items.map fun n => Text.intDigits n.toInt)
  | .intRange range => packedKey "il:" (range.toVec.map fun n => Text.intDigits n.toInt)
  | .list items => "list:".toList ++ Text.natDigits items.length ++ ':' :: atomsKey items
  | .string s => textKey "str:" s
  | .dict entries =>
    "dict:".toList ++ Text.natDigits entries.length ++ ':' ::
      (sortedEntries (entriesKeys entries)).flatMap fun e => textKey "key:" e.1 ++ e.2
  | .cas _ => "cas:raw;".toList
  | .compiledFunction fn => "compiled:".toList ++ address (.compiledFunction fn) ++ [';']
  | .closure fn captured => "closure:".toList ++ address (.closure fn captured) ++ [';']
  | .builtinFunction name id =>
    "builtin:".toList ++ Text.natDigits id ++ ':' :: textKey "name:" name
  | .liftedCallable expr => "lifted:".toList ++ address (.liftedCallable expr) ++ [';']
  | .stream h => "stream:".toList ++ address (.stream h) ++ [';']
  | .rng h => "rng:".toList ++ address (.rng h) ++ [';']

def atomsKey : List Value → List Char
  | [] => []
  | x :: xs => atomKey x ++ atomsKey xs

def entriesKeys : List (String × Value) → List (String × List Char)
  | [] => []
  | (name, x) :: entries => (name, atomKey x) :: entriesKeys entries

end

section AtomKey

variable {address}

theorem atomKey_int (n : Int64) :
    atomKey address (.int n) = 'i' :: ':' :: Text.intDigits n.toInt ++ [';'] := rfl

theorem atomKey_bigInt (n : Int) :
    atomKey address (.bigInt n) = 'b' :: 'i' :: ':' :: Text.intDigits n ++ [';'] := rfl

theorem atomKey_fraction (q : Rat) :
    atomKey address (.fraction q) =
      'q' :: ':' :: Text.intDigits q.num ++ ':' :: Text.natDigits q.den ++ [';'] := rfl

theorem atomKey_algebraic (field : AlgebraicField) (coeffs : List Value) :
    atomKey address (.algebraic field coeffs) =
      "alg(".toList ++ field.key ++ ";coeffs:".toList ++ atomsKey address coeffs ++ [')'] := rfl

theorem atomsKey_cons (x : Value) (xs : List Value) :
    atomsKey address (x :: xs) = atomKey address x ++ atomsKey address xs := rfl

end AtomKey

/-- `push_limit_direction_key`. -/
def limitDirectionKey : Option LimitDirection → List Char
  | some .left => "left".toList
  | some .right => "right".toList
  | none => "two-sided".toList

mutual

/-- `push_canonical_key`. -/
def canonicalKey : Value → List Char
  | .cas kind => kindKey kind
  | v => 'n' :: ':' :: atomKey address v

def kindKey : CasKind → List Char
  | .var name => 'v' :: ':' :: name.toList
  | .boundVar index => 'b' :: ':' :: Text.natDigits index
  | .const c => 's' :: ':' :: c.name.toList
  | .op op args => 'o' :: ':' :: (op.symbol.toList ++ '(' :: argsKey args ++ [')'])
  | .function f args => 'c' :: ':' :: (f.name.toList ++ '(' :: argsKey args ++ [')'])
  | .apply name args => 'a' :: ':' :: (name.toList ++ '(' :: argsKey args ++ [')'])
  | .namedArg name value => 'n' :: ':' :: (name.toList ++ ':' :: canonicalKey value)
  | .integral body _ bounds => 'i' :: ':' :: (canonicalKey body ++ boundsKey bounds)
  | .limit body _ point direction =>
    'l' :: ':' :: (canonicalKey body ++ ';' :: (canonicalKey point ++ ';' ::
      limitDirectionKey direction))
  | .eq lhs rhs => 'e' :: ':' :: (canonicalKey lhs ++ ';' :: canonicalKey rhs)
  | .predicate _ _ => 'n' :: ':' :: "cas:raw;".toList

def argsKey : List Value → List Char
  | [] => []
  | x :: xs => canonicalKey x ++ ',' :: argsKey xs

def boundsKey : Option (Value × Value) → List Char
  | none => []
  | some (lower, upper) => ';' :: (canonicalKey lower ++ ';' :: canonicalKey upper)

end

section CanonicalKey

variable {address}

theorem kindKey_var (name : String) : kindKey address (.var name) = 'v' :: ':' :: name.toList := rfl

theorem kindKey_boundVar (index : Nat) :
    kindKey address (.boundVar index) = 'b' :: ':' :: Text.natDigits index := rfl

theorem kindKey_const (c : CasConst) :
    kindKey address (.const c) = 's' :: ':' :: c.name.toList := rfl

theorem kindKey_op (op : CasOp) (args : List Value) :
    kindKey address (.op op args) =
      'o' :: ':' :: (op.symbol.toList ++ '(' :: argsKey address args ++ [')']) := rfl

theorem kindKey_function (f : CasFunction) (args : List Value) :
    kindKey address (.function f args) =
      'c' :: ':' :: (f.name.toList ++ '(' :: argsKey address args ++ [')']) := rfl

theorem kindKey_apply (name : String) (args : List Value) :
    kindKey address (.apply name args) =
      'a' :: ':' :: (name.toList ++ '(' :: argsKey address args ++ [')']) := rfl

theorem kindKey_namedArg (name : String) (value : Value) :
    kindKey address (.namedArg name value) =
      'n' :: ':' :: (name.toList ++ ':' :: canonicalKey address value) := rfl

theorem kindKey_integral (body : Value) (hint : String) (bounds : Option (Value × Value)) :
    kindKey address (.integral body hint bounds) =
      'i' :: ':' :: (canonicalKey address body ++ boundsKey address bounds) := rfl

theorem kindKey_limit (body : Value) (hint : String) (point : Value)
    (direction : Option LimitDirection) :
    kindKey address (.limit body hint point direction) =
      'l' :: ':' :: (canonicalKey address body ++ ';' :: (canonicalKey address point ++ ';' ::
        limitDirectionKey direction)) := rfl

theorem kindKey_eq (lhs rhs : Value) :
    kindKey address (.eq lhs rhs) =
      'e' :: ':' :: (canonicalKey address lhs ++ ';' :: canonicalKey address rhs) := rfl

theorem argsKey_cons (x : Value) (xs : List Value) :
    argsKey address (x :: xs) = canonicalKey address x ++ ',' :: argsKey address xs := rfl

theorem boundsKey_some (lower upper : Value) :
    boundsKey address (some (lower, upper)) =
      ';' :: (canonicalKey address lower ++ ';' :: canonicalKey address upper) := rfl

end CanonicalKey

/-- `canonical_cmp`: keys are compared character by character. -/
def canonicalCmp : Value → Value → Ordering :=
  compareLex (compareOn canonicalDegree) (compareOn (canonicalKey address))

/-- `sort_canonical`, a stable sort. -/
def sortCanonical (values : List Value) : List Value :=
  values.mergeSort fun a b => (canonicalCmp address a b).isLE

end Value

end Wqpl
