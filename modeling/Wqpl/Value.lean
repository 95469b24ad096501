/-
# Values

The value type of wq: numbers, characters, tags, booleans, the list
representations (general, packed integers, a lazy integer range, packed
floats, packed booleans, strings), dictionaries and the callable values. A
list has several representations; `ValueSeq.fromValue` reads any of them as a
sequence and `Value.fromItems` builds the most packed one.

Compiled functions and closures are shared behind pointers and compared by
pointer; here a function is the index of its code in a table (`FnId`) and a
captured cell the address of a heap cell (`CellId`), so that equal indices
are equal pointers. Generators and streams have identity only and are
handles.
-/
import Mathlib.Algebra.Group.Int.Defs
import Mathlib.Algebra.GroupWithZero.Nat
import Mathlib.Data.List.Basic
import Mathlib.Data.List.Range
import Mathlib.Tactic.Push
import Wqpl.IndexMap

namespace Wqpl

/-! ### Machine numbers -/

/-- The bits of an `f64`. -/
structure F64 where
  bits : BitVec 64
deriving DecidableEq, Repr

namespace F64

/-- The sign bit. -/
def signBit (f : F64) : Bool := f.bits.msb

/-- The eleven exponent bits. -/
def exponent (f : F64) : Nat := f.bits.toNat / 2 ^ 52 % 2 ^ 11

/-- The 52 fraction bits. -/
def fraction (f : F64) : Nat := f.bits.toNat % 2 ^ 52

def isInfinite (f : F64) : Bool := f.exponent = 2047 ∧ f.fraction = 0

def isNaN (f : F64) : Bool := f.exponent = 2047 ∧ f.fraction ≠ 0

/-- `+0.0` or `-0.0`. -/
def isZero (f : F64) : Bool := f.exponent = 0 ∧ f.fraction = 0

/-- The rank of a float that is not a NaN in the order of the numbers; both
zeros have rank 0. -/
def rank (f : F64) : Int :=
  let magnitude : Int := (f.bits.toNat % 2 ^ 63 : Nat)
  if f.signBit then -magnitude else magnitude

/-- `OrderedFloat::cmp`: a NaN is equal to every NaN and above every number. -/
def totalCmp (a b : F64) : Ordering :=
  match a.isNaN, b.isNaN with
  | true, true => .eq
  | true, false => .gt
  | false, true => .lt
  | false, false => compare a.rank b.rank

/-- `f64::partial_cmp`: a NaN compares with nothing. -/
def partialCmp (a b : F64) : Option Ordering :=
  if a.isNaN || b.isNaN then none else some (compare a.rank b.rank)

/-- The bits of the float nearest to a natural number, ties to even. -/
def ofNat (n : Nat) : Nat :=
  if n = 0 then 0
  else
    let e := n.log2
    let significand :=
      if e ≤ 52 then n * 2 ^ (52 - e)
      else
        let unit := 2 ^ (e - 52)
        let q := n / unit
        let r := n % unit
        if unit < 2 * r ∨ 2 * r = unit ∧ q % 2 = 1 then q + 1 else q
    (e + 1023) * 2 ^ 52 + (significand - 2 ^ 52)

/-- `n as f64`. -/
def ofInt (n : Int) : F64 :=
  ⟨BitVec.ofNat 64 (ofNat n.natAbs + if n < 0 then 2 ^ 63 else 0)⟩

end F64

/-- An integer that an `i64` holds. -/
def InI64 (n : Int) : Prop := -2 ^ 63 ≤ n ∧ n < 2 ^ 63

instance (n : Int) : Decidable (InI64 n) := inferInstanceAs (Decidable (_ ∧ _))

/-- `i64::try_from`. -/
def i64? (n : Int) : Option Int64 := if InI64 n then some (Int64.ofInt n) else none

theorem i64?_some_iff {n : Int} {m : Int64} : i64? n = some m ↔ m.toInt = n := by
  unfold i64?
  constructor
  · intro h
    by_cases hn : InI64 n
    · rw [if_pos hn] at h
      obtain rfl := Option.some.inj h
      exact Int64.toInt_ofInt_of_le hn.1 hn.2
    · rw [if_neg hn] at h
      cases h
  · rintro rfl
    rw [if_pos ⟨m.le_toInt, m.toInt_lt⟩, Int64.ofInt_toInt]

/-! ### Handles -/

/-- The index of a function's code in the function table. -/
abbrev FnId := Nat

/-- The address of a captured cell. -/
abbrev CellId := Nat

/-- The address of a shared payload that has identity only. -/
abbrev Handle := Nat

/-! ### Operators -/

inductive UnaryOperator
  | negate | count | not
deriving DecidableEq, Repr

inductive BoolOperator
  | and | or
deriving DecidableEq, Repr

inductive BinaryOperator
  | add | subtract | multiply | power | powerDot | divide | divideDot | modulo | matmul
  | equal | equalDot | notEqual | notEqualDot | lt | lte | gt | gte
  | cat -- the marker of an augmented assignment only
  | bitAnd | bitOr | shl | shr | bitXor | floorDiv
deriving DecidableEq, Repr

/-! ### Errors -/

/-- The kinds of error. The texts and notes of an error are not modelled. -/
inductive WqErrorType
  | vm | eof | syntax_ | notBound | index | call | arity | domain | length | zeroDiv
  | io | encode | exec | assert | raise | recursion
deriving DecidableEq, Repr

abbrev WqResult := Except WqErrorType

/-! ### Symbolic and algebraic payloads -/

inductive CasOp
  | add | subtract | multiply | divide | power
deriving DecidableEq, Repr

inductive CasConst
  | pi | e | infinity | negInfinity | undefined
deriving DecidableEq, Repr

/-- The builtin functions with a known symbolic meaning. -/
inductive CasFunction
  | abs | sgn | sin | cos | tan | sec | csc | cot | erf | erfc | gamma | lnGamma | si | ci | ei
  | en | ellPk | ellPe | ellIk | ellIe | heaviside | delta | exp | ln | log | log2 | log10 | sqrt
  | arcSin | arcCos | arcTan | arcTan2 | sinh | cosh | tanh | arcSinh | arcCosh | arcTanh
  | floor | ceil | round
deriving DecidableEq, Repr

inductive LimitDirection
  | right | left
deriving DecidableEq, Repr

/-- The symbolic facts of an assumption context. -/
inductive CasPredicate
  | zero | nonZero | positive | negative | nonNegative | real | integer
deriving DecidableEq, Repr

mutual

inductive AlgebraicBase
  | rational
  | extension (field : AlgebraicField)

/-- The extension of a base by the root of a polynomial: the coefficients from
the constant one up, the index of the real root, and an interval around it. -/
inductive AlgebraicField
  | mk (base : AlgebraicBase) (poly : List Int) (rootIndex : Nat) (lo hi : F64)

end

/-! ### Values -/

/-- `{start, step, len}` stands for `start`, `start + step`, … All its items
are integers of 64 bits: every constructor of a range in the source checks
its last item. -/
structure IntRangeData where
  start : Int64
  step : Int64
  len : Nat
  fits : ∀ i < len, InI64 (start.toInt + step.toInt * i)

namespace IntRangeData

def get (r : IntRangeData) (idx : Nat) : Option Int64 :=
  if r.len ≤ idx then none else i64? (r.start.toInt + r.step.toInt * idx)

/-- The items in order, as the iterator steps through them. -/
def toVec (r : IntRangeData) : List Int64 :=
  (List.range r.len).map fun (i : Nat) => Int64.ofInt (r.start.toInt + r.step.toInt * i)

@[simp] theorem length_toVec (r : IntRangeData) : r.toVec.length = r.len := by
  simp [toVec]

/-- Reading by index agrees with iterating. -/
theorem get_eq (r : IntRangeData) (idx : Nat) : r.get idx = r.toVec[idx]? := by
  unfold get toVec
  by_cases h : r.len ≤ idx
  · simp [h]
  · have hlt : idx < r.len := by omega
    simp [h, hlt, i64?, r.fits idx hlt]

end IntRangeData

mutual

inductive Value
  | int (n : Int64)
  | bigInt (n : Int)
  | float (f : F64)
  | complex (re im : F64)
  /-- In lowest terms, as every constructor of a fraction in the source leaves it. -/
  | fraction (q : Rat)
  | algebraic (field : AlgebraicField) (coeffs : List Value)
  | char (c : Char)
  | tag (name : String)
  | bool (b : Bool)
  | intList (items : List Int64)
  | intRange (range : IntRangeData)
  | floatList (items : List F64)
  | boolList (items : List Bool)
  | list (items : List Value)
  | string (s : String)
  | cas (kind : CasKind)
  | dict (entries : List (String × Value))
  | compiledFunction (fn : FnId)
  | closure (fn : FnId) (captured : List CellId)
  | builtinFunction (name : String) (id : Nat)
  | liftedCallable (expr : CallableExpr)
  | rng (h : Handle)
  | stream (h : Handle)

/-- The expression of a composed callable. -/
inductive CallableExpr
  | const (v : Value)
  | call (v : Value)
  | unary (op : UnaryOperator) (operand : CallableExpr)
  | binary (op : BinaryOperator) (left right : CallableExpr)

/-- A symbolic expression. The body of an integral or a limit binds a variable,
whose name is a hint for its presentation. -/
inductive CasKind
  | var (name : String)
  | boundVar (index : Nat)
  | const (c : CasConst)
  | op (op : CasOp) (args : List Value)
  | function (f : CasFunction) (args : List Value)
  | apply (name : String) (args : List Value)
  | namedArg (name : String) (value : Value)
  | integral (body : Value) (hint : String) (bounds : Option (Value × Value))
  | limit (body : Value) (hint : String) (point : Value) (direction : Option LimitDirection)
  | eq (lhs rhs : Value)
  | predicate (p : CasPredicate) (expr : Value)

end

instance : Inhabited Value := ⟨.list []⟩

/-! ### Sequences -/

/-- A value read as a sequence, by its representation. -/
inductive ValueSeq
  | list (items : List Value)
  | intList (items : List Int64)
  | intRange (range : IntRangeData)
  | floatList (items : List F64)
  | boolList (items : List Bool)
  | string (s : String)

namespace ValueSeq

def fromValue : Value → Option ValueSeq
  | .list items => some (.list items)
  | .intList items => some (.intList items)
  | .intRange range => some (.intRange range)
  | .floatList items => some (.floatList items)
  | .boolList items => some (.boolList items)
  | .string s => some (.string s)
  | _ => none

def len : ValueSeq → Nat
  | .list items => items.length
  | .intList items => items.length
  | .intRange range => range.len
  | .floatList items => items.length
  | .boolList items => items.length
  | .string s => s.toList.length

def get : ValueSeq → Nat → Option Value
  | .list items, idx => items[idx]?
  | .intList items, idx => items[idx]?.map .int
  | .intRange range, idx => (range.get idx).map .int
  | .floatList items, idx => items[idx]?.map .float
  | .boolList items, idx => items[idx]?.map .bool
  | .string s, idx => s.toList[idx]?.map .char

def values : ValueSeq → List Value
  | .list items => items
  | .intList items => items.map .int
  | .intRange range => range.toVec.map .int
  | .floatList items => items.map .float
  | .boolList items => items.map .bool
  | .string s => s.toList.map .char

@[simp] theorem length_values (s : ValueSeq) : s.values.length = s.len := by
  cases s <;> simp [values, len]

/-- Reading by index agrees with iterating. -/
theorem get_eq (s : ValueSeq) (idx : Nat) : s.get idx = s.values[idx]? := by
  cases s <;> simp [get, values, IntRangeData.get_eq]

end ValueSeq

namespace Value

def emptyList : Value := .list []

def isAtom : Value → Bool
  | .int _ | .bigInt _ | .float _ | .complex _ _ | .fraction _ | .algebraic _ _ | .char _
  | .tag _ | .bool _ | .cas _ | .compiledFunction _ | .closure _ _ | .builtinFunction _ _
  | .liftedCallable _ | .rng _ | .stream _ => true
  | _ => false

def isList : Value → Bool
  | .intList _ | .intRange _ | .floatList _ | .boolList _ | .list _ | .string _ => true
  | _ => false

def isDict : Value → Bool
  | .dict _ => true
  | _ => false

def isContainer (v : Value) : Bool := v.isList || v.isDict

def len (v : Value) : Nat :=
  match ValueSeq.fromValue v with
  | some seq => seq.len
  | none =>
    match v with
    | .dict entries => entries.length
    | _ => 1

def isUnit (v : Value) : Bool := v.isList && v.len == 0

def isChar : Value → Bool
  | .char _ => true
  | _ => false

def isString (v : Value) : Bool :=
  match v with
  | .string _ | .char _ => true
  | .list items => v.isUnit || items.all isChar
  | _ => v.isUnit

/-- Equations and predicates are not expressions. -/
def isCasExpr : Value → Bool
  | .cas (.eq _ _) | .cas (.predicate _ _) => false
  | .cas _ => true
  | _ => false

def isRuntimeCallable : Value → Bool
  | .compiledFunction _ | .closure _ _ | .builtinFunction _ _ | .liftedCallable _ | .rng _ => true
  | _ => false

def isCallable (v : Value) : Bool := v.isRuntimeCallable || v.isCasExpr

def tryToRustBool : Value → Option Bool
  | .bool b => some b
  | _ => none

/-- The items of a container: of a sequence, or the values of a dictionary. -/
def containerItems (v : Value) : List Value :=
  match v with
  | .dict entries => entries.map Prod.snd
  | v => ((ValueSeq.fromValue v).map ValueSeq.values).getD []

theorem containerItems_of_fromValue {v : Value} {seq : ValueSeq}
    (h : ValueSeq.fromValue v = some seq) : v.containerItems = seq.values := by
  cases v <;> simp_all [ValueSeq.fromValue, containerItems]

/-- A container that is not a dictionary is a sequence. -/
theorem exists_fromValue {v : Value} (ha : v.isAtom = false) (hd : v.isDict = false) :
    ∃ seq, ValueSeq.fromValue v = some seq := by
  cases v <;> simp_all [isAtom, isDict, ValueSeq.fromValue]

theorem exists_dict {v : Value} (h : v.isDict = true) : ∃ entries, v = .dict entries := by
  cases v <;> simp_all [isDict]

/-- The items of a packed list are atoms. -/
theorem isAtom_of_mem_values {v x : Value} {seq : ValueSeq} (h : ValueSeq.fromValue v = some seq)
    (hx : x ∈ seq.values) (hv : ∀ items, v ≠ .list items) : x.isAtom = true := by
  cases v <;> simp only [ValueSeq.fromValue, reduceCtorEq, Option.some.injEq] at h <;> subst h
  case list items => exact absurd rfl (hv items)
  all_goals
    obtain ⟨y, -, rfl⟩ := List.mem_map.mp hx
    rfl

/-- **Induction along the nesting of a value.** A property of all atoms that
passes from the items of a container to the container holds of every value. -/
theorem nestingInduction {P : Value → Prop} (atom : ∀ v, v.isAtom = true → P v)
    (container : ∀ v, v.isAtom = false → (∀ x ∈ v.containerItems, P x) → P v) (v : Value) :
    P v := by
  by_cases ha : v.isAtom = true
  · exact atom v ha
  · have ha' : v.isAtom = false := by simpa using ha
    refine container v ha' fun x hx => ?_
    by_cases hl : (∃ items, v = .list items) ∨ ∃ entries, v = .dict entries
    · have : sizeOf x < sizeOf v := by
        rcases hl with ⟨items, rfl⟩ | ⟨entries, rfl⟩
        · have := List.sizeOf_lt_of_mem (show x ∈ items from hx)
          simp only [list.sizeOf_spec]
          omega
        · obtain ⟨⟨k, y⟩, hy, rfl⟩ := List.mem_map.mp (show x ∈ entries.map Prod.snd from hx)
          have := List.sizeOf_lt_of_mem hy
          simp only [dict.sizeOf_spec, Prod.mk.sizeOf_spec] at this ⊢
          omega
      exact nestingInduction atom container x
    · push Not at hl
      have hd : v.isDict = false := by
        cases hv : v.isDict
        · rfl
        · obtain ⟨es, rfl⟩ := exists_dict hv
          exact absurd rfl (hl.2 es)
      obtain ⟨seq, hseq⟩ := exists_fromValue ha' hd
      rw [containerItems_of_fromValue hseq] at hx
      exact atom x (isAtom_of_mem_values hseq hx hl.1)
termination_by sizeOf v

mutual

/-- The nesting depth: 0 for an atom, 1 for a flat or an empty container. -/
def depth : Value → Int
  | .intList _ | .intRange _ | .floatList _ | .boolList _ | .string _ => 1
  | .list items => 1 + depthList items
  | .dict entries => 1 + depthEntries entries
  | _ => 0

/-- The largest depth of an item, 0 when there is none. -/
def depthList : List Value → Int
  | [] => 0
  | v :: vs => max (depth v) (depthList vs)

def depthEntries : List (String × Value) → Int
  | [] => 0
  | (_, v) :: es => max (depth v) (depthEntries es)

end

/-! ### Building a list from its items -/

/-- The state of the builder behind `fromItems`. -/
inductive ValueSeqBuilder
  | empty
  | int (items : List Int64)
  | float (items : List F64)
  | bool (items : List Bool)
  | string (chars : List Char)
  | general (items : List Value)

namespace ValueSeqBuilder

def push : ValueSeqBuilder → Value → ValueSeqBuilder
  | .empty, .int n => .int [n]
  | .empty, .float f => .float [f]
  | .empty, .bool b => .bool [b]
  | .empty, .char c => .string [c]
  | .empty, v => .general [v]
  | .int items, .int n => .int (items ++ [n])
  | .int items, v => .general (items.map .int ++ [v])
  | .float items, .float f => .float (items ++ [f])
  | .float items, v => .general (items.map .float ++ [v])
  | .bool items, .bool b => .bool (items ++ [b])
  | .bool items, v => .general (items.map .bool ++ [v])
  | .string cs, .char c => .string (cs ++ [c])
  | .string cs, v => .general (cs.map .char ++ [v])
  | .general items, v => .general (items ++ [v])

def finish : ValueSeqBuilder → Value
  | .empty => emptyList
  | .int items => .intList items
  | .float items => .floatList items
  | .bool items => .boolList items
  | .string cs => .string (String.ofList cs)
  | .general items => .list items

/-- The items pushed so far. -/
def items : ValueSeqBuilder → List Value
  | .empty => []
  | .int items => items.map .int
  | .float items => items.map .float
  | .bool items => items.map .bool
  | .string cs => cs.map .char
  | .general items => items

theorem items_push (b : ValueSeqBuilder) (v : Value) : (b.push v).items = b.items ++ [v] := by
  cases b <;> cases v <;> simp [push, items]

theorem items_foldl_push : ∀ (vs : List Value) (b : ValueSeqBuilder),
    (vs.foldl push b).items = b.items ++ vs
  | [], b => by simp
  | v :: vs, b => by simp [items_foldl_push vs, items_push]

end ValueSeqBuilder

/-- The list of the given items, in its most packed representation. -/
def fromItems (items : List Value) : Value := (items.foldl ValueSeqBuilder.push .empty).finish

/-- A list built from items is a sequence of these items. -/
theorem fromItems_values (items : List Value) :
    (ValueSeq.fromValue (fromItems items)).map ValueSeq.values = some items := by
  have h := ValueSeqBuilder.items_foldl_push items .empty
  unfold fromItems
  revert h
  cases items.foldl ValueSeqBuilder.push .empty <;>
    simp [ValueSeqBuilder.finish, ValueSeqBuilder.items, ValueSeq.fromValue, ValueSeq.values,
      emptyList]

/-- `into_wq_string`. -/
def intoWqString (chars : List Char) : Value := .string (String.ofList chars)

def valueFromStrChunks (chunks : List (List Char)) : Value :=
  fromItems (chunks.map intoWqString)

end Value

end Wqpl
