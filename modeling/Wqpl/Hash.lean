/-
# Equality and hashing

Equality of values looks through representations: a sequence is equal to any
sequence with equal items, a machine integer to a big integer of the same
amount, `0.0` to `-0.0` and a NaN to every NaN; the name that a bound variable
is shown under and the interval around an algebraic root do not count. Two
values are equal when their canonical forms are (`eq_iff`), and a value hashes
as its canonical form does (`hash_canon`), so that equality is an equivalence
and equal values feed the same writes to a hasher (`eq_hash_coherent`).
-/
import Mathlib.Data.List.Zip
import Wqpl.Value

namespace Wqpl

/-! ### Floats -/

namespace F64

/-- `OrderedFloat::eq`. -/
def orderedEq (a b : F64) : Bool :=
  if a.isNaN then b.isNaN else a.partialCmp b = some .eq

/-- What `OrderedFloat` hashes: one NaN and one zero. -/
def canon (f : F64) : F64 :=
  if f.isNaN then ⟨0x7ff8000000000000#64⟩ else if f.isZero then ⟨0#64⟩ else f

theorem isZero_iff (f : F64) : f.isZero = true ↔ f.bits.toNat % 2 ^ 63 = 0 := by
  have h : f.isZero = true ↔ f.bits.toNat / 2 ^ 52 % 2 ^ 11 = 0 ∧ f.bits.toNat % 2 ^ 52 = 0 :=
    decide_eq_true_iff
  rw [h]
  omega

/-- Floats of one rank that are not zero have the same bits. -/
theorem eq_of_rank {a b : F64} (h : a.rank = b.rank) (ha : a.isZero = false) : a = b := by
  have ha' : ¬a.bits.toNat % 2 ^ 63 = 0 := fun hz => by simp [(isZero_iff a).mpr hz] at ha
  have hlt := a.bits.isLt
  have hlt' := b.bits.isLt
  have hbits : a.bits.toNat = b.bits.toNat := by
    unfold rank signBit at h
    rw [BitVec.msb_eq_decide, BitVec.msb_eq_decide] at h
    simp only [decide_eq_true_eq] at h
    split at h <;> split at h <;> omega
  have := BitVec.eq_of_toNat_eq hbits
  cases a
  cases b
  exact congrArg F64.mk this

theorem isZero_of_rank {a b : F64} (h : a.rank = b.rank) (ha : a.isZero = true) :
    b.isZero = true := by
  have ha' := (isZero_iff a).mp ha
  refine (isZero_iff b).mpr ?_
  unfold rank at h
  simp only [ha'] at h
  split at h <;> split at h <;> omega

theorem rank_of_isZero {f : F64} (h : f.isZero = true) : f.rank = 0 := by
  unfold rank
  rw [(isZero_iff f).mp h]
  simp

/-- A canonical float is its own. -/
theorem canon_canon (f : F64) : f.canon.canon = f.canon := by
  have hnan : (⟨0x7ff8000000000000#64⟩ : F64).isNaN = true := by decide
  have hzero : (⟨0#64⟩ : F64).isNaN = false ∧ (⟨0#64⟩ : F64).isZero = true := by decide
  cases hf : f.isNaN with
  | true => simp [canon, hf, hnan]
  | false => cases hz : f.isZero <;> simp [canon, hf, hz, hzero]

theorem orderedEq_iff (a b : F64) : a.orderedEq b = true ↔ a.canon = b.canon := by
  have hnan : (⟨0x7ff8000000000000#64⟩ : F64).isNaN = true := by decide
  have hzero : (⟨0#64⟩ : F64).isNaN = false := by decide
  have hcanon : ∀ f : F64, f.canon.isNaN = f.isNaN := by
    intro f
    unfold canon
    cases hf : f.isNaN with
    | true => simp [hnan]
    | false => cases hz : f.isZero <;> simp [hzero, hf]
  unfold orderedEq
  cases ha : a.isNaN with
  | true =>
    rw [if_pos rfl]
    constructor
    · intro hb
      simp [canon, ha, hb]
    · intro h
      rw [← hcanon b, ← h, hcanon a, ha]
  | false =>
    rw [if_neg Bool.false_ne_true]
    cases hb : b.isNaN with
    | true =>
      refine iff_of_false (by simp [partialCmp, hb]) fun h => ?_
      rw [← hcanon a, h, hcanon b, hb] at ha
      cases ha
    | false =>
      have hrank : decide (a.partialCmp b = some .eq) = true ↔ a.rank = b.rank := by
        simp [partialCmp, ha, hb]
      rw [hrank]
      constructor
      · intro h
        cases hz : a.isZero with
        | true => simp [canon, ha, hb, hz, isZero_of_rank h hz]
        | false => rw [eq_of_rank h hz]
      · intro h
        have hcanonZero : ∀ f : F64, f.isNaN = false → f.canon.isZero = f.isZero := by
          intro f hf
          have hpos : (⟨0#64⟩ : F64).isZero = true := by decide
          cases hz : f.isZero <;> simp [canon, hf, hz, hpos]
        have hzeros : a.isZero = b.isZero := by
          rw [← hcanonZero a ha, ← hcanonZero b hb, h]
        cases hz : a.isZero with
        | true => rw [rank_of_isZero hz, rank_of_isZero (hzeros ▸ hz)]
        | false =>
          have hz' : b.isZero = false := hzeros ▸ hz
          have hab : a = b := by simpa [canon, ha, hb, hz, hz'] using h
          rw [hab]

end F64

/-! ### Algebraic fields -/

mutual

/-- The derived equality: the interval around the root does not count. -/
def AlgebraicBase.eq : AlgebraicBase → AlgebraicBase → Bool
  | .rational, .rational => true
  | .extension a, .extension b => a.eq b
  | _, _ => false

def AlgebraicField.eq : AlgebraicField → AlgebraicField → Bool
  | .mk base poly rootIndex _ _, .mk base' poly' rootIndex' _ _ =>
    base.eq base' && poly = poly' && rootIndex = rootIndex'

end

/-- A write to a hasher. -/
inductive HashWrite
  | u8 (n : Nat)
  | u32 (n : Nat)
  | usize (n : Nat)
  | i64 (n : Int64)
  | bigInt (n : Int)
  | float (f : F64)
  | char (c : Char)
  | str (s : String)
  | bool (b : Bool)
  | pointer (address : Nat)
  /-- The discriminant of an enumeration with payloads. -/
  | discriminant (n : Nat)
  | unary (op : UnaryOperator)
  | binary (op : BinaryOperator)
  | casOp (op : CasOp)
  | casConst (c : CasConst)
  | casFunction (f : CasFunction)
  | direction (d : Option LimitDirection)
deriving DecidableEq

mutual

def AlgebraicBase.hash : AlgebraicBase → List HashWrite
  | .rational => [.discriminant 0]
  | .extension field => .discriminant 1 :: field.hash

def AlgebraicField.hash : AlgebraicField → List HashWrite
  | .mk base poly rootIndex _ _ =>
    base.hash ++ .usize poly.length :: poly.map .bigInt ++ [.u8 0, .usize rootIndex]

end

mutual

/-- The field without its interval. -/
def AlgebraicBase.canon : AlgebraicBase → AlgebraicBase
  | .rational => .rational
  | .extension field => .extension field.canon

def AlgebraicField.canon : AlgebraicField → AlgebraicField
  | .mk base poly rootIndex _ _ => .mk base.canon poly rootIndex ⟨0#64⟩ ⟨0#64⟩

end

mutual

theorem AlgebraicBase.eq_iff : ∀ a b : AlgebraicBase, a.eq b = true ↔ a.canon = b.canon
  | .rational, .rational => by simp [AlgebraicBase.eq]
  | .rational, .extension _ => by simp [AlgebraicBase.eq, AlgebraicBase.canon]
  | .extension _, .rational => by simp [AlgebraicBase.eq, AlgebraicBase.canon]
  | .extension a, .extension b => by
    simp [AlgebraicBase.eq, AlgebraicBase.canon, AlgebraicField.eq_iff a b]

theorem AlgebraicField.eq_iff : ∀ a b : AlgebraicField, a.eq b = true ↔ a.canon = b.canon
  | .mk base poly rootIndex _ _, .mk base' poly' rootIndex' _ _ => by
    simp [AlgebraicField.eq, AlgebraicField.canon, AlgebraicBase.eq_iff base base', and_assoc]

end

mutual

theorem AlgebraicBase.hash_canon : ∀ a : AlgebraicBase, a.canon.hash = a.hash
  | .rational => rfl
  | .extension a => by
    rw [AlgebraicBase.canon, AlgebraicBase.hash, AlgebraicBase.hash, AlgebraicField.hash_canon a]

theorem AlgebraicField.hash_canon : ∀ a : AlgebraicField, a.canon.hash = a.hash
  | .mk base poly rootIndex _ _ => by
    rw [AlgebraicField.canon, AlgebraicField.hash, AlgebraicField.hash,
      AlgebraicBase.hash_canon base]

end

namespace Value

/-! ### Equality -/

/-- `all` over two slices in step. -/
def allPairs {α : Type} (eq : α → α → Bool) (xs ys : List α) : Bool :=
  (xs.zip ys).all fun p => eq p.1 p.2

/-- The arms of the comparison that do not look into other values. -/
def eqAtom : Value → Value → Bool
  | .int a, .int b => a = b
  | .bigInt a, .bigInt b => a = b
  | .int a, .bigInt b => a.toInt = b
  | .bigInt a, .int b => a = b.toInt
  | .float a, .float b => a.orderedEq b
  | .char a, .char b => a = b
  | .tag a, .tag b => a = b
  | .bool a, .bool b => a = b
  | .compiledFunction a, .compiledFunction b => a = b
  | .closure fn captured, .closure fn' captured' =>
    fn = fn' && captured.length = captured'.length && allPairs (· = ·) captured captured'
  | .complex re im, .complex re' im' => re.orderedEq re' && im.orderedEq im'
  | .fraction a, .fraction b => a = b
  | .builtinFunction _ a, .builtinFunction _ b => a = b
  | .stream a, .stream b => a = b
  | .rng a, .rng b => a = b
  | _, _ => false

/-- `eq_values`, where the items of one sequence are packed. -/
def eqPacked (left right : ValueSeq) : Bool :=
  left.len = right.len && allPairs eqAtom left.values right.values

mutual

/-- `PartialEq::eq`. -/
def eq : Value → Value → Bool
  | .list xs, b =>
    match ValueSeq.fromValue b with
    | some right => xs.length = right.len && eqItems xs right.values
    | none => false
  | .dict xs, .dict ys => xs.length = ys.length && eqEntries xs ys
  | .cas a, .cas b => eqKind a b
  | .liftedCallable a, .liftedCallable b => eqExpr a b
  | .algebraic field xs, .algebraic field' ys =>
    field.eq field' && xs.length = ys.length && eqItems xs ys
  | a, b =>
    match ValueSeq.fromValue a, ValueSeq.fromValue b with
    | some left, some right => eqPacked left right
    | _, _ => eqAtom a b
termination_by structural a => a

def eqItems : List Value → List Value → Bool
  | x :: xs, y :: ys => eq x y && eqItems xs ys
  | _, _ => true
termination_by structural a => a

def eqEntries : List (String × Value) → List (String × Value) → Bool
  | (kx, x) :: xs, (ky, y) :: ys => kx = ky && eq x y && eqEntries xs ys
  | _, _ => true
termination_by structural a => a

/-- The arms for symbolic expressions, and the derived equality of predicates. -/
def eqKind : CasKind → CasKind → Bool
  | .var a, .var b => a = b
  | .boundVar a, .boundVar b => a = b
  | .const a, .const b => a = b
  | .op op xs, .op op' ys => op = op' && xs.length = ys.length && eqItems xs ys
  | .function f xs, .function f' ys => f = f' && xs.length = ys.length && eqItems xs ys
  | .apply f xs, .apply f' ys => f = f' && xs.length = ys.length && eqItems xs ys
  | .namedArg name x, .namedArg name' y => name = name' && eq x y
  | .integral body _ bounds, .integral body' _ bounds' => eq body body' && eqBounds bounds bounds'
  | .limit body _ point direction, .limit body' _ point' direction' =>
    eq body body' && eq point point' && direction = direction'
  | .eq lhs rhs, .eq lhs' rhs' => eq lhs lhs' && eq rhs rhs'
  | .predicate p x, .predicate p' y => p = p' && eq x y
  | _, _ => false
termination_by structural a => a

def eqBounds : Option (Value × Value) → Option (Value × Value) → Bool
  | none, none => true
  | some (lo, hi), some (lo', hi') => eq lo lo' && eq hi hi'
  | _, _ => false
termination_by structural a => a

/-- The derived equality of composed callables. -/
def eqExpr : CallableExpr → CallableExpr → Bool
  | .const x, .const y => eq x y
  | .call x, .call y => eq x y
  | .unary op a, .unary op' b => op = op' && eqExpr a b
  | .binary op a b, .binary op' a' b' => op = op' && eqExpr a a' && eqExpr b b'
  | _, _ => false
termination_by structural a => a

end

/-! ### Hashing -/

/-- The arms of the hash that do not look into other values. -/
def hashAtom : Value → List HashWrite
  | .int n => [.u8 0, .i64 n]
  | .bigInt n =>
    match i64? n with
    | some m => [.u8 0, .i64 m]
    | none => [.u8 1, .bigInt n]
  | .float f => [.u8 2, .float f.canon]
  | .char c => [.u8 3, .char c]
  | .tag s => [.u8 4, .str s]
  | .bool b => [.u8 5, .bool b]
  | .complex re im => [.u8 14, .float re.canon, .float im.canon]
  | .fraction q => [.u8 15, .bigInt q.num, .bigInt q.den]
  | .compiledFunction fn => [.u8 8, .pointer fn]
  | .closure fn captured =>
    .u8 9 :: .pointer fn :: .usize captured.length :: captured.map .pointer
  | .builtinFunction _ id => [.u8 10, .usize id]
  | .stream h => [.u8 17, .pointer h]
  | .rng h => [.u8 21, .pointer h]
  | _ => [] -- not an atom, or an expression

mutual

/-- `Hash::hash`. -/
def hash : Value → List HashWrite
  | .list items => .u8 6 :: .usize items.length :: hashItems items
  | .dict entries => .u8 7 :: .usize entries.length :: hashEntries entries
  | .cas kind => .u8 18 :: hashKind kind
  | .liftedCallable expr => .u8 11 :: hashExpr expr
  | .algebraic field coeffs =>
    .u8 20 :: field.hash ++ .usize coeffs.length :: hashItems coeffs
  | v =>
    match ValueSeq.fromValue v with
    | some seq => .u8 6 :: .usize seq.len :: seq.values.flatMap hashAtom
    | none => hashAtom v

def hashItems : List Value → List HashWrite
  | [] => []
  | x :: xs => hash x ++ hashItems xs

def hashEntries : List (String × Value) → List HashWrite
  | [] => []
  | (k, x) :: xs => .str k :: hash x ++ hashEntries xs

/-- The arms for symbolic expressions. -/
def hashKind : CasKind → List HashWrite
  | .var name => [.u8 0, .str name]
  | .boundVar index => [.u8 10, .u32 index]
  | .const c => [.u8 4, .casConst c]
  | .op op args => .u8 1 :: .casOp op :: hashItems args
  | .function f args => .u8 2 :: .casFunction f :: hashItems args
  | .apply name args => .u8 6 :: .str name :: hashItems args
  | .namedArg name x => .u8 7 :: .str name :: hash x
  | .integral body _ bounds => .u8 11 :: hash body ++ hashBounds bounds
  | .limit body _ point direction => .u8 5 :: hash body ++ hash point ++ [.direction direction]
  | .eq lhs rhs => .u8 3 :: hash lhs ++ hash rhs
  | .predicate p x => .u8 9 :: .u8 p.ctorIdx :: hash x

def hashBounds : Option (Value × Value) → List HashWrite
  | none => [.discriminant 0]
  | some (lo, hi) => .discriminant 1 :: hash lo ++ hash hi

/-- `hash_callable_expr`. -/
def hashExpr : CallableExpr → List HashWrite
  | .const x => .u8 0 :: hash x
  | .call x => .u8 1 :: hash x
  | .unary op a => .u8 2 :: .unary op :: hashExpr a
  | .binary op a b => .u8 3 :: .binary op :: hashExpr a ++ hashExpr b

end

/-! ### Canonical forms -/

def canonAtom : Value → Value
  | .bigInt n =>
    match i64? n with
    | some m => .int m
    | none => .bigInt n
  | .float f => .float f.canon
  | .complex re im => .complex re.canon im.canon
  | .builtinFunction _ id => .builtinFunction "" id
  | v => v

mutual

/-- The value that stands for all values equal to one. -/
def canon : Value → Value
  | .list items => .list (canonItems items)
  | .dict entries => .dict (canonEntries entries)
  | .cas kind => .cas (canonKind kind)
  | .liftedCallable expr => .liftedCallable (canonExpr expr)
  | .algebraic field coeffs => .algebraic field.canon (canonItems coeffs)
  | v =>
    match ValueSeq.fromValue v with
    | some seq => .list (seq.values.map canonAtom)
    | none => canonAtom v

def canonItems : List Value → List Value
  | [] => []
  | x :: xs => canon x :: canonItems xs

def canonEntries : List (String × Value) → List (String × Value)
  | [] => []
  | (k, x) :: xs => (k, canon x) :: canonEntries xs

def canonKind : CasKind → CasKind
  | .op op args => .op op (canonItems args)
  | .function f args => .function f (canonItems args)
  | .apply name args => .apply name (canonItems args)
  | .namedArg name x => .namedArg name (canon x)
  | .integral body _ bounds => .integral (canon body) "" (canonBounds bounds)
  | .limit body _ point direction => .limit (canon body) "" (canon point) direction
  | .eq lhs rhs => .eq (canon lhs) (canon rhs)
  | .predicate p x => .predicate p (canon x)
  | kind => kind

def canonBounds : Option (Value × Value) → Option (Value × Value)
  | none => none
  | some (lo, hi) => some (canon lo, canon hi)

def canonExpr : CallableExpr → CallableExpr
  | .const x => .const (canon x)
  | .call x => .call (canon x)
  | .unary op a => .unary op (canonExpr a)
  | .binary op a b => .binary op (canonExpr a) (canonExpr b)

end

theorem canonItems_eq : ∀ xs : List Value, canonItems xs = xs.map canon
  | [] => rfl
  | x :: xs => by rw [canonItems, canonItems_eq xs, List.map_cons]

theorem length_canonEntries : ∀ xs : List (String × Value),
    (canonEntries xs).length = xs.length
  | [] => rfl
  | (_, _) :: xs => congrArg (· + 1) (length_canonEntries xs)

/-- An atom that is compared without a look into other values. -/
def IsSimple : Value → Prop
  | .list _ | .dict _ | .cas _ | .liftedCallable _ | .algebraic _ _ | .intList _ | .intRange _
  | .floatList _ | .boolList _ | .string _ => False
  | _ => True

theorem canon_of_isSimple {v : Value} (h : IsSimple v) : canon v = canonAtom v := by
  cases v <;> first | rfl | cases h

theorem canon_of_packed {v : Value} {seq : ValueSeq} (h : ValueSeq.fromValue v = some seq)
    (hv : ∀ items, v ≠ .list items) : canon v = .list (seq.values.map canonAtom) := by
  cases v <;> first | (obtain rfl := Option.some.inj h; rfl) | exact absurd rfl (hv _) | cases h

/-- The items of a packed sequence are simple. -/
theorem isSimple_of_packed {v x : Value} {seq : ValueSeq} (h : ValueSeq.fromValue v = some seq)
    (hv : ∀ items, v ≠ .list items) (hx : x ∈ seq.values) : IsSimple x := by
  cases v with
  | list items => exact absurd rfl (hv items)
  | intList _ | intRange _ | floatList _ | boolList _ | string _ =>
    obtain rfl := Option.some.inj h
    obtain ⟨y, -, rfl⟩ := List.mem_map.mp hx
    trivial
  | _ => cases h

/-- The canonical form of a sequence has those of its items. -/
theorem canon_of_fromValue {v : Value} {seq : ValueSeq} (h : ValueSeq.fromValue v = some seq) :
    canon v = .list (canonItems seq.values) := by
  by_cases hv : ∀ items, v ≠ .list items
  · rw [canon_of_packed h hv, canonItems_eq]
    exact congrArg Value.list (List.map_congr_left fun x hx =>
      (canon_of_isSimple (isSimple_of_packed h hv hx)).symm)
  · push Not at hv
    obtain ⟨items, rfl⟩ := hv
    obtain rfl := Option.some.inj h
    rfl

/-! ### Equal values have one canonical form -/

theorem canonAtom_bigInt (n : Int) :
    (∃ m : Int64, m.toInt = n ∧ canonAtom (.bigInt n) = .int m) ∨
      (∀ m : Int64, m.toInt ≠ n) ∧ canonAtom (.bigInt n) = .bigInt n := by
  rw [canonAtom]
  cases h : i64? n with
  | none =>
    refine .inr ⟨fun m hm => ?_, rfl⟩
    rw [i64?_some_iff.mpr hm] at h
    cases h
  | some m => exact .inl ⟨m, i64?_some_iff.mp h, rfl⟩

/-- The canonical form of a big integer is an integer. -/
theorem ne_canon_bigInt {v : Value} (m : Int) (hint : ∀ n, v ≠ .int n)
    (hbig : ∀ n, v ≠ .bigInt n) : v ≠ canon (.bigInt m) := by
  have hcanon : canon (.bigInt m) = canonAtom (.bigInt m) := rfl
  rw [hcanon]
  rcases canonAtom_bigInt m with ⟨k, -, h⟩ | ⟨-, h⟩
  · rw [h]
    exact hint k
  · rw [h]
    exact hbig m

theorem int_eq_canonAtom_bigInt {n : Int64} {m : Int} :
    Value.int n = canonAtom (.bigInt m) ↔ n.toInt = m := by
  rcases canonAtom_bigInt m with ⟨k, rfl, h⟩ | ⟨hne, h⟩
  · rw [h, Value.int.injEq, Int64.toInt_inj]
  · rw [h]
    exact iff_of_false nofun (hne n)

theorem canonAtom_bigInt_inj {n m : Int} :
    canonAtom (.bigInt n) = canonAtom (.bigInt m) ↔ n = m := by
  rcases canonAtom_bigInt n with ⟨k, rfl, h⟩ | ⟨hne, h⟩
  · rw [h, int_eq_canonAtom_bigInt]
  · rw [h]
    refine ⟨fun heq => ?_, fun heq => heq ▸ h.symm⟩
    rcases canonAtom_bigInt m with ⟨k', hk', h'⟩ | ⟨-, h'⟩
    · rw [h'] at heq
      cases heq
    · rw [h'] at heq
      exact Value.bigInt.inj heq

/-- All pairs of two lists of one length are equal when the lists are. -/
theorem allPairs_eq_iff {α : Type} [DecidableEq α] : ∀ xs ys : List α, xs.length = ys.length →
    (allPairs (fun x y => decide (x = y)) xs ys = true ↔ xs = ys)
  | [], [], _ => by simp [allPairs]
  | x :: xs, y :: ys, h => by
    have ih := allPairs_eq_iff xs ys (Nat.succ.inj h)
    simp only [allPairs, List.zip_cons_cons, List.all_cons, Bool.and_eq_true,
      decide_eq_true_eq, List.cons.injEq] at ih ⊢
    rw [ih]

theorem eqAtom_iff {a : Value} (ha : IsSimple a) (b : Value) :
    eqAtom a b = true ↔ canonAtom a = canon b := by
  cases a with
  | int n =>
    cases b with
    | int m => simp [eqAtom, canon, canonAtom, ValueSeq.fromValue]
    | bigInt m => exact decide_eq_true_iff.trans int_eq_canonAtom_bigInt.symm
    | _ => exact iff_of_false Bool.false_ne_true nofun
  | bigInt n =>
    cases b with
    | int m =>
      exact decide_eq_true_iff.trans (eq_comm.trans (int_eq_canonAtom_bigInt.symm.trans eq_comm))
    | bigInt m => exact decide_eq_true_iff.trans canonAtom_bigInt_inj.symm
    | _ =>
      refine iff_of_false Bool.false_ne_true ?_
      rcases canonAtom_bigInt n with ⟨k, rfl, h⟩ | ⟨hne, h⟩ <;> rw [h] <;> exact nofun
  | float f =>
    cases b with
    | float g => simp [eqAtom, canon, canonAtom, ValueSeq.fromValue, F64.orderedEq_iff]
    | bigInt m => exact iff_of_false Bool.false_ne_true (ne_canon_bigInt m nofun nofun)
    | _ => exact iff_of_false Bool.false_ne_true nofun
  | complex re im =>
    cases b with
    | complex re' im' => simp [eqAtom, canon, canonAtom, ValueSeq.fromValue, F64.orderedEq_iff]
    | bigInt m => exact iff_of_false Bool.false_ne_true (ne_canon_bigInt m nofun nofun)
    | _ => exact iff_of_false Bool.false_ne_true nofun
  | closure fn captured =>
    cases b with
    | closure fn' captured' =>
      by_cases hlen : captured.length = captured'.length
      · simp [eqAtom, canon, canonAtom, ValueSeq.fromValue, hlen, allPairs_eq_iff]
      · have hne : captured ≠ captured' := fun h => hlen (congrArg List.length h)
        simp [eqAtom, canon, canonAtom, ValueSeq.fromValue, hlen, hne]
    | bigInt m => exact iff_of_false Bool.false_ne_true (ne_canon_bigInt m nofun nofun)
    | _ => exact iff_of_false Bool.false_ne_true nofun
  | builtinFunction name id =>
    cases b with
    | builtinFunction name' id' => simp [eqAtom, canon, canonAtom, ValueSeq.fromValue]
    | bigInt m => exact iff_of_false Bool.false_ne_true (ne_canon_bigInt m nofun nofun)
    | _ => exact iff_of_false Bool.false_ne_true nofun
  | fraction _ | char _ | tag _ | bool _ | compiledFunction _ | rng _ | stream _ =>
    cases b with
    | fraction _ | char _ | tag _ | bool _ | compiledFunction _ | rng _ | stream _ =>
      simp [eqAtom, canon, canonAtom, ValueSeq.fromValue]
    | bigInt m => exact iff_of_false Bool.false_ne_true (ne_canon_bigInt m nofun nofun)
    | _ => exact iff_of_false Bool.false_ne_true nofun
  | _ => cases ha

theorem allPairs_eqAtom_iff : ∀ xs ys : List Value, (∀ x ∈ xs, IsSimple x) →
    (xs.length = ys.length ∧ allPairs eqAtom xs ys = true ↔ xs.map canonAtom = canonItems ys)
  | [], [], _ => by simp [allPairs, canonItems]
  | [], _ :: _, _ => by simp [canonItems]
  | _ :: _, [], _ => by simp [canonItems]
  | x :: xs, y :: ys, h => by
    have ih := allPairs_eqAtom_iff xs ys fun z hz => h z (List.mem_cons_of_mem x hz)
    have hx := eqAtom_iff (h x List.mem_cons_self) y
    simp only [allPairs, List.zip_cons_cons, List.all_cons, Bool.and_eq_true, List.length_cons,
      Nat.add_right_cancel_iff, List.map_cons, canonItems, List.cons.injEq] at ih ⊢
    rw [← ih, hx]
    tauto

/-- A value that is no sequence has no list for its canonical form. -/
theorem canon_ne_list {v : Value} (h : ValueSeq.fromValue v = none) (items : List Value) :
    canon v ≠ .list items := by
  cases v with
  | bigInt n =>
    exact fun heq => ne_canon_bigInt (v := .list items) n nofun nofun heq.symm
  | list _ | intList _ | intRange _ | floatList _ | boolList _ | string _ => cases h
  | _ => exact nofun

theorem eq_packed_iff {a : Value} {left : ValueSeq} (hleft : ValueSeq.fromValue a = some left)
    (ha : ∀ items, a ≠ .list items) (b : Value) : eq a b = true ↔ canon a = canon b := by
  have heq : eq a b = match ValueSeq.fromValue a, ValueSeq.fromValue b with
      | some left, some right => eqPacked left right
      | _, _ => eqAtom a b := by
    cases a <;> first | rfl | exact absurd rfl (ha _) | cases hleft
  have hatom : eqAtom a b = false := by
    cases a <;> first | rfl | cases hleft
  rw [heq, hleft, canon_of_packed hleft ha]
  cases hright : ValueSeq.fromValue b with
  | none =>
    refine iff_of_false ?_ fun h => canon_ne_list hright _ h.symm
    show ¬eqAtom a b = true
    rw [hatom]
    exact Bool.false_ne_true
  | some right =>
    show eqPacked left right = true ↔ _
    have hpairs := allPairs_eqAtom_iff left.values right.values fun x =>
      isSimple_of_packed hleft ha
    rw [canon_of_fromValue hright, Value.list.injEq, ← hpairs, ValueSeq.length_values,
      ValueSeq.length_values]
    simp [eqPacked]

mutual

/-- **Values are equal when their canonical forms are.** -/
theorem eq_iff (a b : Value) : eq a b = true ↔ canon a = canon b := by
  cases a with
  | list xs =>
    cases hright : ValueSeq.fromValue b with
    | none =>
      refine iff_of_false ?_ fun h => canon_ne_list hright _ h.symm
      simp [eq, hright]
    | some right =>
      rw [canon_of_fromValue hright, canon, Value.list.injEq, ← eqItems_iff xs right.values,
        ValueSeq.length_values]
      simp [eq, hright]
  | dict xs =>
    cases b with
    | dict ys => simp [eq, canon, ← eqEntries_iff xs ys]
    | bigInt m => exact iff_of_false Bool.false_ne_true (ne_canon_bigInt m nofun nofun)
    | _ => exact iff_of_false Bool.false_ne_true nofun
  | cas kind =>
    cases b with
    | cas kind' => simp [eq, canon, eqKind_iff kind kind']
    | bigInt m => exact iff_of_false Bool.false_ne_true (ne_canon_bigInt m nofun nofun)
    | _ => exact iff_of_false Bool.false_ne_true nofun
  | liftedCallable expr =>
    cases b with
    | liftedCallable expr' => simp [eq, canon, eqExpr_iff expr expr']
    | bigInt m => exact iff_of_false Bool.false_ne_true (ne_canon_bigInt m nofun nofun)
    | _ => exact iff_of_false Bool.false_ne_true nofun
  | algebraic field xs =>
    cases b with
    | algebraic field' ys =>
      simp [eq, canon, AlgebraicField.eq_iff, ← eqItems_iff xs ys, and_assoc]
    | bigInt m => exact iff_of_false Bool.false_ne_true (ne_canon_bigInt m nofun nofun)
    | _ => exact iff_of_false Bool.false_ne_true nofun
  | intList _ | intRange _ | floatList _ | boolList _ | string _ =>
    refine eq_packed_iff rfl ?_ b
    exact fun _ => nofun
  | _ => exact eqAtom_iff (by trivial) b

theorem eqItems_iff (xs ys : List Value) :
    xs.length = ys.length ∧ eqItems xs ys = true ↔ canonItems xs = canonItems ys := by
  cases xs with
  | nil => cases ys <;> simp [eqItems, canonItems]
  | cons x xs =>
    cases ys with
    | nil => simp [canonItems]
    | cons y ys =>
      simp only [eqItems, canonItems, eq_iff x y, ← eqItems_iff xs ys, List.length_cons,
        Nat.add_right_cancel_iff, Bool.and_eq_true, List.cons.injEq]
      tauto

theorem eqEntries_iff (xs ys : List (String × Value)) :
    xs.length = ys.length ∧ eqEntries xs ys = true ↔ canonEntries xs = canonEntries ys := by
  cases xs with
  | nil => cases ys <;> simp [eqEntries, canonEntries]
  | cons e xs =>
    cases ys with
    | nil => simp [canonEntries]
    | cons e' ys =>
      obtain ⟨kx, x⟩ := e
      obtain ⟨ky, y⟩ := e'
      simp only [eqEntries, canonEntries, eq_iff x y, ← eqEntries_iff xs ys, List.length_cons,
        Nat.add_right_cancel_iff, Bool.and_eq_true, decide_eq_true_eq, List.cons.injEq,
        Prod.mk.injEq]
      tauto

theorem eqKind_iff (a b : CasKind) : eqKind a b = true ↔ canonKind a = canonKind b := by
  cases a with
  | op op xs =>
    cases b with
    | op op' ys => simp [eqKind, canonKind, ← eqItems_iff xs ys, and_assoc]
    | _ => exact iff_of_false Bool.false_ne_true nofun
  | function f xs =>
    cases b with
    | function f' ys => simp [eqKind, canonKind, ← eqItems_iff xs ys, and_assoc]
    | _ => exact iff_of_false Bool.false_ne_true nofun
  | apply name xs =>
    cases b with
    | apply name' ys => simp [eqKind, canonKind, ← eqItems_iff xs ys, and_assoc]
    | _ => exact iff_of_false Bool.false_ne_true nofun
  | namedArg name x =>
    cases b with
    | namedArg name' y => simp [eqKind, canonKind, eq_iff x y]
    | _ => exact iff_of_false Bool.false_ne_true nofun
  | integral body hint bounds =>
    cases b with
    | integral body' hint' bounds' =>
      simp [eqKind, canonKind, eq_iff body body', eqBounds_iff bounds bounds']
    | _ => exact iff_of_false Bool.false_ne_true nofun
  | limit body hint point direction =>
    cases b with
    | limit body' hint' point' direction' =>
      simp [eqKind, canonKind, eq_iff body body', eq_iff point point', and_assoc]
    | _ => exact iff_of_false Bool.false_ne_true nofun
  | eq lhs rhs =>
    cases b with
    | eq lhs' rhs' => simp [eqKind, canonKind, eq_iff lhs lhs', eq_iff rhs rhs']
    | _ => exact iff_of_false Bool.false_ne_true nofun
  | predicate p x =>
    cases b with
    | predicate p' y => simp [eqKind, canonKind, eq_iff x y]
    | _ => exact iff_of_false Bool.false_ne_true nofun
  | var _ | boundVar _ | const _ =>
    cases b with
    | var _ | boundVar _ | const _ => simp [eqKind, canonKind]
    | _ => exact iff_of_false Bool.false_ne_true nofun

theorem eqBounds_iff (a b : Option (Value × Value)) :
    eqBounds a b = true ↔ canonBounds a = canonBounds b := by
  cases a with
  | none => cases b <;> simp [eqBounds, canonBounds]
  | some p =>
    cases b with
    | none => simp [eqBounds, canonBounds]
    | some q =>
      obtain ⟨lo, hi⟩ := p
      obtain ⟨lo', hi'⟩ := q
      simp [eqBounds, canonBounds, eq_iff lo lo', eq_iff hi hi']

theorem eqExpr_iff (a b : CallableExpr) : eqExpr a b = true ↔ canonExpr a = canonExpr b := by
  cases a with
  | const x =>
    cases b with
    | const y => simp [eqExpr, canonExpr, eq_iff x y]
    | _ => exact iff_of_false Bool.false_ne_true nofun
  | call x =>
    cases b with
    | call y => simp [eqExpr, canonExpr, eq_iff x y]
    | _ => exact iff_of_false Bool.false_ne_true nofun
  | unary op x =>
    cases b with
    | unary op' y => simp [eqExpr, canonExpr, eqExpr_iff x y]
    | _ => exact iff_of_false Bool.false_ne_true nofun
  | binary op x y =>
    cases b with
    | binary op' x' y' =>
      simp [eqExpr, canonExpr, eqExpr_iff x x', eqExpr_iff y y', and_assoc]
    | _ => exact iff_of_false Bool.false_ne_true nofun

end

/-! ### A value hashes as its canonical form -/

theorem hashAtom_canonAtom {v : Value} (h : IsSimple v) : hashAtom (canonAtom v) = hashAtom v := by
  cases v with
  | bigInt n =>
    rcases canonAtom_bigInt n with ⟨m, hm, hcanon⟩ | ⟨-, hcanon⟩
    · rw [hcanon, hashAtom, hashAtom, i64?_some_iff.mpr hm]
    · rw [hcanon]
  | float f => simp [canonAtom, hashAtom, F64.canon_canon]
  | complex re im => simp [canonAtom, hashAtom, F64.canon_canon]
  | list _ | dict _ | cas _ | liftedCallable _ | algebraic _ _ | intList _ | intRange _
  | floatList _ | boolList _ | string _ => cases h
  | _ => rfl

theorem hash_of_isSimple {v : Value} (h : IsSimple v) : hash v = hashAtom v := by
  cases v <;> first | rfl | cases h

theorem isSimple_canonAtom {v : Value} (h : IsSimple v) : IsSimple (canonAtom v) := by
  cases v with
  | bigInt n =>
    rcases canonAtom_bigInt n with ⟨m, -, hcanon⟩ | ⟨-, hcanon⟩
    · rw [hcanon]
      trivial
    · rw [hcanon]
      trivial
  | list _ | dict _ | cas _ | liftedCallable _ | algebraic _ _ | intList _ | intRange _
  | floatList _ | boolList _ | string _ => cases h
  | _ => trivial

theorem hash_canonAtom {v : Value} (h : IsSimple v) : hash (canonAtom v) = hashAtom v := by
  rw [hash_of_isSimple (isSimple_canonAtom h), hashAtom_canonAtom h]

theorem hashItems_simple : ∀ xs : List Value, (∀ x ∈ xs, IsSimple x) →
    hashItems (xs.map canonAtom) = xs.flatMap hashAtom
  | [], _ => rfl
  | x :: xs, h => by
    rw [List.map_cons, hashItems, hash_canonAtom (h x List.mem_cons_self),
      hashItems_simple xs fun y hy => h y (List.mem_cons_of_mem x hy), List.flatMap_cons]

theorem hash_canon_packed {v : Value} {seq : ValueSeq} (h : ValueSeq.fromValue v = some seq)
    (hv : ∀ items, v ≠ .list items) : hash (canon v) = hash v := by
  have hhash : hash v = .u8 6 :: .usize seq.len :: seq.values.flatMap hashAtom := by
    cases v <;> first | (obtain rfl := Option.some.inj h; rfl) | exact absurd rfl (hv _) | cases h
  rw [hhash, canon_of_packed h hv, hash, List.length_map, ValueSeq.length_values,
    hashItems_simple _ fun x => isSimple_of_packed h hv]

mutual

/-- **A value hashes as its canonical form does.** -/
theorem hash_canon (v : Value) : hash (canon v) = hash v := by
  by_cases hsimple : IsSimple v
  · rw [canon_of_isSimple hsimple, hash_canonAtom hsimple, hash_of_isSimple hsimple]
  cases v with
  | list xs => rw [canon, hash, hash, hashItems_canon xs, canonItems_eq, List.length_map]
  | dict xs => rw [canon, hash, hash, hashEntries_canon xs, length_canonEntries]
  | cas kind => rw [canon, hash, hash, hashKind_canon kind]
  | liftedCallable expr => rw [canon, hash, hash, hashExpr_canon expr]
  | algebraic field xs =>
    rw [canon, hash, hash, hashItems_canon xs, AlgebraicField.hash_canon field, canonItems_eq,
      List.length_map]
  | intList _ | intRange _ | floatList _ | boolList _ | string _ =>
    refine hash_canon_packed rfl ?_
    exact fun _ => nofun
  | _ => exact absurd trivial hsimple

theorem hashItems_canon (xs : List Value) : hashItems (canonItems xs) = hashItems xs := by
  cases xs with
  | nil => rfl
  | cons x xs => rw [canonItems, hashItems, hashItems, hash_canon x, hashItems_canon xs]

theorem hashEntries_canon (xs : List (String × Value)) :
    hashEntries (canonEntries xs) = hashEntries xs := by
  cases xs with
  | nil => rfl
  | cons e xs =>
    obtain ⟨k, x⟩ := e
    rw [canonEntries, hashEntries, hashEntries, hash_canon x, hashEntries_canon xs]

theorem hashKind_canon (kind : CasKind) : hashKind (canonKind kind) = hashKind kind := by
  cases kind with
  | var _ | boundVar _ | const _ => rfl
  | op op xs => rw [canonKind, hashKind, hashKind, hashItems_canon xs]
  | function f xs => rw [canonKind, hashKind, hashKind, hashItems_canon xs]
  | apply name xs => rw [canonKind, hashKind, hashKind, hashItems_canon xs]
  | namedArg name x => rw [canonKind, hashKind, hashKind, hash_canon x]
  | integral body hint bounds =>
    rw [canonKind, hashKind, hashKind, hash_canon body, hashBounds_canon bounds]
  | limit body hint point direction =>
    rw [canonKind, hashKind, hashKind, hash_canon body, hash_canon point]
  | eq lhs rhs => rw [canonKind, hashKind, hashKind, hash_canon lhs, hash_canon rhs]
  | predicate p x => rw [canonKind, hashKind, hashKind, hash_canon x]

theorem hashBounds_canon (bounds : Option (Value × Value)) :
    hashBounds (canonBounds bounds) = hashBounds bounds := by
  cases bounds with
  | none => rfl
  | some p =>
    obtain ⟨lo, hi⟩ := p
    rw [canonBounds, hashBounds, hashBounds, hash_canon lo, hash_canon hi]

theorem hashExpr_canon (expr : CallableExpr) : hashExpr (canonExpr expr) = hashExpr expr := by
  cases expr with
  | const x => rw [canonExpr, hashExpr, hashExpr, hash_canon x]
  | call x => rw [canonExpr, hashExpr, hashExpr, hash_canon x]
  | unary op x => rw [canonExpr, hashExpr, hashExpr, hashExpr_canon x]
  | binary op x y => rw [canonExpr, hashExpr, hashExpr, hashExpr_canon x, hashExpr_canon y]

end

/-! ### The arms for sequences -/

theorem eq_of_isSimple {a : Value} (h : IsSimple a) (b : Value) : eq a b = eqAtom a b := by
  cases a <;> first | rfl | cases h

theorem eqItems_eq : ∀ xs ys : List Value, eqItems xs ys = allPairs eq xs ys
  | [], ys => by cases ys <;> rfl
  | _ :: _, [] => rfl
  | x :: xs, y :: ys => by
    rw [eqItems, eqItems_eq xs ys]
    rfl

theorem allPairs_simple : ∀ xs ys : List Value, (∀ x ∈ xs, IsSimple x) →
    allPairs eqAtom xs ys = allPairs eq xs ys
  | [], ys, _ => by cases ys <;> rfl
  | _ :: _, [], _ => rfl
  | x :: xs, y :: ys, h => by
    have ih := allPairs_simple xs ys fun z hz => h z (List.mem_cons_of_mem x hz)
    simp only [allPairs, List.zip_cons_cons, List.all_cons] at ih ⊢
    rw [ih, eq_of_isSimple (h x List.mem_cons_self)]

/-- Two sequences are compared item by item, whatever their representations. -/
theorem eq_sequences {a b : Value} {left right : ValueSeq} (ha : ValueSeq.fromValue a = some left)
    (hb : ValueSeq.fromValue b = some right) :
    eq a b = (decide (left.len = right.len) && allPairs eq left.values right.values) := by
  by_cases hlist : ∀ items, a ≠ .list items
  · have heq : eq a b = eqPacked left right := by
      cases a <;> first
        | (obtain rfl := Option.some.inj ha
           show (match ValueSeq.fromValue _, ValueSeq.fromValue b with
             | some left, some right => eqPacked left right
             | _, _ => eqAtom _ b) = _
           rw [hb]
           rfl)
        | exact absurd rfl (hlist _)
        | cases ha
    rw [heq, eqPacked, allPairs_simple _ _ fun x => isSimple_of_packed ha hlist]
  · push Not at hlist
    obtain ⟨items, rfl⟩ := hlist
    obtain rfl := Option.some.inj ha
    rw [eq, hb]
    show (decide (items.length = right.len) && eqItems items right.values) = _
    rw [eqItems_eq]
    rfl

/-- A sequence hashes as its items, whatever its representation. -/
theorem hash_sequence {v : Value} {seq : ValueSeq} (h : ValueSeq.fromValue v = some seq) :
    hash v = .u8 6 :: .usize seq.len :: hashItems seq.values := by
  rw [← hash_canon, canon_of_fromValue h, hash, hashItems_canon, canonItems_eq, List.length_map,
    ValueSeq.length_values]

/-- **Hash and equality are coherent.** Equality of values is an equivalence,
on NaNs too, and equal values feed the same writes to a hasher. -/
theorem eq_hash_coherent :
    Equivalence (fun a b => eq a b = true) ∧ ∀ a b, eq a b = true → hash a = hash b := by
  refine ⟨⟨fun a => ?_, fun h => ?_, fun h h' => ?_⟩, fun a b h => ?_⟩
  · exact (eq_iff a a).mpr rfl
  · exact (eq_iff _ _).mpr ((eq_iff _ _).mp h).symm
  · exact (eq_iff _ _).mpr (((eq_iff _ _).mp h).trans ((eq_iff _ _).mp h'))
  · rw [← hash_canon a, (eq_iff a b).mp h, hash_canon b]

/-- A packed list, and a general one with a big integer. -/
theorem eq_hash_coherent_range :
    hash (.intList [1, 2]) = hash (.list [.int 1, .bigInt 2]) :=
  eq_hash_coherent.2 _ _ (by decide)

end Value

end Wqpl
