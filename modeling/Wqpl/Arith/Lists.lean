/-
# Arithmetic on packed lists

Every operation tries its paths over packed lists first, then the atoms, then
the broadcast of the atoms' operation. A path over packed lists gives up where
an item has no packed result, and the broadcast starts again from the first
item.
-/
import Wqpl.Arith.Atoms

namespace Wqpl

/-- What a path over packed lists yields: nothing where it does not apply. Its
operations on items may panic. -/
abbrev Packed := OptionT Option

namespace Packed

variable {α : Type}

def ofOption (o : Option α) : Packed α := OptionT.mk (some o)

/-- An operation of the language that panics where it has no value. -/
def ofPanicking (o : Option α) : Packed α := OptionT.mk (o.map some)

end Packed

/-! ### Loops -/

/-- `PAR_BC_THRESHOLD`: from this length on a loop runs in parallel. -/
def parBcThreshold : Nat := 1048576

/-- The loop of `intlist_map` and `intlist_zip_map`. A parallel loop may
evaluate items behind one that has no packed result: here it evaluates all. -/
def intlistLoop {α : Type} (items : List α) (f : α → Packed Int64) : Packed (List Int64) :=
  if parBcThreshold ≤ items.length then
    OptionT.mk ((items.mapM fun x => (f x).run).map fun rs => rs.mapM id)
  else items.mapM f

/-- `intlist_map`. -/
def intlistMap (items : List Int64) (f : Int64 → Packed Int64) : Packed (List Int64) :=
  intlistLoop items f

/-- `intlist_zip_map`. -/
def intlistZipMap (a b : List Int64) (f : Int64 → Int64 → Packed Int64) : Packed (List Int64) :=
  if a.length ≠ b.length then failure else intlistLoop (a.zip b) fun p => f p.1 p.2

/-- `floatlist_zip_map`. -/
def floatlistZipMap (left right : List F64) (f : F64 → F64 → F64) : Option (List F64) :=
  if left.length ≠ right.length then none else some (left.zipWith f right)

/-- `packed_float_binary`. -/
def packedFloatBinary (f : F64 → F64 → F64) : Value → Value → Option Value
  | .floatList left, .floatList right => (floatlistZipMap left right f).map .floatList
  | .floatList items, .float atom => some (.floatList (items.map (f · atom)))
  | .float atom, .floatList items => some (.floatList (items.map (f atom)))
  | .floatList items, .int atom => some (.floatList (items.map (f · (.ofInt atom.toInt))))
  | .int atom, .floatList items => some (.floatList (items.map (f (.ofInt atom.toInt))))
  | _, _ => none

/-! ### Ranges -/

/-- Between two integers of 64 bits lie only such. -/
theorem InI64.between {a b n : Int} (ha : InI64 a) (hb : InI64 b)
    (h : a ≤ n ∧ n ≤ b ∨ b ≤ n ∧ n ≤ a) : InI64 n := by
  unfold InI64 at *
  omega

/-- A range fits when its ends do. -/
theorem range_fits {start step : Int64} {len : Nat}
    (h : InI64 (start.toInt + step.toInt * (len - 1 : Nat))) :
    ∀ i < len, InI64 (start.toInt + step.toInt * i) := by
  intro i hi
  have hstart : InI64 start.toInt := ⟨start.le_toInt, start.toInt_lt⟩
  have hi' : (i : Int) ≤ (len - 1 : Nat) := by omega
  refine hstart.between h ?_
  rcases Int.le_total 0 step.toInt with hs | hs
  · refine .inl ⟨?_, ?_⟩
    · have := Int.mul_nonneg hs (Int.natCast_nonneg i)
      omega
    · have := Int.mul_le_mul_of_nonneg_left hi' hs
      omega
  · refine .inr ⟨?_, ?_⟩
    · have := Int.mul_le_mul_of_nonpos_left hs hi'
      omega
    · have := Int.mul_nonpos_of_nonpos_of_nonneg hs (Int.natCast_nonneg i)
      omega

namespace IntRangeData

def empty : IntRangeData := ⟨0, 1, 0, fun i hi => absurd hi (Nat.not_lt_zero i)⟩

/-- `last_value`. -/
def lastValue (r : IntRangeData) : Option Int64 :=
  if r.len = 0 then none else r.get (r.len - 1)

/-- A range, where its last item fits. -/
def ofEnds (start step : Int64) (len : Nat) : Option IntRangeData :=
  if h : InI64 (start.toInt + step.toInt * (len - 1 : Nat)) then
    some ⟨start, step, len, range_fits h⟩
  else none

end IntRangeData

/-- `checked_mul` and `checked_add`. -/
def checkedAffine (x scale offset : Int64) : Option Int64 := do
  let product ← i64? (x.toInt * scale.toInt)
  i64? (product.toInt + offset.toInt)

/-- `affine_int_range`. -/
def affineIntRange (range : IntRangeData) (scale offset : Int64) : Option Value :=
  if range.len = 0 then some (.intRange .empty)
  else do
    let step ← i64? (range.step.toInt * scale.toInt)
    if step = 0 then none
    let start ← checkedAffine range.start scale offset
    let _last ← checkedAffine (← range.lastValue) scale offset
    return .intRange (← IntRangeData.ofEnds start step range.len)

/-! ### The paths over packed lists -/

/-- The arms for two packed lists, and for a packed list and an integer. -/
def intlistBinary (f : Int64 → Int64 → Packed Int64) : Value → Value → Packed Value
  | .intList a, .intList b => .intList <$> intlistZipMap a b f
  | .intList a, .int b => .intList <$> intlistMap a (f · b)
  | .int a, .intList b => .intList <$> intlistMap b (f a)
  | _, _ => failure

/-- The same where a divisor of zero is refused before the loop. -/
def intlistDivision (f : Int64 → Int64 → Packed Int64) (left right : Value) : Packed Value :=
  match left, right with
  | .intList _, .int b => if b = 0 then failure else intlistBinary f left right
  | _, _ => intlistBinary f left right

/-- A checked machine operation. -/
def checkedOp (exact : Int → Int → Int) (x y : Int64) : Packed Int64 :=
  .ofOption (i64? (exact x.toInt y.toInt))

/-- `add_intlist`. -/
def addIntlist (left right : Value) : Packed Value :=
  match left, right with
  | .intRange a, .int b | .int b, .intRange a => .ofOption (affineIntRange a 1 b)
  | _, _ => intlistBinary (checkedOp (· + ·)) left right

/-- `sub_intlist`. -/
def subIntlist (left right : Value) : Packed Value :=
  match left, right with
  | .intRange a, .int b => .ofOption do affineIntRange a 1 (← i64? (-b.toInt))
  | .int a, .intRange b => .ofOption (affineIntRange b (-1) a)
  | _, _ => intlistBinary (checkedOp (· - ·)) left right

/-- `mul_intlist`. -/
def mulIntlist (left right : Value) : Packed Value :=
  match left, right with
  | .intRange a, .int b | .int b, .intRange a => .ofOption (affineIntRange a b 0)
  | _, _ => intlistBinary (checkedOp (· * ·)) left right

/-- The remainder of two items. -/
def remItem (x y : Int64) : Packed Int64 :=
  if y = 0 then failure else .ofPanicking (rem? x y)

/-- `mod_intlist`. -/
def modIntlist : Value → Value → Packed Value := intlistDivision remItem

/-- The quotient of two items rounded down. -/
def floorDivItem (x y : Int64) : Packed Int64 :=
  if y = 0 then failure
  else if x.toInt = -2 ^ 63 ∧ y.toInt = -1 then failure
  else .ofPanicking (floorQuotient? x y)

/-- `floor_div_intlist`. -/
def floorDivIntlist : Value → Value → Packed Value := intlistDivision floorDivItem

/-- `neg_intlist`. -/
def negIntlist : Value → Packed Value
  | .intList a => .intList <$> intlistMap a fun x => .ofOption (i64? (-x.toInt))
  | .intRange a => .ofOption (affineIntRange a (-1) 0)
  | _ => failure

/-- `band_intlist`. -/
def bandIntlist : Value → Value → Packed Value := intlistBinary fun x y => pure (x &&& y)

/-- `bor_intlist`. -/
def borIntlist : Value → Value → Packed Value := intlistBinary fun x y => pure (x ||| y)

/-- `xor_intlist`. -/
def xorIntlist : Value → Value → Packed Value := intlistBinary fun x y => pure (x ^^^ y)

/-- `not_intlist`. -/
def notIntlist : Value → Packed Value
  | .intList a => .intList <$> intlistMap a fun x => pure (~~~x)
  | _ => failure

/-- The common form of `shl_intlist` and `shr_intlist`. -/
def shiftIntlist (word : Int64 → Nat → Value) : Value → Value → Packed Value
  | .intList a, .int b => .ofOption do
    let shift ← u32? b.toInt
    return Value.fromItems (a.map (word · shift))
  | _, _ => failure

/-- `shl_intlist`. -/
def shlIntlist : Value → Value → Packed Value := shiftIntlist shlI64Exact

/-- `shr_intlist`. -/
def shrIntlist : Value → Value → Packed Value := shiftIntlist shrI64Exact

/-! ### The operations -/

/-- The packed path, or else the general one. -/
def packedOr (packed : Packed Value) (general : Checked Value) : Checked Value :=
  ExceptT.mk do
    match ← packed.run with
    | some v => return .ok v
    | none => general.run

/-- Atoms, or else the broadcast. -/
def onAtoms1 (atom : Value → Checked Value) (v : Value) : Checked Value :=
  if v.isAtom then atom v else Value.bc1Until .atom atom 0 v

def onAtoms2 (atoms : Value → Value → Checked Value) (a b : Value) : Checked Value :=
  if a.isAtom && b.isAtom then atoms a b else Value.bc2Until .bothAtom atoms 0 a b

/-- The arithmetic, bitwise and shift operators. -/
inductive ArithOp
  | add | subtract | multiply | divide | divideDot | modulo | floorDiv | power | powerDot
  | bitAnd | bitOr | bitXor | shl | shr
deriving DecidableEq, Repr

section Operations

variable (ops : NumberOps)

/-- The operation on atoms. -/
def ArithOp.atoms : ArithOp → Value → Value → Checked Value
  | .add => addAtoms ops
  | .subtract => subAtoms ops
  | .multiply => mulAtoms ops
  | .divide => divAtoms ops
  | .divideDot => divDotAtoms ops
  | .modulo => modAtoms ops
  | .floorDiv => floorDivAtoms ops
  | .power => powAtoms ops
  | .powerDot => powDotAtoms ops
  | .bitAnd => bandAtoms ops
  | .bitOr => borAtoms ops
  | .bitXor => xorAtoms ops
  | .shl => shlAtoms ops
  | .shr => shrAtoms ops

/-- The paths over packed lists, the first that applies. -/
def ArithOp.packed : ArithOp → Value → Value → Packed Value
  | .add, a, b => addIntlist a b <|> .ofOption (packedFloatBinary ops.fadd a b)
  | .subtract, a, b => subIntlist a b <|> .ofOption (packedFloatBinary ops.fsub a b)
  | .multiply, a, b => mulIntlist a b <|> .ofOption (packedFloatBinary ops.fmul a b)
  | .modulo, a, b => modIntlist a b
  | .floorDiv, a, b => floorDivIntlist a b
  | .bitAnd, a, b => bandIntlist a b
  | .bitOr, a, b => borIntlist a b
  | .bitXor, a, b => xorIntlist a b
  | .shl, a, b => shlIntlist a b
  | .shr, a, b => shrIntlist a b
  | .divide, _, _ | .divideDot, _, _ | .power, _, _ | .powerDot, _, _ => failure

/-- `Value::add`, `Value::subtract`, … -/
def ArithOp.eval (op : ArithOp) (a b : Value) : Checked Value :=
  packedOr (op.packed ops a b) (onAtoms2 (op.atoms ops) a b)

/-- `Value::neg`. -/
def neg (v : Value) : Checked Value := packedOr (negIntlist v) (onAtoms1 (negAtom ops) v)

/-- `Value::not`. -/
def not_ (v : Value) : Checked Value := packedOr (notIntlist v) (onAtoms1 (notAtom ops) v)

end Operations

end Wqpl
