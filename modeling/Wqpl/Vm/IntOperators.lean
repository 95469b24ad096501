/-
# Operators on two integers

The machine answers an operator on two integers by itself where it can. What
it answers is what the operator computes (`intFastPath_computing`), for the
operators of the arithmetic and for comparisons (`evalInts`).
-/
import Wqpl.Access.Assign
import Wqpl.Arith.Agreement
import Wqpl.Arith.Canonical
import Wqpl.Vm.PureSteps

namespace Wqpl

/-- The arithmetic operator. -/
def BinaryOperator.arith : BinaryOperator → Option ArithOp
  | .add => some .add
  | .subtract => some .subtract
  | .multiply => some .multiply
  | .divide => some .divide
  | .divideDot => some .divideDot
  | .modulo => some .modulo
  | .floorDiv => some .floorDiv
  | .power => some .power
  | .powerDot => some .powerDot
  | .bitAnd => some .bitAnd
  | .bitOr => some .bitOr
  | .bitXor => some .bitXor
  | .shl => some .shl
  | .shr => some .shr
  | _ => none

/-- `cmp_atom` and equality on two integers. -/
def compareInts (op : BinaryOperator) (x y : Int64) : Option Bool :=
  let ord := compare x.toInt y.toInt
  match op with
  | .equal | .equalDot => some (x = y)
  | .notEqual | .notEqualDot => some (x ≠ y)
  | .lt => some (ord = .lt)
  | .lte => some (ord ≠ .gt)
  | .gt => some (ord = .gt)
  | .gte => some (ord ≠ .lt)
  | _ => none

/-- `eval_binary` on two integers; `none` where it panics, and for the products
of matrices and the concatenation. -/
def evalInts (numbers : NumberOps) (op : BinaryOperator) (x y : Int64) : Option (WqResult Value) :=
  match op.arith with
  | some a => (a.eval numbers (.int x) (.int y)).run
  | none => (compareInts op x y).map fun b => .ok (.bool b)

/-- `call_cas_callable` on positional arguments. -/
def callCasCallable (substituteCas : SubstituteCas) (kind : CasKind) (args : List Value) :
    WqResult Value :=
  match args with
  | [] => .ok (.cas kind)
  | [arg] =>
    match PureCallback.inferSingleCasVar (.cas kind) with
    | some var => substituteCas kind var arg
    | none => .error .domain
  | _ => .error .arity

/-- The operations `base`, with operators on integers, indexing and calls of
symbolic expressions as they are computed. -/
def Ops.computing {W : Type} (base : Ops W) (numbers : NumberOps) (substituteCas : SubstituteCas) :
    Ops W :=
  { base with
    binary := fun op l r =>
      match l, r with
      | .int x, .int y => (evalInts numbers op x y).getD (base.binary op l r)
      | l, r => base.binary op l r
    intDivide := fun x y => .float (numbers.fdiv (.ofInt x.toInt) (.ofInt y.toInt))
    index := Value.index
    indexMany := Value.indexMany
    callCas := fun kind args =>
      if args.named = [] then callCasCallable substituteCas kind args.pos
      else base.callCas kind args }

section Computing

variable {W : Type} (base : Ops W) (numbers : NumberOps) (substituteCas : SubstituteCas)

theorem evalBinary_computing {op : BinaryOperator} {x y : Int64} {r : WqResult Value}
    (h : evalInts numbers op x y = some r) :
    Exec.evalBinary (base.computing numbers substituteCas) op (.int x) (.int y) = r := by
  by_cases hlt : op = .lt
  · subst hlt
    obtain rfl := Option.some.inj h
    simp only [Exec.evalBinary, compare_lt_iff_lt]
  · have hbinary : Exec.evalBinary (base.computing numbers substituteCas) op (.int x) (.int y) =
        (base.computing numbers substituteCas).binary op (.int x) (.int y) := by
      rw [Exec.evalBinary]
      · rintro _ _ rfl
        exact absurd rfl hlt
      · nofun
    rw [hbinary]
    simp only [Ops.computing, h, Option.getD_some]

/-! ### The operators of the fast path -/

/-- The word of the exact result is the result, if it fits. -/
theorem ofChecked_of_i64? {n : Int} {m : Int64} (h : i64? n = some m) :
    Value.ofChecked n = .int m := by
  rw [Value.ofChecked, h]

theorem shlI64Exact_eq (x : Int64) (shift : Nat) :
    shlI64Exact x shift = Value.fromBigint (x.toInt * 2 ^ shift) := by
  rw [shlI64Exact]
  split
  · rename_i hzero
    rw [hzero, Int.zero_mul]
    rfl
  · split
    · rename_i result hresult
      rw [Option.ite_none_right_eq_some] at hresult
      rw [Value.fromBigint, hresult.2]
    · rfl

theorem shrI64Exact_eq (x : Int64) (shift : Nat) :
    shrI64Exact x shift = Value.fromBigint (x.toInt / 2 ^ shift) := by
  have hx := x.le_toInt
  have hx' := x.toInt_lt
  have hpow : (0 : Int) < 2 ^ shift := by positivity
  have hlower : -2 ^ 63 ≤ x.toInt / 2 ^ shift := by
    rw [Int.le_ediv_iff_mul_le hpow]
    nlinarith
  have hupper : x.toInt / 2 ^ shift < 2 ^ 63 := by
    rw [Int.ediv_lt_iff_lt_mul hpow]
    nlinarith
  have hfits : i64? (x.toInt / 2 ^ shift) = some (Int64.ofInt (x.toInt / 2 ^ shift)) :=
    if_pos ⟨hlower, hupper⟩
  rw [shrI64Exact, Value.fromBigint, hfits]
  split
  · -- a shift by 64 or more leaves the sign
    rename_i hshift
    have hbig : (2 : Int) ^ 64 ≤ 2 ^ shift := by gcongr; decide
    split
    · have hquot : x.toInt / 2 ^ shift = -1 := by
        rw [Int.ediv_eq_iff_of_pos hpow]
        constructor <;> omega
      rw [hquot]
      rfl
    · have hquot : x.toInt / 2 ^ shift = 0 := Int.ediv_eq_zero_of_lt (by omega) (by omega)
      rw [hquot]
      rfl
  · rfl

variable {numbers} in
theorem evalInts_atoms {op : BinaryOperator} {a : ArithOp} (h : op.arith = some a) (x y : Int64) :
    evalInts numbers op x y = (a.atoms numbers (.int x) (.int y)).run := by
  rw [evalInts, h]
  exact congrArg ExceptT.run (eval_atoms numbers a (.int x) (.int y))

theorem exponent_run {n : Int} (h : 0 ≤ n ∧ n < 2 ^ 32) :
    (exponent n).run = some (.ok n.toNat) := by
  rw [exponent, u32?, if_pos h]
  rfl

/-- **Operators on integers.** -/
theorem intFastPath_computing : IntFastPath (base.computing numbers substituteCas) := by
  intro op x y v h
  refine evalBinary_computing base numbers substituteCas ?_
  have hzero : ¬y.toInt = 0 → y ≠ 0 := fun hne hy => hne (by rw [hy]; rfl)
  rcases op
  case add | subtract | multiply =>
    obtain ⟨n, hn, rfl⟩ := Option.map_eq_some_iff.mp h
    rw [evalInts_atoms rfl]
    exact congrArg (fun v => some (Except.ok v)) (ofChecked_of_i64? hn)
  case divide =>
    obtain ⟨hne, hv⟩ := Option.ite_none_right_eq_some.mp h
    have hisZero : ¬isZero (.int y) = true := fun hz => hzero hne ((isZero_int y).mp hz)
    rw [evalInts_atoms rfl, ← Option.some.inj hv]
    simp only [ArithOp.atoms, divAtoms, if_neg hisZero]
    rfl
  case modulo =>
    obtain ⟨hne, hv⟩ := Option.ite_none_left_eq_some.mp h
    rw [not_or] at hne
    have hrem : rem? x y = some (Int64.ofInt (x.toInt.tmod y.toInt)) :=
      if_neg (not_or.mpr ⟨hzero hne.1, hne.2⟩)
    rw [evalInts_atoms rfl, ← Option.some.inj hv, ArithOp.atoms, modAtoms_int (hzero hne.1), hrem]
    rfl
  case floorDiv =>
    obtain ⟨hne, hv⟩ := Option.ite_none_left_eq_some.mp h
    rw [not_or] at hne
    rw [evalInts_atoms rfl, ← Option.some.inj hv, ArithOp.atoms, floorDivAtoms,
      if_neg (hzero hne.1), if_neg hne.2, floorQuotient?_eq (hzero hne.1) hne.2]
    rfl
  case shl =>
    obtain ⟨hs, hv⟩ := Option.ite_none_right_eq_some.mp h
    have hrun : (shlAtoms numbers (.int x) (.int y)).run =
        ((fun k => shlI64Exact x k) <$> exponent y.toInt).run := rfl
    rw [evalInts_atoms rfl, ← Option.some.inj hv, ArithOp.atoms, hrun, ExceptT.run_map,
      exponent_run hs]
    exact congrArg (fun v => some (Except.ok v)) (shlI64Exact_eq x _)
  case shr =>
    obtain ⟨hs, hv⟩ := Option.ite_none_right_eq_some.mp h
    have hrun : (shrAtoms numbers (.int x) (.int y)).run =
        ((fun k => shrI64Exact x k) <$> exponent y.toInt).run := rfl
    rw [evalInts_atoms rfl, ← Option.some.inj hv, ArithOp.atoms, hrun, ExceptT.run_map,
      exponent_run hs]
    exact congrArg (fun v => some (Except.ok v)) (shrI64Exact_eq x _)
  case bitAnd | bitOr | bitXor =>
    rw [evalInts_atoms rfl, ← Option.some.inj h]
    rfl
  case lt =>
    rw [← Option.some.inj h]
    simp only [evalInts, BinaryOperator.arith, compareInts, Option.map_some, compare_lt_iff_lt]
  case lte =>
    rw [← Option.some.inj h]
    simp only [evalInts, BinaryOperator.arith, compareInts, Option.map_some, ne_eq, compare_gt_iff_gt,
      not_lt]
  case gt =>
    rw [← Option.some.inj h]
    simp only [evalInts, BinaryOperator.arith, compareInts, Option.map_some, compare_gt_iff_gt]
  case gte =>
    rw [← Option.some.inj h]
    simp only [evalInts, BinaryOperator.arith, compareInts, Option.map_some, ne_eq, compare_lt_iff_lt,
      not_lt]
  case equal | equalDot | notEqual | notEqualDot =>
    rw [← Option.some.inj h]
    rfl
  case power | powerDot | divideDot | matmul | cat => cases h

theorem indexesNoCas_computing : IndexesNoCas (base.computing numbers substituteCas) where
  index _ _ := rfl
  indexMany kind keys := by
    rcases keys with _ | ⟨key, _ | ⟨key', keys⟩⟩ <;> rfl

end Computing

end Wqpl
