/-
# Integer results are canonical

A big integer is the result of an operation on integers only where a machine
integer does not hold it (`Value.Canonical`). Every operation makes its big
results with `fromBigint`, except for the negation of a big integer: that of
2^63 is a big integer that a machine integer holds (`canonical_iff`).
-/
import Wqpl.Arith.Lists

namespace Wqpl

/-- Not a big integer that a machine integer holds. -/
def Value.Canonical (v : Value) : Prop := ∀ n, v = .bigInt n → ¬InI64 n

/-- An integer as an atom. -/
inductive IntAtom
  | int (n : Int64)
  | bigInt (n : Int)

def IntAtom.toValue : IntAtom → Value
  | .int n => .int n
  | .bigInt n => .bigInt n

/-- An operation on integers. -/
inductive IntOperation
  | negate (a : IntAtom)
  | not (a : IntAtom)
  | binary (op : ArithOp) (a b : IntAtom)

def IntOperation.eval (ops : NumberOps) : IntOperation → Checked Value
  | .negate a => neg ops a.toValue
  | .not a => not_ ops a.toValue
  | .binary op a b => op.eval ops a.toValue b.toValue

/-! ### Canonical values -/

section Canonical

theorem canonical_int (n : Int64) : (Value.int n).Canonical := by
  intro m h
  cases h

theorem canonical_fromBigint (n : Int) : (Value.fromBigint n).Canonical := by
  unfold Value.fromBigint i64?
  by_cases h : InI64 n
  · rw [if_pos h]
    exact canonical_int _
  · rw [if_neg h]
    intro m hm
    cases hm
    exact h

theorem canonical_ofChecked (n : Int) : (Value.ofChecked n).Canonical := by
  unfold Value.ofChecked
  split
  · exact canonical_int _
  · exact canonical_fromBigint n

theorem canonical_exactQuotient (x y : Int) : (exactQuotient x y).Canonical := by
  unfold exactQuotient
  split
  · exact canonical_fromBigint _
  · intro n h
    cases h

theorem canonical_shlI64Exact (x : Int64) (shift : Nat) : (shlI64Exact x shift).Canonical := by
  unfold shlI64Exact
  split
  · exact canonical_int 0
  · split
    · exact canonical_int _
    · exact canonical_fromBigint _

theorem canonical_shrI64Exact (x : Int64) (shift : Nat) : (shrI64Exact x shift).Canonical := by
  unfold shrI64Exact
  split <;> exact canonical_int _

/-! ### Computations with canonical results -/

/-- Every value the computation yields is canonical. -/
def Yields (c : Checked Value) : Prop := ∀ v, c.run = some (.ok v) → v.Canonical

theorem yields_pure {v : Value} (h : v.Canonical) : Yields (pure v) := by
  intro w hw
  cases hw
  exact h

theorem yields_throw (e : WqErrorType) : Yields (throw e) := by
  intro w hw
  cases hw

theorem yields_bind {α : Type} {c : Checked α} {f : α → Checked Value}
    (h : ∀ a, c.run = some (.ok a) → Yields (f a)) : Yields (c >>= f) := by
  intro v hv
  rw [ExceptT.run_bind] at hv
  cases hc : c.run with
  | none =>
    rw [hc] at hv
    cases hv
  | some r =>
    rw [hc] at hv
    cases r with
    | error e => cases hv
    | ok a => exact h a hc v hv

theorem yields_ite {p : Prop} [Decidable p] {c d : Checked Value} (hc : Yields c) (hd : Yields d) :
    Yields (if p then c else d) := by
  split
  · exact hc
  · exact hd

/-- A float is no big integer. -/
theorem canonical_float (f : F64) : (Value.float f).Canonical := by
  intro n h
  cases h

/-- A fraction is no big integer. -/
theorem canonical_fromFractionParts (numer denom : Int) :
    (Value.fromFractionParts numer denom).Canonical := by
  intro n h
  cases h

end Canonical

/-! ### The operations -/

section Operations

variable (ops : NumberOps)

theorem yields_divAtoms (a b : IntAtom) : Yields (divAtoms ops a.toValue b.toValue) := by
  refine yields_ite (yields_throw _) ?_
  cases a <;> cases b
  · exact yields_pure (canonical_float _)
  · exact yields_bind fun _ _ => yields_pure (canonical_float _)
  · exact yields_bind fun _ _ => yields_pure (canonical_float _)
  · exact yields_bind fun _ _ => yields_bind fun _ _ => yields_pure (canonical_float _)

theorem yields_divDotAtoms (a b : IntAtom) : Yields (divDotAtoms ops a.toValue b.toValue) := by
  refine yields_ite (yields_throw _) ?_
  cases a <;> cases b
  · refine yields_bind fun r _ => yields_ite ?_ ?_
    · exact yields_bind fun q _ => yields_pure (canonical_int q)
    · exact yields_pure (canonical_fromFractionParts _ _)
  · exact yields_pure (canonical_exactQuotient _ _)
  · exact yields_pure (canonical_exactQuotient _ _)
  · exact yields_pure (canonical_exactQuotient _ _)

theorem yields_modAtoms (a b : IntAtom) : Yields (modAtoms ops a.toValue b.toValue) := by
  refine yields_ite (yields_throw _) ?_
  cases a <;> cases b
  · exact yields_bind fun r _ => yields_pure (canonical_int r)
  · exact yields_pure (canonical_fromBigint _)
  · exact yields_pure (canonical_fromBigint _)
  · exact yields_pure (canonical_fromBigint _)

theorem yields_floorFloat {v : Value} (h : v.Canonical) : Yields (floorFloat ops v) := by
  cases v with
  | float f => exact yields_ite (yields_throw _) (yields_pure (canonical_int _))
  | _ => exact yields_pure h

theorem yields_floorDivAtoms (a b : IntAtom) : Yields (floorDivAtoms ops a.toValue b.toValue) := by
  have hfloat : ∀ a b : IntAtom,
      Yields (do floorFloat ops (← divAtoms ops a.toValue b.toValue)) := fun a b =>
    yields_bind fun v hv => yields_floorFloat ops (yields_divAtoms ops a b v hv)
  cases a with
  | int x =>
    cases b with
    | int y =>
      refine yields_ite (yields_throw _) (yields_ite ?_ ?_)
      · exact yields_pure (canonical_fromBigint _)
      · exact yields_bind fun q _ => yields_pure (canonical_int q)
    | bigInt y => exact hfloat (.int x) (.bigInt y)
  | bigInt x =>
    cases b with
    | int y => exact hfloat (.bigInt x) (.int y)
    | bigInt y => exact hfloat (.bigInt x) (.bigInt y)

theorem yields_powAtoms (a b : IntAtom) : Yields (powAtoms ops a.toValue b.toValue) := by
  cases a <;> cases b
  · refine yields_ite ?_ (yields_ite (yields_throw _) ?_)
    · exact yields_bind fun k _ => yields_pure (canonical_ofChecked _)
    · exact yields_pure (canonical_float _)
  · refine yields_ite (yields_ite (yields_throw _) ?_) ?_
    · exact yields_bind fun f _ => yields_pure (canonical_float _)
    · exact yields_bind fun k _ => yields_pure (canonical_fromBigint _)
  · refine yields_ite (yields_ite (yields_throw _) ?_) ?_
    · exact yields_bind fun f _ => yields_pure (canonical_float _)
    · exact yields_bind fun k _ => yields_pure (canonical_fromBigint _)
  · refine yields_ite (yields_ite (yields_throw _) ?_) ?_
    · exact yields_bind fun f _ => yields_bind fun g _ => yields_pure (canonical_float _)
    · exact yields_bind fun k _ => yields_pure (canonical_fromBigint _)

theorem yields_exactPower (base exp : Int) : Yields (exactPower base exp) := by
  refine yields_ite (yields_ite (yields_throw _) ?_) ?_
  · exact yields_bind fun k _ => yields_pure (canonical_fromFractionParts _ _)
  · exact yields_bind fun k _ => yields_pure (canonical_fromBigint _)

theorem yields_powDotAtoms (a b : IntAtom) : Yields (powDotAtoms ops a.toValue b.toValue) := by
  cases a with
  | int x =>
    cases b with
    | int y => exact yields_ite (yields_exactPower _ _) (yields_powAtoms ops (.int x) (.int y))
    | bigInt y => exact yields_exactPower _ _
  | bigInt x => cases b <;> exact yields_exactPower _ _

theorem yields_bitAtoms (op : BinaryOperator) (word : Int64 → Int64 → Int64)
    (big : Int → Int → Int) (bit : Bool → Bool → Bool) (a b : IntAtom) :
    Yields (bitAtoms ops op word big bit a.toValue b.toValue) := by
  cases a <;> cases b
  · exact yields_pure (canonical_int _)
  · exact yields_pure (canonical_fromBigint _)
  · exact yields_pure (canonical_fromBigint _)
  · exact yields_pure (canonical_fromBigint _)

theorem yields_shiftAtoms (op : BinaryOperator) {word : Int64 → Nat → Value}
    (hword : ∀ x shift, (word x shift).Canonical) (big : Int → Nat → Int) (a b : IntAtom) :
    Yields (shiftAtoms ops op word big a.toValue b.toValue) := by
  cases a <;> cases b
  · exact yields_bind fun shift _ => yields_pure (hword _ shift)
  · exact yields_bind fun shift _ => yields_pure (hword _ shift)
  · exact yields_bind fun shift _ => yields_pure (canonical_fromBigint _)
  · exact yields_bind fun shift _ => yields_pure (canonical_fromBigint _)

/-- Every binary operation has canonical results. -/
theorem yields_atoms (op : ArithOp) (a b : IntAtom) : Yields (op.atoms ops a.toValue b.toValue) := by
  cases op with
  | add | subtract | multiply =>
    cases a <;> cases b
    · exact yields_pure (canonical_ofChecked _)
    · exact yields_pure (canonical_fromBigint _)
    · exact yields_pure (canonical_fromBigint _)
    · exact yields_pure (canonical_fromBigint _)
  | divide => exact yields_divAtoms ops a b
  | divideDot => exact yields_divDotAtoms ops a b
  | modulo => exact yields_modAtoms ops a b
  | floorDiv => exact yields_floorDivAtoms ops a b
  | power => exact yields_powAtoms ops a b
  | powerDot => exact yields_powDotAtoms ops a b
  | bitAnd | bitOr | bitXor => exact yields_bitAtoms ops _ _ _ _ a b
  | shl => exact yields_shiftAtoms ops _ canonical_shlI64Exact _ a b
  | shr => exact yields_shiftAtoms ops _ canonical_shrI64Exact _ a b

/-- On atoms no path over packed lists applies. -/
theorem eval_atoms (op : ArithOp) (a b : IntAtom) :
    op.eval ops a.toValue b.toValue = op.atoms ops a.toValue b.toValue := by
  cases op <;> cases a <;> cases b <;> rfl

theorem neg_atom (a : IntAtom) : neg ops a.toValue = negAtom ops a.toValue := by
  cases a <;> rfl

theorem not_atom (a : IntAtom) : not_ ops a.toValue = notAtom ops a.toValue := by
  cases a <;> rfl

theorem negAtom_int (n : Int64) :
    negAtom ops (.int n) = pure (match i64? (-n.toInt) with
      | some m => .int m
      | none => .bigInt (-n.toInt)) := by
  rw [negAtom]
  cases i64? (-n.toInt) <;> rfl

/-- **Integer results are canonical**, except for the negation of a big integer
whose negation a machine integer holds. -/
theorem canonical_iff (e : IntOperation) :
    Yields (e.eval ops) ↔ ¬∃ n, e = .negate (.bigInt n) ∧ InI64 (-n) := by
  cases e with
  | negate a =>
    rw [IntOperation.eval, neg_atom]
    cases a with
    | int n =>
      refine ⟨fun _ => by simp, fun _ => ?_⟩
      show Yields (negAtom ops (.int n))
      rw [negAtom_int]
      refine yields_pure ?_
      unfold i64?
      by_cases h : InI64 (-n.toInt)
      · rw [if_pos h]
        exact canonical_int _
      · rw [if_neg h]
        intro m hm
        cases hm
        exact h
    | bigInt n =>
      constructor
      · rintro h ⟨m, hm, hfits⟩
        cases hm
        exact h (.bigInt (-n)) rfl (-n) rfl hfits
      · intro h
        refine yields_pure fun m hm hfits => h ⟨n, rfl, ?_⟩
        cases hm
        exact hfits
  | not a =>
    rw [IntOperation.eval, not_atom]
    refine ⟨fun _ => by simp, fun _ => ?_⟩
    cases a
    · exact yields_pure (canonical_int _)
    · exact yields_pure (canonical_fromBigint _)
  | binary op a b =>
    rw [IntOperation.eval, eval_atoms]
    exact ⟨fun _ => by simp, fun _ => yields_atoms ops op a b⟩

/-- The negation of 2^63 is a big integer. -/
theorem negate_not_canonical : ¬∀ (ops : NumberOps) (e : IntOperation), Yields (e.eval ops) := by
  intro h
  exact h .inert (.negate (.bigInt (2 ^ 63))) (.bigInt (-2 ^ 63)) rfl (-2 ^ 63) rfl (by decide)

end Operations

end Wqpl
