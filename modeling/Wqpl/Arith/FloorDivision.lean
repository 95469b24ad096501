/-
# Floor division and remainder

The remainder of two integers is that of the quotient rounded towards zero, with
the sign of the dividend, in any mixture of machine and big integers; only the
smallest machine integer by -1 stops the program. The floor division of machine
integers rounds down. So the two fit together where the quotient is exact or not
negative, and elsewhere the remainder goes with the quotient above
(`floorDiv_modulo`). A floor division with a big integer goes through floats.
-/
import Wqpl.Arith.Agreement
import Wqpl.Arith.Canonical

namespace Wqpl

def IntAtom.toInt : IntAtom → Int
  | .int n => n.toInt
  | .bigInt n => n

/-- The smallest machine integer by -1. -/
def IntAtom.Overflows (a b : IntAtom) : Prop := IsOverflow a.toValue b.toValue

def IntAtom.isMachine : IntAtom → Bool
  | .int _ => true
  | .bigInt _ => false

variable (ops : NumberOps)

theorem isZero_toValue (a : IntAtom) : isZero a.toValue = true ↔ a.toInt = 0 := by
  cases a <;> simp [isZero, IntAtom.toValue, IntAtom.toInt]

theorem fromBigint_toInt (n : Int64) : Value.fromBigint n.toInt = .int n := by
  rw [Value.fromBigint, i64?_some_iff.mpr rfl]

theorem fromBigint_inj {n m : Int} (h : Value.fromBigint n = Value.fromBigint m) : n = m := by
  unfold Value.fromBigint at h
  rcases hn : i64? n with _ | x <;> rcases hm : i64? m with _ | y <;> rw [hn, hm] at h <;>
    cases h
  · rfl
  · rw [← i64?_some_iff.mp hn, ← i64?_some_iff.mp hm]

theorem int_ne_zero {y : Int64} (h : (IntAtom.int y).toInt ≠ 0) : y ≠ 0 := by
  rintro rfl
  exact h rfl

/-- The remainder has the sign of the dividend. -/
theorem modAtoms_eq {a b : IntAtom} (hb : b.toInt ≠ 0) (h : ¬a.Overflows b) :
    (modAtoms ops a.toValue b.toValue).run = some (.ok (.fromBigint (a.toInt.tmod b.toInt))) := by
  have hzero : ¬isZero b.toValue = true := fun hzero => hb ((isZero_toValue b).mp hzero)
  cases a with
  | int x =>
    cases b with
    | int y =>
      have hy := int_ne_zero hb
      have hrem : rem? x y = some (Int64.ofInt (x.toInt.tmod y.toInt)) := by
        unfold rem?
        rw [if_neg (not_or.mpr ⟨hy, fun hmin => h (isOverflow_int.mpr hmin)⟩)]
      show (modAtoms ops (.int x) (.int y)).run =
        some (.ok (.fromBigint (x.toInt.tmod y.toInt)))
      rw [modAtoms_int hy, hrem, ← toInt_ofInt_tmod x y hb, fromBigint_toInt]
      simp only [toInt_ofInt_tmod x y hb]
      rfl
    | bigInt y =>
      unfold modAtoms
      rw [if_neg hzero]
      rfl
  | bigInt x =>
    cases b <;>
    · unfold modAtoms
      rw [if_neg hzero]
      rfl

/-- A quotient by a positive number lies between zero and the dividend. -/
theorem ediv_between {a b : Int} (hb : 0 < b) : 0 ≤ a / b ∧ a / b ≤ a ∨ a ≤ a / b ∧ a / b ≤ 0 := by
  rcases Int.le_total 0 a with ha | ha
  · exact .inl ⟨Int.ediv_nonneg ha hb.le, Int.ediv_le_self b ha⟩
  · refine .inr ⟨(Int.le_ediv_iff_mul_le hb).mpr ?_, Int.ediv_nonpos_of_nonpos_of_neg ha hb⟩
    calc a * b ≤ a * 1 := Int.mul_le_mul_of_nonpos_left ha (by omega)
      _ = a := Int.mul_one a

theorem inI64_fdiv {x y : Int64} (hy : y ≠ 0) (h : ¬(x.toInt = -2 ^ 63 ∧ y.toInt = -1)) :
    InI64 (x.toInt.fdiv y.toInt) := by
  have hx := x.le_toInt
  have hx' := x.toInt_lt
  have hy0 : y.toInt ≠ 0 := fun hzero => hy (Int64.toInt_inj.mp hzero)
  unfold InI64
  rcases Int.lt_or_gt_of_ne hy0 with hneg | hpos
  · -- both signs turned, the quotient is at most half of 2^63 unless the divisor is -1
    rw [← Int.neg_fdiv_neg, Int.fdiv_eq_ediv_of_nonneg _ (by omega)]
    rcases eq_or_lt_of_le (show y.toInt ≤ -1 by omega) with hone | hlt
    · rw [hone, Int.neg_neg, Int.ediv_one]
      omega
    · have hbetween := @ediv_between (-x.toInt) (-y.toInt) (by omega)
      have hhalf : -x.toInt / -y.toInt ≤ 2 ^ 62 := Int.ediv_le_of_le_mul (by omega) (by omega)
      omega
  · rw [Int.fdiv_eq_ediv_of_nonneg _ hpos.le]
    have hbetween := @ediv_between x.toInt y.toInt hpos
    omega

/-- The quotient of machine integers rounded down. -/
theorem floorDivAtoms_eq {x y : Int64} (hy : y ≠ 0) :
    (floorDivAtoms ops (.int x) (.int y)).run =
      some (.ok (.fromBigint (x.toInt.fdiv y.toInt))) := by
  by_cases h : x.toInt = -2 ^ 63 ∧ y.toInt = -1
  · rw [floorDivAtoms, if_neg hy, if_pos h, h.1, h.2]
    rfl
  · rw [floorDivAtoms, if_neg hy, if_neg h, floorQuotient?_eq hy h, Value.fromBigint, i64?,
      if_pos (inI64_fdiv hy h)]
    rfl

theorem total_divAtoms_int (a b : IntAtom) : Total (divAtoms ops a.toValue b.toValue) := by
  refine total_ite (fun _ => total_throw _) fun _ => ?_
  cases a with
  | int x =>
    cases b with
    | int y => exact total_pure _
    | bigInt y => exact total_bind (total_bigToFloat y) fun _ => total_pure _
  | bigInt x =>
    cases b with
    | int y => exact total_bind (total_bigToFloat x) fun _ => total_pure _
    | bigInt y =>
      exact total_bind (total_bigToFloat x) fun _ =>
        total_bind (total_bigToFloat y) fun _ => total_pure _

/-- A floor division never stops the program. -/
theorem total_floorDivAtoms (a b : IntAtom) : Total (floorDivAtoms ops a.toValue b.toValue) := by
  have hfloat : Total (do floorFloat ops (← divAtoms ops a.toValue b.toValue)) :=
    total_bind (total_divAtoms_int ops a b) total_floorFloat
  cases a with
  | int x =>
    cases b with
    | int y =>
      by_cases hy : y = 0
      · rw [hy]
        exact total_throw _
      · show (floorDivAtoms ops (.int x) (.int y)).run ≠ none
        rw [floorDivAtoms_eq ops hy]
        nofun
    | bigInt y => exact hfloat
  | bigInt x => cases b <;> exact hfloat

/-- A divisor of zero is refused. -/
theorem floorDivAtoms_zero {a b : IntAtom} (hb : b.toInt = 0) :
    (floorDivAtoms ops a.toValue b.toValue).run = some (.error .zeroDiv) := by
  have hfloat : (do floorFloat ops (← divAtoms ops a.toValue b.toValue) : Checked Value).run =
      some (.error .zeroDiv) := by
    unfold divAtoms
    rw [if_pos ((isZero_toValue b).mpr hb)]
    rfl
  cases a with
  | int x =>
    cases b with
    | int y =>
      have hy : y = 0 := Int64.toInt_inj.mp hb
      rw [hy]
      rfl
    | bigInt y => exact hfloat
  | bigInt x => cases b <;> exact hfloat

theorem modAtoms_zero {a b : IntAtom} (hb : b.toInt = 0) :
    (modAtoms ops a.toValue b.toValue).run = some (.error .zeroDiv) := by
  unfold modAtoms
  rw [if_pos ((isZero_toValue b).mpr hb)]
  rfl

/-- The quotient rounded towards zero is the one rounded down or the one above. -/
theorem tdiv_eq_fdiv (x : Int) {y : Int} (hy : y ≠ 0) :
    x.tdiv y = if y ∣ x ∨ (0 ≤ x ↔ 0 ≤ y) then x.fdiv y else x.fdiv y + 1 := by
  have hfdiv := @Int.fdiv_eq_tdiv x y
  by_cases hdvd : y ∣ x
  · rw [if_pos hdvd, Int.sub_zero] at hfdiv
    rw [if_pos (.inl hdvd), hfdiv]
  rw [if_neg hdvd] at hfdiv
  rcases Int.lt_or_gt_of_ne hy with hneg | hpos
  · rw [Int.sign_eq_neg_one_of_neg hneg] at hfdiv
    simp only [hdvd, false_or]
    split_ifs at hfdiv ⊢ <;> omega
  · rw [Int.sign_eq_one_of_pos hpos] at hfdiv
    simp only [hdvd, false_or]
    split_ifs at hfdiv ⊢ <;> omega

end Wqpl
