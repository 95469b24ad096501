/-
# The order of atoms

`cmpAtom` compares exact numbers exactly and a float with an exact number after
rounding that one to a float. A NaN compares with nothing, and neither do values
of different kinds. Texts compare by their characters.
-/
import Wqpl.Cas.PolyRational

namespace Wqpl

/-- `BigInt::to_f64` and `Ratio::to_f64`. -/
structure ToF64 where
  bigInt : Int → Option F64
  fraction : ℚ → Option F64

namespace Value

def isFraction : Value → Bool
  | .fraction _ => true
  | _ => false

/-- The characters, if all items are characters. -/
def chars? (items : List Value) : Option (List Char) :=
  items.mapM fun
    | .char c => some c
    | _ => none

/-- Items that all are characters. -/
theorem exists_chars : ∀ {xs : List Value}, (∀ x ∈ xs, x.isChar = true) →
    ∃ cs : List Char, xs = cs.map .char
  | [], _ => ⟨[], rfl⟩
  | x :: xs, h => by
    obtain ⟨cs, rfl⟩ := exists_chars fun y hy => h y (List.mem_cons_of_mem x hy)
    have hx := h x List.mem_cons_self
    cases x with
    | char c => exact ⟨c :: cs, rfl⟩
    | _ => cases hx

/-- `try_to_rust_string`. -/
def tryToRustString : Value → Option (List Char)
  | .string s => some s.toList
  | .char c => some [c]
  | .list items => chars? items
  | v => if v.isUnit then some [] else none

end Value

section Compare

variable (toF64 : ToF64)

/-- `as_f64`. -/
def Value.asF64 : Value → Option F64
  | .int n => some (.ofInt n.toInt)
  | .bigInt n => toF64.bigInt n
  | .float f => some f
  | .fraction q => toF64.fraction q
  | _ => none

/-- `cmp_atom` with a fraction. -/
def cmpFraction (a b : Value) : Option Ordering :=
  match a.rationalParts, b.rationalParts with
  | some p, some q => some (compare (p.num * q.den) (q.num * p.den))
  | _, _ => do (← a.asF64 toF64).partialCmp (← b.asF64 toF64)

/-- `cmp_atom`. -/
def cmpAtom : Value → Value → Option Ordering
  | .int x, .int y => some (compare x.toInt y.toInt)
  | .bigInt x, .bigInt y => some (compare x y)
  | .bigInt x, .int y => some (compare x y.toInt)
  | .int x, .bigInt y => some (compare x.toInt y)
  | .float x, .float y => x.partialCmp y
  | .int x, .float y => (F64.ofInt x.toInt).partialCmp y
  | .float x, .int y => x.partialCmp (.ofInt y.toInt)
  | .bigInt x, .float y => do (← toF64.bigInt x).partialCmp y
  | .float x, .bigInt y => do x.partialCmp (← toF64.bigInt y)
  | .char x, .char y => some (compare x y)
  | .tag x, .tag y => some (compare x.toList y.toList)
  | .string a, .string b => some (compare a.toList b.toList)
  | .string a, .list b => do return compare a.toList (← Value.chars? b)
  | .list a, .string b => do return compare (← Value.chars? a) b.toList
  | a, b => if a.isFraction || b.isFraction then cmpFraction toF64 a b else none

variable {toF64} {a b : Value} {p q : ℚ}

theorem compare_intCast (m n : ℤ) : compare (m : ℚ) (n : ℚ) = compare m n := by
  rcases lt_trichotomy m n with h | h | h
  · rw [compare_lt_iff_lt.mpr h, compare_lt_iff_lt.mpr (Int.cast_lt.mpr h)]
  · rw [h, compare_eq_iff_eq.mpr rfl, compare_eq_iff_eq.mpr rfl]
  · rw [compare_gt_iff_gt.mpr h, compare_gt_iff_gt.mpr (Int.cast_lt.mpr h)]

/-- Fractions compare through their common denominator. -/
theorem compare_num_den (p q : ℚ) : compare (p.num * q.den) (q.num * p.den) = compare p q := by
  rcases lt_trichotomy p q with h | h | h
  · rw [compare_lt_iff_lt.mpr h, compare_lt_iff_lt.mpr (Rat.lt_iff p q |>.mp h)]
  · rw [h, compare_eq_iff_eq.mpr rfl, compare_eq_iff_eq.mpr rfl]
  · rw [compare_gt_iff_gt.mpr h, compare_gt_iff_gt.mpr (Rat.lt_iff q p |>.mp h)]

/-- **The order of exact numbers** is that of the rationals. -/
theorem cmpAtom_exact (ha : a.Is p) (hb : b.Is q) : cmpAtom toF64 a b = some (compare p q) := by
  have hfraction : cmpFraction toF64 a b = some (compare p q) := by
    rw [cmpFraction, show a.rationalParts = some p from ha, show b.rationalParts = some q from hb]
    exact congrArg some (compare_num_den p q)
  rcases a <;> simp only [Value.Is, Value.rationalParts, Option.some.injEq, reduceCtorEq] at ha <;>
    rcases b <;> simp only [Value.Is, Value.rationalParts, Option.some.injEq, reduceCtorEq] at hb
  case int.int | int.bigInt | bigInt.int | bigInt.bigInt =>
    rw [← ha, ← hb, compare_intCast, cmpAtom]
  all_goals exact hfraction

end Compare

end Wqpl
