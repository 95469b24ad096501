/-
# Building ranges

`make_range` builds the terms of an arithmetic progression from a start up to an
end, for integers and for characters; a range of characters counts the Unicode
scalar values, without the surrogates. The number of terms comes from a division
in unsigned arithmetic (`lt_rangeSteps_iff`), and the terms are exactly those
that precede the end (`Precedes`). Ranges of floats are a parameter.
-/
import Wqpl.Lex.Escape
import Wqpl.Range.IntRange

namespace Wqpl

open DoubleEnded

/-! ### Integers -/

def defaultIntStep (start stop : Int64) : Int64 := if stop.toInt < start.toInt then -1 else 1

/-- The step leads away from the end. -/
def PointsAway (start stop step : Int) : Prop :=
  start ≠ stop ∧ (start < stop ∧ step < 0 ∨ stop < start ∧ 0 < step)

instance (start stop step : Int) : Decidable (PointsAway start stop step) :=
  inferInstanceAs (Decidable (_ ∧ _))

def validateStepInt (start stop step : Int64) : WqResult Unit :=
  if step.toInt = 0 then .error .domain
  else if PointsAway start.toInt stop.toInt step.toInt then .error .domain
  else .ok ()

/-- `range_len_to_usize`, after the addition of one in `u64`. -/
def rangeLenToUsize (len : Nat) : WqResult Nat := if len < 2 ^ 64 then .ok len else .error .domain

/-- The terms of a progression with a step at a distance from its end. -/
def rangeSteps (diff step : Nat) (inclusive : Bool) : Nat :=
  if inclusive ∨ diff % step ≠ 0 then diff / step + 1 else diff / step

/-- The length of the range; `abs_diff` and `unsigned_abs` make both directions one. -/
def rangeLen (start stop step : Int64) (inclusive : Bool) : WqResult Nat :=
  if start = stop then .ok inclusive.toNat
  else rangeLenToUsize
    (rangeSteps (stop.toInt - start.toInt).natAbs step.toInt.natAbs inclusive)

/-- A number lies before the end in the direction of the step, or at the end. -/
def Precedes (step stop : Int) (inclusive : Bool) (x : Int) : Prop :=
  0 < step ∧ x < stop ∨ step < 0 ∧ stop < x ∨ inclusive ∧ x = stop

theorem lt_rangeSteps_iff {diff step : Nat} (hstep : 0 < step) (inclusive : Bool) (k : Nat) :
    k < rangeSteps diff step inclusive ↔ step * k < diff ∨ inclusive ∧ step * k = diff := by
  unfold rangeSteps
  have hle : k < diff / step + 1 ↔ step * k ≤ diff := by
    rw [Nat.lt_succ_iff, Nat.le_div_iff_mul_le hstep, Nat.mul_comm]
  have hexact : step * k = diff → diff % step = 0 := fun h => h ▸ Nat.mul_mod_right step k
  by_cases hincl : inclusive = true
  · rw [if_pos (.inl hincl), hle]
    simp only [hincl, true_and]
    omega
  by_cases hmod : diff % step = 0
  · rw [if_neg (by tauto)]
    obtain ⟨q, rfl⟩ := Nat.dvd_of_mod_eq_zero hmod
    simp only [hincl, Nat.mul_div_cancel_left _ hstep, Nat.mul_lt_mul_left hstep]
    simp
  · rw [if_pos (.inr hmod), hle]
    have hne : step * k ≠ diff := fun h => hmod (hexact h)
    simp only [hincl]
    omega

/-- The terms of the progression that the length counts are those that precede the end. -/
theorem lt_rangeSteps_iff_precedes {start stop step : Int} (hstep : step ≠ 0)
    (hne : start ≠ stop) (haway : ¬PointsAway start stop step) (inclusive : Bool) (k : Nat) :
    k < rangeSteps (stop - start).natAbs step.natAbs inclusive ↔
      Precedes step stop inclusive (start + step * k) := by
  rw [lt_rangeSteps_iff (Int.natAbs_pos.mpr hstep)]
  unfold Precedes
  rcases Int.lt_or_gt_of_ne hstep with hneg | hpos
  · obtain ⟨s, rfl⟩ : ∃ s : Nat, step = -s := ⟨step.natAbs, by omega⟩
    obtain ⟨d, rfl⟩ : ∃ d : Nat, start = stop + d :=
      ⟨(start - stop).natAbs, by unfold PointsAway at haway; omega⟩
    have hd : (stop - (stop + d)).natAbs = d := by omega
    have hmul : (-(s : Int)) * k = -((s * k : Nat) : Int) := by push_cast; ring
    rw [hd, Int.natAbs_neg, Int.natAbs_natCast, hmul]
    cases inclusive <;> simp only [Bool.false_eq_true, false_and, true_and, or_false] <;> omega
  · obtain ⟨s, rfl⟩ : ∃ s : Nat, step = s := ⟨step.natAbs, by omega⟩
    obtain ⟨d, rfl⟩ : ∃ d : Nat, stop = start + d :=
      ⟨(stop - start).natAbs, by unfold PointsAway at haway; omega⟩
    have hd : (start + d - start).natAbs = d := by omega
    have hmul : (s : Int) * k = ((s * k : Nat) : Int) := by push_cast; ring
    rw [hd, Int.natAbs_natCast, hmul]
    cases inclusive <;> simp only [Bool.false_eq_true, false_and, true_and, or_false] <;> omega

theorem rangeLen_spec {start stop step : Int64} {inclusive : Bool} {len : Nat}
    (hstep : step.toInt ≠ 0) (haway : ¬PointsAway start.toInt stop.toInt step.toInt)
    (h : rangeLen start stop step inclusive = .ok len) (k : Nat) :
    k < len ↔ Precedes step.toInt stop.toInt inclusive (start.toInt + step.toInt * k) := by
  unfold rangeLen at h
  split_ifs at h with heq
  · obtain rfl := Except.ok.inj h
    subst heq
    -- only the first term is at the end, and no term is before it
    have hzero : step.toInt * (k : Int) = 0 ↔ k = 0 := by simp [hstep]
    have hneg : step.toInt < 0 → step.toInt * (k : Int) ≤ 0 := fun h =>
      Int.mul_nonpos_of_nonpos_of_nonneg h.le (Int.natCast_nonneg k)
    have hpos : 0 < step.toInt → 0 ≤ step.toInt * (k : Int) := fun h =>
      Int.mul_nonneg h.le (Int.natCast_nonneg k)
    unfold Precedes
    cases inclusive <;> simp only [Bool.toNat_false, Bool.toNat_true, Bool.false_eq_true,
      false_and, true_and, or_false] <;> omega
  · unfold rangeLenToUsize at h
    split_ifs at h
    obtain rfl := Except.ok.inj h
    exact lt_rangeSteps_iff_precedes hstep (fun h => heq (Int64.toInt_inj.mp h)) haway inclusive k

theorem Precedes.between {start stop step : Int} {inclusive : Bool} {k : Nat} (hstep : step ≠ 0)
    (h : Precedes step stop inclusive (start + step * k)) :
    start ≤ start + step * k ∧ start + step * k ≤ stop ∨
      stop ≤ start + step * k ∧ start + step * k ≤ start := by
  unfold Precedes at h
  rcases Int.lt_or_gt_of_ne hstep with hneg | hpos
  · have := Int.mul_nonpos_of_nonpos_of_nonneg hneg.le (Int.natCast_nonneg k)
    omega
  · have := Int.mul_nonneg hpos.le (Int.natCast_nonneg k)
    omega

theorem validateStepInt_ok {start stop step : Int64} (h : validateStepInt start stop step = .ok ()) :
    step.toInt ≠ 0 ∧ ¬PointsAway start.toInt stop.toInt step.toInt := by
  unfold validateStepInt at h
  split_ifs at h with hzero haway
  exact ⟨hzero, haway⟩

/-- Every term of a range lies between its ends, so a machine integer holds it. -/
theorem rangeLen_fits {start stop step : Int64} {inclusive : Bool} {len : Nat}
    (hvalid : validateStepInt start stop step = .ok ())
    (hlen : rangeLen start stop step inclusive = .ok len) :
    ∀ i < len, InI64 (start.toInt + step.toInt * i) := by
  obtain ⟨hstep, haway⟩ := validateStepInt_ok hvalid
  intro i hi
  have hbetween := ((rangeLen_spec hstep haway hlen i).mp hi).between hstep
  exact InI64.between ⟨start.le_toInt, start.toInt_lt⟩ ⟨stop.le_toInt, stop.toInt_lt⟩ hbetween

def makeRangeInt (start stop step : Int64) (inclusive : Bool) : WqResult IntRangeData :=
  match hvalid : validateStepInt start stop step with
  | .error err => .error err
  | .ok () =>
    match hlen : rangeLen start stop step inclusive with
    | .error err => .error err
    | .ok len => .ok ⟨start, step, len, rangeLen_fits hvalid hlen⟩

/-- `validate_next_int`. -/
def validateNextInt (start next stop : Int64) (inclusive : Bool) : WqResult Unit := do
  let step ← match i64? (next.toInt - start.toInt) with
    | some step => .ok step
    | none => .error .domain
  validateStepInt start stop step
  let inBounds : Bool :=
    if 0 < step.toInt then
      if inclusive then next.toInt ≤ stop.toInt else next.toInt < stop.toInt
    else if inclusive then stop.toInt ≤ next.toInt
    else stop.toInt < next.toInt
  if inBounds then .ok () else .error .domain

/-! ### Characters -/

def surrogateStart : Nat := 0xD800

def surrogateEnd : Nat := 0xDFFF

def surrogateLen : Nat := surrogateEnd - surrogateStart + 1

def maxScalarIndex : Int := 0x10F7FF

/-- The number of scalar values before a character. -/
def charScalarIndex (c : Char) : Int64 :=
  let code := c.toNat
  .ofNat (if surrogateEnd < code then code - surrogateLen else code)

def charFromScalarIndex (index : Int64) : WqResult Char :=
  if ¬(0 ≤ index.toInt ∧ index.toInt ≤ maxScalarIndex) then .error .domain
  else
    let code := index.toInt.toNat
    let code := if surrogateStart ≤ code then code + surrogateLen else code
    match Lex.charFromU32 code with
    | some c => .ok c
    | none => .error .domain

def defaultCharStep (start stop : Char) : Int64 :=
  if (charScalarIndex stop).toInt < (charScalarIndex start).toInt then -1 else 1

def makeRangeChar (start stop : Char) (step : Int64) (inclusive : Bool) : WqResult Value := do
  let start := charScalarIndex start
  let stop := charScalarIndex stop
  validateStepInt start stop step
  let range ← makeRangeInt start stop step inclusive
  return .string (String.ofList (← range.toVec.mapM charFromScalarIndex))

/-- `validate_next_char`. -/
def validateNextChar (start next stop : Char) (inclusive : Bool) : WqResult Unit :=
  validateNextInt (charScalarIndex start) (charScalarIndex next) (charScalarIndex stop) inclusive

/-! ### Ranges of values -/

section Make

variable (makeRangeFloat : Value → Value → Option Value → Bool → WqResult Value)
  (makeRangeFloatFromNext : Value → Value → Value → Bool → WqResult Value)

def makeRange (start stop : Value) (step : Option Value) (inclusive : Bool) : WqResult Value :=
  match start, stop, step with
  | .int s, .int e, none => do
    return .intRange (← makeRangeInt s e (defaultIntStep s e) inclusive)
  | .int s, .int e, some (.int st) => do return .intRange (← makeRangeInt s e st inclusive)
  | .char s, .char e, none => makeRangeChar s e (defaultCharStep s e) inclusive
  | .char s, .char e, some (.int st) => makeRangeChar s e st inclusive
  | .char _, .char _, some _ => .error .domain
  | .char _, _, _ | _, .char _, _ => .error .domain
  | start, stop, step => makeRangeFloat start stop step inclusive

def makeRangeFromNext (start next stop : Value) (inclusive : Bool) : WqResult Value :=
  match start, next, stop with
  | .int s, .int n, .int e =>
    match i64? (n.toInt - s.toInt) with
    | none => .error .domain
    | some step => do
      validateNextInt s n e inclusive
      return .intRange (← makeRangeInt s e step inclusive)
  | .char s, .char n, .char e => do
    let step := charScalarIndex n - charScalarIndex s
    validateNextChar s n e inclusive
    makeRangeChar s e step inclusive
  | .char _, _, _ | _, .char _, _ | _, _, .char _ => .error .domain
  | start, next, stop => makeRangeFloatFromNext start next stop inclusive

end Make

end Wqpl
