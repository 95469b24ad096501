/-
# Bounded random integers

The draws that `accept` keeps are a whole number of rounds through the width, so
that each value of the interval has the same number of them (`accept_count`).
Since the generator runs through every state that is not zero, it comes to a
state whose draw no width rejects, so that the loop ends (`exists_below`). The
value is in the interval, also in the widest one (`intRange_uniform`).
-/
import Mathlib.Data.Int.CardIntervalMod
import Wqpl.Rng.Period

namespace Wqpl

namespace RngState

variable {upper : Word}

theorem toNat_pos (h : upper ≠ 0#64) : 0 < upper.toNat := by
  rcases Nat.eq_zero_or_pos upper.toNat with hzero | hpos
  · exact absurd (BitVec.eq_of_toNat_eq hzero) h
  · exact hpos

/-- The draws that are rejected are those that fill no whole round. -/
theorem threshold_eq (h : upper ≠ 0#64) : (-upper % upper).toNat = 2 ^ 64 % upper.toNat := by
  have hpos := toNat_pos h
  have hlt := upper.isLt
  have hneg : (2 ^ 64 - upper.toNat) % 2 ^ 64 = 2 ^ 64 - upper.toNat :=
    Nat.mod_eq_of_lt (by omega)
  rw [BitVec.toNat_umod, BitVec.toNat_neg, hneg]
  exact (Nat.mod_eq_sub_mod hlt.le).symm

theorem accept_eq_some (h : upper ≠ 0#64) {value offset : Word} :
    accept upper value = some offset ↔
      2 ^ 64 % upper.toNat ≤ value.toNat ∧ value.toNat % upper.toNat = offset.toNat := by
  unfold accept
  rw [Option.ite_none_right_eq_some, BitVec.le_def, threshold_eq h, Option.some.injEq,
    ← BitVec.toNat_inj, BitVec.toNat_umod]

/-- As many numbers of each remainder as there are rounds, from wherever they start. -/
theorem card_rounds (start rounds : Nat) {width : Nat} (hpos : 0 < width) (r : Nat) :
    ((Finset.Ico start (start + width * rounds)).filter (· ≡ r [MOD width])).card = rounds := by
  have hcount := Nat.Ico_filter_modEq_card start (start + width * rounds) hpos r
  have hwidth : (width : ℚ) ≠ 0 := Nat.cast_ne_zero.mpr hpos.ne'
  have hshift : (((start + width * rounds : Nat) : ℚ) - r) / width
      = ((start : ℚ) - r) / width + (rounds : Int) := by
    push_cast
    field_simp
    ring
  rw [hshift, Int.ceil_add_intCast, add_sub_cancel_left, max_eq_left (Int.natCast_nonneg _)]
    at hcount
  exact_mod_cast hcount

/-- Each offset below the width has the same number of accepted draws. -/
theorem accept_count (h : upper ≠ 0#64) {offset : Word} (hlt : offset < upper) :
    (Finset.univ.filter fun value => accept upper value = some offset).card
      = 2 ^ 64 / upper.toNat := by
  have hend : 2 ^ 64 % upper.toNat + upper.toNat * (2 ^ 64 / upper.toNat) = 2 ^ 64 :=
    Nat.mod_add_div _ _
  have hoffset : offset.toNat % upper.toNat = offset.toNat := Nat.mod_eq_of_lt hlt
  rw [← card_rounds (2 ^ 64 % upper.toNat) (2 ^ 64 / upper.toNat) (toNat_pos h) offset.toNat, hend]
  refine Finset.card_bij (fun value _ => value.toNat) ?_ ?_ ?_
  · intro value hvalue
    obtain ⟨hle, hmod⟩ := (accept_eq_some h).mp (Finset.mem_filter.mp hvalue).2
    refine Finset.mem_filter.mpr ⟨Finset.mem_Ico.mpr ⟨hle, value.isLt⟩, ?_⟩
    rw [Nat.ModEq, hmod, hoffset]
  · intro _ _ _ _ heq
    exact BitVec.eq_of_toNat_eq heq
  · intro n hn
    obtain ⟨hrange, hmod⟩ := Finset.mem_filter.mp hn
    obtain ⟨hle, hn64⟩ := Finset.mem_Ico.mp hrange
    rw [Nat.ModEq, hoffset] at hmod
    have hvalue : (BitVec.ofNat 64 n).toNat = n := by
      rw [BitVec.toNat_ofNat, Nat.mod_eq_of_lt hn64]
    refine ⟨BitVec.ofNat 64 n, Finset.mem_filter.mpr ⟨Finset.mem_univ _, ?_⟩, hvalue⟩
    rw [accept_eq_some h, hvalue]
    exact ⟨hle, hmod⟩

/-! ## The end of the loop -/

/-- A state whose draw no width rejects. -/
def loud : RngState := ⟨0x8000000000000000#64, 0#64, 0#64, 0#64⟩

theorem exists_accept_loud (h : upper ≠ 0#64) :
    ∃ offset, accept upper loud.output = some offset := by
  refine ⟨loud.output % upper, (accept_eq_some h).mpr ⟨?_, (BitVec.toNat_umod).symm⟩⟩
  have hpos := toNat_pos h
  have hlt := upper.isLt
  have hthreshold : 2 ^ 64 % upper.toNat ≤ 2 ^ 63 := by
    rcases Nat.lt_or_ge (2 ^ 63) upper.toNat with hwide | hnarrow
    · rw [Nat.mod_eq_sub_mod hlt.le, Nat.mod_eq_of_lt (by omega)]
      omega
    · exact Nat.le_trans (Nat.mod_lt _ hpos).le hnarrow
  exact Nat.le_trans hthreshold (by decide)

/-- One turn of the loop. -/
theorem below_succ (fuel : Nat) (s : RngState) :
    below upper (fuel + 1) s = match accept upper s.output with
      | some value => some (value, s.advance)
      | none => below upper fuel s.advance := rfl

/-- The loop ends where the draws come to one that is accepted. -/
theorem below_of_accept {n : Nat} : ∀ {s : RngState} {offset : Word},
    accept upper (advance^[n] s).output = some offset →
    ∃ fuel offset s', below upper fuel s = some (offset, s') := by
  induction n with
  | zero =>
    intro s offset h
    rw [Function.iterate_zero, id] at h
    exact ⟨1, offset, s.advance, by rw [below_succ, h]⟩
  | succ n ih =>
    intro s offset h
    rw [Function.iterate_succ_apply] at h
    obtain ⟨fuel, later, s', hloop⟩ := ih h
    cases hfirst : accept upper s.output with
    | none => exact ⟨fuel + 1, later, s', by rw [below_succ, hfirst, hloop]⟩
    | some first => exact ⟨1, first, s.advance, by rw [below_succ, hfirst]⟩

/-- What the loop returns was accepted. -/
theorem accept_of_below {fuel : Nat} : ∀ {s s' : RngState} {offset : Word},
    below upper fuel s = some (offset, s') → ∃ value, accept upper value = some offset := by
  induction fuel with
  | zero => exact nofun
  | succ fuel ih =>
    intro s s' offset h
    rw [below_succ] at h
    cases hfirst : accept upper s.output with
    | none =>
      rw [hfirst] at h
      exact ih h
    | some first =>
      rw [hfirst] at h
      obtain rfl : first = offset := congrArg Prod.fst (Option.some.inj h)
      exact ⟨s.output, hfirst⟩

theorem exists_below (h : upper ≠ 0#64) {s : RngState} (hs : s ≠ 0) :
    ∃ fuel offset s', below upper fuel s = some (offset, s') ∧ offset < upper := by
  obtain ⟨n, hn⟩ := exists_advance_eq hs (v := loud) (by decide)
  obtain ⟨first, hfirst⟩ := exists_accept_loud h
  obtain ⟨fuel, offset, s', hloop⟩ := below_of_accept (n := n) (s := s) (by rwa [hn])
  obtain ⟨value, haccept⟩ := accept_of_below hloop
  refine ⟨fuel, offset, s', hloop, ?_⟩
  rw [BitVec.lt_def, ← ((accept_eq_some h).mp haccept).2]
  exact Nat.mod_lt _ (toNat_pos h)

/-! ## Intervals -/

section Interval

variable {lower upper : Int64}

/-- The width of an interval is a positive `u64`, also that of the widest. -/
theorem exists_width (h : lower < upper) : ∃ width : Word,
    u64? (upper.toInt - lower.toInt) = some width ∧ width ≠ 0#64 ∧
      (width.toNat : Int) = upper.toInt - lower.toInt := by
  have hlt := Int64.lt_iff_toInt_lt.mp h
  have hlow := lower.le_toInt
  have hhigh := upper.toInt_lt
  have hwidth : ((BitVec.ofInt 64 (upper.toInt - lower.toInt)).toNat : Int)
      = upper.toInt - lower.toInt := by
    rw [BitVec.toNat_ofInt, Int.toNat_of_nonneg (Int.emod_nonneg _ (by decide))]
    exact Int.emod_eq_of_lt (by omega) (by omega)
  refine ⟨_, if_pos (by omega), fun hzero => ?_, hwidth⟩
  rw [hzero, BitVec.toNat_zero] at hwidth
  omega

/-- An offset below the width stays inside the interval. -/
theorem exists_value {width offset : Word}
    (hwidth : (width.toNat : Int) = upper.toInt - lower.toInt) (hlt : offset < width) : ∃ v : Int64, i64? (lower.toInt + offset.toNat) = some v ∧
      lower ≤ v ∧ v < upper := by
  have hoffset : offset.toNat < width.toNat := hlt
  have hlow := lower.le_toInt
  have hhigh := upper.toInt_lt
  have hin : InI64 (lower.toInt + offset.toNat) := ⟨by omega, by omega⟩
  have hv : (Int64.ofInt (lower.toInt + offset.toNat)).toInt = lower.toInt + offset.toNat :=
    Int64.toInt_ofInt_of_le hin.1 hin.2
  refine ⟨Int64.ofInt (lower.toInt + offset.toNat), if_pos hin, ?_, ?_⟩
  · rw [Int64.le_iff_toInt_le, hv]
    omega
  · rw [Int64.lt_iff_toInt_lt, hv]
    omega

/-- The generator never degenerates, a bounded draw ends with a value inside the interval,
and every value of the interval has the same number of accepted draws. -/
theorem intRange_uniform (lower upper : Int64) (h : lower < upper) :
    (∀ seed n, draws seed n ≠ 0) ∧
    (∀ s : RngState, s ≠ 0 → ∃ fuel v s', s.intRange fuel lower upper = some (v, s') ∧
      lower ≤ v ∧ v < upper) ∧
    ∃ width count, u64? (upper.toInt - lower.toInt) = some width ∧ 0 < count ∧
      ∀ v : Int64, lower ≤ v → v < upper →
        (Finset.univ.filter fun value => (accept width value).bind (fun offset =>
          i64? (lower.toInt + offset.toNat)) = some v).card = count := by
  obtain ⟨width, hsome, hne, hwidth⟩ := exists_width h
  refine ⟨draws_ne_zero, fun s hs => ?_, width, 2 ^ 64 / width.toNat, hsome, ?_,
    fun v hle hlt => ?_⟩
  · obtain ⟨fuel, offset, s', hloop, hoffset⟩ := exists_below hne hs
    obtain ⟨v, hv, hin⟩ := exists_value hwidth hoffset
    refine ⟨fuel, v, s', ?_, hin⟩
    rw [intRange, hsome]
    simp only [hloop, hv, Option.map_some]
  · exact Nat.div_pos width.isLt.le (toNat_pos hne)
  · rw [Int64.le_iff_toInt_le] at hle
    rw [Int64.lt_iff_toInt_lt] at hlt
    -- the one offset that gives the value
    obtain ⟨offset, hoffset⟩ := Int.eq_ofNat_of_zero_le (sub_nonneg.mpr hle)
    have hbound : offset < 2 ^ 64 := by have := width.isLt; omega
    have hnumber : (BitVec.ofNat 64 offset).toNat = offset := by
      rw [BitVec.toNat_ofNat, Nat.mod_eq_of_lt hbound]
    have hbelow : BitVec.ofNat 64 offset < width := by
      rw [BitVec.lt_def, hnumber]
      omega
    rw [← accept_count hne hbelow]
    refine congrArg Finset.card (Finset.filter_congr fun value _ => ?_)
    rw [Option.bind_eq_some_iff]
    constructor
    · rintro ⟨other, haccept, hvalue⟩
      have hother : other.toNat = offset := by
        have := i64?_some_iff.mp hvalue
        omega
      rw [haccept, ← hother, BitVec.ofNat_toNat, BitVec.setWidth_eq]
    · intro haccept
      exact ⟨_, haccept, i64?_some_iff.mpr (by rw [hnumber]; omega)⟩

theorem intRange_uniform_widest :
    (∀ seed n, draws seed n ≠ 0) ∧
    (∀ s : RngState, s ≠ 0 → ∃ fuel v s', s.intRange fuel Int64.minValue Int64.maxValue
      = some (v, s') ∧ Int64.minValue ≤ v ∧ v < Int64.maxValue) ∧
    ∃ width count, u64? (Int64.maxValue.toInt - Int64.minValue.toInt) = some width ∧ 0 < count ∧
      ∀ v : Int64, Int64.minValue ≤ v → v < Int64.maxValue →
        (Finset.univ.filter fun value => (accept width value).bind (fun offset =>
          i64? (Int64.minValue.toInt + offset.toNat)) = some v).card = count :=
  intRange_uniform Int64.minValue Int64.maxValue (by decide)

end Interval

end RngState

end Wqpl
