/-
# The random number generator

`value/rng.rs`: xoshiro256++ with SplitMix64 seed expansion. The words of the
state are combined by exclusive or, for which a step is a homomorphism that
only zero sends to zero (`advance_eq_zero`). The mix of a seed sends only zero to
zero too, so that the state from a seed is not all zero (`fromSeed_ne_zero`) and
no number of draws makes it so (`draws_ne_zero`).

Key definitions: `RngState`, `splitmix64`, `nextU64`, `below`, `intRange`.
-/
import Mathlib.Algebra.Group.Hom.Defs
import Mathlib.Data.Fintype.EquivFin
import Mathlib.Data.Fintype.Prod
import Mathlib.Tactic.Ring
import Wqpl.Value

namespace Wqpl

/-- A `u64`. -/
abbrev Word := BitVec 64

/-- A word is its number. -/
def wordNumber : Word ≃ Fin (2 ^ 64) := ⟨BitVec.toFin, BitVec.ofFin, fun _ => rfl, fun _ => rfl⟩

instance : Finite Word := Finite.of_equiv _ wordNumber.symm

noncomputable instance : Fintype Word := Fintype.ofFinite Word

theorem card_word : Fintype.card Word = 2 ^ 64 :=
  (Fintype.card_congr wordNumber).trans (Fintype.card_fin _)

/-- The state of xoshiro256++. -/
@[ext]
structure RngState where
  s0 : Word
  s1 : Word
  s2 : Word
  s3 : Word
deriving DecidableEq, Repr

/-- The mix of SplitMix64. -/
def mix (state : Word) : Word :=
  let value := (state ^^^ state >>> 30) * 0xbf58476d1ce4e5b9#64
  let value := (value ^^^ value >>> 27) * 0x94d049bb133111eb#64
  value ^^^ value >>> 31

/-- The next state of the seed and the word drawn from it. -/
def splitmix64 (state : Word) : Word × Word :=
  let state := state + 0x9e3779b97f4a7c15#64
  (state, mix state)

/-- `u64::try_from`. -/
def u64? (n : Int) : Option Word := if 0 ≤ n ∧ n < 2 ^ 64 then some (BitVec.ofInt 64 n) else none

namespace RngState

/-- `RngState::from_seed`. -/
def fromSeed (seed : Int64) : RngState :=
  let (seed, s0) := splitmix64 seed.toBitVec
  let (seed, s1) := splitmix64 seed
  let (seed, s2) := splitmix64 seed
  let (_, s3) := splitmix64 seed
  ⟨s0, s1, s2, s3⟩

/-- The word that a draw returns. -/
def output (s : RngState) : Word := (s.s0 + s.s3).rotateLeft 23 + s.s0

/-- The state that a draw leaves behind. -/
def advance (s : RngState) : RngState :=
  let t := s.s1 <<< 17
  let s2 := s.s2 ^^^ s.s0
  let s3 := s.s3 ^^^ s.s1
  let s1 := s.s1 ^^^ s2
  let s0 := s.s0 ^^^ s3
  ⟨s0, s1, s2 ^^^ t, s3.rotateLeft 45⟩

def nextU64 (s : RngState) : Word × RngState := (s.output, s.advance)

/-- The draws below `upper.wrapping_neg() % upper` are rejected. -/
def accept (upper value : Word) : Option Word :=
  if -upper % upper ≤ value then some (value % upper) else none

/-- `none` stands for a loop that has not ended. -/
def below (upper : Word) : Nat → RngState → Option (Word × RngState)
  | 0, _ => none
  | fuel + 1, s =>
    let (value, s) := s.nextU64
    match accept upper value with
    | some value => some (value, s)
    | none => below upper fuel s

/-- `none` stands for a failed `expect` too. -/
def intRange (fuel : Nat) (s : RngState) (lower upper : Int64) : Option (Int64 × RngState) :=
  match u64? (upper.toInt - lower.toInt) with
  | none => none
  | some width =>
    match below width fuel s with
    | none => none
    | some (offset, s) => (i64? (lower.toInt + offset.toNat)).map (·, s)

/-- The state after a number of draws. -/
def draws (seed : Int64) : Nat → RngState
  | 0 => fromSeed seed
  | n + 1 => (draws seed n).nextU64.2

example : ((draws 42 15).nextU64).1 = 10071993084810367336#64 := by decide

/-- A state is its four words. -/
def words : RngState ≃ Word × Word × Word × Word where
  toFun s := (s.s0, s.s1, s.s2, s.s3)
  invFun w := ⟨w.1, w.2.1, w.2.2.1, w.2.2.2⟩
  left_inv _ := rfl
  right_inv _ := rfl

instance : Finite RngState := Finite.of_equiv _ words.symm

noncomputable instance : Fintype RngState := Fintype.ofFinite RngState

theorem card_state : Fintype.card RngState = 2 ^ 256 := by
  rw [Fintype.card_congr words]
  simp only [Fintype.card_prod, card_word]
  rfl

/-! ## States as a group -/

instance : Zero RngState := ⟨⟨0#64, 0#64, 0#64, 0#64⟩⟩

instance : Add RngState :=
  ⟨fun a b => ⟨a.s0 ^^^ b.s0, a.s1 ^^^ b.s1, a.s2 ^^^ b.s2, a.s3 ^^^ b.s3⟩⟩

instance : Neg RngState := ⟨id⟩

theorem zero_eq : (0 : RngState) = ⟨0#64, 0#64, 0#64, 0#64⟩ := rfl

theorem add_eq (a b : RngState) :
    a + b = ⟨a.s0 ^^^ b.s0, a.s1 ^^^ b.s1, a.s2 ^^^ b.s2, a.s3 ^^^ b.s3⟩ := rfl

theorem neg_eq (a : RngState) : -a = a := rfl

instance : AddCommGroup RngState where
  add_assoc a b c := by simp only [add_eq, BitVec.xor_assoc]
  zero_add a := by simp [add_eq, zero_eq]
  add_zero a := by simp [add_eq, zero_eq]
  add_comm a b := by simp only [add_eq, BitVec.xor_comm]
  neg_add_cancel a := by simp [add_eq, neg_eq, zero_eq]
  nsmul := nsmulRec
  zsmul := zsmulRec

theorem add_self (a : RngState) : a + a = 0 := neg_add_cancel a

theorem rotateLeft_xor (a b : Word) (r : Nat) :
    (a ^^^ b).rotateLeft r = a.rotateLeft r ^^^ b.rotateLeft r := by
  refine BitVec.eq_of_getElem_eq fun i hi => ?_
  simp only [BitVec.getElem_rotateLeft, BitVec.getElem_xor]
  split <;> rfl

theorem rotateLeft_eq_zero {a : Word} (h : a.rotateLeft 45 = 0#64) : a = 0#64 := by
  have hbits : ∀ j, (a.rotateLeft 45).getLsbD j = false := fun j => by rw [h, BitVec.getLsbD_zero]
  refine BitVec.eq_of_getLsbD_eq fun i hi => ?_
  rw [BitVec.getLsbD_zero]
  by_cases hlow : i < 19
  · have hbit := hbits (i + 45)
    rw [BitVec.getLsbD_rotateLeft_of_le (by decide), decide_eq_false (by omega),
      decide_eq_true (by omega), Nat.add_sub_cancel] at hbit
    exact hbit
  · have hbit := hbits (i - 19)
    have hback : 64 - 45 + (i - 19) = i := by omega
    rw [BitVec.getLsbD_rotateLeft_of_le (by decide), decide_eq_true (by omega), hback] at hbit
    exact hbit

theorem advance_add (a b : RngState) : (a + b).advance = a.advance + b.advance := by
  refine RngState.ext ?_ ?_ ?_ ?_
  · show (a.s0 ^^^ b.s0) ^^^ ((a.s3 ^^^ b.s3) ^^^ (a.s1 ^^^ b.s1))
      = (a.s0 ^^^ (a.s3 ^^^ a.s1)) ^^^ (b.s0 ^^^ (b.s3 ^^^ b.s1))
    ac_rfl
  · show (a.s1 ^^^ b.s1) ^^^ ((a.s2 ^^^ b.s2) ^^^ (a.s0 ^^^ b.s0))
      = (a.s1 ^^^ (a.s2 ^^^ a.s0)) ^^^ (b.s1 ^^^ (b.s2 ^^^ b.s0))
    ac_rfl
  · show ((a.s2 ^^^ b.s2) ^^^ (a.s0 ^^^ b.s0)) ^^^ (a.s1 ^^^ b.s1) <<< 17
      = ((a.s2 ^^^ a.s0) ^^^ a.s1 <<< 17) ^^^ ((b.s2 ^^^ b.s0) ^^^ b.s1 <<< 17)
    rw [BitVec.shiftLeft_xor_distrib]
    generalize a.s1 <<< 17 = left
    generalize b.s1 <<< 17 = right
    ac_rfl
  · show ((a.s3 ^^^ b.s3) ^^^ (a.s1 ^^^ b.s1)).rotateLeft 45
      = (a.s3 ^^^ a.s1).rotateLeft 45 ^^^ (b.s3 ^^^ b.s1).rotateLeft 45
    rw [← rotateLeft_xor]
    refine congrArg (BitVec.rotateLeft · 45) ?_
    ac_rfl

/-- A word that a shift leaves as it is, is zero. -/
theorem eq_zero_of_shiftLeft {a : Word} (h : a = a <<< 17) : a = 0#64 := by
  have hdouble : a = a <<< 34 := by
    conv_lhs => rw [h, h]
    rw [← BitVec.shiftLeft_add]
  have hquadruple : a = a <<< 68 := by
    conv_lhs => rw [hdouble, hdouble]
    rw [← BitVec.shiftLeft_add]
  rw [hquadruple]
  exact BitVec.shiftLeft_eq_zero (by decide)

/-- Only zero is sent to zero. -/
theorem advance_eq_zero {s : RngState} (h : s.advance = 0) : s = 0 := by
  have h0 : s.s0 ^^^ (s.s3 ^^^ s.s1) = 0#64 := congrArg RngState.s0 h
  have h1 : s.s1 ^^^ (s.s2 ^^^ s.s0) = 0#64 := congrArg RngState.s1 h
  have h2 : (s.s2 ^^^ s.s0) ^^^ s.s1 <<< 17 = 0#64 := congrArg RngState.s2 h
  have h3 : (s.s3 ^^^ s.s1) = 0#64 := rotateLeft_eq_zero (congrArg RngState.s3 h)
  have hs0 : s.s0 = 0#64 := by rwa [h3, BitVec.xor_zero] at h0
  rw [hs0, BitVec.xor_zero] at h1 h2
  have hs12 : s.s1 = s.s2 := BitVec.xor_eq_zero_iff.mp h1
  have hs31 : s.s3 = s.s1 := BitVec.xor_eq_zero_iff.mp h3
  rw [← hs12] at h2
  have hs1 : s.s1 = 0#64 := eq_zero_of_shiftLeft (BitVec.xor_eq_zero_iff.mp h2)
  exact RngState.ext hs0 hs1 (hs12 ▸ hs1) (hs31.trans hs1)

theorem advance_zero : advance 0 = 0 := rfl

/-! ## The seed -/

theorem eq_zero_of_xor_shiftRight {a : Word} {n : Nat} (hn : 16 ≤ n) (h : a ^^^ a >>> n = 0#64) :
    a = 0#64 := by
  have hself : a = a >>> n := BitVec.xor_eq_zero_iff.mp h
  have hdouble : a = a >>> (n + n) := by
    conv_lhs => rw [hself, hself]
    rw [← BitVec.shiftRight_add]
  have hquadruple : a = a >>> (n + n + (n + n)) := by
    conv_lhs => rw [hdouble, hdouble]
    rw [← BitVec.shiftRight_add]
  rw [hquadruple]
  exact BitVec.ushiftRight_eq_zero (by omega)

theorem eq_zero_of_mul {a m w : Word} (hm : m * w = 1#64) (h : a * m = 0#64) : a = 0#64 := by
  calc a = a * (m * w) := by rw [hm, BitVec.mul_one]
    _ = 0#64 := by rw [← BitVec.mul_assoc, h, BitVec.zero_mul]

/-- Only zero is mixed to zero. -/
theorem mix_eq_zero {state : Word} (h : mix state = 0#64) : state = 0#64 := by
  have h1 := eq_zero_of_xor_shiftRight (by decide) h
  have h2 := eq_zero_of_mul (w := 3573116690164977347#64) (by decide) h1
  have h3 := eq_zero_of_xor_shiftRight (by decide) h2
  have h4 := eq_zero_of_mul (w := 10871156337175269513#64) (by decide) h3
  exact eq_zero_of_xor_shiftRight (by decide) h4

theorem fromSeed_ne_zero (seed : Int64) : fromSeed seed ≠ 0 := by
  intro h
  have h0 := mix_eq_zero (congrArg RngState.s0 h)
  have h1 := mix_eq_zero (congrArg RngState.s1 h)
  rw [h0] at h1
  cases h1

theorem draws_ne_zero (seed : Int64) : ∀ n, draws seed n ≠ 0
  | 0 => fromSeed_ne_zero seed
  | n + 1 => fun h => draws_ne_zero seed n (advance_eq_zero h)

end RngState

end Wqpl
