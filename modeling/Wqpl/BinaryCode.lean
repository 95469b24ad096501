/-
# Binary polynomials as numbers

A polynomial over two elements is a natural number with one coefficient in each
slot of 16 bits, of which only the parity counts. As long as no sum of
coefficients leaves its slot, the product of the numbers is the product of the
polynomials (`poly_mul`), so that a product modulo a polynomial takes three
products of numbers (`mulMod_spec`), and a power the squarings of its exponent
(`powMod_spec`).

Key definitions: `poly`, `Modulus`, `mulMod`, `powMod`, `certify`.
-/
import Mathlib

namespace Wqpl

open Polynomial

namespace BinaryCode

/-- The number of values of a slot. -/
def slot : Nat := 2 ^ 16

/-- The polynomial of a number. -/
noncomputable def poly (a : Nat) : (ZMod 2)[X] := Nat.ofDigits X (Nat.digits slot a)

@[simp] theorem poly_zero : poly 0 = 0 := by simp [poly, Nat.ofDigits]

theorem poly_eq (a : Nat) : poly a = ((a % slot : Nat) : (ZMod 2)[X]) + X * poly (a / slot) := by
  rcases Nat.eq_zero_or_pos a with rfl | ha
  · simp
  · rw [poly, Nat.digits_def' (by decide) ha, Nat.ofDigits]
    rfl

@[simp] theorem poly_one : poly 1 = 1 := by
  rw [poly_eq]
  simp [slot]

theorem poly_slot : poly slot = X := by
  rw [poly_eq, Nat.mod_self, Nat.div_self (by decide)]
  simp

/-- Only the parity of a coefficient counts. -/
theorem natCast_congr {m n : Nat} (h : m % 2 = n % 2) :
    (m : (ZMod 2)[X]) = (n : (ZMod 2)[X]) := by
  have hcast : (m : ZMod 2) = n := (ZMod.natCast_eq_natCast_iff' m n 2).mpr h
  rw [← C_eq_natCast, ← C_eq_natCast, hcast]

/-- A number with the given last slot and the given other slots. -/
theorem poly_cons {c a : Nat} (hc : c < slot) :
    poly (c + slot * a) = (c : (ZMod 2)[X]) + X * poly a := by
  rw [poly_eq, Nat.add_mul_mod_self_left, Nat.mod_eq_of_lt hc,
    Nat.add_mul_div_left _ _ (by decide), Nat.div_eq_of_lt hc, Nat.zero_add]

theorem poly_xor (a b : Nat) : poly (a ^^^ b) = poly a + poly b := by
  induction hn : a + b using Nat.strong_induction_on generalizing a b with
  | _ n ih =>
    by_cases hzero : a + b = 0
    · obtain ⟨rfl, rfl⟩ : a = 0 ∧ b = 0 := by omega
      simp
    · have hless : a / slot + b / slot < n := by
        have ha := Nat.div_le_self a slot
        have hb := Nat.div_le_self b slot
        rcases Nat.eq_zero_or_pos a with rfl | hpos
        · have := Nat.div_lt_self (n := b) (k := slot) (by omega) (by decide)
          omega
        · have := Nat.div_lt_self (k := slot) hpos (by decide)
          omega
      have hlast : (((a ^^^ b) % slot : Nat) : (ZMod 2)[X])
          = ((a % slot : Nat) : (ZMod 2)[X]) + ((b % slot : Nat) : (ZMod 2)[X]) := by
        rw [← Nat.cast_add]
        refine natCast_congr ?_
        have hparity : ∀ c : Nat, c % slot % 2 = c % 2 := fun c =>
          Nat.mod_mod_of_dvd c (by decide)
        rw [hparity, Nat.add_mod, hparity, hparity]
        have := Nat.xor_mod_two_pow (a := a) (b := b) (n := 1)
        rw [Nat.pow_one] at this
        rw [this]
        rcases Nat.mod_two_eq_zero_or_one a with ha | ha <;>
          rcases Nat.mod_two_eq_zero_or_one b with hb | hb <;> simp [ha, hb]
      have hrest : (a ^^^ b) / slot = a / slot ^^^ b / slot := Nat.xor_div_two_pow
      rw [poly_eq (a ^^^ b), poly_eq a, poly_eq b, hlast, hrest, ih _ hless _ _ rfl]
      ring

/-! ## Heights -/

/-- No slot of the number holds more than the given height. -/
def Height (h a : Nat) : Prop := ∀ i, a / slot ^ i % slot ≤ h

theorem Height.zero (h : Nat) : Height h 0 := fun i => by simp

theorem Height.last {h a : Nat} (ha : Height h a) : a % slot ≤ h := by simpa using ha 0

theorem Height.rest {h a : Nat} (ha : Height h a) : Height h (a / slot) := fun i => by
  rw [Nat.div_div_eq_div_mul, ← Nat.pow_succ']
  exact ha (i + 1)

theorem Height.cons {h c a : Nat} (hc : c < slot) (hle : c ≤ h) (ha : Height h a) :
    Height h (c + slot * a)
  | 0 => by
    rw [Nat.pow_zero, Nat.div_one, Nat.add_mul_mod_self_left, Nat.mod_eq_of_lt hc]
    exact hle
  | i + 1 => by
    rw [Nat.pow_succ', ← Nat.div_div_eq_div_mul, Nat.add_mul_div_left _ _ (by decide),
      Nat.div_eq_of_lt hc, Nat.zero_add]
    exact ha i

/-- A number is its last slot and the others. -/
theorem eq_cons (a : Nat) : a = a % slot + slot * (a / slot) := (Nat.mod_add_div a slot).symm

/-- A sum that leaves no slot is the sum of the polynomials. -/
theorem poly_add (n : Nat) : ∀ {g h a b : Nat}, a < slot ^ n → Height g a → Height h b →
    g + h < slot → poly (a + b) = poly a + poly b ∧ Height (g + h) (a + b) := by
  induction n with
  | zero =>
    intro g h a b ha _ hb _
    obtain rfl : a = 0 := by simpa using ha
    rw [Nat.zero_add, poly_zero, zero_add]
    exact ⟨rfl, fun i => Nat.le_add_left_of_le (hb i)⟩
  | succ n ih =>
    intro g h a b ha hga hhb hlt
    have hrest : a / slot < slot ^ n := Nat.div_lt_of_lt_mul (by rwa [← Nat.pow_succ'])
    obtain ⟨hpoly, hheight⟩ := ih hrest hga.rest hhb.rest hlt
    have hlast : a % slot + b % slot ≤ g + h := Nat.add_le_add hga.last hhb.last
    have hsum : a + b = (a % slot + b % slot) + slot * (a / slot + b / slot) := by
      conv_lhs => rw [eq_cons a, eq_cons b]
      ring
    rw [hsum]
    refine ⟨?_, Height.cons (by omega) hlast hheight⟩
    rw [poly_cons (by omega), hpoly, poly_eq a, poly_eq b, Nat.cast_add]
    ring

/-- The product of numbers with one bit a slot, as long as no sum of coefficients leaves
its slot. -/
theorem poly_mul {a : Nat} (ha : Height 1 a) : ∀ {n b : Nat}, Height 1 b → b < slot ^ n →
    n < slot → poly (a * b) = poly a * poly b ∧ Height n (a * b) := by
  intro n
  induction n with
  | zero =>
    intro b _ hlt _
    obtain rfl : b = 0 := by simpa using hlt
    simpa using Height.zero 0
  | succ n ih =>
    intro b hb hlt hn
    have hrest : b / slot < slot ^ n := Nat.div_lt_of_lt_mul (by rwa [← Nat.pow_succ'])
    obtain ⟨hpoly, hheight⟩ := ih hb.rest hrest (by omega)
    have hshift : poly (slot * (a * (b / slot))) = X * (poly a * poly (b / slot)) := by
      have := poly_cons (c := 0) (a := a * (b / slot)) (by decide)
      simpa [hpoly] using this
    have hup : Height n (slot * (a * (b / slot))) := by
      have := Height.cons (c := 0) (by decide) (Nat.zero_le n) hheight
      simpa using this
    have hsplit : a * b = a * (b % slot) + slot * (a * (b / slot)) := by
      conv_lhs => rw [eq_cons b]
      ring
    have hbit : b % slot = 0 ∨ b % slot = 1 := by have := hb.last; omega
    rcases hbit with hbit | hbit
    · rw [hsplit, hbit, Nat.mul_zero, Nat.zero_add, hshift, poly_eq b, hbit]
      refine ⟨by push_cast; ring, fun i => Nat.le_succ_of_le (hup i)⟩
    · rw [hsplit, hbit, Nat.mul_one]
      obtain ⟨m, hm⟩ : ∃ m, a < slot ^ m := ⟨a, Nat.lt_pow_self (by decide)⟩
      obtain ⟨hsum, hheights⟩ := poly_add m hm ha hup (by omega)
      rw [hsum, hshift, poly_eq b, hbit, Nat.add_comm n 1]
      exact ⟨by push_cast; ring, hheights⟩

/-! ## One bit a slot -/

/-- The number with a one in each of the given number of slots. -/
def ones (n : Nat) : Nat := (slot ^ n - 1) / (slot - 1)

theorem ones_eq (n : Nat) : ones n = ∑ i ∈ Finset.range n, slot ^ i :=
  (Nat.geomSum_eq (by decide) n).symm

theorem ones_succ (n : Nat) : ones (n + 1) = 1 + slot * ones n := by
  rw [ones_eq, ones_eq, Finset.sum_range_succ', Finset.mul_sum, Nat.pow_zero, Nat.add_comm]
  exact congrArg (1 + ·) (Finset.sum_congr rfl fun i _ => Nat.pow_succ')

theorem land_ones_succ (n a : Nat) :
    a &&& ones (n + 1) = a % slot % 2 + slot * (a / slot &&& ones n) := by
  have hlast : (a &&& ones (n + 1)) % slot = a % slot % 2 := by
    have hone : ones (n + 1) % slot = 1 := by
      rw [ones_succ, Nat.add_mul_mod_self_left]
      rfl
    have hmod := Nat.and_mod_two_pow (a := a) (b := ones (n + 1)) (n := 16)
    rw [show (2 : Nat) ^ 16 = slot from rfl, hone, Nat.and_one_is_mod] at hmod
    exact hmod
  have hslots : (a &&& ones (n + 1)) / slot = a / slot &&& ones n := by
    have hone : ones (n + 1) / slot = ones n := by
      rw [ones_succ, Nat.add_mul_div_left _ _ (by decide)]
      simp [slot]
    have hdiv := Nat.and_div_two_pow (a := a) (b := ones (n + 1)) (n := 16)
    rw [show (2 : Nat) ^ 16 = slot from rfl, hone] at hdiv
    exact hdiv
  conv_lhs => rw [eq_cons (a &&& ones (n + 1)), hlast, hslots]

theorem lastBit_lt (a : Nat) : a % slot % 2 < slot :=
  Nat.lt_trans (Nat.mod_lt _ (by decide)) (by decide)

theorem height_land_ones : ∀ n a : Nat, Height 1 (a &&& ones n) := by
  intro n
  induction n with
  | zero =>
    intro a
    rw [show ones 0 = 0 from rfl, Nat.and_zero]
    exact Height.zero 1
  | succ n ih =>
    intro a
    rw [land_ones_succ]
    exact Height.cons (lastBit_lt a) (Nat.le_of_lt_succ (Nat.mod_lt _ (by decide))) (ih _)

/-- The last bit of each slot keeps the polynomial. -/
theorem poly_land_ones : ∀ {n a : Nat}, a < slot ^ n → poly (a &&& ones n) = poly a := by
  intro n
  induction n with
  | zero =>
    intro a ha
    obtain rfl : a = 0 := by simpa using ha
    simp
  | succ n ih =>
    intro a ha
    have hrest : a / slot < slot ^ n := Nat.div_lt_of_lt_mul (by rwa [← Nat.pow_succ'])
    rw [land_ones_succ, poly_cons (lastBit_lt a), ih hrest, poly_eq a,
      natCast_congr (m := a % slot % 2) (n := a % slot) (Nat.mod_mod _ _)]

/-! ## From the bits of a number -/

/-- The number whose slots are the given number of bits of another. -/
def expand : Nat → Nat → Nat
  | 0, _ => 0
  | n + 1, a => a % 2 + slot * expand n (a / 2)

theorem height_expand : ∀ n a : Nat, Height 1 (expand n a)
  | 0, _ => Height.zero 1
  | n + 1, a => Height.cons (Nat.lt_trans (Nat.mod_lt a (by decide)) (by decide))
      (Nat.le_of_lt_succ (Nat.mod_lt _ (by decide))) (height_expand n (a / 2))

theorem expand_lt : ∀ n a : Nat, expand n a < slot ^ n
  | 0, _ => Nat.one_pos
  | n + 1, a => by
    have hrest := expand_lt n (a / 2)
    have hbit : a % 2 < 2 := Nat.mod_lt a (by decide)
    have hslot : 2 < slot := by decide
    have hslots := Nat.mul_le_mul_left slot (Nat.succ_le_of_lt hrest)
    rw [Nat.mul_succ] at hslots
    rw [expand, Nat.pow_succ']
    omega

theorem poly_expand_succ (n a : Nat) :
    poly (expand (n + 1) a) = ((a % 2 : Nat) : (ZMod 2)[X]) + X * poly (expand n (a / 2)) :=
  poly_cons (Nat.lt_trans (Nat.mod_lt a (by decide)) (by decide))

/-! ## Products modulo a polynomial -/

/-- A number with one bit in each of fewer slots than the bound allows. -/
structure Operand (n a : Nat) : Prop where
  height : Height 1 a
  lt : a < slot ^ n

theorem Operand.xor {n a b : Nat} (ha : Operand n a) (hb : Operand n b) :
    Operand n (a ^^^ b) := by
  have hslot : ∀ k, slot ^ k = 2 ^ (16 * k) := fun k => by rw [slot, ← Nat.pow_mul]
  refine ⟨fun i => ?_, ?_⟩
  · have hcut : (a ^^^ b) / slot ^ i % slot
        = (a / slot ^ i % slot) ^^^ (b / slot ^ i % slot) := by
      rw [hslot i, Nat.xor_div_two_pow]
      exact Nat.xor_mod_two_pow
    have hbits : ∀ c d : Nat, c ≤ 1 → d ≤ 1 → c ^^^ d ≤ 1 := fun c d hc hd =>
      Nat.le_of_lt_succ (Nat.xor_lt_two_pow (n := 1) (Nat.lt_succ_of_le hc)
        (Nat.lt_succ_of_le hd))
    rw [hcut]
    exact hbits _ _ (ha.height i) (hb.height i)
  · have hlt := ha.lt
    have hlt' := hb.lt
    rw [hslot] at hlt hlt' ⊢
    exact Nat.xor_lt_two_pow hlt hlt'

theorem operand_expand (n a : Nat) : Operand n (expand n a) :=
  ⟨height_expand n a, expand_lt n a⟩

/-- A polynomial to reduce by, with its constants: the mask of twice the slots, and an
estimate that only the length of the remainders depends on. -/
structure Modulus where
  slots : Nat
  divisor : Nat
  estimate : Nat
  mask : Nat
  mask_eq : mask = ones (slots + slots)
  operand : Operand slots divisor
  slots_lt : slots < slot

namespace Modulus

variable (m : Modulus)

/-- The product of two numbers as a polynomial. -/
theorem poly_product {a b : Nat} (ha : Operand m.slots a) (hb : Operand m.slots b) :
    poly (a * b) = poly a * poly b ∧ a * b < slot ^ (m.slots + m.slots) := by
  refine ⟨(poly_mul ha.height hb.height hb.lt m.slots_lt).1, ?_⟩
  rw [Nat.pow_add]
  exact Nat.mul_lt_mul_of_lt_of_le ha.lt hb.lt.le (Nat.pow_pos (by decide))

/-- Evaluates its argument before the function reads it. -/
def strict {α : Type} (f : Nat → α) : Nat → α
  | 0 => f 0
  | n + 1 => f (n + 1)

theorem strict_eq {α : Type} (f : Nat → α) (a : Nat) : strict f a = f a := by
  cases a <;> rfl

/-- The product modulo the divisor, with a quotient read off the leading slots. -/
def mulMod (a b : Nat) : Option Nat :=
  strict (fun product =>
    strict (fun quotient =>
      strict (fun remainder =>
        if quotient < slot ^ m.slots ∧ remainder < slot ^ m.slots then some remainder else none)
      ((product ^^^ quotient * m.divisor) &&& m.mask))
    ((product / slot ^ (m.slots - 1) * m.estimate / slot ^ (m.slots - 1)) &&& m.mask))
  (a * b &&& m.mask)

variable {R : Type} [Semiring R] (φ : (ZMod 2)[X] →+* R)

/-- Wherever the divisor vanishes, the remainder is the product. -/
theorem mulMod_spec (hroot : φ (poly m.divisor) = 0) {a b r : Nat} (ha : Operand m.slots a)
    (hb : Operand m.slots b) (h : m.mulMod a b = some r) :
    Operand m.slots r ∧ φ (poly r) = φ (poly a) * φ (poly b) := by
  simp only [mulMod, strict_eq, Option.ite_none_right_eq_some, Option.some.injEq,
    m.mask_eq] at h
  generalize hp : a * b &&& ones (m.slots + m.slots) = product at h
  generalize hq : (product / slot ^ (m.slots - 1) * m.estimate / slot ^ (m.slots - 1)) &&&
    ones (m.slots + m.slots) = q at h
  obtain ⟨⟨hqlt, hlt⟩, rfl⟩ := h
  have hquotient : Operand m.slots q := ⟨hq ▸ height_land_ones _ _, hqlt⟩
  obtain ⟨hab, hablt⟩ := m.poly_product ha hb
  obtain ⟨hqd, hqdlt⟩ := m.poly_product hquotient m.operand
  have hproduct : poly product = poly a * poly b := by rw [← hp, poly_land_ones hablt, hab]
  have hproductlt : product < slot ^ (m.slots + m.slots) :=
    hp ▸ Nat.lt_of_le_of_lt Nat.and_le_left hablt
  have hslots : slot ^ (m.slots + m.slots) = 2 ^ (16 * (m.slots + m.slots)) := by
    rw [slot, ← Nat.pow_mul]
  have hxor : product ^^^ q * m.divisor < slot ^ (m.slots + m.slots) := by
    rw [hslots] at hproductlt hqdlt ⊢
    exact Nat.xor_lt_two_pow hproductlt hqdlt
  refine ⟨⟨height_land_ones _ _, hlt⟩, ?_⟩
  rw [poly_land_ones hxor, poly_xor, hproduct, hqd, map_add, map_mul, map_mul, hroot, mul_zero,
    add_zero]

/-- The power with the exponent's bits, the highest first, on top of the power so far. -/
def powBits (base : Nat) : List Bool → Nat → Option Nat
  | [], a => some a
  | bit :: bits, a =>
    match m.mulMod a a with
    | none => none
    | some square =>
      if bit then
        match m.mulMod square base with
        | none => none
        | some r => powBits base bits r
      else powBits base bits square

/-- The bits of an exponent below the given length, the highest first. -/
def bitsBelow (e : Nat) : Nat → List Bool
  | 0 => []
  | n + 1 => e.testBit n :: bitsBelow e n

/-- The power of the base whose exponent has the given length at most. -/
def powMod (base e length : Nat) : Option Nat := m.powBits base (bitsBelow e length) 1

theorem powBits_spec (hroot : φ (poly m.divisor) = 0) {base e : Nat}
    (hbase : Operand m.slots base) : ∀ {n a r : Nat}, Operand m.slots a →
    φ (poly a) = φ (poly base) ^ (e / 2 ^ n) → m.powBits base (bitsBelow e n) a = some r →
    Operand m.slots r ∧ φ (poly r) = φ (poly base) ^ e := by
  intro n
  induction n with
  | zero =>
    intro a r ha hpower h
    obtain rfl := Option.some.inj h
    rw [Nat.pow_zero, Nat.div_one] at hpower
    exact ⟨ha, hpower⟩
  | succ n ih =>
    intro a r ha hpower h
    have hhalf : e / 2 ^ n = 2 * (e / 2 ^ (n + 1)) + (e.testBit n).toNat := by
      rw [Nat.pow_succ, ← Nat.div_div_eq_div_mul, Nat.testBit_eq_decide_div_mod_eq]
      have := Nat.div_add_mod (e / 2 ^ n) 2
      rcases Nat.mod_two_eq_zero_or_one (e / 2 ^ n) with hbit | hbit <;>
        simp only [hbit] at this ⊢ <;> simp <;> omega
    rw [bitsBelow, powBits] at h
    cases hsquare : m.mulMod a a with
    | none => simp [hsquare] at h
    | some square =>
      rw [hsquare] at h
      obtain ⟨hoperand, hvalue⟩ := m.mulMod_spec φ hroot ha ha hsquare
      rw [hpower, ← pow_add, ← Nat.two_mul] at hvalue
      cases hbit : e.testBit n with
      | false =>
        simp only [hbit, Bool.false_eq_true, if_false] at h
        refine ih hoperand ?_ h
        rw [hvalue, hhalf, hbit]
        rfl
      | true =>
        simp only [hbit, if_true] at h
        cases hnext : m.mulMod square base with
        | none => simp [hnext] at h
        | some next =>
          rw [hnext] at h
          obtain ⟨hoperand', hvalue'⟩ := m.mulMod_spec φ hroot hoperand hbase hnext
          refine ih hoperand' ?_ h
          rw [hvalue', hvalue, hhalf, hbit]
          exact (pow_succ _ _).symm

theorem powMod_spec (hroot : φ (poly m.divisor) = 0) {base e length r : Nat}
    (hbase : Operand m.slots base) (hone : Operand m.slots 1) (hlength : e < 2 ^ length)
    (h : m.powMod base e length = some r) :
    Operand m.slots r ∧ φ (poly r) = φ (poly base) ^ e := by
  refine m.powBits_spec φ hroot hbase hone ?_ h
  rw [Nat.div_eq_of_lt hlength, poly_one, map_one, pow_zero]

/-- Whether the number times a power of the variable, less one, is one. -/
def certify (length e a : Nat) : Bool :=
  match m.powMod slot e length with
  | none => false
  | some power => m.mulMod a (power ^^^ 1) == some 1

/-- A certified power of the variable, less one, has an inverse wherever the divisor
vanishes. -/
theorem certify_spec (hroot : φ (poly m.divisor) = 0) (hslot : Operand m.slots slot)
    (hone : Operand m.slots 1) {length e a : Nat} (ha : Operand m.slots a)
    (hlength : e < 2 ^ length) (h : m.certify length e a = true) :
    φ (poly a) * (φ X ^ e + 1) = 1 := by
  rw [certify] at h
  cases hpower : m.powMod slot e length with
  | none => simp [hpower] at h
  | some power =>
    obtain ⟨hoperand, hvalue⟩ := m.powMod_spec φ hroot hslot hone hlength hpower
    simp only [hpower, beq_iff_eq] at h
    obtain ⟨-, hproduct⟩ := m.mulMod_spec φ hroot ha (hoperand.xor hone) h
    rw [poly_one, map_one, poly_xor, poly_one, map_add, map_one, hvalue, poly_slot] at hproduct
    exact hproduct.symm

end Modulus

end BinaryCode

end Wqpl
