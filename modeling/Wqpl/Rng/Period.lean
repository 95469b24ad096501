/-
# The generator runs through every state that is not zero

A step of xoshiro256++ is linear over two elements, and the polynomial `divisor`
vanishes on the step (`aeval_divisor`). Modulo it the variable has the power
2 ^ 256, and its powers by 2 ^ 256 - 1 divided by a prime have an inverse when
one is taken off (`certificates`), so that the states that are not zero are one
orbit (`exists_advance_eq`).

Key definitions: `modulus`, `certificates`.
-/
import Mathlib.Algebra.Module.ZMod
import Mathlib.Algebra.Polynomial.AlgebraMap
import Mathlib.NumberTheory.LucasPrimality
import Mathlib.RingTheory.Ideal.Quotient.Operations
import Mathlib.Tactic.NormNum.Prime
import Mathlib.Tactic.ReduceModChar
import Wqpl.BinaryCode
import Wqpl.FullPeriod
import Wqpl.Rng.Xoshiro

namespace Wqpl

open Polynomial BinaryCode

namespace RngState

/-! ## The primes of the period -/

/-- Lucas's test with the factors of the number before. -/
theorem prime_of_lucas {p : Nat} (a : ZMod p) (factors : List Nat)
    (hprime : ∀ q ∈ factors, q.Prime) (hdvd : p - 1 ∣ factors.prod ^ 9)
    (hone : a ^ (p - 1) = 1) (hne : ∀ q ∈ factors, a ^ ((p - 1) / q) ≠ 1) : p.Prime := by
  refine lucas_primality p a hone fun q hq hqdvd => ?_
  obtain ⟨r, hr, hqr⟩ := (hq.prime.dvd_prod_iff).mp (hq.dvd_of_dvd_pow (hqdvd.trans hdvd))
  rw [(Nat.prime_dvd_prime_iff_eq hq (hprime r hr)).mp hqr]
  exact hne r hr

theorem prime_733803839347 : Nat.Prime 733803839347 := by
  refine prime_of_lucas 2 [2, 3, 2203, 55515497] (by norm_num) (by decide) ?_ ?_
  · reduce_mod_char
  · simp only [List.forall_mem_cons]
    refine ⟨?_, ?_, ?_, ?_, ?_⟩ <;> norm_num <;> reduce_mod_char <;> decide

theorem prime_18533742247 : Nat.Prime 18533742247 := by
  refine prime_of_lucas 6 [2, 3, 181, 1896229] (by norm_num) (by decide) ?_ ?_
  · reduce_mod_char
  · simp only [List.forall_mem_cons]
    refine ⟨?_, ?_, ?_, ?_, ?_⟩ <;> norm_num <;> reduce_mod_char <;> decide

theorem prime_116503103764643 : Nat.Prime 116503103764643 := by
  refine prime_of_lucas 2 [2, 7, 449, 18533742247] ?_ (by decide) ?_ ?_
  · simp only [List.forall_mem_cons, prime_18533742247]
    norm_num
  · reduce_mod_char
  · simp only [List.forall_mem_cons]
    refine ⟨?_, ?_, ?_, ?_, ?_⟩ <;> norm_num <;> reduce_mod_char <;> decide

theorem prime_67280421310721 : Nat.Prime 67280421310721 := by
  refine prime_of_lucas 3 [2, 5, 47, 373, 2998279] (by norm_num) (by decide) ?_ ?_
  · reduce_mod_char
  · simp only [List.forall_mem_cons]
    refine ⟨?_, ?_, ?_, ?_, ?_, ?_⟩ <;> norm_num <;> reduce_mod_char <;> decide

theorem prime_59649589127497217 : Nat.Prime 59649589127497217 := by
  refine prime_of_lucas 3 [2, 116503103764643] ?_ (by decide) ?_ ?_
  · simp only [List.forall_mem_cons, prime_116503103764643]
    norm_num
  · reduce_mod_char
  · simp only [List.forall_mem_cons]
    refine ⟨?_, ?_, ?_⟩ <;> norm_num <;> reduce_mod_char <;> decide

theorem prime_5704689200685129054721 : Nat.Prime 5704689200685129054721 := by
  refine prime_of_lucas 21 [2, 3, 5, 12497, 733803839347] ?_ (by decide) ?_ ?_
  · simp only [List.forall_mem_cons, prime_733803839347]
    norm_num
  · reduce_mod_char
  · simp only [List.forall_mem_cons]
    refine ⟨?_, ?_, ?_, ?_, ?_, ?_⟩ <;> norm_num <;> reduce_mod_char <;> decide

/-! ## The step as a linear map -/

instance : Module (ZMod 2) RngState :=
  AddCommGroup.zmodModule fun a => by rw [two_nsmul, add_self]

/-- The step on states. -/
def step : Module.End (ZMod 2) RngState :=
  AddMonoidHom.toZModLinearMap 2 (AddMonoidHom.mk' advance advance_add)

theorem step_apply (s : RngState) : step s = s.advance := rfl

theorem step_pow_apply (n : Nat) (s : RngState) : (step ^ n) s = advance^[n] s := by
  rw [Module.End.pow_apply]
  rfl

/-- The characteristic polynomial of the step, by its bits. -/
def characteristic : Nat :=
  115798716538066420455068828734077908777090750648323562404903972173143537152001

/-- The quotient of the variable's power 512 by the characteristic polynomial. -/
def estimate : Nat :=
  115798716462236620275139837364784163842376377456389669666835713109238159754377

def modulus : Modulus where
  slots := 257
  divisor := expand 257 characteristic
  estimate := expand 257 estimate
  mask := ones (257 + 257)
  mask_eq := rfl
  operand := operand_expand _ _
  slots_lt := by decide

/-- The polynomial with the given bits, at the step, on a state. -/
def combine (s : RngState) : Nat → Nat → RngState
  | 0, _ => 0
  | n + 1, a => (if a % 2 = 1 then s else 0) + (combine s n (a / 2)).advance

theorem aeval_expand (s : RngState) : ∀ n a : Nat,
    aeval step (poly (expand n a)) s = combine s n a
  | 0, _ => by simp [BinaryCode.expand, combine]
  | n + 1, a => by
    rw [poly_expand_succ, map_add, map_mul, aeval_X, map_natCast, LinearMap.add_apply,
      Module.End.mul_apply, aeval_expand s n (a / 2), step_apply, combine]
    refine congrArg (· + _) ?_
    rcases Nat.mod_two_eq_zero_or_one a with hbit | hbit <;> simp [hbit]

/-- A state from which all others are reached. -/
def unit : RngState := ⟨0, 0, 0, 1⟩

theorem aeval_divisor : aeval step (poly modulus.divisor) unit = 0 := by
  show aeval step (poly (expand 257 characteristic)) unit = 0
  rw [aeval_expand]
  decide +kernel

/-- The primes of 2 ^ 256 - 1, each with the inverse of the variable's power less one. -/
def certificates : List (Nat × Nat) :=
  [(3,
    38373520178097791684943366336456012603712921536183214402132921942189381965699),
   (5,
    4384426445939095924597427982802969713665598903842122073255769710606743205919),
   (17,
    110541785489121634118332740830866833243599279033506448544894358724282201046735),
   (257,
    44126305632520792786860708777746553288961840011855851091728988366567368805750),
   (641,
    39264373639335806360310168411117371156813249361714983888383607331397034094847),
   (65537,
    41364558615377796321236925488928968777520935874163467287884241121016861849919),
   (274177,
    16660084877603088988606459432931183206286717631952300401256307603774371687109),
   (6700417,
    12693949399860525965997211201124504574410961553597193866048805161284874112054),
   (67280421310721,
    88533940771238073175004357670013658451311214678294006315637054256668220558584),
   (59649589127497217,
    19469530048050167360678825071135847039656869457463300798095665008845516373222),
   (5704689200685129054721,
    5726328750835857029458229068837577261900092640816380810868545732223033545189)]

theorem certified : ∀ c ∈ certificates,
    modulus.certify 256 ((2 ^ 256 - 1) / c.1) (expand 257 c.2) = true := by
  simp only [certificates, List.forall_mem_cons]
  refine ⟨?_, ?_, ?_, ?_, ?_, ?_, ?_, ?_, ?_, ?_, ?_, nofun⟩ <;> decide +kernel

theorem powMod_frobenius : modulus.powMod slot (2 ^ 256) 257 = some slot := by decide +kernel

theorem prime_certificates : ∀ c ∈ certificates, c.1.Prime := by
  simp only [certificates, List.forall_mem_cons, prime_67280421310721, prime_59649589127497217,
    prime_5704689200685129054721]
  norm_num

theorem exists_certificate {p : Nat} (hp : p.Prime) (hdvd : p ∣ 2 ^ 256 - 1) :
    ∃ c ∈ certificates, c.1 = p := by
  have hprod : (certificates.map Prod.fst).prod = 2 ^ 256 - 1 := by decide
  rw [← hprod] at hdvd
  obtain ⟨q, hq, hpq⟩ := (hp.prime.dvd_prod_iff).mp hdvd
  obtain ⟨c, hc, rfl⟩ := List.mem_map.mp hq
  exact ⟨c, hc, ((Nat.prime_dvd_prime_iff_eq hp (prime_certificates c hc)).mp hpq).symm⟩

/-! ## The period -/

/-- The polynomials modulo the characteristic polynomial. -/
noncomputable def residue :
    (ZMod 2)[X] →+* (ZMod 2)[X] ⧸ Ideal.span {poly modulus.divisor} := Ideal.Quotient.mk _

theorem residue_divisor : residue (poly modulus.divisor) = 0 :=
  Ideal.Quotient.eq_zero_iff_mem.mpr (Ideal.mem_span_singleton_self _)

/-- Polynomials of the same residue do the same to the state. -/
theorem aeval_unit_eq {p q : (ZMod 2)[X]} (h : residue p = residue q) :
    aeval step p unit = aeval step q unit := by
  obtain ⟨c, hc⟩ := Ideal.mem_span_singleton.mp ((Ideal.Quotient.mk_eq_mk_iff_sub_mem p q).mp h)
  have hdiff : aeval step (p - q) unit = 0 := by
    rw [hc, mul_comm, map_mul, Module.End.mul_apply, aeval_divisor, map_zero]
  rwa [map_sub, LinearMap.sub_apply, sub_eq_zero] at hdiff

theorem operand_slot : Operand modulus.slots slot := by
  have h : expand 257 2 = slot := by decide +kernel
  exact h ▸ operand_expand 257 2

theorem operand_one : Operand modulus.slots 1 := by
  have h : expand 257 1 = 1 := by decide +kernel
  exact h ▸ operand_expand 257 1

theorem residue_frobenius : residue X ^ (2 ^ 256) = residue X := by
  have h := (modulus.powMod_spec residue residue_divisor operand_slot operand_one
    (Nat.pow_lt_pow_right (by decide) (by decide)) powMod_frobenius).2
  rw [poly_slot] at h
  exact h.symm

theorem advance_injective {a b : RngState} (h : a.advance = b.advance) : a = b := by
  have hsum : (a + b).advance = 0 := by rw [advance_add, h, add_self]
  have hzero := advance_eq_zero hsum
  rwa [← add_self b, add_left_inj] at hzero

/-- The step returns to the state after one number of steps less than a power that is the
variable. -/
theorem iterate_unit {n : Nat} (h : residue X ^ (n + 1) = residue X) :
    advance^[n] unit = unit := by
  rw [← map_pow] at h
  have hstep := aeval_unit_eq h
  rw [map_pow, aeval_X, step_pow_apply, step_apply, Function.iterate_succ_apply'] at hstep
  exact advance_injective hstep

theorem iterate_unit_ne {n : Nat} {c : (ZMod 2)[X]}
    (h : residue c * (residue X ^ n + 1) = 1) : advance^[n] unit ≠ unit := by
  intro hreturn
  rw [← map_pow, ← map_one residue, ← map_add, ← map_mul] at h
  have hunit := aeval_unit_eq h
  rw [map_mul, Module.End.mul_apply, map_add, map_pow, aeval_X, map_one, LinearMap.add_apply,
    step_pow_apply, hreturn, Module.End.one_apply, add_self, map_zero] at hunit
  cases hunit

/-- The states that are not all zero. -/
noncomputable def nonzero : Finset RngState := Finset.univ.erase 0

theorem mem_nonzero {s : RngState} : s ∈ nonzero ↔ s ≠ 0 := by simp [nonzero]

theorem card_nonzero : nonzero.card = 2 ^ 256 - 1 := by
  rw [nonzero, Finset.card_erase_of_mem (Finset.mem_univ _), Finset.card_univ, card_state]

/-- Every state that is not all zero is reached from every other. -/
theorem exists_advance_eq {u v : RngState} (hu : u ≠ 0) (hv : v ≠ 0) :
    ∃ n, advance^[n] u = v := by
  have hmaps : ∀ w ∈ nonzero, w.advance ∈ nonzero := fun w hw =>
    mem_nonzero.mpr fun h => mem_nonzero.mp hw (advance_eq_zero h)
  have hunit : unit ∈ nonzero := mem_nonzero.mpr (by decide)
  refine exists_iterate_eq hmaps hunit ?_ ?_ (mem_nonzero.mpr hu) (mem_nonzero.mpr hv)
  · rw [card_nonzero]
    have hsucc : 2 ^ 256 - 1 + 1 = 2 ^ 256 := Nat.sub_add_cancel Nat.one_le_two_pow
    exact iterate_unit (by rw [hsucc, residue_frobenius])
  · rw [card_nonzero]
    intro p hp hdvd
    obtain ⟨c, hc, rfl⟩ := exists_certificate hp hdvd
    refine iterate_unit_ne (c := poly (expand 257 c.2)) ?_
    exact modulus.certify_spec residue residue_divisor operand_slot operand_one
      (operand_expand 257 c.2)
      (Nat.lt_of_le_of_lt (Nat.div_le_self _ _) (by decide)) (certified c hc)

end RngState

end Wqpl
