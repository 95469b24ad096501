/-
# Maps whose orbit is a whole finite set

A map that keeps a finite set and returns to one of its elements after as many
steps as the set has elements, but not after that number divided by one of its
primes, runs through the whole set from any element of it (`exists_iterate_eq`).
-/
import Mathlib.Data.Nat.Prime.Basic
import Mathlib.Dynamics.PeriodicPts.Defs

namespace Wqpl

open Function

variable {α : Type} {f : α → α}

theorem minimalPeriod_eq_of_primes {n : Nat} {u : α} (hreturn : f^[n] u = u)
    (hprime : ∀ p, p.Prime → p ∣ n → f^[n / p] u ≠ u) : minimalPeriod f u = n := by
  obtain ⟨k, hk⟩ : minimalPeriod f u ∣ n := IsPeriodicPt.minimalPeriod_dvd hreturn
  by_contra hne
  have hk1 : k ≠ 1 := fun h => hne (by rw [hk, h, Nat.mul_one])
  obtain ⟨p, hp, l, rfl⟩ := Nat.exists_prime_and_dvd hk1
  have hdiv : n / p = minimalPeriod f u * l := by
    rw [hk, Nat.mul_left_comm, Nat.mul_div_cancel_left _ hp.pos]
  refine hprime p hp ⟨minimalPeriod f u * l, by rw [hk, Nat.mul_left_comm]⟩ ?_
  rw [hdiv]
  exact (isPeriodicPt_minimalPeriod f u).mul_const l

/-- The whole set is one orbit. -/
theorem exists_iterate_eq {s : Finset α} (hmaps : ∀ u ∈ s, f u ∈ s) {e : α} (he : e ∈ s)
    (hreturn : f^[s.card] e = e) (hprime : ∀ p, p.Prime → p ∣ s.card → f^[s.card / p] e ≠ e)
    {u v : α} (hu : u ∈ s) (hv : v ∈ s) : ∃ k, f^[k] u = v := by
  have hperiod : minimalPeriod f e = s.card := minimalPeriod_eq_of_primes hreturn hprime
  have hmem : ∀ k, f^[k] e ∈ s := by
    intro k
    induction k with
    | zero => exact he
    | succ k ih =>
      rw [iterate_succ_apply']
      exact hmaps _ ih
  have hinj := iterate_injOn_Iio_minimalPeriod (f := f) (x := e)
  rw [hperiod] at hinj
  have hsurj := Finset.surjOn_of_injOn_of_card_le (s := Finset.range s.card) (t := s)
    (fun k => f^[k] e) (fun k _ => hmem k) (hinj.mono fun k hk => Finset.mem_range.mp hk)
    (by rw [Finset.card_range])
  -- on from `u` to the element the period starts at, and from there to `v`
  obtain ⟨k, hk, rfl⟩ := hsurj hu
  obtain ⟨l, -, rfl⟩ := hsurj hv
  have hle : k ≤ s.card := (Finset.mem_range.mp hk).le
  refine ⟨l + (s.card - k), ?_⟩
  show f^[l + (s.card - k)] (f^[k] e) = f^[l] e
  rw [← iterate_add_apply, Nat.add_assoc, Nat.sub_add_cancel hle, iterate_add_apply, hreturn]

end Wqpl
