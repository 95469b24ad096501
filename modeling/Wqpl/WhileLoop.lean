/-
# Loops with a measure

A loop steps until it has no next state. Where a measure falls with every step,
enough rounds bring it to its end (`whileSome_spec`).
-/
import Mathlib.Tactic.Common

namespace Wqpl

variable {S : Type}

/-- At most `fuel` rounds of a loop. -/
def whileSome (step : S → Option S) : Nat → S → S
  | 0, s => s
  | fuel + 1, s =>
    match step s with
    | some s' => whileSome step fuel s'
    | none => s

/-- **Loops.** An invariant that every round keeps, while the measure falls,
holds at the end of the loop. -/
theorem whileSome_spec {step : S → Option S} {Inv : S → Prop} {measure : S → Nat}
    (hstep : ∀ s s', Inv s → step s = some s' → Inv s' ∧ measure s' < measure s) (fuel : Nat) :
    ∀ s, Inv s → measure s ≤ fuel →
      Inv (whileSome step fuel s) ∧ step (whileSome step fuel s) = none := by
  induction fuel with
  | zero =>
    intro s hs hfuel
    cases h : step s with
    | none => exact ⟨hs, h⟩
    | some s' =>
      have hlt := (hstep s s' hs h).2
      omega
  | succ fuel ih =>
    intro s hs hfuel
    unfold whileSome
    cases h : step s with
    | none => exact ⟨hs, h⟩
    | some s' =>
      obtain ⟨hs', hlt⟩ := hstep s s' hs h
      exact ih s' hs' (by omega)

end Wqpl
