/-
# Computations with fuel

A loop that may go on for ever is given a number of rounds. The loop ends with
a value if it has that value with any fuel from some amount on (`Returns`).
Such computations compose (`Returns.bind`), and a loop is followed round by
round (`Returns.succ`).
-/
import Mathlib.Order.Lattice
import Mathlib.Order.Nat

namespace Wqpl

variable {m : Type → Type} [Monad m] [LawfulMonad m] {α β : Type}

/-- With enough fuel the computation has the value. -/
def Returns (f : Nat → m α) (a : α) : Prop := ∃ n, ∀ fuel, n ≤ fuel → f fuel = pure a

namespace Returns

omit [LawfulMonad m] in
theorem of_all {f : Nat → m α} {a : α} (h : ∀ fuel, f fuel = pure a) : Returns f a :=
  ⟨0, fun fuel _ => h fuel⟩

theorem bind {f : Nat → m α} {a : α} {b : β} (hf : Returns f a) (g : α → Nat → m β)
    (hg : Returns (g a) b) : Returns (fun fuel => f fuel >>= fun a => g a fuel) b := by
  obtain ⟨n, hn⟩ := hf
  obtain ⟨k, hk⟩ := hg
  refine ⟨max n k, fun fuel hfuel => ?_⟩
  show f fuel >>= (fun a => g a fuel) = pure b
  rw [hn fuel (le_trans (le_max_left n k) hfuel), pure_bind,
    hk fuel (le_trans (le_max_right n k) hfuel)]

theorem map (g : α → β) {f : Nat → m α} {a : α} (hf : Returns f a) :
    Returns (fun fuel => f fuel >>= fun a => pure (g a)) (g a) :=
  hf.bind (fun a _ => pure (g a)) (.of_all fun _ => rfl)

omit [LawfulMonad m] in
/-- One round more. -/
theorem succ {f : Nat → m α} {a : α} (h : Returns (fun fuel => f (fuel + 1)) a) :
    Returns f a := by
  obtain ⟨n, hn⟩ := h
  refine ⟨n + 1, fun fuel hfuel => ?_⟩
  obtain ⟨k, rfl⟩ := Nat.exists_eq_add_of_le' (le_trans (Nat.le_add_left 1 n) hfuel)
  exact hn k (by omega)

omit [LawfulMonad m] in
theorem congr {f g : Nat → m α} {a : α} (h : Returns f a) (hfg : ∀ fuel, g fuel = f fuel) :
    Returns g a := by
  obtain ⟨n, hn⟩ := h
  exact ⟨n, fun fuel hfuel => (hfg fuel).trans (hn fuel hfuel)⟩

omit [LawfulMonad m] in
/-- A computation has one value. -/
theorem unique (hpure : ∀ a b : α, (pure a : m α) = pure b → a = b) {f : Nat → m α} {a b : α}
    (ha : Returns f a) (hb : Returns f b) : a = b := by
  obtain ⟨n, hn⟩ := ha
  obtain ⟨k, hk⟩ := hb
  exact hpure a b ((hn (max n k) (le_max_left n k)).symm.trans (hk _ (le_max_right n k)))

end Returns

end Wqpl
