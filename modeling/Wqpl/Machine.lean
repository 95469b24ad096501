/-
# Deterministic machines

A machine steps until it has an outcome. Two machines behave alike from
related states when one of them follows every step of the other with at least
one step of its own (`Simulation.ends_iff`): then one ends exactly when the
other does, with the same outcome.
-/
import Mathlib.Tactic.Common

/-- A deterministic machine. A state with an outcome is final. -/
structure Machine (S R : Type*) where
  step : S → S
  outcome : S → Option R

namespace Machine

variable {S T R : Type*} (M : Machine S R)

/-- A run of exactly `n` steps. -/
inductive Steps : Nat → S → S → Prop
  | refl (s : S) : Steps 0 s s
  | head {n : Nat} {s s' : S} : M.outcome s = none → Steps n (M.step s) s' → Steps (n + 1) s s'

/-- A run that ends. -/
def Ends (s : S) (r : R) : Prop :=
  ∃ n s', M.Steps n s s' ∧ M.outcome s' = some r

/-- Every state of the run has the property. -/
def Always (P : S → Prop) (s : S) : Prop :=
  ∀ n s', M.Steps n s s' → P s'

variable {M}

theorem Steps.one {s : S} (h : M.outcome s = none) : M.Steps 1 s (M.step s) :=
  .head h (.refl _)

theorem Steps.trans {m n : Nat} {s s' s'' : S} (h : M.Steps m s s') (h' : M.Steps n s' s'') :
    M.Steps (m + n) s s'' := by
  induction h with
  | refl s =>
    rw [Nat.zero_add]
    exact h'
  | head ho _ ih =>
    rw [Nat.succ_add]
    exact .head ho (ih h')

theorem Steps.tail {n : Nat} {s s' : S} (h : M.Steps n s s') (ho : M.outcome s' = none) :
    M.Steps (n + 1) s (M.step s') :=
  h.trans (.one ho)

/-- The machine has only one run. -/
theorem Steps.unique {n : Nat} {s s' s'' : S} (h : M.Steps n s s') (h' : M.Steps n s s'') :
    s' = s'' := by
  induction h with
  | refl s =>
    cases h'
    rfl
  | head _ _ ih =>
    cases h' with
    | head _ h' => exact ih h'

/-- The rest of a longer run. -/
theorem Steps.rest {m n : Nat} {s s' s'' : S} (h : M.Steps m s s') (h' : M.Steps n s s'')
    (hle : m ≤ n) : M.Steps (n - m) s' s'' := by
  induction h generalizing n with
  | refl s => exact h'
  | @head m s s' ho _ ih =>
    cases h' with
    | refl => omega
    | @head n _ _ _ h' =>
      have h := ih h' (by omega)
      rwa [Nat.add_sub_add_right]

/-- A final state is the end of the run. -/
theorem Steps.le_of_final {m n : Nat} {s s' s'' : S} {r : R} (h : M.Steps m s s')
    (h' : M.Steps n s s'') (hr : M.outcome s'' = some r) : m ≤ n := by
  by_contra hlt
  have hrest := h'.rest h (by omega)
  obtain ⟨k, hk⟩ : ∃ k, m - n = k + 1 := ⟨m - n - 1, by omega⟩
  rw [hk] at hrest
  cases hrest with
  | head ho _ =>
    rw [hr] at ho
    cases ho

theorem Ends.unique {s : S} {r r' : R} (h : M.Ends s r) (h' : M.Ends s r') : r = r' := by
  obtain ⟨m, t, hm, ht⟩ := h
  obtain ⟨n, t', hn, ht'⟩ := h'
  have hmn : m = n := Nat.le_antisymm (hm.le_of_final hn ht') (hn.le_of_final hm ht)
  subst hmn
  rw [hm.unique hn, ht'] at ht
  exact (Option.some.inj ht).symm

/-- A run ends as its rest does. -/
theorem Steps.ends_iff {n : Nat} {s s' : S} (h : M.Steps n s s') (r : R) :
    M.Ends s r ↔ M.Ends s' r := by
  constructor
  · rintro ⟨m, t, hm, ht⟩
    exact ⟨m - n, t, h.rest hm (h.le_of_final hm ht), ht⟩
  · rintro ⟨m, t, hm, ht⟩
    exact ⟨n + m, t, h.trans hm, ht⟩

theorem Always.self {P : S → Prop} {s : S} (h : M.Always P s) : P s := h 0 s (.refl s)

/-- Along a run, one state after the other. -/
theorem Always.head {P : S → Prop} {s : S} (h : P s) (hrest : M.Always P (M.step s)) :
    M.Always P s := by
  intro n s' hs
  cases hs with
  | refl => exact h
  | @head n _ _ _ hs => exact hrest n s' hs

/-- A final state is a whole run. -/
theorem Always.final {P : S → Prop} {s : S} {r : R} (h : P s) (hr : M.outcome s = some r) :
    M.Always P s := by
  intro n s' hs
  cases hs with
  | refl => exact h
  | head ho _ =>
    rw [hr] at ho
    cases ho

theorem Always.steps {P : S → Prop} {n : Nat} {s s' : S} (h : M.Always P s)
    (hs : M.Steps n s s') : M.Always P s' :=
  fun m t ht => h (n + m) t (hs.trans ht)

/-- **Invariants.** What holds at the start and is kept by every step, of
states that satisfy `P`, holds along the run. -/
theorem Always.invariant {P I : S → Prop} {s : S} (hP : M.Always P s) (h0 : I s)
    (hstep : ∀ s, P s → I s → M.outcome s = none → I (M.step s)) : M.Always I s := by
  intro n s' hs
  induction hs with
  | refl s => exact h0
  | head ho hs ih =>
    exact ih (hP.steps (.one ho)) (hstep _ hP.self h0 ho)

/-- Machines that step alike along a run have the same runs. -/
theorem Always.steps_iff {N : Machine S R} {P : S → Prop} (hstep : ∀ s, P s → N.step s = M.step s)
    (hout : ∀ s, N.outcome s = M.outcome s) {n : Nat} {s s' : S} (hP : M.Always P s) :
    N.Steps n s s' ↔ M.Steps n s s' := by
  induction n generalizing s with
  | zero =>
    constructor
    · rintro ⟨⟩
      exact .refl _
    · rintro ⟨⟩
      exact .refl _
  | succ n ih =>
    constructor
    · rintro (_ | ⟨ho, hs⟩)
      have ho' := (hout s).symm.trans ho
      rw [hstep s hP.self] at hs
      exact .head ho' ((ih (hP.steps (.one ho'))).mp hs)
    · rintro (_ | ⟨ho, hs⟩)
      have hs' := (ih (hP.steps (.one ho))).mpr hs
      rw [← hstep s hP.self] at hs'
      exact .head ((hout s).trans ho) hs'

/-- **Until.** What every step keeps or leaves by `L` holds along a run of
states that satisfy `P`, unless it was left before. -/
theorem Steps.until {P I : S → Prop} {L : S → S → Prop}
    (hstep : ∀ s, P s → I s → M.outcome s = none → I (M.step s) ∨ L s (M.step s))
    {n : Nat} {s s' : S} (h : M.Steps n s s') (h0 : I s)
    (hP : ∀ m t, m < n → M.Steps m s t → I t → P t) :
    I s' ∨ ∃ m t, m < n ∧ M.Steps m s t ∧ I t ∧ L t (M.step t) := by
  induction h with
  | refl s => exact .inl h0
  | @head n s s' ho _ ih =>
    rcases hstep s (hP 0 s (Nat.succ_pos n) (.refl s) h0) h0 ho with hI | hL
    · rcases ih hI fun m t hm ht hIt => hP (m + 1) t (Nat.succ_lt_succ hm) (.head ho ht) hIt with
        h | ⟨m, t, hm, ht, hIt, hL⟩
      · exact .inl h
      · exact .inr ⟨m + 1, t, Nat.succ_lt_succ hm, .head ho ht, hIt, hL⟩
    · exact .inr ⟨0, s, Nat.succ_pos n, .refl s, h0, hL⟩

/-! ### Simulation -/

/-- `N` is followed by `M`, in runs of `M` whose states all satisfy `P`: a step
of `N` is matched by at least one step of `M`, and an outcome of `N` by the
same outcome of `M`. -/
structure Simulation (M : Machine S R) (N : Machine T R) (P : S → Prop) (Rel : S → T → Prop) :
    Prop where
  step : ∀ s t, M.Always P s → Rel s t → N.outcome t = none →
    ∃ n s', M.Steps (n + 1) s s' ∧ Rel s' (N.step t)
  outcome : ∀ s t r, M.Always P s → Rel s t → N.outcome t = some r → M.Ends s r

namespace Simulation

variable {N : Machine T R} {P : S → Prop} {Rel : S → T → Prop}

theorem ends_of_ends (h : Simulation M N P Rel) {n : Nat} {t t' : T} {r : R}
    (ht : N.Steps n t t') (hr : N.outcome t' = some r) :
    ∀ s, M.Always P s → Rel s t → M.Ends s r := by
  induction ht with
  | refl t => exact fun s hP hrel => h.outcome s t r hP hrel hr
  | head ho _ ih =>
    intro s hP hrel
    obtain ⟨n, s', hs, hrel'⟩ := h.step s _ hP hrel ho
    exact (hs.ends_iff r).mpr (ih hr s' (hP.steps hs) hrel')

theorem ends_of_steps (h : Simulation M N P Rel) (n : Nat) : ∀ (s s' : S) (t : T) (r : R),
    M.Always P s → Rel s t → M.Steps n s s' → M.outcome s' = some r → N.Ends t r := by
  induction n using Nat.strongRecOn with
  | ind n ih =>
    intro s s' t r hP hrel hs hr
    cases ht : N.outcome t with
    | some r' =>
      have hend := h.outcome s t r' hP hrel ht
      rw [Ends.unique ⟨n, s', hs, hr⟩ hend]
      exact ⟨0, t, .refl t, ht⟩
    | none =>
      obtain ⟨k, u, hu, hrel'⟩ := h.step s t hP hrel ht
      have hle := hu.le_of_final hs hr
      have hend := ih (n - (k + 1)) (by omega) u s' (N.step t) r (hP.steps hu) hrel'
        (hu.rest hs hle) hr
      exact ((Steps.one ht).ends_iff r).mpr hend

/-- **A simulation makes both machines end alike.** -/
theorem ends_iff (h : Simulation M N P Rel) {s : S} {t : T} (hP : M.Always P s)
    (hrel : Rel s t) (r : R) : M.Ends s r ↔ N.Ends t r := by
  constructor
  · rintro ⟨n, s', hs, hr⟩
    exact h.ends_of_steps n s s' t r hP hrel hs hr
  · rintro ⟨n, t', ht, hr⟩
    exact h.ends_of_ends ht hr s hP hrel

end Simulation

/-! ### Machines that go their own ways -/

/-- From the states both machines end or neither does, with related outcomes. -/
structure Alike {R' : Type*} (M : Machine S R) (N : Machine T R') (Q : R → R' → Prop) (s : S)
    (t : T) : Prop where
  left : ∀ r, M.Ends s r → ∃ r', N.Ends t r' ∧ Q r r'
  right : ∀ r', N.Ends t r' → ∃ r, M.Ends s r ∧ Q r r'

namespace Alike

variable {R' : Type*} {N : Machine T R'} {Q : R → R' → Prop}

/-- Machines are alike as they are later in their runs. -/
theorem iff_of_steps {m n : Nat} {s s' : S} {t t' : T} (hs : M.Steps m s s') (ht : N.Steps n t t') :
    Alike M N Q s t ↔ Alike M N Q s' t' := by
  constructor
  · rintro ⟨hl, hr⟩
    constructor
    · intro r h
      obtain ⟨r', h', hQ⟩ := hl r ((hs.ends_iff r).mpr h)
      exact ⟨r', (ht.ends_iff r').mp h', hQ⟩
    · intro r' h
      obtain ⟨r, h', hQ⟩ := hr r' ((ht.ends_iff r').mpr h)
      exact ⟨r, (hs.ends_iff r).mp h', hQ⟩
  · rintro ⟨hl, hr⟩
    constructor
    · intro r h
      obtain ⟨r', h', hQ⟩ := hl r ((hs.ends_iff r).mp h)
      exact ⟨r', (ht.ends_iff r').mpr h', hQ⟩
    · intro r' h
      obtain ⟨r, h', hQ⟩ := hr r' ((ht.ends_iff r').mp h)
      exact ⟨r, (hs.ends_iff r).mpr h', hQ⟩

/-- Final states are alike when their outcomes are related. -/
theorem iff_of_final {s : S} {t : T} {r : R} {r' : R'} (hs : M.outcome s = some r)
    (ht : N.outcome t = some r') : Alike M N Q s t ↔ Q r r' := by
  have hends : M.Ends s r := ⟨0, s, .refl s, hs⟩
  have hends' : N.Ends t r' := ⟨0, t, .refl t, ht⟩
  constructor
  · intro h
    obtain ⟨r'', h', hQ⟩ := h.left r hends
    rwa [hends'.unique h']
  · intro hQ
    refine ⟨fun r₁ h₁ => ⟨r', hends', ?_⟩, fun r₁ h₁ => ⟨r, hends, ?_⟩⟩
    · rwa [h₁.unique hends]
    · rwa [h₁.unique hends']

/-- Machines that never end are alike. -/
theorem of_endless {s : S} {t : T} (hs : ∀ r, ¬M.Ends s r) (ht : ∀ r, ¬N.Ends t r) :
    Alike M N Q s t := ⟨fun r h => absurd h (hs r), fun r h => absurd h (ht r)⟩

/-- **Rounds.** Machines are alike from states of a relation that both come
back to, unless they come to states where they are alike. -/
theorem of_rounds {Rel : S → T → Prop}
    (hround : ∀ s t, Rel s t → ∃ m n s' t', M.Steps (m + 1) s s' ∧ N.Steps (n + 1) t t' ∧
      (Rel s' t' ∨ Alike M N Q s' t')) {s : S} {t : T} (h : Rel s t) : Alike M N Q s t := by
  constructor
  · rintro r ⟨k, u, hk, hr⟩
    induction k using Nat.strongRecOn generalizing s t with
    | ind k ih =>
      obtain ⟨m, n, s', t', hs, ht, hnext⟩ := hround s t h
      have hle := hs.le_of_final hk hr
      have hrest := hs.rest hk hle
      rcases hnext with hrel | halike
      · obtain ⟨r', h', hQ⟩ := ih (k - (m + 1)) (by omega) hrel hrest
        exact ⟨r', (ht.ends_iff r').mpr h', hQ⟩
      · obtain ⟨r', h', hQ⟩ := halike.left r ⟨_, u, hrest, hr⟩
        exact ⟨r', (ht.ends_iff r').mpr h', hQ⟩
  · rintro r' ⟨k, u, hk, hr⟩
    induction k using Nat.strongRecOn generalizing s t with
    | ind k ih =>
      obtain ⟨m, n, s', t', hs, ht, hnext⟩ := hround s t h
      have hle := ht.le_of_final hk hr
      have hrest := ht.rest hk hle
      rcases hnext with hrel | halike
      · obtain ⟨r, h', hQ⟩ := ih (k - (n + 1)) (by omega) hrel hrest
        exact ⟨r, (hs.ends_iff r).mpr h', hQ⟩
      · obtain ⟨r, h', hQ⟩ := halike.right r' ⟨_, u, hrest, hr⟩
        exact ⟨r, (hs.ends_iff r).mpr h', hQ⟩

end Alike

end Machine
