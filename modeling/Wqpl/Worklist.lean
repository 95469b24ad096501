/-
# Worklists

A state for every node, and a list of the nodes whose state changed. A round
takes a node from the list and merges what its state gives for each successor
into that successor's state, which goes on the list when it changed. Where a
change takes facts off a state, the rounds end (`exists_run`); where merging
leaves the incoming state below, every state that is left gives its successors
only what is below their states (`fixpoint_of_run`).

Key definitions: `Config`, `machine`, `run`, `Fixpoint`.
-/
import Mathlib.Algebra.GroupWithZero.Nat
import Mathlib.Data.Prod.Lex
import Mathlib.Order.WellFounded
import Mathlib.Tactic.Common
import Wqpl.Machine

namespace Wqpl

namespace Worklist

variable {S : Type}

/-- The states of the nodes, the list, what the current node gives its successors, and the
number of merges so far. -/
structure Config (S : Type) where
  states : List (Option S)
  worklist : List Nat
  pending : List (Nat × S)
  merges : Nat

section Machine

variable (next : Nat → S → List (Nat × S)) (merge : Nat → S → S → S × Bool)

/-- A successor gets what the current node gives it. -/
def deliver (c : Config S) (target : Nat) (incoming : S) (rest : List (Nat × S)) : Config S :=
  match c.states[target]? with
  | none => { c with pending := rest }
  | some none =>
    { c with states := c.states.set target (some incoming),
             worklist := target :: c.worklist, pending := rest }
  | some (some existing) =>
    let (merged, changed) := merge c.merges existing incoming
    { states := c.states.set target (some merged),
      worklist := if changed then target :: c.worklist else c.worklist,
      pending := rest, merges := c.merges + 1 }

def step (c : Config S) : Config S :=
  match c.pending, c.worklist with
  | (target, incoming) :: rest, _ => deliver merge c target incoming rest
  | [], node :: rest =>
    match c.states[node]?.join with
    | some s => { c with worklist := rest, pending := next node s }
    | none => { c with worklist := rest }
  | [], [] => c

def outcome (c : Config S) : Option (List (Option S)) :=
  match c.pending, c.worklist with
  | [], [] => some c.states
  | _, _ => none

def machine : Machine (Config S) (List (Option S)) := ⟨step next merge, outcome⟩

/-- At most `fuel` rounds. -/
def run : Nat → Config S → Option (List (Option S))
  | 0, c => outcome c
  | fuel + 1, c =>
    match outcome c with
    | some states => some states
    | none => run fuel (step next merge c)

end Machine

variable {next : Nat → S → List (Nat × S)} {merge : Nat → S → S → S × Bool}

theorem outcome_eq_some {c : Config S} {states : List (Option S)} (h : outcome c = some states) :
    c.pending = [] ∧ c.worklist = [] ∧ c.states = states := by
  unfold outcome at h
  cases hpending : c.pending with
  | cons x rest => simp only [hpending, reduceCtorEq] at h
  | nil =>
    cases hworklist : c.worklist with
    | cons node rest => simp only [hpending, hworklist, reduceCtorEq] at h
    | nil =>
      simp only [hpending, hworklist, Option.some.injEq] at h
      exact ⟨rfl, rfl, h⟩

theorem run_of_outcome {c : Config S} {states : List (Option S)} (h : outcome c = some states)
    (fuel : Nat) : run next merge fuel c = some states := by
  cases fuel with
  | zero => exact h
  | succ fuel => rw [run, h]

theorem ends_of_run {fuel : Nat} : ∀ {c : Config S} {states : List (Option S)},
    run next merge fuel c = some states → (machine next merge).Ends c states := by
  induction fuel with
  | zero => exact fun h => ⟨0, _, .refl _, h⟩
  | succ fuel ih =>
    intro c states h
    rw [run] at h
    cases hout : outcome c with
    | some states' =>
      rw [hout] at h
      exact ⟨0, c, .refl c, hout.trans h⟩
    | none =>
      rw [hout] at h
      obtain ⟨n, c', hsteps, hend⟩ := ih h
      exact ⟨n + 1, c', .head hout hsteps, hend⟩

/-- A round leaves as many nodes as there were. -/
theorem length_step (c : Config S) : (step next merge c).states.length = c.states.length := by
  unfold step
  cases c.pending with
  | cons x rest =>
    obtain ⟨target, incoming⟩ := x
    show (deliver merge c target incoming rest).states.length = c.states.length
    unfold deliver
    split
    · rfl
    · exact List.length_set
    · exact List.length_set
  | nil =>
    cases c.worklist with
    | nil => rfl
    | cons node rest =>
      dsimp only
      split <;> rfl

theorem length_of_run {fuel : Nat} : ∀ {c : Config S} {states : List (Option S)},
    run next merge fuel c = some states → states.length = c.states.length := by
  induction fuel with
  | zero =>
    intro c states h
    obtain ⟨-, -, rfl⟩ := outcome_eq_some h
    rfl
  | succ fuel ih =>
    intro c states h
    rw [run] at h
    cases hout : outcome c with
    | some states' =>
      rw [hout] at h
      obtain ⟨-, -, rfl⟩ := outcome_eq_some (hout.trans h)
      rfl
    | none =>
      rw [hout] at h
      exact (ih h).trans (length_step c)

/-! ### The end -/

section Sums

/-- The sum of a weight over the states. -/
def total (f : Option S → Nat) (states : List (Option S)) : Nat := (states.map f).sum

theorem total_set (f : Option S → Nat) : ∀ {states : List (Option S)} {i : Nat} {old : Option S},
    states[i]? = some old → ∀ new, total f (states.set i new) + f old = total f states + f new
  | [], _, _, h, _ => nomatch h
  | s :: states, 0, old, h, new => by
    obtain rfl : s = old := Option.some.inj h
    simp only [total, List.set_cons_zero, List.map_cons, List.sum_cons]
    omega
  | s :: states, i + 1, old, h, new => by
    have ih := @total_set f states i old h new
    simp only [total, List.set_cons_succ, List.map_cons, List.sum_cons] at ih ⊢
    omega

end Sums

section Ends

variable (facts : S → Nat)

/-- The nodes without a state. -/
def unvisited (c : Config S) : Nat := total (fun s => if s.isNone then 1 else 0) c.states

/-- The facts of all states. -/
def allFacts (c : Config S) : Nat := total (fun s => (s.map facts).getD 0) c.states

/-- What falls with every round. -/
def rank (c : Config S) : Nat ×ₗ Nat ×ₗ Nat ×ₗ Nat :=
  toLex (unvisited c, toLex (allFacts facts c, toLex (c.worklist.length, c.pending.length)))

variable {facts}

theorem rank_lt {c c' : Config S} (h : unvisited c' < unvisited c ∨
    unvisited c' = unvisited c ∧ (allFacts facts c' < allFacts facts c ∨
      allFacts facts c' = allFacts facts c ∧ (c'.worklist.length < c.worklist.length ∨
        c'.worklist.length = c.worklist.length ∧ c'.pending.length < c.pending.length))) :
    rank facts c' < rank facts c := by
  unfold rank
  rw [Prod.Lex.toLex_lt_toLex, Prod.Lex.toLex_lt_toLex, Prod.Lex.toLex_lt_toLex]
  exact h

/-- Every round comes nearer to the end. -/
theorem rank_step (hfacts : ∀ k existing incoming, (merge k existing incoming).2 = true →
      facts (merge k existing incoming).1 < facts existing)
    (hsame : ∀ k existing incoming, (merge k existing incoming).2 = false →
      (merge k existing incoming).1 = existing)
    {c : Config S} (hout : outcome c = none) : rank facts (step next merge c) < rank facts c := by
  unfold step
  cases hpending : c.pending with
  | cons x rest =>
    obtain ⟨target, incoming⟩ := x
    show rank facts (deliver merge c target incoming rest) < rank facts c
    unfold deliver
    cases hstate : c.states[target]? with
    | none =>
      refine rank_lt (.inr ⟨rfl, .inr ⟨rfl, .inr ⟨rfl, ?_⟩⟩⟩)
      rw [hpending]
      exact Nat.lt_succ_self _
    | some state =>
      cases state with
      | none =>
        refine rank_lt (.inl ?_)
        have := total_set (fun s : Option S => if s.isNone then 1 else 0) hstate (some incoming)
        simp only [Option.isNone_none, Option.isNone_some, Bool.false_eq_true, if_true,
          if_false] at this
        simp only [unvisited]
        omega
      | some existing =>
        have hvisited := total_set (fun s : Option S => if s.isNone then 1 else 0) hstate
          (some (merge c.merges existing incoming).1)
        have hall := total_set (fun s => (s.map facts).getD 0) hstate
          (some (merge c.merges existing incoming).1)
        simp only [Option.isNone_some, Bool.false_eq_true, if_false, Option.map_some,
          Option.getD_some, Nat.add_zero] at hvisited hall
        dsimp only
        cases hchanged : (merge c.merges existing incoming).2 with
        | true =>
          have := hfacts c.merges existing incoming hchanged
          refine rank_lt (.inr ⟨hvisited, .inl ?_⟩)
          simp only [allFacts]
          omega
        | false =>
          rw [hsame c.merges existing incoming hchanged] at hall hvisited ⊢
          refine rank_lt (.inr ⟨hvisited, .inr ⟨?_, .inr ⟨?_, ?_⟩⟩⟩)
          · simp only [allFacts]
            omega
          · rw [if_neg Bool.false_ne_true]
          · rw [hpending]
            exact Nat.lt_succ_self _
  | nil =>
    cases hworklist : c.worklist with
    | nil =>
      rw [outcome, hpending, hworklist] at hout
      cases hout
    | cons node rest =>
      dsimp only
      cases c.states[node]?.join with
      | some s =>
        refine rank_lt (.inr ⟨rfl, .inr ⟨rfl, .inl ?_⟩⟩)
        rw [hworklist]
        exact Nat.lt_succ_self _
      | none =>
        refine rank_lt (.inr ⟨rfl, .inr ⟨rfl, .inl ?_⟩⟩)
        rw [hworklist]
        exact Nat.lt_succ_self _

/-- **Termination.** The list runs empty. -/
theorem exists_run (hfacts : ∀ k existing incoming, (merge k existing incoming).2 = true →
      facts (merge k existing incoming).1 < facts existing)
    (hsame : ∀ k existing incoming, (merge k existing incoming).2 = false →
      (merge k existing incoming).1 = existing) (c : Config S) :
    ∃ fuel states, run next merge fuel c = some states := by
  induction hr : rank facts c using WellFoundedLT.induction generalizing c with
  | _ r ih =>
    cases hout : outcome c with
    | some states => exact ⟨0, states, hout⟩
    | none =>
      obtain ⟨fuel, states, hrun⟩ :=
        ih _ (hr ▸ rank_step hfacts hsame hout) (step next merge c) rfl
      exact ⟨fuel + 1, states, by rw [run, hout, hrun]⟩

end Ends

/-! ### Fixpoints -/

section Fixpoints

variable (next) (below : S → S → Prop)

/-- What every state gives its successors is below their states. -/
def Fixpoint (states : List (Option S)) : Prop :=
  ∀ node s, states[node]? = some (some s) → ∀ x ∈ next node s, x.1 < states.length →
    ∃ t, states[x.1]? = some (some t) ∧ below x.2 t

/-- So far the fixpoint fails only at listed nodes and at what is to be delivered. -/
def Settled (c : Config S) : Prop :=
  ∀ node s, c.states[node]? = some (some s) → node ∈ c.worklist ∨
    ∀ x ∈ next node s, x.1 < c.states.length →
      x ∈ c.pending ∨ ∃ t, c.states[x.1]? = some (some t) ∧ below x.2 t

/-- The next merge is of states that agree. -/
def Agreeing (agrees : S → S → Prop) (c : Config S) : Prop :=
  ∀ target incoming rest existing, c.pending = (target, incoming) :: rest →
    c.states[target]? = some (some existing) → agrees existing incoming

variable {next below} {agrees : S → S → Prop}

/-- A delivery keeps what is settled: the successor's state changes to one that is above
the incoming one and all that was below, and is listed unless it stayed. -/
theorem settled_set {c : Config S} (h : Settled next below c) {target : Nat} {incoming new : S}
    {old : Option S} {rest : List (Nat × S)} {worklist : List Nat} {merges : Nat}
    (hpending : c.pending = (target, incoming) :: rest) (hold : c.states[target]? = some old)
    (hnew : below incoming new) (hkeep : ∀ x s, old = some s → below x s → below x new)
    (hlisted : target ∈ worklist ∨ old = some new) (hsub : ∀ n ∈ c.worklist, n ∈ worklist) :
    Settled next below ⟨c.states.set target (some new), worklist, rest, merges⟩ := by
  obtain ⟨hlt, -⟩ := List.getElem?_eq_some_iff.mp hold
  have hset : (c.states.set target (some new))[target]? = some (some new) :=
    List.getElem?_set_self hlt
  intro node s hs
  have hcase : node ∈ worklist ∨ c.states[node]? = some (some s) := by
    by_cases hnode : target = node
    · subst hnode
      refine hlisted.imp_right fun hsame => ?_
      rw [hset] at hs
      rw [hold, hsame, hs]
    · exact .inr (by rwa [List.getElem?_set_ne hnode] at hs)
  rcases hcase with hcase | hcase
  · exact .inl hcase
  refine (h node s hcase).imp (hsub node) fun hall x hx hlen => ?_
  dsimp only at hlen ⊢
  rw [List.length_set] at hlen
  by_cases htarget : target = x.1
  · rw [← htarget, hset]
    rcases hall x hx hlen with hmem | ⟨t, ht, hbelow⟩
    · rw [hpending] at hmem
      rcases List.mem_cons.mp hmem with rfl | hmem
      · exact .inr ⟨new, rfl, hnew⟩
      · exact .inl hmem
    · rw [← htarget, hold] at ht
      exact .inr ⟨new, rfl, hkeep _ t (Option.some.inj ht) hbelow⟩
  · rw [List.getElem?_set_ne htarget]
    refine (hall x hx hlen).imp_left fun hmem => ?_
    rw [hpending] at hmem
    refine (List.mem_cons.mp hmem).resolve_left fun heq => htarget ?_
    rw [heq]

theorem settled_step (hrefl : ∀ s, below s s)
    (hmerge : ∀ k existing incoming, agrees existing incoming →
      below incoming (merge k existing incoming).1)
    (hkeep : ∀ k existing incoming x, below x existing → below x (merge k existing incoming).1)
    (hsame : ∀ k existing incoming, (merge k existing incoming).2 = false →
      (merge k existing incoming).1 = existing)
    {c : Config S} (hagree : Agreeing agrees c) (h : Settled next below c) :
    Settled next below (step next merge c) := by
  unfold step
  cases hpending : c.pending with
  | cons x rest =>
    obtain ⟨target, incoming⟩ := x
    show Settled next below (deliver merge c target incoming rest)
    unfold deliver
    cases hstate : c.states[target]? with
    | none =>
      intro node s hs
      refine (h node s hs).imp_right fun hall x hx hlen => ?_
      refine (hall x hx hlen).imp_left fun hmem => ?_
      rw [hpending] at hmem
      refine (List.mem_cons.mp hmem).resolve_left fun heq => ?_
      have := List.getElem?_eq_none_iff.mp hstate
      rw [heq] at hlen
      exact absurd hlen (Nat.not_lt.mpr this)
    | some state =>
      cases state with
      | none =>
        exact settled_set h hpending hstate (hrefl incoming) nofun (.inl List.mem_cons_self)
          fun n hn => List.mem_cons_of_mem _ hn
      | some existing =>
        have hbelow := hmerge c.merges existing incoming
          (hagree target incoming rest existing hpending hstate)
        refine settled_set h hpending hstate hbelow (fun x s hs hx => ?_) ?_ fun n hn => ?_
        · obtain rfl := Option.some.inj hs
          exact hkeep c.merges existing incoming x hx
        · cases hchanged : (merge c.merges existing incoming).2 with
          | true => exact .inl List.mem_cons_self
          | false => exact .inr (congrArg some (hsame c.merges existing incoming hchanged).symm)
        · cases (merge c.merges existing incoming).2 with
          | true => exact List.mem_cons_of_mem _ hn
          | false => exact hn
  | nil =>
    cases hworklist : c.worklist with
    | nil => exact h
    | cons node rest =>
      dsimp only
      -- the node that is taken off has all its successors pending
      cases hnode : c.states[node]?.join with
      | some s =>
        intro n t ht
        by_cases hn : n = node
        · subst hn
          obtain rfl : s = t := by
            rw [show c.states[n]? = some (some t) from ht] at hnode
            exact (Option.some.inj hnode).symm
          exact .inr fun x hx _ => .inl hx
        · rcases h n t ht with hmem | hall
          · rw [hworklist] at hmem
            exact .inl ((List.mem_cons.mp hmem).resolve_left hn)
          · refine .inr fun x hx hlen => .inr ?_
            refine (hall x hx hlen).resolve_left ?_
            rw [hpending]
            exact nofun
      | none =>
        intro n t ht
        rcases h n t ht with hmem | hall
        · rw [hworklist] at hmem
          refine .inl ((List.mem_cons.mp hmem).resolve_left fun heq => ?_)
          subst heq
          rw [show c.states[n]? = some (some t) from ht] at hnode
          cases hnode
        · refine .inr fun x hx hlen => .inr ((hall x hx hlen).resolve_left ?_)
          rw [hpending]
          exact nofun

/-- **Fixpoints.** What is left when the list runs empty. -/
theorem fixpoint_of_run (hrefl : ∀ s, below s s)
    (hmerge : ∀ k existing incoming, agrees existing incoming →
      below incoming (merge k existing incoming).1)
    (hkeep : ∀ k existing incoming x, below x existing → below x (merge k existing incoming).1)
    (hsame : ∀ k existing incoming, (merge k existing incoming).2 = false →
      (merge k existing incoming).1 = existing)
    {c : Config S} (h : Settled next below c)
    (hagree : (machine next merge).Always (Agreeing agrees) c) {fuel : Nat}
    {states : List (Option S)} (hrun : run next merge fuel c = some states) :
    Fixpoint next below states := by
  obtain ⟨n, c', hsteps, hout⟩ := ends_of_run hrun
  have hsettled : Settled next below c' :=
    hagree.invariant h (fun c hc hs _ => settled_step hrefl hmerge hkeep hsame hc hs) n c' hsteps
  obtain ⟨hpending, hworklist, rfl⟩ := outcome_eq_some hout
  intro node s hs x hx hlen
  have hall := (hsettled node s hs).resolve_left (by rw [hworklist]; exact nofun)
  exact (hall x hx hlen).resolve_left (by rw [hpending]; exact nofun)

/-- A step keeps every state above what was below it. -/
theorem kept_step (hkeep : ∀ k existing incoming x, below x existing →
      below x (merge k existing incoming).1)
    {c : Config S} {i : Nat} {s t : S} (ht : c.states[i]? = some (some t)) (hst : below s t) :
    ∃ t', (step next merge c).states[i]? = some (some t') ∧ below s t' := by
  unfold step
  cases hpending : c.pending with
  | cons x rest =>
    obtain ⟨target, incoming⟩ := x
    show ∃ t', (deliver merge c target incoming rest).states[i]? = _ ∧ _
    unfold deliver
    cases hstate : c.states[target]? with
    | none => exact ⟨t, ht, hst⟩
    | some state =>
      obtain ⟨hlt, -⟩ := List.getElem?_eq_some_iff.mp hstate
      by_cases hi : target = i
      · subst hi
        rw [ht] at hstate
        obtain rfl := Option.some.inj hstate
        exact ⟨_, List.getElem?_set_self hlt, hkeep _ _ _ _ hst⟩
      · cases state with
        | none => exact ⟨t, (List.getElem?_set_ne hi).trans ht, hst⟩
        | some existing => exact ⟨t, (List.getElem?_set_ne hi).trans ht, hst⟩
  | nil =>
    cases c.worklist with
    | nil => exact ⟨t, ht, hst⟩
    | cons node rest =>
      dsimp only
      cases c.states[node]?.join with
      | some s' => exact ⟨t, ht, hst⟩
      | none => exact ⟨t, ht, hst⟩

/-- A node that has a state keeps one, above the first. -/
theorem kept_of_run (hrefl : ∀ s, below s s)
    (hkeep : ∀ k existing incoming x, below x existing → below x (merge k existing incoming).1)
    {c : Config S} {i : Nat} {s : S} (hs : c.states[i]? = some (some s)) {fuel : Nat}
    {states : List (Option S)} (hrun : run next merge fuel c = some states) :
    ∃ t, states[i]? = some (some t) ∧ below s t := by
  obtain ⟨n, c', hsteps, hout⟩ := ends_of_run hrun
  have halways : (machine next merge).Always (fun _ => True) c := fun _ _ _ => trivial
  have hkept : ∃ t, c'.states[i]? = some (some t) ∧ below s t :=
    halways.invariant (I := fun c => ∃ t, c.states[i]? = some (some t) ∧ below s t)
      ⟨s, hs, hrefl s⟩ (fun c _ h _ => h.elim fun t ht => kept_step hkeep ht.1 ht.2) n c' hsteps
  obtain ⟨-, -, rfl⟩ := outcome_eq_some hout
  exact hkept

end Fixpoints

end Worklist

end Wqpl
