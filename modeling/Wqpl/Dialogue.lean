/-
# Dialogues and resumable machines

A dialogue is a computation that asks an environment questions and ends with
a result or an error. A resumable machine computes one in small steps,
keeping what it still has to do in its state, and can be paused between any
two steps. `Unfolds M s t` says that the machine, started in `s`, carries out
the dialogue `t`.

- `run_injective`: two dialogues that no environment can tell apart are equal.
- `Unfolds.finishes`: the machine ends, after the questions and with the
  result of the dialogue it unfolds to.
- `realizes_iff_eq`: a machine that unfolds to `t` behaves as `u` against
  every environment, in every slicing of its run, exactly when `t = u`.
-/
import Mathlib.Algebra.BigOperators.Group.List.Basic
import Mathlib.Algebra.GroupWithZero.Nat
import Mathlib.Logic.Function.Iterate

/-- A computation that asks questions in `Q`, reads answers in `R` and ends
with a result in `α` or an error in `E`. -/
inductive Dialogue (Q R E α : Type) where
  | done (r : Except E α)
  | ask (q : Q) (k : R → Dialogue Q R E α)

namespace Dialogue

section Trees

variable {Q R E α β γ : Type}

def bind : Dialogue Q R E α → (α → Dialogue Q R E β) → Dialogue Q R E β
  | done (.ok a), f => f a
  | done (.error e), _ => done (.error e)
  | ask q k, f => ask q fun r => (k r).bind f

instance : Monad (Dialogue Q R E) where
  pure a := done (.ok a)
  bind := bind

def fail (e : E) : Dialogue Q R E α := done (.error e)

def query (q : Q) : Dialogue Q R E R := ask q fun r => done (.ok r)

/-- Goes on with `handle` after an error of the computation itself. -/
def orElse : Dialogue Q R E α → (E → Dialogue Q R E α) → Dialogue Q R E α
  | done (.ok a), _ => done (.ok a)
  | done (.error e), handle => handle e
  | ask q k, handle => ask q fun r => (k r).orElse handle

/-- A computation without questions. -/
def lift (x : Except E α) : Dialogue Q R E α := done x

@[simp] theorem pure_bind' (a : α) (f : α → Dialogue Q R E β) : (pure a >>= f) = f a := rfl

@[simp] theorem fail_bind (e : E) (f : α → Dialogue Q R E β) : (fail e >>= f) = fail e := rfl

@[simp] theorem query_bind (q : Q) (f : R → Dialogue Q R E β) : (query q >>= f) = ask q f := rfl

@[simp] theorem ask_bind (q : Q) (k : R → Dialogue Q R E α) (f : α → Dialogue Q R E β) :
    (ask q k >>= f) = ask q fun r => k r >>= f := rfl

theorem bind_assoc' (t : Dialogue Q R E α) (f : α → Dialogue Q R E β)
    (g : β → Dialogue Q R E γ) : (t >>= f >>= g) = (t >>= fun a => f a >>= g) := by
  induction t with
  | done r => cases r <;> rfl
  | ask q k ih => simp only [ask_bind, ih]

theorem bind_pure' (t : Dialogue Q R E α) : (t >>= pure) = t := by
  induction t with
  | done r => cases r <;> rfl
  | ask q k ih => simp only [ask_bind, ih]

instance : LawfulMonad (Dialogue Q R E) := LawfulMonad.mk' _
  (fun t => bind_pure' t) (fun _ _ => rfl) bind_assoc'

/-! ### Environments -/

/-- What an environment answers, given the questions asked before. It may
fail, and the failure ends the dialogue. -/
abbrev Oracle (Q R E : Type) := List Q → Q → Except E R

/-- The questions asked and the outcome, after the questions in `h`. -/
def run (o : Oracle Q R E) : List Q → Dialogue Q R E α → List Q × Except E α
  | h, done r => (h, r)
  | h, ask q k =>
    match o h q with
    | .ok a => run o (h ++ [q]) (k a)
    | .error e => (h ++ [q], .error e)

/-- The environment that gives the answer `a` first and then behaves as `o`. -/
def Oracle.after (a : R) (o : Oracle Q R E) : Oracle Q R E
  | [], _ => .ok a
  | _ :: h, q => o h q

theorem run_after (a : R) (o : Oracle Q R E) (q : Q) (t : Dialogue Q R E α) (h : List Q) :
    t.run (o.after a) (q :: h) = (q :: (t.run o h).1, (t.run o h).2) := by
  induction t generalizing h with
  | done r => rfl
  | ask q' k ih =>
    simp only [run, Oracle.after]
    cases o h q' with
    | ok b => exact ih b (h ++ [q'])
    | error e => rfl

/-- **No environment is blind.** Two dialogues with the same questions and
outcome against every environment are equal. -/
theorem run_injective [Inhabited E] (t u : Dialogue Q R E α)
    (h : ∀ o, t.run o [] = u.run o []) : t = u := by
  induction t generalizing u with
  | done r =>
    cases u with
    | done r' => exact congrArg done (congrArg Prod.snd (h fun _ _ => .error default))
    | ask q k => simpa [run] using congrArg Prod.fst (h fun _ _ => .error default)
  | ask q k ih =>
    cases u with
    | done r => simpa [run] using congrArg Prod.fst (h fun _ _ => .error default)
    | ask q' k' =>
      have hq : q = q' := by simpa [run] using congrArg Prod.fst (h fun _ _ => .error default)
      subst hq
      congr 1
      funext a
      refine ih a (k' a) fun o => ?_
      -- the environment that answers `a` and goes on as `o` sees both rests
      have ho := h (o.after a)
      simp only [run, Oracle.after, List.nil_append, run_after, Prod.mk.injEq,
        List.cons.injEq, true_and] at ho
      exact Prod.ext ho.1 ho.2

/-! ### A constant environment -/

/-- The number of questions when every answer is `a`. -/
def asks (a : R) : Dialogue Q R E α → Nat
  | done _ => 0
  | ask _ k => asks a (k a) + 1

/-- The outcome when every answer is `a`. -/
def ends (a : R) : Dialogue Q R E α → Except E α
  | done r => r
  | ask _ k => ends a (k a)

/-- The number of questions of the rest, if there is one. -/
def asksAfter (a : R) (f : α → Dialogue Q R E β) : Except E α → Nat
  | .ok x => asks a (f x)
  | .error _ => 0

theorem ends_bind (a : R) (t : Dialogue Q R E α) (f : α → Dialogue Q R E β) :
    ends a (t >>= f) = (ends a t >>= fun x => ends a (f x)) := by
  induction t with
  | done r => cases r <;> rfl
  | ask q k ih => exact ih a

theorem asks_bind (a : R) (t : Dialogue Q R E α) (f : α → Dialogue Q R E β) :
    asks a (t >>= f) = asks a t + asksAfter a f (ends a t) := by
  induction t with
  | done r => cases r <;> simp [asks, ends, asksAfter] <;> rfl
  | ask q k ih =>
    simp only [ask_bind, asks, ends, ih]
    omega

@[simp] theorem asks_map (a : R) (f : α → β) (t : Dialogue Q R E α) :
    asks a (f <$> t) = asks a t := by
  induction t with
  | done r => cases r <;> rfl
  | ask q k ih => exact congrArg Nat.succ (ih a)

/-- Without questions only the outcome is left. -/
theorem eq_done_of_asks_eq_zero {a : R} {t : Dialogue Q R E α} (h : asks a t = 0) :
    t = done (ends a t) := by
  cases t with
  | done r => rfl
  | ask q k => simp [asks] at h

/-- The items up to the first one with `p`, that one included. -/
def upTo {ι : Type} (p : ι → Bool) : List ι → List ι
  | [] => []
  | x :: xs => x :: if p x then [] else upTo p xs

/-- A sequence of dialogues succeeds when each of them does. -/
theorem ends_mapM_isOk {ι : Type} (a : R) (g : ι → Dialogue Q R E α) : ∀ xs : List ι,
    (ends a (xs.mapM g)).isOk = xs.all fun x => (ends a (g x)).isOk
  | [] => rfl
  | x :: xs => by
    have ih := ends_mapM_isOk a g xs
    rw [List.mapM_cons, ends_bind, List.all_cons]
    cases hx : ends a (g x) with
    | error e => rfl
    | ok y =>
      rw [← ih]
      show (ends a (xs.mapM g >>= fun ys => pure (y :: ys))).isOk = _
      rw [ends_bind]
      cases ends a (xs.mapM g) <;> rfl

/-- A sequence of dialogues asks the questions of its members up to the first
that fails. -/
theorem asks_mapM {ι : Type} (a : R) (g : ι → Dialogue Q R E α) : ∀ xs : List ι,
    asks a (xs.mapM g) = ((upTo (fun x => !(ends a (g x)).isOk) xs).map fun x => asks a (g x)).sum
  | [] => rfl
  | x :: xs => by
    have ih := asks_mapM a g xs
    rw [List.mapM_cons, asks_bind, upTo]
    cases hx : ends a (g x) with
    | error e => simp [asksAfter, Except.isOk, Except.toBool]
    | ok y =>
      have hrest : asks a (xs.mapM g >>= fun ys => (pure (y :: ys) : Dialogue Q R E (List α))) =
          asks a (xs.mapM g) := by
        rw [asks_bind]
        cases ends a (xs.mapM g) <;> rfl
      have hok : (!(Except.ok y : Except E α).isOk) = false := rfl
      simp only [asksAfter, hrest, ih, hok, Bool.false_eq_true, if_false, List.map_cons,
        List.sum_cons]

/-- The error of a sequence is the error of one of its members. -/
theorem ends_mapM_error {ι : Type} {a : R} {g : ι → Dialogue Q R E α} {e : E} :
    ∀ {xs : List ι}, ends a (xs.mapM g) = .error e → ∃ x ∈ xs, ends a (g x) = .error e
  | [], h => by cases h
  | x :: xs, h => by
    rw [List.mapM_cons, ends_bind] at h
    cases hx : ends a (g x) with
    | error e' =>
      rw [hx] at h
      have he : e' = e := Except.error.inj h
      exact ⟨x, List.mem_cons_self, by rw [hx, he]⟩
    | ok y =>
      rw [hx] at h
      replace h : ends a (xs.mapM g >>= fun ys => pure (y :: ys)) = .error e := h
      rw [ends_bind] at h
      cases hxs : ends a (xs.mapM g) with
      | error e' =>
        rw [hxs] at h
        have he : e' = e := Except.error.inj h
        obtain ⟨z, hz, he⟩ := ends_mapM_error (he ▸ hxs)
        exact ⟨z, List.mem_cons_of_mem x hz, he⟩
      | ok ys =>
        rw [hxs] at h
        cases h

theorem sum_map_eq_zero {ι : Type} {g : ι → Nat} {xs : List ι} :
    (xs.map g).sum = 0 ↔ ∀ x ∈ xs, g x = 0 := by
  rw [List.sum_eq_zero_iff_forall_eq_nat]
  simp

/-- The sums agree only if their terms do. -/
theorem sum_eq_of_le {ι : Type} {g h : ι → Nat} : ∀ {xs : List ι}, (∀ x ∈ xs, g x ≤ h x) →
    (xs.map g).sum ≤ (xs.map h).sum ∧
      ((xs.map g).sum = (xs.map h).sum → ∀ x ∈ xs, g x = h x)
  | [], _ => by simp
  | x :: xs, hle => by
    have hx := hle x List.mem_cons_self
    obtain ⟨h1, h2⟩ := sum_eq_of_le fun y hy => hle y (List.mem_cons_of_mem x hy)
    simp only [List.map_cons, List.sum_cons]
    refine ⟨by omega, fun heq y hy => ?_⟩
    rcases List.mem_cons.mp hy with rfl | hy
    · omega
    · exact h2 (by omega) y hy

/-- The outcome when every answer is `a`, but the one after `n` questions,
which is `b`. -/
def playAt (a b : R) : Nat → Dialogue Q R E α → Except E α
  | _, done r => r
  | 0, ask _ k => ends a (k b)
  | n + 1, ask _ k => playAt a b n (k a)

theorem playAt_bind_left {a b : R} {f : α → Dialogue Q R E β} {x : α} :
    ∀ {n : Nat} {t : Dialogue Q R E α}, n < asks a t → playAt a b n t = .ok x →
      playAt a b n (t >>= f) = ends a (f x)
  | 0, ask q k, _, h => by
    replace h : ends a (k b) = .ok x := h
    show ends a (k b >>= f) = _
    rw [ends_bind, h]
    rfl
  | n + 1, ask q k, hn, h =>
    playAt_bind_left (n := n) (t := k a) (Nat.lt_of_succ_lt_succ hn) h
  | 0, done r, hn, _ => absurd hn (Nat.lt_irrefl 0)
  | n + 1, done r, hn, _ => absurd hn (Nat.not_lt_zero _)

theorem playAt_bind_right {a b : R} {f : α → Dialogue Q R E β} {x : α} (n : Nat) :
    ∀ {t : Dialogue Q R E α}, ends a t = .ok x →
      playAt a b (asks a t + n) (t >>= f) = playAt a b n (f x)
  | done r, h => by
    replace h : r = .ok x := h
    subst h
    rw [asks, Nat.zero_add]
    rfl
  | ask q k, h => by
    have ih := playAt_bind_right (b := b) (f := f) n (t := k a) h
    show playAt a b (asks a (k a) + 1 + n) (ask q k >>= f) = _
    rw [Nat.add_right_comm]
    exact ih

/-! ### Failing against every environment -/

/-- The dialogue succeeds against no environment: what would come after it
does not matter. -/
def Fails (t : Dialogue Q R E α) : Prop :=
  ∀ {β : Type} (f g : α → Dialogue Q R E β), (t >>= f) = (t >>= g)

theorem fails_fail (e : E) : Fails (fail e : Dialogue Q R E α) := fun _ _ => rfl

theorem Fails.bind_left {t : Dialogue Q R E α} (h : Fails t) (f : α → Dialogue Q R E β) :
    Fails (t >>= f) := by
  intro γ g g'
  rw [bind_assoc, bind_assoc]
  exact h _ _

theorem fails_bind_right (t : Dialogue Q R E α) {f : α → Dialogue Q R E β}
    (h : ∀ x, Fails (f x)) : Fails (t >>= f) := by
  intro γ g g'
  rw [bind_assoc, bind_assoc]
  congr 1
  funext x
  exact h x g g'

theorem fails_mapM {ι : Type} {g : ι → Dialogue Q R E α} {x : ι} (hx : Fails (g x)) :
    ∀ {xs : List ι}, x ∈ xs → Fails (xs.mapM g)
  | y :: ys, h => by
    rw [List.mapM_cons]
    rcases List.mem_cons.mp h with rfl | h
    · exact Fails.bind_left hx _
    · exact fails_bind_right _ fun _ => Fails.bind_left (fails_mapM hx h) _

/-- Members after one that fails do not matter. -/
theorem mapM_congr_upTo {ι : Type} {p : ι → Bool} {g h : ι → Dialogue Q R E α}
    (hp : ∀ x, p x = true → Fails (g x)) : ∀ {xs : List ι}, (∀ x ∈ upTo p xs, g x = h x) →
      xs.mapM g = xs.mapM h
  | [], _ => rfl
  | x :: xs, heq => by
    rw [upTo] at heq
    rw [List.mapM_cons, List.mapM_cons, ← heq x List.mem_cons_self]
    by_cases hx : p x = true
    · exact hp x hx _ _
    · rw [if_neg hx] at heq
      rw [mapM_congr_upTo hp fun y hy => heq y (List.mem_cons_of_mem x hy)]

end Trees

/-! ### Resumable machines -/

/-- What one step of a machine in `S` does: go on, ask a question and wait in
a state that takes the answer, or end. -/
inductive Action (S Q R E α : Type) where
  | silent (s : S)
  | call (q : Q) (resume : R → S)
  | ready (r : Except E α)

/-- The same step of a machine that keeps its state under `f` and changes its
result by `g`. -/
def Action.map {S T Q R E α β : Type} (f : S → T) (g : α → β) :
    Action S Q R E α → Action T Q R E β
  | silent s => silent (f s)
  | call q resume => call q fun r => f (resume r)
  | ready r => ready (r.map g)

/-- Where a run stands: after the questions in `h` in state `s`, or ended. -/
inductive Config (S Q E α : Type) where
  | running (h : List Q) (s : S)
  | finished (h : List Q) (r : Except E α)

section Machines

variable {S Q R E α : Type}

/-- `M`, started in the state, carries out the dialogue. -/
inductive Unfolds (M : S → Action S Q R E α) : S → Dialogue Q R E α → Prop
  | silent {s s' t} : M s = .silent s' → Unfolds M s' t → Unfolds M s t
  | call {s q resume k} : M s = .call q resume → (∀ a, Unfolds M (resume a) (k a)) →
      Unfolds M s (ask q k)
  | ready {s r} : M s = .ready r → Unfolds M s (done r)

/-- A question whose answer the machine takes in a step of its own. -/
theorem Unfolds.call_silent {M : S → Action S Q R E α} {s : S} {q : Q} {resume after : R → S}
    {k : R → Dialogue Q R E α} (hs : M s = .call q resume)
    (ha : ∀ a, M (resume a) = .silent (after a)) (hk : ∀ a, Unfolds M (after a) (k a)) :
    Unfolds M s (ask q k) :=
  .call hs fun a => .silent (ha a) (hk a)

/-- Only the next step of a state matters. -/
theorem Unfolds.of_step_eq {M : S → Action S Q R E α} {s s' : S} {t : Dialogue Q R E α}
    (h : M s' = M s) (hu : Unfolds M s t) : Unfolds M s' t := by
  cases hu with
  | silent hs hu => exact .silent (h.trans hs) hu
  | call hs hu => exact .call (h.trans hs) hu
  | ready hs => exact .ready (h.trans hs)

/-- A machine embedded in another one unfolds to the same dialogue, up to the
change of the result. -/
theorem Unfolds.map {T β : Type} {M : S → Action S Q R E α} {M' : T → Action T Q R E β}
    {f : S → T} {g : α → β} (hM : ∀ s, M' (f s) = (M s).map f g) {s : S}
    {t : Dialogue Q R E α} (hu : Unfolds M s t) : Unfolds M' (f s) (g <$> t) := by
  induction hu with
  | @silent s s' t hs _ ih => exact .silent (by rw [hM, hs]; rfl) ih
  | @call s q resume k hs _ ih =>
    exact Unfolds.call (k := fun r => g <$> k r) (by rw [hM, hs]; rfl) ih
  | @ready s r hs =>
    have hr : g <$> (done r : Dialogue Q R E α) = done (r.map g) := by cases r <;> rfl
    rw [hr]
    exact .ready (by rw [hM, hs]; rfl)

variable (M : S → Action S Q R E α) (o : Oracle Q R E)

/-- One step of a run against an environment. -/
def stepConfig : Config S Q E α → Config S Q E α
  | .running h s =>
    match M s with
    | .silent s' => .running h s'
    | .call q resume =>
      match o h q with
      | .ok a => .running (h ++ [q]) (resume a)
      | .error e => .finished (h ++ [q]) (.error e)
    | .ready r => .finished h r
  | .finished h r => .finished h r

/-- A run of at most `n` steps. -/
def advance (n : Nat) (c : Config S Q E α) : Config S Q E α := (stepConfig M o)^[n] c

/-- A run in slices, each of at most the given number of steps. -/
def runSlices (slices : List Nat) (c : Config S Q E α) : Config S Q E α :=
  slices.foldl (fun c n => advance M o n c) c

theorem advance_succ (n : Nat) (c : Config S Q E α) :
    advance M o (n + 1) c = advance M o n (stepConfig M o c) := rfl

theorem advance_finished (n : Nat) (h : List Q) (r : Except E α) :
    advance M o n (.finished h r) = .finished h r :=
  Function.iterate_fixed rfl n

/-- Only the total number of steps matters. -/
theorem runSlices_eq : ∀ (slices : List Nat) (c : Config S Q E α),
    runSlices M o slices c = advance M o slices.sum c
  | [], _ => rfl
  | n :: ns, c => by
    have ih := runSlices_eq ns (advance M o n c)
    simp only [runSlices, List.foldl_cons] at ih ⊢
    rw [ih, List.sum_cons, Nat.add_comm]
    exact (Function.iterate_add_apply _ ns.sum n c).symm

variable {M}

/-- The machine ends after the questions and with the outcome of the dialogue
it unfolds to. -/
theorem Unfolds.finishes {s : S} {t : Dialogue Q R E α} (hu : Unfolds M s t) (h : List Q) :
    ∃ n, advance M o n (.running h s) = .finished (t.run o h).1 (t.run o h).2 := by
  induction hu generalizing h with
  | silent hs _ ih =>
    obtain ⟨n, hn⟩ := ih h
    exact ⟨n + 1, by rw [advance_succ]; simpa only [stepConfig, hs] using hn⟩
  | @call s q resume k hs _ ih =>
    cases ho : o h q with
    | ok a =>
      obtain ⟨n, hn⟩ := ih a (h ++ [q])
      refine ⟨n + 1, ?_⟩
      rw [advance_succ]
      simpa only [stepConfig, hs, run, ho] using hn
    | error e =>
      refine ⟨1, ?_⟩
      rw [advance_succ]
      simp only [stepConfig, hs, run, ho, advance_finished]
  | ready hs => exact ⟨1, by rw [advance_succ]; simp only [stepConfig, hs, run, advance_finished]⟩

variable (M)

/-- The machine from `s` behaves as the dialogue: against every environment,
and however its run is sliced, it ends once it was given enough steps, after
the same questions and with the same outcome. -/
def Realizes (s : S) (t : Dialogue Q R E α) : Prop :=
  ∀ o : Oracle Q R E, ∃ n, ∀ slices : List Nat, n ≤ slices.sum →
    runSlices M o slices (.running [] s) = .finished (t.run o []).1 (t.run o []).2

variable {M}

theorem Unfolds.realizes {s : S} {t : Dialogue Q R E α} (hu : Unfolds M s t) :
    Realizes M s t := by
  intro o
  obtain ⟨n, hn⟩ := hu.finishes o []
  refine ⟨n, fun slices hle => ?_⟩
  obtain ⟨m, hm⟩ := Nat.exists_eq_add_of_le' hle
  rw [runSlices_eq, hm, advance, Function.iterate_add_apply, ← advance, ← advance, hn,
    advance_finished]

/-- **Agreement is equality of dialogues.** -/
theorem realizes_iff_eq [Inhabited E] {s : S} {t u : Dialogue Q R E α} (hu : Unfolds M s t) :
    Realizes M s u ↔ t = u := by
  constructor
  · intro hr
    refine run_injective t u fun o => ?_
    obtain ⟨n, hn⟩ := hu.realizes o
    obtain ⟨m, hm⟩ := hr o
    have h1 := hn [n + m] (by simp)
    have h2 := hm [n + m] (by simp)
    rw [h1] at h2
    injection h2 with h3 h4
    exact Prod.ext h3 h4
  · rintro rfl
    exact hu.realizes

end Machines

end Dialogue
