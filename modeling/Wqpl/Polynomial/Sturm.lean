/-
# Sturm's theorem

In a remainder sequence every polynomial but the last two is a multiple of the
next one without the one after that (`RemainderChain`). If the last one has no
root and the second one is positive behind each root of the first one and
negative before it, then the sign variations along the sequence are lost one by
one at the roots of the first one, and nowhere else: their number and the number
of the roots that lie behind are together constant, because they are constant
near every point (`variations_add_count`). The sequence of a polynomial and its
derivative comes to this once their common divisor is taken out
(`variations_add_count_derivative`).
-/
import Mathlib.Algebra.Polynomial.FieldDivision
import Mathlib.Analysis.Polynomial.Basic
import Mathlib.Data.Sign.Basic
import Mathlib.Topology.Algebra.Polynomial
import Mathlib.Topology.LocallyConstant.Basic
import Mathlib.Topology.Instances.Real.Lemmas

namespace Wqpl

open Polynomial Filter Topology

/-! ### Sign variations -/

/-- The changes of sign in a list behind an earlier sign; zeros do not count. -/
def variationsFrom (previous : SignType) : List SignType → Nat
  | [] => 0
  | sign :: signs =>
    if sign = 0 then variationsFrom previous signs
    else (if previous ≠ 0 ∧ sign ≠ previous then 1 else 0) + variationsFrom sign signs

theorem variationsFrom_first (sign : SignType) (signs : List SignType) :
    variationsFrom 0 (sign :: signs) = variationsFrom sign signs := by
  cases sign <;> simp [variationsFrom]

/-- Two signs that are not zero change or not. -/
theorem variationsFrom_cons {previous sign : SignType} (hprevious : previous ≠ 0) (hsign : sign ≠ 0)
    (signs : List SignType) : variationsFrom previous (sign :: signs) =
      (if sign ≠ previous then 1 else 0) + variationsFrom sign signs := by
  simp [variationsFrom, hprevious, hsign]

/-- Between opposite signs there is one change, whatever stands between them. -/
theorem variationsFrom_between {previous : SignType} (hprevious : previous ≠ 0) (sign : SignType)
    (signs : List SignType) :
    variationsFrom previous (sign :: -previous :: signs) = 1 + variationsFrom (-previous) signs := by
  cases previous <;> cases sign <;> first | exact absurd rfl hprevious | simp [variationsFrom]

/-- All signs turned have the same changes. -/
theorem variationsFrom_mul {factor : SignType} (hfactor : factor ≠ 0) (signs : List SignType) :
    ∀ previous, variationsFrom (factor * previous) (signs.map (factor * ·)) =
      variationsFrom previous signs := by
  induction signs with
  | nil => exact fun _ => rfl
  | cons sign signs ih =>
    intro previous
    rw [List.map_cons]
    unfold variationsFrom
    rw [ih, ih]
    cases factor <;> first | exact absurd rfl hfactor | (cases sign <;> cases previous <;> rfl)

/-! ### Chains -/

/-- A sequence of remainders: every item and the one after the next add up to a
multiple of the next one. -/
def RemainderChain {R : Type*} [CommRing R] (Last : R → Prop) : List R → Prop
  | [] => False
  | [p] => Last p
  | p :: q :: rest => (∃ c, p + rest.headD 0 = c * q) ∧ RemainderChain Last (q :: rest)

namespace RemainderChain

variable {R S : Type*} [CommRing R] [CommRing S] {Last : R → Prop}

theorem map (f : R →+* S) {Last' : S → Prop} (hlast : ∀ p, Last p → Last' (f p)) :
    ∀ L : List R, RemainderChain Last L → RemainderChain Last' (L.map f)
  | [p], h => hlast p h
  | p :: q :: rest, ⟨⟨c, hc⟩, h⟩ => by
    refine ⟨⟨f c, ?_⟩, map f hlast (q :: rest) h⟩
    rw [← f.map_mul, ← hc, f.map_add]
    cases rest with
    | nil => rw [List.headD_nil, List.map_nil, List.headD_nil, f.map_zero]
    | cons r rest => rfl

/-- The last item divides all of them; without it the last one is one. -/
theorem divide : ∀ L : List R, RemainderChain Last L →
    ∃ g L', Last g ∧ L = L'.map (g * ·) ∧ RemainderChain (· = 1) L'
  | [p], h => ⟨p, [1], h, by simp, rfl⟩
  | p :: q :: rest, ⟨⟨c, hc⟩, h⟩ => by
    obtain ⟨g, L', hg, heq, hchain⟩ := divide (q :: rest) h
    cases L' with
    | nil => exact absurd heq (by simp)
    | cons q' rest' =>
      rw [List.map_cons, List.cons.injEq] at heq
      obtain ⟨rfl, rfl⟩ := heq
      have hhead : (rest'.map (g * ·)).headD 0 = g * rest'.headD 0 := by
        cases rest' with
        | nil => simp
        | cons r rest' => rfl
      refine ⟨g, (c * q' - rest'.headD 0) :: q' :: rest', hg, ?_, ⟨c, sub_add_cancel _ _⟩, hchain⟩
      rw [List.map_cons, List.map_cons, List.cons.injEq]
      refine ⟨?_, rfl⟩
      rw [mul_sub, ← hhead, mul_left_comm, ← hc, add_sub_cancel_right]

end RemainderChain

/-! ### The variations near a point -/

section Local

/-- The signs of the polynomials at a point. -/
noncomputable def signsAt (L : List ℝ[X]) (x : ℝ) : List SignType :=
  L.map fun p => SignType.sign (p.eval x)

noncomputable def variationsAt (L : List ℝ[X]) (x : ℝ) : Nat := variationsFrom 0 (signsAt L x)

theorem variationsAt_cons (p : ℝ[X]) (L : List ℝ[X]) (x : ℝ) :
    variationsAt (p :: L) x = variationsFrom (SignType.sign (p.eval x)) (signsAt L x) :=
  variationsFrom_first _ _

/-- Where a polynomial has no root its sign is constant. -/
theorem eventually_sign_eq {p : ℝ[X]} {a : ℝ} (h : p.eval a ≠ 0) :
    ∀ᶠ x in 𝓝 a, SignType.sign (p.eval x) = SignType.sign (p.eval a) := by
  rcases lt_or_gt_of_ne h with hneg | hpos
  · filter_upwards [p.continuous.continuousAt.eventually_lt_const hneg] with x hx
    rw [sign_neg hx, sign_neg hneg]
  · filter_upwards [p.continuous.continuousAt.eventually_const_lt hpos] with x hx
    rw [sign_pos hx, sign_pos hpos]

/-- Two polynomials of a chain that follow each other have no common root. -/
theorem RemainderChain.eval_ne_zero (a : ℝ) : ∀ (p : ℝ[X]) (L : List ℝ[X]),
    RemainderChain (· = 1) (p :: L) → p.eval a = 0 → (L.headD 0).eval a ≠ 0
  | p, [], h, hp, _ => by
    have hone : p = 1 := h
    rw [hone, eval_one] at hp
    exact one_ne_zero hp
  | p, q :: rest, ⟨⟨c, hc⟩, h⟩, hp, hq => by
    refine eval_ne_zero a q rest h hq ?_
    have heval := congrArg (eval a) hc
    rw [eval_add, eval_mul, hp, show q.eval a = 0 from hq, mul_zero, zero_add] at heval
    exact heval

/-- Where the first polynomial of a chain has no root the variations are
constant: a root of another one lies between opposite signs. -/
theorem eventually_variationsAt (a : ℝ) : ∀ (p : ℝ[X]) (L : List ℝ[X]),
    RemainderChain (· = 1) (p :: L) → p.eval a ≠ 0 →
    ∀ᶠ x in 𝓝 a, variationsAt (p :: L) x = variationsAt (p :: L) a
  | p, [], _, hp => by
    filter_upwards [eventually_sign_eq hp] with x hx
    rw [variationsAt_cons, variationsAt_cons, hx]
    rfl
  | p, q :: rest, ⟨⟨c, hc⟩, h⟩, hp => by
    by_cases hq : q.eval a = 0
    · -- the next polynomial but one has the opposite sign
      have hnext := h.eval_ne_zero a q rest hq
      cases rest with
      | nil => exact absurd eval_zero hnext
      | cons r rest =>
        have hr : r.eval a ≠ 0 := hnext
        have heval := congrArg (eval a) hc
        rw [eval_add, eval_mul, hq, mul_zero] at heval
        have hopposite : r.eval a = -p.eval a := eq_neg_of_add_eq_zero_right heval
        have hsign : SignType.sign (r.eval a) = -SignType.sign (p.eval a) := by
          rw [hopposite, Left.sign_neg]
        have htail : RemainderChain (· = 1) (r :: rest) := h.2
        have hp' : SignType.sign (p.eval a) ≠ 0 := sign_ne_zero.mpr hp
        filter_upwards [eventually_sign_eq hp, eventually_sign_eq hr,
          eventually_variationsAt a r rest htail hr] with x hxp hxr hxv
        rw [variationsAt_cons, variationsAt_cons] at hxv ⊢
        show variationsFrom _ (SignType.sign (q.eval x) :: SignType.sign (r.eval x) :: signsAt rest x)
          = variationsFrom _ (SignType.sign (q.eval a) :: SignType.sign (r.eval a) :: signsAt rest a)
        rw [hxr, hsign] at hxv ⊢
        rw [hxp, variationsFrom_between hp', variationsFrom_between hp', hxv]
    · have hp' : SignType.sign (p.eval a) ≠ 0 := sign_ne_zero.mpr hp
      have hq' : SignType.sign (q.eval a) ≠ 0 := sign_ne_zero.mpr hq
      filter_upwards [eventually_sign_eq hp, eventually_sign_eq hq,
        eventually_variationsAt a q rest h hq] with x hxp hxq hxv
      rw [variationsAt_cons, variationsAt_cons] at hxv ⊢
      show variationsFrom _ (SignType.sign (q.eval x) :: signsAt rest x)
        = variationsFrom _ (SignType.sign (q.eval a) :: signsAt rest a)
      rw [hxq] at hxv ⊢
      rw [hxp, variationsFrom_cons hp' hq', variationsFrom_cons hp' hq', hxv]

/-- The second polynomial is negative before a root and positive behind it,
against the first one. -/
def Crosses (p q : ℝ[X]) : Prop :=
  ∀ a, p.eval a = 0 → ∀ᶠ x in 𝓝 a, SignType.sign (p.eval x * q.eval x) = SignType.sign (x - a)

/-- At a root of the first polynomial one variation is lost. -/
theorem eventually_variationsAt_root {a : ℝ} {p q : ℝ[X]} {rest : List ℝ[X]}
    (h : RemainderChain (· = 1) (p :: q :: rest)) (hcross : Crosses p q) (hp : p.eval a = 0) :
    ∀ᶠ x in 𝓝 a, variationsAt (p :: q :: rest) x =
      variationsAt (p :: q :: rest) a + if x < a then 1 else 0 := by
  have hq : q.eval a ≠ 0 := h.eval_ne_zero a p (q :: rest) hp
  have hq' : SignType.sign (q.eval a) ≠ 0 := sign_ne_zero.mpr hq
  have hat : variationsAt (p :: q :: rest) a = variationsAt (q :: rest) a := by
    rw [variationsAt_cons, hp, sign_zero]
    rfl
  filter_upwards [eventually_sign_eq hq, eventually_variationsAt a q rest h.2 hq,
    hcross a hp] with x hxq hxv hxc
  rw [hat, ← hxv, variationsAt_cons, variationsAt_cons]
  show variationsFrom _ (SignType.sign (q.eval x) :: signsAt rest x) = _
  rw [sign_mul, hxq] at hxc
  rw [hxq]
  rcases lt_trichotomy x a with hlt | rfl | hgt
  · rw [sign_neg (sub_neg_of_lt hlt)] at hxc
    have hopposite : SignType.sign (p.eval x) = -SignType.sign (q.eval a) := by
      revert hxc hq'
      cases SignType.sign (p.eval x) <;> cases SignType.sign (q.eval a) <;> decide
    rw [if_pos hlt, hopposite, variationsFrom_cons (by simpa using hq') hq', add_comm]
    congr 1
    refine if_pos fun heq => hq' ?_
    revert heq
    cases SignType.sign (q.eval a) <;> decide
  · rw [if_neg (lt_irrefl x), hp, sign_zero, variationsFrom_first, add_zero]
  · rw [sign_pos (sub_pos_of_lt hgt)] at hxc
    have hsame : SignType.sign (p.eval x) = SignType.sign (q.eval a) := by
      revert hxc hq'
      cases SignType.sign (p.eval x) <;> cases SignType.sign (q.eval a) <;> decide
    rw [if_neg hgt.not_gt, hsame, variationsFrom_cons hq' hq', if_neg (not_not_intro rfl), zero_add,
      add_zero]

end Local

/-! ### The number of roots behind a point -/

section Count

/-- The roots up to a point. -/
noncomputable def rootsUpTo (p : ℝ[X]) (x : ℝ) : Finset ℝ := p.roots.toFinset.filter (· ≤ x)

theorem mem_rootsUpTo {p : ℝ[X]} (hp : p ≠ 0) {x r : ℝ} :
    r ∈ rootsUpTo p x ↔ p.eval r = 0 ∧ r ≤ x := by
  rw [rootsUpTo, Finset.mem_filter, Multiset.mem_toFinset, mem_roots hp, IsRoot.def]

/-- The roots between two points. -/
noncomputable def rootsBetween (p : ℝ[X]) (a b : ℝ) : Finset ℝ :=
  p.roots.toFinset.filter fun r => a < r ∧ r < b

theorem mem_rootsBetween {p : ℝ[X]} (hp : p ≠ 0) {a b r : ℝ} :
    r ∈ rootsBetween p a b ↔ p.eval r = 0 ∧ a < r ∧ r < b := by
  rw [rootsBetween, Finset.mem_filter, Multiset.mem_toFinset, mem_roots hp, IsRoot.def]

theorem card_rootsUpTo_sub {p : ℝ[X]} (hp : p ≠ 0) (a : ℝ) {b : ℝ} (hb : p.eval b ≠ 0) :
    (rootsUpTo p b).card - (rootsUpTo p a).card = (rootsBetween p a b).card := by
  rcases le_or_gt a b with hab | hab
  · have hunion : rootsUpTo p b = rootsUpTo p a ∪ rootsBetween p a b := by
      ext r
      rw [Finset.mem_union, mem_rootsUpTo hp, mem_rootsUpTo hp, mem_rootsBetween hp, ← and_or_left]
      refine and_congr_right fun hr => ⟨fun hle => ?_, fun h => ?_⟩
      · have hne : r ≠ b := fun h => hb (h ▸ hr)
        rcases le_or_gt r a with hra | hra
        · exact .inl hra
        · exact .inr ⟨hra, lt_of_le_of_ne hle hne⟩
      · rcases h with hra | ⟨-, hrb⟩
        · exact hra.trans hab
        · exact hrb.le
    have hdisjoint : Disjoint (rootsUpTo p a) (rootsBetween p a b) := by
      rw [Finset.disjoint_left]
      intro r hra hr
      rw [mem_rootsUpTo hp] at hra
      rw [mem_rootsBetween hp] at hr
      exact absurd hr.2.1 hra.2.not_gt
    rw [hunion, Finset.card_union_of_disjoint hdisjoint, Nat.add_sub_cancel_left]
  · have hsub : rootsUpTo p b ⊆ rootsUpTo p a := by
      intro r hr
      rw [mem_rootsUpTo hp] at hr ⊢
      exact ⟨hr.1, hr.2.trans hab.le⟩
    have hempty : rootsBetween p a b = ∅ := by
      rw [Finset.eq_empty_iff_forall_notMem]
      intro r hr
      rw [mem_rootsBetween hp] at hr
      exact absurd (hr.2.1.trans hr.2.2) hab.not_gt
    rw [hempty, Finset.card_empty, Nat.sub_eq_zero_of_le (Finset.card_le_card hsub)]

/-- Near a point the number of the roots changes at the point alone. -/
theorem eventually_card_rootsUpTo {p : ℝ[X]} (hp : p ≠ 0) (a : ℝ) :
    ∀ᶠ x in 𝓝 a, (rootsUpTo p x).card + (if p.eval a = 0 ∧ x < a then 1 else 0) =
      (rootsUpTo p a).card := by
  have hother : ∀ᶠ x in 𝓝 a, ∀ r ∈ p.roots.toFinset, r ≠ a → (r ≤ x ↔ r ≤ a) := by
    rw [Filter.eventually_all_finset]
    intro r _
    rcases lt_trichotomy r a with hlt | rfl | hgt
    · filter_upwards [eventually_gt_nhds hlt] with x hx _
      exact ⟨fun _ => hlt.le, fun _ => hx.le⟩
    · exact .of_forall fun x h => absurd rfl h
    · filter_upwards [eventually_lt_nhds hgt] with x hx _
      exact ⟨fun h => absurd hx h.not_gt, fun h => absurd hgt h.not_gt⟩
  filter_upwards [hother] with x hx
  have hroots : ∀ r, p.eval r = 0 → r ≠ a → (r ≤ x ↔ r ≤ a) := fun r hr =>
    hx r (Multiset.mem_toFinset.mpr ((mem_roots hp).mpr hr))
  by_cases hlost : p.eval a = 0 ∧ x < a
  · have hinsert : rootsUpTo p a = insert a (rootsUpTo p x) := by
      ext r
      rw [Finset.mem_insert, mem_rootsUpTo hp, mem_rootsUpTo hp]
      by_cases hr : r = a
      · simp [hr, hlost.1]
      · simp only [hr, false_or]
        exact and_congr_right fun hroot => (hroots r hroot hr).symm
    rw [if_pos hlost, hinsert, Finset.card_insert_of_notMem]
    rw [mem_rootsUpTo hp]
    exact fun h => absurd h.2 hlost.2.not_ge
  · rw [if_neg hlost, add_zero]
    congr 1
    ext r
    rw [mem_rootsUpTo hp, mem_rootsUpTo hp]
    refine and_congr_right fun hroot => ?_
    by_cases hr : r = a
    · subst hr
      exact ⟨fun _ => le_rfl, fun _ => not_lt.mp fun h => hlost ⟨hroot, h⟩⟩
    · exact hroots r hroot hr

/-- **Sturm's theorem** for a chain without a common divisor. What the
variations lose the roots gain, near every point and so everywhere. -/
theorem variations_add_count {p q : ℝ[X]} {rest : List ℝ[X]} (hp : p ≠ 0)
    (h : RemainderChain (· = 1) (p :: q :: rest)) (hcross : Crosses p q) (x y : ℝ) :
    variationsAt (p :: q :: rest) x + (rootsUpTo p x).card =
      variationsAt (p :: q :: rest) y + (rootsUpTo p y).card := by
  have hlocal : IsLocallyConstant fun x =>
      variationsAt (p :: q :: rest) x + (rootsUpTo p x).card := by
    rw [IsLocallyConstant.iff_eventually_eq]
    intro a
    by_cases hroot : p.eval a = 0
    · filter_upwards [eventually_variationsAt_root h hcross hroot,
        eventually_card_rootsUpTo hp a] with x hv hc
      rw [← hc, hv]
      simp only [hroot, true_and]
      omega
    · filter_upwards [eventually_variationsAt a p (q :: rest) h hroot,
        eventually_card_rootsUpTo hp a] with x hv hc
      rw [← hc, hv, if_neg fun h => hroot h.1, add_zero]
  exact hlocal.apply_eq_of_preconnectedSpace x y

end Count

/-! ### The derivative -/

section Derivative

/-- A polynomial and its derivative have opposite signs before a root and the
same sign behind it. -/
theorem crosses_derivative {p : ℝ[X]} (hp : p ≠ 0) : Crosses p (derivative p) := by
  intro a ha
  obtain ⟨r, hr, hdvd⟩ := exists_eq_pow_rootMultiplicity_mul_and_not_dvd p hp a
  have hm : 0 < p.rootMultiplicity a := (rootMultiplicity_pos hp).mpr ha
  obtain ⟨m, hm⟩ := Nat.exists_eq_succ_of_ne_zero hm.ne'
  rw [hm] at hr
  have hra : r.eval a ≠ 0 := fun h => hdvd (dvd_iff_isRoot.mpr h)
  -- what is left of the product without the powers of the linear factor
  have hfactor : p * derivative p =
      (X - C a) ^ (2 * m + 1) * (r * (C (m + 1 : ℝ) * r + (X - C a) * derivative r)) := by
    rw [hr, derivative_mul, derivative_X_sub_C_pow]
    push_cast
    rw [C_add, C_1, pow_succ]
    ring
  have hpos : 0 < (r * (C (m + 1 : ℝ) * r + (X - C a) * derivative r)).eval a := by
    simp only [eval_mul, eval_add, eval_sub, eval_X, eval_C, sub_self, zero_mul, add_zero]
    have hsquare : 0 < r.eval a * r.eval a := mul_self_pos.mpr hra
    nlinarith [hsquare, (Nat.cast_nonneg m : (0 : ℝ) ≤ m)]
  filter_upwards [(Polynomial.continuous _).continuousAt.eventually_const_lt hpos] with x hx
  rw [← eval_mul, hfactor, eval_mul, sign_mul, sign_pos hx, mul_one, eval_pow, eval_sub, eval_X,
    eval_C, sign_pow, pow_succ, pow_mul]
  cases SignType.sign (x - a) with
  | zero => exact mul_zero _
  | neg => rw [show (SignType.neg ^ 2 : SignType) = 1 from rfl, one_pow, one_mul]
  | pos => rw [show (SignType.pos ^ 2 : SignType) = 1 from rfl, one_pow, one_mul]

/-- The greatest common divisor with the derivative takes no root away. -/
theorem eval_divided {g p q : ℝ[X]} (hp : g * p ≠ 0) (hq : derivative (g * p) = g * q) (a : ℝ) :
    (g * p).eval a = 0 ↔ p.eval a = 0 := by
  refine ⟨fun h => ?_, fun h => by rw [eval_mul, h, mul_zero]⟩
  have hp' : p ≠ 0 := right_ne_zero_of_mul hp
  have hroot : (g * p).IsRoot a := h
  have hderivative : derivative (g * p) ≠ 0 := fun hzero =>
    (natDegree_pos_iff_degree_pos.mpr (degree_pos_of_root hp hroot)).ne' (derivative_eq_zero.mp hzero)
  have hmult := derivative_rootMultiplicity_of_root hroot
  rw [hq] at hmult hderivative
  rw [rootMultiplicity_mul hderivative, rootMultiplicity_mul hp] at hmult
  have hpos := (rootMultiplicity_pos hp).mpr hroot
  rw [rootMultiplicity_mul hp] at hpos
  exact (rootMultiplicity_pos hp').mp (by omega)

/-- Off the roots of the factor the signs of the multiples vary as those of the
factors do. -/
theorem variationsAt_map_mul (g : ℝ[X]) (L : List ℝ[X]) {x : ℝ} (hg : g.eval x ≠ 0) :
    variationsAt (L.map (g * ·)) x = variationsAt L x := by
  have hsigns : signsAt (L.map (g * ·)) x =
      (signsAt L x).map (SignType.sign (g.eval x) * ·) := by
    simp [signsAt, Function.comp_def, sign_mul]
  have hmul := variationsFrom_mul (sign_ne_zero.mpr hg) (signsAt L x) 0
  rw [mul_zero] at hmul
  rw [variationsAt, hsigns, hmul]
  rfl

/-- **Sturm's theorem.** For a polynomial, its derivative and their negated
remainders. -/
theorem variations_add_count_derivative {p : ℝ[X]} (hp : p ≠ 0) {rest : List ℝ[X]}
    (h : RemainderChain (· ≠ 0) (p :: derivative p :: rest)) {x y : ℝ} (hx : p.eval x ≠ 0)
    (hy : p.eval y ≠ 0) :
    variationsAt (p :: derivative p :: rest) x + (rootsUpTo p x).card =
      variationsAt (p :: derivative p :: rest) y + (rootsUpTo p y).card := by
  obtain ⟨g, L', hg, heq, hchain⟩ := h.divide
  match L', heq with
  | p' :: q' :: rest', heq =>
    rw [List.map_cons, List.map_cons, List.cons.injEq, List.cons.injEq] at heq
    obtain ⟨rfl, hq, rfl⟩ := heq
    have hp' : p' ≠ 0 := right_ne_zero_of_mul hp
    have hroots := eval_divided hp hq
    have hrootsUpTo : ∀ x, rootsUpTo (g * p') x = rootsUpTo p' x := by
      intro x
      ext r
      rw [mem_rootsUpTo hp, mem_rootsUpTo hp', hroots]
    have hcross : Crosses p' q' := by
      intro a ha
      have hother : ∀ᶠ x in 𝓝 a, g.eval x = 0 → x = a := by
        have hclosed : IsClosed ({x | g.IsRoot x} \ {a}) :=
          ((finite_setOfPred_isRoot hg).subset Set.sdiff_subset).isClosed
        filter_upwards [hclosed.isOpen_compl.mem_nhds fun h => h.2 rfl] with x hx hgx
        exact not_not.mp fun hne => hx ⟨hgx, hne⟩
      filter_upwards [crosses_derivative hp a ((hroots a).mpr ha), hother] with x hc hx
      by_cases hgx : g.eval x = 0
      · rw [hx hgx, ha, zero_mul, sub_self]
      · rw [← hc, hq, eval_mul, eval_mul, mul_mul_mul_comm, sign_mul (_ * _),
          sign_pos (mul_self_pos.mpr hgx), one_mul]
    rw [eval_mul] at hx hy
    have hdivided := variations_add_count hp' hchain hcross x y
    rw [← variationsAt_map_mul g _ (left_ne_zero_of_mul hx),
      ← variationsAt_map_mul g _ (left_ne_zero_of_mul hy), ← hrootsUpTo x, ← hrootsUpTo y] at hdivided
    rw [hq]
    exact hdivided

end Derivative

/-! ### Minus infinity -/

section AtBot

/-- The sign of a polynomial far below zero. -/
noncomputable def signAtBot (p : ℝ[X]) : SignType :=
  if Even p.natDegree then SignType.sign p.leadingCoeff else -SignType.sign p.leadingCoeff

theorem eventually_sign_atBot (p : ℝ[X]) :
    ∀ᶠ x in atBot, SignType.sign (p.eval x) = signAtBot p := by
  obtain ⟨factor, hfactor, heq⟩ := p.isEquivalent_atBot_lead.exists_eq_mul
  filter_upwards [heq, hfactor.eventually_const_lt one_pos, eventually_lt_atBot 0] with x hx hpos hneg
  rw [hx, Pi.mul_apply, sign_mul, sign_pos hpos, one_mul, sign_mul, sign_pow, sign_neg hneg,
    signAtBot]
  split_ifs with heven
  · rw [heven.neg_one_pow, mul_one]
  · rw [(Nat.not_even_iff_odd.mp heven).neg_one_pow, mul_neg_one]

theorem eventually_signsAt_atBot (L : List ℝ[X]) :
    ∀ᶠ x in atBot, signsAt L x = L.map signAtBot := by
  induction L with
  | nil => exact .of_forall fun _ => rfl
  | cons p L ih =>
    filter_upwards [eventually_sign_atBot p, ih] with x hp hL
    rw [List.map_cons, ← hp, ← hL]
    rfl

/-- **The number of roots up to a point** is that of the variations lost since
minus infinity. -/
theorem variationsAt_add_card {p : ℝ[X]} (hp : p ≠ 0) {rest : List ℝ[X]}
    (h : RemainderChain (· ≠ 0) (p :: derivative p :: rest)) {x : ℝ} (hx : p.eval x ≠ 0) :
    variationsAt (p :: derivative p :: rest) x + (rootsUpTo p x).card =
      variationsFrom 0 ((p :: derivative p :: rest).map signAtBot) := by
  have hbelow : ∀ᶠ y in atBot, ∀ r ∈ p.roots.toFinset, y < r := by
    rw [Filter.eventually_all_finset]
    exact fun r _ => eventually_lt_atBot r
  obtain ⟨y, hsigns, hy⟩ :=
    ((eventually_signsAt_atBot (p :: derivative p :: rest)).and hbelow).exists
  have hroot : ∀ r, p.eval r = 0 → y < r := fun r hr =>
    hy r (Multiset.mem_toFinset.mpr ((mem_roots hp).mpr hr))
  have hempty : rootsUpTo p y = ∅ := by
    rw [Finset.eq_empty_iff_forall_notMem]
    intro r hr
    rw [mem_rootsUpTo hp] at hr
    exact absurd (hroot r hr.1) hr.2.not_gt
  rw [variations_add_count_derivative hp h hx fun h => lt_irrefl y (hroot y h), hempty,
    Finset.card_empty, add_zero, variationsAt, hsigns]

end AtBot

end Wqpl
