/-
# Loops that may fail

A loop over a list with a step that may have no result has one when every step
has (`mapM_some`), and none when a step has none (`mapM_none_iff`). Two loops in
a row are one (`mapM_bind`), and loops with related steps are related
(`mapM_related`).
-/
import Mathlib.Data.List.Forall2

namespace Wqpl

variable {α β γ : Type}

theorem ok_of_bind {ε : Type} {x : Except ε α} {f : α → Except ε β} {b : β}
    (h : (x >>= f) = .ok b) : ∃ a, x = .ok a ∧ f a = .ok b := by
  cases x with
  | error e => cases h
  | ok a => exact ⟨a, rfl, h⟩

theorem mapM_some {f : α → Option β} : ∀ {xs : List α} {ys : List β}, xs.mapM f = some ys →
    List.Forall₂ (fun x y => f x = some y) xs ys
  | [], ys, h => by
    obtain rfl : [] = ys := Option.some.inj h
    exact .nil
  | x :: xs, ys, h => by
    simp only [List.mapM_cons, bind, Option.bind_eq_some_iff, pure, Option.some.injEq] at h
    obtain ⟨y, hy, ys, hys, rfl⟩ := h
    exact .cons hy (mapM_some hys)

theorem mapM_some_iff {f : α → Option β} {xs : List α} {ys : List β} :
    xs.mapM f = some ys ↔ List.Forall₂ (fun x y => f x = some y) xs ys := by
  refine ⟨mapM_some, fun h => ?_⟩
  induction h with
  | nil => rfl
  | cons hx _ ih =>
    rw [List.mapM_cons, hx, ih]
    rfl

/-- A loop whose steps all have a result. -/
theorem mapM_eq_map {f : α → Option β} {g : α → β} {xs : List α}
    (h : ∀ x ∈ xs, f x = some (g x)) : xs.mapM f = some (xs.map g) :=
  mapM_some_iff.mpr (List.forall₂_map_right_iff.mpr (List.forall₂_same.mpr h))

theorem mapM_none_iff {f : α → Option β} : ∀ xs : List α,
    xs.mapM f = none ↔ ∃ x ∈ xs, f x = none
  | [] => by simp
  | x :: xs => by
    have ih := mapM_none_iff (f := f) xs
    rw [List.mapM_cons, List.exists_mem_cons_iff, ← ih]
    cases f x <;> cases xs.mapM f <;> simp

/-- A loop with errors succeeds with the results of its steps. -/
theorem mapM_ok_iff {ε : Type} {f : α → Except ε β} : ∀ {xs : List α} {ys : List β},
    xs.mapM f = .ok ys ↔ List.Forall₂ (fun x y => f x = .ok y) xs ys
  | [], [] => iff_of_true rfl .nil
  | [], _ :: _ => iff_of_false nofun nofun
  | x :: xs, ys => by
    have ih := @mapM_ok_iff ε f xs
    rw [List.mapM_cons]
    constructor
    · intro h
      obtain ⟨y, hy, h⟩ := ok_of_bind h
      obtain ⟨zs, hzs, h⟩ := ok_of_bind h
      obtain rfl := Except.ok.inj h
      exact .cons hy (ih.mp hzs)
    · intro h
      obtain ⟨y, zs, hy, hzs, rfl⟩ := List.forall₂_cons_left_iff.mp h
      rw [hy, ih.mpr hzs]
      rfl

theorem length_of_mapM {f : α → Option β} {xs : List α} {ys : List β} (h : xs.mapM f = some ys) :
    ys.length = xs.length :=
  (mapM_some h).length_eq.symm

theorem mem_of_mapM {f : α → Option β} {xs : List α} {ys : List β} (h : xs.mapM f = some ys) {y : β}
    (hy : y ∈ ys) : ∃ x ∈ xs, f x = some y := by
  have hxs := mapM_some h
  clear h
  induction hxs with
  | nil => cases hy
  | cons hx _ ih =>
    rcases List.mem_cons.mp hy with rfl | hy
    · exact ⟨_, List.mem_cons_self, hx⟩
    · obtain ⟨x, hmem, hfx⟩ := ih hy
      exact ⟨x, List.mem_cons_of_mem _ hmem, hfx⟩

/-- A loop that undoes a function. -/
theorem eq_map_of_mapM {f : α → Option β} {g : β → α} (hg : ∀ x y, f x = some y → x = g y)
    {xs : List α} {ys : List β} (h : xs.mapM f = some ys) : xs = ys.map g := by
  have hxs := mapM_some h
  clear h
  induction hxs with
  | nil => rfl
  | cons hx _ ih => rw [List.map_cons, ← hg _ _ hx, ← ih]

/-- A loop whose steps have the results of another loop's has its result. -/
theorem mapM_imp {f g : α → Option β} (hfg : ∀ x y, f x = some y → g x = some y) {xs : List α}
    {ys : List β} (h : xs.mapM f = some ys) : xs.mapM g = some ys :=
  mapM_some_iff.mpr ((mapM_some h).imp fun x y => hfg x y)

/-- A loop over the results of a loop. -/
theorem mapM_bind (f : α → Option β) (g : β → Option γ) : ∀ xs : List α,
    (xs.mapM f).bind (List.mapM g) = xs.mapM fun x => (f x).bind g
  | [] => rfl
  | x :: xs => by
    have ih := mapM_bind f g xs
    rw [List.mapM_cons, List.mapM_cons, ← ih]
    cases hx : f x with
    | none => rfl
    | some y =>
      cases hxs : xs.mapM f with
      | none =>
        show none = (g y).bind fun _ => none
        cases g y <;> rfl
      | some ys => exact List.mapM_cons

theorem mapM_map (f : α → Option β) (g : β → γ) (xs : List α) :
    (xs.mapM fun x => (f x).map g) = (xs.mapM f).map (List.map g) := by
  induction xs with
  | nil => rfl
  | cons x xs ih =>
    rw [List.mapM_cons, List.mapM_cons, ih]
    cases f x with
    | none => rfl
    | some y => cases xs.mapM f <;> rfl

/-- Two loops whose steps both fail or have related results. -/
theorem mapM_related {f : α → Option β} {g : α → Option γ} {R : β → γ → Prop}
    (hfg : ∀ x, Option.Rel R (f x) (g x)) : ∀ xs : List α,
    Option.Rel (List.Forall₂ R) (xs.mapM f) (xs.mapM g)
  | [] => .some .nil
  | x :: xs => by
    have hx := hfg x
    have hxs := mapM_related hfg xs
    rw [List.mapM_cons, List.mapM_cons]
    generalize f x = y, g x = z at hx
    generalize xs.mapM f = ys, xs.mapM g = zs at hxs
    cases hx with
    | none => exact .none
    | some hyz =>
      cases hxs with
      | none => exact .none
      | some hyzs => exact .some (.cons hyz hyzs)

end Wqpl
