/-
# Hash sets that keep the order of insertion

A hash table finds a key among those of its hash. Where equal keys have one hash,
it finds a key exactly when an equal one was inserted (`contains_eq`), so a set
keeps the first of each class of equal keys in order (`ofList_eq_firsts`), and a
table of counts counts each class (`counts_eq`). A map that keeps and reflects
equality carries the first items over (`firsts_map`).

Key definitions: `Keys`, `firsts`, `Keys.ofList`, `Keys.counts`.
-/
import Mathlib.Data.List.Basic
import Mathlib.Data.List.Range

namespace Wqpl

universe u v

variable {α : Type u} {β : Type v}

/-- The items that no earlier one is equal to. -/
def firsts (eq : α → α → Bool) (xs : List α) : List α :=
  (xs.zipIdx.filter fun p => !(xs.take p.2).any (eq p.1)).map Prod.fst

theorem firsts_nil (eq : α → α → Bool) : firsts eq [] = [] := rfl

theorem mem_of_mem_firsts {eq : α → α → Bool} {xs : List α} {x : α} (h : x ∈ firsts eq xs) :
    x ∈ xs := by
  obtain ⟨p, hp, rfl⟩ := List.mem_map.mp h
  exact List.fst_mem_of_mem_zipIdx (List.mem_filter.mp hp).1

theorem firsts_concat (eq : α → α → Bool) (xs : List α) (x : α) :
    firsts eq (xs ++ [x]) = firsts eq xs ++ if xs.any (eq x) then [] else [x] := by
  have hprefix : xs.zipIdx.filter (fun p => !((xs ++ [x]).take p.2).any (eq p.1)) =
      xs.zipIdx.filter fun p => !(xs.take p.2).any (eq p.1) := by
    refine List.filter_congr fun p hp => ?_
    have hlt : p.2 < xs.length := by simpa using List.snd_lt_of_mem_zipIdx hp
    rw [List.take_append_of_le_length (by omega)]
  unfold firsts
  rw [List.zipIdx_append, List.filter_append, List.map_append, hprefix]
  congr 1
  by_cases h : xs.any (eq x)
  · simp [h]
  · simp [h]

/-- **The first items are carried over** by a map that keeps and reflects equality. -/
theorem firsts_map {eq : α → α → Bool} {eq' : β → β → Bool} {f : α → β}
    (h : ∀ a b, eq' (f a) (f b) = eq a b) (xs : List α) :
    firsts eq' (xs.map f) = (firsts eq xs).map f := by
  induction xs using List.reverseRecOn with
  | nil => rfl
  | append_singleton xs x ih =>
    have hany : (xs.map f).any (eq' (f x)) = xs.any (eq x) := by
      rw [List.any_map]
      exact congrArg xs.any (funext (h x))
    rw [List.map_append, List.map_singleton, firsts_concat, firsts_concat, ih, hany,
      List.map_append]
    split <;> rfl

open Classical in
/-- Where equality is that of representatives, the representatives of the first
items are those of the representatives. -/
theorem map_firsts {eq : α → α → Bool} {f : α → β} (h : ∀ a b, eq a b = true ↔ f a = f b)
    (xs : List α) : (firsts eq xs).map f = firsts (fun x y => decide (x = y)) (xs.map f) := by
  refine (firsts_map (fun a b => ?_) xs).symm
  rw [Bool.eq_iff_iff, decide_eq_true_iff, h]

open Classical in
theorem any_eq_mem_map {eq : α → α → Bool} {f : α → β} (h : ∀ a b, eq a b = true ↔ f a = f b)
    (xs : List α) (x : α) : xs.any (eq x) = decide (f x ∈ xs.map f) := by
  rw [Bool.eq_iff_iff, List.any_eq_true, decide_eq_true_iff, List.mem_map]
  exact exists_congr fun y => and_congr_right fun _ => (h x y).trans eq_comm

/-- The comparison and the hash of the keys of a table. -/
structure Keys (α : Type u) where
  eq : α → α → Bool
  hash : α → UInt64
  equiv : Equivalence fun a b => eq a b = true
  coherent : ∀ {a b}, eq a b = true → hash a = hash b

namespace Keys

variable (K : Keys α)

/-- The comparison of a key that is looked up with one of the table. -/
def finds (x y : α) : Bool := K.hash y == K.hash x && K.eq x y

def contains (s : List α) (x : α) : Bool := s.any (K.finds x)

/-- `IndexSet::insert`: whether the key is new, and the set with it. -/
def insert (s : List α) (x : α) : Bool × List α :=
  if K.contains s x then (false, s) else (true, s ++ [x])

/-- `collect` into a set. -/
def ofList (xs : List α) : List α := xs.foldl (fun s x => (K.insert s x).2) []

/-- The loop that keeps the new items with a property: the set of those seen, and
the items kept. -/
def keepNew (p : α → Bool) (state : List α × List α) (xs : List α) : List α × List α :=
  xs.foldl (fun s x =>
    if p x && (K.insert s.1 x).1 then ((K.insert s.1 x).2, s.2 ++ [x]) else s) state

/-- One more of a key, in a table of counts. -/
def bump : List (α × Int64) → α → List (α × Int64)
  | [], x => [(x, 1)]
  | (y, n) :: m, x => if K.finds x y then (y, n + 1) :: m else (y, n) :: bump m x

def counts (xs : List α) : List (α × Int64) := xs.foldl K.bump []

theorem finds_eq (x y : α) : K.finds x y = K.eq x y := by
  cases h : K.eq x y with
  | false => simp [finds, h]
  | true => simp [finds, h, K.coherent h]

theorem contains_eq (s : List α) (x : α) : K.contains s x = s.any (K.eq x) :=
  congrArg s.any (funext (K.finds_eq x))

theorem contains_iff {s : List α} {x : α} : K.contains s x = true ↔ ∃ y ∈ s, K.eq x y = true := by
  rw [contains_eq, List.any_eq_true]

theorem contains_congr (s : List α) {x y : α} (h : K.eq x y = true) :
    K.contains s x = K.contains s y := by
  rw [Bool.eq_iff_iff, contains_iff, contains_iff]
  constructor
  · rintro ⟨z, hz, hxz⟩
    exact ⟨z, hz, K.equiv.trans (K.equiv.symm h) hxz⟩
  · rintro ⟨z, hz, hyz⟩
    exact ⟨z, hz, K.equiv.trans h hyz⟩

/-! ### Sets -/

theorem ofList_concat (xs : List α) (x : α) :
    K.ofList (xs ++ [x]) = (K.insert (K.ofList xs) x).2 := by
  rw [ofList, List.foldl_append]
  rfl

theorem insert_snd (s : List α) (x : α) :
    (K.insert s x).2 = s ++ if K.contains s x then [] else [x] := by
  unfold insert
  split
  · rw [List.append_nil]
  · rfl

/-- A set contains what the list contains. -/
theorem contains_ofList (xs : List α) (x : α) :
    K.contains (K.ofList xs) x = K.contains xs x := by
  induction xs using List.reverseRecOn with
  | nil => rfl
  | append_singleton xs y ih =>
    have happend : ∀ s : List α, K.contains (s ++ [y]) x = (K.contains s x || K.finds x y) := by
      intro s
      simp [contains]
    rw [ofList_concat, insert_snd, happend, ← ih]
    cases hy : K.contains (K.ofList xs) y with
    | false => exact happend _
    | true =>
      rw [if_pos rfl, List.append_nil]
      cases hxy : K.finds x y with
      | false => rw [Bool.or_false]
      | true =>
        rw [K.finds_eq] at hxy
        rw [Bool.or_true, K.contains_congr _ hxy, hy]

/-- **A set keeps the first of each class**, in order. -/
theorem ofList_eq_firsts (xs : List α) : K.ofList xs = firsts K.eq xs := by
  induction xs using List.reverseRecOn with
  | nil => rfl
  | append_singleton xs x ih =>
    rw [ofList_concat, insert_snd, firsts_concat, ← ih, contains_ofList, contains_eq]

/-- A property is tested before an item is seen. -/
theorem keepNew_filter (p : α → Bool) (xs : List α) : ∀ state : List α × List α,
    K.keepNew p state xs = K.keepNew (fun _ => true) state (xs.filter p) := by
  induction xs with
  | nil => exact fun _ => rfl
  | cons x xs ih =>
    intro state
    rw [keepNew, List.foldl_cons]
    cases hp : p x with
    | false =>
      rw [List.filter_cons_of_neg (by rw [hp]; exact Bool.false_ne_true), ← ih]
      rfl
    | true =>
      rw [List.filter_cons_of_pos hp]
      exact ih _

theorem keepNew_append (p : α → Bool) (state : List α × List α) (xs ys : List α) :
    K.keepNew p state (xs ++ ys) = K.keepNew p (K.keepNew p state xs) ys := List.foldl_append

theorem keepNew_all (xs : List α) :
    K.keepNew (fun _ => true) ([], []) xs = (firsts K.eq xs, firsts K.eq xs) := by
  rw [← ofList_eq_firsts]
  induction xs using List.reverseRecOn with
  | nil => rfl
  | append_singleton xs x ih =>
    rw [keepNew_append, ih, ofList_concat]
    show (if true && (K.insert (K.ofList xs) x).1 then
      ((K.insert (K.ofList xs) x).2, K.ofList xs ++ [x]) else (K.ofList xs, K.ofList xs)) = _
    unfold insert
    cases K.contains (K.ofList xs) x <;> rfl

/-- No two items are equal. -/
def IsSeparate (xs : List α) : Prop := xs.Pairwise fun a b => K.eq a b = false

theorem isSeparate_ofList (xs : List α) : K.IsSeparate (K.ofList xs) := by
  induction xs using List.reverseRecOn with
  | nil => exact .nil
  | append_singleton xs x ih =>
    rw [ofList_concat, insert_snd]
    cases hx : K.contains (K.ofList xs) x with
    | true => simpa using ih
    | false =>
      refine List.pairwise_append.mpr ⟨ih, List.pairwise_singleton _ _, fun a ha b hb => ?_⟩
      obtain rfl := List.mem_singleton.mp hb
      rw [← Bool.not_eq_true]
      intro heq
      have hmem : K.contains (K.ofList xs) b = true :=
        K.contains_iff.mpr ⟨a, ha, K.equiv.symm heq⟩
      rw [hx] at hmem
      cases hmem

/-- A set is not longer than a list that contains all its items. -/
theorem length_le_of_contains : ∀ {xs ys : List α}, K.IsSeparate xs →
    (∀ x ∈ xs, K.contains ys x = true) → xs.length ≤ ys.length
  | [], _, _, _ => Nat.zero_le _
  | x :: xs, ys, hsep, hsub => by
    obtain ⟨hx, hxs⟩ := List.pairwise_cons.mp hsep
    obtain ⟨y, hy, hxy⟩ := K.contains_iff.mp (hsub x List.mem_cons_self)
    -- the item that answers to `x` answers to no later one
    have hrest : ∀ z ∈ xs, K.contains (ys.eraseP (K.eq x)) z = true := by
      intro z hz
      obtain ⟨w, hw, hzw⟩ := K.contains_iff.mp (hsub z (List.mem_cons_of_mem _ hz))
      have hxw : ¬K.eq x w = true := by
        intro hxw
        have hxz := K.equiv.trans hxw (K.equiv.symm hzw)
        rw [hx z hz] at hxz
        cases hxz
      exact K.contains_iff.mpr ⟨w, (List.mem_eraseP_of_neg hxw).mpr hw, hzw⟩
    have hlen : (ys.eraseP (K.eq x)).length = ys.length - 1 := List.length_eraseP_of_mem hy hxy
    have hpos := List.length_pos_of_mem hy
    have hle := length_le_of_contains hxs hrest
    rw [List.length_cons]
    omega

/-- Of two sets, one inside the other, the inner one is shorter exactly when it
lacks an item. -/
theorem length_lt_iff {xs ys : List α} (hxs : K.IsSeparate xs) (hys : K.IsSeparate ys)
    (hsub : ∀ x ∈ xs, K.contains ys x = true) :
    xs.length < ys.length ↔ ∃ y ∈ ys, K.contains xs y = false := by
  constructor
  · intro hlt
    by_contra hall
    push Not at hall
    have hle := K.length_le_of_contains hys fun y hy => by simpa using hall y hy
    omega
  · rintro ⟨y, hy, hnot⟩
    have hsep : K.IsSeparate (y :: xs) := by
      refine List.pairwise_cons.mpr ⟨fun x hx => ?_, hxs⟩
      rw [← Bool.not_eq_true]
      intro heq
      have hmem := K.contains_iff.mpr ⟨x, hx, heq⟩
      rw [hnot] at hmem
      cases hmem
    refine K.length_le_of_contains hsep fun x hx => ?_
    rcases List.mem_cons.mp hx with rfl | hx
    · exact K.contains_iff.mpr ⟨x, hy, K.equiv.refl x⟩
    · exact hsub x hx

/-- A list is inside another when its set is. -/
theorem all_ofList (xs ys : List α) :
    (K.ofList xs).all (K.contains ys) = xs.all (K.contains ys) := by
  rw [Bool.eq_iff_iff, List.all_eq_true, List.all_eq_true]
  constructor
  · intro h x hx
    have hself : K.contains xs x = true := K.contains_iff.mpr ⟨x, hx, K.equiv.refl x⟩
    rw [← contains_ofList] at hself
    obtain ⟨y, hy, hxy⟩ := K.contains_iff.mp hself
    rw [K.contains_congr _ hxy, h y hy]
  · intro h x hx
    rw [ofList_eq_firsts] at hx
    exact h x (mem_of_mem_firsts hx)

/-- A list lacks an item of another when it lacks one of its set. -/
theorem any_ofList (xs ys : List α) :
    ((K.ofList ys).any fun y => !K.contains xs y) = ys.any fun y => !K.contains xs y := by
  rw [← Bool.not_inj_iff, List.not_any_eq_all_not, List.not_any_eq_all_not]
  simpa using K.all_ofList ys xs

/-- The comparison of the sizes decides whether a subset is a proper one. -/
theorem properSubset_eq (xs ys : List α) :
    (decide ((K.ofList xs).length < (K.ofList ys).length) &&
        (K.ofList xs).all (K.contains (K.ofList ys))) =
      (xs.all (K.contains ys) && ys.any fun y => !K.contains xs y) := by
  have hall : (K.ofList xs).all (K.contains (K.ofList ys)) = xs.all (K.contains ys) :=
    (congrArg (K.ofList xs).all (funext (K.contains_ofList ys))).trans (K.all_ofList xs ys)
  rw [hall, Bool.and_comm]
  cases h : xs.all (K.contains ys) with
  | false => rfl
  | true =>
    rw [Bool.true_and, Bool.true_and, ← any_ofList, Bool.eq_iff_iff, decide_eq_true_iff,
      K.length_lt_iff (K.isSeparate_ofList xs) (K.isSeparate_ofList ys)
        (List.all_eq_true.mp (hall.trans h)), List.any_eq_true]
    refine exists_congr fun y => and_congr_right fun _ => ?_
    rw [contains_ofList, Bool.not_eq_true']

/-! ### Counts -/

theorem bump_of_not_contains (g : α → Int64) (x : α) : ∀ {s : List α}, K.contains s x = false →
    K.bump (s.map fun y => (y, g y)) x = (s.map fun y => (y, g y)) ++ [(x, 1)]
  | [], _ => rfl
  | y :: s, h => by
    obtain ⟨hy, hs⟩ : K.finds x y = false ∧ K.contains s x = false := by simpa [contains] using h
    rw [List.map_cons, bump, hy, if_neg Bool.false_ne_true, bump_of_not_contains g x hs]
    rfl

theorem bump_of_contains (g : α → Int64) (x : α) : ∀ {s : List α}, K.IsSeparate s →
    K.contains s x = true → K.bump (s.map fun y => (y, g y)) x =
      s.map fun y => (y, g y + if K.eq x y then 1 else 0)
  | [], _, h => by cases h
  | y :: s, hsep, h => by
    obtain ⟨hy, hs⟩ := List.pairwise_cons.mp hsep
    rw [List.map_cons, bump, K.finds_eq, List.map_cons]
    cases hxy : K.eq x y with
    | true =>
      -- no later key is equal
      have hlater : ∀ z ∈ s, K.eq x z = false := by
        intro z hz
        rw [← Bool.not_eq_true]
        intro hxz
        have hyz := K.equiv.trans (K.equiv.symm hxy) hxz
        rw [hy z hz] at hyz
        cases hyz
      rw [if_pos rfl]
      refine congrArg _ (List.map_congr_left fun z hz => ?_)
      rw [hlater z hz, if_neg Bool.false_ne_true, Int64.add_zero]
    | false =>
      have hrest : K.contains s x = true := by
        simpa [contains, K.finds_eq, hxy] using h
      rw [if_neg Bool.false_ne_true, if_neg Bool.false_ne_true, Int64.add_zero,
        bump_of_contains g x hs hrest]

/-- **A table of counts counts each class of equal keys.** -/
theorem counts_eq (xs : List α) : K.counts xs =
    (firsts K.eq xs).map fun x => (x, Int64.ofNat (xs.countP (K.eq x))) := by
  induction xs using List.reverseRecOn with
  | nil => rfl
  | append_singleton xs x ih =>
    have hstep : K.counts (xs ++ [x]) = K.bump (K.counts xs) x := by
      rw [counts, List.foldl_append]
      rfl
    have hcount : ∀ y, Int64.ofNat ((xs ++ [x]).countP (K.eq y)) =
        Int64.ofNat (xs.countP (K.eq y)) + if K.eq x y then 1 else 0 := by
      intro y
      have hsymm : K.eq y x = K.eq x y :=
        Bool.eq_iff_iff.mpr ⟨K.equiv.symm, K.equiv.symm⟩
      rw [List.countP_append, List.countP_singleton, hsymm, Int64.ofNat_add]
      split <;> rfl
    rw [hstep, ih, ← ofList_eq_firsts, ← ofList_eq_firsts, ofList_concat, insert_snd]
    simp only [hcount]
    cases hx : K.contains (K.ofList xs) x with
    | true =>
      rw [K.bump_of_contains _ x (K.isSeparate_ofList xs) hx, if_pos rfl, List.append_nil]
    | false =>
      -- the key is new, so none of the list is equal to it
      have hnew : ∀ y ∈ xs, K.eq x y = false := by
        rw [contains_ofList, contains_eq] at hx
        simpa using hx
      rw [K.bump_of_not_contains _ x hx, if_neg Bool.false_ne_true, List.map_append]
      congr 1
      · refine List.map_congr_left fun y hy => ?_
        rw [ofList_eq_firsts] at hy
        rw [hnew y (mem_of_mem_firsts hy), if_neg Bool.false_ne_true, Int64.add_zero]
      · have hzero : xs.countP (K.eq x) = 0 := by
          rw [List.countP_eq_zero]
          intro y hy
          rw [hnew y hy]
          exact Bool.false_ne_true
        rw [List.map_singleton, hzero, show K.eq x x = true from K.equiv.refl x]
        rfl

end Keys

end Wqpl
