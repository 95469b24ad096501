/-
# The paths of the true leaves

`where` collects the paths of the leaves that are true or not zero, in the order in
which it visits them. The visit goes through the items of each list in turn, so the
paths come in lexicographic order, each of them once (`wqWhere_paths`).

Key definitions: `wqWhere`, `truePaths`.
-/
import Wqpl.ListGen.Build

namespace Wqpl

namespace ListGen

open Value

/-- `push_coord`: a path of length 1 is an integer. -/
def pushCoord (coord : List Nat) : Value :=
  match coord with
  | [i] => .int (position i)
  | coord => .intList (coord.map position)

/-- The positions of the set flags, counted from `i`. -/
def indicesFrom : Nat → List Bool → List Nat
  | _, [] => []
  | i, flag :: flags => if flag then i :: indicesFrom (i + 1) flags else indicesFrom (i + 1) flags

def nonZero (items : List Int64) : List Bool := items.map (· ≠ 0)

/-- Whether a leaf counts. -/
def leafFlag : Value → WqResult Bool
  | .int n => .ok (n ≠ 0)
  | .bool b => .ok b
  | _ => .error .domain

/-- `where_1d_list`. -/
def where1dList (items : List Value) : WqResult Value := do
  let flags ← items.mapM leafFlag
  return .intList ((indicesFrom 0 flags).map position)

/-- The paths of a packed list below a path. -/
def packedCoords (path : List Nat) (flags : List Bool) : List Value :=
  (indicesFrom 0 flags).map fun i => pushCoord (path ++ [i])

mutual

/-- `collect_coords`: what it appends to the output. -/
def collectCoords : Value → List Nat → WqResult (List Value)
  | .list items, path => collectItems items 0 path
  | .intList items, path => .ok (packedCoords path (nonZero items))
  | .intRange range, path => .ok (packedCoords path (nonZero range.toVec))
  | .boolList items, path => .ok (packedCoords path items)
  | leaf, path => do return if ← leafFlag leaf then [pushCoord path] else []
termination_by structural v => v

def collectItems : List Value → Nat → List Nat → WqResult (List Value)
  | [], _, _ => .ok []
  | item :: items, i, path => do
    let coords ← collectCoords item (path ++ [i])
    let rest ← collectItems items (i + 1) path
    return coords ++ rest
termination_by structural items => items

end

def isNested : Value → Bool
  | .list _ | .intList _ | .intRange _ | .boolList _ => true
  | _ => false

/-- `where`. -/
def wqWhere : Value → WqResult Value
  | .intList items => .ok (.intList ((indicesFrom 0 (nonZero items)).map position))
  | .intRange range => .ok (.intList ((indicesFrom 0 (nonZero range.toVec)).map position))
  | .boolList items => .ok (.intList ((indicesFrom 0 items).map position))
  | .list items =>
    if items.any isNested then do return .list (← collectCoords (.list items) [])
    else where1dList items
  | _ => .error .domain

/-! ### Paths -/

mutual

/-- The leaves are integers and booleans. -/
def intBool : Value → Bool
  | .int _ | .bool _ | .intList _ | .intRange _ | .boolList _ => true
  | .list items => intBoolItems items
  | _ => false
termination_by structural v => v

def intBoolItems : List Value → Bool
  | [] => true
  | item :: items => intBool item && intBoolItems items
termination_by structural items => items

end

def isTrue : Value → Bool
  | .int n => n ≠ 0
  | .bool b => b
  | _ => false

mutual

/-- The paths of the true leaves, in the order of the visit. -/
def truePaths : Value → List (List Nat)
  | .list items => pathsItems 0 items
  | .intList items => (indicesFrom 0 (nonZero items)).map ([·])
  | .intRange range => (indicesFrom 0 (nonZero range.toVec)).map ([·])
  | .boolList items => (indicesFrom 0 items).map ([·])
  | leaf => if isTrue leaf then [[]] else []
termination_by structural v => v

def pathsItems : Nat → List Value → List (List Nat)
  | _, [] => []
  | i, item :: items => (truePaths item).map (i :: ·) ++ pathsItems (i + 1) items
termination_by structural _ items => items

end

theorem mem_indicesFrom {j : Nat} : ∀ {k : Nat} {flags : List Bool},
    j ∈ indicesFrom k flags ↔ ∃ i, j = k + i ∧ flags[i]? = some true
  | k, [] => by simp [indicesFrom]
  | k, flag :: flags => by
    have ih := @mem_indicesFrom j (k + 1) flags
    have htail : j ∈ indicesFrom (k + 1) flags ↔
        ∃ i, j = k + (i + 1) ∧ (flag :: flags)[i + 1]? = some true := by
      rw [ih]
      simp only [List.getElem?_cons_succ, Nat.add_comm, Nat.add_left_comm]
    rw [indicesFrom]
    constructor
    · intro h
      cases flag with
      | true =>
        rcases List.mem_cons.mp h with rfl | h
        · exact ⟨0, rfl, rfl⟩
        · obtain ⟨i, hi⟩ := htail.mp h
          exact ⟨i + 1, hi⟩
      | false =>
        obtain ⟨i, hi⟩ := htail.mp h
        exact ⟨i + 1, hi⟩
    · rintro ⟨i, rfl, hi⟩
      cases i with
      | zero =>
        obtain rfl : flag = true := Option.some.inj hi
        exact List.mem_cons_self
      | succ i =>
        have hmem := htail.mpr ⟨i, rfl, hi⟩
        cases flag with
        | true => exact List.mem_cons_of_mem k hmem
        | false => exact hmem

theorem mem_pathsItems {p : List Nat} : ∀ {k : Nat} {items : List Value},
    p ∈ pathsItems k items ↔
      ∃ i q x, p = (k + i) :: q ∧ items[i]? = some x ∧ q ∈ truePaths x
  | k, [] => by simp [pathsItems]
  | k, item :: items => by
    have ih := @mem_pathsItems p (k + 1) items
    rw [pathsItems, List.mem_append, List.mem_map, ih]
    constructor
    · rintro (⟨q, hq, rfl⟩ | ⟨i, q, x, rfl, hx, hq⟩)
      · exact ⟨0, q, item, rfl, rfl, hq⟩
      · exact ⟨i + 1, q, x, by rw [Nat.add_right_comm, Nat.add_assoc], hx, hq⟩
    · rintro ⟨i, q, x, rfl, hx, hq⟩
      cases i with
      | zero =>
        obtain rfl : item = x := Option.some.inj hx
        exact .inl ⟨q, hq, rfl⟩
      | succ i =>
        exact .inr ⟨i, q, x, by rw [Nat.add_right_comm, Nat.add_assoc], hx, hq⟩

theorem intBoolItems_iff : ∀ {items : List Value},
    intBoolItems items = true ↔ ∀ x ∈ items, intBool x = true := by
  intro items
  induction items with
  | nil => simp [intBoolItems]
  | cons item items ih => rw [intBoolItems, Bool.and_eq_true, List.forall_mem_cons, ih]

/-- The element of a leaf is the leaf itself. -/
theorem elementAt_leaf {v : Value} (h : v.containerItems = []) {p : List Nat} {x : Value} :
    elementAt v p = some x ↔ p = [] ∧ v = x := by
  cases p with
  | nil => simp [elementAt]
  | cons i p => simp [elementAt, h]

/-- The paths of a packed list. -/
theorem mem_packedPaths {v : Value} {flags : List Bool} (hv : isTrue v = false)
    (hitems : v.containerItems.map isTrue = flags)
    (hleaves : ∀ x ∈ v.containerItems, x.containerItems = []) {p : List Nat} :
    p ∈ (indicesFrom 0 flags).map ([·]) ↔ ∃ x, elementAt v p = some x ∧ isTrue x = true := by
  rw [List.mem_map]
  constructor
  · rintro ⟨i, hi, rfl⟩
    obtain ⟨j, rfl, hj⟩ := mem_indicesFrom.mp hi
    rw [← hitems, List.getElem?_map] at hj
    obtain ⟨x, hx, htrue⟩ := Option.map_eq_some_iff.mp hj
    exact ⟨x, by rw [Nat.zero_add, elementAt, hx]; rfl, htrue⟩
  · rintro ⟨x, hx, htrue⟩
    cases p with
    | nil =>
      obtain rfl : v = x := Option.some.inj hx
      rw [hv] at htrue
      cases htrue
    | cons i p =>
      rw [elementAt] at hx
      obtain ⟨y, hy, hx⟩ := Option.bind_eq_some_iff.mp hx
      obtain ⟨rfl, rfl⟩ := (elementAt_leaf (hleaves y (List.mem_of_getElem? hy))).mp hx
      refine ⟨i, mem_indicesFrom.mpr ⟨i, (Nat.zero_add i).symm, ?_⟩, rfl⟩
      rw [← hitems, List.getElem?_map, hy, Option.map_some, htrue]

/-- The items of packed integers count where they are not zero. -/
theorem isTrue_ints (items : List Int64) : (items.map Value.int).map isTrue = nonZero items := by
  rw [List.map_map]
  rfl

theorem containerItems_of_isAtom {v : Value} (h : v.isAtom = true) : v.containerItems = [] := by
  cases v <;> first | rfl | cases h

/-- The items of a packed list are leaves. -/
theorem containerItems_packed {v : Value} {seq : ValueSeq} (h : ValueSeq.fromValue v = some seq)
    (hv : ∀ items, v ≠ .list items) : ∀ x ∈ v.containerItems, x.containerItems = [] := by
  intro x hx
  rw [containerItems_of_fromValue h] at hx
  exact containerItems_of_isAtom (isAtom_of_mem_values h hx hv)

/-- **Exactly the true leaves.** -/
theorem mem_truePaths : ∀ {v : Value}, intBool v = true → ∀ {p : List Nat},
    p ∈ truePaths v ↔ ∃ x, elementAt v p = some x ∧ isTrue x = true := by
  intro v
  induction v using nestingInduction with
  | atom v hv =>
    intro h p
    have hpaths : truePaths v = if isTrue v then [[]] else [] := by
      cases v <;> first | rfl | cases hv
    have hitems := containerItems_of_isAtom hv
    rw [hpaths]
    simp only [elementAt_leaf hitems]
    by_cases htrue : isTrue v = true
    · rw [if_pos htrue, List.mem_singleton]
      refine ⟨fun hp => ⟨v, ⟨hp, rfl⟩, htrue⟩, ?_⟩
      rintro ⟨_, ⟨hp, -⟩, -⟩
      exact hp
    · rw [if_neg htrue]
      refine iff_of_false List.not_mem_nil ?_
      rintro ⟨_, ⟨-, rfl⟩, h⟩
      exact htrue h
  | container v hv ih =>
    intro h p
    cases v with
    | list items =>
      rw [truePaths, mem_pathsItems]
      have hall := intBoolItems_iff.mp h
      constructor
      · rintro ⟨i, q, x, rfl, hx, hq⟩
        have hmem := List.mem_of_getElem? hx
        obtain ⟨y, hy, htrue⟩ := (ih x hmem (hall x hmem)).mp hq
        refine ⟨y, ?_, htrue⟩
        rw [Nat.zero_add, elementAt, show (Value.list items).containerItems[i]? = some x from hx]
        exact hy
      · rintro ⟨y, hy, htrue⟩
        cases p with
        | nil =>
          obtain rfl := Option.some.inj hy
          cases htrue
        | cons i q =>
          rw [elementAt] at hy
          obtain ⟨x, hx, hy⟩ := Option.bind_eq_some_iff.mp hy
          have hmem := List.mem_of_getElem? hx
          exact ⟨i, q, x, by rw [Nat.zero_add], hx, (ih x hmem (hall x hmem)).mpr ⟨y, hy, htrue⟩⟩
    | intList items =>
      exact mem_packedPaths (v := .intList items) rfl (isTrue_ints items)
        (containerItems_packed rfl (by simp))
    | intRange range =>
      exact mem_packedPaths (v := .intRange range) rfl (isTrue_ints range.toVec)
        (containerItems_packed rfl (by simp))
    | boolList items =>
      refine mem_packedPaths (v := .boolList items) rfl ?_ (containerItems_packed rfl (by simp))
      exact (List.map_map ..).trans (List.map_id _)
    | floatList _ | string _ | dict _ => cases h
    | _ => cases hv

/-! ### The order -/

theorem lt_of_mem_indicesFrom {k j : Nat} {flags : List Bool} (h : j ∈ indicesFrom k flags) :
    k ≤ j := by
  obtain ⟨i, rfl, -⟩ := mem_indicesFrom.mp h
  exact Nat.le_add_right k i

theorem pairwise_indicesFrom : ∀ (k : Nat) (flags : List Bool),
    (indicesFrom k flags).Pairwise (· < ·)
  | _, [] => .nil
  | k, flag :: flags => by
    have ih := pairwise_indicesFrom (k + 1) flags
    rw [indicesFrom]
    cases flag with
    | true => exact List.pairwise_cons.mpr ⟨fun j hj => lt_of_mem_indicesFrom hj, ih⟩
    | false => exact ih

theorem pairwise_packedPaths (flags : List Bool) :
    ((indicesFrom 0 flags).map fun i => [i]).Pairwise (· < ·) := by
  rw [List.pairwise_map]
  exact (pairwise_indicesFrom 0 flags).imp fun h => List.cons_lt_cons_iff.mpr (.inl h)

theorem pairwise_pathsItems : ∀ {items : List Value} (k : Nat),
    (∀ x ∈ items, (truePaths x).Pairwise (· < ·)) → (pathsItems k items).Pairwise (· < ·)
  | [], _, _ => .nil
  | item :: items, k, h => by
    rw [pathsItems, List.pairwise_append]
    refine ⟨?_, pairwise_pathsItems (k + 1) fun x hx => h x (List.mem_cons_of_mem item hx),
      fun p hp q hq => ?_⟩
    · rw [List.pairwise_map]
      exact (h item List.mem_cons_self).imp fun hlt => List.cons_lt_cons_iff.mpr (.inr ⟨rfl, hlt⟩)
    · -- the first index decides between paths of different items
      obtain ⟨p, -, rfl⟩ := List.mem_map.mp hp
      obtain ⟨i, q, x, rfl, -, -⟩ := mem_pathsItems.mp hq
      exact List.cons_lt_cons_iff.mpr (.inl (by omega))

/-- **In lexicographic order**, each path once. -/
theorem pairwise_truePaths (v : Value) : (truePaths v).Pairwise (· < ·) := by
  induction v using nestingInduction with
  | atom v hv =>
    have hpaths : truePaths v = if isTrue v then [[]] else [] := by
      cases v <;> first | rfl | cases hv
    rw [hpaths]
    cases isTrue v with
    | true => exact List.pairwise_singleton _ _
    | false => exact .nil
  | container v hv ih =>
    cases v with
    | list items => exact pairwise_pathsItems 0 ih
    | intList items | intRange items | boolList items => exact pairwise_packedPaths _
    | floatList _ | string _ | dict _ => exact .nil
    | _ => cases hv

/-! ### The collection -/

theorem packedCoords_eq (path : List Nat) (flags : List Bool) :
    packedCoords path flags =
      ((indicesFrom 0 flags).map fun i => [i]).map fun p => pushCoord (path ++ p) := by
  rw [packedCoords, List.map_map]
  rfl

/-- A leaf is collected where it counts. -/
theorem collectCoords_leaf {v : Value} {flag : Bool} (path : List Nat)
    (hcoords : collectCoords v path = .ok (if flag then [pushCoord path] else []))
    (hpaths : truePaths v = if flag then [[]] else []) :
    collectCoords v path = .ok ((truePaths v).map fun p => pushCoord (path ++ p)) := by
  rw [hcoords, hpaths]
  cases flag with
  | true =>
    rw [if_pos rfl, if_pos rfl, List.map_singleton, List.append_nil]
  | false => rfl

mutual

theorem collectCoords_eq : ∀ (v : Value) (path : List Nat), intBool v = true →
    collectCoords v path = .ok ((truePaths v).map fun p => pushCoord (path ++ p))
  | .list items, path, h => by
    have hitems := collectItems_eq items 0 path h
    rw [collectCoords, truePaths, hitems]
  | .intList _, path, _ => congrArg Except.ok (packedCoords_eq path _)
  | .intRange _, path, _ => congrArg Except.ok (packedCoords_eq path _)
  | .boolList _, path, _ => congrArg Except.ok (packedCoords_eq path _)
  | .int _, path, _ => collectCoords_leaf path rfl rfl
  | .bool _, path, _ => collectCoords_leaf path rfl rfl

theorem collectItems_eq : ∀ (items : List Value) (i : Nat) (path : List Nat),
    intBoolItems items = true →
    collectItems items i path = .ok ((pathsItems i items).map fun p => pushCoord (path ++ p))
  | [], _, _, _ => rfl
  | item :: items, i, path, h => by
    rw [intBoolItems, Bool.and_eq_true] at h
    rw [collectItems, pathsItems, collectCoords_eq item (path ++ [i]) h.1,
      collectItems_eq items (i + 1) path h.2, List.map_append, List.map_map]
    simp only [List.append_assoc]
    rfl

end

theorem leaf_of_not_isNested {x : Value} (h : intBool x = true) (hflat : isNested x = false) :
    leafFlag x = .ok (isTrue x) ∧ truePaths x = if isTrue x then [[]] else [] := by
  cases x with
  | int _ | bool _ => exact ⟨rfl, rfl⟩
  | list _ | intList _ | intRange _ | boolList _ => cases hflat
  | _ => cases h

theorem mapM_leafFlag {items : List Value} (h : ∀ x ∈ items, intBool x = true)
    (hflat : ∀ x ∈ items, isNested x = false) :
    items.mapM leafFlag = .ok (items.map isTrue) := by
  rw [mapM_ok_iff, List.forall₂_map_right_iff]
  exact List.forall₂_same.mpr fun x hx => (leaf_of_not_isNested (h x hx) (hflat x hx)).1

/-- The paths of leaves are their positions. -/
theorem pathsItems_leaves : ∀ {k : Nat} {items : List Value},
    (∀ x ∈ items, intBool x = true) → (∀ x ∈ items, isNested x = false) →
    pathsItems k items = (indicesFrom k (items.map isTrue)).map fun i => [i]
  | _, [], _, _ => rfl
  | k, item :: items, h, hflat => by
    have ih := @pathsItems_leaves (k + 1) items (fun x hx => h x (List.mem_cons_of_mem item hx))
      fun x hx => hflat x (List.mem_cons_of_mem item hx)
    have hpaths := (leaf_of_not_isNested (h item List.mem_cons_self)
      (hflat item List.mem_cons_self)).2
    rw [pathsItems, ih, hpaths, List.map_cons, indicesFrom]
    cases isTrue item <;> rfl

/-- Positions as a packed list are equal to the paths. -/
theorem eq_positions (indices : List Nat) :
    (Value.intList (indices.map position)).eq
      (.list ((indices.map fun i => [i]).map pushCoord)) = true := by
  rw [eq_iff, canon_of_fromValue (v := .intList (indices.map position)) rfl, canon, List.map_map,
    ValueSeq.values, List.map_map]
  rfl

/-- **Where.** A list of integers and booleans, nested to any depth, gives the paths of its
true leaves in lexicographic order. -/
theorem wqWhere_paths {v : Value} (hlist : v.isList = true) (h : intBool v = true) :
    ∃ r, wqWhere v = .ok r ∧ r.eq (.list ((truePaths v).map pushCoord)) = true := by
  cases v with
  | intList items | intRange items | boolList items => exact ⟨_, rfl, eq_positions _⟩
  | list items =>
    have hall := intBoolItems_iff.mp h
    by_cases hnested : items.any isNested = true
    · refine ⟨.list ((truePaths (.list items)).map pushCoord), ?_, (eq_iff _ _).mpr rfl⟩
      rw [wqWhere, if_pos hnested, collectCoords_eq _ [] h]
      rfl
    · have hflat : ∀ x ∈ items, isNested x = false := by simpa using hnested
      refine ⟨.intList ((indicesFrom 0 (items.map isTrue)).map position), ?_, ?_⟩
      · rw [wqWhere, if_neg hnested, where1dList, mapM_leafFlag hall hflat]
        rfl
      · rw [truePaths, pathsItems_leaves hall hflat]
        exact eq_positions _
  | floatList _ | string _ => cases h
  | _ => cases hlist

end ListGen

end Wqpl
