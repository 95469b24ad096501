/-
# What an index assignment writes

A key names cells of its target: positions of a list, entries of a dictionary
(`listAddress`, `dictAddress`). An assignment writes a value to each, one by
one in the order of the key: the items of the value in turn where it takes the
value apart (`pairedValues`), and else the whole value (`Address.writes`). On a
list of any representation an assignment is these writes to its items
(`assign_list`), so two targets with the same items end with the same items
(`assign_representation`).
-/
import Wqpl.Access.Assign
import Wqpl.FallibleLoop
import Wqpl.Representation

namespace Wqpl

/-! ### Keys and addresses -/

/-- The key of an index expression: one value, or several in the brackets. -/
inductive IndexKey
  | value (key : Value)
  | args (keys : List Value)

namespace IndexKey

def assign (target : Value) (key : IndexKey) (value : Value) : Option Unit × Value :=
  match key with
  | .value key => target.assignByIndex key value
  | .args keys => target.assignByIndices keys value

/-- Several keys read together, except for a single one. -/
def index (v : Value) : IndexKey → Option Value
  | .value key | .args [key] => v.index key
  | .args keys => v.indexMany keys

end IndexKey

/-- The cells that a key names: one, or several in order. -/
inductive Address (C : Type)
  | one (c : C)
  | many (cs : List C)

namespace Address

variable {C : Type}

def cells : Address C → List C
  | .one c => [c]
  | .many cs => cs

/-- The writes of an assignment: the values in pairs with the cells, or the
whole value to each. -/
def writes (a : Address C) (paired : Option (List Value)) (v : Value) :
    Option (List (C × Value)) :=
  match a, paired with
  | .one c, _ => some [(c, v)]
  | .many cs, some vals => if cs.length ≠ vals.length then none else some (cs.zip vals)
  | .many cs, none => some (cs.map (·, v))

end Address

/-- The positions that a value names in a list. -/
def valueAddress (key : Value) (len : Nat) : Option (Address Nat) :=
  match resolveSingleIdx key len with
  | some idx => some (.one idx)
  | none => (resolveManyIdx key len).map .many

/-- The positions that a key names in a list. -/
def listAddress (key : IndexKey) (len : Nat) : Option (Address Nat) :=
  match key with
  | .value key | .args [key] => valueAddress key len
  | .args [] => none
  | .args keys => (normalizeListIndices keys len).map .many

/-- The items of a value that several cells of a target take in turn; nothing
where each takes the whole value. A packed target takes a general list and a
packed list of its own kind apart, a string a general list, and a general list
or a dictionary all lists but strings. -/
def pairedValues (target value : Value) : Option (List Value) :=
  match target, value with
  | .list _, value | .dict _, value => listStorageSeq value
  | _, .list vals => some vals
  | .intList _, .intList vals | .intRange _, .intList vals => some (vals.map .int)
  | .intList _, .intRange range | .intRange _, .intRange range => some (range.toVec.map .int)
  | .floatList _, .floatList vals => some (vals.map .float)
  | .boolList _, .boolList vals => some (vals.map .bool)
  | _, _ => none

/-- A packed list refuses to assign to no positions. -/
def refuses (target : Value) (a : Address Nat) : Bool :=
  match target, a with
  | .intList _, .many [] | .intRange _, .many [] | .floatList _, .many []
  | .boolList _, .many [] => true
  | _, _ => false

/-- The writes to one address of a list. -/
def addressWrites (target : Value) (a : Address Nat) (value : Value) :
    Option (List (Nat × Value)) :=
  if refuses target a then none else a.writes (pairedValues target value) value

/-- The writes of an assignment to a list. -/
def listWrites (target : Value) (key : IndexKey) (value : Value) (len : Nat) :
    Option (List (Nat × Value)) := do
  addressWrites target (← listAddress key len) value

/-- The items of a list of any representation. -/
def items? (v : Value) : Option (List Value) := (ValueSeq.fromValue v).map ValueSeq.values

/-- The result of an assignment to a list with the given items: the writes are
made, or the target is left as it was, a range perhaps as a list. -/
def Wrote (target : Value) (items : List Value) (ws : Option (List (Nat × Value)))
    (r : Option Unit × Value) : Prop :=
  match ws with
  | some ws => r.1 = some () ∧ items? r.2 = some (setAll items ws)
  | none => r.1 = none ∧ (r.2 = target ∨ r.2 = materializeIntRange target)

/-! ### Packed lists -/

/-- What the operations of a representation say about each other. -/
structure PackedList.Lawful {α : Type} (kind : PackedList α) : Prop where
  items_pack : ∀ xs, items? (kind.pack xs) = some (xs.map kind.wrap)
  unwrap_some : ∀ v x, kind.unwrap v = some x → v = kind.wrap x
  unwrapMany_wrap : ∀ x, kind.unwrapMany (kind.wrap x) = none
  wrap_ne_list : ∀ x vs, kind.wrap x ≠ .list vs

theorem PackedList.lawful_int : PackedList.int.Lawful where
  items_pack _ := rfl
  unwrap_some v x h := by
    cases v <;> first | (obtain rfl := Option.some.inj h; rfl) | cases h
  unwrapMany_wrap _ := rfl
  wrap_ne_list _ _ := nofun

theorem PackedList.lawful_float : PackedList.float.Lawful where
  items_pack _ := rfl
  unwrap_some v x h := by
    cases v <;> first | (obtain rfl := Option.some.inj h; rfl) | cases h
  unwrapMany_wrap _ := rfl
  wrap_ne_list _ _ := nofun

theorem PackedList.lawful_bool : PackedList.bool.Lawful where
  items_pack _ := rfl
  unwrap_some v x h := by
    cases v <;> first | (obtain rfl := Option.some.inj h; rfl) | cases h
  unwrapMany_wrap _ := rfl
  wrap_ne_list _ _ := nofun

section Packed

variable {α : Type} {kind : PackedList α} (hkind : kind.Lawful) (items : List α)
include hkind

/-- The values a packed list takes apart. -/
def PackedList.paired {α : Type} (kind : PackedList α) : Value → Option (List Value)
  | .list vals => some vals
  | v => (kind.unwrapMany v).map fun xs => xs.map kind.wrap

theorem assignPackedIndices_single (idx : Nat) (v : Value) :
    ∃ r, assignPackedIndices kind items [idx] .single v = some r ∧
      items? r = some ((items.map kind.wrap).set idx v) := by
  rw [assignPackedIndices]
  cases h : kind.unwrap v with
  | some x =>
    refine ⟨_, rfl, ?_⟩
    rw [hkind.items_pack, List.map_set, ← hkind.unwrap_some v x h]
  | none => exact ⟨_, rfl, rfl⟩

theorem setAll_packed (xs : List α) (idxs : List Nat) (ys : List α) :
    items? (kind.pack (setAll xs (idxs.zip ys))) =
      some (setAll (xs.map kind.wrap) (idxs.zip (ys.map kind.wrap))) := by
  rw [hkind.items_pack, map_setAll, List.zip_map_right]
  rfl

omit hkind in
theorem assignPackedIndices_other (idxs : List Nat) {v : Value} (h : kind.unwrap v = none)
    (hlist : ∀ vals, v ≠ .list vals) :
    assignPackedIndices kind items idxs .bulk v =
      match kind.unwrapMany v with
      | some vals =>
        if idxs.length ≠ vals.length then none else some (kind.pack (setAll items (idxs.zip vals)))
      | none => some (.list (setAll (items.map kind.wrap) (idxs.map (·, v)))) := by
  unfold assignPackedIndices
  rw [h]
  cases v <;> first | rfl | exact absurd rfl (hlist _)

omit hkind in
theorem PackedList.paired_other {v : Value} (hlist : ∀ vals, v ≠ .list vals) :
    kind.paired v = (kind.unwrapMany v).map fun xs => xs.map kind.wrap := by
  cases v <;> first | rfl | exact absurd rfl (hlist _)

/-- **A packed list takes the writes of an assignment.** -/
theorem assignPackedIndices_bulk (idxs : List Nat) (v : Value) :
    match Address.writes (.many idxs) (kind.paired v) v with
    | some ws => ∃ r, assignPackedIndices kind items idxs .bulk v = some r ∧
        items? r = some (setAll (items.map kind.wrap) ws)
    | none => assignPackedIndices kind items idxs .bulk v = none := by
  cases h : kind.unwrap v with
  | some x =>
    obtain rfl := hkind.unwrap_some v x h
    rw [PackedList.paired_other (hkind.wrap_ne_list x), hkind.unwrapMany_wrap]
    unfold assignPackedIndices
    rw [h]
    refine ⟨_, rfl, ?_⟩
    rw [hkind.items_pack, map_setAll, List.map_map]
    rfl
  | none =>
    by_cases hlist : ∀ vals, v ≠ .list vals
    · rw [PackedList.paired_other hlist, assignPackedIndices_other items idxs h hlist]
      cases hm : kind.unwrapMany v with
      | none => exact ⟨_, rfl, rfl⟩
      | some xs =>
        rw [Option.map_some, Address.writes, List.length_map]
        by_cases hlen : idxs.length = xs.length
        · simp only [ne_eq, hlen, not_true_eq_false, if_false]
          exact ⟨_, rfl, setAll_packed hkind items idxs xs⟩
        · simp only [ne_eq, hlen, not_false_eq_true, if_true]
    · push Not at hlist
      obtain ⟨vals, rfl⟩ := hlist
      unfold assignPackedIndices
      rw [h, PackedList.paired, Address.writes]
      by_cases hlen : idxs.length = vals.length
      · simp only [ne_eq, hlen, not_true_eq_false, if_false]
        cases hm : vals.mapM kind.unwrap with
        | some xs =>
          refine ⟨_, rfl, ?_⟩
          rw [setAll_packed hkind, ← eq_map_of_mapM hkind.unwrap_some hm]
        | none => exact ⟨_, rfl, rfl⟩
      · simp only [ne_eq, hlen, not_false_eq_true, if_true]

end Packed

/-- A value that is a packed list of some representation. -/
structure IsPacked {α : Type} (kind : PackedList α) (xs : List α) (t : Value) : Prop where
  items : items? t = some (xs.map kind.wrap)
  len : packedListLen t = some xs.length
  assign : ∀ idxs mode v, assignPackedListIndices t idxs mode v =
    if idxs.isEmpty then none else assignPackedIndices kind xs idxs mode v
  paired : ∀ v, pairedValues t v = kind.paired v
  refuses_one : ∀ i, refuses t (.one i) = false
  refuses_many : ∀ idxs, refuses t (.many idxs) = idxs.isEmpty

theorem isPacked_int (xs : List Int64) : IsPacked .int xs (.intList xs) where
  items := rfl
  len := rfl
  assign _ _ _ := rfl
  paired v := by cases v <;> rfl
  refuses_one _ := rfl
  refuses_many idxs := by cases idxs <;> rfl

theorem isPacked_float (xs : List F64) : IsPacked .float xs (.floatList xs) where
  items := rfl
  len := rfl
  assign _ _ _ := rfl
  paired v := by cases v <;> rfl
  refuses_one _ := rfl
  refuses_many idxs := by cases idxs <;> rfl

theorem isPacked_bool (xs : List Bool) : IsPacked .bool xs (.boolList xs) where
  items := rfl
  len := rfl
  assign _ _ _ := rfl
  paired v := by cases v <;> rfl
  refuses_one _ := rfl
  refuses_many idxs := by cases idxs <;> rfl

/-! ### The writes of every representation -/

theorem wrote_commit_none (t : Value) (items : List Value) :
    Wrote t items none (commit t none) := ⟨rfl, .inl rfl⟩

section Representations

variable {t : Value} {items : List Value}

theorem wrote_packed_one {α : Type} {kind : PackedList α} (hkind : kind.Lawful) {xs : List α}
    (ht : IsPacked kind xs t) (idx : Nat) (v : Value) :
    Wrote t (xs.map kind.wrap) (addressWrites t (.one idx) v)
      (commit t (assignPackedListIndices t [idx] .single v)) := by
  obtain ⟨r, hr, hitems⟩ := assignPackedIndices_single hkind xs idx v
  rw [addressWrites, ht.refuses_one, if_neg Bool.false_ne_true, ht.assign]
  show Wrote t _ _ (commit t (assignPackedIndices kind xs [idx] .single v))
  rw [hr]
  exact ⟨rfl, hitems⟩

theorem wrote_packed_many {α : Type} {kind : PackedList α} (hkind : kind.Lawful) {xs : List α}
    (ht : IsPacked kind xs t) (idxs : List Nat) (v : Value) :
    Wrote t (xs.map kind.wrap) (addressWrites t (.many idxs) v)
      (commit t (assignPackedListIndices t idxs .bulk v)) := by
  have hbulk := assignPackedIndices_bulk hkind xs idxs v
  rw [addressWrites, ht.refuses_many, ht.assign, ht.paired]
  by_cases hempty : idxs.isEmpty = true
  · rw [if_pos hempty, if_pos hempty]
    exact wrote_commit_none t _
  · rw [if_neg hempty, if_neg hempty]
    cases hws : Address.writes (.many idxs) (kind.paired v) v with
    | none =>
      rw [hws] at hbulk
      rw [hbulk]
      exact wrote_commit_none t _
    | some ws =>
      rw [hws] at hbulk
      obtain ⟨r, hr, hitems⟩ := hbulk
      rw [hr]
      exact ⟨rfl, hitems⟩

theorem toList_assignStringChars (ws : List (Nat × Char)) : ∀ s : String,
    (ws.foldl (fun s p => assignStringChar s p.1 p.2) s).toList = setAll s.toList ws := by
  induction ws with
  | nil => exact fun _ => rfl
  | cons w ws ih =>
    intro s
    show (ws.foldl _ (assignStringChar s w.1 w.2)).toList = setAll (s.toList.set w.1 w.2) ws
    rw [ih, assignStringChar, String.toList_ofList]

theorem char?_some (v : Value) (c : Char) (h : char? v = some c) : v = .char c := by
  cases v <;> first | (obtain rfl := Option.some.inj h; rfl) | cases h

/-- A string with some characters written. -/
theorem items?_assignStringChars (s : String) (ws : List (Nat × Char)) :
    items? (.string (ws.foldl (fun s p => assignStringChar s p.1 p.2) s)) =
      some (setAll (charValues s) (ws.map fun p => (p.1, .char p.2))) := by
  rw [charValues, ← map_setAll, ← toList_assignStringChars]
  rfl

theorem wrote_string_many (s : String) (idxs : List Nat) (v : Value) :
    Wrote (.string s) (charValues s) (addressWrites (.string s) (.many idxs) v)
      (commit (.string s) (assignStringBulk s idxs v)) := by
  have hrefuses : refuses (.string s) (.many idxs) = false := rfl
  rw [addressWrites, hrefuses, if_neg Bool.false_ne_true]
  cases v with
  | list vals =>
    show Wrote _ _ (Address.writes (.many idxs) (some vals) _) _
    unfold assignStringBulk
    rw [Address.writes]
    by_cases hlen : idxs.length = vals.length
    · simp only [ne_eq, hlen, not_true_eq_false, if_false]
      cases hm : vals.mapM char? with
      | some cs =>
        refine ⟨rfl, (items?_assignStringChars s _).trans ?_⟩
        rw [eq_map_of_mapM char?_some hm, List.zip_map_right]
        rfl
      | none => exact ⟨rfl, rfl⟩
    · simp only [ne_eq, hlen, not_false_eq_true, if_true]
      exact wrote_commit_none _ _
  | char c =>
    refine ⟨rfl, ?_⟩
    have hfold : idxs.foldl (fun s idx => assignStringChar s idx c) s =
        (idxs.map (·, c)).foldl (fun s p => assignStringChar s p.1 p.2) s := by
      rw [List.foldl_map]
    show items? (.string (idxs.foldl (fun s idx => assignStringChar s idx c) s)) = _
    rw [hfold, items?_assignStringChars, List.map_map]
    rfl
  | _ => exact ⟨rfl, rfl⟩

theorem wrote_list_many (xs : List Value) (idxs : List Nat) (v : Value) :
    Wrote (.list xs) xs (addressWrites (.list xs) (.many idxs) v)
      (commit (.list xs) ((assignListBulk xs idxs v).map .list)) := by
  have hrefuses : refuses (.list xs) (.many idxs) = false := rfl
  rw [addressWrites, hrefuses, if_neg Bool.false_ne_true]
  show Wrote _ _ (Address.writes (.many idxs) (listStorageSeq v) v) _
  unfold assignListBulk
  cases listStorageSeq v with
  | none => exact ⟨rfl, rfl⟩
  | some vals =>
    rw [Address.writes]
    by_cases hlen : idxs.length = vals.length
    · simp only [ne_eq, hlen, not_true_eq_false, if_false]
      exact ⟨rfl, rfl⟩
    · simp only [ne_eq, hlen, not_false_eq_true, if_true]
      exact wrote_commit_none _ _

end Representations

/-! ### Assignment to a list -/

section Lists

variable {t : Value} {items : List Value}

theorem wrote_materialized_packed {α : Type} {kind : PackedList α} (hkind : kind.Lawful)
    {xs : List α} (ht : IsPacked kind xs t) (key v : Value) :
    Wrote t (xs.map kind.wrap) (listWrites t (.value key) v xs.length)
      (t.assignMaterialized key v) := by
  unfold Value.assignMaterialized
  rw [ht.len]
  unfold listWrites listAddress valueAddress
  dsimp only
  cases resolveSingleIdx key xs.length with
  | some idx => exact wrote_packed_one hkind ht idx v
  | none =>
    cases resolveManyIdx key xs.length with
    | none => exact wrote_commit_none t _
    | some idxs => exact wrote_packed_many hkind ht idxs v

/-- **An assignment to a list is the writes of its key**, in every
representation. -/
theorem wrote_materialized (ht : items? t = some items) (hrange : ∀ range, t ≠ .intRange range)
    (key v : Value) :
    Wrote t items (listWrites t (.value key) v items.length) (t.assignMaterialized key v) := by
  cases t with
  | intList xs =>
    obtain rfl := Option.some.inj ht
    have h := wrote_materialized_packed PackedList.lawful_int (isPacked_int xs) key v
    rwa [← List.length_map] at h
  | floatList xs =>
    obtain rfl := Option.some.inj ht
    have h := wrote_materialized_packed PackedList.lawful_float (isPacked_float xs) key v
    rwa [← List.length_map] at h
  | boolList xs =>
    obtain rfl := Option.some.inj ht
    have h := wrote_materialized_packed PackedList.lawful_bool (isPacked_bool xs) key v
    rwa [← List.length_map] at h
  | string s =>
    obtain rfl := Option.some.inj ht
    have hlen : (charValues s).length = s.toList.length := List.length_map _
    show Wrote _ (charValues s) (listWrites _ _ _ (charValues s).length) _
    unfold Value.assignMaterialized listWrites listAddress valueAddress
    rw [hlen]
    dsimp only [packedListLen]
    cases resolveSingleIdx key s.toList.length with
    | some idx =>
      cases v with
      | char c =>
        refine ⟨rfl, ?_⟩
        exact items?_assignStringChars s [(idx, c)]
      | _ => exact ⟨rfl, rfl⟩
    | none =>
      cases resolveManyIdx key s.toList.length with
      | none => exact wrote_commit_none _ _
      | some idxs => exact wrote_string_many s idxs v
  | list xs =>
    obtain rfl := Option.some.inj ht
    show Wrote _ xs (listWrites _ _ _ xs.length) _
    unfold Value.assignMaterialized listWrites listAddress valueAddress
    dsimp only [packedListLen]
    cases resolveSingleIdx key xs.length with
    | some idx => exact ⟨rfl, rfl⟩
    | none =>
      cases resolveManyIdx key xs.length with
      | none => exact wrote_commit_none _ _
      | some idxs =>
        have hmany := wrote_list_many xs idxs v
        rw [Option.map_eq_bind] at hmany
        exact hmany
  | intRange range => exact absurd rfl (hrange range)
  | _ => cases ht

theorem wrote_materialized_many (ht : items? t = some items)
    (hrange : ∀ range, t ≠ .intRange range) (keys : List Value) (v : Value) :
    Wrote t items
      (((normalizeListIndices keys items.length).map .many).bind (addressWrites t · v))
      (t.assignManyMaterialized keys v) := by
  have packed : ∀ {α : Type} {kind : PackedList α} {xs : List α}, kind.Lawful →
      IsPacked kind xs t → Wrote t (xs.map kind.wrap)
        (((normalizeListIndices keys xs.length).map .many).bind (addressWrites t · v))
        (t.assignManyMaterialized keys v) := by
    intro α kind xs hkind hpacked
    unfold Value.assignManyMaterialized
    rw [hpacked.len]
    dsimp only
    cases normalizeListIndices keys xs.length with
    | none => exact wrote_commit_none t _
    | some idxs => exact wrote_packed_many hkind hpacked idxs v
  cases t with
  | intList xs =>
    obtain rfl := Option.some.inj ht
    have h := packed PackedList.lawful_int (isPacked_int xs)
    rwa [← List.length_map] at h
  | floatList xs =>
    obtain rfl := Option.some.inj ht
    have h := packed PackedList.lawful_float (isPacked_float xs)
    rwa [← List.length_map] at h
  | boolList xs =>
    obtain rfl := Option.some.inj ht
    have h := packed PackedList.lawful_bool (isPacked_bool xs)
    rwa [← List.length_map] at h
  | string s =>
    obtain rfl := Option.some.inj ht
    have hlen : (charValues s).length = s.toList.length := List.length_map _
    show Wrote _ (charValues s) (((normalizeListIndices keys (charValues s).length).map _).bind _) _
    unfold Value.assignManyMaterialized
    rw [hlen]
    dsimp only [packedListLen]
    cases normalizeListIndices keys s.toList.length with
    | none => exact wrote_commit_none _ _
    | some idxs => exact wrote_string_many s idxs v
  | list xs =>
    obtain rfl := Option.some.inj ht
    show Wrote _ xs (((normalizeListIndices keys xs.length).map _).bind _) _
    unfold Value.assignManyMaterialized
    dsimp only [packedListLen]
    cases normalizeListIndices keys xs.length with
    | none => exact wrote_commit_none _ _
    | some idxs =>
      have hmany := wrote_list_many xs idxs v
      rw [Option.map_eq_bind] at hmany
      exact hmany
  | intRange range => exact absurd rfl (hrange range)
  | _ => cases ht

theorem addressWrites_materialize (t : Value) (a : Address Nat) (v : Value) :
    addressWrites (materializeIntRange t) a v = addressWrites t a v := by
  cases t with
  | intRange range =>
    have hrefuses : refuses (materializeIntRange (.intRange range)) a =
        refuses (.intRange range) a := by
      rcases a with c | (_ | ⟨c, cs⟩) <;> rfl
    have hpaired : pairedValues (materializeIntRange (.intRange range)) v =
        pairedValues (.intRange range) v := by
      cases v <;> rfl
    rw [addressWrites, addressWrites, hrefuses, hpaired]
  | _ => rfl

theorem items?_materialize (t : Value) : items? (materializeIntRange t) = items? t := by
  cases t <;> rfl

theorem materialize_ne_range (t : Value) (range : IntRangeData) :
    materializeIntRange t ≠ .intRange range := by
  cases t <;> exact nofun

/-- A range may have become a list. -/
theorem wrote_of_materialized {ws : Option (List (Nat × Value))} {r : Option Unit × Value}
    (h : Wrote (materializeIntRange t) items ws r) : Wrote t items ws r := by
  cases ws with
  | some ws => exact h
  | none =>
    refine ⟨h.1, .inr ?_⟩
    rcases h.2 with h2 | h2
    · exact h2
    · rw [h2]
      cases t <;> rfl

/-- **An assignment to a list is the writes of its key**, in every
representation. -/
theorem assign_list (ht : items? t = some items) (key : IndexKey) (v : Value) :
    Wrote t items (listWrites t key v items.length) (key.assign t v) := by
  have hitems : items? (materializeIntRange t) = some items := (items?_materialize t).trans ht
  have one : ∀ k, Wrote t items (listWrites t (.value k) v items.length) (t.assignByIndex k v) := by
    intro k
    have h := wrote_materialized hitems (materialize_ne_range t) k v
    unfold listWrites at h ⊢
    simp only [addressWrites_materialize] at h
    exact wrote_of_materialized h
  cases key with
  | value k => exact one k
  | args keys =>
    cases keys with
    | nil => exact ⟨rfl, .inl rfl⟩
    | cons k ks =>
      cases ks with
      | nil => exact one k
      | cons k' ks =>
        have h := wrote_materialized_many hitems (materialize_ne_range t) (k :: k' :: ks) v
        simp only [addressWrites_materialize] at h
        exact wrote_of_materialized h

end Lists

/-! ### Independence of representations -/

section Independence

open Value

variable {t t' v v' : Value} {items : List Value}

/-- The target takes the value apart if the value is a list, strings apart. -/
def Recognised (target value : Value) : Prop := pairedValues target value = listStorageSeq value

def IsStringValue (v : Value) : Prop := ∃ s, v = .string s

/-- The key is an empty list of positions. -/
def IndexKey.NamesNone (key : IndexKey) : Prop :=
  ∃ k, (key = .value k ∨ key = .args [k]) ∧ exactIntSeq k = some []

theorem items?_norm (v : Value) : (items? v).map (List.map norm) =
    match v.norm with
    | .list xs => some xs
    | _ => none := by
  cases h : ValueSeq.fromValue v with
  | some seq =>
    rw [norm_of_fromValue h, items?, h]
    rfl
  | none =>
    rw [items?, h]
    cases v <;> first | rfl | cases h

theorem norm_of_items? (h : items? t = some items) : t.norm = .list (items.map norm) := by
  obtain ⟨seq, hseq, rfl⟩ := Option.map_eq_some_iff.mp h
  exact norm_of_fromValue hseq

theorem norm_materialize (t : Value) : (materializeIntRange t).norm = t.norm := by
  cases t <;> rfl

theorem listStorageSeq_eq (h : ¬IsStringValue v) : listStorageSeq v = items? v := by
  cases v <;> first | rfl | exact absurd ⟨_, rfl⟩ h

/-- Values with one normal form are taken apart into the same items. -/
theorem listStorageSeq_norm (hv : v.norm = v'.norm) (hs : IsStringValue v ↔ IsStringValue v') :
    (listStorageSeq v).map (List.map norm) = (listStorageSeq v').map (List.map norm) := by
  by_cases h : IsStringValue v
  · obtain ⟨s, rfl⟩ := h
    obtain ⟨s', rfl⟩ := hs.mp ⟨s, rfl⟩
    rfl
  · rw [listStorageSeq_eq h, listStorageSeq_eq (fun h' => h (hs.mpr h')), items?_norm, items?_norm,
      hv]

def normWrites (ws : List (Nat × Value)) : List (Nat × Value) := ws.map fun p => (p.1, p.2.norm)

theorem writes_norm (a : Address Nat) (paired : Option (List Value)) (v : Value) :
    (a.writes paired v).map normWrites = a.writes (paired.map (List.map norm)) v.norm := by
  cases a with
  | one c => rfl
  | many cs =>
    cases paired with
    | none =>
      show some (normWrites (cs.map _)) = some _
      rw [normWrites, List.map_map]
      rfl
    | some vals =>
      rw [Option.map_some, Address.writes, Address.writes, List.length_map]
      by_cases hlen : cs.length = vals.length
      · simp only [ne_eq, hlen, not_true_eq_false, if_false, Option.map_some, normWrites,
          List.zip_map_right]
        rfl
      · simp only [ne_eq, hlen, not_false_eq_true, if_true, Option.map_none]

theorem eq_nil_of_normalizeMany {idxs : List Int64} {len : Nat}
    (h : normalizeMany idxs len = some []) : idxs = [] :=
  List.length_eq_zero_iff.mp (length_of_mapM h).symm

/-- Only an empty key names no positions. -/
theorem namesNone_of_many_nil {key : IndexKey} {len : Nat}
    (h : listAddress key len = some (.many [])) : key.NamesNone := by
  have one : ∀ k, valueAddress k len = some (.many []) → exactIntSeq k = some [] := by
    intro k hk
    unfold valueAddress at hk
    cases hsingle : resolveSingleIdx k len with
    | some idx =>
      rw [hsingle] at hk
      cases hk
    | none =>
      rw [hsingle] at hk
      obtain ⟨idxs, hidxs, hmany⟩ := Option.map_eq_some_iff.mp hk
      obtain rfl : idxs = [] := Address.many.inj hmany
      obtain ⟨is, his, hnorm⟩ := Option.bind_eq_some_iff.mp hidxs
      rwa [eq_nil_of_normalizeMany hnorm] at his
  cases key with
  | value k => exact ⟨k, .inl rfl, one k h⟩
  | args keys =>
    cases keys with
    | nil => cases h
    | cons k ks =>
      cases ks with
      | nil => exact ⟨k, .inr rfl, one k h⟩
      | cons k' ks =>
        obtain ⟨idxs, hidxs, hmany⟩ := Option.map_eq_some_iff.mp h
        obtain rfl : idxs = [] := Address.many.inj hmany
        obtain ⟨is, his, hnorm⟩ := Option.bind_eq_some_iff.mp hidxs
        have hlen := length_of_mapM his
        rw [eq_nil_of_normalizeMany hnorm] at hlen
        cases hlen

theorem refuses_of_ne {a : Address Nat} (h : a ≠ .many []) : refuses t a = false := by
  rcases a with c | (_ | ⟨c, cs⟩)
  · cases t <;> rfl
  · exact absurd rfl h
  · cases t <;> rfl

/-- The result of the same writes on the same items. -/
theorem wrote_norm {items' : List Value} {ws ws' : Option (List (Nat × Value))}
    {r r' : Option Unit × Value} (ht : items? t = some items) (ht' : items? t' = some items')
    (hn : t.norm = t'.norm) (hws : ws.map normWrites = ws'.map normWrites)
    (hr : Wrote t items ws r) (hr' : Wrote t' items' ws' r') :
    r.1 = r'.1 ∧ r.2.norm = r'.2.norm := by
  have unchanged : ∀ {t u : Value}, u = t ∨ u = materializeIntRange t → u.norm = t.norm := by
    rintro t u (rfl | rfl)
    · rfl
    · exact norm_materialize t
  cases ws with
  | none =>
    cases ws' with
    | none => exact ⟨hr.1.trans hr'.1.symm, by rw [unchanged hr.2, unchanged hr'.2, hn]⟩
    | some ws' => cases hws
  | some ws =>
    cases ws' with
    | none => cases hws
    | some ws' =>
      refine ⟨hr.1.trans hr'.1.symm, ?_⟩
      have hitems : items.map norm = items'.map norm := by
        rw [norm_of_items? ht, norm_of_items? ht'] at hn
        exact Value.list.inj hn
      rw [norm_of_items? hr.2, norm_of_items? hr'.2, map_setAll, map_setAll, hitems]
      exact congrArg (fun ws => Value.list (setAll _ ws)) (Option.some.inj hws)

/-- The writes of a key that names positions, to a target that recognises the
value. -/
theorem listWrites_recognised (hv : Recognised t v) {key : IndexKey} (hkey : ¬key.NamesNone)
    (len : Nat) : listWrites t key v len =
      (listAddress key len).bind fun a => a.writes (listStorageSeq v) v := by
  unfold listWrites addressWrites
  cases ha : listAddress key len with
  | none => rfl
  | some a =>
    have hne : a ≠ .many [] := fun h => hkey (namesNone_of_many_nil (h ▸ ha))
    show (if refuses t a = true then none else _) = _
    rw [refuses_of_ne hne, if_neg Bool.false_ne_true, hv]
    rfl

/-- A target that is a list by its normal form is a list. -/
theorem exists_items? (ht : items? t = some items) (hn : t.norm = t'.norm) :
    ∃ items', items? t' = some items' := by
  have h := items?_norm t'
  rw [← hn, norm_of_items? ht] at h
  exact (Option.map_eq_some_iff.mp h).imp fun _ => And.left

/-- **Index assignment is independent of representations.** On two targets
with one normal form that recognise values with one normal form, an assignment
by the same key, which is no empty list, succeeds alike and leaves the same
items. Where the value is a list and no string, its items are assigned in turn,
and any other value is assigned as a whole. -/
theorem assign_representation (t t' v v' : Value) (key : IndexKey) (items : List Value)
    (ht : items? t = some items) (hn : t.norm = t'.norm) (hv : v.norm = v'.norm)
    (hs : IsStringValue v ↔ IsStringValue v') (hr : Recognised t v) (hr' : Recognised t' v')
    (hkey : ¬key.NamesNone) :
    ((key.assign t v).1 = (key.assign t' v').1 ∧
      (key.assign t v).2.norm = (key.assign t' v').2.norm) ∧
    Wrote t items ((listAddress key items.length).bind fun a => a.writes (listStorageSeq v) v)
      (key.assign t v) := by
  obtain ⟨items', ht'⟩ := exists_items? ht hn
  have hwrote := assign_list ht key v
  have hwrote' := assign_list ht' key v'
  have hlen : items.length = items'.length := by
    rw [norm_of_items? ht, norm_of_items? ht'] at hn
    simpa using congrArg List.length (Value.list.inj hn)
  rw [listWrites_recognised hr hkey] at hwrote
  rw [listWrites_recognised hr' hkey, ← hlen] at hwrote'
  refine ⟨wrote_norm ht ht' hn ?_ hwrote hwrote', hwrote⟩
  cases listAddress key items.length with
  | none => rfl
  | some a =>
    show (a.writes _ v).map normWrites = (a.writes _ v').map normWrites
    rw [writes_norm, writes_norm, listStorageSeq_norm hv hs, hv]

/-- Two packed integers into a packed list, and the same in general lists. -/
theorem assign_representation_pair :
    ((IndexKey.value (.intList [0, 1])).assign (.intList [1, 2]) (.intList [5, 6])).2.norm =
      ((IndexKey.value (.intList [0, 1])).assign (.list [.int 1, .int 2])
        (.list [.int 5, .int 6])).2.norm := by
  have noString : ∀ v : Value, (∀ s, v ≠ .string s) → ¬IsStringValue v :=
    fun v hv h => h.elim hv
  refine (assign_representation (.intList [1, 2]) (.list [.int 1, .int 2]) (.intList [5, 6])
    (.list [.int 5, .int 6]) (.value (.intList [0, 1])) [.int 1, .int 2] rfl ?_ ?_ ?_ rfl rfl
    ?_).1.2
  · simp [Value.norm, normItems]
  · simp [Value.norm, normItems]
  · exact iff_of_false (noString _ (by simp)) (noString _ (by simp))
  · rintro ⟨k, hk | hk, hnil⟩
    · obtain rfl := IndexKey.value.inj hk
      cases hnil
    · cases hk

/-- A string is assigned as a whole, the list of its characters is not. -/
theorem assign_string_whole : ¬∀ (t t' v v' key : Value), t.isList = true → t.norm = t'.norm →
    v.norm = v'.norm → (t.assignByIndex key v).2.norm = (t'.assignByIndex key v').2.norm := by
  intro h
  have hnorm : (Value.string (String.ofList ['a'])).norm = (Value.list [.char 'a']).norm := by
    simp [Value.norm, normItems]
  have hassign := h (.list [.int 1]) (.list [.int 1]) (.string (String.ofList ['a']))
    (.list [.char 'a']) (.intList [0]) rfl rfl hnorm
  have hleft : ((Value.list [.int 1]).assignByIndex (.intList [0])
      (.string (String.ofList ['a']))).2 = .list [.string (String.ofList ['a'])] := rfl
  have hright : ((Value.list [.int 1]).assignByIndex (.intList [0]) (.list [.char 'a'])).2 =
      .list [.char 'a'] := rfl
  rw [hleft, hright] at hassign
  simp [Value.norm, normItems] at hassign

end Independence

end Wqpl
