/-
# Reading back an index assignment

After an assignment a cell of the target holds what was last written to it, or
what it held before, and the cells keep their order, those of new keys of a
dictionary following (`assign_spec`). Reading by the key of the assignment
yields what it wrote, unless the key counts positions from the end of a
dictionary that it makes longer (`ShiftsPositions`). A failed assignment leaves
the target as it was.
-/
import Wqpl.Access.Writes

namespace Wqpl

/-! ### Entries of a dictionary -/

/-- The name of the entry that one key of a dictionary stands for. -/
def dictCell (entries : List (String × Value)) : Value → Option String
  | .tag s => some s
  | key => do return (← entries[← resolveSingleIdx key entries.length]?).1

/-- The entries that a value names in a dictionary. -/
def dictValueAddress (key : Value) (entries : List (String × Value)) : Option (Address String) :=
  match dictCell entries key with
  | some s => some (.one s)
  | none =>
    match key with
    | .list keys => (keys.mapM (dictCell entries)).map .many
    | key =>
      (resolveManyIdx key entries.length).bind fun idxs =>
        (idxs.mapM fun (i : Nat) => entries[i]?.map Prod.fst).map .many

/-- The entries that a key names in a dictionary. -/
def dictAddress (key : IndexKey) (entries : List (String × Value)) : Option (Address String) :=
  match key with
  | .value key | .args [key] => dictValueAddress key entries
  | .args [] => none
  | .args keys => (keys.mapM (dictCell entries)).map .many

/-- The name of the entry that a resolved key stands for. -/
def DictBulkKey.name (entries : List (String × Value)) : DictBulkKey → Option String
  | .symbol s => some s
  | .position idx => entries[idx]?.map Prod.fst

section Entries

variable {entries : List (String × Value)}

/-- The names of the entries start with those of others, without repetition. -/
structure Extends (entries current : List (String × Value)) : Prop where
  names : entries.map Prod.fst <+: current.map Prod.fst
  nodup : (current.map Prod.fst).Nodup

theorem Extends.insert {current : List (String × Value)} (h : Extends entries current) (s : String)
    (v : Value) : Extends entries (IndexMap.insert current s v) where
  names := by
    rw [IndexMap.keys_insert]
    by_cases hs : s ∈ current.map Prod.fst
    · rw [if_pos hs]
      exact h.names
    · rw [if_neg hs]
      exact h.names.trans (List.prefix_append _ _)
  nodup := IndexMap.nodup_keys_insert h.nodup s v

/-- The entry at a position is under the same name in longer entries. -/
theorem Extends.getElem? {current : List (String × Value)} (h : Extends entries current) {i : Nat}
    {s : String} (hi : entries[i]?.map Prod.fst = some s) :
    ∃ v, current[i]? = some (s, v) := by
  obtain ⟨rest, hrest⟩ := h.names
  have hname : (current.map Prod.fst)[i]? = some s := by
    rw [← hrest, List.getElem?_append_left]
    · rwa [List.getElem?_map]
    · obtain ⟨e, he, -⟩ := Option.map_eq_some_iff.mp hi
      rw [List.length_map]
      exact (List.getElem?_eq_some_iff.mp he).1
  rw [List.getElem?_map] at hname
  obtain ⟨⟨k, v⟩, he, rfl⟩ := Option.map_eq_some_iff.mp hname
  exact ⟨v, he⟩

/-- One write goes to the entry of the name. -/
theorem assignDictEntry_name {current : List (String × Value)} (h : Extends entries current)
    {key : DictBulkKey} {s : String} (hs : key.name entries = some s) (v : Value) :
    assignDictEntry current key v = some (IndexMap.insert current s v) := by
  cases key with
  | symbol s' =>
    obtain rfl := Option.some.inj hs
    rfl
  | position idx =>
    obtain ⟨w, hw⟩ := h.getElem? hs
    have hlt : idx < current.length := (List.getElem?_eq_some_iff.mp hw).1
    rw [assignDictEntry, if_pos hlt, IndexMap.setAt_eq_insert h.nodup hw]

/-- **A dictionary takes the writes of an assignment** by the names that the
keys have before it. -/
theorem assignDictEntries_names : ∀ (keys : List DictBulkKey) (names : List String)
    (vals : List Value) (current : List (String × Value)), Extends entries current →
    List.Forall₂ (fun key s => key.name entries = some s) keys names →
    assignDictEntries current (keys.zip vals) =
      (some (), IndexMap.insertAll current (names.zip vals))
  | [], [], vals, current, _, _ => by cases vals <;> rfl
  | key :: keys, s :: names, [], current, _, _ => rfl
  | key :: keys, s :: names, v :: vals, current, h, .cons hs hnames => by
    rw [List.zip_cons_cons, assignDictEntries, assignDictEntry_name h hs]
    exact assignDictEntries_names keys names vals _ (h.insert s v) hnames

end Entries

/-! ### Reading by an address -/

section Reading

variable {C : Type} [DecidableEq C] {v : Value}

/-- What reading by an address yields: the value of its cell, or the list of
the values of its cells. -/
def Address.ReadBy (a : Address C) (get : C → Option Value) (read : Option Value) : Prop :=
  match a with
  | .one c => ∀ x, get c = some x → read = some x
  | .many cs => ∀ xs, cs.mapM get = some xs → ∃ w, read = some w ∧ items? w = some xs

theorem Address.writes_cells {a : Address C} {paired : Option (List Value)}
    {ws : List (C × Value)} (h : a.writes paired v = some ws) : ws.map Prod.fst = a.cells := by
  rcases a with c | cs
  · obtain rfl := Option.some.inj h
    rfl
  · cases paired with
    | none =>
      obtain rfl := Option.some.inj h
      show (cs.map _).map _ = cs
      rw [List.map_map]
      exact List.map_id _
    | some vals =>
      rw [Address.writes] at h
      by_cases hlen : cs.length = vals.length
      · simp only [ne_eq, hlen, not_true_eq_false, if_false, Option.some.injEq] at h
        rw [← h]
        exact List.map_fst_zip (le_of_eq hlen)
      · simp only [ne_eq, hlen, not_false_eq_true, if_true, reduceCtorEq] at h

theorem items?_fromItems (xs : List Value) : items? (Value.fromItems xs) = some xs :=
  Value.fromItems_values xs

/-- The values last written to cells that are all written to. -/
theorem mapM_last {ws : List (C × Value)} {cs : List C} (h : ∀ c ∈ cs, c ∈ ws.map Prod.fst) :
    ∃ xs, cs.mapM (IndexMap.last? ws) = some xs := by
  cases hm : cs.mapM (IndexMap.last? ws) with
  | some xs => exact ⟨xs, rfl⟩
  | none =>
    obtain ⟨c, hc, hnone⟩ := (mapM_none_iff cs).mp hm
    have hsome := (IndexMap.last?_isSome ws c).mpr (h c hc)
    rw [hnone] at hsome
    cases hsome

/-- What reading by the address of an assignment yields: the value in the one
cell, or the list of what was last written to each cell. -/
def Address.Reads (a : Address C) (v : Value) (ws : List (C × Value)) (read : Option Value) :
    Prop :=
  match a with
  | .one _ => read = some v
  | .many cs => ∃ w xs, read = some w ∧ items? w = some xs ∧
      cs.mapM (IndexMap.last? ws) = some xs

theorem Address.reads_of_readBy {a : Address C} {get get' : C → Option Value}
    {paired : Option (List Value)} {ws : List (C × Value)} {read : Option Value}
    (hws : a.writes paired v = some ws)
    (hget : ∀ c, get' c = (IndexMap.last? ws c).or (get c)) (hread : a.ReadBy get' read) :
    a.Reads v ws read := by
  have hcells := Address.writes_cells hws
  rcases a with c | cs
  · obtain rfl := Option.some.inj hws
    refine hread v ?_
    rw [hget, IndexMap.last?, List.reverse_singleton, IndexMap.get?_cons, if_pos rfl,
      Option.some_or]
  · have hwritten : ∀ c ∈ cs, c ∈ ws.map Prod.fst := fun c hc => by rwa [hcells]
    obtain ⟨xs, hxs⟩ := mapM_last hwritten
    obtain ⟨w, hw, hitems⟩ := hread xs <| mapM_imp (fun c x hc => by rw [hget, hc]; rfl) hxs
    exact ⟨w, xs, hw, hitems, hxs⟩

end Reading

/-! ### Reading a list -/

section Lists

variable {t : Value} {items : List Value}

theorem normalizeIdx_lt {i : Int64} {len idx : Nat} (h : normalizeIdx i len = some idx) :
    idx < len := by
  unfold normalizeIdx at h
  by_cases h0 : 0 ≤ i.toInt
  · rw [if_pos h0] at h
    by_cases hlt : i.toInt.toNat < len
    · rw [if_pos hlt] at h
      exact Option.some.inj h ▸ hlt
    · rw [if_neg hlt] at h
      cases h
  · rw [if_neg h0] at h
    by_cases hle : i.toInt.natAbs ≤ len
    · rw [if_pos hle] at h
      obtain rfl := Option.some.inj h
      omega
    · rw [if_neg hle] at h
      cases h

theorem resolveSingleIdx_lt {key : Value} {len idx : Nat}
    (h : resolveSingleIdx key len = some idx) : idx < len := by
  obtain ⟨i, -, hi⟩ := Option.bind_eq_some_iff.mp h
  exact normalizeIdx_lt hi

theorem normalizeMany_lt {is : List Int64} {len : Nat} {idxs : List Nat}
    (h : normalizeMany is len = some idxs) : ∀ idx ∈ idxs, idx < len := by
  intro idx hidx
  obtain ⟨i, hi⟩ := List.mem_iff_getElem?.mp hidx
  have hall := mapM_some h
  clear h
  induction hall generalizing i with
  | nil => cases hidx
  | cons hx _ ih =>
    cases i with
    | zero =>
      obtain rfl := Option.some.inj hi
      exact normalizeIdx_lt hx
    | succ i => exact ih (List.mem_of_getElem? hi) i hi

/-- A key of a list names positions of it. -/
theorem listAddress_lt {key : IndexKey} {len : Nat} {a : Address Nat}
    (h : listAddress key len = some a) : ∀ idx ∈ a.cells, idx < len := by
  have one : ∀ k, valueAddress k len = some a → ∀ idx ∈ a.cells, idx < len := by
    intro k hk
    unfold valueAddress at hk
    cases hsingle : resolveSingleIdx k len with
    | some i =>
      rw [hsingle] at hk
      obtain rfl := Option.some.inj hk
      intro idx hidx
      rw [List.mem_singleton.mp hidx]
      exact resolveSingleIdx_lt hsingle
    | none =>
      rw [hsingle] at hk
      obtain ⟨idxs, hidxs, rfl⟩ := Option.map_eq_some_iff.mp hk
      obtain ⟨is, -, his⟩ := Option.bind_eq_some_iff.mp hidxs
      exact normalizeMany_lt his
  rcases key with k | (_ | ⟨k, _ | ⟨k', ks⟩⟩)
  · exact one k h
  · cases h
  · exact one k h
  · obtain ⟨idxs, hidxs, rfl⟩ := Option.map_eq_some_iff.mp h
    obtain ⟨is, -, his⟩ := Option.bind_eq_some_iff.mp hidxs
    exact normalizeMany_lt his

/-- The items at some positions. -/
theorem gather_items (seq : ValueSeq) {idxs : List Nat} {xs : List Value}
    (h : (idxs.mapM fun (i : Nat) => seq.values[i]?) = some xs) :
    ∃ w, seq.gather idxs = some w ∧ items? w = some xs := by
  -- a packed list gathers its elements, which wrap to the items
  have packed : ∀ {α : Type} (wrap : α → Value) (get : Nat → Option α),
      (idxs.mapM fun i => (get i).map wrap) = some xs →
        ∃ ys, idxs.mapM get = some ys ∧ ys.map wrap = xs := by
    intro α wrap get hget
    rw [mapM_map] at hget
    exact Option.map_eq_some_iff.mp hget
  cases seq with
  | list items =>
    have hitems : (idxs.mapM fun (i : Nat) => items[i]?) = some xs := h
    exact ⟨Value.fromItems xs, by rw [ValueSeq.gather, hitems]; rfl, items?_fromItems xs⟩
  | intList items =>
    simp only [ValueSeq.values, List.getElem?_map] at h
    obtain ⟨ys, hys, rfl⟩ := packed _ _ h
    exact ⟨.intList ys, by rw [ValueSeq.gather, hys]; rfl, rfl⟩
  | intRange range =>
    simp only [ValueSeq.values, List.getElem?_map, ← IntRangeData.get_eq] at h
    obtain ⟨ys, hys, rfl⟩ := packed _ _ h
    exact ⟨.intList ys, by rw [ValueSeq.gather, hys]; rfl, rfl⟩
  | floatList items =>
    simp only [ValueSeq.values, List.getElem?_map] at h
    obtain ⟨ys, hys, rfl⟩ := packed _ _ h
    exact ⟨.floatList ys, by rw [ValueSeq.gather, hys]; rfl, rfl⟩
  | boolList items =>
    simp only [ValueSeq.values, List.getElem?_map] at h
    obtain ⟨ys, hys, rfl⟩ := packed _ _ h
    exact ⟨.boolList ys, by rw [ValueSeq.gather, hys]; rfl, rfl⟩
  | string s =>
    simp only [ValueSeq.values, List.getElem?_map] at h
    obtain ⟨ys, hys, rfl⟩ := packed _ _ h
    refine ⟨.string (String.ofList ys), by rw [ValueSeq.gather, hys]; rfl, ?_⟩
    show some ((String.ofList ys).toList.map Value.char) = _
    rw [String.toList_ofList]

theorem length_values (seq : ValueSeq) : seq.len = seq.values.length := by
  cases seq <;> simp [ValueSeq.len, ValueSeq.values]

/-- Reading a list by a key. -/
theorem listAddress_readBy (ht : items? t = some items) {key : IndexKey} {a : Address Nat}
    (ha : listAddress key items.length = some a) :
    a.ReadBy (fun i => items[i]?) (key.index t) := by
  obtain ⟨seq, hseq, rfl⟩ := Option.map_eq_some_iff.mp ht
  rw [← length_values] at ha
  have one : ∀ k, valueAddress k seq.len = some a →
      a.ReadBy (fun i => seq.values[i]?) (t.index k) := by
    intro k hk
    have hindex : t.index k = ((resolveSingleIdx k seq.len).bind seq.get).or
        ((resolveManyIdx k seq.len).bind seq.gather) := by
      unfold Value.index
      rw [hseq]
    rw [hindex]
    unfold valueAddress at hk
    cases hsingle : resolveSingleIdx k seq.len with
    | some i =>
      rw [hsingle] at hk
      obtain rfl := Option.some.inj hk
      intro x hx
      have hget : seq.get i = some x := (seq.get_eq i).trans hx
      rw [Option.bind_some, hget, Option.some_or]
    | none =>
      rw [hsingle] at hk
      obtain ⟨idxs, hidxs, rfl⟩ := Option.map_eq_some_iff.mp hk
      intro xs hxs
      rw [Option.bind_none, Option.none_or, hidxs]
      exact gather_items seq hxs
  rcases key with k | (_ | ⟨k, _ | ⟨k', ks⟩⟩)
  · exact one k ha
  · cases ha
  · exact one k ha
  · obtain ⟨idxs, hidxs, rfl⟩ := Option.map_eq_some_iff.mp ha
    intro xs hxs
    have hindex : t.indexMany (k :: k' :: ks) =
        (normalizeListIndices (k :: k' :: ks) seq.len).bind seq.gather := by
      unfold Value.indexMany
      rw [hseq]
      rfl
    show ∃ w, t.indexMany (k :: k' :: ks) = some w ∧ _
    rw [hindex, hidxs]
    exact gather_items seq hxs

end Lists

/-! ### Reading and writing a dictionary -/

section Dictionaries

variable {entries : List (String × Value)}

theorem dictCell_resolved {key : Value} (hkey : ∀ s, key ≠ .tag s) : dictCell entries key =
    (resolveSingleIdx key entries.length).bind fun idx => entries[idx]?.map Prod.fst := by
  have hcell : dictCell entries key = (resolveSingleIdx key entries.length).bind fun idx =>
      entries[idx]?.bind fun e => some e.1 := by
    cases key <;> first | rfl | exact absurd rfl (hkey _)
  rw [hcell]
  refine congrArg _ (funext fun idx => ?_)
  cases entries[idx]? <;> rfl

theorem exists_entry {idx : Nat} (h : idx < entries.length) :
    ∃ s v, entries[idx]? = some (s, v) :=
  ⟨_, _, List.getElem?_eq_getElem h⟩

/-- A key of a list of keys resolves when it names an entry. -/
theorem normalizeDictBulkKeys_related (entries : List (String × Value)) (keys : List Value) :
    Option.Rel (List.Forall₂ fun key s => DictBulkKey.name entries key = some s)
      (normalizeDictBulkKeys keys entries.length) (keys.mapM (dictCell entries)) := by
  have position : ∀ key : Value, (∀ s, key ≠ .tag s) →
      Option.Rel (fun key s => DictBulkKey.name entries key = some s)
        ((resolveSingleIdx key entries.length).map .position) (dictCell entries key) := by
    intro key hkey
    rw [dictCell_resolved hkey]
    cases hidx : resolveSingleIdx key entries.length with
    | none => exact .none
    | some idx =>
      obtain ⟨s, v, he⟩ := exists_entry (resolveSingleIdx_lt hidx)
      rw [Option.map_some, Option.bind_some, he]
      exact .some (by rw [DictBulkKey.name, he]; rfl)
  refine mapM_related (fun key => ?_) keys
  cases key with
  | tag s => exact .some rfl
  | _ => exact position _ nofun

/-- Positions resolve to the names of their entries. -/
theorem positions_related {idxs : List Nat} (h : ∀ idx ∈ idxs, idx < entries.length) :
    ∃ names, (idxs.mapM fun (i : Nat) => entries[i]?.map Prod.fst) = some names ∧
      List.Forall₂ (fun key s => DictBulkKey.name entries key = some s)
        (idxs.map .position) names := by
  cases hm : idxs.mapM fun (i : Nat) => entries[i]?.map Prod.fst with
  | none =>
    obtain ⟨idx, hidx, hnone⟩ := (mapM_none_iff idxs).mp hm
    obtain ⟨s, v, he⟩ := exists_entry (h idx hidx)
    rw [he] at hnone
    cases hnone
  | some names =>
    refine ⟨names, rfl, ?_⟩
    rw [List.forall₂_map_left_iff]
    exact mapM_some hm

theorem map_pair_eq_zip {α : Type} (v : Value) (xs : List α) :
    xs.map (·, v) = xs.zip (List.replicate xs.length v) := by
  induction xs with
  | nil => rfl
  | cons x xs ih => rw [List.map_cons, ih, List.length_cons, List.replicate_succ, List.zip_cons_cons]

/-- The writes of an assignment to several entries. -/
theorem assignDictBulk_names (hnodup : (entries.map Prod.fst).Nodup) {keys : List DictBulkKey}
    {names : List String}
    (h : List.Forall₂ (fun key s => DictBulkKey.name entries key = some s) keys names) (v : Value) :
    (assignDictBulk entries keys v).map id Value.dict =
      match (Address.many names).writes (listStorageSeq v) v with
      | some ws => (some (), .dict (IndexMap.insertAll entries ws))
      | none => (none, .dict entries) := by
  have hext : Extends entries entries := ⟨List.prefix_rfl, hnodup⟩
  have hlen : keys.length = names.length := h.length_eq
  unfold assignDictBulk
  cases listStorageSeq v with
  | none =>
    dsimp only [Address.writes]
    rw [map_pair_eq_zip, map_pair_eq_zip, ← hlen,
      assignDictEntries_names keys names _ entries hext h]
    rfl
  | some vals =>
    rw [Address.writes, hlen]
    by_cases hvals : names.length = vals.length
    · simp only [ne_eq, hvals, not_true_eq_false, if_false]
      rw [assignDictEntries_names keys names vals entries hext h]
      rfl
    · simp only [ne_eq, hvals, not_false_eq_true, if_true]
      rfl

/-- The writes to the entries that a key names. -/
def dictWrites (entries : List (String × Value)) (key : IndexKey) (v : Value) :
    Option (List (String × Value)) :=
  (dictAddress key entries).bind fun a => a.writes (listStorageSeq v) v

/-- The result of an assignment to a dictionary: the writes are inserted, or it
is left as it was. -/
def WroteDict (entries : List (String × Value)) (ws : Option (List (String × Value)))
    (r : Option Unit × Value) : Prop :=
  r = match ws with
    | some ws => (some (), .dict (IndexMap.insertAll entries ws))
    | none => (none, .dict entries)

theorem wroteDict_keys (hnodup : (entries.map Prod.fst).Nodup) (keys : List Value) (v : Value) :
    WroteDict entries (((keys.mapM (dictCell entries)).map Address.many).bind fun a =>
        a.writes (listStorageSeq v) v)
      (match normalizeDictBulkKeys keys entries.length with
        | some keys => (assignDictBulk entries keys v).map id .dict
        | none => (none, .dict entries)) := by
  have hrel := normalizeDictBulkKeys_related entries keys
  generalize normalizeDictBulkKeys keys entries.length = bulk,
    keys.mapM (dictCell entries) = names at hrel
  cases hrel with
  | none => rfl
  | some h => exact assignDictBulk_names hnodup h v

theorem wroteDict_positions (hnodup : (entries.map Prod.fst).Nodup) (key v : Value) :
    WroteDict entries
      (((resolveManyIdx key entries.length).bind fun idxs =>
        (idxs.mapM fun (i : Nat) => entries[i]?.map Prod.fst).map Address.many).bind fun a =>
          a.writes (listStorageSeq v) v)
      (match resolveManyIdx key entries.length with
        | some idxs => (assignDictBulk entries (idxs.map .position) v).map id .dict
        | none => (none, .dict entries)) := by
  cases hmany : resolveManyIdx key entries.length with
  | none => rfl
  | some idxs =>
    obtain ⟨is, -, his⟩ := Option.bind_eq_some_iff.mp hmany
    obtain ⟨names, hnames, h⟩ := positions_related (normalizeMany_lt his)
    rw [Option.bind_some, hnames]
    exact assignDictBulk_names hnodup h v

theorem assignMaterialized_dict {key : Value} (htag : ∀ s, key ≠ .tag s) {v : Value} :
    (Value.dict entries).assignMaterialized key v =
      match resolveSingleIdx key entries.length with
      | some idx => (some (), .dict (IndexMap.setAt entries idx v))
      | none =>
        match key with
        | .list keys =>
          match normalizeDictBulkKeys keys entries.length with
          | some keys => (assignDictBulk entries keys v).map id .dict
          | none => (none, .dict entries)
        | key =>
          match resolveManyIdx key entries.length with
          | some idxs => (assignDictBulk entries (idxs.map .position) v).map id .dict
          | none => (none, .dict entries) := by
  cases key <;> first | rfl | exact absurd rfl (htag _)

theorem wroteDict_value (hnodup : (entries.map Prod.fst).Nodup) (key v : Value) :
    WroteDict entries (dictWrites entries (.value key) v)
      ((Value.dict entries).assignMaterialized key v) := by
  unfold dictWrites dictAddress dictValueAddress
  dsimp only
  by_cases htag : ∀ s, key ≠ .tag s
  · rw [dictCell_resolved htag]
    rw [assignMaterialized_dict htag]
    cases hidx : resolveSingleIdx key entries.length with
    | some idx =>
      obtain ⟨s, w, he⟩ := exists_entry (resolveSingleIdx_lt hidx)
      rw [Option.bind_some, he]
      show (some (), Value.dict (IndexMap.setAt entries idx v)) = _
      rw [IndexMap.setAt_eq_insert hnodup he]
      rfl
    | none =>
      rw [Option.bind_none]
      by_cases hlist : ∀ keys, key ≠ .list keys
      · have positions := wroteDict_positions hnodup key v
        cases key <;> first | exact positions | exact absurd rfl (hlist _)
      · push Not at hlist
        obtain ⟨keys, rfl⟩ := hlist
        exact wroteDict_keys hnodup keys v
  · push Not at htag
    obtain ⟨s, rfl⟩ := htag
    rfl

/-- **An assignment to a dictionary is the insertions of its key.** -/
theorem assign_dict (hnodup : (entries.map Prod.fst).Nodup) (key : IndexKey) (v : Value) :
    WroteDict entries (dictWrites entries key v) (key.assign (.dict entries) v) := by
  rcases key with k | (_ | ⟨k, _ | ⟨k', ks⟩⟩)
  · exact wroteDict_value hnodup k v
  · rfl
  · exact wroteDict_value hnodup k v
  · exact wroteDict_keys hnodup (k :: k' :: ks) v

theorem dictEntry_resolved {key : Value} (hkey : ∀ s, key ≠ .tag s) : dictEntry entries key =
    (resolveSingleIdx key entries.length).bind fun idx => entries[idx]?.map Prod.snd := by
  have hpos : ∀ o : Option Nat, (o.bind fun idx => entries[idx]?.bind fun e => some e.2) =
      o.bind fun idx => entries[idx]?.map Prod.snd := by
    intro o
    refine congrArg _ (funext fun idx => ?_)
    cases entries[idx]? <;> rfl
  cases key with
  | tag s => exact absurd rfl (hkey s)
  | int i => exact hpos _
  | bigInt n =>
    cases hi : i64? n with
    | none => simp [dictEntry, resolveSingleIdx, exactIntAtom, hi]
    | some i =>
      have h := hpos (normalizeIdx i entries.length)
      simpa [dictEntry, resolveSingleIdx, exactIntAtom, hi] using h
  | _ => rfl

theorem get?_of_getElem? (hnodup : (entries.map Prod.fst).Nodup) {i : Nat} {s : String} {x : Value}
    (hs : entries[i]?.map Prod.fst = some s) (hx : IndexMap.get? entries s = some x) :
    entries[i]?.map Prod.snd = some x := by
  obtain ⟨⟨k, y⟩, he, rfl⟩ := Option.map_eq_some_iff.mp hs
  rw [IndexMap.get?_of_mem hnodup (List.mem_of_getElem? he)] at hx
  rw [he]
  exact hx

/-- A key reads the entry that it names. -/
theorem dictEntry_of_cell (hnodup : (entries.map Prod.fst).Nodup) {key : Value} {s : String}
    {x : Value} (hs : dictCell entries key = some s) (hx : IndexMap.get? entries s = some x) :
    dictEntry entries key = some x := by
  by_cases htag : ∀ s, key ≠ .tag s
  · rw [dictCell_resolved htag] at hs
    obtain ⟨idx, hidx, hname⟩ := Option.bind_eq_some_iff.mp hs
    rw [dictEntry_resolved htag, hidx, Option.bind_some]
    exact get?_of_getElem? hnodup hname hx
  · push Not at htag
    obtain ⟨s', rfl⟩ := htag
    obtain rfl := Option.some.inj hs
    exact hx

theorem mapM_dictEntry (hnodup : (entries.map Prod.fst).Nodup) {keys : List Value}
    {names : List String} {xs : List Value} (hnames : keys.mapM (dictCell entries) = some names)
    (hxs : names.mapM (IndexMap.get? entries) = some xs) :
    keys.mapM (dictEntry entries) = some xs := by
  have hbind := mapM_bind (dictCell entries) (IndexMap.get? entries) keys
  rw [hnames, Option.bind_some, hxs] at hbind
  refine mapM_imp (fun key x hx => ?_) hbind.symm
  obtain ⟨s, hs, hget⟩ := Option.bind_eq_some_iff.mp hx
  exact dictEntry_of_cell hnodup hs hget

/-- The values at the positions that a list of positions names. -/
theorem mapM_positions (hnodup : (entries.map Prod.fst).Nodup) {idxs : List Nat}
    {names : List String} {xs : List Value}
    (hnames : (idxs.mapM fun (i : Nat) => entries[i]?.map Prod.fst) = some names)
    (hxs : names.mapM (IndexMap.get? entries) = some xs) :
    (idxs.mapM fun (i : Nat) => entries[i]?.map Prod.snd) = some xs := by
  have hbind := mapM_bind (fun (i : Nat) => entries[i]?.map Prod.fst) (IndexMap.get? entries) idxs
  rw [hnames, Option.bind_some, hxs] at hbind
  refine mapM_imp (fun i x hx => ?_) hbind.symm
  obtain ⟨s, hs, hget⟩ := Option.bind_eq_some_iff.mp hx
  exact get?_of_getElem? hnodup hs hget

/-- A list of positions reads the same as a list of keys. -/
theorem resolveManyIdx_values (keys : List Value) {xs : List Value}
    (h : ((resolveManyIdx (.list keys) entries.length).bind fun idxs =>
      idxs.mapM fun (i : Nat) => entries[i]?.map Prod.snd) = some xs) :
    keys.mapM (dictEntry entries) = some xs := by
  have hmany : resolveManyIdx (.list keys) entries.length =
      keys.mapM fun k => resolveSingleIdx k entries.length := mapM_bind exactIntAtom _ keys
  rw [hmany, mapM_bind] at h
  refine mapM_imp (fun key x hx => ?_) h
  rw [dictEntry_resolved, hx]
  rintro s rfl
  cases hx

theorem index_dict (key : Value) : (Value.dict entries).index key =
    (((resolveSingleIdx key entries.length).bind fun idx => entries[idx]?.map Prod.snd).or
      (((resolveManyIdx key entries.length).bind fun idxs =>
        idxs.mapM fun (i : Nat) => entries[i]?.map Prod.snd).map Value.fromItems)).or
    (match key with
      | .tag s => IndexMap.get? entries s
      | .list keys => (keys.mapM (dictEntry entries)).map Value.fromItems
      | _ => none) := by
  have hmany : ((resolveManyIdx key entries.length).bind fun idxs => do
        return Value.fromItems (← idxs.mapM fun (i : Nat) => entries[i]?.map Prod.snd)) =
      ((resolveManyIdx key entries.length).bind fun idxs =>
        idxs.mapM fun (i : Nat) => entries[i]?.map Prod.snd).map Value.fromItems := by
    cases resolveManyIdx key entries.length with
    | none => rfl
    | some idxs => exact (Option.map_eq_bind).symm
  show Option.or (Option.or _ ((resolveManyIdx key entries.length).bind fun idxs => do
        return Value.fromItems (← idxs.mapM fun (i : Nat) => entries[i]?.map Prod.snd))) _ = _
  rw [hmany]
  cases key <;> first | rfl | (simp only [Option.map_eq_bind]; rfl)

/-- Reading a dictionary by a key. -/
theorem dictAddress_readBy (hnodup : (entries.map Prod.fst).Nodup) {key : IndexKey}
    {a : Address String} (ha : dictAddress key entries = some a) :
    a.ReadBy (IndexMap.get? entries) (key.index (.dict entries)) := by
  have one : ∀ k, dictValueAddress k entries = some a →
      a.ReadBy (IndexMap.get? entries) ((Value.dict entries).index k) := by
    intro k hk
    rw [index_dict]
    unfold dictValueAddress at hk
    cases hcell : dictCell entries k with
    | some s =>
      rw [hcell] at hk
      obtain rfl := Option.some.inj hk
      intro x hx
      by_cases htag : ∀ s, k ≠ .tag s
      · rw [dictCell_resolved htag] at hcell
        obtain ⟨idx, hidx, hname⟩ := Option.bind_eq_some_iff.mp hcell
        rw [hidx, Option.bind_some, get?_of_getElem? hnodup hname hx]
        rfl
      · push Not at htag
        obtain ⟨s', rfl⟩ := htag
        obtain rfl := Option.some.inj hcell
        exact hx
    | none =>
      rw [hcell] at hk
      have htag : ∀ s, k ≠ .tag s := by
        rintro s rfl
        cases hcell
      have hsingle : ((resolveSingleIdx k entries.length).bind fun idx =>
          entries[idx]?.map Prod.snd) = none := by
        rw [dictCell_resolved htag] at hcell
        rw [Option.bind_eq_none_iff] at hcell ⊢
        intro idx hidx
        rw [Option.map_eq_none_iff]
        exact Option.map_eq_none_iff.mp (hcell idx hidx)
      rw [hsingle, Option.none_or]
      by_cases hlist : ∀ keys, k ≠ .list keys
      · have hmany : ((resolveManyIdx k entries.length).bind fun idxs =>
            (idxs.mapM fun (i : Nat) => entries[i]?.map Prod.fst).map Address.many) = some a := by
          cases k <;> first | exact hk | exact absurd rfl (hlist _)
        obtain ⟨idxs, hidxs, hmap⟩ := Option.bind_eq_some_iff.mp hmany
        obtain ⟨names, hnames, rfl⟩ := Option.map_eq_some_iff.mp hmap
        intro xs hxs
        rw [hidxs, Option.bind_some, mapM_positions hnodup hnames hxs]
        exact ⟨_, rfl, items?_fromItems xs⟩
      · push Not at hlist
        obtain ⟨keys, rfl⟩ := hlist
        obtain ⟨names, hnames, rfl⟩ := Option.map_eq_some_iff.mp hk
        intro xs hxs
        have hentries := mapM_dictEntry hnodup hnames hxs
        refine ⟨Value.fromItems xs, ?_, items?_fromItems xs⟩
        cases hmany : (resolveManyIdx (.list keys) entries.length).bind fun idxs =>
            idxs.mapM fun (i : Nat) => entries[i]?.map Prod.snd with
        | none =>
          rw [Option.map_none, Option.none_or]
          exact congrArg (Option.map Value.fromItems) hentries
        | some ys =>
          have hys := resolveManyIdx_values keys hmany
          rw [hentries, Option.some.injEq] at hys
          rw [← hys]
          rfl
  rcases key with k | (_ | ⟨k, _ | ⟨k', ks⟩⟩)
  · exact one k ha
  · cases ha
  · exact one k ha
  · obtain ⟨names, hnames, rfl⟩ := Option.map_eq_some_iff.mp ha
    intro xs hxs
    have hentries := mapM_dictEntry hnodup hnames hxs
    refine ⟨Value.fromItems xs, ?_, items?_fromItems xs⟩
    show (do return Value.fromItems (← (k :: k' :: ks).mapM (dictEntry entries))) = _
    rw [hentries]
    rfl

end Dictionaries

/-! ### Keys of a dictionary that grows -/

section Growth

variable {entries entries' : List (String × Value)}

/-- The key is a position counted from the end. -/
def FromEnd (key : Value) : Prop := ∃ i, exactIntAtom key = some i ∧ i.toInt < 0

/-- The keys of a list of keys. -/
def listedKeys : Value → List Value
  | .list keys => keys
  | _ => []

def IndexKey.keys : IndexKey → List Value
  | .value key | .args [key] => listedKeys key
  | .args keys => keys

/-- The key has a position counted from the end beside a new tag: the
assignment makes the dictionary longer, so the position moves. -/
def ShiftsPositions (entries : List (String × Value)) (key : IndexKey) : Prop :=
  (∃ k ∈ key.keys, FromEnd k) ∧ ∃ s, .tag s ∈ key.keys ∧ s ∉ entries.map Prod.fst

/-- The names of the entries are all that an address depends on. -/
theorem dictAddress_congr (h : entries'.map Prod.fst = entries.map Prod.fst) (key : IndexKey) :
    dictAddress key entries' = dictAddress key entries := by
  have hlen : entries'.length = entries.length := by simpa using congrArg List.length h
  have hname : ∀ i : Nat, entries'[i]?.map Prod.fst = entries[i]?.map Prod.fst := by
    intro i
    rw [← List.getElem?_map, ← List.getElem?_map, h]
  have hcell : dictCell entries' = dictCell entries := by
    funext k
    by_cases htag : ∀ s, k ≠ .tag s
    · rw [dictCell_resolved htag, dictCell_resolved htag, hlen]
      exact congrArg _ (funext hname)
    · push Not at htag
      obtain ⟨s, rfl⟩ := htag
      rfl
  have hvalue : ∀ k, dictValueAddress k entries' = dictValueAddress k entries := by
    intro k
    unfold dictValueAddress
    rw [hcell, hlen]
    simp only [hname]
  rcases key with k | (_ | ⟨k, _ | ⟨k', ks⟩⟩)
  · exact hvalue k
  · rfl
  · exact hvalue k
  · show ((k :: k' :: ks).mapM (dictCell entries')).map _ = _
    rw [hcell]
    rfl

/-- A position from the start is the same in longer entries. -/
theorem dictCell_extends (h : Extends entries entries') {key : Value} (hkey : ¬FromEnd key)
    {s : String} (hs : dictCell entries key = some s) : dictCell entries' key = some s := by
  by_cases htag : ∀ s, key ≠ .tag s
  · rw [dictCell_resolved htag] at hs ⊢
    obtain ⟨idx, hidx, hname⟩ := Option.bind_eq_some_iff.mp hs
    obtain ⟨i, hi, hnorm⟩ := Option.bind_eq_some_iff.mp hidx
    have h0 : 0 ≤ i.toInt := Int.not_lt.mp fun hneg => hkey ⟨i, hi, hneg⟩
    have hidx' : resolveSingleIdx key entries'.length = some idx := by
      rw [resolveSingleIdx, hi]
      show normalizeIdx i entries'.length = some idx
      unfold normalizeIdx at hnorm ⊢
      rw [if_pos h0] at hnorm ⊢
      have hle : entries.length ≤ entries'.length := by simpa using h.names.length_le
      by_cases hlt : i.toInt.toNat < entries.length
      · rw [if_pos hlt] at hnorm
        rwa [if_pos (hlt.trans_le hle)]
      · rw [if_neg hlt] at hnorm
        cases hnorm
    obtain ⟨v, he⟩ := h.getElem? hname
    rw [hidx', Option.bind_some, he]
    rfl
  · push Not at htag
    obtain ⟨s', rfl⟩ := htag
    exact hs

theorem mem_names_of_cell {key : Value} {s : String} (hs : dictCell entries key = some s) :
    key = .tag s ∨ s ∈ entries.map Prod.fst := by
  by_cases htag : ∀ s, key ≠ .tag s
  · rw [dictCell_resolved htag] at hs
    obtain ⟨idx, -, hname⟩ := Option.bind_eq_some_iff.mp hs
    rw [← List.getElem?_map] at hname
    exact .inr (List.mem_of_getElem? hname)
  · push Not at htag
    obtain ⟨s', rfl⟩ := htag
    obtain rfl := Option.some.inj hs
    exact .inl rfl

/-- The entries that a key names are there, but for tags. -/
theorem dictAddress_cells {key : IndexKey} {a : Address String}
    (ha : dictAddress key entries = some a) {s : String} (hs : s ∈ a.cells)
    (hnew : s ∉ entries.map Prod.fst) :
    (∃ k, (key = .value k ∨ key = .args [k]) ∧ k = .tag s) ∨ .tag s ∈ key.keys := by
  have keys : ∀ {ks : List Value} {names : List String},
      ks.mapM (dictCell entries) = some names → s ∈ names → .tag s ∈ ks := by
    intro ks names hnames hmem
    obtain ⟨k, hk, hcell⟩ := mem_of_mapM hnames hmem
    rcases mem_names_of_cell hcell with rfl | hold
    · exact hk
    · exact absurd hold hnew
  have one : ∀ k, dictValueAddress k entries = some a → k = .tag s ∨ .tag s ∈ listedKeys k := by
    intro k hk
    unfold dictValueAddress at hk
    cases hcell : dictCell entries k with
    | some s' =>
      rw [hcell] at hk
      obtain rfl := Option.some.inj hk
      obtain rfl := List.mem_singleton.mp hs
      exact (mem_names_of_cell hcell).imp id fun hold => absurd hold hnew
    | none =>
      rw [hcell] at hk
      by_cases hlist : ∀ keys, k ≠ .list keys
      · have hmany : ((resolveManyIdx k entries.length).bind fun idxs =>
            (idxs.mapM fun (i : Nat) => entries[i]?.map Prod.fst).map Address.many) = some a := by
          cases k <;> first | exact hk | exact absurd rfl (hlist _)
        obtain ⟨idxs, -, hmap⟩ := Option.bind_eq_some_iff.mp hmany
        obtain ⟨names, hnames, rfl⟩ := Option.map_eq_some_iff.mp hmap
        obtain ⟨idx, -, hname⟩ := mem_of_mapM hnames hs
        rw [← List.getElem?_map] at hname
        exact absurd (List.mem_of_getElem? hname) hnew
      · push Not at hlist
        obtain ⟨ks, rfl⟩ := hlist
        obtain ⟨names, hnames, rfl⟩ := Option.map_eq_some_iff.mp hk
        exact .inr (keys hnames hs)
  rcases key with k | (_ | ⟨k, _ | ⟨k', ks⟩⟩)
  · exact (one k ha).imp (fun hk => ⟨k, .inl rfl, hk⟩) id
  · cases ha
  · exact (one k ha).imp (fun hk => ⟨k, .inr rfl, hk⟩) id
  · obtain ⟨names, hnames, rfl⟩ := Option.map_eq_some_iff.mp ha
    exact .inr (keys hnames hs)

/-- **A key that shifts no positions names the same entries afterwards.** -/
theorem dictAddress_insertAll (hnodup : (entries.map Prod.fst).Nodup) {key : IndexKey}
    {a : Address String} (ha : dictAddress key entries = some a) (hkey : ¬ShiftsPositions entries key)
    {ws : List (String × Value)} (hws : ws.map Prod.fst = a.cells) :
    dictAddress key (IndexMap.insertAll entries ws) = some a := by
  by_cases hold : ∀ s ∈ a.cells, s ∈ entries.map Prod.fst
  · rw [dictAddress_congr (IndexMap.keys_insertAll_of_subset (by rwa [hws])), ha]
  · push Not at hold
    obtain ⟨s, hs, hnew⟩ := hold
    rcases dictAddress_cells ha hs hnew with ⟨k, rfl | rfl, rfl⟩ | htag
    · exact ha
    · exact ha
    · -- the tag is new, so the other keys of the list are no positions from the end
      have hpos : ∀ k ∈ key.keys, ¬FromEnd k := fun k hk hend => hkey ⟨⟨k, hk, hend⟩, s, htag, hnew⟩
      have hext : Extends entries (IndexMap.insertAll entries ws) := by
        obtain ⟨new, hnames, -⟩ := IndexMap.keys_insertAll ws entries
        refine ⟨?_, IndexMap.nodup_keys_insertAll hnodup ws⟩
        rw [hnames]
        exact List.prefix_append _ _
      have keys : ∀ {ks : List Value} {names : List String}, (∀ k ∈ ks, ¬FromEnd k) →
          ks.mapM (dictCell entries) = some names →
          ks.mapM (dictCell (IndexMap.insertAll entries ws)) = some names := by
        intro ks names hks hnames
        have hall := mapM_some hnames
        clear hnames
        rw [mapM_some_iff]
        induction hall with
        | nil => exact .nil
        | cons hk _ ih =>
          exact .cons (dictCell_extends hext (hks _ List.mem_cons_self) hk)
            (ih fun k hk => hks k (List.mem_cons_of_mem _ hk))
      have one : ∀ k, .tag s ∈ listedKeys k → (∀ k' ∈ listedKeys k, ¬FromEnd k') →
          dictValueAddress k entries = some a →
          dictValueAddress k (IndexMap.insertAll entries ws) = some a := by
        intro k hmem hks hk
        cases k with
        | list ks =>
          obtain ⟨names, hnames, rfl⟩ := Option.map_eq_some_iff.mp hk
          show Option.map Address.many (ks.mapM (dictCell _)) = _
          exact congrArg (Option.map Address.many) (keys hks hnames)
        | _ => cases hmem
      rcases key with k | (_ | ⟨k, _ | ⟨k', ks⟩⟩)
      · exact one k htag hpos ha
      · cases ha
      · exact one k htag hpos ha
      · obtain ⟨names, hnames, rfl⟩ := Option.map_eq_some_iff.mp ha
        show Option.map Address.many ((k :: k' :: ks).mapM (dictCell _)) = _
        exact congrArg (Option.map Address.many) (keys hpos hnames)

end Growth

/-! ### Assignment -/

/-- The names of a dictionary are different, as in any map. -/
def UniqueKeys (t : Value) : Prop := ∀ entries, t = .dict entries → (entries.map Prod.fst).Nodup

/-- What a successful assignment leaves. The cells that the key names take what
is written to them, the last of several writes, the other cells are as they
were, in their order, and the key reads what was written. -/
inductive Assigned (key : IndexKey) (v : Value) : Value → Value → Prop
  | list {t t' : Value} {items items' : List Value} {a : Address Nat} {ws : List (Nat × Value)}
      (source : items? t = some items) (target : items? t' = some items')
      (address : listAddress key items.length = some a)
      (writes : a.writes (pairedValues t v) v = some ws)
      (length : items'.length = items.length)
      (item : ∀ i : Nat, items'[i]? = (IndexMap.last? ws i).or items[i]?)
      (reads : a.Reads v ws (key.index t')) : Assigned key v t t'
  | dict {entries entries' : List (String × Value)} {a : Address String}
      {ws : List (String × Value)}
      (address : dictAddress key entries = some a)
      (writes : a.writes (listStorageSeq v) v = some ws)
      (names : ∃ new, entries'.map Prod.fst = entries.map Prod.fst ++ new ∧ ∀ s ∈ new, s ∈ a.cells)
      (entry : ∀ s, IndexMap.get? entries' s = (IndexMap.last? ws s).or (IndexMap.get? entries s))
      (reads : ¬ShiftsPositions entries key → a.Reads v ws (key.index (.dict entries'))) :
      Assigned key v (.dict entries) (.dict entries')

section Assign

variable {key : IndexKey} {v t t' : Value} {items : List Value}

theorem last?_eq_none {C : Type} [DecidableEq C] {ws : List (C × Value)} {c : C}
    (h : c ∉ ws.map Prod.fst) : IndexMap.last? ws c = none := by
  rw [← IndexMap.last?_isSome] at h
  exact Option.not_isSome_iff_eq_none.mp h

theorem assigned_list (ht : items? t = some items) (h : key.assign t v = (some (), t')) :
    Assigned key v t t' := by
  have hwrote := assign_list ht key v
  rw [h] at hwrote
  cases hws : listWrites t key v items.length with
  | none =>
    rw [hws] at hwrote
    cases hwrote.1
  | some ws =>
    rw [hws] at hwrote
    obtain ⟨a, ha, haddress⟩ := Option.bind_eq_some_iff.mp hws
    have hwrites : a.writes (pairedValues t v) v = some ws := by
      unfold addressWrites at haddress
      by_cases hrefuses : refuses t a = true
      · rw [if_pos hrefuses] at haddress
        cases haddress
      · rwa [if_neg hrefuses] at haddress
    have hcells := Address.writes_cells hwrites
    have hitem : ∀ i : Nat,
        (setAll items ws)[i]? = (IndexMap.last? ws i).or items[i]? := by
      intro i
      by_cases hi : i < items.length
      · exact getElem?_setAll ws items i hi
      · have hnone : IndexMap.last? ws i = none := by
          refine last?_eq_none fun hmem => hi (listAddress_lt ha i ?_)
          rwa [← hcells]
        rw [hnone, List.getElem?_eq_none (by simpa using hi),
          List.getElem?_eq_none (Nat.le_of_not_lt hi)]
        rfl
    refine .list ht hwrote.2 ha hwrites (length_setAll ws items) hitem ?_
    refine Address.reads_of_readBy hwrites hitem (listAddress_readBy hwrote.2 ?_)
    rwa [length_setAll]

theorem assigned_dict {entries : List (String × Value)} (hnodup : (entries.map Prod.fst).Nodup)
    (h : key.assign (.dict entries) v = (some (), t')) : Assigned key v (.dict entries) t' := by
  have hwrote := assign_dict hnodup key v
  unfold WroteDict at hwrote
  rw [h] at hwrote
  cases hws : dictWrites entries key v with
  | none =>
    rw [hws] at hwrote
    cases hwrote
  | some ws =>
    rw [hws] at hwrote
    obtain rfl : t' = .dict (IndexMap.insertAll entries ws) := (Prod.mk.inj hwrote).2
    obtain ⟨a, ha, hwrites⟩ := Option.bind_eq_some_iff.mp hws
    have hcells := Address.writes_cells hwrites
    have hentry := IndexMap.get?_insertAll ws entries
    obtain ⟨new, hnames, hnew⟩ := IndexMap.keys_insertAll ws entries
    refine .dict ha hwrites ⟨new, hnames, fun s hs => hcells ▸ hnew s hs⟩ hentry fun hshifts => ?_
    exact Address.reads_of_readBy hwrites hentry <|
      dictAddress_readBy (IndexMap.nodup_keys_insertAll hnodup ws) <|
        dictAddress_insertAll hnodup ha hshifts hcells

/-- Only lists and dictionaries are assigned to. -/
theorem assign_other (hlist : items? t = none) (hdict : ∀ entries, t ≠ .dict entries)
    (key : IndexKey) (v : Value) : key.assign t v = (none, t) := by
  have one : ∀ k, t.assignByIndex k v = (none, t) := by
    intro k
    cases t <;> first | rfl | exact absurd rfl (hdict _) | cases hlist
  rcases key with k | (_ | ⟨k, _ | ⟨k', ks⟩⟩)
  · exact one k
  · rfl
  · exact one k
  · cases t <;> first | rfl | exact absurd rfl (hdict _) | cases hlist

/-- **Index assignment is atomic, and reading follows it.** A failed assignment
leaves the target, a range perhaps as a list. -/
theorem assign_read (t key v) (ht : UniqueKeys t) :
    match key.assign t v with
    | (some (), t') => Assigned key v t t'
    | (none, t') => t' = t ∨ t' = materializeIntRange t := by
  rcases h : key.assign t v with ⟨_ | _, t'⟩
  · cases hitems : items? t with
    | some items =>
      have hwrote := assign_list hitems key v
      rw [h] at hwrote
      cases hws : listWrites t key v items.length with
      | none =>
        rw [hws] at hwrote
        exact hwrote.2
      | some ws =>
        rw [hws] at hwrote
        cases hwrote.1
    | none =>
      by_cases hdict : ∀ entries, t ≠ .dict entries
      · rw [assign_other hitems hdict] at h
        exact .inl (Prod.mk.inj h).2.symm
      · push Not at hdict
        obtain ⟨entries, rfl⟩ := hdict
        have hwrote := assign_dict (ht entries rfl) key v
        unfold WroteDict at hwrote
        rw [h] at hwrote
        cases hws : dictWrites entries key v with
        | none =>
          rw [hws] at hwrote
          exact .inl (Prod.mk.inj hwrote).2
        | some ws =>
          rw [hws] at hwrote
          cases hwrote
  · cases hitems : items? t with
    | some items => exact assigned_list hitems h
    | none =>
      by_cases hdict : ∀ entries, t ≠ .dict entries
      · rw [assign_other hitems hdict] at h
        cases h
      · push Not at hdict
        obtain ⟨entries, rfl⟩ := hdict
        exact assigned_dict (ht entries rfl) h

/-- A new entry and one at a position, to a dictionary of one entry. -/
theorem assign_read_dict : UniqueKeys (.dict [("a", .int 1)]) ∧
    match (IndexKey.value (.list [.tag "b", .int 0])).assign (.dict [("a", .int 1)])
      (.intList [5, 6]) with
    | (some (), t') => Assigned (.value (.list [.tag "b", .int 0])) (.intList [5, 6])
        (.dict [("a", .int 1)]) t'
    | (none, t') => t' = .dict [("a", .int 1)] ∨ t' = materializeIntRange (.dict [("a", .int 1)]) := by
  have ht : UniqueKeys (.dict [("a", .int 1)]) := by
    intro entries h
    obtain rfl := Value.dict.inj h
    decide
  exact ⟨ht, assign_read (.dict [("a", .int 1)]) (.value (.list [.tag "b", .int 0]))
    (.intList [5, 6]) ht⟩

/-- One value assigned to two positions reads as a list. -/
theorem assign_broadcasts : ¬∀ (t t' v : Value) (key : IndexKey),
    key.assign t v = (some (), t') → key.index t' = some v := by
  intro h
  have hread := h (.intList [1, 2, 3]) (.intList [5, 5, 3]) (.int 5) (.value (.intList [0, 1])) rfl
  have hindex : (IndexKey.value (.intList [0, 1])).index (.intList [5, 5, 3]) =
      some (.intList [5, 5]) := rfl
  rw [hindex] at hread
  cases hread

end Assign

end Wqpl
