/-
# Popping and removing partition the container

A container is the list of its elements, each with its key if it is a
dictionary (`Value.parts`). Popping takes the last elements off and removing
the elements at the positions of its keys; what is returned depends on the
elements only, not on their representation (`Value.Yields`), with one exception:
a string of one character that is popped by one is returned as a string
(`Value.PopsWholeString`).
-/
import Wqpl.Access.PopRemove
import Wqpl.Access.ReadBack
import Wqpl.Representation

namespace Wqpl

namespace Value

/-! ### The elements of a container -/

/-- The elements with their keys; those of a list have none. -/
def parts : Value → List (Option String × Value)
  | .dict entries => entries.map fun e => (some e.1, e.2)
  | v => v.containerItems.map fun x => (none, x)

/-- `rest` holds `es`, as a dictionary where `v` is one. -/
structure Holds (v rest : Value) (es : List (Option String × Value)) : Prop where
  container : rest.isAtom = false
  isDict : rest.isDict = v.isDict
  parts : rest.parts = es

/-- What taking out elements returns: the one that was asked for alone, or the
list of all. -/
def Yields (several : Bool) (taken : List Value) (r : Value) : Prop :=
  match several, taken with
  | false, [x] => r = x
  | _, taken => (ValueSeq.fromValue r).map ValueSeq.values = some taken

/-- Popping `n` elements takes off the last `n`, or all there are. -/
def Pops (v : Value) (n : Nat) (outcome : Outcome) : Prop :=
  ∃ r rest kept taken, outcome = some (.ok r, rest) ∧ v.parts = kept ++ taken ∧
    taken.length = min n v.parts.length ∧ Holds v rest kept ∧
    Yields (decide (n ≠ 1)) (taken.map Prod.snd) r

/-- Popping returns the same and leaves the same, up to the representation. -/
def SamePops (v w : Value) (n : Nat) : Prop :=
  ∃ r rest r' rest', v.popInPlace n = some (.ok r, rest) ∧ w.popInPlace n = some (.ok r', rest') ∧
    r.norm = r'.norm ∧ rest.norm = rest'.norm

/-- The string of one character is popped by one. -/
def PopsWholeString (v : Value) (n : Nat) : Prop :=
  n = 1 ∧ ∃ c, v = .string (String.ofList [c])

/-- The position that one key stands for: of its entry for a tag, else counted
from the start or from the end. -/
def position (v key : Value) : Option Nat :=
  match key with
  | .tag s => v.parts.findIdx? fun e => e.1 = some s
  | key => resolveSingleIdx key v.parts.length

/-- The positions that a key stands for, and whether it is a list of keys. -/
def keyPositions (v idx : Value) : Option (List Nat × Bool) :=
  match idx with
  | .list keys => (keys.mapM v.position).map (·, true)
  | .intList keys => ((keys.map .int).mapM v.position).map (·, true)
  | .intRange keys => ((keys.toVec.map .int).mapM v.position).map (·, true)
  | key => (v.position key).map ([·], false)

/-- An error leaves the container as it was. -/
def Fails (v : Value) (outcome : Outcome) : Prop :=
  ∃ e rest, outcome = some (.error e, rest) ∧ Holds v rest v.parts

/-- Removing by a key takes out the elements at its positions, in their order,
and leaves the others in theirs. Without positions, or with one twice, it
fails. -/
def Removes (v idx : Value) (outcome : Outcome) : Prop :=
  match v.keyPositions idx with
  | some (positions, several) =>
    if positions.Nodup then
      ∃ r rest taken, outcome = some (.ok r, rest) ∧ gather v.parts positions = some taken ∧
        Yields several (taken.map Prod.snd) r ∧
        Holds v rest (dropWhere (fun i => i ∈ positions) v.parts)
    else Fails v outcome
  | none => Fails v outcome

theorem Holds.refl {v : Value} (hv : v.isAtom = false) : Holds v v v.parts := ⟨hv, rfl, rfl⟩

theorem parts_of_fromValue {v : Value} {seq : ValueSeq} (h : ValueSeq.fromValue v = some seq) :
    v.parts = seq.values.map fun x => (none, x) := by
  rw [← containerItems_of_fromValue h]
  cases v <;> first | rfl | cases h

theorem isDict_of_fromValue {v : Value} {seq : ValueSeq} (h : ValueSeq.fromValue v = some seq) :
    v.isDict = false := by
  cases v <;> first | rfl | cases h

theorem isAtom_of_fromValue {v : Value} {seq : ValueSeq} (h : ValueSeq.fromValue v = some seq) :
    v.isAtom = false := by
  cases v <;> first | rfl | cases h

/-- A range made a list holds what it held. -/
theorem holds_materialize {v : Value} (hv : v.isAtom = false) :
    Holds v (materializeIntRange v) v.parts := by
  cases v <;> first | exact Holds.refl hv | exact ⟨rfl, rfl, rfl⟩

theorem yields_fromItems (vs : List Value) : Yields true vs (fromItems vs) := fromItems_values vs

/-- One element or none, alone. -/
theorem yields_popFirst {vs : List Value} (h : vs.length ≤ 1) : Yields false vs (popFirst vs) := by
  match vs, h with
  | [], _ => rfl
  | [x], _ => rfl

end Value

namespace Storage

variable {α : Type} (storage : Storage α)

theorem fromValue_pack (xs : List α) : ∃ seq, ValueSeq.fromValue (storage.pack xs) = some seq ∧
    seq.values = xs.map storage.wrap :=
  Option.map_eq_some_iff.mp (storage.values_pack xs)

theorem parts_of_values {v : Value} {seq : ValueSeq} (hseq : ValueSeq.fromValue v = some seq)
    {xs : List α} (hvalues : seq.values = xs.map storage.wrap) :
    v.parts = xs.map fun x => (none, storage.wrap x) := by
  rw [Value.parts_of_fromValue hseq, hvalues, List.map_map]
  rfl

/-- A packed list holds its items, in the place of another list. -/
theorem holds_pack {v : Value} (hv : v.isDict = false) (xs : List α) :
    Value.Holds v (storage.pack xs) (xs.map fun x => (none, storage.wrap x)) := by
  obtain ⟨seq, hseq, hvalues⟩ := storage.fromValue_pack xs
  exact ⟨Value.isAtom_of_fromValue hseq, (Value.isDict_of_fromValue hseq).trans hv.symm,
    storage.parts_of_values hseq hvalues⟩

end Storage

namespace Value

/-! ### Popping -/

/-- The arms for lists. -/
theorem popItems_pops {α : Type} (storage : Storage α) {several : List α → Value}
    (hseveral : ∀ xs, (ValueSeq.fromValue (several xs)).map ValueSeq.values =
      some (xs.map storage.wrap)) {v : Value} (hv : v.isDict = false) {items : List α}
    (hparts : v.parts = items.map fun x => (none, storage.wrap x)) (n : Nat) :
    Pops v n (popItems storage several items n) := by
  set split := items.length - n with hsplit
  have hcut : v.parts = (items.take split).map (fun x => (none, storage.wrap x)) ++
      (items.drop split).map (fun x => (none, storage.wrap x)) := by
    rw [hparts, ← List.map_append, List.take_append_drop]
  have hlen : (items.drop split).length = min n items.length := by
    rw [List.length_drop]
    omega
  refine ⟨_, _, _, _, rfl, hcut, ?_, storage.holds_pack hv _, ?_⟩
  · rw [hparts, List.length_map, List.length_map, hlen]
  · have htaken : ((items.drop split).map fun x => ((none : Option String), storage.wrap x)).map
        Prod.snd = (items.drop split).map storage.wrap := by
      rw [List.map_map]
      rfl
    rw [htaken]
    by_cases hn : n = 1
    · subst hn
      rw [if_pos rfl]
      refine yields_popFirst ?_
      rw [List.length_map, hlen]
      exact Nat.min_le_left _ _
    · rw [if_neg hn, decide_eq_true hn]
      exact hseveral _

/-- The arm for strings, where the string is not of one character popped by
one. -/
theorem popString_pops {s : String} {n : Nat} (hn : n ≠ 0)
    (hwhole : ¬PopsWholeString (.string s) n) : Pops (.string s) n (popString s n) := by
  have hparts : (Value.string s).parts = s.toList.map fun c => (none, .char c) :=
    Storage.string.parts_of_values rfl rfl
  by_cases hlen : s.toList.length ≤ n
  · -- the string as it is
    refine ⟨.string s, .string "", [], (Value.string s).parts, ?_, rfl, ?_, ⟨rfl, rfl, rfl⟩, ?_⟩
    · unfold popString
      exact if_pos hlen
    · rw [hparts, List.length_map]
      omega
    · have hvalues : (Value.string s).parts.map Prod.snd = s.toList.map .char := by
        rw [hparts, List.map_map]
        rfl
      rw [hvalues]
      cases hs : s.toList with
      | nil =>
        have hempty : (ValueSeq.fromValue (.string s)).map ValueSeq.values = some [] := by
          rw [ValueSeq.fromValue, Option.map_some, ValueSeq.values, hs]
          rfl
        unfold Yields
        cases decide (n ≠ 1) <;> exact hempty
      | cons c cs =>
        have hn1 : n ≠ 1 := by
          rintro rfl
          rw [hs] at hlen
          obtain rfl : cs = [] := List.length_eq_zero_iff.mp (by simpa using hlen)
          exact hwhole ⟨rfl, c, by rw [← hs, String.ofList_toList]⟩
        rw [decide_eq_true hn1, ← hs]
        rfl
  · -- as from the list of its characters
    have hitems : popString s n = popItems .string intoWqString s.toList n := by
      unfold popString popItems
      dsimp only
      rw [if_neg hlen]
      by_cases hn1 : n = 1
      · subst hn1
        have hne : s.toList.drop (s.toList.length - 1) ≠ [] := by
          rw [Ne, List.drop_eq_nil_iff]
          omega
        obtain ⟨c, cs, hcs⟩ := List.exists_cons_of_ne_nil hne
        rw [if_pos rfl, if_pos rfl, hcs]
        rfl
      · rw [if_neg hn1, if_neg hn1]
        rfl
    rw [hitems]
    exact popItems_pops .string Storage.string.values_pack rfl hparts n

/-- The loop takes the last entries off, the last one first. -/
theorem popEntries_append (kept taken : List (String × Value)) :
    popEntries (kept ++ taken) taken.length = some ((taken.map Prod.snd).reverse, kept) := by
  induction taken using List.reverseRecOn with
  | nil => rw [List.append_nil]; rfl
  | append_singleton es e ih =>
    have hlast : IndexMap.shiftRemoveIndex (kept ++ (es ++ [e]))
        ((kept ++ (es ++ [e])).length - 1) = some (e, kept ++ es) := by
      have hlen : (kept ++ (es ++ [e])).length - 1 = (kept ++ es).length := by
        simp only [List.length_append, List.length_cons, List.length_nil]
        omega
      rw [hlen, ← List.append_assoc, IndexMap.shiftRemoveIndex, List.getElem?_concat_length,
        List.eraseIdx_append_of_length_le le_rfl, Nat.sub_self]
      simp
    rw [List.length_append, List.length_singleton, popEntries, hlast]
    show (popEntries (kept ++ es) es.length).bind _ = _
    rw [ih, List.map_append, List.reverse_append]
    rfl

/-- The arm for dictionaries. -/
theorem popDict_pops (entries : List (String × Value)) (n : Nat) :
    Pops (.dict entries) n (popDict entries n) := by
  set split := entries.length - n with hsplit
  have hlen : (entries.drop split).length = min n entries.length := by
    rw [List.length_drop]
    omega
  have hloop : popEntries entries (min n entries.length) =
      some (((entries.drop split).map Prod.snd).reverse, entries.take split) := by
    have h := popEntries_append (entries.take split) (entries.drop split)
    rwa [List.take_append_drop, hlen] at h
  have hpop : popDict entries n =
      some (.ok (if n = 1 then popFirst ((entries.drop split).map Prod.snd)
        else fromItems ((entries.drop split).map Prod.snd)), .dict (entries.take split)) := by
    unfold popDict
    rw [hloop]
    show some _ = some _
    rw [List.reverse_reverse]
  refine ⟨_, _, (entries.take split).map fun e => (some e.1, e.2),
    (entries.drop split).map fun e => (some e.1, e.2), hpop, ?_, ?_, ⟨rfl, rfl, rfl⟩, ?_⟩
  · rw [← List.map_append, List.take_append_drop]
    rfl
  · rw [List.length_map, hlen]
    exact congrArg (min n) (List.length_map _).symm
  · have htaken : ((entries.drop split).map fun e => (some e.1, e.2)).map Prod.snd =
        (entries.drop split).map Prod.snd := by
      rw [List.map_map]
      rfl
    rw [htaken]
    by_cases hn : n = 1
    · subst hn
      rw [if_pos rfl]
      refine yields_popFirst ?_
      rw [List.length_map, hlen]
      exact Nat.min_le_left _ _
    · rw [if_neg hn, decide_eq_true hn]
      exact yields_fromItems _

theorem parts_singleton (c : Char) :
    (Value.string (String.ofList [c])).parts = [(none, .char c)] := by
  rw [Storage.string.parts_of_values rfl rfl, String.toList_ofList]
  rfl

theorem popInPlace_singleton (c : Char) : (Value.string (String.ofList [c])).popInPlace 1 =
    some (.ok (.string (String.ofList [c])), .string "") := by
  show popString _ 1 = _
  unfold popString
  rw [String.toList_ofList]
  rfl

/-- A string of one character that is popped by one is not its character. -/
theorem not_pops_wholeString {v : Value} {n : Nat} (h : PopsWholeString v n) :
    ¬Pops v n (v.popInPlace n) := by
  obtain ⟨rfl, c, rfl⟩ := h
  rintro ⟨r, rest, kept, taken, hr, hcut, hlen, -, hyields⟩
  rw [popInPlace_singleton] at hr
  obtain ⟨hr, -⟩ := Prod.mk.inj (Option.some.inj hr)
  obtain rfl := Except.ok.inj hr
  rw [parts_singleton] at hcut hlen
  have hkept : kept = [] := by
    have := congrArg List.length hcut
    simp only [List.length_append, List.length_singleton] at this hlen
    exact List.length_eq_zero_iff.mp (by omega)
  subst hkept
  rw [List.nil_append] at hcut
  subst hcut
  cases hyields

theorem popInPlace_pos (v : Value) {n : Nat} (hn : ¬n = 0) :
    v.popInPlace n = match materializeIntRange v with
      | .string s => popString s n
      | .intList items => popItems .int .intList items n
      | .boolList items => popItems .bool .boolList items n
      | .floatList items => popItems .float .floatList items n
      | .list items => popItems .list fromItems items n
      | .dict entries => popDict entries n
      | atom => some (.ok atom, emptyList) := if_neg hn

/-- **Popping takes the last elements off**, but for a string of one character
that is popped by one. -/
theorem popInPlace_pops {v : Value} (hv : v.isAtom = false) (n : Nat) :
    Pops v n (v.popInPlace n) ↔ ¬PopsWholeString v n := by
  refine ⟨fun h hwhole => not_pops_wholeString hwhole h, fun hwhole => ?_⟩
  by_cases hn : n = 0
  · subst hn
    refine ⟨emptyList, materializeIntRange v, v.parts, [], rfl, (List.append_nil _).symm,
      (Nat.zero_min _).symm, holds_materialize hv, rfl⟩
  · have hne := popInPlace_pos v hn
    have hlist : ∀ {α : Type} (storage : Storage α) (items : List α) {seq : ValueSeq},
        ValueSeq.fromValue v = some seq → seq.values = items.map storage.wrap →
        Pops v n (popItems storage storage.pack items n) :=
      fun storage items _ hseq hvalues => popItems_pops storage storage.values_pack
        (isDict_of_fromValue hseq) (storage.parts_of_values hseq hvalues) n
    rw [hne]
    cases v with
    | string s => exact popString_pops hn hwhole
    | dict entries => exact popDict_pops entries n
    | list items =>
      have hid : items = items.map Storage.list.wrap := (List.map_id items).symm
      exact popItems_pops .list
        (fun xs => (fromItems_values xs).trans (congrArg some (List.map_id xs).symm)) rfl
        (@Storage.parts_of_values _ .list _ (.list items) rfl _ hid) n
    | intList items => exact hlist .int items rfl rfl
    | intRange range => exact hlist .int range.toVec rfl rfl
    | floatList items => exact hlist .float items rfl rfl
    | boolList items => exact hlist .bool items rfl rfl
    | _ => cases hv

/-! ### Positions of a removal -/

theorem normalizeIdx_lt {i : Int64} {len p : Nat} (h : normalizeIdx i len = some p) : p < len := by
  unfold normalizeIdx at h
  have hneg : ¬0 ≤ i.toInt → 0 < i.toInt.natAbs := fun h => by omega
  split_ifs at h <;> obtain rfl := Option.some.inj h <;> omega

theorem resolveSingleIdx_lt {key : Value} {len p : Nat} (h : resolveSingleIdx key len = some p) :
    p < len := by
  obtain ⟨i, -, hi⟩ := Option.bind_eq_some_iff.mp h
  exact normalizeIdx_lt hi

theorem position_lt {v key : Value} {p : Nat} (h : v.position key = some p) :
    p < v.parts.length := by
  unfold position at h
  split at h
  · exact (List.findIdx?_eq_some_iff_getElem.mp h).1
  · exact resolveSingleIdx_lt h

theorem keyPositions_lt {v idx : Value} {positions : List Nat} {several : Bool}
    (h : v.keyPositions idx = some (positions, several)) : ∀ i ∈ positions, i < v.parts.length := by
  have hmany : ∀ keys : List Value,
      (keys.mapM v.position).map (·, true) = some (positions, several) → ∀ i ∈ positions, i < v.parts.length := by
    intro keys hkeys i hi
    obtain ⟨ps, hps, hpair⟩ := Option.map_eq_some_iff.mp hkeys
    obtain ⟨rfl, -⟩ := Prod.mk.inj hpair
    obtain ⟨key, -, hkey⟩ := mem_of_mapM hps hi
    exact position_lt hkey
  unfold keyPositions at h
  split at h
  · exact hmany _ h
  · exact hmany _ h
  · exact hmany _ h
  · intro i hi
    obtain ⟨p, hp, hpair⟩ := Option.map_eq_some_iff.mp h
    obtain ⟨rfl, -⟩ := Prod.mk.inj hpair
    obtain rfl := List.mem_singleton.mp hi
    exact position_lt hp

/-- One key stands for one position. -/
theorem keyPositions_single {v idx : Value} {positions : List Nat}
    (h : v.keyPositions idx = some (positions, false)) : ∃ i, positions = [i] := by
  unfold keyPositions at h
  split at h
  · cases hm : List.mapM v.position _ <;> rw [hm] at h <;> cases h
  · cases hm : List.mapM v.position _ <;> rw [hm] at h <;> cases h
  · cases hm : List.mapM v.position _ <;> rw [hm] at h <;> cases h
  · obtain ⟨p, -, hpair⟩ := Option.map_eq_some_iff.mp h
    exact ⟨p, (Prod.mk.inj hpair).1.symm⟩

/-- The keys of a list are integers. -/
theorem position_list {v : Value} (hv : v.isDict = false) (key : Value) :
    v.position key = (exactIntAtom key).bind fun i => normalizeRemoveIdx i v.parts.length := by
  unfold position
  split
  · next s =>
    -- no element has a key
    have hnone : (v.parts.findIdx? fun e => e.1 = some s) = none := by
      rw [List.findIdx?_eq_none_iff]
      intro e he
      have hkey : e.1 = none := by
        cases v with
        | dict entries => cases hv
        | _ =>
          obtain ⟨x, -, rfl⟩ := List.mem_map.mp he
          rfl
      rw [hkey]
      rfl
    exact hnone
  · rfl

/-- The positions of a list are the integers that the key is read as. -/
theorem parseRemovePositions_eq {v : Value} (hv : v.isDict = false) (idx : Value) :
    parseRemovePositions idx v.parts.length =
      match v.keyPositions idx with
      | some positions => .ok positions
      | none => .error .domain := by
  have hposition : v.position = fun key =>
      (exactIntAtom key).bind fun i => normalizeRemoveIdx i v.parts.length :=
    funext (position_list hv)
  have hints : ∀ keys : List Int64, (keys.map Value.int).mapM v.position =
      keys.mapM fun i => normalizeRemoveIdx i v.parts.length := fun keys => by
    rw [List.mapM_map, hposition]
    rfl
  have hlist : ∀ keys : List Value, keys.mapM v.position =
      (keys.mapM exactIntAtom).bind fun is =>
        is.mapM fun i => normalizeRemoveIdx i v.parts.length := fun keys => by
    rw [hposition]
    exact (mapM_bind exactIntAtom _ keys).symm
  have hatom : ∀ key : Value, (v.position key).map (([·], false)) =
      ((exactIntAtom key).bind fun i => normalizeRemoveIdx i v.parts.length).map ([·], false) :=
    fun key => congrArg _ (position_list hv key)
  have hone : ∀ i : Int64, [i].mapM (fun i => normalizeRemoveIdx i v.parts.length) =
      (normalizeRemoveIdx i v.parts.length).map ([·]) := fun i => by
    rw [List.mapM_cons, List.mapM_nil]
    cases normalizeRemoveIdx i v.parts.length <;> rfl
  unfold parseRemovePositions parseExactIntPositions
  have other : exactIntSeq idx = none → exactIntAtom idx = none →
      v.keyPositions idx = (v.position idx).map ([·], false) →
      v.keyPositions idx = none := by
    intro hseq hnone hkey
    rw [hkey, hatom, hnone]
    rfl
  cases idx with
  | list keys =>
    rw [keyPositions, hlist, exactIntSeq]
    cases keys.mapM exactIntAtom with
    | none => rfl
    | some is =>
      dsimp only [Option.bind_some]
      cases is.mapM fun i => normalizeRemoveIdx i v.parts.length <;> rfl
  | intList keys =>
    rw [keyPositions, hints, exactIntSeq]
    dsimp only
    cases keys.mapM fun i => normalizeRemoveIdx i v.parts.length <;> rfl
  | intRange keys =>
    rw [keyPositions, hints, exactIntSeq]
    dsimp only
    cases keys.toVec.mapM fun i => normalizeRemoveIdx i v.parts.length <;> rfl
  | int i =>
    have hkey : v.keyPositions (.int i) =
        (normalizeRemoveIdx i v.parts.length).map ([·], false) := hatom (.int i)
    rw [hkey, exactIntSeq]
    dsimp only
    rw [hone]
    cases normalizeRemoveIdx i v.parts.length <;> rfl
  | bigInt n =>
    have hkey : v.keyPositions (.bigInt n) =
        ((i64? n).bind fun i => normalizeRemoveIdx i v.parts.length).map ([·], false) :=
      hatom (.bigInt n)
    rw [hkey, exactIntSeq]
    cases hn : i64? n with
    | none => rfl
    | some i =>
      have hatom : isExactIntAtom (.bigInt n) = true := by
        unfold isExactIntAtom
        rw [exactIntAtom, hn]
        rfl
      rw [hatom, Option.map_some, Option.bind_some]
      dsimp only
      rw [hone]
      cases normalizeRemoveIdx i v.parts.length <;> rfl
  | string _ | float _ | complex _ _ | fraction _ | algebraic _ _ | char _ | tag _ | bool _
  | floatList _ | boolList _ | cas _ | dict _ | compiledFunction _ | closure _ _
  | builtinFunction _ _ | liftedCallable _ | rng _ | stream _ =>
    rw [other rfl rfl rfl]
    rfl

/-! ### Removing -/

/-- The arms for lists. -/
theorem removeItems_removes {α : Type} (storage : Storage α) {v data : Value}
    (hv : v.isDict = false) (hdata : Holds v data v.parts) {items : List α}
    (hparts : v.parts = items.map fun x => (none, storage.wrap x)) (idx : Value) :
    Removes v idx (removeItems storage data items idx) := by
  have hlen : v.parts.length = items.length := by rw [hparts, List.length_map]
  have hparse := parseRemovePositions_eq hv idx
  rw [hlen] at hparse
  unfold Removes removeItems
  rw [hparse]
  cases hkeys : v.keyPositions idx with
  | none => exact ⟨.domain, data, rfl, hdata⟩
  | some found =>
    obtain ⟨positions, several⟩ := found
    have hlt : ∀ i ∈ positions, i < items.length := fun i hi => hlen ▸ keyPositions_lt hkeys i hi
    obtain ⟨removed, hremoved⟩ := gather_isSome hlt
    have htaken : gather v.parts positions =
        some (removed.map fun x => (none, storage.wrap x)) := by
      rw [hparts, gather_map, hremoved]
      rfl
    have hvalues : (removed.map fun x => ((none : Option String), storage.wrap x)).map Prod.snd =
        removed.map storage.wrap := by
      rw [List.map_map]
      rfl
    have hrest : (dropWhere (fun i => i ∈ positions) items).map
        (fun x => ((none : Option String), storage.wrap x)) =
        dropWhere (fun i => i ∈ positions) v.parts := by
      rw [map_dropWhere, hparts]
    have hholds := storage.holds_pack hv (dropWhere (fun i => i ∈ positions) items)
    rw [hrest] at hholds
    dsimp only
    cases several with
    | true =>
      rw [if_pos rfl]
      by_cases hnodup : positions.Nodup
      · have hdup : hasDuplicate positions = false := (hasDuplicate_eq_false positions).mpr hnodup
        rw [hdup, if_neg Bool.false_ne_true, if_pos hnodup, hremoved, removeMany_eq hnodup hlt]
        refine ⟨_, _, _, rfl, htaken, ?_, hholds⟩
        rw [hvalues]
        exact storage.values_pack removed
      · have hdup : hasDuplicate positions = true := by
          rw [← Bool.not_eq_false, hasDuplicate_eq_false]
          exact hnodup
        rw [hdup, if_pos rfl, if_neg hnodup]
        exact ⟨.domain, data, rfl, hdata⟩
    | false =>
      obtain ⟨i, rfl⟩ := keyPositions_single hkeys
      have hi : i < items.length := hlt i (List.mem_singleton.mpr rfl)
      have hone : gather items [i] = some [items[i]] := by
        unfold gather
        rw [List.mapM_cons, List.mapM_nil, List.getElem?_eq_getElem hi]
        rfl
      obtain rfl : [items[i]] = removed := Option.some.inj (hone.symm.trans hremoved)
      rw [if_neg Bool.false_ne_true, if_pos (List.nodup_singleton i)]
      rw [dropWhere_singleton hi] at hholds
      refine ⟨storage.wrap items[i], storage.pack (items.eraseIdx i), _, ?_, htaken, ?_, hholds⟩
      · have hremove : removeAt items i = some (items.eraseIdx i) := if_pos hi
        simp only [List.head?_cons, List.getElem?_eq_getElem hi, hremove, bind, Option.bind_some,
          pure]
      · rw [hvalues]
        rfl

section Dict

variable {entries : List (String × Value)}

/-- The key that a removal's key stands for is that at its position. -/
theorem dictRemoveKey_eq (key : Value) : dictRemoveKey entries key =
    ((Value.dict entries).position key).bind fun i => (entries.map Prod.fst)[i]? := by
  have hlen : (Value.dict entries).parts.length = entries.length := List.length_map _
  have hint : ∀ i : Int64, (do return (← entries[← normalizeRemoveIdx i entries.length]?).1) =
      (normalizeRemoveIdx i entries.length).bind fun i => (entries.map Prod.fst)[i]? := fun i => by
    cases normalizeRemoveIdx i entries.length with
    | none => rfl
    | some p =>
      show (entries[p]?.bind fun e => some e.1) = (entries.map Prod.fst)[p]?
      rw [List.getElem?_map]
      cases entries[p]? <;> rfl
  cases key with
  | tag s =>
    have hfind : (Value.dict entries).position (.tag s) =
        entries.findIdx? fun e => e.1 = s := by
      show (entries.map fun e => (some e.1, e.2)).findIdx? _ = _
      rw [List.findIdx?_map]
      congr 1
      funext e
      simp
    rw [hfind, dictRemoveKey]
    cases hidx : entries.findIdx? fun e => e.1 = s with
    | none =>
      rw [List.findIdx?_eq_none_iff] at hidx
      have hnone : ¬(IndexMap.get? entries s).isSome = true := by
        rw [IndexMap.get?_isSome]
        rintro hmem
        obtain ⟨e, he, rfl⟩ := List.mem_map.mp hmem
        simpa using hidx e he
      rw [if_neg hnone]
      rfl
    | some i =>
      obtain ⟨hi, hkey, -⟩ := List.findIdx?_eq_some_iff_getElem.mp hidx
      have hs : entries[i].1 = s := by simpa using hkey
      have hsome : (IndexMap.get? entries s).isSome = true := by
        rw [IndexMap.get?_isSome, ← hs]
        exact List.mem_map_of_mem (List.getElem_mem hi)
      rw [if_pos hsome, Option.bind_some, List.getElem?_map, List.getElem?_eq_getElem hi,
        Option.map_some, hs]
  | int i =>
    have hpos : (Value.dict entries).position (.int i) = normalizeRemoveIdx i entries.length := by
      rw [← hlen]
      rfl
    rw [hpos]
    exact hint i
  | bigInt n =>
    have hpos : (Value.dict entries).position (.bigInt n) =
        (i64? n).bind fun i => normalizeRemoveIdx i entries.length := by
      rw [← hlen]
      rfl
    rw [hpos, dictRemoveKey]
    cases i64? n with
    | none => rfl
    | some i => exact hint i
  | _ => rfl

theorem elim_domain (found : Option (List String × Bool)) :
    (match found with
      | some keys => .ok keys
      | none => .error .domain : WqResult (List String × Bool)) =
      found.elim (.error .domain) .ok := by
  cases found <;> rfl

/-- The keys of a removal are those at its positions. -/
theorem dictRemoveKeys_eq (idx : Value) : dictRemoveKeys idx entries =
    match (Value.dict entries).keyPositions idx with
    | some (positions, several) =>
      match gather (entries.map Prod.fst) positions with
      | some keys => .ok (keys, several)
      | none => .error .domain
    | none => .error .domain := by
  have hkey : dictRemoveKey entries = fun key =>
      ((Value.dict entries).position key).bind fun i => (entries.map Prod.fst)[i]? :=
    funext dictRemoveKey_eq
  have hmany : ∀ keys : List Value, keys.mapM (dictRemoveKey entries) =
      (keys.mapM (Value.dict entries).position).bind (gather (entries.map Prod.fst)) :=
    fun keys => by
      rw [hkey]
      exact (mapM_bind _ _ keys).symm
  have hints : ∀ keys : List Int64, (keys.mapM fun i => dictRemoveKey entries (.int i)) =
      ((keys.map Value.int).mapM (Value.dict entries).position).bind
        (gather (entries.map Prod.fst)) := fun keys => by
    rw [← hmany, List.mapM_map]
    rfl
  have done : ∀ (found : Option (List Nat)) (several : Bool),
      ((found.bind (gather (entries.map Prod.fst))).map (·, several)).elim
        (.error .domain : WqResult (List String × Bool)) .ok =
      (found.map (·, several)).elim (.error .domain) fun p =>
        (gather (entries.map Prod.fst) p.1).elim (.error .domain) fun keys =>
          .ok (keys, p.2) := fun found several => by
    cases found with
    | none => rfl
    | some positions =>
      cases hkeys : gather (entries.map Prod.fst) positions <;> simp [hkeys]
  have single : ∀ key : Value, (dictRemoveKey entries key).map (([·], false)) =
      ((((Value.dict entries).position key).map ([·])).bind
        (gather (entries.map Prod.fst))).map (·, false) := fun key => by
    rw [dictRemoveKey_eq]
    cases (Value.dict entries).position key with
    | none => rfl
    | some i =>
      unfold gather
      dsimp only [Option.bind_some, Option.map_some]
      rw [List.mapM_cons, List.mapM_nil]
      cases (entries.map Prod.fst)[i]? <;> rfl
  have hsingle : ∀ key : Value, ((Value.dict entries).position key).map (([·], false)) =
      (((Value.dict entries).position key).map ([·])).map (·, false) := fun key => by
    cases (Value.dict entries).position key <;> rfl
  have hplaced : ∀ placed : Option (List Nat × Bool),
      (placed.elim (.error .domain) fun p =>
        (gather (entries.map Prod.fst) p.1).elim (.error .domain) fun keys =>
          .ok (keys, p.2) : WqResult (List String × Bool)) =
      match placed with
      | some (positions, several) =>
        match gather (entries.map Prod.fst) positions with
        | some keys => .ok (keys, several)
        | none => .error .domain
      | none => .error .domain := fun placed => by
    rcases placed with _ | ⟨positions, several⟩
    · rfl
    · cases hkeys : gather (entries.map Prod.fst) positions <;> simp [hkeys]
  rw [← hplaced]
  refine (elim_domain _).trans ?_
  have hone : ∀ key : Value,
      ((dictRemoveKey entries key).map (([·], false))).elim
        (.error .domain : WqResult (List String × Bool)) .ok =
      (((Value.dict entries).position key).map (([·], false))).elim (.error .domain)
        fun p =>
          (gather (entries.map Prod.fst) p.1).elim (.error .domain) fun keys =>
            .ok (keys, p.2) := fun key => by
    rw [single key, done, hsingle key]
  cases idx with
  | list keys =>
    exact (congrArg (fun found : Option (List String) =>
      (found.map (·, true)).elim (Except.error WqErrorType.domain) Except.ok) (hmany keys)).trans (done _ true)
  | intList keys =>
    exact (congrArg (fun found : Option (List String) =>
      (found.map (·, true)).elim (Except.error WqErrorType.domain) Except.ok) (hints keys)).trans (done _ true)
  | intRange keys =>
    exact (congrArg (fun found : Option (List String) =>
      (found.map (·, true)).elim (Except.error WqErrorType.domain) Except.ok) (hints keys.toVec)).trans (done _ true)
  | tag s => exact hone (.tag s)
  | int i => exact hone (.int i)
  | bigInt n => exact hone (.bigInt n)
  | _ => rfl

/-- The loop takes the entries of its keys, one after the other. -/
theorem removeKeys_eq : ∀ {keys : List String} {entries : List (String × Value)}
    {values : List Value}, (entries.map Prod.fst).Nodup → keys.Nodup →
    keys.mapM (IndexMap.get? entries) = some values →
    removeKeys entries keys = (.ok values, entries.filter fun e => e.1 ∉ keys)
  | [], entries, values, _, _, hvalues => by
    obtain rfl : [] = values := Option.some.inj hvalues
    simp [removeKeys]
  | key :: keys, entries, values, hnodup, hkeys, hvalues => by
    obtain ⟨hkey, hkeys⟩ := List.nodup_cons.mp hkeys
    simp only [List.mapM_cons, bind, Option.bind_eq_some_iff, pure, Option.some.injEq] at hvalues
    obtain ⟨x, hx, xs, hxs, rfl⟩ := hvalues
    set rest := entries.filter fun e => e.1 ≠ key with hrest
    have hrestnodup : (rest.map Prod.fst).Nodup :=
      hnodup.sublist (List.filter_sublist.map Prod.fst)
    have hrestvalues : keys.mapM (IndexMap.get? rest) = some xs := by
      have hread := (List.forall₂_and_left keys xs).mpr ⟨fun _ h => h, mapM_some hxs⟩
      refine mapM_some_iff.mpr (hread.imp ?_)
      rintro k y ⟨hk, hy⟩
      rw [hrest, IndexMap.get?_filter_ne _ (ne_of_mem_of_not_mem hk hkey)]
      exact hy
    have ih := removeKeys_eq hrestnodup hkeys hrestvalues
    rw [removeKeys, IndexMap.shiftRemove_eq hnodup, hx]
    dsimp only [Option.map_some]
    rw [ih, hrest, List.filter_filter]
    dsimp only
    congr 2
    funext e
    simp [not_or, Bool.and_comm]

/-- The arm for dictionaries. -/
theorem removeDict_removes (hnodup : (entries.map Prod.fst).Nodup) (idx : Value) :
    Removes (.dict entries) idx (removeDict entries idx) := by
  have hunchanged : Fails (.dict entries) (some (.error .domain, .dict entries)) :=
    ⟨.domain, .dict entries, rfl, Holds.refl rfl⟩
  have hkeysOf := @dictRemoveKeys_eq entries idx
  unfold Removes removeDict
  rw [hkeysOf]
  cases hkeys : (Value.dict entries).keyPositions idx with
  | none => exact hunchanged
  | some found =>
    obtain ⟨positions, several⟩ := found
    have hlt : ∀ i ∈ positions, i < entries.length := fun i hi => by
      have := keyPositions_lt hkeys i hi
      rwa [show (Value.dict entries).parts.length = entries.length from List.length_map _] at this
    obtain ⟨removed, hremoved⟩ := gather_isSome hlt
    have hnames : gather (entries.map Prod.fst) positions = some (removed.map Prod.fst) := by
      rw [gather_map, hremoved]
      rfl
    have hsame : (removed.map Prod.fst).Nodup ↔ positions.Nodup := nodup_gather hnodup hnames
    have htaken : gather (Value.dict entries).parts positions =
        some (removed.map fun e => (some e.1, e.2)) := by
      show gather (entries.map _) positions = _
      rw [gather_map, hremoved]
      rfl
    have hvalues : (removed.map fun e => (some e.1, e.2)).map Prod.snd =
        removed.map Prod.snd := by
      rw [List.map_map]
      rfl
    dsimp only
    rw [hnames]
    dsimp only
    by_cases hpos : positions.Nodup
    · have hdup : hasDuplicate (removed.map Prod.fst) = false :=
        (hasDuplicate_eq_false _).mpr (hsame.mpr hpos)
      have hread : (removed.map Prod.fst).mapM (IndexMap.get? entries) =
          some (removed.map Prod.snd) := by
        rw [mapM_some_iff, List.forall₂_map_left_iff, List.forall₂_map_right_iff,
          List.forall₂_same]
        intro e he
        obtain ⟨i, -, hi⟩ := (mem_gather hremoved e).mp he
        exact IndexMap.get?_of_mem hnodup (List.mem_of_getElem? hi)
      have hloop := removeKeys_eq hnodup (hsame.mpr hpos) hread
      have hrest : (entries.filter fun e => e.1 ∉ removed.map Prod.fst).map
          (fun e => (some e.1, e.2)) =
          dropWhere (fun i => i ∈ positions) (Value.dict entries).parts := by
        show _ = dropWhere _ (entries.map fun e => (some e.1, e.2))
        rw [← map_dropWhere]
        refine congrArg (List.map _) (dropWhere_eq_filter _ _ entries fun i e hi => ?_).symm
        have hname : (entries.map Prod.fst)[i]? = some e.1 := by
          rw [List.getElem?_map, hi]
          rfl
        rw [Bool.eq_iff_iff, decide_eq_true_eq, Bool.not_eq_true', decide_eq_false_iff_not,
          not_not, mem_gather hnames]
        constructor
        · exact fun hmem => ⟨i, hmem, hname⟩
        · rintro ⟨j, hj, hje⟩
          have hlen : i < (entries.map Prod.fst).length := (List.getElem?_eq_some_iff.mp hname).1
          obtain rfl : i = j := (List.getElem?_inj hlen hnodup).mp (hname.trans hje.symm)
          exact hj
      rw [hdup, if_neg Bool.false_ne_true, if_pos hpos, hloop]
      refine ⟨_, _, _, rfl, htaken, ?_, ⟨rfl, rfl, hrest⟩⟩
      rw [hvalues]
      cases several with
      | true => exact yields_fromItems _
      | false =>
        obtain ⟨i, rfl⟩ := keyPositions_single hkeys
        refine yields_popFirst ?_
        rw [List.length_map, length_of_mapM hremoved]
        exact le_rfl
    · have hdup : hasDuplicate (removed.map Prod.fst) = true := by
        rw [← Bool.not_eq_false, hasDuplicate_eq_false]
        exact fun h => hpos (hsame.mp h)
      rw [hdup, if_pos rfl, if_neg hpos]
      exact hunchanged

end Dict

/-- **Removing takes out the elements at its positions**, or fails and leaves
the container. -/
theorem removeInPlace_removes {v : Value} (hv : v.isAtom = false) (hkeys : UniqueKeys v)
    (idx : Value) : Removes v idx (v.removeInPlace idx) := by
  have hdata := holds_materialize hv
  cases v with
  | dict entries => exact removeDict_removes (hkeys entries rfl) idx
  | string s =>
    exact removeItems_removes .string rfl hdata (Storage.string.parts_of_values rfl rfl) idx
  | list items =>
    have hid : items = items.map Storage.list.wrap := (List.map_id items).symm
    exact removeItems_removes .list rfl hdata
      (@Storage.parts_of_values _ .list _ (.list items) rfl _ hid) idx
  | intList items =>
    exact removeItems_removes .int rfl hdata (Storage.int.parts_of_values rfl rfl) idx
  | intRange range =>
    exact removeItems_removes .int rfl hdata (Storage.int.parts_of_values rfl rfl) idx
  | floatList items =>
    exact removeItems_removes .float rfl hdata (Storage.float.parts_of_values rfl rfl) idx
  | boolList items =>
    exact removeItems_removes .bool rfl hdata (Storage.bool.parts_of_values rfl rfl) idx
  | _ => cases hv

/-! ### Representations of the same elements -/

theorem map_norm_parts {v : Value} (hv : v.isAtom = false) :
    v.norm.parts = v.parts.map fun e => (e.1, e.2.norm) := by
  cases hd : v.isDict with
  | true =>
    obtain ⟨entries, rfl⟩ := exists_dict hd
    rw [norm_dict]
    show (entries.map _).map _ = (entries.map _).map _
    rw [List.map_map, List.map_map]
    rfl
  | false =>
    obtain ⟨seq, hseq⟩ := exists_fromValue hv hd
    have hnorm : ValueSeq.fromValue (.list (seq.values.map Value.norm)) =
        some (.list (seq.values.map Value.norm)) := rfl
    rw [norm_of_fromValue hseq, parts_of_fromValue hseq, parts_of_fromValue hnorm, List.map_map]
    show (seq.values.map Value.norm).map _ = _
    rw [List.map_map]
    rfl

/-- A container is its elements, up to the representation. -/
theorem norm_eq_of_parts {v w : Value} (hv : v.isAtom = false) (hw : w.isAtom = false)
    (hd : v.isDict = w.isDict) (h : v.norm.parts = w.norm.parts) : v.norm = w.norm := by
  cases hvd : v.isDict with
  | true =>
    obtain ⟨es, rfl⟩ := exists_dict hvd
    obtain ⟨es', rfl⟩ := exists_dict (hd.symm.trans hvd)
    rw [norm_dict, norm_dict] at h ⊢
    have hinj : Function.Injective fun e : String × Value => (some e.1, e.2) := by
      rintro ⟨k, x⟩ ⟨k', x'⟩ he
      obtain ⟨hk, hx⟩ := Prod.mk.inj he
      exact Prod.ext (Option.some.inj hk) hx
    exact congrArg Value.dict (List.map_injective_iff.mpr hinj h)
  | false =>
    obtain ⟨seq, hseq⟩ := exists_fromValue hv hvd
    obtain ⟨seq', hseq'⟩ := exists_fromValue hw (hd.symm.trans hvd)
    have hvalues := congrArg (List.map Prod.snd) h
    rw [map_norm_parts hv, map_norm_parts hw, parts_of_fromValue hseq, parts_of_fromValue hseq',
      List.map_map, List.map_map, List.map_map, List.map_map] at hvalues
    rw [norm_of_fromValue hseq, norm_of_fromValue hseq']
    exact congrArg Value.list hvalues

/-- What taking out elements returns depends on them alone. -/
theorem Yields.norm_eq {several : Bool} {vs vs' : List Value} {r r' : Value}
    (h : Yields several vs r) (h' : Yields several vs' r')
    (hvs : vs.map Value.norm = vs'.map Value.norm) : r.norm = r'.norm := by
  have hlist : ∀ {ws : List Value} {q : Value},
      (ValueSeq.fromValue q).map ValueSeq.values = some ws → q.norm = .list (ws.map Value.norm) :=
    fun hq => by
      obtain ⟨seq, hseq, rfl⟩ := Option.map_eq_some_iff.mp hq
      exact norm_of_fromValue hseq
  have hlen := congrArg List.length hvs
  rw [List.length_map, List.length_map] at hlen
  match several, vs, vs', hlen with
  | false, [x], [x'], _ =>
    obtain rfl : r = x := h
    obtain rfl : r' = x' := h'
    exact (List.cons.inj hvs).1
  | true, vs, vs', _ => rw [hlist h, hlist h', hvs]
  | false, [], [], _ => rw [hlist h, hlist h']
  | false, x :: y :: vs, x' :: y' :: vs', _ => rw [hlist h, hlist h', hvs]

/-- What is popped off two representations is the same. -/
theorem pops_same {v w : Value} (hv : v.isAtom = false) (hnorm : v.norm = w.norm) {n : Nat}
    (hpops : Pops v n (v.popInPlace n)) (hpops' : Pops w n (w.popInPlace n)) : SamePops v w n := by
  have hw : w.isAtom = false := by rw [← isAtom_norm, ← hnorm, isAtom_norm, hv]
  have hd : v.isDict = w.isDict := by rw [← isDict_norm, hnorm, isDict_norm]
  have hparts : v.parts.map (fun e => (e.1, e.2.norm)) = w.parts.map fun e => (e.1, e.2.norm) := by
    rw [← map_norm_parts hv, hnorm, map_norm_parts hw]
  obtain ⟨r, rest, kept, taken, hr, hcut, hlen, hrest, hy⟩ := hpops
  obtain ⟨r', rest', kept', taken', hr', hcut', hlen', hrest', hy'⟩ := hpops'
  have hsame : v.parts.length = w.parts.length := by simpa using congrArg List.length hparts
  have htakenlen : taken.length = taken'.length := by rw [hlen, hlen', hsame]
  rw [hcut, hcut', List.map_append, List.map_append] at hparts
  obtain ⟨hkept, htaken⟩ := List.append_inj' hparts (by simpa using htakenlen)
  refine ⟨r, rest, r', rest', hr, hr', hy.norm_eq hy' ?_, ?_⟩
  · have h := congrArg (List.map Prod.snd) htaken
    rw [List.map_map, List.map_map] at h
    rw [List.map_map, List.map_map]
    exact h
  · refine norm_eq_of_parts hrest.container hrest'.container ?_ ?_
    · rw [hrest.isDict, hrest'.isDict, hd]
    · rw [map_norm_parts hrest.container, map_norm_parts hrest'.container, hrest.parts,
        hrest'.parts, hkept]

/-- One character is popped off any other representation. -/
theorem isAtom_popped_char {w : Value} {c : Char} (hw : w.isAtom = false)
    (hnorm : (Value.string (String.ofList [c])).norm = w.norm)
    (hpops : Pops w 1 (w.popInPlace 1)) :
    ∃ r rest, w.popInPlace 1 = some (.ok r, rest) ∧ r.isAtom = true := by
  have hparts : w.parts.map (fun e => (e.1, e.2.norm)) = [(none, .char c)] := by
    rw [← map_norm_parts hw, ← hnorm, map_norm_parts rfl, parts_singleton]
    rfl
  obtain ⟨r, rest, kept, taken, hr, hcut, hlen, -, hyields⟩ := hpops
  have hone : w.parts.length = 1 := by simpa using congrArg List.length hparts
  have hkept : kept = [] := by
    rw [hcut, List.length_append] at hone
    rw [hcut, List.length_append] at hlen
    exact List.length_eq_zero_iff.mp (by omega)
  rw [hkept, List.nil_append] at hcut
  obtain ⟨⟨k, x⟩, hx⟩ := List.length_eq_one_iff.mp hone
  rw [hx] at hparts hcut
  subst hcut
  have hnormx : x.norm = .char c := congrArg Prod.snd (List.cons.inj hparts).1
  obtain rfl : r = x := hyields
  refine ⟨r, rest, hr, ?_⟩
  rw [← isAtom_norm, hnormx]
  rfl

/-- **Two representations are popped alike** if both or none are such a
string. -/
theorem samePops_iff {v w : Value} (hv : v.isAtom = false) (hnorm : v.norm = w.norm) (n : Nat) :
    SamePops v w n ↔ (PopsWholeString v n ↔ PopsWholeString w n) := by
  have hw : w.isAtom = false := by rw [← isAtom_norm, ← hnorm, isAtom_norm, hv]
  -- one whole string against another representation
  have hdiffer : ∀ {v w : Value} {r r' rest rest' : Value}, w.isAtom = false → v.norm = w.norm →
      PopsWholeString v n → ¬PopsWholeString w n → v.popInPlace n = some (.ok r, rest) →
      w.popInPlace n = some (.ok r', rest') → r.norm ≠ r'.norm := by
    intro v w r r' rest rest' hw hnorm hwhole hother hr hr' hsame
    have hpops := (popInPlace_pops hw n).mpr hother
    obtain ⟨rfl, c, rfl⟩ := hwhole
    obtain ⟨q, qrest, hq, hatom⟩ := isAtom_popped_char hw hnorm hpops
    rw [popInPlace_singleton] at hr
    obtain ⟨hr, -⟩ := Prod.mk.inj (Option.some.inj hr)
    obtain rfl := Except.ok.inj hr
    rw [hq] at hr'
    obtain ⟨hqr, -⟩ := Prod.mk.inj (Option.some.inj hr')
    obtain rfl := Except.ok.inj hqr
    rw [← isAtom_norm, ← hsame] at hatom
    cases hatom
  constructor
  · rintro ⟨r, rest, r', rest', hr, hr', hsame, -⟩
    constructor
    · intro h
      by_contra h'
      exact hdiffer hw hnorm h h' hr hr' hsame
    · intro h'
      by_contra h
      exact hdiffer hv hnorm.symm h' h hr' hr hsame.symm
  · intro hboth
    by_cases h : PopsWholeString v n
    · -- the same string
      obtain ⟨rfl, c, rfl⟩ := h
      obtain ⟨-, c', rfl⟩ := hboth.mp ⟨rfl, c, rfl⟩
      have hc : c = c' := by
        have hparts := congrArg Value.parts hnorm
        rw [map_norm_parts hv, map_norm_parts hw, parts_singleton, parts_singleton] at hparts
        simpa [norm] using hparts
      subst hc
      exact ⟨_, _, _, _, popInPlace_singleton c, popInPlace_singleton c, rfl, rfl⟩
    · exact pops_same hv hnorm ((popInPlace_pops hv n).mpr h)
        ((popInPlace_pops hw n).mpr fun h' => h (hboth.mpr h'))

/-- **Popping and removing partition the container.** Popping takes off the last
elements and returns them, but for a string of one character that is popped by
one; two representations of the same elements are popped alike if both or none
are such a string; and removing returns the elements at the positions of its
keys, in the order of the keys, or fails and leaves the container as it was. -/
theorem pop_remove_partition (v w idx : Value) (n : Nat) (hv : v.isAtom = false) :
    (Pops v n (v.popInPlace n) ↔ ¬PopsWholeString v n) ∧
    (v.norm = w.norm → (SamePops v w n ↔ (PopsWholeString v n ↔ PopsWholeString w n))) ∧
    (UniqueKeys v → Removes v idx (v.removeInPlace idx)) :=
  ⟨popInPlace_pops hv n, fun hnorm => samePops_iff hv hnorm n,
    fun hkeys => removeInPlace_removes hv hkeys idx⟩

/-- A string of two characters, its general list, and two keys of a
dictionary. -/
theorem pop_remove_partition_small :
    Pops (.string "ab") 1 ((Value.string "ab").popInPlace 1) ∧
    SamePops (.string "ab") (.list [.char 'a', .char 'b']) 1 ∧
    Removes (.dict [("a", .int 1), ("b", .int 2)]) (.list [.tag "b", .int 0])
      ((Value.dict [("a", .int 1), ("b", .int 2)]).removeInPlace (.list [.tag "b", .int 0])) := by
  have hab : ¬PopsWholeString (.string "ab") 1 := by
    rintro ⟨-, c, hc⟩
    have := congrArg String.toList (Value.string.inj hc)
    simp at this
  have hlist : ¬PopsWholeString (.list [.char 'a', .char 'b']) 1 := by
    rintro ⟨-, c, hc⟩
    cases hc
  refine ⟨(pop_remove_partition _ (.int 0) (.int 0) 1 rfl).1.mpr hab, ?_, ?_⟩
  · refine ((pop_remove_partition _ _ (.int 0) 1 rfl).2.1 ?_).mpr (iff_of_false hab hlist)
    rw [norm_list]
    rfl
  · refine (pop_remove_partition _ (.int 0) _ 0 rfl).2.2 fun entries h => ?_
    obtain rfl := Value.dict.inj h
    decide

/-- The last character of a string that is popped to its end comes out as a
string, that of the list of its characters as a character. -/
theorem popInPlace_last_char :
    ¬Pops (.string "a") 1 ((Value.string "a").popInPlace 1) ∧
      ¬SamePops (.string "a") (.list [.char 'a']) 1 := by
  have ha : PopsWholeString (.string "a") 1 := ⟨rfl, 'a', rfl⟩
  refine ⟨not_pops_wholeString ha, fun h => ?_⟩
  have hiff := (samePops_iff (w := .list [.char 'a']) rfl (by rw [norm_list]; rfl) 1).mp h
  obtain ⟨-, c, hc⟩ := hiff.mp ha
  cases hc

end Value

end Wqpl
