/-
# Transposition

With an axis list, the result is built level by level from the elements of the
input at the indices that the axes give; without one, the last two axes are
exchanged in each batch. Both read the input with `index_path`, which looks into
general lists and packed numbers only: a matrix with a row of booleans, a string
or a dictionary is not transposed (`transpose_meets_iff`).

Key definitions: `indexPath`, `transpose`, `MovesElements`, `pathReadable`.
-/
import Mathlib.Data.List.GetD
import Mathlib.Order.Bounds.Basic
import Mathlib.Tactic.IntervalCases
import Wqpl.Access.Assign
import Wqpl.Compare
import Wqpl.Shape

namespace Wqpl

open Value

/-! ### The operation -/

/-- `index_path`. -/
def indexPath : Value → List Nat → Option Value
  | v, [] => some v
  | .list items, i :: idx => (items[i]?).bind (indexPath · idx)
  | .intList items, [i] => (items[i]?).map .int
  | .intRange range, [i] => (range.get i).map .int
  | .floatList items, [i] => (items[i]?).map .float
  | _, _ => none

/-- The number of axes of the result. -/
def resultRank (axes : List Nat) : Nat := axes.max?.elim 0 (· + 1)

/-- `validate_axes_cover_result`. -/
def validateAxesCoverResult (axes : List Nat) : WqResult Unit :=
  let seen := axes.foldl (fun seen axis => seen.set axis true)
    (List.replicate (resultRank axes) false)
  if seen.all id then .ok () else .error .domain

/-- `parse_axes`. -/
def parseAxes (v : Value) (rank : Nat) : WqResult (List Nat) :=
  match exactIntSeq v with
  | none => .error .domain
  | some rawAxes =>
    if rawAxes.length ≠ rank then .error .length
    else do
      let axes ← rawAxes.mapM fun rawAxis =>
        if rawAxis.toInt < 0 then (.error .domain : WqResult Nat)
        else if rank ≤ rawAxis.toInt.toNat then .error .domain
        else .ok rawAxis.toInt.toNat
      validateAxesCoverResult axes
      return axes

/-- The least of the dimension so far, if any, and another. -/
def minDim (dim : Nat) : Option Nat → Option Nat
  | some d => some (min d dim)
  | none => some dim

/-- `shape_after_axes`; validated axes give every dimension a value. -/
def shapeAfterAxes (shape axes : List Nat) : List Nat :=
  let outShape := (axes.zip shape).foldl (fun out p => out.modify p.1 (minDim p.2))
    (List.replicate (resultRank axes) none)
  outShape.map (·.getD 0)

/-- The index of the input for an index of the result, as long as the result has
axes. -/
def sourceIndex (axes outIdx : List Nat) : List Nat := axes.map fun axis => outIdx.getD axis 0

/-- Reading the input, or the error of `transpose`. -/
def readPath (v : Value) (idx : List Nat) : WqResult Value :=
  match indexPath v idx with
  | some x => .ok x
  | none => .error .domain

/-- `build_transposed_axes`. -/
def buildTransposedAxes (v : Value) (axes : List Nat) : List Nat → List Nat → WqResult Value :=
  buildAxes fun outIdx => readPath v (sourceIndex axes outIdx)

/-- `transpose_axes`. -/
def transposeAxes (v : Value) (shape axes : List Nat) : WqResult Value :=
  if 0 ∈ shape then .ok v
  else buildTransposedAxes v axes (shapeAfterAxes shape axes) []

/-- `transpose_2d`. -/
def transpose2d (v : Value) (m n : Nat) : WqResult Value := do
  let cols ← (List.range n).mapM fun j => do
    let col ← (List.range m).mapM fun i => readPath v [i, j]
    return fromItems col
  return .list cols

/-- `transpose_batched`, of a value of at least two axes. -/
def transposeBatched : List Nat → Value → WqResult Value
  | [m, n], v => transpose2d v m n
  | batchSize :: shape, v => do
    let items ← (List.range batchSize).mapM fun i => do
      let elem ← readPath v [i]
      transposeBatched shape elem
    return .list items
  | [], _ => .error .domain -- not reached

/-- The last part of `transpose`: the shape and the axes are known. -/
def transposeShaped (v : Value) (shape : List Nat) (axes : Option (List Nat)) : WqResult Value :=
  let rank := shape.length
  if rank ≤ 1 then .ok v
  else
    match axes with
    | some axes => transposeAxes v shape axes
    | none =>
      let m := shape.getD (rank - 2) 0
      let n := shape.getD (rank - 1) 0
      if m = 0 ∨ n = 0 then .ok v
      else if rank = 2 then transpose2d v m n
      else transposeBatched shape v

/-- `transpose`, of one value and maybe an axis list. -/
def transposeWith (v : Value) (axesArg : Option Value) : WqResult Value :=
  match v.shapeUniform with
  | none => .error .domain
  | some shape => do
    let axes ← axesArg.mapM fun axes => parseAxes axes shape.length
    transposeShaped v shape axes

/-- `transpose`. -/
def transpose : List Value → WqResult Value
  | [v] => transposeWith v none
  | [v, axes] => transposeWith v (some axes)
  | _ => .error .arity

/-! ### What is read -/

/-- The lists that `index_path` looks into. -/
def isIndexable : Value → Bool
  | .list _ | .intList _ | .intRange _ | .floatList _ => true
  | _ => false

/-- Down to the index, there are only such lists. -/
def pathReadable : Value → List Nat → Bool
  | _, [] => true
  | v, i :: idx =>
    isIndexable v && (match v.containerItems[i]? with
      | some x => pathReadable x idx
      | none => true)

@[simp] theorem indexPath_nil (v : Value) : indexPath v [] = some v := by cases v <;> rfl

theorem indexPath_atom {v : Value} (h : v.isAtom = true) (i : Nat) (idx : List Nat) :
    indexPath v (i :: idx) = none := by
  cases v <;> first | rfl | cases h

theorem elementAt_atom {v : Value} (h : v.isAtom = true) (i : Nat) (idx : List Nat) :
    elementAt v (i :: idx) = none := by
  cases v <;> first | rfl | cases h

/-- A packed list is read one level deep. -/
theorem indexPath_packed {v : Value} {seq : ValueSeq} (hseq : ValueSeq.fromValue v = some seq)
    (hindexable : isIndexable v = true) (hlist : ∀ items, v ≠ .list items) (i : Nat)
    (idx : List Nat) : indexPath v (i :: idx) = (seq.values[i]?).bind (indexPath · idx) := by
  have hone : indexPath v [i] = seq.values[i]? := by
    rw [← ValueSeq.get_eq]
    cases v with
    | list items => exact absurd rfl (hlist items)
    | intList _ | intRange _ | floatList _ =>
      obtain rfl := Option.some.inj hseq
      rfl
    | _ => cases hindexable
  cases idx with
  | nil =>
    rw [hone]
    simp
  | cons j idx =>
    have hnone : (seq.values[i]?).bind (indexPath · (j :: idx)) = none := by
      cases hx : seq.values[i]? with
      | none => rfl
      | some x =>
        exact indexPath_atom (isAtom_of_mem_values hseq (List.mem_of_getElem? hx) hlist) j idx
    rw [hnone]
    cases v with
    | list items => exact absurd rfl (hlist items)
    | intList _ | intRange _ | floatList _ => rfl
    | _ => cases hindexable

theorem indexPath_cons_of_isIndexable {v : Value} (h : isIndexable v = true) (i : Nat)
    (idx : List Nat) : indexPath v (i :: idx) = (v.containerItems[i]?).bind (indexPath · idx) := by
  cases v with
  | list items => rfl
  | intList items | intRange range | floatList items =>
    rw [indexPath_packed rfl h (fun _ h => by cases h)]
    rfl
  | _ => cases h

theorem indexPath_of_not_isIndexable {v : Value} (h : isIndexable v = false) (i : Nat)
    (idx : List Nat) : indexPath v (i :: idx) = none := by
  cases v <;> first | rfl | cases h

/-- **What is read is the element** where the path is readable, and nothing elsewhere. -/
theorem indexPath_eq : ∀ (v : Value) (idx : List Nat),
    indexPath v idx = if pathReadable v idx then elementAt v idx else none
  | v, [] => by rw [indexPath_nil]; rfl
  | v, i :: idx => by
    cases hv : isIndexable v with
    | false =>
      rw [indexPath_of_not_isIndexable hv, pathReadable, hv, Bool.false_and,
        if_neg Bool.false_ne_true]
    | true =>
      rw [indexPath_cons_of_isIndexable hv, pathReadable, elementAt, hv, Bool.true_and]
      cases hx : v.containerItems[i]? with
      | none => rfl
      | some x => exact indexPath_eq x idx

/-- Reading goes level by level. -/
theorem indexPath_cons (v : Value) (i : Nat) (idx : List Nat) :
    indexPath v (i :: idx) = (indexPath v [i]).bind (indexPath · idx) := by
  cases hv : isIndexable v with
  | false => rw [indexPath_of_not_isIndexable hv, indexPath_of_not_isIndexable hv]; rfl
  | true =>
    rw [indexPath_cons_of_isIndexable hv, indexPath_cons_of_isIndexable hv]
    cases v.containerItems[i]? with
    | none => rfl
    | some x => simp

/-! ### Axis lists -/

/-- An axis list that `parse_axes` accepts for a rank. -/
structure IsAxisList (rank : Nat) (axes : List Nat) : Prop where
  length : axes.length = rank
  lt : ∀ axis ∈ axes, axis < rank
  covers : ∀ axis < resultRank axes, axis ∈ axes

theorem lt_resultRank {axes : List Nat} {axis : Nat} (h : axis ∈ axes) :
    axis < resultRank axes := by
  unfold resultRank
  cases hmax : axes.max? with
  | none =>
    rw [List.max?_eq_none_iff] at hmax
    rw [hmax] at h
    cases h
  | some a => exact Nat.lt_succ_of_le ((List.max?_eq_some_iff.mp hmax).2 axis h)

theorem IsAxisList.lt_resultRank_iff {rank : Nat} {axes : List Nat} (h : IsAxisList rank axes)
    {axis : Nat} : axis < resultRank axes ↔ axis ∈ axes := ⟨h.covers axis, lt_resultRank⟩

theorem getElem?_foldl_set (axes : List Nat) : ∀ (seen : List Bool) (k : Nat), k < seen.length →
    (axes.foldl (fun seen axis => seen.set axis true) seen)[k]? =
      some (seen.getD k false || decide (k ∈ axes)) := by
  induction axes with
  | nil =>
    intro seen k hk
    simp [hk]
  | cons axis axes ih =>
    intro seen k hk
    rw [List.foldl_cons, ih _ _ (by simpa using hk)]
    by_cases hka : axis = k
    · subst hka
      simp [hk]
    · simp [hk, Ne.symm hka, List.getElem_set_ne hka]

theorem validateAxesCoverResult_ok {axes : List Nat} (h : validateAxesCoverResult axes = .ok ()) :
    ∀ axis < resultRank axes, axis ∈ axes := by
  intro axis haxis
  unfold validateAxesCoverResult at h
  dsimp only at h
  split at h
  · next hall =>
    have hget := getElem?_foldl_set axes (List.replicate (resultRank axes) false) axis
      (by simpa using haxis)
    have htrue := List.all_eq_true.mp hall _ (List.mem_of_getElem? hget)
    simpa [haxis] using htrue
  · cases h

theorem parseAxes_ok {v : Value} {rank : Nat} {axes : List Nat}
    (h : parseAxes v rank = .ok axes) : IsAxisList rank axes := by
  unfold parseAxes at h
  cases hseq : exactIntSeq v with
  | none => rw [hseq] at h; cases h
  | some rawAxes =>
    rw [hseq] at h
    dsimp only at h
    split at h
    · cases h
    · next hlen =>
      obtain ⟨parsed, hparsed, h⟩ := ok_of_bind h
      obtain ⟨_, hvalid, h⟩ := ok_of_bind h
      obtain rfl := Except.ok.inj h
      have hforall := mapM_ok_iff.mp hparsed
      refine ⟨?_, fun axis haxis => ?_, validateAxesCoverResult_ok hvalid⟩
      · rw [← hforall.length_eq]
        simpa using hlen
      · obtain ⟨i, hi, rfl⟩ := List.getElem_of_mem haxis
        have hi' : i < rawAxes.length := by rw [hforall.length_eq]; exact hi
        have hget := (List.forall₂_iff_get.mp hforall).2 i hi' hi
        split at hget
        · cases hget
        · split at hget
          · cases hget
          · have heq := Except.ok.inj hget
            simp only [List.get_eq_getElem] at *
            omega

/-! ### The shape of the result -/

/-- Dimension `k` of the result is the least dimension of the input that the axis
list sends there. -/
def IsResultShape (s axes t : List Nat) : Prop :=
  (∀ k, k < t.length ↔ k ∈ axes) ∧ ∀ k d, t[k]? = some d →
    IsLeast {n | ∃ i : Nat, axes[i]? = some k ∧ s[i]? = some n} d

theorem getElem?_foldl_modify (pairs : List (Nat × Nat)) : ∀ (out : List (Option Nat)) (k : Nat),
    (pairs.foldl (fun out p => out.modify p.1 (minDim p.2)) out)[k]? =
      (out[k]?).map fun dim =>
        (pairs.filter fun p => p.1 = k).foldl (fun dim p => minDim p.2 dim) dim := by
  induction pairs with
  | nil => intro out k; simp
  | cons p pairs ih =>
    intro out k
    rw [List.foldl_cons, ih, List.getElem?_modify]
    by_cases hk : p.1 = k
    · rw [List.filter_cons_of_pos (by simpa using hk)]
      cases out[k]? <;> simp [hk]
    · rw [List.filter_cons_of_neg (by simpa using hk)]
      cases out[k]? <;> simp [hk]

theorem foldl_minDim_some (dims : List Nat) : ∀ d : Nat,
    dims.foldl (fun dim n => minDim n dim) (some d) = some (dims.foldl min d) := by
  induction dims with
  | nil => exact fun _ => rfl
  | cons n dims ih => exact fun d => ih (min d n)

theorem foldl_minDim (dims : List Nat) :
    dims.foldl (fun dim n => minDim n dim) none = dims.min? := by
  cases dims with
  | nil => rfl
  | cons n dims =>
    rw [List.foldl_cons, minDim, foldl_minDim_some, List.min?_cons']

theorem length_shapeAfterAxes (s axes : List Nat) :
    (shapeAfterAxes s axes).length = resultRank axes := by
  have hlen : ∀ (pairs : List (Nat × Nat)) (out : List (Option Nat)),
      (pairs.foldl (fun out p => out.modify p.1 (minDim p.2)) out).length = out.length := by
    intro pairs
    induction pairs with
    | nil => exact fun _ => rfl
    | cons p pairs ih =>
      intro out
      rw [List.foldl_cons, ih, List.length_modify]
  unfold shapeAfterAxes
  rw [List.length_map, hlen, List.length_replicate]

theorem mem_dims_iff {s axes : List Nat} {k n : Nat} :
    n ∈ ((axes.zip s).filter fun p => p.1 = k).map Prod.snd ↔
      ∃ i : Nat, axes[i]? = some k ∧ s[i]? = some n := by
  constructor
  · intro h
    obtain ⟨p, hp, rfl⟩ := List.mem_map.mp h
    obtain ⟨hmem, hk⟩ := List.mem_filter.mp hp
    obtain ⟨i, hi⟩ := List.mem_iff_getElem?.mp hmem
    obtain ⟨haxis, hdim⟩ := List.getElem?_zip_eq_some.mp hi
    exact ⟨i, by rw [haxis, of_decide_eq_true hk], hdim⟩
  · rintro ⟨i, haxis, hdim⟩
    refine List.mem_map.mpr ⟨(k, n), List.mem_filter.mpr ⟨?_, decide_eq_true rfl⟩, rfl⟩
    exact List.mem_iff_getElem?.mpr ⟨i, List.getElem?_zip_eq_some.mpr ⟨haxis, hdim⟩⟩

theorem isResultShape_shapeAfterAxes {s axes : List Nat} (h : IsAxisList s.length axes) :
    IsResultShape s axes (shapeAfterAxes s axes) := by
  refine ⟨fun k => ?_, fun k d hd => ?_⟩
  · rw [length_shapeAfterAxes, h.lt_resultRank_iff]
  · have hk : k < resultRank axes := by
      rw [← length_shapeAfterAxes s]
      exact (List.getElem?_eq_some_iff.mp hd).1
    have hmin : d = ((((axes.zip s).filter fun p => p.1 = k).map Prod.snd).min?).getD 0 := by
      rw [← foldl_minDim, List.foldl_map]
      simpa [shapeAfterAxes, getElem?_foldl_modify, hk, eq_comm] using hd
    -- the axis list sends some dimension to `k`
    obtain ⟨i, hi, haxis⟩ := List.getElem_of_mem (h.covers k hk)
    have hi' : i < s.length := h.length ▸ hi
    have hdim : s[i]? = some s[i] := List.getElem?_eq_getElem hi'
    have hmem := mem_dims_iff.mpr ⟨i, (List.getElem?_eq_some_iff.mpr ⟨hi, haxis⟩), hdim⟩
    obtain ⟨least, hleast⟩ := Option.isSome_iff_exists.mp
      (List.isSome_min?_of_mem hmem)
    obtain ⟨hin, hle⟩ := List.min?_eq_some_iff.mp hleast
    rw [hmin, hleast]
    refine ⟨mem_dims_iff.mp hin, ?_⟩
    rintro n hn
    exact hle n (mem_dims_iff.mpr hn)

/-! ### Indices of the input and of the result -/

theorem inShape_iff {s idx : List Nat} :
    InShape s idx ↔ idx.length = s.length ∧ ∀ i n, s[i]? = some n → idx.getD i 0 < n := by
  unfold InShape
  rw [List.forall₂_iff_get]
  refine and_congr_right fun hlen => ⟨fun h i n hn => ?_, fun h i hi hi' => ?_⟩
  · obtain ⟨hi, rfl⟩ := List.getElem?_eq_some_iff.mp hn
    have hlt := h i (by omega) hi
    simpa [hlen, hi] using hlt
  · have hlt := h i _ (List.getElem?_eq_getElem hi')
    simpa [hi] using hlt

theorem getD_sourceIndex {axes outIdx : List Nat} {i k : Nat} (h : axes[i]? = some k) :
    (sourceIndex axes outIdx).getD i 0 = outIdx.getD k 0 := by
  simp [sourceIndex, h]

/-- The index has one component for the axes that go to one place. -/
def IsDiagonal (axes idx : List Nat) : Prop :=
  ∀ i j k : Nat, axes[i]? = some k → axes[j]? = some k → idx.getD i 0 = idx.getD j 0

section Indices

variable {s axes t : List Nat}

/-- The source of an index inside the result is inside the input. -/
theorem inShape_sourceIndex (h : IsAxisList s.length axes) (ht : IsResultShape s axes t)
    {outIdx : List Nat} (ho : InShape t outIdx) : InShape s (sourceIndex axes outIdx) := by
  rw [inShape_iff] at ho ⊢
  refine ⟨by rw [sourceIndex, List.length_map, h.length], fun i n hn => ?_⟩
  have hi : i < axes.length := by
    rw [h.length]
    exact (List.getElem?_eq_some_iff.mp hn).1
  have haxis : axes[i]? = some axes[i] := List.getElem?_eq_getElem hi
  have hk : axes[i] < t.length := (ht.1 _).mpr (List.getElem_mem hi)
  have hd : t[axes[i]]? = some t[axes[i]] := List.getElem?_eq_getElem hk
  rw [getD_sourceIndex haxis]
  exact Nat.lt_of_lt_of_le (ho.2 _ _ hd) ((ht.2 _ _ hd).2 ⟨i, haxis, hn⟩)

theorem isDiagonal_sourceIndex (axes outIdx : List Nat) :
    IsDiagonal axes (sourceIndex axes outIdx) := by
  intro i j k hi hj
  rw [getD_sourceIndex hi, getD_sourceIndex hj]

/-- Every index on the diagonal has an index of the result. -/
theorem exists_sourceIndex (h : IsAxisList s.length axes) (ht : IsResultShape s axes t)
    {idx : List Nat} (hidx : InShape s idx) (hdiag : IsDiagonal axes idx) :
    ∃ outIdx, InShape t outIdx ∧ sourceIndex axes outIdx = idx := by
  obtain ⟨hlen, hlt⟩ := inShape_iff.mp hidx
  refine ⟨(List.range t.length).map fun k => idx.getD (axes.idxOf k) 0, inShape_iff.mpr ?_, ?_⟩
  · refine ⟨by simp, fun k d hd => ?_⟩
    obtain ⟨hk, -⟩ := List.getElem?_eq_some_iff.mp hd
    obtain ⟨i, hi, hn⟩ := (ht.2 k d hd).1
    have hfirst : axes[axes.idxOf k]? = some k := by
      rw [List.getElem?_eq_getElem (List.idxOf_lt_length_of_mem ((ht.1 k).mp hk))]
      simp
    have hread : ((List.range t.length).map fun k => idx.getD (axes.idxOf k) 0).getD k 0 =
        idx.getD (axes.idxOf k) 0 := by simp [hk]
    rw [hread, hdiag _ _ _ hfirst hi]
    exact hlt i d hn
  · have hsame : (sourceIndex axes
        ((List.range t.length).map fun k => idx.getD (axes.idxOf k) 0)).length = idx.length := by
      rw [sourceIndex, List.length_map, h.length, hlen]
    refine List.ext_getElem hsame fun i hi hi' => ?_
    have hi'' : i < axes.length := by rw [h.length, ← hlen]; exact hi'
    have haxis : axes[i]? = some axes[i] := List.getElem?_eq_getElem hi''
    have hmem : axes[i] ∈ axes := List.getElem_mem hi''
    have hk : axes[i] < t.length := (ht.1 _).mpr hmem
    have hfirst : axes[axes.idxOf axes[i]]? = some axes[i] := by
      rw [List.getElem?_eq_getElem (List.idxOf_lt_length_of_mem hmem)]
      simp
    have hsource := @getD_sourceIndex axes
      ((List.range t.length).map fun k => idx.getD (axes.idxOf k) 0) i _ haxis
    have hread : ((List.range t.length).map fun k => idx.getD (axes.idxOf k) 0).getD axes[i] 0 =
        idx.getD (axes.idxOf axes[i]) 0 := by simp [hk]
    rw [hread, hdiag _ _ _ hfirst haxis, List.getD_eq_getElem _ _ hi,
      List.getD_eq_getElem _ _ hi'] at hsource
    exact hsource

end Indices

theorem sourceIndex_range {n : Nat} {outIdx : List Nat} (h : outIdx.length = n) :
    sourceIndex (List.range n) outIdx = outIdx := by
  subst h
  refine List.ext_getElem (by simp [sourceIndex]) fun i hi hi' => ?_
  simp [sourceIndex, hi']

/-- An axis list that sends each dimension to a place of its own. -/
theorem isResultShape_of_places {s axes t : List Nat} (hmem : ∀ k, k < t.length ↔ k ∈ axes)
    (hplace : ∀ i k : Nat, axes[i]? = some k → s[i]? = t[k]?) : IsResultShape s axes t := by
  refine ⟨hmem, fun k d hd => ?_⟩
  have hset : {n | ∃ i : Nat, axes[i]? = some k ∧ s[i]? = some n} = {d} := by
    ext n
    constructor
    · rintro ⟨i, hi, hn⟩
      exact Option.some.inj (hn.symm.trans ((hplace i k hi).trans hd))
    · rintro rfl
      have hk : k ∈ axes := (hmem k).mp (List.getElem?_eq_some_iff.mp hd).1
      obtain ⟨i, hi⟩ := List.mem_iff_getElem?.mp hk
      exact ⟨i, hi, (hplace i k hi).trans hd⟩
  rw [hset]
  exact isLeast_singleton

theorem isResultShape_range (s : List Nat) : IsResultShape s (List.range s.length) s := by
  refine isResultShape_of_places (fun k => List.mem_range.symm) fun i k hk => ?_
  obtain ⟨hi, rfl⟩ := List.getElem?_eq_some_iff.mp hk
  rw [List.getElem_range]

/-- A value of at most one axis has one axis list. -/
theorem IsAxisList.eq_range {rank : Nat} {axes : List Nat} (h : IsAxisList rank axes)
    (hrank : rank ≤ 1) : axes = List.range rank := by
  refine List.ext_getElem (by rw [h.length, List.length_range]) fun i hi hi' => ?_
  have hlt := h.lt _ (List.getElem_mem hi)
  rw [h.length] at hi
  rw [List.getElem_range]
  omega

/-! ### Transposition by an axis list -/

section AxisList

variable {v axesArg : Value} {s axes : List Nat}

theorem transpose_axes_eq (hs : v.shapeUniform = some s)
    (hp : parseAxes axesArg s.length = .ok axes) :
    transpose [v, axesArg] = if s.length ≤ 1 then .ok v else transposeAxes v s axes := by
  unfold transpose transposeWith
  dsimp only
  rw [hs]
  show (do
    let axes ← some <$> parseAxes axesArg s.length
    transposeShaped v s axes) = _
  rw [hp]
  rfl

theorem transpose_default_eq (hs : v.shapeUniform = some s) :
    transpose [v] = transposeShaped v s none := by
  unfold transpose transposeWith
  dsimp only
  rw [hs]
  rfl

theorem readPath_ok_iff {idx : List Nat} {x : Value} :
    readPath v idx = .ok x ↔ pathReadable v idx = true ∧ elementAt v idx = some x := by
  unfold readPath
  rw [indexPath_eq]
  cases pathReadable v idx with
  | false => exact iff_of_false nofun (fun h => Bool.false_ne_true h.1)
  | true =>
    rw [if_pos rfl]
    cases elementAt v idx with
    | none => exact iff_of_false nofun nofun
    | some y => simp

theorem readPath_of_not_readable {idx : List Nat} (h : pathReadable v idx = false) :
    readPath v idx = .error .domain := by
  unfold readPath
  rw [indexPath_eq, h]
  rfl

/-- The building reads the input on the diagonal. -/
theorem buildTransposedAxes_isOk (hv : HasShape s v) (ha : IsAxisList s.length axes) :
    (∃ r, buildTransposedAxes v axes (shapeAfterAxes s axes) [] = .ok r) ↔
      ∀ idx, InShape s idx → IsDiagonal axes idx → pathReadable v idx = true := by
  have ht := isResultShape_shapeAfterAxes ha
  unfold buildTransposedAxes
  rw [buildAxes_isOk]
  constructor
  · intro h idx hidx hdiag
    obtain ⟨outIdx, hout, rfl⟩ := exists_sourceIndex ha ht hidx hdiag
    obtain ⟨x, hx⟩ := h outIdx hout
    exact (readPath_ok_iff.mp hx).1
  · intro h outIdx hout
    have hidx := inShape_sourceIndex ha ht hout
    obtain ⟨x, hx, -⟩ := exists_elementAt hv hidx
    exact ⟨x, readPath_ok_iff.mpr ⟨h _ hidx (isDiagonal_sourceIndex axes outIdx), hx⟩⟩

/-- The result moves every element to its place. -/
theorem buildTransposedAxes_elements (hv : HasShape s v) (ha : IsAxisList s.length axes) {r : Value}
    (hr : buildTransposedAxes v axes (shapeAfterAxes s axes) [] = .ok r) :
    Built (shapeAfterAxes s axes) r ∧ ∀ outIdx, InShape (shapeAfterAxes s axes) outIdx →
      elementAt r outIdx = elementAt v (sourceIndex axes outIdx) := by
  have ht := isResultShape_shapeAfterAxes ha
  have hatom : ∀ outIdx, InShape (shapeAfterAxes s axes) outIdx → ∀ x,
      readPath v (sourceIndex axes ([] ++ outIdx)) = .ok x → x.isAtom = true := by
    intro outIdx hout x hx
    obtain ⟨y, hy, hatom⟩ := exists_elementAt hv (inShape_sourceIndex ha ht hout)
    obtain rfl := Option.some.inj (hy.symm.trans (readPath_ok_iff.mp hx).2)
    exact hatom
  obtain ⟨hbuilt, helements⟩ := buildAxes_elements hatom hr
  refine ⟨hbuilt, fun outIdx hout => ?_⟩
  obtain ⟨x, hx, hread⟩ := helements outIdx hout
  exact hx.trans (readPath_ok_iff.mp hread).2.symm

/-- The result has the shape, and the element at each index is the one of the input
at the source of the index. -/
def MovesElements (v : Value) (s axes : List Nat) (out : WqResult Value) : Prop :=
  ∃ r t, out = .ok r ∧ r.shapeUniform = some t ∧ IsResultShape s axes t ∧
    ∀ outIdx, InShape t outIdx → elementAt r outIdx = elementAt v (sourceIndex axes outIdx)

theorem zero_not_mem_of_isResultShape {t : List Nat} (hz : 0 ∉ s) (ht : IsResultShape s axes t) :
    0 ∉ t := by
  intro hmem
  obtain ⟨k, hk⟩ := List.mem_iff_getElem?.mp hmem
  obtain ⟨i, -, hi⟩ := (ht.2 k 0 hk).1
  exact hz (List.mem_of_getElem? hi)

/-- **Every element moves to its place** exactly where all that is read is readable. -/
theorem movesElements_iff (hs : v.shapeUniform = some s) (hz : 0 ∉ s)
    (hp : parseAxes axesArg s.length = .ok axes) :
    MovesElements v s axes (transpose [v, axesArg]) ↔ s.length ≤ 1 ∨
      ∀ idx, InShape s idx → IsDiagonal axes idx → pathReadable v idx = true := by
  have ha := parseAxes_ok hp
  have hv := (shapeUniform_iff hz v).mp hs
  have ht := isResultShape_shapeAfterAxes ha
  rw [transpose_axes_eq hs hp]
  by_cases hrank : s.length ≤ 1
  · rw [if_pos hrank]
    obtain rfl := ha.eq_range hrank
    refine iff_of_true ⟨v, s, rfl, hs, isResultShape_range s, fun outIdx hout => ?_⟩ (.inl hrank)
    rw [sourceIndex_range (inShape_iff.mp hout).1]
  · rw [if_neg hrank, transposeAxes, if_neg hz, or_iff_right hrank,
      ← buildTransposedAxes_isOk hv ha]
    constructor
    · rintro ⟨r, -, hr, -⟩
      exact ⟨r, hr⟩
    · rintro ⟨r, hr⟩
      obtain ⟨hbuilt, helements⟩ := buildTransposedAxes_elements hv ha hr
      refine ⟨r, _, hr, ?_, ht, helements⟩
      have hzt := zero_not_mem_of_isResultShape hz ht
      exact (shapeUniform_iff hzt r).mpr (hasShape_of_built hbuilt)

end AxisList

/-! ### Exchanging the last two axes -/

/-- The axis list that exchanges the last two axes. -/
def exchangeAxes (rank : Nat) : List Nat := List.range (rank - 2) ++ [rank - 1, rank - 2]

theorem IsResultShape.unique {s axes t t' : List Nat} (h : IsResultShape s axes t)
    (h' : IsResultShape s axes t') : t = t' := by
  have hiff : ∀ k, k < t.length ↔ k < t'.length := fun k => (h.1 k).trans (h'.1 k).symm
  have hlen : t.length = t'.length := by
    have hle := hiff t.length
    have hle' := hiff t'.length
    omega
  refine List.ext_getElem hlen fun k hk hk' => ?_
  exact (h.2 k _ (List.getElem?_eq_getElem hk)).unique (h'.2 k _ (List.getElem?_eq_getElem hk'))

theorem exists_last_two {α : Type} : ∀ {xs : List α} {k : Nat}, xs.length = k + 2 →
    ∃ front a b, xs = front ++ [a, b] ∧ front.length = k
  | [], _, h => by cases h
  | [_], _, h => by cases h
  | [a, b], k, (h : 2 = k + 2) => ⟨[], a, b, rfl, (by omega : 0 = k)⟩
  | _ :: _ :: _ :: _, 0, h => by cases h
  | x :: y :: z :: xs, k + 1, h => by
    obtain ⟨front, a, b, hxs, hfront⟩ := @exists_last_two α (y :: z :: xs) k (Nat.succ.inj h)
    exact ⟨x :: front, a, b, congrArg (x :: ·) hxs, congrArg (· + 1) hfront⟩

theorem exchangeAxes_eq (k : Nat) : exchangeAxes (k + 2) = List.range k ++ [k + 1, k] := rfl

theorem sourceIndex_exchangeAxes (outIdx : List Nat) (j i : Nat) :
    sourceIndex (exchangeAxes (outIdx.length + 2)) (outIdx ++ [j, i]) = outIdx ++ [i, j] := by
  rw [exchangeAxes_eq, sourceIndex, List.map_append]
  congr 1
  · refine List.ext_getElem (by simp) fun a ha ha' => ?_
    simp [List.getElem?_append_left ha', ha']
  · simp

theorem isResultShape_exchange (front : List Nat) (m n : Nat) :
    IsResultShape (front ++ [m, n]) (exchangeAxes (front.length + 2)) (front ++ [n, m]) := by
  rw [exchangeAxes_eq]
  refine isResultShape_of_places (fun k => ?_) fun i k hk => ?_
  · simp only [List.length_append, List.length_cons, List.length_nil, List.mem_append,
      List.mem_range, List.mem_cons, List.not_mem_nil, or_false]
    omega
  · rcases Nat.lt_trichotomy i front.length with hi | rfl | hi
    · simp only [List.getElem?_append_left, List.length_range, hi, List.getElem?_range,
        Option.some.injEq] at hk
      subst hk
      rw [List.getElem?_append_left hi, List.getElem?_append_left hi]
    · simp at hk
      subst hk
      simp
    · obtain ⟨j, rfl⟩ := Nat.exists_eq_add_of_lt hi
      have hright : ∀ xs : List Nat, xs.length = front.length → ∀ a b : Nat,
          (xs ++ [a, b])[front.length + j + 1]? = [a, b][j + 1]? := by
        intro xs hxs a b
        rw [List.getElem?_append_right (by omega)]
        congr 1
        omega
      rw [hright _ (List.length_range)] at hk
      rw [hright _ rfl]
      cases j with
      | zero =>
        obtain rfl : front.length = k := Option.some.inj hk
        simp
      | succ j => cases hk

/-- A list of containers is built as a general list. -/
theorem fromItems_containers (items : List Value) (h : ∀ x ∈ items, x.isAtom = false) :
    fromItems items = .list items := by
  have hpush : ∀ (rest acc : List Value), (∀ x ∈ rest, x.isAtom = false) →
      rest.foldl ValueSeqBuilder.push (.general acc) = .general (acc ++ rest) := by
    intro rest
    induction rest with
    | nil => intro acc _; simp
    | cons x rest ih =>
      intro acc hrest
      have htail : ∀ y ∈ rest, y.isAtom = false := fun y hy => hrest y (List.mem_cons_of_mem x hy)
      rw [List.foldl_cons, ValueSeqBuilder.push, ih _ htail]
      simp
  cases items with
  | nil => rfl
  | cons x rest =>
    have hx : ValueSeqBuilder.push .empty x = .general [x] := by
      have hatom := h x List.mem_cons_self
      cases x <;> first | rfl | cases hatom
    rw [fromItems, List.foldl_cons, hx, hpush rest [x] fun y hy => h y (List.mem_cons_of_mem x hy)]
    rfl

/-- A loop whose results are containers makes a general list of them. -/
theorem list_mapM_eq {α : Type} {f : α → WqResult Value} {xs : List α}
    (h : ∀ x ∈ xs, ∀ v, f x = .ok v → v.isAtom = false) :
    (do return Value.list (← xs.mapM f) : WqResult Value) = do return fromItems (← xs.mapM f) := by
  cases hitems : xs.mapM f with
  | error e => rfl
  | ok items =>
    have hforall := mapM_ok_iff.mp hitems
    have hcontainers : ∀ v ∈ items, v.isAtom = false := by
      intro v hv
      obtain ⟨i, hi, rfl⟩ := List.getElem_of_mem hv
      have hi' : i < xs.length := by rw [hforall.length_eq]; exact hi
      exact h _ (List.getElem_mem hi') _ ((List.forall₂_iff_get.mp hforall).2 i hi' hi)
    show Except.ok (Value.list items) = .ok (fromItems items)
    rw [fromItems_containers items hcontainers]

theorem isAtom_buildAxes {read : List Nat → WqResult Value} {n : Nat} {dims out : List Nat}
    {r : Value} (h : buildAxes read (n :: dims) out = .ok r) : r.isAtom = false := by
  obtain ⟨items, -, h⟩ := ok_of_bind h
  obtain rfl := Except.ok.inj h
  exact isAtom_fromItems items

theorem transposeBatched_cons (batchSize : Nat) : ∀ {shape : List Nat}, 2 ≤ shape.length →
    ∀ v, transposeBatched (batchSize :: shape) v = do
      return Value.list (← (List.range batchSize).mapM fun i => do
        transposeBatched shape (← readPath v [i]))
  | _ :: _ :: _, _, _ => rfl

theorem readPath_cons {v x : Value} {i : Nat} (h : readPath v [i] = .ok x) (idx : List Nat) :
    readPath v (i :: idx) = readPath x idx := by
  unfold readPath at h ⊢
  cases hx : indexPath v [i] with
  | none => rw [hx] at h; cases h
  | some y =>
    rw [hx] at h
    obtain rfl := Except.ok.inj h
    rw [indexPath_cons, hx]
    rfl

theorem readPath_cons_error {v : Value} {i : Nat} {e : WqErrorType}
    (h : readPath v [i] = .error e) (idx : List Nat) : readPath v (i :: idx) = .error e := by
  unfold readPath at h ⊢
  cases hx : indexPath v [i] with
  | none =>
    rw [hx] at h
    rw [indexPath_cons, hx]
    exact h
  | some y => rw [hx] at h; cases h

/-- **The recursion over the batches** builds the result of exchanging the last two axes. -/
theorem transposeBatched_eq (m n : Nat) : ∀ {front : List Nat} {v : Value}
    {read : List Nat → WqResult Value}, 0 ∉ front ++ [m, n] →
    (∀ outIdx j i, outIdx.length = front.length →
      read (outIdx ++ [j, i]) = readPath v (outIdx ++ [i, j])) →
    transposeBatched (front ++ [m, n]) v = buildAxes read (front ++ [n, m]) []
  | [], v, read, _, hread => by
    have hcol : ∀ j, (do
        let col ← (List.range m).mapM fun i => readPath v [i, j]
        return fromItems col : WqResult Value) = buildAxes read [m] [j] := by
      intro j
      have heq : (List.range m).mapM (fun i => readPath v [i, j]) =
          (List.range m).mapM fun i => buildAxes read [] ([j] ++ [i]) :=
        mapM_congr_mem _ fun i _ => (hread [] j i rfl).symm
      rw [buildAxes, heq]
    show transpose2d v m n = buildAxes read [n, m] []
    rw [transpose2d, buildAxes]
    simp only [hcol]
    exact list_mapM_eq fun j _ r hr => isAtom_buildAxes hr
  | b :: front, v, read, hz, hread => by
    obtain ⟨hb, hz'⟩ := not_or.mp (mt List.mem_cons.mpr hz)
    have hdims : 0 ∉ front ++ [n, m] := by
      simpa [and_comm] using hz'
    have heach : ∀ i ∈ List.range b, (do transposeBatched (front ++ [m, n]) (← readPath v [i])) =
        buildAxes read (front ++ [n, m]) ([] ++ [i]) := by
      intro i _
      cases hx : readPath v [i] with
      | error e =>
        refine (buildAxes_error hdims fun idx hidx => ?_).symm
        obtain ⟨outIdx, j, k, rfl, hlen⟩ := exists_last_two (k := front.length)
          ((inShape_iff.mp hidx).1.trans (by simp))
        have hcons := hread (i :: outIdx) j k (congrArg (· + 1) hlen)
        exact hcons.trans (readPath_cons_error hx _)
      | ok x =>
        have ih := @transposeBatched_eq m n front x (fun idx => read ([] ++ [i] ++ idx)) hz'
          fun outIdx j k hlen => by
            have hcons := hread (i :: outIdx) j k (congrArg (· + 1) hlen)
            exact hcons.trans (readPath_cons hx _)
        refine ih.trans (buildAxes_congr fun idx _ => rfl)
    rw [List.cons_append, transposeBatched_cons b (by simp), mapM_congr_mem _ heach]
    refine list_mapM_eq fun i _ r hr => ?_
    cases front with
    | nil => exact isAtom_buildAxes hr
    | cons _ _ => exact isAtom_buildAxes hr

/-- **Without an axis list**, the last two axes are exchanged. -/
theorem transpose_default {v axesArg : Value} {s : List Nat} (hs : v.shapeUniform = some s)
    (hz : 0 ∉ s) (hrank : 2 ≤ s.length)
    (hp : parseAxes axesArg s.length = .ok (exchangeAxes s.length)) :
    transpose [v] = transpose [v, axesArg] := by
  obtain ⟨k, hk⟩ := Nat.exists_eq_add_of_le' hrank
  obtain ⟨front, m, n, rfl, rfl⟩ := exists_last_two hk
  have ha := parseAxes_ok hp
  have hlen : (front ++ [m, n]).length = front.length + 2 := by simp
  have hshape : shapeAfterAxes (front ++ [m, n]) (exchangeAxes (front ++ [m, n]).length) =
      front ++ [n, m] := by
    refine (isResultShape_shapeAfterAxes ha).unique ?_
    rw [hlen]
    exact isResultShape_exchange front m n
  have hbatched : transposeBatched (front ++ [m, n]) v =
      buildTransposedAxes v (exchangeAxes (front ++ [m, n]).length) (front ++ [n, m]) [] := by
    refine transposeBatched_eq m n hz fun outIdx j i hout => ?_
    rw [hlen, ← hout, sourceIndex_exchangeAxes]
  have hnot : ¬(front ++ [m, n]).length ≤ 1 := by omega
  rw [transpose_axes_eq hs hp, transpose_default_eq hs, if_neg hnot, transposeAxes, if_neg hz,
    hshape, ← hbatched, transposeShaped]
  dsimp only
  have hm : (front ++ [m, n]).getD ((front ++ [m, n]).length - 2) 0 = m := by simp
  have hn : (front ++ [m, n]).getD ((front ++ [m, n]).length - 1) 0 = n := by simp
  have hzero : ¬(m = 0 ∨ n = 0) := by
    rintro (rfl | rfl)
    · exact hz (by simp)
    · exact hz (by simp)
  rw [if_neg hnot, hm, hn, if_neg hzero]
  split
  · next htwo =>
    obtain rfl : front = [] := List.eq_nil_of_length_eq_zero (by omega)
    rfl
  · rfl

/-! ### Packed rows -/

def isBool : Value → Bool
  | .bool _ => true
  | _ => false

/-- A line that is packed as booleans or as a string. -/
def PacksUnreadable (line : List Value) : Prop :=
  (∀ x ∈ line, isBool x = true) ∨ ∀ x ∈ line, x.isChar = true

theorem exists_bools : ∀ {items : List Value}, (∀ x ∈ items, isBool x = true) →
    ∃ bs : List Bool, items = bs.map .bool
  | [], _ => ⟨[], rfl⟩
  | x :: items, h => by
    obtain ⟨bs, hbs⟩ := exists_bools fun y hy => h y (List.mem_cons_of_mem x hy)
    have hx := h x List.mem_cons_self
    cases x with
    | bool b => exact ⟨b :: bs, by rw [hbs]; rfl⟩
    | _ => cases hx

theorem foldl_push_bools (bs : List Bool) : ∀ acc : List Bool,
    (bs.map Value.bool).foldl ValueSeqBuilder.push (.bool acc) = .bool (acc ++ bs) := by
  induction bs with
  | nil => intro acc; simp
  | cons b bs ih =>
    intro acc
    rw [List.map_cons, List.foldl_cons, ValueSeqBuilder.push, ih]
    simp

theorem foldl_push_chars (cs : List Char) : ∀ acc : List Char,
    (cs.map Value.char).foldl ValueSeqBuilder.push (.string acc) = .string (acc ++ cs) := by
  induction cs with
  | nil => intro acc; simp
  | cons c cs ih =>
    intro acc
    rw [List.map_cons, List.foldl_cons, ValueSeqBuilder.push, ih]
    simp

/-- **A built row is unreadable** when it holds booleans only or characters only. -/
theorem isIndexable_fromItems {items : List Value} (hne : items ≠ []) :
    isIndexable (fromItems items) = true ↔ ¬PacksUnreadable items := by
  constructor
  · rintro h (hbools | hchars)
    · obtain ⟨bs, rfl⟩ := exists_bools hbools
      cases bs with
      | nil => exact hne rfl
      | cons b bs =>
        rw [fromItems, List.map_cons, List.foldl_cons, ValueSeqBuilder.push, foldl_push_bools] at h
        cases h
    · obtain ⟨cs, rfl⟩ := exists_chars hchars
      cases cs with
      | nil => exact hne rfl
      | cons c cs =>
        rw [fromItems, List.map_cons, List.foldl_cons, ValueSeqBuilder.push, foldl_push_chars] at h
        cases h
  · intro h
    have hitems := ValueSeqBuilder.items_foldl_push items .empty
    unfold fromItems
    cases hb : items.foldl ValueSeqBuilder.push .empty with
    | bool bs =>
      rw [hb] at hitems
      obtain rfl : bs.map Value.bool = items := hitems
      refine absurd (.inl fun x hx => ?_) h
      obtain ⟨b, -, rfl⟩ := List.mem_map.mp hx
      rfl
    | string cs =>
      rw [hb] at hitems
      obtain rfl : cs.map Value.char = items := hitems
      refine absurd (.inr fun x hx => ?_) h
      obtain ⟨c, -, rfl⟩ := List.mem_map.mp hx
      rfl
    | _ => rfl

theorem isAtom_of_isBool {x : Value} (h : isBool x = true) : x.isAtom = true := by
  cases x <;> first | rfl | cases h

theorem isAtom_of_isChar {x : Value} (h : x.isChar = true) : x.isAtom = true := by
  cases x <;> first | rfl | cases h

/-- A list of containers can be read. -/
theorem not_packsUnreadable_containers {items : List Value} (hne : items ≠ [])
    (h : ∀ x ∈ items, x.isAtom = false) : ¬PacksUnreadable items := by
  obtain ⟨x, hx⟩ := List.exists_mem_of_ne_nil items hne
  have hatom : ¬x.isAtom = true := by
    rw [h x hx]
    exact Bool.false_ne_true
  rintro (hbools | hchars)
  · exact hatom (isAtom_of_isBool (hbools x hx))
  · exact hatom (isAtom_of_isChar (hchars x hx))

theorem elementAt_append : ∀ (v : Value) (idx idx' : List Nat),
    elementAt v (idx ++ idx') = (elementAt v idx).bind (elementAt · idx')
  | _, [], _ => rfl
  | v, i :: idx, idx' => by
    rw [List.cons_append, elementAt, elementAt]
    cases v.containerItems[i]? with
    | none => rfl
    | some x => exact elementAt_append x idx idx'

theorem elementAt_fromItems (items : List Value) (i : Nat) (idx : List Nat) :
    elementAt (fromItems items) (i :: idx) = (items[i]?).bind (elementAt · idx) := by
  rw [elementAt, containerItems_fromItems]

theorem filterMap_getElem? {α : Type} (items : List α) :
    (List.range items.length).filterMap (items[·]?) = items := by
  induction items using List.reverseRecOn with
  | nil => rfl
  | append_singleton items x ih =>
    have hprefix : (List.range items.length).filterMap ((items ++ [x])[·]?) = items := by
      refine (List.filterMap_congr fun j hj => ?_).trans ih
      rw [List.getElem?_append_left (List.mem_range.mp hj)]
    rw [List.length_append, List.length_singleton, List.range_succ, List.filterMap_append, hprefix]
    simp

theorem filterMap_row (items : List Value) :
    (List.range items.length).filterMap (fun j => elementAt (fromItems items) [j]) = items := by
  have hget : ∀ j, elementAt (fromItems items) [j] = items[j]? := by
    intro j
    rw [elementAt_fromItems]
    cases items[j]? <;> rfl
  simp only [hget]
  exact filterMap_getElem? items

theorem isAtom_of_built {n : Nat} {s : List Nat} {v : Value} (h : Built (n :: s) v) :
    v.isAtom = false := (hasShape_of_built h).1

/-- What is built is readable when no row of it is packed as booleans or a string. -/
theorem pathReadable_built_iff (n : Nat) : ∀ {front : List Nat} {r : Value},
    Built (front ++ [n]) r → 0 ∉ front ++ [n] →
    ((∀ idx, InShape (front ++ [n]) idx → pathReadable r idx = true) ↔
      ∀ idx, InShape front idx →
        ¬PacksUnreadable ((List.range n).filterMap fun j => elementAt r (idx ++ [j])))
  | [], r, hr, hz => by
    obtain ⟨items, rfl, rfl, -⟩ := hr
    have hne : items ≠ [] := by
      rintro rfl
      exact hz (List.mem_singleton_self 0)
    have hrow : ∀ i, pathReadable (fromItems items) [i] = isIndexable (fromItems items) := by
      intro i
      rw [pathReadable]
      cases (fromItems items).containerItems[i]? <;> simp [pathReadable]
    have hright : (∀ idx, InShape [] idx → ¬PacksUnreadable
        ((List.range items.length).filterMap fun j => elementAt (fromItems items) (idx ++ [j]))) ↔
        ¬PacksUnreadable items := by
      constructor
      · intro h
        have hnil := h [] .nil
        simp only [List.nil_append] at hnil
        rwa [filterMap_row] at hnil
      · intro h idx hidx
        obtain rfl := inShape_nil.mp hidx
        simp only [List.nil_append]
        rwa [filterMap_row]
    rw [hright, ← isIndexable_fromItems hne]
    constructor
    · intro h
      rw [← hrow 0]
      exact h [0] (inShape_cons.mpr ⟨List.length_pos_iff.mpr hne, .nil⟩)
    · intro h idx hidx
      obtain ⟨i, rest, rfl, -, hrest⟩ := exists_of_inShape_cons hidx
      obtain rfl := inShape_nil.mp hrest
      rw [hrow, h]
  | m :: front, r, hr, hz => by
    obtain ⟨items, rfl, rfl, hitems⟩ := hr
    obtain ⟨hm, hz'⟩ := not_or.mp (mt List.mem_cons.mpr hz)
    have hne : items ≠ [] := by
      rintro rfl
      exact hm rfl
    have hcontainers : ∀ x ∈ items, x.isAtom = false := by
      intro x hx
      cases front with
      | nil => exact isAtom_of_built (hitems x hx)
      | cons _ _ => exact isAtom_of_built (hitems x hx)
    have hindexable : isIndexable (fromItems items) = true :=
      (isIndexable_fromItems hne).mpr (not_packsUnreadable_containers hne hcontainers)
    have hpath : ∀ i (hi : i < items.length) idx,
        pathReadable (fromItems items) (i :: idx) = pathReadable items[i] idx := by
      intro i hi idx
      rw [pathReadable, hindexable, containerItems_fromItems, List.getElem?_eq_getElem hi,
        Bool.true_and]
    have helement : ∀ i (hi : i < items.length) idx,
        elementAt (fromItems items) (i :: idx) = elementAt items[i] idx := by
      intro i hi idx
      rw [elementAt_fromItems, List.getElem?_eq_getElem hi, Option.bind_some]
    have ih := fun i (hi : i < items.length) =>
      pathReadable_built_iff n (hitems _ (List.getElem_mem hi)) hz'
    constructor
    · intro h idx hidx
      obtain ⟨i, rest, rfl, hi, hrest⟩ := exists_of_inShape_cons hidx
      simp only [List.cons_append, helement i hi]
      refine (ih i hi).mp (fun idx' hidx' => ?_) rest hrest
      rw [← hpath i hi]
      exact h (i :: idx') (inShape_cons.mpr ⟨hi, hidx'⟩)
    · intro h idx hidx
      obtain ⟨i, rest, rfl, hi, hrest⟩ := exists_of_inShape_cons hidx
      rw [hpath i hi]
      refine (ih i hi).mpr (fun idx' hidx' => ?_) rest hrest
      have hline := h (i :: idx') (inShape_cons.mpr ⟨hi, hidx'⟩)
      simpa only [List.cons_append, helement i hi] using hline

/-- A value that is read everywhere has no dictionary. -/
theorem noDict_of_readable : ∀ {s : List Nat} {v : Value}, 0 ∉ s → HasShape s v →
    (∀ idx, InShape s idx → pathReadable v idx = true) → NoDict s v
  | [], _, _, _, _ => trivial
  | n :: s, v, hz, hv, h => by
    obtain ⟨hn, hs⟩ := not_or.mp (mt List.mem_cons.mpr hz)
    obtain ⟨-, hlen, hitems⟩ := hv
    have hcons : ∀ i (hi : i < v.containerItems.length), ∀ idx, InShape s idx →
        isIndexable v = true ∧ pathReadable v.containerItems[i] idx = true := by
      intro i hi idx hidx
      have hread := h (i :: idx) (inShape_cons.mpr ⟨by omega, hidx⟩)
      rw [pathReadable, List.getElem?_eq_getElem hi, Bool.and_eq_true] at hread
      exact hread
    refine ⟨?_, fun x hx => ?_⟩
    · obtain ⟨idx, hidx⟩ := exists_inShape hs
      obtain ⟨hindexable, -⟩ := hcons 0 (by omega) idx hidx
      cases v <;> first | rfl | cases hindexable
    · obtain ⟨i, hi, rfl⟩ := List.getElem_of_mem hx
      exact noDict_of_readable hs (hitems _ hx) fun idx hidx => (hcons i hi idx hidx).2

/-! ### The inverse -/

/-- One axis list undoes the other. -/
def IsInverse (axes axes' : List Nat) : Prop :=
  ∀ i k : Nat, axes[i]? = some k ↔ axes'[k]? = some i

section Inverse

variable {s axes axes' : List Nat}

theorem exists_getElem?_iff {xs : List Nat} {k : Nat} :
    (∃ i, xs[k]? = some i) ↔ k < xs.length := by
  rw [← Option.isSome_iff_exists]
  simp

theorem IsInverse.symm (h : IsInverse axes axes') : IsInverse axes' axes := fun i k => (h k i).symm

theorem IsInverse.isDiagonal (h : IsInverse axes axes') (idx : List Nat) : IsDiagonal axes idx := by
  intro i j k hi hj
  have heq : some i = some j := ((h i k).mp hi).symm.trans ((h j k).mp hj)
  rw [Option.some.inj heq]

/-- The shape of the result of a permutation. -/
theorem IsInverse.shape (h : IsInverse axes axes') {t : List Nat} (ht : IsResultShape s axes t) :
    ∀ i k : Nat, axes[i]? = some k → t[k]? = s[i]? := by
  intro i k hk
  have hlt : k < t.length := (ht.1 k).mpr (List.mem_of_getElem? hk)
  obtain ⟨j, hj, hn⟩ := (ht.2 k _ (List.getElem?_eq_getElem hlt)).1
  have heq : some j = some i := ((h j k).mp hj).symm.trans ((h i k).mp hk)
  rw [← Option.some.inj heq, hn, List.getElem?_eq_getElem hlt]

theorem IsInverse.length_eq (h : IsInverse axes axes') (ha' : IsAxisList s.length axes')
    {t : List Nat} (ht : IsResultShape s axes t) : t.length = s.length := by
  have hmem : ∀ k, k < t.length ↔ k < s.length := by
    intro k
    rw [ht.1 k, List.mem_iff_getElem?]
    simp only [h _ k]
    rw [← ha'.length, exists_getElem?_iff]
  have hle := hmem t.length
  have hle' := hmem s.length
  omega

/-- The shape of the result of the inverse permutation is the first one. -/
theorem IsInverse.shape_back (h : IsInverse axes axes') (ha : IsAxisList s.length axes)
    {t : List Nat} (ht : IsResultShape s axes t) :
    IsResultShape t axes' s := by
  refine isResultShape_of_places (fun i => ?_) fun k i hi => ?_
  · rw [List.mem_iff_getElem?]
    simp only [h.symm _ i]
    rw [← ha.length, exists_getElem?_iff]
  · exact h.shape ht i k ((h i k).mpr hi)

theorem IsInverse.sourceIndex (h : IsInverse axes axes') (ha : IsAxisList s.length axes)
    {idx : List Nat} (hidx : idx.length = s.length) :
    sourceIndex axes (sourceIndex axes' idx) = idx := by
  refine List.ext_getElem (by simp [Wqpl.sourceIndex, ha.length, hidx]) fun i hi hi' => ?_
  have hi'' : i < axes.length := by rw [ha.length, ← hidx]; exact hi'
  have haxis : axes[i]? = some axes[i] := List.getElem?_eq_getElem hi''
  have hback := (h i axes[i]).mp haxis
  have houter := @getD_sourceIndex axes (Wqpl.sourceIndex axes' idx) i _ haxis
  rw [getD_sourceIndex hback, List.getD_eq_getElem _ _ hi, List.getD_eq_getElem _ _ hi'] at houter
  exact houter

/-- A component of the index of the result is one of the source. -/
theorem IsInverse.sourceIndex_set (h : IsInverse axes axes') {outIdx : List Nat} {i k : Nat}
    (hk : axes[i]? = some k) (hlt : k < outIdx.length) (j : Nat) :
    Wqpl.sourceIndex axes (outIdx.set k j) = (Wqpl.sourceIndex axes outIdx).set i j := by
  refine List.ext_getElem (by simp [Wqpl.sourceIndex]) fun a ha ha' => ?_
  have hlen : a < axes.length := by simpa [Wqpl.sourceIndex] using ha
  have haxis : axes[a]? = some axes[a] := List.getElem?_eq_getElem hlen
  by_cases hai : a = i
  · subst hai
    obtain rfl : axes[a] = k := Option.some.inj (haxis.symm.trans hk)
    simp [Wqpl.sourceIndex, hlt]
  · have hne : k ≠ axes[a] := by
      rintro rfl
      have heq : some a = some i := ((h a _).mp haxis).symm.trans ((h i _).mp hk)
      exact hai (Option.some.inj heq)
    rw [List.getElem_set_ne (Ne.symm hai)]
    simp [Wqpl.sourceIndex, List.getElem?_set_ne hne]

end Inverse

theorem inShape_concat {n j : Nat} : ∀ {front idx : List Nat}, InShape front idx → j < n →
    InShape (front ++ [n]) (idx ++ [j])
  | [], idx, h, hj => by
    obtain rfl := inShape_nil.mp h
    exact .cons hj .nil
  | _ :: _, idx, h, hj => by
    obtain ⟨i, rest, rfl, hi, hrest⟩ := exists_of_inShape_cons h
    exact .cons hi (inShape_concat hrest hj)

theorem exists_of_inShape_concat {n : Nat} : ∀ {front idx : List Nat},
    InShape (front ++ [n]) idx → ∃ rest j, idx = rest ++ [j] ∧ InShape front rest ∧ j < n
  | [], idx, h => by
    obtain ⟨j, rest, rfl, hj, hrest⟩ := exists_of_inShape_cons h
    obtain rfl := inShape_nil.mp hrest
    exact ⟨[], j, rfl, .nil, hj⟩
  | _ :: _, idx, h => by
    obtain ⟨i, tail, rfl, hi, htail⟩ := exists_of_inShape_cons h
    obtain ⟨rest, j, rfl, hrest, hj⟩ := exists_of_inShape_concat htail
    exact ⟨i :: rest, j, rfl, .cons hi hrest, hj⟩

/-- Transposing by the one axis list and then by the other gives the value back. -/
def TransposesBack (v axesArg axesArg' : Value) : Prop :=
  ∃ r w, transpose [v, axesArg] = .ok r ∧ transpose [r, axesArg'] = .ok w ∧ w.eq v = true

/-- The atoms along one axis. -/
def lineAlong (v : Value) (idx : List Nat) (axis n : Nat) : List Value :=
  (List.range n).filterMap fun j => elementAt v (idx.set axis j)

section Back

variable {v axesArg axesArg' : Value} {s axes axes' : List Nat}

/-- The rows of the result are the lines of the input along the axis that becomes the
last one. -/
theorem rows_iff (hz : 0 ∉ s) (ha : IsAxisList s.length axes) (ha' : IsAxisList s.length axes')
    (hinv : IsInverse axes axes') {front : List Nat} {n : Nat}
    (ht : IsResultShape s axes (front ++ [n])) {r : Value}
    (helements : ∀ outIdx, InShape (front ++ [n]) outIdx →
      elementAt r outIdx = elementAt v (sourceIndex axes outIdx)) :
    (∀ idx, InShape front idx →
        ¬PacksUnreadable ((List.range n).filterMap fun j => elementAt r (idx ++ [j]))) ↔
      ∀ idx, InShape s idx → ∀ i m : Nat, axes[i]? = some (s.length - 1) → s[i]? = some m →
        ¬PacksUnreadable (lineAlong v idx i m) := by
  have hlen : front.length + 1 = s.length := by simpa using hinv.length_eq ha' ht
  have hlast : s.length - 1 = front.length := by omega
  have hdim : ∀ i : Nat, axes[i]? = some front.length → s[i]? = some n := by
    intro i hi
    have hshape := hinv.shape ht i front.length hi
    rw [← hshape]
    simp
  have hline : ∀ {idx : List Nat} {j i : Nat}, InShape front idx → axes[i]? = some front.length →
      (List.range n).filterMap (fun j => elementAt r (idx ++ [j])) =
        lineAlong v (sourceIndex axes (idx ++ [j])) i n := by
    intro idx j i hidx hi
    refine List.filterMap_congr fun k hk => ?_
    have hidxlen : idx.length = front.length := (inShape_iff.mp hidx).1
    have hset : idx ++ [k] = (idx ++ [j]).set front.length k := by
      rw [← hidxlen]
      simp
    rw [helements _ (inShape_concat hidx (List.mem_range.mp hk)), hset,
      hinv.sourceIndex_set hi (by simp [hidxlen])]
  rw [hlast]
  constructor
  · intro h idx hidx i m hi hm
    obtain rfl : n = m := Option.some.inj ((hdim i hi).symm.trans hm)
    have hback : InShape (front ++ [n]) (sourceIndex axes' idx) := by
      refine inShape_sourceIndex ?_ (hinv.shape_back ha ht) hidx
      rw [hinv.length_eq ha' ht]
      exact ha'
    obtain ⟨rest, j, hsplit, hrest, -⟩ := exists_of_inShape_concat hback
    have hline' := h rest hrest
    rw [hline hrest hi (j := j), ← hsplit, hinv.sourceIndex ha (inShape_iff.mp hidx).1] at hline'
    exact hline'
  · intro h idx hidx
    obtain ⟨i, hi⟩ := List.mem_iff_getElem?.mp ((ht.1 front.length).mp (by simp))
    have hn : 0 < n := Nat.pos_of_ne_zero fun h0 => hz (h0 ▸ List.mem_of_getElem? (hdim i hi))
    rw [hline hidx hi (j := 0)]
    exact h _ (inShape_sourceIndex ha ht (inShape_concat hidx hn)) i n hi (hdim i hi)

/-- **Transposing back** gives the value again exactly where the value is readable and no
line along the axis that becomes the last one is packed as booleans or a string. -/
theorem transposesBack_iff (hs : v.shapeUniform = some s) (hz : 0 ∉ s)
    (hp : parseAxes axesArg s.length = .ok axes) (hp' : parseAxes axesArg' s.length = .ok axes')
    (hinv : IsInverse axes axes') :
    TransposesBack v axesArg axesArg' ↔ s.length ≤ 1 ∨
      (∀ idx, InShape s idx → pathReadable v idx = true) ∧
        ∀ idx, InShape s idx → ∀ i n : Nat, axes[i]? = some (s.length - 1) → s[i]? = some n →
          ¬PacksUnreadable (lineAlong v idx i n) := by
  have ha := parseAxes_ok hp
  have ha' := parseAxes_ok hp'
  have hv := (shapeUniform_iff hz v).mp hs
  have ht := isResultShape_shapeAfterAxes ha
  by_cases hrank : s.length ≤ 1
  · refine iff_of_true ⟨v, v, ?_, ?_, (eq_iff v v).mpr rfl⟩ (.inl hrank)
    · rw [transpose_axes_eq hs hp, if_pos hrank]
    · rw [transpose_axes_eq hs hp', if_pos hrank]
  · rw [or_iff_right hrank]
    have hzt := zero_not_mem_of_isResultShape hz ht
    have hlen := hinv.length_eq ha' ht
    have hback : shapeAfterAxes (shapeAfterAxes s axes) axes' = s := by
      refine (isResultShape_shapeAfterAxes ?_).unique (hinv.shape_back ha ht)
      rw [hlen]
      exact ha'
    have hat : IsAxisList (shapeAfterAxes s axes).length axes' := by
      rw [hlen]
      exact ha'
    have hfirst : transpose [v, axesArg] =
        buildTransposedAxes v axes (shapeAfterAxes s axes) [] := by
      rw [transpose_axes_eq hs hp, if_neg hrank, transposeAxes, if_neg hz]
    -- what the second transposition does with the result of the first
    have hsecond : ∀ r, Built (shapeAfterAxes s axes) r → transpose [r, axesArg'] =
        buildTransposedAxes r axes' (shapeAfterAxes (shapeAfterAxes s axes) axes') [] := by
      intro r hr
      have hshape := (shapeUniform_iff hzt r).mpr (hasShape_of_built hr)
      rw [transpose_axes_eq hshape (by rw [hlen]; exact hp'), hlen, if_neg hrank, transposeAxes,
        if_neg hzt]
    have hreadable : (∃ r, transpose [v, axesArg] = .ok r) ↔
        ∀ idx, InShape s idx → pathReadable v idx = true := by
      rw [hfirst, buildTransposedAxes_isOk hv ha]
      exact ⟨fun h idx hidx => h idx hidx (hinv.isDiagonal idx), fun h idx hidx _ => h idx hidx⟩
    obtain ⟨front, n, hfront⟩ : ∃ front n, shapeAfterAxes s axes = front ++ [n] := by
      have hne : shapeAfterAxes s axes ≠ [] := by
        intro hnil
        rw [hnil, List.length_nil] at hlen
        omega
      exact ⟨_, _, (List.dropLast_append_getLast hne).symm⟩
    have hrows : ∀ r, transpose [v, axesArg] = .ok r → ((∃ w, transpose [r, axesArg'] = .ok w) ↔
        ∀ idx, InShape s idx → ∀ i n : Nat, axes[i]? = some (s.length - 1) → s[i]? = some n →
          ¬PacksUnreadable (lineAlong v idx i n)) := by
      intro r hr
      obtain ⟨hbuilt, helements⟩ := buildTransposedAxes_elements hv ha (hfirst.symm.trans hr)
      rw [hsecond r hbuilt, buildTransposedAxes_isOk (hasShape_of_built hbuilt) hat]
      rw [hfront] at ht hbuilt helements hzt ⊢
      rw [← rows_iff hz ha ha' hinv ht helements, ← pathReadable_built_iff n hbuilt hzt]
      exact ⟨fun h idx hidx => h idx hidx (hinv.symm.isDiagonal idx),
        fun h idx hidx _ => h idx hidx⟩
    constructor
    · rintro ⟨r, w, hr, hw, -⟩
      exact ⟨hreadable.mp ⟨r, hr⟩, (hrows r hr).mp ⟨w, hw⟩⟩
    · rintro ⟨hread, hlines⟩
      obtain ⟨r, hr⟩ := hreadable.mpr hread
      obtain ⟨w, hw⟩ := (hrows r hr).mpr hlines
      obtain ⟨hbuilt, helements⟩ := buildTransposedAxes_elements hv ha (hfirst.symm.trans hr)
      obtain ⟨hbuilt', helements'⟩ := buildTransposedAxes_elements (hasShape_of_built hbuilt) hat
        ((hsecond r hbuilt).symm.trans hw)
      rw [hback] at hbuilt' helements'
      refine ⟨r, w, hr, hw, eq_of_elements (hasShape_of_built hbuilt') hv (noDict_of_built hbuilt')
        (noDict_of_readable hz hv hread) fun idx hidx => ?_⟩
      have hmid : InShape (shapeAfterAxes s axes) (sourceIndex axes' idx) :=
        inShape_sourceIndex hat (hinv.shape_back ha ht) hidx
      rw [helements' idx hidx, helements _ hmid, hinv.sourceIndex ha (inShape_iff.mp hidx).1]

/-- **Transposition moves every element to its place**, and the inverse axis list moves
it back, exactly where all that is read is in lists that `index_path` looks into. -/
theorem transpose_meets_iff (hs : v.shapeUniform = some s) (hz : 0 ∉ s)
    (hp : parseAxes axesArg s.length = .ok axes) :
    (MovesElements v s axes (transpose [v, axesArg]) ↔ s.length ≤ 1 ∨
      ∀ idx, InShape s idx → IsDiagonal axes idx → pathReadable v idx = true) ∧
    (2 ≤ s.length → axes = exchangeAxes s.length → transpose [v] = transpose [v, axesArg]) ∧
    ∀ axesArg' axes', parseAxes axesArg' s.length = .ok axes' → IsInverse axes axes' →
      (TransposesBack v axesArg axesArg' ↔ s.length ≤ 1 ∨
        (∀ idx, InShape s idx → pathReadable v idx = true) ∧
          ∀ idx, InShape s idx → ∀ i n : Nat, axes[i]? = some (s.length - 1) → s[i]? = some n →
            ¬PacksUnreadable (lineAlong v idx i n)) := by
  refine ⟨movesElements_iff hs hz hp, fun hrank haxes => ?_, fun _ _ hp' hinv => ?_⟩
  · exact transpose_default hs hz hrank (haxes ▸ hp)
  · exact transposesBack_iff hs hz hp hp' hinv

end Back

/-- A matrix of a packed row and a general one. -/
theorem transpose_meets_square :
    MovesElements (.list [.intList [1, 2], .list [.int 3, .char 'x']]) [2, 2] [1, 0]
      (transpose [.list [.intList [1, 2], .list [.int 3, .char 'x']], .intList [1, 0]]) := by
  refine (transpose_meets_iff rfl (by decide) rfl).1.mpr (.inr fun idx hidx _ => ?_)
  obtain ⟨i, rest, rfl, hi, hrest⟩ := exists_of_inShape_cons hidx
  obtain ⟨j, rest, rfl, hj, hrest⟩ := exists_of_inShape_cons hrest
  obtain rfl := inShape_nil.mp hrest
  interval_cases i <;> interval_cases j <;> rfl

/-- A row of booleans is not read, and a column of booleans becomes such a row. -/
theorem transpose_bools_fails :
    ¬MovesElements (.list [.boolList [true, false]]) [1, 2] [1, 0]
        (transpose [.list [.boolList [true, false]], .intList [1, 0]]) ∧
      (Value.list [.boolList [true, false]]).shapeUniform = some [1, 2] ∧
      parseAxes (.intList [1, 0]) 2 = .ok [1, 0] ∧
      ¬TransposesBack (.list [.list [.bool true, .int 1], .list [.bool false, .int 2]])
        (.intList [1, 0]) (.intList [1, 0]) := by
  refine ⟨?_, rfl, rfl, ?_⟩
  · rintro ⟨r, t, hr, -⟩
    have herror : transpose [.list [.boolList [true, false]], .intList [1, 0]] =
        .error .domain := rfl
    rw [herror] at hr
    cases hr
  · rintro ⟨r, w, hr, hw, -⟩
    have hfirst : transpose [.list [.list [.bool true, .int 1], .list [.bool false, .int 2]],
        .intList [1, 0]] = .ok (.list [.boolList [true, false], .intList [1, 2]]) := rfl
    obtain rfl := Except.ok.inj (hfirst.symm.trans hr)
    have hsecond : transpose [.list [.boolList [true, false], .intList [1, 2]], .intList [1, 0]] =
        .error .domain := rfl
    rw [hsecond] at hw
    cases hw

end Wqpl
