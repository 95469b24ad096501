/-
# Uniform shapes

The shape of a nested list is the list of its lengths, level by level, where all
items of a level have one shape (`shapeUniform_iff`). A value of a shape without
a zero has an element at every index inside the shape, and two values of lists are
equal when they have one shape and equal elements (`eq_of_elements`). Building a
value level by level from what is read at each index gives the shape and the
elements that were read (`buildAxes_elements`).

Key definitions: `Value.shapeUniform`, `HasShape`, `elementAt`, `buildAxes`.
-/
import Wqpl.Broadcast
import Wqpl.FallibleLoop
import Wqpl.Hash

namespace Wqpl

open Value

/-! ### Shapes -/

/-- The shape of a container whose items have these shapes. -/
def uniformShape : List (Option (List Nat)) → Option (List Nat)
  | [] => some [0]
  | first :: rest => do
    let first ← first
    if rest.all (· = some first) then some ((rest.length + 1) :: first) else none

namespace Value

mutual

/-- `shape_uniform`. -/
def shapeUniform : Value → Option (List Nat)
  | .intList items => some [items.length]
  | .intRange range => some [range.len]
  | .floatList items => some [items.length]
  | .boolList items => some [items.length]
  | .list items => uniformShape (shapesItems items)
  | .dict entries => uniformShape (shapesEntries entries)
  | .string s => some [s.toList.length]
  | _ => some []

def shapesItems : List Value → List (Option (List Nat))
  | [] => []
  | v :: vs => shapeUniform v :: shapesItems vs

def shapesEntries : List (String × Value) → List (Option (List Nat))
  | [] => []
  | (_, v) :: es => shapeUniform v :: shapesEntries es

end

theorem shapesItems_eq : ∀ vs : List Value, shapesItems vs = vs.map shapeUniform := by
  intro vs
  induction vs with
  | nil => rfl
  | cons v vs ih => exact congrArg (shapeUniform v :: ·) ih

theorem shapesEntries_eq : ∀ es : List (String × Value),
    shapesEntries es = (es.map Prod.snd).map shapeUniform
  | [] => rfl
  | (_, v) :: es => congrArg (shapeUniform v :: ·) (shapesEntries_eq es)

end Value

/-- An index inside a shape. -/
def InShape (s idx : List Nat) : Prop := List.Forall₂ (· < ·) idx s

/-- The value is nested as the shape says, down to atoms. -/
def HasShape : List Nat → Value → Prop
  | [], v => v.isAtom = true
  | n :: s, v =>
    v.isAtom = false ∧ v.containerItems.length = n ∧ ∀ x ∈ v.containerItems, HasShape s x

/-- No level is a dictionary. -/
def NoDict : List Nat → Value → Prop
  | [], _ => True
  | _ :: s, v => v.isDict = false ∧ ∀ x ∈ v.containerItems, NoDict s x

/-- The element at an index, level by level. -/
def elementAt : Value → List Nat → Option Value
  | v, [] => some v
  | v, i :: idx => (v.containerItems[i]?).bind (elementAt · idx)

theorem inShape_cons {n i : Nat} {s idx : List Nat} :
    InShape (n :: s) (i :: idx) ↔ i < n ∧ InShape s idx := List.forall₂_cons

theorem inShape_nil {idx : List Nat} : InShape [] idx ↔ idx = [] := List.forall₂_nil_right_iff

theorem exists_of_inShape_cons {n : Nat} {s idx : List Nat} (h : InShape (n :: s) idx) :
    ∃ i rest, idx = i :: rest ∧ i < n ∧ InShape s rest := by
  obtain ⟨i, rest, hi, hrest, rfl⟩ := List.forall₂_cons_right_iff.mp h
  exact ⟨i, rest, rfl, hi, hrest⟩

/-- A shape without a zero has an index. -/
theorem exists_inShape {s : List Nat} (hz : 0 ∉ s) : ∃ idx, InShape s idx := by
  refine ⟨s.map fun _ => 0, ?_⟩
  rw [InShape, List.forall₂_map_left_iff]
  exact List.forall₂_same.mpr fun n hn => Nat.pos_of_ne_zero fun h => hz (h ▸ hn)

theorem uniformShape_cons_iff {shapes : List (Option (List Nat))} {n : Nat} {s : List Nat}
    (hn : n ≠ 0) :
    uniformShape shapes = some (n :: s) ↔ shapes.length = n ∧ ∀ x ∈ shapes, x = some s := by
  cases shapes with
  | nil => simp [uniformShape, Ne.symm hn]
  | cons first rest =>
    cases first with
    | none => simp [uniformShape]
    | some s' =>
      by_cases h : ∀ x ∈ rest, x = some s'
      · have hall : rest.all (· = some s') = true := by simpa using h
        simp only [uniformShape, Option.bind_eq_bind, Option.bind_some, hall, if_true,
          Option.some.injEq, List.cons.injEq, List.length_cons, List.forall_mem_cons]
        constructor
        · rintro ⟨rfl, rfl⟩
          exact ⟨rfl, rfl, h⟩
        · rintro ⟨rfl, rfl, -⟩
          exact ⟨rfl, rfl⟩
      · have hall : ¬rest.all (· = some s') = true := by simpa using h
        simp only [uniformShape, Option.bind_eq_bind, Option.bind_some, if_neg hall,
          List.forall_mem_cons, Option.some.injEq]
        refine iff_of_false nofun ?_
        rintro ⟨-, rfl, h'⟩
        exact h h'

theorem uniformShape_replicate (n : Nat) :
    uniformShape (List.replicate n (some [])) = some [n] := by
  cases n with
  | zero => rfl
  | succ n => simp [List.replicate_succ, uniformShape]

theorem shapeUniform_of_isAtom {v : Value} (h : v.isAtom = true) : v.shapeUniform = some [] := by
  cases v <;> first | rfl | cases h

/-- The shape of a container is made of those of its items. -/
theorem shapeUniform_container {v : Value} (h : v.isAtom = false) :
    v.shapeUniform = uniformShape (v.containerItems.map shapeUniform) := by
  have hpacked : ∀ {seq : ValueSeq}, ValueSeq.fromValue v = some seq →
      (∀ items, v ≠ .list items) → v.shapeUniform = some [seq.len] →
      v.shapeUniform = uniformShape (v.containerItems.map shapeUniform) := by
    intro seq hseq hlist hshape
    have hatoms : v.containerItems.map shapeUniform = List.replicate seq.len (some []) := by
      rw [containerItems_of_fromValue hseq, List.eq_replicate_iff, List.length_map,
        ValueSeq.length_values]
      refine ⟨rfl, fun x hx => ?_⟩
      obtain ⟨y, hy, rfl⟩ := List.mem_map.mp hx
      exact shapeUniform_of_isAtom (isAtom_of_mem_values hseq hy hlist)
    rw [hshape, hatoms, uniformShape_replicate]
  cases v with
  | list items => rw [shapeUniform, shapesItems_eq]; rfl
  | dict entries => rw [shapeUniform, shapesEntries_eq]; rfl
  | intList _ | intRange _ | floatList _ | boolList _ | string _ =>
    exact hpacked rfl (fun _ h => by cases h) rfl
  | _ => cases h

/-- **A shape without a zero** is the shape of the values nested that way. -/
theorem shapeUniform_iff : ∀ {s : List Nat}, 0 ∉ s → ∀ v : Value,
    v.shapeUniform = some s ↔ HasShape s v
  | [], _, v => by
    cases ha : v.isAtom with
    | true => exact iff_of_true (shapeUniform_of_isAtom ha) ha
    | false =>
      have hne : v.shapeUniform ≠ some [] := by
        rw [shapeUniform_container ha]
        cases hshapes : v.containerItems.map shapeUniform with
        | nil => exact nofun
        | cons first rest =>
          cases first with
          | none => exact nofun
          | some s =>
            simp only [uniformShape, Option.bind_eq_bind, Option.bind_some]
            split <;> exact nofun
      exact iff_of_false hne (by rw [HasShape, ha]; exact Bool.false_ne_true)
  | n :: s, hz, v => by
    obtain ⟨hn, hs⟩ := not_or.mp (mt List.mem_cons.mpr hz)
    cases ha : v.isAtom with
    | true =>
      rw [shapeUniform_of_isAtom ha, HasShape, ha]
      exact iff_of_false nofun nofun
    | false =>
      rw [shapeUniform_container ha, uniformShape_cons_iff (Ne.symm hn), List.length_map, HasShape,
        List.forall_mem_map]
      simp only [ha, true_and, shapeUniform_iff hs]

/-! ### Elements -/

/-- There is an atom at every index inside the shape. -/
theorem exists_elementAt : ∀ {s idx : List Nat} {v : Value}, HasShape s v → InShape s idx →
    ∃ x, elementAt v idx = some x ∧ x.isAtom = true
  | [], idx, v, hv, hidx => by
    obtain rfl := inShape_nil.mp hidx
    exact ⟨v, rfl, hv⟩
  | n :: s, idx, v, hv, hidx => by
    obtain ⟨i, rest, rfl, hi, hrest⟩ := exists_of_inShape_cons hidx
    obtain ⟨-, rfl, hitems⟩ := hv
    obtain ⟨x, hx, hatom⟩ := exists_elementAt (hitems _ (List.getElem_mem hi)) hrest
    refine ⟨x, ?_, hatom⟩
    rw [elementAt, List.getElem?_eq_getElem hi]
    exact hx

/-- **Lists of one shape with the same elements are equal.** -/
theorem eq_of_elements : ∀ {s : List Nat} {v w : Value}, HasShape s v → HasShape s w →
    NoDict s v → NoDict s w → (∀ idx, InShape s idx → elementAt v idx = elementAt w idx) →
    v.eq w = true
  | [], v, w, _, _, _, _, h => by
    obtain rfl := Option.some.inj (h [] .nil)
    exact (eq_iff v v).mpr rfl
  | n :: s, v, w, hv, hw, hv', hw', h => by
    obtain ⟨hva, hvn, hvs⟩ := hv
    obtain ⟨hwa, hwn, hws⟩ := hw
    obtain ⟨left, hleft⟩ := exists_fromValue hva hv'.1
    obtain ⟨right, hright⟩ := exists_fromValue hwa hw'.1
    rw [eq_iff, canon_of_fromValue hleft, canon_of_fromValue hright,
      ← containerItems_of_fromValue hleft, ← containerItems_of_fromValue hright, canonItems_eq,
      canonItems_eq]
    refine congrArg Value.list (List.ext_getElem ?_ fun i hi hi' => ?_)
    · rw [List.length_map, List.length_map, hvn, hwn]
    · rw [List.getElem_map, List.getElem_map, ← eq_iff]
      rw [List.length_map] at hi hi'
      refine eq_of_elements (hvs _ (List.getElem_mem hi)) (hws _ (List.getElem_mem hi'))
        (hv'.2 _ (List.getElem_mem hi)) (hw'.2 _ (List.getElem_mem hi')) fun idx hidx => ?_
      have hcons := h (i :: idx) (inShape_cons.mpr ⟨by omega, hidx⟩)
      rw [elementAt, elementAt, List.getElem?_eq_getElem hi, List.getElem?_eq_getElem hi'] at hcons
      exact hcons

/-! ### Building level by level -/

/-- The value of the remaining dimensions below the index `out`, as
`build_transposed_axes` recurses. -/
def buildAxes (read : List Nat → WqResult Value) : List Nat → List Nat → WqResult Value
  | [], out => read out
  | n :: dims, out => do
    return fromItems (← (List.range n).mapM fun i => buildAxes read dims (out ++ [i]))

/-- Every level is a list built from its items. -/
def Built : List Nat → Value → Prop
  | [], v => v.isAtom = true
  | n :: s, v => ∃ items, v = fromItems items ∧ items.length = n ∧ ∀ x ∈ items, Built s x

theorem containerItems_fromItems (items : List Value) :
    (fromItems items).containerItems = items := by
  obtain ⟨seq, hseq, hvalues⟩ := Option.map_eq_some_iff.mp (fromItems_values items)
  rw [containerItems_of_fromValue hseq, hvalues]

theorem isAtom_fromItems (items : List Value) : (fromItems items).isAtom = false := by
  unfold fromItems
  cases items.foldl ValueSeqBuilder.push .empty <;> rfl

theorem isDict_fromItems (items : List Value) : (fromItems items).isDict = false := by
  unfold fromItems
  cases items.foldl ValueSeqBuilder.push .empty <;> rfl

theorem hasShape_of_built : ∀ {s : List Nat} {v : Value}, Built s v → HasShape s v
  | [], _, h => h
  | _ :: _, _, ⟨items, hv, hn, h⟩ => by
    subst hv
    rw [HasShape, containerItems_fromItems]
    exact ⟨isAtom_fromItems items, hn, fun x hx => hasShape_of_built (h x hx)⟩

theorem noDict_of_built : ∀ {s : List Nat} {v : Value}, Built s v → NoDict s v
  | [], _, _ => trivial
  | _ :: _, _, ⟨items, hv, _, h⟩ => by
    subst hv
    rw [NoDict, containerItems_fromItems]
    exact ⟨isDict_fromItems items, fun x hx => noDict_of_built (h x hx)⟩

section Build

variable {read read' : List Nat → WqResult Value}

@[simp] theorem buildAxes_nil (out : List Nat) : buildAxes read [] out = read out := rfl

/-- What is built depends on what is read inside the shape. -/
theorem buildAxes_congr : ∀ {dims out out' : List Nat},
    (∀ idx, InShape dims idx → read (out ++ idx) = read' (out' ++ idx)) →
    buildAxes read dims out = buildAxes read' dims out'
  | [], out, out', h => by simpa using h [] .nil
  | n :: dims, out, out', h => by
    have hitems : (List.range n).mapM (fun i => buildAxes read dims (out ++ [i])) =
        (List.range n).mapM fun i => buildAxes read' dims (out' ++ [i]) := by
      refine mapM_congr_mem _ fun i hi => buildAxes_congr fun idx hidx => ?_
      have hcons := h (i :: idx) (inShape_cons.mpr ⟨List.mem_range.mp hi, hidx⟩)
      simpa using hcons
    rw [buildAxes, buildAxes, hitems]

/-- Where all that is read fails, so does the building. -/
theorem buildAxes_error {e : WqErrorType} : ∀ {dims out : List Nat}, 0 ∉ dims →
    (∀ idx, InShape dims idx → read (out ++ idx) = .error e) → buildAxes read dims out = .error e
  | [], out, _, h => by simpa using h [] .nil
  | n :: dims, out, hz, h => by
    obtain ⟨hn, hdims⟩ := not_or.mp (mt List.mem_cons.mpr hz)
    obtain ⟨k, rfl⟩ := Nat.exists_eq_succ_of_ne_zero (Ne.symm hn)
    have hfirst : buildAxes read dims (out ++ [0]) = .error e := by
      refine buildAxes_error hdims fun idx hidx => ?_
      have hcons := h (0 :: idx) (inShape_cons.mpr ⟨Nat.succ_pos k, hidx⟩)
      simpa using hcons
    rw [buildAxes, List.range_succ_eq_map, List.mapM_cons, hfirst]
    rfl

/-- The building succeeds where everything is read. -/
theorem buildAxes_isOk : ∀ {dims out : List Nat}, (∃ r, buildAxes read dims out = .ok r) ↔
    ∀ idx, InShape dims idx → ∃ x, read (out ++ idx) = .ok x
  | [], out => by
    constructor
    · rintro ⟨r, hr⟩ idx hidx
      obtain rfl := inShape_nil.mp hidx
      exact ⟨r, by simpa using hr⟩
    · intro h
      obtain ⟨x, hx⟩ := h [] .nil
      exact ⟨x, by simpa using hx⟩
  | n :: dims, out => by
    constructor
    · rintro ⟨r, hr⟩ idx hidx
      obtain ⟨i, rest, rfl, hi, hrest⟩ := exists_of_inShape_cons hidx
      obtain ⟨items, hitems, -⟩ := ok_of_bind hr
      obtain ⟨-, hget⟩ := List.forall₂_iff_get.mp (mapM_ok_iff.mp hitems)
      have hlen := (mapM_ok_iff.mp hitems).length_eq
      have hread := hget i (by simpa using hi) (by rw [← hlen]; simpa using hi)
      obtain ⟨x, hx⟩ := buildAxes_isOk.mp ⟨_, hread⟩ rest hrest
      exact ⟨x, by simpa using hx⟩
    · intro h
      have hitems : ∀ i ∈ List.range n, ∃ x, buildAxes read dims (out ++ [i]) = .ok x := by
        intro i hi
        refine buildAxes_isOk.mpr fun idx hidx => ?_
        obtain ⟨x, hx⟩ := h (i :: idx) (inShape_cons.mpr ⟨List.mem_range.mp hi, hidx⟩)
        exact ⟨x, by simpa using hx⟩
      choose! g hg using hitems
      have hall : (List.range n).mapM (fun i => buildAxes read dims (out ++ [i])) =
          .ok ((List.range n).map g) := by
        rw [mapM_ok_iff, List.forall₂_map_right_iff]
        exact List.forall₂_same.mpr hg
      exact ⟨_, by rw [buildAxes, hall]; rfl⟩

/-- **What is built has the elements that are read.** -/
theorem buildAxes_elements : ∀ {dims out : List Nat} {r : Value},
    (∀ idx, InShape dims idx → ∀ x, read (out ++ idx) = .ok x → x.isAtom = true) →
    buildAxes read dims out = .ok r →
    Built dims r ∧ ∀ idx, InShape dims idx →
      ∃ x, elementAt r idx = some x ∧ read (out ++ idx) = .ok x
  | [], out, r, hatom, hr => by
    refine ⟨hatom [] .nil r (by simpa using hr), fun idx hidx => ?_⟩
    obtain rfl := inShape_nil.mp hidx
    exact ⟨r, rfl, by simpa using hr⟩
  | n :: dims, out, r, hatom, hr => by
    obtain ⟨items, hitems, h⟩ := ok_of_bind hr
    obtain rfl := Except.ok.inj h
    have hforall := mapM_ok_iff.mp hitems
    have hlen : items.length = n := by simpa using hforall.length_eq.symm
    have hread : ∀ i (hi : i < items.length),
        buildAxes read dims (out ++ [i]) = .ok items[i] := by
      intro i hi
      have hget := (List.forall₂_iff_get.mp hforall).2 i (by simpa [hlen] using hi) hi
      simpa using hget
    have hatom' : ∀ i < n, ∀ idx, InShape dims idx → ∀ x, read (out ++ [i] ++ idx) = .ok x →
        x.isAtom = true := by
      intro i hi idx hidx x hx
      exact hatom (i :: idx) (inShape_cons.mpr ⟨hi, hidx⟩) x (by simpa using hx)
    constructor
    · refine ⟨items, rfl, hlen, fun x hx => ?_⟩
      obtain ⟨i, hi, rfl⟩ := List.getElem_of_mem hx
      exact (buildAxes_elements (hatom' i (by omega)) (hread i hi)).1
    · intro idx hidx
      obtain ⟨i, rest, rfl, hi, hrest⟩ := exists_of_inShape_cons hidx
      obtain ⟨x, hx, hxr⟩ := (buildAxes_elements (hatom' i hi) (hread i (by omega))).2 rest hrest
      refine ⟨x, ?_, by simpa using hxr⟩
      rw [elementAt, containerItems_fromItems, List.getElem?_eq_getElem (by omega)]
      exact hx

end Build

end Wqpl
