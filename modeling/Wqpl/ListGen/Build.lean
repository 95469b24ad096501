/-
# Building values of a shape

A value of a shape is built level by level: from a generator that is called for
each element in turn, from one value for all elements, or from the path to each
element. Whatever the builder, the value is nested as the shape says, and at
each index it holds the element for that index (`Holds`); the generator is called
in row-major order (`holds_buildFromParsedShape`).

Key definitions: `rowMajor`, `Holds`, `buildFromParsedShape`, `buildCoords`.
-/
import Wqpl.Shape

namespace Wqpl

namespace ListGen

open Value

/-! ### Arrays -/

/-- The place of an index in row-major order. -/
def rowMajor : List Nat → List Nat → Nat
  | _ :: dims, i :: idx => i * dims.prod + rowMajor dims idx
  | _, _ => 0

/-- A nesting of lists with these lengths; the elements may be lists as well. -/
def Levels : List Nat → Value → Prop
  | [], _ => True
  | n :: dims, v =>
    v.isList = true ∧ v.containerItems.length = n ∧ ∀ x ∈ v.containerItems, Levels dims x

/-- The value is nested as the shape says, with the element `f idx` at each index. -/
structure Holds (dims : List Nat) (f : List Nat → Value) (v : Value) : Prop where
  levels : Levels dims v
  elements : ∀ idx, InShape dims idx → elementAt v idx = some (f idx)

theorem holds_nil {f : List Nat → Value} {v : Value} (h : v = f []) : Holds [] f v where
  levels := trivial
  elements idx hidx := by
    obtain rfl := inShape_nil.mp hidx
    rw [elementAt, h]

/-- A level holds what its items hold. -/
theorem holds_cons {n : Nat} {dims : List Nat} {f : List Nat → Value} {v : Value}
    (hlist : v.isList = true) (hlen : v.containerItems.length = n)
    (hitems : ∀ i x, v.containerItems[i]? = some x → Holds dims (fun idx => f (i :: idx)) x) :
    Holds (n :: dims) f v where
  levels := by
    refine ⟨hlist, hlen, fun x hx => ?_⟩
    obtain ⟨i, hi⟩ := List.getElem?_of_mem hx
    exact (hitems i x hi).levels
  elements idx hidx := by
    obtain ⟨i, rest, rfl, hi, hrest⟩ := exists_of_inShape_cons hidx
    have hx : v.containerItems[i]? = some v.containerItems[i] := List.getElem?_eq_getElem _
    rw [elementAt, hx]
    exact (hitems i _ hx).elements rest hrest

theorem rowMajor_lt : ∀ {dims idx : List Nat}, InShape dims idx → rowMajor dims idx < dims.prod
  | [], idx, h => by
    obtain rfl := inShape_nil.mp h
    exact Nat.one_pos
  | n :: dims, idx, h => by
    obtain ⟨i, rest, rfl, hi, hrest⟩ := exists_of_inShape_cons h
    have hlt := rowMajor_lt hrest
    rw [rowMajor, List.prod_cons]
    calc i * dims.prod + rowMajor dims rest < i * dims.prod + dims.prod := by omega
      _ = (i + 1) * dims.prod := (Nat.succ_mul _ _).symm
      _ ≤ n * dims.prod := Nat.mul_le_mul_right _ hi

/-! ### Generators -/

section Generators

variable {G : Type}

/-- The generator called a number of times. -/
def times {α : Type} (next : G → α × G) : Nat → G → List α × G
  | 0, g => ([], g)
  | n + 1, g =>
    let (x, g) := next g
    let (xs, g) := times next n g
    (x :: xs, g)

/-- The generator's state after `k` calls. -/
def after {α : Type} (next : G → α × G) (g : G) (k : Nat) : G := (fun g => (next g).2)^[k] g

/-- What the generator gives after `k` calls. -/
def yielded {α : Type} (next : G → α × G) (g : G) (k : Nat) : α := (next (after next g k)).1

theorem after_add {α : Type} (next : G → α × G) (g : G) (j k : Nat) :
    after next (after next g j) k = after next g (j + k) := by
  rw [after, after, ← Function.iterate_add_apply, Nat.add_comm, after]

theorem times_eq {α : Type} (next : G → α × G) : ∀ (n : Nat) (g : G),
    times next n g = ((List.range n).map (yielded next g), after next g n)
  | 0, _ => rfl
  | n + 1, g => by
    rw [times]
    dsimp only
    rw [times_eq next n, List.range_succ_eq_map, List.map_cons, List.map_map]
    rfl

/-- `build_from_parsed_shape`. -/
def buildFromParsedShape (next : G → Value × G) : List Nat → G → Value × G
  | [], g => next g
  | [n], g =>
    if n = 0 then (.intList [], g)
    else
      let (items, g) := times next n g
      (fromItems items, g)
  | m :: n :: shape, g =>
    let (out, g) := times (buildFromParsedShape next (n :: shape)) m g
    (.list out, g)

/-- What builds a level calls the generator for each element of it. -/
theorem after_of_build {next : G → Value × G} {build : G → Value × G} {p : Nat}
    (h : ∀ g, (build g).2 = after next g p) (g : G) (k : Nat) :
    after build g k = after next g (k * p) := by
  induction k with
  | zero => rw [Nat.zero_mul]; rfl
  | succ k ih =>
    rw [after, Function.iterate_succ_apply', ← after, ih, h, after_add, Nat.succ_mul]

theorem isList_fromItems (items : List Value) : (fromItems items).isList = true := by
  unfold fromItems
  cases items.foldl ValueSeqBuilder.push .empty <;> rfl

/-- A level of what is built. -/
theorem buildFromParsedShape_cons (next : G → Value × G) (n : Nat) (dims : List Nat)
    (hdims : ∀ g, (buildFromParsedShape next dims g).2 = after next g dims.prod) (g : G) :
    (buildFromParsedShape next (n :: dims) g).1.isList = true ∧
      (buildFromParsedShape next (n :: dims) g).1.containerItems =
        (List.range n).map (fun i =>
          (buildFromParsedShape next dims (after next g (i * dims.prod))).1) ∧
      (buildFromParsedShape next (n :: dims) g).2 = after next g (n * dims.prod) := by
  cases dims with
  | nil =>
    rw [List.prod_nil, Nat.mul_one]
    simp only [Nat.mul_one, buildFromParsedShape]
    by_cases hn : n = 0
    · subst hn
      exact ⟨rfl, rfl, rfl⟩
    · rw [if_neg hn, times_eq]
      exact ⟨isList_fromItems _, containerItems_fromItems _, rfl⟩
  | cons d dims =>
    rw [buildFromParsedShape, times_eq]
    refine ⟨rfl, ?_, after_of_build hdims g n⟩
    refine List.map_congr_left fun i _ => ?_
    rw [yielded, after_of_build hdims]

theorem after_buildFromParsedShape (next : G → Value × G) : ∀ (dims : List Nat) (g : G),
    (buildFromParsedShape next dims g).2 = after next g dims.prod
  | [], _ => rfl
  | n :: dims, g => by
    rw [List.prod_cons]
    exact (buildFromParsedShape_cons next n dims (after_buildFromParsedShape next dims) g).2.2

/-- **Row-major order.** Each index holds what the generator gives at its place. -/
theorem holds_buildFromParsedShape (next : G → Value × G) : ∀ (dims : List Nat) (g : G),
    Holds dims (fun idx => yielded next g (rowMajor dims idx)) (buildFromParsedShape next dims g).1
  | [], g => holds_nil rfl
  | n :: dims, g => by
    obtain ⟨hlist, hitems, -⟩ :=
      buildFromParsedShape_cons next n dims (after_buildFromParsedShape next dims) g
    refine holds_cons hlist (by rw [hitems, List.length_map, List.length_range]) fun i x hx => ?_
    rw [hitems, List.getElem?_map] at hx
    obtain ⟨j, hj, rfl⟩ := Option.map_eq_some_iff.mp hx
    obtain ⟨hi, rfl⟩ := List.getElem?_eq_some_iff.mp hj
    rw [List.getElem_range]
    have ih := holds_buildFromParsedShape next dims (after next g (i * dims.prod))
    refine ⟨ih.levels, fun idx hidx => ?_⟩
    rw [ih.elements idx hidx, yielded, after_add]
    rfl

end Generators

/-! ### One value for all elements -/

/-- The three builders of packed values: the last level is packed at once. -/
def buildFilled (fill : Value) (pack : Nat → Value) : List Nat → Value
  | [] => fill
  | [n] => pack n
  | n :: d :: rest => .list (List.replicate n (buildFilled fill pack (d :: rest)))

def buildFilledIntShape (shape : List Nat) (fill : Int64) : Value :=
  buildFilled (.int fill) (fun n => .intList (List.replicate n fill)) shape

def buildFilledBoolShape (shape : List Nat) (fill : Bool) : Value :=
  buildFilled (.bool fill) (fun n => .boolList (List.replicate n fill)) shape

def buildFilledFloatShape (shape : List Nat) (fill : F64) : Value :=
  buildFilled (.float fill) (fun n => .floatList (List.replicate n fill)) shape

/-- `build_filled_shape`. -/
def buildFilledShape (shape : List Nat) : Value → Option Value
  | .int n => some (buildFilledIntShape shape n)
  | .bool b => some (buildFilledBoolShape shape b)
  | .float f => some (buildFilledFloatShape shape f)
  | _ => none

theorem holds_replicate {n : Nat} {dims : List Nat} {fill v x : Value} (hlist : v.isList = true)
    (hitems : v.containerItems = List.replicate n x) (hx : Holds dims (fun _ => fill) x) :
    Holds (n :: dims) (fun _ => fill) v := by
  refine holds_cons hlist (by rw [hitems, List.length_replicate]) fun i y hy => ?_
  rw [hitems, List.getElem?_replicate] at hy
  by_cases hi : i < n
  · rw [if_pos hi] at hy
    exact Option.some.inj hy ▸ hx
  · rw [if_neg hi] at hy
    cases hy

theorem holds_buildFilled {fill : Value} {pack : Nat → Value} (hlist : ∀ n, (pack n).isList = true)
    (hpack : ∀ n, (pack n).containerItems = List.replicate n fill) :
    ∀ dims : List Nat, Holds dims (fun _ => fill) (buildFilled fill pack dims)
  | [] => holds_nil rfl
  | [n] => holds_replicate (hlist n) (hpack n) (holds_nil rfl)
  | _ :: d :: dims => holds_replicate rfl rfl (holds_buildFilled hlist hpack (d :: dims))

/-- **Packed values** hold the fill at each index. -/
theorem holds_buildFilledShape {dims : List Nat} {fill v : Value}
    (h : buildFilledShape dims fill = some v) : Holds dims (fun _ => fill) v := by
  cases fill with
  | int m | bool m | float m =>
    obtain rfl := Option.some.inj h
    refine holds_buildFilled (fun _ => rfl) (fun n => ?_) dims
    exact List.map_replicate
  | _ => cases h

/-! ### Paths -/

/-- A position as an integer. The positions of a vector in memory fit 64 bits, so the
conversion of the source does not fail. -/
def position (i : Nat) : Int64 := Int64.ofNat i

/-- `build_coords`, below a path. -/
def buildCoords : List Nat → List Nat → Value
  | [], path => .intList (path.map position)
  | n :: dims, path => .list ((List.range n).map fun i => buildCoords dims (path ++ [i]))

/-- **Paths.** Each index holds its path. -/
theorem holds_buildCoords : ∀ (dims path : List Nat),
    Holds dims (fun idx => .intList ((path ++ idx).map position)) (buildCoords dims path)
  | [], path => holds_nil (by rw [List.append_nil]; rfl)
  | n :: dims, path => by
    have hitems : (buildCoords (n :: dims) path).containerItems =
        (List.range n).map fun i => buildCoords dims (path ++ [i]) := rfl
    refine holds_cons rfl (by rw [hitems, List.length_map, List.length_range]) fun i x hx => ?_
    rw [hitems, List.getElem?_map] at hx
    obtain ⟨j, hj, rfl⟩ := Option.map_eq_some_iff.mp hx
    obtain ⟨hi, rfl⟩ := List.getElem?_eq_some_iff.mp hj
    rw [List.getElem_range]
    have ih := holds_buildCoords dims (path ++ [i])
    refine ⟨ih.levels, fun idx hidx => ?_⟩
    rw [ih.elements idx hidx, List.append_assoc]
    rfl

end ListGen

end Wqpl
