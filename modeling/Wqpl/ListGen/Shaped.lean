/-
# Shaped construction

`til`, `iota`, `alloc` and `reshape` build values of a shape. The results are kept
in a cache under their shape; a full cache is emptied before the next insertion.
What the cache holds under a key is what the key stands for (`Coherent`), so a call
gives the same with any history. The elements of the results are in row-major order
(`shaped_construction`).

Key definitions: `parseShape`, `til`, `iota`, `alloc`, `reshape`, `flatten`,
`Coherent`.
-/
import Wqpl.Access.Assign
import Wqpl.ListGen.Where

namespace Wqpl

namespace ListGen

open Value

/-! ### Shapes and the cache -/

/-- `parse_shape`. -/
def parseShape (v : Value) : WqResult (List Nat) :=
  match exactIntSeq v with
  | none => .error .domain
  | some dims => dims.mapM fun d => if 0 ≤ d.toInt then .ok d.toInt.toNat else .error .domain

inductive ListGenKey
  | till (shape : List Int64)
  | alloc (shape : List Int64) (fill : Option Int64)
  | iota (shape : List Int64)
deriving DecidableEq, Repr

abbrev Cache := List (ListGenKey × Value)

/-- `LISTGEN_CACHE_CAPACITY`. -/
def cacheCapacity : Nat := 1024

def cacheInsert (cache : Cache) (key : ListGenKey) (value : Value) : Cache :=
  IndexMap.insert (if cacheCapacity ≤ cache.length then [] else cache) key value

/-- The value under a key, computed and inserted if it is not there. -/
def cached (key : ListGenKey) (value : Value) (cache : Cache) : WqResult Value × Cache :=
  match IndexMap.get? cache key with
  | some v => (.ok v, cache)
  | none => (.ok value, cacheInsert cache key value)

/-! ### The builders -/

/-- `0..n`. -/
def upTo (n : Int64) : IntRangeData where
  start := 0
  step := 1
  len := n.toInt.toNat
  fits i hi := by
    have := n.toInt_lt
    constructor
    · simp
    · simp
      omega

def tilNext (n : Int64) : Value × Int64 := (.int n, n + 1)

def til (arg : Value) (cache : Cache) : WqResult Value × Cache :=
  match arg with
  | .int n =>
    if 0 ≤ n.toInt then (.ok (.intRange (upTo n)), cache) else (.error .domain, cache)
  | arg =>
    match parseShape arg, exactIntSeq arg with
    | .error e, _ => (.error e, cache)
    | .ok [], _ => (.ok (.int 0), cache)
    | .ok dims, some shape => cached (.till shape) (buildFromParsedShape tilNext dims 0).1 cache
    | .ok dims, none => (.ok (buildFromParsedShape tilNext dims 0).1, cache)

def iota (arg : Value) (cache : Cache) : WqResult Value × Cache :=
  match arg with
  | .int n =>
    if 0 ≤ n.toInt then (.ok (.intRange (upTo n)), cache) else (.error .domain, cache)
  | arg =>
    match parseShape arg, exactIntSeq arg with
    | .error e, _ => (.error e, cache)
    | .ok [], _ => (.ok (.intList []), cache)
    | .ok dims, some shape => cached (.iota shape) (buildCoords dims []) cache
    | .ok dims, none => (.ok (buildCoords dims []), cache)

/-- Without a fill, zeros. -/
def alloc (shape : Value) (fill : Option Value) (cache : Cache) : WqResult Value × Cache :=
  let fill := fill.getD (.int 0)
  match parseShape shape with
  | .error e => (.error e, cache)
  | .ok dims =>
    match exactIntSeq shape, fill with
    | some s, .int f => cached (.alloc s (some f)) (buildFilledIntShape dims f) cache
    | _, fill =>
      match buildFilledShape dims fill with
      | some v => (.ok v, cache)
      | none => (.ok (buildFromParsedShape (fun g : Unit => (fill, g)) dims ()).1, cache)

theorem sizeOf_append (xs ys : List Value) : sizeOf (xs ++ ys) + 1 = sizeOf xs + sizeOf ys := by
  induction xs with
  | nil => simp [Nat.add_comm]
  | cons x xs ih =>
    simp only [List.cons_append, List.cons.sizeOf_spec]
    omega

/-- The loop of `flatten`, with the top of its stack first. -/
def flattenStack : List Value → List Value
  | [] => []
  | .list items :: stack => flattenStack (items ++ stack)
  | .string s :: stack => s.toList.map .char ++ flattenStack stack
  | .intList items :: stack => items.map .int ++ flattenStack stack
  | .intRange range :: stack => range.toVec.map .int ++ flattenStack stack
  | .boolList items :: stack => items.map .bool ++ flattenStack stack
  | .floatList items :: stack => items.map .float ++ flattenStack stack
  | other :: stack => other :: flattenStack stack
termination_by stack => sizeOf stack
decreasing_by
  · have := sizeOf_append items stack
    simp_wf
    omega
  all_goals
    simp_wf
    try omega

def flatten (v : Value) : List Value := flattenStack [v]

/-- The flattened values in turn, over and over. -/
def reshapeNext (flattened : List Value) (i : Nat) : Value × Nat :=
  (flattened.getD i emptyList, if i + 1 = flattened.length then 0 else i + 1)

def reshape (v shape : Value) : WqResult Value := do
  let dims ← parseShape shape
  if (flatten v).isEmpty then return (buildFromParsedShape (fun g : Unit => (.int 0, g)) dims ()).1
  else return (buildFromParsedShape (reshapeNext (flatten v)) dims 0).1

/-! ### The cache -/

def dimsOf (shape : List Int64) : List Nat := shape.map fun d => d.toInt.toNat

/-- What a key stands for. -/
def fresh : ListGenKey → Value
  | .till shape => (buildFromParsedShape tilNext (dimsOf shape) 0).1
  | .alloc shape fill => buildFilledIntShape (dimsOf shape) (fill.getD 0)
  | .iota shape => buildCoords (dimsOf shape) []

/-- The cache holds under each key what the key stands for. -/
def Coherent (cache : Cache) : Prop :=
  ∀ key v, IndexMap.get? cache key = some v → v = fresh key

theorem coherent_cacheInsert {cache : Cache} (h : Coherent cache) (key : ListGenKey) :
    Coherent (cacheInsert cache key (fresh key)) := by
  have hcleared : Coherent (if cacheCapacity ≤ cache.length then [] else cache) := by
    by_cases hfull : cacheCapacity ≤ cache.length
    · rw [if_pos hfull]
      exact fun _ _ hget => nomatch hget
    · rwa [if_neg hfull]
  intro key' v hget
  rw [cacheInsert, IndexMap.get?_insert] at hget
  by_cases hkey : key = key'
  · rw [if_pos hkey] at hget
    rw [← Option.some.inj hget, hkey]
  · rw [if_neg hkey] at hget
    exact hcleared key' v hget

/-- With a coherent cache, a key gives what it stands for. -/
theorem cached_fresh {cache : Cache} (h : Coherent cache) (key : ListGenKey) :
    (cached key (fresh key) cache).1 = .ok (fresh key) ∧
      Coherent (cached key (fresh key) cache).2 := by
  unfold cached
  cases hget : IndexMap.get? cache key with
  | some v => exact ⟨congrArg Except.ok (h key v hget), h⟩
  | none => exact ⟨rfl, coherent_cacheInsert h key⟩

/-- A call gives a value, from the cache or without it. -/
def Gives (call : Cache → WqResult Value × Cache) (v : Value) : Prop :=
  (∀ cache, call cache = (.ok v, cache)) ∨
    ∃ key, v = fresh key ∧ ∀ cache, call cache = cached key v cache

/-- A call gives a value or fails. -/
def Determined (call : Cache → WqResult Value × Cache) : Prop :=
  (∃ v, Gives call v) ∨ ∃ e, ∀ cache, call cache = (.error e, cache)

theorem Gives.spec {call : Cache → WqResult Value × Cache} {v : Value} (h : Gives call v)
    {cache : Cache} (hcache : Coherent cache) :
    (call cache).1 = .ok v ∧ Coherent (call cache).2 := by
  obtain hv | ⟨key, rfl, hkey⟩ := h
  · rw [hv]
    exact ⟨rfl, hcache⟩
  · rw [hkey]
    exact cached_fresh hcache key

theorem coherent_nil : Coherent [] := fun _ _ h => nomatch h

theorem Determined.spec {call : Cache → WqResult Value × Cache} (h : Determined call)
    {cache : Cache} (hcache : Coherent cache) :
    (call cache).1 = (call []).1 ∧ Coherent (call cache).2 := by
  obtain ⟨v, hv⟩ | ⟨e, he⟩ := h
  · exact ⟨(hv.spec hcache).1.trans (hv.spec coherent_nil).1.symm, (hv.spec hcache).2⟩
  · rw [he, he]
    exact ⟨rfl, hcache⟩

/-! ### Parsed shapes -/

/-- A shape is made of the integers read, none of them negative. -/
theorem parseShape_ok {v : Value} {dims : List Nat} (h : parseShape v = .ok dims) :
    ∃ shape, exactIntSeq v = some shape ∧ dims = dimsOf shape ∧ ∀ d ∈ shape, 0 ≤ d.toInt := by
  unfold parseShape at h
  cases hseq : exactIntSeq v with
  | none =>
    rw [hseq] at h
    cases h
  | some shape =>
    rw [hseq] at h
    refine ⟨shape, rfl, ?_⟩
    have hforall := mapM_ok_iff.mp h
    clear h hseq
    induction hforall with
    | nil => exact ⟨rfl, fun d hd => absurd hd List.not_mem_nil⟩
    | @cons d n shape dims hd _ ih =>
      obtain ⟨hdims, hall⟩ := ih
      by_cases hpos : 0 ≤ d.toInt
      · rw [if_pos hpos] at hd
        refine ⟨?_, List.forall_mem_cons.mpr ⟨hpos, hall⟩⟩
        rw [dimsOf, List.map_cons, hdims, ← Except.ok.inj hd]
        rfl
      · rw [if_neg hpos] at hd
        cases hd

/-! ### What the builders give -/

section Builders

variable {w : Value} {dims : List Nat}

theorem parseShape_int {n : Int64} (h : parseShape (.int n) = .ok dims) :
    0 ≤ n.toInt ∧ dims = [n.toInt.toNat] := by
  obtain ⟨shape, hshape, rfl, hpos⟩ := parseShape_ok h
  obtain rfl := Option.some.inj hshape
  exact ⟨hpos n (List.mem_singleton_self n), rfl⟩

theorem til_of_not_int (hw : ∀ n, w ≠ .int n) (cache : Cache) : til w cache =
    match parseShape w, exactIntSeq w with
    | .error e, _ => (.error e, cache)
    | .ok [], _ => (.ok (.int 0), cache)
    | .ok dims, some shape => cached (.till shape) (buildFromParsedShape tilNext dims 0).1 cache
    | .ok dims, none => (.ok (buildFromParsedShape tilNext dims 0).1, cache) := by
  cases w <;> first | rfl | exact absurd rfl (hw _)

theorem iota_of_not_int (hw : ∀ n, w ≠ .int n) (cache : Cache) : iota w cache =
    match parseShape w, exactIntSeq w with
    | .error e, _ => (.error e, cache)
    | .ok [], _ => (.ok (.intList []), cache)
    | .ok dims, some shape => cached (.iota shape) (buildCoords dims []) cache
    | .ok dims, none => (.ok (buildCoords dims []), cache) := by
  cases w <;> first | rfl | exact absurd rfl (hw _)

theorem til_gives (hw : ∀ n, w ≠ .int n) (h : parseShape w = .ok dims) :
    Gives (til w) (buildFromParsedShape tilNext dims 0).1 := by
  obtain ⟨shape, hshape, hdims, -⟩ := parseShape_ok h
  cases dims with
  | nil =>
    refine .inl fun cache => ?_
    rw [til_of_not_int hw, h, hshape]
    rfl
  | cons d dims =>
    refine .inr ⟨.till shape, by rw [fresh, ← hdims], fun cache => ?_⟩
    rw [til_of_not_int hw, h, hshape]

theorem iota_gives (hw : ∀ n, w ≠ .int n) (h : parseShape w = .ok dims) :
    Gives (iota w) (buildCoords dims []) := by
  obtain ⟨shape, hshape, hdims, -⟩ := parseShape_ok h
  cases dims with
  | nil =>
    refine .inl fun cache => ?_
    rw [iota_of_not_int hw, h, hshape]
    rfl
  | cons d dims =>
    refine .inr ⟨.iota shape, by rw [fresh, ← hdims], fun cache => ?_⟩
    rw [iota_of_not_int hw, h, hshape]

/-- A single dimension as an integer gives a range. -/
theorem til_int {n : Int64} (hn : 0 ≤ n.toInt) (cache : Cache) :
    til (.int n) cache = (.ok (.intRange (upTo n)), cache) := if_pos hn

theorem iota_int {n : Int64} (hn : 0 ≤ n.toInt) (cache : Cache) :
    iota (.int n) cache = (.ok (.intRange (upTo n)), cache) := if_pos hn

theorem alloc_gives (fill : Option Value) (h : parseShape w = .ok dims) :
    ∃ v, Gives (alloc w fill) v ∧ Holds dims (fun _ => fill.getD (.int 0)) v := by
  obtain ⟨shape, hshape, hdims, -⟩ := parseShape_ok h
  have hmatch : ∀ cache, alloc w fill cache =
      match fill.getD (.int 0) with
      | .int f => cached (.alloc shape (some f)) (buildFilledIntShape dims f) cache
      | fill =>
        match buildFilledShape dims fill with
        | some v => (.ok v, cache)
        | none => (.ok (buildFromParsedShape (fun g : Unit => (fill, g)) dims ()).1, cache) := by
    intro cache
    unfold alloc
    rw [h, hshape]
    cases fill.getD (.int 0) <;> rfl
  by_cases hint : ∃ f, fill.getD (.int 0) = .int f
  · obtain ⟨f, hf⟩ := hint
    rw [hf]
    refine ⟨buildFilledIntShape dims f, .inr ⟨.alloc shape (some f), by rw [fresh, ← hdims]; rfl,
      fun cache => ?_⟩, holds_buildFilledShape rfl⟩
    rw [hmatch, hf]
  · generalize hfill : fill.getD (.int 0) = x at hmatch hint
    have hother : ∀ cache, alloc w fill cache =
        match buildFilledShape dims x with
        | some v => (.ok v, cache)
        | none => (.ok (buildFromParsedShape (fun g : Unit => (x, g)) dims ()).1, cache) := by
      intro cache
      rw [hmatch]
      cases x <;> first | rfl | exact absurd ⟨_, rfl⟩ hint
    cases hbuild : buildFilledShape dims x with
    | some v =>
      refine ⟨v, .inl fun cache => ?_, holds_buildFilledShape hbuild⟩
      rw [hother, hbuild]
    | none =>
      refine ⟨_, .inl fun cache => ?_, holds_buildFromParsedShape (fun g : Unit => (x, g)) dims ()⟩
      rw [hother, hbuild]

theorem determined_til (w : Value) : Determined (til w) := by
  by_cases hw : ∃ n, w = .int n
  · obtain ⟨n, rfl⟩ := hw
    by_cases hn : 0 ≤ n.toInt
    · exact .inl ⟨_, .inl (til_int hn)⟩
    · exact .inr ⟨.domain, fun cache => if_neg hn⟩
  · have hw : ∀ n, w ≠ .int n := fun n h => hw ⟨n, h⟩
    cases h : parseShape w with
    | ok dims => exact .inl ⟨_, til_gives hw h⟩
    | error e => exact .inr ⟨e, fun cache => by rw [til_of_not_int hw, h]⟩

theorem determined_iota (w : Value) : Determined (iota w) := by
  by_cases hw : ∃ n, w = .int n
  · obtain ⟨n, rfl⟩ := hw
    by_cases hn : 0 ≤ n.toInt
    · exact .inl ⟨_, .inl (iota_int hn)⟩
    · exact .inr ⟨.domain, fun cache => if_neg hn⟩
  · have hw : ∀ n, w ≠ .int n := fun n h => hw ⟨n, h⟩
    cases h : parseShape w with
    | ok dims => exact .inl ⟨_, iota_gives hw h⟩
    | error e => exact .inr ⟨e, fun cache => by rw [iota_of_not_int hw, h]⟩

theorem determined_alloc (w : Value) (fill : Option Value) : Determined (alloc w fill) := by
  cases h : parseShape w with
  | ok dims =>
    obtain ⟨v, hv, -⟩ := alloc_gives fill h
    exact .inl ⟨v, hv⟩
  | error e => exact .inr ⟨e, fun cache => by unfold alloc; rw [h]⟩

end Builders

/-! ### Elements -/

theorem after_tilNext (k : Nat) : after tilNext 0 k = position k := by
  induction k with
  | zero => rfl
  | succ k ih =>
    rw [after, Function.iterate_succ_apply', ← after, ih]
    exact (Int64.ofNat_add k 1).symm

theorem yielded_tilNext (k : Nat) : yielded tilNext 0 k = .int (position k) := by
  rw [yielded, after_tilNext]
  rfl

theorem after_reshapeNext {flattened : List Value} (h : flattened ≠ []) (k : Nat) :
    after (reshapeNext flattened) 0 k = k % flattened.length := by
  have hpos := List.length_pos_iff.mpr h
  induction k with
  | zero => exact (Nat.zero_mod _).symm
  | succ k ih =>
    rw [after, Function.iterate_succ_apply', ← after, ih]
    have hlt := Nat.mod_lt k hpos
    show (if k % flattened.length + 1 = flattened.length then 0 else k % flattened.length + 1) = _
    rw [← Nat.mod_add_mod k flattened.length 1]
    by_cases hend : k % flattened.length + 1 = flattened.length
    · rw [if_pos hend, hend, Nat.mod_self]
    · rw [if_neg hend]
      exact (Nat.mod_eq_of_lt (by omega)).symm

/-- The range up to `n` holds each index. -/
theorem holds_upTo {n : Int64} (f : List Nat → Value) (hf : ∀ i, f [i] = .int (position i)) :
    Holds [n.toInt.toNat] f (.intRange (upTo n)) := by
  have hitems : (Value.intRange (upTo n)).containerItems =
      (List.range n.toInt.toNat).map fun i => Value.int (position i) := by
    show (upTo n).toVec.map Value.int = _
    rw [IntRangeData.toVec, List.map_map]
    refine List.map_congr_left fun i _ => ?_
    show Value.int (Int64.ofInt (0 + 1 * i)) = .int (Int64.ofNat i)
    rw [Int.zero_add, Int.one_mul]
    rfl
  refine holds_cons rfl (by rw [hitems, List.length_map, List.length_range]) fun i x hx => ?_
  rw [hitems, List.getElem?_map] at hx
  obtain ⟨j, hj, rfl⟩ := Option.map_eq_some_iff.mp hx
  obtain ⟨hi, rfl⟩ := List.getElem?_eq_some_iff.mp hj
  rw [List.getElem_range]
  exact holds_nil (hf i).symm

theorem reshape_holds {v w : Value} {dims : List Nat} (hv : flatten v ≠ [])
    (hw : parseShape w = .ok dims) :
    ∃ r, reshape v w = .ok r ∧
      Holds dims (fun idx =>
        (flatten v).getD (rowMajor dims idx % (flatten v).length) emptyList) r := by
  have hempty : ¬(flatten v).isEmpty = true := fun h => hv (List.isEmpty_iff.mp h)
  refine ⟨(buildFromParsedShape (reshapeNext (flatten v)) dims 0).1, ?_, ?_⟩
  · have hrun : reshape v w =
        if (flatten v).isEmpty then
          .ok (buildFromParsedShape (fun g : Unit => (.int 0, g)) dims ()).1
        else .ok (buildFromParsedShape (reshapeNext (flatten v)) dims 0).1 := by
      rw [reshape, hw]
      rfl
    rw [hrun, if_neg hempty]
  · have hholds := holds_buildFromParsedShape (reshapeNext (flatten v)) dims 0
    refine ⟨hholds.levels, fun idx hidx => ?_⟩
    rw [hholds.elements idx hidx, yielded, after_reshapeNext hv]
    rfl

/-! ### Flattening -/

/-- What is left on the stack is flattened after its top. -/
theorem flattenStack_append (xs ys : List Value) :
    flattenStack (xs ++ ys) = flattenStack xs ++ flattenStack ys := by
  induction xs using flattenStack.induct with
  | case1 => rw [List.nil_append, flattenStack, List.nil_append]
  | case2 items stack ih =>
    rw [List.cons_append, flattenStack, flattenStack, ← ih, List.append_assoc]
  | case3 s stack ih | case4 items stack ih | case5 range stack ih | case6 items stack ih
  | case7 items stack ih =>
    rw [List.cons_append, flattenStack, flattenStack, ih, List.append_assoc]
  | case8 other stack h₁ h₂ h₃ h₄ h₅ h₆ ih =>
    rw [List.cons_append, flattenStack, flattenStack, ih, List.cons_append] <;> assumption

theorem flattenStack_eq : ∀ xs : List Value, flattenStack xs = xs.flatMap flatten := by
  intro xs
  induction xs with
  | nil => rw [flattenStack, List.flatMap_nil]
  | cons x xs ih =>
    rw [← List.singleton_append, flattenStack_append, ih, List.flatMap_append,
      List.flatMap_singleton, flatten]

/-- Atoms and dictionaries are single items. -/
theorem flatten_of_not_isList {v : Value} (h : v.isList = false) : flatten v = [v] := by
  cases v with
  | list _ | intList _ | intRange _ | floatList _ | boolList _ | string _ => cases h
  | _ => rw [flatten, flattenStack, flattenStack] <;> exact nofun

theorem flatMap_flatten_self : ∀ {xs : List Value}, (∀ x ∈ xs, x.isList = false) →
    xs.flatMap flatten = xs
  | [], _ => rfl
  | x :: xs, h => by
    rw [List.flatMap_cons, flatten_of_not_isList (h x List.mem_cons_self),
      flatMap_flatten_self fun y hy => h y (List.mem_cons_of_mem x hy), List.singleton_append]

theorem isList_of_isAtom {v : Value} (h : v.isAtom = true) : v.isList = false := by
  cases v <;> first | rfl | cases h

/-- A list is flattened item by item. -/
theorem flatten_list {v : Value} (h : v.isList = true) :
    flatten v = v.containerItems.flatMap flatten := by
  have hpacked : ∀ {α : Type} {wrap : α → Value} (items : List α),
      (∀ x, (wrap x).isList = false) → (items.map wrap).flatMap flatten = items.map wrap := by
    intro α wrap items hwrap
    refine flatMap_flatten_self fun x hx => ?_
    obtain ⟨y, -, rfl⟩ := List.mem_map.mp hx
    exact hwrap y
  cases v with
  | list items => rw [flatten, flattenStack, List.append_nil, flattenStack_eq]; rfl
  | intList items | intRange items | floatList items | boolList items | string items =>
    rw [flatten, flattenStack, flattenStack, List.append_nil]
    exact (hpacked _ fun _ => rfl).symm
  | _ => cases h

theorem isList_of_not_isAtom {v : Value} (ha : v.isAtom = false) (hd : v.isDict = false) :
    v.isList = true := by
  cases v with
  | list _ | intList _ | intRange _ | floatList _ | boolList _ | string _ => rfl
  | dict _ => cases hd
  | _ => cases ha

/-- Blocks of one length side by side. -/
theorem getElem?_flatMap {α β : Type} (f : α → List β) {p : Nat} : ∀ {xs : List α}
    (_ : ∀ x ∈ xs, (f x).length = p) {i j : Nat} (_ : j < p),
    (xs.flatMap f)[i * p + j]? = (xs[i]?).bind fun x => (f x)[j]?
  | [], _, _, _, _ => rfl
  | x :: xs, hp, i, j, hj => by
    have hx := hp x List.mem_cons_self
    rw [List.flatMap_cons]
    cases i with
    | zero => rw [Nat.zero_mul, Nat.zero_add, List.getElem?_append_left (by omega)]; rfl
    | succ i =>
      have ih := @getElem?_flatMap α β f p xs (fun y hy => hp y (List.mem_cons_of_mem x hy)) i j hj
      have hsub : (i + 1) * p + j - (f x).length = i * p + j := by
        rw [Nat.succ_mul]
        omega
      rw [List.getElem?_append_right (by rw [Nat.succ_mul]; omega), hsub, ih]
      rfl

/-- **The flattening is in row-major order.** -/
theorem flatten_elements : ∀ {s : List Nat} {v : Value}, HasShape s v → NoDict s v →
    (flatten v).length = s.prod ∧
      ∀ idx, InShape s idx → elementAt v idx = (flatten v)[rowMajor s idx]?
  | [], v, hv, _ => by
    rw [flatten_of_not_isList (isList_of_isAtom hv)]
    refine ⟨rfl, fun idx hidx => ?_⟩
    obtain rfl := inShape_nil.mp hidx
    rfl
  | n :: s, v, hv, hd => by
    obtain ⟨ha, hlen, hitems⟩ := hv
    have hparts : ∀ x ∈ v.containerItems, (flatten x).length = s.prod ∧
        ∀ idx, InShape s idx → elementAt x idx = (flatten x)[rowMajor s idx]? :=
      fun x hx => flatten_elements (hitems x hx) (hd.2 x hx)
    rw [flatten_list (isList_of_not_isAtom ha hd.1)]
    constructor
    · rw [List.length_flatMap, List.map_congr_left fun x hx => (hparts x hx).1, List.map_const',
        List.sum_replicate_nat, hlen, List.prod_cons]
    · intro idx hidx
      obtain ⟨i, rest, rfl, hi, hrest⟩ := exists_of_inShape_cons hidx
      rw [rowMajor, getElem?_flatMap flatten (fun x hx => (hparts x hx).1) (rowMajor_lt hrest),
        elementAt]
      have hx : v.containerItems[i]? = some v.containerItems[i] := List.getElem?_eq_getElem _
      rw [hx]
      exact (hparts _ (List.getElem_mem _)).2 rest hrest

theorem isList_of_mem_flattenStack {x : Value} (xs : List Value) :
    x ∈ flattenStack xs → x.isList = false := by
  have hpacked : ∀ {α : Type} {wrap : α → Value} {items : List α} {rest : List Value},
      (∀ y, (wrap y).isList = false) → (x ∈ rest → x.isList = false) →
      x ∈ items.map wrap ++ rest → x.isList = false := by
    intro α wrap items rest hwrap hrest hx
    rcases List.mem_append.mp hx with hx | hx
    · obtain ⟨y, -, rfl⟩ := List.mem_map.mp hx
      exact hwrap y
    · exact hrest hx
  induction xs using flattenStack.induct with
  | case1 =>
    rw [flattenStack]
    exact fun h => absurd h List.not_mem_nil
  | case2 items stack ih =>
    rw [flattenStack]
    exact ih
  | case3 s stack ih | case4 items stack ih | case5 range stack ih | case6 items stack ih
  | case7 items stack ih =>
    rw [flattenStack]
    exact hpacked (fun _ => rfl) ih
  | case8 other stack h₁ h₂ h₃ h₄ h₅ h₆ ih =>
    intro hx
    rw [flattenStack] at hx
    · rcases List.mem_cons.mp hx with rfl | hx
      · cases x with
        | list _ => exact absurd rfl (h₁ _)
        | string _ => exact absurd rfl (h₂ _)
        | intList _ => exact absurd rfl (h₃ _)
        | intRange _ => exact absurd rfl (h₄ _)
        | boolList _ => exact absurd rfl (h₅ _)
        | floatList _ => exact absurd rfl (h₆ _)
        | _ => rfl
      · exact ih hx
    all_goals assumption

/-- A flattened value is flat. -/
theorem flatten_fromItems (v : Value) : flatten (fromItems (flatten v)) = flatten v := by
  rw [flatten_list (isList_fromItems _), containerItems_fromItems]
  exact flatMap_flatten_self fun x hx => isList_of_mem_flattenStack [v] hx

/-- Lists down to atoms. -/
theorem hasShape_of_levels : ∀ {s : List Nat} {r : Value}, Levels s r →
    (∀ idx, InShape s idx → ∃ x, elementAt r idx = some x ∧ x.isAtom = true) →
    HasShape s r ∧ NoDict s r
  | [], r, _, h => by
    obtain ⟨x, hx, hatom⟩ := h [] .nil
    obtain rfl := Option.some.inj hx
    exact ⟨hatom, trivial⟩
  | n :: s, r, hlevels, h => by
    obtain ⟨hlist, hlen, hitems⟩ := hlevels
    have hparts : ∀ x ∈ r.containerItems, HasShape s x ∧ NoDict s x := by
      intro x hx
      refine hasShape_of_levels (hitems x hx) fun idx hidx => ?_
      obtain ⟨i, hi⟩ := List.getElem?_of_mem hx
      obtain ⟨hlt, -⟩ := List.getElem?_eq_some_iff.mp hi
      obtain ⟨y, hy, hatom⟩ := h (i :: idx) (inShape_cons.mpr ⟨hlen ▸ hlt, hidx⟩)
      rw [elementAt, hi] at hy
      exact ⟨y, hy, hatom⟩
    have hkind : r.isAtom = false ∧ r.isDict = false := by
      cases r <;> first | exact ⟨rfl, rfl⟩ | cases hlist
    exact ⟨⟨hkind.1, hlen, fun x hx => (hparts x hx).1⟩, hkind.2, fun x hx => (hparts x hx).2⟩

/-- **Back to the shape.** A value without dictionaries is its flattening in its shape. -/
theorem reshape_flatten {v w : Value} {s : List Nat} (hv : v.shapeUniform = some s) (hz : 0 ∉ s)
    (hd : NoDict s v) (hw : parseShape w = .ok s) :
    ∃ r, reshape (fromItems (flatten v)) w = .ok r ∧ r.eq v = true := by
  have hshape := (shapeUniform_iff hz v).mp hv
  obtain ⟨hlen, helements⟩ := flatten_elements hshape hd
  have hne : flatten v ≠ [] := by
    obtain ⟨idx, hidx⟩ := exists_inShape hz
    have hlt := rowMajor_lt hidx
    intro hnil
    rw [hnil] at hlen
    rw [← hlen] at hlt
    exact Nat.not_lt_zero _ hlt
  obtain ⟨r, hr, hholds⟩ := reshape_holds (v := fromItems (flatten v))
    (by rwa [flatten_fromItems]) hw
  rw [flatten_fromItems] at hholds
  have helement : ∀ idx, InShape s idx → elementAt r idx = elementAt v idx := by
    intro idx hidx
    have hlt := rowMajor_lt hidx
    rw [hholds.elements idx hidx, helements idx hidx, hlen, Nat.mod_eq_of_lt hlt,
      List.getD_eq_getElem?_getD, List.getElem?_eq_getElem (by omega)]
    rfl
  obtain ⟨hrshape, hrdict⟩ := hasShape_of_levels hholds.levels fun idx hidx => by
    rw [helement idx hidx]
    exact exists_elementAt hshape hidx
  exact ⟨r, hr, eq_of_elements hrshape hshape hrdict hd helement⟩

/-! ### Calls in any order -/

/-- A call of a builder that uses the cache. -/
inductive Call
  | til (arg : Value)
  | iota (arg : Value)
  | alloc (shape : Value) (fill : Option Value)

def Call.exec : Call → Cache → WqResult Value × Cache
  | .til arg => ListGen.til arg
  | .iota arg => ListGen.iota arg
  | .alloc shape fill => ListGen.alloc shape fill

/-- The cache after some calls. -/
def cacheAfter (calls : List Call) : Cache :=
  calls.foldl (fun cache call => (call.exec cache).2) []

theorem determined_exec (call : Call) : Determined call.exec := by
  cases call with
  | til arg => exact determined_til arg
  | iota arg => exact determined_iota arg
  | alloc shape fill => exact determined_alloc shape fill

/-- **The cache stays coherent** through any calls. -/
theorem coherent_cacheAfter (calls : List Call) : Coherent (cacheAfter calls) := by
  have hfold : ∀ (calls : List Call) (cache : Cache), Coherent cache →
      Coherent (calls.foldl (fun cache call => (call.exec cache).2) cache) := by
    intro calls
    induction calls with
    | nil => exact fun _ h => h
    | cons call calls ih =>
      intro cache h
      exact ih _ ((determined_exec call).spec h).2
  exact hfold calls [] coherent_nil

/-- Shapes are read by their integers only. -/
theorem exec_of_exactIntSeq {w w' : Value} (h : exactIntSeq w = exactIntSeq w')
    (hw : ∀ n, w ≠ .int n) (hw' : ∀ n, w' ≠ .int n) :
    til w = til w' ∧ iota w = iota w' ∧ (∀ fill, alloc w fill = alloc w' fill) ∧
      ∀ v, reshape v w = reshape v w' := by
  have hparse : parseShape w = parseShape w' := by unfold parseShape; rw [h]
  refine ⟨funext fun cache => ?_, funext fun cache => ?_, fun fill => funext fun cache => ?_,
    fun v => ?_⟩
  · rw [til_of_not_int hw, til_of_not_int hw', hparse, h]
  · rw [iota_of_not_int hw, iota_of_not_int hw', hparse, h]
  · unfold alloc
    rw [hparse, h]
  · rw [reshape, reshape, hparse]

/-- A path as `iota` writes it: an integer for a shape that is one. -/
def pathValue : Value → List Nat → Value
  | .int _, idx => pushCoord idx
  | _, idx => .intList (idx.map position)

theorem pathValue_of_not_int {w : Value} (hw : ∀ n, w ≠ .int n) (idx : List Nat) :
    pathValue w idx = .intList (idx.map position) := by
  cases w <;> first | rfl | exact absurd rfl (hw _)

/-- What the builders give for a shape, with a cache. -/
structure Builds (cache : Cache) (w : Value) (dims : List Nat) : Prop where
  /-- The numbers from 0 in row-major order. -/
  til : ∃ r, (til w cache).1 = .ok r ∧
    Holds dims (fun idx => .int (position (rowMajor dims idx))) r
  /-- The path at each path. -/
  iota : ∃ r, (iota w cache).1 = .ok r ∧ Holds dims (pathValue w) r
  alloc : ∀ fill, ∃ r, (alloc w fill cache).1 = .ok r ∧
    Holds dims (fun _ => fill.getD (.int 0)) r
  /-- The flattened elements in row-major order, over and over. -/
  reshape : ∀ v, flatten v ≠ [] → ∃ r, reshape v w = .ok r ∧
    Holds dims (fun idx => (flatten v).getD (rowMajor dims idx % (flatten v).length) emptyList) r
  reshape_flatten : ∀ v, v.shapeUniform = some dims → 0 ∉ dims → NoDict dims v →
    ∃ r, ListGen.reshape (fromItems (flatten v)) w = .ok r ∧ r.eq v = true

theorem builds_of_parseShape {w : Value} {dims : List Nat} (h : parseShape w = .ok dims)
    {cache : Cache} (hcache : Coherent cache) : Builds cache w dims where
  til := by
    by_cases hw : ∃ n, w = .int n
    · obtain ⟨n, rfl⟩ := hw
      obtain ⟨hn, rfl⟩ := parseShape_int h
      rw [til_int hn]
      refine ⟨_, rfl, holds_upTo _ fun i => ?_⟩
      rw [rowMajor, List.prod_nil, Nat.mul_one]
      rfl
    · refine ⟨_, ((til_gives (fun n hn => hw ⟨n, hn⟩) h).spec hcache).1, ?_⟩
      have hholds := holds_buildFromParsedShape tilNext dims 0
      exact ⟨hholds.levels, fun idx hidx => by rw [hholds.elements idx hidx, yielded_tilNext]⟩
  iota := by
    by_cases hw : ∃ n, w = .int n
    · obtain ⟨n, rfl⟩ := hw
      obtain ⟨hn, rfl⟩ := parseShape_int h
      rw [iota_int hn]
      exact ⟨_, rfl, holds_upTo _ fun i => rfl⟩
    · have hw : ∀ n, w ≠ .int n := fun n hn => hw ⟨n, hn⟩
      refine ⟨_, ((iota_gives hw h).spec hcache).1, ?_⟩
      have hholds := holds_buildCoords dims []
      refine ⟨hholds.levels, fun idx hidx => ?_⟩
      rw [hholds.elements idx hidx, pathValue_of_not_int hw, List.nil_append]
  alloc fill := by
    obtain ⟨v, hv, hholds⟩ := alloc_gives fill h
    exact ⟨v, (hv.spec hcache).1, hholds⟩
  reshape v hv := reshape_holds hv h
  reshape_flatten v hv hz hd := ListGen.reshape_flatten hv hz hd h

/-- **Shaped construction.** After any calls, the builders give for every shape what it says,
in row-major order; `where` gives the paths of the true leaves; no result depends on the calls
before it, nor on how a shape list is stored. -/
theorem shaped_construction (calls : List Call) :
    (∀ w dims, parseShape w = .ok dims → Builds (cacheAfter calls) w dims) ∧
    (∀ v : Value, v.isList = true → intBool v = true →
      (∃ r, wqWhere v = .ok r ∧ r.eq (.list ((truePaths v).map pushCoord)) = true) ∧
      (truePaths v).Pairwise (· < ·) ∧
      ∀ p, p ∈ truePaths v ↔ ∃ x, elementAt v p = some x ∧ isTrue x = true) ∧
    (∀ call : Call, (call.exec (cacheAfter calls)).1 = (call.exec []).1) ∧
    ∀ w w' : Value, exactIntSeq w = exactIntSeq w' → w.isList = true → w'.isList = true →
      til w = til w' ∧ iota w = iota w' ∧ (∀ fill, alloc w fill = alloc w' fill) ∧
        ∀ v, reshape v w = reshape v w' := by
  have hcache := coherent_cacheAfter calls
  refine ⟨fun w dims h => builds_of_parseShape h hcache, fun v hlist hint => ?_,
    fun call => ((determined_exec call).spec hcache).1, fun w w' h hw hw' => ?_⟩
  · exact ⟨wqWhere_paths hlist hint, pairwise_truePaths v, fun p => mem_truePaths hint⟩
  · refine exec_of_exactIntSeq h ?_ ?_
    · rintro n rfl
      cases hw
    · rintro n rfl
      cases hw'

/-- A dictionary has a shape, but it is a single item of its flattening. -/
theorem reshape_flatten_dict :
    shapeUniform (.dict [("a", .int 1), ("b", .int 2)]) = some [2] ∧
      ¬∃ r, reshape (fromItems (flatten (.dict [("a", .int 1), ("b", .int 2)]))) (.intList [2]) =
        .ok r ∧ r.eq (.dict [("a", .int 1), ("b", .int 2)]) = true := by
  refine ⟨by decide, ?_⟩
  rintro ⟨r, hr, heq⟩
  have hne : flatten (.dict [("a", .int 1), ("b", .int 2)]) ≠ [] := by
    rw [flatten_of_not_isList rfl]
    exact nofun
  have hw : parseShape (.intList [2]) = .ok [2] := rfl
  obtain ⟨r', hr', hholds⟩ := reshape_holds (by rwa [flatten_fromItems]) hw
  obtain rfl := Except.ok.inj (hr.symm.trans hr')
  have hlist := hholds.levels.1
  rw [eq_iff] at heq
  cases r with
  | list _ | intList _ | intRange _ | floatList _ | boolList _ | string _ => cases heq
  | _ => cases hlist

end ListGen

end Wqpl
