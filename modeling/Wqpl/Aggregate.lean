/-
# Aggregates

The sum and the product of a packed list of integers are accumulated in a machine
integer for as long as it holds the result, and then in a big one; a list longer
than 2000 is cut into chunks. The accumulator is measured by the integer it
stands for, so that neither the chunks nor an overflow show
(`sumExactIntSeq_eq`). A general list is added up by the operator of the language.

Key definitions: `sum`, `product`, `extreme`, `AggregateMeets`.
Key theorem: `aggregateMeets_iff`.
-/
import Wqpl.Arith.FloorDivision
import Wqpl.Compare
import Wqpl.FoldReduce
import Wqpl.Hash

namespace Wqpl

/-! ### Integers -/

/-- `ExactIntSeq`, as far as a packed value is one. -/
inductive ExactIntSeq
  | packedSlice (items : List Int64)
  | packedRange (range : IntRangeData)

def ExactIntSeq.toVec : ExactIntSeq → List Int64
  | packedSlice items => items
  | packedRange range => range.toVec

/-- The accumulator of an exact operation: a machine integer, or a big one instead. -/
abbrev Exact := Int64 × Option Int

namespace Exact

variable (op : Int → Int → Int)

/-- The closure of the loop, where a machine integer that overflowed stays. -/
def loop : Exact → Int64 → Exact
  | (accI, some b), n => (accI, some (op b n.toInt))
  | (accI, none), n =>
    match i64? (op accI.toInt n.toInt) with
    | some s => (s, none)
    | none => (accI, some (op accI.toInt n.toInt))

/-- The closure of `fold`. -/
def fold (identity : Int64) : Exact → Int64 → Exact
  | (accI, some b), n => (accI, some (op b n.toInt))
  | (accI, none), n =>
    match i64? (op accI.toInt n.toInt) with
    | some s => (s, none)
    | none => (identity, some (op accI.toInt n.toInt))

/-- The closure of `reduce`. -/
def reduce (identity : Int64) : Exact → Exact → Exact
  | (_, some a), (_, some b) => (identity, some (op a b))
  | (_, some a), (bI, none) => (identity, some (op a bI.toInt))
  | (aI, none), (_, some b) => (identity, some (op b aI.toInt))
  | (aI, none), (bI, none) =>
    match i64? (op aI.toInt bI.toInt) with
    | some s => (s, none)
    | none => (identity, some (op aI.toInt bI.toInt))

def finish : Exact → Value
  | (_, some b) => .fromBigint b
  | (accI, none) => .int accI

/-- The integer that an accumulator stands for. -/
def value : Exact → Int
  | (_, some b) => b
  | (accI, none) => accI.toInt

end Exact

/-- `int_or_bigint`. -/
def intOrBigint (n : Int) : Value :=
  match i64? n with
  | some m => .int m
  | none => .fromBigint n

/-- `sum_int_range`. -/
def sumIntRange (range : IntRangeData) : Value :=
  if range.len = 0 then .int 0
  else
    let lastOffset := (range.len - 1) * range.step.toInt
    intOrBigint ((range.len * (range.start.toInt * 2 + lastOffset)).tdiv 2)

/-- `min_int_range`. -/
def minIntRange (range : IntRangeData) : Option Value :=
  if range.len = 0 then some .emptyList
  else if 0 < range.step.toInt then some (.int range.start)
  else range.lastValue.map .int

/-- `max_int_range`. -/
def maxIntRange (range : IntRangeData) : Option Value :=
  if range.len = 0 then some .emptyList
  else if 0 < range.step.toInt then range.lastValue.map .int
  else some (.int range.start)

/-- `std::cmp::min_by`. -/
def minBy {α : Type} (cmp : α → α → Ordering) (x y : α) : α := if cmp x y = .gt then y else x

/-- `std::cmp::max_by`. -/
def maxBy {α : Type} (cmp : α → α → Ordering) (x y : α) : α := if cmp x y = .gt then x else y

def cmpI64 (x y : Int64) : Ordering := compare x.toInt y.toInt

/-- `Iterator::reduce`. -/
def reduceIter {α : Type} (f : α → α → α) : List α → Option α
  | [] => none
  | x :: xs => some (xs.foldl f x)

/-- The closures of `ParallelIterator::reduce_with`. -/
def optFold {α : Type} (f : α → α → α) : Option α → α → Option α
  | some a, b => some (f a b)
  | none, b => some b

def optReduce {α : Type} (f : α → α → α) : Option α → Option α → Option α
  | some a, some b => some (f a b)
  | some a, none => some a
  | none, b => b

section Packed

variable (split : Splitting Int64)

/-- `sum_exact_int_seq`. -/
def sumExactIntSeq : ExactIntSeq → Value
  | .packedRange range => sumIntRange range
  | .packedSlice items =>
    if 2000 < items.length then
      Exact.finish ((split.tree items).foldReduce (0, none) (Exact.fold (· + ·) 0)
        (Exact.reduce (· + ·) 0))
    else Exact.finish (items.foldl (Exact.loop (· + ·)) (0, none))

/-- `product_exact_int_seq`. -/
def productExactIntSeq : ExactIntSeq → Value
  | .packedRange range =>
    if range.len = 0 then .int 1
    else Exact.finish (range.toVec.foldl (Exact.loop (· * ·)) (1, none))
  | .packedSlice items =>
    if items.length = 0 then .int 1
    else if 2000 < items.length then
      Exact.finish ((split.tree items).foldReduce (1, none) (Exact.fold (· * ·) 1)
        (Exact.reduce (· * ·) 1))
    else Exact.finish (items.foldl (Exact.loop (· * ·)) (1, none))

/-- The least or greatest item by `f`. -/
def reduceItems (f : Int64 → Int64 → Int64) (items : List Int64) : Value :=
  let item? :=
    if 2000 < items.length then
      (split.tree items).foldReduce none (optFold f) (optReduce f)
    else reduceIter f items
  (item?.map .int).getD .emptyList

/-- `min_exact_int_seq`. -/
def minExactIntSeq : ExactIntSeq → Option Value
  | .packedRange range => minIntRange range
  | .packedSlice items => some (reduceItems split (minBy cmpI64) items)

/-- `max_exact_int_seq`. -/
def maxExactIntSeq : ExactIntSeq → Option Value
  | .packedRange range => maxIntRange range
  | .packedSlice items => some (reduceItems split (maxBy cmpI64) items)

end Packed

/-! ### The built-in functions -/

section Builtins

variable (numbers : NumberOps) (toF64 : ToF64) (split : Splitting Int64)

/-- `sum`. -/
def sum : List Value → Checked Value
  | [] => return .emptyList
  | [x] =>
    if x.isAtom then return x
    else
      match x with
      | .intList items => return sumExactIntSeq split (.packedSlice items)
      | .intRange range => return sumExactIntSeq split (.packedRange range)
      | .floatList items => return .float (items.foldl numbers.fadd (.ofInt 0))
      | .list [] => return .int 0
      | .list (v :: vs) => vs.foldlM (ArithOp.add.eval numbers) v
      | _ => throw .domain
  | v :: vs => vs.foldlM (ArithOp.add.eval numbers) v

/-- `product`. -/
def product : List Value → Checked Value
  | [] => return .emptyList
  | [x] =>
    if x.isAtom then return x
    else
      match x with
      | .intList items => return productExactIntSeq split (.packedSlice items)
      | .intRange range => return productExactIntSeq split (.packedRange range)
      | .floatList [] => return .int 1
      | .floatList items => return .float (items.foldl numbers.fmul (.ofInt 1))
      | .list [] => return .int 1
      | .list (v :: vs) => vs.foldlM (ArithOp.multiply.eval numbers) v
      | _ => throw .domain
  | v :: vs => vs.foldlM (ArithOp.multiply.eval numbers) v

/-- The step of `extreme_values`. -/
def extremeStep (desired : Ordering) (extreme : Option Value) (value : Value) :
    WqResult (Option Value) :=
  if value.isAtom then
    match extreme with
    | none => .ok (some value)
    | some current =>
      match cmpAtom toF64 value current with
      | some ordering => .ok (some (if ordering = desired then value else current))
      | none => .error .domain
  else .ok extreme

/-- `extreme_values`. -/
def extremeValues (values : List Value) (desired : Ordering) : WqResult Value := do
  return (← values.foldlM (extremeStep toF64 desired) none).getD .emptyList

/-- `extreme`, for the least or the greatest value. -/
def extreme (args : List Value) (desired : Ordering) : Checked Value :=
  match args with
  | [] => throw .arity
  | [x] =>
    if x.isAtom then return x
    else
      match x with
      | .intList items =>
        .ofOption (if desired = .lt then minExactIntSeq split (.packedSlice items)
          else maxExactIntSeq split (.packedSlice items))
      | .intRange range =>
        .ofOption (if desired = .lt then minExactIntSeq split (.packedRange range)
          else maxExactIntSeq split (.packedRange range))
      | .floatList items =>
        let item? := if desired = .lt then reduceIter (minBy F64.totalCmp) items
          else reduceIter (maxBy F64.totalCmp) items
        return (item?.map .float).getD .emptyList
      | .dict entries => .ofResult (extremeValues toF64 (entries.map Prod.snd) desired)
      | v =>
        match ValueSeq.fromValue v with
        | some seq => .ofResult (extremeValues toF64 seq.values desired)
        | none => return v
  | args => .ofResult (extremeValues toF64 args desired)

/-- The aggregates of a list. -/
inductive Aggregate
  | sum | product | min | max
deriving DecidableEq, Repr

def Aggregate.eval : Aggregate → List Value → Checked Value
  | .sum, args => Wqpl.sum numbers split args
  | .product, args => Wqpl.product numbers split args
  | .min, args => extreme toF64 split args .lt
  | .max, args => extreme toF64 split args .gt

end Builtins

/-! ### Exact sums and products -/

theorem intOrBigint_eq (n : Int) : intOrBigint n = .fromBigint n := by
  unfold intOrBigint Value.fromBigint
  cases i64? n <;> rfl

namespace Exact

variable {op : Int → Int → Int}

theorem finish_eq (acc : Exact) : acc.finish = .fromBigint acc.value := by
  obtain ⟨accI, - | b⟩ := acc
  · exact (fromBigint_toInt accI).symm
  · rfl

theorem value_loop (acc : Exact) (n : Int64) : value (loop op acc n) = op acc.value n.toInt := by
  obtain ⟨accI, - | b⟩ := acc
  · unfold loop
    dsimp only
    cases h : i64? (op accI.toInt n.toInt) with
    | none => rfl
    | some s => exact i64?_some_iff.mp h
  · rfl

theorem value_foldl_loop (items : List Int64) (acc : Exact) :
    value (items.foldl (loop op) acc) = (items.map Int64.toInt).foldl op acc.value := by
  induction items generalizing acc with
  | nil => rfl
  | cons n items ih => rw [List.foldl_cons, ih, value_loop, List.map_cons, List.foldl_cons]

/-- An accumulator is measured by the integer it stands for. -/
def measured (op : Int → Int → Int) [Std.Commutative op] (identity : Int64) :
    ChunkTree.Measure (identity, none) (fold op identity) (reduce op identity) op identity.toInt
      Int64.toInt where
  measure := value
  identity := rfl
  fold acc n := by
    obtain ⟨accI, - | b⟩ := acc
    · unfold fold
      dsimp only
      cases h : i64? (op accI.toInt n.toInt) with
      | none => rfl
      | some s => exact i64?_some_iff.mp h
    · rfl
  reduce a b := by
    obtain ⟨aI, - | a⟩ := a <;> obtain ⟨bI, - | b⟩ := b
    · unfold reduce
      dsimp only
      cases h : i64? (op aI.toInt bI.toInt) with
      | none => rfl
      | some s => exact i64?_some_iff.mp h
    · exact Std.Commutative.comm b aI.toInt
    · rfl
    · rfl

theorem finish_loop (identity : Int64) (items : List Int64) :
    finish (items.foldl (loop op) (identity, none)) =
      .fromBigint ((items.map Int64.toInt).foldl op identity.toInt) := by
  rw [finish_eq, value_foldl_loop]
  rfl

theorem finish_chunks [Std.Commutative op] [Std.Associative op] {identity : Int64}
    [Std.LawfulIdentity op identity.toInt] (split : Splitting Int64) (items : List Int64) :
    finish ((split.tree items).foldReduce (identity, none) (fold op identity)
        (reduce op identity)) =
      .fromBigint ((items.map Int64.toInt).foldl op identity.toInt) := by
  have hmeasure := (measured op identity).foldReduce (split.tree items)
  rw [split.items_tree] at hmeasure
  rw [finish_eq]
  exact congrArg _ hmeasure

end Exact

/-- The integers of a range are the terms of an arithmetic progression. -/
theorem IntRangeData.map_toInt_toVec (range : IntRangeData) :
    range.toVec.map Int64.toInt =
      (List.range range.len).map fun (i : ℕ) => range.start.toInt + range.step.toInt * i := by
  unfold toVec
  rw [List.map_map]
  refine List.map_congr_left fun i hi => ?_
  have hfits := range.fits i (List.mem_range.mp hi)
  exact Int64.toInt_ofInt_of_le hfits.1 hfits.2

/-- Twice the sum of an arithmetic progression. -/
theorem two_mul_sum_progression (start step : ℤ) (len : ℕ) :
    2 * ((List.range len).map fun (i : ℕ) => start + step * i).sum =
      len * (start * 2 + (len - 1) * step) := by
  induction len with
  | zero => simp
  | succ len ih =>
    rw [List.range_succ, List.map_append, List.sum_append, mul_add, ih]
    simp only [List.map_cons, List.map_nil, List.sum_cons, List.sum_nil]
    push_cast
    ring

theorem sumIntRange_eq (range : IntRangeData) :
    sumIntRange range = .fromBigint (range.toVec.map Int64.toInt).sum := by
  have htwo := two_mul_sum_progression range.start.toInt range.step.toInt range.len
  rw [← range.map_toInt_toVec] at htwo
  unfold sumIntRange
  by_cases hlen : range.len = 0
  · rw [if_pos hlen]
    have hempty : range.toVec = [] := List.length_eq_zero_iff.mp (by rw [range.length_toVec, hlen])
    rw [hempty]
    rfl
  · rw [if_neg hlen]
    dsimp only
    rw [intOrBigint_eq, ← htwo, Int.mul_tdiv_cancel_left _ two_ne_zero]

/-- **Sums.** The sum of packed integers is exact, however they are cut. -/
theorem sumExactIntSeq_eq (split : Splitting Int64) (seq : ExactIntSeq) :
    sumExactIntSeq split seq = .fromBigint (seq.toVec.map Int64.toInt).sum := by
  cases seq with
  | packedRange range => exact sumIntRange_eq range
  | packedSlice items =>
    have hsum : (items.map Int64.toInt).foldl (· + ·) (0 : Int64).toInt =
        (items.map Int64.toInt).sum := List.sum_eq_foldl.symm
    have : Std.LawfulIdentity (fun a b : Int => a + b) (0 : Int64).toInt :=
      inferInstanceAs (Std.LawfulIdentity (· + ·) (0 : Int))
    unfold sumExactIntSeq
    dsimp only
    split_ifs
    · exact (Exact.finish_chunks split items).trans (congrArg _ hsum)
    · exact (Exact.finish_loop 0 items).trans (congrArg _ hsum)

/-- **Products.** -/
theorem productExactIntSeq_eq (split : Splitting Int64) (seq : ExactIntSeq) :
    productExactIntSeq split seq = .fromBigint (seq.toVec.map Int64.toInt).prod := by
  have hprod : ∀ items : List Int64, (items.map Int64.toInt).foldl (· * ·) (1 : Int64).toInt =
      (items.map Int64.toInt).prod := fun _ => List.prod_eq_foldl.symm
  have : Std.LawfulIdentity (fun a b : Int => a * b) (1 : Int64).toInt :=
    inferInstanceAs (Std.LawfulIdentity (· * ·) (1 : Int))
  cases seq with
  | packedRange range =>
    unfold productExactIntSeq
    dsimp only
    split_ifs with hlen
    · have hempty : range.toVec = [] :=
        List.length_eq_zero_iff.mp (by rw [range.length_toVec, hlen])
      rw [ExactIntSeq.toVec, hempty]
      rfl
    · exact (Exact.finish_loop 1 range.toVec).trans (congrArg _ (hprod _))
  | packedSlice items =>
    unfold productExactIntSeq
    dsimp only
    split_ifs with hlen
    · rw [ExactIntSeq.toVec, List.length_eq_zero_iff.mp hlen]
      rfl
    · exact (Exact.finish_chunks split items).trans (congrArg _ (hprod _))
    · exact (Exact.finish_loop 1 items).trans (congrArg _ (hprod _))

/-! ### Least and greatest items -/

theorem foldl_optFold {α : Type} (f : α → α → α) (items : List α) (x : α) :
    items.foldl (optFold f) (some x) = some (items.foldl f x) := by
  induction items generalizing x with
  | nil => rfl
  | cons y items ih => exact ih (f x y)

theorem foldl_optFold_none {α : Type} (f : α → α → α) (items : List α) :
    items.foldl (optFold f) none = reduceIter f items := by
  cases items with
  | nil => rfl
  | cons x items => exact foldl_optFold f items x

/-- Neither the least nor the greatest item depends on the chunks. -/
theorem foldReduce_optFold {α : Type} {f : α → α → α} (hassoc : ∀ x y z, f (f x y) z = f x (f y z))
    (split : Splitting α) (items : List α) :
    (split.tree items).foldReduce none (optFold f) (optReduce f) = reduceIter f items := by
  have : Std.Associative (optReduce f) := ⟨by
    rintro (- | x) (- | y) (- | z) <;> first | rfl | exact congrArg some (hassoc x y z)⟩
  have : Std.LawfulIdentity (optReduce f) none :=
    { left_id := fun _ => rfl, right_id := fun x => by cases x <;> rfl }
  let options : ChunkTree.Measure none (optFold f) (optReduce f) (optReduce f) none some :=
    { measure := id
      identity := rfl
      fold := fun b a => by cases b <;> rfl
      reduce := fun _ _ => rfl }
  have hmeasure := options.foldReduce (split.tree items)
  rw [split.items_tree] at hmeasure
  rw [← foldl_optFold_none]
  exact hmeasure.trans (options.foldl items none).symm

/-- A choice between two items that is below both, by the order `r`. -/
structure ChoosesBelow {α : Type} (f : α → α → α) (r : α → α → Prop) : Prop where
  mem : ∀ x y, f x y = x ∨ f x y = y
  left : ∀ x y, r (f x y) x
  right : ∀ x y, r (f x y) y

theorem ChoosesBelow.reduceIter {α : Type} {f : α → α → α} {r : α → α → Prop} (hf : ChoosesBelow f r)
    (hrefl : ∀ x, r x x) (htrans : ∀ x y z, r x y → r y z → r x z) {items : List α}
    (hne : items ≠ []) :
    ∃ m ∈ items, reduceIter f items = some m ∧ ∀ x ∈ items, r m x := by
  cases items with
  | nil => exact absurd rfl hne
  | cons x items =>
    clear hne
    induction items generalizing x with
    | nil => exact ⟨x, List.mem_cons_self, rfl, by simp [hrefl]⟩
    | cons y items ih =>
      obtain ⟨m, hmem, hm, hleast⟩ := ih (f x y)
      have hfirst := hleast (f x y) List.mem_cons_self
      refine ⟨m, ?_, hm, ?_⟩
      · rcases List.mem_cons.mp hmem with rfl | hmem
        · rcases hf.mem x y with h | h <;> simp [h]
        · simp [hmem]
      · intro z hz
        rcases List.mem_cons.mp hz with rfl | hz
        · exact htrans _ _ _ hfirst (hf.left z y)
        rcases List.mem_cons.mp hz with rfl | hz
        · exact htrans _ _ _ hfirst (hf.right x z)
        · exact hleast z (List.mem_cons_of_mem _ hz)

theorem cmpI64_gt_iff (x y : Int64) : cmpI64 x y = .gt ↔ y.toInt < x.toInt := compare_gt_iff_gt

/-- `desired` is the order of the item that is looked for to the others. -/
def Below (desired : Ordering) (x y : Int64) : Prop :=
  if desired = .lt then x.toInt ≤ y.toInt else y.toInt ≤ x.toInt

theorem selects_minBy : ChoosesBelow (minBy cmpI64) (Below .lt) where
  mem x y := by unfold minBy; split_ifs <;> simp
  left x y := by
    show (minBy cmpI64 x y).toInt ≤ x.toInt
    unfold minBy
    split_ifs with h
    · exact ((cmpI64_gt_iff x y).mp h).le
    · exact le_rfl
  right x y := by
    show (minBy cmpI64 x y).toInt ≤ y.toInt
    unfold minBy
    split_ifs with h
    · exact le_rfl
    · exact not_lt.mp (mt (cmpI64_gt_iff x y).mpr h)

theorem selects_maxBy : ChoosesBelow (maxBy cmpI64) (Below .gt) where
  mem x y := by unfold maxBy; split_ifs <;> simp
  left x y := by
    show x.toInt ≤ (maxBy cmpI64 x y).toInt
    unfold maxBy
    split_ifs with h
    · exact le_rfl
    · exact not_lt.mp (mt (cmpI64_gt_iff x y).mpr h)
  right x y := by
    show y.toInt ≤ (maxBy cmpI64 x y).toInt
    unfold maxBy
    split_ifs with h
    · exact ((cmpI64_gt_iff x y).mp h).le
    · exact le_rfl

theorem ChoosesBelow.assoc {α : Type} {f : α → α → α} {r : α → α → Prop} (hf : ChoosesBelow f r)
    (htrans : ∀ x y z, r x y → r y z → r x z) (hantisymm : ∀ x y, r x y → r y x → x = y)
    (x y z : α) : f (f x y) z = f x (f y z) := by
  have hx : r (f (f x y) z) x := htrans _ _ _ (hf.left _ _) (hf.left _ _)
  have hy : r (f (f x y) z) y := htrans _ _ _ (hf.left _ _) (hf.right _ _)
  have hz : r (f (f x y) z) z := hf.right _ _
  have hx' : r (f x (f y z)) x := hf.left _ _
  have hy' : r (f x (f y z)) y := htrans _ _ _ (hf.right _ _) (hf.left _ _)
  have hz' : r (f x (f y z)) z := htrans _ _ _ (hf.right _ _) (hf.right _ _)
  refine hantisymm _ _ ?_ ?_
  · rcases hf.mem x (f y z) with h | h
    · rwa [h]
    · rcases hf.mem y z with h' | h' <;> rwa [h, h']
  · rcases hf.mem (f x y) z with h | h
    · rcases hf.mem x y with h' | h' <;> rwa [h, h']
    · rwa [h]

section Below

variable {desired : Ordering}

theorem Below.refl (x : Int64) : Below desired x x := by unfold Below; split_ifs <;> exact le_rfl

theorem Below.trans (x y z : Int64) (hxy : Below desired x y) (hyz : Below desired y z) :
    Below desired x z := by
  unfold Below at *
  split_ifs at * <;> omega

theorem Below.antisymm (x y : Int64) (hxy : Below desired x y) (hyx : Below desired y x) :
    x = y := by
  refine Int64.toInt_inj.mp ?_
  unfold Below at *
  split_ifs at * <;> omega

end Below

/-- The item that is looked for. -/
def IsExtreme (desired : Ordering) (items : List Int64) (m : Int64) : Prop :=
  m ∈ items ∧ ∀ x ∈ items, Below desired m x

theorem IsExtreme.unique {desired : Ordering} {items : List Int64} {m n : Int64}
    (hm : IsExtreme desired items m) (hn : IsExtreme desired items n) : m = n :=
  Below.antisymm m n (hm.2 n hn.1) (hn.2 m hm.1)

theorem reduceItems_eq {desired : Ordering} {f : Int64 → Int64 → Int64}
    (hf : ChoosesBelow f (Below desired)) (split : Splitting Int64) (items : List Int64) :
    reduceItems split f items = ((reduceIter f items).map .int).getD .emptyList := by
  unfold reduceItems
  rw [foldReduce_optFold (hf.assoc Below.trans Below.antisymm), ite_self]

theorem reduceItems_extreme {desired : Ordering} {f : Int64 → Int64 → Int64}
    (hf : ChoosesBelow f (Below desired)) (split : Splitting Int64) {items : List Int64}
    (hne : items ≠ []) :
    ∃ m, reduceItems split f items = .int m ∧ IsExtreme desired items m := by
  obtain ⟨m, hmem, hm, hextreme⟩ := hf.reduceIter Below.refl Below.trans hne
  refine ⟨m, ?_, hmem, hextreme⟩
  rw [reduceItems_eq hf, hm]
  rfl

/-- The ends of a range are its extremes. -/
theorem range_extremes (range : IntRangeData) (hlen : range.len ≠ 0) :
    ∃ last, range.lastValue = some last ∧
      (0 < range.step.toInt → IsExtreme .lt range.toVec range.start ∧
        IsExtreme .gt range.toVec last) ∧
      (range.step.toInt ≤ 0 → IsExtreme .lt range.toVec last ∧
        IsExtreme .gt range.toVec range.start) := by
  have hitem : ∀ i < range.len, ∃ x, range.get i = some x ∧ x ∈ range.toVec ∧
      x.toInt = range.start.toInt + range.step.toInt * i := by
    intro i hi
    have hfits := range.fits i hi
    have hget : range.get i = some (Int64.ofInt (range.start.toInt + range.step.toInt * i)) := by
      rw [IntRangeData.get, if_neg (by omega), i64?, if_pos hfits]
    refine ⟨_, hget, ?_, Int64.toInt_ofInt_of_le hfits.1 hfits.2⟩
    rw [range.get_eq] at hget
    exact List.mem_of_getElem? hget
  have hvalue : ∀ x ∈ range.toVec, ∃ i < range.len,
      x.toInt = range.start.toInt + range.step.toInt * i := by
    intro x hx
    have hmem : x.toInt ∈ range.toVec.map Int64.toInt := List.mem_map_of_mem hx
    rw [range.map_toInt_toVec] at hmem
    obtain ⟨i, hi, heq⟩ := List.mem_map.mp hmem
    exact ⟨i, List.mem_range.mp hi, heq.symm⟩
  obtain ⟨last, hget, hlast, hlastValue⟩ := hitem (range.len - 1) (by omega)
  obtain ⟨first, -, hfirst, hfirstValue⟩ := hitem 0 (by omega)
  have hstart : first = range.start := Int64.toInt_inj.mp (by rw [hfirstValue]; simp)
  rw [hstart] at hfirst
  have hbound : ∀ i : ℕ, i < range.len → (i : ℤ) ≤ (range.len - 1 : ℕ) := fun i hi => by omega
  refine ⟨last, by rw [IntRangeData.lastValue, if_neg hlen, hget], fun hstep => ?_, fun hstep => ?_⟩
  · refine ⟨⟨hfirst, fun x hx => ?_⟩, ⟨hlast, fun x hx => ?_⟩⟩
    · obtain ⟨i, -, hi⟩ := hvalue x hx
      show range.start.toInt ≤ x.toInt
      have := mul_nonneg hstep.le (Int.natCast_nonneg i)
      omega
    · obtain ⟨i, hlt, hi⟩ := hvalue x hx
      show x.toInt ≤ last.toInt
      have := mul_le_mul_of_nonneg_left (hbound i hlt) hstep.le
      omega
  · refine ⟨⟨hlast, fun x hx => ?_⟩, ⟨hfirst, fun x hx => ?_⟩⟩
    · obtain ⟨i, hlt, hi⟩ := hvalue x hx
      show last.toInt ≤ x.toInt
      have := mul_le_mul_of_nonpos_left (hbound i hlt) hstep
      omega
    · obtain ⟨i, -, hi⟩ := hvalue x hx
      show x.toInt ≤ range.start.toInt
      have := mul_nonpos_of_nonpos_of_nonneg hstep (Int.natCast_nonneg i)
      omega

/-- What the least or greatest of some integers is. -/
def IsExtremeValue (desired : Ordering) (items : List Int64) (v : Value) : Prop :=
  (items = [] ∧ v = .emptyList) ∨ ∃ m, v = .int m ∧ IsExtreme desired items m

theorem IsExtremeValue.unique {desired : Ordering} {items : List Int64} {v w : Value}
    (hv : IsExtremeValue desired items v) (hw : IsExtremeValue desired items w) : v = w := by
  rcases hv with ⟨hempty, rfl⟩ | ⟨m, rfl, hm⟩ <;> rcases hw with ⟨hempty', rfl⟩ | ⟨n, rfl, hn⟩
  · rfl
  · exact absurd hn.1 (by simp [hempty])
  · exact absurd hm.1 (by simp [hempty'])
  · rw [hm.unique hn]

theorem reduceItems_isExtremeValue {desired : Ordering} {f : Int64 → Int64 → Int64}
    (hf : ChoosesBelow f (Below desired)) (split : Splitting Int64) (items : List Int64) :
    IsExtremeValue desired items (reduceItems split f items) := by
  cases items with
  | nil => exact .inl ⟨rfl, by rw [reduceItems_eq hf]; rfl⟩
  | cons x items => exact .inr (reduceItems_extreme hf split (List.cons_ne_nil x items))

theorem IntRangeData.toVec_eq_nil {range : IntRangeData} (h : range.len = 0) :
    range.toVec = [] :=
  List.length_eq_zero_iff.mp (by rw [range.length_toVec, h])

/-- **Least items.** -/
theorem minExactIntSeq_spec (split : Splitting Int64) (seq : ExactIntSeq) :
    ∃ v, minExactIntSeq split seq = some v ∧ IsExtremeValue .lt seq.toVec v := by
  cases seq with
  | packedSlice items =>
    exact ⟨_, rfl, reduceItems_isExtremeValue selects_minBy split items⟩
  | packedRange range =>
    unfold minExactIntSeq minIntRange
    dsimp only
    by_cases hlen : range.len = 0
    · rw [if_pos hlen]
      exact ⟨_, rfl, .inl ⟨range.toVec_eq_nil hlen, rfl⟩⟩
    obtain ⟨last, hlast, hup, hdown⟩ := range_extremes range hlen
    rw [if_neg hlen, hlast]
    by_cases hstep : 0 < range.step.toInt
    · rw [if_pos hstep]
      exact ⟨_, rfl, .inr ⟨_, rfl, (hup hstep).1⟩⟩
    · rw [if_neg hstep]
      exact ⟨_, rfl, .inr ⟨_, rfl, (hdown (not_lt.mp hstep)).1⟩⟩

/-- **Greatest items.** -/
theorem maxExactIntSeq_spec (split : Splitting Int64) (seq : ExactIntSeq) :
    ∃ v, maxExactIntSeq split seq = some v ∧ IsExtremeValue .gt seq.toVec v := by
  cases seq with
  | packedSlice items =>
    exact ⟨_, rfl, reduceItems_isExtremeValue selects_maxBy split items⟩
  | packedRange range =>
    unfold maxExactIntSeq maxIntRange
    dsimp only
    by_cases hlen : range.len = 0
    · rw [if_pos hlen]
      exact ⟨_, rfl, .inl ⟨range.toVec_eq_nil hlen, rfl⟩⟩
    obtain ⟨last, hlast, hup, hdown⟩ := range_extremes range hlen
    rw [if_neg hlen, hlast]
    by_cases hstep : 0 < range.step.toInt
    · rw [if_pos hstep]
      exact ⟨_, rfl, .inr ⟨_, rfl, (hup hstep).2⟩⟩
    · rw [if_neg hstep]
      exact ⟨_, rfl, .inr ⟨_, rfl, (hdown (not_lt.mp hstep)).2⟩⟩

/-! ### General lists -/

/-- The choice of `extreme_values`. -/
def pick {α : Type} (cmp : α → α → Ordering) (desired : Ordering) (current value : α) : α :=
  if cmp value current = desired then value else current

theorem selects_pick {desired : Ordering} (hdesired : desired = .lt ∨ desired = .gt) :
    ChoosesBelow (pick cmpI64 desired) (Below desired) where
  mem x y := by unfold pick; split_ifs <;> simp
  left x y := by
    unfold pick Below cmpI64
    rcases hdesired with rfl | rfl
    · simp only [compare_lt_iff_lt, if_true]
      split_ifs <;> omega
    · simp only [compare_gt_iff_gt, reduceCtorEq, if_false]
      split_ifs <;> omega
  right x y := by
    unfold pick Below cmpI64
    rcases hdesired with rfl | rfl
    · simp only [compare_lt_iff_lt, if_true]
      split_ifs <;> omega
    · simp only [compare_gt_iff_gt, reduceCtorEq, if_false]
      split_ifs <;> omega

section General

variable (toF64 : ToF64) (desired : Ordering)

/-- Items that all compare are reduced by the choice of `extreme_values`. -/
theorem foldlM_extremeStep {α : Type} (wrap : α → Value) (cmp : α → α → Ordering) {P : α → Prop}
    (hatom : ∀ x, (wrap x).isAtom = true)
    (hcmp : ∀ x y, P x → P y → cmpAtom toF64 (wrap x) (wrap y) = some (cmp x y))
    (items : List α) (x : α) (hx : P x) (hitems : ∀ y ∈ items, P y) :
    (items.map wrap).foldlM (extremeStep toF64 desired) (some (wrap x)) =
      .ok (some (wrap (items.foldl (pick cmp desired) x))) := by
  induction items generalizing x with
  | nil => rfl
  | cons y items ih =>
    have hy := hitems y List.mem_cons_self
    have hstep : extremeStep toF64 desired (some (wrap x)) (wrap y) =
        .ok (some (wrap (pick cmp desired x y))) := by
      rw [extremeStep, if_pos (hatom y), hcmp y x hy hx, pick, apply_ite wrap]
    have hpick : P (pick cmp desired x y) := by
      unfold pick
      split_ifs <;> assumption
    rw [List.map_cons, List.foldlM_cons, hstep]
    exact ih _ hpick fun z hz => hitems z (List.mem_cons_of_mem y hz)

theorem extremeValues_eq {α : Type} (wrap : α → Value) (cmp : α → α → Ordering) {P : α → Prop}
    (hatom : ∀ x, (wrap x).isAtom = true)
    (hcmp : ∀ x y, P x → P y → cmpAtom toF64 (wrap x) (wrap y) = some (cmp x y))
    (items : List α) (hitems : ∀ y ∈ items, P y) :
    extremeValues toF64 (items.map wrap) desired =
      .ok (((reduceIter (pick cmp desired) items).map wrap).getD .emptyList) := by
  cases items with
  | nil => rfl
  | cons x items =>
    have hfirst : extremeStep toF64 desired none (wrap x) = .ok (some (wrap x)) := by
      rw [extremeStep, if_pos (hatom x)]
    have hrest := foldlM_extremeStep toF64 desired wrap cmp hatom hcmp items x
      (hitems x List.mem_cons_self) fun y hy => hitems y (List.mem_cons_of_mem x hy)
    rw [extremeValues, List.map_cons, List.foldlM_cons, hfirst]
    show (do return (← (items.map wrap).foldlM (extremeStep toF64 desired)
      (some (wrap x))).getD .emptyList) = _
    rw [hrest]
    rfl

variable {desired}

theorem extremeValues_ints (hdesired : desired = .lt ∨ desired = .gt) (items : List Int64) :
    ∃ v, extremeValues toF64 (items.map .int) desired = .ok v ∧
      IsExtremeValue desired items v := by
  rw [extremeValues_eq (P := fun _ => True) toF64 desired .int cmpI64 (fun _ => rfl)
    (fun _ _ _ _ => rfl) items fun _ _ => trivial]
  refine ⟨_, rfl, ?_⟩
  cases items with
  | nil => exact .inl ⟨rfl, rfl⟩
  | cons x items =>
    obtain ⟨m, hmem, hm, hextreme⟩ := (selects_pick hdesired).reduceIter Below.refl Below.trans
      (List.cons_ne_nil x items)
    exact .inr ⟨m, by rw [hm]; rfl, hmem, hextreme⟩

end General

/-! ### Lists of floats -/

section Floats

variable (toF64 : ToF64) {desired : Ordering}

theorem F64.totalCmp_eq {x y : F64} (hx : x.isNaN = false) (hy : y.isNaN = false) :
    x.totalCmp y = compare x.rank y.rank := by
  rw [totalCmp, hx, hy]

/-- Where no item is a NaN, the packed choice has the rank of the general one. -/
theorem foldl_pick_rank {f : F64 → F64 → F64} (hf : ∀ x y, x.isNaN = false → y.isNaN = false →
      (f x y).isNaN = false ∧ (f x y).rank = (pick F64.totalCmp desired x y).rank)
    (items : List F64) (hitems : ∀ y ∈ items, y.isNaN = false) (x x' : F64) (hx : x.isNaN = false)
    (hx' : x'.isNaN = false) (hrank : x.rank = x'.rank) :
    (items.foldl f x).isNaN = false ∧ (items.foldl (pick F64.totalCmp desired) x').isNaN = false ∧
      (items.foldl f x).rank = (items.foldl (pick F64.totalCmp desired) x').rank := by
  induction items generalizing x x' with
  | nil => exact ⟨hx, hx', hrank⟩
  | cons y items ih =>
    have hy := hitems y List.mem_cons_self
    have hpick : ∀ z : F64, z.isNaN = false → (pick F64.totalCmp desired z y).isNaN = false := by
      intro z hz
      unfold pick
      split_ifs <;> assumption
    have hsame : (pick F64.totalCmp desired x y).rank = (pick F64.totalCmp desired x' y).rank := by
      unfold pick
      rw [F64.totalCmp_eq hy hx, F64.totalCmp_eq hy hx', hrank]
      split_ifs
      · rfl
      · exact hrank
    obtain ⟨hnan, hfrank⟩ := hf x y hx hy
    exact ih (fun z hz => hitems z (List.mem_cons_of_mem y hz)) _ _ hnan (hpick x' hx')
      (hfrank.trans hsame)

theorem minBy_rank (x y : F64) (hx : x.isNaN = false) (hy : y.isNaN = false) :
    (minBy F64.totalCmp x y).isNaN = false ∧
      (minBy F64.totalCmp x y).rank = (pick F64.totalCmp .lt x y).rank := by
  unfold minBy pick
  rw [F64.totalCmp_eq hx hy, F64.totalCmp_eq hy hx]
  simp only [compare_gt_iff_gt, compare_lt_iff_lt]
  split_ifs <;> simp [hx, hy]

theorem maxBy_rank (x y : F64) (hx : x.isNaN = false) (hy : y.isNaN = false) :
    (maxBy F64.totalCmp x y).isNaN = false ∧
      (maxBy F64.totalCmp x y).rank = (pick F64.totalCmp .gt x y).rank := by
  unfold maxBy pick
  rw [F64.totalCmp_eq hx hy, F64.totalCmp_eq hy hx]
  simp only [compare_gt_iff_gt]
  split_ifs <;> simp [hx, hy] <;> omega

theorem F64.canon_eq_of_rank {x y : F64} (hx : x.isNaN = false) (hy : y.isNaN = false)
    (hrank : x.rank = y.rank) : x.canon = y.canon := by
  rw [← orderedEq_iff, orderedEq, hx, if_neg Bool.false_ne_true, partialCmp, hx, hy, hrank]
  simp

/-- A NaN and another float do not compare. -/
theorem foldlM_extremeStep_nan (items : List F64) (x : F64)
    (hnan : x.isNaN = true ∧ items ≠ [] ∨ ∃ y ∈ items, y.isNaN = true) :
    (items.map .float).foldlM (extremeStep toF64 desired) (some (.float x)) =
      .error .domain := by
  induction items generalizing x with
  | nil =>
    rcases hnan with ⟨-, h⟩ | ⟨y, h, -⟩
    · exact absurd rfl h
    · exact absurd h List.not_mem_nil
  | cons y items ih =>
    rw [List.map_cons, List.foldlM_cons, extremeStep,
      if_pos (show (Value.float y).isAtom from rfl), cmpAtom]
    by_cases hxy : x.isNaN = true ∨ y.isNaN = true
    · have hcmp : y.partialCmp x = none := by
        rw [F64.partialCmp, if_pos]
        rcases hxy with h | h <;> simp [h]
      rw [hcmp]
      rfl
    · rw [not_or, Bool.not_eq_true, Bool.not_eq_true] at hxy
      have hcmp : y.partialCmp x = some (compare y.rank x.rank) := by
        rw [F64.partialCmp, if_neg]
        simp [hxy]
      have hrest : ∃ z ∈ items, z.isNaN = true := by
        rcases hnan with ⟨h, -⟩ | ⟨z, hz, h⟩
        · simp [hxy.1] at h
        · rcases List.mem_cons.mp hz with rfl | hz
          · simp [hxy.2] at h
          · exact ⟨z, hz, h⟩
      rw [hcmp]
      dsimp only
      rw [← apply_ite Value.float]
      exact ih _ (.inr hrest)

end Floats

/-! ### The aggregate of a representation -/

/-- The operations `numbers`; booleans are neither added nor multiplied, as
`add_atoms` and `mul_atoms` end. -/
def NumberOps.withBooleans (numbers : NumberOps) : NumberOps :=
  { numbers with
    otherBinary := fun op a b =>
      match op, a, b with
      | .add, .bool _, .bool _ | .multiply, .bool _, .bool _ => .error .domain
      | op, a, b => numbers.otherBinary op a b }

/-- Zero and one are neutral for floats, up to the equality of values, which the
operations respect. -/
structure NumberOps.NeutralFloats (numbers : NumberOps) : Prop where
  zero_add : ∀ x, (numbers.fadd (.ofInt 0) x).canon = x.canon
  fadd_congr : ∀ x x' y, x.canon = x'.canon → (numbers.fadd x y).canon = (numbers.fadd x' y).canon
  one_mul : ∀ x, (numbers.fmul (.ofInt 1) x).canon = x.canon
  fmul_congr : ∀ x x' y, x.canon = x'.canon → (numbers.fmul x y).canon = (numbers.fmul x' y).canon

/-- The value holds these machine integers. -/
def HoldsInts (v : Value) (items : List Int64) : Prop :=
  v = .intList items ∨ (∃ range, v = .intRange range ∧ range.toVec = items) ∨
    v = .list (items.map .int)

/-- The exact results for machine integers. -/
def Aggregate.IsExact (items : List Int64) (out : Checked Value) : Aggregate → Prop
  | .sum => out = pure (.fromBigint (items.map Int64.toInt).sum)
  | .product => out = pure (.fromBigint (items.map Int64.toInt).prod)
  | .min => ∃ v, out = pure v ∧ IsExtremeValue .lt items v
  | .max => ∃ v, out = pure v ∧ IsExtremeValue .gt items v

/-- Both succeed with equal values, or both fail. -/
def SameOutcome (a b : Checked Value) : Prop :=
  (∃ v w, a = pure v ∧ b = pure w ∧ v.eq w = true) ∨ ∃ e e', a = throw e ∧ b = throw e'

/-- The packed lists of integers, floats or booleans, with their items. -/
inductive PackedAs : Value → List Value → Prop
  | intList (items : List Int64) : PackedAs (.intList items) (items.map .int)
  | intRange (range : IntRangeData) : PackedAs (.intRange range) (range.toVec.map .int)
  | floatList (items : List F64) : PackedAs (.floatList items) (items.map .float)
  | boolList (items : List Bool) : PackedAs (.boolList items) (items.map .bool)

section Meets

variable (numbers : NumberOps) (toF64 : ToF64) (split : Splitting Int64)

/-- The aggregate of a list is exact where it holds machine integers, and where
it is packed it is the aggregate of the general list of its items. -/
def AggregateMeets (agg : Aggregate) (v : Value) : Prop :=
  (∀ items, HoldsInts v items → agg.IsExact items (agg.eval numbers.withBooleans toF64 split [v])) ∧
    ∀ items, PackedAs v items → SameOutcome (agg.eval numbers.withBooleans toF64 split [v])
      (agg.eval numbers.withBooleans toF64 split [.list items])

end Meets

/-- The lists whose aggregate does not depend on the representation. -/
def Aggregate.Uniform : Aggregate → Value → Prop
  | .sum, .floatList items => items ≠ []
  | .sum, .boolList items | .product, .boolList items => 2 ≤ items.length
  | .min, .floatList items | .max, .floatList items =>
    items.length ≤ 1 ∨ ∀ f ∈ items, f.isNaN = false
  | _, _ => True

section Exactness

variable (numbers : NumberOps) (toF64 : ToF64) (split : Splitting Int64)

/-- Machine integers are added up and multiplied exactly by the operators. -/
theorem foldlM_eval {op : ArithOp} {exact : Int → Int → Int}
    (hop : ∀ (s : Int) (n : Int64), op.eval numbers (.fromBigint s) (.int n) =
      pure (.fromBigint (exact s n.toInt))) (items : List Int64) (s : Int) :
    (items.map Value.int).foldlM (op.eval numbers) (.fromBigint s) =
      pure (.fromBigint ((items.map Int64.toInt).foldl exact s)) := by
  induction items generalizing s with
  | nil => rfl
  | cons n items ih =>
    rw [List.map_cons, List.foldlM_cons, hop]
    exact ih _

theorem ofChecked_eq (n : Int) : Value.ofChecked n = .fromBigint n := by
  unfold Value.ofChecked Value.fromBigint
  cases i64? n <;> rfl

theorem fromBigint_cases (s : Int) :
    (∃ m : Int64, Value.fromBigint s = .int m ∧ m.toInt = s) ∨ Value.fromBigint s = .bigInt s := by
  unfold Value.fromBigint
  cases h : i64? s with
  | some m => exact .inl ⟨m, rfl, i64?_some_iff.mp h⟩
  | none => exact .inr rfl

theorem add_eval_fromBigint (s : Int) (n : Int64) :
    ArithOp.add.eval numbers (.fromBigint s) (.int n) = pure (.fromBigint (s + n.toInt)) := by
  rcases fromBigint_cases s with ⟨m, h, rfl⟩ | h
  · rw [h, ← ofChecked_eq]
    rfl
  · rw [h, Int.add_comm]
    rfl

theorem multiply_eval_fromBigint (s : Int) (n : Int64) :
    ArithOp.multiply.eval numbers (.fromBigint s) (.int n) = pure (.fromBigint (s * n.toInt)) := by
  rcases fromBigint_cases s with ⟨m, h, rfl⟩ | h
  · rw [h, ← ofChecked_eq]
    rfl
  · rw [h, Int.mul_comm]
    rfl

theorem sum_ints (items : List Int64) :
    sum numbers split [.list (items.map .int)] =
      pure (.fromBigint (items.map Int64.toInt).sum) := by
  cases items with
  | nil => rfl
  | cons n items =>
    show (items.map Value.int).foldlM (ArithOp.add.eval numbers) (.int n) = _
    rw [← fromBigint_toInt n, foldlM_eval numbers (add_eval_fromBigint numbers)]
    refine congrArg (fun k => pure (Value.fromBigint k)) ?_
    rw [List.map_cons, List.sum_eq_foldl, List.foldl_cons, Int.zero_add]

theorem product_ints (items : List Int64) :
    product numbers split [.list (items.map .int)] =
      pure (.fromBigint (items.map Int64.toInt).prod) := by
  cases items with
  | nil => rfl
  | cons n items =>
    show (items.map Value.int).foldlM (ArithOp.multiply.eval numbers) (.int n) = _
    rw [← fromBigint_toInt n, foldlM_eval numbers (multiply_eval_fromBigint numbers)]
    refine congrArg (fun k => pure (Value.fromBigint k)) ?_
    rw [List.map_cons, List.prod_eq_foldl, List.foldl_cons, Int.one_mul]

theorem extreme_packed {desired : Ordering} (hdesired : desired = .lt ∨ desired = .gt)
    (seq : ExactIntSeq) :
    ∃ v, (if desired = .lt then minExactIntSeq split seq else maxExactIntSeq split seq) = some v ∧
      IsExtremeValue desired seq.toVec v := by
  rcases hdesired with rfl | rfl
  · exact minExactIntSeq_spec split seq
  · exact maxExactIntSeq_spec split seq

/-- The extremes of machine integers, whatever holds them. -/
theorem extreme_ints {desired : Ordering} (hdesired : desired = .lt ∨ desired = .gt) {v : Value}
    {items : List Int64} (h : HoldsInts v items) :
    ∃ w, extreme toF64 split [v] desired = pure w ∧ IsExtremeValue desired items w := by
  rcases h with rfl | ⟨range, rfl, rfl⟩ | rfl
  · obtain ⟨w, hw, hextreme⟩ := extreme_packed split hdesired (.packedSlice items)
    exact ⟨w, congrArg Checked.ofOption hw, hextreme⟩
  · obtain ⟨w, hw, hextreme⟩ := extreme_packed split hdesired (.packedRange range)
    exact ⟨w, congrArg Checked.ofOption hw, hextreme⟩
  · obtain ⟨w, hw, hextreme⟩ := extremeValues_ints toF64 hdesired items
    exact ⟨w, congrArg Checked.ofResult hw, hextreme⟩

/-- **Exact aggregates.** -/
theorem isExact_of_holdsInts (agg : Aggregate) {v : Value} {items : List Int64}
    (h : HoldsInts v items) : agg.IsExact items (agg.eval numbers toF64 split [v]) := by
  cases agg with
  | sum =>
    rcases h with rfl | ⟨range, rfl, rfl⟩ | rfl
    · exact congrArg pure (sumExactIntSeq_eq split (.packedSlice items))
    · exact congrArg pure (sumExactIntSeq_eq split (.packedRange range))
    · exact sum_ints numbers split items
  | product =>
    rcases h with rfl | ⟨range, rfl, rfl⟩ | rfl
    · exact congrArg pure (productExactIntSeq_eq split (.packedSlice items))
    · exact congrArg pure (productExactIntSeq_eq split (.packedRange range))
    · exact product_ints numbers split items
  | min => exact extreme_ints toF64 split (.inl rfl) h
  | max => exact extreme_ints toF64 split (.inr rfl) h

end Exactness

/-! ### Representations -/

theorem eq_refl (v : Value) : v.eq v = true := (Value.eq_iff v v).mpr rfl

theorem sameOutcome_pure {v w : Value} :
    SameOutcome (pure v) (pure w) ↔ v.eq w = true := by
  constructor
  · rintro (⟨v', w', hv, hw, h⟩ | ⟨e, e', h, -⟩)
    · obtain rfl : v = v' := Except.ok.inj (Option.some.inj hv)
      obtain rfl : w = w' := Except.ok.inj (Option.some.inj hw)
      exact h
    · cases h
  · exact fun h => .inl ⟨v, w, rfl, rfl, h⟩

theorem not_sameOutcome_throw {e : WqErrorType} {v : Value} :
    ¬SameOutcome (throw e) (pure v) ∧ ¬SameOutcome (pure v) (throw e) := by
  constructor <;> rintro (⟨v', w', hv, hw, -⟩ | ⟨e', e'', h, h'⟩)
  · cases hv
  · cases h'
  · cases hw
  · cases h

/-- Two outcomes that are exact for the same integers are the same. -/
theorem Aggregate.IsExact.same {agg : Aggregate} {items : List Int64} {a b : Checked Value}
    (ha : agg.IsExact items a) (hb : agg.IsExact items b) : SameOutcome a b := by
  cases agg with
  | sum | product =>
    rw [show a = b from ha.trans hb.symm, show b = pure _ from hb]
    exact sameOutcome_pure.mpr (eq_refl _)
  | min | max =>
    obtain ⟨v, rfl, hv⟩ := ha
    obtain ⟨w, rfl, hw⟩ := hb
    rw [hv.unique hw]
    exact sameOutcome_pure.mpr (eq_refl _)

section Outcomes

variable (numbers : NumberOps) (toF64 : ToF64) (split : Splitting Int64)

theorem eq_float {x y : F64} (h : x.canon = y.canon) : (Value.float x).eq (.float y) = true :=
  (F64.orderedEq_iff x y).mpr h

theorem foldlM_floats (op : ArithOp) {f : F64 → F64 → F64}
    (hop : ∀ x y, op.eval numbers (.float x) (.float y) = pure (.float (f x y)))
    (items : List F64) (x : F64) :
    (items.map Value.float).foldlM (op.eval numbers) (.float x) =
      pure (.float (items.foldl f x)) := by
  induction items generalizing x with
  | nil => rfl
  | cons y items ih =>
    rw [List.map_cons, List.foldlM_cons, hop]
    exact ih _

theorem foldl_canon {f : F64 → F64 → F64}
    (hf : ∀ x x' y, x.canon = x'.canon → (f x y).canon = (f x' y).canon) (items : List F64)
    {x x' : F64} (h : x.canon = x'.canon) : (items.foldl f x).canon = (items.foldl f x').canon := by
  induction items generalizing x x' with
  | nil => exact h
  | cons y items ih => exact ih (hf x x' y h)

/-- Booleans have neither a sum nor a product. -/
theorem foldlM_bools {op : ArithOp} (hop : op = .add ∨ op = .multiply) (b c : Bool)
    (items : List Bool) :
    ((c :: items).map Value.bool).foldlM (op.eval numbers.withBooleans) (.bool b) =
      throw .domain := by
  have hstep : op.eval numbers.withBooleans (.bool b) (.bool c) = throw .domain := by
    rcases hop with rfl | rfl <;> rfl
  rw [List.map_cons, List.foldlM_cons, hstep]
  rfl

/-- The sum and the product of packed booleans. -/
theorem sameOutcome_bools (general : List Value → Checked Value) {op : ArithOp} {empty : Value}
    (hop : op = .add ∨ op = .multiply) (hnil : general [] = pure empty)
    (hcons : ∀ v vs, general (v :: vs) = vs.foldlM (op.eval numbers.withBooleans) v)
    (items : List Bool) :
    SameOutcome (throw .domain) (general (items.map .bool)) ↔ 2 ≤ items.length := by
  match items with
  | [] => exact iff_of_false (hnil ▸ not_sameOutcome_throw.1) (by decide)
  | [b] => exact iff_of_false (hcons _ _ ▸ not_sameOutcome_throw.1) (by simp)
  | b :: c :: items =>
    refine iff_of_true (.inr ⟨.domain, .domain, rfl, ?_⟩) (by simp)
    exact (hcons _ _).trans (foldlM_bools numbers hop b c items)

theorem sameOutcome_ofResult (r : WqResult Value) :
    SameOutcome (.ofResult r) (.ofResult r) := by
  cases r with
  | ok v => exact sameOutcome_pure.mpr (eq_refl v)
  | error e => exact .inr ⟨e, e, rfl, rfl⟩

/-- The extremes of packed floats. -/
theorem sameOutcome_extreme_floats {desired : Ordering} {f : F64 → F64 → F64}
    (hf : ∀ x y, x.isNaN = false → y.isNaN = false →
      (f x y).isNaN = false ∧ (f x y).rank = (pick F64.totalCmp desired x y).rank)
    (items : List F64) :
    SameOutcome (pure (((reduceIter f items).map .float).getD .emptyList))
        (.ofResult (extremeValues toF64 (items.map .float) desired)) ↔
      (items.length ≤ 1 ∨ ∀ x ∈ items, x.isNaN = false) := by
  match items with
  | [] => exact iff_of_true (sameOutcome_pure.mpr (eq_refl _)) (.inl (by decide))
  | [x] => exact iff_of_true (sameOutcome_pure.mpr (eq_refl _)) (.inl (by simp))
  | x :: y :: items =>
    have hlen : ¬(x :: y :: items).length ≤ 1 := by simp
    rw [or_iff_right hlen]
    by_cases hnan : ∀ z ∈ x :: y :: items, z.isNaN = false
    · have hgeneral := extremeValues_eq (P := fun z : F64 => z.isNaN = false) toF64 desired
        Value.float F64.totalCmp (fun _ => rfl) (fun a b ha hb => by
          rw [F64.totalCmp_eq ha hb, cmpAtom, F64.partialCmp, ha, hb]
          rfl) (x :: y :: items) hnan
      rw [hgeneral]
      refine iff_of_true (sameOutcome_pure.mpr ?_) hnan
      have hx := hnan x List.mem_cons_self
      obtain ⟨hl, hr, hrank⟩ := foldl_pick_rank hf (y :: items)
        (fun z hz => hnan z (List.mem_cons_of_mem x hz)) x x hx hx rfl
      exact eq_float (F64.canon_eq_of_rank hl hr hrank)
    · refine iff_of_false ?_ hnan
      have hsome : x.isNaN = true ∧ y :: items ≠ [] ∨ ∃ z ∈ y :: items, z.isNaN = true := by
        push Not at hnan
        obtain ⟨z, hz, hnan⟩ := hnan
        rw [ne_eq, Bool.not_eq_false] at hnan
        rcases List.mem_cons.mp hz with rfl | hz
        · exact .inl ⟨hnan, by simp⟩
        · exact .inr ⟨z, hz, hnan⟩
      have hgeneral : extremeValues toF64 ((x :: y :: items).map Value.float) desired =
          .error .domain := by
        have herror : ((y :: items).map Value.float).foldlM (extremeStep toF64 desired)
            (some (.float x)) = .error .domain := foldlM_extremeStep_nan toF64 (y :: items) x hsome
        rw [extremeValues, List.map_cons, List.foldlM_cons]
        show (do return (← ((y :: items).map Value.float).foldlM (extremeStep toF64 desired)
          (some (.float x))).getD .emptyList) = _
        rw [herror]
        rfl
      rw [hgeneral]
      exact not_sameOutcome_throw.2

/-- The aggregates of two lists of the same machine integers. -/
theorem sameOutcome_ints (agg : Aggregate) {v w : Value} {items : List Int64}
    (hv : HoldsInts v items) (hw : HoldsInts w items) :
    SameOutcome (agg.eval numbers toF64 split [v]) (agg.eval numbers toF64 split [w]) :=
  (isExact_of_holdsInts numbers toF64 split agg hv).same
    (isExact_of_holdsInts numbers toF64 split agg hw)

variable {numbers}

theorem sameOutcome_sum_floats (hfloats : numbers.NeutralFloats) (items : List F64) :
    SameOutcome (sum numbers split [.floatList items])
      (sum numbers split [.list (items.map .float)]) ↔ items ≠ [] := by
  cases items with
  | nil =>
    refine iff_of_false ?_ (fun h => h rfl)
    intro h
    have : (Value.float (.ofInt 0)).eq (.int 0) = true := sameOutcome_pure.mp h
    cases this
  | cons x items =>
    refine iff_of_true ?_ (List.cons_ne_nil x items)
    have hgeneral : sum numbers split [.list ((x :: items).map .float)] =
        pure (.float (items.foldl numbers.fadd x)) :=
      foldlM_floats numbers .add (fun _ _ => rfl) items x
    rw [hgeneral]
    exact sameOutcome_pure.mpr (eq_float (foldl_canon hfloats.fadd_congr items (hfloats.zero_add x)))

theorem sameOutcome_product_floats (hfloats : numbers.NeutralFloats) (items : List F64) :
    SameOutcome (product numbers split [.floatList items])
      (product numbers split [.list (items.map .float)]) := by
  cases items with
  | nil => exact sameOutcome_pure.mpr (eq_refl _)
  | cons x items =>
    have hgeneral : product numbers split [.list ((x :: items).map .float)] =
        pure (.float (items.foldl numbers.fmul x)) :=
      foldlM_floats numbers .multiply (fun _ _ => rfl) items x
    rw [hgeneral]
    exact sameOutcome_pure.mpr (eq_float (foldl_canon hfloats.fmul_congr items (hfloats.one_mul x)))

/-- The laws do not speak of booleans. -/
theorem NumberOps.NeutralFloats.withBooleans (hfloats : numbers.NeutralFloats) :
    numbers.withBooleans.NeutralFloats :=
  ⟨hfloats.zero_add, hfloats.fadd_congr, hfloats.one_mul, hfloats.fmul_congr⟩

/-- The aggregate of a packed list, against the general list of its items. -/
theorem sameOutcome_iff (hfloats : numbers.NeutralFloats) (agg : Aggregate) {v : Value}
    {items : List Value} (h : PackedAs v items) :
    SameOutcome (agg.eval numbers.withBooleans toF64 split [v])
      (agg.eval numbers.withBooleans toF64 split [.list items]) ↔ agg.Uniform v := by
  cases h with
  | intList items =>
    refine iff_of_true (sameOutcome_ints _ toF64 split agg (.inl rfl) (.inr (.inr rfl))) ?_
    cases agg <;> trivial
  | intRange range =>
    refine iff_of_true (sameOutcome_ints _ toF64 split agg (.inr (.inl ⟨range, rfl, rfl⟩))
      (.inr (.inr rfl))) ?_
    cases agg <;> trivial
  | floatList items =>
    cases agg with
    | sum => exact sameOutcome_sum_floats split hfloats.withBooleans items
    | product =>
      exact iff_of_true (sameOutcome_product_floats split hfloats.withBooleans items) trivial
    | min => exact sameOutcome_extreme_floats toF64 minBy_rank items
    | max => exact sameOutcome_extreme_floats toF64 maxBy_rank items
  | boolList items =>
    cases agg with
    | sum =>
      exact sameOutcome_bools numbers (fun vs => sum numbers.withBooleans split [.list vs])
        (.inl rfl) rfl (fun _ _ => rfl) items
    | product =>
      exact sameOutcome_bools numbers (fun vs => product numbers.withBooleans split [.list vs])
        (.inr rfl) rfl (fun _ _ => rfl) items
    | min => exact iff_of_true (sameOutcome_ofResult _) trivial
    | max => exact iff_of_true (sameOutcome_ofResult _) trivial

end Outcomes

namespace F64

/-- Sums of which one part is zero; others are not looked at. -/
def addZero (x y : F64) : F64 :=
  if x.isZero ∧ y.isZero then .ofInt 0
  else if x.isZero then y
  else if y.isZero then x
  else ⟨0x7ff8000000000000#64⟩

/-- Products of which one part is one. -/
def mulOne (x y : F64) : F64 :=
  if x = .ofInt 1 then y else if y = .ofInt 1 then x else ⟨0x7ff8000000000000#64⟩

theorem isNaN_of_isZero {f : F64} (h : f.isZero = true) : f.isNaN = false := by
  unfold isZero at h
  unfold isNaN
  simp only [decide_eq_true_eq, decide_eq_false_iff_not] at h ⊢
  omega

theorem isZero_canon (f : F64) : f.canon.isZero = f.isZero := by
  have hnan : (⟨0x7ff8000000000000#64⟩ : F64).isZero = false := by decide
  have hzero : (⟨0#64⟩ : F64).isZero = true := by decide
  unfold canon
  cases hf : f.isNaN with
  | true =>
    have hne : f.isZero = false := Bool.eq_false_iff.mpr fun h => by
      simp [isNaN_of_isZero h] at hf
    simp [hnan, hne]
  | false => cases hz : f.isZero <;> simp [hzero, hz]

theorem canon_eq_one {f : F64} (h : f.canon = .ofInt 1) : f = .ofInt 1 := by
  unfold canon at h
  split_ifs at h with hnan hzero
  · exact absurd h (by decide)
  · exact absurd h (by decide)
  · exact h

end F64

/-- Operations whose floats are only added to zero and multiplied by one. -/
def NumberOps.neutral : NumberOps :=
  { NumberOps.inert with
    fadd := F64.addZero
    fmul := F64.mulOne
    fadd_comm := fun x y => by unfold F64.addZero; cases x.isZero <;> cases y.isZero <;> rfl
    fmul_comm := fun x y => by unfold F64.mulOne; split_ifs <;> simp_all }

theorem neutralFloats_neutral : NumberOps.neutral.NeutralFloats where
  zero_add x := by
    show (F64.addZero (.ofInt 0) x).canon = x.canon
    have hzero : (F64.ofInt 0).isZero = true := by decide
    unfold F64.addZero
    rw [hzero]
    cases hx : x.isZero with
    | true =>
      have hrank := (F64.rank_of_isZero hzero).trans (F64.rank_of_isZero hx).symm
      exact F64.canon_eq_of_rank (F64.isNaN_of_isZero hzero) (F64.isNaN_of_isZero hx) hrank
    | false => rfl
  fadd_congr x x' y h := by
    show (F64.addZero x y).canon = (F64.addZero x' y).canon
    have hzero : x.isZero = x'.isZero := by rw [← F64.isZero_canon x, h, F64.isZero_canon]
    unfold F64.addZero
    rw [hzero]
    split_ifs
    · rfl
    · rfl
    · exact h
    · rfl
  one_mul x := by
    show (F64.mulOne (.ofInt 1) x).canon = x.canon
    rw [F64.mulOne, if_pos rfl]
  fmul_congr x x' y h := by
    show (F64.mulOne x y).canon = (F64.mulOne x' y).canon
    have hone : (F64.ofInt 1).canon = .ofInt 1 := by decide
    have hiff : x = .ofInt 1 ↔ x' = .ofInt 1 := by
      constructor <;> rintro rfl
      · exact F64.canon_eq_one (h ▸ hone)
      · exact F64.canon_eq_one (h.trans hone)
    unfold F64.mulOne
    by_cases hx : x = .ofInt 1
    · rw [if_pos hx, if_pos (hiff.mp hx)]
    · rw [if_neg hx, if_neg (mt hiff.mpr hx)]
      split_ifs
      · exact h
      · rfl

/-- No float conversion is possible. -/
def ToF64.none : ToF64 := ⟨fun _ => .none, fun _ => .none⟩

end Wqpl
