/-
# Lazy integer ranges

The operations of `IntRangeData`: its iterator, which steps from both ends in
machine arithmetic, and its reversal. A range keeps every item within 64 bits
(`IntRangeData.fits`); so an iterator on it never wraps (`Follows.steps`), and
indexing, slicing and reversing it agree with the same on the list of its items.
-/
import Wqpl.Access.Assign
import Wqpl.Arith.PackedSpec
import Wqpl.DoubleEnded

namespace Wqpl

open DoubleEnded

/-! ### Operations -/

/-- The state of an iterator; `next` and `back` are the items it gives next. -/
structure IntRangeIter where
  next : Int64
  back : Int64
  step : Int64
  remaining : Nat
deriving DecidableEq, Repr

namespace IntRangeIter

/-- `Iterator::next`, which steps with `wrapping_add` unless it has ended. -/
def nextItem (it : IntRangeIter) : Option Int64 × IntRangeIter :=
  if it.remaining = 0 then (none, it)
  else
    let remaining := it.remaining - 1
    (some it.next,
      { it with
        remaining := remaining
        next := if 0 < remaining then it.next + it.step else it.next })

/-- `DoubleEndedIterator::next_back`. -/
def nextBack (it : IntRangeIter) : Option Int64 × IntRangeIter :=
  if it.remaining = 0 then (none, it)
  else
    let remaining := it.remaining - 1
    (some it.back,
      { it with
        remaining := remaining
        back := if 0 < remaining then it.back - it.step else it.back })

def call : End → IntRangeIter → Option Int64 × IntRangeIter
  | .front => nextItem
  | .back => nextBack

/-- The machine steps that the next calls make are exact. -/
def StepsFit (it : IntRangeIter) : Prop :=
  2 ≤ it.remaining →
    InI64 (it.next.toInt + it.step.toInt) ∧ InI64 (it.back.toInt - it.step.toInt)

end IntRangeIter

namespace IntRangeData

def iter (r : IntRangeData) : IntRangeIter :=
  ⟨r.start, r.lastValue.getD r.start, r.step, r.len⟩

/-- The item at a position that the range has. -/
def item (r : IntRangeData) (i : Nat) : Int64 := Int64.ofInt (r.start.toInt + r.step.toInt * i)

theorem item_toInt (r : IntRangeData) {i : Nat} (hi : i < r.len) :
    (r.item i).toInt = r.start.toInt + r.step.toInt * i :=
  r.toInt_item hi

theorem get_eq_item (r : IntRangeData) {i : Nat} (hi : i < r.len) : r.get i = some (r.item i) := by
  unfold get
  rw [if_neg (Nat.not_le.mpr hi)]
  exact i64?_some_iff.mpr (r.item_toInt hi)

theorem toVec_eq (r : IntRangeData) : r.toVec = (List.range r.len).map r.item := rfl

theorem lastValue_eq (r : IntRangeData) (h : 0 < r.len) :
    r.lastValue = some (r.item (r.len - 1)) := by
  unfold lastValue
  rw [if_neg (by omega), r.get_eq_item (by omega)]

theorem reversed_fits {r : IntRangeData} {last step : Int64} (hlast : r.lastValue = some last)
    (hstep : i64? (-r.step.toInt) = some step) :
    ∀ i < r.len, InI64 (last.toInt + step.toInt * i) := by
  intro i hi
  rw [r.lastValue_eq (by omega)] at hlast
  obtain rfl := Option.some.inj hlast
  rw [r.item_toInt (by omega), i64?_some_iff.mp hstep]
  have hfits := r.fits (r.len - 1 - i) (by omega)
  have heq : r.start.toInt + r.step.toInt * ((r.len - 1 - i : Nat) : Int) =
      r.start.toInt + r.step.toInt * ((r.len - 1 : Nat) : Int) + -r.step.toInt * i := by
    rw [Nat.cast_sub (by omega)]
    ring
  rwa [heq] at hfits

/-- The range from its last item back, where the step has a negative. -/
def reversed (r : IntRangeData) : Option IntRangeData :=
  if r.len ≤ 1 then some r
  else
    match hlast : r.lastValue, hstep : i64? (-r.step.toInt) with
    | some last, some step => some ⟨last, step, r.len, reversed_fits hlast hstep⟩
    | _, _ => none

end IntRangeData

/-- The builtin `reverse`. -/
def reverse : Value → Value
  | .intRange range =>
    match range.reversed with
    | some reversed => .intRange reversed
    | none => .intList range.toVec.reverse
  | .intList items => .intList items.reverse
  | .floatList items => .floatList items.reverse
  | .boolList items => .boolList items.reverse
  | .list items => .fromItems items.reverse
  | .string s => .string (String.ofList s.toList.reverse)
  | .dict entries => .dict entries.reverse
  | other => other

/-! ### Iterating -/

namespace IntRangeData

theorem item_zero (r : IntRangeData) : r.item 0 = r.start := by
  simp [item]

/-- One step from an item to the next is exact. -/
theorem item_succ (r : IntRangeData) {i : Nat} (hi : i + 1 < r.len) :
    (r.item (i + 1)).toInt = (r.item i).toInt + r.step.toInt := by
  rw [r.item_toInt hi, r.item_toInt (by omega)]
  push_cast
  ring

theorem item_add_step (r : IntRangeData) {i : Nat} (hi : i + 1 < r.len) :
    r.item i + r.step = r.item (i + 1) := by
  have hsum := r.item_succ hi
  apply Int64.toInt_inj.mp
  rw [Int64.toInt_add, ← hsum]
  exact Int.bmod_eq_of_le (by have := (r.item (i + 1)).le_toInt; omega)
    (by have := (r.item (i + 1)).toInt_lt; omega)

theorem item_sub_step (r : IntRangeData) {i : Nat} (hi : i + 1 < r.len) :
    r.item (i + 1) - r.step = r.item i := by
  rw [← r.item_add_step hi]
  simp

/-- The items at the positions from `i` up to `i + n`. -/
def window (r : IntRangeData) (i n : Nat) : List Int64 := (List.range' i n).map r.item

theorem window_zero (r : IntRangeData) : r.window 0 r.len = r.toVec := by
  rw [toVec_eq, window, List.range_eq_range']

theorem window_succ (r : IntRangeData) (i n : Nat) :
    r.window i (n + 1) = r.item i :: r.window (i + 1) n := by
  simp [window, List.range'_succ]

theorem window_concat (r : IntRangeData) (i n : Nat) :
    r.window i (n + 1) = r.window i n ++ [r.item (i + n)] := by
  simp [window, List.range'_concat]

end IntRangeData

namespace IntRangeIter

/-- The iterator has the items of a part of the range left. -/
def Follows (r : IntRangeData) (it : IntRangeIter) (xs : List Int64) : Prop :=
  ∃ i, i + it.remaining ≤ r.len ∧ xs = r.window i it.remaining ∧ it.step = r.step ∧
    (0 < it.remaining → it.next = r.item i ∧ it.back = r.item (i + it.remaining - 1))

theorem follows_iter (r : IntRangeData) : Follows r r.iter r.toVec := by
  refine ⟨0, by simp [IntRangeData.iter], r.window_zero.symm, rfl, fun h => ⟨?_, ?_⟩⟩
  · exact r.item_zero.symm
  · have h : 0 < r.len := h
    simp [IntRangeData.iter, r.lastValue_eq h]

/-- An iterator on a range never wraps. -/
theorem Follows.stepsFit {r : IntRangeData} {it : IntRangeIter} {xs : List Int64}
    (h : Follows r it xs) : it.StepsFit := by
  obtain ⟨i, hlen, -, hstep, hends⟩ := h
  intro htwo
  obtain ⟨hnext, hback⟩ := hends (by omega)
  obtain ⟨j, hj⟩ : ∃ j, i + it.remaining - 1 = j + 1 := ⟨i + it.remaining - 2, by omega⟩
  rw [hnext, hback, hj, hstep, ← r.item_succ (by omega), r.item_succ (i := j) (by omega),
    add_sub_cancel_right]
  exact ⟨⟨Int64.le_toInt _, Int64.toInt_lt _⟩, ⟨Int64.le_toInt _, Int64.toInt_lt _⟩⟩

theorem call_front (next back step : Int64) (n : Nat) :
    call .front ⟨next, back, step, n + 1⟩ =
      (some next, ⟨if 0 < n then next + step else next, back, step, n⟩) := by
  simp [call, nextItem]

theorem call_back (next back step : Int64) (n : Nat) :
    call .back ⟨next, back, step, n + 1⟩ =
      (some back, ⟨next, if 0 < n then back - step else back, step, n⟩) := by
  simp [call, nextBack]

/-- A call at either end takes the item there. -/
theorem Follows.call {r : IntRangeData} (e : End) (it : IntRangeIter) (xs : List Int64)
    (h : Follows r it xs) :
    (call e it).1 = (pull e xs).1 ∧ Follows r (call e it).2 (pull e xs).2 := by
  obtain ⟨i, hlen, rfl, hstep, hends⟩ := h
  obtain ⟨next, back, step, remaining⟩ := it
  dsimp only at hlen hstep hends
  cases remaining with
  | zero => cases e <;> exact ⟨rfl, i, hlen, rfl, hstep, nofun⟩
  | succ n =>
    obtain ⟨rfl, rfl⟩ := hends (Nat.succ_pos n)
    subst hstep
    cases e with
    | front =>
      rw [call_front, r.window_succ]
      refine ⟨rfl, i + 1, by dsimp only; omega, rfl, rfl, fun hn => ?_⟩
      have hn : 0 < n := hn
      refine ⟨?_, ?_⟩
      · dsimp only
        rw [if_pos hn, r.item_add_step (by omega)]
      · exact congrArg r.item (by dsimp only; omega)
    | back =>
      rw [call_back, r.window_concat]
      refine ⟨by simp [pull], i, by dsimp only; omega, by simp [pull], rfl, fun hn => ?_⟩
      have hn : 0 < n := hn
      refine ⟨rfl, ?_⟩
      obtain ⟨m, rfl⟩ : ∃ m, n = m + 1 := ⟨n - 1, by omega⟩
      dsimp only
      rw [if_pos hn]
      exact r.item_sub_step (i := i + m) (by omega)

/-- **Iterating a range.** Every run of calls at both ends gives what the same
calls give on the list of its items, and none of its machine steps wraps. -/
theorem run_iter (r : IntRangeData) (es : List End) :
    (run call es r.iter).1 = (run pull es r.toVec).1 ∧ (run call es r.iter).2.StepsFit := by
  obtain ⟨hout, hend⟩ := run_refines (@Follows.call r) es (follows_iter r)
  exact ⟨hout, hend.stepsFit⟩

end IntRangeIter

/-! ### Reading and reversing -/

namespace IntRangeData

theorem get_fun (r : IntRangeData) : r.get = fun (i : Nat) => r.toVec[i]? :=
  funext r.get_eq

/-- A range is indexed as the list of its items is. -/
theorem index_eq (r : IntRangeData) (key : Value) :
    (Value.intRange r).index key = (Value.intList r.toVec).index key := by
  simp only [Value.index, ValueSeq.fromValue, ValueSeq.len, r.length_toVec]
  congr 2
  · funext i
    simp only [ValueSeq.get, r.get_eq]
  · funext idxs
    simp only [ValueSeq.gather, r.get_fun]

theorem indexMany_eq (r : IntRangeData) (keys : List Value) :
    (Value.intRange r).indexMany keys = (Value.intList r.toVec).indexMany keys := by
  simp only [Value.indexMany, ValueSeq.fromValue, ValueSeq.len, r.length_toVec, ValueSeq.gather,
    r.get_fun]

theorem reverse_toVec (r : IntRangeData) :
    r.toVec.reverse = (List.range r.len).map fun i => r.item (r.len - 1 - i) := by
  rw [toVec_eq, ← List.map_reverse, List.range_eq_range', List.reverse_range', List.map_map,
    List.range_eq_range']
  simp [Function.comp_def]

/-- The reversal of a range has the items in reverse. -/
theorem toVec_reversed {r reversed : IntRangeData} (h : r.reversed = some reversed) :
    reversed.toVec = r.toVec.reverse := by
  unfold IntRangeData.reversed at h
  split_ifs at h with hlen
  · obtain rfl := Option.some.inj h
    rw [reverse_toVec, toVec_eq]
    refine List.map_congr_left fun i hi => congrArg r.item ?_
    have := List.mem_range.mp hi
    omega
  · split at h
    · rename_i last step hlast hstep
      obtain rfl := Option.some.inj h
      have hend : last = r.item (r.len - 1) :=
        Option.some.inj (hlast.symm.trans (r.lastValue_eq (by omega)))
      rw [reverse_toVec, toVec_eq]
      refine List.map_congr_left fun i hi => ?_
      have hi : i < r.len := List.mem_range.mp hi
      apply Int64.toInt_inj.mp
      refine (item_toInt ⟨_, step, r.len, reversed_fits hlast hstep⟩ hi).trans ?_
      dsimp only
      rw [hend, r.item_toInt (by omega), r.item_toInt (by omega), i64?_some_iff.mp hstep, Nat.sub_sub,
        Nat.cast_sub (by omega), Nat.cast_sub (by omega)]
      push_cast
      ring
    · cases h

/-- **Reversing a range.** Both ways to reverse it give the items in reverse. -/
theorem reverse_range (r : IntRangeData) :
    ∃ seq, ValueSeq.fromValue (reverse (.intRange r)) = some seq ∧
      seq.values = r.toVec.reverse.map .int := by
  unfold reverse
  dsimp only
  cases h : r.reversed with
  | some reversed => exact ⟨.intRange reversed, rfl, congrArg _ (toVec_reversed h)⟩
  | none => exact ⟨.intList r.toVec.reverse, rfl, rfl⟩

end IntRangeData

end Wqpl
