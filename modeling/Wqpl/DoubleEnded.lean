/-
# Double-ended iteration

An iterator that can be called at both ends, and the list of the items it has
left (`pull`). An iterator that follows a list call by call follows it through
every run (`run_refines`), and what a run takes at the front, what it leaves and
what it takes at the back, read backwards, is the list (`run_pull`).
-/
import Mathlib.Data.List.Basic

namespace Wqpl
namespace DoubleEnded

/-- The end at which an iterator is called. -/
inductive End
  | front
  | back
deriving DecidableEq, Repr

variable {α σ : Type}

/-- A call on the list of the items left. -/
def pull : End → List α → Option α × List α
  | .front, xs => (xs.head?, xs.tail)
  | .back, xs => (xs.getLast?, xs.dropLast)

/-- Several calls, each with its end and what it gives. -/
def run (call : End → σ → Option α × σ) : List End → σ → List (End × Option α) × σ
  | [], s => ([], s)
  | e :: es, s => ((e, (call e s).1) :: (run call es (call e s).2).1, (run call es (call e s).2).2)

/-- The items that the calls at an end gave, in their order. -/
def produced (e : End) (out : List (End × Option α)) : List α :=
  out.filterMap fun c => if c.1 = e then c.2 else none

@[simp] theorem produced_nil (e : End) : produced e ([] : List (End × Option α)) = [] := rfl

@[simp] theorem produced_cons (e e' : End) (x : Option α) (out : List (End × Option α)) :
    produced e ((e', x) :: out) = (if e' = e then x.toList else []) ++ produced e out := by
  unfold produced
  by_cases h : e' = e
  · cases x <;> simp [h]
  · simp [h]

theorem head?_toList_append_tail (xs : List α) : xs.head?.toList ++ xs.tail = xs := by
  cases xs <;> rfl

theorem dropLast_append_getLast?_toList (xs : List α) : xs.dropLast ++ xs.getLast?.toList = xs := by
  rcases List.eq_nil_or_concat xs with rfl | ⟨ys, y, rfl⟩
  · rfl
  · simp

/-- **Each item once.** What a run takes at the front, what it leaves, and what it
takes at the back in reverse are the items in order. -/
theorem run_pull (es : List End) (xs : List α) :
    produced .front (run pull es xs).1 ++ (run pull es xs).2 ++
      (produced .back (run pull es xs).1).reverse = xs := by
  induction es generalizing xs with
  | nil => simp [run]
  | cons e es ih =>
    cases e with
    | front =>
      calc produced .front (run pull (.front :: es) xs).1 ++ (run pull (.front :: es) xs).2 ++
            (produced .back (run pull (.front :: es) xs).1).reverse
        _ = xs.head?.toList ++ (produced .front (run pull es xs.tail).1 ++
            (run pull es xs.tail).2 ++ (produced .back (run pull es xs.tail).1).reverse) := by
          simp [run, pull]
        _ = xs.head?.toList ++ xs.tail := by rw [ih]
        _ = xs := head?_toList_append_tail xs
    | back =>
      calc produced .front (run pull (.back :: es) xs).1 ++ (run pull (.back :: es) xs).2 ++
            (produced .back (run pull (.back :: es) xs).1).reverse
        _ = (produced .front (run pull es xs.dropLast).1 ++ (run pull es xs.dropLast).2 ++
            (produced .back (run pull es xs.dropLast).1).reverse) ++ xs.getLast?.toList := by
          have hone : xs.getLast?.toList.reverse = xs.getLast?.toList := by
            rcases xs.getLast? with _ | x <;> rfl
          simp [run, pull, hone]
        _ = xs.dropLast ++ xs.getLast?.toList := by rw [ih]
        _ = xs := dropLast_append_getLast?_toList xs

/-- As many items are left as there were, less the calls. -/
theorem run_pull_length (es : List End) (xs : List α) :
    (run pull es xs).2.length = xs.length - es.length := by
  induction es generalizing xs with
  | nil => rfl
  | cons e es ih =>
    have hstep : (pull e xs).2.length = xs.length - 1 := by cases e <;> simp [pull]
    calc (run pull (e :: es) xs).2.length
      _ = (pull e xs).2.length - es.length := ih _
      _ = xs.length - (e :: es).length := by rw [hstep, List.length_cons]; omega

/-- **Following a list.** An iterator whose calls follow those on the list it
stands for follows them in every run. -/
theorem run_refines {call : End → σ → Option α × σ} {Follows : σ → List α → Prop}
    (hcall : ∀ e s xs, Follows s xs →
      (call e s).1 = (pull e xs).1 ∧ Follows (call e s).2 (pull e xs).2)
    (es : List End) {s : σ} {xs : List α} (h : Follows s xs) :
    (run call es s).1 = (run pull es xs).1 ∧ Follows (run call es s).2 (run pull es xs).2 := by
  induction es generalizing s xs with
  | nil => exact ⟨rfl, h⟩
  | cons e es ih =>
    obtain ⟨hitem, hrest⟩ := hcall e s xs h
    obtain ⟨hout, hend⟩ := ih hrest
    refine ⟨?_, hend⟩
    simp only [run, hitem, hout]

end DoubleEnded
end Wqpl
