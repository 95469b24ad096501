/-
# Folding in chunks

A parallel fold cuts the items into chunks, folds each of them from the identity
and then combines the results of neighbouring chunks. Where a measure of the
accumulator turns both steps into one associative operation, the measure of the
result is the fold of all items in order, for every way to cut them
(`Measure.foldReduce`).
-/
import Mathlib.Data.List.Basic

/-- A way to cut items into chunks, and the order in which neighbours are combined. -/
inductive ChunkTree (α : Type)
  | chunk (items : List α)
  | join (left right : ChunkTree α)

namespace ChunkTree

variable {α β γ : Type}

def items : ChunkTree α → List α
  | chunk items => items
  | join left right => left.items ++ right.items

/-- Chunks are folded from the identity, and so are the results of one chunk. -/
def foldReduce (identity : β) (fold : β → α → β) (reduce : β → β → β) : ChunkTree α → β
  | chunk items => reduce identity (items.foldl fold identity)
  | join left right =>
    reduce (left.foldReduce identity fold reduce) (right.foldReduce identity fold reduce)

/-- The accumulators measured by the operation `op`, an item counting `item a`. -/
structure Measure (identity : β) (fold : β → α → β) (reduce : β → β → β) (op : γ → γ → γ)
    (one : γ) (item : α → γ) where
  measure : β → γ
  identity : measure identity = one
  fold : ∀ b a, measure (fold b a) = op (measure b) (item a)
  reduce : ∀ b c, measure (reduce b c) = op (measure b) (measure c)

section Measure

variable {identity : β} {fold : β → α → β} {reduce : β → β → β} {op : γ → γ → γ} {one : γ}
  {item : α → γ}

theorem Measure.foldl (m : Measure identity fold reduce op one item) (items : List α) (b : β) :
    m.measure (items.foldl fold b) = (items.map item).foldl op (m.measure b) := by
  induction items generalizing b with
  | nil => rfl
  | cons a items ih => rw [List.foldl_cons, ih, m.fold, List.map_cons, List.foldl_cons]

variable [Std.Associative op] [Std.LawfulIdentity op one]

theorem foldl_op (xs : List γ) (x : γ) : xs.foldl op x = op x (xs.foldl op one) := by
  induction xs generalizing x with
  | nil => exact (Std.LawfulRightIdentity.right_id x).symm
  | cons y xs ih =>
    have hone : op one y = y := Std.LawfulLeftIdentity.left_id y
    calc (y :: xs).foldl op x = op (op x y) (xs.foldl op one) := ih (op x y)
      _ = op x (op y (xs.foldl op one)) := Std.Associative.assoc x y _
      _ = op x (op (op one y) (xs.foldl op one)) := by rw [hone]
      _ = op x ((y :: xs).foldl op one) := by rw [List.foldl_cons, ih (op one y)]

/-- **Chunks do not matter.** -/
theorem Measure.foldReduce (m : Measure identity fold reduce op one item) (tree : ChunkTree α) :
    m.measure (tree.foldReduce identity fold reduce) = (tree.items.map item).foldl op one := by
  induction tree with
  | chunk items =>
    rw [ChunkTree.foldReduce, m.reduce, m.foldl, m.identity]
    exact Std.LawfulLeftIdentity.left_id _
  | join left right ihl ihr =>
    rw [ChunkTree.foldReduce, m.reduce, ihl, ihr, ChunkTree.items, List.map_append,
      List.foldl_append]
    exact (foldl_op _ _).symm

end Measure

end ChunkTree

/-- A way to cut every list. -/
structure Splitting (α : Type) where
  tree : List α → ChunkTree α
  items_tree : ∀ xs, (tree xs).items = xs

/-- All items in one chunk. -/
def Splitting.whole (α : Type) : Splitting α := ⟨.chunk, fun _ => rfl⟩
