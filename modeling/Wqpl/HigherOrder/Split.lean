/-
# splitw

The recursive `splitw` and its frame go through the items alike. They differ
in what they accept and in how they build a chunk: the frame also takes a
dictionary, and it treats an empty packed list as a string
(`splitw_agree_iff`).
-/
import Wqpl.HigherOrder.Agreement

namespace Wqpl
namespace Ho

open Dialogue

/-! ### The recursive function by the kind of its source -/

/-- How the recursive `splitw` builds the chunks of a source. -/
def syncSourceKind (xs : Value) : SplitSourceKind :=
  match xs with
  | .string _ => .string
  | .list _ => if xs.isString then .string else .general
  | _ => .packed

/-- The value of all chunks. -/
def splitResult : SplitSourceKind → List Value → Value
  | .string, chunks => Value.fromItems chunks
  | .packed, chunks => .list chunks
  | .general, chunks => .list chunks

/-- The loop over a sequence, with the chunks of the kind. -/
def splitSequence (f : Value) (limit : Nat) (kind : SplitSourceKind) (items : List Value) :
    HoM Value := do
  return splitResult kind (← splitLoop f limit (SplitFrame.chunkOf kind) items 0 [] [])

theorem splitw_eq (args : BuiltinFnArgs) (xs f : Value) :
    splitw args xs f = (do
      let limit ← lift (splitwLimit args)
      if xs.isList then splitSequence f limit (syncSourceKind xs) xs.containerItems
      else throw .domain) := by
  unfold splitw
  cases splitwLimit args with
  | error e => rfl
  | ok limit =>
    simp only [lift_ok_bind]
    cases xs with
    | list items =>
      by_cases h : (Value.list items).isString = true
      · simp only [h, if_true, syncSourceKind]
        rfl
      · simp only [h, syncSourceKind]
        rfl
    | _ => rfl

/-! ### The frame -/

namespace SplitFrame

/-- The frame with the items from `next` on left. Without results the chunks
it keeps do not matter. -/
theorem unfolds_drop (src : ItemSource) (kind : SplitSourceKind) (f : Value) (limit : Nat)
    (d : Bool) : ∀ (rest : List Value) (next splitsDone : Nat)
      (current chunks current' chunks' : List Value), src.items.drop next = rest →
      (d = false → current = current' ∧ chunks = chunks') →
      Unfolds step ⟨src, kind, f, limit, splitsDone, next, none, none, current, chunks, d⟩
        (do
          let cs ← splitLoop f limit (chunkOf kind) rest splitsDone current' chunks'
          return finalValue d (splitResult kind cs))
  | [], next, splitsDone, current, chunks, current', chunks', h, hd => by
    have hnext : src.get next = none := by
      rw [ItemSource.get_eq]
      simpa using h
    rw [splitLoop, pure_bind]
    refine .ready ?_
    cases d with
    | true => simp [step, hnext, finalValue]
    | false =>
      obtain ⟨rfl, rfl⟩ := hd rfl
      cases kind <;> simp [step, hnext, finalValue, splitResult, finishChunk]
  | item :: rest, next, splitsDone, current, chunks, current', chunks', h, hd => by
    have hnext : src.get next = some item := by
      rw [ItemSource.get_eq, ← List.head?_drop, h, List.head?_cons]
    have hrest : src.items.drop (next + 1) = rest := by
      rw [← List.drop_drop, h, List.drop_one, List.tail_cons]
    have hcall : step ⟨src, kind, f, limit, splitsDone, next, none, none, current, chunks, d⟩ =
        .call (f, [item]) (acceptCallbackResult
          ⟨src, kind, f, limit, splitsDone, next + 1, some item, none, current, chunks, d⟩) := by
      simp [step, hnext]
    simp only [splitLoop, callFn_bind, ask_bind]
    refine .call hcall fun a => ?_
    cases ha : predicateResult a with
    | error e =>
      have hb : a.tryToRustBool = none ∧ e = .domain := by
        cases a <;> simp_all [predicateResult, Value.tryToRustBool]
      rw [hb.1]
      exact .ready (by simp [step, acceptCallbackResult, predicateBool_eq, ha, hb.2])
    | ok split =>
      have hb : a.tryToRustBool = some split := by
        cases a <;> simp_all [predicateResult, Value.tryToRustBool]
      rw [hb]
      have htake : step (acceptCallbackResult
          ⟨src, kind, f, limit, splitsDone, next + 1, some item, none, current, chunks, d⟩ a) =
          .silent (takeAnswer ⟨src, kind, f, limit, splitsDone, next + 1, some item, some a,
            current, chunks, d⟩ split item) := by
        simp [step, acceptCallbackResult, predicateBool_eq, ha]
      by_cases hsplit : split = true ∧ splitsDone < limit
      · have hstate : takeAnswer ⟨src, kind, f, limit, splitsDone, next + 1, some item, some a,
            current, chunks, d⟩ split item =
            ⟨src, kind, f, limit, splitsDone + 1, next + 1, none, none,
              if d then current else [],
              if d then chunks else chunks ++ [chunkOf kind current], d⟩ := by
          cases d <;> simp [takeAnswer, hsplit, finishChunk]
        rw [hstate] at htake
        refine .silent htake ?_
        simp only [hsplit.1, hsplit.2, if_true]
        refine unfolds_drop src kind f limit d rest (next + 1) (splitsDone + 1) _ _ _ _ hrest
          fun hfalse => ?_
        obtain ⟨rfl, rfl⟩ := hd hfalse
        simp [hfalse]
      · have hstate : takeAnswer ⟨src, kind, f, limit, splitsDone, next + 1, some item, some a,
            current, chunks, d⟩ split item =
            ⟨src, kind, f, limit, splitsDone, next + 1, none, none,
              if d then current else current ++ [item], chunks, d⟩ := by
          cases d <;> simp [takeAnswer, hsplit]
        rw [hstate] at htake
        refine .silent htake ?_
        have ih := unfolds_drop src kind f limit d rest (next + 1) splitsDone
          (if d then current else current ++ [item]) chunks (current' ++ [item]) chunks' hrest
          fun hfalse => by
            obtain ⟨rfl, rfl⟩ := hd hfalse
            simp [hfalse]
        cases split with
        | false => exact ih
        | true =>
          have hlimit : ¬splitsDone < limit := fun h => hsplit ⟨rfl, h⟩
          simpa only [hlimit, if_false] using ih

/-- The frame over a container. -/
theorem unfolds_new {xs : Value} {src : ItemSource} (hsrc : ItemSource.fromValue xs = some src)
    (f : Value) (limit : Nat) (d : Bool) :
    Unfolds step ⟨src, sourceKindOf xs, f, limit, 0, 0, none, none, [], [], d⟩
      (finalValue d <$> splitSequence f limit (sourceKindOf xs) xs.containerItems) := by
  have hitems : src.items = xs.containerItems := by
    have h := ItemSource.map_items_fromValue xs
    rw [hsrc, Option.map_some] at h
    cases xs <;> first
      | exact Option.some.inj h
      | simp [ItemSource.fromValue, ValueSeq.fromValue] at hsrc
  have h := unfolds_drop src (sourceKindOf xs) f limit d src.items 0 0 [] [] [] [] rfl
    fun _ => ⟨rfl, rfl⟩
  rw [hitems] at h
  simpa [splitSequence] using h

end SplitFrame

/-! ### Where the two agree -/

/-- A packed list without items. -/
def isEmptyPacked (xs : Value) : Bool :=
  match xs with
  | .intList _ | .intRange _ | .floatList _ | .boolList _ => xs.len == 0
  | _ => false

theorem sourceKindOf_eq {xs : Value} (hl : xs.isList = true) (he : isEmptyPacked xs = false) :
    SplitFrame.sourceKindOf xs = syncSourceKind xs := by
  cases xs <;>
    simp_all [SplitFrame.sourceKindOf, syncSourceKind, Value.isString, Value.isUnit,
      isEmptyPacked, Value.isList]

theorem containerItems_of_isEmptyPacked {xs : Value} (he : isEmptyPacked xs = true) :
    xs.containerItems = [] := by
  cases xs <;>
    simp_all [isEmptyPacked, Value.len, ValueSeq.fromValue, ValueSeq.len, Value.containerItems,
      ValueSeq.values, IntRangeData.toVec]

theorem sourceKindOf_of_isEmptyPacked {xs : Value} (he : isEmptyPacked xs = true) :
    SplitFrame.sourceKindOf xs = .string ∧ syncSourceKind xs = .packed ∧ xs.isList = true := by
  cases xs <;>
    simp_all [isEmptyPacked, SplitFrame.sourceKindOf, syncSourceKind, Value.isString,
      Value.isUnit, Value.isList]

/-- The dialogue of the frame of `splitw`, once its arguments are checked. -/
def frameSplit (f : Value) (limit : Nat) (xs : Value) : HoM Value :=
  if xs.isAtom then fail .domain
  else splitSequence f limit (SplitFrame.sourceKindOf xs) xs.containerItems

/-- The dialogue of the recursive `splitw`, once its arguments are checked. -/
def syncSplit (f : Value) (limit : Nat) (xs : Value) : HoM Value :=
  if xs.isList then splitSequence f limit (syncSourceKind xs) xs.containerItems
  else fail .domain

/-- **splitw agrees exactly on sequences and atoms**, an empty packed list
only when its value is dropped. -/
theorem frameSplit_eq_syncSplit_iff (f : Value) (limit : Nat) (d : Bool) (xs : Value) :
    finalValue d <$> frameSplit f limit xs = finalValue d <$> syncSplit f limit xs ↔
      xs.isDict = false ∧ (d = true ∨ isEmptyPacked xs = false) := by
  unfold frameSplit syncSplit
  by_cases hd : xs.isDict = true
  · -- a dictionary: an error against a callback or a value
    obtain ⟨entries, rfl⟩ := Value.exists_dict hd
    have hne : ¬finalValue d <$> splitSequence f limit
        (SplitFrame.sourceKindOf (.dict entries)) (Value.dict entries).containerItems =
          finalValue d <$> (fail .domain : HoM Value) := by
      unfold splitSequence
      cases entries with
      | nil =>
        intro h
        injection h with h
        cases h
      | cons e es =>
        intro h
        cases h
    simpa [Value.isAtom, Value.isList, Value.isDict] using hne
  by_cases ha : xs.isAtom = true
  · have hl : xs.isList = false := by cases xs <;> first | rfl | cases ha
    have he : isEmptyPacked xs = false := by cases xs <;> first | rfl | cases ha
    simp [ha, hl, he, hd]
  have hl : xs.isList = true := by
    cases xs <;> first | rfl | exact absurd rfl ha | exact absurd rfl hd
  simp only [ha, hl, if_true, Bool.false_eq_true, if_false]
  by_cases he : isEmptyPacked xs = true
  · obtain ⟨h1, h2, -⟩ := sourceKindOf_of_isEmptyPacked he
    rw [h1, h2, containerItems_of_isEmptyPacked he]
    cases d with
    | true =>
      have heq : finalValue true <$> splitSequence f limit .string [] =
          finalValue true <$> splitSequence f limit .packed [] := rfl
      simp [heq, hd]
    | false =>
      have hne : ¬finalValue false <$> splitSequence f limit .string [] =
          finalValue false <$> splitSequence f limit .packed [] := by
        intro h
        injection h with h
        injection h with h
        injection h with h
        injection h with h
        cases h
      simpa [he] using hne
  · have he' : isEmptyPacked xs = false := by simpa using he
    rw [sourceKindOf_eq hl he']
    simp [he', hd]

end Ho
end Wqpl
