/-
# The frames that follow their recursion

The dialogues of the frames of `apply`, `map`, `fold`, `scan`, `rscan`, `any`,
`all` and `filter`, each by what is left of the recursion when the frame stands
at a task, an item or an answer.
-/
import Wqpl.HigherOrder.Frames

namespace Wqpl
namespace Ho

open Dialogue

theorem callFn_bind {α : Type} (f : Value) (args : List Value) (k : Value → HoM α) :
    (callFn f args >>= k) = ask (f, args) k := rfl

/-! ### apply -/

/-- The frame, with the functions from `next` on left to call. -/
theorem ApplyFrame.unfolds_drop (fs : List Value) (x : Value) (d : Bool) :
    ∀ (rest : List Value) (next : Nat) (results : List Value), fs.drop next = rest →
      Unfolds ApplyFrame.step ⟨fs, x, next, d, results, none⟩
        (do
          let rs ← rest.mapM fun f => callFn f [x]
          return finalValue d (Value.fromItems (results ++ rs)))
  | [], next, results, h => by
    have hnext : fs[next]? = none := by simpa using h
    rw [List.mapM_nil]
    refine .ready ?_
    cases d <;> simp [ApplyFrame.step, hnext, finalValue]
  | f :: rest, next, results, h => by
    have hnext : fs[next]? = some f := by
      rw [← List.head?_drop, h, List.head?_cons]
    have hrest : fs.drop (next + 1) = rest := by
      rw [← List.drop_drop, h, List.drop_one, List.tail_cons]
    have hcall : ApplyFrame.step ⟨fs, x, next, d, results, none⟩ =
        .call (f, [x]) (ApplyFrame.acceptCallbackResult ⟨fs, x, next + 1, d, results, none⟩) := by
      simp [ApplyFrame.step, hnext]
    simp only [List.mapM_cons, bind_assoc, callFn_bind, pure_bind, ask_bind]
    have htake : ∀ a, ApplyFrame.step
        (ApplyFrame.acceptCallbackResult ⟨fs, x, next + 1, d, results, none⟩ a) =
          .silent ⟨fs, x, next + 1, d, if d then results else results ++ [a], none⟩ := fun _ => rfl
    refine .call_silent hcall htake fun a => ?_
    have ih := ApplyFrame.unfolds_drop fs x d rest (next + 1)
      (if d then results else results ++ [a]) hrest
    cases d <;> simpa [finalValue] using ih

theorem ignore_bind {α : Type} (t : HoM α) (v : Value) :
    (do Value.ignore t; return v) = (fun _ => v) <$> t := by
  simp [Value.ignore]

theorem applyDiscard_eq (fs x : Value) : applyDiscard fs x = finalValue true <$> apply fs x := by
  unfold applyDiscard apply
  cases fs with
  | list items =>
    simp only
    rw [Value.forM_ignore, ignore_bind]
    simp [finalValue]
  | _ => rfl

theorem ApplyFrame.unfolds_new (fs x : Value) (d : Bool) :
    Unfolds ApplyFrame.step (ApplyFrame.new fs x d) (finalValue d <$> apply fs x) := by
  have h : ∀ funcs : List Value, Unfolds ApplyFrame.step ⟨funcs, x, 0, d, [], none⟩
      (finalValue d <$> do return Value.fromItems (← funcs.mapM fun f => callFn f [x])) := by
    intro funcs
    simpa using ApplyFrame.unfolds_drop funcs x d funcs 0 [] rfl
  cases fs with
  | list funcs => exact h funcs
  | _ => exact h [_]

/-! ### fold, scan and rscan -/

namespace ItemSource

def items : ItemSource → List Value
  | sequence value => ((ValueSeq.fromValue value).map ValueSeq.values).getD []
  | dict entries => entries.map Prod.snd

theorem get_eq (src : ItemSource) (i : Nat) : src.get i = src.items[i]? := by
  cases src with
  | sequence value =>
    cases h : ValueSeq.fromValue value <;> simp [get, items, h, ValueSeq.get_eq]
  | dict entries => simp [get, items]

theorem len_eq (src : ItemSource) : src.len = src.items.length := by
  cases src with
  | sequence value => cases h : ValueSeq.fromValue value <;> simp [len, items, h]
  | dict entries => simp [len, items]

/-- The frames and the recursive functions read the same items. -/
theorem map_items_fromValue (xs : Value) : (fromValue xs).map items = foldSource xs := by
  cases xs <;> rfl

end ItemSource

namespace FoldScanFrame

/-- The index the frame reads next, and the items it reads from there on. -/
def Pending (kind : FoldScanKind) (src : ItemSource) : Option Nat → List Value → Prop
  | none, [] => True
  | some i, v :: rest => src.get i = some v ∧ Pending kind src (nextIndex kind src.len i) rest
  | _, _ => False

theorem pending_forward {kind : FoldScanKind} (hk : kind ≠ .rscan) (src : ItemSource) :
    ∀ (rest : List Value) (i : Nat), src.items.drop i = rest →
      Pending kind src (if i < src.len then some i else none) rest
  | [], i, h => by
    have hi : ¬i < src.len := by
      rw [ItemSource.len_eq]
      simpa using h
    simp only [hi, if_false, Pending]
  | v :: rest, i, h => by
    have hget : src.items[i]? = some v := by rw [← List.head?_drop, h, List.head?_cons]
    have hi : i < src.len := by
      rw [ItemSource.len_eq]
      exact (List.getElem?_eq_some_iff.mp hget).1
    have hrest : src.items.drop (i + 1) = rest := by
      rw [← List.drop_drop, h, List.drop_one, List.tail_cons]
    simp only [hi, if_true, Pending, ItemSource.get_eq, hget, true_and, nextIndex, hk, if_false]
    exact pending_forward hk src rest (i + 1) hrest

theorem pending_backward (src : ItemSource) : ∀ i, i ≤ src.items.length →
    Pending .rscan src (checkedPred i) (src.items.take i).reverse
  | 0, _ => by simp [checkedPred, Pending]
  | i + 1, h => by
    have hlt : i < src.items.length := h
    have hget : src.items[i]? = some src.items[i] := List.getElem?_eq_getElem hlt
    rw [List.take_add_one, hget]
    simp only [Option.toList_some, List.reverse_append, List.reverse_singleton,
      List.singleton_append, checkedPred, Pending, ItemSource.get_eq, hget, true_and, nextIndex,
      if_true]
    exact pending_backward src i (by omega)

/-- A fold with items left. -/
theorem unfolds_fold (src : ItemSource) (f : Value) (d : Bool) :
    ∀ (rest : List Value) (next : Option Nat) (acc : Value) (results : List Value),
      Pending .fold src next rest →
      Unfolds step ⟨.fold, some src, f, next, some acc, results, none, none, d⟩
        (finalValue d <$> foldItems f acc rest)
  | [], none, acc, results, _ => .ready (by cases d <;> rfl)
  | v :: rest, some i, acc, results, ⟨hget, hp⟩ => by
    have hcall : step ⟨.fold, some src, f, some i, some acc, results, none, none, d⟩ =
        .call (f, [acc, v]) (acceptCallbackResult
          ⟨.fold, some src, f, nextIndex .fold src.len i, some acc, results, none, none, d⟩) := by
      simp [step, hget]
    have htake : ∀ a, step (acceptCallbackResult
        ⟨.fold, some src, f, nextIndex .fold src.len i, some acc, results, none, none, d⟩ a) =
          .silent ⟨.fold, some src, f, nextIndex .fold src.len i, some a, results, none, none, d⟩ :=
      fun _ => rfl
    exact .call_silent hcall htake fun a => unfolds_fold src f d rest _ a results hp

/-- A scan with items left. -/
theorem unfolds_scan {kind : FoldScanKind} (hk : kind ≠ .fold) (src : ItemSource) (f : Value)
    (d : Bool) : ∀ (rest : List Value) (next : Option Nat) (acc : Value) (results : List Value),
      Pending kind src next rest →
      Unfolds step ⟨kind, some src, f, next, some acc, results, none, none, d⟩
        (do
          let rs ← scanItems f acc rest
          let all := results ++ rs
          return finalValue d (Value.fromItems (if kind = .rscan then all.reverse else all)))
  | [], none, acc, results, _ => by
    simp only [scanItems, pure_bind, List.append_nil]
    refine .ready ?_
    cases d <;> simp [step, hk, finalValue]
  | v :: rest, some i, acc, results, ⟨hget, hp⟩ => by
    have hcall : step ⟨kind, some src, f, some i, some acc, results, none, none, d⟩ =
        .call (f, [acc, v]) (acceptCallbackResult
          ⟨kind, some src, f, nextIndex kind src.len i, some acc, results, none, none, d⟩) := by
      simp [step, hget]
    have htake : ∀ a, step (acceptCallbackResult
        ⟨kind, some src, f, nextIndex kind src.len i, some acc, results, none, none, d⟩ a) =
          .silent ⟨kind, some src, f, nextIndex kind src.len i, some a,
            if d then results else results ++ [a], none, none, d⟩ := by
      intro a
      cases d <;> simp [step, acceptCallbackResult, hk]
    simp only [scanItems, bind_assoc, callFn_bind, pure_bind, ask_bind]
    refine .call_silent hcall htake fun a => ?_
    have ih := unfolds_scan hk src f d rest _ a (if d then results else results ++ [a]) hp
    cases d <;> simpa [finalValue] using ih

/-- An atom is its own result. -/
theorem unfolds_atom {kind : FoldScanKind} {xs : Value} (h : ItemSource.fromValue xs = none)
    (f : Value) (init : Option Value) (d : Bool) :
    Unfolds step (new kind xs f init d) (pure (finalValue d xs)) := by
  have hnew : new kind xs f init d = ⟨kind, none, f, none, init, [], none, some xs, d⟩ := by
    simp [new, h]
  rw [hnew]
  exact .ready (by cases d <;> rfl)

/-- The items in the order the kind reads them. -/
def ordered (kind : FoldScanKind) (src : ItemSource) : List Value :=
  if kind = .rscan then src.items.reverse else src.items

/-- The index of the first item read. -/
def firstIndex (kind : FoldScanKind) (src : ItemSource) : Nat :=
  if kind = .rscan then src.len - 1 else 0

theorem pending_first (kind : FoldScanKind) (src : ItemSource) {v : Value} {rest : List Value}
    (h : ordered kind src = v :: rest) :
    src.len ≠ 0 ∧ Pending kind src (some (firstIndex kind src)) (v :: rest) := by
  have hlen : (ordered kind src).length = src.len := by
    rw [ItemSource.len_eq, ordered]
    split_ifs <;> simp
  have hne : src.len ≠ 0 := by
    rw [← hlen, h]
    simp
  refine ⟨hne, ?_⟩
  rw [← h]
  by_cases hk : kind = .rscan
  · subst hk
    have hb := pending_backward src src.items.length le_rfl
    rw [List.take_length, ← ItemSource.len_eq] at hb
    obtain ⟨n, hn⟩ := Nat.exists_eq_succ_of_ne_zero hne
    simpa [ordered, firstIndex, hn, checkedPred] using hb
  · have hf := pending_forward hk src src.items 0 rfl
    simpa [ordered, firstIndex, hk, Nat.pos_of_ne_zero hne] using hf

section New

variable {kind : FoldScanKind} {xs : Value} {src : ItemSource}
  (hsrc : ItemSource.fromValue xs = some src) (f : Value) (d : Bool)

include hsrc

theorem new_empty (h : ordered kind src = []) (init : Option Value) :
    new kind xs f init d = ⟨kind, some src, f, none, init, [], none, none, d⟩ := by
  have hlen : src.len = 0 := by
    rw [ItemSource.len_eq]
    unfold ordered at h
    split_ifs at h <;> simpa using h
  simp [new, hsrc, hlen]

theorem new_first {v : Value} {rest : List Value} (h : ordered kind src = v :: rest) :
    new kind xs f none d = ⟨kind, some src, f, nextIndex kind src.len (firstIndex kind src),
      some v, if kind = .fold then [] else [v], none, none, d⟩ := by
  obtain ⟨hne, hget, -⟩ := pending_first kind src h
  unfold firstIndex at hget ⊢
  simp [new, hsrc, hne, hget]

theorem new_initial {v : Value} {rest : List Value} (h : ordered kind src = v :: rest)
    (acc : Value) :
    new kind xs f (some acc) d =
      ⟨kind, some src, f, some (firstIndex kind src), some acc, [], none, none, d⟩ := by
  obtain ⟨hne, -⟩ := pending_first kind src h
  simp [new, hsrc, hne, firstIndex]

end New

theorem unfolds_fold_new (xs f : Value) (init : Option Value) (d : Bool) :
    Unfolds step (new .fold xs f init d) (finalValue d <$> fold xs f init) := by
  unfold fold
  rw [← ItemSource.map_items_fromValue]
  cases hsrc : ItemSource.fromValue xs with
  | none => exact unfolds_atom hsrc f init d
  | some src =>
    have ho : ordered .fold src = src.items := by simp [ordered]
    simp only [Option.map_some]
    cases hi : src.items with
    | nil =>
      rw [new_empty hsrc f d (ho.trans hi)]
      cases init with
      | none => exact .ready (by cases d <;> rfl)
      | some acc => exact unfolds_fold src f d [] none acc [] trivial
    | cons v rest =>
      have hp := (pending_first .fold src (ho.trans hi)).2
      cases init with
      | none =>
        rw [new_first hsrc f d (ho.trans hi)]
        exact unfolds_fold src f d rest _ v _ hp.2
      | some acc =>
        rw [new_initial hsrc f d (ho.trans hi)]
        exact unfolds_fold src f d (v :: rest) _ acc [] hp

/-- A scan over the items in the order of the kind. -/
theorem unfolds_scan_new {kind : FoldScanKind} (hk : kind ≠ .fold) {xs : Value}
    {src : ItemSource} (hsrc : ItemSource.fromValue xs = some src) (f : Value) (init : Option Value) (d : Bool) :
    Unfolds step (new kind xs f init d)
      (finalValue d <$> do
        let all ← scanResults f (ordered kind src) init
        return Value.fromItems (if kind = .rscan then all.reverse else all)) := by
  cases hi : ordered kind src with
  | nil =>
    rw [new_empty hsrc f d hi]
    cases init with
    | none =>
      simp only [scanResults, pure_bind]
      exact .ready (by cases d <;> simp [step, hk, finalValue])
    | some acc =>
      have h := unfolds_scan hk src f d [] none acc [] trivial
      simpa [scanResults] using h
  | cons v rest =>
    have hp := (pending_first kind src hi).2
    cases init with
    | none =>
      rw [new_first hsrc f d hi, if_neg hk]
      have h := unfolds_scan hk src f d rest _ v [v] hp.2
      simpa [scanResults] using h
    | some acc =>
      rw [new_initial hsrc f d hi]
      have h := unfolds_scan hk src f d (v :: rest) _ acc [] hp
      simpa [scanResults] using h

theorem unfolds_scan_forward (xs f : Value) (init : Option Value) (d : Bool) :
    Unfolds step (new .scan xs f init d) (finalValue d <$> scan xs f init) := by
  unfold scan
  rw [← ItemSource.map_items_fromValue]
  cases hsrc : ItemSource.fromValue xs with
  | none => exact unfolds_atom hsrc f init d
  | some src => exact unfolds_scan_new (by simp) hsrc f init d

theorem unfolds_scan_backward (xs f : Value) (init : Option Value) (d : Bool) :
    Unfolds step (new .rscan xs f init d) (finalValue d <$> rscan xs f init) := by
  unfold rscan
  rw [← ItemSource.map_items_fromValue]
  cases hsrc : ItemSource.fromValue xs with
  | none => exact unfolds_atom hsrc f init d
  | some src => exact unfolds_scan_new (by simp) hsrc f init d

end FoldScanFrame

/-! ### filter -/

theorem predicateBool_eq (v : Value) : predicateBool v = predicateResult v := by
  cases v <;> rfl

theorem callPredicate_bind {α : Type} (f item : Value) (k : Bool → HoM α) :
    (callPredicate f item >>= k) = ask (f, [item]) fun a => lift (predicateResult a) >>= k := rfl

theorem lift_ok_bind {α β : Type} (a : α) (k : α → HoM β) : (lift (.ok a) >>= k) = k a := rfl

theorem lift_error_bind {α β : Type} (e : WqErrorType) (k : α → HoM β) :
    (lift (.error e) >>= k) = done (.error e) := rfl

/-- Keys play no part in a filter. -/
theorem filterItems_map {K L : Type} (g : K → L) (f : Value) : ∀ xs : List (K × Value),
    filterItems f (xs.map (Prod.map g id)) =
      List.map (Prod.map g id) <$> filterItems f xs
  | [] => rfl
  | (k, v) :: xs => by
    simp only [List.map_cons, Prod.map_apply, id_eq, filterItems, filterItems_map g f xs, map_bind,
      bind_map_left]
    congr 1
    funext keep
    cases keep <;> simp

/-- The items with their keys. -/
def ItemSource.keyedItems : ItemSource → List (Option String × Value)
  | .sequence value => (((ValueSeq.fromValue value).map ValueSeq.values).getD []).map (none, ·)
  | .dict entries => entries.map (Prod.map some id)

theorem ItemSource.keyedItems_getElem? (src : ItemSource) (i : Nat) :
    src.keyedItems[i]? = (src.get i).map fun v => (src.key i, v) := by
  cases src with
  | sequence value =>
    cases h : ValueSeq.fromValue value <;> simp [get, key, keyedItems, h, ValueSeq.get_eq]
  | dict entries =>
    simp only [keyedItems, List.getElem?_map, get, key]
    cases entries[i]? <;> rfl

namespace FilterFrame

/-- The result of a filter from the kept items. -/
def build : ItemSource → List (Option String × Value) → Value
  | .dict _, kept => .dict (IndexMap.collect (kept.map fun p => (p.1.getD "", p.2)))
  | .sequence _, kept => Value.fromItems (kept.map Prod.snd)

theorem unfolds_drop (src : ItemSource) (f : Value) (d : Bool) :
    ∀ (rest : List (Option String × Value)) (next : Nat) (kept : List (Option String × Value)),
      src.keyedItems.drop next = rest →
      Unfolds step ⟨some src, f, next, none, none, kept, none, d⟩
        (do return finalValue d (build src (kept ++ (← filterItems f rest))))
  | [], next, kept, h => by
    have hnext : src.keyedItems[next]? = none := by simpa using h
    rw [ItemSource.keyedItems_getElem?, Option.map_eq_none_iff] at hnext
    simp only [filterItems, pure_bind, List.append_nil]
    refine .ready ?_
    cases d <;> cases src <;> simp [step, hnext, finalValue, build]
  | (key, v) :: rest, next, kept, h => by
    have hnext : src.keyedItems[next]? = some (key, v) := by
      rw [← List.head?_drop, h, List.head?_cons]
    rw [ItemSource.keyedItems_getElem?, Option.map_eq_some_iff] at hnext
    obtain ⟨w, hget, hw⟩ := hnext
    obtain ⟨rfl, rfl⟩ := Prod.mk.inj hw
    have hrest : src.keyedItems.drop (next + 1) = rest := by
      rw [← List.drop_drop, h, List.drop_one, List.tail_cons]
    have hcall : step ⟨some src, f, next, none, none, kept, none, d⟩ =
        .call (f, [w]) (acceptCallbackResult
          ⟨some src, f, next + 1, some (src.key next, w), none, kept, none, d⟩) := by
      simp [step, hget]
    simp only [filterItems, bind_assoc, callPredicate_bind, ask_bind]
    refine .call hcall fun a => ?_
    cases ha : predicateResult a with
    | error e =>
      rw [lift_error_bind]
      exact .ready (by simp [step, acceptCallbackResult, predicateBool_eq, ha])
    | ok keep =>
      rw [lift_ok_bind]
      have htake : step (acceptCallbackResult
          ⟨some src, f, next + 1, some (src.key next, w), none, kept, none, d⟩ a) =
            .silent ⟨some src, f, next + 1, none, none,
              if keep && !d then kept ++ [(src.key next, w)] else kept, none, d⟩ := by
        simp [step, acceptCallbackResult, predicateBool_eq, ha]
      refine .silent htake ?_
      have ih := unfolds_drop src f d rest (next + 1)
        (if keep && !d then kept ++ [(src.key next, w)] else kept) hrest
      cases d <;> cases keep <;> simpa [finalValue] using ih

theorem unfolds_new (xs f : Value) (d : Bool) :
    Unfolds step (new xs f d) (finalValue d <$> filter xs f) := by
  unfold filter
  cases hsrc : ItemSource.fromValue xs with
  | none =>
    have hnew : new xs f d = ⟨none, f, 0, none, none, [], some xs, d⟩ := by simp [new, hsrc]
    have hv : ValueSeq.fromValue xs = none := by
      cases xs <;> first | rfl | simp [ItemSource.fromValue, ValueSeq.fromValue] at hsrc
    rw [hnew, hv]
    cases xs with
    | dict entries => simp [ItemSource.fromValue, ValueSeq.fromValue] at hsrc
    | _ => exact .ready (by cases d <;> rfl)
  | some src =>
    have hnew : new xs f d = ⟨some src, f, 0, none, none, [], none, d⟩ := by simp [new, hsrc]
    rw [hnew]
    have h := unfolds_drop src f d src.keyedItems 0 [] rfl
    simp only [List.nil_append] at h
    cases hv : ValueSeq.fromValue xs with
    | some seq =>
      have hsrc' : src = .sequence xs := by simpa [ItemSource.fromValue, hv] using hsrc.symm
      have hkeyed : src.keyedItems =
          (seq.values.map fun v => ((), v)).map (Prod.map (fun _ => none) id) := by
        simp [hsrc', ItemSource.keyedItems, hv]
      have hsnd : ∀ kept : List (Unit × Value), (kept.map (Prod.map (fun _ =>
          (none : Option String)) id)).map Prod.snd = kept.map Prod.snd := fun kept => by
        rw [List.map_map]
        rfl
      rw [hkeyed, filterItems_map] at h
      simp only [hsrc', build, bind_map_left, hsnd] at h
      simpa [hsrc'] using h
    | none =>
      cases xs with
      | dict entries =>
        have hsrc' : src = .dict entries := by
          simpa [ItemSource.fromValue, ValueSeq.fromValue] using hsrc.symm
        have hkeyed : src.keyedItems = entries.map (Prod.map some id) := by
          simp [hsrc', ItemSource.keyedItems]
        have hfst : ∀ kept : List (String × Value), (kept.map (Prod.map some id)).map
            (fun p => (p.1.getD "", p.2)) = kept := fun kept => by
          rw [List.map_map]
          exact List.map_id kept
        rw [hkeyed, filterItems_map] at h
        simp only [hsrc', build, bind_map_left, hfst] at h
        simpa [hsrc'] using h
      | _ => simp [ItemSource.fromValue, ValueSeq.fromValue] at hsrc hv

end FilterFrame

theorem filterDiscard_eq (xs f : Value) :
    filterDiscard xs f = finalValue true <$> filter xs f := by
  unfold filterDiscard filter
  cases hv : ValueSeq.fromValue xs with
  | some seq =>
    simp only [ignore_bind]
    simp [finalValue]
  | none =>
    cases xs with
    | dict entries =>
      simp only [ignore_bind]
      simp [finalValue]
    | _ => rfl

/-! ### any and all -/

/-- A container that is not a dictionary is a sequence of as many items. -/
theorem fromValue_of_container {v : Value} (h : v.isAtom = false) (hd : ∀ es, v ≠ .dict es) :
    ∃ seq, ValueSeq.fromValue v = some seq ∧ seq.values = v.containerItems ∧
      seq.len = v.containerItems.length := by
  have hd' : v.isDict = false := by
    cases hv : v.isDict with
    | false => rfl
    | true =>
      obtain ⟨es, rfl⟩ := Value.exists_dict hv
      exact absurd rfl (hd es)
  obtain ⟨seq, hs⟩ := Value.exists_fromValue h hd'
  have hv := Value.containerItems_of_fromValue hs
  exact ⟨seq, hs, hv.symm, by rw [hv, ValueSeq.length_values]⟩

namespace PredicateFrame

/-- The task that goes through the items of a container. -/
def itemsTask (v : Value) (depth : Int) (next : Nat) : PredicateTask :=
  match v with
  | .dict entries => .dict entries depth next
  | v => .sequence v depth next v.containerItems.length

theorem stepTask_visit_container (s : PredicateFrame) (tasks : List PredicateTask) {v : Value}
    {depth : Int} (hv : ¬(v.isAtom ∨ s.maxDepth ≤ depth)) :
    s.stepTask tasks (.visit v depth) =
      .silent { s with tasks := itemsTask v depth 0 :: tasks } := by
  have ha : v.isAtom = false := by simpa using fun h => hv (.inl h)
  by_cases hd : ∃ es, v = .dict es
  · obtain ⟨es, rfl⟩ := hd
    simp only [stepTask, if_neg hv, ValueSeq.fromValue, itemsTask]
  · obtain ⟨seq, hs, -, hlen⟩ := fromValue_of_container ha fun es h => hd ⟨es, h⟩
    simp only [stepTask, if_neg hv, hs, hlen]
    cases v with
    | dict es => exact absurd ⟨es, rfl⟩ hd
    | _ => rfl

theorem stepTask_itemsTask (s : PredicateFrame) (tasks : List PredicateTask) {v : Value}
    (hv : v.isAtom = false) (depth : Int) (next : Nat) :
    s.stepTask tasks (itemsTask v depth next) =
      match v.containerItems[next]? with
      | some item => .silent { s with
          tasks := .visit item (depth + 1) :: itemsTask v depth (next + 1) :: tasks }
      | none => .silent { s with tasks } := by
  by_cases hd : ∃ es, v = .dict es
  · obtain ⟨es, rfl⟩ := hd
    simp only [itemsTask, stepTask, Value.containerItems, List.getElem?_map]
    cases es[next]? <;> rfl
  · obtain ⟨seq, hs, hvals, hlen⟩ := fromValue_of_container hv fun es h => hd ⟨es, h⟩
    have htask : ∀ i, itemsTask v depth i = .sequence v depth i v.containerItems.length := by
      intro i
      cases v with
      | dict es => exact absurd ⟨es, rfl⟩ hd
      | _ => rfl
    simp only [htask, stepTask, hs, Option.bind_some, ValueSeq.get_eq, hvals]
    by_cases hn : next < v.containerItems.length
    · simp [hn]
    · simp [hn]

/-- How a run goes on after the answer for a part of the value: it is over
when the answer is the one looked for. -/
def goOn (modeAny : Bool) (rest : HoM Value) (b : Bool) : HoM Value :=
  if b = modeAny then return .bool modeAny else rest

variable (modeAny : Bool) (f : Value) (maxDepth : Int)

theorem unfolds_leaf (v : Value) (depth : Int) (hv : v.isAtom ∨ maxDepth ≤ depth)
    {tasks : List PredicateTask} {rest : HoM Value}
    (hrest : Unfolds step ⟨modeAny, f, maxDepth, tasks, none⟩ rest) :
    Unfolds step ⟨modeAny, f, maxDepth, .visit v depth :: tasks, none⟩
      (callPredicate f v >>= goOn modeAny rest) := by
  have hcall : step ⟨modeAny, f, maxDepth, .visit v depth :: tasks, none⟩ =
      .call (f, [v]) (acceptCallbackResult ⟨modeAny, f, maxDepth, tasks, none⟩) := by
    simp only [step, stepTask, if_pos hv]
  rw [callPredicate_bind]
  refine .call hcall fun a => ?_
  cases ha : predicateResult a with
  | error e => exact .ready (by simp only [step, acceptCallbackResult, predicateBool_eq, ha])
  | ok b =>
    rw [lift_ok_bind, goOn]
    by_cases hb : b = modeAny
    · rw [if_pos hb]
      exact .ready (by simp [step, acceptCallbackResult, predicateBool_eq, ha, hb])
    · rw [if_neg hb]
      exact .silent (by simp [step, acceptCallbackResult, predicateBool_eq, ha, hb]) hrest

/-- The items of a container from `next` on, given how each is visited. -/
theorem unfolds_items {v : Value} (hv : v.isAtom = false) (depth : Nat)
    (hitems : ∀ x ∈ v.containerItems, ∀ tasks rest,
      Unfolds step ⟨modeAny, f, maxDepth, tasks, none⟩ rest →
      Unfolds step ⟨modeAny, f, maxDepth, .visit x (depth + 1) :: tasks, none⟩
        (anyAllAtDepth f maxDepth modeAny (depth + 1) x >>= goOn modeAny rest))
    {tasks : List PredicateTask} {rest : HoM Value}
    (hrest : Unfolds step ⟨modeAny, f, maxDepth, tasks, none⟩ rest) :
    ∀ (vs : List Value) (next : Nat), v.containerItems.drop next = vs →
      Unfolds step ⟨modeAny, f, maxDepth, itemsTask v depth next :: tasks, none⟩
        (anyAllSearch (anyAllAtDepth f maxDepth modeAny (depth + 1)) modeAny vs >>=
          goOn modeAny rest)
  | [], next, h => by
    have hnext : v.containerItems[next]? = none := by simpa using h
    have hgo : goOn modeAny rest (!modeAny) = rest := by cases modeAny <;> rfl
    rw [anyAllSearch, pure_bind, hgo]
    refine .silent ?_ hrest
    simp only [step, stepTask_itemsTask _ tasks hv, hnext]
  | x :: vs, next, h => by
    have hnext : v.containerItems[next]? = some x := by
      rw [← List.head?_drop, h, List.head?_cons]
    have hvs : v.containerItems.drop (next + 1) = vs := by
      rw [← List.drop_drop, h, List.drop_one, List.tail_cons]
    have ih := unfolds_items hv depth hitems hrest vs (next + 1) hvs
    have hx := hitems x (List.mem_of_getElem? hnext) _ _ ih
    have hnextTask : step ⟨modeAny, f, maxDepth, itemsTask v depth next :: tasks, none⟩ =
        .silent ⟨modeAny, f, maxDepth,
          .visit x (depth + 1) :: itemsTask v depth (next + 1) :: tasks, none⟩ := by
      simp only [step, stepTask_itemsTask _ tasks hv, hnext]
    refine .silent hnextTask ?_
    have hsearch : (anyAllSearch (anyAllAtDepth f maxDepth modeAny (depth + 1)) modeAny (x :: vs)
        >>= goOn modeAny rest) = (anyAllAtDepth f maxDepth modeAny (depth + 1) x >>=
          goOn modeAny (anyAllSearch (anyAllAtDepth f maxDepth modeAny (depth + 1)) modeAny vs >>=
            goOn modeAny rest)) := by
      rw [anyAllSearch, bind_assoc]
      congr 1
      funext b
      unfold goOn
      by_cases hb : b = modeAny <;> simp [hb]
    rw [hsearch]
    exact hx

/-- A value of any nesting. -/
theorem unfolds_visit (v : Value) : ∀ (depth : Nat) (tasks : List PredicateTask) (rest : HoM Value),
    Unfolds step ⟨modeAny, f, maxDepth, tasks, none⟩ rest →
    Unfolds step ⟨modeAny, f, maxDepth, .visit v depth :: tasks, none⟩
      (anyAllAtDepth f maxDepth modeAny depth v >>= goOn modeAny rest) := by
  induction v using Value.nestingInduction with
  | atom v hv =>
    intro depth tasks rest hrest
    rw [anyAllAtDepth_leaf modeAny (.inr hv)]
    exact unfolds_leaf modeAny f maxDepth v depth (.inl hv) hrest
  | container v hv ih =>
    intro depth tasks rest hrest
    by_cases hd : maxDepth ≤ depth
    · rw [anyAllAtDepth_leaf modeAny (.inl hd)]
      exact unfolds_leaf modeAny f maxDepth v depth (.inr hd) hrest
    · have hstop : ¬(v.isAtom = true ∨ maxDepth ≤ (depth : Int)) := by simp [hv, hd]
      rw [anyAllAtDepth_container modeAny fun h => hstop h.symm]
      refine .silent (by simp only [step]; exact stepTask_visit_container _ tasks hstop) ?_
      exact unfolds_items modeAny f maxDepth hv depth
        (fun x hx tasks rest => by exact_mod_cast ih x hx (depth + 1) tasks rest) hrest
        v.containerItems 0 rfl

/-- The frame after the check of its depth. -/
theorem unfolds_new (xs : Value) :
    Unfolds step ⟨modeAny, f, maxDepth, [.visit xs 0], none⟩
      (do return .bool (← anyAllAtDepth f maxDepth modeAny 0 xs)) := by
  have hend : Unfolds step ⟨modeAny, f, maxDepth, [], none⟩ (pure (.bool !modeAny)) := .ready rfl
  have h := unfolds_visit modeAny f maxDepth xs 0 [] _ hend
  have hgo : (goOn modeAny (pure (.bool !modeAny))) = fun b => pure (.bool b) := by
    funext b
    cases b <;> cases modeAny <;> rfl
  rwa [hgo] at h

end PredicateFrame

/-! ### map -/

theorem mapDiscard_eq (xs f d : Value) : mapDiscard xs f d = finalValue true <$> map xs f d := by
  unfold mapDiscard map
  cases effectiveLayers xs d with
  | error e => rfl
  | ok el =>
    simp only [lift_ok_bind, Value.bc1ForEachUntil_eq, ignore_bind]
    rfl

namespace MapFrame

/-- The task that goes through the items of a container. -/
def itemsTask (v : Value) (depth : Int) (next resultStart : Nat) : MapTask :=
  match v with
  | .dict entries => .dict entries depth next resultStart
  | v => .sequence v depth next v.containerItems.length resultStart

theorem stepTask_visit_container (s : MapFrame) (tasks : List MapTask) {v : Value}
    {depth : Int} (hv : ¬(v.isAtom ∨ s.maxDepth ≤ depth)) :
    s.stepTask tasks (.visit v depth) =
      .silent { s with tasks := itemsTask v depth 0 s.results.length :: tasks } := by
  have ha : v.isAtom = false := by simpa using fun h => hv (.inl h)
  by_cases hd : ∃ es, v = .dict es
  · obtain ⟨es, rfl⟩ := hd
    simp only [stepTask, if_neg hv, ValueSeq.fromValue, itemsTask]
  · obtain ⟨seq, hs, -, hlen⟩ := fromValue_of_container ha fun es h => hd ⟨es, h⟩
    simp only [stepTask, if_neg hv, hs, hlen]
    cases v with
    | dict es => exact absurd ⟨es, rfl⟩ hd
    | _ => rfl

theorem stepTask_itemsTask (s : MapFrame) (tasks : List MapTask) {v : Value}
    (hv : v.isAtom = false) (depth : Int) (next start : Nat) :
    s.stepTask tasks (itemsTask v depth next start) =
      match v.containerItems[next]? with
      | some item => .silent { s with
          tasks := .visit item (depth + 1) :: itemsTask v depth (next + 1) start :: tasks }
      | none => .silent { s with
          tasks, results := foldResults s.discard s.results start (Value.rebuild v) } := by
  by_cases hd : ∃ es, v = .dict es
  · obtain ⟨es, rfl⟩ := hd
    simp only [itemsTask, stepTask, Value.containerItems, List.getElem?_map]
    cases es[next]? <;> rfl
  · obtain ⟨seq, hs, hvals, hlen⟩ := fromValue_of_container hv fun es h => hd ⟨es, h⟩
    have htask : ∀ i, itemsTask v depth i start =
        .sequence v depth i v.containerItems.length start := by
      intro i
      cases v with
      | dict es => exact absurd ⟨es, rfl⟩ hd
      | _ => rfl
    have hbuild : Value.rebuild v = Value.fromItems := by
      cases v with
      | dict es => exact absurd ⟨es, rfl⟩ hd
      | _ => rfl
    simp only [htask, stepTask, hs, Option.bind_some, ValueSeq.get_eq, hvals, hbuild]
    by_cases hn : next < v.containerItems.length
    · simp [hn]
    · simp [hn]

/-- The results after `r` is pushed. -/
def pushed (d : Bool) (results : List Value) (r : Value) : List Value :=
  if d then results else results ++ [r]

/-- The results while a container is gone through: those before it and those
of its items so far. -/
def partialResults (d : Bool) (base prev : List Value) : List Value :=
  if d then base else base ++ prev

theorem pushed_partialResults (d : Bool) (base prev : List Value) (r : Value) :
    pushed d (partialResults d base prev) r = partialResults d base (prev ++ [r]) := by
  cases d <;> simp [pushed, partialResults]

theorem foldResults_partialResults (d : Bool) (base prev : List Value)
    (build : List Value → Value) :
    foldResults d (partialResults d base prev) base.length build = pushed d base (build prev) := by
  cases d <;> simp [foldResults, pushed, partialResults]

variable (f : Value) (maxDepth : Int) (d : Bool)

/-- The function of `map` on a leaf. -/
abbrev leaf : Value → HoM Value := fun v => callFn f [v]

theorem unfolds_leaf (v : Value) (depth : Int) (hv : v.isAtom ∨ maxDepth ≤ depth)
    {tasks : List MapTask} {results : List Value} {k : Value → HoM Value}
    (hk : ∀ r, Unfolds step ⟨f, maxDepth, d, tasks, pushed d results r, none⟩ (k r)) :
    Unfolds step ⟨f, maxDepth, d, .visit v depth :: tasks, results, none⟩ (callFn f [v] >>= k) := by
  have hcall : step ⟨f, maxDepth, d, .visit v depth :: tasks, results, none⟩ =
      .call (f, [v]) (acceptCallbackResult ⟨f, maxDepth, d, tasks, results, none⟩) := by
    simp only [step, stepTask, if_pos hv]
  rw [callFn_bind]
  exact .call_silent hcall (fun _ => rfl) hk

/-- The items of a container from `next` on, given how each is visited. -/
theorem unfolds_items {v : Value} (hv : v.isAtom = false) (depth : Nat)
    (hitems : ∀ x ∈ v.containerItems, ∀ tasks results (k : Value → HoM Value),
      (∀ r, Unfolds step ⟨f, maxDepth, d, tasks, pushed d results r, none⟩ (k r)) →
      Unfolds step ⟨f, maxDepth, d, .visit x (depth + 1) :: tasks, results, none⟩
        (Value.bc1Until (.atomOrDepth maxDepth) (leaf f) (depth + 1) x >>= k))
    {tasks : List MapTask} {base : List Value} :
    ∀ (vs : List Value) (next : Nat) (prev : List Value) (k : List Value → HoM Value),
      v.containerItems.drop next = vs →
      (∀ rs, Unfolds step ⟨f, maxDepth, d, tasks, pushed d base (Value.rebuild v (prev ++ rs)),
        none⟩ (k rs)) →
      Unfolds step ⟨f, maxDepth, d, itemsTask v depth next base.length :: tasks,
          partialResults d base prev, none⟩
        (vs.mapM (Value.bc1Until (.atomOrDepth maxDepth) (leaf f) (depth + 1)) >>= k)
  | [], next, prev, k, h, hk => by
    have hnext : v.containerItems[next]? = none := by simpa using h
    have hlast : step ⟨f, maxDepth, d, itemsTask v depth next base.length :: tasks,
        partialResults d base prev, none⟩ =
          .silent ⟨f, maxDepth, d, tasks, pushed d base (Value.rebuild v (prev ++ [])), none⟩ := by
      simp only [step, stepTask_itemsTask _ tasks hv, hnext, foldResults_partialResults,
        List.append_nil]
    rw [List.mapM_nil, pure_bind]
    exact .silent hlast (hk [])
  | x :: vs, next, prev, k, h, hk => by
    have hnext : v.containerItems[next]? = some x := by
      rw [← List.head?_drop, h, List.head?_cons]
    have hvs : v.containerItems.drop (next + 1) = vs := by
      rw [← List.drop_drop, h, List.drop_one, List.tail_cons]
    have hnextTask : step ⟨f, maxDepth, d, itemsTask v depth next base.length :: tasks,
        partialResults d base prev, none⟩ =
          .silent ⟨f, maxDepth, d, .visit x (depth + 1) ::
            itemsTask v depth (next + 1) base.length :: tasks, partialResults d base prev, none⟩ := by
      simp only [step, stepTask_itemsTask _ tasks hv, hnext]
    rw [List.mapM_cons, bind_assoc]
    refine .silent hnextTask (hitems x (List.mem_of_getElem? hnext) _ _ _ fun r => ?_)
    rw [pushed_partialResults, bind_assoc]
    refine unfolds_items hv depth hitems vs (next + 1) (prev ++ [r]) _ hvs fun rs => ?_
    have h := hk (r :: rs)
    rwa [← List.singleton_append, ← List.append_assoc] at h

/-- A value of any nesting. -/
theorem unfolds_visit (v : Value) : ∀ (depth : Nat) (tasks : List MapTask)
    (results : List Value) (k : Value → HoM Value),
    (∀ r, Unfolds step ⟨f, maxDepth, d, tasks, pushed d results r, none⟩ (k r)) →
    Unfolds step ⟨f, maxDepth, d, .visit v depth :: tasks, results, none⟩
      (Value.bc1Until (.atomOrDepth maxDepth) (leaf f) depth v >>= k) := by
  have hleaf : ∀ (v : Value) (depth : Nat), v.isAtom = true ∨ maxDepth ≤ (depth : Int) →
      Value.bc1Until (.atomOrDepth maxDepth) (leaf f) depth v = callFn f [v] := by
    intro v depth hv
    refine Value.bc1Until_of_stop _ _ _ ?_
    simpa [Bc1Stop.shouldStop] using hv
  induction v using Value.nestingInduction with
  | atom v hv =>
    intro depth tasks results k hk
    rw [hleaf v depth (.inl hv)]
    exact unfolds_leaf f maxDepth d v depth (.inl hv) hk
  | container v hv ih =>
    intro depth tasks results k hk
    by_cases hd : maxDepth ≤ depth
    · rw [hleaf v depth (.inr hd)]
      exact unfolds_leaf f maxDepth d v depth (.inr hd) hk
    · have hstop : ¬(v.isAtom = true ∨ maxDepth ≤ (depth : Int)) := by simp [hv, hd]
      have hshould : Bc1Stop.shouldStop (.atomOrDepth maxDepth) depth v = false := by
        simpa [Bc1Stop.shouldStop] using hstop
      have hbase : results = partialResults d results [] := by
        cases d <;> simp [partialResults]
      have hfirst : step ⟨f, maxDepth, d, .visit v depth :: tasks, results, none⟩ =
          .silent ⟨f, maxDepth, d, itemsTask v depth 0 results.length :: tasks,
            partialResults d results [], none⟩ := by
        rw [← hbase]
        simp only [step]
        exact stepTask_visit_container _ tasks hstop
      rw [Value.bc1Until_container _ _ _ _ hshould, bind_assoc]
      refine .silent hfirst ?_
      refine unfolds_items f maxDepth d hv depth
        (fun x hx tasks results k => by exact_mod_cast ih x hx (depth + 1) tasks results k)
        v.containerItems 0 [] _ rfl fun rs => ?_
      simpa using hk (Value.rebuild v rs)

/-- The frame after the check of its depth. -/
theorem unfolds_new (xs : Value) :
    Unfolds step ⟨f, maxDepth, d, [.visit xs 0], [], none⟩
      (finalValue d <$> Value.bc1Until (.atomOrDepth maxDepth) (fun v => callFn f [v]) 0 xs) := by
  have h := unfolds_visit f maxDepth d xs 0 [] [] (fun r => pure (finalValue d r)) fun r =>
    .ready (by cases d <;> rfl)
  simpa using h

end MapFrame

/-! ### Reading a container by index -/

theorem containerGet_eq (v : Value) (i : Nat) : containerGet v i = v.containerItems[i]? := by
  cases hs : ValueSeq.fromValue v with
  | some seq =>
    rw [Value.containerItems_of_fromValue hs]
    simp only [containerGet, hs, Option.bind_some, ValueSeq.get_eq]
    cases seq.values[i]? with
    | some x => rfl
    | none => cases v <;> first | rfl | simp [ValueSeq.fromValue] at hs
  | none =>
    cases v with
    | dict entries => simp [containerGet, ValueSeq.fromValue, Value.containerItems]
    | _ => first | rfl | simp [ValueSeq.fromValue] at hs

theorem containerLen_of_isAtom {v : Value} (h : v.isAtom = true) : containerLen v = none := by
  cases v <;> first | rfl | cases h

theorem containerLen_of_container {v : Value} (h : v.isAtom = false) :
    containerLen v = some v.containerItems.length := by
  cases v with
  | dict entries => simp [containerLen, ValueSeq.fromValue, Value.containerItems]
  | _ =>
    first
    | (simp [containerLen, ValueSeq.fromValue, Value.containerItems, ← ValueSeq.length_values]; done)
    | cases h

end Ho
end Wqpl
