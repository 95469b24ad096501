/-
# Inserting entries at positions of a map

`shiftInsert` puts an entry at a position of an insertion-ordered map. A key
that is there is moved to the position, and the position has to be that of an
entry; a new key may also go to the end; everything else is a panic. Several
entries are inserted in the order of their positions, each behind those
inserted before it (`shiftInsertMany`). They all end up where they were asked
for exactly if `InsertionsFit` (`shiftInsertMany_placed_iff`).
-/
import Mathlib.Data.Nat.Basic
import Wqpl.IndexMap
import Wqpl.Splice

namespace Wqpl

namespace IndexMap

variable {K V : Type*} [DecidableEq K]

/-- The entries of the other keys. -/
def without (m : List (K × V)) (k : K) : List (K × V) := m.filter fun e => e.1 ≠ k

/-- `shift_insert`; `none` is its panic. -/
def shiftInsert (m : List (K × V)) (index : Nat) (k : K) (v : V) : Option (List (K × V)) :=
  match get? m k with
  | some _ => if index < m.length then some ((without m k).insertIdx index (k, v)) else none
  | none => if index ≤ m.length then some (m.insertIdx index (k, v)) else none

/-- The entries inserted one after the other, each `offset` behind its
position. -/
def shiftInsertMany (m : List (K × V)) (offset : Nat) : List (Nat × K × V) → Option (List (K × V))
  | [] => some m
  | (idx, k, v) :: ops => do shiftInsertMany (← shiftInsert m (idx + offset) k v) (offset + 1) ops

/-- The entries of `ops` are where they were asked for, counting those inserted
before them, and the entries of other keys are in their order. -/
structure Placed (m : List (K × V)) (ops : List (Nat × K × V)) (r : List (K × V)) : Prop where
  nodup : (r.map Prod.fst).Nodup
  others : (r.filter fun e => e.1 ∉ ops.map (·.2.1)) = m.filter fun e => e.1 ∉ ops.map (·.2.1)
  placed : ∀ (i : Nat) (op : Nat × K × V), ops[i]? = some op → r[op.1 + i]? = some op.2

/-- Each position is among the entries that are left when the keys inserted so
far are taken out, and a key that is there is not among those before the
position of the insertion before it, `prev`. -/
def InsertionsFit : Nat → List (K × V) → List (Nat × K × V) → Prop
  | _, _, [] => True
  | prev, m, (idx, k, _) :: ops =>
    k ∉ (m.take prev).map Prod.fst ∧ idx ≤ (without m k).length ∧ InsertionsFit idx (without m k) ops

instance decidableInsertionsFit : ∀ (prev : Nat) (m : List (K × V)) (ops : List (Nat × K × V)),
    Decidable (InsertionsFit prev m ops)
  | _, _, [] => .isTrue trivial
  | _, m, (idx, k, _) :: ops =>
    have := decidableInsertionsFit idx (without m k) ops
    inferInstanceAs (Decidable (_ ∧ _ ∧ _))

/-! ### The other entries -/

theorem without_eq_self {m : List (K × V)} {k : K} (h : k ∉ m.map Prod.fst) : without m k = m :=
  List.filter_eq_self.mpr fun e he => by
    have hne : e.1 ≠ k := fun hk => h (List.mem_map.mpr ⟨e, he, hk⟩)
    simpa using hne

theorem without_append (m m' : List (K × V)) (k : K) :
    without (m ++ m') k = without m k ++ without m' k := List.filter_append _ _

theorem not_mem_keys_without (m : List (K × V)) (k : K) : k ∉ (without m k).map Prod.fst := by
  intro h
  obtain ⟨e, he, rfl⟩ := List.mem_map.mp h
  simpa using (List.mem_filter.mp he).2

theorem nodup_keys_without {m : List (K × V)} (h : (m.map Prod.fst).Nodup) (k : K) :
    ((without m k).map Prod.fst).Nodup :=
  h.sublist (List.filter_sublist.map Prod.fst)

/-- A map has one entry more than it has without a key that is there. -/
theorem length_without {m : List (K × V)} (h : (m.map Prod.fst).Nodup) {k : K}
    (hk : k ∈ m.map Prod.fst) : (without m k).length + 1 = m.length := by
  obtain ⟨a, e, b, rfl, rfl⟩ : ∃ a e b, m = a ++ e :: b ∧ e.1 = k := by
    obtain ⟨e, he, rfl⟩ := List.mem_map.mp hk
    obtain ⟨a, b, rfl⟩ := List.append_of_mem he
    exact ⟨a, e, b, rfl, rfl⟩
  rw [List.map_append, List.map_cons, List.nodup_middle, List.nodup_cons, List.mem_append,
    not_or] at h
  have he : without [e] e.1 = [] := by simp [without]
  rw [← List.singleton_append, without_append, without_append, without_eq_self h.1.1,
    without_eq_self h.1.2, he]
  simp only [List.length_append, List.length_cons, List.length_nil]
  omega

/-- An insertion in one form: the entry goes to the position among the entries
of the other keys. -/
theorem shiftInsert_eq {m : List (K × V)} (h : (m.map Prod.fst).Nodup) (index : Nat) (k : K)
    (v : V) : shiftInsert m index k v =
      if index ≤ (without m k).length then some ((without m k).insertIdx index (k, v)) else none := by
  unfold shiftInsert
  cases hk : get? m k with
  | some x =>
    have hmem : k ∈ m.map Prod.fst := (get?_isSome m k).mp (by rw [hk]; rfl)
    have hlen := length_without h hmem
    refine if_congr ?_ rfl rfl
    omega
  | none =>
    have hmem : k ∉ m.map Prod.fst := fun hmem => by
      rw [← get?_isSome, hk] at hmem
      cases hmem
    rw [without_eq_self hmem]

/-! ### One insertion after the other -/

theorem insertIdx_append_length {α : Type*} (x : α) (ys : List α) : ∀ xs : List α,
    (xs ++ ys).insertIdx xs.length x = xs ++ x :: ys
  | [] => rfl
  | y :: xs => by
    rw [List.cons_append, List.length_cons, List.insertIdx_succ_cons, insertIdx_append_length x ys xs]
    rfl

omit [DecidableEq K] in
theorem nodup_keys_insertIdx {m : List (K × V)} (h : (m.map Prod.fst).Nodup) {e : K × V}
    (he : e.1 ∉ m.map Prod.fst) {i : Nat} (hi : i ≤ m.length) :
    ((m.insertIdx i e).map Prod.fst).Nodup := by
  obtain ⟨a, b, rfl, rfl⟩ : ∃ a b, m = a ++ b ∧ i = a.length :=
    ⟨m.take i, m.drop i, (List.take_append_drop i m).symm, by rw [List.length_take]; omega⟩
  rw [insertIdx_append_length, List.map_append, List.map_cons, List.nodup_middle, List.nodup_cons,
    ← List.map_append]
  exact ⟨he, h⟩

/-- The state between two insertions: `front` ends with the last entry inserted
and `rest` are the other entries, of which the first `prev` are in front. -/
structure Between (prev offset : Nat) (front tail rest : List (K × V)) (ops : List (Nat × K × V)) :
    Prop where
  nodup : ((front ++ tail).map Prod.fst).Nodup
  tail : rest.drop prev = tail
  length : front.length = prev + offset
  le : prev ≤ rest.length
  front : ∀ op ∈ ops, op.2.1 ∈ front.map Prod.fst ↔ op.2.1 ∈ (rest.take prev).map Prod.fst
  sorted : ops.Pairwise fun a b => a.1 ≤ b.1
  keys : (ops.map (·.2.1)).Nodup
  low : ∀ op ∈ ops, prev ≤ op.1

section Between

variable {prev offset idx : Nat} {front tail rest : List (K × V)} {k : K} {v : V}
  {ops : List (Nat × K × V)}

/-- A key that is not in front leaves the front as it is, and goes to its place
among the others. -/
theorem Between.shiftInsert (h : Between prev offset front tail rest ((idx, k, v) :: ops))
    (hk : k ∉ (rest.take prev).map Prod.fst) :
    IndexMap.shiftInsert (front ++ tail) (idx + offset) k v =
      if idx ≤ (without rest k).length then
        some (front ++ (without tail k).take (idx - prev) ++
          (k, v) :: (without tail k).drop (idx - prev))
      else none := by
  have hfront : k ∉ front.map Prod.fst := fun hmem => hk ((h.front _ List.mem_cons_self).mp hmem)
  have hwithout : without (front ++ tail) k = front ++ without tail k := by
    rw [without_append, without_eq_self hfront]
  have hrest : (without rest k).length = prev + (without tail k).length := by
    have hcut : without rest k = rest.take prev ++ without tail k := by
      conv_lhs => rw [← List.take_append_drop prev rest]
      rw [without_append, without_eq_self hk, h.tail]
    rw [hcut, List.length_append, List.length_take, Nat.min_eq_left h.le]
  have hprev : prev ≤ idx := h.low _ List.mem_cons_self
  have hlen := h.length
  rw [shiftInsert_eq h.nodup, hwithout, List.length_append, hrest]
  by_cases hidx : idx ≤ prev + (without tail k).length
  · rw [if_pos hidx, if_pos (by omega)]
    have hpos : idx + offset = (front ++ (without tail k).take (idx - prev)).length := by
      rw [List.length_append, List.length_take]
      omega
    have hcut : front ++ without tail k = front ++ (without tail k).take (idx - prev) ++
        (without tail k).drop (idx - prev) := by
      rw [List.append_assoc, List.take_append_drop]
    rw [hcut, hpos, insertIdx_append_length]
  · rw [if_neg hidx, if_neg (by omega)]

/-- The state after an insertion. -/
theorem Between.next (h : Between prev offset front tail rest ((idx, k, v) :: ops))
    (hk : k ∉ (rest.take prev).map Prod.fst) (hidx : idx ≤ (without rest k).length) :
    Between idx (offset + 1) (front ++ (without tail k).take (idx - prev) ++ [(k, v)])
      ((without tail k).drop (idx - prev)) (without rest k) ops := by
  have hprev : prev ≤ idx := h.low _ List.mem_cons_self
  have hfront : k ∉ front.map Prod.fst := fun hmem => hk ((h.front _ List.mem_cons_self).mp hmem)
  have htake : (rest.take prev).length = prev := by rw [List.length_take, Nat.min_eq_left h.le]
  have hcut : without rest k = rest.take prev ++ without tail k := by
    conv_lhs => rw [← List.take_append_drop prev rest]
    rw [without_append, without_eq_self hk, h.tail]
  have htaken : (without rest k).take idx = rest.take prev ++ (without tail k).take (idx - prev) := by
    rw [hcut, List.take_append, htake, List.take_of_length_le (by omega)]
  obtain ⟨hkey, hkeys⟩ := List.nodup_cons.mp h.keys
  obtain ⟨hfirst, hsorted⟩ := List.pairwise_cons.mp h.sorted
  refine ⟨?_, ?_, ?_, hidx, ?_, hsorted, hkeys, hfirst⟩
  · have hnodup : ((front ++ without tail k).map Prod.fst).Nodup := by
      have hw := nodup_keys_without h.nodup k
      rwa [without_append, without_eq_self hfront] at hw
    have hnew : k ∉ (front ++ without tail k).map Prod.fst := by
      rw [List.map_append, List.mem_append, not_or]
      exact ⟨hfront, not_mem_keys_without tail k⟩
    have hall : front ++ (without tail k).take (idx - prev) ++ [(k, v)] ++
        (without tail k).drop (idx - prev) =
        front ++ (without tail k).take (idx - prev) ++
          (k, v) :: (without tail k).drop (idx - prev) := by
      rw [List.append_assoc _ [(k, v)], List.singleton_append]
    rw [hall, List.map_append, List.map_cons, List.nodup_middle, List.nodup_cons,
      ← List.map_append, List.append_assoc, List.take_append_drop]
    exact ⟨hnew, hnodup⟩
  · rw [hcut, List.drop_append, htake, List.drop_of_length_le (by omega), List.nil_append]
  · rw [List.length_append, List.length_append, List.length_take, List.length_singleton, h.length]
    have : (without rest k).length = prev + (without tail k).length := by
      rw [hcut, List.length_append, htake]
    omega
  · intro op hop
    have hne : op.2.1 ≠ k := fun he => hkey (List.mem_map.mpr ⟨op, hop, he⟩)
    have hold := h.front op (List.mem_cons_of_mem _ hop)
    rw [htaken, List.map_append, List.map_append, List.map_append, List.mem_append,
      List.mem_append, List.mem_append, hold]
    simp [hne]

end Between

/-- Insertions that fit leave what is in front and come out where they were asked
for. The induction is on the insertions, each from the state before it. -/
theorem shiftInsertMany_placed : ∀ {ops : List (Nat × K × V)} {prev offset : Nat}
    {front tail rest : List (K × V)}, Between prev offset front tail rest ops →
    InsertionsFit prev rest ops →
    ∃ r, shiftInsertMany (front ++ tail) offset ops = some r ∧ front <+: r ∧
      (r.map Prod.fst).Nodup ∧
      ((r.filter fun e => e.1 ∉ ops.map (·.2.1)) =
        (front ++ tail).filter fun e => e.1 ∉ ops.map (·.2.1)) ∧
      ∀ (i : Nat) (op : Nat × K × V), ops[i]? = some op → r[op.1 + offset + i]? = some op.2
  | [], prev, offset, front, tail, rest, h, _ =>
    ⟨front ++ tail, rfl, List.prefix_append _ _, h.nodup, rfl, fun i op hi => by cases hi⟩
  | (idx, k, v) :: ops, prev, offset, front, tail, rest, h, hfit => by
    obtain ⟨hk, hidx, hfit⟩ := hfit
    have hnext := h.next hk hidx
    obtain ⟨r, hr, hprefix, hnodup, hothers, hplaced⟩ := shiftInsertMany_placed hnext hfit
    set taken := (without tail k).take (idx - prev) with htaken
    set left := (without tail k).drop (idx - prev) with hleft
    have hstate : front ++ taken ++ (k, v) :: left = front ++ taken ++ [(k, v)] ++ left := by
      rw [List.append_assoc _ [(k, v)], List.singleton_append]
    have hfront : k ∉ front.map Prod.fst := fun hmem => hk ((h.front _ List.mem_cons_self).mp hmem)
    refine ⟨r, ?_, ?_, hnodup, ?_, ?_⟩
    · rw [shiftInsertMany, h.shiftInsert hk, if_pos hidx, hstate]
      exact hr
    · rw [List.append_assoc] at hprefix
      exact (List.prefix_append _ _).trans hprefix
    · -- without the new key the state is what it was
      have hsplit : ∀ m : List (K × V), (m.filter fun e => e.1 ∉ k :: ops.map (·.2.1)) =
          without (m.filter fun e => e.1 ∉ ops.map (·.2.1)) k := fun m => by
        rw [without, List.filter_filter]
        refine List.filter_congr fun e _ => ?_
        rw [Bool.eq_iff_iff]
        simp [not_or]
      have hswap : ∀ m : List (K × V), without (m.filter fun e => e.1 ∉ ops.map (·.2.1)) k =
          (without m k).filter fun e => e.1 ∉ ops.map (·.2.1) := fun m => by
        rw [without, without, List.filter_filter, List.filter_filter]
        exact List.filter_congr fun e _ => Bool.and_comm _ _
      have hwithout : without (front ++ taken ++ [(k, v)] ++ left) k = without (front ++ tail) k := by
        have hone : without [(k, v)] k = [] := by simp [without]
        rw [without_append, without_append, hone, List.append_nil, ← without_append,
          List.append_assoc, htaken, hleft, List.take_append_drop, without_append, without_append,
          without_eq_self (not_mem_keys_without tail k)]
      rw [List.map_cons, hsplit, hsplit, hothers, hswap, hswap, hwithout]
    · intro i op hi
      cases i with
      | zero =>
        obtain rfl : (idx, k, v) = op := Option.some.inj hi
        have hpos : idx + offset + 0 = (front ++ taken).length := by
          have hlen := hnext.length
          rw [List.length_append, List.length_singleton] at hlen
          omega
        obtain ⟨s, rfl⟩ := hprefix
        rw [hpos, List.append_assoc, List.getElem?_append_right le_rfl, Nat.sub_self]
        rfl
      | succ i =>
        have hpos : op.1 + offset + (i + 1) = op.1 + (offset + 1) + i := by omega
        rw [hpos]
        exact hplaced i op hi

/-- What lies before all later insertions never moves back. -/
theorem shiftInsertMany_sinks : ∀ {ops : List (Nat × K × V)} {m r : List (K × V)} {offset t : Nat}
    {e : K × V}, (m.map Prod.fst).Nodup → m[t]? = some e → e.1 ∉ ops.map (·.2.1) →
    (∀ op ∈ ops, t < op.1 + offset) → shiftInsertMany m offset ops = some r →
    ∃ t' ≤ t, r[t']? = some e
  | [], m, r, offset, t, e, _, ht, _, _, hr => by
    obtain rfl := Option.some.inj hr
    exact ⟨t, le_rfl, ht⟩
  | (idx, k, v) :: ops, m, r, offset, t, e, hnodup, ht, he, hlow, hr => by
    obtain ⟨hek, he⟩ := not_or.mp fun h => he (List.mem_cons.mpr h)
    obtain ⟨m', hm', hr⟩ := Option.bind_eq_some_iff.mp hr
    rw [shiftInsert_eq hnodup] at hm'
    split_ifs at hm' with hidx
    obtain rfl := Option.some.inj hm'
    -- the entry moves up when an entry before it is taken out
    obtain ⟨t₁, ht₁, hget⟩ : ∃ t₁ ≤ t, (without m k)[t₁]? = some e := by
      have hlt := (List.getElem?_eq_some_iff.mp ht).1
      have hcut : m = m.take t ++ e :: m.drop (t + 1) := by
        have := (List.getElem?_eq_some_iff.mp ht).2
        rw [← this, List.getElem_cons_drop, List.take_append_drop]
      refine ⟨(without (m.take t) k).length, ?_, ?_⟩
      · refine Nat.le_trans (List.length_filter_le _ _) ?_
        rw [List.length_take]
        omega
      · have hkeep : without (e :: m.drop (t + 1)) k = e :: without (m.drop (t + 1)) k :=
          List.filter_cons_of_pos (by simpa using hek)
        have hwithout : without m k = without (m.take t) k ++ e :: without (m.drop (t + 1)) k := by
          conv_lhs => rw [hcut]
          rw [without_append, hkeep]
        rw [hwithout, List.getElem?_append_right le_rfl, Nat.sub_self]
        rfl
    have hbefore : t₁ < idx + offset := by
      have := hlow _ List.mem_cons_self
      exact lt_of_le_of_lt ht₁ this
    have hget' : ((without m k).insertIdx (idx + offset) (k, v))[t₁]? = some e := by
      rw [List.getElem?_insertIdx_of_lt hbefore, hget]
    have hnodup' := nodup_keys_insertIdx (nodup_keys_without hnodup k) (e := (k, v))
      (not_mem_keys_without m k) hidx
    obtain ⟨t', ht', hrt⟩ := shiftInsertMany_sinks hnodup' hget' he
      (fun op hop => by
        have := hlow op (List.mem_cons_of_mem _ hop)
        omega) hr
    exact ⟨t', Nat.le_trans ht' ht₁, hrt⟩

/-- Insertions that all come out where they were asked for fit. The entry
inserted last stays in its place, `last`, so no key before it was taken out. -/
theorem insertionsFit_of_placed : ∀ {ops : List (Nat × K × V)} {prev offset : Nat}
    {front tail rest r : List (K × V)}, Between prev offset front tail rest ops →
    (prev = 0 ∨ ∃ (f : List (K × V)) (last : K × V), front = f ++ [last] ∧
      last.1 ∉ ops.map (·.2.1) ∧ r[f.length]? = some last) →
    shiftInsertMany (front ++ tail) offset ops = some r → (r.map Prod.fst).Nodup →
    (∀ (i : Nat) (op : Nat × K × V), ops[i]? = some op → r[op.1 + offset + i]? = some op.2) →
    InsertionsFit prev rest ops
  | [], _, _, _, _, _, _, _, _, _, _, _ => trivial
  | (idx, k, v) :: ops, prev, offset, front, tail, rest, r, h, hlast, hr, hnodup, hplaced => by
    have hbefore : k ∉ (rest.take prev).map Prod.fst := by
      intro hmem
      rcases hlast with rfl | ⟨f, last, rfl, hkey, hget⟩
      · rw [List.take_zero] at hmem
        cases hmem
      have hmemf : k ∈ (f ++ [last]).map Prod.fst := (h.front _ List.mem_cons_self).mpr hmem
      have hne : last.1 ≠ k := fun he => hkey (by rw [he]; exact List.mem_cons_self)
      have hk : k ∈ f.map Prod.fst := by
        rw [List.map_append, List.mem_append] at hmemf
        refine hmemf.resolve_right fun hl => hne ?_
        exact (List.mem_singleton.mp hl).symm
      -- the entry before it taken out, the last one moves up
      obtain ⟨m, hm, hr⟩ := Option.bind_eq_some_iff.mp hr
      rw [shiftInsert_eq h.nodup] at hm
      split_ifs at hm with hidx
      obtain rfl := Option.some.inj hm
      have hfnodup : (f.map Prod.fst).Nodup := by
        have hall := h.nodup
        rw [List.map_append, List.map_append] at hall
        exact hall.of_append_left.of_append_left
      have hlen := length_without hfnodup hk
      have hwithout : without (f ++ [last] ++ tail) k = without f k ++ last :: without tail k := by
        have hone : without [last] k = [last] := List.filter_cons_of_pos (by simpa using hne)
        rw [without_append, without_append, hone, List.append_assoc, List.singleton_append]
      have hlow : ∀ op ∈ (idx, k, v) :: ops, f.length < op.1 + offset := fun op hop => by
        have h₁ := h.low op hop
        have h₂ := h.length
        rw [List.length_append, List.length_singleton] at h₂
        omega
      have hat : ((without (f ++ [last] ++ tail) k).insertIdx (idx + offset) (k, v))[
          (without f k).length]? = some last := by
        have hlt := hlow _ List.mem_cons_self
        dsimp only at hlt
        rw [List.getElem?_insertIdx_of_lt (by omega), hwithout,
          List.getElem?_append_right le_rfl, Nat.sub_self]
        rfl
      obtain ⟨t, ht, hrt⟩ := shiftInsertMany_sinks
        (nodup_keys_insertIdx (nodup_keys_without h.nodup k) (e := (k, v))
          (not_mem_keys_without _ k) hidx) hat
        (fun hmem => hkey (List.mem_cons_of_mem _ hmem))
        (fun op hop => by
          have := hlow op (List.mem_cons_of_mem _ hop)
          omega) hr
      have hsame : f.length = t :=
        (List.getElem?_inj (List.getElem?_eq_some_iff.mp hget).1 hnodup.of_map).mp
          (hget.trans hrt.symm)
      omega
    have hstep := h.shiftInsert hbefore
    rw [shiftInsertMany, hstep] at hr
    split_ifs at hr with hidx
    · have hnext := h.next hbefore hidx
      have hkey : k ∉ ops.map (·.2.1) := (List.nodup_cons.mp h.keys).1
      refine ⟨hbefore, hidx, insertionsFit_of_placed hnext (.inr ⟨_, (k, v), rfl, hkey, ?_⟩)
        (r := r) ?_ hnodup fun i op hi => ?_⟩
      · have hlen := hnext.length
        rw [List.length_append, List.length_singleton] at hlen
        have hpos : idx + offset + 0 = (front ++ (without tail k).take (idx - prev)).length := by
          omega
        rw [← hpos]
        exact hplaced 0 (idx, k, v) rfl
      · rw [List.append_assoc _ [(k, v)], List.singleton_append]
        exact hr
      · have hpos : op.1 + (offset + 1) + i = op.1 + offset + (i + 1) := by omega
        rw [hpos]
        exact hplaced (i + 1) op hi
    · cases hr

/-- **Sorted insertions of different keys come out where they were asked for
exactly if they fit.** -/
theorem shiftInsertMany_placed_iff {m : List (K × V)} {ops : List (Nat × K × V)}
    (hm : (m.map Prod.fst).Nodup) (hkeys : (ops.map (·.2.1)).Nodup)
    (hsorted : ops.Pairwise fun a b => a.1 ≤ b.1) :
    (∃ r, shiftInsertMany m 0 ops = some r ∧ Placed m ops r) ↔ InsertionsFit 0 m ops := by
  have hstart : Between 0 0 [] m m ops :=
    ⟨hm, rfl, rfl, Nat.zero_le _, fun op _ => by simp, hsorted, hkeys, fun op _ => Nat.zero_le _⟩
  constructor
  · rintro ⟨r, hr, hplaced⟩
    exact insertionsFit_of_placed hstart (.inl rfl) hr hplaced.nodup hplaced.placed
  · intro hfit
    obtain ⟨r, hr, -, hnodup, hothers, hplaced⟩ := shiftInsertMany_placed hstart hfit
    exact ⟨r, hr, hnodup, hothers, hplaced⟩

end IndexMap

end Wqpl
