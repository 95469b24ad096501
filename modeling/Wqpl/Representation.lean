/-
# Broadcasting does not see representations

The normal form of a value has a general list in the place of every packed
sequence. A broadcast of two values and one of their normal forms call the
operation on the same pairs of atoms in the same order, so they fail alike or
have the same normal form (`bc2_norm`, `bc1_norm`).

The source has an arm of its own for almost every pair of representations
(`zipContainers`); `bc2Until_zipContainers` says that they all do what
`bc2Until` does.
-/
import Wqpl.Broadcast

namespace Wqpl

namespace Value

/-! ### The arms of the source -/

section Arms

/-- A container has as many items as its length says. -/
theorem length_containerItems {v : Value} (h : v.isAtom = false) :
    v.containerItems.length = v.len := by
  by_cases hd : v.isDict = true
  · obtain ⟨entries, rfl⟩ := exists_dict hd
    show (entries.map _).length = entries.length
    rw [List.length_map]
  · obtain ⟨seq, hs⟩ := exists_fromValue h (by simpa using hd)
    have hlen : v.len = seq.len := by
      unfold len
      rw [hs]
    rw [containerItems_of_fromValue hs, ValueSeq.length_values, hlen]

variable {m : Type → Type} [Monad m] [MonadExcept WqErrorType m]

/-- Two sequences, item by item. -/
def zipSequences (f : Value → Value → m Value) (xs ys : List Value) : m Value :=
  if xs.length ≠ ys.length then throw .length
  else do return fromItems (← (xs.zip ys).mapM fun p => f p.1 p.2)

/-- `zip_sequence_with_dict` and its like: the result has the keys. -/
def zipKeyed (f : Value → Value → m Value) (keys : List String) (xs ys : List Value) : m Value :=
  if xs.length ≠ ys.length then throw .length
  else do return withKeys keys (← (xs.zip ys).mapM fun p => f p.1 p.2)

/-- `should_stream_mixed_sequence`. -/
def shouldStreamMixedSequence : Value → Bool
  | .intRange _ | .boolList _ | .floatList _ => true
  | _ => false

/-- `zip_containers`, except on two dictionaries: `op` goes over pairs of
atoms, `rec` is the broadcast one layer deeper. The conversions of a streamed
operand to a general list are not reached, since it is streamed before. -/
def zipContainers (op rec : Value → Value → m Value) (left right : Value) : m Value :=
  match left, right with
  | .intRange a, .intRange b => zipSequences op (a.toVec.map .int) (b.toVec.map .int)
  | .intRange a, .intList b => zipSequences op (a.toVec.map .int) (b.map .int)
  | .intList a, .intRange b => zipSequences op (a.map .int) (b.toVec.map .int)
  | .boolList a, .boolList b => zipSequences op (a.map .bool) (b.map .bool)
  | .floatList a, .floatList b => zipSequences op (a.map .float) (b.map .float)
  | left, right =>
    if shouldStreamMixedSequence left || shouldStreamMixedSequence right then
      match left, right with
      | .dict entries, right =>
        zipKeyed rec (entries.map Prod.fst) (entries.map Prod.snd) right.containerItems
      | left, .dict entries =>
        zipKeyed rec (entries.map Prod.fst) left.containerItems (entries.map Prod.snd)
      | left, right => zipSequences rec left.containerItems right.containerItems
    else
      match left, right with
      | .intList a, .intList b => zipSequences op (a.map .int) (b.map .int)
      | .list a, .list b => zipSequences rec a b
      | .string a, .string b => zipSequences op (a.toList.map .char) (b.toList.map .char)
      | .intList a, .list b => zipSequences rec (a.map .int) b
      | .list a, .intList b => zipSequences rec a (b.map .int)
      | .string a, .list b => zipSequences rec (a.toList.map .char) b
      | .list a, .string b => zipSequences rec a (b.toList.map .char)
      | .string a, .intList b => zipSequences op (a.toList.map .char) (b.map .int)
      | .intList a, .string b => zipSequences op (a.map .int) (b.toList.map .char)
      | .dict dx, .list ys => zipKeyed rec (dx.map Prod.fst) (dx.map Prod.snd) ys
      | .list xs, .dict dy => zipKeyed rec (dy.map Prod.fst) xs (dy.map Prod.snd)
      | .dict dx, .intList ys => zipKeyed rec (dx.map Prod.fst) (dx.map Prod.snd) (ys.map .int)
      | .intList xs, .dict dy => zipKeyed rec (dy.map Prod.fst) (xs.map .int) (dy.map Prod.snd)
      | .string a, .dict dy =>
        zipKeyed rec (dy.map Prod.fst) (a.toList.map .char) (dy.map Prod.snd)
      | .dict dx, .string b =>
        zipKeyed rec (dx.map Prod.fst) (dx.map Prod.snd) (b.toList.map .char)
      | _, _ => throw .vm -- not reached

variable [LawfulMonad m]

/-- The pairs of two packed sequences are pairs of atoms. -/
theorem zipSequences_atoms (stop : Bc2Stop) (op : Value → Value → m Value) (depth : Nat)
    {xs ys : List Value} (hx : ∀ x ∈ xs, x.isAtom = true) (hy : ∀ y ∈ ys, y.isAtom = true) :
    zipSequences op xs ys = zipSequences (bc2Until stop op depth) xs ys := by
  unfold zipSequences
  rw [mapM_congr_mem (xs.zip ys) fun p hp => ?_]
  have hp := List.of_mem_zip hp
  exact (bc2Until_of_stop stop op depth
    (stop.shouldStop_of_isAtom depth (hx p.1 hp.1) (hy p.2 hp.2))).symm

theorem zipContainers_eq (stop : Bc2Stop) (op : Value → Value → m Value) (depth : Nat)
    {l r : Value} (hl : l.isAtom = false) (hr : r.isAtom = false)
    (hd : ¬(l.isDict = true ∧ r.isDict = true)) :
    zipContainers op (bc2Until stop op depth) l r =
      if l.containerItems.length ≠ r.containerItems.length then throw .length
      else do
        return rebuildPair l r (← (l.containerItems.zip r.containerItems).mapM fun p =>
          bc2Until stop op depth p.1 p.2) := by
  cases l with
  | list _ | dict _ =>
    cases r with
    | dict _ => first | rfl | exact absurd ⟨rfl, rfl⟩ hd
    | list _ | intList _ | intRange _ | floatList _ | boolList _ | string _ => rfl
    | _ => cases hr
  | intList _ | intRange _ | floatList _ | boolList _ | string _ =>
    cases r with
    | intList _ | intRange _ | floatList _ | boolList _ | string _ =>
      first
        | rfl
        | (refine (zipSequences_atoms stop op depth (fun x hx => ?_) (fun y hy => ?_)).trans rfl
           · obtain ⟨z, -, rfl⟩ := List.mem_map.mp hx
             rfl
           · obtain ⟨z, -, rfl⟩ := List.mem_map.mp hy
             rfl)
    | list _ | dict _ => rfl
    | _ => cases hr
  | _ => cases hl

/-- **The arms of the source.** On two containers that are not both
dictionaries, the broadcast is what the arm for their representations does. -/
theorem bc2Until_zipContainers (stop : Bc2Stop) (op : Value → Value → m Value) (depth : Nat)
    {l r : Value} (hstop : stop.shouldStop depth l r = false) (hl : l.isAtom = false)
    (hr : r.isAtom = false) (hd : ¬(l.isDict = true ∧ r.isDict = true)) :
    bc2Until stop op depth l r = zipContainers op (bc2Until stop op (depth + 1)) l r := by
  have hlen := length_containerItems hl
  have hlen' := length_containerItems hr
  rw [zipContainers_eq stop op (depth + 1) hl hr hd]
  by_cases heq : l.len = r.len
  · rw [bc2Until_container stop op depth hstop hd (.inr (.inr heq)), pairItems,
      if_neg (by simp [hl]), if_neg (by simp [hr]), if_neg (by omega)]
  · rw [bc2Until_length stop op depth hstop hl hr heq, if_pos (by omega)]

end Arms

/-! ### Normal forms -/

mutual

/-- Every packed sequence replaced by the general list of its atoms. -/
def norm : Value → Value
  | .list items => .list (normItems items)
  | .dict entries => .dict (normEntries entries)
  | .intList items => .list (items.map .int)
  | .intRange range => .list (range.toVec.map .int)
  | .floatList items => .list (items.map .float)
  | .boolList items => .list (items.map .bool)
  | .string s => .list (s.toList.map .char)
  | v => v

def normItems : List Value → List Value
  | [] => []
  | v :: vs => norm v :: normItems vs

def normEntries : List (String × Value) → List (String × Value)
  | [] => []
  | (k, v) :: es => (k, norm v) :: normEntries es

end

theorem normItems_eq : ∀ vs : List Value, normItems vs = vs.map norm := by
  intro vs
  induction vs with
  | nil => rfl
  | cons v vs ih => rw [normItems, ih, List.map_cons]

theorem normEntries_eq : ∀ es : List (String × Value),
    normEntries es = es.map fun e => (e.1, e.2.norm)
  | [] => rfl
  | (k, v) :: es => by rw [normEntries, normEntries_eq es, List.map_cons]

@[simp] theorem norm_list (items : List Value) : (Value.list items).norm = .list (items.map norm) := by
  rw [Value.norm, normItems_eq]

@[simp] theorem norm_dict (entries : List (String × Value)) :
    (Value.dict entries).norm = .dict (entries.map fun e => (e.1, e.2.norm)) := by
  rw [Value.norm, normEntries_eq]

theorem norm_of_isAtom {v : Value} (h : v.isAtom = true) : v.norm = v := by
  cases v <;> first | rfl | cases h

theorem map_norm_of_isAtom {vs : List Value} (h : ∀ v ∈ vs, v.isAtom = true) :
    vs.map norm = vs := by
  conv_rhs => rw [← List.map_id vs]
  exact List.map_congr_left fun v hv => norm_of_isAtom (h v hv)

/-- The normal form of a sequence is the list of its items' normal forms. -/
theorem norm_of_fromValue {v : Value} {seq : ValueSeq} (h : ValueSeq.fromValue v = some seq) :
    v.norm = .list (seq.values.map norm) := by
  have packed : (∀ items, v ≠ .list items) → seq.values.map norm = seq.values := fun hv =>
    map_norm_of_isAtom fun x hx => isAtom_of_mem_values h hx hv
  cases v with
  | list items =>
    obtain rfl := Option.some.inj h
    exact norm_list items
  | intList _ | intRange _ | floatList _ | boolList _ | string _ =>
    rw [packed (by simp)]
    obtain rfl := Option.some.inj h
    rfl
  | _ => cases h

@[simp] theorem isAtom_norm (v : Value) : v.norm.isAtom = v.isAtom := by
  cases v <;> rfl

@[simp] theorem isDict_norm (v : Value) : v.norm.isDict = v.isDict := by
  cases v <;> rfl

/-- The items of the normal form. -/
theorem containerItems_norm {v : Value} (h : v.isAtom = false) :
    v.norm.containerItems = v.containerItems.map norm := by
  by_cases hd : v.isDict = true
  · obtain ⟨entries, rfl⟩ := exists_dict hd
    rw [norm_dict]
    show (entries.map _).map _ = (entries.map _).map _
    rw [List.map_map, List.map_map]
    rfl
  · obtain ⟨seq, hs⟩ := exists_fromValue h (by simpa using hd)
    rw [norm_of_fromValue hs, containerItems_of_fromValue hs]
    have hnorm : ValueSeq.fromValue (.list (seq.values.map norm)) =
        some (.list (seq.values.map norm)) := rfl
    exact containerItems_of_fromValue hnorm

theorem len_norm {v : Value} (h : v.isAtom = false) : v.norm.len = v.len := by
  rw [← length_containerItems h, ← length_containerItems (by simpa using h),
    containerItems_norm h, List.length_map]

theorem norm_fromItems (items : List Value) : (fromItems items).norm = .list (items.map norm) := by
  have hvalues := fromItems_values items
  cases hseq : ValueSeq.fromValue (fromItems items) with
  | none =>
    rw [hseq] at hvalues
    cases hvalues
  | some seq =>
    rw [hseq] at hvalues
    rw [norm_of_fromValue hseq, Option.some.inj hvalues]

/-- A normal form is its own. -/
theorem norm_norm (v : Value) : v.norm.norm = v.norm := by
  have items : ∀ vs : List Value, (∀ x ∈ vs, x.norm.norm = x.norm) →
      (vs.map norm).map norm = vs.map norm := by
    intro vs h
    rw [List.map_map]
    exact List.map_congr_left h
  induction v using nestingInduction with
  | atom v hv => rw [norm_of_isAtom hv, norm_of_isAtom hv]
  | container v hv ih =>
    by_cases hd : v.isDict = true
    · obtain ⟨entries, rfl⟩ := exists_dict hd
      rw [norm_dict, norm_dict, List.map_map]
      exact congrArg Value.dict (List.map_congr_left fun e he =>
        Prod.ext rfl (ih e.2 (List.mem_map_of_mem he)))
    · obtain ⟨seq, hs⟩ := exists_fromValue hv (by simpa using hd)
      rw [containerItems_of_fromValue hs] at ih
      rw [norm_of_fromValue hs, norm_list, items _ ih]

/-- Collecting pairs into a map and mapping the values commute. -/
theorem map_insert {V V' : Type} (g : V → V') (k : String) (v : V) : ∀ es : List (String × V),
    (IndexMap.insert es k v).map (fun e => (e.1, g e.2)) =
      IndexMap.insert (es.map fun e => (e.1, g e.2)) k (g v)
  | [] => rfl
  | (k', v') :: es => by
    rw [IndexMap.insert, List.map_cons, IndexMap.insert]
    by_cases hk : k' = k
    · rw [if_pos hk, if_pos hk]
      rfl
    · rw [if_neg hk, if_neg hk, List.map_cons, map_insert g k v es]

theorem map_collect {V V' : Type} (g : V → V') (pairs : List (String × V)) :
    (IndexMap.collect pairs).map (fun e => (e.1, g e.2)) =
      IndexMap.collect (pairs.map fun e => (e.1, g e.2)) := by
  have hfold : ∀ (es : List (String × V)) (m : List (String × V)),
      (es.foldl (fun m p => IndexMap.insert m p.1 p.2) m).map (fun e => (e.1, g e.2)) =
        (es.map fun e => (e.1, g e.2)).foldl (fun m p => IndexMap.insert m p.1 p.2)
          (m.map fun e => (e.1, g e.2)) := by
    intro es
    induction es with
    | nil => exact fun _ => rfl
    | cons e es ih =>
      intro m
      rw [List.foldl_cons, ih, map_insert, List.map_cons, List.foldl_cons]
  exact hfold pairs []

theorem norm_dict_collect (pairs : List (String × Value)) :
    (Value.dict (IndexMap.collect pairs)).norm =
      .dict (IndexMap.collect (pairs.map fun e => (e.1, e.2.norm))) := by
  rw [norm_dict, map_collect]

theorem norm_withKeys (keys : List String) (values : List Value) :
    (withKeys keys values).norm = .dict (IndexMap.collect (keys.zip (values.map norm))) := by
  rw [withKeys, norm_dict_collect, List.zip_map_right]
  rfl

/-! ### Results -/

/-- Both fail with the same kind of error, or both succeed with the same normal
form. -/
def SameResult (r s : WqResult Value) : Prop := norm <$> r = norm <$> s

/-- The same for the items of a loop. -/
theorem mapM_norm {α β : Type} {g : α → WqResult Value} {g' : β → WqResult Value} (h : α → β) :
    ∀ xs : List α, (∀ x ∈ xs, SameResult (g x) (g' (h x))) →
      List.map norm <$> xs.mapM g = List.map norm <$> (xs.map h).mapM g'
  | [], _ => rfl
  | x :: xs, hsame => by
    have hx := hsame x List.mem_cons_self
    have hxs := mapM_norm h xs fun y hy => hsame y (List.mem_cons_of_mem x hy)
    rw [List.map_cons, List.mapM_cons, List.mapM_cons]
    unfold SameResult at hx
    revert hx hxs
    generalize xs.mapM g = rs, (xs.map h).mapM g' = rs', g x = r, g' (h x) = r'
    intro hx hxs
    cases r with
    | error e =>
      cases r' with
      | error e' =>
        obtain rfl : e = e' := Except.error.inj hx
        rfl
      | ok v' => cases hx
    | ok v =>
      cases r' with
      | error e' => cases hx
      | ok v' =>
        have hv : v.norm = v'.norm := Except.ok.inj hx
        cases rs with
        | error e =>
          cases rs' with
          | error e' =>
            obtain rfl : e = e' := Except.error.inj hxs
            rfl
          | ok vs' => cases hxs
        | ok vs =>
          cases rs' with
          | error e' => cases hxs
          | ok vs' =>
            have hvs : vs.map norm = vs'.map norm := Except.ok.inj hxs
            show Except.ok (norm v :: vs.map norm) = Except.ok (norm v' :: vs'.map norm)
            rw [hv, hvs]

/-- Results built from items that have the same normal forms. -/
theorem sameResult_map {build build' normal : List Value → Value} {rs rs' : WqResult (List Value)}
    (hbuild : ∀ vs, (build vs).norm = normal (vs.map norm))
    (hbuild' : ∀ vs, (build' vs).norm = normal (vs.map norm))
    (h : List.map norm <$> rs = List.map norm <$> rs') :
    SameResult (do return build (← rs)) (do return build' (← rs')) := by
  have hleft : norm <$> (do return build (← rs)) = normal <$> List.map norm <$> rs := by
    cases rs with
    | error e => rfl
    | ok vs => exact congrArg Except.ok (hbuild vs)
  have hright : norm <$> (do return build' (← rs')) = normal <$> List.map norm <$> rs' := by
    cases rs' with
    | error e => rfl
    | ok vs => exact congrArg Except.ok (hbuild' vs)
  unfold SameResult
  rw [hleft, hright, h]

/-- The normal form of a container built from items with these normal forms. -/
def rebuildNorm (v : Value) (items : List Value) : Value :=
  match v with
  | .dict entries => .dict (IndexMap.collect ((entries.map Prod.fst).zip items))
  | _ => .list items

theorem norm_rebuild (v : Value) (items : List Value) :
    (rebuild v items).norm = rebuildNorm v (items.map norm) := by
  cases v with
  | dict entries => exact norm_withKeys _ items
  | _ => exact norm_fromItems items

theorem rebuildNorm_norm (v : Value) : rebuildNorm v.norm = rebuildNorm v := by
  cases v with
  | dict entries =>
    funext items
    rw [norm_dict, rebuildNorm, rebuildNorm, List.map_map]
    rfl
  | _ => rfl

/-- An operation on atoms does not look at the representation of what is not an
atom, should the broadcast stop there. -/
def Respects1 (stop : Bc1Stop) (f : Value → WqResult Value) : Prop :=
  ∀ depth v, stop.shouldStop depth v = true → SameResult (f v) (f v.norm)

/-- The same for two operands. -/
def Respects2 (stop : Bc2Stop) (f : Value → Value → WqResult Value) : Prop :=
  ∀ depth l r, stop.shouldStop depth l r = true → SameResult (f l r) (f l.norm r.norm)

/-- A broadcast that stops at atoms respects every operation. -/
theorem respects1_atom (f : Value → WqResult Value) : Respects1 .atom f := by
  intro depth v h
  rw [norm_of_isAtom h]
  rfl

theorem respects2_bothAtom (f : Value → Value → WqResult Value) : Respects2 .bothAtom f := by
  intro depth l r h
  obtain ⟨hl, hr⟩ := Bool.and_eq_true_iff.mp h
  rw [norm_of_isAtom hl, norm_of_isAtom hr]
  rfl

theorem shouldStop1_norm (stop : Bc1Stop) (depth : Nat) (v : Value) :
    stop.shouldStop depth v.norm = stop.shouldStop depth v := by
  cases stop <;> simp [Bc1Stop.shouldStop]

theorem shouldStop2_norm (stop : Bc2Stop) (depth : Nat) (l r : Value) :
    stop.shouldStop depth l.norm r.norm = stop.shouldStop depth l r := by
  cases stop <;> simp [Bc2Stop.shouldStop]

/-! ### One operand -/

theorem bc1Until_norm {stop : Bc1Stop} {f : Value → WqResult Value} (hf : Respects1 stop f)
    (v : Value) : ∀ depth : Nat,
      SameResult (bc1Until stop f depth v) (bc1Until stop f depth v.norm) := by
  induction v using nestingInduction with
  | atom v hv =>
    intro depth
    rw [norm_of_isAtom hv]
    rfl
  | container v hv ih =>
    intro depth
    cases hstop : stop.shouldStop depth v with
    | true =>
      rw [bc1Until_of_stop stop f depth hstop,
        bc1Until_of_stop stop f depth ((shouldStop1_norm stop depth v).trans hstop)]
      exact hf depth v hstop
    | false =>
      rw [bc1Until_container stop f depth v hstop,
        bc1Until_container stop f depth v.norm ((shouldStop1_norm stop depth v).trans hstop),
        containerItems_norm hv]
      refine sameResult_map (norm_rebuild v) (fun vs => ?_) (mapM_norm norm _ fun x hx => ih x hx _)
      rw [norm_rebuild, rebuildNorm_norm]

/-! ### Two operands -/

theorem norm_rebuildPair (l r : Value) (items : List Value) :
    (rebuildPair l r items).norm =
      rebuildNorm (if l.isDict then l else r) (items.map norm) := by
  unfold rebuildPair
  split
  · exact norm_withKeys _ items
  · rename_i hl
    have hd : l.isDict = false := by
      cases l with
      | dict entries => exact absurd rfl (hl entries)
      | _ => rfl
    rw [hd]
    exact norm_withKeys _ items
  · rename_i hl hr
    have hd : l.isDict = false := by
      cases l with
      | dict entries => exact absurd rfl (hl entries)
      | _ => rfl
    rw [hd, norm_fromItems]
    cases r with
    | dict entries => exact absurd rfl (hr entries)
    | _ => rfl

theorem pairItems_norm {l r : Value} (h : l.isAtom = false ∨ r.isAtom = false) :
    pairItems l.norm r.norm = (pairItems l r).map fun p => (p.1.norm, p.2.norm) := by
  unfold pairItems
  rw [isAtom_norm, isAtom_norm]
  by_cases hl : l.isAtom = true
  · have hr : r.isAtom = false := by simpa [hl] using h
    rw [if_pos hl, if_pos hl, containerItems_norm hr, List.map_map, List.map_map]
    rfl
  · have hl' : l.isAtom = false := by simpa using hl
    rw [if_neg hl, if_neg hl]
    by_cases hr : r.isAtom = true
    · rw [if_pos hr, if_pos hr, containerItems_norm hl', List.map_map, List.map_map]
      rfl
    · rw [if_neg hr, if_neg hr, containerItems_norm hl', containerItems_norm (by simpa using hr),
        List.zip_map]
      rfl

/-- The entries of two dictionaries. -/
theorem zipDicts_norm {stop : Bc2Stop} {f : Value → Value → WqResult Value} (depth : Nat) :
    ∀ dx dy : List (String × Value),
      (∀ x ∈ dx, ∀ r, SameResult (bc2Until stop f depth x.2 r)
        (bc2Until stop f depth x.2.norm r.norm)) →
      List.map (fun e => (e.1, e.2.norm)) <$> zipDicts stop f depth dx dy =
        List.map (fun e => (e.1, e.2.norm)) <$> zipDicts stop f depth
          (dx.map fun e => (e.1, e.2.norm)) (dy.map fun e => (e.1, e.2.norm))
  | [], _, _ => by simp [zipDicts]
  | _ :: _, [], _ => by simp [zipDicts]
  | (kx, x) :: xs, (ky, y) :: ys, h => by
    have hx := h (kx, x) List.mem_cons_self y
    have hxs := zipDicts_norm depth xs ys fun p hp => h p (List.mem_cons_of_mem _ hp)
    rw [List.map_cons, List.map_cons, zipDicts, zipDicts]
    by_cases hk : kx ≠ ky
    · rw [if_pos hk, if_pos hk]
    · rw [if_neg hk, if_neg hk]
      unfold SameResult at hx
      revert hx hxs
      generalize zipDicts stop f depth xs ys = rs, bc2Until stop f depth x y = r,
        zipDicts stop f depth (xs.map _) (ys.map _) = rs',
        bc2Until stop f depth x.norm y.norm = r'
      intro hx hxs
      cases r with
      | error e =>
        cases r' with
        | error e' =>
          obtain rfl : e = e' := Except.error.inj hx
          rfl
        | ok v' => cases hx
      | ok v =>
        cases r' with
        | error e' => cases hx
        | ok v' =>
          have hv : v.norm = v'.norm := Except.ok.inj hx
          cases rs with
          | error e =>
            cases rs' with
            | error e' =>
              obtain rfl : e = e' := Except.error.inj hxs
              rfl
            | ok vs' => cases hxs
          | ok vs =>
            cases rs' with
            | error e' => cases hxs
            | ok vs' =>
              have hvs := Except.ok.inj hxs
              show Except.ok ((kx, norm v) :: vs.map _) = Except.ok ((kx, norm v') :: vs'.map _)
              rw [hv, hvs]

/-- The broadcast of two containers, once that of the items of the left one is
known not to see representations. -/
theorem bc2Until_norm_items {stop : Bc2Stop} {f : Value → Value → WqResult Value} {depth : Nat}
    {l r : Value} (hstop : stop.shouldStop depth l r = false)
    (hitems : ∀ p ∈ pairItems l r, SameResult (bc2Until stop f (depth + 1) p.1 p.2)
      (bc2Until stop f (depth + 1) p.1.norm p.2.norm))
    (hdicts : ∀ dx dy, l = .dict dx → r = .dict dy → ∀ x ∈ dx, ∀ r',
      SameResult (bc2Until stop f (depth + 1) x.2 r')
        (bc2Until stop f (depth + 1) x.2.norm r'.norm)) :
    SameResult (bc2Until stop f depth l r) (bc2Until stop f depth l.norm r.norm) := by
  have hstop' : stop.shouldStop depth l.norm r.norm = false :=
    (shouldStop2_norm stop depth l r).trans hstop
  have hatoms : l.isAtom = false ∨ r.isAtom = false := by
    by_contra h
    push Not at h
    have hboth := stop.shouldStop_of_isAtom depth (by simpa using h.1) (by simpa using h.2)
    rw [hstop] at hboth
    cases hboth
  by_cases hlen : l.isAtom = true ∨ r.isAtom = true ∨ l.len = r.len
  · have hlen' : l.norm.isAtom = true ∨ r.norm.isAtom = true ∨ l.norm.len = r.norm.len := by
      rw [isAtom_norm, isAtom_norm]
      by_cases hl : l.isAtom = true
      · exact .inl hl
      by_cases hr : r.isAtom = true
      · exact .inr (.inl hr)
      rw [len_norm (by simpa using hl), len_norm (by simpa using hr)]
      exact hlen
    by_cases hd : l.isDict = true ∧ r.isDict = true
    · obtain ⟨dx, rfl⟩ := exists_dict hd.1
      obtain ⟨dy, rfl⟩ := exists_dict hd.2
      have heq : dx.length = dy.length := by
        rcases hlen with h | h | h
        · cases h
        · cases h
        · exact h
      rw [bc2Until_dicts stop f depth dx dy hstop heq]
      rw [norm_dict, norm_dict] at hstop' ⊢
      rw [bc2Until_dicts stop f depth _ _ hstop' (by rw [List.length_map, List.length_map, heq])]
      have hzip := zipDicts_norm (depth + 1) dx dy (hdicts dx dy rfl rfl)
      unfold SameResult
      revert hzip
      generalize zipDicts stop f (depth + 1) dx dy = rs,
        zipDicts stop f (depth + 1) (dx.map _) (dy.map _) = rs'
      intro hzip
      cases rs with
      | error e =>
        cases rs' with
        | error e' =>
          obtain rfl : e = e' := Except.error.inj hzip
          rfl
        | ok es' => cases hzip
      | ok es =>
        cases rs' with
        | error e' => cases hzip
        | ok es' =>
          have hes := Except.ok.inj hzip
          show Except.ok (Value.dict (IndexMap.collect es)).norm =
            Except.ok (Value.dict (IndexMap.collect es')).norm
          rw [norm_dict_collect, norm_dict_collect, hes]
    · have hd' : ¬(l.norm.isDict = true ∧ r.norm.isDict = true) := by
        rwa [isDict_norm, isDict_norm]
      rw [bc2Until_container stop f depth hstop hd hlen,
        bc2Until_container stop f depth hstop' hd' hlen', pairItems_norm hatoms]
      refine sameResult_map (norm_rebuildPair l r) (fun vs => ?_) (mapM_norm _ _ hitems)
      rw [norm_rebuildPair, isDict_norm]
      by_cases hl : l.isDict = true
      · rw [if_pos hl, if_pos hl, rebuildNorm_norm]
      · rw [if_neg hl, if_neg hl, rebuildNorm_norm]
  · push Not at hlen
    obtain ⟨hl, hr, hne⟩ := hlen
    have hl : l.isAtom = false := by simpa using hl
    have hr : r.isAtom = false := by simpa using hr
    rw [bc2Until_length stop f depth hstop hl hr hne,
      bc2Until_length stop f depth hstop' (by simpa using hl) (by simpa using hr)
        (by rwa [len_norm hl, len_norm hr])]
    rfl

/-- An atom against a value. The induction is on the value. -/
theorem bc2Until_norm_atom {stop : Bc2Stop} {f : Value → Value → WqResult Value}
    (hf : Respects2 stop f) {l : Value} (hl : l.isAtom = true) (r : Value) : ∀ depth : Nat,
      SameResult (bc2Until stop f depth l r) (bc2Until stop f depth l.norm r.norm) := by
  induction r using nestingInduction with
  | atom r hr =>
    intro depth
    rw [norm_of_isAtom hl, norm_of_isAtom hr]
    rfl
  | container r hr ih =>
    intro depth
    cases hstop : stop.shouldStop depth l r with
    | true =>
      rw [bc2Until_of_stop stop f depth hstop,
        bc2Until_of_stop stop f depth ((shouldStop2_norm stop depth l r).trans hstop)]
      exact hf depth l r hstop
    | false =>
      refine bc2Until_norm_items hstop (fun p hp => ?_) (fun dx dy hdx _ => ?_)
      · rw [pairItems, if_pos hl] at hp
        obtain ⟨y, hy, rfl⟩ := List.mem_map.mp hp
        exact ih y hy (depth + 1)
      · subst hdx
        cases hl

theorem bc2Until_norm {stop : Bc2Stop} {f : Value → Value → WqResult Value}
    (hf : Respects2 stop f) (l : Value) : ∀ (r : Value) (depth : Nat),
      SameResult (bc2Until stop f depth l r) (bc2Until stop f depth l.norm r.norm) := by
  induction l using nestingInduction with
  | atom l hl => exact fun r => bc2Until_norm_atom hf hl r
  | container l hl ih =>
    intro r depth
    cases hstop : stop.shouldStop depth l r with
    | true =>
      rw [bc2Until_of_stop stop f depth hstop,
        bc2Until_of_stop stop f depth ((shouldStop2_norm stop depth l r).trans hstop)]
      exact hf depth l r hstop
    | false =>
      refine bc2Until_norm_items hstop (fun p hp => ?_) (fun dx dy hdx _ x hx r' => ?_)
      · -- the left item of every pair is an item of the left container
        rw [pairItems, if_neg (by simp [hl])] at hp
        by_cases hr : r.isAtom = true
        · rw [if_pos hr] at hp
          obtain ⟨x, hx, rfl⟩ := List.mem_map.mp hp
          exact ih x hx r (depth + 1)
        · rw [if_neg hr] at hp
          exact ih p.1 (List.of_mem_zip hp).1 p.2 (depth + 1)
      · subst hdx
        exact ih x.2 (List.mem_map_of_mem hx) r' (depth + 1)

/-- **Broadcasting is independent of representation.** With its normal forms
as operands a broadcast fails with the same kind of error or yields the same
normal form: for every operation where it stops at atoms, and for every stop
predicate where the operation respects normal forms at the places it stops. -/
theorem broadcast_norm :
    (∀ (f : Value → WqResult Value) (a : Value),
      SameResult (bc1Until .atom f 0 a) (bc1Until .atom f 0 a.norm)) ∧
    (∀ (f : Value → Value → WqResult Value) (a b : Value),
      SameResult (bc2Until .bothAtom f 0 a b) (bc2Until .bothAtom f 0 a.norm b.norm)) ∧
    (∀ (stop : Bc1Stop) (f : Value → WqResult Value), Respects1 stop f → ∀ a : Value,
      SameResult (bc1Until stop f 0 a) (bc1Until stop f 0 a.norm)) ∧
    ∀ (stop : Bc2Stop) (f : Value → Value → WqResult Value), Respects2 stop f →
      ∀ a b : Value, SameResult (bc2Until stop f 0 a b) (bc2Until stop f 0 a.norm b.norm) :=
  ⟨fun f a => bc1Until_norm (respects1_atom f) a 0,
    fun f a b => bc2Until_norm (respects2_bothAtom f) a b 0,
    fun _ _ hf a => bc1Until_norm hf a 0,
    fun _ _ hf a b => bc2Until_norm hf a b 0⟩

/-- Packed operands that are paired whole. -/
theorem broadcast_norm_pair :
    SameResult
      (bc2Until (.bothAtomOrDepth 1) (fun l r => .ok (.list [l, r])) 0
        (.list [.intList [1, 2], .string "a"]) (.list [.intList [3], .boolList []]))
      (bc2Until (.bothAtomOrDepth 1) (fun l r => .ok (.list [l, r])) 0
        (.list [.intList [1, 2], .string "a"] : Value).norm
        (.list [.intList [3], .boolList []] : Value).norm) := by
  refine broadcast_norm.2.2.2 _ _ (fun depth l r _ => ?_) _ _
  have hpair : ∀ v w : Value, norm <$> (.ok (.list [v, w]) : WqResult Value) =
      .ok (.list [v.norm, w.norm]) := fun v w => congrArg Except.ok (norm_list [v, w])
  have hidem : ∀ v : Value, v.norm.norm = v.norm := norm_norm
  show norm <$> _ = norm <$> _
  rw [hpair, hpair, hidem, hidem]

end Value

end Wqpl
