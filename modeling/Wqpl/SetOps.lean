/-
# Set operations

The set operations have a path for two lists of machine integers and a path over
a hash set of values; both compute the same sets, with equality of values for
membership, and keep first occurrences in order. Only the test for membership in
a list of integers compares by representation: it misses an integer that is held
as a big one (`setLaws_iff`).

Key definitions: `SetOp.eval`, `SetLaws`, `SameSets`, `MissesMember`.
-/
import Wqpl.Access.Assign
import Wqpl.Hash
import Wqpl.KeySet

namespace Wqpl

open Value

/-! ### The operations -/

/-- `require_explicit_dict_projection`. -/
def requireExplicitDictProjection (args : List Value) : WqResult Unit :=
  if args.any isDict then .error .domain else .ok ()

/-- `seq_items`. -/
def seqItems (v : Value) : List Value :=
  match listStorageSeq v, v with
  | some items, _ => items
  | none, .string s => s.toList.map .char
  | none, .dict entries => entries.map fun e => .tag e.1
  | none, atom => [atom]

section Operations

variable (hasher : List HashWrite → UInt64)

/-- Values as the keys of a table. -/
def valueKeys : Keys Value where
  eq := Value.eq
  hash v := hasher v.hash
  equiv := eq_hash_coherent.1
  coherent h := congrArg hasher (eq_hash_coherent.2 _ _ h)

/-- Machine integers as the keys of a table. -/
def intKeys : Keys Int64 where
  eq m n := m = n
  hash n := hasher [.i64 n]
  equiv := by
    refine ⟨fun a => ?_, fun h => ?_, fun h h' => ?_⟩
    · exact decide_eq_true rfl
    · exact decide_eq_true (of_decide_eq_true h).symm
    · exact decide_eq_true ((of_decide_eq_true h).trans (of_decide_eq_true h'))
  coherent h := by rw [of_decide_eq_true h]

/-- `unique_items`. -/
def uniqueItems (items : List Value) : List Value :=
  ((valueKeys hasher).keepNew (fun _ => true) ([], []) items).2

/-- `unique_int_items`. -/
def uniqueIntItems (items : List Int64) : List Int64 :=
  ((intKeys hasher).keepNew (fun _ => true) ([], []) items).2

/-- `item_set`. -/
def itemSet (v : Value) : List Value := (valueKeys hasher).ofList (seqItems v)

/-- `unique`. -/
def unique : List Value → WqResult Value
  | [x] => do
    requireExplicitDictProjection [x]
    match x with
    | .intList items => return .intList (uniqueIntItems hasher items)
    | x => return fromItems (uniqueItems hasher (seqItems x))
  | _ => .error .arity

/-- The operations of two arguments: they take no dictionary. -/
def binarySet (f : Value → Value → Value) : List Value → WqResult Value
  | [a, b] => do
    requireExplicitDictProjection [a, b]
    return f a b
  | _ => .error .arity

/-- The shortcut for two lists of machine integers. -/
def intListsOr {α : Type} (packed : List Int64 → List Int64 → α) (general : Value → Value → α) :
    Value → Value → α
  | .intList lhs, .intList rhs => packed lhs rhs
  | a, b => general a b

/-- `union`. -/
def union : List Value → WqResult Value :=
  binarySet (intListsOr (fun lhs rhs => .intList (uniqueIntItems hasher (lhs ++ rhs)))
    fun a b => fromItems (uniqueItems hasher (seqItems a ++ seqItems b)))

/-- `intersect`. -/
def intersect : List Value → WqResult Value :=
  binarySet (intListsOr
    (fun lhs rhs =>
      let rhs := (intKeys hasher).ofList rhs
      .intList ((intKeys hasher).keepNew ((intKeys hasher).contains rhs) ([], []) lhs).2)
    fun a b =>
      let rhs := itemSet hasher b
      fromItems (uniqueItems hasher ((seqItems a).filter ((valueKeys hasher).contains rhs))))

/-- `without`. -/
def without : List Value → WqResult Value :=
  binarySet (intListsOr
    (fun lhs rhs =>
      let rhs := (intKeys hasher).ofList rhs
      .intList (lhs.filter fun item => !(intKeys hasher).contains rhs item))
    fun a b =>
      let rhs := itemSet hasher b
      fromItems ((seqItems a).filter fun item => !(valueKeys hasher).contains rhs item))

/-- `symdiff`. -/
def symdiff : List Value → WqResult Value :=
  binarySet (intListsOr
    (fun lhs rhs =>
      let lhsSet := (intKeys hasher).ofList lhs
      let rhsSet := (intKeys hasher).ofList rhs
      let keys := intKeys hasher
      let out := keys.keepNew (fun n => !keys.contains rhsSet n) ([], []) lhs
      .intList (keys.keepNew (fun n => !keys.contains lhsSet n) out rhs).2)
    fun a b =>
      let lhs := itemSet hasher a
      let rhs := itemSet hasher b
      fromItems (uniqueItems hasher
        ((seqItems a).filter (fun item => !(valueKeys hasher).contains rhs item) ++
          (seqItems b).filter fun item => !(valueKeys hasher).contains lhs item)))

/-- `is_subset`. -/
def isSubset : Value → Value → Bool :=
  intListsOr
    (fun lhs rhs =>
      let rhs := (intKeys hasher).ofList rhs
      lhs.all ((intKeys hasher).contains rhs))
    fun a b =>
      let rhs := itemSet hasher b
      (itemSet hasher a).all ((valueKeys hasher).contains rhs)

/-- `is_proper_subset`. -/
def isProperSubset : Value → Value → Bool :=
  intListsOr
    (fun lhs rhs =>
      let lhs := (intKeys hasher).ofList lhs
      let rhs := (intKeys hasher).ofList rhs
      lhs.length < rhs.length && lhs.all ((intKeys hasher).contains rhs))
    fun a b =>
      let lhs := itemSet hasher a
      let rhs := itemSet hasher b
      lhs.length < rhs.length && lhs.all ((valueKeys hasher).contains rhs)

/-- `subset`. -/
def subset : List Value → WqResult Value := binarySet fun a b => .bool (isSubset hasher a b)

/-- `proper_subset`. -/
def properSubset : List Value → WqResult Value :=
  binarySet fun a b => .bool (isProperSubset hasher a b)

/-- `superset`. -/
def superset : List Value → WqResult Value := binarySet fun a b => .bool (isSubset hasher b a)

/-- `proper_superset`. -/
def properSuperset : List Value → WqResult Value :=
  binarySet fun a b => .bool (isProperSubset hasher b a)

/-- `member_result`. -/
def memberResult (lhs : Value) (results : List Value) : Value :=
  if lhs.isAtom then results.headD .emptyList -- an atom has one result
  else fromItems results

/-- `member`, of two values that are no dictionaries. Of a list that is not of
machine integers, the items are looked up in a list of integers by their
representation. -/
def memberOf (a b : Value) : Value :=
  match b with
  | .intList rhs =>
    let rhs := (intKeys hasher).ofList rhs
    match a with
    | .int n => .bool ((intKeys hasher).contains rhs n)
    | .intList lhs => .list (lhs.map fun item => .bool ((intKeys hasher).contains rhs item))
    | lhs => memberResult lhs ((seqItems lhs).map fun item =>
        match item with
        | .int n => .bool ((intKeys hasher).contains rhs n)
        | _ => .bool false)
  | b =>
    let rhs := itemSet hasher b
    memberResult a ((seqItems a).map fun item => .bool ((valueKeys hasher).contains rhs item))

/-- `member`. -/
def member : List Value → WqResult Value := binarySet (memberOf hasher)

/-- `disjoint`. -/
def disjoint : List Value → WqResult Value :=
  binarySet fun a b => .bool (intListsOr
    (fun lhs rhs =>
      let rhs := (intKeys hasher).ofList rhs
      !lhs.any ((intKeys hasher).contains rhs))
    (fun a b =>
      let b := itemSet hasher b
      !(seqItems a).any ((valueKeys hasher).contains b)) a b)

/-- `counts`. -/
def counts : List Value → WqResult Value
  | [x] => do
    requireExplicitDictProjection [x]
    match x with
    | .intList items =>
      return .list (((intKeys hasher).counts items).map fun e => .list [.int e.1, .int e.2])
    | x =>
      return .list (((valueKeys hasher).counts (seqItems x)).map fun e => .list [e.1, .int e.2])
  | _ => .error .arity

/-- `into_wq_value` of a length. -/
def lengthValue (n : Nat) : Value :=
  match i64? n with
  | some m => .int m
  | none => .bigInt n

/-- `multiplicity`. -/
def multiplicity : List Value → WqResult Value
  | [elem, container] =>
    match listStorageSeq container, container with
    | some items, _ => .ok (lengthValue (items.countP fun item => item.eq elem))
    | none, .string s =>
      match elem with
      | .char ch => .ok (lengthValue (s.toList.countP (· = ch)))
      | _ => .ok (.int 0)
    | none, .dict entries =>
      match elem with
      | .tag s => .ok (.int (if s ∈ entries.map Prod.fst then 1 else 0))
      | _ => .ok (.int 0)
    | none, atom => .ok (.int (if elem.eq atom then 1 else 0))
  | _ => .error .arity

/-- The operations on two lists. -/
inductive SetOp
  | union | intersect | without | symdiff
  | subset | properSubset | superset | properSuperset | disjoint | member
deriving DecidableEq, Repr

def SetOp.eval : SetOp → List Value → WqResult Value
  | .union => Wqpl.union hasher
  | .intersect => Wqpl.intersect hasher
  | .without => Wqpl.without hasher
  | .symdiff => Wqpl.symdiff hasher
  | .subset => Wqpl.subset hasher
  | .properSubset => Wqpl.properSubset hasher
  | .superset => Wqpl.superset hasher
  | .properSuperset => Wqpl.properSuperset hasher
  | .disjoint => Wqpl.disjoint hasher
  | .member => Wqpl.member hasher

end Operations

/-! ### The laws -/

/-- A list of these items, in some representation. -/
def HoldsItems (v : Value) (items : List Value) : Prop :=
  (ValueSeq.fromValue v).map ValueSeq.values = some items

/-- Some item is equal to the value. -/
def isMember (items : List Value) (x : Value) : Bool := items.any (Value.eq x)

/-- How many items are equal to the value. -/
def countOf (items : List Value) (x : Value) : Nat := items.countP (Value.eq x)

def ReturnsItems (out : WqResult Value) (items : List Value) : Prop :=
  ∃ v, out = .ok v ∧ HoldsItems v items

/-- The result of an operation on lists of the items `xs` and `ys`. -/
def SetOp.Meets (xs ys : List Value) (out : WqResult Value) : SetOp → Prop
  | .union => ReturnsItems out (firsts Value.eq (xs ++ ys))
  | .intersect => ReturnsItems out (firsts Value.eq (xs.filter (isMember ys)))
  | .without => ReturnsItems out (xs.filter fun x => !isMember ys x)
  | .symdiff => ReturnsItems out (firsts Value.eq
      (xs.filter (fun x => !isMember ys x) ++ ys.filter fun y => !isMember xs y))
  | .subset => out = .ok (.bool (xs.all (isMember ys)))
  | .properSubset =>
    out = .ok (.bool (xs.all (isMember ys) && ys.any fun y => !isMember xs y))
  | .superset => out = .ok (.bool (ys.all (isMember xs)))
  | .properSuperset =>
    out = .ok (.bool (ys.all (isMember xs) && xs.any fun x => !isMember ys x))
  | .disjoint => out = .ok (.bool (!xs.any (isMember ys)))
  | .member => ReturnsItems out (xs.map fun x => .bool (isMember ys x))

section Laws

variable (hasher : List HashWrite → UInt64)

/-- The laws of the operations on a list of the items `xs` and one of the items `ys`. -/
structure SetLaws (a b : Value) (xs ys : List Value) : Prop where
  unique : ReturnsItems (unique hasher [a]) (firsts Value.eq xs)
  binary : ∀ op : SetOp, op.Meets xs ys (op.eval hasher [a, b])
  counts : ReturnsItems (counts hasher [a])
    ((firsts Value.eq xs).map fun x => .list [x, .int (Int64.ofNat (countOf xs x))])
  multiplicity : ∀ x, multiplicity [x, a] = .ok (lengthValue (countOf xs x))

/-- Both succeed, with equal values. -/
def EqualOutcomes (out out' : WqResult Value) : Prop :=
  ∃ v v', out = .ok v ∧ out' = .ok v' ∧ v.eq v' = true

/-- The operations do the same to `a` and `b` as to `a'` and `b'`. -/
structure SameSets (a b a' b' : Value) : Prop where
  unique : EqualOutcomes (unique hasher [a]) (unique hasher [a'])
  binary : ∀ op : SetOp, EqualOutcomes (op.eval hasher [a, b]) (op.eval hasher [a', b'])
  counts : EqualOutcomes (counts hasher [a]) (counts hasher [a'])
  multiplicity : ∀ x x', x.eq x' = true →
    EqualOutcomes (multiplicity [x, a]) (multiplicity [x', a'])

end Laws

/-- An integer of the list is held as a big one, in a list that is not one of machine
integers, and looked up in a list of machine integers that has it. -/
def MissesMember (a : Value) (xs : List Value) (b : Value) : Prop :=
  (∀ lhs, a ≠ .intList lhs) ∧ ∃ rhs, b = .intList rhs ∧ ∃ n ∈ rhs, .bigInt n.toInt ∈ xs

/-! ### Both paths -/

theorem holdsItems_fromItems (items : List Value) : HoldsItems (fromItems items) items :=
  fromItems_values items

theorem holdsItems_intList (items : List Int64) : HoldsItems (.intList items) (items.map .int) :=
  rfl

theorem holdsItems_list (items : List Value) : HoldsItems (.list items) items := rfl

theorem isDict_of_holds {v : Value} {items : List Value} (h : HoldsItems v items) :
    v.isDict = false := by
  cases v with
  | dict _ => cases h
  | _ => rfl

theorem seqItems_of_holds {v : Value} {items : List Value} (h : HoldsItems v items) :
    seqItems v = items := by
  cases v with
  | list _ | intList _ | intRange _ | floatList _ | boolList _ | string _ => exact Option.some.inj h
  | _ => cases h

theorem canon_of_holds {v : Value} {items : List Value} (h : HoldsItems v items) :
    v.canon = .list (canonItems items) := by
  obtain ⟨seq, hseq, rfl⟩ := Option.map_eq_some_iff.mp h
  exact canon_of_fromValue hseq

section Paths

variable {hasher : List HashWrite → UInt64}

theorem eq_int (m n : Int64) : Value.eq (.int m) (.int n) = (intKeys hasher).eq m n := rfl

theorem uniqueItems_eq (items : List Value) : uniqueItems hasher items = firsts Value.eq items :=
  congrArg Prod.snd ((valueKeys hasher).keepNew_all items)

theorem uniqueIntItems_eq (items : List Int64) :
    uniqueIntItems hasher items = firsts (intKeys hasher).eq items :=
  congrArg Prod.snd ((intKeys hasher).keepNew_all items)

theorem firsts_ints (items : List Int64) :
    (firsts (intKeys hasher).eq items).map Value.int = firsts Value.eq (items.map .int) :=
  (firsts_map eq_int items).symm

theorem contains_int (items : List Int64) :
    (intKeys hasher).contains items = fun n => isMember (items.map .int) (.int n) := by
  funext n
  rw [Keys.contains_eq, isMember, List.any_map]
  rfl

theorem contains_ints (items : List Int64) :
    (intKeys hasher).contains ((intKeys hasher).ofList items) =
      fun n => isMember (items.map .int) (.int n) := by
  rw [← contains_int]
  exact funext (Keys.contains_ofList _ items)

theorem contains_values (items : List Value) :
    (valueKeys hasher).contains items = isMember items := funext (Keys.contains_eq _ items)

theorem contains_itemSet {v : Value} {items : List Value} (h : HoldsItems v items) :
    (valueKeys hasher).contains (itemSet hasher v) = isMember items := by
  rw [itemSet, seqItems_of_holds h, ← @contains_values hasher]
  exact funext (Keys.contains_ofList _ items)

/-- A result over two lists, by either path. -/
theorem intListsOr_induction {α : Type} {P : List Value → List Value → α → Prop}
    {packed : List Int64 → List Int64 → α} {general : Value → Value → α}
    (hpacked : ∀ lhs rhs, P (lhs.map .int) (rhs.map .int) (packed lhs rhs))
    (hgeneral : ∀ a b xs ys, HoldsItems a xs → HoldsItems b ys → P xs ys (general a b))
    {a b : Value} {xs ys : List Value} (ha : HoldsItems a xs) (hb : HoldsItems b ys) :
    P xs ys (intListsOr packed general a b) := by
  by_cases hints : ∃ lhs rhs, a = .intList lhs ∧ b = .intList rhs
  · obtain ⟨lhs, rhs, rfl, rfl⟩ := hints
    obtain rfl := Option.some.inj ha
    obtain rfl := Option.some.inj hb
    exact hpacked lhs rhs
  · have heq : intListsOr packed general a b = general a b := by
      unfold intListsOr
      split
      · exact absurd ⟨_, _, rfl, rfl⟩ hints
      · rfl
    rw [heq]
    exact hgeneral a b xs ys ha hb

theorem binarySet_eq (f : Value → Value → Value) {a b : Value} {xs ys : List Value}
    (ha : HoldsItems a xs) (hb : HoldsItems b ys) : binarySet f [a, b] = .ok (f a b) := by
  simp [binarySet, requireExplicitDictProjection, isDict_of_holds ha, isDict_of_holds hb]

/-! ### Every operation keeps its law -/

theorem unique_general {a : Value} (hints : ∀ items, a ≠ .intList items)
    (hdict : a.isDict = false) :
    unique hasher [a] = .ok (fromItems (uniqueItems hasher (seqItems a))) := by
  cases a with
  | intList items => exact absurd rfl (hints items)
  | dict _ => cases hdict
  | _ => rfl

theorem unique_returns {a : Value} {xs : List Value} (ha : HoldsItems a xs) :
    ReturnsItems (unique hasher [a]) (firsts Value.eq xs) := by
  by_cases hints : ∃ items, a = .intList items
  · obtain ⟨items, rfl⟩ := hints
    obtain rfl : items.map .int = xs := Option.some.inj ha
    refine ⟨.intList (uniqueIntItems hasher items), rfl, ?_⟩
    rw [uniqueIntItems_eq, ← firsts_ints]
    exact holdsItems_intList _
  · push Not at hints
    rw [unique_general hints (isDict_of_holds ha), seqItems_of_holds ha, uniqueItems_eq]
    exact ⟨_, rfl, holdsItems_fromItems _⟩

theorem union_meets {a b : Value} {xs ys : List Value} (ha : HoldsItems a xs)
    (hb : HoldsItems b ys) : SetOp.union.Meets xs ys (union hasher [a, b]) := by
  rw [union, binarySet_eq _ ha hb]
  refine ⟨_, rfl, intListsOr_induction
    (P := fun xs ys v => HoldsItems v (firsts Value.eq (xs ++ ys)))
    (fun lhs rhs => ?_) (fun a b xs ys ha hb => ?_) ha hb⟩
  · rw [uniqueIntItems_eq, ← List.map_append, ← firsts_ints]
    exact holdsItems_intList _
  · rw [seqItems_of_holds ha, seqItems_of_holds hb, uniqueItems_eq]
    exact holdsItems_fromItems _

theorem intersect_meets {a b : Value} {xs ys : List Value} (ha : HoldsItems a xs)
    (hb : HoldsItems b ys) : SetOp.intersect.Meets xs ys (intersect hasher [a, b]) := by
  rw [intersect, binarySet_eq _ ha hb]
  refine ⟨_, rfl, intListsOr_induction
    (P := fun xs ys v => HoldsItems v (firsts Value.eq (xs.filter (isMember ys))))
    (fun lhs rhs => ?_) (fun a b xs ys ha hb => ?_) ha hb⟩
  · dsimp only
    rw [Keys.keepNew_filter, Keys.keepNew_all, contains_ints, List.filter_map, ← firsts_ints]
    exact holdsItems_intList _
  · dsimp only
    rw [contains_itemSet hb, seqItems_of_holds ha, uniqueItems_eq]
    exact holdsItems_fromItems _

theorem without_meets {a b : Value} {xs ys : List Value} (ha : HoldsItems a xs)
    (hb : HoldsItems b ys) : SetOp.without.Meets xs ys (without hasher [a, b]) := by
  rw [without, binarySet_eq _ ha hb]
  refine ⟨_, rfl, intListsOr_induction
    (P := fun xs ys v => HoldsItems v (xs.filter fun x => !isMember ys x))
    (fun lhs rhs => ?_) (fun a b xs ys ha hb => ?_) ha hb⟩
  · dsimp only
    rw [contains_ints, List.filter_map]
    exact holdsItems_intList _
  · dsimp only
    rw [contains_itemSet hb, seqItems_of_holds ha]
    exact holdsItems_fromItems _

theorem symdiff_meets {a b : Value} {xs ys : List Value} (ha : HoldsItems a xs)
    (hb : HoldsItems b ys) : SetOp.symdiff.Meets xs ys (symdiff hasher [a, b]) := by
  rw [symdiff, binarySet_eq _ ha hb]
  refine ⟨_, rfl, intListsOr_induction (P := fun xs ys v => HoldsItems v (firsts Value.eq
      (xs.filter (fun x => !isMember ys x) ++ ys.filter fun y => !isMember xs y)))
    (fun lhs rhs => ?_) (fun a b xs ys ha hb => ?_) ha hb⟩
  · dsimp only
    rw [Keys.keepNew_filter, Keys.keepNew_filter _ _ lhs, ← Keys.keepNew_append, Keys.keepNew_all,
      contains_ints, contains_ints, List.filter_map, List.filter_map, ← List.map_append,
      ← firsts_ints]
    exact holdsItems_intList _
  · dsimp only
    rw [contains_itemSet ha, contains_itemSet hb, seqItems_of_holds ha, seqItems_of_holds hb,
      uniqueItems_eq]
    exact holdsItems_fromItems _

/-- The test for a subset, by either path. -/
theorem isSubset_eq {a b : Value} {xs ys : List Value} (ha : HoldsItems a xs)
    (hb : HoldsItems b ys) : isSubset hasher a b = xs.all (isMember ys) := by
  refine intListsOr_induction (P := fun xs ys out => out = xs.all (isMember ys))
    (fun lhs rhs => ?_) (fun a b xs ys ha hb => ?_) ha hb
  · dsimp only
    rw [contains_ints, List.all_map]
    rfl
  · dsimp only
    rw [contains_itemSet hb, itemSet, seqItems_of_holds ha, ← @contains_values hasher]
    exact (valueKeys hasher).all_ofList xs ys

/-- The test for a proper subset, by either path. -/
theorem isProperSubset_eq {a b : Value} {xs ys : List Value} (ha : HoldsItems a xs)
    (hb : HoldsItems b ys) : isProperSubset hasher a b =
      (xs.all (isMember ys) && ys.any fun y => !isMember xs y) := by
  refine intListsOr_induction
    (P := fun xs ys out => out = (xs.all (isMember ys) && ys.any fun y => !isMember xs y))
    (fun lhs rhs => ?_) (fun a b xs ys ha hb => ?_) ha hb
  · dsimp only
    rw [Keys.properSubset_eq, contains_int, contains_int, List.all_map, List.any_map]
    rfl
  · dsimp only
    rw [itemSet, itemSet, seqItems_of_holds ha, seqItems_of_holds hb, Keys.properSubset_eq,
      contains_values, contains_values]

theorem disjoint_meets {a b : Value} {xs ys : List Value} (ha : HoldsItems a xs)
    (hb : HoldsItems b ys) : SetOp.disjoint.Meets xs ys (disjoint hasher [a, b]) := by
  rw [disjoint, binarySet_eq _ ha hb]
  refine congrArg (fun out : Bool => (Except.ok (.bool out) : WqResult Value)) ?_
  refine intListsOr_induction (P := fun xs ys out => out = !xs.any (isMember ys))
    (fun lhs rhs => ?_) (fun a b xs ys ha hb => ?_) ha hb
  · dsimp only
    rw [contains_ints, List.any_map]
    rfl
  · dsimp only
    rw [contains_itemSet hb, seqItems_of_holds ha]

/-! ### Membership -/

theorem memberResult_of_holds {a : Value} {xs : List Value} (ha : HoldsItems a xs)
    (results : List Value) : memberResult a results = fromItems results := by
  cases a with
  | list _ | intList _ | intRange _ | floatList _ | boolList _ | string _ => rfl
  | _ => cases ha

/-- The lookup by representation. -/
def isMemberNative (rhs : List Int64) (x : Value) : Bool :=
  match x with
  | .int n => isMember (rhs.map .int) (.int n)
  | _ => false

/-- The lookup by representation misses the big integers only. -/
theorem isMemberNative_eq_iff (rhs : List Int64) (x : Value) :
    isMemberNative rhs x = isMember (rhs.map .int) x ↔ ¬∃ n ∈ rhs, x = .bigInt n.toInt := by
  cases x with
  | bigInt m =>
    have hmember : isMember (rhs.map .int) (.bigInt m) = true ↔ ∃ n ∈ rhs, n.toInt = m := by
      rw [isMember, List.any_map, List.any_eq_true]
      refine exists_congr fun n => and_congr_right fun _ => ?_
      exact decide_eq_true_iff.trans eq_comm
    have hexists : (∃ n ∈ rhs, Value.bigInt m = .bigInt n.toInt) ↔ ∃ n ∈ rhs, n.toInt = m := by
      refine exists_congr fun n => and_congr_right fun _ => ?_
      rw [Value.bigInt.injEq, eq_comm]
    rw [hexists, ← hmember, Bool.not_eq_true]
    exact eq_comm
  | int n => exact iff_of_true rfl (by rintro ⟨_, _, h⟩; cases h)
  | _ =>
    refine iff_of_true ?_ (by rintro ⟨_, _, h⟩; cases h)
    rw [isMember, List.any_map]
    exact (List.any_eq_false.mpr fun n _ => Bool.false_ne_true).symm

theorem memberOf_general {a b : Value} {xs ys : List Value} (ha : HoldsItems a xs)
    (hb : HoldsItems b ys) (hints : ∀ rhs, b ≠ .intList rhs) :
    memberOf hasher a b = fromItems (xs.map fun x => .bool (isMember ys x)) := by
  have hpath : memberOf hasher a b = memberResult a ((seqItems a).map fun item =>
      .bool ((valueKeys hasher).contains (itemSet hasher b) item)) := by
    cases b with
    | intList rhs => exact absurd rfl (hints rhs)
    | _ => rfl
  rw [hpath, memberResult_of_holds ha, seqItems_of_holds ha, contains_itemSet hb]

theorem memberOf_native {a : Value} {xs : List Value} (ha : HoldsItems a xs)
    (hints : ∀ lhs, a ≠ .intList lhs) (rhs : List Int64) :
    memberOf hasher a (.intList rhs) =
      fromItems (xs.map fun x => .bool (isMemberNative rhs x)) := by
  have hpath : memberOf hasher a (.intList rhs) = memberResult a ((seqItems a).map fun item =>
      match item with
      | .int n => .bool ((intKeys hasher).contains ((intKeys hasher).ofList rhs) n)
      | _ => .bool false) := by
    cases a with
    | intList lhs => exact absurd rfl (hints lhs)
    | int _ => cases ha
    | _ => rfl
  rw [hpath, memberResult_of_holds ha, seqItems_of_holds ha]
  refine congrArg fromItems (List.map_congr_left fun x _ => ?_)
  cases x with
  | int n => exact congrArg Value.bool (congrFun (contains_ints rhs) n)
  | _ => rfl

theorem holdsItems_fromItems_iff (items items' : List Value) :
    HoldsItems (fromItems items) items' ↔ items = items' := by
  rw [HoldsItems, fromItems_values, Option.some.injEq]

/-- **Membership is by equality** except where an integer is missed. -/
theorem member_meets_iff {a b : Value} {xs ys : List Value} (ha : HoldsItems a xs)
    (hb : HoldsItems b ys) :
    SetOp.member.Meets xs ys (member hasher [a, b]) ↔ ¬MissesMember a xs b := by
  have hout : SetOp.member.Meets xs ys (member hasher [a, b]) ↔
      HoldsItems (memberOf hasher a b) (xs.map fun x => .bool (isMember ys x)) := by
    rw [member, binarySet_eq _ ha hb]
    constructor
    · rintro ⟨v, hv, h⟩
      obtain rfl := Except.ok.inj hv
      exact h
    · exact fun h => ⟨_, rfl, h⟩
  rw [hout]
  by_cases hb' : ∃ rhs, b = .intList rhs
  · obtain ⟨rhs, rfl⟩ := hb'
    obtain rfl : rhs.map .int = ys := Option.some.inj hb
    by_cases ha' : ∃ lhs, a = .intList lhs
    · obtain ⟨lhs, rfl⟩ := ha'
      obtain rfl : lhs.map .int = xs := Option.some.inj ha
      refine iff_of_true ?_ fun h => h.1 lhs rfl
      show HoldsItems (.list _) _
      rw [contains_ints, List.map_map]
      exact holdsItems_list _
    · push Not at ha'
      have hmisses : MissesMember a xs (.intList rhs) ↔ ∃ n ∈ rhs, .bigInt n.toInt ∈ xs := by
        constructor
        · rintro ⟨-, _, hrhs, h⟩
          obtain rfl := Value.intList.inj hrhs
          exact h
        · exact fun h => ⟨ha', rhs, rfl, h⟩
      rw [memberOf_native ha ha', holdsItems_fromItems_iff, List.map_inj_left, hmisses]
      have heach : ∀ x, (Value.bool (isMemberNative rhs x) = .bool (isMember (rhs.map .int) x) ↔
          ¬∃ n ∈ rhs, x = .bigInt n.toInt) := by
        intro x
        rw [Value.bool.injEq, isMemberNative_eq_iff]
      simp only [heach]
      constructor
      · rintro h ⟨n, hn, hx⟩
        exact h _ hx ⟨n, hn, rfl⟩
      · rintro h x hx ⟨n, hn, rfl⟩
        exact h ⟨n, hn, hx⟩
  · push Not at hb'
    refine iff_of_true ?_ fun h => ?_
    · rw [memberOf_general ha hb hb']
      exact holdsItems_fromItems _
    · obtain ⟨-, rhs, hrhs, -⟩ := h
      exact hb' rhs hrhs

/-! ### Counting -/

theorem counts_general {a : Value} (hints : ∀ items, a ≠ .intList items)
    (hdict : a.isDict = false) : counts hasher [a] =
      .ok (.list (((valueKeys hasher).counts (seqItems a)).map fun e =>
        .list [e.1, .int e.2])) := by
  cases a with
  | intList items => exact absurd rfl (hints items)
  | dict _ => cases hdict
  | _ => rfl

theorem countOf_int (items : List Int64) (n : Int64) :
    countOf (items.map .int) (.int n) = items.countP ((intKeys hasher).eq n) := by
  rw [countOf, List.countP_map]
  rfl

theorem counts_returns {a : Value} {xs : List Value} (ha : HoldsItems a xs) :
    ReturnsItems (counts hasher [a])
      ((firsts Value.eq xs).map fun x => .list [x, .int (Int64.ofNat (countOf xs x))]) := by
  by_cases hints : ∃ items, a = .intList items
  · obtain ⟨items, rfl⟩ := hints
    obtain rfl : items.map .int = xs := Option.some.inj ha
    refine ⟨.list (((intKeys hasher).counts items).map fun e => .list [.int e.1, .int e.2]),
      rfl, ?_⟩
    rw [Keys.counts_eq, ← @firsts_ints hasher, List.map_map, List.map_map]
    refine congrArg some (List.map_congr_left fun n _ => ?_)
    dsimp only [Function.comp]
    rw [@countOf_int hasher]
  · push Not at hints
    rw [counts_general hints (isDict_of_holds ha), seqItems_of_holds ha, Keys.counts_eq,
      List.map_map]
    exact ⟨_, rfl, holdsItems_list _⟩

theorem eq_comm_bool (x y : Value) : x.eq y = y.eq x :=
  Bool.eq_iff_iff.mpr ⟨eq_hash_coherent.1.symm, eq_hash_coherent.1.symm⟩

theorem eq_char_iff (x : Value) (c : Char) : x.eq (.char c) = true ↔ x = .char c := by
  cases x with
  | char d => exact decide_eq_true_iff.trans (iff_of_eq (Value.char.injEq d c).symm)
  | _ => exact iff_of_false Bool.false_ne_true nofun

theorem listStorageSeq_of_holds {a : Value} {xs : List Value} (ha : HoldsItems a xs)
    (hstring : ∀ s, a ≠ .string s) : listStorageSeq a = some xs := by
  cases a with
  | string s => exact absurd rfl (hstring s)
  | list _ | intList _ | intRange _ | floatList _ | boolList _ => exact ha
  | _ => cases ha

theorem multiplicity_eq {a : Value} {xs : List Value} (ha : HoldsItems a xs) (x : Value) :
    multiplicity [x, a] = .ok (lengthValue (countOf xs x)) := by
  by_cases hstring : ∃ s, a = .string s
  · obtain ⟨s, rfl⟩ := hstring
    obtain rfl : s.toList.map .char = xs := Option.some.inj ha
    have hnone : (∀ c, x ≠ .char c) → countOf (s.toList.map .char) x = 0 := by
      intro hx
      rw [countOf, List.countP_map, List.countP_eq_zero]
      intro c _ heq
      exact hx c ((eq_char_iff x c).mp heq)
    cases x with
    | char d =>
      rw [countOf, List.countP_map]
      refine congrArg (fun n => (Except.ok (lengthValue n) : WqResult Value))
        (List.countP_congr fun c _ => ?_)
      rw [decide_eq_true_iff, Function.comp_apply, eq_char_iff, Value.char.injEq, eq_comm]
    | _ =>
      rw [hnone (fun _ => nofun)]
      rfl
  · push Not at hstring
    unfold multiplicity
    dsimp only
    rw [listStorageSeq_of_holds ha hstring]
    refine congrArg (fun n => (Except.ok (lengthValue n) : WqResult Value))
      (List.countP_congr fun y _ => ?_)
    rw [eq_comm_bool]

/-! ### The laws hold for every operation -/

theorem ok_bool_congr {b b' : Bool} (h : b = b') :
    (Except.ok (.bool b) : WqResult Value) = .ok (.bool b') := by rw [h]

theorem binary_meets_iff {a b : Value} {xs ys : List Value} (ha : HoldsItems a xs)
    (hb : HoldsItems b ys) (op : SetOp) :
    op.Meets xs ys (op.eval hasher [a, b]) ↔ (op = .member → ¬MissesMember a xs b) := by
  cases op with
  | member => exact (member_meets_iff ha hb).trans ⟨fun h _ => h, fun h => h rfl⟩
  | union => exact iff_of_true (union_meets ha hb) nofun
  | intersect => exact iff_of_true (intersect_meets ha hb) nofun
  | without => exact iff_of_true (without_meets ha hb) nofun
  | symdiff => exact iff_of_true (symdiff_meets ha hb) nofun
  | disjoint => exact iff_of_true (disjoint_meets ha hb) nofun
  | subset =>
    refine iff_of_true ?_ nofun
    have hout := binarySet_eq (fun a b => .bool (isSubset hasher a b)) ha hb
    exact hout.trans (ok_bool_congr (isSubset_eq ha hb))
  | superset =>
    refine iff_of_true ?_ nofun
    have hout := binarySet_eq (fun a b => .bool (isSubset hasher b a)) ha hb
    exact hout.trans (ok_bool_congr (isSubset_eq hb ha))
  | properSubset =>
    refine iff_of_true ?_ nofun
    have hout := binarySet_eq (fun a b => .bool (isProperSubset hasher a b)) ha hb
    exact hout.trans (ok_bool_congr (isProperSubset_eq ha hb))
  | properSuperset =>
    refine iff_of_true ?_ nofun
    have hout := binarySet_eq (fun a b => .bool (isProperSubset hasher b a)) ha hb
    exact hout.trans (ok_bool_congr (isProperSubset_eq hb ha))

theorem setLaws_iff_binary {a b : Value} {xs ys : List Value} (ha : HoldsItems a xs)
    (hb : HoldsItems b ys) : SetLaws hasher a b xs ys ↔ ¬MissesMember a xs b := by
  constructor
  · intro h
    exact (member_meets_iff ha hb).mp (h.binary .member)
  · intro h
    exact ⟨unique_returns ha, fun op => (binary_meets_iff ha hb op).mpr fun _ => h,
      counts_returns ha, multiplicity_eq ha⟩

end Paths

/-! ### Other representations -/

/-- Items of equal lists are equal one by one. -/
theorem map_canon_of_eq {a a' : Value} {xs xs' : List Value} (ha : HoldsItems a xs)
    (ha' : HoldsItems a' xs') (h : a.eq a' = true) : xs.map canon = xs'.map canon := by
  rw [eq_iff, canon_of_holds ha, canon_of_holds ha', Value.list.injEq, canonItems_eq,
    canonItems_eq] at h
  exact h

theorem equalOutcomes_of_returns {out out' : WqResult Value} {xs xs' : List Value}
    (h : ReturnsItems out xs) (h' : ReturnsItems out' xs') (heq : xs.map canon = xs'.map canon) :
    EqualOutcomes out out' := by
  obtain ⟨v, hv, hx⟩ := h
  obtain ⟨v', hv', hx'⟩ := h'
  refine ⟨v, v', hv, hv', ?_⟩
  rw [eq_iff, canon_of_holds hx, canon_of_holds hx', canonItems_eq, canonItems_eq, heq]

theorem equalOutcomes_of_eq {out out' : WqResult Value} {v : Value} (h : out = .ok v)
    (h' : out' = .ok v) : EqualOutcomes out out' :=
  ⟨v, v, h, h', (eq_iff v v).mpr rfl⟩

section Representatives

variable {xs xs' ys ys' : List Value}

theorem firsts_congr (h : xs.map canon = xs'.map canon) :
    (firsts Value.eq xs).map canon = (firsts Value.eq xs').map canon := by
  rw [map_firsts eq_iff, map_firsts eq_iff, h]

theorem isMember_congr (h : ys.map canon = ys'.map canon) {x x' : Value}
    (hx : x.canon = x'.canon) : isMember ys x = isMember ys' x' := by
  rw [isMember, isMember, any_eq_mem_map eq_iff, any_eq_mem_map eq_iff, h, hx]

/-- A test that respects equality picks equal items of equal lists. -/
theorem map_canon_filter {p p' : Value → Bool} (hp : ∀ x x', x.canon = x'.canon → p x = p' x') :
    ∀ {xs xs' : List Value}, xs.map canon = xs'.map canon →
      (xs.filter p).map canon = (xs'.filter p').map canon
  | [], [], _ => rfl
  | [], _ :: _, h => by cases h
  | _ :: _, [], h => by cases h
  | x :: xs, x' :: xs', h => by
    obtain ⟨hx, hxs⟩ := List.cons.inj h
    have ih := map_canon_filter hp hxs
    rw [List.filter_cons, List.filter_cons, hp x x' hx]
    split
    · rw [List.map_cons, List.map_cons, hx, ih]
    · exact ih

/-- A test that respects equality has one outcome for each item of equal lists. -/
theorem map_congr_canon {γ : Type} {p p' : Value → γ}
    (hp : ∀ x x', x.canon = x'.canon → p x = p' x') :
    ∀ {xs xs' : List Value}, xs.map canon = xs'.map canon → xs.map p = xs'.map p'
  | [], [], _ => rfl
  | [], _ :: _, h => by cases h
  | _ :: _, [], h => by cases h
  | x :: xs, x' :: xs', h => by
    obtain ⟨hx, hxs⟩ := List.cons.inj h
    rw [List.map_cons, List.map_cons, hp x x' hx, map_congr_canon hp hxs]

theorem all_congr_canon {p p' : Value → Bool} (hp : ∀ x x', x.canon = x'.canon → p x = p' x')
    (h : xs.map canon = xs'.map canon) : xs.all p = xs'.all p' := by
  have hall : ∀ (zs : List Value) (q : Value → Bool), zs.all q = (zs.map q).all id := by
    intro zs q
    rw [List.all_map]
    rfl
  rw [hall, hall, map_congr_canon hp h]

theorem any_congr_canon {p p' : Value → Bool} (hp : ∀ x x', x.canon = x'.canon → p x = p' x')
    (h : xs.map canon = xs'.map canon) : xs.any p = xs'.any p' := by
  have hany : ∀ (zs : List Value) (q : Value → Bool), zs.any q = (zs.map q).any id := by
    intro zs q
    rw [List.any_map]
    rfl
  rw [hany, hany, map_congr_canon hp h]

theorem countOf_congr (h : xs.map canon = xs'.map canon) {x x' : Value}
    (hx : x.canon = x'.canon) : countOf xs x = countOf xs' x' := by
  have hcount : ∀ ys : List Value, ∀ y, countOf ys y = (ys.map (Value.eq y)).count true := by
    intro ys y
    rw [countOf, List.count, List.countP_map]
    exact List.countP_congr fun z _ => by simp
  rw [hcount, hcount, map_congr_canon (fun y y' hy => ?_) h]
  rw [Bool.eq_iff_iff, eq_iff, eq_iff, hx, hy]

theorem counts_congr (h : xs.map canon = xs'.map canon) :
    ((firsts Value.eq xs).map fun x =>
        Value.list [x, .int (Int64.ofNat (countOf xs x))]).map canon =
      ((firsts Value.eq xs').map fun x =>
        Value.list [x, .int (Int64.ofNat (countOf xs' x))]).map canon := by
  rw [List.map_map, List.map_map]
  refine map_congr_canon (fun x x' hx => ?_) (firsts_congr h)
  show Value.list [x.canon, .int _] = .list [x'.canon, .int _]
  rw [hx, countOf_congr h hx]

end Representatives

variable {hasher : List HashWrite → UInt64}

/-- An operation that keeps its law does the same to equal lists. -/
theorem binary_congr {xs xs' ys ys' : List Value} (hx : xs.map canon = xs'.map canon)
    (hy : ys.map canon = ys'.map canon) {out out' : WqResult Value} (op : SetOp)
    (h : op.Meets xs ys out) (h' : op.Meets xs' ys' out') : EqualOutcomes out out' := by
  have hys : ∀ x x', x.canon = x'.canon → isMember ys x = isMember ys' x' :=
    fun _ _ => isMember_congr hy
  have hxs : ∀ x x', x.canon = x'.canon → isMember xs x = isMember xs' x' :=
    fun _ _ => isMember_congr hx
  have hys' : ∀ x x', x.canon = x'.canon → (!isMember ys x) = !isMember ys' x' :=
    fun x x' h => congrArg not (hys x x' h)
  have hxs' : ∀ x x', x.canon = x'.canon → (!isMember xs x) = !isMember xs' x' :=
    fun x x' h => congrArg not (hxs x x' h)
  cases op with
  | union =>
    refine equalOutcomes_of_returns h h' (firsts_congr ?_)
    rw [List.map_append, List.map_append, hx, hy]
  | intersect => exact equalOutcomes_of_returns h h' (firsts_congr (map_canon_filter hys hx))
  | without => exact equalOutcomes_of_returns h h' (map_canon_filter hys' hx)
  | symdiff =>
    refine equalOutcomes_of_returns h h' (firsts_congr ?_)
    rw [List.map_append, List.map_append, map_canon_filter hys' hx, map_canon_filter hxs' hy]
  | subset =>
    refine equalOutcomes_of_eq h (h'.trans (ok_bool_congr ?_))
    exact (all_congr_canon hys hx).symm
  | superset =>
    refine equalOutcomes_of_eq h (h'.trans (ok_bool_congr ?_))
    exact (all_congr_canon hxs hy).symm
  | properSubset =>
    refine equalOutcomes_of_eq h (h'.trans (ok_bool_congr ?_))
    rw [all_congr_canon hys hx, any_congr_canon hxs' hy]
  | properSuperset =>
    refine equalOutcomes_of_eq h (h'.trans (ok_bool_congr ?_))
    rw [all_congr_canon hxs hy, any_congr_canon hys' hx]
  | disjoint =>
    refine equalOutcomes_of_eq h (h'.trans (ok_bool_congr ?_))
    rw [any_congr_canon hys hx]
  | member =>
    refine equalOutcomes_of_returns h h' ?_
    rw [map_congr_canon (fun x x' hc => congrArg Value.bool (hys x x' hc)) hx]

/-- **Set operations obey the set laws in every representation**, except for the
test for membership of a big integer in a list of machine integers that has it. -/
theorem setLaws_iff (hasher : List HashWrite → UInt64) {a b a' b' : Value}
    {xs ys xs' ys' : List Value} (ha : HoldsItems a xs) (hb : HoldsItems b ys)
    (ha' : HoldsItems a' xs') (hb' : HoldsItems b' ys') (haa : a.eq a' = true)
    (hbb : b.eq b' = true) :
    (SetLaws hasher a b xs ys ∧ SetLaws hasher a' b' xs' ys' ∧ SameSets hasher a b a' b') ↔
      ¬MissesMember a xs b ∧ ¬MissesMember a' xs' b' := by
  rw [← @setLaws_iff_binary hasher _ _ _ _ ha hb, ← @setLaws_iff_binary hasher _ _ _ _ ha' hb']
  refine ⟨fun ⟨h, h', _⟩ => ⟨h, h'⟩, fun ⟨h, h'⟩ => ⟨h, h', ?_⟩⟩
  have hx := map_canon_of_eq ha ha' haa
  have hy := map_canon_of_eq hb hb' hbb
  refine ⟨?_, fun op => binary_congr hx hy op (h.binary op) (h'.binary op), ?_, ?_⟩
  · exact equalOutcomes_of_returns h.unique h'.unique (firsts_congr hx)
  · exact equalOutcomes_of_returns h.counts h'.counts (counts_congr hx)
  · intro x x' hxx
    refine equalOutcomes_of_eq (h.multiplicity x) ?_
    rw [h'.multiplicity x', countOf_congr hx ((eq_iff x x').mp hxx)]

/-- The integers `1` and `2`, in a packed list and in a general one with a big integer
that is not looked up. -/
theorem setLaws_oneAndTwo :
    SetLaws (fun _ => 0) (.intList [1, 2]) (.intList [2]) [.int 1, .int 2] [.int 2] ∧
      SetLaws (fun _ => 0) (.list [.bigInt 1, .int 2]) (.intList [2]) [.bigInt 1, .int 2] [.int 2] ∧
      SameSets (fun _ => 0) (.intList [1, 2]) (.intList [2]) (.list [.bigInt 1, .int 2])
        (.intList [2]) := by
  have ha : HoldsItems (.intList [1, 2]) [.int 1, .int 2] := rfl
  have ha' : HoldsItems (.list [.bigInt 1, .int 2]) [.bigInt 1, .int 2] := rfl
  have hb : HoldsItems (.intList [2]) [.int 2] := rfl
  refine (setLaws_iff (fun _ => 0) ha hb ha' hb (by decide) (by decide)).mpr ⟨?_, ?_⟩
  · exact fun h => h.1 _ rfl
  · rintro ⟨-, rhs, hrhs, n, hn, hmem⟩
    obtain rfl := Value.intList.inj hrhs
    obtain rfl := List.mem_singleton.mp hn
    simp at hmem

/-- The least machine integer, held as a big one, is not found in a list of it. -/
theorem not_setLaws_minimum :
    ¬SetLaws (fun _ => 0) (.list [.bigInt (-2 ^ 63)]) (.intList [Int64.minValue])
        [.bigInt (-2 ^ 63)] [.int Int64.minValue] ∧
      (Value.list [.bigInt (-2 ^ 63)]).eq (.intList [Int64.minValue]) = true ∧
      ¬SameSets (fun _ => 0) (.list [.bigInt (-2 ^ 63)]) (.intList [Int64.minValue])
        (.intList [Int64.minValue]) (.intList [Int64.minValue]) := by
  have ha : HoldsItems (.list [.bigInt (-2 ^ 63)]) [.bigInt (-2 ^ 63)] := rfl
  have hb : HoldsItems (.intList [Int64.minValue]) [.int Int64.minValue] := rfl
  refine ⟨fun h => ?_, by decide, fun h => ?_⟩
  · refine (setLaws_iff_binary ha hb).mp h ⟨fun _ => nofun, _, rfl, Int64.minValue, ?_, ?_⟩
    · exact List.mem_singleton_self _
    · exact List.mem_singleton_self _
  · obtain ⟨v, v', hv, hv', heq⟩ := h.binary .member
    have hfalse : SetOp.member.eval (fun _ => 0)
        [.list [.bigInt (-2 ^ 63)], .intList [Int64.minValue]] = .ok (.boolList [false]) := rfl
    have htrue : SetOp.member.eval (fun _ => 0)
        [.intList [Int64.minValue], .intList [Int64.minValue]] = .ok (.list [.bool true]) := rfl
    obtain rfl := Except.ok.inj (hfalse.symm.trans hv)
    obtain rfl := Except.ok.inj (htrue.symm.trans hv')
    revert heq
    decide

end Wqpl
