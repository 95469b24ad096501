/-
# Concatenation

Two sequences of characters are concatenated to a string, packed lists of one
kind to a packed list, and a packed list and a general one to a general list. Of
two packed lists of different kinds the one is an item of the result instead
(`Nests`). The concatenation of many values has its own paths, which splice every
list; it is the fold of the binary one except where that has nested a packed list
or has made a string of the leading lists of characters (`catMany_eq_iff`).

Key definitions: `cat`, `catMany`, `stringRun`, `mixedRun`.
-/
import Wqpl.Access.Assign
import Wqpl.Compare
import Wqpl.Hash

namespace Wqpl

open Value

/-! ### Two values -/

/-- The items of `native_int_seq`: a machine integer counts as one item. -/
def nativeIntSeq : Value → Option (List Int64)
  | .int n => some [n]
  | v => packedIntSeq v

/-- The characters of `try_to_rust_string`, for a string. -/
def charsOf (v : Value) : List Char := v.tryToRustString.getD []

/-- The last part of `cat`: no side is a packed list of integers. -/
def catGeneral : Value → Value → Value
  | .float a, .float b => .floatList [a, b]
  | .floatList a, .floatList b => .floatList (a ++ b)
  | .floatList a, .float b => .floatList (a ++ [b])
  | .float a, .floatList b => .floatList (a :: b)
  | .floatList a, .list b => .list (a.map .float ++ b)
  | .list a, .floatList b => .list (a ++ b.map .float)
  | .floatList a, b => .list (a.map .float ++ [b])
  | a, .floatList b => .list (a :: b.map .float)
  | .bool a, .bool b => .boolList [a, b]
  | .boolList a, .boolList b => .boolList (a ++ b)
  | .boolList a, .bool b => .boolList (a ++ [b])
  | .bool a, .boolList b => .boolList (a :: b)
  | .boolList a, .list b => .list (a.map .bool ++ b)
  | .list a, .boolList b => .list (a ++ b.map .bool)
  | .boolList a, b => .list (a.map .bool ++ [b])
  | a, .boolList b => .list (a :: b.map .bool)
  | .list a, .list b => .list (a ++ b)
  | .list a, b => .list (a ++ [b])
  | a, .list b => .list (a :: b)
  | a, b => .list [a, b]

/-- The middle part of `cat`, with the packed integers on one side. -/
def catInts (a b : Value) : Value :=
  match packedIntSeq a, packedIntSeq b, a, b with
  | some xs, _, _, .list ys => .list (xs.map .int ++ ys)
  | _, some ys, .list xs, _ => .list (xs ++ ys.map .int)
  | some xs, _, _, b => .list (xs.map .int ++ [b])
  | none, some ys, a, _ => .list (a :: ys.map .int)
  | none, none, a, b => catGeneral a b

/-- `cat`. -/
def cat (a b : Value) : Value :=
  if a.isString && b.isString then
    if a.isUnit && b.isUnit then .emptyList
    else intoWqString (charsOf a ++ charsOf b)
  else
    match nativeIntSeq a, nativeIntSeq b with
    | some xs, some ys => .intList (xs ++ ys)
    | _, _ => catInts a b

/-! ### Many values -/

def floats? : Value → Option (List F64)
  | .float f => some [f]
  | .floatList items => some items
  | _ => none

def bools? : Value → Option (List Bool)
  | .bool b => some [b]
  | .boolList items => some items
  | _ => none

/-- The fold of `cat`, from the first value. -/
def catFold : List Value → Value
  | [] => .emptyList
  | v :: vs => vs.foldl cat v

/-- `cat_many`. -/
def catMany (values : List Value) : Value :=
  match values with
  | [] => .emptyList
  | [v] => v
  | values =>
    if values.all isUnit then .emptyList
    else if values.all isString then
      intoWqString (values.filterMap Value.tryToRustString).flatten
    else
      match values.mapM nativeIntSeq, values.mapM floats?, values.mapM bools?,
        values.mapM listStorageSeq with
      | some parts, _, _, _ => .intList parts.flatten
      | none, some parts, _, _ => .floatList parts.flatten
      | none, none, some parts, _ => .boolList parts.flatten
      | none, none, none, some parts => .list parts.flatten
      | none, none, none, none => catFold values

/-! ### Kinds of lists -/

inductive PackedKind
  | int | float | bool
deriving DecidableEq, Repr

def packedKind : Value → Option PackedKind
  | .intList _ | .intRange _ => some .int
  | .floatList _ => some .float
  | .boolList _ => some .bool
  | _ => none

/-- The items of a list that is not a string. -/
def storageItems (v : Value) : List Value := (listStorageSeq v).getD []

def IsStorage (v : Value) : Prop := (listStorageSeq v).isSome = true

instance (v : Value) : Decidable (IsStorage v) := inferInstanceAs (Decidable (_ = true))

/-- Two packed lists of different kinds, not both empty: the one becomes an item. -/
def Nests (a b : Value) : Prop :=
  (∃ k l, packedKind a = some k ∧ packedKind b = some l ∧ k ≠ l) ∧
    ¬(a.isUnit = true ∧ b.isUnit = true)

/-- The first list that is not of the kind `k` is packed as well. -/
def clashes (k : PackedKind) : List Value → Bool
  | [] => false
  | v :: vs => if packedKind v = some k then clashes k vs else (packedKind v).isSome

/-- Packed lists of one kind are followed by a packed list of another, before any
general list, and do not begin with two empty lists. -/
def mixedRun : List Value → Bool
  | v :: w :: vs =>
    !(v.isUnit && w.isUnit) &&
      match packedKind v with
      | some k => clashes k (w :: vs)
      | none => false
  | _ => false

/-- At least two lists of characters, not all empty, are followed by a list with
other items. -/
def stringRun (values : List Value) : Bool :=
  let run := values.takeWhile isString
  2 ≤ run.length && run.any (! ·.isUnit) && run.length < values.length

section Kinds

variable {v a b : Value} {xs ys : List Value}

theorem storageItems_of (h : listStorageSeq v = some xs) : storageItems v = xs := by
  rw [storageItems, h]
  rfl

theorem exists_seq (h : listStorageSeq v = some xs) :
    ∃ seq, ValueSeq.fromValue v = some seq ∧ seq.values = xs := by
  cases v with
  | list items | intList items | intRange range | floatList items | boolList items =>
    exact ⟨_, rfl, Option.some.inj h⟩
  | _ => cases h

theorem canon_storage (h : listStorageSeq v = some xs) : canon v = .list (canonItems xs) := by
  obtain ⟨seq, hseq, rfl⟩ := exists_seq h
  exact canon_of_fromValue hseq

theorem isUnit_iff (h : listStorageSeq v = some xs) : v.isUnit = true ↔ xs = [] := by
  cases v with
  | list items | intList items | intRange range | floatList items | boolList items =>
    obtain rfl := Option.some.inj h
    simp [isUnit, isList, Value.len, ValueSeq.fromValue, ValueSeq.len,
      ← List.length_eq_zero_iff]
  | _ => cases h

theorem isString_of_isUnit (h : v.isUnit = true) : v.isString = true := by
  cases v <;> first | rfl | cases h | simp [isString, h]

/-- A packed list is a string only when it is empty. -/
theorem isString_packed {k : PackedKind} (h : packedKind v = some k) :
    v.isString = v.isUnit := by
  cases v <;> first | rfl | cases h

theorem chars?_map_char (cs : List Char) : chars? (cs.map .char) = some cs := by
  induction cs with
  | nil => rfl
  | cons c cs ih =>
    unfold chars? at ih ⊢
    rw [List.map_cons, List.mapM_cons, ih]
    rfl

theorem charsOf_list (cs : List Char) : charsOf (.list (cs.map .char)) = cs := by
  rw [charsOf, Value.tryToRustString, chars?_map_char]
  rfl

theorem charsOf_string (cs : List Char) : charsOf (intoWqString cs) = cs := by
  show (some (String.ofList cs).toList).getD [] = cs
  rw [String.toList_ofList]
  rfl

theorem charsOf_of_isUnit (h : v.isUnit = true) : charsOf v = [] := by
  cases v with
  | list items =>
    rw [(isUnit_iff rfl).mp h]
    rfl
  | string s =>
    simp only [isUnit, isList, Value.len, ValueSeq.fromValue, ValueSeq.len, Bool.true_and,
      beq_iff_eq] at h
    exact List.length_eq_zero_iff.mp h
  | intList items | intRange range | floatList items | boolList items =>
    simp only [charsOf, Value.tryToRustString, h, if_true]
    rfl
  | _ => cases h

/-- A string without characters is empty, the characters of others are their items. -/
theorem items_of_isString (h : listStorageSeq v = some xs) (hs : v.isString = true) :
    xs = (charsOf v).map .char := by
  cases v with
  | list items =>
    obtain rfl := Option.some.inj h
    have hchars : ∀ x ∈ items, x.isChar = true := by
      simp only [isString, Bool.or_eq_true, List.all_eq_true] at hs
      rcases hs with hs | hs
      · rw [(isUnit_iff rfl).mp hs]
        exact fun x hx => absurd hx List.not_mem_nil
      · exact hs
    obtain ⟨cs, rfl⟩ := exists_chars hchars
    rw [charsOf_list]
  | intList items | intRange range | floatList items | boolList items =>
    have hunit : isUnit _ = true := hs
    rw [(isUnit_iff h).mp hunit, charsOf_of_isUnit hunit]
    rfl
  | _ => cases h

/-- A list that is no string has an item that is no character. -/
theorem exists_not_isChar (h : listStorageSeq v = some xs) (hs : v.isString = false) :
    ∃ x ∈ xs, x.isChar = false := by
  cases v with
  | list items =>
    obtain rfl := Option.some.inj h
    simp only [isString, Bool.or_eq_false_iff, List.all_eq_false, Bool.not_eq_true] at hs
    exact hs.2
  | intList items | intRange range | floatList items | boolList items =>
    have hne : xs ≠ [] := fun hnil => by
      have hunit : isUnit _ = false := hs
      rw [(isUnit_iff h).mpr hnil] at hunit
      cases hunit
    obtain ⟨x, hx⟩ := List.exists_mem_of_ne_nil xs hne
    obtain rfl := Option.some.inj h
    obtain ⟨y, -, rfl⟩ := List.mem_map.mp hx
    exact ⟨_, hx, rfl⟩
  | _ => cases h

/-! ### The concatenation of two lists -/

/-- Not both values are strings. -/
theorem cat_of_not_strings (hs : (a.isString && b.isString) = false) :
    cat a b = match nativeIntSeq a, nativeIntSeq b with
      | some xs, some ys => .intList (xs ++ ys)
      | _, _ => catInts a b := by
  rw [cat, if_neg (by rw [hs]; exact Bool.false_ne_true)]

/-- A general list and another list are spliced. -/
theorem cat_list_left (hb : listStorageSeq b = some ys)
    (hs : (isString (.list xs) && b.isString) = false) : cat (.list xs) b = .list (xs ++ ys) := by
  rw [cat_of_not_strings hs]
  cases b with
  | list items | intList items | intRange range | floatList items | boolList items =>
    obtain rfl := Option.some.inj hb
    rfl
  | _ => cases hb

theorem cat_list_right (ha : listStorageSeq a = some xs)
    (hs : (a.isString && isString (.list ys)) = false) : cat a (.list ys) = .list (xs ++ ys) := by
  rw [cat_of_not_strings hs]
  cases a with
  | list items | intList items | intRange range | floatList items | boolList items =>
    obtain rfl := Option.some.inj ha
    rfl
  | _ => cases ha

/-- Packed lists of one kind make a packed list of that kind. -/
theorem cat_same_kind {k : PackedKind} (ha : packedKind a = some k) (hb : packedKind b = some k)
    (hs : (a.isString && b.isString) = false) :
    packedKind (cat a b) = some k ∧
      listStorageSeq (cat a b) = some (storageItems a ++ storageItems b) := by
  rw [cat_of_not_strings hs]
  cases a with
  | intList items | intRange range | floatList items | boolList items =>
    obtain rfl := Option.some.inj ha
    cases b with
    | intList items' | intRange range' | floatList items' | boolList items' =>
      first
      | exact ⟨rfl, congrArg some List.map_append⟩
      | cases hb
    | _ => cases hb
  | _ => cases ha

/-- Packed lists of different kinds: the one is an item of the result. -/
theorem cat_nests {k l : PackedKind} (ha : packedKind a = some k) (hb : packedKind b = some l)
    (hkl : k ≠ l) (hs : (a.isString && b.isString) = false) :
    cat a b = .list (storageItems a ++ [b]) ∨ cat a b = .list (a :: storageItems b) := by
  rw [cat_of_not_strings hs]
  cases a with
  | intList items | intRange range | floatList items | boolList items =>
    obtain rfl := Option.some.inj ha
    cases b with
    | intList items' | intRange range' | floatList items' | boolList items' =>
      obtain rfl := Option.some.inj hb
      first
      | exact absurd rfl hkl
      | exact .inl rfl
      | exact .inr rfl
    | _ => cases hb
  | _ => cases ha

end Kinds

/-! ### The fold over lists -/

section Fold

variable {values vs : List Value} {v w acc : Value} {xs ys : List Value}

theorem IsStorage.items (h : IsStorage v) : listStorageSeq v = some (storageItems v) := by
  obtain ⟨xs, hxs⟩ := Option.isSome_iff_exists.mp h
  rw [storageItems_of hxs, hxs]

/-- The items of several lists. -/
def spliced (values : List Value) : List Value := values.flatMap storageItems

/-- Items of which one is no character: their list is no string. -/
def Loose (xs : List Value) : Prop := ∃ x ∈ xs, x.isChar = false

theorem Loose.isString (h : Loose xs) : isString (.list xs) = false := by
  obtain ⟨x, hx, hchar⟩ := h
  have hne : xs ≠ [] := List.ne_nil_of_mem hx
  have hunit : isUnit (.list xs) = false :=
    Bool.eq_false_iff.mpr fun h => hne ((isUnit_iff rfl).mp h)
  simp only [Value.isString, hunit, Bool.false_or, List.all_eq_false, Bool.not_eq_true]
  exact ⟨x, hx, hchar⟩

theorem Loose.append (h : Loose xs) : Loose (xs ++ ys) := by
  obtain ⟨x, hx, hchar⟩ := h
  exact ⟨x, List.mem_append_left ys hx, hchar⟩

theorem Loose.prepend (h : Loose ys) : Loose (xs ++ ys) := by
  obtain ⟨y, hy, hchar⟩ := h
  exact ⟨y, List.mem_append_right xs hy, hchar⟩

/-- A general list that is no string takes all further lists. -/
theorem foldl_cat_loose (h : Loose xs) (hvs : ∀ v ∈ vs, IsStorage v) :
    vs.foldl cat (.list xs) = .list (xs ++ spliced vs) := by
  induction vs generalizing xs with
  | nil => exact congrArg Value.list (List.append_nil xs).symm
  | cons v vs ih =>
    have hcat : cat (.list xs) v = .list (xs ++ storageItems v) :=
      cat_list_left (hvs v List.mem_cons_self).items (by rw [h.isString]; rfl)
    rw [List.foldl_cons, hcat, ih h.append fun w hw => hvs w (List.mem_cons_of_mem v hw),
      List.append_assoc]
    rfl

theorem canonItems_append (xs ys : List Value) :
    canonItems (xs ++ ys) = canonItems xs ++ canonItems ys := by
  simp only [canonItems_eq, List.map_append]

/-- What follows is spliced either way, so the items before it decide. -/
theorem foldl_cat_loose_iff (h : Loose xs) (hvs : ∀ v ∈ vs, IsStorage v) (ys : List Value) :
    canon (vs.foldl cat (.list xs)) = .list (canonItems (ys ++ spliced vs)) ↔
      canonItems xs = canonItems ys := by
  rw [foldl_cat_loose h hvs, canon, Value.list.injEq, canonItems_append, canonItems_append,
    List.append_left_inj]

/-- A list is not equal to a character. -/
theorem canonItems_cons_ne (hv : ∃ items, canon v = .list items)
    (hx : ∀ items, canon w ≠ .list items) (xs ys : List Value) : canonItems (v :: xs) ≠ canonItems (w :: ys) := by
  obtain ⟨items, hv⟩ := hv
  intro h
  rw [canonItems, canonItems, List.cons.injEq] at h
  exact hx items (h.1.symm.trans hv)

theorem canon_char (c : Char) (items : List Value) : canon (.char c) ≠ .list items :=
  canon_ne_list rfl items

theorem isUnit_intoWqString {cs : List Char} : (intoWqString cs).isUnit = true ↔ cs = [] := by
  show (true && (String.ofList cs).toList.length == 0) = true ↔ _
  rw [String.toList_ofList, Bool.true_and, beq_iff_eq, List.length_eq_zero_iff]

theorem canon_intoWqString (cs : List Char) :
    canon (intoWqString cs) = .list (canonItems (cs.map .char)) := by
  have hvalues : (ValueSeq.string (String.ofList cs)).values = cs.map .char := by
    rw [ValueSeq.values, String.toList_ofList]
  rw [← hvalues]
  exact canon_of_fromValue rfl

/-- A string takes further strings. -/
theorem cat_string {cs : List Char} (hcs : cs ≠ []) (hv : v.isString = true) :
    cat (intoWqString cs) v = intoWqString (cs ++ charsOf v) := by
  have hunit : (intoWqString cs).isUnit = false :=
    Bool.eq_false_iff.mpr fun h => hcs (isUnit_intoWqString.mp h)
  have hstring : (intoWqString cs).isString = true := rfl
  rw [cat, hstring, hv, hunit]
  simp only [Bool.and_self, if_true, Bool.false_and, Bool.false_eq_true, if_false, charsOf_string]

/-- A string is an item before another list. -/
theorem cat_string_list {cs : List Char} (hv : listStorageSeq v = some ys)
    (hs : v.isString = false) : cat (intoWqString cs) v = .list (intoWqString cs :: ys) := by
  rw [cat_of_not_strings (by rw [hs, Bool.and_false])]
  cases v with
  | list items | intList items | intRange range | floatList items | boolList items =>
    obtain rfl := Option.some.inj hv
    rfl
  | _ => cases hv

/-- The fold, where it has made a string. -/
theorem foldl_cat_string {cs : List Char} (hcs : cs ≠ []) (hvs : ∀ v ∈ vs, IsStorage v) :
    canon (vs.foldl cat (intoWqString cs)) = .list (canonItems (cs.map .char ++ spliced vs)) ↔
      ∀ v ∈ vs, v.isString = true := by
  induction vs generalizing cs with
  | nil =>
    refine iff_of_true ?_ (fun v hv => absurd hv List.not_mem_nil)
    rw [spliced, List.flatMap_nil, List.append_nil]
    exact canon_intoWqString cs
  | cons v vs ih =>
    have hv := (hvs v List.mem_cons_self).items
    have hrest : ∀ w ∈ vs, IsStorage w := fun w hw => hvs w (List.mem_cons_of_mem v hw)
    rw [List.foldl_cons]
    cases hs : v.isString with
    | true =>
      have hitems : cs.map Value.char ++ spliced (v :: vs) =
          (cs ++ charsOf v).map .char ++ spliced vs := by
        rw [spliced, List.flatMap_cons, items_of_isString hv hs, ← List.append_assoc,
          ← List.map_append]
        rfl
      rw [cat_string hcs hs, hitems, ih (by simp [hcs]) hrest]
      simp [hs]
    | false =>
      have hloose : Loose (intoWqString cs :: storageItems v) :=
        ⟨_, List.mem_cons_self, rfl⟩
      have hitems : cs.map Value.char ++ spliced (v :: vs) =
          (cs.map .char ++ storageItems v) ++ spliced vs := by
        rw [spliced, List.flatMap_cons, ← List.append_assoc]
        rfl
      rw [cat_string_list hv hs, hitems, foldl_cat_loose_iff hloose hrest]
      refine iff_of_false ?_ fun h => ?_
      · obtain ⟨c, cs, rfl⟩ := List.exists_cons_of_ne_nil hcs
        exact canonItems_cons_ne ⟨_, canon_intoWqString _⟩ (canon_char c) _ _
      · rw [h v List.mem_cons_self] at hs
        cases hs

theorem spliced_cons (v : Value) (vs : List Value) :
    spliced (v :: vs) = storageItems v ++ spliced vs := rfl

theorem canonItems_nil_append (xs : List Value) : canonItems ([] ++ xs) = canonItems xs := rfl

theorem length_takeWhile_lt {p : Value → Bool} :
    (vs.takeWhile p).length < vs.length ↔ ¬∀ v ∈ vs, p v = true := by
  induction vs with
  | nil => simp
  | cons v vs ih =>
    rw [List.takeWhile_cons]
    cases hv : p v with
    | true =>
      simp only [if_true, List.length_cons, Nat.add_lt_add_iff_right, ih, List.forall_mem_cons, hv,
        true_and]
    | false => simp [hv]

/-- Lists of characters, not all empty, before a list with other items. -/
def charsRun (values : List Value) : Bool :=
  let run := values.takeWhile isString
  run.any (! ·.isUnit) && run.length < values.length

/-- Two strings that are lists. -/
theorem cat_strings (hv : IsStorage v) (hw : IsStorage w) (hsv : v.isString = true)
    (hsw : w.isString = true) :
    cat v w = .emptyList ∧ storageItems v = [] ∧ storageItems w = [] ∧ v.isUnit = true ∧
        w.isUnit = true ∨
      (v.isUnit && w.isUnit) = false ∧ ∃ cs, cs ≠ [] ∧ cat v w = intoWqString cs ∧
        storageItems v ++ storageItems w = cs.map .char := by
  have hitemsV := items_of_isString hv.items hsv
  have hitemsW := items_of_isString hw.items hsw
  rw [cat, hsv, hsw]
  simp only [Bool.and_self, if_true]
  cases hunits : v.isUnit && w.isUnit with
  | true =>
    rw [Bool.and_eq_true] at hunits
    exact .inl ⟨rfl, (isUnit_iff hv.items).mp hunits.1, (isUnit_iff hw.items).mp hunits.2, hunits⟩
  | false =>
    refine .inr ⟨rfl, charsOf v ++ charsOf w, ?_, rfl, ?_⟩
    · intro hnil
      rw [List.append_eq_nil_iff] at hnil
      rw [hnil.1] at hitemsV
      rw [hnil.2] at hitemsW
      rw [(isUnit_iff hv.items).mpr hitemsV, (isUnit_iff hw.items).mpr hitemsW] at hunits
      cases hunits
    · rw [List.map_append, ← hitemsV, ← hitemsW]

/-- The fold from an empty general list. -/
theorem foldl_cat_nil (hvs : ∀ v ∈ vs, IsStorage v) :
    canon (vs.foldl cat (.list [])) = .list (canonItems (spliced vs)) ↔ charsRun vs = false := by
  induction vs with
  | nil => exact iff_of_true rfl rfl
  | cons v vs ih =>
    have hv := hvs v List.mem_cons_self
    have hrest : ∀ w ∈ vs, IsStorage w := fun w hw => hvs w (List.mem_cons_of_mem v hw)
    rw [List.foldl_cons, spliced_cons]
    cases hs : v.isString with
    | true =>
      obtain ⟨hcat, -, hnil, -, hunit⟩ | ⟨hunit, cs, hcs, hcat, hitems⟩ :=
        cat_strings (v := .list []) rfl hv rfl hs
      · have hrun : charsRun (v :: vs) = charsRun vs := by
          unfold charsRun
          simp only [List.takeWhile_cons, hs, if_true, List.any_cons, hunit, Bool.not_true,
            Bool.false_or, List.length_cons, Nat.add_lt_add_iff_right]
        rw [hcat, hnil, hrun]
        exact ih hrest
      · have hunit : v.isUnit = false := hunit
        have hrun : charsRun (v :: vs) = decide ((vs.takeWhile isString).length < vs.length) := by
          unfold charsRun
          simp only [List.takeWhile_cons, hs, if_true, List.any_cons, hunit, Bool.not_false,
            Bool.true_or, Bool.true_and, List.length_cons, Nat.add_lt_add_iff_right]
        have hitems : storageItems v = cs.map .char := hitems
        rw [hcat, hitems, foldl_cat_string hcs hrest, hrun, decide_eq_false_iff_not,
          length_takeWhile_lt, not_not]
    | false =>
      have hloose : Loose (storageItems v) := exists_not_isChar hv.items hs
      have hrun : charsRun (v :: vs) = false := by
        unfold charsRun
        simp [hs]
      have hcat : cat (.list []) v = .list (storageItems v) :=
        cat_list_left hv.items (by rw [hs, Bool.and_false])
      rw [hcat, foldl_cat_loose_iff hloose hrest]
      exact iff_of_true rfl hrun

/-- The items of nested packed lists are others than the lists. -/
theorem canonItems_nested (hv : IsStorage v) {k : PackedKind} (hk : packedKind v = some k) :
    canonItems [v] ≠ canonItems (storageItems v) := by
  have hatoms : ∀ x ∈ storageItems v, ∀ items, canon x ≠ .list items := by
    have hitems := hv.items
    cases v with
    | intList items | intRange range | floatList items | boolList items =>
      obtain h := Option.some.inj hitems
      intro x hx
      rw [← h] at hx
      obtain ⟨y, -, rfl⟩ := List.mem_map.mp hx
      exact canon_ne_list rfl
    | _ => cases hk
  cases hitems : storageItems v with
  | nil => exact nofun
  | cons x xs =>
    exact canonItems_cons_ne ⟨_, canon_storage hv.items⟩
      (hatoms x (hitems ▸ List.mem_cons_self)) _ _

theorem isStorage_of_packedKind {k : PackedKind} (hk : packedKind v = some k) : IsStorage v := by
  cases v <;> first | rfl | cases hk

theorem not_isChar_of_packedKind {k : PackedKind} (hk : packedKind v = some k) :
    v.isChar = false := by
  cases v <;> first | rfl | cases hk

/-- A packed list in front of one of another kind. -/
theorem foldl_cat_nests {k l : PackedKind} (hv : packedKind v = some k) (hw : packedKind w = some l)
    (hkl : k ≠ l) (hs : (v.isString && w.isString) = false) (hvs : ∀ v ∈ vs, IsStorage v) :
    canon (vs.foldl cat (cat v w)) ≠
      .list (canonItems (storageItems v ++ storageItems w ++ spliced vs)) := by
  rcases cat_nests hv hw hkl hs with hcat | hcat
  · have hloose : Loose (storageItems v ++ [w]) :=
      ⟨w, by simp, not_isChar_of_packedKind hw⟩
    rw [hcat, Ne, foldl_cat_loose_iff hloose hvs, canonItems_append, canonItems_append,
      List.append_right_inj]
    exact canonItems_nested (isStorage_of_packedKind hw) hw
  · have hloose : Loose (v :: storageItems w) := ⟨v, by simp, not_isChar_of_packedKind hv⟩
    rw [hcat, Ne, foldl_cat_loose_iff hloose hvs, ← List.singleton_append, canonItems_append,
      canonItems_append, List.append_left_inj]
    exact canonItems_nested (isStorage_of_packedKind hv) hv

theorem storage_cases (hv : IsStorage v) :
    (∃ ys, v = .list ys) ∨ ∃ k, packedKind v = some k := by
  cases v with
  | list ys => exact .inl ⟨ys, rfl⟩
  | intList _ | intRange _ | floatList _ | boolList _ => exact .inr ⟨_, rfl⟩
  | _ => cases hv

/-- The fold from a packed list that is not empty. -/
theorem foldl_cat_packed {k : PackedKind} (hacc : packedKind acc = some k)
    (hs : acc.isString = false) (hvs : ∀ v ∈ vs, IsStorage v) :
    canon (vs.foldl cat acc) = .list (canonItems (storageItems acc ++ spliced vs)) ↔
      clashes k vs = false := by
  induction vs generalizing acc with
  | nil =>
    refine iff_of_true ?_ rfl
    rw [spliced, List.flatMap_nil, List.append_nil]
    exact canon_storage (isStorage_of_packedKind hacc).items
  | cons v vs ih =>
    have hv := hvs v List.mem_cons_self
    have hrest : ∀ w ∈ vs, IsStorage w := fun w hw => hvs w (List.mem_cons_of_mem v hw)
    have hboth : (acc.isString && v.isString) = false := by rw [hs, Bool.false_and]
    have hloose : Loose (storageItems acc) :=
      exists_not_isChar (isStorage_of_packedKind hacc).items hs
    rw [List.foldl_cons, spliced_cons, ← List.append_assoc]
    obtain ⟨ys, rfl⟩ | ⟨l, hl⟩ := storage_cases hv
    · have hcat := cat_list_right (isStorage_of_packedKind hacc).items hboth
      rw [hcat, foldl_cat_loose_iff hloose.append hrest]
      exact iff_of_true rfl rfl
    · by_cases hkl : l = k
      · obtain rfl := hkl
        obtain ⟨hkind, hitems⟩ := cat_same_kind hacc hl hboth
        have hstring : (cat acc v).isString = false := by
          rw [isString_packed hkind, Bool.eq_false_iff]
          intro hunit
          obtain ⟨x, hx, -⟩ := hloose
          rw [isUnit_iff hitems, List.append_eq_nil_iff] at hunit
          exact List.ne_nil_of_mem hx hunit.1
        rw [← storageItems_of hitems, ih hkind hstring hrest, clashes, if_pos hl]
      · have hclash : clashes k (v :: vs) = true := by
          rw [clashes, hl, if_neg fun h => hkl (Option.some.inj h)]
          rfl
        refine iff_of_false (foldl_cat_nests hacc hl (Ne.symm hkl) hboth hrest) ?_
        rw [hclash]
        exact nofun

/-- **The fold over lists.** It splices them all, unless it makes a string of the
first ones or nests a packed list. -/
theorem catFold_iff (hvs : ∀ u ∈ v :: w :: vs, IsStorage u) :
    canon (catFold (v :: w :: vs)) = .list (canonItems (spliced (v :: w :: vs))) ↔
      stringRun (v :: w :: vs) = false ∧ mixedRun (v :: w :: vs) = false := by
  have hv := hvs v (by simp)
  have hw := hvs w (by simp)
  have hrest : ∀ u ∈ vs, IsStorage u := fun u hu => hvs u (by simp [hu])
  rw [catFold, List.foldl_cons, spliced_cons, spliced_cons, ← List.append_assoc]
  cases hs : v.isString && w.isString with
  | true =>
    rw [Bool.and_eq_true] at hs
    have hrun : stringRun (v :: w :: vs) =
        ((!v.isUnit || (!w.isUnit || (vs.takeWhile isString).any (! ·.isUnit))) &&
          decide ((vs.takeWhile isString).length < vs.length)) := by
      unfold stringRun
      simp only [List.takeWhile_cons, hs.1, hs.2, if_true, List.any_cons, List.length_cons,
        Nat.add_lt_add_iff_right, Nat.le_add_left, decide_true, Bool.true_and]
    obtain ⟨hcat, hnilV, hnilW, hunitV, hunitW⟩ | ⟨hunit, cs, hcs, hcat, hitems⟩ :=
      cat_strings hv hw hs.1 hs.2
    · have hmixed : mixedRun (v :: w :: vs) = false := by
        rw [mixedRun, hunitV, hunitW]
        rfl
      have hchars : stringRun (v :: w :: vs) = charsRun vs := by
        rw [hrun, hunitV, hunitW]
        rfl
      rw [hcat, hnilV, hnilW, hchars, hmixed, and_iff_left rfl]
      exact foldl_cat_nil hrest
    · have hmixed : mixedRun (v :: w :: vs) = false := by
        rw [mixedRun]
        cases hk : packedKind v with
        | none => exact Bool.and_false _
        | some k =>
          -- an empty packed list before a list of characters
          have hunitW : w.isUnit = false := by
            have hunitV : v.isUnit = true := isString_packed hk ▸ hs.1
            rwa [hunitV, Bool.true_and] at hunit
          have hkindW : packedKind w = none := by
            cases hl : packedKind w with
            | none => rfl
            | some l =>
              rw [isString_packed hl, hunitW] at hs
              cases hs.2
          simp only [clashes, hkindW, reduceCtorEq, if_false, Option.isSome_none, Bool.and_false]
      have hchars : stringRun (v :: w :: vs) =
          decide ((vs.takeWhile isString).length < vs.length) := by
        have hany : (!v.isUnit || (!w.isUnit || (vs.takeWhile isString).any (! ·.isUnit))) =
            true := by
          rcases Bool.and_eq_false_iff.mp hunit with h | h <;> simp [h]
        rw [hrun, hany, Bool.true_and]
      rw [hcat, hitems, hchars, hmixed, and_iff_left rfl, foldl_cat_string hcs hrest,
        decide_eq_false_iff_not, length_takeWhile_lt, not_not]
  | false =>
    have hunits : (v.isUnit && w.isUnit) = false := by
      rw [Bool.eq_false_iff]
      intro h
      rw [Bool.and_eq_true] at h
      rw [isString_of_isUnit h.1, isString_of_isUnit h.2] at hs
      cases hs
    have hrun : stringRun (v :: w :: vs) = false := by
      unfold stringRun
      rcases Bool.and_eq_false_iff.mp hs with h | h
      · simp [h]
      · cases hsv : v.isString <;> simp [h, hsv]
    rw [hrun, eq_self_iff_true, true_and, mixedRun, hunits, Bool.not_false, Bool.true_and]
    have hloose : Loose (storageItems v ++ storageItems w) := by
      rcases Bool.and_eq_false_iff.mp hs with h | h
      · exact Loose.append (exists_not_isChar hv.items h)
      · exact Loose.prepend (exists_not_isChar hw.items h)
    obtain ⟨xs, rfl⟩ | ⟨k, hk⟩ := storage_cases hv
    · rw [cat_list_left hw.items hs]
      exact iff_of_true ((foldl_cat_loose_iff hloose hrest _).mpr rfl) rfl
    obtain ⟨ys, rfl⟩ | ⟨l, hl⟩ := storage_cases hw
    · have hclash : clashes k (.list ys :: vs) = false := rfl
      rw [cat_list_right hv.items hs, hk]
      refine iff_of_true ?_ hclash
      exact (foldl_cat_loose_iff hloose hrest _).mpr rfl
    rw [hk]
    dsimp only
    by_cases hkl : l = k
    · obtain rfl := hkl
      obtain ⟨hkind, hitems⟩ := cat_same_kind hk hl hs
      have hstring : (cat v w).isString = false := by
        rw [isString_packed hkind, Bool.eq_false_iff]
        intro hunit
        obtain ⟨x, hx, -⟩ := hloose
        exact List.ne_nil_of_mem hx ((isUnit_iff hitems).mp hunit)
      rw [← storageItems_of hitems, foldl_cat_packed hkind hstring hrest, clashes, if_pos hl]
    · have hclash : clashes k (w :: vs) = true := by
        rw [clashes, hl, if_neg fun h => hkl (Option.some.inj h)]
        rfl
      refine iff_of_false (foldl_cat_nests hk hl (Ne.symm hkl) hs hrest) ?_
      rw [hclash]
      decide

end Fold

/-! ### The paths of the concatenation of many values -/

/-- The values that one of the packed paths takes, and what it makes of them. -/
structure PackedPath (α : Type) where
  /-- The items that a value counts for. -/
  parts : Value → Option (List α)
  pack : List α → Value
  wrap : α → Value
  parts_pack : ∀ xs, parts (pack xs) = some xs
  canon_pack : ∀ xs, canon (pack xs) = .list (canonItems (xs.map wrap))
  isChar_wrap : ∀ x, (wrap x).isChar = false
  isUnit_of_isString : ∀ {v xs}, parts v = some xs → v.isString = true → v.isUnit = true ∧ xs = []
  cat_list : ∀ (xs : List α) {v ys}, parts v = some ys →
    (isString (.list (xs.map wrap)) && v.isString) = false →
    cat (.list (xs.map wrap)) v = .list (xs.map wrap ++ ys.map wrap)
  storageItems_eq : ∀ {v xs}, parts v = some xs → IsStorage v → storageItems v = xs.map wrap
  cat_parts : ∀ {u v xs ys}, parts u = some xs → parts v = some ys →
    (u.isString && v.isString) = false → cat u v = pack (xs ++ ys)

namespace PackedPath

variable {α : Type} (path : PackedPath α) {values : List Value} {parts : List (List α)}

/-- An accumulator for the items `xs`. -/
def Holds (xs : List α) (v : Value) : Prop := path.parts v = some xs ∨ v = .list (xs.map path.wrap)

/-- A result for the items `xs`. -/
def IsResult (xs : List α) (v : Value) : Prop := v = path.pack xs ∨ v = .list (xs.map path.wrap)

theorem IsResult.holds {path : PackedPath α} {xs : List α} {v : Value} (h : path.IsResult xs v) :
    path.Holds xs v := by
  rcases h with rfl | rfl
  · exact .inl (path.parts_pack xs)
  · exact .inr rfl

theorem IsResult.canon {path : PackedPath α} {xs : List α} {v : Value} (h : path.IsResult xs v) :
    canon v = .list (canonItems (xs.map path.wrap)) := by
  rcases h with rfl | rfl
  · exact path.canon_pack xs
  · rfl

/-- An accumulator that is a string has no items. -/
theorem Holds.isUnit {path : PackedPath α} {xs : List α} {v : Value} (h : path.Holds xs v)
    (hs : v.isString = true) : v.isUnit = true ∧ xs = [] := by
  rcases h with h | rfl
  · exact path.isUnit_of_isString h hs
  · cases xs with
    | nil => exact ⟨rfl, rfl⟩
    | cons x xs =>
      have hloose : Loose ((x :: xs).map path.wrap) :=
        ⟨path.wrap x, List.mem_cons_self, path.isChar_wrap x⟩
      rw [hloose.isString] at hs
      cases hs

theorem cat_holds {xs ys : List α} {u v : Value} (hu : path.Holds xs u)
    (hv : path.parts v = some ys) : path.IsResult (xs ++ ys) (cat u v) := by
  cases hs : u.isString && v.isString with
  | true =>
    -- two empty lists make an empty general list
    rw [Bool.and_eq_true] at hs
    obtain ⟨hunitU, rfl⟩ := hu.isUnit hs.1
    obtain ⟨hunitV, rfl⟩ := path.isUnit_of_isString hv hs.2
    rw [cat, hs.1, hs.2, hunitU, hunitV]
    exact .inr rfl
  | false =>
    rcases hu with hu | rfl
    · exact .inl (path.cat_parts hu hv hs)
    · right
      rw [path.cat_list xs hv hs, List.map_append]

/-- The fold of the values that a path takes. -/
theorem foldl_cat_holds {xs : List α} {u : Value} (hu : path.IsResult xs u)
    (hvalues : values.mapM path.parts = some parts) :
    path.IsResult (xs ++ parts.flatten) (values.foldl cat u) := by
  induction values generalizing xs u parts with
  | nil =>
    obtain rfl : [] = parts := Option.some.inj hvalues
    rw [List.flatten_nil, List.append_nil]
    exact hu
  | cons v values ih =>
    rw [List.mapM_cons] at hvalues
    obtain ⟨ys, hv, hvalues⟩ := Option.bind_eq_some_iff.mp hvalues
    obtain ⟨rest, hrest, hparts⟩ := Option.bind_eq_some_iff.mp hvalues
    obtain rfl := Option.some.inj hparts
    rw [List.foldl_cons, List.flatten_cons, ← List.append_assoc]
    exact ih (path.cat_holds hu.holds hv) hrest

theorem catFold_canon {v w : Value} (hvalues : (v :: w :: values).mapM path.parts = some parts) :
    canon (catFold (v :: w :: values)) = canon (path.pack parts.flatten) := by
  rw [List.mapM_cons] at hvalues
  obtain ⟨xs, hv, hvalues⟩ := Option.bind_eq_some_iff.mp hvalues
  obtain ⟨tail, htail, hparts⟩ := Option.bind_eq_some_iff.mp hvalues
  obtain rfl := Option.some.inj hparts
  rw [List.mapM_cons] at htail
  obtain ⟨ys, hw, htail⟩ := Option.bind_eq_some_iff.mp htail
  obtain ⟨rest, hrest, hparts⟩ := Option.bind_eq_some_iff.mp htail
  obtain rfl := Option.some.inj hparts
  have hresult := path.foldl_cat_holds (path.cat_holds (.inl hv) hw) hrest
  rw [path.canon_pack, List.flatten_cons, List.flatten_cons, ← List.append_assoc]
  exact hresult.canon

end PackedPath

/-- Integers and their lists. -/
def intPath : PackedPath Int64 where
  parts := nativeIntSeq
  pack := .intList
  wrap := .int
  parts_pack _ := rfl
  canon_pack xs := canon_storage rfl
  isChar_wrap _ := rfl
  isUnit_of_isString {v xs} hv hs := by
    cases v with
    | intList items | intRange range =>
      obtain rfl := Option.some.inj hv
      exact ⟨hs, List.map_eq_nil_iff.mp ((isUnit_iff rfl).mp hs)⟩
    | int n => cases hs
    | _ => cases hv
  cat_list xs v ys hv hs := by
    rw [cat_of_not_strings hs]
    cases v with
    | int _ | intList _ | intRange _ =>
      obtain rfl := Option.some.inj hv
      rfl
    | _ => cases hv
  storageItems_eq {v xs} hv hs := by
    cases v with
    | intList _ | intRange _ =>
      obtain rfl := Option.some.inj hv
      rfl
    | int _ => cases hs
    | _ => cases hv
  cat_parts {u v xs ys} hu hv hs := by
    rw [cat_of_not_strings hs, hu, hv]

/-- Floats and their lists. -/
def floatPath : PackedPath F64 where
  parts := floats?
  pack := .floatList
  wrap := .float
  parts_pack _ := rfl
  canon_pack xs := canon_storage rfl
  isChar_wrap _ := rfl
  isUnit_of_isString {v xs} hv hs := by
    cases v with
    | floatList items =>
      obtain rfl := Option.some.inj hv
      exact ⟨hs, List.map_eq_nil_iff.mp ((isUnit_iff rfl).mp hs)⟩
    | float f => cases hs
    | _ => cases hv
  cat_list xs v ys hv hs := by
    rw [cat_of_not_strings hs]
    cases v with
    | float _ | floatList _ =>
      obtain rfl := Option.some.inj hv
      rfl
    | _ => cases hv
  storageItems_eq {v xs} hv hs := by
    cases v with
    | floatList _ =>
      obtain rfl := Option.some.inj hv
      rfl
    | float _ => cases hs
    | _ => cases hv
  cat_parts {u v xs ys} hu hv hs := by
    rw [cat_of_not_strings hs]
    cases u with
    | float _ | floatList _ =>
      obtain rfl := Option.some.inj hu
      cases v with
      | float _ | floatList _ =>
        obtain rfl := Option.some.inj hv
        rfl
      | _ => cases hv
    | _ => cases hu

/-- Booleans and their lists. -/
def boolPath : PackedPath Bool where
  parts := bools?
  pack := .boolList
  wrap := .bool
  parts_pack _ := rfl
  canon_pack xs := canon_storage rfl
  isChar_wrap _ := rfl
  isUnit_of_isString {v xs} hv hs := by
    cases v with
    | boolList items =>
      obtain rfl := Option.some.inj hv
      exact ⟨hs, List.map_eq_nil_iff.mp ((isUnit_iff rfl).mp hs)⟩
    | bool b => cases hs
    | _ => cases hv
  cat_list xs v ys hv hs := by
    rw [cat_of_not_strings hs]
    cases v with
    | bool _ | boolList _ =>
      obtain rfl := Option.some.inj hv
      rfl
    | _ => cases hv
  storageItems_eq {v xs} hv hs := by
    cases v with
    | boolList _ =>
      obtain rfl := Option.some.inj hv
      rfl
    | bool _ => cases hs
    | _ => cases hv
  cat_parts {u v xs ys} hu hv hs := by
    rw [cat_of_not_strings hs]
    cases u with
    | bool _ | boolList _ =>
      obtain rfl := Option.some.inj hu
      cases v with
      | bool _ | boolList _ =>
        obtain rfl := Option.some.inj hv
        rfl
      | _ => cases hv
    | _ => cases hu

/-! ### Strings -/

section Strings

variable {u v w : Value} {values : List Value} {cs : List Char}

/-- A string has its characters. -/
theorem tryToRustString_eq {v : Value} (hs : v.isString = true) :
    v.tryToRustString = some (charsOf v) := by
  cases v with
  | string s => rfl
  | char c => rfl
  | list items =>
    have hitems := items_of_isString (v := .list items) rfl hs
    have hchars := chars?_map_char (charsOf (.list items))
    rw [Value.tryToRustString, ← hchars, ← hitems]
  | intList items | intRange range | floatList items | boolList items =>
    have hunit : isUnit _ = true := hs
    simp only [charsOf, Value.tryToRustString, hunit, if_true]
    rfl
  | _ => cases hs

/-- What the concatenation of strings with the characters `cs` is. -/
def IsText (cs : List Char) (v : Value) : Prop :=
  v = intoWqString cs ∨ cs = [] ∧ v = .emptyList

theorem IsText.canon (h : IsText cs v) : canon v = .list (canonItems (cs.map .char)) := by
  rcases h with rfl | ⟨rfl, rfl⟩
  · exact canon_intoWqString cs
  · rfl

theorem IsText.isString (h : IsText cs v) : v.isString = true := by
  rcases h with rfl | ⟨-, rfl⟩ <;> rfl

theorem IsText.charsOf (h : IsText cs v) : charsOf v = cs := by
  rcases h with rfl | ⟨rfl, rfl⟩
  · exact charsOf_string cs
  · rfl

theorem isText_cat (hu : u.isString = true) (hv : v.isString = true) :
    IsText (charsOf u ++ charsOf v) (cat u v) := by
  rw [cat, hu, hv]
  cases hunits : u.isUnit && v.isUnit with
  | true =>
    rw [Bool.and_eq_true] at hunits
    rw [charsOf_of_isUnit hunits.1, charsOf_of_isUnit hunits.2]
    exact .inr ⟨rfl, rfl⟩
  | false => exact .inl rfl

theorem isText_foldl (hu : IsText cs u) (hvalues : ∀ v ∈ values, v.isString = true) :
    IsText (cs ++ (values.map Wqpl.charsOf).flatten) (values.foldl cat u) := by
  induction values generalizing cs u with
  | nil =>
    rw [List.map_nil, List.flatten_nil, List.append_nil]
    exact hu
  | cons v values ih =>
    have hcat := isText_cat hu.isString (hvalues v List.mem_cons_self)
    rw [hu.charsOf] at hcat
    rw [List.foldl_cons, List.map_cons, List.flatten_cons, ← List.append_assoc]
    exact ih hcat fun w hw => hvalues w (List.mem_cons_of_mem v hw)

theorem isText_catFold (hvalues : ∀ u ∈ v :: w :: values, u.isString = true) :
    IsText ((v :: w :: values).map charsOf).flatten (catFold (v :: w :: values)) := by
  have hcat := isText_cat (hvalues v (by simp)) (hvalues w (by simp))
  rw [List.map_cons, List.map_cons, List.flatten_cons, List.flatten_cons, ← List.append_assoc]
  exact isText_foldl hcat fun u hu => hvalues u (by simp [hu])

theorem filterMap_tryToRustString (hvalues : ∀ u ∈ values, u.isString = true) :
    values.filterMap Value.tryToRustString = values.map charsOf := by
  induction values with
  | nil => rfl
  | cons v values ih =>
    rw [List.filterMap_cons, tryToRustString_eq (hvalues v List.mem_cons_self),
      ih fun u hu => hvalues u (List.mem_cons_of_mem v hu), List.map_cons]

end Strings

/-! ### The two concatenations of many values -/

section Many

variable {v w : Value} {values vs : List Value}

theorem mapM_eq_some {α : Type} {f : Value → Option α} {parts : List α}
    (h : values.mapM f = some parts) : values.map f = parts.map some := by
  induction values generalizing parts with
  | nil =>
    obtain rfl : [] = parts := Option.some.inj h
    rfl
  | cons v values ih =>
    rw [List.mapM_cons] at h
    obtain ⟨x, hx, h⟩ := Option.bind_eq_some_iff.mp h
    obtain ⟨xs, hxs, hparts⟩ := Option.bind_eq_some_iff.mp h
    obtain rfl := Option.some.inj hparts
    rw [List.map_cons, List.map_cons, ih hxs, hx]

theorem PackedPath.spliced_eq {α : Type} (path : PackedPath α) {parts : List (List α)}
    (hvalues : values.mapM path.parts = some parts) (hstorage : ∀ v ∈ values, IsStorage v) :
    spliced values = parts.flatten.map path.wrap := by
  induction values generalizing parts with
  | nil =>
    obtain rfl : [] = parts := Option.some.inj hvalues
    rfl
  | cons v values ih =>
    rw [List.mapM_cons] at hvalues
    obtain ⟨xs, hv, hvalues⟩ := Option.bind_eq_some_iff.mp hvalues
    obtain ⟨rest, hrest, hparts⟩ := Option.bind_eq_some_iff.mp hvalues
    obtain rfl := Option.some.inj hparts
    rw [spliced_cons, path.storageItems_eq hv (hstorage v List.mem_cons_self),
      ih hrest fun u hu => hstorage u (List.mem_cons_of_mem v hu), List.flatten_cons,
      List.map_append]

theorem mapM_listStorageSeq (hstorage : ∀ v ∈ values, IsStorage v) :
    values.mapM listStorageSeq = some (values.map storageItems) := by
  induction values with
  | nil => rfl
  | cons v values ih =>
    rw [List.mapM_cons, (hstorage v List.mem_cons_self).items,
      ih fun u hu => hstorage u (List.mem_cons_of_mem v hu)]
    rfl

theorem spliced_strings (hstorage : ∀ v ∈ values, IsStorage v)
    (hs : ∀ v ∈ values, v.isString = true) :
    spliced values = (values.map charsOf).flatten.map .char := by
  induction values with
  | nil => rfl
  | cons v values ih =>
    rw [spliced_cons, items_of_isString (hstorage v List.mem_cons_self).items
        (hs v List.mem_cons_self),
      ih (fun u hu => hstorage u (List.mem_cons_of_mem v hu))
        fun u hu => hs u (List.mem_cons_of_mem v hu),
      List.map_cons, List.flatten_cons, List.map_append]

theorem charsOf_units (hunits : ∀ v ∈ values, v.isUnit = true) :
    (values.map charsOf).flatten = [] := by
  rw [List.flatten_eq_nil_iff]
  intro cs hcs
  obtain ⟨v, hv, rfl⟩ := List.mem_map.mp hcs
  exact charsOf_of_isUnit (hunits v hv)

/-- The paths of `cat_many` for two values and more. -/
theorem catMany_cases (values : List Value) (hlen : 2 ≤ values.length) :
    (∀ v ∈ values, v.isString = true) ∧
        canon (catMany values) = .list (canonItems ((values.map charsOf).flatten.map .char)) ∨
      (∃ parts, values.mapM nativeIntSeq = some parts ∧ catMany values = .intList parts.flatten) ∨
      (∃ parts, values.mapM floats? = some parts ∧ catMany values = .floatList parts.flatten) ∨
      (∃ parts, values.mapM bools? = some parts ∧ catMany values = .boolList parts.flatten) ∨
      (∃ parts, values.mapM listStorageSeq = some parts ∧ catMany values = .list parts.flatten) ∨
      values.mapM listStorageSeq = none ∧ catMany values = catFold values := by
  match values, hlen with
  | v :: w :: vs, _ =>
    generalize hvalues : v :: w :: vs = values
    have hmany : catMany values =
        if values.all isUnit then .emptyList
        else if values.all isString then
          intoWqString (values.filterMap Value.tryToRustString).flatten
        else
          match values.mapM nativeIntSeq, values.mapM floats?, values.mapM bools?,
            values.mapM listStorageSeq with
          | some parts, _, _, _ => .intList parts.flatten
          | none, some parts, _, _ => .floatList parts.flatten
          | none, none, some parts, _ => .boolList parts.flatten
          | none, none, none, some parts => .list parts.flatten
          | none, none, none, none => catFold values := by
      rw [← hvalues, catMany] <;> exact nofun
    rw [hmany]
    by_cases hunits : values.all isUnit = true
    · have hunits' := List.all_eq_true.mp hunits
      rw [if_pos hunits, charsOf_units hunits']
      exact .inl ⟨fun v hv => isString_of_isUnit (hunits' v hv), rfl⟩
    by_cases hstrings : values.all isString = true
    · have hstrings' := List.all_eq_true.mp hstrings
      rw [if_neg hunits, if_pos hstrings, filterMap_tryToRustString hstrings']
      exact .inl ⟨hstrings', canon_intoWqString _⟩
    rw [if_neg hunits, if_neg hstrings]
    right
    cases hints : values.mapM nativeIntSeq with
    | some parts => exact .inl ⟨parts, rfl, rfl⟩
    | none =>
      cases hfloats : values.mapM floats? with
      | some parts => exact .inr (.inl ⟨parts, rfl, rfl⟩)
      | none =>
        cases hbools : values.mapM bools? with
        | some parts => exact .inr (.inr (.inl ⟨parts, rfl, rfl⟩))
        | none =>
          cases hstorage : values.mapM listStorageSeq with
          | some parts => exact .inr (.inr (.inr (.inl ⟨parts, rfl, rfl⟩)))
          | none => exact .inr (.inr (.inr (.inr ⟨rfl, rfl⟩)))

/-- Many lists are spliced. -/
theorem catMany_canon (hlen : 2 ≤ values.length) (hstorage : ∀ v ∈ values, IsStorage v) :
    canon (catMany values) = .list (canonItems (spliced values)) := by
  obtain ⟨hs, h⟩ | ⟨parts, hp, h⟩ | ⟨parts, hp, h⟩ | ⟨parts, hp, h⟩ | ⟨parts, hp, h⟩ | ⟨hp, -⟩ :=
    catMany_cases values hlen
  · rw [h, spliced_strings hstorage hs]
  · rw [h, intPath.spliced_eq hp hstorage]
    exact intPath.canon_pack _
  · rw [h, floatPath.spliced_eq hp hstorage]
    exact floatPath.canon_pack _
  · rw [h, boolPath.spliced_eq hp hstorage]
    exact boolPath.canon_pack _
  · rw [mapM_listStorageSeq hstorage] at hp
    obtain rfl := Option.some.inj hp
    rw [h, spliced, List.flatMap_def]
    rfl
  · rw [mapM_listStorageSeq hstorage] at hp
    cases hp

/-- Where not all values are lists, the fold gives the same. -/
theorem catMany_canon_of_not_storage (hstorage : ¬∀ u ∈ v :: w :: vs, IsStorage u) :
    canon (catMany (v :: w :: vs)) = canon (catFold (v :: w :: vs)) := by
  obtain ⟨hs, h⟩ | ⟨parts, hp, h⟩ | ⟨parts, hp, h⟩ | ⟨parts, hp, h⟩ | ⟨parts, hp, h⟩ | ⟨hp, h⟩ :=
    catMany_cases (v :: w :: vs) (by simp)
  · rw [h, (isText_catFold hs).canon]
  · rw [h, intPath.catFold_canon hp]
    rfl
  · rw [h, floatPath.catFold_canon hp]
    rfl
  · rw [h, boolPath.catFold_canon hp]
    rfl
  · refine absurd (fun u hu => ?_) hstorage
    have hmap := mapM_eq_some hp
    have hmem : listStorageSeq u ∈ parts.map some := hmap ▸ List.mem_map_of_mem hu
    obtain ⟨xs, -, hxs⟩ := List.mem_map.mp hmem
    rw [IsStorage, ← hxs]
    rfl
  · rw [h]

/-- The two concatenations are equal unless all values are lists, of which the
first ones make a string or a packed list is nested. -/
theorem catMany_eq_catFold_iff (values : List Value) :
    (catMany values).eq (catFold values) = true ↔
      ¬((∀ v ∈ values, IsStorage v) ∧ (stringRun values = true ∨ mixedRun values = true)) := by
  rw [eq_iff]
  match values with
  | [] => exact iff_of_true rfl (by rintro ⟨-, h | h⟩ <;> cases h)
  | [v] =>
    refine iff_of_true rfl ?_
    rintro ⟨-, h | h⟩
    · have hlen := (List.takeWhile_sublist (p := isString) (l := [v])).length_le
      simp only [stringRun, Bool.and_eq_true, decide_eq_true_eq, List.length_singleton] at h hlen
      omega
    · cases h
  | v :: w :: vs =>
    by_cases hstorage : ∀ u ∈ v :: w :: vs, IsStorage u
    · rw [catMany_canon (by simp) hstorage, eq_comm, catFold_iff hstorage, and_iff_right hstorage,
        not_or, Bool.not_eq_true, Bool.not_eq_true]
    · exact iff_of_true (catMany_canon_of_not_storage hstorage) fun h => hstorage h.1

theorem mixedRun_pair : mixedRun [v, w] = true ↔ Nests v w := by
  unfold mixedRun Nests
  rw [Bool.and_eq_true, Bool.not_eq_true', ← Bool.not_eq_true, Bool.and_eq_true, and_comm]
  refine and_congr_left fun _ => ?_
  cases hv : packedKind v with
  | none => simp
  | some k =>
    simp only [clashes, Option.some.injEq]
    cases hw : packedKind w with
    | none => simp
    | some l =>
      by_cases hkl : k = l
      · simp [hkl]
      · simp [hkl, Ne.symm hkl]

/-- Two lists are spliced unless they are packed lists of different kinds. -/
theorem cat_eq_splice_iff (v w : Value) :
    (IsStorage v → IsStorage w →
      (cat v w).eq (.list (storageItems v ++ storageItems w)) = true) ↔ ¬Nests v w := by
  by_cases hv : IsStorage v
  · by_cases hw : IsStorage w
    · have hfold := catFold_iff (show ∀ u ∈ [v, w], IsStorage u by simp [hv, hw])
      have hrun : stringRun [v, w] = false := by
        have hlen := (List.takeWhile_sublist (p := isString) (l := [v, w])).length_le
        rw [Bool.eq_false_iff]
        intro h
        simp only [stringRun, Bool.and_eq_true, decide_eq_true_eq, List.length_cons,
          List.length_nil] at h hlen
        omega
      rw [hrun, eq_self_iff_true, true_and, ← Bool.not_eq_true, mixedRun_pair] at hfold
      rw [← hfold, forall_prop_of_true hv, forall_prop_of_true hw, eq_iff]
      simp only [spliced, List.flatMap_cons, List.flatMap_nil, List.append_nil]
      rfl
    · refine iff_of_true (fun _ h => absurd h hw) ?_
      rintro ⟨⟨k, l, -, hl, -⟩, -⟩
      exact hw (isStorage_of_packedKind hl)
  · refine iff_of_true (fun h => absurd h hv) ?_
    rintro ⟨⟨k, l, hk, -⟩, -⟩
    exact hv (isStorage_of_packedKind hk)

end Many

/-- **Concatenation.** Two lists are concatenated to their items unless they are
packed lists of different kinds, not both empty. Many values are concatenated as
the fold does, unless all of them are lists, of which the first ones make a string
or a packed list is nested. -/
theorem concatenation_iff (v w : Value) (values : List Value) :
    ((IsStorage v → IsStorage w →
      (cat v w).eq (.list (storageItems v ++ storageItems w)) = true) ↔ ¬Nests v w) ∧
    ((catMany values).eq (catFold values) = true ↔
      ¬((∀ v ∈ values, IsStorage v) ∧ (stringRun values = true ∨ mixedRun values = true))) :=
  ⟨cat_eq_splice_iff v w, catMany_eq_catFold_iff values⟩

/-- A packed list of booleans becomes an item behind a packed list of integers;
the concatenation of many values splices it. -/
theorem cat_nests_bools :
    (cat (.intList [1]) (.boolList [true])).eq (.list [.int 1, .bool true]) = false ∧
      (catMany [.intList [1], .boolList [true]]).eq
        (catFold [.intList [1], .boolList [true]]) = false := by
  decide

end Wqpl
