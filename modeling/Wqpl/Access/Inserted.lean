/-
# Insertion splices

A successful insertion into a list or a string leaves the splice of the target
and the pieces of the value (`Value.Splices`), and one into a dictionary leaves
the entries where they were asked for, with the other entries in their order
(`IndexMap.Placed`). A failure leaves the target. A dictionary is where it can
go wrong: with keys that are there already the positions may not fit
(`Value.InsertFits`).
-/
import Wqpl.Access.Insert
import Wqpl.Access.Partition

namespace Wqpl

namespace Value

/-- An item as a list stores it: an exact integer may become a machine integer. -/
def StoredAs (x y : Value) : Prop := y = x ∨ ∃ i, exactIntAtom x = some i ∧ y = .int i

/-- The pieces that a value is inserted as, one for each of `n` positions if
there are several: characters into a string, the items of a list or the value
itself into a list. -/
def insertPieces (v xs : Value) (several : Bool) (n : Nat) : Option (List (List Value)) :=
  match v.isString, several with
  | true, false => (Wqpl.tryToRustString xs).map fun text => [text.map .char]
  | true, true =>
    match listStorageSeq xs with
    | some items =>
      if items.length = n then items.mapM fun x => (Wqpl.tryToRustString x).map (List.map .char)
      else none
    | none => (Wqpl.tryToRustString xs).map fun text => List.replicate n (text.map .char)
  | false, false => some [listInsertItems xs]
  | false, true =>
    match listStorageSeq xs with
    | some items => if items.length = n then some (items.map ([·])) else none
    | none => some (List.replicate n [xs])

/-- The target with the pieces of the value at the positions asked for. -/
def Splices (v xs : Value) (dsts : Option Value) (outcome : Outcome) : Prop :=
  ∃ positions several pieces rest,
    parseInsertPositions dsts v.parts.length = .ok (positions, several) ∧
    (positions ≠ [] → ∃ given, insertPieces v xs several positions.length = some given ∧
      List.Forall₂ (List.Forall₂ StoredAs) given pieces) ∧
    outcome = some (.ok rest, rest) ∧
    Holds v rest (splice 0 v.parts (positions.zip (pieces.map (List.map fun x => (none, x)))))

/-- An insertion fails and leaves the target, or inserts the value. -/
def Inserts (v xs : Value) (dsts : Option Value) (outcome : Outcome) : Prop :=
  Fails v outcome ∨
    match v with
    | .dict entries => ∃ ops r, dictInsertOps entries.length xs dsts = .ok ops ∧
        outcome = some (.ok (.dict r), .dict r) ∧ IndexMap.Placed entries (sortByPosition ops) r
    | v => Splices v xs dsts outcome

/-- The entries for a dictionary fit it, in the order of their positions. -/
def InsertFits (v xs : Value) (dsts : Option Value) : Prop :=
  ∀ entries ops, v = .dict entries → dictInsertOps entries.length xs dsts = .ok ops →
    IndexMap.InsertionsFit 0 entries (sortByPosition ops)

theorem storedAs_refl (xs : List Value) : List.Forall₂ StoredAs xs xs :=
  List.forall₂_same.mpr fun _ _ => .inl rfl

/-! ### Values of an insertion -/

/-- What is read as integers is one exact integer or a list of them. -/
theorem exactIntSeq_cases {xs : Value} {is : List Int64} (h : exactIntSeq xs = some is) :
    (∃ i, is = [i] ∧ isExactIntAtom xs = true ∧ listStorageSeq xs = none ∧
      StoredAs xs (.int i)) ∨
    isExactIntAtom xs = false ∧
      ∃ items, listStorageSeq xs = some items ∧ List.Forall₂ StoredAs items (is.map .int) := by
  cases xs with
  | int i =>
    obtain rfl := Option.some.inj h
    exact .inl ⟨i, rfl, rfl, rfl, .inl rfl⟩
  | bigInt n =>
    obtain ⟨i, hi, rfl⟩ := Option.map_eq_some_iff.mp h
    refine .inl ⟨i, rfl, ?_, rfl, .inr ⟨i, hi, rfl⟩⟩
    unfold isExactIntAtom
    rw [exactIntAtom, hi]
    rfl
  | intList items =>
    obtain rfl := Option.some.inj h
    exact .inr ⟨rfl, _, rfl, storedAs_refl _⟩
  | intRange range =>
    obtain rfl := Option.some.inj h
    exact .inr ⟨rfl, _, rfl, storedAs_refl _⟩
  | list items =>
    refine .inr ⟨rfl, items, rfl, ?_⟩
    refine List.forall₂_map_right_iff.mpr ((mapM_some h).imp fun x i hi => ?_)
    exact .inr ⟨i, hi, rfl⟩
  | _ => cases h

theorem exactIntInsertItems_stored {xs : Value} {is : List Int64}
    (h : exactIntInsertItems xs = some is) :
    List.Forall₂ StoredAs (listInsertItems xs) (is.map .int) := by
  unfold listInsertItems
  rcases exactIntSeq_cases h with ⟨i, rfl, -, hseq, hi⟩ | ⟨-, items, hseq, hitems⟩
  · rw [hseq]
    exact .cons hi .nil
  · rw [hseq]
    exact hitems

theorem exactIntInsertPairwise_stored {xs : Value} {n : Nat} {is : List Int64}
    (h : exactIntInsertPairwise xs n = some is) :
    ∃ given, listInsertPairwise xs n = .ok given ∧ List.Forall₂ StoredAs given (is.map .int) := by
  obtain ⟨read, hread, his⟩ := Option.bind_eq_some_iff.mp h
  unfold listInsertPairwise
  rcases exactIntSeq_cases hread with ⟨i, rfl, hatom, hseq, hi⟩ | ⟨hatom, items, hseq, hitems⟩
  · rw [hatom, if_pos rfl] at his
    obtain rfl := Option.some.inj his
    rw [hseq]
    refine ⟨_, rfl, ?_⟩
    rw [List.map_replicate]
    clear h his
    induction n with
    | zero => exact .nil
    | succ n ih => exact .cons hi ih
  · rw [hatom, if_neg Bool.false_ne_true] at his
    split_ifs at his with hlen
    obtain rfl := Option.some.inj his
    have hcount : items.length = n := by
      rw [hitems.length_eq, List.length_map, hlen]
    rw [hseq]
    dsimp only
    rw [if_pos hcount]
    exact ⟨items, rfl, hitems⟩

/-- A kind of packed list takes the items that a value stands for. -/
structure Takes {α : Type} (kind : PackedList α) (storage : Storage α) : Prop where
  unwrap : ∀ {v : Value} {x : α}, kind.unwrap v = some x → listStorageSeq v = none ∧ v = storage.wrap x
  unwrapMany : ∀ {v : Value} {xs : List α}, kind.unwrapMany v = some xs →
    listStorageSeq v = some (xs.map storage.wrap)

theorem takes_bool : Takes .bool .bool where
  unwrap {v x} h := by
    cases v <;> first | cases h; exact ⟨rfl, rfl⟩ | cases h
  unwrapMany {v xs} h := by
    cases v <;> first | cases h; rfl | cases h

theorem takes_float : Takes .float .float where
  unwrap {v x} h := by
    cases v <;> first | cases h; exact ⟨rfl, rfl⟩ | cases h
  unwrapMany {v xs} h := by
    cases v <;> first | cases h; rfl | cases h

section Packed

variable {α : Type} {kind : PackedList α} {storage : Storage α}

theorem Takes.mapM (h : Takes kind storage) {items : List Value} {xs : List α}
    (hxs : items.mapM kind.unwrap = some xs) : items = xs.map storage.wrap :=
  eq_map_of_mapM (fun _ _ hx => (h.unwrap hx).2) hxs

theorem Takes.items (h : Takes kind storage) {xs : Value} {values : List α}
    (hvalues : packedInsertItems kind xs = some values) :
    listInsertItems xs = values.map storage.wrap := by
  unfold packedInsertItems at hvalues
  split at hvalues
  · next x hx =>
    obtain rfl := Option.some.inj hvalues
    obtain ⟨hseq, rfl⟩ := h.unwrap hx
    rw [listInsertItems, hseq]
    rfl
  · split at hvalues
    · exact h.mapM hvalues
    · rw [listInsertItems, h.unwrapMany hvalues]
      rfl

theorem Takes.pairwise (h : Takes kind storage) {xs : Value} {n : Nat} {values : List α}
    (hvalues : packedInsertPairwise kind xs n = some values) :
    listInsertPairwise xs n = .ok (values.map storage.wrap) := by
  unfold packedInsertPairwise at hvalues
  unfold listInsertPairwise
  split at hvalues
  · next x hx =>
    obtain rfl := Option.some.inj hvalues
    obtain ⟨hseq, rfl⟩ := h.unwrap hx
    rw [hseq, List.map_replicate]
  · split at hvalues
    · next items _ =>
      split_ifs at hvalues with hlen
      show (if items.length = n then _ else _) = _
      rw [if_pos hlen, h.mapM hvalues]
    · obtain ⟨items, hitems, hsome⟩ := Option.bind_eq_some_iff.mp hvalues
      split_ifs at hsome with hlen
      obtain rfl := Option.some.inj hsome
      rw [h.unwrapMany hitems]
      dsimp only
      rw [List.length_map, if_pos hlen]

end Packed

/-! ### Positions of an insertion -/

theorem normalizeInsertIdx_le {i : Int64} {len p : Nat} (h : normalizeInsertIdx i len = some p) :
    p ≤ len := by
  unfold normalizeInsertIdx at h
  split_ifs at h <;> obtain rfl := Option.some.inj h <;> omega

theorem parseInsertPositions_le {dsts : Option Value} {len : Nat} {positions : List Nat}
    {several : Bool} (h : parseInsertPositions dsts len = .ok (positions, several)) :
    ∀ p ∈ positions, p ≤ len := by
  intro p hp
  cases dsts with
  | none =>
    obtain ⟨rfl, -⟩ := Prod.mk.inj (Except.ok.inj h)
    have := List.mem_range'_1.mp hp
    omega
  | some key =>
    have h : parseExactIntPositions key len normalizeInsertIdx = .ok (positions, several) := h
    unfold parseExactIntPositions at h
    split at h
    · cases h
    · split at h
      · cases h
      · next hout =>
        obtain ⟨rfl, -⟩ := Prod.mk.inj (Except.ok.inj h)
        obtain ⟨i, -, hi⟩ := mem_of_mapM hout hp
        exact normalizeInsertIdx_le hi

/-- One position is that of an integer. -/
theorem parseInsertPositions_single {dsts : Option Value} {len : Nat} {positions : List Nat}
    (h : parseInsertPositions dsts len = .ok (positions, false)) : ∃ p, positions = [p] := by
  cases dsts with
  | none => cases (Prod.mk.inj (Except.ok.inj h)).2
  | some key =>
    have h : parseExactIntPositions key len normalizeInsertIdx = .ok (positions, false) := h
    unfold parseExactIntPositions at h
    split at h
    · cases h
    · next is his =>
      split at h
      · cases h
      · next hout =>
        obtain ⟨rfl, hatom⟩ := Prod.mk.inj (Except.ok.inj h)
        rcases exactIntSeq_cases his with ⟨i, rfl, -, -, -⟩ | ⟨hnot, -⟩
        · exact List.length_eq_one_iff.mp (length_of_mapM hout)
        · rw [hnot] at hatom
          cases hatom

/-! ### Insertion into lists -/

/-- What is given for each position, as a list of pieces. -/
theorem insertPieces_of_values {v xs : Value} (hv : v.isString = false) {several : Bool} {n : Nat}
    {given : List Value} (h : insertValues xs several n = .ok given) :
    insertPieces v xs several n = some (if several then given.map ([·]) else [given]) := by
  unfold insertPieces
  rw [hv]
  cases several with
  | false =>
    obtain rfl := Except.ok.inj h
    rfl
  | true =>
    have h : listInsertPairwise xs n = .ok given := h
    unfold listInsertPairwise at h
    cases hseq : listStorageSeq xs with
    | some vals =>
      rw [hseq] at h
      dsimp only at h ⊢
      split_ifs at h with hlen
      obtain rfl := Except.ok.inj h
      exact if_pos hlen
    | none =>
      rw [hseq] at h
      obtain rfl := Except.ok.inj h
      have hreplicate : (List.replicate n xs).map ([·]) = List.replicate n [xs] := List.map_replicate
      exact congrArg some hreplicate.symm

/-- Values that a list can hold are spliced into it. -/
theorem insertAtPositions_splices {α : Type} (storage : Storage α) {v xs : Value}
    {dsts : Option Value} (hd : v.isDict = false) (hv : v.isString = false) {items : List α}
    (hparts : v.parts = items.map fun x => (none, storage.wrap x)) {positions : List Nat}
    {several : Bool} (hparse : parseInsertPositions dsts v.parts.length = .ok (positions, several))
    {given : List Value} (hgiven : insertValues xs several positions.length = .ok given)
    {values : List α} (hstored : List.Forall₂ StoredAs given (values.map storage.wrap)) :
    ∃ result, insertAtPositions items positions several values = some result ∧
      Splices v xs dsts (some (returnsData (storage.pack result))) := by
  have hlen : v.parts.length = items.length := by rw [hparts, List.length_map]
  have hpieces := insertPieces_of_values hv hgiven
  cases several with
  | true =>
    refine ⟨_, rfl, positions, true, values.map fun x => [storage.wrap x], _, hparse,
      fun _ => ⟨_, hpieces, ?_⟩, rfl, ?_⟩
    · rw [if_pos rfl]
      refine List.forall₂_map_left_iff.mpr (List.forall₂_map_right_iff.mpr ?_)
      exact (List.forall₂_map_right_iff.mp hstored).imp fun _ _ h => .cons h .nil
    · have hholds := storage.holds_pack hd (insertManyOwned items (positions.zip values))
      have hops : (positions.zip ((values.map fun x => [storage.wrap x]).map
          (List.map fun x => ((none : Option String), x)))) =
          ((positions.zip values).map fun op => (op.1, [op.2])).map fun op =>
            (op.1, op.2.map fun x => (none, storage.wrap x)) := by
        rw [List.map_map, List.map_map, List.zip_map_right]
        rfl
      unfold insertManyOwned at hholds ⊢
      rw [insertSorted_eq] at hholds ⊢
      rw [map_splice, ← hparts, ← hops] at hholds
      exact hholds
  | false =>
    obtain ⟨idx, rfl⟩ := parseInsertPositions_single hparse
    have hidx : idx ≤ items.length := hlen ▸ parseInsertPositions_le hparse idx List.mem_cons_self
    have hinsert : insertAtPositions items [idx] false values =
        some (items.take idx ++ values ++ items.drop idx) := by
      show insertAt items idx values = _
      exact if_pos hidx
    refine ⟨_, hinsert, [idx], false, [values.map storage.wrap], _, hparse,
      fun _ => ⟨_, hpieces, .cons hstored .nil⟩, rfl, ?_⟩
    have hholds := storage.holds_pack hd (items.take idx ++ values ++ items.drop idx)
    have hsplice := @splice_single _ (values.map fun x => ((none : Option String), storage.wrap x))
      v.parts 0 idx (hlen ▸ hidx)
    rw [Nat.zero_add] at hsplice
    show Holds v _ (splice 0 v.parts [(idx, (values.map storage.wrap).map fun x => (none, x))])
    rw [List.map_map]
    refine hsplice ▸ ?_
    rw [hparts, ← List.map_take, ← List.map_drop, ← List.map_append, ← List.map_append]
    exact hholds

/-- Without positions the target is left as it is. -/
theorem splices_nil {v data xs : Value} {dsts : Option Value} {several : Bool}
    (hparse : parseInsertPositions dsts v.parts.length = .ok ([], several))
    (hdata : Holds v data v.parts) : Splices v xs dsts (some (returnsData data)) := by
  refine ⟨[], several, [], data, hparse, fun h => absurd rfl h, rfl, ?_⟩
  rw [List.zip_nil_left, splice_nil]
  exact hdata

section Lists

variable {v xs : Value} {dsts : Option Value}

theorem insertList_inserts {items : List Value} (hv : v = .list items)
    (hs : v.isString = false) :
    Fails v (insertList items xs dsts) ∨ Splices v xs dsts (insertList items xs dsts) := by
  have hd : v.isDict = false := by rw [hv]; rfl
  have hparts : v.parts = items.map fun x => (none, Storage.list.wrap x) := by rw [hv]; rfl
  have hdata : Holds v (.list items) v.parts := by
    rw [hv]
    exact Holds.refl rfl
  have hlen : v.parts.length = items.length := by rw [hparts, List.length_map]
  unfold insertList
  cases hparse : parseInsertPositions dsts items.length with
  | error e => exact .inl ⟨e, _, rfl, hdata⟩
  | ok parsed =>
    obtain ⟨positions, several⟩ := parsed
    rw [← hlen] at hparse
    dsimp only
    cases positions with
    | nil => exact .inr (splices_nil hparse hdata)
    | cons p ps =>
      rw [List.isEmpty_cons, if_neg Bool.false_ne_true]
      cases hgiven : insertValues xs several (p :: ps).length with
      | error e => exact .inl ⟨e, _, rfl, hdata⟩
      | ok given =>
        have hstored : List.Forall₂ StoredAs given (given.map Storage.list.wrap) := by
          rw [show given.map Storage.list.wrap = given from List.map_id given]
          exact storedAs_refl given
        obtain ⟨result, hresult, hsplices⟩ :=
          insertAtPositions_splices .list hd hs hparts hparse hgiven hstored
        dsimp only
        rw [hresult]
        exact .inr hsplices

/-- The arms for packed lists, which take the values as they are stored or make
the list a general one. -/
theorem insertPacked_inserts {α : Type} (storage : Storage α)
    {insertItems : Value → Option (List α)} {insertPairwise : Value → Nat → Option (List α)}
    (hitems : ∀ {values}, insertItems xs = some values →
      List.Forall₂ StoredAs (listInsertItems xs) (values.map storage.wrap))
    (hpairwise : ∀ {n values}, insertPairwise xs n = some values → ∃ given,
      listInsertPairwise xs n = .ok given ∧ List.Forall₂ StoredAs given (values.map storage.wrap))
    {items : List α} (hd : v.isDict = false) (hs : v.isString = false)
    (hparts : v.parts = items.map fun x => (none, storage.wrap x))
    (hdata : Holds v (storage.pack items) v.parts) :
    Fails v (insertPacked storage insertItems insertPairwise items xs dsts) ∨
      Splices v xs dsts (insertPacked storage insertItems insertPairwise items xs dsts) := by
  have hlen : v.parts.length = items.length := by rw [hparts, List.length_map]
  unfold insertPacked
  cases hparse : parseInsertPositions dsts items.length with
  | error e => exact .inl ⟨e, _, rfl, hdata⟩
  | ok parsed =>
    obtain ⟨positions, several⟩ := parsed
    rw [← hlen] at hparse
    dsimp only
    cases positions with
    | nil => exact .inr (splices_nil hparse hdata)
    | cons p ps =>
      rw [List.isEmpty_cons, if_neg Bool.false_ne_true]
      cases hfast : if several then insertPairwise xs (p :: ps).length else insertItems xs with
      | some values =>
        obtain ⟨given, hgiven, hstored⟩ : ∃ given,
            insertValues xs several (p :: ps).length = .ok given ∧
              List.Forall₂ StoredAs given (values.map storage.wrap) := by
          cases several with
          | true => exact hpairwise hfast
          | false => exact ⟨_, rfl, hitems hfast⟩
        obtain ⟨result, hresult, hsplices⟩ :=
          insertAtPositions_splices storage hd hs hparts hparse hgiven hstored
        dsimp only
        rw [hresult]
        exact .inr hsplices
      | none =>
        dsimp only
        cases hgiven : insertValues xs several (p :: ps).length with
        | error e => exact .inl ⟨e, _, rfl, hdata⟩
        | ok given =>
          have hstored : List.Forall₂ StoredAs given (given.map Storage.list.wrap) := by
            rw [show given.map Storage.list.wrap = given from List.map_id given]
            exact storedAs_refl given
          have hgeneral : v.parts =
              (items.map storage.wrap).map fun x => (none, Storage.list.wrap x) := by
            rw [hparts, List.map_map]
            rfl
          obtain ⟨result, hresult, hsplices⟩ :=
            insertAtPositions_splices .list hd hs hgeneral hparse hgiven hstored
          dsimp only
          rw [hresult]
          exact .inr hsplices

end Lists

/-! ### Insertion into strings -/

/-- The text of a container is its characters. -/
theorem parts_of_text {v : Value} (hv : v.isAtom = false) {text : List Char}
    (h : Wqpl.tryToRustString v = some text) : v.isDict = false ∧
      v.parts = text.map fun c => (none, .char c) := by
  have hempty : ∀ {seq : ValueSeq}, ValueSeq.fromValue v = some seq →
      (if v.isUnit then some ([] : List Char) else none) = some text →
      v.isDict = false ∧ v.parts = text.map fun c => (none, .char c) := by
    intro seq hseq hunit
    split_ifs at hunit with hlen
    obtain rfl := Option.some.inj hunit
    unfold isUnit at hlen
    rw [Bool.and_eq_true, beq_iff_eq] at hlen
    have hzero : seq.values = [] := by
      rw [← List.length_eq_zero_iff, ValueSeq.length_values]
      have hl := hlen.2
      unfold len at hl
      rw [hseq] at hl
      exact hl
    rw [parts_of_fromValue hseq, hzero]
    exact ⟨isDict_of_fromValue hseq, rfl⟩
  cases v with
  | string s =>
    obtain rfl := Option.some.inj h
    exact ⟨rfl, Storage.string.parts_of_values rfl rfl⟩
  | list items =>
    have hchar : ∀ (x : Value) (c : Char), char? x = some c → x = .char c := fun x c hx => by
      cases x <;> cases hx
      rfl
    have hitems : items.mapM char? = some text := h
    rw [eq_map_of_mapM hchar hitems]
    refine ⟨rfl, ?_⟩
    have hseq : ValueSeq.fromValue (.list (text.map .char)) = some (.list (text.map .char)) := rfl
    rw [parts_of_fromValue hseq, ValueSeq.values, List.map_map]
    rfl
  | intList _ | intRange _ | floatList _ | boolList _ => exact hempty rfl h
  | dict entries => cases h
  | _ => cases hv

theorem stringInsertChars_ok {xs : Value} {n : Nat} {texts : List (List Char)}
    (h : stringInsertChars xs n = .ok texts) :
    ∃ chars, Wqpl.tryToRustString xs = some chars ∧ chars.length = n := by
  unfold stringInsertChars at h
  split at h
  · cases h
  · next chars hchars =>
    split_ifs at h with hcount
    exact ⟨chars, hchars, hcount⟩

theorem insertPieces_atom {v xs : Value} (hv : v.isString = true) {n : Nat}
    (hseq : listStorageSeq xs = none) {texts : List (List Char)}
    (h : (match Wqpl.tryToRustString xs with
      | some text => .ok (List.replicate n text)
      | none => .error .domain : WqResult (List (List Char))) = .ok texts) :
    insertPieces v xs true n = some (texts.map (List.map .char)) := by
  unfold insertPieces
  rw [hv, hseq]
  dsimp only
  split at h
  · next text hxs =>
    obtain rfl := Except.ok.inj h
    rw [hxs, Option.map_some, List.map_replicate]
  · cases h

/-- The texts for several positions of a string. A list is one text for each
position: as a text of its own it has other than `n` characters. -/
theorem insertPieces_of_texts {v xs : Value} (hv : v.isString = true) {n : Nat} (hn : n ≠ 0)
    {texts : List (List Char)} (h : stringInsertPairwise xs n = .ok texts) :
    insertPieces v xs true n = some (texts.map (List.map .char)) := by
  have hpacked : (∀ chars, Wqpl.tryToRustString xs = some chars → chars = []) →
      stringInsertChars xs n ≠ .ok texts := fun hnil hok => by
    obtain ⟨chars, hchars, hcount⟩ := stringInsertChars_ok hok
    rw [hnil chars hchars] at hcount
    exact hn hcount.symm
  have hunit : ∀ chars, (if xs.isUnit then some ([] : List Char) else none) = some chars →
      chars = [] := fun chars hchars => by
    split_ifs at hchars
    exact (Option.some.inj hchars).symm
  unfold stringInsertPairwise at h
  cases xs with
  | list items =>
    dsimp only at h
    split_ifs at h with hlen
    · split at h
      · next hitems =>
        obtain rfl := Except.ok.inj h
        unfold insertPieces
        rw [hv]
        show (if items.length = n then _ else _) = _
        rw [if_pos hlen, mapM_map, hitems]
        rfl
      · cases h
    · obtain ⟨chars, hchars, hcount⟩ := stringInsertChars_ok h
      exact absurd ((length_of_mapM (show items.mapM char? = some chars from hchars)).symm.trans
        hcount) hlen
  | intList _ | intRange _ | floatList _ | boolList _ => exact absurd h (hpacked hunit)
  | _ => exact insertPieces_atom hv rfl h

theorem insertStringInPlace_inserts {v data xs : Value} {dsts : Option Value}
    (hv : v.isAtom = false) (hdata : Holds v data v.parts) (hs : v.isString = true)
    (htext : Wqpl.tryToRustString data = Wqpl.tryToRustString v) :
    Fails v (insertStringInPlace data dsts xs) ∨
      Splices v xs dsts (insertStringInPlace data dsts xs) := by
  unfold insertStringInPlace
  rw [htext]
  cases hchars : Wqpl.tryToRustString v with
  | none => exact .inl ⟨_, _, rfl, hdata⟩
  | some chars =>
    obtain ⟨hd, hparts⟩ := parts_of_text hv hchars
    have hlen : v.parts.length = chars.length := by rw [hparts, List.length_map]
    have hsplice : ∀ {positions : List Nat} {texts : List (List Char)},
        Holds v (intoWqString (insertStringChunks chars (positions.zip texts)))
          (splice 0 v.parts (positions.zip ((texts.map (List.map .char)).map
            (List.map fun x => (none, x))))) := by
      intro positions texts
      have hholds := Storage.string.holds_pack hd (insertStringChunks chars (positions.zip texts))
      have hops : (positions.zip ((texts.map (List.map Value.char)).map
          (List.map fun x => ((none : Option String), x)))) =
          (positions.zip texts).map fun op =>
            (op.1, op.2.map fun c => (none, Storage.string.wrap c)) := by
        rw [List.map_map, List.zip_map_right]
        refine List.map_congr_left fun op _ => ?_
        show (op.1, (op.2.map Value.char).map fun x => ((none : Option String), x)) = _
        rw [List.map_map]
        rfl
      unfold insertStringChunks at hholds ⊢
      rw [insertSorted_eq] at hholds ⊢
      rw [map_splice, ← hops] at hholds
      rw [hparts]
      exact hholds
    dsimp only
    cases hparse : parseInsertPositions dsts chars.length with
    | error e => exact .inl ⟨e, _, rfl, hdata⟩
    | ok parsed =>
      obtain ⟨positions, several⟩ := parsed
      rw [← hlen] at hparse
      dsimp only
      cases positions with
      | nil => exact .inr (splices_nil hparse hdata)
      | cons p ps =>
        rw [List.isEmpty_cons, if_neg Bool.false_ne_true]
        cases several with
        | true =>
          rw [if_pos rfl]
          cases htexts : stringInsertPairwise xs (p :: ps).length with
          | error e => exact .inl ⟨e, _, rfl, hdata⟩
          | ok texts =>
            have hpieces := insertPieces_of_texts hs (by simp) htexts
            refine .inr ⟨_, _, _, _, hparse, fun _ => ⟨_, hpieces, ?_⟩, rfl, hsplice⟩
            exact List.forall₂_same.mpr fun _ _ => storedAs_refl _
        | false =>
          obtain ⟨idx, hidx⟩ := parseInsertPositions_single hparse
          obtain ⟨rfl, rfl⟩ := List.cons.inj hidx
          rw [if_neg Bool.false_ne_true]
          cases hxs : Wqpl.tryToRustString xs with
          | none => exact .inl ⟨_, _, rfl, hdata⟩
          | some text =>
            have hpieces : insertPieces v xs false 1 = some ([text].map (List.map .char)) := by
              unfold insertPieces
              rw [hs, hxs]
              rfl
            refine .inr ⟨_, _, _, _, hparse, fun _ => ⟨_, hpieces, ?_⟩, rfl, @hsplice [p] [text]⟩
            exact List.forall₂_same.mpr fun _ _ => storedAs_refl _

/-! ### Insertion into dictionaries -/

/-- The names in the values of an insertion are different. -/
def UniqueDestinations (dsts : Option Value) : Prop := ∀ key, dsts = some key → UniqueKeys key

theorem zip_fst_sublist {α β : Type} : ∀ (xs : List α) (ys : List β),
    List.Sublist ((xs.zip ys).map Prod.fst) xs
  | [], _ => .slnil
  | _ :: _, [] => List.nil_sublist _
  | x :: xs, _ :: ys => (zip_fst_sublist xs ys).cons_cons x

theorem zip_snd_sublist {α β : Type} : ∀ (xs : List α) (ys : List β),
    List.Sublist ((xs.zip ys).map Prod.snd) ys
  | [], _ => List.nil_sublist _
  | _ :: _, [] => .slnil
  | _ :: xs, y :: ys => (zip_snd_sublist xs ys).cons_cons y

/-- The keys of the destinations are those of their dictionary. -/
theorem dictInsertDestinations_keys {ds : List (String × Value)} {len : Nat}
    {destinations : List (Nat × String)} (h : dictInsertDestinations ds len = .ok destinations) :
    destinations.map Prod.snd = ds.map Prod.fst := by
  unfold dictInsertDestinations at h
  dsimp only at h
  split at h
  · next hread =>
    obtain rfl := Except.ok.inj h
    have hall := mapM_some hread
    clear hread h
    induction hall with
    | nil => rfl
    | cons he _ ih =>
      obtain ⟨i, -, he⟩ := Option.bind_eq_some_iff.mp he
      obtain ⟨p, -, he⟩ := Option.bind_eq_some_iff.mp he
      rw [List.map_cons, List.map_cons, ih, ← congrArg Prod.snd (Option.some.inj he)]
  · cases h

/-- The keys of the entries for a dictionary are different. -/
theorem nodup_dictInsertOps {len : Nat} {xs : Value} {dsts : Option Value}
    (hxs : UniqueKeys xs) (hdsts : UniqueDestinations dsts) {ops : List (Nat × String × Value)}
    (h : dictInsertOps len xs dsts = .ok ops) : (ops.map (·.2.1)).Nodup := by
  unfold dictInsertOps at h
  split at h
  · next ds =>
    obtain ⟨destinations, hdest, h⟩ := ok_of_bind h
    have hnodup : (destinations.map Prod.snd).Nodup := by
      rw [dictInsertDestinations_keys hdest]
      exact hdsts _ rfl ds rfl
    split_ifs at h
    · obtain rfl := Except.ok.inj h
      exact List.nodup_nil
    · obtain ⟨values, -, h⟩ := ok_of_bind h
      obtain rfl := Except.ok.inj h
      have hkeys : ((destinations.zip values).map fun e => (e.1.1, e.1.2, e.2)).map (·.2.1) =
          ((destinations.zip values).map Prod.fst).map Prod.snd := by
        rw [List.map_map, List.map_map]
        rfl
      refine hnodup.sublist ?_
      show List.Sublist (((destinations.zip values).map fun e => (e.1.1, e.1.2, e.2)).map (·.2.1)) _
      rw [hkeys]
      exact (zip_fst_sublist destinations values).map Prod.snd
  · obtain ⟨⟨positions, several⟩, -, h⟩ := ok_of_bind h
    cases positions with
    | nil =>
      obtain rfl := Except.ok.inj h
      exact List.nodup_nil
    | cons p ps =>
      dsimp only at h
      split_ifs at h
      · obtain ⟨entries, hentries, h⟩ := ok_of_bind h
        obtain rfl := Except.ok.inj h
        have hunique : (entries.map Prod.fst).Nodup := by
          unfold dictInsertEntries at hentries
          split at hentries
          · split_ifs at hentries
            obtain rfl := Except.ok.inj hentries
            exact hxs _ rfl
          · cases hentries
        have hkeys : (((p :: ps).zip entries).map fun e => (e.1, e.2.1, e.2.2)).map (·.2.1) =
            (((p :: ps).zip entries).map Prod.snd).map Prod.fst := by
          rw [List.map_map, List.map_map]
          rfl
        refine hunique.sublist ?_
        show List.Sublist ((((p :: ps).zip entries).map fun e => (e.1, e.2.1, e.2.2)).map (·.2.1)) _
        rw [hkeys]
        exact (zip_snd_sublist (p :: ps) entries).map Prod.fst
      · split at h
        · obtain rfl := Except.ok.inj h
          rw [List.map_map]
          exact hxs _ rfl
        · cases h

/-- The arm for dictionaries inserts exactly what fits. -/
theorem insertDict_inserts_iff {entries : List (String × Value)} {xs : Value} {dsts : Option Value}
    (hnodup : (entries.map Prod.fst).Nodup) (hxs : UniqueKeys xs)
    (hdsts : UniqueDestinations dsts) :
    Inserts (.dict entries) xs dsts (insertDict entries xs dsts) ↔
      InsertFits (.dict entries) xs dsts := by
  unfold insertDict
  cases hops : dictInsertOps entries.length xs dsts with
  | error e =>
    refine iff_of_true (.inl ⟨e, _, rfl, Holds.refl rfl⟩) fun entries' ops he ho => ?_
    obtain rfl := Value.dict.inj he
    rw [hops] at ho
    cases ho
  | ok ops =>
    have hperm : (sortByPosition ops).Perm ops := List.mergeSort_perm ops _
    have hkeys : ((sortByPosition ops).map (·.2.1)).Nodup :=
      (hperm.map _).nodup_iff.mpr (nodup_dictInsertOps hxs hdsts hops)
    have hiff := IndexMap.shiftInsertMany_placed_iff hnodup hkeys (pairwise_sortByPosition ops)
    have hfits : InsertFits (.dict entries) xs dsts ↔
        IndexMap.InsertionsFit 0 entries (sortByPosition ops) := by
      constructor
      · exact fun h => h entries ops rfl hops
      · intro h entries' ops' he ho
        obtain rfl := Value.dict.inj he
        rw [hops] at ho
        obtain rfl := Except.ok.inj ho
        exact h
    rw [hfits, ← hiff]
    dsimp only
    unfold dictShiftInsertMany
    cases hr : IndexMap.shiftInsertMany entries 0 (sortByPosition ops) with
    | none =>
      constructor
      · rintro (⟨e, rest, hfail, -⟩ | ⟨_, _, _, hok, -⟩)
        · cases hfail
        · cases hok
      · rintro ⟨r, hsome, -⟩
        cases hsome
    | some r =>
      constructor
      · rintro (⟨e, rest, hfail, -⟩ | ⟨ops', r', ho, hok, hplaced⟩)
        · cases hfail
        · rw [hops] at ho
          obtain rfl := Except.ok.inj ho
          obtain ⟨hok, -⟩ := Prod.mk.inj (Option.some.inj hok)
          obtain rfl := Value.dict.inj (Except.ok.inj hok)
          exact ⟨r, rfl, hplaced⟩
      · rintro ⟨r', hsome, hplaced⟩
        obtain rfl := Option.some.inj hsome
        exact .inr ⟨ops, r, hops, rfl, hplaced⟩

/-! ### Insertion -/

/-- A target that is no dictionary is spliced. -/
theorem insertInPlace_list {v xs : Value} {dsts : Option Value} (hv : v.isAtom = false)
    (hd : v.isDict = false) :
    Fails v (v.insertInPlace xs dsts) ∨ Splices v xs dsts (v.insertInPlace xs dsts) := by
  have hdata := holds_materialize hv
  have hsame : (materializeIntRange v).isString = v.isString := by
    cases v with
    | intRange range =>
      show ((Value.intList range.toVec).isList && range.toVec.length == 0) = _
      rw [IntRangeData.length_toVec]
      rfl
    | _ => rfl
  have htext : Wqpl.tryToRustString (materializeIntRange v) = Wqpl.tryToRustString v := by
    cases v with
    | intRange range =>
      show (if ((Value.intList range.toVec).isList && range.toVec.length == 0) = true then
        some [] else none) = _
      rw [IntRangeData.length_toVec]
      rfl
    | _ => rfl
  unfold insertInPlace
  dsimp only
  rw [hsame]
  cases hs : v.isString with
  | true =>
    rw [if_pos rfl]
    exact insertStringInPlace_inserts hv hdata hs htext
  | false =>
    rw [if_neg Bool.false_ne_true]
    cases v with
    | list items => exact insertList_inserts rfl hs
    | intList items =>
      exact insertPacked_inserts .int exactIntInsertItems_stored exactIntInsertPairwise_stored rfl hs
        (Storage.int.parts_of_values rfl rfl) hdata
    | intRange range =>
      exact insertPacked_inserts .int exactIntInsertItems_stored exactIntInsertPairwise_stored rfl hs
        (Storage.int.parts_of_values rfl rfl) hdata
    | boolList items =>
      refine insertPacked_inserts .bool (fun h => ?_) (fun h => ⟨_, takes_bool.pairwise h, ?_⟩) rfl hs
        (Storage.bool.parts_of_values rfl rfl) hdata
      · rw [takes_bool.items h]
        exact storedAs_refl _
      · exact storedAs_refl _
    | floatList items =>
      refine insertPacked_inserts .float (fun h => ?_) (fun h => ⟨_, takes_float.pairwise h, ?_⟩) rfl
        hs (Storage.float.parts_of_values rfl rfl) hdata
      · rw [takes_float.items h]
        exact storedAs_refl _
      · exact storedAs_refl _
    | string s => cases hs
    | dict entries => cases hd
    | _ => cases hv

/-- **An insertion fails or splices, where its entries fit.** For a list or a
string it always does. For a dictionary it does exactly if every position is
among the entries that are left when the keys inserted so far are taken out, and
no key that is there lies before the insertion before it. -/
theorem insertInPlace_inserts_iff {v xs : Value} {dsts : Option Value} (hv : v.isAtom = false)
    (hkeys : UniqueKeys v) (hxs : UniqueKeys xs) (hdsts : UniqueDestinations dsts) :
    Inserts v xs dsts (v.insertInPlace xs dsts) ↔ InsertFits v xs dsts := by
  cases hd : v.isDict with
  | true =>
    obtain ⟨entries, rfl⟩ := exists_dict hd
    exact insertDict_inserts_iff (hkeys entries rfl) hxs hdsts
  | false =>
    have hlist := @insertInPlace_list v xs dsts hv hd
    have hfits : InsertFits v xs dsts := fun entries ops he => by
      rw [he] at hd
      cases hd
    refine iff_of_true ?_ hfits
    cases v with
    | dict entries => cases hd
    | _ => exact hlist

/-- A key that is there already is moved to the front. -/
theorem insertInPlace_inserts_front :
    Inserts (.dict [("a", .int 1), ("b", .int 2)]) (.dict [("b", .int 3)]) (some (.int 0))
      ((Value.dict [("a", .int 1), ("b", .int 2)]).insertInPlace (.dict [("b", .int 3)])
        (some (.int 0))) := by
  have hunique : ∀ {es : List (String × Value)}, (es.map Prod.fst).Nodup →
      UniqueKeys (.dict es) := fun h es' he => Value.dict.inj he ▸ h
  refine (insertInPlace_inserts_iff rfl (hunique (by decide)) (hunique (by decide)) ?_).mpr ?_
  · intro key hkey es he
    obtain rfl := Option.some.inj hkey
    cases he
  · intro entries ops he ho
    obtain rfl := Value.dict.inj he
    obtain rfl : [(0, "b", .int 3)] = ops := Except.ok.inj ho
    unfold sortByPosition
    rw [List.mergeSort_singleton]
    refine ⟨by decide, by decide, trivial⟩

/-- The only entry of a dictionary inserted again behind itself panics. -/
theorem insertInPlace_own_key :
    ¬Inserts (.dict [("a", .int 1)]) (.dict [("a", .int 2)]) (some (.int 1))
      ((Value.dict [("a", .int 1)]).insertInPlace (.dict [("a", .int 2)]) (some (.int 1))) := by
  have hpanic : (Value.dict [("a", .int 1)]).insertInPlace (.dict [("a", .int 2)])
      (some (.int 1)) = none := by
    show (dictShiftInsertMany [("a", .int 1)] [(1, "a", .int 2)]).bind _ = none
    unfold dictShiftInsertMany sortByPosition
    rw [List.mergeSort_singleton]
    rfl
  rw [hpanic]
  rintro (⟨e, rest, hfail, -⟩ | ⟨ops, r, -, hok, -⟩)
  · cases hfail
  · cases hok

end Value

end Wqpl
