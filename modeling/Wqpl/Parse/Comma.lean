/-
# List literals joined by commas

The parser joins what stands between commas to a concatenation; where all of it
is list literals it makes one literal of all their items instead. That is the
concatenation of the literals' values unless one of them holds characters only
and another does not: a string is a single item next to another list, and its
characters are items of the merged literal (`eq_catMany_iff`). It is the repeated
concatenation of two where, besides, no packed list is nested (`eq_catFold_iff`).

Key definitions: `AstNode`, `commaNode`, `eval`, `Mixes`.
-/
import Wqpl.Concat

namespace Wqpl

namespace Comma

open Value

/-! ### Values of literals -/

/-- A literal holds characters only, at least one, and another one does not. -/
def Mixes (literals : List (List Value)) : Prop :=
  (∃ items ∈ literals, items ≠ [] ∧ items.all isChar = true) ∧
    ∃ items ∈ literals, items.all isChar = false

section Literals

variable {items : List Value} {cs : List Char}

theorem foldl_push_string (cs : List Char) : ∀ acc : List Char,
    (cs.map Value.char).foldl ValueSeqBuilder.push (.string acc) = .string (acc ++ cs) := by
  induction cs with
  | nil => exact fun acc => congrArg ValueSeqBuilder.string (List.append_nil acc).symm
  | cons c cs ih =>
    intro acc
    rw [List.map_cons, List.foldl_cons, ValueSeqBuilder.push, ih, List.append_assoc]
    rfl

/-- Characters make a string. -/
theorem fromItems_chars (h : cs ≠ []) : fromItems (cs.map .char) = intoWqString cs := by
  cases cs with
  | nil => exact absurd rfl h
  | cons c cs =>
    rw [fromItems, List.map_cons, List.foldl_cons, ValueSeqBuilder.push, foldl_push_string]
    rfl

/-- Other items make a list with these items. -/
theorem listStorageSeq_fromItems (h : ¬(items ≠ [] ∧ items.all isChar = true)) :
    listStorageSeq (fromItems items) = some items := by
  have hvalues := fromItems_values items
  cases hv : fromItems items with
  | list xs | intList xs | intRange range | floatList xs | boolList xs =>
    rw [hv] at hvalues
    exact hvalues
  | string s =>
    rw [hv] at hvalues
    have hchars : s.toList.map .char = items := Option.some.inj hvalues
    refine absurd ⟨?_, ?_⟩ h
    · rintro rfl
      cases hv
    · rw [← hchars]
      simp [isChar]
  | _ =>
    rw [hv] at hvalues
    cases hvalues

theorem fromItems_cases (items : List Value) :
    (∃ cs, cs ≠ [] ∧ items = cs.map .char ∧ fromItems items = intoWqString cs) ∨
      listStorageSeq (fromItems items) = some items ∧ (items.all isChar = true → items = []) := by
  by_cases h : items ≠ [] ∧ items.all isChar = true
  · obtain ⟨hne, hall⟩ := h
    obtain ⟨cs, rfl⟩ := exists_chars (List.all_eq_true.mp hall)
    have hcs : cs ≠ [] := fun hnil => hne (by rw [hnil, List.map_nil])
    exact .inl ⟨cs, hcs, rfl, fromItems_chars hcs⟩
  · refine .inr ⟨listStorageSeq_fromItems h, fun hall => ?_⟩
    by_contra hne
    exact h ⟨hne, hall⟩

theorem canon_fromItems (items : List Value) :
    canon (fromItems items) = .list (canonItems items) := by
  obtain ⟨seq, hseq, hvalues⟩ := Option.map_eq_some_iff.mp (fromItems_values items)
  rw [canon_of_fromValue hseq, hvalues]

theorem isString_of_loose {v : Value} (h : listStorageSeq v = some items) (hl : Loose items) :
    v.isString = false := by
  rw [Bool.eq_false_iff]
  intro hs
  obtain ⟨x, hx, hchar⟩ := hl
  rw [items_of_isString h hs] at hx
  obtain ⟨c, -, rfl⟩ := List.mem_map.mp hx
  cases hchar

theorem loose_of_all (h : items.all isChar = false) : Loose items := by
  rw [List.all_eq_false] at h
  obtain ⟨x, hx, hchar⟩ := h
  exact ⟨x, hx, Bool.eq_false_iff.mpr hchar⟩

/-- The value of a literal is a string where all items are characters. -/
theorem isString_fromItems (items : List Value) :
    (fromItems items).isString = items.all isChar := by
  obtain ⟨cs, -, rfl, hv⟩ | ⟨hv, hnil⟩ := fromItems_cases items
  · rw [hv]
    exact (List.all_eq_true.mpr fun x hx => by
      obtain ⟨c, -, rfl⟩ := List.mem_map.mp hx
      rfl).symm
  · cases hall : items.all isChar with
    | true =>
      rw [hnil hall]
      rfl
    | false => exact isString_of_loose hv (loose_of_all hall)

end Literals

/-! ### Characters among the items -/

/-- The characters of a literal that keep their places as items. -/
def looseChars (items : List Value) : Nat :=
  if items.all isChar then 0 else items.countP isChar

theorem looseChars_le (items : List Value) : looseChars items ≤ items.countP isChar := by
  unfold looseChars
  by_cases h : items.all isChar = true
  · rw [if_pos h]
    exact Nat.zero_le _
  · rw [if_neg h]

/-- The characters of a list are not counted where it is an item. -/
theorem countP_le_looseChars {items : List Value} (h : items.all isChar = true → items = []) :
    items.countP isChar ≤ looseChars items := by
  unfold looseChars
  by_cases hall : items.all isChar = true
  · rw [if_pos hall, h hall, List.countP_nil]
  · rw [if_neg hall]

section Fold

variable {a v : Value} {xs ys items : List Value} {cs : List Char}

/-- A string is an item behind another list. -/
theorem cat_text_right (ha : listStorageSeq a = some xs) (hl : Loose xs) (cs : List Char) :
    cat a (intoWqString cs) = .list (xs ++ [intoWqString cs]) := by
  rw [cat_of_not_strings (by rw [isString_of_loose ha hl, Bool.false_and])]
  cases a with
  | list items | intList items | intRange range | floatList items | boolList items =>
    obtain rfl := Option.some.inj ha
    rfl
  | _ => cases ha

/-- A list that is no string takes the characters of another list at most. -/
theorem cat_lists (ha : listStorageSeq a = some xs) (hl : Loose xs)
    (hv : listStorageSeq v = some ys) : ∃ zs, listStorageSeq (cat a v) = some zs ∧ Loose zs ∧
      zs.countP isChar ≤ xs.countP isChar + ys.countP isChar := by
  have hs : (a.isString && v.isString) = false := by
    rw [isString_of_loose ha hl, Bool.false_and]
  have hspliced : ∃ zs, some (xs ++ ys) = some zs ∧ Loose zs ∧
      zs.countP isChar ≤ xs.countP isChar + ys.countP isChar :=
    ⟨_, rfl, hl.append, by rw [List.countP_append]⟩
  have hsa : IsStorage a := by rw [IsStorage, ha]; rfl
  have hsv : IsStorage v := by rw [IsStorage, hv]; rfl
  obtain ⟨ys', rfl⟩ | ⟨l, hkl⟩ := storage_cases hsv
  · obtain rfl := Option.some.inj hv
    rw [cat_list_right ha hs]
    exact hspliced
  obtain ⟨xs', rfl⟩ | ⟨k, hk⟩ := storage_cases hsa
  · obtain rfl := Option.some.inj ha
    rw [cat_list_left hv hs]
    exact hspliced
  by_cases heq : k = l
  · rw [(cat_same_kind hk (heq ▸ hkl) hs).2, storageItems_of ha, storageItems_of hv]
    exact hspliced
  · -- one of the lists is an item, and no character
    rcases cat_nests hk hkl heq hs with hcat | hcat
    · rw [hcat, storageItems_of ha]
      refine ⟨_, rfl, hl.append, ?_⟩
      rw [List.countP_append, List.countP_singleton, not_isChar_of_packedKind hkl,
        if_neg Bool.false_ne_true]
      omega
    · rw [hcat, storageItems_of hv]
      refine ⟨_, rfl, ⟨a, List.mem_cons_self, not_isChar_of_packedKind hk⟩, ?_⟩
      rw [List.countP_cons, not_isChar_of_packedKind hk, if_neg Bool.false_ne_true]
      omega

theorem cat_literal (ha : listStorageSeq a = some xs) (hl : Loose xs) (items : List Value) :
    ∃ zs, listStorageSeq (cat a (fromItems items)) = some zs ∧ Loose zs ∧
      zs.countP isChar ≤ xs.countP isChar + looseChars items := by
  obtain ⟨cs, -, -, hv⟩ | ⟨hv, hnil⟩ := fromItems_cases items
  · rw [hv, cat_text_right ha hl]
    refine ⟨_, rfl, hl.append, ?_⟩
    rw [List.countP_append]
    exact Nat.add_le_add_left (Nat.zero_le _) _
  · obtain ⟨zs, hzs, hloose, hle⟩ := cat_lists ha hl hv
    exact ⟨zs, hzs, hloose, hle.trans (Nat.add_le_add_left (countP_le_looseChars hnil) _)⟩

theorem foldl_cat_literals {literals : List (List Value)} (ha : listStorageSeq a = some xs)
    (hl : Loose xs) : ∃ zs, listStorageSeq ((literals.map fromItems).foldl cat a) = some zs ∧
      zs.countP isChar ≤ xs.countP isChar + (literals.map looseChars).sum := by
  induction literals generalizing a xs with
  | nil => exact ⟨xs, ha, Nat.le_refl _⟩
  | cons items literals ih =>
    obtain ⟨ys, hys, hloose, hle⟩ := cat_literal ha hl items
    obtain ⟨zs, hzs, hcount⟩ := ih hys hloose
    refine ⟨zs, hzs, ?_⟩
    rw [List.map_cons, List.sum_cons]
    omega

theorem storage_of_all (h : items.all isChar = false) :
    listStorageSeq (fromItems items) = some items :=
  listStorageSeq_fromItems fun htext => by
    rw [h] at htext
    cases htext.2

/-- The first literal with other items makes a list of the text before it. -/
theorem cat_text_literal (ha : IsText cs a) (h : items.all isChar = false) :
    ∃ zs, listStorageSeq (cat a (fromItems items)) = some zs ∧ Loose zs ∧
      zs.countP isChar ≤ looseChars items := by
  have hv := storage_of_all h
  have hl := loose_of_all h
  have hs := isString_of_loose hv hl
  have hcount : items.countP isChar ≤ looseChars items :=
    countP_le_looseChars fun hall => by
      rw [h] at hall
      cases hall
  rcases ha with rfl | ⟨-, rfl⟩
  · rw [cat_string_list hv hs]
    exact ⟨_, rfl, @Loose.prepend [_] items hl, hcount⟩
  · rw [show Value.emptyList = .list [] from rfl, cat_list_left hv (by rw [hs, Bool.and_false])]
    exact ⟨_, rfl, hl, hcount⟩

theorem foldl_cat_text {literals : List (List Value)} (ha : IsText cs a)
    (h : ∃ items ∈ literals, items.all isChar = false) :
    ∃ zs, listStorageSeq ((literals.map fromItems).foldl cat a) = some zs ∧
      zs.countP isChar ≤ (literals.map looseChars).sum := by
  induction literals generalizing a cs with
  | nil => simp at h
  | cons items literals ih =>
    rw [List.map_cons, List.foldl_cons, List.map_cons, List.sum_cons]
    cases hall : items.all isChar with
    | false =>
      obtain ⟨ys, hys, hloose, hle⟩ := cat_text_literal ha hall
      obtain ⟨zs, hzs, hcount⟩ := @foldl_cat_literals _ _ literals hys hloose
      exact ⟨zs, hzs, hcount.trans (Nat.add_le_add_right hle _)⟩
    | true =>
      have hcat := isText_cat ha.isString ((isString_fromItems items).trans hall)
      obtain ⟨y, hy, hchar⟩ := h
      have hrest : y ∈ literals := (List.mem_cons.mp hy).resolve_left fun heq => by
        rw [heq, hall] at hchar
        cases hchar
      obtain ⟨zs, hzs, hle⟩ := ih hcat ⟨y, hrest, hchar⟩
      exact ⟨zs, hzs, hle.trans (Nat.le_add_left _ _)⟩

/-- A literal of characters is text. -/
theorem exists_isText (h : items.all isChar = true) : ∃ cs, IsText cs (fromItems items) := by
  obtain ⟨cs, -, -, hv⟩ | ⟨-, hnil⟩ := fromItems_cases items
  · exact ⟨cs, .inl hv⟩
  · exact ⟨[], .inr ⟨rfl, by rw [hnil h]; rfl⟩⟩

/-- Among literals with other items, the repeated concatenation has the characters of these
literals only. -/
theorem catFold_le {literals : List (List Value)}
    (h : ∃ items ∈ literals, items.all isChar = false) :
    ∃ zs, listStorageSeq (catFold (literals.map fromItems)) = some zs ∧
      zs.countP isChar ≤ (literals.map looseChars).sum := by
  cases literals with
  | nil => simp at h
  | cons items literals =>
    rw [List.map_cons, catFold, List.map_cons, List.sum_cons]
    cases hall : items.all isChar with
    | true =>
      obtain ⟨cs, htext⟩ := exists_isText hall
      obtain ⟨y, hy, hchar⟩ := h
      have hrest : y ∈ literals := (List.mem_cons.mp hy).resolve_left fun heq => by
        rw [heq, hall] at hchar
        cases hchar
      obtain ⟨zs, hzs, hle⟩ := foldl_cat_text htext ⟨y, hrest, hchar⟩
      exact ⟨zs, hzs, hle.trans (Nat.le_add_left _ _)⟩
    | false =>
      obtain ⟨zs, hzs, hle⟩ := foldl_cat_literals (storage_of_all hall) (loose_of_all hall)
      have hcount : items.countP isChar ≤ looseChars items :=
        countP_le_looseChars fun h => by
          rw [hall] at h
          cases h
      exact ⟨zs, hzs, hle.trans (Nat.add_le_add_right hcount _)⟩

end Fold

/-! ### Merged literals and concatenated ones -/

section Merged

variable {literals : List (List Value)}

theorem isChar_canon (v : Value) : (canon v).isChar = v.isChar := by
  cases v with
  | bigInt n =>
    show (canonAtom (.bigInt n)).isChar = false
    rcases canonAtom_bigInt n with ⟨m, -, h⟩ | ⟨-, h⟩
    · rw [h]
      rfl
    · rw [h]
      rfl
  | _ => rfl

theorem countP_canonItems (items : List Value) :
    (canonItems items).countP isChar = items.countP isChar := by
  rw [canonItems_eq, List.countP_map]
  exact List.countP_congr fun v _ => by rw [Function.comp_apply, isChar_canon]

theorem sum_looseChars_le (literals : List (List Value)) :
    (literals.map looseChars).sum ≤ literals.flatten.countP isChar := by
  induction literals with
  | nil => exact Nat.le_refl _
  | cons items literals ih =>
    rw [List.map_cons, List.sum_cons, List.flatten_cons, List.countP_append]
    exact Nat.add_le_add (looseChars_le items) ih

theorem sum_looseChars_lt (h : ∃ items ∈ literals, items ≠ [] ∧ items.all isChar = true) :
    (literals.map looseChars).sum < literals.flatten.countP isChar := by
  induction literals with
  | nil => simp at h
  | cons items literals ih =>
    rw [List.map_cons, List.sum_cons, List.flatten_cons, List.countP_append]
    obtain ⟨y, hy, hne, hall⟩ := h
    rcases List.mem_cons.mp hy with rfl | hy
    · have hlen : y.countP isChar = y.length := List.countP_eq_length.mpr (List.all_eq_true.mp hall)
      have hpos : 0 < y.length := List.length_pos_iff.mpr hne
      have hzero : looseChars y = 0 := if_pos hall
      have := sum_looseChars_le literals
      omega
    · have := ih ⟨y, hy, hne, hall⟩
      have := looseChars_le items
      omega

/-- Where literals of characters and others mix, the merged literal has more characters. -/
theorem ne_catFold_of_mixes (h : Mixes literals) :
    canon (fromItems literals.flatten) ≠ canon (catFold (literals.map fromItems)) := by
  obtain ⟨zs, hzs, hle⟩ := catFold_le h.2
  rw [canon_fromItems, canon_storage hzs, Ne, Value.list.injEq]
  intro heq
  have hcount := congrArg (List.countP isChar) heq
  rw [countP_canonItems, countP_canonItems] at hcount
  have := sum_looseChars_lt h.1
  omega

theorem spliced_literals (h : ∀ items ∈ literals, IsStorage (fromItems items)) :
    spliced (literals.map fromItems) = literals.flatten := by
  induction literals with
  | nil => rfl
  | cons items literals ih =>
    have hv : storageItems (fromItems items) = items := by
      obtain ⟨cs, -, -, hv⟩ | ⟨hv, -⟩ := fromItems_cases items
      · have := h items List.mem_cons_self
        rw [hv] at this
        cases this
      · exact storageItems_of hv
    rw [List.map_cons, spliced_cons, hv, List.flatten_cons,
      ih fun y hy => h y (List.mem_cons_of_mem items hy)]

theorem charsOf_fromItems {items : List Value} (h : items.all isChar = true) :
    (charsOf (fromItems items)).map .char = items := by
  obtain ⟨cs, -, rfl, hv⟩ | ⟨-, hnil⟩ := fromItems_cases items
  · rw [hv, charsOf_string]
  · rw [hnil h]
    rfl

theorem charsOf_literals (h : ∀ items ∈ literals, items.all isChar = true) :
    (((literals.map fromItems).map charsOf).flatten).map .char = literals.flatten := by
  induction literals with
  | nil => rfl
  | cons items literals ih =>
    rw [List.map_cons, List.map_cons, List.flatten_cons, List.map_append, List.flatten_cons,
      charsOf_fromItems (h items List.mem_cons_self),
      ih fun y hy => h y (List.mem_cons_of_mem items hy)]

/-- Literals of characters only make their text. -/
theorem catFold_text (h : ∀ items ∈ literals, items.all isChar = true) :
    canon (catFold (literals.map fromItems)) = .list (canonItems literals.flatten) := by
  cases literals with
  | nil => rfl
  | cons items literals =>
    obtain ⟨cs, htext⟩ := exists_isText (h items List.mem_cons_self)
    have hrest : ∀ v ∈ literals.map fromItems, v.isString = true := fun v hv => by
      obtain ⟨y, hy, rfl⟩ := List.mem_map.mp hv
      exact (isString_fromItems y).trans (h y (List.mem_cons_of_mem items hy))
    have hall := charsOf_literals h
    rw [List.map_cons, List.map_cons, List.flatten_cons, htext.charsOf] at hall
    rw [List.map_cons, catFold, (isText_foldl htext hrest).canon, hall]

/-- Without mixing, all literals are lists that are no text, or all of them are. -/
theorem not_mixes_cases (h : ¬Mixes literals) :
    (∀ items ∈ literals, IsStorage (fromItems items)) ∨
      ∀ items ∈ literals, items.all isChar = true := by
  by_cases hall : ∀ items ∈ literals, items.all isChar = true
  · exact .inr hall
  · push Not at hall
    obtain ⟨other, hother, hchar⟩ := hall
    refine .inl fun items hitems => ?_
    rw [IsStorage, listStorageSeq_fromItems fun htext => ?_]
    · rfl
    · exact h ⟨⟨items, hitems, htext⟩, other, hother, Bool.eq_false_iff.mpr hchar⟩

/-- The literals that are no text do not make a string, as only the empty one is one. -/
theorem stringRun_literals (h : ∀ items ∈ literals, IsStorage (fromItems items)) :
    stringRun (literals.map fromItems) = false := by
  have hany : ((literals.map fromItems).takeWhile isString).any (! ·.isUnit) = false := by
    rw [List.any_eq_false]
    intro v hv
    have hs : v.isString = true := List.mem_takeWhile_imp hv
    obtain ⟨items, hitems, rfl⟩ := List.mem_map.mp ((List.takeWhile_sublist _).mem hv)
    obtain ⟨cs, -, -, hfrom⟩ | ⟨hfrom, hnil⟩ := fromItems_cases items
    · have := h items hitems
      rw [hfrom] at this
      cases this
    · have hunit := (isUnit_iff hfrom).mpr (hnil ((isString_fromItems items).symm.trans hs))
      rw [hunit]
      exact Bool.false_ne_true
  unfold stringRun
  dsimp only
  rw [hany, Bool.and_false, Bool.false_and]

end Merged

/-- The values of text literals are no packed lists. -/
theorem mixedRun_text {literals : List (List Value)}
    (h : ∀ items ∈ literals, items.all isChar = true) :
    mixedRun (literals.map fromItems) = false := by
  match literals with
  | [] => rfl
  | [_] => rfl
  | items :: items' :: literals =>
    have hnone : packedKind (fromItems items) = none := by
      obtain ⟨cs, -, -, hv⟩ | ⟨-, hnil⟩ := fromItems_cases items
      · rw [hv]
        rfl
      · rw [hnil (h items List.mem_cons_self)]
        rfl
    rw [List.map_cons, List.map_cons, mixedRun, hnone]
    exact Bool.and_false _

/-- **Repeated concatenation.** The merged literal is the repeated concatenation of the
literals unless they mix or a packed list is nested. -/
theorem eq_catFold_iff (literals : List (List Value)) :
    (fromItems literals.flatten).eq (catFold (literals.map fromItems)) = true ↔
      ¬Mixes literals ∧ mixedRun (literals.map fromItems) = false := by
  rw [eq_iff]
  by_cases hmix : Mixes literals
  · exact iff_of_false (ne_catFold_of_mixes hmix) fun h => h.1 hmix
  rw [and_iff_right hmix, canon_fromItems]
  rcases not_mixes_cases hmix with hstorage | htext
  · have hvs : ∀ v ∈ literals.map fromItems, IsStorage v := fun v hv => by
      obtain ⟨items, hitems, rfl⟩ := List.mem_map.mp hv
      exact hstorage items hitems
    match literals with
    | [] => exact iff_of_true rfl rfl
    | [items] =>
      refine iff_of_true ?_ rfl
      rw [List.map_cons, List.map_nil, List.flatten_singleton]
      exact (canon_fromItems items).symm
    | items :: items' :: literals =>
      have hfold := @catFold_iff (literals.map fromItems) (fromItems items) (fromItems items') hvs
      have hrun := stringRun_literals hstorage
      rw [← List.map_cons, ← List.map_cons, spliced_literals hstorage, hrun, and_iff_right rfl,
        eq_comm] at hfold
      exact hfold
  · rw [catFold_text htext]
    exact iff_of_true rfl (mixedRun_text htext)

/-- Literals that mix are not all lists: one is a string. -/
theorem not_mixes_of_storage {literals : List (List Value)}
    (h : ∀ items ∈ literals, IsStorage (fromItems items)) : ¬Mixes literals := by
  rintro ⟨⟨items, hitems, hne, hall⟩, -⟩
  obtain ⟨cs, -, -, hv⟩ | ⟨-, hnil⟩ := fromItems_cases items
  · have := h items hitems
    rw [hv] at this
    cases this
  · exact hne (hnil hall)

/-- **Concatenation of many.** The merged literal is the concatenation of the literals unless
they mix. -/
theorem eq_catMany_iff (literals : List (List Value)) :
    (fromItems literals.flatten).eq (catMany (literals.map fromItems)) = true ↔
      ¬Mixes literals := by
  rw [eq_iff]
  match literals with
  | [] => exact iff_of_true rfl nofun
  | [items] =>
    refine iff_of_true ?_ ?_
    · rw [List.flatten_singleton]
      rfl
    · rintro ⟨⟨x, hx, -, hall⟩, y, hy, hchar⟩
      rw [List.mem_singleton.mp hx] at hall
      rw [List.mem_singleton.mp hy, hall] at hchar
      cases hchar
  | items :: items' :: literals =>
    by_cases hstorage : ∀ x ∈ items :: items' :: literals, IsStorage (fromItems x)
    · refine iff_of_true ?_ (not_mixes_of_storage hstorage)
      have hvs : ∀ v ∈ (items :: items' :: literals).map fromItems, IsStorage v := fun v hv => by
        obtain ⟨x, hx, rfl⟩ := List.mem_map.mp hv
        exact hstorage x hx
      rw [catMany_canon (by simp) hvs, spliced_literals hstorage, canon_fromItems]
    · have hvs : ¬∀ v ∈ (items :: items' :: literals).map fromItems, IsStorage v := fun h =>
        hstorage fun x hx => h _ (List.mem_map_of_mem hx)
      have hfold := eq_catFold_iff (items :: items' :: literals)
      rw [List.map_cons, List.map_cons] at hvs
      rw [List.map_cons, List.map_cons, catMany_canon_of_not_storage hvs, ← List.map_cons,
        ← List.map_cons, ← eq_iff, hfold]
      refine and_iff_left_of_imp fun hmix => mixedRun_text ?_
      exact (not_mixes_cases hmix).resolve_left hstorage

/-! ### Nodes -/

/-- A list literal, a concatenation, a node in parentheses, or another expression. -/
inductive AstNode (E : Type)
  | list (items : List (AstNode E))
  | cat (items : List (AstNode E))
  | group (node : AstNode E)
  | expr (e : E)

variable {E : Type}

def items? : AstNode E → Option (List (AstNode E))
  | .list items => some items
  | _ => none

/-- The end of `parse_comma`, with what stands between the commas. -/
def commaNode (items : List (AstNode E)) : AstNode E :=
  match items with
  | [item] => item
  | items =>
    match items.mapM items? with
    | some inner => .list inner.flatten
    | none => .cat items

section Eval

variable {σ ε : Type} (evalExpr : E → StateT σ (Except ε) Value)

mutual

/-- The items are evaluated from left to right; a list is made of their values, or these are
concatenated. -/
def eval : AstNode E → StateT σ (Except ε) Value
  | .list items => do return fromItems (← evalAll items)
  | .cat items => do return catMany (← evalAll items)
  | .group node => eval node
  | .expr e => evalExpr e
termination_by structural node => node

def evalAll : List (AstNode E) → StateT σ (Except ε) (List Value)
  | [] => return []
  | item :: items => do
    let v ← eval item
    let vs ← evalAll items
    return v :: vs
termination_by structural items => items

end

/-- The items of all literals, by literal. -/
def evalLiterals : List (List (AstNode E)) → StateT σ (Except ε) (List (List Value))
  | [] => return []
  | items :: literals => do
    let vs ← evalAll evalExpr items
    let vss ← evalLiterals literals
    return vs :: vss

theorem evalAll_append (xs ys : List (AstNode E)) : evalAll evalExpr (xs ++ ys) = do
    let vs ← evalAll evalExpr xs
    let ws ← evalAll evalExpr ys
    return vs ++ ws := by
  induction xs with
  | nil => simp [evalAll]
  | cons x xs ih => simp [evalAll, ih]

/-- The items of a merged literal are the items of the literals. -/
theorem evalAll_flatten (literals : List (List (AstNode E))) :
    evalAll evalExpr literals.flatten =
      (do return (← evalLiterals evalExpr literals).flatten) := by
  induction literals with
  | nil => simp [evalAll, evalLiterals]
  | cons items literals ih => simp [evalAll_append, evalLiterals, ih]

theorem evalAll_lists (literals : List (List (AstNode E))) :
    evalAll evalExpr (literals.map .list) =
      (do return (← evalLiterals evalExpr literals).map fromItems) := by
  induction literals with
  | nil => simp [evalAll, evalLiterals]
  | cons items literals ih => simp [evalAll, eval, evalLiterals, ih]

/-- Literals between commas are merged. -/
theorem commaNode_lists (literals : List (List (AstNode E))) :
    commaNode (literals.map .list) = .list literals.flatten := by
  have hmapM : ∀ literals : List (List (AstNode E)),
      (literals.map AstNode.list).mapM items? = some literals := by
    intro literals
    induction literals with
    | nil => rfl
    | cons items literals ih =>
      rw [List.map_cons, List.mapM_cons, ih]
      rfl
  match literals with
  | [] => rfl
  | [items] =>
    rw [List.flatten_singleton]
    rfl
  | items :: items' :: literals =>
    have h := hmapM (items :: items' :: literals)
    rw [List.map_cons, List.map_cons] at h ⊢
    rw [commaNode, h]
    exact nofun

/-- Literals in parentheses are concatenated. -/
theorem commaNode_groups (items items' : List (AstNode E)) (literals : List (List (AstNode E))) :
    commaNode ((items :: items' :: literals).map fun items => .group (.list items)) =
      .cat ((items :: items' :: literals).map fun items => .group (.list items)) := by
  rw [List.map_cons, List.map_cons, commaNode]
  · rw [List.mapM_cons]
    rfl
  · exact nofun

theorem evalAll_groups (literals : List (List (AstNode E))) :
    evalAll evalExpr (literals.map fun items => .group (.list items)) =
      (do return (← evalLiterals evalExpr literals).map fromItems) := by
  induction literals with
  | nil => simp [evalAll, evalLiterals]
  | cons items literals ih => simp [evalAll, eval, evalLiterals, ih]

theorem eval_merged (literals : List (List (AstNode E))) :
    eval evalExpr (commaNode (literals.map .list)) =
      (do return fromItems (← evalLiterals evalExpr literals).flatten) := by
  rw [commaNode_lists, eval, evalAll_flatten]
  simp

theorem eval_groups (literals : List (List (AstNode E))) :
    eval evalExpr (commaNode (literals.map fun items => .group (.list items))) =
      (do return catMany ((← evalLiterals evalExpr literals).map fromItems)) := by
  match literals with
  | [] =>
    simp [commaNode, eval, evalAll, evalLiterals, catMany, fromItems, ValueSeqBuilder.finish]
  | [items] => simp [commaNode, eval, evalLiterals, catMany]
  | items :: items' :: literals =>
    rw [commaNode_groups, eval, evalAll_groups]
    simp

/-- The values of the literals, concatenated one after the other. -/
def evalRepeated (literals : List (List (AstNode E))) : StateT σ (Except ε) Value := do
  return catFold (← evalAll evalExpr (literals.map .list))

theorem evalRepeated_eq (literals : List (List (AstNode E))) :
    evalRepeated evalExpr literals =
      (do return catFold ((← evalLiterals evalExpr literals).map fromItems)) := by
  rw [evalRepeated, evalAll_lists]
  simp

/-- Both fail with one error, or both end in one state with equal values. -/
def SameOutcome (x y : Except ε (Value × σ)) : Prop :=
  match x, y with
  | .ok (v, s), .ok (w, t) => v.eq w = true ∧ s = t
  | .error e, .error e' => e = e'
  | _, _ => False

/-- What merging gives is what the literals in parentheses give, and their values concatenated
one after the other. -/
def Invisible (literals : List (List (AstNode E))) (s : σ) : Prop :=
  SameOutcome ((eval evalExpr (commaNode (literals.map .list))).run s)
      ((eval evalExpr (commaNode (literals.map fun items => .group (.list items)))).run s) ∧
    SameOutcome ((eval evalExpr (commaNode (literals.map .list))).run s)
      ((evalRepeated evalExpr literals).run s)

/-- Two values made of the items of the literals. -/
theorem sameOutcome_iff (literals : List (List (AstNode E))) (s : σ)
    (f g : List (List Value) → Value) :
    SameOutcome ((do return f (← evalLiterals evalExpr literals)).run s)
        ((do return g (← evalLiterals evalExpr literals)).run s) ↔
      ∀ vss s', (evalLiterals evalExpr literals).run s = .ok (vss, s') →
        (f vss).eq (g vss) = true := by
  simp only [StateT.run_bind]
  cases h : (evalLiterals evalExpr literals).run s with
  | error e => exact iff_of_true rfl nofun
  | ok r =>
    obtain ⟨vss, s'⟩ := r
    refine ⟨fun hsame vss' t heq => ?_, fun hall => ⟨hall vss s' rfl, rfl⟩⟩
    obtain ⟨rfl, rfl⟩ := Prod.mk.inj (Except.ok.inj heq)
    exact hsame.1

end Eval

/-- **Merging list literals.** It gives what the literals in parentheses give unless one of
them evaluates to characters only and another does not; and what their repeated concatenation
gives unless, besides, a packed list is nested. -/
theorem merging_iff {σ ε : Type} (evalExpr : E → StateT σ (Except ε) Value)
    (literals : List (List (AstNode E))) (s : σ) :
    (SameOutcome ((eval evalExpr (commaNode (literals.map .list))).run s)
        ((eval evalExpr (commaNode (literals.map fun items => .group (.list items)))).run s) ↔
      ∀ vss s', (evalLiterals evalExpr literals).run s = .ok (vss, s') → ¬Mixes vss) ∧
    (Invisible evalExpr literals s ↔
      ∀ vss s', (evalLiterals evalExpr literals).run s = .ok (vss, s') →
        ¬Mixes vss ∧ mixedRun (vss.map fromItems) = false) := by
  have hmany := sameOutcome_iff evalExpr literals s (fun vss => fromItems vss.flatten)
    fun vss => catMany (vss.map fromItems)
  have hfold := sameOutcome_iff evalExpr literals s (fun vss => fromItems vss.flatten)
    fun vss => catFold (vss.map fromItems)
  simp only [eq_catMany_iff] at hmany
  simp only [eq_catFold_iff] at hfold
  rw [Invisible, eval_merged, eval_groups, evalRepeated_eq]
  refine ⟨hmany, ?_⟩
  rw [hmany, hfold]
  exact ⟨fun h => h.2, fun h => ⟨fun vss s' hrun => (h vss s' hrun).1, h⟩⟩

/-- Next to `(1;2)`, the text `('a';'b')` is one item, and its characters are two of the merged
literal. -/
theorem merging_splits_text : ¬@Invisible Value Unit Empty (fun v => pure v)
    [[.expr (.char 'a'), .expr (.char 'b')], [.expr (.int 1), .expr (.int 2)]] () := by
  rintro ⟨⟨h, -⟩, -⟩
  exact absurd h (by decide)

end Comma

end Wqpl
