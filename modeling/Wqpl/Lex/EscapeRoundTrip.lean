/-
# Escapes are read back

What the escaper writes, the unescaper and the lexer read back. An escaped text
can be enclosed in its quotes (`Enclosed`): outside an escape sequence it has no
backslash and no quote. So the lexer reads it to the closing quote, and the
unescaper finds the characters again. The length of an escape sequence is the one
that the unescaper takes.
-/
import Wqpl.Lex.FlatCst

namespace Wqpl
namespace Lex

open Lexer

/-- `escape_string_inner`. -/
def escapeStringInner (text : List Char) (quote : Char) : List Char :=
  text.flatMap (escapeChar quote)

theorem quoteString_eq (text : List Char) (quote : Char) :
    quoteString text quote = quote :: (escapeStringInner text quote ++ [quote]) := rfl

/-- The characters of a text that are not behind a backslash, and the backslashes. -/
def bare : List Char → List Char
  | '\\' :: _ :: text => '\\' :: bare text
  | c :: text => c :: bare text
  | [] => []

/-- A text that can stand between two quotes. -/
inductive Enclosed (quote : Char) : List Char → Prop
  | nil : Enclosed quote []
  | escape (c : Char) {text : List Char} : Enclosed quote text → Enclosed quote ('\\' :: c :: text)
  | plain {c : Char} {text : List Char} : c ≠ '\\' → c ≠ quote → Enclosed quote text →
    Enclosed quote (c :: text)

namespace Enclosed

variable {quote : Char}

theorem append {a b : List Char} (ha : Enclosed quote a) (hb : Enclosed quote b) :
    Enclosed quote (a ++ b) := by
  induction ha with
  | nil => exact hb
  | escape c _ ih => exact .escape c ih
  | plain hback hquote _ ih => exact .plain hback hquote ih

theorem of_plain {text : List Char} (h : ∀ c ∈ text, c ≠ '\\' ∧ c ≠ quote) :
    Enclosed quote text := by
  induction text with
  | nil => exact .nil
  | cons c text ih =>
    obtain ⟨hback, hquote⟩ := h c List.mem_cons_self
    exact .plain hback hquote (ih fun d hd => h d (List.mem_cons_of_mem c hd))

theorem flatMap {f : Char → List Char} {text : List Char} (h : ∀ c, Enclosed quote (f c)) :
    Enclosed quote (text.flatMap f) := by
  induction text with
  | nil => exact .nil
  | cons c text ih => exact (h c).append ih

/-- Every quote in the text is behind a backslash. -/
theorem not_mem_bare {text : List Char} (h : Enclosed quote text) (hquote : quote ≠ '\\') :
    quote ∉ bare text := by
  induction h with
  | nil => exact List.not_mem_nil
  | escape c _ ih => simpa [bare, hquote] using ih
  | plain hback hne _ ih =>
    rw [bare]
    · simpa [hne.symm] using ih
    · exact fun _ _ heq _ => hback heq

theorem head?_ne {text : List Char} (h : Enclosed quote text) (hquote : quote ≠ '\\') :
    text.head? ≠ some quote := by
  cases h with
  | nil => nofun
  | escape c _ => exact fun heq => hquote (Option.some.inj heq).symm
  | plain _ hne _ => exact fun heq => hne (Option.some.inj heq)

end Enclosed

/-! ### The digits of a control character -/

theorem not_hexDigit_brace : isHexDigit '}' = false := by decide

/-- Up to six digits and a brace are read as one number. -/
theorem unicodeDigits_hex {digits : List Char} (hhex : ∀ d ∈ digits, isHexDigit d = true)
    (rest : List Char) (val n i : Nat) (hlen : n + digits.length ≤ 6) :
    unicodeDigits (digits ++ rest) val n i =
      unicodeDigits rest (digits.foldl (fun val d => 16 * val + hexVal d) val)
        (n + digits.length) (i + digits.length) := by
  induction digits generalizing val n i with
  | nil => rfl
  | cons d digits ih =>
    have hd := hhex d List.mem_cons_self
    have hbrace : d ≠ '}' := by
      rintro rfl
      rw [not_hexDigit_brace] at hd
      cases hd
    rw [List.length_cons] at hlen ⊢
    rw [List.cons_append, unicodeDigits, if_pos hd, if_neg (by omega),
      ih (fun e he => hhex e (List.mem_cons_of_mem d he)) _ _ _ (by omega), List.foldl_cons]
    · congr 1 <;> omega
    · exact fun h => hbrace h

/-- The digits of a control character are those of its number. -/
theorem toDigits_control : ∀ n < 0xA0,
    (Nat.toDigits 16 n).all isHexDigit = true ∧
      1 ≤ (Nat.toDigits 16 n).length ∧ (Nat.toDigits 16 n).length ≤ 6 ∧
      (Nat.toDigits 16 n).foldl (fun val d => 16 * val + hexVal d) 0 = n := by
  decide +kernel

theorem isControl_lt {c : Char} (h : isControl c = true) : c.toNat < 0xA0 := by
  simp only [isControl, Bool.or_eq_true, Bool.and_eq_true, decide_eq_true_eq] at h
  omega

theorem charFromU32_toNat (c : Char) : charFromU32 c.toNat = some c := by
  rw [charFromU32, if_pos (show c.toNat.isValidChar from c.valid), Char.ofNat_toNat]

/-! ### The forms of an escaped character -/

variable {lookupName : List Char → Option (List Char)}

theorem unescapeFrom_escape {text out rest : List Char} {i j : Nat}
    (h : unescapeSequence lookupName i text = .ok (out, rest, j)) :
    unescapeFrom lookupName ('\\' :: text) i = (unescapeFrom lookupName rest j).map (out ++ ·) := by
  rw [unescapeFrom]
  split
  case h_1 herr => rw [h] at herr; cases herr
  case h_2 hok =>
    rw [h] at hok
    cases hok
    rfl

theorem unescapeFrom_plain {c : Char} (text : List Char) (i : Nat) (hc : c ≠ '\\') :
    unescapeFrom lookupName (c :: text) i =
      (unescapeFrom lookupName text (i + c.utf8Size)).map (c :: ·) := by
  rw [unescapeFrom]
  exact fun h => hc h

/-- An escaped character is itself, or a sequence that the unescaper reads as it. -/
theorem escapeChar_cases (quote c : Char) :
    (escapeChar quote c = [c] ∧ c ≠ '\\' ∧ c ≠ quote) ∨
      ∃ e tail, escapeChar quote c = '\\' :: e :: tail ∧
        (∀ d ∈ tail, d ≠ '\\' ∧ d ≠ '"' ∧ d ≠ '\'') ∧
        (quote = '"' ∨ quote = '\'' → ∀ rest i, ∃ j,
          unescapeSequence lookupName i (e :: tail ++ rest) = .ok ([c], rest, j)) := by
  unfold escapeChar
  split_ifs with hquote hback hnl hcr htab hnul hcontrol
  · subst hquote
    refine .inr ⟨_, [], rfl, by simp, ?_⟩
    rintro (rfl | rfl) rest i <;> exact ⟨_, rfl⟩
  · subst hback
    exact .inr ⟨_, [], rfl, by simp, fun _ rest i => ⟨_, rfl⟩⟩
  · subst hnl
    exact .inr ⟨_, [], rfl, by simp, fun _ rest i => ⟨_, rfl⟩⟩
  · subst hcr
    exact .inr ⟨_, [], rfl, by simp, fun _ rest i => ⟨_, rfl⟩⟩
  · subst htab
    exact .inr ⟨_, [], rfl, by simp, fun _ rest i => ⟨_, rfl⟩⟩
  · subst hnul
    exact .inr ⟨_, [], rfl, by simp, fun _ rest i => ⟨_, rfl⟩⟩
  · exact .inl ⟨rfl, hback, hquote⟩
  · have hc : isControl c = true := by simpa using hcontrol
    obtain ⟨hhex, hpos, hlen, hval⟩ := toDigits_control _ (isControl_lt hc)
    rw [List.all_eq_true] at hhex
    refine .inr ⟨'u', '{' :: (Nat.toDigits 16 c.toNat ++ ['}']), by simp, ?_, fun _ rest i => ?_⟩
    · intro d hd
      simp only [List.mem_cons, List.mem_append, List.not_mem_nil, or_false] at hd
      rcases hd with rfl | hd | rfl
      · decide
      · have hd := hhex d hd
        refine ⟨?_, ?_, ?_⟩ <;> rintro rfl <;> exact absurd hd (by decide)
      · decide
    · have hseq : unescapeSequence lookupName i
          ('u' :: '{' :: (Nat.toDigits 16 c.toNat ++ '}' :: rest)) =
          unicodeDigits (Nat.toDigits 16 c.toNat ++ '}' :: rest) 0 0 (i + 3) := rfl
      have hdigits := unicodeDigits_hex hhex ('}' :: rest) 0 0 (i + 3) (by omega)
      rw [hval, unicodeDigits, if_neg (by omega), charFromU32_toNat] at hdigits
      refine ⟨i + 3 + (Nat.toDigits 16 c.toNat).length + 1, ?_⟩
      rw [List.cons_append, List.cons_append, List.append_assoc, List.singleton_append, hseq]
      exact hdigits

theorem escapeChar_ne_nil (quote c : Char) : escapeChar quote c ≠ [] := by
  rcases @escapeChar_cases (fun _ => none) quote c with ⟨h, -⟩ | ⟨e, tail, h, -⟩ <;> simp [h]

theorem enclosed_escapeChar (quote c : Char) (hquote : quote = '"' ∨ quote = '\'') :
    Enclosed quote (escapeChar quote c) := by
  rcases @escapeChar_cases (fun _ => none) quote c with ⟨h, hback, hne⟩ | ⟨e, tail, h, htail, -⟩
  · rw [h]
    exact .plain hback hne .nil
  · rw [h]
    refine .escape e (.of_plain fun d hd => ?_)
    obtain ⟨hback, hdouble, hsingle⟩ := htail d hd
    rcases hquote with rfl | rfl
    · exact ⟨hback, hdouble⟩
    · exact ⟨hback, hsingle⟩

theorem enclosed_escapeStringInner (text : List Char) {quote : Char}
    (hquote : quote = '"' ∨ quote = '\'') : Enclosed quote (escapeStringInner text quote) :=
  .flatMap fun c => enclosed_escapeChar quote c hquote

/-- **Unescaping.** An escaped text is unescaped to the text. -/
theorem unescape_escapeStringInner (text : List Char) {quote : Char}
    (hquote : quote = '"' ∨ quote = '\'') :
    unescapeStringInner lookupName (escapeStringInner text quote) = .ok text := by
  have hfrom : ∀ i, unescapeFrom lookupName (escapeStringInner text quote) i = .ok text := by
    induction text with
    | nil =>
      intro i
      rw [escapeStringInner, List.flatMap_nil, unescapeFrom]
    | cons c text ih =>
      intro i
      rw [escapeStringInner, List.flatMap_cons]
      rcases @escapeChar_cases lookupName quote c with ⟨h, hback, -⟩ | ⟨e, tail, h, -, hseq⟩
      · rw [h, List.singleton_append, unescapeFrom_plain _ _ hback]
        exact congrArg (Except.map (c :: ·)) (ih _)
      · obtain ⟨j, hj⟩ := hseq hquote (escapeStringInner text quote) i
        rw [h, List.cons_append, ← escapeStringInner, unescapeFrom_escape hj]
        exact congrArg (Except.map ([c] ++ ·)) (ih j)
  exact hfrom 0

/-! ### The lexer -/

/-- The body of a string is read up to its closing quote. -/
theorem Enclosed.readStringBody {text : List Char} (h : Enclosed '"' text) {l : Lexer}
    {after : List Char} (hl : l.rest = text ++ '"' :: after) :
    l.readStringBody.1 = text ∧ l.readStringBody.2.1 = true ∧
      l.readStringBody.2.2.rest = after := by
  induction h generalizing l with
  | nil =>
    rw [Lexer.readStringBody]
    split <;> simp_all
  | @escape c text _ ih =>
    have hnext := @ih l.advance.advance (by simp [hl])
    rw [Lexer.readStringBody]
    split <;> simp_all
  | @plain c text hback hquote _ ih =>
    have hnext := @ih l.advance (by simp [hl])
    rw [Lexer.readStringBody]
    split <;> grind

theorem readWhile_stop {p : Char → Bool} {l : Lexer} (h : l.current.any p = false) :
    l.readWhile p = ([], l) := by
  rw [Lexer.readWhile]
  split
  · rfl
  · rename_i hl
    rw [if_neg (by simpa [current, hl] using h)]

theorem readWhile_cons {p : Char → Bool} {l : Lexer} {c : Char} {rest : List Char}
    (hl : l.rest = c :: rest) (hc : p c = true) :
    l.readWhile p = (c :: (l.advance.readWhile p).1, (l.advance.readWhile p).2) := by
  rw [Lexer.readWhile]
  split
  · simp_all
  · simp_all

variable (tables : Tables)

/-- **Reading.** A string in double quotes is read as its text, up to its end; an
empty one must not be followed by a third quote. -/
theorem readStringLiteral_quoteString (recovery : Bool) (start : Nat) {text after : List Char}
    {l : Lexer} (hl : l.rest = quoteString text '"' ++ after)
    (hafter : text ≠ [] ∨ after.head? ≠ some '"') :
    (tables.readStringLiteral recovery start l).1 = .ok (Tables.characterOrString text) ∧
      (tables.readStringLiteral recovery start l).2.rest = after := by
  have hbody : l.advance.rest = escapeStringInner text '"' ++ '"' :: after := by
    simp [hl, quoteString_eq]
  have hfirst := @readWhile_cons (· == '"') l '"' _ hl rfl
  cases text with
  | nil =>
    -- both quotes are read at once
    have hsecond := @readWhile_cons (· == '"') l.advance '"' _ hbody rfl
    have hstop : l.advance.advance.readWhile (· == '"') = ([], l.advance.advance) := by
      refine readWhile_stop ?_
      rcases hafter with hne | hhead
      · exact absurd rfl hne
      · cases after <;> simp_all [current, escapeStringInner]
    unfold Tables.readStringLiteral
    rw [hfirst, hsecond, hstop]
    simp [Tables.characterOrString, hl, quoteString_eq, escapeStringInner]
  | cons c text =>
    have hstop : l.advance.readWhile (· == '"') = ([], l.advance) := by
      refine readWhile_stop ?_
      have hne : escapeStringInner (c :: text) '"' ≠ [] := by
        simp [escapeStringInner, escapeChar_ne_nil]
      have hhead := (enclosed_escapeStringInner (c :: text) (.inl rfl)).head?_ne (by decide)
      rw [current, hbody]
      rcases hinner : escapeStringInner (c :: text) '"' with _ | ⟨d, inner⟩
      · exact absurd hinner hne
      · rw [hinner] at hhead
        simpa using hhead
    obtain ⟨hraw, hclosed, hrest⟩ :=
      (enclosed_escapeStringInner (c :: text) (.inl rfl)).readStringBody hbody
    have hdecode : tables.decodeStringContent (escapeStringInner (c :: text) '"')
        l.advance.bytePos = .ok (c :: text) := by
      rw [Tables.decodeStringContent, unescape_escapeStringInner _ (.inl rfl)]
      rfl
    unfold Tables.readStringLiteral
    rw [hfirst, hstop]
    simp only [List.length_singleton, hclosed, hraw, hdecode, if_true]
    exact ⟨rfl, hrest⟩

theorem symbol?_quote (text : List Char) : symbol? ('"' :: text) = none := by
  simp [symbol?, symbols, List.isPrefixOf]

theorem readToken_quote (recovery : Bool) (start : Nat) {l : Lexer} {text : List Char}
    (hl : l.rest = '"' :: text) :
    tables.readToken recovery start l = tables.readStringLiteral recovery start l := by
  unfold Tables.readToken
  simp only [hl, symbol?_quote]
  rfl

theorem nextToken_cons (recovery : Bool) {c : Char} {rest : List Char} {l : Lexer}
    (hl : l.rest = c :: rest) (hc : isBlank c = false) :
    tables.nextToken recovery l =
      ((tables.readToken recovery l.bytePos l).1.map
        (emit l · (tables.readToken recovery l.bytePos l).2),
        (tables.readToken recovery l.bytePos l).2) := by
  rw [Tables.nextToken]
  split
  case h_1 h =>
    rw [hl] at h
    cases h
  case h_2 d rest' h =>
    obtain ⟨rfl, -⟩ := List.cons_eq_cons.mp (hl.symm.trans h)
    rw [dif_neg (by simp [hc])]

/-- The token of a string in double quotes, and its span. -/
theorem nextToken_quoteString (recovery : Bool) {text after : List Char} {l : Lexer}
    (hl : l.rest = quoteString text '"' ++ after)
    (hafter : text ≠ [] ∨ after.head? ≠ some '"') :
    ∃ t, (tables.nextToken recovery l).1 = .ok t ∧
      t.tokenType = Tables.characterOrString text ∧ t.byteStart = l.bytePos ∧
      t.byteEnd = l.bytePos + Text.byteLen (quoteString text '"') ∧
      (tables.nextToken recovery l).2.rest = after := by
  obtain ⟨hok, hrest⟩ := readStringLiteral_quoteString tables recovery l.bytePos hl hafter
  have hcons : l.rest = '"' :: (escapeStringInner text '"' ++ ['"'] ++ after) := by
    simp [hl, quoteString_eq]
  have hnext := nextToken_cons tables recovery hcons (by decide)
  rw [readToken_quote tables recovery l.bytePos hcons] at hnext
  obtain ⟨consumed, hsplit, hpos⟩ := (tables.nextToken_reaches recovery l).split
  rw [hnext] at hsplit hpos ⊢
  dsimp only at hsplit hpos ⊢
  have hconsumed : consumed = quoteString text '"' := by
    rw [hrest, hl] at hsplit
    exact (List.append_cancel_right hsplit).symm
  rw [hok]
  exact ⟨_, rfl, rfl, rfl, by rw [← hconsumed]; exact hpos, hrest⟩

/-! ### The length of an escape sequence -/

theorem unicodeName_split {text name rest : List Char}
    (h : unicodeName text = some (name, rest)) : text = name ++ '}' :: rest ∧ '}' ∉ name := by
  induction text generalizing name with
  | nil => cases h
  | cons c text ih =>
    unfold unicodeName at h
    split at h
    case h_1 heq => cases heq
    case h_2 heq =>
      obtain ⟨rfl, rfl⟩ := List.cons_eq_cons.mp heq
      cases h
      exact ⟨rfl, List.not_mem_nil⟩
    case h_3 hne heq =>
      obtain ⟨rfl, rfl⟩ := List.cons_eq_cons.mp heq
      obtain ⟨⟨name', rest'⟩, hname, heq⟩ := Option.map_eq_some_iff.mp h
      cases heq
      obtain ⟨rfl, hmem⟩ := ih hname
      exact ⟨rfl, by simpa using ⟨fun hc => hne hc.symm, hmem⟩⟩

/-- Digits that are read end at the first brace. -/
theorem unicodeDigits_ok {text out rest : List Char} {val n i j : Nat} (hn : n ≤ 6)
    (h : unicodeDigits text val n i = .ok (out, rest, j)) :
    ∃ digits, unicodeName text = some (digits, rest) ∧ (∀ d ∈ digits, isHexDigit d = true) ∧
      1 ≤ n + digits.length ∧ n + digits.length ≤ 6 ∧
      (charFromU32 (digits.foldl (fun val d => 16 * val + hexVal d) val)).isSome = true := by
  induction text generalizing val n i with
  | nil => cases h
  | cons c text ih =>
    unfold unicodeDigits at h
    split at h
    case h_1 heq =>
      obtain ⟨rfl, rfl⟩ := List.cons_eq_cons.mp heq
      split_ifs at h with hzero
      split at h
      case h_1 c hchar =>
        cases h
        exact ⟨[], rfl, by simp, by simp; omega, by simpa using hn, by simp [hchar]⟩
      case h_2 => cases h
    case h_2 hne heq =>
      obtain ⟨rfl, rfl⟩ := List.cons_eq_cons.mp heq
      split_ifs at h with hhex hsix
      obtain ⟨digits, hname, hall, hpos, hlen, hchar⟩ := ih (by omega) h
      refine ⟨c :: digits, ?_, ?_, ?_, ?_, hchar⟩
      · rw [unicodeName, hname]
        · rfl
        · exact fun hc => hne hc
      · intro d hd
        rcases List.mem_cons.mp hd with rfl | hd
        · exact hhex
        · exact hall d hd
      · rw [List.length_cons]
        omega
      · rw [List.length_cons]
        omega
    case h_3 heq => cases heq

theorem utf8Size_hex {c : Char} (h : isHexDigit c = true) : c.utf8Size = 1 := by
  refine Char.utf8Size_eq_one_iff.mpr (UInt32.le_iff_toNat_le.mpr ?_)
  simp only [isHexDigit, Bool.or_eq_true, Bool.and_eq_true, decide_eq_true_eq, Char.le_def,
    UInt32.le_iff_toNat_le] at h
  rcases h with (h | ⟨-, h⟩) | ⟨-, h⟩
  · exact Nat.le_trans (Char.isDigit_iff_toNat.mp h).2 (by decide)
  · exact Nat.le_trans h (by decide)
  · exact Nat.le_trans h (by decide)

theorem byteLen_hex {digits : List Char} (h : ∀ d ∈ digits, isHexDigit d = true) :
    Text.byteLen digits = digits.length := by
  induction digits with
  | nil => rfl
  | cons d digits ih =>
    have hd := h d List.mem_cons_self
    rw [Text.byteLen, utf8Size_hex hd, ih fun e he => h e (List.mem_cons_of_mem d he), List.length_cons,
      Nat.add_comm]

/-- The length of a valid sequence is the one that the unescaper takes. -/
theorem validEscapeSequenceLen_some {text : List Char} {n : Nat}
    (h : validEscapeSequenceLen lookupName ('\\' :: text) = some n) :
    ∃ out seq rest, text = seq ++ rest ∧ n = 1 + Text.byteLen seq ∧
      ∀ start, unescapeSequence lookupName start text = .ok (out, rest, start + n) := by
  unfold validEscapeSequenceLen at h
  split at h
  case h_1 d d' rest heq =>
    cases heq
    split_ifs at h with hhex
    cases h
    have hsizes := Bool.and_eq_true_iff.mp hhex
    refine ⟨_, ['x', d, d'], rest, rfl, ?_, fun start => if_pos hhex⟩
    rw [Text.byteLen, Text.byteLen, Text.byteLen, utf8Size_hex hsizes.1, utf8Size_hex hsizes.2]
    rfl
  case h_2 rest heq =>
    cases heq
    obtain ⟨⟨digits, after⟩, hname, h⟩ := Option.bind_eq_some_iff.mp h
    dsimp only at h
    split_ifs at h with hdigits
    obtain ⟨hpos, hlen, hhex⟩ := hdigits
    rw [List.all_eq_true] at hhex
    obtain ⟨c, hchar, rfl⟩ := Option.map_eq_some_iff.mp h
    obtain ⟨rfl, -⟩ := unicodeName_split hname
    refine ⟨[c], 'u' :: '{' :: (digits ++ ['}']), after, by simp, ?_, fun start => ?_⟩
    · simp only [Text.byteLen, Text.byteLen_append, byteLen_hex hhex]
      have hbytes : 'u'.utf8Size = 1 ∧ '{'.utf8Size = 1 ∧ '}'.utf8Size = 1 := by decide
      omega
    · have hseq : unescapeSequence lookupName start ('u' :: '{' :: (digits ++ '}' :: after)) =
          unicodeDigits (digits ++ '}' :: after) 0 0 (start + 3) := rfl
      rw [hseq, unicodeDigits_hex hhex _ _ _ _ (by omega), unicodeDigits, if_neg (by omega), hchar]
      dsimp only
      congr 3
      omega
  case h_3 rest heq =>
    cases heq
    obtain ⟨⟨name, after⟩, hname, h⟩ := Option.bind_eq_some_iff.mp h
    dsimp only at h
    split_ifs at h with hvalid
    cases h
    obtain ⟨value, hvalue⟩ := Option.isSome_iff_exists.mp hvalid.2
    obtain ⟨rfl, -⟩ := unicodeName_split hname
    refine ⟨value, 'N' :: '{' :: (name ++ ['}']), after, by simp, ?_, fun start => ?_⟩
    · simp only [Text.byteLen, Text.byteLen_append]
      have hbytes : 'N'.utf8Size = 1 ∧ '{'.utf8Size = 1 ∧ '}'.utf8Size = 1 := by decide
      omega
    · simp only [unescapeSequence, hname]
      split
      case h_1 heq => cases heq
      case h_2 heq =>
        cases heq
        exact absurd rfl hvalid.1
      case h_3 heq =>
        cases heq
        rw [hvalue]
        dsimp only
        congr 3
        omega
  case h_4 c rest _ _ _ heq =>
    cases heq
    split_ifs at h with hc
    cases h
    simp only [List.mem_cons, List.not_mem_nil, or_false] at hc
    rcases hc with rfl | rfl | rfl | rfl | rfl | rfl | rfl
    all_goals exact ⟨_, [_], rest, rfl, rfl, fun _ => rfl⟩
  case h_5 => cases h

/-- A sequence that is not valid is an error, or it stays in the text as it is. -/
theorem validEscapeSequenceLen_none {text out rest : List Char} {start j : Nat}
    (h : validEscapeSequenceLen lookupName ('\\' :: text) = none)
    (hok : unescapeSequence lookupName start text = .ok (out, rest, j)) :
    '\\' :: text = out ++ rest := by
  unfold unescapeSequence at hok
  split at hok
  case h_1 =>
    cases hok
    rfl
  case h_9 d d' rest' =>
    split_ifs at hok with hhex
    simp [validEscapeSequenceLen, hhex] at h
  case h_10 => cases hok
  case h_11 rest' =>
    obtain ⟨digits, hname, hhex, hpos, hlen, hchar⟩ := unicodeDigits_ok (by omega) hok
    rw [Nat.zero_add] at hpos hlen
    obtain ⟨c, hc⟩ := Option.isSome_iff_exists.mp hchar
    simp only [validEscapeSequenceLen, hname, Option.bind_some] at h
    rw [if_pos ⟨hpos, hlen, List.all_eq_true.mpr hhex⟩, hc] at h
    cases h
  case h_12 => cases hok
  case h_13 => cases hok
  case h_14 rest' =>
    split at hok
    · cases hok
    · cases hok
    · rename_i name after hne hname
      rcases hvalue : lookupName name with _ | value
      · rw [hvalue] at hok
        cases hok
      · simp only [validEscapeSequenceLen, hname, Option.bind_some] at h
        rw [if_pos ⟨fun hnil => hne hnil, by simp [hvalue]⟩] at h
        cases h
  case h_15 => cases hok
  case h_16 =>
    cases hok
    rfl
  all_goals simp [validEscapeSequenceLen] at h

/-- **Escape round trip.** For both quotes an escaped text is unescaped to the text
and has no quote outside an escape sequence. The lexer reads a text in double
quotes as its content and takes exactly the literal, unless an empty literal stands
before a third quote. The length of a valid sequence is what the unescaper takes;
without a length, the unescaper rejects the sequence or keeps it as it is. -/
theorem escape_round_trip (text : List Char) :
    (∀ quote, quote = '"' ∨ quote = '\'' →
      unescapeStringInner tables.lookupName (escapeStringInner text quote) = .ok text ∧
        quote ∉ bare (escapeStringInner text quote)) ∧
    (∀ recovery l after, l.rest = quoteString text '"' ++ after →
      text ≠ [] ∨ after.head? ≠ some '"' →
      ∃ t, (tables.nextToken recovery l).1 = .ok t ∧
        t.tokenType = Tables.characterOrString text ∧ t.byteStart = l.bytePos ∧
        t.byteEnd = l.bytePos + Text.byteLen (quoteString text '"') ∧
        (tables.nextToken recovery l).2.rest = after) ∧
    ∀ seq,
      (∀ n, validEscapeSequenceLen tables.lookupName ('\\' :: seq) = some n →
        ∃ out taken rest, seq = taken ++ rest ∧ n = 1 + Text.byteLen taken ∧
          ∀ start, unescapeSequence tables.lookupName start seq = .ok (out, rest, start + n)) ∧
      (∀ start err, unescapeSequence tables.lookupName start seq = .error err →
        validEscapeSequenceLen tables.lookupName ('\\' :: seq) = none) ∧
      ∀ start out rest j, validEscapeSequenceLen tables.lookupName ('\\' :: seq) = none →
        unescapeSequence tables.lookupName start seq = .ok (out, rest, j) →
        '\\' :: seq = out ++ rest := by
  refine ⟨fun quote hquote => ⟨unescape_escapeStringInner text hquote, ?_⟩,
    fun recovery l after hl hafter => nextToken_quoteString tables recovery hl hafter,
    fun seq => ⟨fun n hn => validEscapeSequenceLen_some hn, fun start err herr => ?_,
      fun start out rest j hnone hok => validEscapeSequenceLen_none hnone hok⟩⟩
  · refine (enclosed_escapeStringInner text hquote).not_mem_bare ?_
    rcases hquote with rfl | rfl <;> decide
  · cases hlen : validEscapeSequenceLen tables.lookupName ('\\' :: seq) with
    | none => rfl
    | some n =>
      obtain ⟨out, seq, rest, rfl, -, hok⟩ := validEscapeSequenceLen_some hlen
      rw [hok start] at herr
      cases herr

/-- A quote, a bell and a backslash. -/
theorem escape_round_trip_bell :
    unescapeStringInner asciiTables.lookupName (escapeStringInner ['"', Char.ofNat 7, '\\'] '"') =
      .ok ['"', Char.ofNat 7, '\\'] :=
  ((escape_round_trip asciiTables ['"', Char.ofNat 7, '\\']).1 '"' (.inl rfl)).1

/-- A text in single quotes is not read as a literal. -/
theorem nextToken_single_quoted :
    ¬∀ (tables : Tables) (text : List Char) (quote : Char), quote = '"' ∨ quote = '\'' →
      ∃ t, (tables.nextToken false (Lexer.new (quoteString text quote))).1 = .ok t ∧
        t.tokenType = Tables.characterOrString text := by
  intro h
  obtain ⟨t, hok, htype⟩ := h asciiTables ['a'] '\'' (.inr rfl)
  have hsymbol : symbol? ['\'', 'a', '\''] = some (['\''], .apostrophe) := by decide
  have htoken : asciiTables.readToken false 0 (Lexer.new ['\'', 'a', '\'']) =
      (.ok .apostrophe, (Lexer.new ['\'', 'a', '\'']).advances 1) := by
    unfold Tables.readToken
    simp only [Lexer.new, hsymbol]
    rfl
  have hnext := @nextToken_cons asciiTables false '\'' ['a', '\''] (Lexer.new ['\'', 'a', '\''])
    rfl (by decide)
  have hstart : (Lexer.new ['\'', 'a', '\'']).bytePos = 0 := rfl
  rw [hstart, htoken] at hnext
  have hquote : quoteString ['a'] '\'' = ['\'', 'a', '\''] := by decide
  rw [hquote, hnext] at hok
  cases hok
  cases htype

end Lex
end Wqpl
