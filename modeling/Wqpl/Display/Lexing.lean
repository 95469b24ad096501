/-
# The tokens of printed data

The lexer reads the text of a value as the tokens one expects of it, before
everything that can stand behind a value (`Lexes`): the end of the text, a
closing parenthesis, a semicolon or a colon.
-/
import Wqpl.Display.Text

namespace Wqpl
namespace Lex

open Lexer

/-! ### Before an end -/

/-- The end of the text, or a character that no number, name or string goes on with. -/
def Ends (after : List Char) : Prop :=
  ∀ c ∈ after.head?, c = ')' ∨ c = ';' ∨ c = ':' ∨ c = '/'

theorem Ends.nil : Ends [] := fun c hc => by cases hc

theorem Ends.cons {c : Char} (rest : List Char) (h : c = ')' ∨ c = ';' ∨ c = ':' ∨ c = '/') :
    Ends (c :: rest) := by
  intro d hd
  obtain rfl := Option.some.inj hd
  exact h

theorem Ends.any {after : List Char} (h : Ends after) {p : Char → Bool}
    (hp : p ')' = false ∧ p ';' = false ∧ p ':' = false ∧ p '/' = false) :
    after.head?.any p = false := by
  cases after with
  | nil => rfl
  | cons c rest =>
    show p c = false
    rcases h c rfl with rfl | rfl | rfl | rfl
    · exact hp.1
    · exact hp.2.1
    · exact hp.2.2.1
    · exact hp.2.2.2

namespace Tables

variable (tables : Tables)

/-- What the reader of printed data relies on: among the ASCII characters the letters start a
name, letters and digits go on with it, and normalization leaves them alone. -/
structure Standard : Prop where
  start : ∀ c : Char, c.isAlpha = true → tables.isXidStart c = true
  continue_ : ∀ c : Char, c.toNat < 128 → tables.isXidContinue c = true →
    c.isAlphanum = true ∨ c = '_'
  nfc : ∀ text : List Char, (∀ c ∈ text, c.toNat < 128) → tables.nfc text = text

/-- A name that a tag can have. -/
def IsTagName (name : List Char) : Prop :=
  (∃ c rest, name = c :: rest ∧ tables.isIdentifierStart c = true ∧
    ∀ d ∈ rest, tables.isIdentifierContinue d = true) ∧ tables.nfc name = name

/-- The kinds of the tokens up to the end of the text. -/
def tokenTypes (l : Lexer) : Except LexError (List TokenType) :=
  (tables.tokenize l).map (List.map Token.tokenType)

/-- The text is read as these tokens before everything that ends it. -/
def Lexes (text : List Char) (ts : List TokenType) : Prop :=
  ∀ (l : Lexer) (after : List Char), l.rest = text ++ after → Ends after →
    ∃ l', l'.rest = after ∧ tables.tokenTypes l = (tables.tokenTypes l').map (ts ++ ·)

end Tables

section Reading

variable {tables : Tables} {l : Lexer}

theorem isIdentifierContinue_end (hT : tables.Standard) :
    tables.isIdentifierContinue ')' = false ∧ tables.isIdentifierContinue ';' = false ∧
      tables.isIdentifierContinue ':' = false ∧ tables.isIdentifierContinue '/' = false := by
  have hplain : ∀ c : Char, c.toNat < 128 → c.isAlphanum = false → c ≠ '_' → c ≠ '?' →
      tables.isIdentifierContinue c = false := by
    intro c hc halpha hunder hmark
    cases hx : tables.isXidContinue c with
    | true =>
      rcases hT.continue_ c hc hx with h | h
      · rw [halpha] at h
        cases h
      · exact absurd h hunder
    | false => simp [Tables.isIdentifierContinue, hx, hunder, hmark]
  refine ⟨?_, ?_, ?_, ?_⟩ <;> exact hplain _ (by decide) (by decide) (by decide) (by decide)

theorem tokenTypes_step {t : Token} {l' : Lexer}
    (h : tables.nextToken false l = (.ok t, l')) (ht : t.tokenType.isEof = false) :
    tables.tokenTypes l = (tables.tokenTypes l').map (t.tokenType :: ·) := by
  unfold Tables.tokenTypes
  rw [Tables.tokenize]
  split
  · rename_i heq
    rw [h] at heq
    cases heq
  · rename_i token l'' heq
    rw [h] at heq
    obtain ⟨rfl, rfl⟩ : t = token ∧ l' = l'' := by simpa using heq
    rw [dif_neg (by simp [ht])]
    cases tables.tokenize l' <;> rfl

theorem tokenTypes_end (h : l.rest = []) : tables.tokenTypes l = .ok [.eof] := by
  have hnext : tables.nextToken false l = (.ok (emit l .eof l), l) := by
    rw [Tables.nextToken]
    split
    · rfl
    · rename_i heq
      rw [h] at heq
      cases heq
  unfold Tables.tokenTypes
  rw [Tables.tokenize]
  split
  · rename_i heq
    rw [hnext] at heq
    cases heq
  · rename_i token l'' heq
    rw [hnext] at heq
    obtain ⟨rfl, rfl⟩ : emit l .eof l = token ∧ l = l'' := by simpa using heq
    rfl

theorem emit_tokenType (l : Lexer) (t : TokenType) (l' : Lexer) : (emit l t l').tokenType = t :=
  rfl

/-- One token, which takes the text. -/
theorem Tables.Lexes.token {text : List Char} {t : TokenType} (ht : t.isEof = false)
    (h : ∀ (l : Lexer) (after : List Char), l.rest = text ++ after → Ends after →
      ∃ token l', tables.nextToken false l = (.ok token, l') ∧ token.tokenType = t ∧
        l'.rest = after) : tables.Lexes text [t] := by
  intro l after hl hafter
  obtain ⟨token, l', hnext, rfl, hrest⟩ := h l after hl hafter
  exact ⟨l', hrest, tokenTypes_step hnext ht⟩

/-- A text that begins in a way that ends the text before it. -/
theorem Tables.Lexes.append {text text' : List Char} {ts ts' : List TokenType}
    (h : tables.Lexes text ts) (h' : tables.Lexes text' ts')
    (hends : ∀ after, Ends after → Ends (text' ++ after)) :
    tables.Lexes (text ++ text') (ts ++ ts') := by
  intro l after hl hafter
  rw [List.append_assoc] at hl
  obtain ⟨l₁, hl₁, htypes⟩ := h l _ hl (hends after hafter)
  obtain ⟨l₂, hl₂, htypes'⟩ := h' l₁ after hl₁ hafter
  refine ⟨l₂, hl₂, ?_⟩
  rw [htypes, htypes']
  cases tables.tokenTypes l₂ with
  | error err => rfl
  | ok types => exact congrArg Except.ok (List.append_assoc ts ts' types).symm

/-! ### Symbols -/

/-- A token of one character. -/
theorem nextToken_symbol {c : Char} {rest : List Char} {t : TokenType} (hl : l.rest = c :: rest)
    (hsymbol : symbol? (c :: rest) = some ([c], t)) (hblank : isBlank c = false)
    (hline : c ≠ '\n') (hcomment : c = '/' → rest.head? ≠ some '/' ∧ rest.head? ≠ some '*') :
    tables.nextToken false l = (.ok (emit l t l.advance), l.advance) := by
  have hread : tables.readToken false l.bytePos l = (.ok t, l.advance) := by
    unfold Tables.readToken
    split
    · rename_i heq
      rw [hl] at heq
      cases heq
    · rename_i heq
      exact absurd (List.cons.inj (hl.symm.trans heq)).1 hline
    · rename_i heq
      obtain ⟨rfl, rfl⟩ := List.cons.inj (hl.symm.trans heq)
      exact absurd rfl (hcomment rfl).1
    · rename_i heq
      obtain ⟨rfl, rfl⟩ := List.cons.inj (hl.symm.trans heq)
      exact absurd rfl (hcomment rfl).2
    · rw [hl, hsymbol]
      rfl
  rw [nextToken_cons tables false hl hblank, hread]
  rfl

theorem Tables.Lexes.symbol {c : Char} {t : TokenType} {text : List Char} {ts : List TokenType}
    (ht : t.isEof = false) (hblank : isBlank c = false) (hline : c ≠ '\n')
    (hcomment : c = '/' → ∀ after, (text ++ after).head? ≠ some '/' ∧
      (text ++ after).head? ≠ some '*')
    (hsymbol : ∀ after, Ends after → symbol? (c :: (text ++ after)) = some ([c], t))
    (h : tables.Lexes text ts) : tables.Lexes (c :: text) (t :: ts) := by
  intro l after hl hafter
  have hnext := @nextToken_symbol tables l c (text ++ after) t hl (hsymbol after hafter) hblank
    hline fun hc => hcomment hc after
  obtain ⟨l', hl', htypes⟩ := h l.advance after (by rw [advance_rest, hl]; rfl) hafter
  refine ⟨l', hl', ?_⟩
  rw [tokenTypes_step hnext ht, htypes]
  cases tables.tokenTypes l' <;> rfl

theorem Tables.Lexes.nil : tables.Lexes [] [] := by
  intro l after hl _
  refine ⟨l, hl, ?_⟩
  cases tables.tokenTypes l <;> rfl

theorem symbol?_leftParen (rest : List Char) :
    symbol? ('(' :: rest) = some (['('], .leftParen) := by
  simp [symbol?, symbols, List.isPrefixOf]

theorem symbol?_rightParen (rest : List Char) :
    symbol? (')' :: rest) = some ([')'], .rightParen) := by
  simp [symbol?, symbols, List.isPrefixOf]

theorem symbol?_semicolon (rest : List Char) :
    symbol? (';' :: rest) = some ([';'], .semicolon) := by
  simp [symbol?, symbols, List.isPrefixOf]

theorem symbol?_colon (rest : List Char) : symbol? (':' :: rest) = some ([':'], .colon) := by
  simp [symbol?, symbols, List.isPrefixOf]

theorem symbol?_comma {rest : List Char} (h : rest.head? ≠ some ':') :
    symbol? (',' :: rest) = some ([','], .comma) := by
  cases rest with
  | nil => simp [symbol?, symbols, List.isPrefixOf]
  | cons c rest =>
    have hc : ':' ≠ c := fun hc => h (by rw [hc]; rfl)
    simp [symbol?, symbols, List.isPrefixOf, hc]

theorem symbol?_minus {rest : List Char} (h : rest.head? ≠ some ':') :
    symbol? ('-' :: rest) = some (['-'], .minus) := by
  cases rest with
  | nil => simp [symbol?, symbols, List.isPrefixOf]
  | cons c rest =>
    have hc : ':' ≠ c := fun hc => h (by rw [hc]; rfl)
    simp [symbol?, symbols, List.isPrefixOf, hc]

/-- A character that begins no symbol. -/
theorem symbol?_none {c : Char} (rest : List Char) (h : ∀ e ∈ symbols, e.1.head? ≠ some c) :
    symbol? (c :: rest) = none := by
  rw [symbol?, List.find?_eq_none]
  intro e he hpre
  have hne : ∀ e ∈ symbols, e.1 ≠ [] := by decide
  obtain ⟨d, text, hd⟩ := List.exists_cons_of_ne_nil (hne e he)
  refine h e he ?_
  rw [hd] at hpre ⊢
  simp only [List.isPrefixOf, Bool.and_eq_true, beq_iff_eq] at hpre
  rw [hpre.1]
  rfl

theorem symbol?_digit {c : Char} (rest : List Char) (hc : c.isDigit = true) :
    symbol? (c :: rest) = none := by
  refine symbol?_none rest fun e he hhead => ?_
  have hdigits : ∀ e ∈ symbols, e.1.head?.any Char.isDigit = false := by decide
  have hnone := hdigits e he
  rw [hhead, Option.any_some, hc] at hnone
  cases hnone

/-- A character that begins no symbol, line or comment. -/
theorem readToken_plain {c : Char} {rest : List Char} (hl : l.rest = c :: rest) (hline : c ≠ '\n')
    (hslash : c ≠ '/') (hsymbol : symbol? (c :: rest) = none) (start : Nat) :
    tables.readToken false start l =
      if c = '.' then unrecognized start l
      else if c = '@' then tables.readAt false start l.advance
      else if c = Char.ofNat 0x60 then tables.readTag start l
      else if c = '"' then tables.readStringLiteral false start l
      else if c.isDigit then tables.readNumber start l
      else if tables.isIdentifierStart c then
        (.ok (.fromIdentifier (tables.readIdentifier l).1), (tables.readIdentifier l).2)
      else unrecognized start l := by
  unfold Tables.readToken
  split
  · rename_i heq
    rw [hl] at heq
    cases heq
  · rename_i heq
    exact absurd (List.cons.inj (hl.symm.trans heq)).1 hline
  · rename_i heq
    exact absurd (List.cons.inj (hl.symm.trans heq)).1 hslash
  · rename_i heq
    exact absurd (List.cons.inj (hl.symm.trans heq)).1 hslash
  · rename_i heq
    obtain ⟨rfl, rfl⟩ := List.cons.inj (hl.symm.trans heq)
    rw [hl, hsymbol]

theorem nextToken_digit {c : Char} {rest : List Char} {t : TokenType} {l' : Lexer}
    (hl : l.rest = c :: rest) (hc : c.isDigit = true)
    (hnumber : tables.readNumber l.bytePos l = (.ok t, l')) :
    tables.nextToken false l = (.ok (emit l t l'), l') := by
  have hne : ∀ d : Char, d.isDigit = false → c ≠ d := by
    rintro d hd rfl
    rw [hc] at hd
    cases hd
  have hblank : isBlank c = false := by
    simp [isBlank, hne ' ' rfl, hne '\t' rfl, hne '\r' rfl]
  have hread : tables.readToken false l.bytePos l = (.ok t, l') := by
    rw [readToken_plain hl (hne '\n' rfl) (hne '/' rfl) (symbol?_digit rest hc),
      if_neg (hne '.' rfl), if_neg (hne '@' rfl), if_neg (hne (Char.ofNat 0x60) rfl),
      if_neg (hne '"' rfl), if_pos hc, hnumber]
  rw [nextToken_cons tables false hl hblank, hread]
  rfl

/-! ### Numbers -/

/-- Digits are read on. -/
theorem readDecimal_digits {digits rest : List Char} (hdigits : ∀ c ∈ digits, c.isDigit = true)
    (hl : l.rest = digits ++ rest) (last : Option Char) (isFloat hasExp : Bool) :
    ∃ (last' : Option Char) (l' : Lexer), l'.rest = rest ∧ l.readDecimal last isFloat hasExp =
      (digits ++ (l'.readDecimal last' isFloat hasExp).1,
        (l'.readDecimal last' isFloat hasExp).2) := by
  induction digits generalizing l last with
  | nil => exact ⟨last, l, hl, rfl⟩
  | cons c digits ih =>
    obtain ⟨last', l', hl', hread⟩ := @ih l.advance
      (fun d hd => hdigits d (List.mem_cons_of_mem c hd)) (by rw [advance_rest, hl]; rfl) (some c)
    refine ⟨last', l', hl', ?_⟩
    rw [readDecimal]
    split
    · rename_i heq
      rw [hl] at heq
      cases heq
    · rename_i d rest' heq
      obtain ⟨rfl, -⟩ := List.cons.inj (hl.symm.trans heq)
      rw [if_pos (hdigits c List.mem_cons_self), hread]
      rfl

theorem readDecimal_end (h : Ends l.rest) (last : Option Char) (isFloat hasExp : Bool) :
    l.readDecimal last isFloat hasExp = ([], isFloat, l) := by
  rw [readDecimal]
  split
  · rfl
  · rename_i c rest heq
    rw [heq] at h
    rcases h c rfl with rfl | rfl | rfl | rfl <;> simp

/-- The point of a float. -/
theorem readDecimal_point {d : Char} {rest : List Char} (hl : l.rest = '.' :: d :: rest)
    (hd : d.isDigit = true) (last : Option Char) :
    l.readDecimal last false false =
      ('.' :: (l.advance.readDecimal (some '.') true false).1,
        (l.advance.readDecimal (some '.') true false).2) := by
  rw [readDecimal]
  split
  · rename_i heq
    rw [hl] at heq
    cases heq
  · rename_i c rest' heq
    obtain ⟨rfl, rfl⟩ := List.cons.inj (hl.symm.trans heq)
    simp [hd]

/-- No base stands behind the first digit. -/
theorem readNumber_decimal {start : Nat} (h : ∀ c ∈ l.rest.tail.head?, prefixBase c = none) :
    tables.readNumber start l = Tables.readNumber.decimal tables start l := by
  unfold Tables.readNumber
  split
  · rename_i c rest heq
    rw [h c (by rw [heq]; rfl)]
  · rfl

theorem prefixBase_digit {c : Char} (hc : c.isDigit = true) : prefixBase c = none := by
  have hne : ∀ d : Char, d.isDigit = false → c ≠ d := by
    rintro d hd rfl
    rw [hc] at hd
    cases hd
  simp [prefixBase, hne 'b' rfl, hne 'B' rfl, hne 'o' rfl, hne 'O' rfl, hne 'x' rfl, hne 'X' rfl]

theorem prefixBase_digits {digits after : List Char} (hne : digits ≠ [])
    (hdigits : ∀ c ∈ digits, c.isDigit = true)
    (hafter : ∀ c ∈ after.head?, prefixBase c = none) :
    ∀ c ∈ (digits ++ after).tail.head?, prefixBase c = none := by
  obtain ⟨d, rest, rfl⟩ := List.exists_cons_of_ne_nil hne
  intro c hc
  cases rest with
  | nil => exact hafter c hc
  | cons e rest =>
    obtain rfl := Option.some.inj hc
    exact prefixBase_digit (hdigits e (by simp))

theorem prefixBase_end {after : List Char} (h : Ends after) :
    ∀ c ∈ after.head?, prefixBase c = none := by
  intro c hc
  rcases h c hc with rfl | rfl | rfl | rfl <;> decide

/-- The integer that digits stand for is what the lexer makes of them. -/
theorem ofDigits_toDigits (n : Nat) : ofDigits 10 (Nat.toDigits 10 n) = n := by
  have hfold : ∀ (digits : List Char) (init : Nat), (∀ c ∈ digits, c.isDigit = true) →
      digits.foldl (fun n d => 10 * n + hexVal d) init = Nat.ofDigitChars 10 digits init := by
    intro digits
    induction digits with
    | nil => exact fun _ _ => Nat.ofDigitChars_nil.symm
    | cons c digits ih =>
      intro init hdigits
      rw [List.foldl_cons, Nat.ofDigitChars_cons,
        ih _ fun d hd => hdigits d (List.mem_cons_of_mem c hd)]
      rw [hexVal, if_pos (hdigits c List.mem_cons_self)]
  rw [ofDigits, hfold _ _ fun c hc => Nat.isDigit_of_mem_toDigits (by decide) (by decide) hc]
  exact Nat.ofDigitChars_ten_toDigits

/-- The token of an integer without a sign. -/
def integerToken (n : Nat) : TokenType := if InI64 n then .integer n else .bigInteger n

theorem current_end (h : Ends l.rest) : l.current ≠ some 'i' := by
  intro hi
  rcases h 'i' hi with h | h | h | h <;> revert h <;> decide

theorem Tables.Lexes.nat (n : Nat) : tables.Lexes (Nat.toDigits 10 n) [integerToken n] := by
  have hdigits : ∀ c ∈ Nat.toDigits 10 n, c.isDigit = true := fun c hc =>
    Nat.isDigit_of_mem_toDigits (by decide) (by decide) hc
  obtain ⟨d, digits, htext⟩ := List.exists_cons_of_ne_nil (@Nat.toDigits_ne_nil n 10)
  refine .token (by unfold integerToken; split <;> rfl) fun l after hl hafter => ?_
  obtain ⟨last, l', hl', hread⟩ := readDecimal_digits hdigits hl none false false
  have hends : Ends l'.rest := by rwa [hl']
  have hnumber : tables.readNumber l.bytePos l = (.ok (integerToken n), l') := by
    rw [readNumber_decimal (hl ▸ prefixBase_digits Nat.toDigits_ne_nil hdigits
      (prefixBase_end hafter)), Tables.readNumber.decimal, hread, readDecimal_end hends,
      List.append_nil]
    dsimp only
    rw [if_neg Bool.false_ne_true, if_neg Nat.toDigits_ne_nil, ofDigits_toDigits,
      Tables.finishInteger, if_neg (current_end hends), if_neg (current_end hends), integerToken]
    split <;> rfl
  have hcons : l.rest = d :: (digits ++ after) := by rw [hl, htext]; rfl
  exact ⟨_, l', nextToken_digit hcons (hdigits d (by rw [htext]; simp)) hnumber,
    emit_tokenType _ _ _, hl'⟩

/-- A float is digits around a point. -/
theorem Tables.Lexes.float {whole fraction : List Char} {f : F64} (hwhole : whole ≠ [])
    (hdigits : ∀ c ∈ whole, c.isDigit = true) (hfraction : fraction ≠ [])
    (hdigits' : ∀ c ∈ fraction, c.isDigit = true)
    (hparse : tables.parseFloat (whole ++ '.' :: fraction) = some f) :
    tables.Lexes (whole ++ '.' :: fraction) [.float f] := by
  obtain ⟨d, digits, rfl⟩ := List.exists_cons_of_ne_nil hwhole
  obtain ⟨e, fraction, rfl⟩ := List.exists_cons_of_ne_nil hfraction
  refine .token rfl fun l after hl hafter => ?_
  rw [List.append_assoc] at hl
  obtain ⟨last, l₁, hl₁, hread₁⟩ := readDecimal_digits hdigits hl none false false
  have hpoint := readDecimal_point hl₁ (hdigits' e List.mem_cons_self) last
  have hadvance : l₁.advance.rest = (e :: fraction) ++ after := by rw [advance_rest, hl₁]; rfl
  obtain ⟨last', l₂, hl₂, hread₂⟩ := readDecimal_digits hdigits' hadvance (some '.') true false
  have hends : Ends l₂.rest := by rwa [hl₂]
  have hnumber : tables.readNumber l.bytePos l = (.ok (.float f), l₂) := by
    rw [readNumber_decimal, Tables.readNumber.decimal, hread₁, hpoint, hread₂,
      readDecimal_end hends, List.append_nil]
    · dsimp only
      rw [if_pos rfl, hparse]
      dsimp only
      rw [if_neg (current_end hends)]
    · rw [hl]
      exact prefixBase_digits (List.cons_ne_nil _ _) hdigits fun c hc => by
        obtain rfl := Option.some.inj hc
        decide
  exact ⟨_, l₂, nextToken_digit hl (hdigits d List.mem_cons_self) hnumber, rfl, hl₂⟩

/-! ### Strings and names -/

theorem Tables.Lexes.quoted {text : List Char} (h : text ≠ []) :
    tables.Lexes (formatQuoted text) [Tables.characterOrString text] := by
  have heof : (Tables.characterOrString text).isEof = false := by
    unfold Tables.characterOrString
    split <;> rfl
  refine .token heof fun l after hl hafter => ?_
  obtain ⟨t, hok, htype, -, -, hrest⟩ := nextToken_quoteString tables false hl (.inl h)
  exact ⟨t, _, Prod.ext hok rfl, htype, hrest⟩

/-- A text of the class is read to its end. -/
theorem readWhile_all {p : Char → Bool} {text after : List Char} (htext : ∀ c ∈ text, p c = true)
    (hafter : after.head?.any p = false) {l : Lexer} (hl : l.rest = text ++ after) :
    (l.readWhile p).1 = text ∧ (l.readWhile p).2.rest = after := by
  induction text generalizing l with
  | nil =>
    rw [readWhile_stop (by rwa [current, hl])]
    exact ⟨rfl, hl⟩
  | cons c text ih =>
    have hrest := @ih (fun d hd => htext d (List.mem_cons_of_mem c hd)) l.advance
      (by rw [advance_rest, hl]; rfl)
    rw [readWhile_cons hl (htext c List.mem_cons_self), hrest.1]
    exact ⟨rfl, hrest.2⟩

/-- A name in its normal form is read to its end. -/
theorem readIdentifier_all (hT : tables.Standard) {name after : List Char}
    (hname : ∀ c ∈ name, tables.isIdentifierContinue c = true) (hnfc : tables.nfc name = name)
    (hafter : Ends after) {l : Lexer} (hl : l.rest = name ++ after) :
    (tables.readIdentifier l).1 = name ∧ (tables.readIdentifier l).2.rest = after := by
  obtain ⟨hraw, hrest⟩ := readWhile_all hname (hafter.any (isIdentifierContinue_end hT)) hl
  exact ⟨(congrArg tables.nfc hraw).trans hnfc, hrest⟩

theorem Tables.Lexes.bool (hT : tables.Standard) (b : Bool) :
    tables.Lexes (formatBool b) [if b then .true_ else .false_] := by
  have hletter : ∀ (c : Char) (t : TokenType), c = 'T' ∨ c = 'F' →
      TokenType.fromIdentifier [c] = t → t.isEof = false → tables.Lexes [c] [t] := by
    intro c t hc ht heof
    refine .token heof fun l after hl hafter => ?_
    have hlt : c.toNat < 128 := by rcases hc with rfl | rfl <;> decide
    have hstart : tables.isIdentifierStart c = true := by
      have hxid := hT.start c (by rcases hc with rfl | rfl <;> decide)
      rw [Tables.isIdentifierStart, hxid, Bool.or_true]
    obtain ⟨hname, hrest⟩ := @readIdentifier_all tables hT [c] after
      (fun d hd => by
        obtain rfl := List.mem_singleton.mp hd
        exact tables.isIdentifierContinue_of_start hstart)
      (hT.nfc [c] fun d hd => by
        obtain rfl := List.mem_singleton.mp hd
        exact hlt) hafter l hl
    have hsymbol : symbol? (c :: after) = none := by
      refine symbol?_none after ?_
      rcases hc with rfl | rfl <;> decide
    have hcons : l.rest = c :: after := hl
    have hread : tables.readToken false l.bytePos l = (.ok t, (tables.readIdentifier l).2) := by
      rw [readToken_plain hcons (by rcases hc with rfl | rfl <;> decide)
        (by rcases hc with rfl | rfl <;> decide) hsymbol, hname, ht, if_pos hstart]
      rcases hc with rfl | rfl <;> rfl
    rw [nextToken_cons tables false hcons (by rcases hc with rfl | rfl <;> decide), hread]
    exact ⟨_, _, rfl, emit_tokenType _ _ _, hrest⟩
  cases b with
  | true => exact hletter 'T' .true_ (.inl rfl) (by decide) rfl
  | false => exact hletter 'F' .false_ (.inr rfl) (by decide) rfl

theorem readToken_backtick {rest : List Char} (hl : l.rest = backtick :: rest) :
    tables.readToken false l.bytePos l = tables.readTag l.bytePos l := by
  rw [readToken_plain hl (by decide) (by decide) (symbol?_none rest (by decide))]
  rfl

theorem Tables.Lexes.tag (hT : tables.Standard) {name : List Char} (h : tables.IsTagName name) :
    tables.Lexes (backtick :: name) [.tag name] := by
  obtain ⟨⟨c, rest, rfl, hstart, hcontinue⟩, hnfc⟩ := h
  refine .token rfl fun l after hl hafter => ?_
  have hadvance : l.advance.rest = (c :: rest) ++ after := by rw [advance_rest, hl]; rfl
  obtain ⟨hname, hrest⟩ := @readIdentifier_all tables hT (c :: rest) after
    (fun d hd => by
      rcases List.mem_cons.mp hd with rfl | hd
      · exact tables.isIdentifierContinue_of_start hstart
      · exact hcontinue d hd) hnfc hafter l.advance hadvance
  have hread : tables.readToken false l.bytePos l =
      (.ok (.tag (c :: rest)), (tables.readIdentifier l.advance).2) := by
    have hcurrent : l.advance.current = some c := by rw [current, hadvance]; rfl
    rw [readToken_backtick hl, Tables.readTag]
    simp only [hcurrent, hstart, if_true, hname]
  rw [nextToken_cons tables false hl (by decide), hread]
  exact ⟨_, _, rfl, rfl, hrest⟩

/-- A backtick before an end. -/
theorem Tables.Lexes.loneBacktick (hT : tables.Standard) : tables.Lexes [backtick] [.backtick] := by
  refine .token rfl fun l after hl hafter => ?_
  have hadvance : l.advance.rest = after := by rw [advance_rest, hl]; rfl
  have hcontinue := hafter.any (isIdentifierContinue_end hT)
  have hread : tables.readToken false l.bytePos l = (.ok .backtick, l.advance) := by
    rw [readToken_backtick hl, Tables.readTag]
    cases hcurrent : l.advance.current with
    | none => rfl
    | some c =>
      have hc : tables.isIdentifierContinue c = false := by
        rw [current, hadvance] at hcurrent
        rwa [hcurrent] at hcontinue
      have hstart : tables.isIdentifierStart c = false := by
        rw [Bool.eq_false_iff]
        intro hstart
        rw [tables.isIdentifierContinue_of_start hstart] at hc
        cases hc
      simp only [hstart, hc, Bool.false_eq_true, if_false]
  rw [nextToken_cons tables false hl (by decide), hread]
  exact ⟨_, _, rfl, rfl, hadvance⟩

/-! ### Parentheses -/

/-- Texts separated by semicolons, before a closing parenthesis. -/
theorem Tables.Lexes.separated {texts : List (List Char)} {tss : List (List TokenType)}
    (h : List.Forall₂ tables.Lexes texts tss) :
    tables.Lexes (List.intercalate [';'] texts ++ [')'])
      (List.intercalate [.semicolon] tss ++ [.rightParen]) := by
  have hclose : tables.Lexes [')'] [.rightParen] :=
    .symbol rfl (by decide) (by decide) (fun h => by cases h)
      (fun after _ => symbol?_rightParen after) .nil
  induction h with
  | nil => exact hclose
  | @cons text ts texts tss hfirst hrest ih =>
    cases hrest with
    | nil =>
      rw [List.intercalate_singleton, List.intercalate_singleton]
      exact hfirst.append hclose fun after _ => .cons _ (.inl rfl)
    | @cons text' ts' texts tss =>
      rw [List.intercalate_cons_cons, List.intercalate_cons_cons, List.append_assoc,
        List.append_assoc, List.append_assoc, List.append_assoc]
      refine hfirst.append ?_ fun after _ => .cons _ (.inr (.inl rfl))
      exact .symbol rfl (by decide) (by decide) (fun h => by cases h)
        (fun after _ => symbol?_semicolon _) ih

theorem Tables.Lexes.parens {texts : List (List Char)} {tss : List (List TokenType)}
    (h : List.Forall₂ tables.Lexes texts tss) :
    tables.Lexes (inParens texts)
      (.leftParen :: (List.intercalate [.semicolon] tss ++ [.rightParen])) :=
  .symbol rfl (by decide) (by decide) (fun h => by cases h) (fun _ _ => symbol?_leftParen _)
    (.separated h)

/-- A text that does not begin with a colon, which would go on with the symbol before it. -/
def Begins (text : List Char) : Prop := ∃ c rest, text = c :: rest ∧ c ≠ ':'

theorem Begins.head? {text : List Char} (h : Begins text) (after : List Char) :
    (text ++ after).head? ≠ some ':' := by
  obtain ⟨c, rest, rfl, hc⟩ := h
  exact fun heq => hc (Option.some.inj heq)

theorem Tables.Lexes.comma {text : List Char} {ts : List TokenType} (h : tables.Lexes text ts)
    (hbegins : Begins text) : tables.Lexes (',' :: text) (.comma :: ts) :=
  .symbol rfl (by decide) (by decide) (fun h => by cases h)
    (fun after _ => symbol?_comma (hbegins.head? after)) h

theorem Tables.Lexes.minus {text : List Char} {ts : List TokenType} (h : tables.Lexes text ts)
    (hbegins : Begins text) : tables.Lexes ('-' :: text) (.minus :: ts) :=
  .symbol rfl (by decide) (by decide) (fun h => by cases h)
    (fun after _ => symbol?_minus (hbegins.head? after)) h

/-- A key and the value behind it. -/
theorem Tables.Lexes.pair {key text : List Char} {ts ts' : List TokenType}
    (hkey : tables.Lexes key ts) (h : tables.Lexes text ts') :
    tables.Lexes (key ++ ':' :: text) (ts ++ .colon :: ts') := by
  refine hkey.append ?_ fun after _ => .cons _ (.inr (.inr (.inl rfl)))
  exact .symbol rfl (by decide) (by decide) (fun h => by cases h) (fun _ _ => symbol?_colon _) h

end Reading

end Lex
end Wqpl
