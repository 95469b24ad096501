/-
# The lexer

A lexer reads a text character by character (`advance` is the only step) with
up to two characters of lookahead. `nextToken` skips blanks and reads one
token; `tokenize` stops at the first error, `tokenizeRecovery` makes an error
token of it and goes on, and takes strings and comments that do not end for
ended at the end of the text.

The Unicode tables and the conversions to floats are parameters.
-/
import Wqpl.Lex.Escape
import Wqpl.Lex.Token

namespace Wqpl
namespace Lex

/-- What the lexer takes from the Unicode tables and the numbers of the platform.
A character that can start an identifier can continue one. -/
structure Tables where
  isXidStart : Char → Bool
  isXidContinue : Char → Bool
  xidContinue_of_xidStart : ∀ c, isXidStart c = true → isXidContinue c = true
  nfc : List Char → List Char
  lookupName : List Char → Option (List Char)
  parseFloat : List Char → Option F64
  intToFloat : Int → F64

inductive ErrorType
  | syntax_
  | eof
deriving DecidableEq, Repr

structure LexError where
  errorType : ErrorType
  byteStart : Nat
  byteEnd : Nat
  msg : String
deriving DecidableEq, Repr

/-- `rest` begins with the current character; `position` counts the characters
up to it. -/
structure Lexer where
  source : List Char
  rest : List Char
  position : Nat
  line : Nat
  column : Nat
  bytePos : Nat
deriving DecidableEq, Repr

/-- `is_whitespace`. -/
def isWhitespace (c : Char) : Bool :=
  let n := c.toNat
  (0x09 ≤ n && n ≤ 0x0d) || n == 0x20 || n == 0x85 || n == 0xa0 || n == 0x1680 ||
    (0x2000 ≤ n && n ≤ 0x200a) || n == 0x2028 || n == 0x2029 || n == 0x202f || n == 0x205f ||
    n == 0x3000

namespace Tables

variable (tables : Tables)

def isIdentifierStart (c : Char) : Bool := c == '_' || tables.isXidStart c

def isIdentifierContinue (c : Char) : Bool := c == '_' || c == '?' || tables.isXidContinue c

theorem isIdentifierContinue_of_start {c : Char} (h : tables.isIdentifierStart c = true) :
    tables.isIdentifierContinue c = true := by
  rcases Bool.or_eq_true_iff.mp h with h | h
  · simp [isIdentifierContinue, h]
  · simp [isIdentifierContinue, tables.xidContinue_of_xidStart c h]

end Tables

namespace Lexer

def new (source : List Char) : Lexer :=
  ⟨source, source, if source = [] then 0 else 1, 1, 0, 0⟩

def advance (l : Lexer) : Lexer :=
  match l.rest with
  | [] => l
  | c :: rest =>
    { l with
      rest := rest
      position := if rest = [] then l.position else l.position + 1
      line := if c = '\n' then l.line + 1 else l.line
      column := if c = '\n' then 0 else l.column + 1
      bytePos := l.bytePos + c.utf8Size }

/-- Several steps. -/
def advances : Lexer → Nat → Lexer
  | l, 0 => l
  | l, n + 1 => advances l.advance n

@[simp] theorem advance_rest (l : Lexer) : l.advance.rest = l.rest.tail := by
  unfold advance
  split <;> simp [*]

/-- The lexer has been advanced to another. -/
def Reaches (l l' : Lexer) : Prop := ∃ n, l' = advances l n

namespace Reaches

theorem refl (l : Lexer) : Reaches l l := ⟨0, rfl⟩

theorem step {l l' : Lexer} (h : Reaches l.advance l') : Reaches l l' := by
  obtain ⟨n, rfl⟩ := h
  exact ⟨n + 1, rfl⟩

theorem trans {l l' l'' : Lexer} (h : Reaches l l') (h' : Reaches l' l'') : Reaches l l'' := by
  obtain ⟨n, rfl⟩ := h
  induction n generalizing l with
  | zero => exact h'
  | succ n ih => exact step (ih h')

theorem length_le {l l' : Lexer} (h : Reaches l l') : l'.rest.length ≤ l.rest.length := by
  obtain ⟨n, rfl⟩ := h
  induction n generalizing l with
  | zero => exact le_refl _
  | succ n ih =>
    have hstep := ih (l := l.advance)
    rw [advance_rest, List.length_tail] at hstep
    exact le_trans hstep (Nat.sub_le _ _)

theorem length_lt {l l' : Lexer} (h : Reaches l.advance l') (hl : l.rest ≠ []) :
    l'.rest.length < l.rest.length := by
  have hle := h.length_le
  have hpos := List.length_pos_iff.mpr hl
  rw [advance_rest, List.length_tail] at hle
  omega

end Reaches

def current (l : Lexer) : Option Char := l.rest.head?

/-- Advances while the current character is of the class. -/
def readWhile (p : Char → Bool) (l : Lexer) : List Char × Lexer :=
  match _h : l.rest with
  | [] => ([], l)
  | c :: _ =>
    if p c then
      let (text, l') := readWhile p l.advance
      (c :: text, l')
    else ([], l)
termination_by l.rest.length
decreasing_by simp [*]

theorem readWhile_reaches (p : Char → Bool) (l : Lexer) : Reaches l (l.readWhile p).2 := by
  fun_induction readWhile p l <;> grind [Reaches.refl, Reaches.step]

def skipWhitespace (l : Lexer) : Lexer := (l.readWhile fun c => isWhitespace c && c != '\n').2

theorem skipWhitespace_reaches (l : Lexer) : Reaches l l.skipWhitespace := readWhile_reaches _ l

/-- The source between two places where the lexer has been. -/
def slice (l : Lexer) (start stop : Nat) : List Char := (Text.slice? l.source start stop).getD []

end Lexer

/-- A token or an error, and the lexer after it. -/
abbrev Read := Except LexError TokenType × Lexer

def syntaxError (start stop : Nat) (msg : String) : LexError := ⟨.syntax_, start, stop, msg⟩

/-- A token that does not end before the text: read as far as it goes, or an error. -/
def unterminated (recovery : Bool) (t : TokenType) (start stop : Nat) (msg : String) :
    Except LexError TokenType :=
  if recovery then .ok t else .error ⟨.eof, start, stop, msg⟩

/-! ### Numbers -/

def isDigitForBase (base : Nat) (c : Char) : Bool :=
  if base = 2 then c == '0' || c == '1'
  else if base = 8 then c.isDigit && c ≤ '7'
  else if base = 16 then isHexDigit c
  else c.isDigit

/-- The base of `0b`, `0o` and `0x`. -/
def prefixBase (c : Char) : Option Nat :=
  if c = 'b' ∨ c = 'B' then some 2
  else if c = 'o' ∨ c = 'O' then some 8
  else if c = 'x' ∨ c = 'X' then some 16
  else none

def ofDigits (base : Nat) (digits : List Char) : Nat :=
  digits.foldl (fun n d => base * n + hexVal d) 0

namespace Lexer

/-- The digits after a prefix; an underscore only between two digits. -/
def readPrefixed (isDigit : Char → Bool) (prevWasDigit : Bool) (l : Lexer) : List Char × Lexer :=
  match _h : l.rest with
  | [] => ([], l)
  | c :: rest =>
    if isDigit c then
      let (raw, l') := readPrefixed isDigit true l.advance
      (c :: raw, l')
    else if c = '_' ∧ prevWasDigit = true ∧ rest.head?.any isDigit = true then
      readPrefixed isDigit false l.advance
    else ([], l)
termination_by l.rest.length
decreasing_by all_goals simp [*]

theorem readPrefixed_reaches (isDigit : Char → Bool) (prev : Bool) (l : Lexer) :
    Reaches l (l.readPrefixed isDigit prev).2 := by
  fun_induction readPrefixed isDigit prev l <;> grind [Reaches.refl, Reaches.step]

/-- The digits, point and exponent of a decimal number, and whether it is a float. -/
def readDecimal (last : Option Char) (isFloat hasExp : Bool) (l : Lexer) :
    List Char × Bool × Lexer :=
  match _h : l.rest with
  | [] => ([], isFloat, l)
  | c :: rest =>
    if c.isDigit then
      let (raw, isFloat, l') := readDecimal (some c) isFloat hasExp l.advance
      (c :: raw, isFloat, l')
    else if c = '_' then
      if last.any Char.isDigit = true ∧ rest.head?.any Char.isDigit = true then
        readDecimal last isFloat hasExp l.advance
      else ([], isFloat, l)
    else if c = '.' ∧ isFloat = false ∧ hasExp = false then
      if rest.head?.any Char.isDigit = true then
        let (raw, isFloat, l') := readDecimal (some c) true hasExp l.advance
        (c :: raw, isFloat, l')
      else ([], isFloat, l)
    else if (c = 'e' ∨ c = 'E') ∧ hasExp = false then
      match rest.head? with
      | some '+' =>
        let (raw, isFloat, l') := readDecimal (some '+') true true l.advance.advance
        (c :: '+' :: raw, isFloat, l')
      | some '-' =>
        let (raw, isFloat, l') := readDecimal (some '-') true true l.advance.advance
        (c :: '-' :: raw, isFloat, l')
      | _ =>
        let (raw, isFloat, l') := readDecimal (some c) true true l.advance
        (c :: raw, isFloat, l')
    else ([], isFloat, l)
termination_by l.rest.length
decreasing_by all_goals (simp [*]; try omega)

theorem readDecimal_reaches (last : Option Char) (isFloat hasExp : Bool) (l : Lexer) :
    Reaches l (l.readDecimal last isFloat hasExp).2.2 := by
  fun_induction readDecimal last isFloat hasExp l <;> grind [Reaches.refl, Reaches.step]

end Lexer

namespace Tables

open Lexer

variable (tables : Tables)

/-- An integer, or an imaginary number if an `i` follows. -/
def finishInteger (n : Nat) (start : Nat) (l : Lexer) : Read :=
  if InI64 n then
    if l.current = some 'i' then (.ok (.imaginary (tables.intToFloat n)), l.advance)
    else (.ok (.integer n), l)
  else if l.current = some 'i' then
    if (tables.intToFloat n).isNaN = false ∧ (tables.intToFloat n).isInfinite = false then
      (.ok (.imaginary (tables.intToFloat n)), l.advance)
    else (.error (syntaxError start l.bytePos "imaginary literal overflow"), l)
  else (.ok (.bigInteger n), l)

def readNumber (start : Nat) (l : Lexer) : Read :=
  match l.rest with
  | '0' :: c :: _ =>
    match prefixBase c with
    | some base =>
      let (raw, l) := l.advance.advance.readPrefixed (isDigitForBase base) false
      if raw = [] then (.error (syntaxError start l.bytePos "expected digits after base prefix"), l)
      else tables.finishInteger (ofDigits base raw) start l
    | none => decimal
  | _ => decimal
where
  decimal : Read :=
    let (raw, isFloat, l) := l.readDecimal none false false
    if isFloat then
      match tables.parseFloat raw with
      | none => (.error (syntaxError start l.bytePos "invalid float literal"), l)
      | some f =>
        if l.current = some 'i' then (.ok (.imaginary f), l.advance) else (.ok (.float f), l)
    else if raw = [] then (.error (syntaxError start l.bytePos "invalid int literal"), l)
    else tables.finishInteger (ofDigits 10 raw) start l

/-! ### Identifiers and tags -/

def readIdentifier (l : Lexer) : List Char × Lexer :=
  let (raw, l) := l.readWhile tables.isIdentifierContinue
  (tables.nfc raw, l)

def readTag (start : Nat) (l : Lexer) : Read :=
  let l := l.advance
  match l.current with
  | none => (.ok .backtick, l)
  | some c =>
    if tables.isIdentifierStart c then
      let (name, l) := tables.readIdentifier l
      (.ok (.tag name), l)
    else if tables.isIdentifierContinue c then
      let (_, l) := l.advance.readWhile tables.isIdentifierContinue
      (.error (syntaxError start l.bytePos
        "tag name must start with a Unicode identifier character or '_'"), l)
    else (.ok .backtick, l)

end Tables

/-! ### Strings -/

namespace Lexer

/-- The text of a string in one pair of quotes, with its escapes, and whether it ends. -/
def readStringBody (l : Lexer) : List Char × Bool × Lexer :=
  match _h : l.rest with
  | [] => ([], false, l)
  | '\\' :: [] => (['\\'], false, l.advance)
  | '\\' :: next :: _ =>
    let (raw, closed, l') := readStringBody l.advance.advance
    ('\\' :: next :: raw, closed, l')
  | '"' :: _ => ([], true, l.advance)
  | c :: _ =>
    let (raw, closed, l') := readStringBody l.advance
    (c :: raw, closed, l')
termination_by l.rest.length
decreasing_by all_goals (simp [*]; try omega)

theorem readStringBody_reaches (l : Lexer) : Reaches l l.readStringBody.2.2 := by
  fun_induction readStringBody l <;> grind [Reaches.refl, Reaches.step]

/-- The text of a string in several quotes; `quotes` is the number of quotes
just read. -/
def readLongStringBody (quoteCount quotes : Nat) (l : Lexer) : List Char × Bool × Lexer :=
  match _h : l.rest with
  | [] => (List.replicate quotes '"', false, l)
  | '"' :: _ =>
    if quotes + 1 = quoteCount then ([], true, l.advance)
    else readLongStringBody quoteCount (quotes + 1) l.advance
  | '\\' :: [] => (List.replicate quotes '"' ++ ['\\'], false, l.advance)
  | '\\' :: next :: _ =>
    let (raw, closed, l') := readLongStringBody quoteCount 0 l.advance.advance
    (List.replicate quotes '"' ++ '\\' :: next :: raw, closed, l')
  | c :: _ =>
    let (raw, closed, l') := readLongStringBody quoteCount 0 l.advance
    (List.replicate quotes '"' ++ c :: raw, closed, l')
termination_by l.rest.length
decreasing_by all_goals (simp [*]; try omega)

theorem readLongStringBody_reaches (quoteCount quotes : Nat) (l : Lexer) :
    Reaches l (l.readLongStringBody quoteCount quotes).2.2 := by
  fun_induction readLongStringBody quoteCount quotes l <;> grind [Reaches.refl, Reaches.step]

/-- The text up to a quote, without escapes. -/
def readRawBody (l : Lexer) : List Char × Bool × Lexer :=
  match _h : l.rest with
  | [] => ([], false, l)
  | '"' :: _ => ([], true, l.advance)
  | c :: _ =>
    let (raw, closed, l') := readRawBody l.advance
    (c :: raw, closed, l')
termination_by l.rest.length
decreasing_by all_goals simp [*]

theorem readRawBody_reaches (l : Lexer) : Reaches l l.readRawBody.2.2 := by
  fun_induction readRawBody l <;> grind [Reaches.refl, Reaches.step]

end Lexer

def unescapeMessage : UnescapeErrorKind → String
  | .invalidHexEscape => "invalid hex escape"
  | .invalidUnicodeEscape | .invalidUnicodeScalar => "invalid unicode escape"
  | .invalidUnicodeNameEscape => "invalid Unicode name escape"
  | .unknownUnicodeName => "unknown Unicode name"

def notTerminated : String := "string is not properly terminated"

def readRawString (recovery : Bool) (start : Nat) (l : Lexer) : Read :=
  let l := l.skipWhitespace
  if l.current ≠ some '"' then
    (.error (syntaxError start l.bytePos "expected '\"' after raw string prefix"), l)
  else
    let (raw, closed, l) := l.advance.readRawBody
    if closed then (.ok (.string raw), l)
    else (unterminated recovery (.string raw) start l.bytePos notTerminated, l)

namespace Tables

variable (tables : Tables)

def decodeStringContent (raw : List Char) (contentStart : Nat) : Except LexError (List Char) :=
  (unescapeStringInner tables.lookupName raw).mapError fun err =>
    syntaxError (contentStart + err.index) (contentStart + err.index + 1) (unescapeMessage err.kind)

def characterOrString : List Char → TokenType
  | [c] => .character c
  | content => .string content

def readStringLiteral (recovery : Bool) (start : Nat) (l : Lexer) : Read :=
  let (quotes, l) := l.readWhile (· == '"')
  let contentStart := l.bytePos
  if quotes.length = 2 then (.ok (.string []), l)
  else if quotes.length = 1 then
    let (raw, closed, l) := l.readStringBody
    if closed then ((tables.decodeStringContent raw contentStart).map characterOrString, l)
    else (unterminated recovery (.string raw) start l.bytePos notTerminated, l)
  else
    let (raw, closed, l) := l.readLongStringBody quotes.length 0
    if closed then ((tables.decodeStringContent raw contentStart).map .string, l)
    else (unterminated recovery (.string raw) start l.bytePos notTerminated, l)

end Tables

/-! ### Comments -/

namespace Lexer

/-- A comment in brackets, with the comments in it, and how many are left open. -/
def readInlineBody (depth : Nat) (l : Lexer) : List Char × Nat × Lexer :=
  match depth with
  | 0 => ([], 0, l)
  | depth + 1 =>
    match _h : l.rest with
    | [] => ([], depth + 1, l)
    | '/' :: '*' :: _ =>
      let (text, left, l') := readInlineBody (depth + 2) l.advance.advance
      ('/' :: '*' :: text, left, l')
    | '*' :: '/' :: _ =>
      let (text, left, l') := readInlineBody depth l.advance.advance
      if 0 < depth then ('*' :: '/' :: text, left, l') else (text, left, l')
    | c :: _ =>
      let (text, left, l') := readInlineBody (depth + 1) l.advance
      (c :: text, left, l')
termination_by l.rest.length
decreasing_by all_goals (simp [*]; try omega)

theorem readInlineBody_reaches (depth : Nat) (l : Lexer) :
    Reaches l (l.readInlineBody depth).2.2 := by
  fun_induction readInlineBody depth l <;> grind [Reaches.refl, Reaches.step]

end Lexer

def readInlineComment (recovery : Bool) (start : Nat) (l : Lexer) : Read :=
  let (comment, depth, l) := l.readInlineBody 1
  if depth = 0 then (.ok (.comment comment), l)
  else (unterminated recovery (.comment comment) start l.bytePos "expected closing '*/'", l)

def readLineComment (l : Lexer) : TokenType × Lexer :=
  let (comment, l) := l.readWhile (· != '\n')
  (.comment comment, l)

/-! ### Format strings -/

namespace Lexer

/-- Advances to the byte `stop`. -/
def advanceTo (stop : Nat) (l : Lexer) : Lexer :=
  match _h : l.rest with
  | [] => l
  | _ :: _ => if l.bytePos < stop then advanceTo stop l.advance else l
termination_by l.rest.length
decreasing_by simp [*]

theorem advanceTo_reaches (stop : Nat) (l : Lexer) : Reaches l (l.advanceTo stop) := by
  fun_induction advanceTo stop l <;> grind [Reaches.refl, Reaches.step]

/-- The expression in braces, with the strings in it, and how many braces are
left open. -/
def readBraced (depth : Nat) (inStr : Bool) (l : Lexer) : Nat × Lexer :=
  match _h : l.rest with
  | [] => (depth, l)
  | c :: _ =>
    if inStr then
      if c = '\\' then readBraced depth true l.advance.advance
      else readBraced depth (c != '"') l.advance
    else if c = '"' then readBraced depth true l.advance
    else if c = '{' then readBraced (depth + 1) false l.advance
    else if c = '}' then
      if depth = 1 then (0, l.advance) else readBraced (depth - 1) false l.advance
    else readBraced depth false l.advance
termination_by l.rest.length
decreasing_by all_goals (simp [*]; try omega)

theorem readBraced_reaches (depth : Nat) (inStr : Bool) (l : Lexer) :
    Reaches l (l.readBraced depth inStr).2 := by
  fun_induction readBraced depth inStr l <;> grind [Reaches.refl, Reaches.step]

end Lexer

namespace Tables

open Lexer

variable (tables : Tables)

/-- How far an escape sequence goes: at least two characters if there are two. -/
def escapeLen (text : List Char) : Nat :=
  (validEscapeSequenceLen tables.lookupName text).getD (Text.byteLen (text.take 2))

def advanceStringEscape (l : Lexer) : Lexer := l.advanceTo (l.bytePos + tables.escapeLen l.rest)

theorem escapeLen_pos {text : List Char} (h : text ≠ []) : 0 < tables.escapeLen text := by
  unfold escapeLen
  cases hvalid : validEscapeSequenceLen tables.lookupName text with
  | none =>
    refine Text.byteLen_pos ?_
    cases text with
    | nil => exact absurd rfl h
    | cons c text => exact List.cons_ne_nil _ _
  | some n => exact validEscapeSequenceLen_pos hvalid

theorem advanceStringEscape_length {l : Lexer} (h : l.rest ≠ []) :
    (tables.advanceStringEscape l).rest.length < l.rest.length := by
  have hpos := tables.escapeLen_pos h
  obtain ⟨c, rest, hrest⟩ := List.exists_cons_of_ne_nil h
  have heq : tables.advanceStringEscape l =
      l.advance.advanceTo (l.bytePos + tables.escapeLen l.rest) := by
    rw [advanceStringEscape, advanceTo]
    split
    · simp_all
    · rw [if_pos (by omega)]
  rw [heq]
  exact (advanceTo_reaches _ l.advance).length_lt h

/-- Adds the text since `textStart` to the parts, if there is one. -/
def pushText (parts : List FmtPart) (textStart : Option Nat) (stop : Nat) (l : Lexer) :
    Except LexError (List FmtPart) :=
  match textStart with
  | none => .ok parts
  | some start =>
    let content := l.slice start stop
    (tables.decodeStringContent content start).map fun _ => parts ++ [.text content start stop]

def readFormatBody (recovery : Bool) (start openQuote : Nat) (parts : List FmtPart)
    (textStart : Option Nat) (l : Lexer) : Read :=
  match h : l.rest with
  | [] =>
    if recovery then
      ((tables.pushText parts textStart l.bytePos l).map (.formatString · openQuote l.bytePos), l)
    else (.error ⟨.eof, start, l.bytePos, "format string is not properly terminated"⟩, l)
  | '"' :: _ =>
    let close := l.advance.bytePos - 1
    ((tables.pushText parts textStart close l).map (.formatString · openQuote close), l.advance)
  | '\\' :: _ =>
    have := tables.advanceStringEscape_length (l := l) (by simp [h])
    readFormatBody recovery start openQuote parts (some (textStart.getD l.bytePos))
      (tables.advanceStringEscape l)
  | '{' :: '{' :: _ | '}' :: '}' :: _ =>
    readFormatBody recovery start openQuote parts (some (textStart.getD l.bytePos))
      l.advance.advance
  | '{' :: _ =>
    match tables.pushText parts textStart l.bytePos l with
    | .error err => (.error err, l)
    | .ok parts =>
      match hbraced : l.advance.readBraced 1 false with
      | (depth, l') =>
        if depth ≠ 0 then
          (.error ⟨.eof, l.bytePos, l'.bytePos, "unterminated expression in format string"⟩, l')
        else
          have : l'.rest.length < l.rest.length := by
            have hreach := readBraced_reaches 1 false l.advance
            rw [hbraced] at hreach
            exact hreach.length_lt (by simp [h])
          readFormatBody recovery start openQuote
            (parts ++ [.expr (l.slice l.bytePos l'.bytePos) l.bytePos l'.bytePos]) none l'
  | '}' :: _ =>
    (.error (syntaxError l.bytePos (l.bytePos + 1) "unmatched '\x7d' in format string"), l)
  | _ :: _ =>
    readFormatBody recovery start openQuote parts (some (textStart.getD l.bytePos)) l.advance
termination_by l.rest.length
decreasing_by all_goals (first | assumption | (simp [*]; try omega))

/-- `read_format_string`; the current character is the opening quote. -/
def readFormatString (recovery : Bool) (start : Nat) (l : Lexer) : Read :=
  tables.readFormatBody recovery start l.bytePos [] none l.advance

end Tables

/-! ### Tokens -/

/-- The tokens that are a fixed text; of two that fit the longer comes first. -/
def symbols : List (List Char × TokenType) :=
  [(['*', '*'], .matmul), (['*', ':'], .multiplyColon), (['*'], .multiply),
    (['/', '%', ':'], .floorDivColon), (['/', '%'], .floorDiv), (['/', '.', ':'], .divideDotColon),
    (['/', '.'], .divideDot), (['/', ':'], .divideColon), (['/'], .divide),
    (['%', ':'], .moduloColon), (['%'], .modulo),
    (['$', '$'], .dollarDollar), (['$', '.'], .dollarDot), (['$'], .dollar),
    (['<', '='], .lessThanOrEqual), (['<'], .lessThan),
    (['>', '='], .greaterThanOrEqual), (['>'], .greaterThan),
    (['.', '.', '.'], .ellipsis), (['.', '.', '='], .rangeInclusive), (['.', '.'], .range),
    (['+', ':'], .plusColon), (['+'], .plus), (['-', ':'], .minusColon), (['-'], .minus),
    (['^', '.', ':'], .powerDotColon), (['^', '.'], .powerDot), (['^', ':'], .powerColon),
    (['^'], .power), ([':'], .colon), (['=', '.'], .equalDot), (['='], .equal),
    (['~', '.'], .notEqualDot), (['~'], .notEqual), (['#'], .sharp), (['!'], .bang),
    (['|', '|', '.'], .pipePipeDot), (['|', '|'], .pipePipe), (['|', '.'], .pipeDot),
    (['|'], .pipe), (['('], .leftParen), ([')'], .rightParen), (['['], .leftBracket),
    ([']'], .rightBracket), (['{'], .leftBrace), (['}'], .rightBrace), ([';'], .semicolon),
    ([',', ':'], .commaColon), ([','], .comma), (['\''], .apostrophe)]

def symbol? (text : List Char) : Option (List Char × TokenType) :=
  symbols.find? fun e => e.1.isPrefixOf text

def unrecognized (start : Nat) (l : Lexer) : Read :=
  (.error (syntaxError start l.bytePos "unrecognized character"), l.advance)

/-- The digits of a depth modifier, with underscores anywhere between them. -/
def readDepth (negative : Bool) (start : Nat) (l : Lexer) : Read :=
  let (raw, l) := l.readWhile fun c => c.isDigit || c == '_'
  let digits := ofDigits 10 (raw.filter Char.isDigit)
  let depth : Int := if negative then -digits else digits
  if InI64 depth then (.ok (.atDepth depth), l)
  else (.error (syntaxError start l.bytePos "depth modifier is too large"), l)

/-- The forms of one letter after `@`. -/
def atForm? (c : Char) : Option TokenType :=
  if c = 'b' then some .atBreak
  else if c = 'c' then some .atContinue
  else if c = 'r' then some .atReturn
  else if c = 'd' then some .atDebug
  else if c = 'p' then some .atPause
  else if c = 't' then some .atTry
  else if c = 'i' then some .atImport
  else if c = 's' then some .atSymbolic
  else none

namespace Tables

variable (tables : Tables)

/-- What follows `@`. -/
def readAt (recovery : Bool) (start : Nat) (l : Lexer) : Read :=
  match l.rest with
  | [] => unknown l
  | c :: rest =>
    match atForm? c with
    | some t => (.ok t, l.advance)
    | none =>
      if c.isDigit then readDepth false start l
      else if c = '-' ∧ rest.head?.any Char.isDigit = true then readDepth true start l.advance
      else if c = 'f' then
        let l := l.advance.skipWhitespace
        if l.current = some '"' then tables.readFormatString recovery start l
        else (.error (syntaxError start l.bytePos "expected string after @f"), l)
      else if c = 'l' then readRawString recovery start l.advance
      else unknown l.advance
where
  unknown (l : Lexer) : Read :=
    let spelling := (Text.slice? l.source start l.bytePos).getD ['@']
    (.error (syntaxError start l.bytePos
      ("unknown '@' form " ++ String.ofList (quoteString spelling '\''))), l)

def readToken (recovery : Bool) (start : Nat) (l : Lexer) : Read :=
  match l.rest with
  | [] => (.ok .eof, l)
  | '\n' :: _ => (.ok .newline, l.advance)
  | '/' :: '/' :: _ =>
    let (comment, l) := readLineComment l.advance.advance
    (.ok comment, l)
  | '/' :: '*' :: _ => readInlineComment recovery start l.advance.advance
  | c :: _ =>
    match symbol? l.rest with
    | some (text, t) => (.ok t, l.advances text.length)
    | none =>
      if c = '.' then unrecognized start l
      else if c = '@' then tables.readAt recovery start l.advance
      else if c = Char.ofNat 0x60 then tables.readTag start l
      else if c = '"' then tables.readStringLiteral recovery start l
      else if c.isDigit then tables.readNumber start l
      else if tables.isIdentifierStart c then
        let (name, l) := tables.readIdentifier l
        (.ok (.fromIdentifier name), l)
      else unrecognized start l

end Tables

end Lex
end Wqpl
