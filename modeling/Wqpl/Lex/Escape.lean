/-
# Escape sequences in strings

`unescapeStringInner` gives the characters that the inner text of a string
stands for. The names of `\N{...}` come from the Unicode tables, which are a
parameter.
-/
import Wqpl.Spans

namespace Wqpl
namespace Lex

inductive UnescapeErrorKind
  | invalidHexEscape
  | invalidUnicodeEscape
  | invalidUnicodeScalar
  | invalidUnicodeNameEscape
  | unknownUnicodeName
deriving DecidableEq, Repr

structure UnescapeError where
  kind : UnescapeErrorKind
  /-- The byte at which the error is reported. -/
  index : Nat
deriving DecidableEq, Repr

/-- `is_ascii_hexdigit`. -/
def isHexDigit (c : Char) : Bool :=
  c.isDigit || ('a' ≤ c && c ≤ 'f') || ('A' ≤ c && c ≤ 'F')

def hexVal (c : Char) : Nat :=
  if c.isDigit then c.toNat - '0'.toNat
  else if 'a' ≤ c ∧ c ≤ 'f' then c.toNat - 'a'.toNat + 10
  else if 'A' ≤ c ∧ c ≤ 'F' then c.toNat - 'A'.toNat + 10
  else 0

/-- `char::from_u32`. -/
def charFromU32 (n : Nat) : Option Char := if n.isValidChar then some (Char.ofNat n) else none

/-- The digits of `\u{...}`, after the brace. -/
def unicodeDigits : List Char → (val digits i : Nat) →
    Except UnescapeError (List Char × List Char × Nat)
  | '}' :: rest, val, digits, i =>
    if digits = 0 then .error ⟨.invalidUnicodeEscape, i + 1⟩
    else
      match charFromU32 val with
      | some c => .ok ([c], rest, i + 1)
      | none => .error ⟨.invalidUnicodeScalar, i + 1⟩
  | c :: rest, val, digits, i =>
    if isHexDigit c then
      if digits + 1 > 6 then .error ⟨.invalidUnicodeEscape, i + 1⟩
      else unicodeDigits rest (16 * val + hexVal c) (digits + 1) (i + 1)
    else .error ⟨.invalidUnicodeEscape, i⟩
  | [], _, _, i => .error ⟨.invalidUnicodeEscape, i⟩

/-- The name of `\N{...}`, after the brace, and what comes after it. -/
def unicodeName : List Char → Option (List Char × List Char)
  | [] => none
  | '}' :: rest => some ([], rest)
  | c :: rest => (unicodeName rest).map fun (name, rest) => (c :: name, rest)

variable (lookupName : List Char → Option (List Char))

/-- One escape sequence after its backslash, at the byte `start`: what it stands
for, the rest and the byte after it. -/
def unescapeSequence (start : Nat) : List Char → Except UnescapeError (List Char × List Char × Nat)
  | [] => .ok (['\\'], [], start + 1)
  | '"' :: rest => .ok (['"'], rest, start + 2)
  | '\'' :: rest => .ok (['\''], rest, start + 2)
  | '\\' :: rest => .ok (['\\'], rest, start + 2)
  | 'n' :: rest => .ok (['\n'], rest, start + 2)
  | 'r' :: rest => .ok (['\r'], rest, start + 2)
  | 't' :: rest => .ok (['\t'], rest, start + 2)
  | '0' :: rest => .ok ([Char.ofNat 0], rest, start + 2)
  | 'x' :: d :: d' :: rest =>
    if isHexDigit d && isHexDigit d' then
      .ok ([Char.ofNat (16 * hexVal d + hexVal d')], rest, start + 4)
    else .error ⟨.invalidHexEscape, start⟩
  | 'x' :: _ => .error ⟨.invalidHexEscape, start⟩
  | 'u' :: '{' :: rest => unicodeDigits rest 0 0 (start + 3)
  | 'u' :: _ => .error ⟨.invalidUnicodeEscape, start + 2⟩
  | 'U' :: _ => .error ⟨.invalidUnicodeEscape, start⟩
  | 'N' :: '{' :: rest =>
    match unicodeName rest with
    | none | some ([], _) => .error ⟨.invalidUnicodeNameEscape, start⟩
    | some (name, rest) =>
      match lookupName name with
      | none => .error ⟨.unknownUnicodeName, start⟩
      | some value => .ok (value, rest, start + 4 + Text.byteLen name)
  | 'N' :: _ => .error ⟨.invalidUnicodeNameEscape, start⟩
  | other :: rest => .ok (['\\', other], rest, start + 1 + other.utf8Size)

theorem unicodeDigits_length {text : List Char} {val digits i : Nat} {out rest : List Char}
    {j : Nat} (h : unicodeDigits text val digits i = .ok (out, rest, j)) :
    rest.length ≤ text.length := by
  induction text generalizing val digits i with
  | nil => cases h
  | cons c text ih =>
    unfold unicodeDigits at h
    split at h
    case h_1 heq =>
      obtain ⟨rfl, rfl⟩ := List.cons_eq_cons.mp heq
      split at h
      · cases h
      · split at h <;> cases h
        exact Nat.le_succ _
    case h_2 heq =>
      obtain ⟨rfl, rfl⟩ := List.cons_eq_cons.mp heq
      split at h
      · split at h
        · cases h
        · exact Nat.le_succ_of_le (ih h)
      · cases h
    case h_3 heq => cases heq

theorem unicodeName_length {text name rest : List Char} (h : unicodeName text = some (name, rest)) :
    rest.length ≤ text.length := by
  induction text generalizing name with
  | nil => cases h
  | cons c text ih =>
    unfold unicodeName at h
    split at h
    case h_1 heq => cases heq
    case h_2 heq =>
      obtain ⟨rfl, rfl⟩ := List.cons_eq_cons.mp heq
      cases h
      exact Nat.le_succ _
    case h_3 heq =>
      obtain ⟨rfl, rfl⟩ := List.cons_eq_cons.mp heq
      obtain ⟨⟨name', rest'⟩, hname, heq⟩ := Option.map_eq_some_iff.mp h
      cases heq
      exact Nat.le_succ_of_le (ih hname)

variable {lookupName}

theorem unescapeSequence_length {text out rest : List Char} {start j : Nat}
    (h : unescapeSequence lookupName start text = .ok (out, rest, j)) :
    rest.length ≤ text.length := by
  unfold unescapeSequence at h
  split at h
  case h_9 =>
    split at h <;> cases h
    simp only [List.length_cons]
    omega
  case h_11 =>
    have := unicodeDigits_length h
    simp only [List.length_cons]
    omega
  case h_14 =>
    split at h
    · cases h
    · cases h
    · rename_i hname
      have := unicodeName_length hname
      split at h <;> cases h
      simp only [List.length_cons]
      omega
  all_goals
    cases h
    try simp only [List.length_cons]
    try omega

variable (lookupName)

/-- `unescape_string_inner` from the byte `i` on. -/
def unescapeFrom (text : List Char) (i : Nat) : Except UnescapeError (List Char) :=
  match text with
  | [] => .ok []
  | '\\' :: text =>
    match h : unescapeSequence lookupName i text with
    | .error err => .error err
    | .ok (out, rest, j) =>
      have := unescapeSequence_length h
      (unescapeFrom rest j).map (out ++ ·)
  | c :: text => (unescapeFrom text (i + c.utf8Size)).map (c :: ·)
termination_by text.length
decreasing_by all_goals simp_all <;> omega

def unescapeStringInner (text : List Char) : Except UnescapeError (List Char) :=
  unescapeFrom lookupName text 0

/-- `valid_escape_sequence_len`. -/
def validEscapeSequenceLen : List Char → Option Nat
  | '\\' :: 'x' :: d :: d' :: _ => if isHexDigit d && isHexDigit d' then some 4 else none
  | '\\' :: 'u' :: '{' :: rest =>
    (unicodeName rest).bind fun (digits, _) =>
      if 1 ≤ digits.length ∧ digits.length ≤ 6 ∧ digits.all isHexDigit then
        (charFromU32 (digits.foldl (fun val d => 16 * val + hexVal d) 0)).map fun _ =>
          digits.length + 4
      else none
  | '\\' :: 'N' :: '{' :: rest =>
    (unicodeName rest).bind fun (name, _) =>
      if name ≠ [] ∧ (lookupName name).isSome then some (Text.byteLen name + 4) else none
  | '\\' :: c :: _ => if c ∈ ['"', '\'', '\\', 'n', 'r', 't', '0'] then some 2 else none
  | _ => none

variable {lookupName} in
theorem validEscapeSequenceLen_pos {text : List Char} {n : Nat}
    (h : validEscapeSequenceLen lookupName text = some n) : 0 < n := by
  unfold validEscapeSequenceLen at h
  split at h
  · grind
  · obtain ⟨⟨digits, rest⟩, -, h⟩ := Option.bind_eq_some_iff.mp h
    dsimp only at h
    split at h
    · obtain ⟨_, -, rfl⟩ := Option.map_eq_some_iff.mp h
      exact Nat.succ_pos _
    · cases h
  · obtain ⟨⟨name, rest⟩, -, h⟩ := Option.bind_eq_some_iff.mp h
    grind
  · grind
  · cases h

/-! ### Quoting -/

/-- `char::is_control`. -/
def isControl (c : Char) : Bool := c.toNat < 0x20 || (0x7f ≤ c.toNat && c.toNat ≤ 0x9f)

def escapeChar (quote c : Char) : List Char :=
  if c = quote then ['\\', quote]
  else if c = '\\' then ['\\', '\\']
  else if c = '\n' then ['\\', 'n']
  else if c = '\r' then ['\\', 'r']
  else if c = '\t' then ['\\', 't']
  else if c = Char.ofNat 0 then ['\\', '0']
  else if !isControl c then [c]
  else "\\u\x7b".toList ++ Nat.toDigits 16 c.toNat ++ ['}']

/-- `quote_string`. -/
def quoteString (text : List Char) (quote : Char) : List Char :=
  quote :: text.flatMap (escapeChar quote) ++ [quote]

end Lex
end Wqpl
