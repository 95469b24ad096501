/-
# Every reader advances the lexer

The readers reach their last state by steps of the lexer (`Reaches`), and take
the character that they were chosen for, so that a token is never empty
(`readToken_advance`).
-/
import Wqpl.Lex.Lexer

namespace Wqpl
namespace Lex

open Lexer

namespace Lexer

theorem Reaches.advance (l : Lexer) : Reaches l l.advance := .step (.refl _)

theorem readWhile_advance {p : Char → Bool} {l : Lexer} (h : l.current.any p = true) :
    Reaches l.advance (l.readWhile p).2 := by
  rw [readWhile]
  split
  · simp_all [current]
  · rename_i c rest hrest
    have hp : p c = true := by simpa [current, hrest] using h
    rw [if_pos hp]
    exact readWhile_reaches p l.advance

theorem readDecimal_advance {l : Lexer} (h : l.current.any Char.isDigit = true) :
    Reaches l.advance (l.readDecimal none false false).2.2 := by
  rw [readDecimal]
  split
  · simp_all [current]
  · rename_i c rest hrest
    have hc : c.isDigit = true := by simpa [current, hrest] using h
    rw [if_pos hc]
    exact readDecimal_reaches _ _ _ l.advance

end Lexer

namespace Tables

variable (tables : Tables)

theorem finishInteger_reaches (n start : Nat) (l : Lexer) :
    Reaches l (tables.finishInteger n start l).2 := by
  unfold finishInteger
  split_ifs <;> first
    | exact .refl l
    | exact .advance l

theorem readNumber_advance (start : Nat) {l : Lexer} (h : l.current.any Char.isDigit = true) :
    Reaches l.advance (tables.readNumber start l).2 := by
  have hdecimal : Reaches l.advance (readNumber.decimal tables start l).2 := by
    unfold readNumber.decimal
    have hread := readDecimal_advance h
    generalize l.readDecimal none false false = result at hread ⊢
    obtain ⟨raw, isFloat, l'⟩ := result
    dsimp only at hread ⊢
    cases isFloat with
    | true =>
      rw [if_pos rfl]
      split
      · exact hread
      · split
        · exact hread.trans (.advance l')
        · exact hread
    | false =>
      rw [if_neg Bool.false_ne_true]
      split
      · exact hread
      · exact hread.trans (tables.finishInteger_reaches _ _ _)
  unfold readNumber
  split
  · rename_i c rest hrest
    cases prefixBase c with
    | none => exact hdecimal
    | some base =>
      have hread := readPrefixed_reaches (isDigitForBase base) false l.advance.advance
      dsimp only
      split
      · exact .step hread
      · exact .step (hread.trans (tables.finishInteger_reaches _ _ _))
  · exact hdecimal

theorem readTag_advance (start : Nat) (l : Lexer) :
    Reaches l.advance (tables.readTag start l).2 := by
  unfold readTag
  dsimp only
  split
  · exact .refl _
  · split
    · exact readWhile_reaches _ _
    · split
      · exact .step (readWhile_reaches _ _)
      · exact .refl _

theorem readStringLiteral_advance (recovery : Bool) (start : Nat) {l : Lexer}
    (h : l.current = some '"') : Reaches l.advance (tables.readStringLiteral recovery start l).2 := by
  have hquotes : Reaches l.advance (l.readWhile (· == '"')).2 := readWhile_advance (by simp [h])
  unfold readStringLiteral
  generalize l.readWhile (· == '"') = result at hquotes ⊢
  obtain ⟨quotes, l'⟩ := result
  dsimp only at hquotes ⊢
  split
  · exact hquotes
  · split
    · split <;> exact hquotes.trans (readStringBody_reaches l')
    · split <;> exact hquotes.trans (readLongStringBody_reaches _ _ l')

end Tables

theorem readRawString_reaches (recovery : Bool) (start : Nat) (l : Lexer) :
    Reaches l (readRawString recovery start l).2 := by
  have hblank := skipWhitespace_reaches l
  unfold readRawString
  dsimp only
  split
  · exact hblank
  · have hbody := hblank.trans (.step (readRawBody_reaches l.skipWhitespace.advance))
    split <;> exact hbody

theorem readInlineComment_reaches (recovery : Bool) (start : Nat) (l : Lexer) :
    Reaches l (readInlineComment recovery start l).2 := by
  unfold readInlineComment
  dsimp only
  split <;> exact readInlineBody_reaches 1 l

theorem readDepth_reaches (negative : Bool) (start : Nat) (l : Lexer) :
    Reaches l (readDepth negative start l).2 := by
  unfold readDepth
  simp only [apply_ite Prod.snd, ite_self]
  exact readWhile_reaches _ l

theorem symbol?_ne_nil {text word : List Char} {t : TokenType}
    (h : symbol? text = some (word, t)) : word ≠ [] ∧ t.isEof = false := by
  have hall : ∀ e ∈ symbols, e.1 ≠ [] ∧ e.2.isEof = false := by decide
  exact hall _ (List.mem_of_find?_eq_some h)

namespace Tables

variable (tables : Tables)

theorem advanceStringEscape_reaches (l : Lexer) : Reaches l (tables.advanceStringEscape l) :=
  advanceTo_reaches _ l

theorem readFormatBody_reaches (recovery : Bool) (start openQuote : Nat) (parts : List FmtPart)
    (textStart : Option Nat) (l : Lexer) :
    Reaches l (tables.readFormatBody recovery start openQuote parts textStart l).2 := by
  fun_induction readFormatBody tables recovery start openQuote parts textStart l with
  | case1 | case2 | case7 | case10 => exact .refl _
  | case3 => exact .advance _
  | case4 parts textStart l tail h hlength ih => exact (tables.advanceStringEscape_reaches l).trans ih
  | case5 parts textStart l tail h ih => exact .step (.step ih)
  | case6 parts textStart l tail h ih => exact .step (.step ih)
  | case8 parts textStart l tail hbrace h parts' hparts depth l' hbraced hdepth =>
    have hread := readBraced_reaches 1 false l.advance
    rw [hbraced] at hread
    exact .step hread
  | case9 parts textStart l tail hbrace h parts' hparts depth l' hbraced hdepth hlength ih =>
    have hread := readBraced_reaches 1 false l.advance
    rw [hbraced] at hread
    exact .step (hread.trans ih)
  | case11 parts textStart l c tail _ _ _ _ _ _ h ih => exact .step ih

theorem readFormatString_reaches (recovery : Bool) (start : Nat) (l : Lexer) :
    Reaches l (tables.readFormatString recovery start l).2 :=
  .step (tables.readFormatBody_reaches _ _ _ _ _ _)

theorem readAt_reaches (recovery : Bool) (start : Nat) (l : Lexer) :
    Reaches l (tables.readAt recovery start l).2 := by
  unfold readAt
  split
  · exact .refl l
  · split
    · exact .advance l
    · split_ifs
      · exact readDepth_reaches _ _ _
      · exact .step (readDepth_reaches _ _ _)
      · have hblank := skipWhitespace_reaches l.advance
        dsimp only
        split
        · exact .step (hblank.trans (tables.readFormatString_reaches _ _ _))
        · exact .step hblank
      · exact .step (readRawString_reaches _ _ _)
      · exact .advance l

/-- A token takes the current character. -/
theorem readToken_advance (recovery : Bool) (start : Nat) {l : Lexer} (h : l.rest ≠ []) :
    Reaches l.advance (tables.readToken recovery start l).2 := by
  unfold readToken
  split
  · exact absurd ‹_› h
  · exact .refl _
  · exact .step (readWhile_reaches _ _)
  · exact .step (readInlineComment_reaches _ _ _)
  · rename_i c rest _ _ _ hrest
    have hcurrent : l.current = some c := by rw [current, hrest, List.head?_cons]
    split
    · rename_i text t hsymbol
      obtain ⟨n, hn⟩ := Nat.exists_eq_succ_of_ne_zero
        (mt List.length_eq_zero_iff.mp (symbol?_ne_nil hsymbol).1)
      rw [hn]
      exact ⟨n, rfl⟩
    · split_ifs with hdot hat hbacktick hquote hdigit hstart
      · exact .refl _
      · exact tables.readAt_reaches _ _ _
      · exact tables.readTag_advance _ _
      · exact tables.readStringLiteral_advance _ _ (by rw [hcurrent, hquote])
      · exact tables.readNumber_advance _ (by simpa [hcurrent] using hdigit)
      · refine readWhile_advance ?_
        simpa [hcurrent] using tables.isIdentifierContinue_of_start hstart
      · exact .refl _

end Tables

/-! ### Only the end of the text is an end token -/

/-- A read that does not give an end token. -/
def NotEof (r : Read) : Prop := ∀ t, r.1 = .ok t → t.isEof = false

theorem NotEof.ok {t : TokenType} {l : Lexer} (h : t.isEof = false) : NotEof (.ok t, l) := by
  rintro t' ⟨⟩
  exact h

theorem NotEof.error {err : LexError} {l : Lexer} : NotEof (.error err, l) := by
  rintro t ⟨⟩

theorem NotEof.unterminated {recovery : Bool} {t : TokenType} {start stop : Nat} {msg : String}
    {l : Lexer} (h : t.isEof = false) : NotEof (unterminated recovery t start stop msg, l) := by
  cases recovery
  · exact .error
  · exact .ok h

theorem NotEof.map {α : Type} {r : Except LexError α} {f : α → TokenType} {l : Lexer}
    (h : ∀ a, (f a).isEof = false) : NotEof (r.map f, l) := by
  cases r with
  | error err => exact .error
  | ok a => exact .ok (h a)

namespace Tables

variable (tables : Tables)

theorem finishInteger_notEof (n start : Nat) (l : Lexer) :
    NotEof (tables.finishInteger n start l) := by
  unfold finishInteger
  split_ifs <;> first
    | exact .ok rfl
    | exact .error

theorem readNumber_notEof (start : Nat) (l : Lexer) : NotEof (tables.readNumber start l) := by
  have hdecimal : NotEof (readNumber.decimal tables start l) := by
    unfold readNumber.decimal
    dsimp only
    split
    · split
      · exact .error
      · split <;> exact .ok rfl
    · split
      · exact .error
      · exact tables.finishInteger_notEof _ _ _
  unfold readNumber
  split
  · split
    · dsimp only
      split
      · exact .error
      · exact tables.finishInteger_notEof _ _ _
    · exact hdecimal
  · exact hdecimal

theorem readTag_notEof (start : Nat) (l : Lexer) : NotEof (tables.readTag start l) := by
  unfold readTag
  dsimp only
  split
  · exact .ok rfl
  · split_ifs
    · exact .ok rfl
    · exact .error
    · exact .ok rfl

theorem characterOrString_isEof (content : List Char) :
    (characterOrString content).isEof = false := by
  unfold characterOrString
  split <;> rfl

theorem readStringLiteral_notEof (recovery : Bool) (start : Nat) (l : Lexer) :
    NotEof (tables.readStringLiteral recovery start l) := by
  unfold readStringLiteral
  dsimp only
  split_ifs
  · exact .ok rfl
  · exact .map characterOrString_isEof
  · exact .unterminated rfl
  · exact .map fun _ => rfl
  · exact .unterminated rfl

theorem readFormatBody_notEof (recovery : Bool) (start openQuote : Nat) (parts : List FmtPart)
    (textStart : Option Nat) (l : Lexer) :
    NotEof (tables.readFormatBody recovery start openQuote parts textStart l) := by
  fun_induction readFormatBody tables recovery start openQuote parts textStart l with
  | case1 | case3 => exact .map fun _ => rfl
  | case2 | case7 | case8 | case10 => exact .error
  | case4 _ _ _ _ _ _ ih => exact ih
  | case5 _ _ _ _ _ ih => exact ih
  | case6 _ _ _ _ _ ih => exact ih
  | case9 _ _ _ _ _ _ _ _ _ _ _ _ _ ih => exact ih
  | case11 _ _ _ _ _ _ _ _ _ _ _ _ ih => exact ih

end Tables

theorem readRawString_notEof (recovery : Bool) (start : Nat) (l : Lexer) :
    NotEof (readRawString recovery start l) := by
  unfold readRawString
  dsimp only
  split_ifs
  · exact .error
  · exact .ok rfl
  · exact .unterminated rfl

theorem readInlineComment_notEof (recovery : Bool) (start : Nat) (l : Lexer) :
    NotEof (readInlineComment recovery start l) := by
  unfold readInlineComment
  dsimp only
  split_ifs
  · exact .ok rfl
  · exact .unterminated rfl

theorem readDepth_notEof (negative : Bool) (start : Nat) (l : Lexer) :
    NotEof (readDepth negative start l) := by
  unfold readDepth
  dsimp only
  split_ifs <;> first
    | exact .ok rfl
    | exact .error

theorem atForm?_isEof {c : Char} {t : TokenType} (h : atForm? c = some t) : t.isEof = false := by
  unfold atForm? at h
  split_ifs at h <;> cases h <;> rfl

namespace Tables

variable (tables : Tables)

theorem readAt_notEof (recovery : Bool) (start : Nat) (l : Lexer) :
    NotEof (tables.readAt recovery start l) := by
  unfold readAt
  split
  · exact .error
  · split
    · exact .ok (atForm?_isEof ‹_›)
    · split_ifs
      · exact readDepth_notEof _ _ _
      · exact readDepth_notEof _ _ _
      · dsimp only
        split
        · exact tables.readFormatBody_notEof _ _ _ _ _ _
        · exact .error
      · exact readRawString_notEof _ _ _
      · exact .error

theorem readToken_notEof (recovery : Bool) (start : Nat) {l : Lexer} (h : l.rest ≠ []) :
    NotEof (tables.readToken recovery start l) := by
  unfold readToken
  split
  · exact absurd ‹_› h
  · exact .ok rfl
  · exact .ok rfl
  · exact readInlineComment_notEof _ _ _
  · split
    · exact .ok (symbol?_ne_nil ‹_›).2
    · split_ifs
      · exact .error
      · exact tables.readAt_notEof _ _ _
      · exact tables.readTag_notEof _ _
      · exact tables.readStringLiteral_notEof _ _ _
      · exact tables.readNumber_notEof _ _
      · exact .ok (TokenType.fromIdentifier_isEof _)
      · exact .error

end Tables

end Lex
end Wqpl
