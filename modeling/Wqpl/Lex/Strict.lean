/-
# What the strict tokenizer accepts

Recovery only matters at a string, a comment or a format string that does not
end, where the strict lexer gives an error; so tokens that the strict tokenizer
accepts are those of the recovering one (`tokenize_ok`).
-/
import Wqpl.Lex.Tokenize

namespace Wqpl
namespace Lex

open Lexer

/-- Recovery changes nothing about a read that succeeds without it. -/
def Agrees (strict recovering : Read) : Prop := ∀ t, strict.1 = .ok t → recovering = strict

theorem Agrees.refl (r : Read) : Agrees r r := fun _ _ => rfl

theorem Agrees.unterminated {t : TokenType} {start stop : Nat} {msg : String} {l : Lexer}
    {r : Read} : Agrees (unterminated false t start stop msg, l) r := by
  rintro t' ⟨⟩

theorem Agrees.error {err : LexError} {l : Lexer} {r : Read} : Agrees (.error err, l) r := by
  rintro t ⟨⟩

theorem readRawString_agrees (start : Nat) (l : Lexer) :
    Agrees (readRawString false start l) (readRawString true start l) := by
  unfold readRawString
  dsimp only
  split_ifs
  · exact .refl _
  · exact .refl _
  · exact .unterminated

theorem readInlineComment_agrees (start : Nat) (l : Lexer) :
    Agrees (readInlineComment false start l) (readInlineComment true start l) := by
  unfold readInlineComment
  dsimp only
  split_ifs
  · exact .refl _
  · exact .unterminated

namespace Tables

variable (tables : Tables)

theorem readStringLiteral_agrees (start : Nat) (l : Lexer) :
    Agrees (tables.readStringLiteral false start l) (tables.readStringLiteral true start l) := by
  unfold readStringLiteral
  dsimp only
  split_ifs
  · exact .refl _
  · exact .refl _
  · exact .unterminated
  · exact .refl _
  · exact .unterminated

theorem readFormatBody_agrees (start openQuote : Nat) (parts : List FmtPart)
    (textStart : Option Nat) (l : Lexer) :
    Agrees (tables.readFormatBody false start openQuote parts textStart l)
      (tables.readFormatBody true start openQuote parts textStart l) := by
  fun_induction readFormatBody tables false start openQuote parts textStart l with
  | case1 => contradiction
  | case2 | case7 | case8 | case10 => exact .error
  | case3 parts textStart l tail h =>
    conv => arg 2; rw [readFormatBody]
    split <;> simp_all
    exact Agrees.refl _
  | case4 parts textStart l tail h hlength ih =>
    conv => arg 2; rw [readFormatBody]
    split <;> simp_all
  | case5 parts textStart l tail h ih =>
    conv => arg 2; rw [readFormatBody]
    split <;> simp_all
  | case6 parts textStart l tail h ih =>
    conv => arg 2; rw [readFormatBody]
    split <;> simp_all
  | case9 parts textStart l tail hbrace h parts' hparts depth l' hbraced hdepth hlength ih =>
    conv => arg 2; rw [readFormatBody]
    split <;> grind
  | case11 parts textStart l c tail _ _ _ _ _ _ h ih =>
    conv => arg 2; rw [readFormatBody]
    split <;> grind

theorem readAt_agrees (start : Nat) (l : Lexer) :
    Agrees (tables.readAt false start l) (tables.readAt true start l) := by
  unfold readAt
  split
  · exact .refl _
  · split
    · exact .refl _
    · split_ifs
      · exact .refl _
      · exact .refl _
      · dsimp only
        split_ifs
        · exact tables.readFormatBody_agrees _ _ _ _ _
        · exact .refl _
      · exact readRawString_agrees _ _
      · exact .refl _

theorem readToken_agrees (start : Nat) (l : Lexer) :
    Agrees (tables.readToken false start l) (tables.readToken true start l) := by
  unfold readToken
  split
  · exact .refl _
  · exact .refl _
  · exact .refl _
  · exact readInlineComment_agrees _ _
  · split
    · exact .refl _
    · split_ifs
      · exact .refl _
      · exact tables.readAt_agrees _ _
      · exact .refl _
      · exact tables.readStringLiteral_agrees _ _
      · exact .refl _
      · exact .refl _
      · exact .refl _

theorem nextToken_ok_of_strict (l : Lexer) :
    ∀ t, (tables.nextToken false l).1 = .ok t →
      tables.nextToken true l = tables.nextToken false l := by
  fun_induction nextToken tables false l with
  | case1 l h =>
    intro t ht
    rw [nextToken]
    split <;> simp_all
  | case2 l c rest h hc hlength ih => 
    intro t ht
    rw [nextToken]
    split <;> simp_all
  | case3 l c rest h hc read l' hread =>
    intro t ht
    have hagrees := tables.readToken_agrees l.bytePos l
    rw [hread] at hagrees
    cases read with
    | error err => cases ht
    | ok tokenType =>
      have htrue := hagrees tokenType rfl
      rw [nextToken]
      split <;> simp_all

/-- Tokens that the strict tokenizer accepts are those of the recovering one. -/
theorem tokenizeRecovery_of_tokenize (l : Lexer) :
    ∀ ts, tables.tokenize l = .ok ts → tables.tokenizeRecovery l = ts := by
  fun_induction tokenize tables l with
  | case1 l err l' h =>
    rintro ts ⟨⟩
  | case2 l token l' h ht =>
    rintro ts ⟨⟩
    have htrue := tables.nextToken_ok_of_strict l token (by rw [h])
    rw [h] at htrue
    rw [tokenizeRecovery]
    split <;> simp_all
  | case3 l token l' h ht hlength ih =>
    intro ts hts
    have htrue := tables.nextToken_ok_of_strict l token (by rw [h])
    rw [h] at htrue
    cases htail : tables.tokenize l' with
    | error err =>
      rw [htail] at hts
      cases hts
    | ok rest =>
      rw [htail] at hts
      obtain rfl : token :: rest = ts := Except.ok.inj hts
      rw [tokenizeRecovery]
      split <;> simp_all

end Tables

end Lex
end Wqpl
