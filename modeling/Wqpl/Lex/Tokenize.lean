/-
# Tokenization

`nextToken` skips blanks and reads a token; its span begins after the blanks.
The strict tokenizer stops at the first error, the recovering one goes on after
it (`tokenizeRecovery`). Both end because a token takes at least one character.
-/
import Wqpl.Lex.Advance

namespace Wqpl
namespace Lex

open Lexer

/-- The characters at which the lexer skips white space. -/
def isBlank (c : Char) : Bool := c == ' ' || c == '\t' || c == '\r'

theorem isWhitespace_of_isBlank {c : Char} (h : isBlank c = true) :
    (isWhitespace c && c != '\n') = true := by
  simp only [isBlank, Bool.or_eq_true, beq_iff_eq] at h
  rcases h with (rfl | rfl) | rfl <;> decide

theorem skipWhitespace_advance {c : Char} {rest : List Char} {l : Lexer} (h : l.rest = c :: rest)
    (hc : isBlank c = true) : Reaches l.advance l.skipWhitespace :=
  readWhile_advance (by simpa [current, h] using isWhitespace_of_isBlank hc)

/-- The token from one state to another. -/
def emit (l : Lexer) (t : TokenType) (l' : Lexer) : Token :=
  ⟨t, l.position, l.line, l.column + 1, l.bytePos, l'.bytePos⟩

namespace Tables

variable (tables : Tables)

def nextToken (recovery : Bool) (l : Lexer) : Except LexError Token × Lexer :=
  match h : l.rest with
  | [] => (.ok (emit l .eof l), l)
  | c :: _ =>
    if hc : isBlank c then
      have := (skipWhitespace_advance h hc).length_lt (by simp [h])
      nextToken recovery l.skipWhitespace
    else
      let (read, l') := tables.readToken recovery l.bytePos l
      (read.map (emit l · l'), l')
termination_by l.rest.length

theorem nextToken_reaches (recovery : Bool) (l : Lexer) :
    Reaches l (tables.nextToken recovery l).2 := by
  fun_induction nextToken tables recovery l with
  | case1 => exact .refl _
  | case2 l c rest h hc hlength ih => exact (skipWhitespace_reaches l).trans ih
  | case3 l c rest h hc read l' hread =>
    have hadvance := tables.readToken_advance recovery l.bytePos (l := l) (by simp [h])
    rw [hread] at hadvance
    exact .step hadvance

theorem nextToken_isEof (recovery : Bool) (l : Lexer) :
    ∀ t, (tables.nextToken recovery l).1 = .ok t → t.tokenType.isEof = true →
      (tables.nextToken recovery l).2.rest = [] := by
  fun_induction nextToken tables recovery l with
  | case1 l h => exact fun _ _ _ => h
  | case2 l c rest h hc hlength ih => exact ih
  | case3 l c rest h hc read l' hread =>
    intro t ht heof
    have hnot := tables.readToken_notEof recovery l.bytePos (l := l) (by simp [h])
    rw [hread] at hnot
    cases read with
    | error err => cases ht
    | ok tokenType =>
      cases ht
      exact absurd heof (by simp [emit, hnot tokenType rfl])

/-- A token that is not the end, or an error, takes characters. -/
theorem nextToken_progress (recovery : Bool) (l : Lexer) :
    (∀ t, (tables.nextToken recovery l).1 = .ok t → t.tokenType.isEof = false) →
      (tables.nextToken recovery l).2.rest.length < l.rest.length := by
  fun_induction nextToken tables recovery l with
  | case1 l h =>
    intro hnot
    cases hnot _ rfl
  | case2 l c rest h hc hlength ih => exact fun hnot => lt_trans (ih hnot) hlength
  | case3 l c rest h hc read l' hread =>
    have hadvance := tables.readToken_advance recovery l.bytePos (l := l) (by simp [h])
    rw [hread] at hadvance
    exact fun _ => hadvance.length_lt (by simp [h])

/-- An error takes characters. -/
theorem nextToken_error {recovery : Bool} {l l' : Lexer} {err : LexError}
    (h : tables.nextToken recovery l = (.error err, l')) : l'.rest.length < l.rest.length := by
  have hprogress := tables.nextToken_progress recovery l
  rw [h] at hprogress
  exact hprogress fun t ht => by cases ht

theorem nextToken_ok {recovery : Bool} {l l' : Lexer} {t : Token}
    (h : tables.nextToken recovery l = (.ok t, l')) (ht : t.tokenType.isEof = false) :
    l'.rest.length < l.rest.length := by
  have hprogress := tables.nextToken_progress recovery l
  rw [h] at hprogress
  refine hprogress ?_
  rintro t' ⟨⟩
  exact ht

/-- `tokenize`. -/
def tokenize (l : Lexer) : Except LexError (List Token) :=
  match h : tables.nextToken false l with
  | (.error err, _) => .error err
  | (.ok token, l') =>
    if ht : token.tokenType.isEof then .ok [token]
    else
      have := tables.nextToken_ok h (by simpa using ht)
      (tokenize l').map (token :: ·)
termination_by l.rest.length

/-- `tokenize_recovery`. -/
def tokenizeRecovery (l : Lexer) : List Token :=
  match h : tables.nextToken true l with
  | (.ok token, l') =>
    if ht : token.tokenType.isEof then [token]
    else
      have := tables.nextToken_ok h (by simpa using ht)
      token :: tokenizeRecovery l'
  | (.error _, l') =>
    have := tables.nextToken_error h
    -- an error that has taken no character takes one here
    if l'.bytePos = l.bytePos then
      ⟨.error, l.position, l.line, l.column + 1, l.bytePos,
        l'.bytePos + (l'.current.map Char.utf8Size).getD 0⟩ :: tokenizeRecovery l'.advance
    else
      ⟨.error, l.position, l.line, l.column + 1, l.bytePos, l'.bytePos⟩ :: tokenizeRecovery l'
termination_by l.rest.length
decreasing_by all_goals (simp_all; try omega)

end Tables

/-! ### The spans tile the text -/

theorem Lexer.Reaches.split {l l' : Lexer} (h : Reaches l l') :
    ∃ text, l.rest = text ++ l'.rest ∧ l'.bytePos = l.bytePos + Text.byteLen text := by
  obtain ⟨n, rfl⟩ := h
  induction n generalizing l with
  | zero => exact ⟨[], rfl, rfl⟩
  | succ n ih =>
    rw [advances]
    rcases hrest : l.rest with _ | ⟨c, rest⟩
    · have hstay : l.advance = l := by rw [Lexer.advance, hrest]
      obtain ⟨text, htext, hpos⟩ := ih (l := l)
      exact ⟨text, by rw [hstay, ← htext, hrest], by rw [hstay, hpos]⟩
    · obtain ⟨text, htext, hpos⟩ := ih (l := l.advance)
      have hbyte : l.advance.bytePos = l.bytePos + c.utf8Size := by rw [Lexer.advance, hrest]
      refine ⟨c :: text, ?_, by rw [hpos, hbyte, Text.byteLen, Nat.add_assoc]⟩
      rw [List.cons_append, ← htext, advance_rest, hrest, List.tail_cons]

theorem Lexer.readWhile_all (p : Char → Bool) (l : Lexer) :
    ∃ text, l.rest = text ++ (l.readWhile p).2.rest ∧
      (l.readWhile p).2.bytePos = l.bytePos + Text.byteLen text ∧ ∀ c ∈ text, p c = true := by
  fun_induction readWhile p l with
  | case1 l h => exact ⟨[], by simp [h], rfl, by simp⟩
  | case2 l c rest h hp text l' hread ih =>
    obtain ⟨text, htext, hpos, hall⟩ := ih
    rw [hread] at htext hpos
    have hbyte : l.advance.bytePos = l.bytePos + c.utf8Size := by rw [advance, h]
    rw [advance_rest, h, List.tail_cons] at htext
    refine ⟨c :: text, by rw [h, htext]; rfl,
      by rw [hpos, hbyte, Text.byteLen, Nat.add_assoc], ?_⟩
    exact List.forall_mem_cons.mpr ⟨hp, hall⟩
  | case3 l c rest h hp => exact ⟨[], by simp, rfl, by simp⟩

/-- White space. -/
def IsGap (c : Char) : Prop := isWhitespace c = true

theorem skipWhitespace_gap (l : Lexer) :
    ∃ gap, l.rest = gap ++ l.skipWhitespace.rest ∧
      l.skipWhitespace.bytePos = l.bytePos + Text.byteLen gap ∧ ∀ c ∈ gap, IsGap c := by
  obtain ⟨gap, hgap, hpos, hall⟩ := l.readWhile_all fun c => isWhitespace c && c != '\n'
  exact ⟨gap, hgap, hpos, fun c hc => (Bool.and_eq_true_iff.mp (hall c hc)).1⟩

namespace Tables

variable (tables : Tables)

/-- A token begins after white space and ends where the next read begins. -/
theorem nextToken_span (recovery : Bool) (l : Lexer) :
    ∀ t, (tables.nextToken recovery l).1 = .ok t →
      ∃ gap text, l.rest = gap ++ text ++ (tables.nextToken recovery l).2.rest ∧
        (∀ c ∈ gap, IsGap c) ∧ t.byteStart = l.bytePos + Text.byteLen gap ∧
        t.byteEnd = t.byteStart + Text.byteLen text ∧
        (tables.nextToken recovery l).2.bytePos = t.byteEnd ∧
        (t.tokenType.isEof = true ↔ text = []) := by
  fun_induction nextToken tables recovery l with
  | case1 l h =>
    rintro t ⟨⟩
    exact ⟨[], [], by simp [h], by simp, rfl, rfl, rfl, iff_of_true rfl rfl⟩
  | case2 l c rest h hc hlength ih =>
    intro t ht
    obtain ⟨gap, text, hrest, hgap, hstart, hstop, hpos, heof⟩ := ih t ht
    obtain ⟨blank, hblank, hblankPos, hall⟩ := skipWhitespace_gap l
    refine ⟨blank ++ gap, text, by rw [hblank, hrest]; simp, ?_, ?_, hstop, hpos, heof⟩
    · exact fun c hc => (List.mem_append.mp hc).elim (hall c) (hgap c)
    · rw [hstart, hblankPos, Text.byteLen_append, Nat.add_assoc]
  | case3 l c rest h hc read l' hread =>
    intro t ht
    have hadvance := tables.readToken_advance recovery l.bytePos (l := l) (by simp [h])
    have hnot := tables.readToken_notEof recovery l.bytePos (l := l) (by simp [h])
    rw [hread] at hadvance hnot
    cases read with
    | error err => cases ht
    | ok tokenType =>
      cases ht
      obtain ⟨text, htext, hpos⟩ := hadvance.split
      have hbyte : l.advance.bytePos = l.bytePos + c.utf8Size := by rw [advance, h]
      rw [advance_rest, h, List.tail_cons] at htext
      have hend : l'.bytePos = l.bytePos + Text.byteLen (c :: text) := by
        rw [hpos, hbyte, Text.byteLen, Nat.add_assoc]
      refine ⟨[], c :: text, by rw [h, htext]; rfl, by simp, rfl, hend, rfl, ?_⟩
      exact iff_of_false (by simp [emit, hnot tokenType rfl]) (List.cons_ne_nil _ _)

/-- The span of a token. -/
def span (t : Token) : Nat × Nat := (t.byteStart, t.byteEnd)

/-- The tokens of a text from a place on: they tile it and end with an empty
token at its end. -/
def Covers (pos : Nat) (rest : List Char) (ts : List Token) : Prop :=
  ∃ init last, ts = init ++ [last] ∧ Text.Tiles IsGap pos rest (init.map span) ∧
    (∀ t ∈ init, t.tokenType.isEof = false) ∧ last.tokenType.isEof = true ∧
    last.byteStart = pos + Text.byteLen rest ∧ last.byteEnd = pos + Text.byteLen rest

theorem Covers.cons {pos : Nat} {gap text rest : List Char} {t : Token} {ts : List Token}
    (hgap : ∀ c ∈ gap, IsGap c) (htext : text ≠ []) (hstart : t.byteStart = pos + Text.byteLen gap)
    (hstop : t.byteEnd = t.byteStart + Text.byteLen text) (ht : t.tokenType.isEof = false)
    (h : Covers t.byteEnd rest ts) : Covers pos (gap ++ text ++ rest) (t :: ts) := by
  obtain ⟨init, last, rfl, htiles, hinit, hlast, hpos, hpos'⟩ := h
  refine ⟨t :: init, last, rfl, .cons hgap htext hstart hstop htiles, ?_, hlast, ?_, ?_⟩
  · exact List.forall_mem_cons.mpr ⟨ht, hinit⟩
  · rw [hpos, hstop, hstart, Text.byteLen_append, Text.byteLen_append]
    omega
  · rw [hpos', hstop, hstart, Text.byteLen_append, Text.byteLen_append]
    omega

theorem Covers.ordered {pos : Nat} {rest : List Char} {ts : List Token} (h : Covers pos rest ts) :
    ts.Pairwise fun t u => t.byteEnd ≤ u.byteStart := by
  obtain ⟨init, last, rfl, htiles, -, -, hstart, -⟩ := h
  refine List.pairwise_append.mpr ⟨List.pairwise_map.mp htiles.ordered, List.pairwise_singleton .., ?_⟩
  intro t ht u hu
  obtain rfl := List.mem_singleton.mp hu
  rw [hstart]
  exact htiles.stop_le (span t) (List.mem_map_of_mem ht)

theorem Covers.boundary {source : List Char} {ts : List Token} (h : Covers 0 source ts) :
    ∀ t ∈ ts, t.byteStart ≤ t.byteEnd ∧ Text.IsBoundary source t.byteStart ∧
      Text.IsBoundary source t.byteEnd := by
  obtain ⟨init, last, rfl, htiles, -, -, hstart, hstop⟩ := h
  intro t ht
  rcases List.mem_append.mp ht with ht | ht
  · have hmem : span t ∈ init.map span := List.mem_map_of_mem ht
    have hbounds := htiles.bounds (span t) hmem
    exact ⟨le_of_lt hbounds.2, @Text.Tiles.boundary _ _ _ _ [] htiles rfl (span t) hmem⟩
  · obtain rfl := List.mem_singleton.mp ht
    rw [hstart, hstop, Nat.zero_add]
    exact ⟨le_refl _, ⟨source, [], by simp, rfl⟩, ⟨source, [], by simp, rfl⟩⟩

theorem tokenizeRecovery_covers (l : Lexer) :
    Covers l.bytePos l.rest (tables.tokenizeRecovery l) := by
  fun_induction tokenizeRecovery tables l with
  | case1 l token l' h ht =>
    have hspan := tables.nextToken_span true l
    have hrest := tables.nextToken_isEof true l
    rw [h] at hspan hrest
    obtain ⟨gap, text, heq, hgap, hstart, hstop, -, heof⟩ := hspan token rfl
    obtain rfl := heof.mp ht
    rw [hrest token rfl ht, List.append_nil, List.append_nil] at heq
    refine ⟨[], token, rfl, .nil (heq ▸ hgap), by simp, ht, ?_, ?_⟩
    · rw [hstart, heq]
    · rw [hstop, hstart, heq]
      rfl
  | case2 l token l' h ht hlength ih =>
    have hspan := tables.nextToken_span true l
    rw [h] at hspan
    obtain ⟨gap, text, heq, hgap, hstart, hstop, hpos, heof⟩ := hspan token rfl
    rw [heq]
    dsimp only at hpos
    rw [hpos] at ih
    exact .cons hgap (mt heof.mpr ht) hstart hstop (by simpa using ht) ih
  | case3 l err l' h hlength hsame ih =>
    -- an error takes characters, so the place is another one
    have hreach := tables.nextToken_reaches true l
    rw [h] at hreach
    obtain ⟨text, htext, hpos⟩ := hreach.split
    dsimp only at htext hpos
    have hne : text ≠ [] := by
      rintro rfl
      rw [htext] at hlength
      exact absurd hlength (lt_irrefl _)
    have := Text.byteLen_pos hne
    omega
  | case4 l err l' h hlength hsame ih =>
    have hreach := tables.nextToken_reaches true l
    rw [h] at hreach
    obtain ⟨text, htext, hpos⟩ := hreach.split
    dsimp only at htext hpos
    have hne : text ≠ [] := by
      rintro rfl
      rw [htext] at hlength
      exact absurd hlength (lt_irrefl _)
    rw [htext]
    exact show Covers l.bytePos ([] ++ text ++ l'.rest) _ from
      .cons (by simp) hne rfl hpos rfl ih

end Tables

end Lex
end Wqpl
