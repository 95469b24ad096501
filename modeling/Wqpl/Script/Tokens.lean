/-
# Where the tokens of a script are

A token knows its line and column, and its place in characters and in bytes. The
lexer counts them on its way (`Lexer.At`). The tokens of a script come from
lexers on its pieces of code; each is moved by what is before the piece
(`rebaseToken`). For every source, the tokens are where they say in the whole of it, one
behind the other (`tokenizeRecovery_located`).

Key definitions: `Located`, `tokenizeRecovery`.
-/
import Wqpl.Script.Cst
import Wqpl.Lex.Tokenize

namespace Wqpl
namespace Script

open Wqpl.Lex (Token TokenType Lexer FmtPart)

/-! ### Tokens of a script -/

/-- The text behind the last newline. -/
def lastLine (text : List Char) : List Char := text.rtakeWhile (· ≠ '\n')

def rebasePart (offset : Nat) : FmtPart → FmtPart
  | .text content start stop => .text content (start + offset) (stop + offset)
  | .expr source start stop => .expr source (start + offset) (stop + offset)

def rebaseType (offset : Nat) : TokenType → TokenType
  | .formatString parts openQuote closeQuote =>
    .formatString (parts.map (rebasePart offset)) (openQuote + offset) (closeQuote + offset)
  | t => t

/-- `rebase_token`, for the text before the base. -/
def rebaseToken (before : List Char) (t : Token) : Token where
  tokenType := rebaseType (Text.byteLen before) t.tokenType
  position := t.position + before.length
  line := t.line + before.count '\n'
  column := if t.line = 1 then t.column + (lastLine before).length else t.column
  byteStart := t.byteStart + Text.byteLen before
  byteEnd := t.byteEnd + Text.byteLen before

def eofTokenFor (input : List Char) : Token where
  tokenType := .eof
  position := input.length
  line := input.count '\n' + 1
  column := (lastLine input).length + 1
  byteStart := Text.byteLen input
  byteEnd := Text.byteLen input

section Frontend

variable (tables : Lex.Tables)

/-- The tokens of one item. -/
def itemTokens (input : List Char) : ScriptItem → Option (List Token)
  | .shebang _ => some []
  | .directive _ => some []
  | .code span => do
    let source ← Text.slice? input span.start span.stop
    let before ← Text.takeBytes? input span.start
    return ((tables.tokenizeRecovery (Lexer.new source)).filter fun t => !t.tokenType.isEof).map
      (rebaseToken before)

def tokenizeItems (input : List Char) (items : List ScriptItem) : Option (List Token) := do
  let tokens ← items.mapM (itemTokens tables input)
  return tokens.flatten ++ [eofTokenFor input]

/-- `Frontend::tokenize_recovery`. -/
def tokenizeRecovery (complete : List Char → Bool) (input : List Char) : Option (List Token) :=
  if mightHaveScriptMeta input then do
    let items ← parseScriptItems tables complete input
    if hasScriptMeta items then tokenizeItems tables input items
    else some (tables.tokenizeRecovery (Lexer.new input))
  else some (tables.tokenizeRecovery (Lexer.new input))

end Frontend

/-! ### Places -/

/-- The token says where in the source its text begins. The place in characters is counted
from one, and the end of the source is at its last character. -/
def Located (source : List Char) (t : Token) : Prop :=
  ∃ before after, source = before ++ after ∧ t.byteStart = Text.byteLen before ∧
    t.line = before.count '\n' + 1 ∧ t.column = (lastLine before).length + 1 ∧
    t.position = min (before.length + 1) source.length

theorem lastLine_newline (text : List Char) : lastLine (text ++ ['\n']) = [] := by
  simp [lastLine]

theorem lastLine_concat {c : Char} (text : List Char) (h : c ≠ '\n') :
    lastLine (text ++ [c]) = lastLine text ++ [c] := by
  simp [lastLine, h]

/-- The last line of a text is the one of its end, or goes on before it. -/
theorem length_lastLine_append (a b : List Char) :
    (lastLine (a ++ b)).length =
      if b.count '\n' = 0 then (lastLine b).length + (lastLine a).length
      else (lastLine b).length := by
  induction b using List.reverseRecOn with
  | nil => simp [lastLine]
  | append_singleton b c ih =>
    rw [← List.append_assoc]
    by_cases hc : c = '\n'
    · rw [hc, lastLine_newline, lastLine_newline, if_neg (by simp)]
    · rw [lastLine_concat _ hc, lastLine_concat _ hc, List.length_append, List.length_append, ih]
      have hcount : (b ++ [c]).count '\n' = b.count '\n' := by simp [hc]
      rw [hcount]
      split
      · simp only [List.length_singleton]
        omega
      · rfl

section Lexers

variable {source : List Char} {l l' : Lexer}

/-- The lexer stands in the source where it says. -/
def At (source : List Char) (l : Lexer) : Prop :=
  ∃ before, source = before ++ l.rest ∧ l.bytePos = Text.byteLen before ∧
    l.line = before.count '\n' + 1 ∧ l.column = (lastLine before).length ∧
    l.position = min (before.length + 1) source.length

theorem at_new (source : List Char) : At source (Lexer.new source) := by
  refine ⟨[], rfl, rfl, rfl, rfl, ?_⟩
  cases source with
  | nil => rfl
  | cons c source => simp [Lexer.new]

theorem At.advance (h : At source l) : At source l.advance := by
  obtain ⟨before, hsource, hbyte, hline, hcolumn, hposition⟩ := h
  unfold Lexer.advance
  cases hrest : l.rest with
  | nil => exact ⟨before, by rw [hsource], hbyte, hline, hcolumn, hposition⟩
  | cons c rest =>
    rw [hrest] at hsource
    refine ⟨before ++ [c], by rw [hsource]; simp, ?_, ?_, ?_, ?_⟩
    · rw [Text.byteLen_append, ← hbyte]
      rfl
    · by_cases hc : c = '\n'
      · simp [hc, hline]
      · simp [hc, hline]
    · by_cases hc : c = '\n'
      · simp [hc, lastLine_newline]
      · simp [hc, lastLine_concat _ hc, hcolumn]
    · have hlen : source.length = before.length + (rest.length + 1) := by
        rw [hsource, List.length_append, List.length_cons]
      show (if rest = [] then l.position else l.position + 1) = _
      rw [List.length_append, List.length_singleton]
      by_cases hempty : rest = []
      · rw [hempty, List.length_nil] at hlen
        rw [if_pos hempty, hposition]
        omega
      · have := List.length_pos_iff.mpr hempty
        rw [if_neg hempty, hposition]
        omega

theorem At.reaches (h : At source l) (hreaches : Lexer.Reaches l l') : At source l' := by
  obtain ⟨n, rfl⟩ := hreaches
  induction n generalizing l with
  | zero => exact h
  | succ n ih => exact ih h.advance

/-- A token is where the lexer was. -/
theorem At.located (h : At source l) {t : Token} (hbyte : t.byteStart = l.bytePos)
    (hline : t.line = l.line) (hcolumn : t.column = l.column + 1)
    (hposition : t.position = l.position) : Located source t := by
  obtain ⟨before, hsource, hbyte', hline', hcolumn', hposition'⟩ := h
  exact ⟨before, l.rest, hsource, hbyte.trans hbyte', hline.trans hline',
    by rw [hcolumn, hcolumn'], hposition.trans hposition'⟩

variable (tables : Lex.Tables)

theorem nextToken_located (recovery : Bool) (h : At source l) :
    ∀ t, (tables.nextToken recovery l).1 = .ok t → Located source t := by
  fun_induction Lex.Tables.nextToken tables recovery l with
  | case1 l hrest =>
    rintro t ⟨⟩
    exact h.located rfl rfl rfl rfl
  | case2 l c rest hrest hc hlength ih => exact ih (h.reaches (Lexer.skipWhitespace_reaches l))
  | case3 l c rest hrest hc read l' hread =>
    intro t ht
    cases read with
    | error err => cases ht
    | ok tokenType =>
      cases ht
      exact h.located rfl rfl rfl rfl

theorem lexerTokens_located (h : At source l) :
    ∀ t ∈ tables.tokenizeRecovery l, Located source t := by
  fun_induction Lex.Tables.tokenizeRecovery tables l with
  | case1 l token l' hnext ht =>
    have hfirst := nextToken_located tables true h token (by rw [hnext])
    simpa using hfirst
  | case2 l token l' hnext ht hlength ih =>
    have hfirst := nextToken_located tables true h token (by rw [hnext])
    have hreaches := tables.nextToken_reaches true l
    rw [hnext] at hreaches
    exact List.forall_mem_cons.mpr ⟨hfirst, ih (h.reaches hreaches)⟩
  | case3 l err l' hnext hlength hsame ih =>
    have hreaches := tables.nextToken_reaches true l
    rw [hnext] at hreaches
    exact List.forall_mem_cons.mpr ⟨h.located rfl rfl rfl rfl, ih (h.reaches hreaches).advance⟩
  | case4 l err l' hnext hlength hsame ih =>
    have hreaches := tables.nextToken_reaches true l
    rw [hnext] at hreaches
    exact List.forall_mem_cons.mpr ⟨h.located rfl rfl rfl rfl, ih (h.reaches hreaches)⟩

end Lexers

/-! ### Tokens of a piece of code -/

section Rebase

variable {before chunk after : List Char} {t : Token}

/-- A token of a piece is where it says in the whole, unless it is the end of the piece. -/
theorem rebaseToken_located (h : Located chunk t) (ht : t.byteStart < Text.byteLen chunk) :
    Located (before ++ chunk ++ after) (rebaseToken before t) := by
  obtain ⟨a, b, hchunk, hbyte, hline, hcolumn, hposition⟩ := h
  have hb : 0 < b.length := by
    rw [List.length_pos_iff]
    rintro rfl
    rw [hchunk, List.append_nil, hbyte] at ht
    exact lt_irrefl _ ht
  refine ⟨before ++ a, b ++ after, by rw [hchunk]; simp, ?_, ?_, ?_, ?_⟩
  · rw [Text.byteLen_append, Nat.add_comm, ← hbyte]
    rfl
  · rw [List.count_append]
    show t.line + _ = _
    omega
  · rw [length_lastLine_append]
    show (if t.line = 1 then t.column + _ else t.column) = _
    by_cases hfirst : a.count '\n' = 0
    · rw [if_pos (by omega), if_pos hfirst]
      omega
    · rw [if_neg (by omega), if_neg hfirst, hcolumn]
  · show t.position + before.length = _
    rw [hposition, hchunk]
    simp only [List.length_append]
    omega

theorem eofTokenFor_located (input : List Char) : Located input (eofTokenFor input) := by
  refine ⟨input, [], (List.append_nil _).symm, rfl, rfl, rfl, ?_⟩
  exact (Nat.min_eq_right (Nat.le_succ _)).symm

end Rebase

/-! ### Tokens of a script in their order -/

/-- Tokens between two places of a source, in their order and each where it says. -/
structure Between (source : List Char) (start stop : Nat) (ts : List Token) : Prop where
  located : ∀ t ∈ ts, Located source t
  bounds : ∀ t ∈ ts, start ≤ t.byteStart ∧ t.byteStart < t.byteEnd ∧ t.byteEnd ≤ stop
  ordered : ts.Pairwise fun t u => t.byteEnd ≤ u.byteStart

section Order

variable {source : List Char} {start middle stop : Nat} {ts us : List Token}

theorem Between.append (hts : Between source start middle ts)
    (hus : Between source middle stop us) (hstart : start ≤ middle) (hstop : middle ≤ stop) :
    Between source start stop (ts ++ us) := by
  refine ⟨List.forall_mem_append.mpr ⟨hts.located, hus.located⟩,
    List.forall_mem_append.mpr ⟨fun t ht => ?_, fun u hu => ?_⟩,
    List.pairwise_append.mpr ⟨hts.ordered, hus.ordered, fun t ht u hu => ?_⟩⟩
  · obtain ⟨h₁, h₂, h₃⟩ := hts.bounds t ht
    exact ⟨h₁, h₂, h₃.trans hstop⟩
  · obtain ⟨h₁, h₂, h₃⟩ := hus.bounds u hu
    exact ⟨hstart.trans h₁, h₂, h₃⟩
  · exact (hts.bounds t ht).2.2.trans (hus.bounds u hu).1

/-- The last of the tokens of a text is the only one at its end. -/
theorem covers_filter (hcovers : Lex.Tables.Covers 0 source ts) :
    ∃ last, ts = (ts.filter fun t => !t.tokenType.isEof) ++ [last] ∧
      last.tokenType.isEof = true ∧ last.byteStart = Text.byteLen source := by
  obtain ⟨init, last, rfl, -, hinit, hlast, hstart, -⟩ := hcovers
  have hfilter : (init ++ [last]).filter (fun t => !t.tokenType.isEof) = init := by
    rw [List.filter_append, List.filter_eq_self.mpr (fun t ht => by simp [hinit t ht])]
    simp [hlast]
  rw [hfilter]
  exact ⟨last, rfl, hlast, by rw [hstart, Nat.zero_add]⟩

/-- The tokens of a covered text but the last are between its ends. -/
theorem Between.of_covers (hcovers : Lex.Tables.Covers 0 source ts)
    (hlocated : ∀ t ∈ ts, Located source t) :
    Between source 0 (Text.byteLen source) (ts.filter fun t => !t.tokenType.isEof) := by
  have hordered := hcovers.ordered
  obtain ⟨last', heq, -⟩ := covers_filter hcovers
  obtain ⟨init, last, rfl, htiles, -, -, -, -⟩ := hcovers
  rw [← (List.append_inj_left' heq rfl)]
  refine ⟨fun t ht => hlocated t (List.mem_append_left _ ht), fun t ht => ?_,
    (List.pairwise_append.mp hordered).1⟩
  have hmem : Lex.Tables.span t ∈ init.map Lex.Tables.span := List.mem_map_of_mem ht
  have hstop := htiles.stop_le _ hmem
  rw [Nat.zero_add] at hstop
  exact ⟨Nat.zero_le _, (htiles.bounds _ hmem).2, hstop⟩

theorem Between.rebase {before chunk after : List Char}
    (h : Between chunk 0 (Text.byteLen chunk) ts) :
    Between (before ++ chunk ++ after) (Text.byteLen before) (Text.byteLen (before ++ chunk))
      (ts.map (rebaseToken before)) := by
  refine ⟨List.forall_mem_map.mpr fun t ht => ?_, List.forall_mem_map.mpr fun t ht => ?_,
    List.pairwise_map.mpr (h.ordered.imp fun hle => ?_)⟩
  · obtain ⟨-, hlt, hle⟩ := h.bounds t ht
    exact rebaseToken_located (h.located t ht) (hlt.trans_le hle)
  · obtain ⟨-, hlt, hle⟩ := h.bounds t ht
    rw [Text.byteLen_append]
    refine ⟨Nat.le_add_left _ _, Nat.add_lt_add_right hlt _, ?_⟩
    show t.byteEnd + _ ≤ _
    omega
  · exact Nat.add_le_add_right hle _

theorem Between.nil (source : List Char) (start stop : Nat) : Between source start stop [] :=
  ⟨by simp, by simp, .nil⟩

end Order

section Items

variable {tables : Lex.Tables} {complete : List Char → Bool}

/-- The tokens of an item are in its span. -/
theorem itemTokens_between (tables : Lex.Tables) {input a text b : List Char} {item : ScriptItem}
    (hinput : input = a ++ text ++ b)
    (hspan : item.span = ⟨Text.byteLen a, Text.byteLen (a ++ text)⟩) :
    ∃ ts, itemTokens tables input item = some ts ∧
      Between input (Text.byteLen a) (Text.byteLen (a ++ text)) ts := by
  cases item with
  | shebang span => exact ⟨[], rfl, .nil ..⟩
  | directive d => exact ⟨[], rfl, .nil ..⟩
  | code span =>
    obtain rfl : span = _ := hspan
    have htext : Text.slice? input (Text.byteLen a) (Text.byteLen (a ++ text)) = some text :=
      slice_middle hinput
    have hbefore : Text.takeBytes? input (Text.byteLen a) = some a := by
      rw [hinput, List.append_assoc, Text.takeBytes?_append]
    refine ⟨((tables.tokenizeRecovery (Lexer.new text)).filter fun t => !t.tokenType.isEof).map
      (rebaseToken a), ?_, ?_⟩
    · rw [itemTokens, htext, Option.bind_eq_bind, Option.bind_some, hbefore]
      rfl
    · rw [hinput]
      exact (Between.of_covers (Lex.tokenizeRecovery_new tables text)
        (lexerTokens_located tables (at_new text))).rebase

theorem Outlined.tokens {input covered : List Char} {items : List ScriptItem}
    (h : Outlined tables complete covered items) : ∀ {rest : List Char}, input = covered ++ rest →
      ∃ tss, items.mapM (itemTokens tables input) = some tss ∧
        Between input 0 (Text.byteLen covered) tss.flatten := by
  induction h with
  | nil => exact fun _ => ⟨[], rfl, .nil ..⟩
  | @snoc covered gap text items item _ _ _ hspan _ ih =>
    intro rest hinput
    obtain ⟨tss, htss, hbefore⟩ := ih (hinput.trans (by simp only [List.append_assoc]; rfl))
    obtain ⟨ts, hts, hitem⟩ := itemTokens_between tables hinput hspan
    refine ⟨tss ++ [ts], ?_, ?_⟩
    · rw [List.mapM_append, htss, List.mapM_cons, hts]
      rfl
    · rw [List.flatten_append, List.flatten_singleton]
      have hgap : Between input (Text.byteLen covered) (Text.byteLen (covered ++ gap)) [] := .nil ..
      have hle : Text.byteLen covered ≤ Text.byteLen (covered ++ gap) := by
        rw [Text.byteLen_append]
        exact Nat.le_add_right _ _
      have hle' : Text.byteLen (covered ++ gap) ≤ Text.byteLen (covered ++ gap ++ text) := by
        rw [Text.byteLen_append (covered ++ gap)]
        exact Nat.le_add_right _ _
      have hmiddle := hbefore.append hgap (Nat.zero_le _) hle
      rw [List.append_nil] at hmiddle
      exact hmiddle.append hitem (Nat.zero_le _) hle'

/-- **Tokens are where they say**, in a script as in a program: no slice panics, the tokens
are in their order without overlaps, and each knows its bytes, its line and column and its
place in characters in the whole source. -/
theorem tokenizeRecovery_located (tables : Lex.Tables) (complete : List Char → Bool)
    (input : List Char) : ∃ init last, tokenizeRecovery tables complete input =
        some (init ++ [last]) ∧ Between input 0 (Text.byteLen input) init ∧
      Located input last ∧ last.tokenType.isEof = true ∧ last.byteStart = Text.byteLen input := by
  have hplain : ∃ init last, tables.tokenizeRecovery (Lexer.new input) = init ++ [last] ∧
      Between input 0 (Text.byteLen input) init ∧ Located input last ∧
      last.tokenType.isEof = true ∧ last.byteStart = Text.byteLen input := by
    have hcovers := Lex.tokenizeRecovery_new tables input
    have hlocated := lexerTokens_located tables (at_new input)
    have hbetween := Between.of_covers hcovers hlocated
    obtain ⟨last, hts, hlast, hstart⟩ := covers_filter hcovers
    have hmem : last ∈ tables.tokenizeRecovery (Lexer.new input) := by
      rw [hts]
      exact List.mem_append_right _ (List.mem_singleton_self last)
    exact ⟨_, last, hts, hbetween, hlocated last hmem, hlast, hstart⟩
  obtain ⟨init, last, hplain, hall⟩ := hplain
  unfold tokenizeRecovery
  split
  · obtain ⟨covered, outlined, tail, hinput, houtlined, hlast⟩ :=
      parseScriptItems_outlined tables complete input
    obtain ⟨tss, htss, hbetween⟩ := houtlined.tokens hinput
    have hcovered : Text.byteLen covered ≤ Text.byteLen input := by
      rw [hinput, Text.byteLen_append]
      exact Nat.le_add_right _ _
    have hitems : ∃ items, parseScriptItems tables complete input = some items ∧
        ∃ tss, items.mapM (itemTokens tables input) = some tss ∧
          Between input 0 (Text.byteLen input) tss.flatten := by
      rcases hlast with ⟨hparse, -⟩ | ⟨hparse, -⟩
      · refine ⟨_, hparse, tss, htss, ?_⟩
        have hall := hbetween.append (Between.nil _ _ _) (Nat.zero_le _) hcovered
        rwa [List.append_nil] at hall
      · obtain ⟨ts, hts, hitem⟩ := @itemTokens_between tables input covered tail []
          (.code ⟨Text.byteLen covered, Text.byteLen input⟩) (by rw [hinput, List.append_nil])
          (by rw [hinput]; rfl)
        refine ⟨_, hparse, tss ++ [ts], ?_, ?_⟩
        · rw [List.mapM_append, htss, List.mapM_cons, hts]
          rfl
        · rw [List.flatten_append, List.flatten_singleton]
          rw [← hinput] at hitem
          exact hbetween.append hitem (Nat.zero_le _) hcovered
    obtain ⟨items, hparse, tss, htss, hbetween⟩ := hitems
    rw [hparse, Option.bind_eq_bind, Option.bind_some]
    split
    · refine ⟨tss.flatten, eofTokenFor input, ?_, hbetween, eofTokenFor_located input, rfl, rfl⟩
      rw [tokenizeItems, htss]
      rfl
    · exact ⟨init, last, congrArg some hplain, hall⟩
  · exact ⟨init, last, congrArg some hplain, hall⟩

end Items

end Script
end Wqpl
