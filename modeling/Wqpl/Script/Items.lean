/-
# Scripts

A script is code between lines for the loader: a shebang on its first line and
directives that begin with a backslash. Lines are read one by one. A directive is
one only where no code is pending; lines of code are pending until they are
complete. Blank lines and comments before a directive are in no item.

The spans of the items follow one another in the source, from character to
character; what they leave out has no code in it, and every piece of code except
the last is complete (`parseScriptItems_outlined`). So no slice in the loop
panics.

`none` is a panic. Whether a piece of code is complete is asked of the parser; it is
a parameter here.

Key definitions: `parseScriptItems`, `Outlined`.
-/
import Wqpl.Spans
import Wqpl.Lex.Lexer
import Mathlib.Data.List.DropRight

namespace Wqpl
namespace Script

open Wqpl.Lex (isWhitespace)

structure ScriptSpan where
  start : Nat
  stop : Nat
deriving DecidableEq, Repr

inductive ScriptDirective
  | preludeAlias (span : ScriptSpan)
  | loadEmbeddedOrFile (name : List Char) (span : ScriptSpan)
  | loadPath (path : List Char) (span : ScriptSpan)
  | unknown (text : List Char) (span : ScriptSpan)
deriving DecidableEq, Repr

def ScriptDirective.span : ScriptDirective → ScriptSpan
  | preludeAlias span => span
  | loadEmbeddedOrFile _ span => span
  | loadPath _ span => span
  | unknown _ span => span

inductive ScriptItem
  | shebang (span : ScriptSpan)
  | directive (d : ScriptDirective)
  | code (span : ScriptSpan)
deriving DecidableEq, Repr

def ScriptItem.span : ScriptItem → ScriptSpan
  | shebang span => span
  | directive d => d.span
  | code span => span

/-! ### Lines -/

def trimStart (text : List Char) : List Char := text.dropWhile isWhitespace

def trimEnd (text : List Char) : List Char := text.rdropWhile isWhitespace

def trim (text : List Char) : List Char := trimEnd (trimStart text)

/-- There is code on the line. -/
def hasPayload (line : List Char) : Bool :=
  !(trim line).isEmpty && !(['/', '/'].isPrefixOf (trim line))

section Directives

variable (tables : Lex.Tables)

/-- The loop of `parse_load_arg`: the body before the closing quote, and the rest. -/
def quotedBody (quote : Char) : (escaped : Bool) → List Char → Option (List Char × List Char)
  | _, [] => none
  | true, c :: rest => (quotedBody quote false rest).map fun p => (c :: p.1, p.2)
  | false, c :: rest =>
    if c = '\\' then (quotedBody quote true rest).map fun p => (c :: p.1, p.2)
    else if c = quote then some ([], rest)
    else (quotedBody quote false rest).map fun p => (c :: p.1, p.2)

def parseLoadArg (rest : List Char) : Option (List Char) :=
  match trim rest with
  | [] => none
  | quote :: body =>
    if quote = '"' ∨ quote = '\'' then do
      let found ← quotedBody quote false body
      if (trim found.2).isEmpty then 
        (Lex.unescapeStringInner tables.lookupName found.1).toOption
      else none
    else some (quote :: body)

/-- What is behind `\load` or `\l`. -/
def loadRest (trimmed : List Char) : Option (List Char) :=
  match trimmed.dropPrefix? ['\\', 'l', 'o', 'a', 'd'] with
  | some rest => some rest
  | none => trimmed.dropPrefix? ['\\', 'l']

def parseDirective (line : List Char) (span : ScriptSpan) : ScriptDirective :=
  let trimmed := trim line
  if trimmed = ['\\', 'p'] then .preludeAlias span
  else
    match loadRest trimmed with
    | none => .unknown (trimStart line) span
    | some rest =>
      match parseLoadArg tables rest with
      | none => .unknown (trimStart line) span
      | some arg =>
        if arg.head? = some '<' ∧ arg.getLast? = some '>' ∧ 2 ≤ Text.byteLen arg then
          .loadEmbeddedOrFile arg.tail.dropLast span
        else if arg ≠ [] then .loadPath arg span
        else .unknown (trimStart line) span

end Directives

/-! ### Items -/

structure PendingCode where
  start : Option Nat
  stop : Nat
  hasPayload : Bool
deriving DecidableEq, Repr

namespace PendingCode

/-- The default, and what `clear` leaves. -/
def clear : PendingCode := ⟨none, 0, false⟩

def pushLine (p : PendingCode) (start stop : Nat) (payload : Bool) : PendingCode where
  start := some (p.start.getD start)
  stop := stop
  hasPayload := p.hasPayload || payload

def span (p : PendingCode) : Option ScriptSpan := p.start.map fun start => ⟨start, p.stop⟩

end PendingCode

/-- The two variables of the loop. -/
structure Outline where
  pending : PendingCode
  items : List ScriptItem

section Items

variable (tables : Lex.Tables) (complete : List Char → Bool) (source : List Char)

def processLine (lineIndex lineStart contentEnd lineEnd : Nat) (st : Outline) : Option Outline := do
  let rawLine ← Text.slice? source lineStart contentEnd
  if lineIndex = 0 ∧ ['#', '!'].isPrefixOf rawLine ∧ st.pending.hasPayload = false then
    return ⟨.clear, st.items ++ [.shebang ⟨lineStart, lineEnd⟩]⟩
  else if st.pending.hasPayload = false ∧ (trimStart rawLine).head? = some '\\' then
    return ⟨.clear, st.items ++ [.directive (parseDirective tables rawLine ⟨lineStart, lineEnd⟩)]⟩
  else
    let pending := st.pending.pushLine lineStart lineEnd (hasPayload rawLine)
    if pending.hasPayload then
      let codeSpan : ScriptSpan := pending.span.getD ⟨0, 0⟩
      let code ← Text.slice? source codeSpan.start codeSpan.stop
      if complete code then return ⟨.clear, st.items ++ [.code codeSpan]⟩
      else return ⟨pending, st.items⟩
    else return ⟨pending, st.items⟩

def finishPending (st : Outline) : Option (List ScriptItem) :=
  match st.pending.span with
  | none => some st.items
  | some span => do
    let text ← Text.slice? source span.start span.stop
    if (trim text).isEmpty then return st.items
    else return st.items ++ [.code span]

/-- The loop over the characters, then the last line. -/
def scanLines : List Char → (lineIndex lineStart idx : Nat) → Outline → Option Outline
  | [], lineIndex, lineStart, _, st =>
    if lineStart < Text.byteLen source then
      processLine tables complete source lineIndex lineStart (Text.byteLen source)
        (Text.byteLen source) st
    else some st
  | c :: rest, lineIndex, lineStart, idx, st =>
    if c = '\n' then do
      let st ← processLine tables complete source lineIndex lineStart idx (idx + c.utf8Size) st
      scanLines rest (lineIndex + 1) (idx + c.utf8Size) (idx + c.utf8Size) st
    else scanLines rest lineIndex lineStart (idx + c.utf8Size) st

def parseScriptItems : Option (List ScriptItem) := do
  let st ← scanLines tables complete source source 0 0 0 ⟨.clear, []⟩
  finishPending source st

end Items

def mightHaveScriptMeta (source : List Char) : Bool :=
  source.contains '\\' || ['#', '!'].isPrefixOf source

/-! ### Texts without code -/

/-- Blank lines and comments, cut at the ends of lines if not more often. -/
def Idle (text : List Char) : Prop :=
  ∃ pieces : List (List Char), text = pieces.flatten ∧
    ∀ p ∈ pieces, hasPayload p = false ∧ '\n' ∉ p.dropLast

theorem Idle.nil : Idle [] := ⟨[], rfl, by simp⟩

theorem Idle.append {a b : List Char} (ha : Idle a) (hb : Idle b) : Idle (a ++ b) := by
  obtain ⟨as, rfl, has⟩ := ha
  obtain ⟨bs, rfl, hbs⟩ := hb
  refine ⟨as ++ bs, List.flatten_append.symm, fun p hp => ?_⟩
  rcases List.mem_append.mp hp with hp | hp
  · exact has p hp
  · exact hbs p hp

theorem hasPayload_blank {text : List Char} (h : ∀ c ∈ text, isWhitespace c = true) :
    hasPayload text = false := by
  have htrim : trim text = [] := by
    rw [trim, trimStart, List.dropWhile_eq_nil_iff.mpr h]
    rfl
  rw [hasPayload, htrim]
  rfl

theorem Idle.blank {text : List Char} (h : ∀ c ∈ text, isWhitespace c = true) : Idle text := by
  refine ⟨text.map fun c => [c], ?_, fun p hp => ?_⟩
  · rw [← List.flatMap_def, List.flatMap_singleton']
  obtain ⟨c, hc, rfl⟩ := List.mem_map.mp hp
  exact ⟨hasPayload_blank fun d hd => by rw [List.mem_singleton.mp hd]; exact h c hc, by simp⟩

theorem Idle.line {line : List Char} (h : hasPayload line = false) (hline : '\n' ∉ line) :
    Idle line := by
  refine ⟨[line], by simp, fun p hp => ?_⟩
  obtain rfl := List.mem_singleton.mp hp
  exact ⟨h, fun hmem => hline (List.dropLast_subset _ hmem)⟩

theorem blank_of_trim {text : List Char} (h : (trim text).isEmpty = true) :
    ∀ c ∈ text, isWhitespace c = true := by
  rw [List.isEmpty_iff, trim, trimEnd, List.rdropWhile_eq_nil_iff] at h
  intro c hc
  rw [← List.takeWhile_append_dropWhile (p := isWhitespace) (l := text)] at hc
  rcases List.mem_append.mp hc with hc | hc
  · exact List.mem_takeWhile_imp hc
  · exact h c hc

/-! ### What the items are -/

section Outlines

variable (tables : Lex.Tables) (complete : List Char → Bool)

/-- The text of an item. -/
def ScriptItem.Reads : ScriptItem → List Char → Prop
  | .shebang span, text => span.start = 0 ∧ ['#', '!'] <+: text
  | .directive d, text => ∃ line ending, text = line ++ ending ∧ '\n' ∉ line ∧
      (trimStart line).head? = some '\\' ∧ d = parseDirective tables line d.span
  | .code _, text => complete text = true

/-- The items of a text, with idle texts in front of them. -/
inductive Outlined : List Char → List ScriptItem → Prop
  | nil : Outlined [] []
  | snoc {covered gap text : List Char} {items : List ScriptItem} {item : ScriptItem} :
      Outlined covered items → Idle gap → text ≠ [] →
      item.span = ⟨Text.byteLen (covered ++ gap), Text.byteLen (covered ++ gap ++ text)⟩ →
      item.Reads tables complete text → Outlined (covered ++ gap ++ text) (items ++ [item])

/-- What has been read: texts in items, and pending ones. -/
structure Reading (covered pend : List Char) (st : Outline) : Prop where
  outlined : Outlined tables complete covered st.items
  start : st.pending.start = if pend = [] then none else some (Text.byteLen covered)
  stop : pend ≠ [] → st.pending.stop = Text.byteLen (covered ++ pend)
  idle : st.pending.hasPayload = false → Idle pend

theorem parseDirective_span (line : List Char) (span : ScriptSpan) :
    (parseDirective tables line span).span = span := by
  unfold parseDirective
  dsimp only
  split_ifs
  · rfl
  · split
    · rfl
    · split
      · rfl
      · split_ifs <;> rfl

end Outlines

theorem slice_middle {source a text b : List Char} (h : source = a ++ text ++ b) :
    Text.slice? source (Text.byteLen a) (Text.byteLen (a ++ text)) = some text := by
  rw [h, Text.byteLen_append, Text.slice?_append]

section Loop

variable {tables : Lex.Tables} {complete : List Char → Bool} {source : List Char}

theorem Reading.closed {covered : List Char} {items : List ScriptItem}
    (h : Outlined tables complete covered items) :
    Reading tables complete covered [] ⟨.clear, items⟩ :=
  ⟨h, rfl, fun hne => absurd rfl hne, fun _ => .nil⟩

/-- One line is read, whatever it is. -/
theorem processLine_reading {covered pend line ending rest : List Char} {st : Outline}
    {lineIndex : Nat} (hst : Reading tables complete covered pend st)
    (hsource : source = covered ++ pend ++ (line ++ ending) ++ rest)
    (hindex : lineIndex = 0 → covered ++ pend = []) (hline : '\n' ∉ line)
    (hending : ∀ c ∈ ending, isWhitespace c = true) (hne : line ++ ending ≠ []) :
    ∃ st' covered' pend', processLine tables complete source lineIndex
        (Text.byteLen (covered ++ pend)) (Text.byteLen (covered ++ pend ++ line))
        (Text.byteLen (covered ++ pend ++ (line ++ ending))) st = some st' ∧
      Reading tables complete covered' pend' st' ∧
      covered' ++ pend' = covered ++ pend ++ (line ++ ending) := by
  have hraw : Text.slice? source (Text.byteLen (covered ++ pend))
      (Text.byteLen (covered ++ pend ++ line)) = some line :=
    slice_middle (b := ending ++ rest) (by rw [hsource]; simp)
  unfold processLine
  rw [hraw]
  simp only [Option.bind_eq_bind, Option.bind_some]
  split
  · -- a shebang, and only blank lines pending
    rename_i hshebang
    obtain ⟨hzero, hprefix, hpayload⟩ := hshebang
    refine ⟨_, _, [], rfl, .closed (.snoc hst.outlined (hst.idle hpayload) hne rfl ?_), by simp⟩
    refine ⟨by rw [hindex hzero]; rfl, ?_⟩
    exact (List.isPrefixOf_iff_prefix.mp hprefix).trans (List.prefix_append line ending)
  · split
    · rename_i hdirective
      obtain ⟨hpayload, hhead⟩ := hdirective
      have hspan := parseDirective_span tables line ⟨Text.byteLen (covered ++ pend),
        Text.byteLen (covered ++ pend ++ (line ++ ending))⟩
      refine ⟨_, _, [], rfl, .closed (.snoc hst.outlined (hst.idle hpayload) hne hspan ?_), by simp⟩
      exact ⟨line, ending, rfl, hline, hhead, by rw [hspan]⟩
    · -- code, or nothing: the line is pending
      have hstart : (st.pending.start.getD (Text.byteLen (covered ++ pend))) =
          Text.byteLen covered := by
        rw [hst.start]
        split
        · rename_i hempty
          rw [hempty, List.append_nil]
          rfl
        · rfl
      have hpend : pend ++ (line ++ ending) ≠ [] := by simp [List.append_eq_nil_iff] at hne ⊢; tauto
      have hpending : Reading tables complete covered (pend ++ (line ++ ending))
          ⟨st.pending.pushLine (Text.byteLen (covered ++ pend))
            (Text.byteLen (covered ++ pend ++ (line ++ ending))) (hasPayload line), st.items⟩ := by
        refine ⟨hst.outlined, ?_, fun _ => ?_, fun hpayload => ?_⟩
        · rw [if_neg hpend, ← hstart]
          rfl
        · rw [← List.append_assoc covered]
          rfl
        · obtain ⟨hbefore, hhere⟩ := Bool.or_eq_false_iff.mp hpayload
          exact (hst.idle hbefore).append ((Idle.line hhere hline).append (.blank hending))
      have hcode : Text.slice? source (Text.byteLen covered)
          (Text.byteLen (covered ++ pend ++ (line ++ ending))) =
            some (pend ++ (line ++ ending)) := by
        rw [List.append_assoc covered]
        exact slice_middle (b := rest) (by rw [hsource]; simp)
      split
      · have hspan : (st.pending.pushLine (Text.byteLen (covered ++ pend))
            (Text.byteLen (covered ++ pend ++ (line ++ ending))) (hasPayload line)).span =
            some ⟨Text.byteLen covered, Text.byteLen (covered ++ pend ++ (line ++ ending))⟩ := by
          rw [PendingCode.span, PendingCode.pushLine, hstart]
          rfl
        rw [hspan, Option.getD_some, hcode, Option.bind_some]
        split
        · rename_i hcomplete
          refine ⟨_, covered ++ [] ++ (pend ++ (line ++ ending)), [], rfl,
            .closed (.snoc hst.outlined .nil hpend ?_ hcomplete), by simp⟩
          rw [List.append_nil, ← List.append_assoc covered]
          rfl
        · exact ⟨_, _, _, rfl, hpending, by simp⟩
      · exact ⟨_, _, _, rfl, hpending, by simp⟩

/-- The loop, in the middle of a line. -/
theorem scanLines_reading {rest : List Char} : ∀ {covered pend line : List Char} {st : Outline}
    {lineIndex : Nat}, Reading tables complete covered pend st →
    source = covered ++ pend ++ line ++ rest → (lineIndex = 0 → covered ++ pend = []) →
    '\n' ∉ line →
    ∃ st' covered' pend', scanLines tables complete source rest lineIndex
        (Text.byteLen (covered ++ pend)) (Text.byteLen (covered ++ pend ++ line)) st = some st' ∧
      Reading tables complete covered' pend' st' ∧ covered' ++ pend' = source := by
  induction rest with
  | nil =>
    intro covered pend line st lineIndex hst hsource hindex hline
    rw [List.append_nil] at hsource
    unfold scanLines
    split
    · rename_i hlt
      have hne : line ++ [] ≠ [] := by
        rintro hempty
        rw [List.append_nil] at hempty
        rw [hsource, hempty, List.append_nil] at hlt
        exact lt_irrefl _ hlt
      obtain ⟨st', covered', pend', hprocess, hst', hall⟩ :=
        @processLine_reading tables complete source covered pend line [] [] st lineIndex hst
          (by rw [hsource]; simp) hindex hline
          (by simp) hne
      rw [List.append_nil, ← hsource] at hprocess hall
      exact ⟨st', covered', pend', hprocess, hst', hall⟩
    · rename_i hge
      have hempty : line = [] := by
        by_contra hne
        have := Text.byteLen_pos hne
        rw [hsource, Text.byteLen_append (covered ++ pend)] at hge
        omega
      exact ⟨st, covered, pend, rfl, hst, by rw [hsource, hempty, List.append_nil]⟩
  | cons c rest ih =>
    intro covered pend line st lineIndex hst hsource hindex hline
    have hstop : Text.byteLen (covered ++ pend ++ line) + c.utf8Size =
        Text.byteLen (covered ++ pend ++ (line ++ [c])) := by
      rw [← List.append_assoc, Text.byteLen_append _ [c]]
      rfl
    rw [scanLines, hstop]
    split
    · rename_i hc
      obtain ⟨st', covered', pend', hprocess, hst', hall⟩ :=
        @processLine_reading tables complete source covered pend line [c] rest st lineIndex hst
          (by rw [hsource]; simp) hindex hline
          (fun d hd => by rw [List.mem_singleton.mp hd, hc]; decide) (by simp)
      rw [hprocess]
      have hnext := @ih covered' pend' [] st' (lineIndex + 1) hst'
        (by rw [hall, hsource]; simp) (fun h => absurd h (Nat.succ_ne_zero _)) (by simp)
      rw [List.append_nil, hall] at hnext
      exact hnext
    · rename_i hc
      exact ih hst (by rw [hsource]; simp) hindex (by simp [hline, Ne.symm hc])

/-- **Scripts.** The items are found without a panic, in their order; what is left out has no
code, and only code at the end may be incomplete. -/
theorem parseScriptItems_outlined (tables : Lex.Tables) (complete : List Char → Bool)
    (source : List Char) : ∃ covered items tail, source = covered ++ tail ∧
    Outlined tables complete covered items ∧
    (parseScriptItems tables complete source = some items ∧ Idle tail ∨
      parseScriptItems tables complete source =
        some (items ++ [.code ⟨Text.byteLen covered, Text.byteLen source⟩]) ∧ tail ≠ []) := by
  obtain ⟨st, covered, pend, hscan, hst, hall⟩ :=
    @scanLines_reading tables complete source source [] [] [] ⟨.clear, []⟩ 0 (.closed .nil) rfl
      (fun _ => rfl) (by simp)
  refine ⟨covered, st.items, pend, hall.symm, hst.outlined, ?_⟩
  have hparse : parseScriptItems tables complete source = finishPending source st := by
    rw [parseScriptItems]
    exact congrArg (fun st : Option Outline => st.bind (finishPending source)) hscan
  rw [hparse]
  by_cases hempty : pend = []
  · have hspan : st.pending.span = none := by
      rw [PendingCode.span, hst.start, if_pos hempty]
      rfl
    rw [finishPending, hspan, hempty]
    exact .inl ⟨rfl, .nil⟩
  · have hspan : st.pending.span = some ⟨Text.byteLen covered, Text.byteLen source⟩ := by
      rw [PendingCode.span, hst.start, if_neg hempty, hst.stop hempty, hall]
      rfl
    have hslice := @slice_middle source covered pend []
      (by rw [hall, List.append_nil])
    rw [hall] at hslice
    rw [finishPending, hspan]
    simp only [hslice, Option.bind_eq_bind, Option.bind_some]
    split
    · rename_i htrim
      exact .inl ⟨rfl, .blank (blank_of_trim htrim)⟩
    · exact .inr ⟨rfl, hempty⟩

end Loop

end Script
end Wqpl
