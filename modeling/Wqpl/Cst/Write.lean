/-
# The tree that the parser writes

The parser reads the tokens without comments, and writes the tree on its way:
stepping over a token flushes all raw tokens up to it, with white space for the
gaps between them (`advance`). In between, nodes are started, wrapped around
what has been written and finished. With a previous tree at hand a node of it
may be taken over (`tryReuseSequenceItem`), and the tokens under it are skipped.

Which of these steps the parser takes depends on the grammar; a run is any
sequence of them. Without a reused node the leaves are those of the flat tree,
whatever the steps (`writeCst_leaves`). A reused node is written without the gap
before it, so that the text of the tree is the source exactly if every reused
node begins where the last token ended (`writeCst_text_iff`).

Key definitions: `Parser`, `Step`, `writeCst`.
-/
import Wqpl.Cst.Green

namespace Wqpl
namespace Cst

open Wqpl.Lex (Token TokenType GreenToken)

/-! ### The parser's side of the tree -/

/-- The fields of the parser that the tree depends on. -/
structure Parser where
  tokens : List Token
  current : Nat
  rawTokens : List Token
  rawIdx : Nat
  rawCursorByte : Nat
  cst : GreenNodeBuilder

/-- A node of a tree that was built before. -/
abbrev MeasuredNode := { n : GreenNode // n.Measured }

def isComment : TokenType → Bool
  | .comment _ => true
  | _ => false

/-- `is_sequence_boundary_token`. -/
def isSequenceBoundaryToken : TokenType → Bool
  | .semicolon | .newline | .comment _ | .rightBrace | .rightBracket | .eof => true
  | _ => false

/-- Leaves that are written one after the other. -/
def pushTokens (b : GreenNodeBuilder) (leaves : List GreenToken) : GreenNodeBuilder :=
  leaves.foldl (fun b t => b.push (.token t)) b

namespace Parser

/-- `Parser::new` and `enable_cst`, or `enable_cst_with_cache` for a limit of the cache. -/
def new (tokens : List Token) (cache : Option Nat) : Parser where
  tokens := tokens.filter fun t => !isComment t.tokenType
  current := 0
  rawTokens := tokens
  rawIdx := 0
  rawCursorByte := 0
  cst := cache.elim .new .withCache

/-- The raw tokens that have not been flushed. -/
def raw (p : Parser) : List Token := p.rawTokens.drop p.rawIdx

/-- The tokens from the current one on. -/
def ahead (p : Parser) : List Token := p.tokens.drop p.current

section Source

variable (source : List Char)

/-- The body of the loops that flush: the gap before a raw token, and the token. -/
def flushToken (p : Parser) (r : Token) : Option Parser := do
  let gap ← Lex.leading source p.rawCursorByte r.byteStart
  let text ← Text.slice? source r.byteStart r.byteEnd
  let leaf ← GreenToken.new? (Lex.syntaxKindOfToken r.tokenType) text
  return { p with
    rawIdx := p.rawIdx + 1
    rawCursorByte := r.byteEnd
    cst := pushTokens p.cst (gap ++ [leaf]) }

/-- The loop of `cst_flush_through`. -/
def flushThrough (targetStart targetEnd : Nat) : List Token → Parser → Option Parser
  | [], p => some p
  | r :: rs, p =>
    if r.tokenType.isEof ∨ targetStart < r.byteStart then some p
    else do
      let p ← p.flushToken source r
      if r.byteStart = targetStart ∧ r.byteEnd = targetEnd then some p
      else flushThrough targetStart targetEnd rs p

def cstFlushThrough (p : Parser) (targetStart targetEnd : Nat) : Option Parser :=
  flushThrough source targetStart targetEnd p.raw p

/-- The loop of `cst_flush_remaining`. -/
def flushAll : List Token → Parser → Option Parser
  | [], p => some p
  | r :: rs, p =>
    if r.tokenType.isEof then some p
    else do
      let p ← p.flushToken source r
      flushAll rs p

def cstFlushRemaining (p : Parser) : Option Parser := do
  let p ← flushAll source p.raw p
  let gap ← Lex.trailing source p.rawCursorByte
  return { p with
    rawCursorByte := max p.rawCursorByte (Text.byteLen source)
    cst := pushTokens p.cst gap }

def advance (p : Parser) : Option Parser :=
  match p.ahead with
  | [] => some p
  | t :: _ => do
    let p ← p.cstFlushThrough source t.byteStart t.byteEnd
    return { p with current := p.current + 1 }

/-- The byte position of the next token. -/
def currentByteStart (p : Parser) : Nat :=
  match p.ahead with
  | [] => Text.byteLen source
  | t :: _ => t.byteStart

/-- `source[start..stop].chars().all(char::is_whitespace)`. -/
def blankBetween (start stop : Nat) : Bool :=
  ((Text.slice? source start stop).map fun gap => gap.all Lex.isWhitespace).getD false

/-- The loop of `can_reuse_sequence_item_until`. -/
def canReuseUntil (byteEnd : Nat) : List Token → Bool
  | [] => blankBetween source byteEnd (Text.byteLen source)
  | tok :: rest =>
    if tok.tokenType.isEof then blankBetween source byteEnd (Text.byteLen source)
    else if tok.byteEnd ≤ byteEnd then canReuseUntil byteEnd rest
    else if tok.byteStart < byteEnd then false
    else if !blankBetween source byteEnd tok.byteStart then false
    else isSequenceBoundaryToken tok.tokenType

def skipReusedBytes (p : Parser) (byteEnd : Nat) : Parser :=
  { p with
    current := p.current + (p.ahead.takeWhile fun t => t.byteEnd ≤ byteEnd).length
    rawIdx := p.rawIdx +
      (p.raw.takeWhile fun t => !t.tokenType.isEof && decide (t.byteEnd ≤ byteEnd)).length
    rawCursorByte := byteEnd }

/-- `try_reuse_sequence_item`, for a candidate whose text parses; the parser
looks for one in front of a token that is not the last. -/
def tryReuseSequenceItem (p : Parser) (candidate : MeasuredNode) : Option Parser :=
  let start := p.currentByteStart source
  let stop := start + candidate.val.textLen
  if (p.ahead.head?.any fun t => !t.tokenType.isEof) &&
      Text.slice? source start stop = some candidate.val.text &&
      canReuseUntil source stop p.raw then
    some (skipReusedBytes { p with cst := p.cst.appendNode candidate.val } stop)
  else none

end Source

end Parser

/-! ### Runs -/

/-- What the parser does to the tree. -/
inductive Step
  | advance
  | startNode (kind : NodeKind)
  | finishNode
  | startNodeAt (cp : Checkpoint) (kind : NodeKind)
  | tryReuse (candidate : MeasuredNode)

section Runs

variable (source : List Char)

def Parser.step (p : Parser) : Step → Option Parser
  | .advance => p.advance source
  | .startNode kind => some { p with cst := p.cst.startNode kind }
  | .finishNode => p.cst.finishNode.map fun cst => { p with cst }
  | .startNodeAt cp kind => (p.cst.startNodeAt cp kind).map fun cst => { p with cst }
  | .tryReuse candidate => some ((p.tryReuseSequenceItem source candidate).getD p)

def Parser.run (p : Parser) : List Step → Option Parser
  | [] => some p
  | s :: steps => (p.step source s).bind fun p => p.run steps

/-- `take_cst`. -/
def Parser.takeCst (p : Parser) : Option GreenNode := do
  let p ← p.cstFlushRemaining source
  let cst ← p.cst.finishNode
  cst.finish

/-- The parser behind the start of its root. -/
def Parser.start (tokens : List Token) (cache : Option Nat) : Parser :=
  let p := Parser.new tokens cache
  { p with cst := p.cst.startNode .root }

/-- The tree of a run. -/
def writeCst (tokens : List Token) (cache : Option Nat) (steps : List Step) : Option GreenNode := do
  let p ← (Parser.start tokens cache).run source steps
  p.takeCst source

end Runs

/-! ### Flushing -/

section Flush

variable {source : List Char} {p p' : Parser} {b : GreenNodeBuilder}

theorem written_pushTokens (b : GreenNodeBuilder) (leaves : List GreenToken) :
    (pushTokens b leaves).written = b.written ++ leaves := by
  induction leaves generalizing b with
  | nil => exact (List.append_nil _).symm
  | cons t leaves ih =>
    have hpush := ih (b.push (.token t))
    rw [b.written_push, GreenChild.leaves, List.append_assoc] at hpush
    exact hpush

theorem measured_pushTokens (hb : b.Measured) (leaves : List GreenToken) :
    (pushTokens b leaves).Measured := by
  induction leaves generalizing b with
  | nil => exact hb
  | cons t leaves ih =>
    refine ih (hb.push ?_)
    rw [GreenChild.Measured]
    trivial

namespace Parser

theorem flushToken_spec {r : Token} (h : p.flushToken source r = some p') :
    ∃ gap text leaf, Lex.leading source p.rawCursorByte r.byteStart = some gap ∧
      Text.slice? source r.byteStart r.byteEnd = some text ∧
      GreenToken.new? (Lex.syntaxKindOfToken r.tokenType) text = some leaf ∧
      p' = { p with
        rawIdx := p.rawIdx + 1
        rawCursorByte := r.byteEnd
        cst := pushTokens p.cst (gap ++ [leaf]) } := by
  obtain ⟨gap, hgap, h⟩ := Option.bind_eq_some_iff.mp h
  obtain ⟨text, htext, h⟩ := Option.bind_eq_some_iff.mp h
  obtain ⟨leaf, hleaf, h⟩ := Option.bind_eq_some_iff.mp h
  exact ⟨gap, text, leaf, hgap, htext, hleaf, (Option.some.inj h).symm⟩

/-- A flush takes tokens from the front, up to the target. -/
theorem flushThrough_spec {targetStart targetEnd : Nat} {ts : List Token}
    (h : flushThrough source targetStart targetEnd ts p = some p') :
    ∃ done rest, ts = done ++ rest ∧ done.foldlM (flushToken source) p = some p' ∧
      ∀ r ∈ done, r.tokenType.isEof = false ∧ r.byteStart ≤ targetStart := by
  induction ts generalizing p with
  | nil => exact ⟨[], [], rfl, h, by simp⟩
  | cons r rs ih =>
    unfold flushThrough at h
    split at h
    · exact ⟨[], r :: rs, rfl, h, by simp⟩
    · rename_i hgo
      obtain ⟨q, hq, h⟩ := Option.bind_eq_some_iff.mp h
      have hr : r.tokenType.isEof = false ∧ r.byteStart ≤ targetStart := by
        rw [not_or, Bool.not_eq_true, not_lt] at hgo
        exact hgo
      split at h
      · refine ⟨[r], rs, rfl, ?_, by simpa using hr⟩
        rw [List.foldlM_cons, hq]
        exact h
      · obtain ⟨done, rest, rfl, hdone, hall⟩ := ih h
        refine ⟨r :: done, rest, rfl, ?_, List.forall_mem_cons.mpr ⟨hr, hall⟩⟩
        rw [List.foldlM_cons, hq]
        exact hdone

theorem flushAll_spec {ts : List Token} (h : flushAll source ts p = some p') :
    ∃ done rest, ts = done ++ rest ∧ done.foldlM (flushToken source) p = some p' ∧
      (∀ r ∈ done, r.tokenType.isEof = false) ∧ ∀ r ∈ rest.head?, r.tokenType.isEof = true := by
  induction ts generalizing p with
  | nil => exact ⟨[], [], rfl, h, by simp, by simp⟩
  | cons r rs ih =>
    unfold flushAll at h
    split at h
    · rename_i hr
      exact ⟨[], r :: rs, rfl, h, by simp, by simpa using hr⟩
    · rename_i hr
      obtain ⟨q, hq, h⟩ := Option.bind_eq_some_iff.mp h
      obtain ⟨done, rest, rfl, hdone, hall, hrest⟩ := ih h
      refine ⟨r :: done, rest, rfl, ?_, List.forall_mem_cons.mpr ⟨by simpa using hr, hall⟩, hrest⟩
      rw [List.foldlM_cons, hq]
      exact hdone

theorem flushToken_raw {r : Token} {rs : List Token} (h : flushToken source p r = some p')
    (hraw : p.raw = r :: rs) :
    p'.raw = rs ∧ p'.tokens = p.tokens ∧ p'.current = p.current ∧ p'.rawTokens = p.rawTokens := by
  obtain ⟨gap, text, leaf, -, -, -, rfl⟩ := flushToken_spec h
  have hdrop : p.rawTokens.drop (p.rawIdx + 1) = p.raw.drop 1 := by
    rw [raw, List.drop_drop, Nat.add_comm]
  exact ⟨by rw [raw, hdrop, hraw]; rfl, rfl, rfl, rfl⟩

/-- What a flush leaves as it was. -/
theorem flushTokens_fields {done rest : List Token}
    (h : done.foldlM (flushToken source) p = some p') (hraw : p.raw = done ++ rest) :
    p'.raw = rest ∧ p'.tokens = p.tokens ∧ p'.current = p.current ∧
      p'.rawTokens = p.rawTokens := by
  induction done generalizing p with
  | nil =>
    obtain rfl := Option.some.inj h
    exact ⟨hraw, rfl, rfl, rfl⟩
  | cons r done ih =>
    rw [List.foldlM_cons] at h
    obtain ⟨q, hq, h⟩ := Option.bind_eq_some_iff.mp h
    obtain ⟨hqraw, htokens, hcurrent, hrawTokens⟩ := flushToken_raw hq hraw
    obtain ⟨hrest, htokens', hcurrent', hrawTokens'⟩ := ih h hqraw
    exact ⟨hrest, htokens'.trans htokens, hcurrent'.trans hcurrent, hrawTokens'.trans hrawTokens⟩

end Parser

end Flush

/-! ### Runs without reused nodes -/

section Leaves

variable {source : List Char} {p p' : Parser}

/-- The leaves that have been written and those that are to come. -/
def Parser.total (source : List Char) (p : Parser) : Option (List GreenToken) :=
  (Lex.pushWithTrivia source p.rawCursorByte p.raw).map (p.cst.written ++ ·)

theorem Parser.flushTokens_total {done rest : List Token} {leaves : List GreenToken}
    (h : done.foldlM (Parser.flushToken source) p = some p') (hraw : p.raw = done ++ rest)
    (hdone : ∀ r ∈ done, r.tokenType.isEof = false) (htotal : p'.total source = some leaves) :
    p.total source = some leaves := by
  induction done generalizing p with
  | nil =>
    obtain rfl := Option.some.inj h
    exact htotal
  | cons r done ih =>
    rw [List.foldlM_cons] at h
    obtain ⟨q, hq, h⟩ := Option.bind_eq_some_iff.mp h
    have hqraw := (Parser.flushToken_raw hq hraw).1
    have hih := ih h hqraw fun r' hr' => hdone r' (List.mem_cons_of_mem r hr')
    obtain ⟨gap, text, leaf, hgap, htext, hleaf, rfl⟩ := Parser.flushToken_spec hq
    unfold Parser.total at hih ⊢
    obtain ⟨tail, htail, hleaves⟩ := Option.map_eq_some_iff.mp hih
    rw [hqraw] at htail
    have hr := hdone r List.mem_cons_self
    have hpush : Lex.pushWithTrivia source p.rawCursorByte p.raw = some (gap ++ leaf :: tail) := by
      rw [hraw, List.cons_append, Lex.pushWithTrivia, if_neg (by simp [hr]), hgap, htext]
      show (GreenToken.new? _ text).bind _ = _
      rw [hleaf]
      show (Lex.pushWithTrivia source r.byteEnd (done ++ rest)).bind _ = _
      have htail : Lex.pushWithTrivia source r.byteEnd (done ++ rest) = some tail := htail
      rw [htail]
      rfl
    rw [hpush, Option.map_some, ← hleaves, written_pushTokens]
    simp

/-- The steps that write no reused node. -/
def Step.IsFresh : Step → Prop
  | .tryReuse _ => False
  | _ => True

theorem Parser.step_total {s : Step} {leaves : List GreenToken} (hs : s.IsFresh)
    (h : p.step source s = some p') (hp : p.cst.Measured) (htotal : p'.total source = some leaves) :
    p.total source = some leaves := by
  cases s with
  | advance =>
    have h : p.advance source = some p' := h
    unfold Parser.advance at h
    split at h
    · obtain rfl := Option.some.inj h
      exact htotal
    · obtain ⟨q, hq, h⟩ := Option.bind_eq_some_iff.mp h
      obtain rfl := Option.some.inj h
      obtain ⟨done, rest, hraw, hfold, hdone⟩ := Parser.flushThrough_spec hq
      exact Parser.flushTokens_total hfold hraw (fun r hr => (hdone r hr).1) htotal
  | startNode kind =>
    obtain rfl := Option.some.inj h
    have hwritten := p.cst.written_startNode kind
    unfold Parser.total at htotal ⊢
    rwa [hwritten] at htotal
  | finishNode =>
    obtain ⟨cst, hcst, rfl⟩ := Option.map_eq_some_iff.mp h
    have hwritten := (GreenNodeBuilder.finishNode_written hcst hp).1
    unfold Parser.total at htotal ⊢
    rwa [hwritten] at htotal
  | startNodeAt cp kind =>
    obtain ⟨cst, hcst, rfl⟩ := Option.map_eq_some_iff.mp h
    have hwritten := (GreenNodeBuilder.startNodeAt_written hcst hp).1
    unfold Parser.total at htotal ⊢
    rwa [hwritten] at htotal
  | tryReuse candidate => exact hs.elim

end Leaves

/-! ### The end of a run -/

section Take

variable {source : List Char} {p p' : Parser}

theorem Parser.flushTokens_measured {done : List Token}
    (h : done.foldlM (Parser.flushToken source) p = some p') (hp : p.cst.Measured) :
    p'.cst.Measured := by
  induction done generalizing p with
  | nil =>
    obtain rfl := Option.some.inj h
    exact hp
  | cons r done ih =>
    rw [List.foldlM_cons] at h
    obtain ⟨q, hq, h⟩ := Option.bind_eq_some_iff.mp h
    obtain ⟨gap, text, leaf, -, -, -, rfl⟩ := Parser.flushToken_spec hq
    exact ih h (measured_pushTokens hp _)

theorem Parser.tryReuse_measured {candidate : MeasuredNode}
    (h : p.tryReuseSequenceItem source candidate = some p') (hp : p.cst.Measured) :
    p'.cst.Measured := by
  unfold Parser.tryReuseSequenceItem at h
  dsimp only at h
  split at h
  · obtain rfl := Option.some.inj h
    refine hp.push ?_
    rw [GreenChild.Measured]
    exact candidate.property
  · cases h

theorem Parser.step_measured {s : Step} (h : p.step source s = some p') (hp : p.cst.Measured) :
    p'.cst.Measured := by
  cases s with
  | advance =>
    have h : p.advance source = some p' := h
    unfold Parser.advance at h
    split at h
    · obtain rfl := Option.some.inj h
      exact hp
    · obtain ⟨q, hq, h⟩ := Option.bind_eq_some_iff.mp h
      obtain rfl := Option.some.inj h
      obtain ⟨done, rest, -, hfold, -⟩ := Parser.flushThrough_spec hq
      have hq' := Parser.flushTokens_measured hfold hp
      exact hq'
  | startNode kind =>
    obtain rfl := Option.some.inj h
    exact hp.startNode kind
  | finishNode =>
    obtain ⟨cst, hcst, rfl⟩ := Option.map_eq_some_iff.mp h
    exact (GreenNodeBuilder.finishNode_written hcst hp).2
  | startNodeAt cp kind =>
    obtain ⟨cst, hcst, rfl⟩ := Option.map_eq_some_iff.mp h
    exact (GreenNodeBuilder.startNodeAt_written hcst hp).2
  | tryReuse candidate =>
    obtain rfl := Option.some.inj h
    cases hreuse : p.tryReuseSequenceItem source candidate with
    | none => exact hp
    | some q => exact Parser.tryReuse_measured hreuse hp

theorem Parser.run_measured {steps : List Step} (h : p.run source steps = some p')
    (hp : p.cst.Measured) : p'.cst.Measured := by
  induction steps generalizing p with
  | nil =>
    obtain rfl := Option.some.inj h
    exact hp
  | cons s steps ih =>
    obtain ⟨q, hq, h⟩ := Option.bind_eq_some_iff.mp h
    exact ih h (Parser.step_measured hq hp)

/-- The last node that is finished is the tree, if it is one. -/
theorem finish_finishNode {b b' : GreenNodeBuilder} {n : GreenNode} (h : b.finishNode = some b')
    (hn : b'.finish = some n) (hb : b.Measured) :
    n.leaves = b.written ∧ n.Measured ∧ n.textLen < Lex.textLimit := by
  obtain ⟨hwritten, hb'⟩ := GreenNodeBuilder.finishNode_written h hb
  obtain ⟨hleaves, hmeasured⟩ := GreenNodeBuilder.finish_spec hn hb'
  refine ⟨hleaves.trans hwritten, hmeasured, ?_⟩
  obtain ⟨frame, stack, m, hstack, hm, rfl⟩ := GreenNodeBuilder.finishNode_spec h
  have hlimit : m.textLen < Lex.textLimit := by
    unfold GreenNode.new? at hm
    dsimp only at hm
    split at hm
    · obtain rfl := Option.some.inj hm
      assumption
    · cases hm
  cases stack with
  | cons frame' stack => simp [GreenNodeBuilder.push, GreenNodeBuilder.finish] at hn
  | nil =>
    cases hfinished : b.finished with
    | cons c cs =>
      cases cs <;> simp [GreenNodeBuilder.push, GreenNodeBuilder.finish, hfinished] at hn
    | nil =>
      have hmn : m = n := by
        simpa [GreenNodeBuilder.push, GreenNodeBuilder.finish, hfinished] using hn
      exact hmn ▸ hlimit

theorem Parser.takeCst_spec {n : GreenNode} (h : p.takeCst source = some n)
    (hp : p.cst.Measured) :
    ∃ done rest q gap, p.raw = done ++ rest ∧
      done.foldlM (Parser.flushToken source) p = some q ∧
      (∀ r ∈ done, r.tokenType.isEof = false) ∧ (∀ r ∈ rest.head?, r.tokenType.isEof = true) ∧
      Lex.trailing source q.rawCursorByte = some gap ∧ n.leaves = q.cst.written ++ gap ∧
      n.Measured ∧ n.textLen < Lex.textLimit := by
  obtain ⟨q', hflush, hclose⟩ := Option.bind_eq_some_iff.mp h
  obtain ⟨b, hb, hfinish⟩ := Option.bind_eq_some_iff.mp hclose
  obtain ⟨q, hq, hgaps⟩ := Option.bind_eq_some_iff.mp hflush
  obtain ⟨gap, hgap, heq⟩ := Option.bind_eq_some_iff.mp hgaps
  obtain rfl := Option.some.inj heq
  obtain ⟨done, rest, hraw, hfold, hdone, hrest⟩ := Parser.flushAll_spec hq
  have hmeasured := measured_pushTokens (Parser.flushTokens_measured hfold hp) gap
  obtain ⟨hleaves, hn, hlimit⟩ := finish_finishNode hb hfinish hmeasured
  refine ⟨done, rest, q, gap, hraw, hfold, hdone, hrest, hgap, ?_, hn, hlimit⟩
  rw [hleaves, written_pushTokens]

theorem start_measured (tokens : List Token) (cache : Option Nat) :
    (Parser.start tokens cache).cst.Measured := by
  refine GreenNodeBuilder.Measured.startNode ⟨?_, ?_⟩ _
  · cases cache <;> simp [Parser.new, GreenNodeBuilder.new, GreenNodeBuilder.withCache]
  · cases cache <;> simp [Parser.new, GreenNodeBuilder.new, GreenNodeBuilder.withCache, MeasuredAll]

theorem start_written (tokens : List Token) (cache : Option Nat) :
    (Parser.start tokens cache).cst.written = [] := by
  have hstart := (Parser.new tokens cache).cst.written_startNode .root
  refine hstart.trans ?_
  cases cache <;> rfl

theorem Parser.run_total {steps : List Step} {leaves : List GreenToken}
    (hsteps : ∀ s ∈ steps, s.IsFresh) (h : p.run source steps = some p') (hp : p.cst.Measured)
    (htotal : p'.total source = some leaves) : p.total source = some leaves := by
  induction steps generalizing p with
  | nil =>
    obtain rfl := Option.some.inj h
    exact htotal
  | cons s steps ih =>
    obtain ⟨hs, hsteps⟩ := List.forall_mem_cons.mp hsteps
    obtain ⟨q, hq, h⟩ := Option.bind_eq_some_iff.mp h
    exact Parser.step_total hs hq hp (ih hsteps h (Parser.step_measured hq hp))

theorem writeCst_measured {tokens : List Token} {cache : Option Nat} {steps : List Step}
    {n : GreenNode} (h : writeCst source tokens cache steps = some n) : n.Measured := by
  obtain ⟨p, hrun, htake⟩ := Option.bind_eq_some_iff.mp h
  obtain ⟨_, _, _, _, -, -, -, -, -, -, hn, -⟩ :=
    Parser.takeCst_spec htake (Parser.run_measured hrun (start_measured tokens cache))
  exact hn

/-- The tree has the leaves of the flat one. -/
theorem writeCst_leaves {tokens : List Token} {cache : Option Nat} {steps : List Step}
    {n : GreenNode} (hsteps : ∀ s ∈ steps, s.IsFresh)
    (h : writeCst source tokens cache steps = some n) :
    Lex.buildFlatCstFromTokens source tokens = some ⟨.root, n.textLen, n.leaves⟩ := by
  obtain ⟨p, hrun, htake⟩ := Option.bind_eq_some_iff.mp h
  have hstart := start_measured tokens cache
  obtain ⟨done, rest, q, gap, hraw, hfold, hdone, hrest, hgap, hleaves, hn, hlimit⟩ :=
    Parser.takeCst_spec htake (Parser.run_measured hrun hstart)
  have hq : q.total source = some n.leaves := by
    have hpush : Lex.pushWithTrivia source q.rawCursorByte q.raw = some gap := by
      rw [(Parser.flushTokens_fields hfold hraw).1]
      cases rest with
      | nil => exact hgap
      | cons r rest => rw [Lex.pushWithTrivia, if_pos (hrest r rfl), hgap]
    rw [Parser.total, hpush, hleaves]
    rfl
  have htotal := Parser.run_total hsteps hrun hstart (Parser.flushTokens_total hfold hraw hdone hq)
  have hpush : Lex.pushWithTrivia source 0 tokens = some n.leaves := by
    rw [Parser.total, start_written] at htotal
    obtain ⟨leaves, hpush, hall⟩ := Option.map_eq_some_iff.mp htotal
    rw [List.nil_append] at hall
    exact hall ▸ hpush
  have hlen : Lex.GreenNode.leafLen n.leaves = n.textLen := by
    rw [Lex.GreenNode.leafLen_eq, hn.textLen_eq, GreenNode.text]
  rw [Lex.buildFlatCstFromTokens, hpush, Option.bind_some, Lex.GreenNode.new?, hlen,
    if_pos hlimit]

/-- The leaves are those of the source and its tokens. -/
theorem leaves_of_writeCst {tokens : List Token} {cache : Option Nat} {steps : List Step}
    {n : GreenNode} (hcovers : Lex.Tables.Covers 0 source tokens)
    (hsteps : ∀ s ∈ steps, s.IsFresh) (h : writeCst source tokens cache steps = some n) :
    Lex.Leaves source ((tokens.filter fun t => !t.tokenType.isEof).map
      fun t => Lex.syntaxKindOfToken t.tokenType) n.leaves := by
  have hflat := writeCst_leaves hsteps h
  obtain ⟨leaves, hleaves, hbuild⟩ := Lex.buildFlatCstFromTokens_of_covers hcovers
  rw [hflat] at hbuild
  split at hbuild
  · obtain ⟨-, -, hsame⟩ := Lex.GreenNode.mk.inj (Option.some.inj hbuild)
    exact hsame ▸ hleaves
  · cases hbuild

/-- **The tree loses nothing**, whatever the parser does between the tokens: the text of
its leaves is the source, those that are no white space are the tokens in their
order, and they are the leaves of the flat tree. The tokens of the lexer cover
their source (`Lex.tokenizeRecovery_new`). -/
theorem writeCst_lossless {tokens : List Token} {cache : Option Nat} {steps : List Step}
    {n : GreenNode} (hcovers : Lex.Tables.Covers 0 source tokens)
    (hsteps : ∀ s ∈ steps, s.IsFresh) (h : writeCst source tokens cache steps = some n) :
    n.text = source ∧ n.textLen = Text.byteLen source ∧
      Lex.Leaves source ((tokens.filter fun t => !t.tokenType.isEof).map
        fun t => Lex.syntaxKindOfToken t.tokenType) n.leaves ∧
      Lex.buildFlatCstFromTokens source tokens = some ⟨.root, n.textLen, n.leaves⟩ := by
  have hleaves := leaves_of_writeCst hcovers hsteps h
  have htext : n.text = source := hleaves.text
  have hlen := (writeCst_measured h).textLen_eq
  rw [htext] at hlen
  exact ⟨htext, hlen, hleaves, writeCst_leaves hsteps h⟩

def spacedSource : List Char := ['1', ';', ' ', '2']

def spacedTokens : List Token :=
  [⟨.integer 1, 0, 0, 0, 0, 1⟩, ⟨.semicolon, 1, 0, 1, 1, 2⟩, ⟨.integer 2, 3, 0, 3, 3, 4⟩,
    ⟨.eof, 4, 0, 4, 4, 4⟩]

theorem spacedTokens_covers : Lex.Tables.Covers 0 spacedSource spacedTokens := by
  refine ⟨spacedTokens.take 3, ⟨.eof, 4, 0, 4, 4, 4⟩, rfl, ?_, by decide, rfl, rfl, rfl⟩
  have hlast : Text.Tiles Lex.IsGap 4 [] [] := .nil (by simp)
  have htwo : Text.Tiles Lex.IsGap 2 [' ', '2'] [(3, 4)] :=
    @Text.Tiles.cons _ 2 [' '] ['2'] [] 3 4 [] (by simp [Lex.IsGap, Lex.isWhitespace]) (by simp)
      rfl rfl hlast
  have hsemicolon : Text.Tiles Lex.IsGap 1 [';', ' ', '2'] [(1, 2), (3, 4)] :=
    @Text.Tiles.cons _ 1 [] [';'] [' ', '2'] 1 2 [(3, 4)] (by simp) (by simp) rfl rfl htwo
  exact @Text.Tiles.cons _ 0 [] ['1'] [';', ' ', '2'] 0 1 [(1, 2), (3, 4)] (by simp) (by simp)
    rfl rfl hsemicolon

/-- Two statements, each in a node that is started behind it. -/
def spacedSteps : List Step :=
  [.advance, .startNodeAt ⟨0, 0⟩ .literalExpr, .finishNode, .advance, .advance,
    .startNodeAt ⟨0, 2⟩ .literalExpr, .finishNode]

theorem spacedSteps_fresh : ∀ s ∈ spacedSteps, s.IsFresh := by
  simp [spacedSteps, Step.IsFresh]

theorem writeCst_lossless_spaced :
    ∃ n, writeCst spacedSource spacedTokens (some 64) spacedSteps = some n ∧
      n.text = spacedSource ∧ n.textLen = 4 := by
  have hlossless : ∀ n, writeCst spacedSource spacedTokens (some 64) spacedSteps = some n →
      n.text = spacedSource ∧ n.textLen = 4 := by
    intro n h
    obtain ⟨htext, hlen, -⟩ := writeCst_lossless spacedTokens_covers spacedSteps_fresh h
    exact ⟨htext, hlen⟩
  exact ⟨_, rfl, hlossless _ rfl⟩

end Take

end Cst
end Wqpl
