/-
# The flat concrete syntax tree

`pushWithTrivia` makes a leaf of every token and of every stretch of text
between tokens. The texts are slices of the source in bytes, which fail where a
span does not fall between two characters; a tree of 4 GiB of text or more is
refused. `buildFlatCstRecovery_text`: for every shorter text there is a tree, its
leaves put together are the text, and those that are no tokens are white space.
-/
import Wqpl.Lex.Strict

namespace Wqpl
namespace Lex

/-- The kinds of leaves, and the root. -/
inductive SyntaxKind
  | root
  | whitespace
  | ident
  | wLoopKw
  | nLoopKw
  | blockKw
  | andKw
  | orKw
  | intLit
  | bigIntLit
  | floatLit
  | imagLit
  | charLit
  | stringLit
  | tagLit
  | backtick
  | infLit
  | trueKw
  | falseKw
  | fString
  | apostrophe
  | ellipsis
  | atBreak
  | atContinue
  | atReturn
  | atDebug
  | atPause
  | atDepth
  | atSymbolic
  | atTry
  | atImport
  | dollar
  | dollarDot
  | dollarDollar
  | plus
  | minus
  | star
  | power
  | powerDot
  | slash
  | slashDot
  | percent
  | matmul
  | floorDiv
  | plusColon
  | minusColon
  | starColon
  | slashColon
  | slashDotColon
  | percentColon
  | powerColon
  | powerDotColon
  | commaColon
  | floorDivColon
  | colon
  | eqEq
  | eqDot
  | notEq
  | notEqDot
  | lt
  | le
  | gt
  | ge
  | hash
  | pipe
  | pipeDot
  | pipePipe
  | pipePipeDot
  | rangeOp
  | rangeIncOp
  | lParen
  | rParen
  | lBrack
  | rBrack
  | lBrace
  | rBrace
  | semicolon
  | comma
  | bang
  | newline
  | comment
  | errorTok
deriving DecidableEq, Repr

def syntaxKindOfToken : TokenType → SyntaxKind
  | .identifier _ => .ident
  | .keyword .wLoop => .wLoopKw
  | .keyword .nLoop => .nLoopKw
  | .keyword .block => .blockKw
  | .keyword .and => .andKw
  | .keyword .or => .orKw
  | .integer _ => .intLit
  | .bigInteger _ => .bigIntLit
  | .float _ => .floatLit
  | .imaginary _ => .imagLit
  | .character _ => .charLit
  | .string _ => .stringLit
  | .tag _ => .tagLit
  | .backtick => .backtick
  | .inf => .infLit
  | .true_ => .trueKw
  | .false_ => .falseKw
  | .formatString _ _ _ => .fString
  | .apostrophe => .apostrophe
  | .ellipsis => .ellipsis
  | .atBreak => .atBreak
  | .atContinue => .atContinue
  | .atReturn => .atReturn
  | .atDebug => .atDebug
  | .atPause => .atPause
  | .atDepth _ => .atDepth
  | .atSymbolic => .atSymbolic
  | .atTry => .atTry
  | .atImport => .atImport
  | .dollar => .dollar
  | .dollarDot => .dollarDot
  | .dollarDollar => .dollarDollar
  | .plus => .plus
  | .minus => .minus
  | .multiply => .star
  | .power => .power
  | .powerDot => .powerDot
  | .divide => .slash
  | .divideDot => .slashDot
  | .modulo => .percent
  | .matmul => .matmul
  | .floorDiv => .floorDiv
  | .plusColon => .plusColon
  | .minusColon => .minusColon
  | .multiplyColon => .starColon
  | .divideColon => .slashColon
  | .divideDotColon => .slashDotColon
  | .moduloColon => .percentColon
  | .powerColon => .powerColon
  | .powerDotColon => .powerDotColon
  | .commaColon => .commaColon
  | .floorDivColon => .floorDivColon
  | .colon => .colon
  | .equal => .eqEq
  | .equalDot => .eqDot
  | .notEqual => .notEq
  | .notEqualDot => .notEqDot
  | .lessThan => .lt
  | .lessThanOrEqual => .le
  | .greaterThan => .gt
  | .greaterThanOrEqual => .ge
  | .sharp => .hash
  | .pipe => .pipe
  | .pipeDot => .pipeDot
  | .pipePipe => .pipePipe
  | .pipePipeDot => .pipePipeDot
  | .range => .rangeOp
  | .rangeInclusive => .rangeIncOp
  | .leftParen => .lParen
  | .rightParen => .rParen
  | .leftBracket => .lBrack
  | .rightBracket => .rBrack
  | .leftBrace => .lBrace
  | .rightBrace => .rBrace
  | .semicolon => .semicolon
  | .comma => .comma
  | .bang => .bang
  | .newline => .newline
  | .comment _ => .comment
  | .error => .errorTok
  | .eof => .errorTok

theorem syntaxKindOfToken_ne_whitespace (t : TokenType) : syntaxKindOfToken t ≠ .whitespace := by
  cases t with
  | keyword k => cases k <;> decide
  | _ => simp [syntaxKindOfToken]

/-! ### The tree -/

/-- 4 GiB. -/
def textLimit : Nat := 2 ^ 32

structure GreenToken where
  kind : SyntaxKind
  text : List Char
deriving DecidableEq, Repr

/-- `GreenToken::new`; its text has a length of 32 bits. -/
def GreenToken.new? (kind : SyntaxKind) (text : List Char) : Option GreenToken :=
  if Text.byteLen text < textLimit then some ⟨kind, text⟩ else none

/-- The flat tree has only leaves below its root. -/
structure GreenNode where
  kind : SyntaxKind
  textLen : Nat
  children : List GreenToken
deriving DecidableEq, Repr

namespace GreenNode

def leafLen (children : List GreenToken) : Nat :=
  (children.map fun leaf => Text.byteLen leaf.text).sum

/-- `GreenNode::new`. -/
def new? (kind : SyntaxKind) (children : List GreenToken) : Option GreenNode :=
  if leafLen children < textLimit then some ⟨kind, leafLen children, children⟩ else none

/-- The texts of the leaves put together. -/
def text (node : GreenNode) : List Char := node.children.flatMap GreenToken.text

theorem leafLen_eq (children : List GreenToken) :
    leafLen children = Text.byteLen (children.flatMap GreenToken.text) := by
  induction children with
  | nil => rfl
  | cons leaf children ih =>
    rw [List.flatMap_cons, Text.byteLen_append, ← ih]
    rfl

end GreenNode

/-- The leaf of white space for what is left of the source. -/
def trailing (source : List Char) (cursor : Nat) : Option (List GreenToken) :=
  if cursor < Text.byteLen source then do
    let gap ← Text.dropBytes? source cursor
    let leaf ← GreenToken.new? .whitespace gap
    return [leaf]
  else some []

/-- The leaf of white space before a token that does not begin at the cursor. -/
def leading (source : List Char) (cursor start : Nat) : Option (List GreenToken) :=
  if cursor < start then do
    let gap ← Text.slice? source cursor start
    let leaf ← GreenToken.new? .whitespace gap
    return [leaf]
  else some []

/-- `push_with_trivia`: the leaves from the cursor on. -/
def pushWithTrivia (source : List Char) : (cursor : Nat) → List Token → Option (List GreenToken)
  | cursor, [] => trailing source cursor
  | cursor, tok :: tokens =>
    if tok.tokenType.isEof then trailing source cursor
    else do
      let before ← leading source cursor tok.byteStart
      let text ← Text.slice? source tok.byteStart tok.byteEnd
      let leaf ← GreenToken.new? (syntaxKindOfToken tok.tokenType) text
      let rest ← pushWithTrivia source tok.byteEnd tokens
      return before ++ leaf :: rest

def buildFlatCstFromTokens (source : List Char) (tokens : List Token) : Option GreenNode :=
  (pushWithTrivia source 0 tokens).bind (GreenNode.new? .root)

def buildFlatCstRecovery (tables : Tables) (source : List Char) : Option GreenNode :=
  buildFlatCstFromTokens source (tables.tokenizeRecovery (Lexer.new source))

/-! ### The leaves are the text -/

/-- The leaves of a stretch of text: put together they are the text, those of
white space are gaps and the others are tokens of these kinds. -/
structure Leaves (rest : List Char) (kinds : List SyntaxKind) (leaves : List GreenToken) : Prop where
  text : leaves.flatMap GreenToken.text = rest
  gaps : ∀ leaf ∈ leaves, leaf.kind = .whitespace → ∀ c ∈ leaf.text, IsGap c
  kinds : (leaves.map GreenToken.kind).filter (· ≠ .whitespace) = kinds

theorem Leaves.append {a b : List Char} {ks ks' : List SyntaxKind} {leaves leaves' : List GreenToken}
    (h : Leaves a ks leaves) (h' : Leaves b ks' leaves') :
    Leaves (a ++ b) (ks ++ ks') (leaves ++ leaves') where
  text := by rw [List.flatMap_append, h.text, h'.text]
  gaps leaf hleaf := (List.mem_append.mp hleaf).elim (h.gaps leaf) (h'.gaps leaf)
  kinds := by rw [List.map_append, List.filter_append, h.kinds, h'.kinds]

/-- A leaf of white space for a gap, unless it is empty. -/
def gapLeaf (gap : List Char) : List GreenToken := if gap = [] then [] else [⟨.whitespace, gap⟩]

theorem gapLeaf_leaves {gap : List Char} (h : ∀ c ∈ gap, IsGap c) :
    Leaves gap [] (gapLeaf gap) := by
  unfold gapLeaf
  split
  · rename_i hgap
    exact ⟨hgap.symm, by simp, rfl⟩
  · exact ⟨by simp, by simpa using h, rfl⟩

theorem tokenLeaf_leaves (text : List Char) (t : TokenType) :
    Leaves text [syntaxKindOfToken t] [⟨syntaxKindOfToken t, text⟩] where
  text := by simp
  gaps leaf hleaf hkind := by
    rw [List.mem_singleton.mp hleaf] at hkind
    exact absurd hkind (syntaxKindOfToken_ne_whitespace t)
  kinds := by simp [syntaxKindOfToken_ne_whitespace]

theorem trailing_eq (before gap : List Char) :
    trailing (before ++ gap) (Text.byteLen before) =
      if Text.byteLen gap < textLimit then some (gapLeaf gap) else none := by
  unfold trailing gapLeaf
  rw [Text.byteLen_append, Text.dropBytes?_append]
  by_cases hgap : gap = []
  · simp [hgap, Text.byteLen, textLimit]
  · have hpos := Text.byteLen_pos hgap
    rw [if_pos (by omega), if_neg hgap]
    by_cases hlimit : Text.byteLen gap < textLimit <;> simp [GreenToken.new?, hlimit]

theorem leading_eq (before gap after : List Char) :
    leading (before ++ gap ++ after) (Text.byteLen before)
        (Text.byteLen before + Text.byteLen gap) =
      if Text.byteLen gap < textLimit then some (gapLeaf gap) else none := by
  unfold leading gapLeaf
  rw [Text.slice?_append]
  by_cases hgap : gap = []
  · simp [hgap, Text.byteLen, textLimit]
  · have hpos := Text.byteLen_pos hgap
    rw [if_pos (by omega), if_neg hgap]
    by_cases hlimit : Text.byteLen gap < textLimit <;> simp [GreenToken.new?, hlimit]

/-- The leaves of the text, or none if there is too much of it. -/
def Pushes (rest : List Char) (kinds : List SyntaxKind) (r : Option (List GreenToken)) : Prop :=
  ∃ leaves, Leaves rest kinds leaves ∧
    (r = some leaves ∨ r = none ∧ textLimit ≤ Text.byteLen rest)

theorem trailing_pushes {gap : List Char} (before : List Char) (h : ∀ c ∈ gap, IsGap c) :
    Pushes gap [] (trailing (before ++ gap) (Text.byteLen before)) := by
  refine ⟨gapLeaf gap, gapLeaf_leaves h, ?_⟩
  rw [trailing_eq]
  split
  · exact .inl rfl
  · exact .inr ⟨rfl, by omega⟩

theorem pushWithTrivia_pushes {before rest : List Char} {init : List Token} {last : Token}
    (hlast : last.tokenType.isEof = true) (hinit : ∀ t ∈ init, t.tokenType.isEof = false)
    (h : Text.Tiles IsGap (Text.byteLen before) rest (init.map Tables.span)) :
    Pushes rest (init.map fun t => syntaxKindOfToken t.tokenType)
      (pushWithTrivia (before ++ rest) (Text.byteLen before) (init ++ [last])) := by
  induction init generalizing before rest with
  | nil =>
    cases h with
    | nil hgap =>
      rw [List.nil_append, pushWithTrivia, if_pos hlast]
      exact trailing_pushes before hgap
  | cons t init ih =>
    obtain ⟨ht, hinit⟩ := List.forall_mem_cons.mp hinit
    cases h with
    | @cons _ gap text rest _ _ _ hgap htext hstart hstop htiles =>
      have hlen : Text.byteLen (before ++ gap) = t.byteStart := by
        rw [Text.byteLen_append, hstart]
      have hlen' : Text.byteLen (before ++ gap ++ text) = t.byteEnd := by
        rw [Text.byteLen_append, hlen, hstop]
      rw [← hlen'] at htiles
      obtain ⟨leaves, hleaves, hpush⟩ := ih hinit htiles
      refine ⟨gapLeaf gap ++ ([⟨syntaxKindOfToken t.tokenType, text⟩] ++ leaves), ?_, ?_⟩
      · rw [List.append_assoc]
        exact (gapLeaf_leaves hgap).append ((tokenLeaf_leaves text t.tokenType).append hleaves)
      · have hsource : before ++ (gap ++ text ++ rest) = before ++ gap ++ text ++ rest := by simp
        have hlead : leading (before ++ gap ++ text ++ rest) (Text.byteLen before) t.byteStart =
            if Text.byteLen gap < textLimit then some (gapLeaf gap) else none := by
          rw [hstart, List.append_assoc (before ++ gap)]
          exact leading_eq before gap (text ++ rest)
        have hslice : Text.slice? (before ++ gap ++ text ++ rest) t.byteStart t.byteEnd =
            some text := by
          rw [hstop, ← hlen]
          exact Text.slice?_append (before ++ gap) text rest
        have hbytes : Text.byteLen (gap ++ text ++ rest) =
            Text.byteLen gap + Text.byteLen text + Text.byteLen rest := by
          rw [Text.byteLen_append, Text.byteLen_append]
        rw [hlen'] at hpush
        rw [hsource, List.cons_append, pushWithTrivia, if_neg (by simp [ht]), hlead, hslice, hbytes]
        generalize before ++ gap ++ text ++ rest = source at hpush ⊢
        by_cases hgapLimit : Text.byteLen gap < textLimit
        · by_cases htextLimit : Text.byteLen text < textLimit
          · rcases hpush with hpush | ⟨hpush, hlimit⟩
            · exact .inl (by simp [hgapLimit, htextLimit, GreenToken.new?, hpush])
            · exact .inr ⟨by simp [hgapLimit, GreenToken.new?, hpush], by omega⟩
          · exact .inr ⟨by simp [hgapLimit, htextLimit, GreenToken.new?], by omega⟩
        · exact .inr ⟨by simp [hgapLimit], by omega⟩

theorem buildFlatCstFromTokens_of_covers {source : List Char} {ts : List Token}
    (h : Tables.Covers 0 source ts) :
    ∃ leaves, Leaves source
        ((ts.filter fun t => !t.tokenType.isEof).map fun t => syntaxKindOfToken t.tokenType) leaves ∧
      buildFlatCstFromTokens source ts =
        if Text.byteLen source < textLimit then some ⟨.root, Text.byteLen source, leaves⟩
        else none := by
  obtain ⟨init, last, rfl, htiles, hinit, hlast, -, -⟩ := h
  obtain ⟨leaves, hleaves, hpush⟩ := @pushWithTrivia_pushes [] _ _ _ hlast hinit htiles
  have hkinds : (init ++ [last]).filter (fun t => !t.tokenType.isEof) = init := by
    rw [List.filter_append, List.filter_eq_self.mpr (by simpa using hinit)]
    simp [hlast]
  refine ⟨leaves, by rwa [hkinds], ?_⟩
  have hlen : GreenNode.leafLen leaves = Text.byteLen source := by
    rw [GreenNode.leafLen_eq, hleaves.text]
  unfold buildFlatCstFromTokens
  rcases hpush with hpush | ⟨hpush, hlimit⟩
  · have hpush : pushWithTrivia source 0 (init ++ [last]) = some leaves := hpush
    rw [hpush, Option.bind_some, GreenNode.new?, hlen]
  · have hpush : pushWithTrivia source 0 (init ++ [last]) = none := hpush
    rw [hpush, Option.bind_none, if_neg (by omega)]

theorem tokenizeRecovery_new (tables : Tables) (source : List Char) :
    Tables.Covers 0 source (tables.tokenizeRecovery (Lexer.new source)) :=
  tables.tokenizeRecovery_covers (Lexer.new source)

/-- **Tokenization loses nothing.** The tokens come in order, each between two
characters; those that the strict tokenizer accepts are the same; and up to
4 GiB there is a flat tree, whose leaves put together are the source and are
tokens or white space. -/
theorem tokenize_lossless (tables : Tables) (source : List Char) :
    (∀ t ∈ tables.tokenizeRecovery (Lexer.new source), t.byteStart ≤ t.byteEnd ∧
      Text.IsBoundary source t.byteStart ∧ Text.IsBoundary source t.byteEnd) ∧
    (tables.tokenizeRecovery (Lexer.new source)).Pairwise (fun t u => t.byteEnd ≤ u.byteStart) ∧
    (∀ ts, tables.tokenize (Lexer.new source) = .ok ts →
      tables.tokenizeRecovery (Lexer.new source) = ts) ∧
    ∃ leaves, Leaves source
        (((tables.tokenizeRecovery (Lexer.new source)).filter fun t => !t.tokenType.isEof).map
          fun t => syntaxKindOfToken t.tokenType) leaves ∧
      buildFlatCstRecovery tables source =
        if Text.byteLen source < textLimit then some ⟨.root, Text.byteLen source, leaves⟩
        else none := by
  have hcovers := tokenizeRecovery_new tables source
  refine ⟨?_, ?_, tables.tokenizeRecovery_of_tokenize _, buildFlatCstFromTokens_of_covers hcovers⟩
  · exact hcovers.boundary
  · exact hcovers.ordered

/-- Tables with the letters of English only. -/
def asciiTables : Tables where
  isXidStart := Char.isAlpha
  isXidContinue := Char.isAlphanum
  xidContinue_of_xidStart c h := by simp [Char.isAlphanum, h]
  nfc name := name
  lookupName _ := none
  parseFloat _ := none
  intToFloat _ := ⟨0⟩

theorem byteLen_replicate (n : Nat) : Text.byteLen (List.replicate n ' ') = n := by
  induction n with
  | zero => rfl
  | succ n ih => rw [List.replicate_succ, Text.byteLen, ih, Nat.add_comm]; rfl

/-- There is no tree of 4 GiB of blanks. -/
theorem buildFlatCst_blanks :
    buildFlatCstRecovery asciiTables (List.replicate textLimit ' ') = none := by
  obtain ⟨leaves, -, hbuild⟩ :=
    buildFlatCstFromTokens_of_covers (tokenizeRecovery_new asciiTables (List.replicate textLimit ' '))
  rw [buildFlatCstRecovery, hbuild, byteLen_replicate, if_neg (lt_irrefl _)]

end Lex
end Wqpl
