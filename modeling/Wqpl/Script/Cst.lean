/-
# The tree of a script

The items of a script go below one root: a node for each line for the loader, the
children of the tree of each piece of code, and white space, comments and newlines
for what is between. The pieces are parsed one by one, each with tokens and a tree of
its own. Put together again their texts are the source (`parseWithCst_text`).

`none` is an error or a panic. The grammar is a parameter: it gives the steps of the
parser on the tokens of a text. So is the kind of the leaves for lines, since
`Lex.SyntaxKind` has the kinds of tokens.

Key definitions: `parseScriptWithCst`, `parseWithCst`.
-/
import Wqpl.Script.Items
import Wqpl.Cst.Write
import Wqpl.Cst.Red
import Wqpl.Lex.Strict

namespace Wqpl
namespace Script

open Wqpl.Lex (Token Lexer)
open Wqpl.Cst (GreenNode GreenChild GreenNodeBuilder NodeKind Step)

/-! ### Texts between the items -/

/-- A leaf, for a text that is not empty. -/
def tokenUnlessEmpty (b : GreenNodeBuilder) (kind : Lex.SyntaxKind) (text : List Char) :
    Option GreenNodeBuilder :=
  if text = [] then some b else b.token kind text

def pushScriptTriviaLine (b : GreenNodeBuilder) (line : List Char) : Option GreenNodeBuilder :=
  let rest := line.dropWhile Lex.isBlank
  let leading := line.takeWhile Lex.isBlank
  if ['/', '/'].isPrefixOf rest then
    (tokenUnlessEmpty b .whitespace leading).bind fun b => b.token .comment rest
  else tokenUnlessEmpty b .whitespace line

/-- The loop of `push_script_trivia`, in the middle of a line. -/
def pushTriviaFrom : (line : List Char) → List Char → GreenNodeBuilder → Option GreenNodeBuilder
  | line, [], b => if line = [] then some b else pushScriptTriviaLine b line
  | line, c :: rest, b =>
    if c = '\n' then do
      let b ← pushScriptTriviaLine b line
      let b ← b.token .newline ['\n']
      pushTriviaFrom [] rest b
    else pushTriviaFrom (line ++ [c]) rest b

def pushScriptTrivia (b : GreenNodeBuilder) (text : List Char) : Option GreenNodeBuilder :=
  pushTriviaFrom [] text b

/-! ### Items -/

def appendGreenChild (b : GreenNodeBuilder) : GreenChild → Option GreenNodeBuilder
  | .node n => some (b.appendNode n)
  | .token t => b.token t.kind t.text

def appendRootChildren (b : GreenNodeBuilder) (root : GreenNode) : Option GreenNodeBuilder :=
  root.children.foldlM appendGreenChild b

/-- An item for the loader. -/
def ScriptItem.isMeta : ScriptItem → Bool
  | .shebang _ => true
  | .directive _ => true
  | .code _ => false

def hasScriptMeta (items : List ScriptItem) : Bool := items.any ScriptItem.isMeta

def isUnknownDirective : ScriptItem → Bool
  | .directive (.unknown _ _) => true
  | _ => false

section Trees

variable (tables : Lex.Tables) (grammar : List Char → List Token → Option (List Step))
  (scriptLine : Lex.SyntaxKind)

/-- The tree of a text without lines for the loader. -/
def parseCodeCst (source : List Char) : Option GreenNode := do
  let tokens ← (tables.tokenize (Lexer.new source)).toOption
  let steps ← grammar source tokens
  Cst.writeCst source tokens none steps

/-- `push_script_line_node`, for the text of the span. -/
def pushScriptLineNode (b : GreenNodeBuilder) (text : List Char) (kind : NodeKind) :
    Option GreenNodeBuilder := do
  let newline := text.getLast? = some '\n'
  let line := if newline then text.dropLast else text
  let b ← tokenUnlessEmpty (b.startNode kind) scriptLine line
  let b ← b.finishNode
  if newline then b.token .newline ['\n'] else some b

/-- The text between two places, if there is one. -/
def pushGap (input : List Char) (b : GreenNodeBuilder) (cursor stop : Nat) :
    Option GreenNodeBuilder :=
  if cursor < stop then (Text.slice? input cursor stop).bind (pushScriptTrivia b) else some b

/-- An item with its text. -/
def pushItemText (b : GreenNodeBuilder) (text : List Char) : ScriptItem → Option GreenNodeBuilder
  | .shebang _ => pushScriptLineNode scriptLine b text .shebang
  | .directive _ => pushScriptLineNode scriptLine b text .scriptDirective
  | .code _ => (parseCodeCst tables grammar text).bind (appendRootChildren b)

/-- The body of the loop over the items: the gap before an item, and the item. -/
def pushItem (input : List Char) (st : GreenNodeBuilder × Nat) (item : ScriptItem) :
    Option (GreenNodeBuilder × Nat) := do
  let b ← pushGap input st.1 st.2 item.span.start
  let text ← Text.slice? input item.span.start item.span.stop
  let b ← pushItemText tables grammar scriptLine b text item
  return (b, item.span.stop)

def parseScriptWithCst (input : List Char) (items : List ScriptItem) : Option GreenNode :=
  if items.any isUnknownDirective then none
  else do
    let start := GreenNodeBuilder.new.startNode .root
    let st ← items.foldlM (pushItem tables grammar scriptLine input) (start, 0)
    let b ← pushGap input st.1 st.2 (Text.byteLen input)
    let b ← b.finishNode
    b.finish

def parseWithCst (complete : List Char → Bool) (input : List Char) : Option GreenNode :=
  if mightHaveScriptMeta input then do
    let items ← parseScriptItems tables complete input
    if hasScriptMeta items then parseScriptWithCst tables grammar scriptLine input items
    else parseCodeCst tables grammar input
  else parseCodeCst tables grammar input

end Trees

/-! ### Texts that are written -/

/-- The text of the leaves. -/
def writtenText (b : GreenNodeBuilder) : List Char := b.written.flatMap Lex.GreenToken.text

/-- The builder has written a text more. -/
structure Writes (b b' : GreenNodeBuilder) (text : List Char) : Prop where
  text : writtenText b' = writtenText b ++ text
  measured : b'.Measured

section Writing

variable {b b' b'' : GreenNodeBuilder} {text text' : List Char}

theorem Writes.refl (hb : b.Measured) : Writes b b [] := ⟨(List.append_nil _).symm, hb⟩

theorem Writes.trans (h : Writes b b' text) (h' : Writes b' b'' text') :
    Writes b b'' (text ++ text') :=
  ⟨by rw [h'.text, h.text, List.append_assoc], h'.measured⟩

theorem Writes.push (hb : b.Measured) {c : GreenChild} (hc : c.Measured) :
    Writes b (b.push c) (c.leaves.flatMap Lex.GreenToken.text) :=
  ⟨by rw [writtenText, b.written_push, List.flatMap_append]; rfl, hb.push hc⟩

theorem Writes.startNode (hb : b.Measured) (kind : NodeKind) : Writes b (b.startNode kind) [] :=
  ⟨by rw [writtenText, b.written_startNode, List.append_nil]; rfl, hb.startNode kind⟩

theorem Writes.finishNode (hb : b.Measured) (h : b.finishNode = some b') : Writes b b' [] := by
  obtain ⟨hwritten, hb'⟩ := GreenNodeBuilder.finishNode_written h hb
  exact ⟨by rw [writtenText, hwritten, List.append_nil]; rfl, hb'⟩

theorem Writes.token (hb : b.Measured) {kind : Lex.SyntaxKind} (h : b.token kind text = some b') :
    Writes b b' text := by
  obtain ⟨t, ht, rfl⟩ := Option.map_eq_some_iff.mp h
  unfold Lex.GreenToken.new? at ht
  split at ht
  · obtain rfl := Option.some.inj ht
    have hpush := Writes.push (c := .token ⟨kind, text⟩) hb (by rw [GreenChild.Measured]; trivial)
    rw [GreenChild.leaves, List.flatMap_singleton] at hpush
    exact hpush
  · cases ht

theorem tokenUnlessEmpty_writes (hb : b.Measured) {kind : Lex.SyntaxKind}
    (h : tokenUnlessEmpty b kind text = some b') : Writes b b' text := by
  unfold tokenUnlessEmpty at h
  split at h
  · rename_i hempty
    obtain rfl := Option.some.inj h
    exact hempty ▸ .refl hb
  · exact .token hb h

theorem pushScriptTriviaLine_writes (hb : b.Measured) {line : List Char}
    (h : pushScriptTriviaLine b line = some b') : Writes b b' line := by
  unfold pushScriptTriviaLine at h
  dsimp only at h
  split at h
  · obtain ⟨c, hc, h⟩ := Option.bind_eq_some_iff.mp h
    have hleading := tokenUnlessEmpty_writes hb hc
    have hboth := hleading.trans (.token hleading.measured h)
    rwa [List.takeWhile_append_dropWhile] at hboth
  · exact tokenUnlessEmpty_writes hb h

theorem pushTriviaFrom_writes {rest : List Char} : ∀ {line : List Char} {b : GreenNodeBuilder},
    b.Measured → pushTriviaFrom line rest b = some b' → Writes b b' (line ++ rest) := by
  induction rest with
  | nil =>
    intro line b hb h
    rw [List.append_nil]
    unfold pushTriviaFrom at h
    split at h
    · rename_i hempty
      obtain rfl := Option.some.inj h
      exact hempty ▸ .refl hb
    · exact pushScriptTriviaLine_writes hb h
  | cons c rest ih =>
    intro line b hb h
    unfold pushTriviaFrom at h
    split at h
    · rename_i hc
      obtain ⟨b₁, hline, h⟩ := Option.bind_eq_some_iff.mp h
      obtain ⟨b₂, hnewline, h⟩ := Option.bind_eq_some_iff.mp h
      have hfirst := pushScriptTriviaLine_writes hb hline
      have hsecond := Writes.token hfirst.measured hnewline
      have hall := hfirst.trans (hsecond.trans (ih hsecond.measured h))
      rwa [hc]
    · have hall := ih hb h
      rwa [List.append_assoc] at hall

theorem pushScriptTrivia_writes (hb : b.Measured) (h : pushScriptTrivia b text = some b') :
    Writes b b' text := pushTriviaFrom_writes hb h

theorem appendGreenChild_writes (hb : b.Measured) {c : GreenChild} (hc : c.Measured)
    (h : appendGreenChild b c = some b') :
    Writes b b' (c.leaves.flatMap Lex.GreenToken.text) := by
  cases c with
  | node n =>
    obtain rfl := Option.some.inj h
    exact .push hb hc
  | token t =>
    rw [GreenChild.leaves, List.flatMap_singleton]
    exact .token hb h

theorem appendChildren_writes {cs : List GreenChild} : ∀ {b : GreenNodeBuilder}, b.Measured →
    Cst.MeasuredAll cs → cs.foldlM appendGreenChild b = some b' →
    Writes b b' (Cst.textOf cs) := by
  induction cs with
  | nil =>
    intro b hb _ h
    obtain rfl := Option.some.inj h
    exact .refl hb
  | cons c cs ih =>
    intro b hb hcs h
    rw [Cst.MeasuredAll] at hcs
    rw [List.foldlM_cons] at h
    obtain ⟨b₁, hc, h⟩ := Option.bind_eq_some_iff.mp h
    have hchild := appendGreenChild_writes hb hcs.1 hc
    have hall := hchild.trans (ih hchild.measured hcs.2 h)
    rwa [Cst.textOf, Cst.leavesOf, List.flatMap_append]

end Writing

/-! ### The text of the tree -/

section Script

variable {tables : Lex.Tables} {grammar : List Char → List Token → Option (List Step)}
  {scriptLine : Lex.SyntaxKind} {b b' : GreenNodeBuilder}

/-- The parser takes no node of a tree that was built before. -/
def Fresh (grammar : List Char → List Token → Option (List Step)) : Prop :=
  ∀ source tokens steps, grammar source tokens = some steps → ∀ s ∈ steps, s.IsFresh

theorem parseCodeCst_text (hgrammar : Fresh grammar) {source : List Char} {n : GreenNode}
    (h : parseCodeCst tables grammar source = some n) : n.text = source ∧ n.Measured := by
  obtain ⟨tokens, htokens, h⟩ := Option.bind_eq_some_iff.mp h
  obtain ⟨steps, hsteps, h⟩ := Option.bind_eq_some_iff.mp h
  have hcovers : Lex.Tables.Covers 0 source tokens := by
    cases htokenize : tables.tokenize (Lexer.new source) with
    | error err => rw [htokenize] at htokens; cases htokens
    | ok ts =>
      rw [htokenize] at htokens
      obtain rfl := Option.some.inj htokens
      rw [← tables.tokenizeRecovery_of_tokenize _ _ htokenize]
      exact Lex.tokenizeRecovery_new tables source
  have hleaves := Cst.leaves_of_writeCst hcovers (hgrammar _ _ _ hsteps) h
  exact ⟨hleaves.text, Cst.writeCst_measured h⟩

theorem pushScriptLineNode_writes (hb : b.Measured) {text : List Char} {kind : NodeKind}
    (h : pushScriptLineNode scriptLine b text kind = some b') : Writes b b' text := by
  obtain ⟨b₁, hline, h⟩ := Option.bind_eq_some_iff.mp h
  obtain ⟨b₂, hfinish, h⟩ := Option.bind_eq_some_iff.mp h
  have hstart := Writes.startNode hb kind
  have hleaf := tokenUnlessEmpty_writes hstart.measured hline
  have hnode := hstart.trans (hleaf.trans (.finishNode hleaf.measured hfinish))
  rw [List.nil_append, List.append_nil] at hnode
  split at h
  · rename_i hnewline
    have hall := hnode.trans (.token hnode.measured h)
    rw [if_pos hnewline] at hall
    obtain ⟨line, rfl⟩ := List.getLast?_eq_some_iff.mp hnewline
    rwa [List.dropLast_concat] at hall
  · rename_i hnewline
    obtain rfl := Option.some.inj h
    rwa [if_neg hnewline] at hnode

theorem pushGap_writes (hb : b.Measured) {input covered gap rest : List Char}
    (hinput : input = covered ++ gap ++ rest)
    (h : pushGap input b (Text.byteLen covered) (Text.byteLen (covered ++ gap)) = some b') :
    Writes b b' gap := by
  unfold pushGap at h
  split at h
  · rw [slice_middle hinput] at h
    exact pushScriptTrivia_writes hb h
  · rename_i hge
    have hempty : gap = [] := by
      by_contra hne
      have := Text.byteLen_pos hne
      rw [Text.byteLen_append] at hge
      omega
    obtain rfl := Option.some.inj h
    exact hempty ▸ .refl hb

theorem pushItemText_writes (hgrammar : Fresh grammar) (hb : b.Measured) {text : List Char}
    {item : ScriptItem} (h : pushItemText tables grammar scriptLine b text item = some b') :
    Writes b b' text := by
  cases item with
  | shebang span => exact pushScriptLineNode_writes hb h
  | directive d => exact pushScriptLineNode_writes hb h
  | code span =>
    obtain ⟨n, hn, h⟩ := Option.bind_eq_some_iff.mp h
    obtain ⟨htext, hmeasured⟩ := parseCodeCst_text hgrammar hn
    have hchildren := appendChildren_writes hb (GreenNode.measured_children hmeasured) h
    rwa [← GreenNode.text_eq, htext] at hchildren

/-- The items have been pushed for a text. -/
def Pushes (tables : Lex.Tables) (grammar : List Char → List Token → Option (List Step))
    (scriptLine : Lex.SyntaxKind) (input : List Char) (b : GreenNodeBuilder)
    (items : List ScriptItem) (covered : List Char) : Prop :=
  ∀ st, items.foldlM (pushItem tables grammar scriptLine input) (b, 0) = some st →
    Writes b st.1 covered ∧ st.2 = Text.byteLen covered

/-- One item more, with the gap in front of it. -/
theorem Pushes.snoc (hgrammar : Fresh grammar) {input covered gap text rest : List Char}
    {items : List ScriptItem} {item : ScriptItem}
    (h : Pushes tables grammar scriptLine input b items covered)
    (hinput : input = covered ++ gap ++ text ++ rest)
    (hspan : item.span = ⟨Text.byteLen (covered ++ gap), Text.byteLen (covered ++ gap ++ text)⟩) :
    Pushes tables grammar scriptLine input b (items ++ [item]) (covered ++ gap ++ text) := by
  intro st hst
  rw [List.foldlM_append] at hst
  obtain ⟨before, hbefore, hst⟩ := Option.bind_eq_some_iff.mp hst
  rw [List.foldlM_cons] at hst
  obtain ⟨after, hitem, hst⟩ := Option.bind_eq_some_iff.mp hst
  obtain rfl := Option.some.inj hst
  obtain ⟨b₁, hgap, hitem⟩ := Option.bind_eq_some_iff.mp hitem
  obtain ⟨found, hfound, hitem⟩ := Option.bind_eq_some_iff.mp hitem
  obtain ⟨b₂, hpush, hitem⟩ := Option.bind_eq_some_iff.mp hitem
  obtain rfl := Option.some.inj hitem
  obtain ⟨hcovered, hcursor⟩ := h before hbefore
  rw [hspan] at hgap hfound
  rw [hcursor] at hgap
  have htext : Text.slice? input (Text.byteLen (covered ++ gap))
      (Text.byteLen (covered ++ gap ++ text)) = some text := slice_middle hinput
  obtain rfl := Option.some.inj (htext.symm.trans hfound)
  have hfirst : Writes before.1 b₁ gap :=
    @pushGap_writes _ _ hcovered.measured input covered gap (text ++ rest)
      (by rw [hinput, List.append_assoc]) hgap
  have hsecond := pushItemText_writes hgrammar hfirst.measured hpush
  exact ⟨(hcovered.trans hfirst).trans hsecond, by rw [hspan]⟩

theorem Pushes.outlined (hgrammar : Fresh grammar) (hb : b.Measured)
    {complete : List Char → Bool} {input covered : List Char} {items : List ScriptItem}
    (h : Outlined tables complete covered items) : ∀ {rest : List Char}, input = covered ++ rest →
      Pushes tables grammar scriptLine input b items covered := by
  induction h with
  | nil =>
    intro rest _ st hst
    obtain rfl := Option.some.inj hst
    exact ⟨.refl hb, rfl⟩
  | @snoc covered gap text items item _ _ _ hspan _ ih =>
    intro rest hinput
    have hbefore := ih (hinput.trans (by simp only [List.append_assoc]; rfl))
    exact hbefore.snoc hgrammar hinput hspan

theorem parseScriptWithCst_text (hgrammar : Fresh grammar) {complete : List Char → Bool}
    {input : List Char} {items : List ScriptItem} {n : GreenNode}
    (hitems : parseScriptItems tables complete input = some items)
    (h : parseScriptWithCst tables grammar scriptLine input items = some n) :
    n.text = input ∧ n.Measured := by
  unfold parseScriptWithCst at h
  split at h
  · cases h
  obtain ⟨st, hst, h⟩ := Option.bind_eq_some_iff.mp h
  obtain ⟨b₁, htail, h⟩ := Option.bind_eq_some_iff.mp h
  obtain ⟨b₂, hfinish, h⟩ := Option.bind_eq_some_iff.mp h
  have hnew : (GreenNodeBuilder.new.startNode .root).Measured :=
    GreenNodeBuilder.Measured.startNode ⟨by simp [GreenNodeBuilder.new],
      by simp [GreenNodeBuilder.new, Cst.MeasuredAll]⟩ _
  have hwrites : Writes (GreenNodeBuilder.new.startNode .root) b₁ input := by
    obtain ⟨covered, outlined, tail, hinput, houtlined, hlast⟩ :=
      parseScriptItems_outlined tables complete input
    have hpushes : Pushes tables grammar scriptLine input (GreenNodeBuilder.new.startNode .root)
        outlined covered := .outlined hgrammar hnew houtlined hinput
    -- what is behind the items has still to be pushed
    have hclose : ∀ {covered tail : List Char}, input = covered ++ tail →
        Writes (GreenNodeBuilder.new.startNode .root) st.1 covered →
        st.2 = Text.byteLen covered → Writes (GreenNodeBuilder.new.startNode .root) b₁ input := by
      intro covered tail hinput hcovered hcursor
      rw [hcursor, hinput] at htail
      have hrest := @pushGap_writes _ _ hcovered.measured (covered ++ tail) covered tail []
        (List.append_nil _).symm htail
      rw [hinput]
      exact hcovered.trans hrest
    rcases hlast with ⟨hparse, -⟩ | ⟨hparse, -⟩
    · obtain rfl := Option.some.inj (hitems.symm.trans hparse)
      obtain ⟨hcovered, hcursor⟩ := hpushes st hst
      exact hclose hinput hcovered hcursor
    · obtain rfl := Option.some.inj (hitems.symm.trans hparse)
      have hall : covered ++ [] ++ tail = input := by rw [hinput, List.append_nil]
      have hlast : input = covered ++ [] ++ tail ++ [] := by rw [hall, List.append_nil]
      obtain ⟨hcovered, hcursor⟩ :=
        hpushes.snoc hgrammar hlast (by rw [hall, List.append_nil]; rfl) st hst
      rw [hall] at hcovered hcursor
      exact hclose (List.append_nil input).symm hcovered hcursor
  obtain ⟨htext, hmeasured⟩ := GreenNodeBuilder.finish_spec h
    (Writes.finishNode hwrites.measured hfinish).measured
  refine ⟨?_, hmeasured⟩
  have hall := (hwrites.trans (.finishNode hwrites.measured hfinish)).text
  rw [List.append_nil] at hall
  rw [GreenNode.text, htext]
  exact hall

/-- **A tree loses nothing**, for a script as for a program: a tree that is returned has the
source as its text, with the lines for the loader, comments and blank lines at their places. -/
theorem parseWithCst_text (hgrammar : Fresh grammar) (complete : List Char → Bool)
    {input : List Char} {n : GreenNode}
    (h : parseWithCst tables grammar scriptLine complete input = some n) :
    n.text = input ∧ n.textLen = Text.byteLen input := by
  have htext : n.text = input ∧ n.Measured := by
    unfold parseWithCst at h
    split at h
    · obtain ⟨items, hitems, h⟩ := Option.bind_eq_some_iff.mp h
      split at h
      · exact parseScriptWithCst_text hgrammar hitems h
      · exact parseCodeCst_text hgrammar h
    · exact parseCodeCst_text hgrammar h
  exact ⟨htext.1, by rw [htext.2.textLen_eq, htext.1]⟩

/-- A comment and a directive. -/
def preludeScript : List Char := ['/', '/', '\n', '\\', 'p', '\n']

theorem parseWithCst_text_prelude :
    ∃ n, parseWithCst Lex.asciiTables (fun _ _ => some []) .comment (fun _ => true)
        preludeScript = some n ∧ n.text = preludeScript ∧ n.textLen = 6 := by
  have hgrammar : Fresh fun _ _ => some [] := by
    intro source tokens steps h
    obtain rfl := Option.some.inj h
    simp
  have htext : ∀ n, parseWithCst Lex.asciiTables (fun _ _ => some []) .comment (fun _ => true)
      preludeScript = some n → n.text = preludeScript ∧ n.textLen = 6 := by
    intro n h
    exact parseWithCst_text hgrammar (fun _ => true) h
  exact ⟨_, rfl, htext _ rfl⟩

end Script

end Script
end Wqpl
