/-
# The concrete syntax tree and its builder

A green node has a kind, the length of its text and its children; its leaves
are tokens with their texts. The builder is a stack of open nodes. A checkpoint
is a place among the children of the open node: starting a node there takes the
children behind it away from the open node and gives them to the new one.
Neither a checkpoint nor the cache of finished nodes shows in the leaves that
have been written (`GreenNodeBuilder.written`).

`none` is a panic: a text of 4 GiB, a node that was not started, a checkpoint in
another node.

Key definitions: `GreenNode`, `GreenNodeBuilder`.
-/
import Wqpl.Lex.FlatCst

namespace Wqpl
namespace Cst

open Wqpl.Lex (GreenToken)

/-- The kinds of nodes; those of tokens are `Lex.SyntaxKind`. -/
inductive NodeKind
  | root
  | block
  | shebang
  | scriptDirective
  | literalExpr
  | varExpr
  | outerVarExpr
  | binaryExpr
  | unaryExpr
  | comparisonChainExpr
  | assignExpr
  | outerAssignExpr
  | unpackAssignExpr
  | indexAssignExpr
  | mutatingIndexExpr
  | mutatingIndexAssignExpr
  | rangeExpr
  | listExpr
  | dictExpr
  | dictPair
  | parenExpr
  | postfixExpr
  | lazyBoolExpr
  | namedArgExpr
  | argList
  | fStringExpr
  | condExpr
  | condDotExpr
  | condChainExpr
  | wLoopExpr
  | nLoopExpr
  | blockExpr
  | functionExpr
  | paramList
  | param
  | returnExpr
  | debugExpr
  | pauseExpr
  | tryExpr
  | importExpr
  | symbolicExpr
  | breakExpr
  | continueExpr
  | ellipsisExpr
  | pipeExpr
  | pipeTapExpr
  | errorNode
deriving DecidableEq, Repr

mutual

inductive GreenNode
  | mk (kind : NodeKind) (textLen : Nat) (children : List GreenChild)

/-- A child node or token. -/
inductive GreenChild
  | node (n : GreenNode)
  | token (t : GreenToken)

end

namespace GreenNode

def kind : GreenNode → NodeKind
  | mk kind _ _ => kind

def textLen : GreenNode → Nat
  | mk _ textLen _ => textLen

def children : GreenNode → List GreenChild
  | mk _ _ children => children

end GreenNode

mutual

/-- The leaves in their order. -/
def GreenNode.leaves : GreenNode → List GreenToken
  | .mk _ _ children => leavesOf children
termination_by structural n => n

def GreenChild.leaves : GreenChild → List GreenToken
  | .node n => n.leaves
  | .token t => [t]
termination_by structural c => c

def leavesOf : List GreenChild → List GreenToken
  | [] => []
  | c :: cs => c.leaves ++ leavesOf cs
termination_by structural cs => cs

end

mutual

def GreenNode.eq : GreenNode → GreenNode → Bool
  | .mk kind len children, .mk kind' len' children' =>
    kind = kind' && len = len' && eqChildren children children'
termination_by structural n => n

def GreenChild.eq : GreenChild → GreenChild → Bool
  | .node n, .node n' => n.eq n'
  | .token t, .token t' => t = t'
  | _, _ => false
termination_by structural c => c

def eqChildren : List GreenChild → List GreenChild → Bool
  | [], [] => true
  | c :: cs, c' :: cs' => c.eq c' && eqChildren cs cs'
  | _, _ => false
termination_by structural cs => cs

end

mutual

/-- `PartialEq` is structural. -/
theorem GreenNode.eq_iff : ∀ n n' : GreenNode, n.eq n' = true ↔ n = n'
  | .mk kind len children, .mk kind' len' children' => by
    rw [GreenNode.eq, Bool.and_eq_true, Bool.and_eq_true, decide_eq_true_iff, decide_eq_true_iff,
      eqChildren_iff children children', GreenNode.mk.injEq, and_assoc]

theorem GreenChild.eq_iff : ∀ c c' : GreenChild, c.eq c' = true ↔ c = c'
  | .node n, .node n' => by rw [GreenChild.eq, GreenNode.eq_iff n n', GreenChild.node.injEq]
  | .token t, .token t' => by rw [GreenChild.eq, decide_eq_true_iff, GreenChild.token.injEq]
  | .node _, .token _ => by simp [GreenChild.eq]
  | .token _, .node _ => by simp [GreenChild.eq]

theorem eqChildren_iff : ∀ cs cs' : List GreenChild, eqChildren cs cs' = true ↔ cs = cs'
  | [], [] => by simp [eqChildren]
  | c :: cs, c' :: cs' => by
    rw [eqChildren, Bool.and_eq_true, GreenChild.eq_iff c c', eqChildren_iff cs cs',
      List.cons.injEq]
  | [], _ :: _ => by simp [eqChildren]
  | _ :: _, [] => by simp [eqChildren]

end

instance : DecidableEq GreenNode := fun n n' => decidable_of_iff _ (GreenNode.eq_iff n n')

namespace GreenChild

def textLen : GreenChild → Nat
  | node n => n.textLen
  | token t => Text.byteLen t.text

end GreenChild

/-- `GreenNode::text`, `write_text`. -/
def GreenNode.text (n : GreenNode) : List Char := n.leaves.flatMap GreenToken.text

/-- The text of some children. -/
def textOf (cs : List GreenChild) : List Char := (leavesOf cs).flatMap GreenToken.text

/-- `GreenNode::new`. -/
def GreenNode.new? (kind : NodeKind) (children : List GreenChild) : Option GreenNode :=
  let len := (children.map GreenChild.textLen).sum
  if len < Lex.textLimit then some (.mk kind len children) else none

/-! ### The builder -/

/-- Position in the open-node stack. -/
structure Checkpoint where
  parentDepth : Nat
  childrenAt : Nat
deriving DecidableEq, Repr

structure Frame where
  kind : NodeKind
  children : List GreenChild

structure NodeCache where
  nodes : List GreenNode
  limit : Nat

/-- The open nodes, the innermost first, and the finished ones. -/
structure GreenNodeBuilder where
  stack : List Frame
  finished : List GreenChild
  cache : Option NodeCache

namespace GreenNodeBuilder

def new : GreenNodeBuilder := ⟨[], [], none⟩

def withCache (limit : Nat) : GreenNodeBuilder := ⟨[], [], some ⟨[], limit⟩⟩

/-- A child of the open node, or a finished one. -/
def push (b : GreenNodeBuilder) (c : GreenChild) : GreenNodeBuilder :=
  match b.stack with
  | frame :: stack => { b with stack := ⟨frame.kind, frame.children ++ [c]⟩ :: stack }
  | [] => { b with finished := b.finished ++ [c] }

def startNode (b : GreenNodeBuilder) (kind : NodeKind) : GreenNodeBuilder :=
  { b with stack := ⟨kind, []⟩ :: b.stack }

def token (b : GreenNodeBuilder) (kind : Lex.SyntaxKind) (text : List Char) :
    Option GreenNodeBuilder :=
  (GreenToken.new? kind text).map fun t => b.push (.token t)

def appendNode (b : GreenNodeBuilder) (n : GreenNode) : GreenNodeBuilder := b.push (.node n)

/-- The node as it is stored, and the cache after it. -/
def intern (cache : Option NodeCache) (n : GreenNode) : GreenNode × Option NodeCache :=
  match cache with
  | none => (n, none)
  | some cache =>
    match cache.nodes.find? (· = n) with
    | some stored => (stored, some cache)
    | none =>
      if cache.nodes.length < cache.limit then (n, some { cache with nodes := n :: cache.nodes })
      else (n, some cache)

def finishNode (b : GreenNodeBuilder) : Option GreenNodeBuilder :=
  match b.stack with
  | [] => none
  | frame :: stack => do
    let n ← GreenNode.new? frame.kind frame.children
    let (n, cache) := intern b.cache n
    return push { b with stack, cache } (.node n)

def checkpoint (b : GreenNodeBuilder) : Option Checkpoint :=
  match b.stack with
  | [] => none
  | frame :: stack => some ⟨stack.length, frame.children.length⟩

/-- Wrap the children since the checkpoint in a new open node. -/
def startNodeAt (b : GreenNodeBuilder) (cp : Checkpoint) (kind : NodeKind) :
    Option GreenNodeBuilder :=
  match b.stack with
  | [] => none
  | frame :: stack =>
    if stack.length = cp.parentDepth ∧ cp.childrenAt ≤ frame.children.length then
      some { b with
        stack := ⟨kind, frame.children.drop cp.childrenAt⟩ ::
          ⟨frame.kind, frame.children.take cp.childrenAt⟩ :: stack }
    else none

def finish (b : GreenNodeBuilder) : Option GreenNode :=
  match b.stack, b.finished with
  | [], [.node n] => some n
  | _, _ => none

end GreenNodeBuilder

/-! ### Lengths -/

mutual

/-- Every node has the length of its children. -/
def GreenNode.Measured : GreenNode → Prop
  | .mk _ len children => len = (children.map GreenChild.textLen).sum ∧ MeasuredAll children
termination_by structural n => n

def GreenChild.Measured : GreenChild → Prop
  | .node n => n.Measured
  | .token _ => True
termination_by structural c => c

def MeasuredAll : List GreenChild → Prop
  | [] => True
  | c :: cs => c.Measured ∧ MeasuredAll cs
termination_by structural cs => cs

end

theorem leavesOf_append (cs cs' : List GreenChild) :
    leavesOf (cs ++ cs') = leavesOf cs ++ leavesOf cs' := by
  induction cs with
  | nil => rfl
  | cons c cs ih => rw [List.cons_append, leavesOf, leavesOf, ih, List.append_assoc]

theorem leavesOf_singleton (c : GreenChild) : leavesOf [c] = c.leaves := by
  rw [leavesOf, leavesOf, List.append_nil]

theorem measuredAll_append {cs cs' : List GreenChild} :
    MeasuredAll (cs ++ cs') ↔ MeasuredAll cs ∧ MeasuredAll cs' := by
  induction cs with
  | nil => simp [MeasuredAll]
  | cons c cs ih => rw [List.cons_append, MeasuredAll, MeasuredAll, ih, and_assoc]

theorem GreenNode.leaves_eq (n : GreenNode) : n.leaves = leavesOf n.children := by
  cases n
  rw [leaves, children]

mutual

/-- The length of a measured node is that of its text. -/
theorem GreenNode.Measured.textLen_eq : ∀ {n : GreenNode}, n.Measured →
    n.textLen = Text.byteLen n.text
  | .mk _ _ children, h => by
    rw [GreenNode.Measured] at h
    rw [GreenNode.textLen, h.1, MeasuredAll.sum_textLen h.2, GreenNode.text, GreenNode.leaves,
      textOf]

theorem GreenChild.Measured.textLen_eq : ∀ {c : GreenChild}, c.Measured →
    c.textLen = Text.byteLen (c.leaves.flatMap GreenToken.text)
  | .node n, h => by
    rw [GreenChild.Measured] at h
    rw [GreenChild.textLen, h.textLen_eq, GreenNode.text, GreenChild.leaves]
  | .token t, _ => by
    rw [GreenChild.textLen, GreenChild.leaves, List.flatMap_singleton]

theorem MeasuredAll.sum_textLen : ∀ {cs : List GreenChild}, MeasuredAll cs →
    (cs.map GreenChild.textLen).sum = Text.byteLen (textOf cs)
  | [], _ => rfl
  | c :: cs, h => by
    rw [MeasuredAll] at h
    rw [List.map_cons, List.sum_cons, h.1.textLen_eq, MeasuredAll.sum_textLen h.2, textOf, textOf,
      leavesOf, List.flatMap_append, Text.byteLen_append]

end

/-! ### What has been written -/

namespace GreenNodeBuilder

variable {b b' : GreenNodeBuilder}

/-- The leaves in the order in which they were written. -/
def written (b : GreenNodeBuilder) : List GreenToken :=
  leavesOf b.finished ++ b.stack.reverse.flatMap fun frame => leavesOf frame.children

/-- All nodes are measured. -/
structure Measured (b : GreenNodeBuilder) : Prop where
  stack : ∀ frame ∈ b.stack, MeasuredAll frame.children
  finished : MeasuredAll b.finished

theorem written_push (b : GreenNodeBuilder) (c : GreenChild) :
    (b.push c).written = b.written ++ c.leaves := by
  unfold push written
  cases hstack : b.stack with
  | nil => simp [leavesOf_append, leavesOf_singleton]
  | cons frame stack => simp [leavesOf_append, leavesOf_singleton]

theorem Measured.push (h : b.Measured) {c : GreenChild} (hc : c.Measured) :
    (b.push c).Measured := by
  have hsingle : MeasuredAll [c] := by
    rw [MeasuredAll, MeasuredAll]
    exact ⟨hc, trivial⟩
  unfold GreenNodeBuilder.push
  cases hstack : b.stack with
  | nil =>
    exact ⟨by simp, measuredAll_append.mpr ⟨h.finished, hsingle⟩⟩
  | cons frame stack =>
    have hall := List.forall_mem_cons.mp (hstack ▸ h.stack)
    exact ⟨List.forall_mem_cons.mpr ⟨measuredAll_append.mpr ⟨hall.1, hsingle⟩, hall.2⟩, h.finished⟩

theorem written_startNode (b : GreenNodeBuilder) (kind : NodeKind) :
    (b.startNode kind).written = b.written := by
  simp [startNode, written, leavesOf]

theorem Measured.startNode (h : b.Measured) (kind : NodeKind) : (b.startNode kind).Measured := by
  refine ⟨List.forall_mem_cons.mpr ⟨?_, h.stack⟩, h.finished⟩
  rw [MeasuredAll]
  trivial

/-- A cache does not change what is stored. -/
theorem intern_fst (cache : Option NodeCache) (n : GreenNode) : (intern cache n).1 = n := by
  unfold intern
  cases cache with
  | none => rfl
  | some cache =>
    dsimp only
    cases hfind : cache.nodes.find? (· = n) with
    | some stored => simpa using List.find?_some hfind
    | none => dsimp only; split <;> rfl

theorem new?_spec {kind : NodeKind} {cs : List GreenChild} {n : GreenNode}
    (h : GreenNode.new? kind cs = some n) (hcs : MeasuredAll cs) :
    n.leaves = leavesOf cs ∧ n.Measured := by
  unfold GreenNode.new? at h
  dsimp only at h
  split at h
  · obtain rfl := Option.some.inj h
    refine ⟨by rw [GreenNode.leaves], ?_⟩
    rw [GreenNode.Measured]
    exact ⟨rfl, hcs⟩
  · cases h

/-- What the builder does when a node is finished. -/
theorem finishNode_spec (h : b.finishNode = some b') :
    ∃ frame stack n, b.stack = frame :: stack ∧ GreenNode.new? frame.kind frame.children = some n ∧
      b' = push { b with stack, cache := (intern b.cache n).2 } (.node n) := by
  unfold finishNode at h
  cases hstack : b.stack with
  | nil => simp [hstack] at h
  | cons frame stack =>
    rw [hstack] at h
    obtain ⟨n, hn, hb'⟩ := Option.bind_eq_some_iff.mp h
    refine ⟨frame, stack, n, rfl, hn, ?_⟩
    have hfst := intern_fst b.cache n
    dsimp only at hb'
    rw [hfst] at hb'
    exact (Option.some.inj hb').symm

theorem finishNode_written (h : b.finishNode = some b') (hb : b.Measured) :
    b'.written = b.written ∧ b'.Measured := by
  obtain ⟨frame, stack, n, hstack, hn, rfl⟩ := finishNode_spec h
  have hall := List.forall_mem_cons.mp (hstack ▸ hb.stack)
  obtain ⟨hleaves, hn⟩ := new?_spec hn hall.1
  have hchild : (GreenChild.node n).Measured := by rwa [GreenChild.Measured]
  have hopen : Measured { b with stack, cache := (intern b.cache n).2 } := ⟨hall.2, hb.finished⟩
  refine ⟨?_, hopen.push hchild⟩
  rw [written_push, GreenChild.leaves, hleaves]
  simp [written, hstack]

theorem startNodeAt_written {cp : Checkpoint} {kind : NodeKind}
    (h : b.startNodeAt cp kind = some b') (hb : b.Measured) :
    b'.written = b.written ∧ b'.Measured := by
  unfold startNodeAt at h
  cases hstack : b.stack with
  | nil => simp [hstack] at h
  | cons frame stack =>
    have hall := List.forall_mem_cons.mp (hstack ▸ hb.stack)
    rw [hstack] at h
    dsimp only at h
    split at h
    · obtain rfl := Option.some.inj h
      have hsplit : MeasuredAll (frame.children.take cp.childrenAt ++
          frame.children.drop cp.childrenAt) := by rw [List.take_append_drop]; exact hall.1
      obtain ⟨htake, hdrop⟩ := measuredAll_append.mp hsplit
      refine ⟨?_, ⟨?_, hb.finished⟩⟩
      · have hleaves := leavesOf_append (frame.children.take cp.childrenAt)
          (frame.children.drop cp.childrenAt)
        rw [List.take_append_drop] at hleaves
        simp [written, hstack, hleaves]
      · exact List.forall_mem_cons.mpr ⟨hdrop, List.forall_mem_cons.mpr ⟨htake, hall.2⟩⟩
    · cases h

theorem finish_spec {n : GreenNode} (h : b.finish = some n) (hb : b.Measured) :
    n.leaves = b.written ∧ n.Measured := by
  unfold finish at h
  split at h
  · rename_i n' hstack hfinished
    obtain rfl := Option.some.inj h
    have hmeasured := hb.finished
    rw [hfinished, MeasuredAll, GreenChild.Measured] at hmeasured
    refine ⟨?_, hmeasured.1⟩
    simp [written, hstack, hfinished, leavesOf, GreenChild.leaves]
  · cases h

end GreenNodeBuilder

end Cst
end Wqpl
