/-
# The positioned tree

A red node is a green node with its place: the node above it, its index there
and the byte at which its text begins. The places are made up while walking
down. Every node and token that is reached from the root is where its text
stands in the text of the root (`Under.text`). The iterator over all
descendants keeps a stack of iterators over children; it visits them in
preorder (`collect_descendants`). The token at an offset is found by going into the child
that covers it (`tokenAtOffset_spec`).

Key definitions: `SyntaxNode`, `DescendantsWithTokens.next`, `SyntaxNode.tokenAtOffset`.
-/
import Wqpl.Cst.Green

namespace Wqpl
namespace Cst

open Wqpl.Lex (GreenToken)

/-! ### Nodes and tokens with their places -/

inductive SyntaxNode
  | mk (green : GreenNode) (parent : Option SyntaxNode) (indexInParent absOffset : Nat)

namespace SyntaxNode

def green : SyntaxNode → GreenNode
  | mk green _ _ _ => green

def parent : SyntaxNode → Option SyntaxNode
  | mk _ parent _ _ => parent

def absOffset : SyntaxNode → Nat
  | mk _ _ _ absOffset => absOffset

def newRoot (green : GreenNode) : SyntaxNode := mk green none 0 0

end SyntaxNode

structure SyntaxToken where
  parent : SyntaxNode
  green : GreenToken
  indexInParent : Nat
  absOffset : Nat

/-- One entry of `children_with_tokens`. -/
inductive SyntaxElement
  | node (n : SyntaxNode)
  | token (t : SyntaxToken)

namespace SyntaxElement

def start : SyntaxElement → Nat
  | node n => n.absOffset
  | token t => t.absOffset

/-- `text_range().end()`. -/
def stop : SyntaxElement → Nat
  | node n => n.absOffset + n.green.textLen
  | token t => t.absOffset + Text.byteLen t.green.text

def text : SyntaxElement → List Char
  | node n => n.green.text
  | token t => t.green.text

def asToken : SyntaxElement → Option SyntaxToken
  | node _ => none
  | token t => some t

end SyntaxElement

/-- A child of a node at its place. -/
def GreenChild.place (c : GreenChild) (parent : SyntaxNode) (index offset : Nat) : SyntaxElement :=
  match c with
  | .node n => .node (.mk n (some parent) index offset)
  | .token t => .token ⟨parent, t, index, offset⟩

/-! ### Iterators -/

/-- The iterator over child nodes and tokens. -/
structure ChildrenWithTokens where
  parent : SyntaxNode
  index : Nat
  offset : Nat

def SyntaxNode.childrenWithTokens (n : SyntaxNode) : ChildrenWithTokens := ⟨n, 0, n.absOffset⟩

def ChildrenWithTokens.next (it : ChildrenWithTokens) :
    Option (SyntaxElement × ChildrenWithTokens) :=
  match it.parent.green.children[it.index]? with
  | none => none
  | some c => some (c.place it.parent it.index it.offset,
      { it with offset := it.offset + c.textLen, index := it.index + 1 })

/-- The stack of `DescendantsWithTokens`, its top first. -/
abbrev DescendantsWithTokens := List ChildrenWithTokens

namespace DescendantsWithTokens

def next : DescendantsWithTokens → Option (SyntaxElement × DescendantsWithTokens)
  | [] => none
  | top :: stack =>
    match top.next with
    | some (.node n, top) => some (.node n, n.childrenWithTokens :: top :: stack)
    | some (.token t, top) => some (.token t, top :: stack)
    | none => next stack

/-- All elements, if there are fewer than the fuel. -/
def collect : Nat → DescendantsWithTokens → Option (List SyntaxElement)
  | 0, _ => none
  | fuel + 1, stack =>
    match next stack with
    | none => some []
    | some (e, stack) => (collect fuel stack).map (e :: ·)

end DescendantsWithTokens

def SyntaxNode.descendantsWithTokens (n : SyntaxNode) : DescendantsWithTokens :=
  [n.childrenWithTokens]

/-! ### Tokens at offsets -/

mutual

/-- `last_token` of a node at its place. -/
def GreenNode.lastToken : GreenNode → SyntaxNode → Nat → Option SyntaxToken
  | .mk _ _ children, self, offset => lastTokenIn children self 0 offset
termination_by structural n => n

/-- The last token of some children: the loop goes through them from behind. -/
def lastTokenIn : List GreenChild → SyntaxNode → Nat → Nat → Option SyntaxToken
  | [], _, _, _ => none
  | c :: cs, self, index, offset =>
    match lastTokenIn cs self (index + 1) (offset + c.textLen) with
    | some t => some t
    | none => c.lastToken self index offset
termination_by structural cs => cs

def GreenChild.lastToken : GreenChild → SyntaxNode → Nat → Nat → Option SyntaxToken
  | .node n, parent, index, offset => n.lastToken (.mk n (some parent) index offset) offset
  | .token t, parent, index, offset => some ⟨parent, t, index, offset⟩
termination_by structural c => c

end

mutual

/-- `token_at_offset` of a node at its place. -/
def GreenNode.tokenAt : GreenNode → SyntaxNode → Nat → Nat → Option SyntaxToken
  | .mk kind len children, self, start, offset =>
    if offset < start ∨ start + len < offset then none
    else
      match tokenIn children self 0 start offset with
      | some found => found
      | none =>
        if offset = start + len then GreenNode.lastToken (.mk kind len children) self start
        else none
termination_by structural n => n

/-- The search in the child that covers the offset, if there is one. -/
def tokenIn : List GreenChild → SyntaxNode → Nat → Nat → Nat → Option (Option SyntaxToken)
  | [], _, _, _, _ => none
  | c :: cs, self, index, start, offset =>
    if start ≤ offset ∧ offset < start + c.textLen then some (c.tokenAt self index start offset)
    else tokenIn cs self (index + 1) (start + c.textLen) offset
termination_by structural cs => cs

def GreenChild.tokenAt : GreenChild → SyntaxNode → Nat → Nat → Nat → Option SyntaxToken
  | .node n, parent, index, start, offset =>
    n.tokenAt (.mk n (some parent) index start) start offset
  | .token t, parent, index, start, _ => some ⟨parent, t, index, start⟩
termination_by structural c => c

end

def SyntaxNode.tokenAtOffset (n : SyntaxNode) (offset : Nat) : Option SyntaxToken :=
  n.green.tokenAt n n.absOffset offset

/-! ### Places below the root -/

/-- The nodes that are reached from the root, at their places. -/
inductive Under (root : GreenNode) : SyntaxNode → Prop
  | root : Under root (.newRoot root)
  | child {n : SyntaxNode} {g : GreenNode} {before after : List GreenChild} : Under root n →
      n.green.children = before ++ .node g :: after →
      Under root (.mk g (some n) before.length
        (n.absOffset + (before.map GreenChild.textLen).sum))

/-- A token that is reached from the root. -/
def TokenUnder (root : GreenNode) (t : SyntaxToken) : Prop :=
  Under root t.parent ∧ ∃ before after,
    t.parent.green.children = before ++ .token t.green :: after ∧ t.indexInParent = before.length ∧
    t.absOffset = t.parent.absOffset + (before.map GreenChild.textLen).sum

def ElementUnder (root : GreenNode) : SyntaxElement → Prop
  | .node n => Under root n
  | .token t => TokenUnder root t

section Places

variable {root : GreenNode}

theorem GreenNode.measured_children {n : GreenNode} (h : n.Measured) : MeasuredAll n.children := by
  cases n
  rw [GreenNode.Measured] at h
  exact h.2

theorem GreenNode.text_eq (n : GreenNode) : n.text = textOf n.children := by
  rw [GreenNode.text, GreenNode.leaves_eq, textOf]

theorem textOf_append (cs cs' : List GreenChild) :
    textOf (cs ++ cs') = textOf cs ++ textOf cs' := by
  rw [textOf, leavesOf_append, List.flatMap_append, textOf, textOf]

theorem textOf_cons (c : GreenChild) (cs : List GreenChild) :
    textOf (c :: cs) = c.leaves.flatMap GreenToken.text ++ textOf cs := by
  rw [textOf, leavesOf, List.flatMap_append]
  rfl

/-- Where a child stands in the text of its node. -/
theorem textOf_child {before after : List GreenChild} {c : GreenChild} :
    textOf (before ++ c :: after) =
      textOf before ++ c.leaves.flatMap GreenToken.text ++ textOf after := by
  rw [textOf_append, textOf_cons, List.append_assoc]

/-- **Places are right.** A node that is reached stands in the text of the root where it says. -/
theorem Under.text (hroot : root.Measured) {n : SyntaxNode} (h : Under root n) :
    n.green.Measured ∧ ∃ a b, root.text = a ++ n.green.text ++ b ∧
      Text.byteLen a = n.absOffset := by
  induction h with
  | root => exact ⟨hroot, [], [], by simp [SyntaxNode.newRoot, SyntaxNode.green], rfl⟩
  | @child n g before after hn hchildren ih =>
    obtain ⟨hmeasured, a, b, htext, ha⟩ := ih
    have hall := GreenNode.measured_children hmeasured
    rw [hchildren] at hall
    obtain ⟨hbefore, hafter⟩ := measuredAll_append.mp hall
    rw [MeasuredAll, GreenChild.Measured] at hafter
    refine ⟨hafter.1, a ++ textOf before, textOf after ++ b, ?_, ?_⟩
    · rw [htext, n.green.text_eq, hchildren, textOf_child, GreenChild.leaves]
      simp [GreenNode.text, SyntaxNode.green]
    · rw [Text.byteLen_append, ha, ← hbefore.sum_textLen]
      rfl

theorem TokenUnder.text (hroot : root.Measured) {t : SyntaxToken} (h : TokenUnder root t) :
    ∃ a b, root.text = a ++ t.green.text ++ b ∧ Text.byteLen a = t.absOffset := by
  obtain ⟨hparent, before, after, hchildren, -, hoffset⟩ := h
  obtain ⟨hmeasured, a, b, htext, ha⟩ := hparent.text hroot
  have hall := GreenNode.measured_children hmeasured
  rw [hchildren] at hall
  refine ⟨a ++ textOf before, textOf after ++ b, ?_, ?_⟩
  · rw [htext, GreenNode.text_eq, hchildren, textOf_child, GreenChild.leaves]
    simp
  · rw [Text.byteLen_append, ha, hoffset, (measuredAll_append.mp hall).1.sum_textLen]

/-- The range of an element holds its text. -/
theorem ElementUnder.slice (hroot : root.Measured) {e : SyntaxElement} (h : ElementUnder root e) :
    Text.slice? root.text e.start e.stop = some e.text := by
  cases e with
  | node n =>
    obtain ⟨hmeasured, a, b, htext, ha⟩ := Under.text hroot h
    rw [htext, SyntaxElement.start, SyntaxElement.stop, SyntaxElement.text, ← ha,
      hmeasured.textLen_eq, Text.slice?_append]
  | token t =>
    obtain ⟨a, b, htext, ha⟩ := TokenUnder.text hroot h
    rw [htext, SyntaxElement.start, SyntaxElement.stop, SyntaxElement.text, ← ha,
      Text.slice?_append]

end Places

/-! ### Preorder -/

mutual

/-- The elements below a node at its place, a node before those below it. -/
def GreenNode.preorder : GreenNode → SyntaxNode → Nat → List SyntaxElement
  | .mk _ _ children, self, offset => preorderAll children self 0 offset
termination_by structural n => n

def preorderAll : List GreenChild → SyntaxNode → Nat → Nat → List SyntaxElement
  | [], _, _, _ => []
  | c :: cs, self, index, offset =>
    c.preorder self index offset ++ preorderAll cs self (index + 1) (offset + c.textLen)
termination_by structural cs => cs

def GreenChild.preorder : GreenChild → SyntaxNode → Nat → Nat → List SyntaxElement
  | .node n, parent, index, offset =>
    .node (.mk n (some parent) index offset) ::
      n.preorder (.mk n (some parent) index offset) offset
  | .token t, parent, index, offset => [.token ⟨parent, t, index, offset⟩]
termination_by structural c => c

end

theorem GreenNode.preorder_eq (n : GreenNode) (self : SyntaxNode) (offset : Nat) :
    n.preorder self offset = preorderAll n.children self 0 offset := by
  cases n
  rw [preorder, children]

/-- What an iterator over children has still to visit. -/
def ChildrenWithTokens.rest (it : ChildrenWithTokens) : List SyntaxElement :=
  preorderAll (it.parent.green.children.drop it.index) it.parent it.index it.offset

namespace DescendantsWithTokens

def rest (stack : DescendantsWithTokens) : List SyntaxElement :=
  stack.flatMap ChildrenWithTokens.rest

theorem rest_cons (top : ChildrenWithTokens) (stack : DescendantsWithTokens) :
    rest (top :: stack) = top.rest ++ rest stack := List.flatMap_cons

/-- An iterator visits the first of what is left. -/
theorem next_spec (stack : DescendantsWithTokens) :
    next stack = none ∧ rest stack = [] ∨
      ∃ e stack', next stack = some (e, stack') ∧ rest stack = e :: rest stack' := by
  induction stack with
  | nil => exact .inl ⟨rfl, rfl⟩
  | cons top stack ih =>
    cases hchild : top.parent.green.children[top.index]? with
    | none =>
      have htop : top.next = none := by rw [ChildrenWithTokens.next, hchild]
      have hrest : rest (top :: stack) = rest stack := by
        rw [rest_cons, ChildrenWithTokens.rest,
          List.drop_of_length_le (List.getElem?_eq_none_iff.mp hchild), preorderAll,
          List.nil_append]
      rw [next, htop, hrest]
      exact ih
    | some c =>
      obtain ⟨hlt, hc⟩ := List.getElem?_eq_some_iff.mp hchild
      have hdrop : top.parent.green.children.drop top.index =
          c :: top.parent.green.children.drop (top.index + 1) := by
        rw [List.drop_eq_getElem_cons hlt, hc]
      have hrest : top.rest = c.preorder top.parent top.index top.offset ++
          ChildrenWithTokens.rest { top with offset := top.offset + c.textLen,
                                             index := top.index + 1 } := by
        rw [ChildrenWithTokens.rest, hdrop, preorderAll]
        rfl
      refine .inr ?_
      rw [rest_cons, hrest, next, ChildrenWithTokens.next, hchild]
      cases c with
      | token t =>
        refine ⟨_, _, rfl, ?_⟩
        rw [GreenChild.preorder, rest_cons]
        simp
      | node n =>
        refine ⟨_, _, rfl, ?_⟩
        rw [GreenChild.preorder, rest_cons, rest_cons, n.preorder_eq]
        simp [ChildrenWithTokens.rest, SyntaxNode.childrenWithTokens, SyntaxNode.green,
          SyntaxNode.absOffset]

theorem collect_eq (stack : DescendantsWithTokens) {fuel : Nat} (h : (rest stack).length < fuel) :
    collect fuel stack = some (rest stack) := by
  induction fuel generalizing stack with
  | zero => omega
  | succ fuel ih =>
    rcases next_spec stack with ⟨hnext, hrest⟩ | ⟨e, stack', hnext, hrest⟩
    · rw [collect, hnext, hrest]
    · rw [hrest, List.length_cons] at h
      rw [collect, hnext, hrest]
      show (collect fuel stack').map _ = _
      rw [ih stack' (by omega), Option.map_some]

end DescendantsWithTokens

/-! ### Places of what is visited -/

section Visited

variable {root : GreenNode} {self : SyntaxNode}

mutual

theorem GreenNode.preorder_under : ∀ (n : GreenNode) (self : SyntaxNode) (offset : Nat),
    Under root self → self.green = n → self.absOffset = offset →
    ∀ e ∈ n.preorder self offset, ElementUnder root e
  | .mk kind len children, self, offset, hself, hgreen, hoffset => by
    rw [GreenNode.preorder]
    have hchildren : self.green.children = [] ++ children := by rw [hgreen]; rfl
    have hbelow := preorderAll_under children [] self hself hchildren
    rw [hoffset] at hbelow
    exact hbelow

theorem preorderAll_under : ∀ (cs before : List GreenChild) (self : SyntaxNode),
    Under root self → self.green.children = before ++ cs →
    ∀ e ∈ preorderAll cs self before.length
      (self.absOffset + (before.map GreenChild.textLen).sum), ElementUnder root e
  | [], _, _, _, _ => by simp [preorderAll]
  | c :: cs, before, self, hself, hchildren => by
    have htail : self.green.children = (before ++ [c]) ++ cs := by rw [hchildren]; simp
    have hcs := preorderAll_under cs (before ++ [c]) self hself htail
    rw [List.length_append, List.map_append, List.sum_append, List.length_singleton,
      List.map_singleton, List.sum_singleton, ← Nat.add_assoc] at hcs
    rw [preorderAll]
    intro e he
    rcases List.mem_append.mp he with he | he
    · exact c.preorder_under before cs self hself hchildren e he
    · exact hcs e he

theorem GreenChild.preorder_under : ∀ (c : GreenChild) (before after : List GreenChild)
    (self : SyntaxNode), Under root self → self.green.children = before ++ c :: after →
    ∀ e ∈ c.preorder self before.length
      (self.absOffset + (before.map GreenChild.textLen).sum), ElementUnder root e
  | .token t, before, after, self, hself, hchildren => by
    rw [GreenChild.preorder]
    intro e he
    obtain rfl := List.mem_singleton.mp he
    exact ⟨hself, before, after, hchildren, rfl, rfl⟩
  | .node n, before, after, self, hself, hchildren => by
    rw [GreenChild.preorder]
    have hnode := Under.child hself hchildren
    intro e he
    rcases List.mem_cons.mp he with rfl | he
    · exact hnode
    · exact n.preorder_under _ _ hnode rfl rfl e he

end

mutual

/-- The tokens below a node are its leaves. -/
theorem GreenNode.tokens_preorder : ∀ (n : GreenNode) (self : SyntaxNode) (offset : Nat),
    ((n.preorder self offset).filterMap SyntaxElement.asToken).map SyntaxToken.green = n.leaves
  | .mk _ _ children, self, offset => by
    rw [GreenNode.preorder, GreenNode.leaves, tokens_preorderAll children self 0 offset]

theorem tokens_preorderAll : ∀ (cs : List GreenChild) (self : SyntaxNode) (index offset : Nat),
    ((preorderAll cs self index offset).filterMap SyntaxElement.asToken).map SyntaxToken.green =
      leavesOf cs
  | [], _, _, _ => by rw [preorderAll, leavesOf]; rfl
  | c :: cs, self, index, offset => by
    rw [preorderAll, leavesOf, List.filterMap_append, List.map_append,
      c.tokens_preorder self index offset,
      tokens_preorderAll cs self (index + 1) (offset + c.textLen)]

theorem GreenChild.tokens_preorder : ∀ (c : GreenChild) (self : SyntaxNode) (index offset : Nat),
    ((c.preorder self index offset).filterMap SyntaxElement.asToken).map SyntaxToken.green =
      c.leaves
  | .token t, _, _, _ => by rw [GreenChild.preorder, GreenChild.leaves]; rfl
  | .node n, self, index, offset => by
    rw [GreenChild.preorder, GreenChild.leaves,
      ← n.tokens_preorder (.mk n (some self) index offset) offset]
    rfl

end

/-- **Descendants.** The iterator ends; it visits the elements in preorder, among them
the leaves of the tree in their order, and each is where its text stands. -/
theorem collect_descendants (hroot : root.Measured) :
    ∃ es n, (∀ fuel ≥ n, DescendantsWithTokens.collect fuel
        (SyntaxNode.newRoot root).descendantsWithTokens = some es) ∧
      es = root.preorder (.newRoot root) 0 ∧
      (es.filterMap SyntaxElement.asToken).map SyntaxToken.green = root.leaves ∧
      ∀ e ∈ es, Text.slice? root.text e.start e.stop = some e.text := by
  have hrest : DescendantsWithTokens.rest (SyntaxNode.newRoot root).descendantsWithTokens =
      root.preorder (.newRoot root) 0 := by
    rw [SyntaxNode.descendantsWithTokens, DescendantsWithTokens.rest_cons, root.preorder_eq]
    simp [DescendantsWithTokens.rest, ChildrenWithTokens.rest, SyntaxNode.childrenWithTokens,
      SyntaxNode.newRoot, SyntaxNode.green, SyntaxNode.absOffset]
  refine ⟨_, (root.preorder (.newRoot root) 0).length + 1, fun fuel hfuel => ?_, rfl,
    root.tokens_preorder _ _, fun e he => ?_⟩
  · rw [← hrest] at hfuel ⊢
    exact DescendantsWithTokens.collect_eq _ hfuel
  · exact (GreenNode.preorder_under root _ 0 Under.root rfl rfl e he).slice hroot

end Visited

/-- The tree of `1;`. -/
def oneTree : GreenNode :=
  .mk .root 2 [.node (.mk .literalExpr 1 [.token ⟨.intLit, ['1']⟩]), .token ⟨.semicolon, [';']⟩]

theorem oneTree_measured : oneTree.Measured := by
  simp only [oneTree, GreenNode.Measured, MeasuredAll, GreenChild.Measured]
  decide

theorem collect_descendants_one :
    ∃ es n, (∀ fuel ≥ n, DescendantsWithTokens.collect fuel
        (SyntaxNode.newRoot oneTree).descendantsWithTokens = some es) ∧
      es = oneTree.preorder (.newRoot oneTree) 0 ∧
      (es.filterMap SyntaxElement.asToken).map SyntaxToken.green = oneTree.leaves ∧
      ∀ e ∈ es, Text.slice? oneTree.text e.start e.stop = some e.text :=
  collect_descendants oneTree_measured

/-! ### Tokens at their offsets -/

section Offsets

variable {root : GreenNode}

/-- The token covers the offset. -/
def SyntaxToken.Covers (t : SyntaxToken) (offset : Nat) : Prop :=
  t.absOffset ≤ offset ∧ offset < t.absOffset + Text.byteLen t.green.text

/-- No child covers an offset behind them. -/
theorem tokenIn_none (self : SyntaxNode) {offset : Nat} :
    ∀ (cs : List GreenChild) (index start : Nat),
    start + (cs.map GreenChild.textLen).sum ≤ offset → tokenIn cs self index start offset = none
  | [], _, _, _ => by rw [tokenIn]
  | c :: cs, index, start, h => by
    rw [List.map_cons, List.sum_cons] at h
    rw [tokenIn, if_neg (by omega), tokenIn_none self cs _ _ (by omega)]

mutual

theorem GreenNode.tokenAt_spec : ∀ (n : GreenNode) (self : SyntaxNode) (offset : Nat),
    n.Measured → Under root self → self.green = n → self.absOffset ≤ offset →
    offset < self.absOffset + n.textLen →
    ∃ t, n.tokenAt self self.absOffset offset = some t ∧ TokenUnder root t ∧ t.Covers offset
  | .mk kind len children, self, offset, hn, hself, hgreen, hle, hlt => by
    rw [GreenNode.Measured] at hn
    rw [GreenNode.textLen] at hlt
    have hchildren : self.green.children = [] ++ children := by rw [hgreen]; rfl
    obtain ⟨t, hfound, ht⟩ := tokenIn_spec children [] self offset hn.2 hself hchildren
      (by simpa using hle) (by simpa [← hn.1] using hlt)
    refine ⟨t, ?_, ht⟩
    have hfound : tokenIn children self 0 self.absOffset offset = some (some t) := hfound
    rw [GreenNode.tokenAt, if_neg (by omega), hfound]

theorem tokenIn_spec : ∀ (cs before : List GreenChild) (self : SyntaxNode) (offset : Nat),
    MeasuredAll cs → Under root self → self.green.children = before ++ cs →
    self.absOffset + (before.map GreenChild.textLen).sum ≤ offset →
    offset < self.absOffset + (before.map GreenChild.textLen).sum +
      (cs.map GreenChild.textLen).sum →
    ∃ t, tokenIn cs self before.length
      (self.absOffset + (before.map GreenChild.textLen).sum) offset = some (some t) ∧
      TokenUnder root t ∧ t.Covers offset
  | [], _, _, _, _, _, _, hle, hlt => by
    rw [List.map_nil, List.sum_nil] at hlt
    omega
  | c :: cs, before, self, offset, hcs, hself, hchildren, hle, hlt => by
    rw [MeasuredAll] at hcs
    rw [List.map_cons, List.sum_cons] at hlt
    by_cases hin : offset < self.absOffset + (before.map GreenChild.textLen).sum + c.textLen
    · obtain ⟨t, hfound, ht⟩ := c.tokenAt_spec before cs self offset hcs.1 hself hchildren hle hin
      exact ⟨t, by rw [tokenIn, if_pos ⟨hle, hin⟩, hfound], ht⟩
    · have htail : self.green.children = (before ++ [c]) ++ cs := by rw [hchildren]; simp
      have hsum : ((before ++ [c]).map GreenChild.textLen).sum =
          (before.map GreenChild.textLen).sum + c.textLen := by simp
      obtain ⟨t, hfound, ht⟩ := tokenIn_spec cs (before ++ [c]) self offset hcs.2 hself htail
        (by omega) (by omega)
      rw [List.length_append, List.length_singleton, hsum, ← Nat.add_assoc] at hfound
      exact ⟨t, by rw [tokenIn, if_neg (fun h => hin h.2), hfound], ht⟩

theorem GreenChild.tokenAt_spec : ∀ (c : GreenChild) (before after : List GreenChild)
    (self : SyntaxNode) (offset : Nat), c.Measured → Under root self →
    self.green.children = before ++ c :: after →
    self.absOffset + (before.map GreenChild.textLen).sum ≤ offset →
    offset < self.absOffset + (before.map GreenChild.textLen).sum + c.textLen →
    ∃ t, c.tokenAt self before.length
      (self.absOffset + (before.map GreenChild.textLen).sum) offset = some t ∧
      TokenUnder root t ∧ t.Covers offset
  | .token t, before, after, self, offset, _, hself, hchildren, hle, hlt => by
    rw [GreenChild.textLen] at hlt
    exact ⟨_, GreenChild.tokenAt.eq_2 .., ⟨hself, before, after, hchildren, rfl, rfl⟩, hle, hlt⟩
  | .node n, before, after, self, offset, hn, hself, hchildren, hle, hlt => by
    rw [GreenChild.Measured] at hn
    rw [GreenChild.textLen] at hlt
    rw [GreenChild.tokenAt]
    exact n.tokenAt_spec _ offset hn (Under.child hself hchildren) rfl hle hlt

end

/-- What is found is the last of the leaves, at its place. -/
def IsLast (root : GreenNode) (leaves : List GreenToken) (stop : Nat) (found : Option SyntaxToken) :
    Prop :=
  (found = none ∧ leaves = []) ∨
    ∃ t, found = some t ∧ leaves.getLast? = some t.green ∧ TokenUnder root t ∧
      t.absOffset + Text.byteLen t.green.text = stop

mutual

theorem GreenNode.lastToken_spec : ∀ (n : GreenNode) (self : SyntaxNode), n.Measured →
    Under root self → self.green = n →
    IsLast root n.leaves (self.absOffset + n.textLen) (n.lastToken self self.absOffset)
  | .mk kind len children, self, hn, hself, hgreen => by
    rw [GreenNode.Measured] at hn
    have hchildren : self.green.children = [] ++ children := by rw [hgreen]; rfl
    have hlast := lastTokenIn_spec children [] self hn.2 hself hchildren
    rw [GreenNode.leaves, GreenNode.textLen, GreenNode.lastToken, hn.1]
    simpa using hlast

theorem lastTokenIn_spec : ∀ (cs before : List GreenChild) (self : SyntaxNode), MeasuredAll cs →
    Under root self → self.green.children = before ++ cs →
    IsLast root (leavesOf cs) (self.absOffset + (before.map GreenChild.textLen).sum +
        (cs.map GreenChild.textLen).sum)
      (lastTokenIn cs self before.length (self.absOffset + (before.map GreenChild.textLen).sum))
  | [], _, _, _, _, _ => .inl ⟨by rw [lastTokenIn], by rw [leavesOf]⟩
  | c :: cs, before, self, hcs, hself, hchildren => by
    rw [MeasuredAll] at hcs
    have htail : self.green.children = (before ++ [c]) ++ cs := by rw [hchildren]; simp
    have hsum : ((before ++ [c]).map GreenChild.textLen).sum =
        (before.map GreenChild.textLen).sum + c.textLen := by simp
    have hlast := lastTokenIn_spec cs (before ++ [c]) self hcs.2 hself htail
    rw [List.length_append, List.length_singleton, hsum, ← Nat.add_assoc] at hlast
    rw [List.map_cons, List.sum_cons, leavesOf, lastTokenIn]
    rcases hlast with ⟨hnone, hempty⟩ | ⟨t, hsome, hlast, ht, hstop⟩
    · -- no leaf behind this child, and no text either
      have hzero : (cs.map GreenChild.textLen).sum = 0 := by
        rw [hcs.2.sum_textLen, textOf, hempty]
        rfl
      have hc := c.lastToken_spec before cs self hcs.1 hself hchildren
      rw [← Nat.add_assoc] at hc
      rw [hnone, hempty, List.append_nil, hzero, Nat.add_zero]
      exact hc
    · rw [hsome]
      refine .inr ⟨t, rfl, ?_, ht, by omega⟩
      rw [List.getLast?_append, hlast, Option.some_or]

theorem GreenChild.lastToken_spec : ∀ (c : GreenChild) (before after : List GreenChild)
    (self : SyntaxNode), c.Measured → Under root self →
    self.green.children = before ++ c :: after →
    IsLast root c.leaves
      (self.absOffset + ((before.map GreenChild.textLen).sum + c.textLen))
      (c.lastToken self before.length (self.absOffset + (before.map GreenChild.textLen).sum))
  | .token t, before, after, self, _, hself, hchildren => by
    refine .inr ⟨_, GreenChild.lastToken.eq_2 .., by rw [GreenChild.leaves]; rfl,
      ⟨hself, before, after, hchildren, rfl, rfl⟩, ?_⟩
    rw [GreenChild.textLen, Nat.add_assoc]
  | .node n, before, after, self, hn, hself, hchildren => by
    rw [GreenChild.Measured] at hn
    have hlast := n.lastToken_spec _ hn (Under.child hself hchildren) rfl
    rw [GreenChild.leaves, GreenChild.textLen, GreenChild.lastToken, ← Nat.add_assoc]
    exact hlast

end

/-- **Tokens at offsets.** Inside the text the token that covers the offset is found, at the
end the last one if there is any, and none behind it. -/
theorem tokenAtOffset_spec (hroot : root.Measured) (offset : Nat) :
    (offset < root.textLen → ∃ t, (SyntaxNode.newRoot root).tokenAtOffset offset = some t ∧
      TokenUnder root t ∧ t.Covers offset) ∧
    (offset = root.textLen → IsLast root root.leaves offset
      ((SyntaxNode.newRoot root).tokenAtOffset offset)) ∧
    (root.textLen < offset → (SyntaxNode.newRoot root).tokenAtOffset offset = none) := by
  refine ⟨fun hlt => ?_, fun heq => ?_, fun hgt => ?_⟩
  · exact GreenNode.tokenAt_spec root (.newRoot root) offset hroot .root rfl (Nat.zero_le _)
      (by simpa [SyntaxNode.newRoot, SyntaxNode.absOffset] using hlt)
  · have hlast := GreenNode.lastToken_spec root (.newRoot root) hroot .root rfl
    cases root with
    | mk kind len children =>
      rw [GreenNode.Measured] at hroot
      rw [GreenNode.textLen] at heq
      have hnone : tokenIn children (.newRoot (.mk kind len children)) 0 0 offset = none :=
        tokenIn_none _ children 0 0 (by omega)
      have hat : (SyntaxNode.newRoot (.mk kind len children)).tokenAtOffset offset =
          GreenNode.lastToken (.mk kind len children) (.newRoot (.mk kind len children)) 0 := by
        show GreenNode.tokenAt (.mk kind len children) _ 0 offset = _
        rw [GreenNode.tokenAt, if_neg (by omega), hnone, if_pos (by omega)]
      rw [hat, heq]
      simpa [SyntaxNode.newRoot, SyntaxNode.absOffset, GreenNode.textLen] using hlast
  · cases root with
    | mk kind len children =>
      rw [GreenNode.textLen] at hgt
      show GreenNode.tokenAt (.mk kind len children) _ 0 offset = none
      rw [GreenNode.tokenAt, if_pos (by omega)]

theorem tokenAtOffset_spec_one :
    (∃ t, (SyntaxNode.newRoot oneTree).tokenAtOffset 1 = some t ∧ TokenUnder oneTree t ∧
      t.Covers 1) ∧
    IsLast oneTree oneTree.leaves 2 ((SyntaxNode.newRoot oneTree).tokenAtOffset 2) ∧
    (SyntaxNode.newRoot oneTree).tokenAtOffset 3 = none :=
  ⟨(tokenAtOffset_spec oneTree_measured 1).1 (by decide),
    (tokenAtOffset_spec oneTree_measured 2).2.1 rfl,
    (tokenAtOffset_spec oneTree_measured 3).2.2 (by decide)⟩

end Offsets

end Cst
end Wqpl
