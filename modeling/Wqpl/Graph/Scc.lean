/-
# Cycles of a graph by strongly connected components

A graph is the list of the successors of its nodes. Two passes find the nodes
on cycles: a search in depth puts the nodes into the order in which it finishes
them (`pushPostorder`), and from the last to the first, what still reaches a
node is its component (`collectComponent`). What a node reaches finishes no
later than some node of its own component (`Finished`), so the components come
out whole, and a node lies on a cycle when its component has another node or it
is its own successor (`cyclicNodes_iff`).
-/
import Mathlib.Algebra.BigOperators.Group.Finset.Basic
import Mathlib.Algebra.GroupWithZero.Nat
import Mathlib.Algebra.Order.BigOperators.Group.Finset
import Mathlib.Data.List.Nodup
import Mathlib.Logic.Relation
import Wqpl.WhileLoop

namespace Wqpl

abbrev Graph := List (List Nat)

namespace Graph

/-- The successors of a node. -/
def succ (g : Graph) (u : Nat) : List Nat := g.getD u []

def Edge (g : Graph) (u v : Nat) : Prop := v ∈ g.succ u

/-- All successors are nodes. -/
def Closed (g : Graph) : Prop := ∀ u v, g.Edge u v → v < g.length

abbrev Reach (g : Graph) : Nat → Nat → Prop := Relation.ReflTransGen g.Edge

/-- The node lies on a cycle. -/
def OnCycle (g : Graph) (u : Nat) : Prop := Relation.TransGen g.Edge u u

/-- The rounds that visit every node and every edge once. -/
def rounds (g : Graph) : Nat := ((List.range g.length).map fun u => (g.succ u).length + 1).sum

/-! ### The first pass -/

/-- A search in depth: the open nodes, each with the index of its next
successor, the nodes visited, and those finished, in order. -/
structure Search where
  stack : List (Nat × Nat)
  visited : List Nat
  order : List Nat

/-- One round of the search. -/
def searchStep (g : Graph) (s : Search) : Option Search :=
  match s.stack with
  | [] => none
  | (node, next) :: rest =>
    match (g.succ node)[next]? with
    | some child =>
      if child ∈ s.visited then some { s with stack := (node, next + 1) :: rest }
      else
        some { s with
          stack := (child, 0) :: (node, next + 1) :: rest, visited := child :: s.visited }
    | none => some { s with stack := rest, order := s.order ++ [node] }

/-- `push_postorder`. -/
def pushPostorder (g : Graph) (start : Nat) (visited order : List Nat) : List Nat × List Nat :=
  let s := whileSome g.searchStep g.rounds
    { stack := [(start, 0)], visited := start :: visited, order }
  (s.visited, s.order)

/-- The order in which all nodes are finished. -/
def postorder (g : Graph) : List Nat :=
  ((List.range g.length).foldl (fun (p : List Nat × List Nat) start =>
    if start ∈ p.1 then p else g.pushPostorder start p.1 p.2) ([], [])).2

/-! ### The second pass -/

/-- `reverse_graph`. -/
def reverseGraph (g : Graph) : Graph :=
  g.zipIdx.foldl (fun (reverse : Graph) p =>
    p.1.foldl (fun (reverse : Graph) target => reverse.modify target (· ++ [p.2])) reverse)
    (List.replicate g.length [])

/-- A search for a component: the nodes to look at, those assigned to a
component, and those of this one. -/
structure Collection where
  stack : List Nat
  assigned : List Nat
  component : List Nat

/-- The successors that are not assigned yet. -/
def collectChildren (c : Collection) (children : List Nat) : Collection :=
  children.foldl (fun c child =>
    if child ∈ c.assigned then c
    else { c with stack := child :: c.stack, assigned := child :: c.assigned }) c

/-- One round of the collection. -/
def collectStep (g : Graph) (c : Collection) : Option Collection :=
  match c.stack with
  | [] => none
  | node :: rest =>
    some (collectChildren { c with stack := rest, component := c.component ++ [node] } (g.succ node))

/-- `collect_component`. -/
def collectComponent (g : Graph) (start : Nat) (assigned : List Nat) : List Nat × List Nat :=
  let c := whileSome g.collectStep g.length
    { stack := [start], assigned := start :: assigned, component := [] }
  (c.assigned, c.component)

/-- Whether a component is a cycle. -/
def isCycle (g : Graph) (component : List Nat) : Bool :=
  decide (1 < component.length) || component.any fun u => decide (u ∈ g.succ u)

/-- The nodes on cycles: those of the components that are cycles. -/
def cyclicNodes (g : Graph) : List Nat :=
  (g.postorder.reverse.foldl (fun (p : List Nat × List Nat) start =>
    if start ∈ p.1 then p
    else
      let (assigned, component) := g.reverseGraph.collectComponent start p.1
      (assigned, if g.isCycle component then p.2 ++ component else p.2)) ([], [])).2

/-! ### The finishing order -/

variable {g : Graph}

/-- `y` is finished no later than `z`. -/
def Finished (order : List Nat) (y z : Nat) : Prop :=
  ∃ before after, order = before ++ z :: after ∧ (y ∈ before ∨ y = z)

theorem Finished.append {order : List Nat} {y z : Nat} (h : Finished order y z) (more : List Nat) :
    Finished (order ++ more) y z := by
  obtain ⟨before, after, rfl, hy⟩ := h
  exact ⟨before, after ++ more, by rw [List.append_assoc, List.cons_append], hy⟩

theorem finished_last {order : List Nat} {y z : Nat} (h : y ∈ order ∨ y = z) :
    Finished (order ++ [z]) y z := ⟨order, [], rfl, h⟩

/-- The rounds that the nodes not visited take. -/
def openRounds (g : Graph) (visited : List Nat) : Nat :=
  ∑ u ∈ (Finset.range g.length).filter (· ∉ visited), ((g.succ u).length + 1)

theorem openRounds_le (g : Graph) (visited : List Nat) : g.openRounds visited ≤ g.rounds :=
  Finset.sum_le_sum_of_subset (Finset.filter_subset _ _)

theorem openRounds_cons {u : Nat} {visited : List Nat} (hu : u < g.length) (hv : u ∉ visited) :
    (g.succ u).length + 1 + g.openRounds (u :: visited) = g.openRounds visited := by
  have herase : (Finset.range g.length).filter (· ∉ u :: visited) =
      ((Finset.range g.length).filter (· ∉ visited)).erase u := by
    ext w
    simp only [Finset.mem_filter, Finset.mem_erase, List.mem_cons]
    tauto
  unfold openRounds
  rw [herase]
  exact Finset.add_sum_erase _ (fun u => (g.succ u).length + 1)
    (Finset.mem_filter.mpr ⟨Finset.mem_range.mpr hu, hv⟩)

namespace Search

/-- The rounds a search still takes. -/
def measure (g : Graph) (s : Search) : Nat :=
  g.openRounds s.visited + (s.stack.map fun p => (g.succ p.1).length - p.2 + 1).sum

/-- The open nodes. -/
def nodes (s : Search) : List Nat := s.stack.map Prod.fst

/-- The invariant of the search. What a finished node reaches is finished no
later than a node of its component, or that node is still open. -/
structure Inv (g : Graph) (s : Search) : Prop where
  nodup : (s.nodes ++ s.order).Nodup
  visited : ∀ u, u ∈ s.visited ↔ u ∈ s.nodes ∨ u ∈ s.order
  inRange : ∀ u ∈ s.visited, u < g.length
  chain : s.nodes.Pairwise fun above below => g.Reach below above
  children : ∀ p ∈ s.stack, ∀ i < p.2, ∀ c, (g.succ p.1)[i]? = some c → c ∈ s.visited
  closed : ∀ u ∈ s.order, ∀ v ∈ g.succ u, v ∈ s.visited
  finished : ∀ u ∈ s.order, ∀ v, g.Reach u v →
    ∃ w, g.Reach u w ∧ g.Reach w u ∧ (w ∈ s.nodes ∨ Finished s.order v w)

variable {s : Search} {node next : Nat} {rest : List (Nat × Nat)}

theorem measure_advance (h : s.stack = (node, next) :: rest) (hnext : next < (g.succ node).length) :
    measure g { s with stack := (node, next + 1) :: rest } < measure g s := by
  unfold measure
  rw [h]
  simp only [List.map_cons, List.sum_cons]
  omega

theorem measure_visit {child : Nat} (h : s.stack = (node, next) :: rest)
    (hnext : next < (g.succ node).length) (hchild : child < g.length) (hnew : child ∉ s.visited) :
    measure g { s with
      stack := (child, 0) :: (node, next + 1) :: rest, visited := child :: s.visited } <
        measure g s := by
  have hopen := openRounds_cons hchild hnew
  unfold measure
  rw [h]
  simp only [List.map_cons, List.sum_cons]
  omega

theorem measure_finish (h : s.stack = (node, next) :: rest) :
    measure g { s with stack := rest, order := s.order ++ [node] } < measure g s := by
  unfold measure
  rw [h]
  simp only [List.map_cons, List.sum_cons]
  omega

/-- A successor that was visited before. -/
theorem Inv.advance (hs : s.Inv g) (h : s.stack = (node, next) :: rest) {child : Nat}
    (hchild : (g.succ node)[next]? = some child) (hold : child ∈ s.visited) :
    Inv g { s with stack := (node, next + 1) :: rest } := by
  have hnodes : nodes { s with stack := (node, next + 1) :: rest } = s.nodes := by
    unfold nodes
    rw [h]
    rfl
  refine ⟨?_, ?_, hs.inRange, ?_, ?_, hs.closed, ?_⟩
  · rw [hnodes]
    exact hs.nodup
  · rw [hnodes]
    exact hs.visited
  · rw [hnodes]
    exact hs.chain
  · intro p hp i hi c hc
    rcases List.mem_cons.mp hp with rfl | hp
    · rcases Nat.lt_succ_iff_lt_or_eq.mp hi with hi | rfl
      · exact hs.children (node, next) (by rw [h]; exact List.mem_cons_self) i hi c hc
      · rw [hchild] at hc
        exact Option.some.inj hc ▸ hold
    · exact hs.children p (by rw [h]; exact List.mem_cons_of_mem _ hp) i hi c hc
  · rw [hnodes]
    exact hs.finished

/-- A new successor is opened. -/
theorem Inv.visit (hg : g.Closed) (hs : s.Inv g) (h : s.stack = (node, next) :: rest) {child : Nat}
    (hchild : (g.succ node)[next]? = some child) (hnew : child ∉ s.visited) :
    Inv g { s with
      stack := (child, 0) :: (node, next + 1) :: rest, visited := child :: s.visited } := by
  have hedge : g.Edge node child := List.mem_of_getElem? hchild
  have hnodes : s.nodes = node :: rest.map Prod.fst := by
    unfold nodes
    rw [h]
    rfl
  have hchain := hs.chain
  rw [hnodes] at hchain
  refine ⟨?_, ?_, ?_, ?_, ?_, ?_, ?_⟩
  · show (child :: node :: rest.map Prod.fst ++ s.order).Nodup
    rw [← hnodes, List.cons_append]
    refine List.nodup_cons.mpr ⟨fun hmem => hnew ?_, hs.nodup⟩
    exact (hs.visited child).mpr (List.mem_append.mp hmem)
  · intro u
    show u ∈ child :: s.visited ↔ u ∈ child :: node :: rest.map Prod.fst ∨ u ∈ s.order
    rw [← hnodes, List.mem_cons, List.mem_cons, hs.visited]
    tauto
  · intro u hu
    rcases List.mem_cons.mp hu with rfl | hu
    · exact hg _ _ hedge
    · exact hs.inRange u hu
  · show (child :: node :: rest.map Prod.fst).Pairwise _
    refine List.pairwise_cons.mpr ⟨fun below hbelow => ?_, hchain⟩
    rcases List.mem_cons.mp hbelow with rfl | hbelow
    · exact .single hedge
    · exact (List.rel_of_pairwise_cons hchain hbelow).tail hedge
  · intro p hp i hi c hc
    rcases List.mem_cons.mp hp with rfl | hp
    · exact absurd hi (Nat.not_lt_zero i)
    rcases List.mem_cons.mp hp with rfl | hp
    · rcases Nat.lt_succ_iff_lt_or_eq.mp hi with hi | rfl
      · exact List.mem_cons_of_mem _ <|
          hs.children (node, next) (by rw [h]; exact List.mem_cons_self) i hi c hc
      · rw [hchild] at hc
        exact Option.some.inj hc ▸ List.mem_cons_self
    · exact List.mem_cons_of_mem _ <|
        hs.children p (by rw [h]; exact List.mem_cons_of_mem _ hp) i hi c hc
  · exact fun u hu v hv => List.mem_cons_of_mem _ (hs.closed u hu v hv)
  · intro u hu v huv
    obtain ⟨w, huw, hwu, hw⟩ := hs.finished u hu v huv
    refine ⟨w, huw, hwu, hw.imp (fun hw => ?_) id⟩
    rw [hnodes] at hw
    exact List.mem_cons_of_mem _ hw

/-- What the node on top reaches is finished, or reached through an open node. -/
theorem Inv.reaches (hs : s.Inv g) (h : s.stack = (node, next) :: rest)
    (hdone : (g.succ node)[next]? = none) {v : Nat} (hv : g.Reach node v) :
    (v ∈ s.order ∨ v = node) ∨ ∃ w ∈ rest.map Prod.fst, g.Reach node w := by
  have hnodes : s.nodes = node :: rest.map Prod.fst := by
    unfold nodes
    rw [h]
    rfl
  induction hv with
  | refl => exact .inl (.inr rfl)
  | @tail u v hu huv ih =>
    rcases ih with hold | hopen
    · have hvisited : v ∈ s.visited := by
        rcases hold with hold | rfl
        · exact hs.closed u hold v huv
        · obtain ⟨i, hi⟩ := List.mem_iff_getElem?.mp huv
          refine hs.children (u, next) (by rw [h]; exact List.mem_cons_self) i ?_ v hi
          have hlen := List.getElem?_eq_none_iff.mp hdone
          have hlt := (List.getElem?_eq_some_iff.mp hi).1
          omega
      rw [hs.visited, hnodes, List.mem_cons] at hvisited
      rcases hvisited with (rfl | hrest) | horder
      · exact .inl (.inr rfl)
      · exact .inr ⟨v, hrest, hu.tail huv⟩
      · exact .inl (.inl horder)
    · exact .inr hopen

/-- The node on top is finished. -/
theorem Inv.finish (hs : s.Inv g) (h : s.stack = (node, next) :: rest)
    (hdone : (g.succ node)[next]? = none) :
    Inv g { s with stack := rest, order := s.order ++ [node] } := by
  have hnodes : s.nodes = node :: rest.map Prod.fst := by
    unfold nodes
    rw [h]
    rfl
  have hchain := hs.chain
  rw [hnodes] at hchain
  -- the node on top reaches itself again from what it reaches below
  have hback : ∀ w ∈ rest.map Prod.fst, g.Reach w node :=
    fun w hw => List.rel_of_pairwise_cons hchain hw
  have htop : ∀ v, g.Reach node v → ∃ w, g.Reach node w ∧ g.Reach w node ∧
      (w ∈ rest.map Prod.fst ∨ Finished (s.order ++ [node]) v w) := by
    intro v hv
    rcases hs.reaches h hdone hv with hold | ⟨w, hw, hreach⟩
    · exact ⟨node, .refl, .refl, .inr (finished_last hold)⟩
    · exact ⟨w, hreach, hback w hw, .inl hw⟩
  have hvisited : ∀ u, u ∈ s.visited ↔ u ∈ rest.map Prod.fst ∨ u ∈ s.order ++ [node] := by
    intro u
    rw [hs.visited, hnodes, List.mem_cons, List.mem_append, List.mem_singleton]
    tauto
  refine ⟨?_, hvisited, hs.inRange, hchain.of_cons, ?_, ?_, ?_⟩
  · show (rest.map Prod.fst ++ (s.order ++ [node])).Nodup
    have hnodup := hs.nodup
    rw [hnodes, List.cons_append, List.nodup_cons] at hnodup
    rw [← List.append_assoc, ← List.concat_eq_append]
    exact hnodup.2.concat hnodup.1
  · intro p hp
    exact hs.children p (by rw [h]; exact List.mem_cons_of_mem _ hp)
  · intro u hu v hv
    rcases List.mem_append.mp hu with hu | hu
    · exact hs.closed u hu v hv
    · obtain rfl := List.mem_singleton.mp hu
      obtain ⟨i, hi⟩ := List.mem_iff_getElem?.mp hv
      refine hs.children (u, next) (by rw [h]; exact List.mem_cons_self) i ?_ v hi
      have hlen := List.getElem?_eq_none_iff.mp hdone
      have hlt := (List.getElem?_eq_some_iff.mp hi).1
      omega
  · intro u hu v huv
    rcases List.mem_append.mp hu with hu | hu
    · obtain ⟨w, huw, hwu, hw⟩ := hs.finished u hu v huv
      rcases hw with hw | hw
      · rw [hnodes, List.mem_cons] at hw
        rcases hw with rfl | hw
        · obtain ⟨z, hwz, hzw, hz⟩ := htop v (hwu.trans huv)
          exact ⟨z, huw.trans hwz, hzw.trans hwu, hz⟩
        · exact ⟨w, huw, hwu, .inl hw⟩
      · exact ⟨w, huw, hwu, .inr (hw.append [node])⟩
    · obtain rfl := List.mem_singleton.mp hu
      exact htop v huv

theorem Inv.step (hg : g.Closed) {s' : Search} (hs : s.Inv g) (h : g.searchStep s = some s') :
    s'.Inv g ∧ s'.measure g < s.measure g := by
  unfold searchStep at h
  cases hstack : s.stack with
  | nil =>
    rw [hstack] at h
    cases h
  | cons p rest =>
    obtain ⟨node, next⟩ := p
    rw [hstack] at h
    dsimp only at h
    cases hchild : (g.succ node)[next]? with
    | none =>
      rw [hchild] at h
      obtain rfl := Option.some.inj h
      exact ⟨hs.finish hstack hchild, measure_finish hstack⟩
    | some child =>
      rw [hchild] at h
      have hnext := (List.getElem?_eq_some_iff.mp hchild).1
      by_cases hold : child ∈ s.visited
      · dsimp only at h
        rw [if_pos hold] at h
        obtain rfl := Option.some.inj h
        exact ⟨hs.advance hstack hchild hold, measure_advance hstack hnext⟩
      · dsimp only at h
        rw [if_neg hold] at h
        obtain rfl := Option.some.inj h
        exact ⟨hs.visit hg hstack hchild hold,
          measure_visit hstack hnext (hg _ _ (List.mem_of_getElem? hchild)) hold⟩

theorem visited_mono {s' : Search} (h : g.searchStep s = some s') :
    ∀ u ∈ s.visited, u ∈ s'.visited := by
  intro u hu
  unfold searchStep at h
  cases hstack : s.stack with
  | nil =>
    rw [hstack] at h
    cases h
  | cons p rest =>
    rw [hstack] at h
    dsimp only at h
    cases hchild : (g.succ p.1)[p.2]? with
    | none =>
      rw [hchild] at h
      obtain rfl := Option.some.inj h
      exact hu
    | some child =>
      rw [hchild] at h
      dsimp only at h
      by_cases hold : child ∈ s.visited
      · rw [if_pos hold] at h
        obtain rfl := Option.some.inj h
        exact hu
      · rw [if_neg hold] at h
        obtain rfl := Option.some.inj h
        exact List.mem_cons_of_mem _ hu

theorem stack_nil (h : g.searchStep s = none) : s.stack = [] := by
  unfold searchStep at h
  cases hstack : s.stack with
  | nil => rfl
  | cons p rest =>
    rw [hstack] at h
    dsimp only at h
    cases hchild : (g.succ p.1)[p.2]? with
    | none =>
      rw [hchild] at h
      cases h
    | some child =>
      rw [hchild] at h
      dsimp only at h
      by_cases hold : child ∈ s.visited
      · rw [if_pos hold] at h
        cases h
      · rw [if_neg hold] at h
        cases h

end Search

/-- A search between two starts. -/
def Paused (g : Graph) (p : List Nat × List Nat) : Prop :=
  Search.Inv g { stack := [], visited := p.1, order := p.2 }

theorem Paused.visited_iff {p : List Nat × List Nat} (h : g.Paused p) (u : Nat) :
    u ∈ p.1 ↔ u ∈ p.2 := by
  rw [h.visited u]
  exact ⟨fun hu => hu.resolve_left List.not_mem_nil, .inr⟩

theorem Paused.start {p : List Nat × List Nat} (h : g.Paused p) {start : Nat}
    (hstart : start < g.length) (hnew : start ∉ p.1) :
    Search.Inv g { stack := [(start, 0)], visited := start :: p.1, order := p.2 } where
  nodup := by
    show (start :: p.2).Nodup
    exact List.nodup_cons.mpr ⟨fun hmem => hnew ((h.visited_iff start).mpr hmem), h.nodup⟩
  visited u := by
    show u ∈ start :: p.1 ↔ u ∈ [start] ∨ u ∈ p.2
    rw [List.mem_cons, List.mem_singleton, h.visited_iff]
  inRange u hu := by
    rcases List.mem_cons.mp hu with rfl | hu
    · exact hstart
    · exact h.inRange u hu
  chain := List.pairwise_singleton _ _
  children q hq i hi := by
    rw [List.mem_singleton.mp hq] at hi
    exact absurd hi (Nat.not_lt_zero i)
  closed u hu v hv := List.mem_cons_of_mem _ (h.closed u hu v hv)
  finished u hu v huv := by
    obtain ⟨w, huw, hwu, hw⟩ := h.finished u hu v huv
    exact ⟨w, huw, hwu, .inr (hw.resolve_left List.not_mem_nil)⟩

/-- A search from one start visits it, and is paused after it. -/
theorem pushPostorder_spec (hg : g.Closed) {visited order : List Nat} (h : g.Paused (visited, order))
    {start : Nat} (hstart : start < g.length) (hnew : start ∉ visited) :
    g.Paused (g.pushPostorder start visited order) ∧
      ∀ u ∈ start :: visited, u ∈ (g.pushPostorder start visited order).1 := by
  let s₀ : Search := { stack := [(start, 0)], visited := start :: visited, order }
  have hfuel : s₀.measure g ≤ g.rounds := by
    have hopen := openRounds_cons hstart hnew
    have hle := openRounds_le g visited
    show g.openRounds (start :: visited) + ((g.succ start).length - 0 + 1 + 0) ≤ g.rounds
    omega
  have hstep : ∀ s s', (s.Inv g ∧ ∀ u ∈ start :: visited, u ∈ s.visited) →
      g.searchStep s = some s' →
        (s'.Inv g ∧ ∀ u ∈ start :: visited, u ∈ s'.visited) ∧ s'.measure g < s.measure g := by
    rintro s s' ⟨hs, hold⟩ hnext
    obtain ⟨hs', hlt⟩ := hs.step hg hnext
    exact ⟨⟨hs', fun u hu => Search.visited_mono hnext u (hold u hu)⟩, hlt⟩
  obtain ⟨⟨hinv, hold⟩, hnone⟩ :=
    whileSome_spec hstep g.rounds s₀ ⟨h.start hstart hnew, fun _ hu => hu⟩ hfuel
  have hstack := Search.stack_nil hnone
  refine ⟨?_, hold⟩
  show Search.Inv g { stack := [], visited := _, order := _ }
  rw [← hstack]
  exact hinv

/-- What a finishing order says: every node is finished once, and what it
reaches is finished no later than a node of its component. -/
structure IsPostorder (g : Graph) (order : List Nat) : Prop where
  nodup : order.Nodup
  mem : ∀ u, u ∈ order ↔ u < g.length
  finished : ∀ u v, u < g.length → g.Reach u v →
    ∃ w, g.Reach u w ∧ g.Reach w u ∧ Finished order v w

theorem pushAll_spec (hg : g.Closed) (starts : List Nat) : ∀ p : List Nat × List Nat, g.Paused p →
    (∀ u ∈ starts, u < g.length) →
    let q := starts.foldl (fun (p : List Nat × List Nat) start =>
      if start ∈ p.1 then p else g.pushPostorder start p.1 p.2) p
    g.Paused q ∧ ∀ u, u ∈ p.1 ∨ u ∈ starts → u ∈ q.1 := by
  induction starts with
  | nil => exact fun p hp _ => ⟨hp, fun u hu => hu.resolve_right List.not_mem_nil⟩
  | cons start starts ih =>
    intro p hp hlt
    have hrest : ∀ u ∈ starts, u < g.length := fun u hu => hlt u (List.mem_cons_of_mem _ hu)
    rw [List.foldl_cons]
    by_cases hold : start ∈ p.1
    · rw [if_pos hold]
      obtain ⟨hq, hmem⟩ := ih p hp hrest
      refine ⟨hq, fun u hu => hmem u ?_⟩
      rcases hu with hu | hu
      · exact .inl hu
      · rcases List.mem_cons.mp hu with rfl | hu
        · exact .inl hold
        · exact .inr hu
    · rw [if_neg hold]
      obtain ⟨hpush, hvisited⟩ := pushPostorder_spec hg hp (hlt start List.mem_cons_self) hold
      obtain ⟨hq, hmem⟩ := ih _ hpush hrest
      refine ⟨hq, fun u hu => hmem u ?_⟩
      rcases hu with hu | hu
      · exact .inl (hvisited u (List.mem_cons_of_mem _ hu))
      · rcases List.mem_cons.mp hu with rfl | hu
        · exact .inl (hvisited u List.mem_cons_self)
        · exact .inr hu

theorem paused_nil (g : Graph) : g.Paused ([], []) where
  nodup := List.nodup_nil
  visited u := ⟨fun hu => absurd hu List.not_mem_nil, fun hu => hu.elim id id⟩
  inRange u hu := absurd hu List.not_mem_nil
  chain := .nil
  children p hp := absurd hp List.not_mem_nil
  closed u hu := absurd hu List.not_mem_nil
  finished u hu := absurd hu List.not_mem_nil

/-- **The first pass** finishes every node, after what it reaches outside its
component. -/
theorem postorder_spec (hg : g.Closed) : g.IsPostorder g.postorder := by
  obtain ⟨hpaused, hmem⟩ := pushAll_spec hg (List.range g.length) ([], []) (paused_nil g)
    fun u hu => List.mem_range.mp hu
  refine ⟨hpaused.nodup, fun u => ⟨fun hu => ?_, fun hu => ?_⟩, fun u v hu huv => ?_⟩
  · exact hpaused.inRange u ((hpaused.visited_iff u).mpr hu)
  · exact (hpaused.visited_iff u).mp (hmem u (.inr (List.mem_range.mpr hu)))
  · have horder := (hpaused.visited_iff u).mp (hmem u (.inr (List.mem_range.mpr hu)))
    obtain ⟨w, huw, hwu, hw⟩ := hpaused.finished u horder v huv
    exact ⟨w, huw, hwu, hw.resolve_left List.not_mem_nil⟩

/-! ### Collecting what is reached -/

/-- Reaching around the nodes of `avoid`. -/
abbrev ReachAround (g : Graph) (avoid : List Nat) : Nat → Nat → Prop :=
  Relation.ReflTransGen fun u v => g.Edge u v ∧ v ∉ avoid

namespace Collection

/-- The rounds a collection still takes: the nodes not assigned, and those to
look at. -/
def measure (g : Graph) (c : Collection) : Nat :=
  ((Finset.range g.length).filter (· ∉ c.assigned)).card + c.stack.length

/-- The invariant of a collection, between the successors of a node. -/
structure Partial (g : Graph) (start : Nat) (avoid : List Nat) (c : Collection) : Prop where
  start_mem : start ∈ c.assigned
  assigned : ∀ u, u ∈ c.assigned ↔ u ∈ avoid ∨ u ∈ c.component ∨ u ∈ c.stack
  fresh : ∀ u, u ∈ c.component ∨ u ∈ c.stack → u ∉ avoid
  reach : ∀ u, u ∈ c.component ∨ u ∈ c.stack → g.ReachAround avoid start u
  nodup : (c.component ++ c.stack).Nodup

/-- The invariant of a collection. -/
structure Inv (g : Graph) (start : Nat) (avoid : List Nat) (c : Collection) : Prop
    extends c.Partial g start avoid where
  closed : ∀ u ∈ c.component, ∀ v ∈ g.succ u, v ∈ c.assigned

variable {start : Nat} {avoid : List Nat} {c : Collection}

theorem measure_push {child : Nat} (hchild : child < g.length) (hnew : child ∉ c.assigned) :
    measure g { c with stack := child :: c.stack, assigned := child :: c.assigned } =
      measure g c := by
  have herase : (Finset.range g.length).filter (· ∉ child :: c.assigned) =
      ((Finset.range g.length).filter (· ∉ c.assigned)).erase child := by
    ext w
    simp only [Finset.mem_filter, Finset.mem_erase, List.mem_cons]
    tauto
  have hmem : child ∈ (Finset.range g.length).filter (· ∉ c.assigned) :=
    Finset.mem_filter.mpr ⟨Finset.mem_range.mpr hchild, hnew⟩
  have hcard := Finset.card_erase_add_one hmem
  unfold measure
  rw [herase]
  simp only [List.length_cons]
  omega

theorem Partial.push (h : c.Partial g start avoid) {child : Nat} (hnew : child ∉ c.assigned)
    (hreach : child ∉ avoid → g.ReachAround avoid start child) :
    Partial g start avoid
      { c with stack := child :: c.stack, assigned := child :: c.assigned } := by
  have havoid : child ∉ avoid := fun hmem => hnew ((h.assigned child).mpr (.inl hmem))
  refine ⟨List.mem_cons_of_mem _ h.start_mem, fun u => ?_, fun u hu => ?_, fun u hu => ?_, ?_⟩
  · simp only [List.mem_cons, h.assigned]
    tauto
  · rcases hu with hu | hu
    · exact h.fresh u (.inl hu)
    · rcases List.mem_cons.mp hu with rfl | hu
      · exact havoid
      · exact h.fresh u (.inr hu)
  · rcases hu with hu | hu
    · exact h.reach u (.inl hu)
    · rcases List.mem_cons.mp hu with rfl | hu
      · exact hreach havoid
      · exact h.reach u (.inr hu)
  · show (c.component ++ child :: c.stack).Nodup
    rw [List.nodup_middle, List.nodup_cons]
    refine ⟨fun hmem => hnew ?_, h.nodup⟩
    exact (h.assigned child).mpr (.inr (List.mem_append.mp hmem))

/-- What the successors of a node add. -/
theorem collectChildren_spec (children : List Nat) : ∀ c : Collection, c.Partial g start avoid →
    (∀ v ∈ children, v < g.length) →
    (∀ v ∈ children, v ∉ avoid → g.ReachAround avoid start v) →
    let c' := collectChildren c children
    c'.Partial g start avoid ∧ c'.component = c.component ∧
      (∀ u, u ∈ c.assigned ∨ u ∈ children → u ∈ c'.assigned) ∧ c'.measure g = c.measure g := by
  induction children with
  | nil => exact fun c hc _ _ => ⟨hc, rfl, fun u hu => hu.resolve_right List.not_mem_nil, rfl⟩
  | cons child children ih =>
    intro c hc hlt hreach
    have hlt' : ∀ v ∈ children, v < g.length := fun v hv => hlt v (List.mem_cons_of_mem _ hv)
    have hreach' : ∀ v ∈ children, v ∉ avoid → g.ReachAround avoid start v :=
      fun v hv => hreach v (List.mem_cons_of_mem _ hv)
    unfold collectChildren
    rw [List.foldl_cons]
    by_cases hold : child ∈ c.assigned
    · rw [if_pos hold]
      obtain ⟨hc', hcomponent, hmem, hmeasure⟩ := ih c hc hlt' hreach'
      refine ⟨hc', hcomponent, fun u hu => hmem u ?_, hmeasure⟩
      rcases hu with hu | hu
      · exact .inl hu
      · rcases List.mem_cons.mp hu with rfl | hu
        · exact .inl hold
        · exact .inr hu
    · rw [if_neg hold]
      have hpush := hc.push hold (hreach child List.mem_cons_self)
      obtain ⟨hc', hcomponent, hmem, hmeasure⟩ := ih _ hpush hlt' hreach'
      refine ⟨hc', hcomponent, fun u hu => hmem u ?_, ?_⟩
      · rcases hu with hu | hu
        · exact .inl (List.mem_cons_of_mem _ hu)
        · rcases List.mem_cons.mp hu with rfl | hu
          · exact .inl List.mem_cons_self
          · exact .inr hu
      · exact hmeasure.trans (measure_push (hlt child List.mem_cons_self) hold)

theorem Inv.step (hg : g.Closed) {c' : Collection} (hc : c.Inv g start avoid)
    (h : g.collectStep c = some c') : c'.Inv g start avoid ∧ c'.measure g < c.measure g := by
  unfold collectStep at h
  cases hstack : c.stack with
  | nil =>
    rw [hstack] at h
    cases h
  | cons node rest =>
    rw [hstack] at h
    obtain rfl := Option.some.inj h
    let d : Collection := { c with stack := rest, component := c.component ++ [node] }
    have hnode : node ∈ c.stack := by
      rw [hstack]
      exact List.mem_cons_self
    have hd : d.Partial g start avoid := by
      have hmem : ∀ u, (u ∈ d.component ∨ u ∈ d.stack) ↔ (u ∈ c.component ∨ u ∈ c.stack) := by
        intro u
        show u ∈ c.component ++ [node] ∨ u ∈ rest ↔ _
        rw [hstack, List.mem_append, List.mem_singleton, List.mem_cons, or_assoc]
      refine ⟨hc.start_mem, fun u => ?_, fun u hu => hc.fresh u ((hmem u).mp hu),
        fun u hu => hc.reach u ((hmem u).mp hu), ?_⟩
      · rw [hmem]
        exact hc.assigned u
      · show (c.component ++ [node] ++ rest).Nodup
        have hnodup := hc.nodup
        rwa [hstack, ← List.singleton_append, ← List.append_assoc] at hnodup
    have hedges : ∀ v ∈ g.succ node, v ∉ avoid → g.ReachAround avoid start v :=
      fun v hv havoid => (hc.reach node (.inr hnode)).tail ⟨hv, havoid⟩
    obtain ⟨hcollected, hcomponent, hmem, hmeasure⟩ :=
      collectChildren_spec (g.succ node) d hd (fun v hv => hg node v hv) hedges
    refine ⟨⟨hcollected, fun u hu v hv => ?_⟩, ?_⟩
    · rw [hcomponent] at hu
      rcases List.mem_append.mp hu with hu | hu
      · exact hmem v (.inl (hc.closed u hu v hv))
      · rw [List.mem_singleton.mp hu] at hv
        exact hmem v (.inr hv)
    · refine hmeasure.trans_lt ?_
      unfold measure
      rw [hstack, List.length_cons]
      exact Nat.lt_succ_self _

end Collection

/-- **A collection** is what its start reaches around the nodes assigned
before. -/
theorem collectComponent_spec (hg : g.Closed) {start : Nat} {assigned : List Nat}
    (hstart : start < g.length) (hnew : start ∉ assigned) :
    let p := g.collectComponent start assigned
    (∀ u, u ∈ p.1 ↔ u ∈ assigned ∨ u ∈ p.2) ∧ p.2.Nodup ∧ (∀ u ∈ p.2, u ∉ assigned) ∧
      ∀ u, u ∈ p.2 ↔ g.ReachAround assigned start u := by
  let c₀ : Collection := { stack := [start], assigned := start :: assigned, component := [] }
  have hinv : c₀.Inv g start assigned := by
    refine ⟨⟨List.mem_cons_self, fun u => ?_, fun u hu => ?_, fun u hu => ?_,
      List.nodup_singleton _⟩, nofun⟩
    · show u ∈ start :: assigned ↔ u ∈ assigned ∨ u ∈ [] ∨ u ∈ [start]
      simp only [List.mem_cons, List.not_mem_nil]
      tauto
    · rw [List.mem_singleton.mp (hu.resolve_left List.not_mem_nil)]
      exact hnew
    · rw [List.mem_singleton.mp (hu.resolve_left List.not_mem_nil)]
  have hfuel : c₀.measure g ≤ g.length := by
    have hpush := Collection.measure_push (c := { stack := [], assigned, component := [] })
      hstart hnew
    refine (le_of_eq hpush).trans ?_
    show ((Finset.range g.length).filter _).card + 0 ≤ g.length
    calc ((Finset.range g.length).filter _).card ≤ (Finset.range g.length).card :=
          Finset.card_filter_le _ _
      _ = g.length := Finset.card_range _
  obtain ⟨hend, hnone⟩ := whileSome_spec (fun c c' hc h => hc.step hg h) g.length c₀ hinv hfuel
  generalize hc : whileSome g.collectStep g.length c₀ = c at hend hnone
  have hp : g.collectComponent start assigned = (c.assigned, c.component) := by
    rw [← hc]
    rfl
  rw [hp]
  have hstack : c.stack = [] := by
    unfold collectStep at hnone
    cases hs : c.stack with
    | nil => rfl
    | cons node rest =>
      rw [hs] at hnone
      cases hnone
  have hassigned : ∀ u, u ∈ c.assigned ↔ u ∈ assigned ∨ u ∈ c.component := by
    intro u
    rw [hend.assigned, hstack]
    simp only [List.not_mem_nil, or_false]
  refine ⟨hassigned, ?_, fun u hu => hend.fresh u (.inl hu), fun u => ⟨fun hu =>
    hend.reach u (.inl hu), fun hu => ?_⟩⟩
  · have hnodup := hend.nodup
    rwa [hstack, List.append_nil] at hnodup
  · induction hu with
    | refl => exact ((hassigned start).mp hend.start_mem).resolve_left hnew
    | @tail u v _ huv ih => exact ((hassigned v).mp (hend.closed u ih v huv.1)).resolve_left huv.2

/-! ### The reverse graph -/

theorem Edge.lt_length {u v : Nat} (h : g.Edge u v) : u < g.length := by
  by_contra hge
  unfold Edge succ at h
  rw [List.getD_eq_getElem?_getD, List.getElem?_eq_none (Nat.le_of_not_lt hge)] at h
  cases h

theorem edge_modify (r : Graph) (source target : Nat) (u v : Nat) (htarget : target < r.length) :
    Edge (r.modify target (· ++ [source])) u v ↔ r.Edge u v ∨ (u = target ∧ v = source) := by
  unfold Edge succ
  rw [List.getD_eq_getElem?_getD, List.getD_eq_getElem?_getD, List.getElem?_modify]
  by_cases hu : target = u
  · subst hu
    rw [List.getElem?_eq_getElem htarget]
    simp
  · simp [hu, Ne.symm hu]

theorem length_reverseTargets (source : Nat) (targets : List Nat) : ∀ r : Graph,
    (targets.foldl (fun (r : Graph) target => r.modify target (· ++ [source])) r).length =
      r.length := by
  induction targets with
  | nil => exact fun _ => rfl
  | cons target targets ih =>
    intro r
    rw [List.foldl_cons, ih, List.length_modify]

theorem edge_reverseTargets (source : Nat) (targets : List Nat) : ∀ r : Graph,
    (∀ target ∈ targets, target < r.length) → ∀ u v,
      Edge (targets.foldl (fun (r : Graph) target => r.modify target (· ++ [source])) r) u v ↔
        r.Edge u v ∨ (u ∈ targets ∧ v = source) := by
  induction targets with
  | nil => simp
  | cons target targets ih =>
    intro r hlt u v
    rw [List.foldl_cons, ih, edge_modify _ _ _ _ _ (hlt target List.mem_cons_self), List.mem_cons]
    · tauto
    · intro t ht
      rw [List.length_modify]
      exact hlt t (List.mem_cons_of_mem _ ht)

theorem reverseFrom_spec (nodes : List (List Nat × Nat)) : ∀ r : Graph,
    (∀ p ∈ nodes, ∀ target ∈ p.1, target < r.length) →
    let r' := nodes.foldl (fun (reverse : Graph) p =>
      p.1.foldl (fun (reverse : Graph) target => reverse.modify target (· ++ [p.2])) reverse) r
    r'.length = r.length ∧ ∀ u v, r'.Edge u v ↔ r.Edge u v ∨ ∃ p ∈ nodes, u ∈ p.1 ∧ v = p.2 := by
  induction nodes with
  | nil => simp
  | cons p nodes ih =>
    intro r hlt
    rw [List.foldl_cons]
    have hlen := length_reverseTargets p.2 p.1 r
    obtain ⟨hlen', hedge⟩ := ih (p.1.foldl (fun (reverse : Graph) target =>
      reverse.modify target (· ++ [p.2])) r) fun q hq t ht => by
        rw [hlen]
        exact hlt q (List.mem_cons_of_mem _ hq) t ht
    refine ⟨hlen'.trans hlen, fun u v => ?_⟩
    rw [hedge, edge_reverseTargets p.2 p.1 r (hlt p List.mem_cons_self), List.exists_mem_cons_iff,
      or_assoc]

theorem reverseGraph_spec (hg : g.Closed) :
    g.reverseGraph.length = g.length ∧ ∀ u v, g.reverseGraph.Edge u v ↔ g.Edge v u := by
  have hnodes : ∀ p ∈ g.zipIdx, p.1 = g.succ p.2 := by
    intro p hp
    have hget := List.mem_zipIdx_iff_getElem?.mp hp
    unfold succ
    rw [List.getD_eq_getElem?_getD, hget]
    rfl
  obtain ⟨hlen, hedge⟩ := reverseFrom_spec g.zipIdx (List.replicate g.length []) fun p hp t ht => by
    rw [hnodes p hp] at ht
    rw [List.length_replicate]
    exact hg _ _ ht
  refine ⟨hlen.trans List.length_replicate, fun u v => ?_⟩
  show Edge (g.zipIdx.foldl _ _) u v ↔ _
  rw [hedge]
  constructor
  · rintro (hempty | ⟨p, hp, hu, rfl⟩)
    · unfold Edge succ at hempty
      rw [List.getD_eq_getElem?_getD, List.getElem?_replicate] at hempty
      by_cases hlt : u < g.length
      · rw [if_pos hlt] at hempty
        cases hempty
      · rw [if_neg hlt] at hempty
        cases hempty
    · rwa [hnodes p hp] at hu
  · intro hvu
    have hv : v < g.length := hvu.lt_length
    refine .inr ⟨(g.succ v, v), ?_, hvu, rfl⟩
    rw [List.mem_zipIdx_iff_getElem?]
    unfold succ
    rw [List.getD_eq_getElem?_getD, List.getElem?_eq_getElem hv]
    rfl

theorem reach_reverse (hg : g.Closed) {u v : Nat} (h : g.reverseGraph.Reach u v) : g.Reach v u := by
  induction h with
  | refl => exact .refl
  | tail _ hedge ih => exact .head (((reverseGraph_spec hg).2 _ _).mp hedge) ih

/-! ### Components -/

/-- The nodes are in one component. -/
def Connected (g : Graph) (u v : Nat) : Prop := g.Reach u v ∧ g.Reach v u

/-- Every node finished later than this one stands before it in the order from
last to first. -/
theorem Finished.mem_done {order done todo : List Nat} {start w : Nat} (hnodup : order.Nodup)
    (hsplit : order.reverse = done ++ start :: todo) (h : Finished order start w) (hne : start ≠ w) :
    w ∈ done := by
  obtain ⟨before, after, rfl, hstart⟩ := h
  obtain ⟨b₁, b₂, hb⟩ := List.append_of_mem (List.mem_reverse.mpr (hstart.resolve_right hne))
  have hreverse : (before ++ w :: after).reverse = (after.reverse ++ w :: b₁) ++ start :: b₂ := by
    rw [List.reverse_append, List.reverse_cons, hb]
    simp
  have hnodup' := List.nodup_reverse.mpr hnodup
  rw [hreverse, List.nodup_middle, List.nodup_cons, List.mem_append, not_or] at hnodup'
  rw [hreverse, List.append_cons_inj_of_notMem hnodup'.1.1 hnodup'.1.2] at hsplit
  rw [← hsplit.1]
  exact List.mem_append_right _ List.mem_cons_self

/-- **The component of a node** is what the second pass collects from it, once
the components of the nodes finished later are assigned. -/
theorem component_iff (hg : g.Closed) {order : List Nat} (horder : g.IsPostorder order)
    {done todo : List Nat} {start : Nat} (hsplit : order.reverse = done ++ start :: todo)
    {assigned : List Nat} (hdone : ∀ u ∈ done, u ∈ assigned)
    (hwhole : ∀ u v, u ∈ assigned → g.Connected u v → v ∈ assigned) (hnew : start ∉ assigned)
    (u : Nat) : g.reverseGraph.ReachAround assigned start u ↔ g.Connected start u := by
  constructor
  · intro h
    have hfresh : u ∉ assigned := by
      cases h with
      | refl => exact hnew
      | tail _ hedge => exact hedge.2
    have hedges : (fun u v => g.reverseGraph.Edge u v ∧ v ∉ assigned) ≤ g.reverseGraph.Edge :=
      fun _ _ h => h.1
    have hreach : g.Reach u start := reach_reverse hg (Relation.ReflTransGen.mono hedges _ _ h)
    have hstart : start < g.length := by
      rw [← horder.mem, ← List.mem_reverse, hsplit]
      exact List.mem_append_right _ List.mem_cons_self
    have hu : u < g.length := by
      rcases hreach.cases_head with rfl | ⟨v, huv, -⟩
      · exact hstart
      · exact huv.lt_length
    obtain ⟨w, huw, hwu, hw⟩ := horder.finished u start hu hreach
    by_cases hne : start = w
    · rw [hne]
      exact ⟨hwu, huw⟩
    · have hassigned := hdone w (hw.mem_done horder.nodup hsplit hne)
      exact absurd (hwhole w u hassigned ⟨hwu, huw⟩) hfresh
  · rintro ⟨hto, hfrom⟩
    induction hfrom using Relation.ReflTransGen.head_induction_on with
    | refl => exact .refl
    | @head u v huv hv ih =>
      refine (ih (hto.tail huv)).tail ⟨((reverseGraph_spec hg).2 _ _).mpr huv, fun hmem => hnew ?_⟩
      exact hwhole u start hmem ⟨hv.head huv, hto⟩

/-- A component is a cycle when its nodes lie on cycles. -/
theorem isCycle_iff {component : List Nat} (hnodup : component.Nodup) {start : Nat}
    (hcomponent : ∀ u, u ∈ component ↔ g.Connected start u) {u : Nat} (hu : u ∈ component) :
    g.isCycle component = true ↔ g.OnCycle u := by
  have hconnected : ∀ v ∈ component, g.Reach u v ∧ g.Reach v u := fun v hv =>
    ⟨((hcomponent u).mp hu).2.trans ((hcomponent v).mp hv).1,
      ((hcomponent v).mp hv).2.trans ((hcomponent u).mp hu).1⟩
  unfold isCycle OnCycle
  rw [Bool.or_eq_true, decide_eq_true_iff, List.any_eq_true]
  constructor
  · rintro (hlen | ⟨v, hv, hloop⟩)
    · obtain ⟨v, hv, hne⟩ : ∃ v ∈ component, v ≠ u := by
        by_contra hall
        push Not at hall
        have hsub : component ⊆ [u] := fun v hv => List.mem_singleton.mpr (hall v hv)
        have hle := (hnodup.subperm hsub).length_le
        rw [List.length_singleton] at hle
        omega
      obtain ⟨huv, hvu⟩ := hconnected v hv
      rcases Relation.reflTransGen_iff_eq_or_transGen.mp huv with heq | htrans
      · exact absurd heq hne
      · exact htrans.trans_left hvu
    · obtain ⟨huv, hvu⟩ := hconnected v hv
      have hedge : g.Edge v v := of_decide_eq_true (p := v ∈ g.succ v) hloop
      exact (Relation.TransGen.tail' huv hedge).trans_left hvu
  · intro hcycle
    obtain ⟨v, huv, hvu⟩ := Relation.TransGen.head'_iff.mp hcycle
    have hv : v ∈ component := by
      rw [hcomponent]
      exact ⟨((hcomponent u).mp hu).1.tail huv, hvu.trans ((hcomponent u).mp hu).2⟩
    by_cases hne : v = u
    · subst hne
      exact .inr ⟨v, hv, decide_eq_true (p := v ∈ g.succ v) huv⟩
    · have hpair : [v, u].Nodup := List.nodup_cons.mpr
        ⟨fun hmem => hne (List.mem_singleton.mp hmem), List.nodup_singleton u⟩
      have hsub : [v, u] ⊆ component := by
        intro w hw
        rcases List.mem_pair.mp hw with rfl | rfl
        · exact hv
        · exact hu
      exact .inl (hpair.subperm hsub).length_le

/-! ### The nodes on cycles -/

/-- Between two starts of the second pass: whole components are assigned, and
those of their nodes are marked that lie on cycles. -/
structure Assigned (g : Graph) (done : List Nat) (p : List Nat × List Nat) : Prop where
  done : ∀ u ∈ done, u ∈ p.1
  whole : ∀ u v, u ∈ p.1 → g.Connected u v → v ∈ p.1
  cyclic : ∀ u, u ∈ p.2 ↔ u ∈ p.1 ∧ g.OnCycle u

theorem Assigned.step (hg : g.Closed) {order : List Nat} (horder : g.IsPostorder order)
    {done todo : List Nat} {start : Nat} (hsplit : order.reverse = done ++ start :: todo)
    {p : List Nat × List Nat} (hp : g.Assigned done p) (hnew : start ∉ p.1) :
    let (assigned, component) := g.reverseGraph.collectComponent start p.1
    g.Assigned (done ++ [start])
      (assigned, if g.isCycle component then p.2 ++ component else p.2) := by
  obtain ⟨hlen, hedge⟩ := reverseGraph_spec hg
  have hclosed : g.reverseGraph.Closed := by
    intro u v huv
    rw [hlen]
    exact ((hedge u v).mp huv).lt_length
  have hstart : start < g.reverseGraph.length := by
    rw [hlen, ← horder.mem, ← List.mem_reverse, hsplit]
    exact List.mem_append_right _ List.mem_cons_self
  have hspec := collectComponent_spec hclosed hstart hnew
  generalize g.reverseGraph.collectComponent start p.1 = q at hspec
  obtain ⟨assigned, component⟩ := q
  obtain ⟨hassigned, hnodup, hfresh, hreach⟩ := hspec
  have hcomponent : ∀ u, u ∈ component ↔ g.Connected start u := fun u =>
    (hreach u).trans (component_iff hg horder hsplit hp.done hp.whole hnew u)
  have hself : start ∈ component := (hcomponent start).mpr ⟨.refl, .refl⟩
  refine ⟨fun u hu => ?_, fun u v hu huv => ?_, fun u => ?_⟩
  · rcases List.mem_append.mp hu with hu | hu
    · exact (hassigned u).mpr (.inl (hp.done u hu))
    · rw [List.mem_singleton.mp hu]
      exact (hassigned start).mpr (.inr hself)
  · rw [hassigned] at hu ⊢
    rcases hu with hu | hu
    · exact .inl (hp.whole u v hu huv)
    · have hsu := (hcomponent u).mp hu
      exact .inr ((hcomponent v).mpr ⟨hsu.1.trans huv.1, huv.2.trans hsu.2⟩)
  · show u ∈ (if g.isCycle component then p.2 ++ component else p.2) ↔ u ∈ assigned ∧ g.OnCycle u
    rw [hassigned]
    by_cases hcycle : g.isCycle component = true
    · rw [if_pos hcycle, List.mem_append, hp.cyclic]
      constructor
      · rintro (⟨hu, hon⟩ | hu)
        · exact ⟨.inl hu, hon⟩
        · exact ⟨.inr hu, (isCycle_iff hnodup hcomponent hu).mp hcycle⟩
      · rintro ⟨hu | hu, hon⟩
        · exact .inl ⟨hu, hon⟩
        · exact .inr hu
    · rw [if_neg hcycle, hp.cyclic]
      constructor
      · rintro ⟨hu, hon⟩
        exact ⟨.inl hu, hon⟩
      · rintro ⟨hu | hu, hon⟩
        · exact ⟨hu, hon⟩
        · exact absurd ((isCycle_iff hnodup hcomponent hu).mpr hon) hcycle

theorem assignAll_spec (hg : g.Closed) {order : List Nat} (horder : g.IsPostorder order)
    (todo : List Nat) : ∀ (done : List Nat) (p : List Nat × List Nat),
    order.reverse = done ++ todo → g.Assigned done p →
    g.Assigned order.reverse (todo.foldl (fun (p : List Nat × List Nat) start =>
      if start ∈ p.1 then p
      else
        let (assigned, component) := g.reverseGraph.collectComponent start p.1
        (assigned, if g.isCycle component then p.2 ++ component else p.2)) p) := by
  induction todo with
  | nil =>
    intro done p hsplit hp
    rw [hsplit, List.append_nil]
    exact hp
  | cons start todo ih =>
    intro done p hsplit hp
    rw [List.foldl_cons]
    have hsplit' : order.reverse = (done ++ [start]) ++ todo := by rw [hsplit, List.append_assoc]; rfl
    by_cases hold : start ∈ p.1
    · rw [if_pos hold]
      refine ih (done ++ [start]) p hsplit' ⟨fun u hu => ?_, hp.whole, hp.cyclic⟩
      rcases List.mem_append.mp hu with hu | hu
      · exact hp.done u hu
      · rwa [List.mem_singleton.mp hu]
    · rw [if_neg hold]
      exact ih (done ++ [start]) _ hsplit' (hp.step hg horder hsplit hold)

/-- **The two passes mark exactly the nodes on cycles.** -/
theorem cyclicNodes_iff (hg : g.Closed) (u : Nat) : u ∈ g.cyclicNodes ↔ g.OnCycle u := by
  have horder := postorder_spec hg
  have hspec := assignAll_spec hg horder g.postorder.reverse [] ([], []) rfl
    ⟨nofun, nofun, fun u => ⟨nofun, fun h => absurd h.1 List.not_mem_nil⟩⟩
  show u ∈ (g.postorder.reverse.foldl _ ([], [])).2 ↔ _
  rw [hspec.cyclic]
  refine ⟨And.right, fun hon => ⟨hspec.done u ?_, hon⟩⟩
  rw [List.mem_reverse, horder.mem]
  obtain ⟨v, huv, -⟩ := Relation.TransGen.head'_iff.mp hon
  exact huv.lt_length

end Graph

end Wqpl
