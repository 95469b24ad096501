/-
# What an edit leaves alone

A text and the text before the edit agree in their first and their last bytes;
what is between is dirty (`computeDirtyByteRange`). The statements of the tree of
the old text are kept by their offsets, and an offset in the new text is moved back
to the old one unless it is dirty. The bytes are compared one by one, and the edit may
begin or end inside a character. Still the text of a statement that lies outside
the edit stands in the new text, between two characters, at the offset from which it is
found (`candidate_unedited`).

Key definitions: `computeDirtyByteRange`, `ReusePlan`.
-/
import Wqpl.Cst.Red
import Wqpl.Utf8

namespace Wqpl
namespace Cst

/-! ### The dirty bytes -/

structure DirtyByteRange where
  oldStart : Nat
  oldEnd : Nat
  newStart : Nat
  newEnd : Nat
deriving DecidableEq, Repr

/-- The loop over the first bytes. -/
def commonPrefix : List UInt8 → List UInt8 → Nat
  | [], _ => 0
  | _, [] => 0
  | a :: old, b :: new => if a = b then commonPrefix old new + 1 else 0

section Bytes

variable (old new : List UInt8)

/-- The loop over the last bytes, which stops in front of the first ones. -/
def commonSuffix (start : Nat) : Nat → Nat → Nat × Nat
  | 0, newEnd => (0, newEnd)
  | oldEnd + 1, newEnd =>
    if start < oldEnd + 1 ∧ start < newEnd ∧ old[oldEnd]? = new[newEnd - 1]? then
      commonSuffix start oldEnd (newEnd - 1)
    else (oldEnd + 1, newEnd)

end Bytes

def computeDirtyByteRange (old new : List Char) : DirtyByteRange :=
  let oldBytes := Text.bytes old
  let newBytes := Text.bytes new
  let start := commonPrefix oldBytes newBytes
  let stops := commonSuffix oldBytes newBytes start oldBytes.length newBytes.length
  ⟨start, stops.1, start, stops.2⟩

/-- Bytes that are the same up to a range in each. -/
structure AgreeAround (old new : List UInt8) (d : DirtyByteRange) : Prop where
  start_eq : d.oldStart = d.newStart
  start_le_old : d.oldStart ≤ d.oldEnd
  start_le_new : d.newStart ≤ d.newEnd
  old_le : d.oldEnd ≤ old.length
  new_le : d.newEnd ≤ new.length
  first : old.take d.oldStart = new.take d.newStart
  last : old.drop d.oldEnd = new.drop d.newEnd

section Bytes

variable {old new : List UInt8}

theorem commonPrefix_spec : ∀ old new : List UInt8,
    commonPrefix old new ≤ old.length ∧ commonPrefix old new ≤ new.length ∧
      old.take (commonPrefix old new) = new.take (commonPrefix old new) ∧
      (commonPrefix old new < old.length → commonPrefix old new < new.length →
        old[commonPrefix old new]? ≠ new[commonPrefix old new]?)
  | [], new => by simp [commonPrefix]
  | a :: old, [] => by simp [commonPrefix]
  | a :: old, b :: new => by
    rw [commonPrefix]
    by_cases hab : a = b
    · obtain ⟨hold, hnew, htake, hnext⟩ := commonPrefix_spec old new
      rw [if_pos hab]
      refine ⟨by simpa using hold, by simpa using hnew, ?_, fun hlt hlt' => ?_⟩
      · rw [List.take_succ_cons, List.take_succ_cons, htake, hab]
      · rw [List.getElem?_cons_succ, List.getElem?_cons_succ]
        exact hnext (by simpa using hlt) (by simpa using hlt')
    · rw [if_neg hab]
      simpa using hab

/-- The last bytes that the loop has passed are the same; it stops at different ones. -/
theorem commonSuffix_spec (start : Nat) : ∀ oldEnd newEnd : Nat,
    start ≤ oldEnd → start ≤ newEnd → oldEnd ≤ old.length → newEnd ≤ new.length →
    old.drop oldEnd = new.drop newEnd →
    let stops := commonSuffix old new start oldEnd newEnd
    start ≤ stops.1 ∧ start ≤ stops.2 ∧ stops.1 ≤ oldEnd ∧ stops.2 ≤ newEnd ∧
      old.drop stops.1 = new.drop stops.2 ∧
      (start < stops.1 → start < stops.2 → old[stops.1 - 1]? ≠ new[stops.2 - 1]?)
  | 0, newEnd, hold, hnew, _, _, hdrop => by
    rw [commonSuffix]
    exact ⟨hold, hnew, Nat.le_refl _, Nat.le_refl _, hdrop, fun h => absurd h (by simp)⟩
  | oldEnd + 1, newEnd, hold, hnew, hlen, hlen', hdrop => by
    rw [commonSuffix]
    split
    · rename_i hgo
      obtain ⟨hlt, hlt', hbyte⟩ := hgo
      have hdrop' : old.drop oldEnd = new.drop (newEnd - 1) := by
        have hnewEnd : newEnd - 1 < new.length := by omega
        rw [List.getElem?_eq_getElem hlen, List.getElem?_eq_getElem hnewEnd] at hbyte
        have hstep : newEnd - 1 + 1 = newEnd := by omega
        rw [List.drop_eq_getElem_cons hlen, List.drop_eq_getElem_cons hnewEnd,
          Option.some.inj hbyte, hdrop, hstep]
      obtain ⟨h₁, h₂, h₃, h₄, h₅⟩ := commonSuffix_spec start oldEnd (newEnd - 1) (by omega)
        (by omega) (by omega) (by omega) hdrop'
      exact ⟨h₁, h₂, by omega, by omega, h₅⟩
    · rename_i hstop
      refine ⟨hold, hnew, Nat.le_refl _, Nat.le_refl _, hdrop, fun hlt hlt' hbyte => ?_⟩
      exact hstop ⟨hlt, hlt', hbyte⟩

/-- **The dirty range.** The texts agree around it, and neither its first nor its last
bytes agree as long as there are any in both. -/
theorem computeDirtyByteRange_spec (old new : List Char) :
    let d := computeDirtyByteRange old new
    AgreeAround (Text.bytes old) (Text.bytes new) d ∧
      (d.oldStart < d.oldEnd → d.newStart < d.newEnd →
        (Text.bytes old)[d.oldStart]? ≠ (Text.bytes new)[d.newStart]? ∧
        (Text.bytes old)[d.oldEnd - 1]? ≠ (Text.bytes new)[d.newEnd - 1]?) := by
  obtain ⟨hold, hnew, hfirst, hnext⟩ := commonPrefix_spec (Text.bytes old) (Text.bytes new)
  obtain ⟨h₁, h₂, h₃, h₄, hlast, hbefore⟩ := @commonSuffix_spec (Text.bytes old) (Text.bytes new)
    (commonPrefix (Text.bytes old) (Text.bytes new)) _ _ hold hnew (Nat.le_refl _) (Nat.le_refl _)
    (by rw [List.drop_length, List.drop_length])
  refine ⟨⟨rfl, h₁, h₂, h₃, h₄, hfirst, hlast⟩, fun hlt hlt' => ⟨?_, hbefore hlt hlt'⟩⟩
  exact hnext (Nat.lt_of_lt_of_le hlt h₃) (Nat.lt_of_lt_of_le hlt' h₄)

end Bytes

/-! ### Offsets -/

/-- `old_offset_for_new`. -/
def DirtyByteRange.oldOffsetForNew (d : DirtyByteRange) (newOffset : Nat) : Option Nat :=
  if newOffset < d.newStart then some newOffset
  else if newOffset < d.newEnd then none
  else
    let oldLen := d.oldEnd - d.oldStart
    let newLen := d.newEnd - d.newStart
    if oldLen ≤ newLen then
      if newOffset < newLen - oldLen then none else some (newOffset - (newLen - oldLen))
    else some (newOffset + (oldLen - newLen))

/-- An offset of the old text that the edit leaves alone, in the new text. -/
def DirtyByteRange.Moves (d : DirtyByteRange) (newOffset oldOffset : Nat) : Prop :=
  (oldOffset < d.oldStart ∧ newOffset = oldOffset) ∨
    (d.oldEnd ≤ oldOffset ∧ newOffset = oldOffset - d.oldEnd + d.newEnd)

theorem AgreeAround.oldOffsetForNew_iff {old new : List UInt8} {d : DirtyByteRange}
    (h : AgreeAround old new d) (newOffset oldOffset : Nat) :
    d.oldOffsetForNew newOffset = some oldOffset ↔ d.Moves newOffset oldOffset := by
  obtain ⟨heq, hold, hnew, -, -, -, -⟩ := h
  unfold DirtyByteRange.oldOffsetForNew DirtyByteRange.Moves
  by_cases hfirst : newOffset < d.newStart
  · rw [if_pos hfirst, Option.some_inj]
    omega
  · rw [if_neg hfirst]
    by_cases hdirty : newOffset < d.newEnd
    · rw [if_pos hdirty]
      constructor
      · intro h
        cases h
      · intro h
        omega
    · rw [if_neg hdirty]
      by_cases hlen : d.oldEnd - d.oldStart ≤ d.newEnd - d.newStart
      · dsimp only
        rw [if_pos hlen, if_neg (by omega), Option.some_inj]
        omega
      · dsimp only
        rw [if_neg hlen, Option.some_inj]
        omega

/-! ### Texts outside the edit -/

section Unedited

variable {old new text before after : List Char} {d : DirtyByteRange}

/-- A text in front of the edit stands in the new text as well. -/
theorem AgreeAround.first_text (h : AgreeAround (Text.bytes old) (Text.bytes new) d)
    (hold : old = before ++ text ++ after)
    (hstop : Text.byteLen before + Text.byteLen text ≤ d.oldStart) :
    ∃ after', new = before ++ text ++ after' := by
  have hlen : (Text.bytes (before ++ text)).length ≤ d.oldStart := by
    rw [Text.length_bytes, Text.byteLen_append]
    exact hstop
  have htake : (Text.bytes old).take (Text.bytes (before ++ text)).length =
      (Text.bytes new).take (Text.bytes (before ++ text)).length := by
    have hfirst := congrArg (List.take (Text.bytes (before ++ text)).length) h.first
    rwa [List.take_take, List.take_take, ← h.start_eq, Nat.min_eq_left hlen] at hfirst
  rw [hold, Text.bytes_append (before ++ text) after, List.take_left' rfl] at htake
  have hbytes : Text.bytes (before ++ text) ++
      (Text.bytes new).drop (Text.bytes (before ++ text)).length = Text.bytes new := by
    have happend := List.take_append_drop (Text.bytes (before ++ text)).length (Text.bytes new)
    rwa [← htake] at happend
  obtain ⟨after', hafter, -⟩ := Text.bytes_prefix hbytes
  exact ⟨after', hafter⟩

/-- A text behind the edit stands in the new text as far from its end. -/
theorem AgreeAround.last_text (h : AgreeAround (Text.bytes old) (Text.bytes new) d)
    (hold : old = before ++ text ++ after) (hstart : d.oldEnd ≤ Text.byteLen before) :
    ∃ before', new = before' ++ text ++ after ∧
      Text.byteLen before' = Text.byteLen before - d.oldEnd + d.newEnd := by
  have hdrop : (Text.bytes new).drop (Text.byteLen before - d.oldEnd + d.newEnd) =
      Text.bytes (text ++ after) := by
    have hlast := congrArg (List.drop (Text.byteLen before - d.oldEnd)) h.last
    rw [List.drop_drop, List.drop_drop, Nat.add_sub_cancel' hstart, hold, List.append_assoc,
      Text.bytes_append, List.drop_left' (Text.length_bytes before)] at hlast
    rw [Nat.add_comm, ← hlast]
  have hjoined : (Text.bytes new).take (Text.byteLen before - d.oldEnd + d.newEnd) ++
      Text.bytes (text ++ after) = Text.bytes new := by
    rw [← hdrop, List.take_append_drop]
  obtain ⟨before', hbefore, hbytes⟩ := Text.bytes_suffix hjoined
  refine ⟨before', by rw [hbefore, List.append_assoc], ?_⟩
  have hle : Text.byteLen before - d.oldEnd + d.newEnd ≤ (Text.bytes new).length := by
    have hlast := congrArg List.length h.last
    have hbeforeLen : Text.byteLen before ≤ (Text.bytes old).length := by
      rw [Text.length_bytes, hold, Text.byteLen_append, Text.byteLen_append]
      omega
    rw [List.length_drop, List.length_drop] at hlast
    have := h.old_le
    have := h.new_le
    omega
  rw [← Text.length_bytes, ← hbytes, List.length_take, Nat.min_eq_left hle]

/-- The text of a place outside the edit is found at the place that moves to it. -/
theorem AgreeAround.slice (h : AgreeAround (Text.bytes old) (Text.bytes new) d)
    (hold : old = before ++ text ++ after)
    (hout : Text.byteLen before + Text.byteLen text ≤ d.oldStart ∨ d.oldEnd ≤ Text.byteLen before)
    {newOffset : Nat} (hmoves : d.Moves newOffset (Text.byteLen before)) :
    Text.slice? new newOffset (newOffset + Text.byteLen text) = some text := by
  rcases hmoves with ⟨hlt, rfl⟩ | ⟨hstart, rfl⟩
  · have hstop : Text.byteLen before + Text.byteLen text ≤ d.oldStart := by
      have := h.start_le_old
      omega
    obtain ⟨after', rfl⟩ := h.first_text hold hstop
    exact Text.slice?_append before text after'
  · obtain ⟨before', rfl, hlen⟩ := h.last_text hold hstart
    rw [← hlen]
    exact Text.slice?_append before' text after

end Unedited

/-! ### Statements of the old tree -/

/-- `is_reuse_sequence_context`. -/
def isReuseSequenceContext : NodeKind → Bool
  | .root | .block | .functionExpr | .condExpr | .condDotExpr | .condChainExpr | .wLoopExpr
  | .nLoopExpr | .blockExpr => true
  | _ => false

/-- The statements among the children of a node: nodes with their offsets. -/
def statements (kind : NodeKind) : List GreenChild → Nat → List (Nat × GreenNode)
  | [], _ => []
  | .token t :: cs, offset => statements kind cs (offset + Text.byteLen t.text)
  | .node n :: cs, offset =>
    if kind = .functionExpr ∧ n.kind = .paramList then statements kind cs (offset + n.textLen)
    else (offset, n) :: statements kind cs (offset + n.textLen)

mutual

/-- `collect_reusable_statement_nodes`, in the order in which it meets them. -/
def GreenNode.collectReusable : GreenNode → Nat → List (Nat × GreenNode)
  | .mk kind _ children, offset =>
    (if isReuseSequenceContext kind then statements kind children offset else []) ++
      collectReusableAll children offset
termination_by structural n => n

def collectReusableAll : List GreenChild → Nat → List (Nat × GreenNode)
  | [], _ => []
  | c :: cs, offset => c.collectReusable offset ++ collectReusableAll cs (offset + c.textLen)
termination_by structural cs => cs

def GreenChild.collectReusable : GreenChild → Nat → List (Nat × GreenNode)
  | .node n, offset => n.collectReusable offset
  | .token _, _ => []
termination_by structural c => c

end

/-- The map keeps the first node for each offset. -/
structure ReusePlan where
  dirty : DirtyByteRange
  previousStatements : List (Nat × GreenNode)

namespace ReusePlan

/-- `enable_cst_with_cache`. -/
def new (previous : GreenNode) (source : List Char) : ReusePlan where
  dirty := computeDirtyByteRange previous.text source
  previousStatements := previous.collectReusable 0

def candidateForNewOffset (plan : ReusePlan) (newOffset : Nat) : Option GreenNode := do
  let oldOffset ← plan.dirty.oldOffsetForNew newOffset
  plan.previousStatements.lookup oldOffset

end ReusePlan

section Statements

variable {root : GreenNode}

/-- A node that stands at an offset below the root. -/
def StandsAt (root : GreenNode) (entry : Nat × GreenNode) : Prop :=
  ∃ self, Under root self ∧ self.green = entry.2 ∧ self.absOffset = entry.1

theorem statements_under (kind : NodeKind) {self : SyntaxNode} (hself : Under root self) :
    ∀ (cs before : List GreenChild), self.green.children = before ++ cs →
    ∀ e ∈ statements kind cs (self.absOffset + (before.map GreenChild.textLen).sum),
      StandsAt root e
  | [], _, _ => by simp [statements]
  | c :: cs, before, hchildren => by
    have htail : self.green.children = (before ++ [c]) ++ cs := by rw [hchildren]; simp
    have hcs := statements_under kind hself cs (before ++ [c]) htail
    rw [List.map_append, List.sum_append, List.map_singleton, List.sum_singleton,
      ← Nat.add_assoc] at hcs
    cases c with
    | token t =>
      rw [GreenChild.textLen] at hcs
      rw [statements]
      exact hcs
    | node n =>
      rw [GreenChild.textLen] at hcs
      rw [statements]
      split
      · exact hcs
      · exact List.forall_mem_cons.mpr ⟨⟨_, Under.child hself hchildren, rfl, rfl⟩, hcs⟩

mutual

theorem GreenNode.collectReusable_under : ∀ (n : GreenNode) (self : SyntaxNode),
    Under root self → self.green = n → ∀ e ∈ n.collectReusable self.absOffset, StandsAt root e
  | .mk kind len children, self, hself, hgreen => by
    have hchildren : self.green.children = [] ++ children := by rw [hgreen]; rfl
    have hstatements := statements_under kind hself children [] hchildren
    have hbelow := collectReusableAll_under children [] self hself hchildren
    rw [GreenNode.collectReusable]
    intro e he
    rcases List.mem_append.mp he with he | he
    · split at he
      · exact hstatements e he
      · exact absurd he List.not_mem_nil
    · exact hbelow e he

theorem collectReusableAll_under : ∀ (cs before : List GreenChild) (self : SyntaxNode),
    Under root self → self.green.children = before ++ cs →
    ∀ e ∈ collectReusableAll cs (self.absOffset + (before.map GreenChild.textLen).sum),
      StandsAt root e
  | [], _, _, _, _ => by simp [collectReusableAll]
  | c :: cs, before, self, hself, hchildren => by
    have htail : self.green.children = (before ++ [c]) ++ cs := by rw [hchildren]; simp
    have hcs := collectReusableAll_under cs (before ++ [c]) self hself htail
    rw [List.map_append, List.sum_append, List.map_singleton, List.sum_singleton,
      ← Nat.add_assoc] at hcs
    rw [collectReusableAll]
    intro e he
    rcases List.mem_append.mp he with he | he
    · exact c.collectReusable_under before cs self hself hchildren e he
    · exact hcs e he

theorem GreenChild.collectReusable_under : ∀ (c : GreenChild) (before after : List GreenChild)
    (self : SyntaxNode), Under root self → self.green.children = before ++ c :: after →
    ∀ e ∈ c.collectReusable (self.absOffset + (before.map GreenChild.textLen).sum),
      StandsAt root e
  | .token t, _, _, _, _, _ => by simp [GreenChild.collectReusable]
  | .node n, before, after, self, hself, hchildren => by
    rw [GreenChild.collectReusable]
    exact n.collectReusable_under _ (Under.child hself hchildren) rfl

end

theorem lookup_of_mem {l : List (Nat × GreenNode)} {k : Nat} {v : GreenNode} (h : (k, v) ∈ l) :
    ∃ w, l.lookup k = some w ∧ (k, w) ∈ l := by
  cases hlookup : l.lookup k with
  | none =>
    have hne := List.lookup_eq_none_iff.mp hlookup _ h
    simp at hne
  | some w =>
    obtain ⟨l₁, l₂, rfl, -⟩ := List.lookup_eq_some_iff.mp hlookup
    exact ⟨w, rfl, by simp⟩

/-- **Unedited statements are found.** Whatever the new text, for each statement of the old
tree outside the edit there is one new offset at which the plan looks its old offset up; the
candidate there is the first statement at the old offset, and if that one lies outside the
edit its text stands at the new offset. -/
theorem candidate_unedited (hroot : root.Measured) (source : List Char) {oldOffset : Nat}
    {n : GreenNode} (hn : (oldOffset, n) ∈ root.collectReusable 0)
    (hout : oldOffset < (ReusePlan.new root source).dirty.oldStart ∨
      (ReusePlan.new root source).dirty.oldEnd ≤ oldOffset) :
    ∃ newOffset first, (∀ o, (ReusePlan.new root source).dirty.oldOffsetForNew o =
        some oldOffset ↔ o = newOffset) ∧
      (ReusePlan.new root source).candidateForNewOffset newOffset = some first ∧
      (oldOffset + first.textLen ≤ (ReusePlan.new root source).dirty.oldStart ∨
          (ReusePlan.new root source).dirty.oldEnd ≤ oldOffset →
        Text.slice? source newOffset (newOffset + first.textLen) = some first.text) := by
  have hagree := (computeDirtyByteRange_spec root.text source).1
  have hdirty : (ReusePlan.new root source).dirty = computeDirtyByteRange root.text source := rfl
  rw [hdirty] at hout ⊢
  generalize computeDirtyByteRange root.text source = d at hagree hdirty hout ⊢
  obtain ⟨newOffset, hmoves⟩ : ∃ newOffset, ∀ o, d.Moves o oldOffset ↔ o = newOffset := by
    have := hagree.start_le_old
    rcases hout with hlt | hge
    · exact ⟨oldOffset, fun o => by unfold DirtyByteRange.Moves; omega⟩
    · exact ⟨oldOffset - d.oldEnd + d.newEnd, fun o => by unfold DirtyByteRange.Moves; omega⟩
  obtain ⟨first, hfirst, hmem⟩ := lookup_of_mem hn
  obtain ⟨self, hself, hgreen, hplace⟩ :=
    GreenNode.collectReusable_under root _ Under.root rfl _ hmem
  refine ⟨newOffset, first, fun o => (hagree.oldOffsetForNew_iff o _).trans (hmoves o), ?_,
    fun hout => ?_⟩
  · rw [ReusePlan.candidateForNewOffset, hdirty,
      (hagree.oldOffsetForNew_iff _ _).mpr ((hmoves newOffset).mpr rfl)]
    exact hfirst
  · obtain ⟨hmeasured, before, after, htext, hbefore⟩ := Under.text hroot hself
    dsimp only at hgreen hplace
    rw [hgreen] at hmeasured htext
    rw [hplace] at hbefore
    rw [hmeasured.textLen_eq] at hout ⊢
    exact hagree.slice htext (by rwa [hbefore]) (by rw [hbefore]; exact (hmoves newOffset).mpr rfl)

/-- `1;` with something typed behind it. -/
theorem candidate_unedited_one :
    let plan := ReusePlan.new oneTree ['1', ';', '2']
    ∃ newOffset first, (∀ o, plan.dirty.oldOffsetForNew o = some 0 ↔ o = newOffset) ∧
      plan.candidateForNewOffset newOffset = some first ∧
      (0 + first.textLen ≤ plan.dirty.oldStart ∨ plan.dirty.oldEnd ≤ 0 →
        Text.slice? ['1', ';', '2'] newOffset (newOffset + first.textLen) = some first.text) :=
  candidate_unedited oneTree_measured ['1', ';', '2']
    (List.Mem.head _ : (0, GreenNode.mk .literalExpr 1 [.token ⟨.intLit, ['1']⟩]) ∈
      oneTree.collectReusable 0) (.inl (by decide +kernel))

end Statements

end Cst
end Wqpl
