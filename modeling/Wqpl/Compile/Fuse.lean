/-
# Peephole fusion

A pass over the code of a function that makes one instruction of two where it
can (`fuseOnce`): a store that keeps its value before a `pop`, a comparison
before a branch on it; a constant that is popped at once and a jump to the
next instruction go away. The targets of jumps and the ends of try bodies move
with the instructions that stay (`oldToNew`). A pair is not touched when a try
body ends in its middle; jumps into its middle are not looked for.

Where nothing matches, the source gives the old code back; here the new code
is then built from the old one, place by place. Whether a nested function is
given to the pass is a parameter of `fuseTable`.
-/
import Wqpl.Vm.Flow

namespace Wqpl

/-- `is_branch_comparison`. -/
def isBranchComparison : BinaryOperator → Bool
  | .equal | .equalDot | .notEqual | .notEqualDot | .lt | .lte | .gt | .gte => true
  | _ => false

/-- The instruction with its targets moved. The end of a try body is counted
from the instruction's own new index. -/
def Instruction.remap (oldToNew : Nat → Nat) (n origin newIdx : Nat) : Instruction → Instruction
  | .jump pos => .jump (oldToNew pos)
  | .jumpIfFalse pos => .jumpIfFalse (oldToNew pos)
  | .jumpIfGE pos => .jumpIfGE (oldToNew pos)
  | .jumpIfLEZLocal slot pos => .jumpIfLEZLocal slot (oldToNew pos)
  | .jumpIfNamedProvided slot bit pos => .jumpIfNamedProvided slot bit (oldToNew pos)
  | .jumpIfCmpFalse op left right target => .jumpIfCmpFalse op left right (oldToNew target)
  | .nLoopEnter i n snapshot target => .nLoopEnter i n snapshot (oldToNew target)
  | .nLoopNext snapshot i target => .nLoopNext snapshot i (oldToNew target)
  | .boolAndLazy pos => .boolAndLazy (oldToNew pos)
  | .boolOrLazy pos => .boolOrLazy (oldToNew pos)
  | .try_ len => .try_ (oldToNew (min (origin + 1 + len) n) - (newIdx + 1))
  | i => i

namespace Fuse

/-- What a pair with a `pop` becomes. -/
def dropPair : Instruction → Instruction → Option (Option Instruction)
  | .loadConst _, .pop => some none
  | .storeLocalKeep slot, .pop => some (some (.storeLocal slot))
  | .storeVarKeep name, .pop => some (some (.storeVar name))
  | .storeCaptureKeep i, .pop => some (some (.storeCapture i))
  | .indexAssignLocal slot, .pop => some (some (.indexAssignLocalDrop slot))
  | .indexManyAssignLocal slot argc, .pop => some (some (.indexManyAssignLocalDrop slot argc))
  | .indexAssignCapture i, .pop => some (some (.indexAssignCaptureDrop i))
  | .indexManyAssignCapture i argc, .pop => some (some (.indexManyAssignCaptureDrop i argc))
  | .indexAssignVar name, .pop => some (some (.indexAssignVarDrop name))
  | .indexManyAssignVar name argc, .pop => some (some (.indexManyAssignVarDrop name argc))
  | _, _ => none

/-- The slot of a comparison of a local variable with zero. -/
def gtZeroSlot : BinaryOperator → Operand → Operand → Option Nat
  | .gt, .local_ slot, .const (.int n) => if n = 0 then some slot else none
  | _, _, _ => none

def isStackLt : BinaryOperator → Operand → Operand → Bool
  | .lt, .stack, .stack => true
  | _, _, _ => false

/-- What a comparison and a branch on it become. -/
def branchPair : Instruction → Instruction → Option Instruction
  | .binaryOp op left right, .jumpIfFalse pos =>
    match gtZeroSlot op left right with
    | some slot => some (.jumpIfLEZLocal slot pos)
    | none =>
      if isStackLt op left right then some (.jumpIfGE pos)
      else if isBranchComparison op then some (.jumpIfCmpFalse op left right pos)
      else none
  | _, _ => none

/-- What the pass makes of one instruction or of two. -/
inductive Piece
  | single (out : Option Instruction)
  | pair (out : Option Instruction)

namespace Piece

def out : Piece → Option Instruction
  | single out | pair out => out

def width : Piece → Nat
  | single _ => 1
  | pair _ => 2

end Piece

/-- `try_boundaries`. -/
def tryBoundaries (code : List Instruction) (end_ : Nat) : Bool :=
  code.zipIdx.any fun
    | (.try_ len, index) => index + 1 + len == end_
    | _ => false

/-- The instruction `i` at index `p`, before the instruction `next`: the
patterns in the order of the pass. Pairs are left alone at a `boundary`. -/
def pieceAt (boundary : Bool) (p : Nat) (i : Instruction) (next : Option Instruction) : Piece :=
  let next := if boundary then none else next
  match next.bind (dropPair i) with
  | some out => .pair out
  | none =>
    match i with
    | .jump pos => if pos = p + 1 then .single none else .single (some i)
    | .jumpIfFalse pos => if pos = p + 1 then .single (some .pop) else .single (some i)
    | _ =>
      match next.bind (branchPair i) with
      | some out => .pair (some out)
      | none => .single (some i)

/-- An instruction that is kept and the index that it comes from. -/
def emit (p : Nat) (out : Option Instruction) : List (Nat × Instruction) :=
  out.toList.map (p, ·)

/-- The loop of the pass from index `p` on. The first instruction is passed
over when it went into the pair before it. -/
def loop (boundaries : Nat → Bool) : Nat → (skip : Bool) → List Instruction → List (Nat × Instruction)
  | _, _, [] => []
  | p, true, _ :: rest => loop boundaries (p + 1) false rest
  | p, false, i :: rest =>
    match pieceAt (boundaries (p + 1)) p i rest.head? with
    | .single out => emit p out ++ loop boundaries (p + 1) false rest
    | .pair out => emit p out ++ loop boundaries (p + 1) true rest

/-- The instructions that are kept, with the indices that they come from. -/
def kept (code : List Instruction) : List (Nat × Instruction) :=
  loop (tryBoundaries code) 0 false code

/-- The new index of the first instruction at or behind the old index that is
kept. -/
def oldToNew (code : List Instruction) (p : Nat) : Nat :=
  (kept code).findIdx fun x => decide (p ≤ x.1)

end Fuse

/-- `fuse_once` on the code of one function. -/
def fuseOnce (code : List Instruction) : List Instruction :=
  (Fuse.kept code).mapIdx fun newIdx (origin, i) =>
    i.remap (Fuse.oldToNew code) code.length origin newIdx

def FnShape.fuseOnce (f : FnShape) : FnShape := { f with instructions := Wqpl.fuseOnce f.instructions }

/-- The table after the pass went over the functions that `visits` names. -/
def fuseTable (visits : FnId → Bool) (table : FnTable) : FnTable := fun fn =>
  if visits fn then (table fn).fuseOnce else table fn

namespace Fuse

/-! ### Pieces -/

/-- Two instructions that become one. -/
inductive Pairs (a b c : Instruction) : Prop
  | drop (h : dropPair a b = some (some c))
  | branch (h : branchPair a b = some c)

/-- What the pass may make of an instruction. -/
inductive Pieces (boundary : Bool) (p : Nat) (a : Instruction) (next : Option Instruction) :
    Piece → Prop
  | keep : Pieces boundary p a next (.single (some a))
  | drop (ha : a = .jump (p + 1)) : Pieces boundary p a next (.single none)
  | pop (ha : a = .jumpIfFalse (p + 1)) : Pieces boundary p a next (.single (some .pop))
  | dropConst {v : Value} (ha : a = .loadConst v) (hb : next = some .pop)
      (hboundary : boundary = false) : Pieces boundary p a next (.pair none)
  | pairs {b c : Instruction} (hb : next = some b) (h : Pairs a b c)
      (hboundary : boundary = false) : Pieces boundary p a next (.pair (some c))

theorem dropPair_none {a b : Instruction} (h : dropPair a b = some none) :
    (∃ v, a = .loadConst v) ∧ b = .pop := by
  unfold dropPair at h
  split at h <;> cases h
  exact ⟨⟨_, rfl⟩, rfl⟩

theorem pieceAt_pieces (boundary : Bool) (p : Nat) (a : Instruction) (next : Option Instruction) :
    Pieces boundary p a next (pieceAt boundary p a next) := by
  have hsome : ∀ {b}, (if boundary then none else next) = some b → next = some b ∧ boundary = false := by
    intro b hb
    cases boundary with
    | true => cases hb
    | false => exact ⟨hb, rfl⟩
  unfold pieceAt
  generalize (if boundary then none else next) = next' at hsome
  dsimp only
  cases hdrop : next'.bind (dropPair a) with
  | some out =>
    obtain ⟨b, hb, hpair⟩ := Option.bind_eq_some_iff.mp hdrop
    obtain ⟨hnext, hboundary⟩ := hsome hb
    cases out with
    | some c => exact .pairs hnext (.drop hpair) hboundary
    | none =>
      obtain ⟨⟨v, ha⟩, rfl⟩ := dropPair_none hpair
      exact .dropConst ha hnext hboundary
  | none =>
    dsimp only
    split
    next pos =>
      split
      next hpos => exact .drop (hpos ▸ rfl)
      next => exact .keep
    next pos =>
      split
      next hpos => exact .pop (hpos ▸ rfl)
      next => exact .keep
    next =>
      cases hbranch : next'.bind (branchPair a) with
      | some c =>
        obtain ⟨b, hb, hpair⟩ := Option.bind_eq_some_iff.mp hbranch
        obtain ⟨hnext, hboundary⟩ := hsome hb
        exact .pairs hnext (.branch hpair) hboundary
      | none => exact .keep

/-! ### The loop -/

section Loop

variable {boundaries : Nat → Bool}

theorem mem_emit {p : Nat} {out : Option Instruction} {x : Nat × Instruction}
    (h : x ∈ emit p out) : x.1 = p := by
  obtain ⟨i, -, rfl⟩ := List.mem_map.mp h
  rfl

/-- One iteration of the loop. -/
theorem loop_cons (p : Nat) (i : Instruction) (rest : List Instruction) :
    loop boundaries p false (i :: rest) =
      emit p (pieceAt (boundaries (p + 1)) p i rest.head?).out ++
        loop boundaries (p + (pieceAt (boundaries (p + 1)) p i rest.head?).width) false
          ((i :: rest).drop (pieceAt (boundaries (p + 1)) p i rest.head?).width) := by
  have hpieces := pieceAt_pieces (boundaries (p + 1)) p i rest.head?
  rw [loop]
  generalize pieceAt (boundaries (p + 1)) p i rest.head? = piece at hpieces
  have hpair : ∀ {b}, rest.head? = some b →
      loop boundaries (p + 1) true rest = loop boundaries (p + 2) false rest.tail := by
    intro b hb
    cases rest with
    | nil => cases hb
    | cons b' rest => rfl
  cases hpieces with
  | keep => rfl
  | drop ha => rfl
  | pop ha => rfl
  | dropConst ha hb hboundary =>
    dsimp only [Piece.out, Piece.width]
    rw [hpair hb, List.drop_succ_cons, List.drop_one]
  | pairs hb h hboundary =>
    dsimp only [Piece.out, Piece.width]
    rw [hpair hb, List.drop_succ_cons, List.drop_one]

theorem le_of_mem_loop {code : List Instruction} : ∀ {p : Nat} {skip : Bool} {x : Nat × Instruction},
    x ∈ loop boundaries p skip code → p ≤ x.1 := by
  induction code with
  | nil =>
    intro p skip x h
    cases skip <;> cases h
  | cons i rest ih =>
    intro p skip x h
    cases skip with
    | true => exact Nat.le_of_succ_le (ih h)
    | false =>
      rw [loop] at h
      split at h
      all_goals
        rcases List.mem_append.mp h with h | h
        · exact (mem_emit h).ge
        · exact Nat.le_of_succ_le (ih h)

theorem lt_of_mem_loop {code : List Instruction} : ∀ {p : Nat} {skip : Bool} {x : Nat × Instruction},
    x ∈ loop boundaries p skip code → x.1 < p + code.length := by
  induction code with
  | nil =>
    intro p skip x h
    cases skip <;> cases h
  | cons i rest ih =>
    intro p skip x h
    rw [List.length_cons, Nat.add_comm rest.length, ← Nat.add_assoc]
    cases skip with
    | true => exact ih h
    | false =>
      rw [loop] at h
      split at h
      all_goals
        rcases List.mem_append.mp h with h | h
        · rw [mem_emit h]
          omega
        · exact ih h

/-- What is kept was there before, or it is a fused instruction or a `pop`. -/
theorem mem_loop {code : List Instruction} : ∀ {p : Nat} {skip : Bool} {x : Nat × Instruction},
    x ∈ loop boundaries p skip code → x.2 ∈ code ∨ (∃ a b, Pairs a b x.2) ∨ x.2 = .pop := by
  induction code with
  | nil =>
    intro p skip x h
    cases skip <;> cases h
  | cons i rest ih =>
    intro p skip x h
    have hrest : ∀ {p skip}, x ∈ loop boundaries p skip rest →
        x.2 ∈ i :: rest ∨ (∃ a b, Pairs a b x.2) ∨ x.2 = .pop := fun h =>
      (ih h).imp_left (List.mem_cons_of_mem i)
    cases skip with
    | true => exact hrest h
    | false =>
      have hpieces := pieceAt_pieces (boundaries (p + 1)) p i rest.head?
      rw [loop] at h
      generalize pieceAt (boundaries (p + 1)) p i rest.head? = piece at hpieces h
      cases hpieces with
      | drop ha => exact hrest h
      | dropConst ha hb hboundary => exact hrest h
      | keep =>
        rcases List.mem_cons.mp h with rfl | h
        · exact .inl (List.mem_cons_self ..)
        · exact hrest h
      | pop ha =>
        rcases List.mem_cons.mp h with rfl | h
        · exact .inr (.inr rfl)
        · exact hrest h
      | pairs hb hpair hboundary =>
        rcases List.mem_cons.mp h with rfl | h
        · exact .inr (.inl ⟨_, _, hpair⟩)
        · exact hrest h

end Loop

/-! ### The starts of pieces -/

section Starts

variable (code : List Instruction)

/-- What the pass makes of the instruction at index `p`. -/
def piece (p : Nat) (a : Instruction) : Piece :=
  pieceAt (tryBoundaries code (p + 1)) p a code[p + 1]?

/-- The indices at which the loop of the pass stands: those that are not the
second instruction of a pair. -/
inductive Starts : Nat → Prop
  | zero : Starts 0
  | next {p : Nat} {a : Instruction} : Starts p → code[p]? = some a →
      Starts (p + (piece code p a).width)

variable {code} {p q : Nat} {a : Instruction}

theorem piece_pieces (code : List Instruction) (p : Nat) (a : Instruction) :
    Pieces (tryBoundaries code (p + 1)) p a code[p + 1]? (piece code p a) := pieceAt_pieces _ p a _

theorem lt_of_getElem? {i : Instruction} (h : code[p]? = some i) : p < code.length :=
  (List.getElem?_eq_some_iff.mp h).1

theorem add_width_le (ha : code[p]? = some a) : p + (piece code p a).width ≤ code.length := by
  have hlt := lt_of_getElem? ha
  have hpieces := piece_pieces code p a
  generalize piece code p a = piece at hpieces
  cases hpieces with
  | dropConst _ hb _ => exact lt_of_getElem? hb
  | pairs hb _ _ => exact lt_of_getElem? hb
  | _ => exact hlt

theorem Starts.le (h : Starts code p) : p ≤ code.length := by
  cases h with
  | zero => exact Nat.zero_le _
  | next _ ha => exact add_width_le ha

theorem drop_eq_cons (ha : code[p]? = some a) : code.drop p = a :: code.drop (p + 1) := by
  obtain ⟨hlt, rfl⟩ := List.getElem?_eq_some_iff.mp ha
  exact List.drop_eq_getElem_cons hlt

/-- The loop at the start of a piece. -/
theorem loop_at (ha : code[p]? = some a) :
    loop (tryBoundaries code) p false (code.drop p) =
      emit p (piece code p a).out ++ loop (tryBoundaries code) (p + (piece code p a).width) false
        (code.drop (p + (piece code p a).width)) := by
  have hhead : (code.drop (p + 1)).head? = code[p + 1]? := List.head?_drop
  rw [drop_eq_cons ha, loop_cons, hhead, ← drop_eq_cons ha, List.drop_drop]
  rfl

/-- What is kept before the start of a piece, and from it on. -/
theorem Starts.split (h : Starts code p) :
    ∃ before, kept code = before ++ loop (tryBoundaries code) p false (code.drop p) ∧
      ∀ x ∈ before, x.1 < p := by
  induction h with
  | zero => exact ⟨[], rfl, nofun⟩
  | @next p a _ ha ih =>
    obtain ⟨before, hkept, hbefore⟩ := ih
    refine ⟨before ++ emit p (piece code p a).out, ?_, fun x hx => ?_⟩
    · rw [hkept, loop_at ha, List.append_assoc]
    · have hwidth : 0 < (piece code p a).width := by
        cases piece code p a <;> exact Nat.succ_pos _
      rcases List.mem_append.mp hx with hx | hx
      · have := hbefore x hx
        omega
      · have := mem_emit hx
        omega

theorem oldToNew_eq {before after : List (Nat × Instruction)} (hkept : kept code = before ++ after)
    (hbefore : ∀ x ∈ before, x.1 < p) (hafter : ∀ x ∈ after, p ≤ x.1) :
    oldToNew code p = before.length := by
  have hfirst : before.findIdx (fun x => decide (p ≤ x.1)) = before.length :=
    List.findIdx_eq_length_of_false fun x hx => decide_eq_false (Nat.not_le.mpr (hbefore x hx))
  unfold oldToNew
  rw [hkept, List.findIdx_append, hfirst, if_neg (Nat.lt_irrefl _)]
  cases after with
  | nil => exact Nat.zero_add _
  | cons x after =>
    have hx : decide (p ≤ x.1) = true := decide_eq_true (hafter x (List.mem_cons_self ..))
    rw [List.findIdx_cons, hx]
    exact Nat.zero_add _

theorem oldToNew_mono (code : List Instruction) (h : p ≤ q) : oldToNew code p ≤ oldToNew code q := by
  unfold oldToNew
  induction kept code with
  | nil => exact Nat.le_refl _
  | cons x rest ih =>
    rw [List.findIdx_cons, List.findIdx_cons]
    by_cases hq : q ≤ x.1
    · rw [decide_eq_true hq, decide_eq_true (h.trans hq)]
      exact Nat.le_refl _
    · rw [decide_eq_false hq]
      by_cases hp : p ≤ x.1
      · rw [decide_eq_true hp]
        exact Nat.zero_le _
      · rw [decide_eq_false hp]
        exact Nat.succ_le_succ ih

theorem oldToNew_zero (code : List Instruction) : oldToNew code 0 = 0 :=
  oldToNew_eq (List.nil_append _).symm nofun fun _ _ => Nat.zero_le _

theorem oldToNew_length (code : List Instruction) :
    oldToNew code code.length = (fuseOnce code).length := by
  unfold fuseOnce
  rw [List.length_mapIdx]
  have hbehind : ∀ x ∈ kept code, x.1 < code.length := by
    intro x hx
    have hlt := lt_of_mem_loop hx
    rwa [Nat.zero_add] at hlt
  exact oldToNew_eq (List.append_nil _).symm hbehind nofun

/-- A piece that goes away. -/
theorem Starts.gone (h : Starts code p) (ha : code[p]? = some a)
    (hout : (piece code p a).out = none) :
    oldToNew code (p + (piece code p a).width) = oldToNew code p := by
  obtain ⟨before, hkept, hbefore⟩ := h.split
  have hp := oldToNew_eq hkept hbefore fun x hx => le_of_mem_loop hx
  rw [loop_at ha, hout] at hkept
  rw [hp]
  refine oldToNew_eq hkept (fun x hx => ?_) fun x hx => le_of_mem_loop hx
  have := hbefore x hx
  omega

/-- A piece that stays as one instruction. -/
theorem Starts.stays (h : Starts code p) (ha : code[p]? = some a) {c : Instruction}
    (hout : (piece code p a).out = some c) :
    oldToNew code (p + (piece code p a).width) = oldToNew code p + 1 ∧
      oldToNew code (p + 1) = oldToNew code p + 1 ∧
      (fuseOnce code)[oldToNew code p]? =
        some (c.remap (oldToNew code) code.length p (oldToNew code p)) := by
  obtain ⟨before, hkept, hbefore⟩ := h.split
  have hp := oldToNew_eq hkept hbefore fun x hx => le_of_mem_loop hx
  have hwidth : 1 ≤ (piece code p a).width := by
    cases piece code p a <;> exact Nat.succ_pos _
  rw [loop_at ha, hout] at hkept
  have hkept' : kept code = (before ++ [(p, c)]) ++ loop (tryBoundaries code)
      (p + (piece code p a).width) false (code.drop (p + (piece code p a).width)) := by
    rw [hkept, List.append_assoc]
    rfl
  have hnext : ∀ q, p < q → q ≤ p + (piece code p a).width →
      oldToNew code q = oldToNew code p + 1 := by
    intro q hlt hle
    rw [oldToNew_eq hkept' (fun x hx => ?_) fun x hx => hle.trans (le_of_mem_loop hx), hp,
      List.length_append]
    · rfl
    · rcases List.mem_append.mp hx with hx | hx
      · exact (hbefore x hx).trans hlt
      · rw [List.mem_singleton.mp hx]
        exact hlt
  refine ⟨hnext _ (by omega) le_rfl, hnext _ (by omega) (by omega), ?_⟩
  unfold fuseOnce
  rw [List.getElem?_mapIdx, hp, hkept', List.append_assoc, List.getElem?_append_right le_rfl,
    Nat.sub_self]
  rfl

/-! ### Try bodies -/

/-- A try body of the code ends before the index. -/
def TryEnd (code : List Instruction) (e : Nat) : Prop :=
  ∃ q len, code[q]? = some (.try_ len) ∧ e = q + 1 + len

theorem tryBoundaries_iff {e : Nat} : tryBoundaries code e = true ↔ TryEnd code e := by
  unfold tryBoundaries TryEnd
  rw [List.any_eq_true]
  constructor
  · rintro ⟨⟨i, q⟩, hmem, h⟩
    have hi := List.mem_zipIdx_iff_getElem?.mp hmem
    cases i <;> first
      | cases h
      | exact ⟨q, _, hi, (beq_iff_eq.mp h).symm⟩
  · rintro ⟨q, len, hi, rfl⟩
    exact ⟨(.try_ len, q), List.mem_zipIdx_iff_getElem?.mpr hi, beq_iff_eq.mpr rfl⟩

/-- Every index in the code is the start of a piece or in the middle of a pair. -/
theorem starts_or_middle (hq : q ≤ code.length) :
    Starts code q ∨ ∃ p a, Starts code p ∧ code[p]? = some a ∧ (piece code p a).width = 2 ∧
      q = p + 1 := by
  induction q with
  | zero => exact .inl .zero
  | succ q ih =>
    rcases ih (Nat.le_of_succ_le hq) with h | ⟨p, a, h, ha, hwidth, rfl⟩
    · have ha : code[q]? = some code[q] := List.getElem?_eq_getElem hq
      have hnext := h.next ha
      cases hpiece : piece code q code[q] with
      | single out =>
        rw [hpiece] at hnext
        exact .inl hnext
      | pair out => exact .inr ⟨q, code[q], h, ha, by rw [hpiece]; rfl, rfl⟩
    · have hnext := h.next ha
      rw [hwidth] at hnext
      exact .inl hnext

/-- A pair is not touched when a try body ends in its middle. -/
theorem TryEnd.starts {e : Nat} (h : TryEnd code e) (hle : e ≤ code.length) : Starts code e := by
  rcases starts_or_middle hle with hstarts | ⟨p, a, -, -, hwidth, rfl⟩
  · exact hstarts
  · have hboundary := tryBoundaries_iff.mpr h
    have hpieces := piece_pieces code p a
    generalize piece code p a = piece at hpieces hwidth
    rw [hboundary] at hpieces
    cases hpieces with
    | dropConst _ _ h => cases h
    | pairs _ _ h => cases h
    | _ => cases hwidth

end Starts

end Fuse

end Wqpl
