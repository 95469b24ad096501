/-
# Extraction of owned constants

A constant of the top-level code that runs at most once is moved into a pool
that the machine owns: `loadConst` becomes `loadOwnedConst`, which takes the
constant out of the pool. The instructions that run at most once are taken to
be those on no cycle of the control-flow graph.
-/
import Wqpl.Graph.Scc
import Wqpl.Vm.Pool

namespace Wqpl

/-- `push_target`. -/
def pushTarget (out : List Nat) (target len : Nat) : List Nat :=
  if target < len ∧ target ∉ out then out ++ [target] else out

/-- `push_fallthrough`. -/
def pushFallthrough (out : List Nat) (pc len : Nat) : List Nat := pushTarget out (pc + 1) len

def successors (pc : Nat) (inst : Instruction) (len : Nat) : List Nat :=
  match inst with
  | .jump target | .nLoopNext _ _ target => pushTarget [] target len
  | .jumpIfFalse target | .jumpIfGE target | .boolAndLazy target | .boolOrLazy target
  | .jumpIfCmpFalse _ _ _ target | .nLoopEnter _ _ _ target | .jumpIfLEZLocal _ target
  | .jumpIfNamedProvided _ _ target => pushTarget (pushFallthrough [] pc len) target len
  | .try_ bodyLen =>
    pushTarget (if 0 < bodyLen then pushFallthrough [] pc len else []) (pc + 1 + bodyLen) len
  | .return_ => []
  | _ => pushFallthrough [] pc len

/-- `control_flow_graph`. -/
def controlFlowGraph (instructions : List Instruction) : Graph :=
  instructions.mapIdx fun pc inst => successors pc inst instructions.length

/-- `cyclic_pcs`. -/
def cyclicPcs (graph : Graph) : List Nat := graph.cyclicNodes

/-- `at_most_once_pcs`. -/
def atMostOncePcs (instructions : List Instruction) (pc : Nat) : Bool :=
  decide (pc ∉ cyclicPcs (controlFlowGraph instructions))

/-- `has_shared_backing`. -/
def hasSharedBacking : Value → Bool
  | .bigInt _ | .fraction _ | .algebraic _ _ | .tag _ | .intList _ | .intRange _ | .floatList _
  | .boolList _ | .list _ | .string _ | .cas _ | .dict _ => true
  | .int _ | .float _ | .complex _ _ | .char _ | .bool _ | .compiledFunction _ | .closure _ _
  | .builtinFunction _ _ | .liftedCallable _ | .rng _ | .stream _ => false

/-- The loop of `extract_owned_consts`: the code from `pc` on and the pool. -/
def extractFrom (eligible : Nat → Bool) : Nat → Pool → List Instruction → List Instruction × Pool
  | _, owned, [] => ([], owned)
  | pc, owned, .loadConst value :: rest =>
    if eligible pc && hasSharedBacking value then
      let r := extractFrom eligible (pc + 1) (owned ++ [some value]) rest
      (.loadOwnedConst owned.length :: r.1, r.2)
    else
      let r := extractFrom eligible (pc + 1) owned rest
      (.loadConst value :: r.1, r.2)
  | pc, owned, inst :: rest =>
    let r := extractFrom eligible (pc + 1) owned rest
    (inst :: r.1, r.2)

/-- `extract_owned_consts`. -/
def extractOwnedConsts (instructions : List Instruction) : List Instruction × Pool :=
  extractFrom (atMostOncePcs instructions) 0 [] instructions

/-! ### The control-flow graph -/

theorem mem_pushTarget {out : List Nat} {target len t : Nat} :
    t ∈ pushTarget out target len ↔ t ∈ out ∨ (t = target ∧ target < len) := by
  unfold pushTarget
  by_cases h : target < len ∧ target ∉ out
  · rw [if_pos h, List.mem_append, List.mem_singleton]
    exact or_congr_right ⟨fun ht => ⟨ht, h.1⟩, And.left⟩
  · rw [if_neg h]
    refine ⟨.inl, fun ht => ht.elim id ?_⟩
    rintro ⟨rfl, hlt⟩
    by_contra hnot
    exact h ⟨hlt, hnot⟩

theorem mem_pushFallthrough {out : List Nat} {pc len t : Nat} :
    t ∈ pushFallthrough out pc len ↔ t ∈ out ∨ (t = pc + 1 ∧ pc + 1 < len) := mem_pushTarget

section ControlFlow

variable {code : List Instruction} {pc : Nat} {i : Instruction}

theorem edge_iff {t : Nat} (hi : code[pc]? = some i) :
    (controlFlowGraph code).Edge pc t ↔ t ∈ successors pc i code.length := by
  unfold Graph.Edge Graph.succ controlFlowGraph
  rw [List.getD_eq_getElem?_getD, List.getElem?_mapIdx, hi]
  rfl

theorem successors_lt (pc : Nat) (i : Instruction) (len : Nat) : ∀ t ∈ successors pc i len, t < len := by
  have hfall : ∀ t ∈ pushFallthrough [] pc len, t < len := by
    intro t ht
    rcases mem_pushFallthrough.mp ht with ht | ⟨rfl, hlt⟩
    · cases ht
    · exact hlt
  have hpush : ∀ {out : List Nat} (target : Nat), (∀ t ∈ out, t < len) →
      ∀ t ∈ pushTarget out target len, t < len := by
    intro out target hout t ht
    rcases mem_pushTarget.mp ht with ht | ⟨rfl, hlt⟩
    · exact hout t ht
    · exact hlt
  cases i with
  | jump target | nLoopNext _ _ target => exact hpush target nofun
  | jumpIfFalse target | jumpIfGE target | boolAndLazy target | boolOrLazy target
  | jumpIfCmpFalse _ _ _ target | nLoopEnter _ _ _ target | jumpIfLEZLocal _ target
  | jumpIfNamedProvided _ _ target => exact hpush target hfall
  | try_ bodyLen =>
    refine hpush _ fun t ht => ?_
    by_cases h0 : 0 < bodyLen
    · rw [if_pos h0] at ht
      exact hfall t ht
    · rw [if_neg h0] at ht
      cases ht
  | return_ => exact nofun
  | _ => exact hfall

theorem closed_controlFlowGraph (code : List Instruction) : (controlFlowGraph code).Closed := by
  intro u v huv
  have hu := huv.lt_length
  have hlen : (controlFlowGraph code).length = code.length := List.length_mapIdx
  rw [hlen] at hu ⊢
  have hi : code[u]? = some code[u] := List.getElem?_eq_getElem hu
  exact successors_lt u _ _ v ((edge_iff hi).mp huv)

/-- The marked instructions are those on a cycle. -/
theorem mem_cyclicPcs (code : List Instruction) (pc : Nat) :
    pc ∈ cyclicPcs (controlFlowGraph code) ↔ (controlFlowGraph code).OnCycle pc :=
  Graph.cyclicNodes_iff (closed_controlFlowGraph code) pc

/-- Nothing is reached from behind the code. -/
theorem reach_behind {t u : Nat} (hpc : code.length ≤ t) (h : (controlFlowGraph code).Reach t u) :
    u = t := by
  rcases h.cases_head with heq | ⟨v, htv, -⟩
  · exact heq.symm
  · have hlt := htv.lt_length
    have hlen : (controlFlowGraph code).length = code.length := List.length_mapIdx
    omega

end ControlFlow

/-! ### The extracted code -/

/-- The code after the extraction, with the pool before its first instruction. -/
structure Extracted (code code' : List Instruction) (pool : Pool) : Prop where
  length : code'.length = code.length
  instr : ∀ pc : Nat, code'[pc]? = code[pc]? ∨ ∃ v slot, code[pc]? = some (.loadConst v) ∧
    code'[pc]? = some (.loadOwnedConst slot) ∧ ¬(controlFlowGraph code).OnCycle pc ∧
      pool[slot]? = some (some v)
  unique : ∀ (pc pc' slot : Nat) (v v' : Value), code[pc]? = some (.loadConst v) →
    code[pc']? = some (.loadConst v') → code'[pc]? = some (.loadOwnedConst slot) →
      code'[pc']? = some (.loadOwnedConst slot) → pc = pc'

section ExtractFrom

variable (eligible : Nat → Bool)

theorem extractFrom_cons (pc : Nat) (owned : Pool) (i : Instruction) (rest : List Instruction) :
    (∃ v, i = .loadConst v ∧ eligible pc = true ∧
      extractFrom eligible pc owned (i :: rest) =
        (.loadOwnedConst owned.length ::
          (extractFrom eligible (pc + 1) (owned ++ [some v]) rest).1,
          (extractFrom eligible (pc + 1) (owned ++ [some v]) rest).2)) ∨
    extractFrom eligible pc owned (i :: rest) =
      (i :: (extractFrom eligible (pc + 1) owned rest).1,
        (extractFrom eligible (pc + 1) owned rest).2) := by
  cases i with
  | loadConst v =>
    rw [extractFrom]
    by_cases h : (eligible pc && hasSharedBacking v) = true
    · rw [if_pos h]
      exact .inl ⟨v, rfl, (Bool.and_eq_true_iff.mp h).1, rfl⟩
    · rw [if_neg h]
      exact .inr rfl
  | _ => exact .inr rfl

theorem extractFrom_pool (code : List Instruction) : ∀ (pc : Nat) (owned : Pool),
    owned <+: (extractFrom eligible pc owned code).2 := by
  induction code with
  | nil => exact fun _ _ => List.prefix_rfl
  | cons i rest ih =>
    intro pc owned
    rcases extractFrom_cons eligible pc owned i rest with ⟨v, -, -, heq⟩ | heq
    · rw [heq]
      exact (List.prefix_append owned [some v]).trans (ih (pc + 1) _)
    · rw [heq]
      exact ih (pc + 1) owned

theorem extractFrom_length (code : List Instruction) : ∀ (pc : Nat) (owned : Pool),
    (extractFrom eligible pc owned code).1.length = code.length := by
  induction code with
  | nil => exact fun _ _ => rfl
  | cons i rest ih =>
    intro pc owned
    rcases extractFrom_cons eligible pc owned i rest with ⟨v, -, -, heq⟩ | heq
    · rw [heq, List.length_cons, ih, List.length_cons]
    · rw [heq, List.length_cons, ih, List.length_cons]

/-- An instruction stays, or it is a constant that is moved to the slot behind
those before it. -/
theorem extractFrom_instr (code : List Instruction) : ∀ (pc : Nat) (owned : Pool) (j : Nat),
    (extractFrom eligible pc owned code).1[j]? = code[j]? ∨
      ∃ v slot, code[j]? = some (.loadConst v) ∧
        (extractFrom eligible pc owned code).1[j]? = some (.loadOwnedConst slot) ∧
        eligible (pc + j) = true ∧ owned.length ≤ slot ∧
        (extractFrom eligible pc owned code).2[slot]? = some (some v) := by
  induction code with
  | nil => exact fun _ _ _ => .inl rfl
  | cons i rest ih =>
    intro pc owned j
    rcases extractFrom_cons eligible pc owned i rest with ⟨v, rfl, hpc, heq⟩ | heq
    · rw [heq]
      cases j with
      | zero =>
        refine .inr ⟨v, owned.length, rfl, rfl, hpc, le_rfl, ?_⟩
        obtain ⟨more, hmore⟩ := extractFrom_pool eligible rest (pc + 1)
          (owned ++ [some v])
        rw [← hmore, List.append_assoc, List.getElem?_append_right le_rfl, Nat.sub_self]
        rfl
      | succ j =>
        rcases ih (pc + 1) (owned ++ [some v]) j with h | ⟨w, slot, hj, hj', helig, hle, hget⟩
        · exact .inl h
        · rw [List.length_append] at hle
          refine .inr ⟨w, slot, hj, hj', ?_, by omega, hget⟩
          rwa [← Nat.add_assoc, Nat.add_right_comm]
    · rw [heq]
      cases j with
      | zero => exact .inl rfl
      | succ j =>
        rcases ih (pc + 1) owned j with h | ⟨w, slot, hj, hj', helig, hle, hget⟩
        · exact .inl h
        · refine .inr ⟨w, slot, hj, hj', ?_, hle, hget⟩
          rwa [← Nat.add_assoc, Nat.add_right_comm]

theorem loadConst_ne_loadOwnedConst {v : Value} {slot : Nat} :
    some (Instruction.loadConst v) ≠ some (Instruction.loadOwnedConst slot) := nofun

theorem extractFrom_slot_le {code : List Instruction} {pc : Nat} {owned : Pool} {j slot : Nat}
    {v : Value} (hj : code[j]? = some (.loadConst v))
    (hslot : (extractFrom eligible pc owned code).1[j]? = some (.loadOwnedConst slot)) :
    owned.length ≤ slot := by
  rcases extractFrom_instr eligible code pc owned j with h | ⟨w, slot', -, h, -, hle, -⟩
  · rw [hslot, hj] at h
    exact absurd h.symm loadConst_ne_loadOwnedConst
  · rw [hslot, Option.some.injEq, Instruction.loadOwnedConst.injEq] at h
    exact h ▸ hle

/-- Different constants are moved to different slots. -/
theorem extractFrom_unique (code : List Instruction) : ∀ (pc : Nat) (owned : Pool)
    (j j' slot : Nat) (v v' : Value), code[j]? = some (.loadConst v) →
    code[j']? = some (.loadConst v') →
    (extractFrom eligible pc owned code).1[j]? = some (.loadOwnedConst slot) →
    (extractFrom eligible pc owned code).1[j']? = some (.loadOwnedConst slot) → j = j' := by
  induction code with
  | nil => exact fun _ _ _ _ _ _ _ h => nomatch h
  | cons i rest ih =>
    intro pc owned j j' slot v v' hj hj' hs hs'
    rcases extractFrom_cons eligible pc owned i rest with ⟨w, rfl, -, heq⟩ | heq
    · rw [heq] at hs hs'
      -- the first slot is the one behind `owned`, all later ones come after it
      have hfirst : ∀ {k : Nat}, (Instruction.loadOwnedConst owned.length ::
          (extractFrom eligible (pc + 1) (owned ++ [some w]) rest).1)[0]? =
            some (.loadOwnedConst k) → k = owned.length := by
        intro k hk
        exact (Instruction.loadOwnedConst.inj (Option.some.inj hk)).symm
      have hlater : ∀ {k l : Nat} {u : Value}, rest[k]? = some (.loadConst u) →
          (extractFrom eligible (pc + 1) (owned ++ [some w]) rest).1[k]? =
            some (.loadOwnedConst l) → l ≠ owned.length := by
        intro k l u hk hl
        have hle := extractFrom_slot_le eligible hk hl
        rw [List.length_append, List.length_singleton] at hle
        omega
      rcases j with _ | j <;> rcases j' with _ | j'
      · rfl
      · exact absurd (hfirst hs) (hlater hj' hs')
      · exact absurd (hfirst hs') (hlater hj hs)
      · exact congrArg Nat.succ (ih (pc + 1) _ j j' slot v v' hj hj' hs hs')
    · rw [heq] at hs hs'
      rcases j with _ | j <;> rcases j' with _ | j'
      · rfl
      · exact absurd (hj.symm.trans hs) loadConst_ne_loadOwnedConst
      · exact absurd (hj'.symm.trans hs') loadConst_ne_loadOwnedConst
      · exact congrArg Nat.succ (ih (pc + 1) owned j j' slot v v' hj hj' hs hs')

end ExtractFrom

theorem extracted (code : List Instruction) :
    Extracted code (extractOwnedConsts code).1 (extractOwnedConsts code).2 where
  length := extractFrom_length _ code 0 []
  instr pc := by
    rcases extractFrom_instr (atMostOncePcs code) code 0 [] pc with
      h | ⟨v, slot, hv, hslot, helig, -, hget⟩
    · exact .inl h
    · refine .inr ⟨v, slot, hv, hslot, fun hcycle => ?_, hget⟩
      rw [Nat.zero_add] at helig
      exact of_decide_eq_true helig ((mem_cyclicPcs code pc).mpr hcycle)
  unique := extractFrom_unique _ code 0 []

end Wqpl
