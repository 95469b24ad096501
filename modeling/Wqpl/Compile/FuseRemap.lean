/-
# The tables of a fusion pass

`fuse_once` as the source runs it: it first goes over the functions that the
code loads, then rewrites the code with a flag for every old instruction, and
moves targets through a table built from the flags (`oldToNewTable`). Read out
of range the table ends the program (`none`). The table is the position of the
first kept instruction (`oldToNewTable_eq`), so that the pass is the one of
`fuseOnce` (`rewrite_spec`), and its result has its targets in range again
(`InRange`). Every round that changes anything makes the code lighter
(`weights`), so that the rounds end (`fuse_remaps`).

Key definitions: `Node`, `Fuse.oldToNewTable`, `Fuse.fuseNodes`, `Fuse.fuse`.
-/
import Wqpl.Compile.FuseSimulation
import Wqpl.FallibleLoop

namespace Wqpl

/-- The spans of the debugger, one for an instruction. -/
abbrev PcSpan := Option (Nat × Nat)

/-- What loads a function whose code is at hand. -/
inductive FunctionLoad
  | const (v : Value)
  | closure (payload : ClosurePayload)

def FunctionLoad.instruction : FunctionLoad → Instruction
  | const v => .loadConst v
  | closure payload => .loadClosure payload

/-- An instruction, with the code of the function that it loads. -/
inductive Node
  | plain (i : Instruction)
  | loads (load : FunctionLoad) (pcSpans : Option (List PcSpan)) (code : List Node)

namespace Node

def instruction : Node → Instruction
  | plain i => i
  | loads load _ _ => load.instruction

end Node

/-- The instructions of code. -/
def instructions (code : List Node) : List Instruction := code.map Node.instruction

/-- The target that fusion moves. -/
def Instruction.jumpTarget : Instruction → Option Nat
  | .namedCall _ _ => none
  | i => i.target

namespace Fuse

/-! ### The pass -/

/-- Whether the pass rewrites at index `p`: the conditions of `pieceAt`. -/
def changesAt (boundary : Bool) (p : Nat) (i : Instruction) (next : Option Instruction) : Bool :=
  let next := if boundary then none else next
  match next.bind (dropPair i) with
  | some _ => true
  | none =>
    match i with
    | .jump pos => pos == p + 1
    | .jumpIfFalse pos => pos == p + 1
    | _ => (next.bind (branchPair i)).isSome

/-- `changed_any` of the loop. -/
def changes (boundaries : Nat → Bool) : Nat → (skip : Bool) → List Instruction → Bool
  | _, _, [] => false
  | p, true, _ :: rest => changes boundaries (p + 1) false rest
  | p, false, i :: rest =>
    changesAt (boundaries (p + 1)) p i rest.head? ||
      match pieceAt (boundaries (p + 1)) p i rest.head? with
      | .single _ => changes boundaries (p + 1) false rest
      | .pair _ => changes boundaries (p + 1) true rest

/-- The flags `keep` of the loop. -/
def flags (boundaries : Nat → Bool) : Nat → (skip : Bool) → List Instruction → List Bool
  | _, _, [] => []
  | p, true, _ :: rest => false :: flags boundaries (p + 1) false rest
  | p, false, i :: rest =>
    match pieceAt (boundaries (p + 1)) p i rest.head? with
    | .single out => out.isSome :: flags boundaries (p + 1) false rest
    | .pair out => out.isSome :: flags boundaries (p + 1) true rest

/-- `next_kept` from index `p` on: the index of the next kept instruction, and the length
of the code behind the last. -/
def nextKept : Nat → List Bool → List Nat
  | p, [] => [p]
  | p, keep :: rest =>
    let next := nextKept (p + 1) rest
    (if keep then p else next.headD 0) :: next

/-- `kept_to_new`, with `none` for -1. -/
def keptToNew (n : Nat) (origin : List Nat) : List (Option Nat) :=
  origin.zipIdx.foldl (fun table x => table.set x.1 (some x.2)) (List.replicate n none)

/-- `old_to_new`; `none` stands for the failed `expect`. -/
def oldToNewTable (keep : List Bool) (origin : List Nat) : Option (List Nat) :=
  let n := keep.length
  (List.range (n + 1)).mapM fun oldIdx =>
    match (nextKept 0 keep)[min oldIdx n]? with
    | none => none
    | some nk => if nk < n then (keptToNew n origin)[nk]?.join else some origin.length

/-- An instruction with its targets read from the table. -/
def remapIn (table : List Nat) (n origin newIdx : Nat) (i : Instruction) : Option Instruction :=
  let moved := i.remap (table.getD · 0) n origin newIdx
  match i.jumpTarget with
  | some pos => if pos < table.length then some moved else none
  | none => some moved

/-- A kept instruction; one that loads a function stays as it is. -/
def emitNode (old : List Node) (x : Nat × Instruction) : Node :=
  match old[x.1]? with
  | some (.loads load pcSpans code) => .loads load pcSpans code
  | _ => .plain x.2

def remapNode (table : List Nat) (n origin newIdx : Nat) : Node → Option Node
  | .plain i => (remapIn table n origin newIdx i).map .plain
  | node => some node

/-- The pass over the code of one function, after the functions that it loads. -/
def rewrite (changed : Bool) (old : List Node) (pcSpans : List PcSpan) :
    Option (Bool × List Node × List PcSpan) :=
  let code := instructions old
  let boundaries := tryBoundaries code
  let out := loop boundaries 0 false code
  if code.length = 0 then some (changed, old, pcSpans)
  else if changed || changes boundaries 0 false code then do
    let table ← oldToNewTable (flags boundaries 0 false code) (out.map Prod.fst)
    let moved ← out.zipIdx.mapM fun x =>
      remapNode table code.length x.1.1 x.2 (emitNode old x.1)
    return (true, moved, out.map fun x => pcSpans[x.1]?.join)
  else some (false, old, pcSpans)

/-- `has_fusable_patterns`; a pair of patterns that `fuse_once` leaves alone is among
them. -/
def hasFusablePatterns : Nat → List Instruction → Bool
  | _, [] => false
  | p, i :: rest =>
    (match rest.head? with
      | none => false
      | some next =>
        (dropPair i next).isSome || (branchPair i next).isSome ||
          match i, next with
          | .loadLocal _, .index => true
          | _, _ => false) ||
      (match i with
        | .jump pos => pos == p + 1
        | .jumpIfFalse pos => pos == p + 1
        | _ => false) ||
      hasFusablePatterns (p + 1) rest

mutual

/-- The pass over the function that an instruction loads. -/
def fuseNode : Node → Option (Bool × Node)
  | .plain i => some (false, .plain i)
  | .loads load pcSpans code =>
    if hasFusablePatterns 0 (instructions code) then do
      let (changed, nested) ← fuseLoads code
      let (changed, nested, nestedSpans) ← rewrite changed nested (pcSpans.getD [])
      return if changed then (true, .loads load (some nestedSpans) nested)
        else (false, .loads load pcSpans code)
    else some (false, .loads load pcSpans code)
termination_by structural node => node

/-- The pass over the functions that the code loads. -/
def fuseLoads : List Node → Option (Bool × List Node)
  | [] => some (false, [])
  | node :: rest => do
    let (changed, node) ← fuseNode node
    let (restChanged, rest) ← fuseLoads rest
    return (changed || restChanged, node :: rest)
termination_by structural code => code

end

/-- `fuse_once`. -/
def fuseNodes (code : List Node) (pcSpans : List PcSpan) :
    Option (Bool × List Node × List PcSpan) := do
  let (changed, code) ← fuseLoads code
  rewrite changed code pcSpans

/-- `Compiler::fuse`: rounds until nothing changes. -/
def fuse : Nat → List Node → List PcSpan → Option (List Node × List PcSpan)
  | 0, _, _ => none
  | rounds + 1, code, pcSpans =>
    match fuseNodes code pcSpans with
    | none => none
    | some (false, code, pcSpans) => some (code, pcSpans)
    | some (true, code, pcSpans) => fuse rounds code pcSpans

/-! ### The table -/

section Table

/-- The indices from `p` on whose flag is set. -/
def positions : Nat → List Bool → List Nat
  | _, [] => []
  | p, keep :: rest => if keep then p :: positions (p + 1) rest else positions (p + 1) rest

theorem le_of_mem_positions {q : Nat} : ∀ {p : Nat} {keep : List Bool},
    q ∈ positions p keep → p ≤ q ∧ q < p + keep.length
  | _, [], h => nomatch h
  | p, keep :: rest, h => by
    rw [List.length_cons]
    have hrest : q ∈ positions (p + 1) rest → p ≤ q ∧ q < p + (rest.length + 1) := by
      intro h
      have := le_of_mem_positions h
      omega
    cases keep with
    | false => exact hrest h
    | true =>
      rcases List.mem_cons.mp h with rfl | h
      · omega
      · exact hrest h

theorem pairwise_positions : ∀ (p : Nat) (keep : List Bool), (positions p keep).Pairwise (· < ·)
  | _, [] => .nil
  | p, false :: rest => pairwise_positions (p + 1) rest
  | p, true :: rest => by
    refine List.pairwise_cons.mpr ⟨fun q h => ?_, pairwise_positions (p + 1) rest⟩
    have := le_of_mem_positions h
    omega

/-- The first kept index at or behind an index, and the end of the code behind the last. -/
theorem getElem?_nextKept : ∀ (p : Nat) (keep : List Bool) (j : Nat), j ≤ keep.length →
    (nextKept p keep)[j]? =
      some (((positions p keep).find? fun q => decide (p + j ≤ q)).getD (p + keep.length))
  | p, [], j, h => by
    obtain rfl : j = 0 := Nat.le_zero.mp h
    rfl
  | p, keep :: rest, j, h => by
    have hrest := getElem?_nextKept (p + 1) rest
    have hend : p + 1 + rest.length = p + (rest.length + 1) := by omega
    rw [nextKept]
    cases j with
    | zero =>
      have hhead := hrest 0 (Nat.zero_le _)
      rw [← List.head?_eq_getElem?] at hhead
      cases keep with
      | true => simp [positions]
      | false =>
        simp only [Bool.false_eq_true, if_false, List.getElem?_cons_zero, positions,
          List.headD_eq_head?_getD, hhead, Option.getD_some, List.length_cons, hend]
        refine congrArg (fun o : Option Nat => some (o.getD (p + (rest.length + 1))))
          (List.find?_congr fun q hq => ?_)
        have := (le_of_mem_positions hq).1
        rw [decide_eq_true (by omega), decide_eq_true (by omega)]
    | succ j =>
      rw [List.getElem?_cons_succ, hrest j (Nat.le_of_succ_le_succ h), List.length_cons, hend,
        Nat.add_assoc, Nat.add_comm 1 j]
      cases keep with
      | false => rfl
      | true =>
        rw [positions, if_pos rfl, List.find?_cons_of_neg]
        simp

/-- The position of every kept index. -/
theorem getElem?_foldl_set {k : Nat} :
    ∀ {origin : List Nat} {table : List (Option Nat)} {m o : Nat}, origin.Nodup →
    (∀ q ∈ origin, q < table.length) → origin[m]? = some o →
    ((origin.zipIdx k).foldl (fun table x => table.set x.1 (some x.2)) table)[o]? =
      some (some (k + m)) := by
  intro origin
  induction origin generalizing k with
  | nil => intro _ _ _ _ _ h; cases h
  | cons q origin ih =>
    intro table m o hnodup hlt hm
    obtain ⟨hnotMem, hnodup⟩ := List.nodup_cons.mp hnodup
    have hlt' : ∀ r ∈ origin, r < (table.set q (some k)).length := fun r hr => by
      rw [List.length_set]
      exact hlt r (List.mem_cons_of_mem _ hr)
    rw [List.zipIdx_cons, List.foldl_cons]
    cases m with
    | succ m =>
      rw [ih hnodup hlt' hm, Nat.add_assoc, Nat.add_comm 1 m]
    | zero =>
      obtain rfl : q = o := Option.some.inj hm
      have hkeep : ∀ {l : List (Nat × Nat)} {table : List (Option Nat)}, (∀ x ∈ l, x.1 ≠ q) →
          (l.foldl (fun table x => table.set x.1 (some x.2)) table)[q]? = table[q]? := by
        intro l
        induction l with
        | nil => intro _ _; rfl
        | cons x l ihl =>
          intro table h
          rw [List.foldl_cons, ihl fun y hy => h y (List.mem_cons_of_mem _ hy),
            List.getElem?_set_ne (h x List.mem_cons_self)]
      rw [hkeep, List.getElem?_set_self (hlt q List.mem_cons_self), Nat.add_zero]
      intro x hx heq
      exact hnotMem (heq ▸ List.fst_mem_of_mem_zipIdx hx)

/-- The table is the position of the first kept index. -/
theorem oldToNewTable_positions (keep : List Bool) :
    oldToNewTable keep (positions 0 keep) = some ((List.range (keep.length + 1)).map fun p =>
      (positions 0 keep).findIdx fun q => decide (p ≤ q)) := by
  unfold oldToNewTable
  refine mapM_eq_map fun p hp => ?_
  have hle : p ≤ keep.length := Nat.le_of_lt_succ (List.mem_range.mp hp)
  rw [Nat.min_eq_left hle, getElem?_nextKept 0 keep p hle, Nat.zero_add, Nat.zero_add]
  dsimp only
  cases hfind : (positions 0 keep).find? fun q => decide (p ≤ q) with
  | none =>
    rw [Option.getD_none, if_neg (Nat.lt_irrefl _)]
    rw [List.find?_eq_none] at hfind
    exact congrArg some (List.findIdx_eq_length_of_false fun q hq => by simpa using hfind q hq).symm
  | some o =>
    rw [List.find?_eq_getElem?_findIdx] at hfind
    have hlt : ∀ q ∈ positions 0 keep, q < keep.length := fun q hq => by
      have := (le_of_mem_positions hq).2
      omega
    rw [Option.getD_some, if_pos (hlt o (List.mem_of_getElem? hfind)), keptToNew,
      getElem?_foldl_set ((pairwise_positions 0 keep).imp Nat.ne_of_lt) (by simpa using hlt) hfind,
      Nat.zero_add]
    rfl

variable {boundaries : Nat → Bool}

theorem positions_flags {code : List Instruction} : ∀ {p : Nat} {skip : Bool},
    positions p (flags boundaries p skip code) = (loop boundaries p skip code).map Prod.fst := by
  induction code with
  | nil => intro p skip; cases skip <;> rfl
  | cons i rest ih =>
    intro p skip
    cases skip with
    | true => exact ih
    | false =>
      rw [flags, loop]
      cases pieceAt (boundaries (p + 1)) p i rest.head? with
      | single out => cases out <;> simp [positions, emit, ih]
      | pair out => cases out <;> simp [positions, emit, ih]

theorem length_flags {code : List Instruction} : ∀ {p : Nat} {skip : Bool},
    (flags boundaries p skip code).length = code.length := by
  induction code with
  | nil => intro p skip; cases skip <;> rfl
  | cons i rest ih =>
    intro p skip
    cases skip with
    | true => exact congrArg Nat.succ ih
    | false =>
      rw [flags]
      cases pieceAt (boundaries (p + 1)) p i rest.head? with
      | single out => exact congrArg Nat.succ ih
      | pair out => exact congrArg Nat.succ ih

/-- The flags of the code. -/
theorem positions_kept (code : List Instruction) :
    positions 0 (flags (tryBoundaries code) 0 false code) = (kept code).map Prod.fst :=
  positions_flags

theorem oldToNewTable_eq (code : List Instruction) :
    oldToNewTable (flags (tryBoundaries code) 0 false code) ((kept code).map Prod.fst) =
      some ((List.range (code.length + 1)).map (oldToNew code)) := by
  have h := oldToNewTable_positions (flags (tryBoundaries code) 0 false code)
  rw [positions_kept, length_flags] at h
  rw [h]
  refine congrArg some (List.map_congr_left fun p _ => ?_)
  rw [List.findIdx_map]
  rfl

theorem pairwise_kept (code : List Instruction) : ((kept code).map Prod.fst).Pairwise (· < ·) := by
  rw [← positions_kept]
  exact pairwise_positions 0 _

/-- What is kept before an old index stands before its new index. -/
theorem lt_oldToNew_iff {code : List Instruction} {k p : Nat} {x : Nat × Instruction}
    (hk : (kept code)[k]? = some x) : k < oldToNew code p ↔ x.1 < p := by
  obtain ⟨hlt, rfl⟩ := List.getElem?_eq_some_iff.mp hk
  constructor
  · intro h
    have := List.not_of_lt_findIdx h
    simpa using this
  · intro h
    by_contra hle
    have hle : oldToNew code p ≤ k := Nat.not_lt.mp hle
    have hlt' : oldToNew code p < (kept code).length := Nat.lt_of_le_of_lt hle hlt
    have hfirst : p ≤ (kept code)[oldToNew code p].1 :=
      of_decide_eq_true (@List.findIdx_getElem _ (fun x : Nat × Instruction => decide (p ≤ x.1))
        (kept code) hlt')
    rcases Nat.eq_or_lt_of_le hle with heq | hless
    · simp only [heq] at hfirst
      omega
    · have hsorted := List.pairwise_iff_getElem.mp (pairwise_kept code) (oldToNew code p) k
        (by simpa using hlt') (by simpa using hlt) hless
      rw [List.getElem_map, List.getElem_map] at hsorted
      omega

end Table

/-! ### Moved instructions -/

section Moved

/-- Targets and the ends of try bodies lie in the code. -/
structure InRange (code : List Instruction) : Prop where
  targets : ∀ i ∈ code, ∀ t, i.jumpTarget = some t → t ≤ code.length
  tries : ∀ q len, code[q]? = some (.try_ len) → q + 1 + len ≤ code.length

theorem remap_congr {f g : Nat → Nat} {n : Nat} (h : ∀ p ≤ n, f p = g p) (origin newIdx : Nat)
    {i : Instruction} (ht : ∀ t, i.jumpTarget = some t → t ≤ n) :
    i.remap f n origin newIdx = i.remap g n origin newIdx := by
  cases i with
  | try_ len => rw [Instruction.remap, Instruction.remap, h _ (Nat.min_le_right _ _)]
  | _ => first
    | rfl
    | rw [Instruction.remap, Instruction.remap, h _ (ht _ rfl)]

theorem jumpTarget_remap (f : Nat → Nat) (n origin newIdx : Nat) (i : Instruction) :
    (i.remap f n origin newIdx).jumpTarget = i.jumpTarget.map f := by
  cases i <;> rfl

theorem remapIn_table (code : List Instruction) (origin newIdx : Nat) {i : Instruction}
    (ht : ∀ t, i.jumpTarget = some t → t ≤ code.length) :
    remapIn ((List.range (code.length + 1)).map (oldToNew code)) code.length origin newIdx i =
      some (i.remap (oldToNew code) code.length origin newIdx) := by
  have htable : ∀ p ≤ code.length,
      ((List.range (code.length + 1)).map (oldToNew code)).getD p 0 = oldToNew code p := by
    intro p hp
    rw [List.getD_eq_getElem?_getD, List.getElem?_map, List.getElem?_range (by omega)]
    rfl
  unfold remapIn
  dsimp only
  rw [remap_congr htable origin newIdx ht]
  cases htarget : i.jumpTarget with
  | none => rfl
  | some t =>
    have := ht t htarget
    exact if_pos (by rw [List.length_map, List.length_range]; omega)

/-- What an instruction that the pass rewrites becomes. -/
structure Rewrites (code : List Instruction) (i c : Instruction) : Prop where
  notLoad : ∀ load : FunctionLoad, i ≠ load.instruction
  notTry : ∀ len, c ≠ .try_ len
  notBranch : ∀ pos, c ≠ .jumpIfFalse pos
  target : ∀ t, c.jumpTarget = some t → ∃ j ∈ code, j.jumpTarget = some t

theorem Pairs.rewrites {a b c : Instruction} (h : Pairs a b c) {code : List Instruction}
    (hb : b ∈ code) : Rewrites code a c := by
  cases h with
  | drop h =>
    unfold dropPair at h
    split at h <;> cases h <;>
      exact ⟨fun load => by cases load <;> exact nofun, nofun, nofun, nofun⟩
  | branch h =>
    unfold branchPair at h
    split at h
    · next op left right pos =>
      have hload : ∀ load : FunctionLoad, Instruction.binaryOp op left right ≠ load.instruction :=
        fun load => by cases load <;> exact nofun
      split at h
      · cases h
        exact ⟨hload, nofun, nofun, fun t ht => ⟨_, hb, ht⟩⟩
      · split at h
        · cases h
          exact ⟨hload, nofun, nofun, fun t ht => ⟨_, hb, ht⟩⟩
        · split at h
          · cases h
            exact ⟨hload, nofun, nofun, fun t ht => ⟨_, hb, ht⟩⟩
          · cases h
    · cases h

variable {boundaries : Nat → Bool}

/-- What is kept stood at its origin or was rewritten there. -/
theorem mem_loop_origin {code : List Instruction} : ∀ {p : Nat} {skip : Bool}
    {x : Nat × Instruction}, x ∈ loop boundaries p skip code →
    ∃ j i, x.1 = p + j ∧ code[j]? = some i ∧ (x.2 = i ∨ Rewrites code i x.2) := by
  induction code with
  | nil =>
    intro p skip x h
    cases skip <;> cases h
  | cons i rest ih =>
    intro p skip x h
    have hrest : ∀ {skip}, x ∈ loop boundaries (p + 1) skip rest → ∃ j a, x.1 = p + j ∧
        (i :: rest)[j]? = some a ∧ (x.2 = a ∨ Rewrites (i :: rest) a x.2) := by
      intro skip h
      obtain ⟨j, a, hj, ha, hx⟩ := ih h
      refine ⟨j + 1, a, by omega, ha, hx.imp_right fun h => ⟨h.notLoad, h.notTry, h.notBranch, ?_⟩⟩
      intro t ht
      obtain ⟨b, hb, hbt⟩ := h.target t ht
      exact ⟨b, List.mem_cons_of_mem _ hb, hbt⟩
    cases skip with
    | true => exact hrest h
    | false =>
      have hpieces := pieceAt_pieces (boundaries (p + 1)) p i rest.head?
      rw [loop] at h
      generalize pieceAt (boundaries (p + 1)) p i rest.head? = piece at hpieces h
      cases hpieces with
      | drop ha => exact hrest h
      | dropConst ha hb hboundary => exact hrest h
      | keep =>
        rcases List.mem_cons.mp h with rfl | h
        · exact ⟨0, i, rfl, rfl, .inl rfl⟩
        · exact hrest h
      | pop ha =>
        rcases List.mem_cons.mp h with rfl | h
        · refine ⟨0, i, rfl, rfl, .inr ⟨fun load => ?_, by simp, by simp, fun _ h => by cases h⟩⟩
          rw [ha]
          cases load <;> simp [FunctionLoad.instruction]
        · exact hrest h
      | pairs hb hpair hboundary =>
        rcases List.mem_cons.mp h with rfl | h
        · exact ⟨0, i, rfl, rfl,
            .inr (hpair.rewrites (List.mem_cons_of_mem _ (List.mem_of_head? hb)))⟩
        · exact hrest h

theorem mem_kept_origin {code : List Instruction} {x : Nat × Instruction} (h : x ∈ kept code) :
    ∃ i, code[x.1]? = some i ∧ (x.2 = i ∨ Rewrites code i x.2) := by
  obtain ⟨j, i, hj, hi, hx⟩ := mem_loop_origin h
  rw [Nat.zero_add] at hj
  exact ⟨i, hj ▸ hi, hx⟩

theorem InRange.kept {code : List Instruction} (h : InRange code) {x : Nat × Instruction}
    (hx : x ∈ kept code) : ∀ t, x.2.jumpTarget = some t → t ≤ code.length := by
  intro t ht
  obtain ⟨i, hi, rfl | hrewrites⟩ := mem_kept_origin hx
  · exact h.targets _ (List.mem_of_getElem? hi) t ht
  · obtain ⟨j, hj, hjt⟩ := hrewrites.target t ht
    exact h.targets j hj t hjt

/-- How the targets and the ends of try bodies moved. -/
structure Remaps (code code' : List Instruction) : Prop where
  length : code'.length = (kept code).length
  first : ∀ (k : Nat) (x : Nat × Instruction) (p : Nat), (kept code)[k]? = some x →
    (k < oldToNew code p ↔ x.1 < p)
  targets : ∀ (k : Nat) (x : Nat × Instruction) (t : Nat), (kept code)[k]? = some x →
    x.2.jumpTarget = some t → ∃ i : Instruction, code'[k]? = some i ∧
      i.jumpTarget = some (oldToNew code t) ∧ oldToNew code t ≤ code'.length
  tries : ∀ (k : Nat) (x : Nat × Instruction) (len : Nat), (kept code)[k]? = some x →
    x.2 = .try_ len → ∃ len', code'[k]? = some (.try_ len') ∧
      k + 1 + len' = oldToNew code (x.1 + 1 + len)

theorem getElem?_fuseOnce {code : List Instruction} {k : Nat} {x : Nat × Instruction}
    (h : (kept code)[k]? = some x) :
    (fuseOnce code)[k]? = some (x.2.remap (oldToNew code) code.length x.1 k) := by
  unfold fuseOnce
  rw [List.getElem?_mapIdx, h]
  rfl

theorem InRange.remaps {code : List Instruction} (h : InRange code) :
    Remaps code (fuseOnce code) where
  length := by
    unfold fuseOnce
    exact List.length_mapIdx
  first _ _ _ hk := lt_oldToNew_iff hk
  targets k x t hk ht := by
    refine ⟨_, getElem?_fuseOnce hk, ?_, oldToNew_le_length code t⟩
    rw [jumpTarget_remap, ht]
    rfl
  tries k x len hk hx := by
    have hnew := getElem?_fuseOnce hk
    obtain ⟨i, hi, heq | hrewrites⟩ := mem_kept_origin (List.mem_of_getElem? hk)
    · rw [hx] at heq
      subst heq
      have hend := h.tries _ _ hi
      have hlt := (lt_oldToNew_iff (p := x.1 + 1 + len) hk).mpr (by omega)
      rw [hx, Instruction.remap, Nat.min_eq_left hend] at hnew
      exact ⟨_, hnew, by omega⟩
    · exact absurd hx (hrewrites.notTry len)

/-- Rewritten code has its targets in range. -/
theorem InRange.fuseOnce {code : List Instruction} (h : InRange code) :
    InRange (fuseOnce code) where
  targets i hi t ht := by
    obtain ⟨k, hk⟩ := List.mem_iff_getElem?.mp hi
    unfold Wqpl.fuseOnce at hk
    rw [List.getElem?_mapIdx] at hk
    obtain ⟨x, hx, rfl⟩ := Option.map_eq_some_iff.mp hk
    rw [jumpTarget_remap] at ht
    obtain ⟨t', ht', rfl⟩ := Option.map_eq_some_iff.mp ht
    exact oldToNew_le_length code t'
  tries k len hk := by
    have hi := hk
    unfold Wqpl.fuseOnce at hi
    rw [List.getElem?_mapIdx] at hi
    obtain ⟨x, hx, hremap⟩ := Option.map_eq_some_iff.mp hi
    obtain ⟨len', hlen', -⟩ := remap_try hremap
    obtain ⟨len'', hlen'', hend⟩ := h.remaps.tries k x len' hx hlen'
    obtain rfl : len'' = len := by
      rw [hk] at hlen''
      cases hlen''
      rfl
    rw [hend]
    exact oldToNew_le_length code _

end Moved

/-! ### Weights -/

section Weights

/-- A branch may become a `pop`, and so weighs more. -/
def instructionWeight : Instruction → Nat
  | .jumpIfFalse _ => 2
  | _ => 1

mutual

def nodeWeight : Node → Nat
  | .plain i => instructionWeight i
  | .loads _ _ code => 1 + weights code
termination_by structural node => node

/-- Every round that changes anything makes code lighter. -/
def weights : List Node → Nat
  | [] => 0
  | node :: rest => nodeWeight node + weights rest
termination_by structural code => code

end

theorem weights_append : ∀ a b : List Node, weights (a ++ b) = weights a + weights b
  | [], b => (Nat.zero_add _).symm
  | node :: a, b => by
    rw [List.cons_append, weights, weights, weights_append a b, Nat.add_assoc]

theorem instructionWeight_pos (i : Instruction) : 0 < instructionWeight i := by
  cases i <;> exact Nat.succ_pos _

theorem nodeWeight_pos (node : Node) : 0 < nodeWeight node := by
  cases node with
  | plain i => exact instructionWeight_pos i
  | loads load pcSpans code =>
    rw [nodeWeight]
    omega

theorem instructionWeight_remap (f : Nat → Nat) (n origin newIdx : Nat) (i : Instruction) :
    instructionWeight (i.remap f n origin newIdx) = instructionWeight i := by
  cases i <;> rfl

theorem instructionWeight_of_not_branch {c : Instruction} (h : ∀ pos, c ≠ .jumpIfFalse pos) :
    instructionWeight c = 1 := by
  cases c with
  | jumpIfFalse pos => exact absurd rfl (h pos)
  | _ => rfl

/-- The pass changes nothing where it keeps the instruction. -/
theorem changesAt_eq_false (boundary : Bool) (p : Nat) (i : Instruction)
    (next : Option Instruction) :
    changesAt boundary p i next = false ∨ pieceAt boundary p i next ≠ .single (some i) := by
  unfold changesAt pieceAt
  generalize (if boundary then none else next) = next'
  dsimp only
  cases next'.bind (dropPair i) with
  | some out => exact .inr nofun
  | none =>
    generalize next'.bind (branchPair i) = fused
    cases i with
    | jump pos =>
      by_cases h : pos = p + 1
      · refine .inr ?_
        dsimp only
        rw [if_pos h]
        exact nofun
      · exact .inl (beq_eq_false_iff_ne.mpr h)
    | jumpIfFalse pos =>
      by_cases h : pos = p + 1
      · refine .inr ?_
        dsimp only
        rw [if_pos h]
        exact nofun
      · exact .inl (beq_eq_false_iff_ne.mpr h)
    | _ =>
      cases fused with
      | some c => exact .inr nofun
      | none => exact .inl rfl

variable {boundaries : Nat → Bool} {old : List Node}

theorem emitNode_keep {p : Nat} {node : Node} (h : old[p]? = some node) :
    emitNode old (p, node.instruction) = node := by
  unfold emitNode
  rw [h]
  cases node <;> rfl

theorem emitNode_rewrites {p : Nat} {node : Node} (h : old[p]? = some node)
    {code : List Instruction} {c : Instruction} (hrewrites : Rewrites code node.instruction c) :
    emitNode old (p, c) = .plain c := by
  unfold emitNode
  rw [h]
  cases node with
  | plain i => rfl
  | loads load pcSpans code => exact absurd rfl (hrewrites.notLoad load)

theorem head?_instructions (code : List Node) :
    (instructions code).head? = code.head?.map Node.instruction := List.head?_map

/-- The loop never adds weight, and takes some off where it changes anything; the second
instruction of a pair leaves its weight behind. -/
theorem weights_loop : ∀ {code : List Node} {p : Nat} {skip : Bool}, old.drop p = code →
    weights ((loop boundaries p skip (instructions code)).map (emitNode old)) +
        (changes boundaries p skip (instructions code)).toNat +
        (if skip = true ∧ code ≠ [] then 1 else 0) ≤ weights code := by
  intro code
  induction code with
  | nil => intro p skip _; cases skip <;> simp [instructions, loop, changes, weights]
  | cons node rest ih =>
    intro p skip hdrop
    have hnode : old[p]? = some node := by
      rw [← List.head?_drop, hdrop]
      rfl
    have hrest : old.drop (p + 1) = rest := by
      rw [← List.drop_drop, hdrop]
      rfl
    have hpos := nodeWeight_pos node
    have hnext := @ih (p + 1) false hrest
    have hsecond := @ih (p + 1) true hrest
    rw [show instructions (node :: rest) = node.instruction :: instructions rest from rfl, weights]
    cases skip with
    | true =>
      simp only [loop, changes]
      simp only [Bool.false_eq_true, false_and, if_false] at hnext
      simp
      omega
    | false =>
      have hchanges := changesAt_eq_false (boundaries (p + 1)) p node.instruction
        (instructions rest).head?
      have hpieces := pieceAt_pieces (boundaries (p + 1)) p node.instruction
        (instructions rest).head?
      simp only [loop, changes]
      generalize changesAt (boundaries (p + 1)) p node.instruction (instructions rest).head?
        = changed at hchanges
      generalize pieceAt (boundaries (p + 1)) p node.instruction (instructions rest).head?
        = piece at hpieces hchanges
      simp only [Bool.false_eq_true, false_and, if_false, Nat.add_zero] at hnext ⊢
      have hbit : changed.toNat ≤ 1 := Bool.toNat_le changed
      -- a pair leaves at most one instruction for two
      have hpair : ∀ {out : Option Instruction}, (instructions rest).head? ≠ none →
          (∀ c, out = some c → nodeWeight (emitNode old (p, c)) = 1) →
          weights ((emit p out ++ loop boundaries (p + 1) true (instructions rest)).map
              (emitNode old)) +
            (changed || changes boundaries (p + 1) true (instructions rest)).toNat ≤
          nodeWeight node + weights rest := by
        intro out hhead hout
        have hrestne : rest ≠ [] := fun h => hhead (by rw [h]; rfl)
        rw [if_pos ⟨rfl, hrestne⟩] at hsecond
        have hemit : weights ((emit p out).map (emitNode old)) ≤ 1 := by
          cases out with
          | none => exact Nat.zero_le _
          | some c =>
            show nodeWeight (emitNode old (p, c)) + 0 ≤ 1
            rw [hout c rfl]
        have hor : (changed || changes boundaries (p + 1) true (instructions rest)).toNat ≤ 1 :=
          Bool.toNat_le _
        rw [List.map_append, weights_append]
        omega
      have hsingle : ∀ {out : Option Instruction},
          weights ((emit p out).map (emitNode old)) + changed.toNat ≤ nodeWeight node →
          weights ((emit p out ++ loop boundaries (p + 1) false (instructions rest)).map
              (emitNode old)) +
            (changed || changes boundaries (p + 1) false (instructions rest)).toNat ≤
          nodeWeight node + weights rest := by
        intro out hout
        have hor : ∀ later : Bool, (changed || later).toNat ≤ changed.toNat + later.toNat :=
          fun later => by cases changed <;> cases later <;> decide
        have := hor (changes boundaries (p + 1) false (instructions rest))
        rw [List.map_append, weights_append]
        omega
      cases hpieces with
      | keep =>
        obtain rfl : changed = false := hchanges.resolve_right (absurd rfl)
        refine hsingle ?_
        show nodeWeight (emitNode old (p, node.instruction)) + 0 + 0 ≤ nodeWeight node
        rw [emitNode_keep hnode]
        exact Nat.le_refl _
      | drop ha =>
        refine hsingle ?_
        show 0 + changed.toNat ≤ nodeWeight node
        omega
      | pop ha =>
        have hbranch : node = .plain (.jumpIfFalse (p + 1)) := by
          cases node with
          | plain i => exact congrArg Node.plain ha
          | loads load pcSpans code => cases load <;> cases ha
        subst hbranch
        have hpop : emitNode old (p, .pop) = .plain .pop := by
          unfold emitNode
          rw [hnode]
        refine hsingle ?_
        show nodeWeight (emitNode old (p, .pop)) + 0 + changed.toNat ≤ 2
        rw [hpop]
        show 1 + 0 + changed.toNat ≤ 2
        omega
      | dropConst ha hb hboundary => exact hpair (by simp [hb]) (by simp)
      | pairs hb h hboundary =>
        refine hpair (by simp [hb]) fun c hc => ?_
        cases hc
        have hrewrites := h.rewrites (List.mem_of_head? hb)
        rw [emitNode_rewrites hnode hrewrites, nodeWeight,
          instructionWeight_of_not_branch hrewrites.notBranch]

theorem weights_eq_sum : ∀ code : List Node, weights code = (code.map nodeWeight).sum
  | [] => rfl
  | node :: rest => by rw [weights, weights_eq_sum rest, List.map_cons, List.sum_cons]

end Weights

/-! ### Rounds -/

section Rounds

mutual

/-- The code that the instruction loads has its targets in range, at every depth. -/
def Nested : Node → Prop
  | .plain _ => True
  | .loads _ _ code => InRange (instructions code) ∧ NestedIn code
termination_by structural node => node

def NestedIn : List Node → Prop
  | [] => True
  | node :: rest => Nested node ∧ NestedIn rest
termination_by structural code => code

end

/-- Code whose targets and try bodies lie in it, with that of its nested functions. -/
structure WellTargeted (code : List Node) : Prop where
  inRange : InRange (instructions code)
  nested : NestedIn code

theorem nestedIn_iff : ∀ {code : List Node}, NestedIn code ↔ ∀ node ∈ code, Nested node
  | [] => ⟨fun _ => nofun, fun _ => trivial⟩
  | node :: rest => by rw [NestedIn, nestedIn_iff, List.forall_mem_cons]

variable {old : List Node}

/-- A kept instruction that loads a function stood there before. -/
theorem emitNode_cases {x : Nat × Instruction} (hx : x ∈ kept (instructions old)) :
    emitNode old x = .plain x.2 ∨ ∃ load pcSpans code,
      emitNode old x = .loads load pcSpans code ∧ .loads load pcSpans code ∈ old ∧
        x.2 = load.instruction := by
  obtain ⟨i, hi, horigin⟩ := mem_kept_origin hx
  unfold instructions at hi
  rw [List.getElem?_map] at hi
  obtain ⟨node, hnode, rfl⟩ := Option.map_eq_some_iff.mp hi
  unfold emitNode
  rw [hnode]
  cases node with
  | plain i => exact .inl rfl
  | loads load pcSpans code =>
    refine .inr ⟨load, pcSpans, code, rfl, List.mem_of_getElem? hnode, ?_⟩
    exact horigin.resolve_right fun h => h.notLoad load rfl

theorem remap_load (f : Nat → Nat) (n origin newIdx : Nat) (load : FunctionLoad) :
    load.instruction.remap f n origin newIdx = load.instruction := by
  cases load <;> rfl

/-- A kept instruction at its new index. -/
def movedNode (old : List Node) (x : (Nat × Instruction) × Nat) : Node :=
  match emitNode old x.1 with
  | .plain i =>
    .plain (i.remap (oldToNew (instructions old)) (instructions old).length x.1.1 x.2)
  | node => node

theorem remapNode_moved (h : InRange (instructions old)) {x : (Nat × Instruction) × Nat}
    (hx : x.1 ∈ kept (instructions old)) :
    remapNode ((List.range ((instructions old).length + 1)).map (oldToNew (instructions old)))
      (instructions old).length x.1.1 x.2 (emitNode old x.1) = some (movedNode old x) := by
  unfold movedNode
  rcases emitNode_cases hx with hemit | ⟨load, pcSpans, code, hemit, -, -⟩
  · rw [hemit]
    exact congrArg (Option.map Node.plain) (remapIn_table _ _ _ (h.kept hx))
  · rw [hemit]
    rfl

theorem movedNode_instruction {x : (Nat × Instruction) × Nat}
    (hx : x.1 ∈ kept (instructions old)) : (movedNode old x).instruction =
      x.1.2.remap (oldToNew (instructions old)) (instructions old).length x.1.1 x.2 := by
  unfold movedNode
  rcases emitNode_cases hx with hemit | ⟨load, pcSpans, code, hemit, -, hload⟩
  · rw [hemit]
    rfl
  · rw [hemit, hload, remap_load]
    rfl

theorem nodeWeight_movedNode (x : (Nat × Instruction) × Nat) :
    nodeWeight (movedNode old x) = nodeWeight (emitNode old x.1) := by
  unfold movedNode
  cases emitNode old x.1 with
  | plain i => exact instructionWeight_remap _ _ _ _ i
  | loads load pcSpans code => rfl

theorem nested_movedNode (h : NestedIn old) {x : (Nat × Instruction) × Nat}
    (hx : x.1 ∈ kept (instructions old)) : Nested (movedNode old x) := by
  unfold movedNode
  rcases emitNode_cases hx with hemit | ⟨load, pcSpans, code, hemit, hmem, -⟩
  · rw [hemit]
    exact trivial
  · rw [hemit]
    exact nestedIn_iff.mp h _ hmem

/-- What a round does to code and its spans. -/
structure Round (code : List Node) (pcSpans : List PcSpan) (code' : List Node)
    (pcSpans' : List PcSpan) : Prop where
  wellTargeted : WellTargeted code'
  remaps : Remaps (instructions code) (instructions code')
  spans : pcSpans'.length = code'.length
  lighter : weights code' ≤ weights code

theorem mem_zipIdx_kept {code : List Instruction} {x : (Nat × Instruction) × Nat}
    (h : x ∈ (kept code).zipIdx) : x.1 ∈ kept code := List.fst_mem_of_mem_zipIdx h

/-- The pass over one function gives the code of `fuseOnce`. -/
theorem rewrite_spec (changed : Bool) (h : WellTargeted old) (pcSpans : List PcSpan) :
    (rewrite changed old pcSpans = some (changed, old, pcSpans) ∧
      (old = [] ∨ changed = false)) ∨
    ∃ code' pcSpans', rewrite changed old pcSpans = some (true, code', pcSpans') ∧
      instructions code' = fuseOnce (instructions old) ∧ Round old pcSpans code' pcSpans' ∧
      (changed = false → weights code' < weights old) := by
  unfold rewrite
  dsimp only
  by_cases hempty : (instructions old).length = 0
  · rw [if_pos hempty]
    refine .inl ⟨rfl, .inl ?_⟩
    rwa [instructions, List.length_map, List.length_eq_zero_iff] at hempty
  rw [if_neg hempty]
  cases hchanges : changed || changes (tryBoundaries (instructions old)) 0 false
      (instructions old) with
  | false =>
    obtain ⟨rfl, -⟩ := Bool.or_eq_false_iff.mp hchanges
    rw [if_neg Bool.false_ne_true]
    exact .inl ⟨rfl, .inr rfl⟩
  | true =>
    rw [if_pos rfl]
    have hmoved : ((kept (instructions old)).zipIdx.mapM fun x =>
        remapNode ((List.range ((instructions old).length + 1)).map (oldToNew (instructions old)))
          (instructions old).length x.1.1 x.2 (emitNode old x.1)) =
        some ((kept (instructions old)).zipIdx.map (movedNode old)) :=
      mapM_eq_map fun x hx => remapNode_moved h.inRange (mem_zipIdx_kept hx)
    have hcode : instructions ((kept (instructions old)).zipIdx.map (movedNode old)) =
        fuseOnce (instructions old) := by
      unfold instructions Wqpl.fuseOnce
      rw [List.map_map, List.mapIdx_eq_zipIdx_map]
      exact List.map_congr_left fun x hx => movedNode_instruction (mem_zipIdx_kept hx)
    have hweights : weights ((kept (instructions old)).zipIdx.map (movedNode old)) =
        weights ((kept (instructions old)).map (emitNode old)) := by
      rw [weights_eq_sum, weights_eq_sum, List.map_map, List.map_map]
      conv_rhs => rw [← List.zipIdx_map_fst 0 (kept (instructions old)), List.map_map]
      exact congrArg List.sum (List.map_congr_left fun x _ => nodeWeight_movedNode x)
    have hlighter := @weights_loop (tryBoundaries (instructions old)) old old 0 false rfl
    rw [if_neg (fun h => Bool.false_ne_true h.1), Nat.add_zero] at hlighter
    refine .inr ⟨(kept (instructions old)).zipIdx.map (movedNode old),
      (kept (instructions old)).map fun x => pcSpans[x.1]?.join, ?_, hcode,
      ⟨⟨?_, ?_⟩, ?_, ?_, ?_⟩, ?_⟩
    · have htable := oldToNewTable_eq (instructions old)
      unfold kept at htable hmoved
      rw [htable]
      exact congrArg (fun moved : Option (List Node) => moved.bind fun moved => some (true, moved,
        (loop (tryBoundaries (instructions old)) 0 false (instructions old)).map
          fun x => pcSpans[x.1]?.join)) hmoved
    · rw [hcode]
      exact h.inRange.fuseOnce
    · refine nestedIn_iff.mpr fun node hnode => ?_
      obtain ⟨x, hx, rfl⟩ := List.mem_map.mp hnode
      exact nested_movedNode h.nested (mem_zipIdx_kept hx)
    · rw [hcode]
      exact h.inRange.remaps
    · rw [List.length_map, List.length_map, List.length_zipIdx]
    · rw [hweights]
      exact Nat.le_trans (Nat.le_add_right _ _) hlighter
    · intro hfalse
      rw [hfalse, Bool.false_or] at hchanges
      rw [hchanges] at hlighter
      rw [hweights]
      exact hlighter

/-- What the pass makes of an instruction that loads a function. -/
structure FusedNode (node : Node) (changed : Bool) (node' : Node) : Prop where
  nested : Nested node'
  instruction : node'.instruction = node.instruction
  unchanged : changed = false → node' = node
  lighter : changed = true → nodeWeight node' < nodeWeight node

/-- What the pass makes of the functions that the code loads. -/
structure FusedLoads (code : List Node) (changed : Bool) (code' : List Node) : Prop where
  nested : NestedIn code'
  same : instructions code' = instructions code
  unchanged : changed = false → code' = code
  lighter : changed = true → weights code' < weights code

theorem FusedLoads.wellTargeted {code code' : List Node} {changed : Bool}
    (h : FusedLoads code changed code') (hcode : InRange (instructions code)) :
    WellTargeted code' := ⟨h.same ▸ hcode, h.nested⟩

theorem FusedLoads.weights_le {code code' : List Node} {changed : Bool}
    (h : FusedLoads code changed code') : weights code' ≤ weights code := by
  cases changed with
  | false => rw [h.unchanged rfl]
  | true => exact (h.lighter rfl).le

/-- The pass over a function that the code loads. -/
theorem fused_loads {load : FunctionLoad} {pcSpans : Option (List PcSpan)} {code : List Node}
    (hcode : Nested (.loads load pcSpans code))
    (h : ∃ changed code', fuseLoads code = some (changed, code') ∧ FusedLoads code changed code') :
    ∃ changed node', fuseNode (.loads load pcSpans code) = some (changed, node') ∧
      FusedNode (.loads load pcSpans code) changed node' := by
  have hkeep : FusedNode (.loads load pcSpans code) false (.loads load pcSpans code) :=
    ⟨hcode, rfl, fun _ => rfl, nofun⟩
  obtain ⟨changed, code', hloads, hfused⟩ := h
  rw [fuseNode]
  by_cases hpatterns : hasFusablePatterns 0 (instructions code) = true
  · rw [if_pos hpatterns, hloads]
    show ∃ changed' node', (rewrite changed code' (pcSpans.getD []) >>= _) = _ ∧ _
    rw [Nested] at hcode
    rcases rewrite_spec changed (hfused.wellTargeted hcode.1) (pcSpans.getD []) with
      ⟨hrewrite, -⟩ | ⟨code'', pcSpans', hrewrite, -, hround, hlighter⟩
    · rw [hrewrite]
      cases changed with
      | false => exact ⟨false, _, rfl, hkeep⟩
      | true =>
        refine ⟨true, _, rfl, ?_, rfl, nofun, fun _ => ?_⟩
        · rw [Nested]
          exact ⟨hfused.same ▸ hcode.1, hfused.nested⟩
        · exact Nat.add_lt_add_left (hfused.lighter rfl) 1
    · rw [hrewrite]
      refine ⟨true, _, rfl, ?_, rfl, nofun, fun _ => ?_⟩
      · rw [Nested]
        exact ⟨hround.wellTargeted.inRange, hround.wellTargeted.nested⟩
      · refine Nat.add_lt_add_left ?_ 1
        cases changed with
        | false => exact Nat.lt_of_lt_of_le (hlighter rfl) hfused.weights_le
        | true => exact Nat.lt_of_le_of_lt hround.lighter (hfused.lighter rfl)
  · rw [if_neg hpatterns]
    exact ⟨false, _, rfl, hkeep⟩

mutual

theorem fuseNode_spec : ∀ node : Node, Nested node →
    ∃ changed node', fuseNode node = some (changed, node') ∧ FusedNode node changed node'
  | .plain i, h => ⟨false, .plain i, rfl, h, rfl, fun _ => rfl, nofun⟩
  | .loads load pcSpans code, h => by
    have hnested := h
    rw [Nested] at hnested
    exact fused_loads h (fuseLoads_spec code hnested.2)
termination_by structural node => node

theorem fuseLoads_spec : ∀ code : List Node, NestedIn code →
    ∃ changed code', fuseLoads code = some (changed, code') ∧ FusedLoads code changed code'
  | [], _ => ⟨false, [], rfl, trivial, rfl, fun _ => rfl, nofun⟩
  | node :: rest, h => by
    rw [NestedIn] at h
    obtain ⟨changed, node', hnode, hfused⟩ := fuseNode_spec node h.1
    obtain ⟨restChanged, rest', hrest, hfusedRest⟩ := fuseLoads_spec rest h.2
    refine ⟨changed || restChanged, node' :: rest', ?_, ?_, ?_, fun hor => ?_, fun hor => ?_⟩
    · rw [fuseLoads, hnode, hrest]
      rfl
    · rw [NestedIn]
      exact ⟨hfused.nested, hfusedRest.nested⟩
    · exact congrArg₂ List.cons hfused.instruction hfusedRest.same
    · obtain ⟨hfalse, hrestFalse⟩ := Bool.or_eq_false_iff.mp hor
      rw [hfused.unchanged hfalse, hfusedRest.unchanged hrestFalse]
    · rw [weights, weights]
      have hle := hfusedRest.weights_le
      cases changed with
      | true =>
        have := hfused.lighter rfl
        omega
      | false =>
        have := hfusedRest.lighter hor
        rw [hfused.unchanged rfl]
        omega
termination_by structural code => code

end

/-- One round either changes nothing or makes the code lighter. -/
theorem fuseNodes_spec {code : List Node} (h : WellTargeted code) (pcSpans : List PcSpan) :
    fuseNodes code pcSpans = some (false, code, pcSpans) ∨
      ∃ code' pcSpans', fuseNodes code pcSpans = some (true, code', pcSpans') ∧
        Round code pcSpans code' pcSpans' ∧ weights code' < weights code := by
  obtain ⟨changed, code', hloads, hfused⟩ := fuseLoads_spec code h.nested
  have hnodes : fuseNodes code pcSpans = rewrite changed code' pcSpans := by
    rw [fuseNodes, hloads]
    rfl
  rw [hnodes]
  rcases rewrite_spec changed (hfused.wellTargeted h.inRange) pcSpans with
    ⟨hrewrite, hsame⟩ | ⟨code'', pcSpans', hrewrite, -, hround, hlighter⟩
  · refine .inl ?_
    cases changed with
    | false => rw [hrewrite, hfused.unchanged rfl]
    | true =>
      have hempty : code' = [] := hsame.resolve_right nofun
      have hnil : code = [] := by
        have := hfused.same
        rw [hempty] at this
        exact List.map_eq_nil_iff.mp this.symm
      have := hfused.lighter rfl
      rw [hnil] at this
      exact absurd this (Nat.not_lt_zero _)
  · refine .inr ⟨code'', pcSpans', hrewrite, ⟨hround.wellTargeted, ?_, hround.spans, ?_⟩, ?_⟩
    · exact hfused.same ▸ hround.remaps
    · exact Nat.le_trans hround.lighter hfused.weights_le
    · cases changed with
      | false => exact Nat.lt_of_lt_of_le (hlighter rfl) hfused.weights_le
      | true => exact Nat.lt_of_le_of_lt hround.lighter (hfused.lighter rfl)

/-- The rounds end, and the code that is left does not change any more. -/
theorem exists_fuse {n : Nat} : ∀ {code : List Node} {pcSpans : List PcSpan}, WellTargeted code →
    weights code ≤ n → ∃ rounds code' pcSpans', fuse rounds code pcSpans = some (code', pcSpans') ∧
      fuseNodes code' pcSpans' = some (false, code', pcSpans') := by
  induction n with
  | zero =>
    intro code pcSpans h hle
    rcases fuseNodes_spec h pcSpans with hsame | ⟨code', pcSpans', -, -, hlighter⟩
    · exact ⟨1, code, pcSpans, by rw [fuse, hsame], hsame⟩
    · omega
  | succ n ih =>
    intro code pcSpans h hle
    rcases fuseNodes_spec h pcSpans with hsame | ⟨code', pcSpans', hround, hspec, hlighter⟩
    · exact ⟨1, code, pcSpans, by rw [fuse, hsame], hsame⟩
    · obtain ⟨rounds, last, lastSpans, hfuse, hsame⟩ :=
        @ih code' pcSpans' hspec.wellTargeted (by omega)
      refine ⟨rounds + 1, last, lastSpans, ?_, hsame⟩
      rw [fuse, hround]
      exact hfuse

/-- A round never reads the table out of range, moves every target to the first kept
instruction at or behind it and the end of every try body to its image, and leaves one span
for an instruction where it changed anything; and the rounds end. -/
theorem fuse_remaps (code : List Node) (pcSpans : List PcSpan) (h : WellTargeted code) :
    (∃ changed code' pcSpans', fuseNodes code pcSpans = some (changed, code', pcSpans') ∧
      WellTargeted code' ∧ (changed = false → code' = code ∧ pcSpans' = pcSpans) ∧
      (changed = true → Remaps (instructions code) (instructions code')) ∧
      (changed = true ∨ pcSpans.length = code.length → pcSpans'.length = code'.length)) ∧
    ∃ rounds code' pcSpans', fuse rounds code pcSpans = some (code', pcSpans') ∧
      fuseNodes code' pcSpans' = some (false, code', pcSpans') := by
  refine ⟨?_, exists_fuse h (Nat.le_refl _)⟩
  rcases fuseNodes_spec h pcSpans with hsame | ⟨code', pcSpans', hround, hspec, -⟩
  · exact ⟨false, code, pcSpans, hsame, h, fun _ => ⟨rfl, rfl⟩, nofun, fun hlength =>
      hlength.resolve_left nofun⟩
  · exact ⟨true, code', pcSpans', hround, hspec.wellTargeted, nofun, fun _ => hspec.remaps,
      fun _ => hspec.spans⟩

/-- No spans for two instructions. -/
def noSpans : List PcSpan := [none, none]

/-- A condition that falls through, in a function that the code loads and drops. -/
def fallsThrough : List Node :=
  [.loads (.closure ⟨[], 0⟩) none [.plain (.jumpIfFalse 1), .plain .return_], .plain .pop]

theorem inRange_of_checks {code : List Instruction}
    (htargets : ∀ i ∈ code, i.jumpTarget.all (· ≤ code.length) = true)
    (htries : ∀ i ∈ code, i.tryLen = none) : InRange code where
  targets i hi t ht := by
    have := htargets i hi
    rw [ht] at this
    exact of_decide_eq_true this
  tries q len hq := nomatch htries _ (List.mem_of_getElem? hq)

theorem wellTargeted_fallsThrough : WellTargeted fallsThrough where
  inRange := inRange_of_checks (by decide) (by decide)
  nested :=
    ⟨⟨inRange_of_checks (by decide) (by decide), trivial, trivial, trivial⟩, trivial, trivial⟩

theorem fuse_remaps_fallsThrough :
    (∃ changed code' pcSpans', fuseNodes fallsThrough noSpans =
        some (changed, code', pcSpans') ∧ WellTargeted code' ∧
      (changed = false → code' = fallsThrough ∧ pcSpans' = noSpans) ∧
      (changed = true → Remaps (instructions fallsThrough) (instructions code')) ∧
      (changed = true ∨ noSpans.length = fallsThrough.length →
        pcSpans'.length = code'.length)) ∧
    ∃ rounds code' pcSpans', fuse rounds fallsThrough noSpans = some (code', pcSpans') ∧
      fuseNodes code' pcSpans' = some (false, code', pcSpans') :=
  fuse_remaps fallsThrough noSpans wellTargeted_fallsThrough

/-- A module that ends with a `return` the compiler put behind the spans. -/
theorem spans_left_behind : ¬ ∀ (code : List Node) (pcSpans : List PcSpan), WellTargeted code →
    ∀ changed code' pcSpans', fuseNodes code pcSpans = some (changed, code', pcSpans') →
      pcSpans'.length = code'.length := by
  intro h
  have hreturn : WellTargeted [.plain .return_] :=
    ⟨inRange_of_checks (by decide) (by decide), trivial, trivial⟩
  exact absurd (h [.plain .return_] [] hreturn false [.plain .return_] [] rfl) (by decide)

end Rounds

end Fuse

end Wqpl
