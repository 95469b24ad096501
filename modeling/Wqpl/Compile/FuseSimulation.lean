/-
# Peephole fusion preserves runs

The machine on the fused code follows the machine on the old one
(`fuse_preserves`): where the first one stands before a piece that stays, the
second one stands behind pieces that go away and before that piece. This holds
in runs in which no jump lands in the middle of a pair, none leaves a try
region over its end where nothing stays between the end and the target, and
every fused instruction finds data that it fits (`FusesAt`).
-/
import Wqpl.Compile.FuseInstructions
import Wqpl.Vm.Relocate

namespace Wqpl

namespace Fuse

/-! ### Pieces that go away -/

section Gone

variable {code : List Instruction} {p q e : Nat} {a : Instruction}

/-- From the one index to the other there are only pieces that go away. -/
inductive Gone (code : List Instruction) : Nat → Nat → Prop
  | refl (p : Nat) : Gone code p p
  | next {p q : Nat} {a : Instruction} (ha : code[p]? = some a)
      (hout : (piece code p a).out = none)
      (h : Gone code (p + (piece code p a).width) q) : Gone code p q

theorem width_pos (piece : Piece) : 0 < piece.width := by
  cases piece <;> exact Nat.succ_pos _

theorem Gone.le (h : Gone code p q) : p ≤ q := by
  induction h with
  | refl p => exact Nat.le_refl p
  | next _ _ _ ih => omega

theorem Gone.starts (h : Gone code p q) (hp : Starts code p) : Starts code q := by
  induction h with
  | refl p => exact hp
  | next ha _ _ ih => exact ih (hp.next ha)

theorem Gone.oldToNew (h : Gone code p q) (hp : Starts code p) :
    oldToNew code q = oldToNew code p := by
  induction h with
  | refl p => rfl
  | next ha hout _ ih => exact (ih (hp.next ha)).trans (hp.gone ha hout)

/-- The first piece that stays, or the end of the code. -/
theorem exists_gone (hp : Starts code p) :
    ∃ q, Gone code p q ∧ ∀ a, code[q]? = some a → (piece code q a).out.isSome := by
  induction hn : code.length - p using Nat.strongRecOn generalizing p with
  | ind n ih =>
    rcases ha : code[p]? with _ | a
    · exact ⟨p, .refl p, fun a h => absurd (ha.symm.trans h) nofun⟩
    · rcases hout : (piece code p a).out with _ | c
      · have hlt := lt_of_getElem? ha
        have hpos := width_pos (piece code p a)
        obtain ⟨q, hq, hstays⟩ := ih (code.length - (p + (piece code p a).width)) (by omega)
          (hp.next ha) rfl
        exact ⟨q, .next ha hout hq, hstays⟩
      · refine ⟨p, .refl p, fun a' h => ?_⟩
        obtain rfl := Option.some.inj (ha.symm.trans h)
        rw [hout]
        rfl

/-- The start of a piece behind another one is behind its end. -/
theorem Starts.add_width_le (hq : Starts code q) : ∀ {p : Nat} {a : Instruction}, Starts code p →
    code[p]? = some a → p < q → p + (piece code p a).width ≤ q := by
  induction q using Nat.strongRecOn with
  | ind q ih =>
    intro p a hp ha hlt
    cases hq with
    | zero => exact absurd hlt (Nat.not_lt_zero p)
    | @next r b hr hb =>
      have hpos := width_pos (piece code r b)
      rcases Nat.lt_trichotomy p r with hpr | rfl | hrp
      · exact (ih r (by omega) hr hp ha hpr).trans (Nat.le_add_right ..)
      · obtain rfl := Option.some.inj (ha.symm.trans hb)
        exact le_rfl
      · have hbehind := ih p hlt hp hr hb hrp
        omega

/-- Where two starts move to one place, everything between them goes away. -/
theorem gone_of_oldToNew_eq (hq : Starts code q) (hp : Starts code p) (hle : p ≤ q)
    (heq : Fuse.oldToNew code p = Fuse.oldToNew code q) : Gone code p q := by
  induction hn : q - p using Nat.strongRecOn generalizing p with
  | ind n ih =>
    rcases hle.eq_or_lt with rfl | hlt
    · exact .refl p
    · have hin : p < code.length := hlt.trans_le hq.le
      have ha : code[p]? = some code[p] := List.getElem?_eq_getElem hin
      have hbehind := hq.add_width_le hp ha hlt
      have hpos := width_pos (piece code p code[p])
      rcases hout : (piece code p code[p]).out with _ | c
      · have hgone := hp.gone ha hout
        exact .next ha hout (ih (q - (p + (piece code p code[p]).width)) (by omega) (hp.next ha)
          hbehind (hgone.trans heq) rfl)
      · have hstays := (hp.stays ha hout).1
        have hmono := oldToNew_mono code hbehind
        omega

end Gone

/-! ### Old places and new ones -/

section Relocation

variable (visits : FnId → Bool) (table : FnTable)

theorem fuseTable_interface : SameInterface table (fuseTable visits table) := by
  intro fn
  unfold fuseTable
  cases visits fn with
  | true => exact ⟨_, rfl⟩
  | false => exact ⟨_, rfl⟩

def relocation : Relocation where
  map fn p := if visits fn then oldToNew (table fn).instructions p else p
  Place fn p := visits fn = true → Starts (table fn).instructions p
  TryEnd fn e := visits fn = true →
    TryEnd (table fn).instructions e ∧ e ≤ (table fn).instructions.length
  map_zero fn := by
    split
    · exact oldToNew_zero _
    · rfl
  place_zero fn _ := .zero
  place_tryEnd fn e h hvisits := (h hvisits).1.starts (h hvisits).2

variable {visits table} {fn : FnId}

theorem relocation_map (h : visits fn = true) (p : Nat) :
    (relocation visits table).map fn p = oldToNew (table fn).instructions p := if_pos h

theorem relocation_map_other (h : visits fn = false) (p : Nat) :
    (relocation visits table).map fn p = p := if_neg (by rw [h]; exact Bool.false_ne_true)

theorem fuseTable_visited (h : visits fn = true) :
    (fuseTable visits table fn).instructions = fuseOnce (table fn).instructions := by
  rw [fuseTable, if_pos h]
  rfl

theorem fuseTable_other (h : visits fn = false) : fuseTable visits table fn = table fn :=
  if_neg (by rw [h]; exact Bool.false_ne_true)

end Relocation

/-- Code as the compiler emits it: try bodies end in the code, and named-argument
metadata is put on calls. -/
structure Emitted (code : List Instruction) : Prop where
  tries : ∀ q len, code[q]? = some (.try_ len) → q + 1 + len ≤ code.length
  named : NamedCallsWrapCalls code

section Condition

variable {W : Type}

/-- What the pass made of the instruction at index `p` does on the data what
was there before. -/
def Fits (code : List Instruction) (d : Data W) (p : Nat) (a : Instruction) : Prop :=
  match piece code p a with
  | .single (some c) => c = a ∨ PopsCondition d
  | .pair (some c) => FusesOn d a c
  | _ => True

/-- The condition on a state of the old machine: a jump does not land in the
middle of a pair, a try region is not left over its end to a place before which
nothing else stays, and a fused instruction finds data that it fits. -/
structure FusesAt (visits : FnId → Bool) (table : FnTable) (ops : Ops W) (s : Vm W) : Prop where
  jump : visits s.code = true → ∀ i target d, s.nextInstruction table = some i →
    (Exec.exec ops table i).run s.data = .ok (.jump target) d →
    Starts (table s.code).instructions target
  region : visits s.code = true → s.control = .running → ∀ frame rest,
    s.tryStack = frame :: rest → s.ownsTry frame = true → frame.endPc < s.pc →
    oldToNew (table s.code).instructions frame.endPc < oldToNew (table s.code).instructions s.pc
  fits : visits s.code = true → ∀ i, s.nextInstruction table = some i →
    Starts (table s.code).instructions s.pc → Fits (table s.code).instructions s.data s.pc i

end Condition

/-! ### Steps -/

section Steps

variable {W : Type} {visits : FnId → Bool} {table : FnTable} {ops : Ops W} {s t : Vm W}

theorem finishTryBoundary_none
    (h : ∀ frame rest, s.tryStack = frame :: rest → s.ownsTry frame = true → s.pc < frame.endPc) :
    s.finishTryBoundary = none := by
  unfold Vm.finishTryBoundary
  split
  next => rfl
  next frame rest hstack =>
    rw [if_neg]
    rintro ⟨howns, hend⟩
    have hlt := h frame rest hstack howns
    omega

theorem finishTryBoundary_some {frame : TryFrame} {rest : List TryFrame}
    (hstack : s.tryStack = frame :: rest) (howns : s.ownsTry frame = true)
    (hend : frame.endPc ≤ s.pc) : s.finishTryBoundary = some (s.finishTry frame rest) := by
  unfold Vm.finishTryBoundary
  rw [hstack]
  exact if_pos ⟨howns, hend⟩

/-- The innermost try regions, of the running code in both machines or of
other code. -/
theorem tries_cases {R : Relocation} (h : s.Moved R t) :
    ((∀ frame rest, s.tryStack = frame :: rest → s.ownsTry frame = false) ∧
        t.finishTryBoundary = none) ∨
      ∃ frame rest frame' rest', s.tryStack = frame :: rest ∧ s.ownsTry frame = true ∧
        t.tryStack = frame' :: rest' ∧ t.ownsTry frame' = true ∧
        frame.Moved R frame' ∧ List.Forall₂ (TryFrame.Moved R) rest rest' := by
  have htries := h.tries
  rcases hs : s.tryStack with _ | ⟨frame, rest⟩
  · rw [hs, List.forall₂_nil_left_iff] at htries
    refine .inl ⟨nofun, finishTryBoundary_none fun frame rest ht => ?_⟩
    exact absurd (htries.symm.trans ht) nofun
  · rw [hs] at htries
    obtain ⟨frame', rest', hframe, hrest, ht⟩ := List.forall₂_cons_left_iff.mp htries
    have howns := h.ownsTry hframe
    rcases hframe' : s.ownsTry frame with _ | _
    · refine .inl ⟨fun f r hf => ?_, finishTryBoundary_none fun f r hf howns' => ?_⟩
      · cases hf
        exact hframe'
      · cases ht.symm.trans hf
        rw [howns, hframe'] at howns'
        cases howns'
    · exact .inr ⟨frame, rest, frame', rest', rfl, hframe', ht, howns.trans hframe', hframe, hrest⟩

theorem outcome_running (hrun : s.control = .running) :
    (Vm.machine table ops).outcome s = none := by
  show s.outcome = none
  rw [Vm.outcome, hrun]

/-- The end of a try region is a step. -/
theorem steps_finished {s' : Vm W} (hrun : s.control = .running)
    (hboundary : s.finishTryBoundary = some s') : (Vm.machine table ops).Steps 1 s s' :=
  Vm.step_eq_finished table ops hrun hboundary ▸ .one (outcome_running hrun)

variable (ops) in
/-- Pieces that go away do nothing. -/
theorem gone_steps {p q : Nat} (h : Gone (table s.code).instructions p q) (hp : s.pc = p)
    (hrun : s.control = .running)
    (htries : ∀ frame rest, s.tryStack = frame :: rest → s.ownsTry frame = true →
      q ≤ frame.endPc) :
    ∃ n, (Vm.machine table ops).Steps n s { s with pc := q } := by
  generalize hcode : (table s.code).instructions = code at h
  induction h generalizing s with
  | refl p =>
    subst hp
    exact ⟨0, .refl s⟩
  | @next p q a ha hout h ih =>
    subst hp
    have hle := h.le
    have hpos := width_pos (piece code s.pc a)
    have hboundary : s.finishTryBoundary = none :=
      finishTryBoundary_none fun frame rest hf howns => by
        have hend := htries frame rest hf howns
        omega
    have hstep := Vm.step_eq_stepInstruction table ops hrun hboundary (hcode ▸ ha)
    have hfirst : (Vm.machine table ops).Steps 1 s (s.stepInstruction table ops a) :=
      hstep ▸ .one (outcome_running hrun)
    have hpieces := piece_pieces code s.pc a
    generalize piece code s.pc a = piece at hpieces hout hle ih
    cases hpieces with
    | drop ha' =>
      subst ha'
      obtain ⟨n, hn⟩ := ih (s := { s with pc := s.pc + 1 }) rfl hrun htries hcode
      exact ⟨1 + n, hfirst.trans hn⟩
    | @dropConst v ha' hb hboundary' =>
      subst ha'
      have hpushed : (s.stepInstruction table ops (.loadConst v)).finishTryBoundary = none :=
        finishTryBoundary_none fun frame rest hf howns => by
          have hend := htries frame rest hf howns
          dsimp only [Piece.width] at hle
          show s.pc + 1 < frame.endPc
          omega
      have hpop : (table s.code).instructions[s.pc + 1]? = some .pop := hcode ▸ hb
      have hrunning : (s.stepInstruction table ops (.loadConst v)).control = .running := hrun
      have hstep' := Vm.step_eq_stepInstruction table ops hrunning hpushed hpop
      have hsecond : (Vm.machine table ops).Steps 1 (s.stepInstruction table ops (.loadConst v))
          { s with pc := s.pc + 2 } := by
        have hone := Machine.Steps.one (M := Vm.machine table ops)
          (s := s.stepInstruction table ops (.loadConst v)) (outcome_running hrun)
        exact (show (Vm.machine table ops).step _ = { s with pc := s.pc + 2 } from hstep') ▸ hone
      obtain ⟨n, hn⟩ := ih (s := { s with pc := s.pc + 2 }) rfl hrun htries hcode
      exact ⟨1 + 1 + n, (hfirst.trans hsecond).trans hn⟩
    | keep | pop _ | pairs _ _ _ => cases hout

/-! ### Instructions that stay -/

section Stays

variable {p : Nat} {a c : Instruction} (hvisits : visits s.code = true)
  (hcode : Emitted (table s.code).instructions)
  (hstarts : Starts (table s.code).instructions p) (ha : (table s.code).instructions[p]? = some a)
  (hout : (piece (table s.code).instructions p a).out = some c)

include hvisits hcode hstarts ha hout

/-- How control goes on behind a piece and behind what it became. -/
theorem flowMoved {next : Nat} {t : Vm W} {flow : Flow W}
    (ht : t.pc = oldToNew (table s.code).instructions p + 1)
    (hjump : ∀ target, flow = .jump target → Starts (table s.code).instructions target)
    (htry : ∀ len, flow = .try_ len → next = p + 1 ∧ a = .try_ len) :
    Vm.Moved.FlowMoved (relocation visits table) table (fuseTable visits table)
      { s with pc := next } t flow
      (flow.remap (oldToNew (table s.code).instructions) (table s.code).instructions.length p
        (oldToNew (table s.code).instructions p)) where
  jump q hflow := by
    subst hflow
    refine ⟨?_, fun _ => hjump q rfl⟩
    rw [relocation_map hvisits]
    rfl
  try_ len hflow := by
    subst hflow
    obtain ⟨hnext, rfl⟩ := htry len rfl
    subst hnext
    have hend := hcode.tries p len ha
    have hmono := oldToNew_mono (table s.code).instructions (Nat.le_add_right (p + 1) len)
    have hstays := (hstarts.stays ha hout).2.1
    have hlength := oldToNew_mono (table s.code).instructions hend
    rw [oldToNew_length] at hlength
    have hadd : t.pc + (oldToNew (table s.code).instructions
        (min (p + 1 + len) (table s.code).instructions.length) -
          (oldToNew (table s.code).instructions p + 1)) =
        oldToNew (table s.code).instructions (p + 1 + len) := by
      rw [ht, Nat.min_eq_left hend]
      omega
    refine ⟨fun _ => ⟨⟨p, len, ha, rfl⟩, hend⟩, hend, _, rfl, ?_, ?_⟩
    · rw [relocation_map hvisits]
      exact hadd
    · rw [fuseTable_visited hvisits]
      exact hadd.le.trans hlength
  other hnojump hnotry := by
    cases flow with
    | jump target => exact absurd rfl (hnojump target)
    | try_ len => exact absurd rfl (hnotry len)
    | _ => rfl

omit hcode in
/-- The instruction of the new code. -/
theorem step_fused (h : s.Moved (relocation visits table) t) (hp : s.pc = p)
    (hrun : s.control = .running) (hboundary : t.finishTryBoundary = none) :
    (Vm.machine (fuseTable visits table) ops).step t =
      t.afterInstruction (fuseTable visits table) ops
        (oldToNew (table s.code).instructions p + 1)
        ((Exec.exec ops table (c.remap (oldToNew (table s.code).instructions)
          (table s.code).instructions.length p (oldToNew (table s.code).instructions p))).run
            s.data) := by
  have hpc : t.pc = oldToNew (table s.code).instructions p := by
    rw [h.pc, relocation_map hvisits, hp]
  have hi : (fuseTable visits table t.code).instructions[t.pc]? =
      some (c.remap (oldToNew (table s.code).instructions) (table s.code).instructions.length p
        (oldToNew (table s.code).instructions p)) := by
    rw [h.code, fuseTable_visited hvisits, hpc]
    exact (hstarts.stays ha hout).2.2
  have hstep := Vm.step_eq_stepInstruction (fuseTable visits table) ops
    (h.control.trans hrun) hboundary hi
  refine hstep.trans ?_
  rw [Vm.stepInstruction_eq, (fuseTable_interface visits table).exec, hpc, h.data]

end Stays

/-- Only the instruction itself opens a try region. -/
theorem try_of_run {code : List Instruction} (hcode : Emitted code) {a : Instruction}
    (ha : a ∈ code) {d d' : Data W} {len : Nat}
    (h : (Exec.exec ops table a).run d = .ok (.try_ len) d') : a = .try_ len := by
  have hlen : a.tryLen = some len := Exec.exec_allows ops table a d _ d' h
  cases a with
  | try_ len' =>
    cases hlen
    rfl
  | namedCall call metadata =>
    have hnone := (hcode.named call metadata ha).2
    exact absurd (hnone.symm.trans hlen) nofun
  | _ => cases hlen

theorem Pairs.second {a b c : Instruction} (h : Pairs a b c) :
    b = .pop ∨ ∃ target, b = .jumpIfFalse target := by
  cases h with
  | drop h =>
    unfold dropPair at h
    split at h
    all_goals first | exact .inl rfl | cases h
  | branch h =>
    unfold branchPair at h
    split at h
    · exact .inr ⟨_, rfl⟩
    · cases h

theorem Pairs.not_namedCall {a b c call : Instruction} {metadata : NamedArgMeta}
    (h : Pairs a b c) : c ≠ .namedCall call metadata := by
  rintro rfl
  cases h with
  | drop h =>
    unfold dropPair at h
    split at h <;> cases h
  | branch h =>
    unfold branchPair at h
    split at h
    next op left right target =>
      split at h
      · cases h
      · split at h
        · cases h
        · split at h <;> cases h
    next => cases h

theorem run_map_ok {α β : Type} {m : Exec W α} {d d' : Data W} {x : α} (h : m.run d = .ok x d')
    (f : α → β) : (f <$> m).run d = .ok (f x) d' := by
  rw [map_eq_pure_bind]
  exact Exec.run_bind_ok h _

theorem run_map_error {α β : Type} {m : Exec W α} {d d' : Data W} {e : WqErrorType}
    (h : m.run d = .error e d') (f : α → β) : (f <$> m).run d = .error e d' := by
  rw [map_eq_pure_bind]
  exact Exec.run_bind_error h _

section Pieces

variable {a c : Instruction} (hvisits : visits s.code = true)
  (hcode : Emitted (table s.code).instructions) (h : s.Moved (relocation visits table) t)
  (hrun : s.control = .running) (hboundary : s.finishTryBoundary = none)
  (ht : t.finishTryBoundary = none)
  (hP : (Vm.machine table ops).Always (FusesAt visits table ops) s)
  (hstarts : Starts (table s.code).instructions s.pc)
  (ha : (table s.code).instructions[s.pc]? = some a)

variable (ops) in
include hrun hboundary ha in
theorem steps_one : (Vm.machine table ops).Steps 1 s (s.stepInstruction table ops a) :=
  Vm.step_eq_stepInstruction table ops hrun hboundary ha ▸ .one (outcome_running hrun)

include hrun hboundary ha in
theorem nextInstruction_eq : s.nextInstruction table = some a :=
  (Vm.nextInstruction_eq table hrun hboundary).trans ha

include hvisits hcode h hrun hboundary ht hP hstarts ha

/-- An instruction that the pass keeps. -/
theorem step_keep (hpiece : piece (table s.code).instructions s.pc a = .single (some a)) :
    ∃ s', (Vm.machine table ops).Steps 1 s s' ∧
      s'.Moved (relocation visits table) ((Vm.machine (fuseTable visits table) ops).step t) := by
  have hout : (piece (table s.code).instructions s.pc a).out = some a := by rw [hpiece]; rfl
  have hplace := hstarts.next ha
  rw [hpiece] at hplace
  have hnamed : ∀ call metadata, a = .namedCall call metadata →
      call.target = none ∧ call.tryLen = none := by
    rintro call metadata rfl
    exact hcode.named call metadata (List.mem_of_getElem? ha)
  refine ⟨_, steps_one ops hrun hboundary ha, ?_⟩
  rw [step_fused hvisits hstarts ha hout h rfl hrun ht, Exec.exec_remap ops table _ _ _ _ hnamed,
    Vm.stepInstruction_eq]
  refine h.afterInstruction (fuseTable_interface visits table) hrun ?_ (fun _ => hplace)
    (fun flow d hr => ⟨_, run_map_ok hr _, ?_⟩) fun e d hr => run_map_error hr _
  · rw [relocation_map hvisits]
    exact (hstarts.stays ha hout).2.1.symm
  · refine flowMoved hvisits hcode hstarts ha hout rfl (fun target hflow => ?_) fun len hflow => ?_
    · subst hflow
      exact hP.self.jump hvisits a target d (nextInstruction_eq hrun hboundary ha) hr
    · subst hflow
      exact ⟨rfl, try_of_run hcode (List.mem_of_getElem? ha) hr⟩

omit hcode in
/-- A branch to the next instruction. -/
theorem step_pop (hjump : a = .jumpIfFalse (s.pc + 1))
    (hpiece : piece (table s.code).instructions s.pc a = .single (some .pop)) :
    ∃ s', (Vm.machine table ops).Steps 1 s s' ∧
      s'.Moved (relocation visits table) ((Vm.machine (fuseTable visits table) ops).step t) := by
  have hout : (piece (table s.code).instructions s.pc a).out = some .pop := by rw [hpiece]; rfl
  have hplace := hstarts.next ha
  have hfits := hP.self.fits hvisits a (nextInstruction_eq hrun hboundary ha) hstarts
  rw [Fits, hpiece] at hfits
  rw [hpiece] at hplace
  obtain ⟨v, stack, b, hstack, hb⟩ : PopsCondition s.data := by
    rcases hfits with hfits | hfits
    · rw [hjump] at hfits
      cases hfits
    · exact hfits
  refine ⟨_, steps_one ops hrun hboundary ha, ?_⟩
  have hexec : (Exec.exec ops table a).run s.data =
      .ok (Exec.jumpUnless (s.pc + 1) b) { s.data with stack } := by
    subst hjump
    simp [Exec.exec, Exec.execPlain, Exec.pop1, Exec.run_bind, hstack, Exec.condition, hb]
  have hpop : s.afterInstruction table ops (s.pc + 1)
      (.ok (Exec.jumpUnless (s.pc + 1) b) { s.data with stack }) =
      s.afterInstruction table ops (s.pc + 1) (.ok .next { s.data with stack }) := by
    cases b <;> rfl
  rw [step_fused hvisits hstarts ha hout h rfl hrun ht, Vm.stepInstruction_eq, hexec, hpop]
  refine h.afterInstruction (fuseTable_interface visits table) hrun ?_ (fun _ => hplace)
    (fun flow d hr => ⟨.next, ?_, ?_⟩) (fun _ _ h => by cases h)
  · rw [relocation_map hvisits]
    exact (hstarts.stays ha hout).2.1.symm
  · cases hr
    show ExecResult.ok _ _ = _
    rw [hstack]
    rfl
  · cases hr
    exact ⟨by simp, by simp, fun _ _ => rfl⟩

/-- Two instructions that became one. -/
theorem step_pair {b : Instruction}
    (hb : (table s.code).instructions[s.pc + 1]? = some b) (hpair : Pairs a b c)
    (hpiece : piece (table s.code).instructions s.pc a = .pair (some c))
    (htries : ∀ frame rest, s.tryStack = frame :: rest → s.ownsTry frame = true →
      s.pc + 1 < frame.endPc) :
    ∃ n s', (Vm.machine table ops).Steps (n + 1) s s' ∧
      s'.Moved (relocation visits table) ((Vm.machine (fuseTable visits table) ops).step t) := by
  have hout : (piece (table s.code).instructions s.pc a).out = some c := by rw [hpiece]; rfl
  have hplace := hstarts.next ha
  have hfits := hP.self.fits hvisits a (nextInstruction_eq hrun hboundary ha) hstarts
  have hstays := hstarts.stays ha hout
  rw [Fits, hpiece] at hfits
  rw [hpiece] at hplace hstays
  have hone := steps_one ops hrun hboundary ha
  have hexec := Exec.exec_pairs ops table hpair hfits
  rw [step_fused hvisits hstarts ha hout h rfl hrun ht,
    Exec.exec_remap ops table _ _ _ _ fun call metadata hc => absurd hc hpair.not_namedCall]
  rcases hrun_a : (Exec.exec ops table a).run s.data with ⟨flow, d⟩ | ⟨e, d⟩
  · obtain rfl := Exec.returns_next ops table hpair _ _ _ hrun_a
    rw [Exec.run_bind_ok hrun_a] at hexec
    rw [Vm.stepInstruction_eq, hrun_a] at hone
    have hboundary' : (s.afterInstruction table ops (s.pc + 1) (.ok .next d)).finishTryBoundary =
        none := finishTryBoundary_none htries
    have htwo := steps_one ops (s := s.afterInstruction table ops (s.pc + 1) (.ok .next d))
      hrun hboundary' hb
    refine ⟨1, _, hone.trans htwo, ?_⟩
    have hafter : (s.afterInstruction table ops (s.pc + 1) (.ok .next d)).stepInstruction table ops
        b = s.afterInstruction table ops (s.pc + 2) ((Exec.exec ops table b).run d) := by
      rw [Vm.stepInstruction_eq]
      show Vm.afterInstruction table ops _ (s.pc + 2) ((Exec.exec ops table b).run d) = _
      cases (Exec.exec ops table b).run d <;> rfl
    rw [hafter]
    refine h.afterInstruction (fuseTable_interface visits table) hrun ?_ (fun _ => hplace)
      (fun flow d' hr => ⟨_, run_map_ok (hexec.trans hr) _, ?_⟩)
      fun e d' hr => run_map_error (hexec.trans hr) _
    · rw [relocation_map hvisits]
      exact hstays.1.symm
    · refine flowMoved hvisits hcode hstarts ha hout rfl (fun target hflow => ?_)
        fun len hflow => ?_
      · subst hflow
        exact (hP.steps hone).self.jump hvisits b target d' (nextInstruction_eq hrun hboundary' hb) hr
      · subst hflow
        have hlen : b.tryLen = some len := Exec.exec_allows ops table b d _ d' hr
        rcases hpair.second with rfl | ⟨target, rfl⟩ <;> cases hlen
  · rw [Exec.run_bind_error hrun_a] at hexec
    rw [Vm.stepInstruction_eq, hrun_a] at hone
    refine ⟨0, _, hone, ?_⟩
    rw [run_map_error hexec]
    refine h.raise ?_ d e
    rw [relocation_map hvisits]
    exact hstays.2.1.symm

end Pieces

/-! ### A step of the running frame -/

section Running

theorem code_of_owns {frame : TryFrame} (howns : s.ownsTry frame = true) : frame.code = s.code :=
  (of_decide_eq_true howns).2

variable (hcode : ∀ fn, Emitted (table fn).instructions) (h : s.Moved (relocation visits table) t)
  (hrun : s.control = .running)
include hcode h hrun

/-- Code that the pass did not go over. -/
theorem step_other (hvisits : visits s.code = false) :
    ((Vm.machine table ops).step s).Moved (relocation visits table)
      ((Vm.machine (fuseTable visits table) ops).step t) := by
  have hmap : ∀ p, (relocation visits table).map s.code p = p := relocation_map_other hvisits
  have hplace : ∀ p, (relocation visits table).Place s.code p := fun p hv => by
    rw [hvisits] at hv
    cases hv
  have htable : fuseTable visits table t.code = table s.code := by
    rw [h.code]
    exact fuseTable_other hvisits
  have hpc : t.pc = s.pc := h.pc.trans (hmap _)
  have hcontinue : s.finishTryBoundary = none → t.finishTryBoundary = none →
      ((Vm.machine table ops).step s).Moved (relocation visits table)
        ((Vm.machine (fuseTable visits table) ops).step t) := by
    intro hs ht
    rcases hi : (table s.code).instructions[s.pc]? with _ | a
    · have hi' : (fuseTable visits table t.code).instructions[t.pc]? = none := by
        rw [htable, hpc, hi]
      have hstep := Vm.step_eq_returnFrame table ops hrun hs hi
      have hstep' := Vm.step_eq_returnFrame _ ops (h.control.trans hrun) ht hi'
      show (s.step table ops).Moved _ (t.step _ ops)
      rw [hstep, hstep']
      exact h.returnFrame
    · have hi' : (fuseTable visits table t.code).instructions[t.pc]? = some a := by
        rw [htable, hpc, hi]
      have hstep := Vm.step_eq_stepInstruction table ops hrun hs hi
      have hstep' := Vm.step_eq_stepInstruction _ ops (h.control.trans hrun) ht hi'
      show (s.step table ops).Moved _ (t.step _ ops)
      rw [hstep, hstep', Vm.stepInstruction_eq, Vm.stepInstruction_eq, h.data,
        (fuseTable_interface visits table).exec]
      refine h.afterInstruction (fuseTable_interface visits table) hrun (by rw [hpc, hmap])
        (hplace _) (fun flow d hr => ⟨flow, hr, ?_⟩) fun e d hr => hr
      refine ⟨fun q hq => ⟨by rw [hmap]; exact hq, hplace q⟩, fun len hlen => ?_, fun _ _ => rfl⟩
      subst hlen
      have hend : s.pc + 1 + len ≤ (table s.code).instructions.length := by
        have ha := try_of_run (hcode s.code) (List.mem_of_getElem? hi) hr
        subst ha
        exact (hcode s.code).tries s.pc len hi
      refine ⟨fun hv => ?_, hend, len, rfl, ?_, ?_⟩
      · rw [show visits s.code = false from hvisits] at hv
        cases hv
      · show t.pc + 1 + len = (relocation visits table).map s.code (s.pc + 1 + len)
        rw [hmap, hpc]
      · show t.pc + 1 + len ≤ (fuseTable visits table s.code).instructions.length
        rw [fuseTable_other hvisits, hpc]
        exact hend
  rcases tries_cases h with ⟨hnot, ht⟩ | ⟨frame, rest, frame', rest', hf, howns, hf', howns', hframe, hrest⟩
  · refine hcontinue (finishTryBoundary_none fun frame rest hf howns => ?_) ht
    rw [hnot frame rest hf] at howns
    cases howns
  · have hendPc : frame'.endPc = frame.endPc := by
      have hframeCode := code_of_owns howns
      obtain ⟨-⟩ := hframe
      show (relocation visits table).map frame.code frame.endPc = frame.endPc
      rw [hframeCode, hmap]
    by_cases hend : frame.endPc ≤ s.pc
    · have hstep := Vm.step_eq_finished table ops hrun (finishTryBoundary_some hf howns hend)
      have hstep' := Vm.step_eq_finished (fuseTable visits table) ops (h.control.trans hrun)
        (finishTryBoundary_some hf' howns' (by rw [hendPc, hpc]; exact hend))
      show (s.step table ops).Moved _ (t.step _ ops)
      rw [hstep, hstep']
      exact h.finishTry hrest hframe (by rw [hendPc, hpc])
    · refine hcontinue (finishTryBoundary_none fun f r hfr _ => ?_)
        (finishTryBoundary_none fun f r hfr _ => ?_)
      · cases hf.symm.trans hfr
        exact Nat.lt_of_not_le hend
      · cases hf'.symm.trans hfr
        rw [hendPc, hpc]
        exact Nat.lt_of_not_le hend

variable (hvisits : visits s.code = true)
  (hP : (Vm.machine table ops).Always (FusesAt visits table ops) s)
include hvisits hP

omit hcode in
/-- The region of the innermost frame ends in the new code. -/
theorem step_region {frame frame' : TryFrame} {rest rest' : List TryFrame}
    (hf : s.tryStack = frame :: rest) (howns : s.ownsTry frame = true)
    (hf' : t.tryStack = frame' :: rest') (howns' : t.ownsTry frame' = true)
    (hframe : frame.Moved (relocation visits table) frame')
    (hrest : List.Forall₂ (TryFrame.Moved (relocation visits table)) rest rest')
    (hend : oldToNew (table s.code).instructions frame.endPc ≤
      oldToNew (table s.code).instructions s.pc) :
    ∃ n s', (Vm.machine table ops).Steps (n + 1) s s' ∧
      s'.Moved (relocation visits table) ((Vm.machine (fuseTable visits table) ops).step t) := by
  have hframeCode := code_of_owns howns
  have hstarts : Starts (table s.code).instructions s.pc :=
    h.place (by rw [hrun]; trivial) hvisits
  have hpc : t.pc = oldToNew (table s.code).instructions s.pc := by
    rw [h.pc, relocation_map hvisits]
  have hframe' := hframe
  obtain ⟨htryEnd⟩ := hframe'
  have htryEnd : TryEnd (table s.code).instructions frame.endPc ∧
      frame.endPc ≤ (table s.code).instructions.length := by
    rw [← hframeCode]
    exact htryEnd (hframeCode ▸ hvisits)
  have hendPc : (relocation visits table).map frame.code frame.endPc =
      oldToNew (table s.code).instructions frame.endPc := by
    rw [hframeCode, relocation_map hvisits]
  have hstep' : (Vm.machine (fuseTable visits table) ops).step t = _ :=
    Vm.step_eq_finished (fuseTable visits table) ops (h.control.trans hrun)
      (finishTryBoundary_some hf' howns' (by rw [hpc]; exact hendPc.le.trans hend))
  rw [hstep']
  rcases Nat.lt_or_ge frame.endPc s.pc with hlt | hge
  · -- control jumped past the end, and something stays in between
    have hregion := hP.self.region hvisits hrun frame rest hf howns hlt
    refine ⟨0, _, steps_finished hrun (finishTryBoundary_some hf howns hlt.le), ?_⟩
    refine h.finishTry hrest hframe ?_
    show s.pc = frame.endPc ↔ t.pc = (relocation visits table).map frame.code frame.endPc
    rw [hpc, hendPc]
    omega
  · -- the old machine runs to the end first
    have heq := Nat.le_antisymm (oldToNew_mono (table s.code).instructions hge) hend
    have hgone := gone_of_oldToNew_eq (htryEnd.1.starts htryEnd.2) hstarts hge heq
    obtain ⟨n, hn⟩ := gone_steps ops hgone rfl hrun fun f r hfr _ => by
      cases hf.symm.trans hfr
      exact Nat.le_refl _
    have hmoved : Vm.Moved (relocation visits table) { s with pc := frame.endPc } t :=
      h.move (by rw [relocation_map hvisits, hpc, heq]) fun _ => htryEnd.1.starts htryEnd.2
    refine ⟨n, _, hn.trans (steps_finished (s := { s with pc := frame.endPc }) hrun
      (finishTryBoundary_some hf howns (Nat.le_refl _))), ?_⟩
    refine hmoved.finishTry hrest hframe ?_
    show frame.endPc = frame.endPc ↔ t.pc = (relocation visits table).map frame.code frame.endPc
    rw [hpc, hendPc, heq]
    exact iff_of_true rfl rfl

/-- **A step of the running frame.** -/
theorem step_running :
    ∃ n s', (Vm.machine table ops).Steps (n + 1) s s' ∧
      s'.Moved (relocation visits table) ((Vm.machine (fuseTable visits table) ops).step t) := by
  have hstarts : Starts (table s.code).instructions s.pc :=
    h.place (by rw [hrun]; trivial) hvisits
  have hpc : t.pc = oldToNew (table s.code).instructions s.pc := by
    rw [h.pc, relocation_map hvisits]
  obtain ⟨q, hgone, hstays⟩ := exists_gone hstarts
  have hq := hgone.starts hstarts
  have hmap := hgone.oldToNew hstarts
  have hmoved : Vm.Moved (relocation visits table) { s with pc := q } t :=
    h.move (by rw [relocation_map hvisits, hpc, hmap]) fun _ => hq
  -- the next step of the old machine that the new one takes too
  have hcontinue : (∀ frame rest, s.tryStack = frame :: rest → s.ownsTry frame = true →
        Starts (table s.code).instructions frame.endPc ∧ q < frame.endPc) →
      t.finishTryBoundary = none →
      ∃ n s', (Vm.machine table ops).Steps (n + 1) s s' ∧
        s'.Moved (relocation visits table) ((Vm.machine (fuseTable visits table) ops).step t) := by
    intro htries ht
    obtain ⟨n, hn⟩ := gone_steps ops hgone rfl hrun fun frame rest hf howns =>
      (htries frame rest hf howns).2.le
    have hP' := hP.steps hn
    have hboundary : ({ s with pc := q } : Vm W).finishTryBoundary = none :=
      finishTryBoundary_none fun frame rest hf howns => (htries frame rest hf howns).2
    rcases ha : (table s.code).instructions[q]? with _ | a
    · have hlength : q = (table s.code).instructions.length :=
        Nat.le_antisymm hq.le (List.getElem?_eq_none_iff.mp ha)
      have hi' : (fuseTable visits table t.code).instructions[t.pc]? = none := by
        rw [h.code, fuseTable_visited hvisits, hpc, ← hmap, hlength, oldToNew_length]
        exact List.getElem?_eq_none (Nat.le_refl _)
      have hstep : ({ s with pc := q } : Vm W).step table ops = _ :=
        Vm.step_eq_returnFrame table ops hrun hboundary ha
      have hstep' := Vm.step_eq_returnFrame (fuseTable visits table) ops (h.control.trans hrun) ht
        hi'
      have hfused : (Vm.machine (fuseTable visits table) ops).step t = t.returnFrame := hstep'
      rw [hfused]
      exact ⟨n, _, hn.trans (hstep ▸ .one (outcome_running hrun)), hmoved.returnFrame⟩
    · have hpieces := piece_pieces (table s.code).instructions q a
      have hsome := hstays a ha
      rcases hpiece : piece (table s.code).instructions q a with out | out
      · rw [hpiece] at hpieces hsome
        cases hpieces with
        | keep =>
          obtain ⟨s', hs', hrel⟩ := step_keep (s := { s with pc := q }) hvisits (hcode s.code)
            hmoved hrun hboundary ht hP' hq ha hpiece
          exact ⟨n, s', hn.trans hs', hrel⟩
        | pop ha' =>
          obtain ⟨s', hs', hrel⟩ := step_pop (s := { s with pc := q }) hvisits
            hmoved hrun hboundary ht hP' hq ha ha' hpiece
          exact ⟨n, s', hn.trans hs', hrel⟩
        | drop => cases hsome
      · rw [hpiece] at hpieces hsome
        cases hpieces with
        | dropConst _ _ _ => cases hsome
        | pairs hb hpair _ =>
          have hwidth : (piece (table s.code).instructions q a).width = 2 := by rw [hpiece]; rfl
          obtain ⟨m, s', hs', hrel⟩ := step_pair (s := { s with pc := q }) hvisits (hcode s.code)
            hmoved hrun hboundary ht hP' hq ha hb hpair hpiece fun frame rest hf howns => by
              obtain ⟨hend, hlt⟩ := htries frame rest hf howns
              have hbehind := hend.add_width_le hq ha hlt
              show q + 1 < frame.endPc
              omega
          exact ⟨n + m, s', hn.trans hs', hrel⟩
  rcases tries_cases h with
    ⟨hnot, ht⟩ | ⟨frame, rest, frame', rest', hf, howns, hf', howns', hframe, hrest⟩
  · refine hcontinue (fun frame rest hf howns => ?_) ht
    rw [hnot frame rest hf] at howns
    cases howns
  · by_cases hend : oldToNew (table s.code).instructions frame.endPc ≤
        oldToNew (table s.code).instructions s.pc
    · exact step_region h hrun hvisits hP hf howns hf' howns' hframe hrest hend
    · have hframeCode := code_of_owns howns
      obtain ⟨htryEnd⟩ := hframe
      have htryEnd : TryEnd (table s.code).instructions frame.endPc ∧
          frame.endPc ≤ (table s.code).instructions.length := by
        rw [← hframeCode]
        exact htryEnd (hframeCode ▸ hvisits)
      refine hcontinue (fun f r hfr _ => ?_) (finishTryBoundary_none fun f r hfr _ => ?_)
      · cases hf.symm.trans hfr
        refine ⟨htryEnd.1.starts htryEnd.2, Nat.lt_of_not_le fun hle => hend ?_⟩
        exact (oldToNew_mono _ hle).trans hmap.le
      · cases hf'.symm.trans hfr
        show t.pc < (relocation visits table).map frame.code frame.endPc
        rw [hframeCode, relocation_map hvisits, hpc]
        exact Nat.lt_of_not_le hend

end Running

end Steps

/-! ### Runs -/

section Runs

variable {W : Type} {visits : FnId → Bool} {table : FnTable}

/-- The machine on the fused code follows the machine on the old code. -/
theorem simulation (hcode : ∀ fn, Emitted (table fn).instructions) (ops : Ops W) :
    Machine.Simulation (Vm.machine table ops) (Vm.machine (fuseTable visits table) ops)
      (FusesAt visits table ops) (Vm.Moved (relocation visits table)) where
  step s t hP h ht := by
    rcases hcontrol : s.control with _ | run | e | r
    · rcases hvisits : visits s.code with _ | _
      · exact ⟨0, _, .one (outcome_running hcontrol), step_other hcode h hcontrol hvisits⟩
      · exact step_running hcode h hcontrol hvisits hP
    · have houtcome : (Vm.machine table ops).outcome s = none := by
        show s.outcome = none
        rw [Vm.outcome, hcontrol]
      refine ⟨0, _, .one houtcome, ?_⟩
      show (s.step table ops).Moved _ (t.step _ ops)
      rw [Vm.step, Vm.step, hcontrol, h.control.trans hcontrol]
      exact h.stepBuiltin ops (fuseTable_interface visits table) hcontrol
    · have houtcome : (Vm.machine table ops).outcome s = none := by
        show s.outcome = none
        rw [Vm.outcome, hcontrol]
      refine ⟨0, _, .one houtcome, ?_⟩
      show (s.step table ops).Moved _ (t.step _ ops)
      rw [Vm.step, Vm.step, hcontrol, h.control.trans hcontrol]
      exact h.unwind ops e
    · have houtcome : t.outcome = some (r, t.data) := by
        rw [Vm.outcome, h.control.trans hcontrol]
      exact absurd (houtcome.symm.trans ht) (Option.some_ne_none _)
  outcome s t r hP h ht := by
    refine ⟨0, s, .refl s, ?_⟩
    have houtcome : s.outcome = t.outcome := by
      rw [Vm.outcome, Vm.outcome, h.control, h.data]
    exact houtcome.trans ht

/-- The rounds of the pass, each with the functions that it goes over. -/
def fuseRounds : List (FnId → Bool) → FnTable → FnTable
  | [], table => table
  | visits :: rounds, table => fuseRounds rounds (fuseTable visits table)

/-- The condition on the runs from the state, round by round. -/
def FusesAlong (ops : Ops W) (s : Vm W) : List (FnId → Bool) → FnTable → Prop
  | [], _ => True
  | visits :: rounds, table =>
    (Vm.machine table ops).Always (FusesAt visits table ops) s ∧
      FusesAlong ops s rounds (fuseTable visits table)

theorem remap_try {oldToNew : Nat → Nat} {n origin newIdx len : Nat} {i : Instruction}
    (h : i.remap oldToNew n origin newIdx = .try_ len) :
    ∃ len', i = .try_ len' ∧ len = oldToNew (min (origin + 1 + len') n) - (newIdx + 1) := by
  cases i with
  | try_ len' =>
    cases h
    exact ⟨len', rfl, rfl⟩
  | _ => cases h

theorem remap_namedCall {oldToNew : Nat → Nat} {n origin newIdx : Nat} {i call : Instruction}
    {metadata : NamedArgMeta} (h : i.remap oldToNew n origin newIdx = .namedCall call metadata) :
    i = .namedCall call metadata := by
  cases i with
  | namedCall call' metadata' =>
    cases h
    rfl
  | _ => cases h

theorem oldToNew_le_length (code : List Instruction) (p : Nat) :
    oldToNew code p ≤ (fuseOnce code).length := by
  unfold fuseOnce oldToNew
  rw [List.length_mapIdx]
  exact List.findIdx_le_length

/-- Fused code is again as the compiler emits it. -/
theorem Emitted.fuseOnce {code : List Instruction} (h : Emitted code) :
    Emitted (Wqpl.fuseOnce code) where
  tries q len hq := by
    have hlt := lt_of_getElem? hq
    rw [Wqpl.fuseOnce, List.getElem?_mapIdx] at hq
    obtain ⟨x, hx, hremap⟩ := Option.map_eq_some_iff.mp hq
    obtain ⟨len', -, rfl⟩ := remap_try hremap
    have hle := oldToNew_le_length code (min (x.1 + 1 + len') code.length)
    omega
  named call metadata hmem := by
    obtain ⟨q, hq⟩ := List.mem_iff_getElem?.mp hmem
    rw [Wqpl.fuseOnce, List.getElem?_mapIdx] at hq
    obtain ⟨x, hx, hremap⟩ := Option.map_eq_some_iff.mp hq
    have hcall := remap_namedCall hremap
    rcases mem_loop (List.mem_of_getElem? hx) with hold | ⟨a, b, hpair⟩ | hpop
    · rw [hcall] at hold
      exact h.named call metadata hold
    · exact absurd hcall hpair.not_namedCall
    · rw [hpop] at hcall
      cases hcall

theorem emitted_fuseTable (h : ∀ fn, Emitted (table fn).instructions) (fn : FnId) :
    Emitted (fuseTable visits table fn).instructions := by
  rcases hvisits : visits fn with _ | _
  · rw [fuseTable_other hvisits]
    exact h fn
  · rw [fuseTable_visited hvisits]
    exact (h fn).fuseOnce

/-- The machine before the first instruction of a function. -/
def startOn (fn : FnId) (data : Data W) : Vm W := ⟨fn, 0, data, [], [], .running⟩

end Runs

/-! ### Two programs -/

section Programs

/-- A variable is assigned and read. -/
def assigning : FnTable := fun _ => ⟨some [], none, 0, false,
  [.loadConst (.int 1), .storeVarKeep "x", .pop, .loadVar "x", .return_]⟩

/-- A condition that is itself chosen by a condition: a comparison ends the one
branch and the outer test is behind both. -/
def nestedCondition : FnTable := fun _ => ⟨some [], none, 0, false,
  [.loadVar "a", .jumpIfFalse 4, .loadVar "b", .jump 5, .binaryOp .lt (.var "x") (.var "y"),
    .jumpIfFalse 8, .loadConst (.int 1), .jump 9, .loadConst (.int 2), .return_]⟩

def emptyData : Data Unit := ⟨[], none, [], none, Env.empty⟩

theorem FusesAt.of_straight {W : Type} {visits : FnId → Bool} {table : FnTable} {ops : Ops W}
    {s : Vm W} (htries : s.tryStack = [])
    (h : ∀ i, s.nextInstruction table = some i → i.target = none ∧
      Fits (table s.code).instructions s.data s.pc i) : FusesAt visits table ops s where
  jump _ i target d hi hr := by
    have htarget : i.target = some target := Exec.exec_allows ops table i _ _ d hr
    exact absurd ((h i hi).1.symm.trans htarget) nofun
  region _ _ frame rest hf := absurd (htries.symm.trans hf) nofun
  fits _ i hi _ := (h i hi).2

theorem assigning_emitted (fn : FnId) : Emitted (assigning fn).instructions where
  tries q len hq := by
    have hmem := List.mem_of_getElem? hq
    simp [assigning] at hmem
  named call metadata hmem := by simp [assigning] at hmem

theorem nestedCondition_emitted (fn : FnId) : Emitted (nestedCondition fn).instructions where
  tries q len hq := by
    have hmem := List.mem_of_getElem? hq
    simp [nestedCondition] at hmem
  named call metadata hmem := by simp [nestedCondition] at hmem

theorem assigning_always : (Vm.machine assigning Ops.inert).Always
    (FusesAt (fun _ => true) assigning Ops.inert) (startOn 0 emptyData) := by
  refine .head (.of_straight rfl ?_) (.head (.of_straight rfl ?_) (.head (.of_straight rfl ?_)
    (.head (.of_straight rfl ?_) (.head (.of_straight rfl ?_) (.final (.of_straight rfl ?_) rfl)))))
  · rintro i ⟨⟩
    exact ⟨rfl, .inl rfl⟩
  · rintro i ⟨⟩
    exact ⟨rfl, trivial⟩
  · rintro i ⟨⟩
    exact ⟨rfl, .inl rfl⟩
  · rintro i ⟨⟩
    exact ⟨rfl, .inl rfl⟩
  · rintro i ⟨⟩
    exact ⟨rfl, .inl rfl⟩
  · nofun

/-- The variables of the conditions. -/
def conditionData : Data Unit :=
  { emptyData with env := (Env.empty.setGlobal "a" (.bool true)).setGlobal "b" (.bool false) }

end Programs

end Fuse

end Wqpl
