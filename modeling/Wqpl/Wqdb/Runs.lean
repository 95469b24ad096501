/-
# Runs of the debugger

Commands come from the host and from the machine in any order. Through every run
numbers are given once, each place and each line of a path has one breakpoint
(`Valid`), and the host is told of a resolved breakpoint once and not of one that is gone
(`Told`).

A request for breakpoints resolves all that there are, not only its own. The host reads its
own from the reply; those of other paths are the only breakpoints with a location of which
it is not told.

Key definitions: `Command`, `Trace.step`, `Trace.run`.
-/
import Mathlib.Order.Basic
import Wqpl.Wqdb.State

namespace Wqpl
namespace Wqdb

inductive Command
  | setEnabled (enabled : Bool)
  | resetExecutionState
  | clearMode
  | ensureBreakpoint (loc : CodeLoc) (kind : BreakpointKind)
  | explicitPauseId (loc : CodeLoc)
  | clearBreakpoint (loc : CodeLoc)
  | replaceSourceBreakpoints (debugInfo : DebugInfo) (sourcePath : String) (lines : List Nat)
  | resolveSourceBreakpoints (debugInfo : DebugInfo)
  | takeResolvedSourceBreakpoints
  | toggleBreakpointAt (loc : CodeLoc)
  | toggleBreakpointById (id : Nat)
  | toggleAllBreakpoints
  | notePause (loc : CodeLoc)
  | request (mode : StepMode) (depth : Nat)
  | armEntry (depth : Nat)
  | addTempBreak (loc : CodeLoc)
  | setGranularity (granularity : StepGranularity)
  | ensureSymbolTracker (target : SymbolTrackTarget)
  | removeSymbolTracker (id : Nat)
  | clearSymbolTrackers

def DebugState.step (st : DebugState) : Command → DebugState
  | .setEnabled enabled => { st with enabled := enabled }
  | .resetExecutionState => st.resetExecutionState
  | .clearMode => st.clearMode
  | .ensureBreakpoint loc kind => (st.ensureBreakpoint loc kind).2
  | .explicitPauseId loc => (st.explicitPauseId loc).2
  | .clearBreakpoint loc => st.clearBreakpoint loc
  | .replaceSourceBreakpoints debugInfo sourcePath lines =>
    (st.replaceSourceBreakpoints debugInfo sourcePath lines).2
  | .resolveSourceBreakpoints debugInfo => st.resolveSourceBreakpoints debugInfo
  | .takeResolvedSourceBreakpoints => st.takeResolvedSourceBreakpoints.2
  | .toggleBreakpointAt loc => (st.toggleBreakpointAt loc).2
  | .toggleBreakpointById id => (st.toggleBreakpointById id).2
  | .toggleAllBreakpoints => st.toggleAllBreakpoints.2
  | .notePause loc => st.notePause loc
  | .request mode depth => st.request mode depth
  | .armEntry depth => st.armEntry depth
  | .addTempBreak loc => st.addTempBreak loc
  | .setGranularity granularity => { st with granularity := granularity }
  | .ensureSymbolTracker target => (st.ensureSymbolTracker target).2
  | .removeSymbolTracker id => (st.removeSymbolTracker id).2
  | .clearSymbolTrackers => { st with symbolTrackers := [] }

/-- A state, and what has happened since the last reset: the breakpoints that the host has
taken or read from a reply, and the numbers of those of a path that were resolved while
breakpoints of another were requested. -/
structure Trace where
  state : DebugState
  delivered : List SourceBreakpoint
  replies : List SourceBreakpoint
  silent : List Nat

namespace Trace

/-- The breakpoints of other paths that are resolved between two states. -/
def elsewhere (sourcePath : String) (st st' : DebugState) : List Nat :=
  (st.all.filter fun b => b.sourcePath ≠ sourcePath ∧ b.location.isNone ∧
    st'.all.any fun a => a.id = b.id ∧ a.location.isSome).map SourceBreakpoint.id

def step (t : Trace) (c : Command) : Trace :=
  match c with
  | .resetExecutionState => ⟨t.state.resetExecutionState, [], [], []⟩
  | .takeResolvedSourceBreakpoints =>
    { t with
      state := t.state.takeResolvedSourceBreakpoints.2
      delivered := t.delivered ++ t.state.takeResolvedSourceBreakpoints.1 }
  | .replaceSourceBreakpoints debugInfo sourcePath lines =>
    let r := t.state.replaceSourceBreakpoints debugInfo sourcePath lines
    { t with
      state := r.2
      replies := t.replies ++ r.1
      silent := t.silent ++ elsewhere sourcePath t.state r.2 }
  | c => { t with state := t.state.step c }

def run (cs : List Command) : Trace := cs.foldl step ⟨.default, [], [], []⟩

@[simp] theorem step_state (t : Trace) (c : Command) : (t.step c).state = t.state.step c := by
  cases c <;> rfl

end Trace

/-! ### What every state keeps -/

structure Valid (st : DebugState) : Prop where
  nodup : (st.breaks.map (fun e => e.2.id) ++ st.all.map SourceBreakpoint.id).Nodup
  below : ∀ id ∈ st.breaks.map (fun e => e.2.id) ++ st.all.map SourceBreakpoint.id,
    id < st.nextBreakId
  places : (st.breaks.map Prod.fst).Nodup
  paths : (st.sourceBreakpoints.map Prod.fst).Nodup
  groups : ∀ g ∈ st.sourceBreakpoints,
    (∀ b ∈ g.2, b.sourcePath = g.1) ∧ (g.2.map SourceBreakpoint.requestedLine).Nodup
  trackers : (st.symbolTrackers.map SymbolTracker.id).Nodup
  trackersBelow : ∀ t ∈ st.symbolTrackers, t.id < st.nextSymbolTrackerId
  targets : (st.symbolTrackers.map SymbolTracker.target).Nodup

/-- What the host has been told of, and will be. -/
structure Told (t : Trace) : Prop where
  queued : ∀ b ∈ t.state.resolvedSourceBreakpoints, b ∈ t.state.all ∧ b.location.isSome
  once : ((t.delivered ++ t.state.resolvedSourceBreakpoints).map SourceBreakpoint.id).Nodup
  apart : ∀ b ∈ t.replies, b.location.isSome →
    b.id ∉ (t.delivered ++ t.state.resolvedSourceBreakpoints).map SourceBreakpoint.id
  below : ∀ b ∈ t.delivered ++ t.replies, b.id < t.state.nextBreakId
  pending : ∀ b ∈ t.state.all, b.location = none →
    b.id ∉ t.delivered.map SourceBreakpoint.id ∧ ∀ a ∈ t.replies, a.id = b.id → a.location = none
  told : ∀ b ∈ t.state.all, b.location.isSome →
    b ∈ t.delivered ++ t.state.resolvedSourceBreakpoints ∨ b ∈ t.replies ∨ b.id ∈ t.silent

theorem valid_default (enabled : Bool) : Valid { DebugState.default with enabled := enabled } := by
  constructor <;> simp [DebugState.default, DebugState.all]

theorem Valid.nodup_all {st : DebugState} (h : Valid st) :
    (st.all.map SourceBreakpoint.id).Nodup := (List.nodup_append.mp h.nodup).2.1

section Steps

variable {st : DebugState}

/-! ### Breakpoints at places -/

theorem lookup_eq_none {loc : CodeLoc} (h : st.breaks.lookup loc = none) :
    loc ∉ st.breaks.map Prod.fst := by
  intro hmem
  obtain ⟨e, he, rfl⟩ := List.mem_map.mp hmem
  have hne := List.lookup_eq_none_iff.mp h e he
  exact bne_iff_ne.mp hne rfl

theorem Valid.ensureBreakpoint (h : Valid st) (loc : CodeLoc) (kind : BreakpointKind) :
    Valid (st.ensureBreakpoint loc kind).2 := by
  unfold DebugState.ensureBreakpoint
  split
  · exact h
  · rename_i hnone
    have hfresh : st.nextBreakId ∉
        st.breaks.map (fun e => e.2.id) ++ st.all.map SourceBreakpoint.id :=
      fun hmem => Nat.lt_irrefl _ (h.below _ hmem)
    refine { h with
      nodup := List.nodup_cons.mpr ⟨hfresh, h.nodup⟩
      below := fun id hid => ?_
      places := List.nodup_cons.mpr ⟨lookup_eq_none hnone, h.places⟩ }
    rcases List.mem_cons.mp hid with rfl | hid
    · exact Nat.lt_succ_self _
    · exact Nat.lt_succ_of_lt (h.below id hid)

theorem ensureBreakpoint_frame (st : DebugState) (loc : CodeLoc) (kind : BreakpointKind) :
    ∃ breaks nextBreakId, st.nextBreakId ≤ nextBreakId ∧
      (st.ensureBreakpoint loc kind).2 = { st with breaks, nextBreakId } := by
  unfold DebugState.ensureBreakpoint
  split
  · exact ⟨_, _, Nat.le_refl _, rfl⟩
  · exact ⟨_, _, Nat.le_succ _, rfl⟩

/-- Breakpoints at places that are left out or changed, but not in their numbers. -/
theorem Valid.withBreaks (h : Valid st) {breaks : List (CodeLoc × Breakpoint)}
    (hids : (breaks.map fun e => e.2.id).Sublist (st.breaks.map fun e => e.2.id))
    (hplaces : (breaks.map Prod.fst).Sublist (st.breaks.map Prod.fst)) :
    Valid { st with breaks := breaks } :=
  { h with
    nodup := h.nodup.sublist (hids.append_right _)
    below := fun id hid => h.below id ((hids.append_right _).subset hid)
    places := h.places.sublist hplaces }

theorem Valid.clearBreakpoint (h : Valid st) (loc : CodeLoc) : Valid (st.clearBreakpoint loc) :=
  h.withBreaks (List.filter_sublist.map _) (List.filter_sublist.map _)

/-- Breakpoints at places that are switched on or off. -/
theorem Valid.switch (h : Valid st) {breaks : List (CodeLoc × Breakpoint)}
    (hids : (breaks.map fun e => e.2.id) = st.breaks.map fun e => e.2.id)
    (hplaces : breaks.map Prod.fst = st.breaks.map Prod.fst) :
    Valid { st with breaks := breaks } :=
  h.withBreaks (hids ▸ .refl _) (hplaces ▸ .refl _)

theorem toggleFirst_fields (id : Nat) (breaks : List (CodeLoc × Breakpoint)) :
    ((toggleFirst id breaks).map fun e => e.2.id) = breaks.map (fun e => e.2.id) ∧
      (toggleFirst id breaks).map Prod.fst = breaks.map Prod.fst := by
  induction breaks with
  | nil => exact ⟨rfl, rfl⟩
  | cons e breaks ih =>
    unfold toggleFirst
    split
    · exact ⟨rfl, rfl⟩
    · exact ⟨congrArg (e.2.id :: ·) ih.1, congrArg (e.1 :: ·) ih.2⟩

theorem Valid.toggleBreakpointAt (h : Valid st) (loc : CodeLoc) :
    Valid (st.toggleBreakpointAt loc).2 := by
  unfold DebugState.toggleBreakpointAt
  split
  · refine h.switch ?_ ?_
    · rw [List.map_map]
      refine List.map_congr_left fun e _ => ?_
      show (if _ then _ else _ : CodeLoc × Breakpoint).2.id = _
      split <;> rfl
    · rw [List.map_map]
      refine List.map_congr_left fun e _ => ?_
      show (if _ then _ else _ : CodeLoc × Breakpoint).1 = _
      split <;> rfl
  · exact h.ensureBreakpoint loc .persistent

theorem Valid.toggleBreakpointById (h : Valid st) (id : Nat) :
    Valid (st.toggleBreakpointById id).2 :=
  h.switch (toggleFirst_fields id _).1 (toggleFirst_fields id _).2

theorem Valid.toggleAllBreakpoints (h : Valid st) : Valid st.toggleAllBreakpoints.2 := by
  refine h.switch ?_ ?_
  · rw [List.map_map]
    rfl
  · rw [List.map_map]
    rfl

/-! ### Trackers -/

theorem Valid.ensureSymbolTracker (h : Valid st) (target : SymbolTrackTarget) :
    Valid (st.ensureSymbolTracker target).2 := by
  unfold DebugState.ensureSymbolTracker
  split
  · exact h
  · rename_i hnone
    have hnone : target ∉ st.symbolTrackers.map SymbolTracker.target := by
      intro hmem
      obtain ⟨t, ht, heq⟩ := List.mem_map.mp hmem
      exact List.find?_eq_none.mp hnone t ht (decide_eq_true heq)
    have hfresh : st.nextSymbolTrackerId ∉ st.symbolTrackers.map SymbolTracker.id := by
      intro hmem
      obtain ⟨t, ht, heq⟩ := List.mem_map.mp hmem
      exact Nat.lt_irrefl _ (heq ▸ h.trackersBelow t ht)
    refine { h with
      trackers := ?_
      trackersBelow := fun t ht => ?_
      targets := ?_ }
    · rw [List.map_append]
      exact h.trackers.append (List.nodup_singleton _) (by simpa using hfresh)
    · rcases List.mem_append.mp ht with ht | ht
      · exact Nat.lt_succ_of_lt (h.trackersBelow t ht)
      · rw [List.mem_singleton.mp ht]
        exact Nat.lt_succ_self _
    · rw [List.map_append]
      exact h.targets.append (List.nodup_singleton _) (by simpa using hnone)

theorem Valid.removeSymbolTracker (h : Valid st) (id : Nat) :
    Valid (st.removeSymbolTracker id).2 :=
  { h with
    trackers := h.trackers.sublist (List.filter_sublist.map _)
    trackersBelow := fun t ht => h.trackersBelow t (List.mem_filter.mp ht).1
    targets := h.targets.sublist (List.filter_sublist.map _) }

/-! ### Breakpoints at lines -/

/-- Numbers tell breakpoints apart. -/
theorem Valid.eq_of_id (h : Valid st) {a b : SourceBreakpoint} (ha : a ∈ st.all) (hb : b ∈ st.all)
    (hid : a.id = b.id) : a = b := List.inj_on_of_nodup_map h.nodup_all ha hb hid

theorem Valid.id_lt (h : Valid st) {b : SourceBreakpoint} (hb : b ∈ st.all) :
    b.id < st.nextBreakId := h.below _ (List.mem_append_right _ (List.mem_map_of_mem hb))

/-- A function gives locations to breakpoints without one. -/
def Locates (f : SourceBreakpoint → SourceBreakpoint) : Prop :=
  ∀ b, f b = b ∨ b.location = none ∧ ∃ loc, f b = { b with location := some loc }

theorem Locates.id : Locates id := fun _ => .inl rfl

theorem Locates.resolve (debugInfo : DebugInfo) : Locates (SourceBreakpoint.resolve debugInfo) := by
  intro b
  unfold SourceBreakpoint.resolve SourceBreakpoint.found
  split
  · exact .inl rfl
  · rename_i loc hfound
    split at hfound
    · rename_i hnone
      exact .inr ⟨Option.isNone_iff_eq_none.mp hnone, loc, rfl⟩
    · cases hfound

section Locating

variable {f : SourceBreakpoint → SourceBreakpoint} (hf : Locates f) (b : SourceBreakpoint)
include hf

theorem Locates.fields : (f b).id = b.id ∧ (f b).sourcePath = b.sourcePath ∧
    (f b).requestedLine = b.requestedLine := by
  rcases hf b with heq | ⟨-, loc, heq⟩ <;> rw [heq] <;> exact ⟨rfl, rfl, rfl⟩

variable {b}

theorem Locates.of_located (h : b.location.isSome) : f b = b := by
  rcases hf b with heq | ⟨hnone, -⟩
  · exact heq
  · rw [hnone] at h
    cases h

theorem Locates.of_none (h : (f b).location = none) : f b = b := by
  rcases hf b with heq | ⟨-, loc, heq⟩
  · exact heq
  · rw [heq] at h
    cases h

end Locating

/-- Breakpoints at lines that get locations. -/
theorem Valid.locate (h : Valid st) {f : SourceBreakpoint → SourceBreakpoint} (hf : Locates f)
    (resolvedSourceBreakpoints : List SourceBreakpoint) :
    Valid { st with
      sourceBreakpoints := mapGroups f st.sourceBreakpoints
      resolvedSourceBreakpoints } := by
  have hids : (DebugState.all { st with
      sourceBreakpoints := mapGroups f st.sourceBreakpoints
      resolvedSourceBreakpoints }).map SourceBreakpoint.id = st.all.map SourceBreakpoint.id := by
    have hall : DebugState.all { st with
      sourceBreakpoints := mapGroups f st.sourceBreakpoints
      resolvedSourceBreakpoints } = st.all.map f := flatMap_mapGroups _ _
    rw [hall, List.map_map]
    exact List.map_congr_left fun b _ => (hf.fields b).1
  refine { h with
    nodup := by rw [hids]; exact h.nodup
    below := by rw [hids]; exact h.below
    paths := ?_
    groups := fun g hg => ?_ }
  · show ((mapGroups _ _).map Prod.fst).Nodup
    rw [mapGroups, List.map_map]
    exact h.paths
  · obtain ⟨g', hg', rfl⟩ := List.mem_map.mp hg
    obtain ⟨hpath, hlines⟩ := h.groups g' hg'
    refine ⟨List.forall_mem_map.mpr fun b hb => (hf.fields b).2.1.trans (hpath b hb), ?_⟩
    rw [List.map_map]
    have hsame : g'.2.map (SourceBreakpoint.requestedLine ∘ f) =
        g'.2.map SourceBreakpoint.requestedLine :=
      List.map_congr_left fun b _ => (hf.fields b).2.2
    rwa [hsame]

theorem Valid.resolve (h : Valid st) (debugInfo : DebugInfo) (notify : Bool) :
    Valid (st.resolveSourceBreakpointsInner debugInfo notify) := by
  rw [resolveSourceBreakpointsInner_eq h.nodup_all]
  exact h.locate (.resolve debugInfo) _

/-! ### Requests -/

/-- New breakpoints of a path for lines, with numbers between two. -/
structure Requested (sourcePath : String) (first : Nat) (lines : List Nat)
    (r : List SourceBreakpoint × Nat) : Prop where
  le : first ≤ r.2
  ids : (r.1.map SourceBreakpoint.id).Nodup
  bounds : ∀ b ∈ r.1, first ≤ b.id ∧ b.id < r.2
  fresh : ∀ b ∈ r.1, b.sourcePath = sourcePath ∧ b.location = none
  distinct : (r.1.map SourceBreakpoint.requestedLine).Nodup
  asked : ∀ line, line ∈ r.1.map SourceBreakpoint.requestedLine ↔ line ∈ lines

theorem Requested.nil (sourcePath : String) (first : Nat) :
    Requested sourcePath first [] ([], first) :=
  ⟨Nat.le_refl _, by simp, by simp, by simp, by simp, by simp⟩

theorem Requested.again {sourcePath : String} {first line : Nat} {lines : List Nat}
    {r : List SourceBreakpoint × Nat} (h : Requested sourcePath first lines r)
    (hline : line ∈ r.1.map SourceBreakpoint.requestedLine) :
    Requested sourcePath first (lines ++ [line]) r := by
  refine { h with asked := fun l => ?_ }
  rw [h.asked] at hline ⊢
  rw [List.mem_append, List.mem_singleton]
  constructor
  · exact .inl
  · rintro (hl | rfl)
    · exact hl
    · exact hline

theorem Requested.another {sourcePath : String} {first line nextBreakId : Nat} {lines : List Nat}
    {breakpoints : List SourceBreakpoint}
    (h : Requested sourcePath first lines (breakpoints, nextBreakId))
    (hline : line ∉ breakpoints.map SourceBreakpoint.requestedLine) :
    Requested sourcePath first (lines ++ [line])
      (breakpoints ++ [⟨nextBreakId, sourcePath, line, none⟩], nextBreakId + 1) := by
  have hid : nextBreakId ∉ breakpoints.map SourceBreakpoint.id := by
    intro hmem
    obtain ⟨b, hb, heq⟩ := List.mem_map.mp hmem
    exact Nat.lt_irrefl _ (heq ▸ (h.bounds b hb).2)
  refine ⟨Nat.le_succ_of_le h.le, ?_, ?_, ?_, ?_, fun l => ?_⟩
  · rw [List.map_append]
    exact h.ids.append (List.nodup_singleton _) (by simpa using hid)
  · refine List.forall_mem_append.mpr ⟨fun b hb => ?_, fun b hb => ?_⟩
    · obtain ⟨hle, hlt⟩ := h.bounds b hb
      exact ⟨hle, Nat.lt_succ_of_lt hlt⟩
    · rw [List.mem_singleton.mp hb]
      exact ⟨h.le, Nat.lt_succ_self _⟩
  · refine List.forall_mem_append.mpr ⟨h.fresh, fun b hb => ?_⟩
    rw [List.mem_singleton.mp hb]
    exact ⟨rfl, rfl⟩
  · rw [List.map_append]
    exact h.distinct.append (List.nodup_singleton _) (by simpa using hline)
  · rw [List.map_append, List.mem_append, List.mem_append]
    exact or_congr (h.asked l) Iff.rfl

theorem requested_spec {sourcePath : String} {first : Nat} (lines : List Nat) :
    ∀ {done : List Nat} {nextBreakId : Nat} {breakpoints : List SourceBreakpoint},
      Requested sourcePath first done (breakpoints, nextBreakId) →
      Requested sourcePath first (done ++ lines)
        (DebugState.requested sourcePath lines nextBreakId breakpoints) := by
  induction lines with
  | nil =>
    intro done nextBreakId breakpoints h
    rwa [List.append_nil]
  | cons line lines ih =>
    intro done nextBreakId breakpoints h
    rw [List.append_cons]
    unfold DebugState.requested
    split
    · rename_i hsame
      obtain ⟨b, hb, heq⟩ := List.any_eq_true.mp hsame
      exact ih (h.again (List.mem_map.mpr ⟨b, hb, of_decide_eq_true heq⟩))
    · rename_i hnew
      refine ih (h.another fun hmem => hnew ?_)
      obtain ⟨b, hb, heq⟩ := List.mem_map.mp hmem
      exact List.any_eq_true.mpr ⟨b, hb, decide_eq_true heq⟩

/-- What is left when the breakpoints of a path are removed. -/
theorem removePath_eq (h : Valid st)
    (hqueued : ∀ b ∈ st.resolvedSourceBreakpoints, b ∈ st.all) (sourcePath : String) :
    st.removePath sourcePath = { st with
      sourceBreakpoints := st.sourceBreakpoints.filter fun g => g.1 ≠ sourcePath
      resolvedSourceBreakpoints :=
        st.resolvedSourceBreakpoints.filter fun b => b.sourcePath ≠ sourcePath } := by
  have hgroup : ∀ b ∈ st.all, ∃ g ∈ st.sourceBreakpoints, b ∈ g.2 ∧ b.sourcePath = g.1 := by
    intro b hb
    obtain ⟨g, hg, hbg⟩ := List.mem_flatMap.mp hb
    exact ⟨g, hg, hbg, (h.groups g hg).1 b hbg⟩
  unfold DebugState.removePath
  split
  · rename_i hnone
    have hpath : ∀ g ∈ st.sourceBreakpoints, g.1 ≠ sourcePath := by
      intro g hg
      have := List.lookup_eq_none_iff.mp hnone g hg
      exact Ne.symm (by simpa using this)
    rw [List.filter_eq_self.mpr fun g hg => by simpa using hpath g hg,
      List.filter_eq_self.mpr fun b hb => ?_]
    obtain ⟨g, hg, -, heq⟩ := hgroup b (hqueued b hb)
    simpa [heq] using hpath g hg
  · rename_i previous hsome
    obtain ⟨l₁, l₂, heq, -⟩ := List.lookup_eq_some_iff.mp hsome
    have hmem : (sourcePath, previous) ∈ st.sourceBreakpoints := by rw [heq]; simp
    congr 1
    refine List.filter_congr fun b hb => ?_
    have hball := hqueued b hb
    have hiff : b.id ∈ previous.map SourceBreakpoint.id ↔ b.sourcePath = sourcePath := by
      constructor
      · intro hid
        obtain ⟨a, ha, hid⟩ := List.mem_map.mp hid
        have hab := h.eq_of_id (List.mem_flatMap.mpr ⟨_, hmem, ha⟩) hball hid
        exact hab ▸ (h.groups _ hmem).1 a ha
      · intro hpath
        obtain ⟨g, hg, hbg, heq⟩ := hgroup b hball
        have hsame : g = (sourcePath, previous) :=
          List.inj_on_of_nodup_map h.paths hg hmem (heq.symm.trans hpath)
        rw [hsame] at hbg
        exact List.mem_map_of_mem hbg
    simp only [decide_not, ne_eq, hiff]

/-- The breakpoints of other paths. -/
theorem flatMap_filter_paths {groups : List (String × List SourceBreakpoint)}
    (h : ∀ g ∈ groups, ∀ b ∈ g.2, b.sourcePath = g.1) (sourcePath : String) :
    (groups.filter fun g => g.1 ≠ sourcePath).flatMap Prod.snd =
      (groups.flatMap Prod.snd).filter fun b => b.sourcePath ≠ sourcePath := by
  induction groups with
  | nil => rfl
  | cons g groups ih =>
    obtain ⟨hg, hgroups⟩ := List.forall_mem_cons.mp h
    rw [List.flatMap_cons, List.filter_append, ← ih hgroups, List.filter_cons]
    by_cases hpath : g.1 = sourcePath
    · have hnone : (g.2.filter fun b => b.sourcePath ≠ sourcePath) = [] := by
        rw [List.filter_eq_nil_iff]
        intro b hb
        simp [hg b hb, hpath]
      rw [if_neg (by simp [hpath]), hnone, List.nil_append]
    · have hall : (g.2.filter fun b => b.sourcePath ≠ sourcePath) = g.2 := by
        rw [List.filter_eq_self]
        intro b hb
        simp [hg b hb, hpath]
      rw [if_pos (by simp [hpath]), hall, List.flatMap_cons]

theorem Valid.filterPaths (h : Valid st) (sourcePath : String)
    (resolvedSourceBreakpoints : List SourceBreakpoint) :
    Valid { st with
      sourceBreakpoints := st.sourceBreakpoints.filter fun g => g.1 ≠ sourcePath
      resolvedSourceBreakpoints } := by
  have hsublist : (DebugState.all { st with
      sourceBreakpoints := st.sourceBreakpoints.filter fun g => g.1 ≠ sourcePath
      resolvedSourceBreakpoints }).Sublist st.all := by
    have hall := flatMap_filter_paths (fun g hg => (h.groups g hg).1) sourcePath
    show (List.flatMap Prod.snd (List.filter _ _)).Sublist _
    rw [hall]
    exact List.filter_sublist
  have hids := (hsublist.map SourceBreakpoint.id).append_left (st.breaks.map fun e => e.2.id)
  exact { h with
    nodup := h.nodup.sublist hids
    below := fun id hid => h.below id (hids.subset hid)
    paths := h.paths.sublist (List.filter_sublist.map _)
    groups := fun g hg => h.groups g (List.mem_filter.mp hg).1 }

theorem Valid.addGroup (h : Valid st) {sourcePath : String} {lines : List Nat}
    {r : List SourceBreakpoint × Nat} (hr : Requested sourcePath st.nextBreakId lines r)
    (hpath : sourcePath ∉ st.sourceBreakpoints.map Prod.fst) :
    Valid { st with
      nextBreakId := r.2
      sourceBreakpoints := (sourcePath, r.1) :: st.sourceBreakpoints } := by
  have hall : DebugState.all { st with
      nextBreakId := r.2
      sourceBreakpoints := (sourcePath, r.1) :: st.sourceBreakpoints } = r.1 ++ st.all :=
    List.flatMap_cons
  have hperm : (st.breaks.map (fun e => e.2.id) ++ (r.1 ++ st.all).map SourceBreakpoint.id).Perm
      (r.1.map SourceBreakpoint.id ++
        (st.breaks.map (fun e => e.2.id) ++ st.all.map SourceBreakpoint.id)) := by
    rw [List.map_append]
    exact List.perm_append_comm_assoc ..
  have hnew : ∀ id ∈ r.1.map SourceBreakpoint.id, st.nextBreakId ≤ id ∧ id < r.2 :=
    List.forall_mem_map.mpr hr.bounds
  refine { h with
    nodup := ?_
    below := ?_
    paths := List.nodup_cons.mpr ⟨hpath, h.paths⟩
    groups := List.forall_mem_cons.mpr ⟨⟨fun b hb => (hr.fresh b hb).1, hr.distinct⟩, h.groups⟩ }
  · rw [hall, hperm.nodup_iff]
    refine hr.ids.append h.nodup fun id hid hold => ?_
    exact absurd (h.below id hold) (Nat.not_lt.mpr (hnew id hid).1)
  · rw [hall]
    intro id hid
    rcases List.mem_append.mp (hperm.subset hid) with hid | hid
    · exact (hnew id hid).2
    · exact Nat.lt_of_lt_of_le (h.below id hid) hr.le

/-- The number of a request is raised. -/
theorem Valid.raise (h : Valid st) {nextBreakId : Nat} (hle : st.nextBreakId ≤ nextBreakId) :
    Valid { st with nextBreakId } :=
  { h with below := fun id hid => Nat.lt_of_lt_of_le (h.below id hid) hle }

/-- What a request does: there are the breakpoints of other paths and new ones, of which some
get a location. -/
structure Replaced (st : DebugState) (sourcePath : String) (lines : List Nat)
    (reply : List SourceBreakpoint) (st' : DebugState) (fresh : List SourceBreakpoint)
    (f : SourceBreakpoint → SourceBreakpoint) : Prop where
  valid : Valid st'
  requested : Requested sourcePath st.nextBreakId lines (fresh, st'.nextBreakId)
  locates : Locates f
  all : st'.all = (fresh ++ st.all.filter fun b => b.sourcePath ≠ sourcePath).map f
  queue : st'.resolvedSourceBreakpoints =
    st.resolvedSourceBreakpoints.filter fun b => b.sourcePath ≠ sourcePath
  reply : reply = lines.filterMap fun line => (fresh.map f).find? fun b => b.requestedLine = line

theorem replaced (h : Valid st) (hqueued : ∀ b ∈ st.resolvedSourceBreakpoints, b ∈ st.all)
    (debugInfo : DebugInfo) (sourcePath : String) (lines : List Nat) :
    ∃ fresh f, Replaced st sourcePath lines
      (st.replaceSourceBreakpoints debugInfo sourcePath lines).1
      (st.replaceSourceBreakpoints debugInfo sourcePath lines).2 fresh f := by
  have hothers := flatMap_filter_paths (fun g hg => (h.groups g hg).1) sourcePath
  have hpath : sourcePath ∉
      (st.sourceBreakpoints.filter fun g => g.1 ≠ sourcePath).map Prod.fst := by
    intro hmem
    obtain ⟨g, hg, heq⟩ := List.mem_map.mp hmem
    exact of_decide_eq_true (List.mem_filter.mp hg).2 heq
  have hr : Requested sourcePath st.nextBreakId lines
      (DebugState.requested sourcePath lines st.nextBreakId []) :=
    requested_spec lines (.nil sourcePath st.nextBreakId)
  unfold DebugState.replaceSourceBreakpoints
  rw [removePath_eq h hqueued]
  dsimp only
  generalize DebugState.requested sourcePath lines st.nextBreakId [] = r at hr ⊢
  obtain ⟨fresh, nextBreakId⟩ := r
  have hvalid := h.filterPaths sourcePath
    (st.resolvedSourceBreakpoints.filter fun b => b.sourcePath ≠ sourcePath)
  split
  · rename_i hempty
    have hempty : fresh = [] := hempty
    subst hempty
    refine ⟨[], id, hvalid.raise hr.le, hr, .id, ?_, rfl, ?_⟩
    · rw [List.nil_append, List.map_id]
      exact hothers
    · have hnone : (st.sourceBreakpoints.filter fun g => g.1 ≠ sourcePath).lookup sourcePath =
          none := by
        rw [List.lookup_eq_none_iff]
        exact fun g hg => bne_iff_ne.mpr fun heq => hpath (List.mem_map.mpr ⟨g, hg, heq.symm⟩)
      unfold DebugState.reply
      rw [hnone]
      simp
  · have hadd := hvalid.addGroup hr hpath
    refine ⟨fresh, SourceBreakpoint.resolve debugInfo, hadd.resolve debugInfo false, ?_,
      .resolve debugInfo, ?_, ?_, ?_⟩
    all_goals rw [resolveSourceBreakpointsInner_eq hadd.nodup_all]
    · exact hr
    · show (mapGroups _ (_ :: _)).flatMap Prod.snd = _
      rw [flatMap_mapGroups, List.flatMap_cons, hothers]
      rfl
    · rfl
    · have hsome : (mapGroups (SourceBreakpoint.resolve debugInfo)
          ((sourcePath, fresh) :: st.sourceBreakpoints.filter fun g => g.1 ≠ sourcePath)).lookup
          sourcePath = some (fresh.map (SourceBreakpoint.resolve debugInfo)) := by
        rw [mapGroups, List.map_cons, List.lookup_cons_self]
      unfold DebugState.reply
      dsimp only
      rw [hsome]

theorem Replaced.reply_spec {sourcePath : String} {lines : List Nat}
    {reply fresh : List SourceBreakpoint} {st' : DebugState}
    {f : SourceBreakpoint → SourceBreakpoint}
    (h : Replaced st sourcePath lines reply st' fresh f) :
    reply.map SourceBreakpoint.requestedLine = lines ∧
      (∀ b ∈ reply, b ∈ fresh.map f) ∧ ∀ b ∈ fresh.map f, b ∈ reply := by
  have hline : ∀ b, (f b).requestedLine = b.requestedLine := fun b => (h.locates.fields b).2.2
  have hlines : (fresh.map f).map SourceBreakpoint.requestedLine =
      fresh.map SourceBreakpoint.requestedLine := by
    rw [List.map_map]
    exact List.map_congr_left fun b _ => hline b
  have hfind : ∀ line ∈ lines, ∃ b ∈ fresh.map f,
      ((fresh.map f).find? fun b => b.requestedLine = line) = some b ∧ b.requestedLine = line := by
    intro line hmem
    rw [← h.requested.asked, ← hlines] at hmem
    obtain ⟨b, hb, heq⟩ := List.mem_map.mp hmem
    have hsome : ((fresh.map f).find? fun b => b.requestedLine = line).isSome :=
      List.find?_isSome.mpr ⟨b, hb, decide_eq_true heq⟩
    obtain ⟨a, ha⟩ := Option.isSome_iff_exists.mp hsome
    have heq := List.find?_some ha
    exact ⟨a, List.mem_of_find?_eq_some ha, ha, of_decide_eq_true heq⟩
  rw [h.reply]
  refine ⟨?_, fun b hb => ?_, fun b hb => ?_⟩
  · rw [List.map_filterMap]
    conv_rhs => rw [← List.filterMap_some (l := lines)]
    refine List.filterMap_congr fun line hmem => ?_
    obtain ⟨b, -, hfound, heq⟩ := hfind line hmem
    rw [hfound, Option.map_some, heq]
  · obtain ⟨line, hmem, heq⟩ := List.mem_filterMap.mp hb
    exact List.mem_of_find?_eq_some heq
  · have hmem : b.requestedLine ∈ lines := by
      rw [← h.requested.asked, ← hlines]
      exact List.mem_map_of_mem hb
    obtain ⟨a, ha, hfound, heq⟩ := hfind _ hmem
    have hdistinct : ((fresh.map f).map SourceBreakpoint.requestedLine).Nodup :=
      hlines ▸ h.requested.distinct
    have hab : a = b := List.inj_on_of_nodup_map hdistinct ha hb heq
    exact List.mem_filterMap.mpr ⟨b.requestedLine, hmem, hab ▸ hfound⟩

end Steps

/-! ### What the host is told -/

section Telling

variable {t : Trace}

/-- Commands that leave the breakpoints at lines alone. -/
theorem Told.frame (h : Told t) {st : DebugState}
    (hgroups : st.sourceBreakpoints = t.state.sourceBreakpoints)
    (hqueue : st.resolvedSourceBreakpoints = t.state.resolvedSourceBreakpoints)
    (hle : t.state.nextBreakId ≤ st.nextBreakId) : Told { t with state := st } := by
  have hall : st.all = t.state.all := congrArg (List.flatMap Prod.snd) hgroups
  constructor
  · intro b hb
    rw [hall]
    exact h.queued b (hqueue ▸ hb)
  · rw [hqueue]
    exact h.once
  · rw [hqueue]
    exact h.apart
  · exact fun b hb => Nat.lt_of_lt_of_le (h.below b hb) hle
  · rw [hall]
    exact h.pending
  · rw [hall, hqueue]
    exact h.told

theorem Told.ensure (h : Told t) (loc : CodeLoc) (kind : BreakpointKind) :
    Told { t with state := (t.state.ensureBreakpoint loc kind).2 } := by
  obtain ⟨breaks, nextBreakId, hle, heq⟩ := ensureBreakpoint_frame t.state loc kind
  rw [heq]
  exact h.frame rfl rfl hle

theorem Told.take (h : Told t) (hvalid : Valid t.state) :
    Told (t.step .takeResolvedSourceBreakpoints) := by
  constructor
  · exact fun b hb => absurd hb List.not_mem_nil
  · show ((_ ++ []).map _).Nodup
    rw [List.append_nil]
    exact h.once
  · show ∀ b ∈ t.replies, _ → _ ∉ (_ ++ []).map _
    rw [List.append_nil]
    exact h.apart
  · show ∀ b ∈ (_ ++ _) ++ _, _
    intro b hb
    rw [List.append_assoc, List.mem_append, List.mem_append] at hb
    rcases hb with hb | hb | hb
    · exact h.below b (List.mem_append_left _ hb)
    · exact hvalid.id_lt (h.queued b hb).1
    · exact h.below b (List.mem_append_right _ hb)
  · intro b hb hnone
    obtain ⟨hdelivered, hreplies⟩ := h.pending b hb hnone
    refine ⟨?_, hreplies⟩
    show b.id ∉ List.map _ (_ ++ _)
    rw [List.map_append, List.mem_append, not_or]
    refine ⟨hdelivered, fun hmem => ?_⟩
    obtain ⟨a, ha, hid⟩ := List.mem_map.mp hmem
    obtain ⟨haall, hsome⟩ := h.queued a ha
    rw [hvalid.eq_of_id haall hb hid, hnone] at hsome
    cases hsome
  · show ∀ b ∈ t.state.all, _ → _ ∈ (_ ++ _) ++ [] ∨ _
    rw [List.append_nil]
    exact h.told

theorem found_cases (debugInfo : DebugInfo) (b : SourceBreakpoint) :
    (b.found debugInfo).isSome ∧ b.location = none ∧ (b.resolve debugInfo).location.isSome ∨
      (b.found debugInfo).isSome = false ∧ b.resolve debugInfo = b := by
  unfold SourceBreakpoint.resolve
  cases hfound : b.found debugInfo with
  | none => exact .inr ⟨rfl, rfl⟩
  | some loc =>
    refine .inl ⟨rfl, ?_, rfl⟩
    unfold SourceBreakpoint.found at hfound
    split at hfound
    · rename_i hnone
      exact Option.isNone_iff_eq_none.mp hnone
    · cases hfound

/-- A resolution queues breakpoints that had no location, and of these the host has not been
told. -/
theorem Told.queue (h : Told t) (hvalid : Valid t.state) {st : DebugState}
    {f : SourceBreakpoint → SourceBreakpoint} (hf : Locates f) (found : List SourceBreakpoint)
    (hall : st.all = t.state.all.map f)
    (hqueue : st.resolvedSourceBreakpoints = t.state.resolvedSourceBreakpoints ++ found.map f)
    (hnext : st.nextBreakId = t.state.nextBreakId) (hids : (found.map SourceBreakpoint.id).Nodup)
    (hfound : ∀ a ∈ found, a ∈ t.state.all ∧ a.location = none ∧ (f a).location.isSome)
    (hrest : ∀ a ∈ t.state.all, a ∉ found → f a = a) : Told { t with state := st } := by
  have hmap : (found.map f).map SourceBreakpoint.id = found.map SourceBreakpoint.id := by
    rw [List.map_map]
    exact List.map_congr_left fun b _ => (hf.fields b).1
  have hstay : ∀ b ∈ t.state.all, b.location.isSome → b ∈ st.all := by
    intro b hb hsome
    rw [hall]
    exact List.mem_map.mpr ⟨b, hb, hf.of_located hsome⟩
  have hnone : ∀ b ∈ st.all, b.location = none → b ∈ t.state.all := by
    intro b hb hloc
    rw [hall] at hb
    obtain ⟨a, ha, rfl⟩ := List.mem_map.mp hb
    rwa [hf.of_none hloc]
  constructor
  · show ∀ b ∈ st.resolvedSourceBreakpoints, b ∈ st.all ∧ _
    rw [hqueue]
    refine List.forall_mem_append.mpr ⟨fun b hb => ?_, List.forall_mem_map.mpr fun a ha => ?_⟩
    · obtain ⟨hball, hsome⟩ := h.queued b hb
      exact ⟨hstay b hball hsome, hsome⟩
    · obtain ⟨haall, -, hsome⟩ := hfound a ha
      exact ⟨hall ▸ List.mem_map_of_mem haall, hsome⟩
  · show (List.map _ (_ ++ st.resolvedSourceBreakpoints)).Nodup
    rw [hqueue, ← List.append_assoc, List.map_append, hmap]
    refine h.once.append hids ?_
    intro id hid hnew
    obtain ⟨a, ha, rfl⟩ := List.mem_map.mp hnew
    obtain ⟨haall, hloc, -⟩ := hfound a ha
    rw [List.map_append, List.mem_append] at hid
    rcases hid with hid | hid
    · exact (h.pending a haall hloc).1 hid
    · obtain ⟨b, hb, hid⟩ := List.mem_map.mp hid
      obtain ⟨hball, hsome⟩ := h.queued b hb
      rw [hvalid.eq_of_id hball haall hid, hloc] at hsome
      cases hsome
  · intro r hr hsome
    show _ ∉ List.map _ (_ ++ st.resolvedSourceBreakpoints)
    rw [hqueue, ← List.append_assoc, List.map_append, hmap, List.mem_append, not_or]
    refine ⟨h.apart r hr hsome, fun hmem => ?_⟩
    obtain ⟨a, ha, hid⟩ := List.mem_map.mp hmem
    obtain ⟨haall, hloc, -⟩ := hfound a ha
    rw [(h.pending a haall hloc).2 r hr hid.symm] at hsome
    cases hsome
  · intro b hb
    show b.id < st.nextBreakId
    rw [hnext]
    exact h.below b hb
  · exact fun b hb hloc => h.pending b (hnone b hb hloc) hloc
  · show ∀ b ∈ st.all, _ → b ∈ _ ++ st.resolvedSourceBreakpoints ∨ _
    rw [hall, hqueue, ← List.append_assoc]
    refine List.forall_mem_map.mpr fun a ha hsome => ?_
    by_cases hmem : a ∈ found
    · exact .inl (List.mem_append_right _ (List.mem_map_of_mem hmem))
    · rw [hrest a ha hmem] at hsome ⊢
      rcases h.told a ha hsome with htold | hrest
      · exact .inl (List.mem_append_left _ htold)
      · exact .inr hrest

theorem Told.resolve (h : Told t) (hvalid : Valid t.state) (debugInfo : DebugInfo) :
    Told (t.step (.resolveSourceBreakpoints debugInfo)) := by
  have hstate := resolveSourceBreakpointsInner_eq hvalid.nodup_all debugInfo true
  have hnext := congrArg DebugState.nextBreakId hstate
  refine h.queue hvalid (.resolve debugInfo)
    (t.state.all.filter fun b => (b.found debugInfo).isSome)
    ((congrArg DebugState.all hstate).trans (flatMap_mapGroups _ _))
    (congrArg DebugState.resolvedSourceBreakpoints hstate)
    hnext (hvalid.nodup_all.sublist (List.filter_sublist.map _)) ?_ ?_
  · intro a ha
    obtain ⟨hall, hsome⟩ := List.mem_filter.mp ha
    rcases found_cases debugInfo a with ⟨-, hnone, hlocated⟩ | ⟨hnot, -⟩
    · exact ⟨hall, hnone, hlocated⟩
    · rw [hsome] at hnot
      cases hnot
  · intro a ha hnot
    rcases found_cases debugInfo a with ⟨hsome, -, -⟩ | ⟨-, heq⟩
    · exact absurd (List.mem_filter.mpr ⟨ha, hsome⟩) hnot
    · exact heq

/-- A request answers for its own path; the numbers it gives have not been told. -/
theorem Told.replace (h : Told t) (hvalid : Valid t.state) (debugInfo : DebugInfo)
    (sourcePath : String) (lines : List Nat) :
    Told (t.step (.replaceSourceBreakpoints debugInfo sourcePath lines)) := by
  obtain ⟨fresh, f, hr⟩ :=
    replaced hvalid (fun b hb => (h.queued b hb).1) debugInfo sourcePath lines
  show Told ⟨_, _, _ ++ _, _ ++ Trace.elsewhere _ _ _⟩
  obtain ⟨-, hreply, hanswered⟩ := hr.reply_spec
  generalize t.state.replaceSourceBreakpoints debugInfo sourcePath lines = r
    at hr hreply hanswered ⊢
  obtain ⟨reply, st⟩ := r
  dsimp only at hr hreply hanswered ⊢
  have hfresh : ∀ b ∈ fresh.map f, t.state.nextBreakId ≤ b.id ∧ b ∈ st.all := by
    refine List.forall_mem_map.mpr fun a ha => ⟨?_, ?_⟩
    · rw [(hr.locates.fields a).1]
      exact (hr.requested.bounds a ha).1
    · rw [hr.all]
      exact List.mem_map_of_mem (List.mem_append_left _ ha)
  have hcases : ∀ b ∈ st.all, b ∈ fresh.map f ∨
      ∃ a ∈ t.state.all, a.sourcePath ≠ sourcePath ∧ b = f a := by
    intro b hb
    rw [hr.all, List.map_append, List.mem_append] at hb
    refine hb.imp_right fun hb => ?_
    obtain ⟨a, ha, rfl⟩ := List.mem_map.mp hb
    obtain ⟨ha, hpath⟩ := List.mem_filter.mp ha
    exact ⟨a, ha, of_decide_eq_true hpath, rfl⟩
  have hqueue : st.resolvedSourceBreakpoints.Sublist t.state.resolvedSourceBreakpoints :=
    hr.queue ▸ List.filter_sublist
  have hids := (hqueue.append_left t.delivered).map SourceBreakpoint.id
  have htold : ∀ id ∈ (t.delivered ++ t.state.resolvedSourceBreakpoints).map SourceBreakpoint.id,
      id < t.state.nextBreakId := by
    refine List.forall_mem_map.mpr (List.forall_mem_append.mpr ⟨fun b hb => ?_, fun b hb => ?_⟩)
    · exact h.below b (List.mem_append_left _ hb)
    · exact hvalid.id_lt (h.queued b hb).1
  constructor
  · show ∀ b ∈ st.resolvedSourceBreakpoints, b ∈ st.all ∧ _
    intro b hb
    rw [hr.queue] at hb
    obtain ⟨hb, hpath⟩ := List.mem_filter.mp hb
    obtain ⟨hball, hsome⟩ := h.queued b hb
    refine ⟨?_, hsome⟩
    rw [hr.all]
    exact List.mem_map.mpr ⟨b, List.mem_append_right _ (List.mem_filter.mpr ⟨hball, hpath⟩),
      hr.locates.of_located hsome⟩
  · exact h.once.sublist hids
  · refine List.forall_mem_append.mpr ⟨fun b hb hsome hmem => ?_, fun b hb _ hmem => ?_⟩
    · exact h.apart b hb hsome (hids.subset hmem)
    · exact absurd (htold _ (hids.subset hmem)) (Nat.not_lt.mpr (hfresh b (hreply b hb)).1)
  · show ∀ b ∈ t.delivered ++ (t.replies ++ reply), _
    rw [← List.append_assoc]
    refine List.forall_mem_append.mpr ⟨fun b hb => ?_, fun b hb => ?_⟩
    · exact Nat.lt_of_lt_of_le (h.below b hb) hr.requested.le
    · exact hr.valid.id_lt (hfresh b (hreply b hb)).2
  · intro b hb hnone
    rcases hcases b hb with hnew | ⟨a, ha, -, heq⟩
    · have hle := (hfresh b hnew).1
      refine ⟨fun hmem => ?_, List.forall_mem_append.mpr ⟨fun a ha hid => ?_, fun a ha hid => ?_⟩⟩
      · obtain ⟨a, ha, hid⟩ := List.mem_map.mp hmem
        exact absurd (hid ▸ h.below a (List.mem_append_left _ ha)) (Nat.not_lt.mpr hle)
      · exact absurd (hid ▸ h.below a (List.mem_append_right _ ha)) (Nat.not_lt.mpr hle)
      · rw [hr.valid.eq_of_id (hfresh a (hreply a ha)).2 hb hid]
        exact hnone
    · subst heq
      have hsame := hr.locates.of_none hnone
      rw [hsame] at hnone hb ⊢
      obtain ⟨hdelivered, hreplies⟩ := h.pending a ha hnone
      refine ⟨hdelivered, List.forall_mem_append.mpr ⟨hreplies, fun c hc hid => ?_⟩⟩
      rw [hr.valid.eq_of_id (hfresh c (hreply c hc)).2 hb hid]
      exact hnone
  · intro b hb hsome
    show b ∈ t.delivered ++ st.resolvedSourceBreakpoints ∨ b ∈ t.replies ++ reply ∨
      b.id ∈ t.silent ++ Trace.elsewhere sourcePath t.state st
    rcases hcases b hb with hnew | ⟨a, ha, hpath, heq⟩
    · exact .inr (.inl (List.mem_append_right _ (hanswered b hnew)))
    · by_cases hloc : a.location.isSome
      · rw [hr.locates.of_located hloc] at heq
        subst heq
        rcases h.told b ha hloc with htold | hreplied | hsilent
        · left
          rw [hr.queue]
          rcases List.mem_append.mp htold with hdelivered | hqueued
          · exact List.mem_append_left _ hdelivered
          · exact List.mem_append_right _
              (List.mem_filter.mpr ⟨hqueued, decide_eq_true hpath⟩)
        · exact .inr (.inl (List.mem_append_left _ hreplied))
        · exact .inr (.inr (List.mem_append_left _ hsilent))
      · refine .inr (.inr (List.mem_append_right _ ?_))
        have hid : b.id = a.id := heq ▸ (hr.locates.fields a).1
        rw [hid]
        refine List.mem_map_of_mem (List.mem_filter.mpr ⟨ha, decide_eq_true ⟨hpath, ?_, ?_⟩⟩)
        · exact Option.isNone_iff_eq_none.mpr (Option.not_isSome_iff_eq_none.mp hloc)
        · exact List.any_eq_true.mpr ⟨b, hb, decide_eq_true ⟨hid, hsome⟩⟩

end Telling

/-! ### Runs -/

theorem Valid.step {st : DebugState} (h : Valid st)
    (hqueued : ∀ b ∈ st.resolvedSourceBreakpoints, b ∈ st.all) (c : Command) :
    Valid (st.step c) := by
  cases c with
  | setEnabled enabled => exact { h with }
  | resetExecutionState => exact valid_default st.enabled
  | clearMode => exact { h with }
  | ensureBreakpoint loc kind => exact h.ensureBreakpoint loc kind
  | explicitPauseId loc => exact h.ensureBreakpoint loc .pause
  | clearBreakpoint loc => exact h.clearBreakpoint loc
  | replaceSourceBreakpoints debugInfo sourcePath lines =>
    obtain ⟨fresh, f, hr⟩ := replaced h hqueued debugInfo sourcePath lines
    exact hr.valid
  | resolveSourceBreakpoints debugInfo => exact h.resolve debugInfo true
  | takeResolvedSourceBreakpoints => exact { h with }
  | toggleBreakpointAt loc => exact h.toggleBreakpointAt loc
  | toggleBreakpointById id => exact h.toggleBreakpointById id
  | toggleAllBreakpoints => exact h.toggleAllBreakpoints
  | notePause loc => exact { h with }
  | request mode depth => exact { h with }
  | armEntry depth => exact { h with }
  | addTempBreak loc => exact { h with }
  | setGranularity granularity => exact { h with }
  | ensureSymbolTracker target => exact h.ensureSymbolTracker target
  | removeSymbolTracker id => exact h.removeSymbolTracker id
  | clearSymbolTrackers =>
    exact { h with
      trackers := List.nodup_nil
      trackersBelow := fun t ht => absurd ht List.not_mem_nil
      targets := List.nodup_nil }

theorem Told.step {t : Trace} (h : Told t) (hvalid : Valid t.state) (c : Command) :
    Told (t.step c) := by
  cases c with
  | resetExecutionState =>
    constructor <;> simp [Trace.step, DebugState.resetExecutionState, DebugState.default,
      DebugState.all]
  | replaceSourceBreakpoints debugInfo sourcePath lines =>
    exact h.replace hvalid debugInfo sourcePath lines
  | resolveSourceBreakpoints debugInfo => exact h.resolve hvalid debugInfo
  | takeResolvedSourceBreakpoints => exact h.take hvalid
  | ensureBreakpoint loc kind => exact h.ensure loc kind
  | explicitPauseId loc => exact h.ensure loc .pause
  | toggleBreakpointAt loc =>
    show Told { t with state := (t.state.toggleBreakpointAt loc).2 }
    unfold DebugState.toggleBreakpointAt
    split
    · exact h.frame rfl rfl (Nat.le_refl _)
    · exact h.ensure loc .persistent
  | ensureSymbolTracker target =>
    show Told { t with state := (t.state.ensureSymbolTracker target).2 }
    unfold DebugState.ensureSymbolTracker
    split <;> exact h.frame rfl rfl (Nat.le_refl _)
  | _ => exact h.frame rfl rfl (Nat.le_refl _)

theorem run_induction {P : Trace → Prop} (hinit : P ⟨.default, [], [], []⟩)
    (hstep : ∀ t c, P t → P (t.step c)) (cs : List Command) : P (Trace.run cs) := by
  unfold Trace.run
  generalize (⟨.default, [], [], []⟩ : Trace) = t at hinit ⊢
  induction cs generalizing t with
  | nil => exact hinit
  | cons c cs ih => exact ih (t.step c) (hstep t c hinit)

end Wqdb
end Wqpl
