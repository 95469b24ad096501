/-
# The state of the debugger

Breakpoints are set at places in the code or at lines of a source, the latter
before their source has been compiled; they are resolved when debug information
for it is there. The host is told about a breakpoint that is resolved later than it
was requested: such a breakpoint is queued until the host takes it.

A resolution looks the breakpoint up again by its number. As numbers are never
given twice, this is the resolution of all breakpoints at once
(`resolveSourceBreakpointsInner_eq`).

Maps are lists of their entries. Debug information is asked two questions: which
files have a path, and where the code of a line begins.

Key definitions: `DebugState`, `DebugState.replaceSourceBreakpoints`.
-/
import Mathlib.Data.List.Nodup
import Mathlib.Tactic.Common

namespace Wqpl
namespace Wqdb

structure CodeLoc where
  chunk : Nat
  pc : Nat
deriving DecidableEq, Repr

inductive BreakpointKind
  | persistent
  | pause
deriving DecidableEq, Repr

structure Breakpoint where
  id : Nat
  enabled : Bool
  kind : BreakpointKind
deriving DecidableEq, Repr

structure SourceBreakpoint where
  id : Nat
  sourcePath : String
  requestedLine : Nat
  location : Option CodeLoc
deriving DecidableEq, Repr

inductive StepMode
  | none
  | in_
  | over
  | out
deriving DecidableEq, Repr

inductive StepGranularity
  | line
  | expr
  | inst
deriving DecidableEq, Repr

inductive SymbolTrackTarget
  | global (name : String)
  | local_ (chunk slot : Nat) (name : String)
  | capture (chunk slot : Nat) (name : Option String)
deriving DecidableEq, Repr

structure SymbolTracker where
  id : Nat
  enabled : Bool
  target : SymbolTrackTarget
deriving DecidableEq, Repr

/-- What is asked of `DebugInfo`. -/
structure DebugInfo where
  fileIdsByPath : String → List Nat
  resolveLine : Nat → Nat → List CodeLoc

def resolveSourceLine (debugInfo : DebugInfo) (sourcePath : String) (requestedLine : Nat) :
    Option CodeLoc :=
  ((debugInfo.fileIdsByPath sourcePath).mergeSort (· ≤ ·)).findSome? fun fileId =>
    (debugInfo.resolveLine fileId requestedLine).head?

structure DebugState where
  enabled : Bool
  breaks : List (CodeLoc × Breakpoint)
  sourceBreakpoints : List (String × List SourceBreakpoint)
  resolvedSourceBreakpoints : List SourceBreakpoint
  nextBreakId : Nat
  temps : List CodeLoc
  mode : StepMode
  granularity : StepGranularity
  baseDepth : Nat
  lastPause : Option CodeLoc
  currentPause : Option CodeLoc
  symbolTrackers : List SymbolTracker
  nextSymbolTrackerId : Nat

/-- `values_mut().flatten().find(..)`: the first breakpoint of the number, with a location. -/
def setFirst (id : Nat) (location : CodeLoc) :
    List SourceBreakpoint → Option (SourceBreakpoint × List SourceBreakpoint)
  | [] => none
  | b :: bs =>
    if b.id = id then
      some ({ b with location := some location }, { b with location := some location } :: bs)
    else (setFirst id location bs).map fun r => (r.1, b :: r.2)

def setInGroups (id : Nat) (location : CodeLoc) : List (String × List SourceBreakpoint) →
    Option (SourceBreakpoint × List (String × List SourceBreakpoint))
  | [] => none
  | g :: groups =>
    match setFirst id location g.2 with
    | some r => some (r.1, (g.1, r.2) :: groups)
    | none => (setInGroups id location groups).map fun r => (r.1, g :: r.2)

/-- The first breakpoint of the number, switched. -/
def toggleFirst (id : Nat) : List (CodeLoc × Breakpoint) → List (CodeLoc × Breakpoint)
  | [] => []
  | e :: breaks =>
    if e.2.id = id then (e.1, { e.2 with enabled := !e.2.enabled }) :: breaks
    else e :: toggleFirst id breaks

namespace DebugState

def default : DebugState where
  enabled := false
  breaks := []
  sourceBreakpoints := []
  resolvedSourceBreakpoints := []
  nextBreakId := 1
  temps := []
  mode := .none
  granularity := .expr
  baseDepth := 0
  lastPause := none
  currentPause := none
  symbolTrackers := []
  nextSymbolTrackerId := 1

def resetExecutionState (st : DebugState) : DebugState := { default with enabled := st.enabled }

def clearMode (st : DebugState) : DebugState := { st with mode := .none, currentPause := none }

def ensureBreakpoint (st : DebugState) (loc : CodeLoc) (kind : BreakpointKind) :
    Breakpoint × DebugState :=
  match st.breaks.lookup loc with
  | some breakpoint => (breakpoint, st)
  | none => (⟨st.nextBreakId, true, kind⟩, { st with
    breaks := (loc, ⟨st.nextBreakId, true, kind⟩) :: st.breaks
    nextBreakId := st.nextBreakId + 1 })

def explicitPauseId (st : DebugState) (loc : CodeLoc) : Option Nat × DebugState :=
  let ensured := st.ensureBreakpoint loc .pause
  (if ensured.1.enabled then some ensured.1.id else none, ensured.2)

def clearBreakpoint (st : DebugState) (loc : CodeLoc) : DebugState :=
  { st with breaks := st.breaks.filter fun e => e.1 ≠ loc }

/-- All breakpoints at lines. -/
def all (st : DebugState) : List SourceBreakpoint := st.sourceBreakpoints.flatMap Prod.snd

/-- The numbers and locations of the breakpoints that can be resolved. -/
def resolutions (st : DebugState) (debugInfo : DebugInfo) : List (Nat × CodeLoc) :=
  (st.all.filter fun b => b.location.isNone).filterMap fun b =>
    (resolveSourceLine debugInfo b.sourcePath b.requestedLine).map fun location => (b.id, location)

/-- The body of the second loop. -/
def applyResolution (notify : Bool) (st : DebugState) (r : Nat × CodeLoc) : DebugState :=
  match setInGroups r.1 r.2 st.sourceBreakpoints with
  | none => st
  | some found => { st with
    sourceBreakpoints := found.2
    resolvedSourceBreakpoints :=
      if notify then st.resolvedSourceBreakpoints ++ [found.1] else st.resolvedSourceBreakpoints }

def resolveSourceBreakpointsInner (st : DebugState) (debugInfo : DebugInfo) (notify : Bool) :
    DebugState :=
  (st.resolutions debugInfo).foldl (applyResolution notify) st

/-- The breakpoints for the lines: one for each, with the next numbers. -/
def requested (sourcePath : String) : List Nat → (nextBreakId : Nat) →
    (breakpoints : List SourceBreakpoint) → List SourceBreakpoint × Nat
  | [], nextBreakId, breakpoints => (breakpoints, nextBreakId)
  | line :: lines, nextBreakId, breakpoints =>
    if breakpoints.any fun b => b.requestedLine = line then
      requested sourcePath lines nextBreakId breakpoints
    else
      requested sourcePath lines (nextBreakId + 1)
        (breakpoints ++ [⟨nextBreakId, sourcePath, line, none⟩])

/-- The breakpoints of a path, and what is queued of them, are removed. -/
def removePath (st : DebugState) (sourcePath : String) : DebugState :=
  match st.sourceBreakpoints.lookup sourcePath with
  | none => st
  | some previous => { st with
    sourceBreakpoints := st.sourceBreakpoints.filter fun g => g.1 ≠ sourcePath
    resolvedSourceBreakpoints := st.resolvedSourceBreakpoints.filter fun b =>
      b.id ∉ previous.map SourceBreakpoint.id }

/-- What is answered to a request: the breakpoint of each line. -/
def reply (st : DebugState) (sourcePath : String) (lines : List Nat) : List SourceBreakpoint :=
  match st.sourceBreakpoints.lookup sourcePath with
  | none => []
  | some breakpoints =>
    lines.filterMap fun line => breakpoints.find? fun b => b.requestedLine = line

def replaceSourceBreakpoints (st : DebugState) (debugInfo : DebugInfo) (sourcePath : String)
    (lines : List Nat) : List SourceBreakpoint × DebugState :=
  let st := st.removePath sourcePath
  let fresh := requested sourcePath lines st.nextBreakId []
  let st := { st with nextBreakId := fresh.2 }
  let st :=
    if fresh.1 = [] then st
    else resolveSourceBreakpointsInner
      { st with sourceBreakpoints := (sourcePath, fresh.1) :: st.sourceBreakpoints } debugInfo false
  (st.reply sourcePath lines, st)

def resolveSourceBreakpoints (st : DebugState) (debugInfo : DebugInfo) : DebugState :=
  st.resolveSourceBreakpointsInner debugInfo true

def takeResolvedSourceBreakpoints (st : DebugState) : List SourceBreakpoint × DebugState :=
  (st.resolvedSourceBreakpoints, { st with resolvedSourceBreakpoints := [] })

def toggleBreakpointAt (st : DebugState) (loc : CodeLoc) : Bool × DebugState :=
  match st.breaks.lookup loc with
  | some breakpoint => (!breakpoint.enabled, { st with breaks := st.breaks.map fun e =>
      if e.1 = loc then (e.1, { e.2 with enabled := !e.2.enabled }) else e })
  | none => (true, (st.ensureBreakpoint loc .persistent).2)

def toggleBreakpointById (st : DebugState) (id : Nat) : Option Bool × DebugState :=
  ((st.breaks.find? fun e => e.2.id = id).map fun e => !e.2.enabled,
    { st with breaks := toggleFirst id st.breaks })

def toggleAllBreakpoints (st : DebugState) : Bool × DebugState :=
  let newState := st.breaks.any fun e => !e.2.enabled
  (newState, { st with breaks := st.breaks.map fun e => (e.1, { e.2 with enabled := newState }) })

def notePause (st : DebugState) (loc : CodeLoc) : DebugState :=
  { st with lastPause := some loc, currentPause := some loc, temps := [] }

def request (st : DebugState) (mode : StepMode) (depth : Nat) : DebugState :=
  { st with mode := mode, baseDepth := depth, currentPause := none }

def armEntry (st : DebugState) (depth : Nat) : DebugState :=
  { st with lastPause := none }.request .in_ depth

def addTempBreak (st : DebugState) (loc : CodeLoc) : DebugState :=
  { st with temps := st.temps.insert loc }

def ensureSymbolTracker (st : DebugState) (target : SymbolTrackTarget) :
    (SymbolTracker × Bool) × DebugState :=
  match st.symbolTrackers.find? fun t => t.target = target with
  | some tracker => ((tracker, false), st)
  | none =>
    ((⟨st.nextSymbolTrackerId, true, target⟩, true), { st with
      symbolTrackers := st.symbolTrackers ++ [⟨st.nextSymbolTrackerId, true, target⟩]
      nextSymbolTrackerId := st.nextSymbolTrackerId + 1 })

def removeSymbolTracker (st : DebugState) (id : Nat) : Bool × DebugState :=
  let symbolTrackers := st.symbolTrackers.filter fun t => t.id ≠ id
  (symbolTrackers.length ≠ st.symbolTrackers.length, { st with symbolTrackers := symbolTrackers })

end DebugState

/-! ### Resolving all at once -/

/-- A breakpoint that is found in the debug information. -/
def SourceBreakpoint.found (debugInfo : DebugInfo) (b : SourceBreakpoint) : Option CodeLoc :=
  if b.location.isNone then resolveSourceLine debugInfo b.sourcePath b.requestedLine else none

/-- A breakpoint after a resolution. -/
def SourceBreakpoint.resolve (debugInfo : DebugInfo) (b : SourceBreakpoint) : SourceBreakpoint :=
  match b.found debugInfo with
  | none => b
  | some location => { b with location := some location }

/-- The breakpoint of a number gets a location. -/
def setIf (r : Nat × CodeLoc) (b : SourceBreakpoint) : SourceBreakpoint :=
  if b.id = r.1 then { b with location := some r.2 } else b

@[simp] theorem setIf_id (r : Nat × CodeLoc) (b : SourceBreakpoint) : (setIf r b).id = b.id := by
  unfold setIf
  split <;> rfl

@[simp] theorem SourceBreakpoint.resolve_id (debugInfo : DebugInfo) (b : SourceBreakpoint) :
    (b.resolve debugInfo).id = b.id := by
  unfold resolve
  split <;> rfl

def mapGroups (f : SourceBreakpoint → SourceBreakpoint)
    (groups : List (String × List SourceBreakpoint)) : List (String × List SourceBreakpoint) :=
  groups.map fun g => (g.1, g.2.map f)

theorem flatMap_mapGroups (f : SourceBreakpoint → SourceBreakpoint)
    (groups : List (String × List SourceBreakpoint)) :
    (mapGroups f groups).flatMap Prod.snd = (groups.flatMap Prod.snd).map f := by
  rw [mapGroups, List.flatMap_map, List.map_flatMap]

theorem mapGroups_congr {f f' : SourceBreakpoint → SourceBreakpoint}
    {groups : List (String × List SourceBreakpoint)}
    (h : ∀ b ∈ groups.flatMap Prod.snd, f b = f' b) : mapGroups f groups = mapGroups f' groups := by
  refine List.map_congr_left fun g hg => ?_
  rw [List.map_congr_left fun b hb => h b (List.mem_flatMap.mpr ⟨g, hg, hb⟩)]

theorem setFirst_none {id : Nat} {location : CodeLoc} {bs : List SourceBreakpoint}
    (h : id ∉ bs.map SourceBreakpoint.id) : setFirst id location bs = none := by
  induction bs with
  | nil => rfl
  | cons b bs ih =>
    rw [List.map_cons, List.mem_cons, not_or] at h
    rw [setFirst, if_neg (Ne.symm h.1), ih h.2]
    rfl

theorem map_setIf_of_notMem {r : Nat × CodeLoc} {bs : List SourceBreakpoint}
    (h : r.1 ∉ bs.map SourceBreakpoint.id) : bs.map (setIf r) = bs := by
  conv_rhs => rw [← List.map_id bs]
  refine List.map_congr_left fun b hb => ?_
  have hne : b.id ≠ r.1 := fun heq => h (List.mem_map.mpr ⟨b, hb, heq⟩)
  exact if_neg hne

theorem setFirst_eq {r : Nat × CodeLoc} {bs : List SourceBreakpoint} {b : SourceBreakpoint}
    (hnodup : (bs.map SourceBreakpoint.id).Nodup) (hb : b ∈ bs) (hid : b.id = r.1) :
    setFirst r.1 r.2 bs = some ({ b with location := some r.2 }, bs.map (setIf r)) := by
  induction bs with
  | nil => cases hb
  | cons a bs ih =>
    obtain ⟨hnot, htail⟩ := List.nodup_cons.mp hnodup
    rw [setFirst, List.map_cons]
    by_cases ha : a.id = r.1
    · have hba : b = a := by
        rcases List.mem_cons.mp hb with hba | hb
        · exact hba
        · exact absurd (List.mem_map.mpr ⟨b, hb, hid.trans ha.symm⟩) hnot
      rw [if_pos ha, hba, map_setIf_of_notMem (by rwa [← ha]), setIf, if_pos ha]
    · have hb : b ∈ bs := by
        rcases List.mem_cons.mp hb with rfl | hb
        · exact absurd hid ha
        · exact hb
      rw [if_neg ha, ih htail hb, setIf, if_neg ha]
      rfl

theorem setInGroups_eq {r : Nat × CodeLoc} {groups : List (String × List SourceBreakpoint)}
    {b : SourceBreakpoint} (hnodup : ((groups.flatMap Prod.snd).map SourceBreakpoint.id).Nodup)
    (hb : b ∈ groups.flatMap Prod.snd) (hid : b.id = r.1) :
    setInGroups r.1 r.2 groups =
      some ({ b with location := some r.2 }, mapGroups (setIf r) groups) := by
  induction groups with
  | nil => cases hb
  | cons g groups ih =>
    rw [List.flatMap_cons, List.map_append] at hnodup
    obtain ⟨hhead, htail, hdisjoint⟩ := List.nodup_append'.mp hnodup
    rw [List.flatMap_cons] at hb
    rw [setInGroups]
    rcases List.mem_append.mp hb with hb | hb
    · have hrest : mapGroups (setIf r) groups = groups := by
        have hnot : r.1 ∉ (groups.flatMap Prod.snd).map SourceBreakpoint.id := fun hmem =>
          hdisjoint (hid ▸ List.mem_map_of_mem hb) hmem
        conv_rhs => rw [← List.map_id groups]
        refine List.map_congr_left fun g' hg' => ?_
        rw [map_setIf_of_notMem fun hmem => hnot ?_]
        · rfl
        · obtain ⟨a, ha, hid⟩ := List.mem_map.mp hmem
          exact List.mem_map.mpr ⟨a, List.mem_flatMap.mpr ⟨g', hg', ha⟩, hid⟩
      rw [setFirst_eq hhead hb hid]
      show some (_, (g.1, g.2.map (setIf r)) :: groups) = _
      conv_lhs => rw [← hrest]
      rfl
    · have hnot : r.1 ∉ g.2.map SourceBreakpoint.id := fun hmem =>
        hdisjoint hmem (hid ▸ List.mem_map_of_mem hb)
      rw [setFirst_none hnot, ih htail hb]
      show some (_, g :: mapGroups (setIf r) groups) = _
      rw [mapGroups, mapGroups, List.map_cons, map_setIf_of_notMem hnot]

section Resolving

variable {debugInfo : DebugInfo} {st : DebugState}

/-- The pairs of a loop over resolutions, with the whole breakpoint for its number. -/
def numbered (p : SourceBreakpoint × CodeLoc) : Nat × CodeLoc := (p.1.id, p.2)

/-- What a loop over resolutions makes of a breakpoint. -/
def setAll (ps : List (SourceBreakpoint × CodeLoc)) (b : SourceBreakpoint) : SourceBreakpoint :=
  ps.foldl (fun b p => setIf (numbered p) b) b

theorem setAll_of_notMem {ps : List (SourceBreakpoint × CodeLoc)} {b : SourceBreakpoint}
    (h : ∀ p ∈ ps, p.1.id ≠ b.id) : setAll ps b = b := by
  induction ps with
  | nil => rfl
  | cons p ps ih =>
    obtain ⟨hp, hps⟩ := List.forall_mem_cons.mp h
    have hstay : setIf (numbered p) b = b := if_neg (Ne.symm hp)
    rw [setAll, List.foldl_cons, hstay]
    exact ih hps

theorem setAll_of_mem {ps : List (SourceBreakpoint × CodeLoc)} {b a : SourceBreakpoint}
    {location : CodeLoc} (hnodup : (ps.map fun p => p.1.id).Nodup) (hmem : (a, location) ∈ ps)
    (hid : a.id = b.id) : setAll ps b = { b with location := some location } := by
  induction ps with
  | nil => cases hmem
  | cons p ps ih =>
    obtain ⟨hnot, htail⟩ := List.nodup_cons.mp hnodup
    rw [setAll, List.foldl_cons]
    rcases List.mem_cons.mp hmem with rfl | hmem
    · have hset : setIf (numbered (a, location)) b = { b with location := some location } :=
        if_pos hid.symm
      rw [hset]
      refine setAll_of_notMem fun q hq heq => hnot ?_
      exact List.mem_map.mpr ⟨q, hq, heq.trans hid.symm⟩
    · have hne : p.1.id ≠ b.id := fun heq =>
        hnot (List.mem_map.mpr ⟨_, hmem, hid.trans heq.symm⟩)
      have hstay : setIf (numbered p) b = b := if_neg (Ne.symm hne)
      rw [hstay]
      exact ih htail hmem

/-- The loop, for breakpoints that are there and have different numbers. -/
theorem foldl_applyResolution (notify : Bool) (ps : List (SourceBreakpoint × CodeLoc)) :
    ∀ st : DebugState, (st.all.map SourceBreakpoint.id).Nodup → (∀ p ∈ ps, p.1 ∈ st.all) →
      (ps.map fun p => p.1.id).Nodup →
      (ps.map numbered).foldl (DebugState.applyResolution notify) st =
        { st with
          sourceBreakpoints := mapGroups (setAll ps) st.sourceBreakpoints
          resolvedSourceBreakpoints :=
            if notify then st.resolvedSourceBreakpoints ++
              ps.map fun p => { p.1 with location := some p.2 }
            else st.resolvedSourceBreakpoints } := by
  induction ps with
  | nil =>
    intro st _ _ _
    have hgroups : mapGroups (setAll []) st.sourceBreakpoints = st.sourceBreakpoints := by
      conv_rhs => rw [← List.map_id st.sourceBreakpoints]
      refine List.map_congr_left fun g _ => ?_
      show (g.1, g.2.map id) = g
      rw [List.map_id]
    rw [hgroups]
    cases notify <;> simp
  | cons p ps ih =>
    intro st hnodup hall hps
    obtain ⟨hp, hall⟩ := List.forall_mem_cons.mp hall
    obtain ⟨hnot, htail⟩ := List.nodup_cons.mp hps
    have hstep : DebugState.applyResolution notify st (numbered p) = { st with
        sourceBreakpoints := mapGroups (setIf (numbered p)) st.sourceBreakpoints
        resolvedSourceBreakpoints :=
          if notify then st.resolvedSourceBreakpoints ++ [{ p.1 with location := some p.2 }]
          else st.resolvedSourceBreakpoints } := by
      unfold DebugState.applyResolution
      rw [setInGroups_eq (r := numbered p) hnodup hp rfl]
      rfl
    rw [List.map_cons, List.foldl_cons, hstep]
    have hids : (mapGroups (setIf (numbered p)) st.sourceBreakpoints).flatMap Prod.snd =
        st.all.map (setIf (numbered p)) := flatMap_mapGroups _ _
    rw [ih _ ?_ ?_ htail]
    · have hgroups : mapGroups (setAll ps)
          (mapGroups (setIf (numbered p)) st.sourceBreakpoints) =
          mapGroups (setAll (p :: ps)) st.sourceBreakpoints := by
        rw [mapGroups, mapGroups, List.map_map]
        refine List.map_congr_left fun g _ => ?_
        show (g.1, (g.2.map _).map _) = _
        rw [List.map_map]
        rfl
      rw [hgroups]
      cases notify <;> simp
    · show (((mapGroups _ _).flatMap Prod.snd).map _).Nodup
      rw [hids, List.map_map]
      have hsame : SourceBreakpoint.id ∘ setIf (numbered p) = SourceBreakpoint.id :=
        funext fun b => setIf_id _ b
      rwa [hsame]
    · intro q hq
      show q.1 ∈ (mapGroups _ _).flatMap Prod.snd
      rw [hids]
      have hne : q.1.id ≠ p.1.id := fun heq => hnot (List.mem_map.mpr ⟨q, hq, heq⟩)
      exact List.mem_map.mpr ⟨q.1, hall q hq, if_neg hne⟩

/-- The breakpoints that are found. -/
theorem map_fst_found (debugInfo : DebugInfo) (bs : List SourceBreakpoint) :
    (bs.filterMap fun b => (b.found debugInfo).map fun loc => (b, loc)).map Prod.fst =
      bs.filter fun b => (b.found debugInfo).isSome := by
  induction bs with
  | nil => rfl
  | cons b bs ih => cases hfound : b.found debugInfo <;> simp [hfound, ih]

theorem resolutions_eq (st : DebugState) (debugInfo : DebugInfo) :
    st.resolutions debugInfo =
      (st.all.filterMap fun b => (b.found debugInfo).map fun loc => (b, loc)).map numbered := by
  rw [DebugState.resolutions, List.filterMap_filter, List.map_filterMap]
  refine List.filterMap_congr fun b _ => ?_
  unfold SourceBreakpoint.found
  split
  · cases resolveSourceLine debugInfo b.sourcePath b.requestedLine <;> rfl
  · rfl

/-- **All at once.** A resolution gives a location to each breakpoint that can be found, and
queues these in their order if the host is to know. -/
theorem resolveSourceBreakpointsInner_eq (hnodup : (st.all.map SourceBreakpoint.id).Nodup)
    (debugInfo : DebugInfo) (notify : Bool) :
    st.resolveSourceBreakpointsInner debugInfo notify = { st with
      sourceBreakpoints := mapGroups (SourceBreakpoint.resolve debugInfo) st.sourceBreakpoints
      resolvedSourceBreakpoints :=
        if notify then st.resolvedSourceBreakpoints ++
          (st.all.filter fun b => (b.found debugInfo).isSome).map
            (SourceBreakpoint.resolve debugInfo)
        else st.resolvedSourceBreakpoints } := by
  have hmem : ∀ p ∈ st.all.filterMap fun b => (b.found debugInfo).map fun loc => (b, loc),
      p.1 ∈ st.all ∧ p.1.found debugInfo = some p.2 := by
    intro p hp
    obtain ⟨b, hb, hfound⟩ := List.mem_filterMap.mp hp
    obtain ⟨loc, hloc, rfl⟩ := Option.map_eq_some_iff.mp hfound
    exact ⟨hb, hloc⟩
  have hids : ((st.all.filterMap fun b => (b.found debugInfo).map fun loc => (b, loc)).map
      fun p => p.1.id).Nodup := by
    have hfst := map_fst_found debugInfo st.all
    have hsublist : ((st.all.filter fun b => (b.found debugInfo).isSome).map
        SourceBreakpoint.id).Sublist (st.all.map SourceBreakpoint.id) :=
      List.filter_sublist.map _
    rw [← hfst, List.map_map] at hsublist
    exact hnodup.sublist hsublist
  have hqueue : (st.all.filterMap fun b => (b.found debugInfo).map fun loc => (b, loc)).map
      (fun p => ({ p.1 with location := some p.2 } : SourceBreakpoint)) =
      (st.all.filter fun b => (b.found debugInfo).isSome).map
        (SourceBreakpoint.resolve debugInfo) := by
    rw [← map_fst_found, List.map_map]
    refine List.map_congr_left fun p hp => ?_
    show _ = p.1.resolve debugInfo
    rw [SourceBreakpoint.resolve, (hmem p hp).2]
  rw [DebugState.resolveSourceBreakpointsInner, resolutions_eq,
    foldl_applyResolution notify _ st hnodup (fun p hp => (hmem p hp).1) hids, hqueue]
  congr 1
  refine mapGroups_congr fun b hb => ?_
  unfold SourceBreakpoint.resolve
  cases hfound : b.found debugInfo with
  | none =>
    refine setAll_of_notMem fun p hp heq => ?_
    obtain ⟨hp, hsome⟩ := hmem p hp
    have hsame := List.inj_on_of_nodup_map hnodup hp hb heq
    rw [hsame, hfound] at hsome
    cases hsome
  | some location =>
    refine setAll_of_mem hids (a := b) ?_ rfl
    exact List.mem_filterMap.mpr ⟨b, hb, by rw [hfound]; rfl⟩

end Resolving

end Wqdb
end Wqpl
