/-
# Code at other places

A pass that removes instructions moves the others to new places. A machine
that runs the new code is the old machine with the program counters of its
frames and the ends of its try regions moved (`Vm.Moved`); all that a machine
does apart from executing an instruction keeps this, since it handles program
counters only as a whole.
-/
import Wqpl.Vm.Interface

namespace Wqpl

/-- Where the code of every function has moved to: the new program counter of
each old one, the places from which both go on alike, and the ends of try
regions, which are such places. -/
structure Relocation where
  map : FnId → Nat → Nat
  Place : FnId → Nat → Prop
  TryEnd : FnId → Nat → Prop
  map_zero : ∀ fn, map fn 0 = 0
  place_zero : ∀ fn, Place fn 0
  place_tryEnd : ∀ fn e, TryEnd fn e → Place fn e

/-- Whether the current frame goes on where its program counter is. -/
def Control.Proceeds {W : Type} : Control W → Prop
  | .running | .builtin _ => True
  | .unwinding _ | .halted _ => False

inductive TryFrame.Moved (R : Relocation) : TryFrame → TryFrame → Prop
  | mk {frame : TryFrame} (h : R.TryEnd frame.code frame.endPc) :
      Moved R frame { frame with endPc := R.map frame.code frame.endPc }

inductive CallerFrame.Moved {W : Type} (R : Relocation) : CallerFrame W → CallerFrame W → Prop
  | mk {frame : CallerFrame W} (h : R.Place frame.code frame.pc) :
      Moved R frame { frame with pc := R.map frame.code frame.pc }

/-- The second machine is the first one on the moved code. -/
inductive Vm.Moved {W : Type} (R : Relocation) : Vm W → Vm W → Prop
  | mk {code : FnId} {pc : Nat} {data : Data W} {callers callers' : List (CallerFrame W)}
      {tryStack tryStack' : List TryFrame} {control : Control W}
      (hcallers : List.Forall₂ (CallerFrame.Moved R) callers callers')
      (htries : List.Forall₂ (TryFrame.Moved R) tryStack tryStack')
      (hpc : control.Proceeds → R.Place code pc) :
      Moved R ⟨code, pc, data, callers, tryStack, control⟩
        ⟨code, R.map code pc, data, callers', tryStack', control⟩

namespace Vm.Moved

variable {W : Type} {R : Relocation} {s t : Vm W}

/-- At the start of a function. -/
theorem atStart {fn : FnId} {data : Data W} {callers callers' : List (CallerFrame W)}
    {tryStack tryStack' : List TryFrame} {control : Control W}
    (hcallers : List.Forall₂ (CallerFrame.Moved R) callers callers')
    (htries : List.Forall₂ (TryFrame.Moved R) tryStack tryStack') :
    Vm.Moved R ⟨fn, 0, data, callers, tryStack, control⟩
      ⟨fn, 0, data, callers', tryStack', control⟩ := by
  have h : Vm.Moved R ⟨fn, 0, data, callers, tryStack, control⟩
      ⟨fn, R.map fn 0, data, callers', tryStack', control⟩ :=
    .mk hcallers htries fun _ => R.place_zero fn
  rwa [R.map_zero] at h

theorem depth (h : s.Moved R t) : t.depth = s.depth := by
  obtain ⟨hcallers, -, -⟩ := h
  exact hcallers.length_eq.symm

theorem code (h : s.Moved R t) : t.code = s.code := by
  obtain ⟨-, -, -⟩ := h
  rfl

theorem pc (h : s.Moved R t) : t.pc = R.map s.code s.pc := by
  obtain ⟨-, -, -⟩ := h
  rfl

theorem data (h : s.Moved R t) : t.data = s.data := by
  obtain ⟨-, -, -⟩ := h
  rfl

theorem control (h : s.Moved R t) : t.control = s.control := by
  obtain ⟨-, -, -⟩ := h
  rfl

theorem tries (h : s.Moved R t) : List.Forall₂ (TryFrame.Moved R) s.tryStack t.tryStack := by
  obtain ⟨-, htries, -⟩ := h
  exact htries

theorem place (h : s.Moved R t) (hcontrol : s.control.Proceeds) : R.Place s.code s.pc := by
  obtain ⟨-, -, hpc⟩ := h
  exact hpc hcontrol

/-- The same change of the data. -/
theorem setData (h : s.Moved R t) (d : Data W) :
    Vm.Moved R { s with data := d } { t with data := d } := by
  obtain ⟨hcallers, htries, hpc⟩ := h
  exact .mk hcallers htries hpc

/-- Both go on at a place of the current code. -/
theorem goto (h : s.Moved R t) {p q : Nat} (hq : q = R.map s.code p) (hp : R.Place s.code p)
    (d : Data W) (control : Control W) :
    Vm.Moved R { s with pc := p, data := d, control } { t with pc := q, data := d, control } := by
  obtain ⟨hcallers, htries, -⟩ := h
  subst hq
  exact .mk hcallers htries fun _ => hp

/-- The first one at another place that has moved to the same one. -/
theorem move (h : s.Moved R t) {p : Nat} (hq : t.pc = R.map s.code p) (hp : R.Place s.code p) :
    Vm.Moved R { s with pc := p } t := by
  obtain ⟨hcallers, htries, -⟩ := h
  dsimp only at hq
  rw [hq]
  exact .mk hcallers htries fun _ => hp

/-- An error: the program counter does not matter. -/
theorem raise (h : s.Moved R t) {p q : Nat} (hq : q = R.map s.code p) (d : Data W)
    (e : WqErrorType) :
    Vm.Moved R { s with pc := p, data := d, control := .unwinding e }
      { t with pc := q, data := d, control := .unwinding e } := by
  obtain ⟨hcallers, htries, -⟩ := h
  subst hq
  exact .mk hcallers htries nofun

theorem unwinding (h : s.Moved R t) (e : WqErrorType) :
    Vm.Moved R { s with control := .unwinding e } { t with control := .unwinding e } := by
  obtain ⟨hcallers, htries, -⟩ := h
  exact .mk hcallers htries nofun

theorem halted (h : s.Moved R t) (r : WqResult Value) :
    Vm.Moved R { s with control := .halted r } { t with control := .halted r } := by
  obtain ⟨hcallers, htries, -⟩ := h
  exact .mk hcallers htries nofun

theorem proceed (h : s.Moved R t) (hs : s.control.Proceeds) (control : Control W) :
    Vm.Moved R { s with control := control } { t with control := control } := by
  obtain ⟨hcallers, htries, hpc⟩ := h
  exact .mk hcallers htries fun _ => hpc hs

theorem mapEnv (h : s.Moved R t) (f : Env W → Env W) : Vm.Moved R (s.mapEnv f) (t.mapEnv f) := by
  obtain ⟨hcallers, htries, hpc⟩ := h
  exact .mk hcallers htries hpc

/-! ### Try regions -/

theorem ownsTry (h : s.Moved R t) {frame frame' : TryFrame} (hframe : frame.Moved R frame') :
    t.ownsTry frame' = s.ownsTry frame := by
  obtain ⟨-⟩ := hframe
  unfold Vm.ownsTry
  rw [h.depth, h.code]

/-- The region ends alike when control is at its end in both or in neither. -/
theorem finishTry (h : s.Moved R t) {frame frame' : TryFrame} {rest rest' : List TryFrame}
    (hrest : List.Forall₂ (TryFrame.Moved R) rest rest') (hframe : frame.Moved R frame')
    (hend : s.pc = frame.endPc ↔ t.pc = frame'.endPc) :
    Vm.Moved R (s.finishTry frame rest) (t.finishTry frame' rest') := by
  obtain ⟨hcallers, -, hpc⟩ := h
  obtain ⟨-⟩ := hframe
  unfold Vm.finishTry
  simp only [hend]
  exact .mk hcallers hrest hpc

variable (ops : Ops W)

theorem catchCurrentTryError (h : s.Moved R t) (e : WqErrorType) :
    Option.Rel (Vm.Moved R) (s.catchCurrentTryError ops e) (t.catchCurrentTryError ops e) := by
  unfold Vm.catchCurrentTryError
  by_cases he : e = .vm
  · rw [if_pos he, if_pos he]
    exact .none
  · rw [if_neg he, if_neg he]
    have htries := h.tries
    cases hs : s.tryStack with
    | nil =>
      rw [hs, List.forall₂_nil_left_iff] at htries
      rw [htries]
      exact .none
    | cons frame rest =>
      rw [hs] at htries
      obtain ⟨frame', rest', hframe, hrest, ht⟩ := List.forall₂_cons_left_iff.mp htries
      rw [ht]
      dsimp only
      rw [h.ownsTry hframe]
      by_cases howns : s.ownsTry frame = true
      · rw [if_pos howns, if_pos howns]
        have hcode : frame.code = s.code := (of_decide_eq_true howns).2
        obtain ⟨hend⟩ := hframe
        obtain ⟨hcallers, -, -⟩ := h
        dsimp only at hcode
        subst hcode
        exact .some (.mk hcallers hrest fun _ => R.place_tryEnd _ _ hend)
      · rw [if_neg howns, if_neg howns]
        exact .none

theorem discardTryFrames {ts ts' : List TryFrame} (h : List.Forall₂ (TryFrame.Moved R) ts ts')
    (depth : Nat) (d : Data W) :
    List.Forall₂ (TryFrame.Moved R) (Vm.discardTryFrames depth ts d).1
        (Vm.discardTryFrames depth ts' d).1 ∧
      (Vm.discardTryFrames depth ts' d).2 = (Vm.discardTryFrames depth ts d).2 := by
  induction h generalizing d with
  | nil => exact ⟨.nil, rfl⟩
  | @cons frame frame' rest rest' hframe hrest ih =>
    have hframe' := hframe
    obtain ⟨-⟩ := hframe'
    unfold Vm.discardTryFrames
    by_cases hdepth : frame.callDepth = depth
    · rw [if_pos hdepth, if_pos hdepth]
      exact ih _
    · rw [if_neg hdepth, if_neg hdepth]
      exact ⟨.cons hframe hrest, rfl⟩

theorem discardCurrentTryFrames (h : s.Moved R t) :
    Vm.Moved R s.discardCurrentTryFrames t.discardCurrentTryFrames := by
  obtain ⟨hcallers, htries, hpc⟩ := h
  rename_i data callers callers' tryStack tryStack' control
  obtain ⟨hdiscard, hdata⟩ := discardTryFrames htries callers.length data
  unfold Vm.discardCurrentTryFrames Vm.depth
  dsimp only
  rw [← hcallers.length_eq, hdata]
  exact .mk hcallers hdiscard hpc

/-! ### Calls and returns -/

theorem finishModuleOf (h : s.Moved R t) {frame frame' : CallerFrame W}
    (hframe : frame.Moved R frame') (v : Value) :
    Vm.Moved R (s.finishModuleOf frame v) (t.finishModuleOf frame' v) := by
  obtain ⟨-⟩ := hframe
  unfold Vm.finishModuleOf
  dsimp only
  cases frame.moduleIdentity with
  | none => exact h
  | some identity => exact h.mapEnv _

theorem failModuleOf (h : s.Moved R t) {frame frame' : CallerFrame W}
    (hframe : frame.Moved R frame') :
    Vm.Moved R (s.failModuleOf frame) (t.failModuleOf frame') := by
  obtain ⟨-⟩ := hframe
  unfold Vm.failModuleOf
  dsimp only
  cases frame.moduleIdentity with
  | none => exact h
  | some identity => exact h.mapEnv _

/-- Back in the caller's frame, which goes on where it waits. -/
theorem restoreUserCall (h : s.Moved R t) {frame frame' : CallerFrame W}
    {rest rest' : List (CallerFrame W)} (hframe : frame.Moved R frame')
    (hrest : List.Forall₂ (CallerFrame.Moved R) rest rest') :
    Vm.Moved R (s.restoreUserCall frame rest) (t.restoreUserCall frame' rest') := by
  obtain ⟨-, htries, -⟩ := h
  obtain ⟨hplace⟩ := hframe
  exact .mk hrest htries fun _ => hplace

theorem resume (h : s.Moved R t) (hplace : R.Place s.code s.pc) {frame frame' : CallerFrame W}
    (hframe : frame.Moved R frame') (v : Value) :
    Vm.Moved R (s.resume frame.cont v) (t.resume frame'.cont v) := by
  obtain ⟨-⟩ := hframe
  obtain ⟨hcallers, htries, hpc⟩ := h
  cases frame.cont with
  | push => exact .mk hcallers htries hpc
  | builtin saved k => exact .mk hcallers htries fun _ => hplace

theorem resumeError (h : s.Moved R t) (hplace : R.Place s.code s.pc) {frame frame' : CallerFrame W}
    (hframe : frame.Moved R frame') (e : WqErrorType) :
    Vm.Moved R (s.resumeError frame.cont e) (t.resumeError frame'.cont e) := by
  obtain ⟨-⟩ := hframe
  obtain ⟨hcallers, htries, -⟩ := h
  cases frame.cont with
  | push => exact .mk hcallers htries nofun
  | builtin saved k => exact .mk hcallers htries fun _ => hplace

theorem finishModuleOf_place {frame frame' : CallerFrame W} (hframe : frame.Moved R frame')
    (rest : List (CallerFrame W)) (v : Value) :
    R.Place ((s.restoreUserCall frame rest).finishModuleOf frame v).code
      ((s.restoreUserCall frame rest).finishModuleOf frame v).pc := by
  obtain ⟨hplace⟩ := hframe
  unfold Vm.finishModuleOf
  cases frame.moduleIdentity <;> exact hplace

theorem failModuleOf_place {frame frame' : CallerFrame W} (hframe : frame.Moved R frame')
    (rest : List (CallerFrame W)) :
    R.Place ((s.restoreUserCall frame rest).failModuleOf frame).code
      ((s.restoreUserCall frame rest).failModuleOf frame).pc := by
  obtain ⟨hplace⟩ := hframe
  unfold Vm.failModuleOf
  cases frame.moduleIdentity <;> exact hplace

theorem returnFrame (h : s.Moved R t) : Vm.Moved R s.returnFrame t.returnFrame := by
  have hpop : Vm.Moved R { s with data := { s.data with stack := s.data.stack.tail } }
      { t with data := { t.data with stack := t.data.stack.tail } } := by
    rw [h.data]
    exact h.setData _
  have hdiscard := hpop.discardCurrentTryFrames
  obtain ⟨hcallers, htries, hpc⟩ := h
  cases hcallers with
  | nil => exact hdiscard.halted _
  | cons hframe hrest =>
    exact ((hdiscard.restoreUserCall hframe hrest).finishModuleOf hframe _).resume
      (finishModuleOf_place hframe _ _) hframe _

theorem unwind (h : s.Moved R t) (e : WqErrorType) :
    Vm.Moved R (s.unwind ops e) (t.unwind ops e) := by
  have hcatch := h.catchCurrentTryError ops e
  unfold Vm.unwind
  generalize s.catchCurrentTryError ops e = caught, t.catchCurrentTryError ops e = caught' at hcatch
  cases hcatch with
  | some hcaught => exact hcaught
  | none =>
    have hdiscard := h.discardCurrentTryFrames
    obtain ⟨hcallers, htries, hpc⟩ := h
    cases hcallers with
    | nil => exact hdiscard.halted _
    | cons hframe hrest =>
      exact ((hdiscard.restoreUserCall hframe hrest).failModuleOf hframe).resumeError
        (failModuleOf_place hframe _) hframe e

/-! ### Entering functions -/

variable {table table' : FnTable} (htable : SameInterface table table')

/-- The results of entering a function. -/
inductive Entered (R : Relocation) :
    Except (WqErrorType × Vm W) (Vm W) → Except (WqErrorType × Vm W) (Vm W) → Prop
  | ok {s t : Vm W} (h : s.Moved R t) : Entered R (.ok s) (.ok t)
  | error {s t : Vm W} (e : WqErrorType) (h : s.Moved R t) : Entered R (.error (e, s)) (.error (e, t))

include htable in
theorem enterSpec (h : s.Moved R t) (hplace : R.Place s.code s.pc) (fn : FnId)
    (captures : List CellId) (callee : Value) (argc : Nat) (moduleIdentity : Option String)
    (cont : CallCont W) :
    Entered R (s.enterSpec table ops fn captures callee argc moduleIdentity cont)
      (t.enterSpec table' ops fn captures callee argc moduleIdentity cont) := by
  unfold Vm.enterSpec
  rw [htable.bindArguments, h.depth]
  obtain ⟨hcallers, htries, hpc⟩ := h
  rename_i code pc data callers callers' tryStack tryStack' control
  dsimp only
  cases bindArguments (table fn) argc data.pendingNamedMeta data.stack with
  | error e => exact .error e (.mk hcallers htries hpc)
  | ok bound =>
    obtain ⟨locals, stack⟩ := bound
    dsimp only
    by_cases hdepth : ops.maxCallDepth < Vm.depth
        ⟨code, pc, data, callers, tryStack, control⟩ + 1
    · rw [if_pos hdepth, if_pos hdepth]
      exact .error .recursion (.mk hcallers htries hpc)
    · rw [if_neg hdepth, if_neg hdepth]
      have hframe : CallerFrame.Moved R
          { code, pc, stack, function := data.function, moduleIdentity
            unpackDepth := data.unpackFrames.length, cont } _ := .mk hplace
      exact .ok (atStart (.cons hframe hcallers) htries)

include htable in
theorem enterCall (h : s.Moved R t) (hplace : R.Place s.code s.pc) (callee : Value) (argc : Nat) :
    Vm.Moved R (s.enterCall table ops callee argc) (t.enterCall table' ops callee argc) := by
  unfold Vm.enterCall
  cases callee.asUserFunction with
  | none => exact h.unwinding .notBound
  | some p =>
    obtain ⟨fn, captures⟩ := p
    dsimp only
    have henter := h.enterSpec ops htable hplace fn captures callee argc none .push
    generalize s.enterSpec table ops fn captures callee argc none .push = r,
      t.enterSpec table' ops fn captures callee argc none .push = r' at henter
    cases henter with
    | ok hr => exact hr
    | error e hr => exact hr.unwinding e

include htable in
theorem prepareTail (h : s.Moved R t) (callee : Value) (argc : Nat) :
    Vm.Moved R (s.prepareTail table callee argc) (t.prepareTail table' callee argc) := by
  unfold Vm.prepareTail
  cases callee.asUserFunction with
  | none => exact h.unwinding .notBound
  | some p =>
    obtain ⟨fn, captures⟩ := p
    dsimp only
    rw [htable.bindArguments]
    obtain ⟨hcallers, htries, hpc⟩ := h
    rename_i code pc data callers callers' tryStack tryStack' control
    dsimp only
    cases bindArguments (table fn) argc data.pendingNamedMeta data.stack with
    | error e => exact .mk hcallers htries nofun
    | ok bound =>
      obtain ⟨locals, stack⟩ := bound
      dsimp only
      cases data.function with
      | none => exact .mk hcallers htries nofun
      | some a =>
        exact atStart hcallers htries

include htable in
theorem importModule (h : s.Moved R t) (hplace : R.Place s.code s.pc) (data : ImportData) :
    Vm.Moved R (s.importModule table ops data) (t.importModule table' ops data) := by
  have hresolve : ops.resolveModule data t.data.env = ops.resolveModule data s.data.env := by
    rw [h.data]
  unfold Vm.importModule
  rw [hresolve]
  cases ops.resolveModule data s.data.env with
  | error e => exact h.unwinding e
  | ok identity =>
    dsimp only
    have hmodules : t.data.env.modules identity = s.data.env.modules identity := by rw [h.data]
    rw [hmodules]
    cases s.data.env.modules identity with
    | some entry =>
      cases entry with
      | loading => exact h.unwinding .exec
      | loaded v =>
        have hpush := h.setData { s.data with stack := v :: s.data.stack }
        obtain ⟨-, -, -⟩ := h
        exact hpush
    | none =>
      dsimp only
      have hload : Vm.Moved R (s.mapEnv fun env => env.setModule identity (some .loading))
          (t.mapEnv fun env => env.setModule identity (some .loading)) := h.mapEnv _
      have hplace' : R.Place (s.mapEnv fun env => env.setModule identity (some .loading)).code
          (s.mapEnv fun env => env.setModule identity (some .loading)).pc := hplace
      generalize s.mapEnv (fun env => env.setModule identity (some .loading)) = loading,
        t.mapEnv (fun env => env.setModule identity (some .loading)) = loading' at hload hplace'
      have hcompile : ops.compileModule identity loading'.data.env =
          ops.compileModule identity loading.data.env := by rw [hload.data]
      rw [hcompile]
      cases ops.compileModule identity loading.data.env with
      | error e => exact (hload.mapEnv _).unwinding e
      | ok fn =>
        dsimp only
        have henter := hload.enterSpec ops htable hplace' fn [] (.compiledFunction fn) 0
          (some identity) .push
        generalize loading.enterSpec table ops fn [] (.compiledFunction fn) 0 (some identity)
            .push = r,
          loading'.enterSpec table' ops fn [] (.compiledFunction fn) 0 (some identity)
            .push = r' at henter
        cases henter with
        | ok hr => exact hr
        | error e hr => exact (hr.mapEnv _).unwinding e

theorem pushArgs (h : s.Moved R t) (args : BuiltinFnArgs) :
    Vm.Moved R (s.pushArgs args) (t.pushArgs args) := by
  unfold Vm.pushArgs
  rw [h.data]
  exact h.setData _

include htable in
/-- A callback of a user function. -/
theorem callUser (h : s.Moved R t) (hplace : R.Place s.code s.pc) (hs : s.control.Proceeds)
    (f : Value) (args : BuiltinFnArgs) (k : WqResult Value → Env W → BuiltinRun W) :
    Vm.Moved R
      (match f.asUserFunction with
        | none => { s with control := .builtin (k (.error .notBound) s.data.env) }
        | some (fn, captures) =>
          match (s.pushArgs args).enterSpec table ops fn captures f
              (args.pos.length + args.named.length) none (.builtin s.data.pendingNamedMeta k) with
          | .ok vm => vm
          | .error (e, _) => { s with control := .builtin (k (.error e) s.data.env) })
      (match f.asUserFunction with
        | none => { t with control := .builtin (k (.error .notBound) t.data.env) }
        | some (fn, captures) =>
          match (t.pushArgs args).enterSpec table' ops fn captures f
              (args.pos.length + args.named.length) none (.builtin t.data.pendingNamedMeta k) with
          | .ok vm => vm
          | .error (e, _) => { t with control := .builtin (k (.error e) t.data.env) }) := by
  have hproceed : ∀ r, Vm.Moved R { s with control := .builtin (k r s.data.env) }
      { t with control := .builtin (k r t.data.env) } := by
    intro r
    rw [congrArg Data.env h.data]
    exact h.proceed hs _
  cases f.asUserFunction with
  | none => exact hproceed _
  | some p =>
    obtain ⟨fn, captures⟩ := p
    dsimp only
    rw [congrArg Data.pendingNamedMeta h.data]
    have henter := (h.pushArgs args).enterSpec ops htable hplace fn captures f
      (args.pos.length + args.named.length) none (.builtin s.data.pendingNamedMeta k)
    generalize (s.pushArgs args).enterSpec table ops fn captures f
        (args.pos.length + args.named.length) none (.builtin s.data.pendingNamedMeta k) = r,
      (t.pushArgs args).enterSpec table' ops fn captures f
        (args.pos.length + args.named.length) none (.builtin s.data.pendingNamedMeta k) = r'
      at henter
    cases henter with
    | ok hr => exact hr
    | error e hr => exact hproceed _

include htable in
theorem callBack (h : s.Moved R t) (hplace : R.Place s.code s.pc) (hs : s.control.Proceeds)
    (f : Value) (args : BuiltinFnArgs) (k : WqResult Value → Env W → BuiltinRun W) :
    Vm.Moved R (s.callBack table ops f args k) (t.callBack table' ops f args k) := by
  have henv : t.data.env = s.data.env := congrArg Data.env h.data
  have hmain : Exec.isMain table' t.data = Exec.isMain table s.data := by
    rw [htable.isMain, h.data]
  have huser := h.callUser ops htable hplace hs f args k
  unfold Vm.callBack
  cases f with
  | builtinFunction name id =>
    dsimp only
    rw [hmain, henv]
    exact h.proceed hs _
  | rng handle =>
    dsimp only
    rw [henv]
    exact h.proceed hs _
  | liftedCallable expr =>
    dsimp only
    rw [henv]
    split
    · exact h.proceed hs _
    · exact h.proceed hs _
  | cas kind =>
    dsimp only
    rw [henv]
    exact h.proceed hs _
  | _ => exact huser

include htable in
theorem stepBuiltin (h : s.Moved R t) {run : BuiltinRun W} (hs : s.control = .builtin run) :
    Vm.Moved R (s.stepBuiltin table ops run) (t.stepBuiltin table' ops run) := by
  have hproceeds : s.control.Proceeds := hs ▸ trivial
  have hplace := h.place hproceeds
  cases run with
  | done r env =>
    cases r with
    | ok v =>
      unfold Vm.stepBuiltin
      rw [h.data, h.pc]
      exact h.goto rfl hplace _ _
    | error e =>
      unfold Vm.stepBuiltin
      rw [h.data, h.pc]
      exact h.raise rfl _ e
  | call f args env k =>
    have henv := h.setData { s.data with env := env }
    unfold Vm.stepBuiltin
    rw [h.data]
    exact henv.callBack ops htable hplace hproceeds f args k

/-! ### Instructions -/

theorem openTry (h : s.Moved R t) {len len' : Nat} (hend : R.TryEnd s.code (s.pc + len))
    (hle : s.pc + len ≤ (table s.code).instructions.length)
    (heq : t.pc + len' = R.map s.code (s.pc + len))
    (hle' : t.pc + len' ≤ (table' s.code).instructions.length) :
    Vm.Moved R (s.openTry table len) (t.openTry table' len') := by
  have hcode := h.code
  have hdepth := h.depth
  have hdata := h.data
  unfold Vm.openTry
  rw [hcode, if_pos hle, if_pos hle', hdata, hdepth, heq]
  obtain ⟨hcallers, htries, hpc⟩ := h
  exact .mk hcallers (.cons (@TryFrame.Moved.mk R ⟨_, _, _, _, _, _⟩ hend) htries) hpc

/-- How control goes on in the old code and in the new one. -/
structure FlowMoved (R : Relocation) (table table' : FnTable) (s t : Vm W) (flow flow' : Flow W) :
    Prop where
  jump : ∀ q, flow = .jump q → flow' = .jump (R.map s.code q) ∧ R.Place s.code q
  try_ : ∀ len, flow = .try_ len → R.TryEnd s.code (s.pc + len) ∧
    s.pc + len ≤ (table s.code).instructions.length ∧
    ∃ len', flow' = .try_ len' ∧ t.pc + len' = R.map s.code (s.pc + len) ∧
      t.pc + len' ≤ (table' s.code).instructions.length
  other : (∀ q, flow ≠ .jump q) → (∀ len, flow ≠ .try_ len) → flow' = flow

include htable in
theorem follow (h : s.Moved R t) (hrun : s.control.Proceeds) {flow flow' : Flow W}
    (hflow : FlowMoved R table table' s t flow flow') :
    Vm.Moved R (s.follow table ops flow) (t.follow table' ops flow') := by
  cases flow with
  | jump q =>
    obtain ⟨rfl, hplace⟩ := hflow.jump q rfl
    obtain ⟨hcallers, htries, -⟩ := h
    exact .mk hcallers htries fun _ => hplace
  | try_ len =>
    obtain ⟨hend, hle, len', rfl, heq, hle'⟩ := hflow.try_ len rfl
    exact h.openTry hend hle heq hle'
  | next =>
    obtain rfl := hflow.other nofun nofun
    exact h
  | return_ =>
    obtain rfl := hflow.other nofun nofun
    exact h.returnFrame
  | enter callee argc =>
    obtain rfl := hflow.other nofun nofun
    exact h.enterCall ops htable (h.place hrun) callee argc
  | tail callee argc =>
    obtain rfl := hflow.other nofun nofun
    exact h.prepareTail htable callee argc
  | builtin run =>
    obtain rfl := hflow.other nofun nofun
    exact h.proceed hrun _
  | import_ data =>
    obtain rfl := hflow.other nofun nofun
    exact h.importModule ops htable (h.place hrun) data

end Vm.Moved

namespace Vm

variable {W : Type} (table : FnTable) (ops : Ops W)

/-- The machine after an instruction with this result. -/
def afterInstruction (vm : Vm W) (pc : Nat) : ExecResult W (Flow W) → Vm W
  | .ok flow d => follow table ops { vm with pc, data := d } flow
  | .error e d => { vm with pc, data := d, control := .unwinding e }

theorem stepInstruction_eq (vm : Vm W) (i : Instruction) :
    vm.stepInstruction table ops i =
      vm.afterInstruction table ops (vm.pc + 1) ((Exec.exec ops table i).run vm.data) := rfl

variable {R : Relocation} {table ops} {table' : FnTable} {s t : Vm W}

/-- An instruction and its moved form. -/
theorem Moved.afterInstruction (htable : SameInterface table table') (h : s.Moved R t)
    (hrun : s.control = .running) {p q : Nat} (hq : q = R.map s.code p) (hp : R.Place s.code p)
    {r r' : ExecResult W (Flow W)}
    (hok : ∀ flow d, r = .ok flow d → ∃ flow', r' = .ok flow' d ∧
      Moved.FlowMoved R table table' { s with pc := p } { t with pc := q } flow flow')
    (herror : ∀ e d, r = .error e d → r' = .error e d) :
    Moved R (s.afterInstruction table ops p r) (t.afterInstruction table' ops q r') := by
  cases r with
  | error e d =>
    rw [herror e d rfl]
    exact h.raise hq d e
  | ok flow d =>
    obtain ⟨flow', rfl, hflow⟩ := hok flow d rfl
    have hgoto : Moved R { s with pc := p, data := d } { t with pc := q, data := d } := by
      have hgoto := h.goto hq hp d .running
      have ht := h.control
      rw [hrun] at ht
      obtain ⟨-, -, -⟩ := h
      dsimp only at hrun ht
      subst hrun
      exact hgoto
    refine hgoto.follow ops htable ?_ ⟨hflow.jump, hflow.try_, hflow.other⟩
    rw [show ({ s with pc := p, data := d } : Vm W).control = .running from hrun]
    trivial

end Vm

end Wqpl
