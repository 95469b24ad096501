/-
# Plans and the machine

A plan that has a value for some arguments stands for the call of the callback
with these arguments (`CallAnswers`) exactly if everything that the callback's
code computes has a value (`plan_refines_iff`). The plan leaves out what the
code stores in a local that nobody reads; the machine computes it all the same,
and fails where that fails.
-/
import Wqpl.Vm.PureCalls
import Wqpl.Vm.TryNesting

namespace Wqpl

open Vm

section Refinement

variable {W : Type} {table : FnTable} {base : Ops W} {numbers : NumberOps}
  {substituteCas : SubstituteCas} {env : Env W} {f : Value} {args : List Value} {e : PureExpr}
  {v : Value}

/-- The callback answers with the value and leaves everything else as it is, in
every state whose try regions are nested, as they are in every state of a run
(`nestedTries_steps`), and that has room for a call. -/
def CallAnswers (table : FnTable) (ops : Ops W) (env : Env W) (f : Value) (args : List Value)
    (v : Value) : Prop :=
  ∀ vm : Vm W, vm.data.env = env → NestedTries vm.depth vm.tryStack →
    vm.depth + 1 ≤ ops.maxCallDepth → ∀ k,
    ∃ n, (machine table ops).Steps n (vm.callBack table ops f { pos := args, named := [] } k)
      (vm.answered k (.ok v))

theorem callsCas_computing (base : Ops W) (numbers : NumberOps) (substituteCas : SubstituteCas) :
    CallsCas (base.computing numbers substituteCas) substituteCas :=
  fun _ _ _ => rfl

theorem noneGivesUp_of_allValues {ops : Ops W} {es : List PureExpr}
    (h : AllValues ops substituteCas env args es) : NoneGivesUp ops substituteCas env args es := by
  intro e he hnone
  obtain ⟨v, hv⟩ := h e he
  rw [HasValue, hnone] at hv
  exact absurd hv (by simp)

/-- How the machine answers, in the state the callback is called in. -/
theorem answers_computing (hplan : PureCallback.compile table args.length f = some e)
    (he : HasValue (base.computing numbers substituteCas) substituteCas env args e v)
    (hgives : NoneGivesUp (base.computing numbers substituteCas) substituteCas env args
      (PureCallback.computed table args.length f))
    {vm : Vm W} (henv : vm.data.env = env) (hnested : NestedTries vm.depth vm.tryStack)
    (hroom : vm.depth + 1 ≤ base.maxCallDepth) (k : WqResult Value → Env W → BuiltinRun W) :
    Answers table (base.computing numbers substituteCas) vm
      (vm.callBack table (base.computing numbers substituteCas) f { pos := args, named := [] } k)
      k v (AllValues (base.computing numbers substituteCas) substituteCas env args
        (PureCallback.computed table args.length f)) := by
  subst henv
  exact callBack_answers (intFastPath_computing base numbers substituteCas)
    (indexesNoCas_computing base numbers substituteCas)
    (callsCas_computing base numbers substituteCas) f vm hroom hnested.le hplan he hgives k

theorem callAnswers_of_allValues (hplan : PureCallback.compile table args.length f = some e)
    (he : HasValue (base.computing numbers substituteCas) substituteCas env args e v)
    (hall : AllValues (base.computing numbers substituteCas) substituteCas env args
      (PureCallback.computed table args.length f)) :
    CallAnswers table (base.computing numbers substituteCas) env f args v := by
  intro vm henv hnested hroom k
  have h := answers_computing hplan he (noneGivesUp_of_allValues hall) henv hnested hroom k
  rcases h with ⟨-, hsteps⟩ | ⟨hnot, -⟩
  · exact hsteps
  · exact absurd hall hnot

/-- A machine at the end of its code. -/
def Vm.atEnd (table : FnTable) (fn : FnId) (env : Env W) : Vm W :=
  { Vm.start fn env with pc := (table fn).instructions.length }

/-- A machine at the end of its code ends with the answer of its callback. -/
theorem atEnd_ends (ops : Ops W) (fn : FnId) (r : WqResult Value) :
    ∃ d, (machine table ops).Ends ((Vm.atEnd table fn env).answered .done r) (r, d) := by
  rcases r with err | v
  · let failed : Vm W := { Vm.atEnd table fn env with control := .unwinding err }
    have hbelow : failed.TriesBelow failed.depth := fun frame hframe => absurd hframe (by simp [failed, Vm.atEnd, Vm.start])
    have hunwind : failed.unwind ops err =
        { failed.discardCurrentTryFrames with control := .halted (.error err) } :=
      Region.unwind_nil (hbelow.catchCurrentTryError err) rfl
    have hone := Machine.Steps.one (M := machine table ops)
      (s := (Vm.atEnd table fn env).answered .done (.error err)) rfl
    have htwo := hone.tail (M := machine table ops) rfl
    have hlast : (machine table ops).step ((machine table ops).step
        ((Vm.atEnd table fn env).answered .done (.error err))) = _ := hunwind
    rw [hlast] at htwo
    exact ⟨_, 2, _, htwo, rfl⟩
  · let returned : Vm W :=
      { Vm.atEnd table fn env with data := { (Vm.atEnd table fn env).data with stack := [v] } }
    have hreturn : Vm.step table ops returned = returned.returnFrame := by
      have hend : (table fn).instructions[(table fn).instructions.length]? = none := by simp
      show returned.stepRunning table ops = _
      unfold Vm.stepRunning
      dsimp only [Vm.finishTryBoundary, returned, Vm.atEnd, Vm.start]
      rw [hend]
    have hone := Machine.Steps.one (M := machine table ops)
      (s := (Vm.atEnd table fn env).answered .done (.ok v)) rfl
    have htwo := hone.tail (M := machine table ops) rfl
    have hlast : (machine table ops).step ((machine table ops).step
        ((Vm.atEnd table fn env).answered .done (.ok v))) = returned.returnFrame := hreturn
    rw [hlast] at htwo
    exact ⟨_, 2, _, htwo, rfl⟩

theorem allValues_of_callAnswers (hroom : 0 < base.maxCallDepth)
    (hplan : PureCallback.compile table args.length f = some e)
    (he : HasValue (base.computing numbers substituteCas) substituteCas env args e v)
    (hgives : NoneGivesUp (base.computing numbers substituteCas) substituteCas env args
      (PureCallback.computed table args.length f))
    (h : CallAnswers table (base.computing numbers substituteCas) env f args v) :
    AllValues (base.computing numbers substituteCas) substituteCas env args
      (PureCallback.computed table args.length f) := by
  have hnested : NestedTries (Vm.atEnd table 0 env).depth (Vm.atEnd table 0 env).tryStack :=
    nestedTries_start 0 env
  have henv : (Vm.atEnd table 0 env).data.env = env := rfl
  rcases answers_computing hplan he hgives henv hnested hroom .done with
    ⟨hall, -⟩ | ⟨-, n, err, herror⟩
  · exact hall
  · -- one run cannot end with the value and with an error
    obtain ⟨m, hvalue⟩ := h (Vm.atEnd table 0 env) rfl hnested hroom .done
    obtain ⟨d, hends⟩ := atEnd_ends (base.computing numbers substituteCas) 0 (.ok v)
    obtain ⟨d', hends'⟩ := atEnd_ends (base.computing numbers substituteCas) 0 (.error err)
    have heq := ((hvalue.ends_iff _).mpr hends).unique ((herror.ends_iff _).mpr hends')
    exact absurd (congrArg Prod.fst heq) (by simp)

/-- **Plans refine calls** exactly if everything the code computes has a value.
An expression that gives up on a target that is callable is none that has one. -/
theorem plan_refines_iff (table : FnTable) (base : Ops W) (hroom : 0 < base.maxCallDepth)
    (numbers : NumberOps) (substituteCas : SubstituteCas) (env : Env W) (f : Value)
    (args : List Value) {e : PureExpr} {v : Value}
    (hplan : PureCallback.compile table args.length f = some e)
    (he : e.eval (base.computing numbers substituteCas) substituteCas env args = .ok (some v)) :
    (AllValues (base.computing numbers substituteCas) substituteCas env args
        (PureCallback.computed table args.length f) →
      CallAnswers table (base.computing numbers substituteCas) env f args v) ∧
    (NoneGivesUp (base.computing numbers substituteCas) substituteCas env args
        (PureCallback.computed table args.length f) →
      CallAnswers table (base.computing numbers substituteCas) env f args v →
      AllValues (base.computing numbers substituteCas) substituteCas env args
        (PureCallback.computed table args.length f)) :=
  ⟨callAnswers_of_allValues hplan he, fun hgives => allValues_of_callAnswers hroom hplan he hgives⟩

/-! ### A store that nobody reads -/

/-- `{y:1/x;x}`. -/
def droppedQuotient : FnShape where
  params := none
  namedParams := none
  locals := 2
  isolatedModule := false
  instructions :=
    [.binaryOp .divide (.const (.int 1)) (.local_ 0), .storeLocal 1, .loadLocal 0, .return_]

theorem computed_droppedQuotient :
    PureCallback.computed (fun _ => droppedQuotient) 1 (.compiledFunction 0) =
      [.binary .divide (.const (.int 1)) (.arg 0), .arg 0] := rfl

/-- The operations of the witness. -/
abbrev inertComputing : Ops Unit := Ops.inert.computing NumberOps.inert fun _ _ _ => .error .domain

theorem plan_refines_two :
    CallAnswers (fun _ => droppedQuotient) inertComputing Env.empty (.compiledFunction 0) [.int 2]
      (.int 2) := by
  refine (plan_refines_iff (fun _ => droppedQuotient) Ops.inert (by decide) NumberOps.inert
    (fun _ _ _ => .error .domain) Env.empty (.compiledFunction 0) [.int 2] (e := .arg 0) rfl rfl).1 ?_
  intro e he
  have hcases : e = .binary .divide (.const (.int 1)) (.arg 0) ∨ e = .arg 0 := by
    simpa [computed_droppedQuotient] using he
  rcases hcases with rfl | rfl
  · exact ⟨.float ⟨0⟩, rfl⟩
  · exact ⟨.int 2, rfl⟩

/-- The plan of `{y:1/x;x}` answers for zero, and the call fails. -/
theorem plan_not_refines : ¬∀ (table : FnTable) (base : Ops Unit), 0 < base.maxCallDepth →
    ∀ (numbers : NumberOps) (substituteCas : SubstituteCas) (env : Env Unit) (f : Value)
      (args : List Value) (e : PureExpr) (v : Value),
      PureCallback.compile table args.length f = some e →
      e.eval (base.computing numbers substituteCas) substituteCas env args = .ok (some v) →
      CallAnswers table (base.computing numbers substituteCas) env f args v := by
  intro h
  have hanswers := h (fun _ => droppedQuotient) Ops.inert (by decide) NumberOps.inert
    (fun _ _ _ => .error .domain) Env.empty (.compiledFunction 0) [.int 0] (.arg 0) (.int 0) rfl rfl
  have hquotient : (PureExpr.binary .divide (.const (.int 1)) (.arg 0)).eval inertComputing
      (fun _ _ _ => .error .domain) Env.empty [.int 0] = .error .zeroDiv := rfl
  have hvalue : HasValue inertComputing (fun _ _ _ => .error .domain) Env.empty [.int 0] (.arg 0)
      (.int 0) := rfl
  have hmem : PureExpr.binary .divide (.const (.int 1)) (.arg 0) ∈
      PureCallback.computed (fun _ => droppedQuotient) 1 (.compiledFunction 0) :=
    List.mem_cons_self
  have hgives : NoneGivesUp inertComputing (fun _ _ _ => .error .domain) Env.empty [.int 0]
      (PureCallback.computed (fun _ => droppedQuotient) 1 (.compiledFunction 0)) := by
    intro e he
    have hcases : e = .binary .divide (.const (.int 1)) (.arg 0) ∨ e = .arg 0 := by
      simpa [computed_droppedQuotient] using he
    rcases hcases with rfl | rfl
    · rw [hquotient]
      nofun
    · nofun
  obtain ⟨v, hv⟩ := allValues_of_callAnswers (by decide) (e := .arg 0) rfl hvalue hgives
    hanswers _ hmem
  rw [HasValue, hquotient] at hv
  exact absurd hv nofun

end Refinement

end Wqpl
