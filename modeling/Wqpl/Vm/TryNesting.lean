/-
# The nesting of try regions

In every state of a run, the try regions lie on their stack in the order of the
calls they belong to, and none belongs to a call that has ended
(`nestedTries_steps`).
-/
import Wqpl.Vm.Callers
import Wqpl.Vm.TryRegion

namespace Wqpl

/-- Regions of calls up to the given depth, inner calls first. -/
structure NestedTries (depth : Nat) (ts : List TryFrame) : Prop where
  sorted : ts.Pairwise fun f g => g.callDepth ≤ f.callDepth
  le : ∀ f ∈ ts, f.callDepth ≤ depth

namespace NestedTries

variable {depth depth' : Nat} {ts : List TryFrame} {f : TryFrame}

theorem mono (h : NestedTries depth ts) (hle : depth ≤ depth') : NestedTries depth' ts :=
  ⟨h.sorted, fun f hf => (h.le f hf).trans hle⟩

theorem tail (h : NestedTries depth (f :: ts)) : NestedTries depth ts :=
  ⟨h.sorted.of_cons, fun g hg => h.le g (List.mem_cons_of_mem _ hg)⟩

theorem open_ (h : NestedTries depth ts) (hf : f.callDepth = depth) :
    NestedTries depth (f :: ts) := by
  refine ⟨List.pairwise_cons.mpr ⟨fun g hg => hf ▸ h.le g hg, h.sorted⟩, fun g hg => ?_⟩
  rcases List.mem_cons.mp hg with rfl | hg
  · exact hf.le
  · exact h.le g hg

/-- The regions of the innermost call end with it. -/
theorem discard (h : NestedTries depth ts) (hle : depth ≤ depth' + 1) :
    NestedTries depth' (ts.dropWhile (·.callDepth = depth)) := by
  induction ts with
  | nil => exact ⟨.nil, nofun⟩
  | cons f ts ih =>
    by_cases hf : f.callDepth = depth
    · rw [List.dropWhile_cons_of_pos (by simpa using hf)]
      exact ih h.tail
    · rw [List.dropWhile_cons_of_neg (by simpa using hf)]
      refine ⟨h.sorted, fun g hg => ?_⟩
      have hlt : f.callDepth ≤ depth' := by
        have hle := h.le f List.mem_cons_self
        omega
      rcases List.mem_cons.mp hg with rfl | hg
      · exact hlt
      · exact ((List.pairwise_cons.mp h.sorted).1 g hg).trans hlt

end NestedTries

namespace Vm

variable {W : Type} {table : FnTable} {ops : Ops W} {vm vm' : Vm W}

/-- The same regions at the same depth or deeper. -/
structure KeepsTries (vm vm' : Vm W) : Prop where
  tryStack : vm'.tryStack = vm.tryStack
  depth : vm.depth ≤ vm'.depth

theorem KeepsTries.nested (h : vm.KeepsTries vm') (hn : NestedTries vm.depth vm.tryStack) :
    NestedTries vm'.depth vm'.tryStack := by
  rw [h.tryStack]
  exact hn.mono h.depth

theorem Led.depth_le (h : vm.Led vm') : vm.depth ≤ vm'.depth := by
  rcases h with h | ⟨hcallers, -⟩
  · exact (congrArg List.length h.callers).ge
  · have hlength := congrArg List.length hcallers
    exact (Nat.le_succ _).trans hlength.ge

variable (table ops)

theorem enterSpec_tryStack (vm : Vm W) (fn : FnId) (captures : List CellId) (callee : Value)
    (argc : Nat) (moduleIdentity : Option String) (cont : CallCont W) :
    match vm.enterSpec table ops fn captures callee argc moduleIdentity cont with
    | .ok vm' => vm'.tryStack = vm.tryStack
    | .error p => p.2.tryStack = vm.tryStack := by
  unfold Vm.enterSpec
  dsimp only
  rcases bindArguments (table fn) argc vm.data.pendingNamedMeta vm.data.stack with e | bound
  · rfl
  · dsimp only
    by_cases hdepth : ops.maxCallDepth < vm.depth + 1
    · rw [if_pos hdepth]
    · rw [if_neg hdepth]

theorem enterCall_tryStack (vm : Vm W) (callee : Value) (argc : Nat) :
    (vm.enterCall table ops callee argc).tryStack = vm.tryStack := by
  unfold Vm.enterCall
  rcases callee.asUserFunction with _ | ⟨fn, captures⟩
  · rfl
  · have h := vm.enterSpec_tryStack table ops fn captures callee argc none .push
    dsimp only
    generalize vm.enterSpec table ops fn captures callee argc none .push = r at h
    rcases r with p | vm'
    · exact h
    · exact h

theorem prepareTail_keeps (vm : Vm W) (callee : Value) (argc : Nat) :
    vm.KeepsTries (vm.prepareTail table callee argc) := by
  unfold Vm.prepareTail
  dsimp only
  rcases callee.asUserFunction with _ | ⟨fn, captures⟩
  · exact ⟨rfl, le_rfl⟩
  · dsimp only
    rcases bindArguments (table fn) argc vm.data.pendingNamedMeta vm.data.stack with e | ⟨locals, _⟩
    · exact ⟨rfl, le_rfl⟩
    · dsimp only
      rcases vm.data.function with _ | a
      · exact ⟨rfl, le_rfl⟩
      · exact ⟨rfl, le_rfl⟩

theorem importModule_tryStack (vm : Vm W) (data : ImportData) :
    (vm.importModule table ops data).tryStack = vm.tryStack := by
  unfold Vm.importModule
  rcases ops.resolveModule data vm.data.env with e | identity
  · rfl
  dsimp only
  rcases vm.data.env.modules identity with _ | _ | v
  · dsimp only
    generalize hloading : vm.mapEnv (fun env => env.setModule identity (some .loading)) = loading
    have htry : loading.tryStack = vm.tryStack := hloading ▸ rfl
    rcases ops.compileModule identity loading.data.env with e | fn
    · exact htry
    · have h := loading.enterSpec_tryStack table ops fn [] (.compiledFunction fn) 0 (some identity)
        .push
      dsimp only
      generalize loading.enterSpec table ops fn [] (.compiledFunction fn) 0 (some identity) .push =
        r at h
      rcases r with p | vm'
      · exact h.trans htry
      · exact h.trans htry
  · rfl
  · rfl

theorem callBack_tryStack (vm : Vm W) (f : Value) (args : BuiltinFnArgs)
    (k : WqResult Value → Env W → BuiltinRun W) :
    (vm.callBack table ops f args k).tryStack = vm.tryStack := by
  unfold Vm.callBack
  split
  · rfl
  · rfl
  · split <;> rfl
  · rfl
  · rcases f.asUserFunction with _ | ⟨fn, captures⟩
    · rfl
    · have h := (vm.pushArgs args).enterSpec_tryStack table ops fn captures f
        (args.pos.length + args.named.length) none (.builtin vm.data.pendingNamedMeta k)
      dsimp only
      generalize (vm.pushArgs args).enterSpec table ops fn captures f
        (args.pos.length + args.named.length) none (.builtin vm.data.pendingNamedMeta k) = r at h
      rcases r with p | vm'
      · rfl
      · exact h

theorem stepBuiltin_tryStack (vm : Vm W) (run : BuiltinRun W) :
    (vm.stepBuiltin table ops run).tryStack = vm.tryStack := by
  rcases run with ⟨_ | v, env⟩ | ⟨f, args, env, k⟩
  · rfl
  · rfl
  · exact callBack_tryStack table ops _ f args k

/-- The end of the innermost call. -/
theorem discard_nested (h : NestedTries vm.depth vm.tryStack) {depth' : Nat}
    (hle : vm.depth ≤ depth' + 1) : NestedTries depth' vm.discardCurrentTryFrames.tryStack := by
  rw [discardCurrentTryFrames]
  show NestedTries depth' (discardTryFrames vm.depth vm.tryStack vm.data).1
  rw [discardTryFrames_fst]
  exact h.discard hle

variable {table ops}

/-- The caller goes on, at the depth of its own frame. -/
theorem resumed_nested {frame : CallerFrame W} {rest : List (CallerFrame W)}
    (hcallers : vm.callers = frame :: rest) (h : NestedTries vm.depth vm.tryStack)
    {res : WqResult Value} (hres : Region.Resumed vm.discardCurrentTryFrames frame rest res vm') :
    NestedTries vm'.depth vm'.tryStack := by
  have hdepth : vm.depth = vm'.depth + 1 := by
    rw [Vm.depth, Vm.depth, hcallers, hres.callers, List.length_cons]
  rw [hres.tryStack]
  exact discard_nested h hdepth.le

/-- A return to the caller, or the end of the run. -/
theorem returnFrame_nested (hrun : vm.control = .running) (h : NestedTries vm.depth vm.tryStack) :
    NestedTries vm.returnFrame.depth vm.returnFrame.tryStack := by
  have hpopped : NestedTries (Region.popped vm).depth (Region.popped vm).tryStack := h
  rcases hcallers : vm.callers with _ | ⟨frame, rest⟩
  · rw [Region.returnFrame_nil hcallers]
    exact discard_nested hpopped (Nat.le_succ _)
  · have hcallers' : (Region.popped vm).callers = frame :: rest := hcallers
    exact resumed_nested hcallers' hpopped (Region.returnFrame_cons hrun hcallers)

/-- The innermost region catches the error, or the frame ends. -/
theorem unwind_nested (e : WqErrorType) (h : NestedTries vm.depth vm.tryStack) :
    NestedTries (vm.unwind ops e).depth (vm.unwind ops e).tryStack := by
  rcases hcatch : vm.catchCurrentTryError ops e with _ | vm'
  · rcases hcallers : vm.callers with _ | ⟨frame, rest⟩
    · rw [Region.unwind_nil hcatch hcallers]
      exact discard_nested h (Nat.le_succ _)
    · exact resumed_nested hcallers h (Region.unwind_cons hcatch hcallers)
  · have hunwind : vm.unwind ops e = vm' := by rw [unwind, hcatch]
    rw [hunwind]
    rw [catchCurrentTryError] at hcatch
    split at hcatch
    · cases hcatch
    rcases htry : vm.tryStack with _ | ⟨frame, rest⟩
    · rw [htry] at hcatch
      cases hcatch
    · rw [htry] at hcatch h
      obtain ⟨-, hvm'⟩ := Option.ite_none_right_eq_some.mp hcatch
      rw [← Option.some.inj hvm']
      exact h.tail

/-- One step keeps the regions nested. -/
theorem nestedTries_step (h : NestedTries vm.depth vm.tryStack) :
    NestedTries (vm.step table ops).depth (vm.step table ops).tryStack := by
  rw [Vm.step]
  rcases hcontrol : vm.control with _ | run | e | r
  · dsimp only
    rw [stepRunning]
    rcases hboundary : vm.finishTryBoundary with _ | vm'
    · dsimp only
      rcases (table vm.code).instructions[vm.pc]? with _ | i
      · exact returnFrame_nested hcontrol h
      · dsimp only
        rw [stepInstruction]
        rcases (Exec.exec ops table i).run vm.data with ⟨flow, d⟩ | ⟨e, d⟩
        · have hd : NestedTries (Vm.depth { vm with pc := vm.pc + 1, data := d }) vm.tryStack := h
          rcases flow with _ | target | _ | len | ⟨callee, argc⟩ | ⟨callee, argc⟩ | run | data
          · exact hd
          · exact hd
          · exact returnFrame_nested hcontrol hd
          · show NestedTries (Vm.depth (openTry table _ len)) (openTry table _ len).tryStack
            rw [openTry]
            split
            · exact hd.open_ rfl
            · exact hd
          · exact KeepsTries.nested ⟨enterCall_tryStack table ops _ callee argc,
              (enterCall_led table ops _ callee argc).depth_le⟩ hd
          · exact (prepareTail_keeps table _ callee argc).nested hd
          · exact hd
          · exact KeepsTries.nested ⟨importModule_tryStack table ops _ data,
              (importModule_led table ops _ data).depth_le⟩ hd
        · exact h
    · rw [finishTryBoundary] at hboundary
      rcases htry : vm.tryStack with _ | ⟨frame, rest⟩
      · rw [htry] at hboundary
        cases hboundary
      · rw [htry] at hboundary h
        obtain ⟨-, hvm'⟩ := Option.ite_none_right_eq_some.mp hboundary
        rw [← Option.some.inj hvm']
        exact h.tail
  · exact KeepsTries.nested ⟨stepBuiltin_tryStack table ops vm run,
      (stepBuiltin_led table ops vm run).depth_le⟩ h
  · exact unwind_nested e h
  · exact h

/-- **Nesting.** In every state of a run from a nested one the regions are
nested. -/
theorem nestedTries_steps {n : Nat} (hsteps : (machine table ops).Steps n vm vm')
    (h : NestedTries vm.depth vm.tryStack) : NestedTries vm'.depth vm'.tryStack := by
  induction hsteps with
  | refl _ => exact h
  | head _ _ ih => exact ih (nestedTries_step h)

theorem nestedTries_start (fn : FnId) (env : Env W) :
    NestedTries (start fn env).depth (start fn env).tryStack := ⟨.nil, nofun⟩

end Vm

end Wqpl
