/-
# Tail calls preserve the program

The rewritten program reuses the frame of a tail call where the original one
keeps it and returns through it (`Below.ghost`: a frame that has nothing left
to do but to return). The two machines run in step otherwise
(`Matches.simulation`), and end alike, as long as the original one is not
stopped by the limit on the call depth and its tail calls have callees that
their tail form takes (`TailSafe`).
-/
import Wqpl.Compile.Tce
import Wqpl.Vm.Interface
import Wqpl.Vm.TryRegion

namespace Wqpl

variable {W : Type}

namespace Tce

/-- The frame of a try region in a machine whose frame lies at another depth. -/
def atDepth (depth : Nat) (frame : TryFrame) : TryFrame := { frame with callDepth := depth }

/-- A frame at the bottom runs code that is not rewritten; any other frame has
an activation. -/
def Grounded (table table' : FnTable) (code : FnId) (function : Option Activation)
    (callers : List (CallerFrame W)) : Prop :=
  (callers = [] → table' code = table code) ∧ (callers ≠ [] → function.isSome = true)

/-- What lies below the current frames: the callers and the try regions of the
original machine, and those of the rewritten one. -/
inductive Below (table table' : FnTable) :
    List (CallerFrame W) → List TryFrame → List (CallerFrame W) → List TryFrame → Prop
  | nil : Below table table' [] [] [] []
  /-- A frame of both, with its try regions. -/
  | real {cs ct : List (CallerFrame W)} {ts tt : List TryFrame} (frame : CallerFrame W)
    (regions : List TryFrame) : Below table table' cs ts ct tt →
      (∀ f ∈ regions, f.callDepth = cs.length) →
      Grounded table table' frame.code frame.function cs →
      Below table table' (frame :: cs) (regions ++ ts) (frame :: ct)
        (regions.map (atDepth ct.length) ++ tt)
  /-- A frame of the original machine that only has to return. -/
  | ghost {cs ct : List (CallerFrame W)} {ts tt : List TryFrame} (frame caller : CallerFrame W) :
    Below table table' cs ts ct tt →
      (table frame.code).instructions[frame.pc]? = some .return_ → frame.cont = .push →
      frame.moduleIdentity = none → cs.head? = some caller →
      caller.unpackDepth ≤ frame.unpackDepth → Below table table' (frame :: cs) ts ct tt

/-- States of the two machines that go on alike: the current frame and its try
regions are the same. -/
inductive Matches (table table' : FnTable) : Vm W → Vm W → Prop
  | mk {code : FnId} {pc : Nat} {data : Data W} {control : Control W}
    {cs ct : List (CallerFrame W)} {regions ts tt : List TryFrame} :
    (∀ f ∈ regions, f.callDepth = cs.length) → Below table table' cs ts ct tt →
      Grounded table table' code data.function cs →
      Matches table table' ⟨code, pc, data, cs, regions ++ ts, control⟩
        ⟨code, pc, data, ct, regions.map (atDepth ct.length) ++ tt, control⟩

/-! ### Below the current frame -/

section Below

variable {table table' : FnTable} {cs ct : List (CallerFrame W)} {ts tt : List TryFrame}

theorem Below.length_le (h : Below table table' cs ts ct tt) : ct.length ≤ cs.length := by
  induction h with
  | nil => exact Nat.le_refl 0
  | real _ _ _ _ _ ih => exact Nat.succ_le_succ ih
  | ghost _ _ _ _ _ _ _ _ ih => exact Nat.le_succ_of_le ih

theorem Below.nil_iff (h : Below table table' cs ts ct tt) : ct = [] ↔ cs = [] := by
  induction h with
  | nil => exact Iff.rfl
  | real _ _ _ _ _ _ => simp
  | ghost _ _ _ _ _ _ hhead _ ih =>
    rw [ih]
    constructor
    · rintro rfl
      cases hhead
    · intro h
      cases h

theorem Below.nil_try (h : Below table table' cs ts ct tt) (hcs : cs = []) : ts = [] ∧ tt = [] := by
  cases h with
  | nil => exact ⟨rfl, rfl⟩
  | real => cases hcs
  | ghost => cases hcs

/-- The try regions below belong to frames below. -/
theorem Below.depth_lt (h : Below table table' cs ts ct tt) :
    (∀ f ∈ ts, f.callDepth < cs.length) ∧ ∀ f ∈ tt, f.callDepth < ct.length := by
  induction h with
  | nil => exact ⟨fun f hf => (nomatch hf), fun f hf => (nomatch hf)⟩
  | @real cs ct ts tt frame regions _ hregions _ ih =>
    constructor
    · intro f hf
      rcases List.mem_append.mp hf with hf | hf
      · have := hregions f hf
        simp only [List.length_cons]
        omega
      · exact Nat.lt_succ_of_lt (ih.1 f hf)
    · intro f hf
      rcases List.mem_append.mp hf with hf | hf
      · obtain ⟨g, _, rfl⟩ := List.mem_map.mp hf
        exact Nat.lt_succ_self _
      · exact Nat.lt_succ_of_lt (ih.2 f hf)
  | ghost _ _ _ _ _ _ _ _ ih => exact ⟨fun f hf => Nat.lt_succ_of_lt (ih.1 f hf), ih.2⟩

end Below

/-! ### The same instruction -/

section Table

variable {table table' : FnTable}

theorem interface_table (hT : TailCallsRewritten table table') :
    SameInterface table table' := by
  intro fn
  rcases hT fn with h | h
  · exact ⟨(table fn).instructions, h⟩
  · exact ⟨_, h⟩

theorem length_table (hT : TailCallsRewritten table table') (fn : FnId) :
    (table' fn).instructions.length = (table fn).instructions.length := by
  rcases hT fn with h | h <;> rw [h]
  exact rewriteTailCallsFrom_length 0 _

/-- An instruction stays, or it is a call before a return. -/
theorem getElem?_table (hT : TailCallsRewritten table table') (fn : FnId) (pc : Nat) :
    (table' fn).instructions[pc]? = (table fn).instructions[pc]? ∨
      ∃ i i', (table fn).instructions[pc]? = some i ∧ (table' fn).instructions[pc]? = some i' ∧
        tailCallInstruction i = some i' ∧
        (table fn).instructions[pc + 1]? = some .return_ := by
  rcases hT fn with h | h
  · exact .inl (by rw [h])
  · rw [h]
    exact rewriteTailCallsFrom_getElem? 0 _ pc

end Table

/-! ### Moves of the current frame -/

section Moves

variable {table table' : FnTable} {s t : Vm W}

theorem Matches.update (h : Matches table table' s t) {pc : Nat} {d : Data W} {c : Control W}
    (hd : d.function.isSome = s.data.function.isSome) :
    Matches table table' { s with pc, data := d, control := c }
      { t with pc, data := d, control := c } := by
  cases h with
  | mk hregions hbelow hground =>
    exact .mk hregions hbelow ⟨hground.1, fun hcs => hd.trans (hground.2 hcs)⟩

theorem Matches.mapEnv (h : Matches table table' s t) (f : Env W → Env W) :
    Matches table table' (s.mapEnv f) (t.mapEnv f) := by
  cases h with
  | mk hregions hbelow hground => exact .mk hregions hbelow hground

theorem finishTryBoundary_eq_none {vm : Vm W} (h : ∀ f ∈ vm.tryStack, f.callDepth < vm.depth) :
    vm.finishTryBoundary = none := by
  unfold Vm.finishTryBoundary
  split
  next => rfl
  next frame rest htry =>
    rw [if_neg]
    rintro ⟨howns, _⟩
    have hlt := h frame (htry ▸ List.mem_cons_self ..)
    have heq := (of_decide_eq_true howns).1
    omega

theorem catchCurrentTryError_eq_none {ops : Ops W} {vm : Vm W} {e : WqErrorType}
    (h : ∀ f ∈ vm.tryStack, f.callDepth < vm.depth) : vm.catchCurrentTryError ops e = none := by
  unfold Vm.catchCurrentTryError
  split
  next => rfl
  next =>
    split
    next => rfl
    next frame rest htry =>
      rw [if_neg]
      intro howns
      have hlt := h frame (htry ▸ List.mem_cons_self ..)
      have heq := (of_decide_eq_true howns).1
      omega

theorem Matches.finishTryBoundary (h : Matches table table' s t) :
    (s.finishTryBoundary = none ∧ t.finishTryBoundary = none) ∨
      ∃ s' t', s.finishTryBoundary = some s' ∧ t.finishTryBoundary = some t' ∧
        Matches table table' s' t' := by
  cases h with
  | @mk code pc data control cs ct regions ts tt hregions hbelow hground =>
    cases regions with
    | nil =>
      exact .inl ⟨finishTryBoundary_eq_none hbelow.depth_lt.1,
        finishTryBoundary_eq_none hbelow.depth_lt.2⟩
    | cons f regions =>
      have hf : f.callDepth = cs.length := hregions f (List.mem_cons_self ..)
      by_cases hends : f.code = code ∧ f.endPc ≤ pc
      · right
        refine ⟨_, _, if_pos ⟨decide_eq_true ⟨hf, hends.1⟩, hends.2⟩,
          if_pos ⟨decide_eq_true ⟨rfl, hends.1⟩, hends.2⟩, ?_⟩
        exact .mk (fun g hg => hregions g (List.mem_cons_of_mem _ hg)) hbelow hground
      · left
        constructor
        · refine if_neg ?_
          rintro ⟨howns, hend⟩
          exact hends ⟨(of_decide_eq_true howns).2, hend⟩
        · refine if_neg ?_
          rintro ⟨howns, hend⟩
          exact hends ⟨(of_decide_eq_true howns).2, hend⟩

theorem Matches.catchCurrentTryError (h : Matches table table' s t) (ops : Ops W)
    (e : WqErrorType) :
    (s.catchCurrentTryError ops e = none ∧ t.catchCurrentTryError ops e = none) ∨
      ∃ s' t', s.catchCurrentTryError ops e = some s' ∧ t.catchCurrentTryError ops e = some t' ∧
        Matches table table' s' t' := by
  by_cases he : e = .vm
  · exact .inl ⟨if_pos he, if_pos he⟩
  cases h with
  | @mk code pc data control cs ct regions ts tt hregions hbelow hground =>
    cases regions with
    | nil =>
      exact .inl ⟨catchCurrentTryError_eq_none hbelow.depth_lt.1,
        catchCurrentTryError_eq_none hbelow.depth_lt.2⟩
    | cons f regions =>
      have hf : f.callDepth = cs.length := hregions f (List.mem_cons_self ..)
      by_cases hcode : f.code = code
      · right
        refine ⟨_, _, (if_neg he).trans (if_pos (decide_eq_true ⟨hf, hcode⟩)),
          (if_neg he).trans (if_pos (decide_eq_true ⟨rfl, hcode⟩)), ?_⟩
        exact .mk (fun g hg => hregions g (List.mem_cons_of_mem _ hg)) hbelow hground
      · left
        constructor
        · refine (if_neg he).trans (if_neg fun howns => ?_)
          exact hcode (of_decide_eq_true howns).2
        · refine (if_neg he).trans (if_neg fun howns => ?_)
          exact hcode (of_decide_eq_true howns).2

theorem Matches.openTry (hT : TailCallsRewritten table table') (h : Matches table table' s t)
    (len : Nat) : Matches table table' (s.openTry table len) (t.openTry table' len) := by
  unfold Vm.openTry
  cases h with
  | @mk code pc data control cs ct regions ts tt hregions hbelow hground =>
    dsimp only
    rw [length_table hT]
    split
    next =>
      refine @Matches.mk W table table' code pc _ control cs ct (_ :: regions) ts tt ?_ hbelow
        hground
      intro f hf
      rcases List.mem_cons.mp hf with rfl | hf
      · rfl
      · exact hregions f hf
    next => exact .mk hregions hbelow hground

/-! ### Calls -/

/-- Both machines enter a call, or both fail. -/
theorem Matches.enterSpec {ops : Ops W} (hT : TailCallsRewritten table table')
    (h : Matches table table' s t) {fn : FnId} {captures : List CellId} {callee : Value}
    {argc : Nat} {identity : Option String} {cont : CallCont W}
    (hdepth : ∀ b, bindArguments (table fn) argc s.data.pendingNamedMeta s.data.stack = .ok b →
      s.depth + 1 ≤ ops.maxCallDepth) :
    (∃ e s' t', s.enterSpec table ops fn captures callee argc identity cont = .error (e, s') ∧
        t.enterSpec table' ops fn captures callee argc identity cont = .error (e, t') ∧
        Matches table table' s' t') ∨
      ∃ s' t', s.enterSpec table ops fn captures callee argc identity cont = .ok s' ∧
        t.enterSpec table' ops fn captures callee argc identity cont = .ok t' ∧
        Matches table table' s' t' := by
  cases h with
  | @mk code pc data control cs ct regions ts tt hregions hbelow hground =>
    unfold Vm.enterSpec
    dsimp only
    rw [(interface_table hT).bindArguments]
    cases hbind : bindArguments (table fn) argc data.pendingNamedMeta data.stack with
    | error e => exact .inl ⟨_, _, _, rfl, rfl, .mk hregions hbelow hground⟩
    | ok b =>
      obtain ⟨locals, stack⟩ := b
      have hle : cs.length + 1 ≤ ops.maxCallDepth := hdepth _ hbind
      have hle' : ct.length + 1 ≤ ops.maxCallDepth := by
        have := hbelow.length_le
        omega
      refine .inr ⟨_, _, if_neg (Nat.not_lt.mpr hle), if_neg (Nat.not_lt.mpr hle'), ?_⟩
      exact @Matches.mk W table table' fn 0 _ .running _ _ [] _ _
        (fun f hf => (nomatch hf)) (.real _ regions hbelow hregions hground)
        ⟨fun h => (nomatch h), fun _ => rfl⟩

end Moves

/-! ### Returns through frames that only return -/

section Returns

theorem discardTryFrames_append {n : Nat} {regions ts : List TryFrame}
    (hregions : ∀ f ∈ regions, f.callDepth = n) (hts : ∀ f ∈ ts, f.callDepth < n) (d : Data W) :
    Vm.discardTryFrames n (regions ++ ts) d = (ts, regions.foldl Vm.restoreTryState d) := by
  induction regions generalizing d with
  | nil =>
    cases ts with
    | nil => rfl
    | cons f ts => exact if_neg (Nat.ne_of_lt (hts f (List.mem_cons_self ..)))
  | cons f regions ih =>
    have hf : f.callDepth = n := hregions f (List.mem_cons_self ..)
    exact (if_pos hf).trans (ih (fun g hg => hregions g (List.mem_cons_of_mem _ hg)) _)

theorem depth_atDepth (n : Nat) (regions : List TryFrame) :
    ∀ f ∈ regions.map (atDepth n), f.callDepth = n := by
  intro f hf
  obtain ⟨g, _, rfl⟩ := List.mem_map.mp hf
  rfl

theorem foldl_atDepth (n : Nat) (regions : List TryFrame) (d : Data W) :
    (regions.map (atDepth n)).foldl Vm.restoreTryState d = regions.foldl Vm.restoreTryState d := by
  rw [List.foldl_map]
  rfl

/-- The caller's frame again. -/
def restored (d : Data W) (ts : List TryFrame) (frame : CallerFrame W)
    (rest : List (CallerFrame W)) (control : Control W) : Vm W where
  code := frame.code
  pc := frame.pc
  data := { d with
    stack := frame.stack
    function := frame.function
    unpackFrames := truncate frame.unpackDepth d.unpackFrames }
  callers := rest
  tryStack := ts
  control := control

/-- The caller after a return. -/
def returned (d : Data W) (ts : List TryFrame) (frame : CallerFrame W)
    (rest : List (CallerFrame W)) (v : Value) : Vm W :=
  ((restored d ts frame rest .running).finishModuleOf frame v).resume frame.cont v

/-- The caller after an error. -/
def thrown (d : Data W) (ts : List TryFrame) (frame : CallerFrame W)
    (rest : List (CallerFrame W)) (e : WqErrorType) : Vm W :=
  ((restored d ts frame rest (.unwinding e)).failModuleOf frame).resumeError frame.cont e

variable {code : FnId} {pc : Nat} {data : Data W} {regions ts : List TryFrame}
  {frame : CallerFrame W} {rest : List (CallerFrame W)}

theorem returnFrame_eq (hregions : ∀ f ∈ regions, f.callDepth = rest.length + 1)
    (hts : ∀ f ∈ ts, f.callDepth < rest.length + 1) :
    (⟨code, pc, data, frame :: rest, regions ++ ts, .running⟩ : Vm W).returnFrame =
      returned (regions.foldl Vm.restoreTryState { data with stack := data.stack.tail }) ts frame
        rest (data.stack.headD Value.emptyList) := by
  unfold Vm.returnFrame Vm.discardCurrentTryFrames Vm.depth
  dsimp only
  rw [show (frame :: rest).length = rest.length + 1 from rfl, discardTryFrames_append hregions hts]
  rfl

theorem unwind_eq {ops : Ops W} {e : WqErrorType}
    (hcatch : (⟨code, pc, data, frame :: rest, regions ++ ts, .unwinding e⟩ :
      Vm W).catchCurrentTryError ops e = none)
    (hregions : ∀ f ∈ regions, f.callDepth = rest.length + 1)
    (hts : ∀ f ∈ ts, f.callDepth < rest.length + 1) :
    (⟨code, pc, data, frame :: rest, regions ++ ts, .unwinding e⟩ : Vm W).unwind ops e =
      thrown (regions.foldl Vm.restoreTryState data) ts frame rest e := by
  unfold Vm.unwind
  rw [hcatch]
  unfold Vm.discardCurrentTryFrames Vm.depth
  dsimp only
  rw [show (frame :: rest).length = rest.length + 1 from rfl, discardTryFrames_append hregions hts]
  rfl

theorem returnFrame_bottom (hregions : ∀ f ∈ regions, f.callDepth = 0) :
    (⟨code, pc, data, [], regions ++ [], .running⟩ : Vm W).returnFrame =
      ⟨code, pc, regions.foldl Vm.restoreTryState { data with stack := data.stack.tail }, [], [],
        .halted (.ok (data.stack.headD Value.emptyList))⟩ := by
  have hdiscard := discardTryFrames_append hregions (fun _ hf => absurd hf List.not_mem_nil)
    { data with stack := data.stack.tail }
  unfold Vm.returnFrame Vm.discardCurrentTryFrames Vm.depth
  dsimp only
  rw [show ([] : List (CallerFrame W)).length = 0 from rfl, hdiscard]

theorem unwind_bottom {ops : Ops W} {e : WqErrorType}
    (hcatch : (⟨code, pc, data, [], regions ++ [], .unwinding e⟩ :
      Vm W).catchCurrentTryError ops e = none) (hregions : ∀ f ∈ regions, f.callDepth = 0) :
    (⟨code, pc, data, [], regions ++ [], .unwinding e⟩ : Vm W).unwind ops e =
      ⟨code, pc, regions.foldl Vm.restoreTryState data, [], [], .halted (.error e)⟩ := by
  have hdiscard := discardTryFrames_append hregions (fun _ hf => absurd hf List.not_mem_nil) data
  unfold Vm.unwind
  rw [hcatch]
  unfold Vm.discardCurrentTryFrames Vm.depth
  dsimp only
  rw [show ([] : List (CallerFrame W)).length = 0 from rfl, hdiscard]

/-- Unpack frames that a frame below does not keep do not matter. -/
theorem returned_truncate {d : Data W} {n : Nat} (h : frame.unpackDepth ≤ n)
    (function : Option Activation) (stack : List Value) (v : Value) :
    returned { d with stack, function, unpackFrames := truncate n d.unpackFrames } ts frame rest v =
      returned d ts frame rest v := by
  unfold returned restored
  rw [truncate_truncate h]

theorem thrown_truncate {d : Data W} {n : Nat} (h : frame.unpackDepth ≤ n)
    (function : Option Activation) (stack : List Value) (e : WqErrorType) :
    thrown { d with stack, function, unpackFrames := truncate n d.unpackFrames } ts frame rest e =
      thrown d ts frame rest e := by
  unfold thrown restored
  rw [truncate_truncate h]

variable {table table' : FnTable} {cs ct : List (CallerFrame W)} {tt : List TryFrame}

theorem Matches.restored (hregions : ∀ f ∈ regions, f.callDepth = cs.length)
    (hbelow : Below table table' cs ts ct tt)
    (hground : Grounded table table' frame.code frame.function cs) (d : Data W)
    (control : Control W) :
    Matches table table' (restored d (regions ++ ts) frame cs control)
      (restored d (regions.map (atDepth ct.length) ++ tt) frame ct control) :=
  .mk hregions hbelow hground

theorem Matches.returned (hregions : ∀ f ∈ regions, f.callDepth = cs.length)
    (hbelow : Below table table' cs ts ct tt)
    (hground : Grounded table table' frame.code frame.function cs) (d : Data W) (v : Value) :
    Matches table table' (returned d (regions ++ ts) frame cs v)
      (returned d (regions.map (atDepth ct.length) ++ tt) frame ct v) := by
  obtain ⟨code, pc, stack, function, moduleIdentity, unpackDepth, cont⟩ := frame
  cases moduleIdentity <;> cases cont <;> exact .mk hregions hbelow hground

theorem Matches.thrown (hregions : ∀ f ∈ regions, f.callDepth = cs.length)
    (hbelow : Below table table' cs ts ct tt)
    (hground : Grounded table table' frame.code frame.function cs) (d : Data W)
    (e : WqErrorType) :
    Matches table table' (thrown d (regions ++ ts) frame cs e)
      (thrown d (regions.map (atDepth ct.length) ++ tt) frame ct e) := by
  obtain ⟨code, pc, stack, function, moduleIdentity, unpackDepth, cont⟩ := frame
  cases moduleIdentity <;> cases cont <;> exact .mk hregions hbelow hground

/-- A frame at a return. -/
theorem step_return {ops : Ops W} (hreturn : (table code).instructions[pc]? = some .return_)
    (hts : ∀ f ∈ ts, f.callDepth < rest.length + 1) :
    Vm.step table ops ⟨code, pc, data, frame :: rest, ts, .running⟩ =
      Tce.returned { data with stack := data.stack.tail } ts frame rest
        (data.stack.headD Value.emptyList) := by
  have hnone : (⟨code, pc, data, frame :: rest, ts, .running⟩ : Vm W).finishTryBoundary = none :=
    finishTryBoundary_eq_none hts
  have hframe := @returnFrame_eq W code (pc + 1) data [] ts frame rest (fun _ hf => (nomatch hf)) hts
  show Vm.stepRunning table ops ⟨code, pc, data, frame :: rest, ts, .running⟩ = _
  unfold Vm.stepRunning
  rw [hnone]
  dsimp only
  rw [hreturn]
  exact hframe

/-- A frame that an error goes through. -/
theorem step_unwinding {ops : Ops W} {e : WqErrorType}
    (hts : ∀ f ∈ ts, f.callDepth < rest.length + 1) :
    Vm.step table ops ⟨code, pc, data, frame :: rest, ts, .unwinding e⟩ =
      Tce.thrown data ts frame rest e :=
  @unwind_eq W code pc data [] ts frame rest ops e (catchCurrentTryError_eq_none hts)
    (fun _ hf => (nomatch hf)) hts

theorem exists_cons_of_head? {caller : CallerFrame W} (h : cs.head? = some caller) :
    ∃ rest, cs = caller :: rest := by
  cases cs with
  | nil => cases h
  | cons c rest =>
    cases h
    exact ⟨rest, rfl⟩

/-- A value that comes back to a frame of the original machine gets to the frame
that the rewritten machine gives it to. -/
theorem Below.returned (ops : Ops W) (h : Below table table' cs ts ct tt)
    (hcs : cs = frame :: rest) (d : Data W) (v : Value) :
    ∃ n s' frame' rest', (Vm.machine table ops).Steps n (Tce.returned d ts frame rest v) s' ∧
      ct = frame' :: rest' ∧ Matches table table' s' (Tce.returned d tt frame' rest' v) := by
  induction h generalizing frame rest with
  | nil => cases hcs
  | real frame regions hbelow hregions hground _ =>
    cases hcs
    exact ⟨0, _, _, _, .refl _, rfl, Matches.returned hregions hbelow hground d v⟩
  | @ghost cs ct ts tt frame caller hbelow hreturn hcont hmodule hhead hle ih =>
    cases hcs
    obtain ⟨rest, rfl⟩ := exists_cons_of_head? hhead
    obtain ⟨n, s', frame', rest', hsteps, hct, hmatches⟩ := ih rfl
    have hghost : Tce.returned d ts frame (caller :: rest) v =
        ⟨frame.code, frame.pc, { d with
            stack := v :: frame.stack
            function := frame.function
            unpackFrames := truncate frame.unpackDepth d.unpackFrames },
          caller :: rest, ts, .running⟩ := by
      unfold Tce.returned Vm.finishModuleOf
      rw [hmodule, hcont]
      rfl
    rw [hghost]
    refine ⟨n + 1, s', frame', rest', .head rfl ?_, hct, hmatches⟩
    rw [show (Vm.machine table ops).step = Vm.step table ops from rfl,
      step_return hreturn hbelow.depth_lt.1]
    exact (returned_truncate hle frame.function frame.stack v).symm ▸ hsteps

/-- The same for an error. -/
theorem Below.thrown (ops : Ops W) (h : Below table table' cs ts ct tt)
    (hcs : cs = frame :: rest) (d : Data W) (e : WqErrorType) :
    ∃ n s' frame' rest', (Vm.machine table ops).Steps n (Tce.thrown d ts frame rest e) s' ∧
      ct = frame' :: rest' ∧ Matches table table' s' (Tce.thrown d tt frame' rest' e) := by
  induction h generalizing frame rest with
  | nil => cases hcs
  | real frame regions hbelow hregions hground _ =>
    cases hcs
    exact ⟨0, _, _, _, .refl _, rfl, Matches.thrown hregions hbelow hground d e⟩
  | @ghost cs ct ts tt frame caller hbelow hreturn hcont hmodule hhead hle ih =>
    cases hcs
    obtain ⟨rest, rfl⟩ := exists_cons_of_head? hhead
    obtain ⟨n, s', frame', rest', hsteps, hct, hmatches⟩ := ih rfl
    have hghost : Tce.thrown d ts frame (caller :: rest) e =
        ⟨frame.code, frame.pc, { d with
            stack := frame.stack
            function := frame.function
            unpackFrames := truncate frame.unpackDepth d.unpackFrames },
          caller :: rest, ts, .unwinding e⟩ := by
      unfold Tce.thrown Vm.failModuleOf
      rw [hmodule, hcont]
      rfl
    rw [hghost]
    refine ⟨n + 1, s', frame', rest', .head rfl ?_, hct, hmatches⟩
    rw [show (Vm.machine table ops).step = Vm.step table ops from rfl,
      step_unwinding hbelow.depth_lt.1]
    exact (thrown_truncate hle frame.function frame.stack e).symm ▸ hsteps

end Returns

/-! ### The limit on the call depth -/

section Depth

variable (ops : Ops W) (n : Nat)

def withMaxCallDepth : Ops W := { ops with maxCallDepth := n }

theorem callableRun_withMaxCallDepth (args : List Value) : ∀ (expr : CallableExpr) (env : Env W),
    Exec.callableRun (withMaxCallDepth ops n) args expr env = Exec.callableRun ops args expr env
  | .const v, env => rfl
  | .call v, env => rfl
  | .unary op operand, env => by
    unfold Exec.callableRun
    rw [callableRun_withMaxCallDepth args operand env]
    rfl
  | .binary op left right, env => by
    unfold Exec.callableRun
    rw [callableRun_withMaxCallDepth args left env]
    congr 1
    funext r env
    cases r with
    | error e => rfl
    | ok l =>
      dsimp only
      rw [callableRun_withMaxCallDepth args right env]
      rfl

theorem execPlain_withMaxCallDepth (table : FnTable) (i : Instruction) :
    Exec.execPlain (withMaxCallDepth ops n) table i = Exec.execPlain ops table i := by
  have hlifted : Exec.callLifted (withMaxCallDepth ops n) = Exec.callLifted ops := by
    funext expr argc
    unfold Exec.callLifted
    simp only [callableRun_withMaxCallDepth]
  cases i <;> first
    | rfl
    | simp only [Exec.execPlain, Exec.dispatchLoadedUserCall, Exec.dispatchAnonCall,
        Exec.dispatchPostfix, Exec.dispatchUserValue, hlifted]
      rfl

/-- No instruction by itself looks at the limit. -/
theorem exec_withMaxCallDepth (table : FnTable) (i : Instruction) :
    Exec.exec (withMaxCallDepth ops n) table i = Exec.exec ops table i := by
  unfold Exec.exec
  simp only [execPlain_withMaxCallDepth]

/-- The limit does not refuse the next step: with room for one more call it
would be the same. -/
def WithinDepth (table : FnTable) (s : Vm W) : Prop :=
  s.step table (withMaxCallDepth ops (s.depth + 1)) = s.step table ops

variable {ops} {table : FnTable} {s : Vm W} {fn : FnId} {captures : List CellId} {callee : Value}
  {argc : Nat} {identity : Option String} {cont : CallCont W} {b : List Slot × List Value}

theorem enterSpec_raised
    (hbind : bindArguments (table fn) argc s.data.pendingNamedMeta s.data.stack = .ok b) :
    ∃ s', s.enterSpec table (withMaxCallDepth ops (s.depth + 1)) fn captures callee argc identity
      cont = .ok s' ∧ s'.control = .running := by
  unfold Vm.enterSpec
  rw [hbind]
  exact ⟨_, if_neg (Nat.lt_irrefl _), rfl⟩

theorem enterSpec_refused (hlt : ops.maxCallDepth < s.depth + 1)
    (hbind : bindArguments (table fn) argc s.data.pendingNamedMeta s.data.stack = .ok b) :
    ∃ s', s.enterSpec table ops fn captures callee argc identity cont =
      .error (.recursion, s') := by
  unfold Vm.enterSpec
  rw [hbind]
  exact ⟨_, if_pos hlt⟩

theorem depth_of_enterCall (hcallee : callee.asUserFunction = some (fn, captures))
    (heq : s.enterCall table (withMaxCallDepth ops (s.depth + 1)) callee argc =
      s.enterCall table ops callee argc)
    (hbind : bindArguments (table fn) argc s.data.pendingNamedMeta s.data.stack = .ok b) :
    s.depth + 1 ≤ ops.maxCallDepth := by
  by_contra hlt
  have hraised : ∃ s', s.enterSpec table (withMaxCallDepth ops (s.depth + 1)) fn captures callee
      argc none .push = .ok s' ∧ s'.control = .running := enterSpec_raised hbind
  have hrefused : ∃ s', s.enterSpec table ops fn captures callee argc none .push =
      .error (.recursion, s') := enterSpec_refused (Nat.lt_of_not_le hlt) hbind
  obtain ⟨s₁, h₁, hrun⟩ := hraised
  obtain ⟨s₂, h₂⟩ := hrefused
  unfold Vm.enterCall at heq
  simp only [hcallee, h₁, h₂] at heq
  rw [heq] at hrun
  cases hrun

/-- A callback of a user function. -/
theorem callBack_eq (ops : Ops W) {args : BuiltinFnArgs}
    {k : WqResult Value → Env W → BuiltinRun W}
    (hcallee : callee.asUserFunction = some (fn, captures)) :
    s.callBack table ops callee args k =
      match (s.pushArgs args).enterSpec table ops fn captures callee
          (args.pos.length + args.named.length) none (.builtin s.data.pendingNamedMeta k) with
      | .ok vm => vm
      | .error (e, _) => { s with control := .builtin (k (.error e) s.data.env) } := by
  cases callee with
  | compiledFunction fn' =>
    cases hcallee
    rfl
  | closure fn' captured =>
    cases hcallee
    rfl
  | _ => cases hcallee

theorem depth_of_callBack {args : BuiltinFnArgs} {k : WqResult Value → Env W → BuiltinRun W}
    (hcallee : callee.asUserFunction = some (fn, captures))
    (heq : s.callBack table (withMaxCallDepth ops (s.depth + 1)) callee args k =
      s.callBack table ops callee args k)
    (hbind : bindArguments (table fn) (args.pos.length + args.named.length)
      (s.pushArgs args).data.pendingNamedMeta (s.pushArgs args).data.stack = .ok b) :
    s.depth + 1 ≤ ops.maxCallDepth := by
  by_contra hlt
  have hraised : ∃ s', (s.pushArgs args).enterSpec table (withMaxCallDepth ops (s.depth + 1)) fn
      captures callee (args.pos.length + args.named.length) none
      (.builtin s.data.pendingNamedMeta k) = .ok s' ∧ s'.control = .running :=
    enterSpec_raised hbind
  have hrefused : ∃ s', (s.pushArgs args).enterSpec table ops fn captures callee
      (args.pos.length + args.named.length) none (.builtin s.data.pendingNamedMeta k) =
        .error (.recursion, s') := enterSpec_refused (Nat.lt_of_not_le hlt) hbind
  obtain ⟨s₁, h₁, hrun⟩ := hraised
  obtain ⟨s₂, h₂⟩ := hrefused
  rw [callBack_eq _ hcallee, callBack_eq _ hcallee, h₁, h₂] at heq
  dsimp only at heq
  rw [heq] at hrun
  cases hrun

theorem depth_of_importModule {data : ImportData} {name : String}
    (hresolve : ops.resolveModule data s.data.env = .ok name)
    (hmodule : s.data.env.modules name = none)
    (hcompile : ops.compileModule name (s.data.env.setModule name (some .loading)) = .ok fn)
    (heq : s.importModule table (withMaxCallDepth ops (s.depth + 1)) data =
      s.importModule table ops data)
    (hbind : bindArguments (table fn) 0 s.data.pendingNamedMeta s.data.stack = .ok b) :
    s.depth + 1 ≤ ops.maxCallDepth := by
  by_contra hlt
  have hraised : ∃ s', (s.mapEnv fun env => env.setModule name (some .loading)).enterSpec table
      (withMaxCallDepth ops (s.depth + 1)) fn [] (.compiledFunction fn) 0 (some name) .push =
        .ok s' ∧ s'.control = .running := enterSpec_raised hbind
  have hrefused : ∃ s', (s.mapEnv fun env => env.setModule name (some .loading)).enterSpec table
      ops fn [] (.compiledFunction fn) 0 (some name) .push = .error (.recursion, s') :=
    enterSpec_refused (Nat.lt_of_not_le hlt) hbind
  obtain ⟨s₁, h₁, hrun⟩ := hraised
  obtain ⟨s₂, h₂⟩ := hrefused
  have hresolve' : (withMaxCallDepth ops (s.depth + 1)).resolveModule data s.data.env = .ok name :=
    hresolve
  have hcompile' : (withMaxCallDepth ops (s.depth + 1)).compileModule name
      (s.mapEnv fun env => env.setModule name (some .loading)).data.env = .ok fn := hcompile
  have hcompile : ops.compileModule name
      (s.mapEnv fun env => env.setModule name (some .loading)).data.env = .ok fn := hcompile
  unfold Vm.importModule at heq
  simp only [hresolve, hresolve', hmodule, hcompile, hcompile', h₁, h₂] at heq
  rw [heq] at hrun
  cases hrun

end Depth

/-! ### Steps -/

section Steps

variable {table table' : FnTable} {ops : Ops W} {s t : Vm W}

theorem Matches.code (h : Matches table table' s t) : t.code = s.code := by
  cases h
  rfl

theorem Matches.pc (h : Matches table table' s t) : t.pc = s.pc := by
  cases h
  rfl

theorem Matches.data (h : Matches table table' s t) : t.data = s.data := by
  cases h
  rfl

theorem Matches.control (h : Matches table table' s t) : t.control = s.control := by
  cases h
  rfl

/-- The same change of data and control. -/
theorem Matches.put (h : Matches table table' s t) {d : Data W} {c : Control W}
    (hd : d.function.isSome = s.data.function.isSome) :
    Matches table table' { s with data := d, control := c } { t with data := d, control := c } := by
  cases h with
  | mk hregions hbelow hground =>
    exact .mk hregions hbelow ⟨hground.1, fun hcs => hd.trans (hground.2 hcs)⟩

/-- The same change of control alone. -/
theorem Matches.setControl (h : Matches table table' s t) (c : Control W) :
    Matches table table' { s with control := c } { t with control := c } := by
  cases h with
  | mk hregions hbelow hground => exact .mk hregions hbelow hground

theorem Matches.pushArgs (h : Matches table table' s t) (args : BuiltinFnArgs) :
    Matches table table' (s.pushArgs args) (t.pushArgs args) := by
  cases h with
  | mk hregions hbelow hground => exact .mk hregions hbelow hground

theorem Matches.enterCall (hT : TailCallsRewritten table table') (h : Matches table table' s t)
    {callee : Value} {argc : Nat}
    (hwithin : s.enterCall table (withMaxCallDepth ops (s.depth + 1)) callee argc =
      s.enterCall table ops callee argc) :
    Matches table table' (s.enterCall table ops callee argc) (t.enterCall table' ops callee argc) := by
  unfold Vm.enterCall
  cases hcallee : callee.asUserFunction with
  | none => exact h.setControl _
  | some target =>
    obtain ⟨fn, captures⟩ := target
    dsimp only
    rcases h.enterSpec hT (fun b hbind => depth_of_enterCall hcallee hwithin hbind) with
      ⟨e, s', t', hs, ht, hmatches⟩ | ⟨s', t', hs, ht, hmatches⟩
    · rw [hs, ht]
      exact hmatches.setControl _
    · rw [hs, ht]
      exact hmatches

theorem Matches.importModule (hT : TailCallsRewritten table table')
    (h : Matches table table' s t) {data : ImportData}
    (hwithin : s.importModule table (withMaxCallDepth ops (s.depth + 1)) data =
      s.importModule table ops data) :
    Matches table table' (s.importModule table ops data) (t.importModule table' ops data) := by
  have hdepth := @depth_of_importModule W ops table s
  unfold Vm.importModule
  rw [h.data]
  cases hresolve : ops.resolveModule data s.data.env with
  | error e => exact h.put rfl
  | ok name =>
    dsimp only
    cases hmodule : s.data.env.modules name with
    | some entry =>
      cases entry with
      | loading => exact h.put rfl
      | loaded v =>
        dsimp only
        rw [h.control]
        exact h.put rfl
    | none =>
      dsimp only
      have hloading := h.mapEnv fun env => env.setModule name (some .loading)
      rw [hloading.data]
      cases hcompile : ops.compileModule name
          (s.mapEnv fun env => env.setModule name (some .loading)).data.env with
      | error e => exact (hloading.mapEnv _).setControl _
      | ok fn =>
        dsimp only
        rcases hloading.enterSpec hT (fun b hbind =>
            hdepth hresolve hmodule hcompile hwithin hbind) with
          ⟨e, s', t', hs, ht, hmatches⟩ | ⟨s', t', hs, ht, hmatches⟩
        · rw [hs, ht]
          exact (hmatches.mapEnv _).setControl _
        · rw [hs, ht]
          exact hmatches

theorem Matches.callBack (hT : TailCallsRewritten table table') (h : Matches table table' s t)
    {f : Value} {args : BuiltinFnArgs} {k : WqResult Value → Env W → BuiltinRun W}
    (hwithin : s.callBack table (withMaxCallDepth ops (s.depth + 1)) f args k =
      s.callBack table ops f args k) :
    Matches table table' (s.callBack table ops f args k) (t.callBack table' ops f args k) := by
  cases hcallee : f.asUserFunction with
  | some target =>
    obtain ⟨fn, captures⟩ := target
    rw [callBack_eq ops hcallee, callBack_eq ops hcallee, h.data]
    have hdepth : ∀ b, bindArguments (table fn) (args.pos.length + args.named.length)
        (s.pushArgs args).data.pendingNamedMeta (s.pushArgs args).data.stack = .ok b →
        s.depth + 1 ≤ ops.maxCallDepth := fun b hbind => depth_of_callBack hcallee hwithin hbind
    rcases (h.pushArgs args).enterSpec hT hdepth with
      ⟨e, s', t', hs, ht, _⟩ | ⟨s', t', hs, ht, hmatches⟩
    · rw [hs, ht]
      exact h.put rfl
    · rw [hs, ht]
      exact hmatches
  | none =>
    unfold Vm.callBack
    rw [h.data, (interface_table hT).isMain]
    split
    next => exact h.put rfl
    next => exact h.put rfl
    next =>
      split
      next => exact h.put rfl
      next => exact h.put rfl
    next => exact h.put rfl
    next =>
      rw [hcallee]
      exact h.put rfl

theorem Matches.stepBuiltin (hT : TailCallsRewritten table table') (h : Matches table table' s t)
    {run : BuiltinRun W} (hwithin : s.stepBuiltin table (withMaxCallDepth ops (s.depth + 1)) run =
      s.stepBuiltin table ops run) :
    Matches table table' (s.stepBuiltin table ops run) (t.stepBuiltin table' ops run) := by
  cases run with
  | done res env =>
    cases res with
    | ok v =>
      unfold Vm.stepBuiltin
      rw [h.data]
      exact h.put rfl
    | error e => exact (h.mapEnv fun _ => env).setControl _
  | call f args env k => exact (h.mapEnv fun _ => env).callBack hT hwithin

/-- The bottom frames of both, without try regions. -/
theorem bottom {code : FnId} {pc : Nat} {d d' : Data W} {c : Control W}
    (hground : Grounded table table' code d.function ([] : List (CallerFrame W))) :
    Matches table table' (⟨code, pc, d', [], [], c⟩ : Vm W) ⟨code, pc, d', [], [], c⟩ :=
  @Matches.mk W table table' code pc d' c [] [] [] [] [] (fun _ hf => absurd hf List.not_mem_nil)
    .nil ⟨hground.1, fun h => absurd rfl h⟩

/-- The current frame returns: to a frame of both, through those of the original
machine that only return. -/
theorem Matches.returnFrame (h : Matches table table' s t) (hrun : s.control = .running) :
    ∃ n s', (Vm.machine table ops).Steps n s.returnFrame s' ∧
      Matches table table' s' t.returnFrame := by
  cases h with
  | @mk code pc data control cs ct regions ts tt hregions hbelow hground =>
    obtain rfl : control = .running := hrun
    cases cs with
    | nil =>
      obtain rfl := hbelow.nil_iff.mpr rfl
      obtain ⟨rfl, rfl⟩ := hbelow.nil_try rfl
      have hregions' : ∀ f ∈ regions.map (atDepth ([] : List (CallerFrame W)).length),
          f.callDepth = 0 := depth_atDepth 0 regions
      rw [returnFrame_bottom hregions, returnFrame_bottom hregions', foldl_atDepth]
      exact ⟨0, _, .refl _, bottom hground⟩
    | cons frame rest =>
      have hlt := hbelow.depth_lt
      rw [returnFrame_eq hregions hlt.1]
      obtain ⟨n, s', frame', rest', hsteps, rfl, hmatches⟩ := hbelow.returned ops rfl
        (regions.foldl Vm.restoreTryState { data with stack := data.stack.tail })
        (data.stack.headD Value.emptyList)
      refine ⟨n, s', hsteps, ?_⟩
      have hregions' : ∀ f ∈ regions.map (atDepth (frame' :: rest').length),
          f.callDepth = rest'.length + 1 := depth_atDepth _ regions
      rw [returnFrame_eq hregions' hlt.2, foldl_atDepth]
      exact hmatches

/-- An error is caught by both, or goes through the current frame. -/
theorem Matches.unwind (h : Matches table table' s t) {e : WqErrorType}
    (hcontrol : s.control = .unwinding e) :
    ∃ n s', (Vm.machine table ops).Steps n (s.unwind ops e) s' ∧
      Matches table table' s' (t.unwind ops e) := by
  rcases h.catchCurrentTryError ops e with ⟨hs, ht⟩ | ⟨s', t', hs, ht, hmatches⟩
  · cases h with
    | @mk code pc data control cs ct regions ts tt hregions hbelow hground =>
      obtain rfl : control = .unwinding e := hcontrol
      cases cs with
      | nil =>
        obtain rfl := hbelow.nil_iff.mpr rfl
        obtain ⟨rfl, rfl⟩ := hbelow.nil_try rfl
        have hregions' : ∀ f ∈ regions.map (atDepth ([] : List (CallerFrame W)).length),
            f.callDepth = 0 := depth_atDepth 0 regions
        rw [unwind_bottom hs hregions, unwind_bottom ht hregions', foldl_atDepth]
        exact ⟨0, _, .refl _, bottom hground⟩
      | cons frame rest =>
        have hlt := hbelow.depth_lt
        obtain ⟨n, s', frame', rest', hsteps, rfl, hmatches⟩ := hbelow.thrown ops rfl
          (regions.foldl Vm.restoreTryState data) e
        have hregions' : ∀ f ∈ regions.map (atDepth (frame' :: rest').length),
            f.callDepth = rest'.length + 1 := depth_atDepth _ regions
        rw [unwind_eq hs hregions hlt.1, unwind_eq ht hregions' hlt.2, foldl_atDepth]
        exact ⟨n, s', hsteps, hmatches⟩
  · refine ⟨0, s', ?_, ?_⟩
    · rw [Vm.unwind, hs]
      exact .refl _
    · rw [Vm.unwind, ht]
      exact hmatches

theorem Matches.setPc (h : Matches table table' s t) (pc : Nat) :
    Matches table table' { s with pc } { t with pc } := by
  cases h with
  | mk hregions hbelow hground => exact .mk hregions hbelow hground

/-- Both machines go on alike after an instruction. -/
theorem Matches.follow (hT : TailCallsRewritten table table') (h : Matches table table' s t)
    (hrun : s.control = .running) {flow : Flow W} (htail : ∀ callee argc, flow ≠ .tail callee argc)
    (hwithin : s.follow table (withMaxCallDepth ops (s.depth + 1)) flow =
      s.follow table ops flow) :
    ∃ n s', (Vm.machine table ops).Steps n (s.follow table ops flow) s' ∧
      Matches table table' s' (t.follow table' ops flow) := by
  cases flow with
  | next => exact ⟨0, _, .refl _, h⟩
  | jump target => exact ⟨0, _, .refl _, h.setPc target⟩
  | return_ => exact h.returnFrame hrun
  | try_ len => exact ⟨0, _, .refl _, h.openTry hT len⟩
  | enter callee argc => exact ⟨0, _, .refl _, h.enterCall hT hwithin⟩
  | tail callee argc => exact absurd rfl (htail callee argc)
  | builtin run => exact ⟨0, _, .refl _, h.setControl _⟩
  | import_ data => exact ⟨0, _, .refl _, h.importModule hT hwithin⟩

/-- A call of the original machine before a return, and its tail form. -/
theorem Matches.enterTail (hT : TailCallsRewritten table table') (h : Matches table table' s t)
    (hrun : s.control = .running)
    (hreturn : (table s.code).instructions[s.pc]? = some .return_) (hcallers : s.callers ≠ [])
    (htries : ∀ f ∈ s.tryStack, f.callDepth ≠ s.depth)
    (hunpack : ∀ c, s.callers.head? = some c → c.unpackDepth ≤ s.data.unpackFrames.length)
    {callee : Value} {argc : Nat}
    (hwithin : s.enterCall table (withMaxCallDepth ops (s.depth + 1)) callee argc =
      s.enterCall table ops callee argc) :
    Matches table table' (s.enterCall table ops callee argc) (t.prepareTail table' callee argc) := by
  have hdepth := @depth_of_enterCall W ops table s
  unfold Vm.enterCall Vm.prepareTail
  cases hcallee : callee.asUserFunction with
  | none => exact h.setControl _
  | some target =>
    obtain ⟨fn, captures⟩ := target
    have hdepth := @hdepth fn captures callee argc
    dsimp only
    cases h with
    | @mk code pc data control cs ct regions ts tt hregions hbelow hground =>
      obtain rfl : control = .running := hrun
      obtain rfl : regions = [] := by
        refine List.eq_nil_iff_forall_not_mem.mpr fun f hf => ?_
        exact htries f (List.mem_append_left _ hf) (hregions f hf)
      unfold Vm.enterSpec
      dsimp only
      rw [(interface_table hT).bindArguments]
      cases hbind : bindArguments (table fn) argc data.pendingNamedMeta data.stack with
      | error e => exact @Matches.mk W table table' _ _ _ _ cs ct [] ts tt hregions hbelow hground
      | ok b =>
        obtain ⟨locals, stack⟩ := b
        have hle : cs.length + 1 ≤ ops.maxCallDepth := hdepth hcallee hwithin hbind
        obtain ⟨a, hfunction⟩ := Option.isSome_iff_exists.mp (hground.2 hcallers)
        obtain ⟨c, hhead⟩ : ∃ c, cs.head? = some c := by
          cases cs with
          | nil => exact absurd rfl hcallers
          | cons c rest => exact ⟨c, rfl⟩
        dsimp only
        rw [hfunction, show ((⟨code, pc, data, cs, [] ++ ts, .running⟩ : Vm W).depth) = cs.length
          from rfl, if_neg (Nat.not_lt.mpr hle)]
        exact @Matches.mk W table table' fn 0 _ .running _ ct [] ts tt
          (fun _ hf => absurd hf List.not_mem_nil)
          (.ghost _ c hbelow hreturn rfl rfl hhead (hunpack c hhead))
          ⟨fun h => (nomatch h), fun _ => rfl⟩

/-- What a run must avoid for its rewritten form to be the same: a call that the
limit on the depth refuses, and at a tail call, a callee that the tail form
refuses. The other conditions at a tail call hold in compiled code: it is in no
try region, and the frame has not ended its caller's unpackings. -/
structure TailSafe (table table' : FnTable) (ops : Ops W) (s : Vm W) : Prop where
  depth : WithinDepth ops table s
  callee : ∀ i i', s.nextInstruction table = some i → s.nextInstruction table' = some i' →
    i'.isTailCall = true → i.tailRefuses s.data = false
  tries : ∀ i', s.nextInstruction table' = some i' → i'.isTailCall = true →
    ∀ f ∈ s.tryStack, f.callDepth ≠ s.depth
  frames : ∀ i', s.nextInstruction table' = some i' → i'.isTailCall = true →
    ∀ c, s.callers.head? = some c → c.unpackDepth ≤ s.data.unpackFrames.length

theorem Matches.stepInstruction (hT : TailCallsRewritten table table')
    (h : Matches table table' s t) (hrun : s.control = .running) {i : Instruction}
    (hi : i.isTailCall = false)
    (hwithin : s.stepInstruction table (withMaxCallDepth ops (s.depth + 1)) i =
      s.stepInstruction table ops i) :
    ∃ n s', (Vm.machine table ops).Steps n (s.stepInstruction table ops i) s' ∧
      Matches table table' s' (t.stepInstruction table' ops i) := by
  have hallows := Exec.exec_allows ops table i s.data
  have hactivation := Exec.exec_activation ops table i s.data
  unfold Vm.stepInstruction at hwithin ⊢
  rw [(interface_table hT).exec, h.data, h.pc]
  rw [exec_withMaxCallDepth] at hwithin
  cases hexec : (Exec.exec ops table i).run s.data with
  | error e d =>
    rw [hexec] at hactivation
    exact ⟨0, _, .refl _, h.update hactivation⟩
  | ok flow d =>
    rw [hexec] at hwithin hactivation
    have hbehind : Matches table table' { s with pc := s.pc + 1, data := d }
        { t with pc := s.pc + 1, data := d } := by
      rw [h.control]
      exact h.update hactivation
    refine hbehind.follow hT hrun ?_ hwithin
    rintro callee argc rfl
    rw [hallows _ _ hexec] at hi
    cases hi

/-- The call is followed by a return, and its tail form reuses the frame. -/
theorem Matches.stepTail (hT : TailCallsRewritten table table')
    (hno : ∀ fn i, i ∈ (table fn).instructions → i.isTailCall = false)
    (h : Matches table table' s t) (hrun : s.control = .running) {i i' : Instruction}
    (hi : (table s.code).instructions[s.pc]? = some i)
    (hi' : (table' s.code).instructions[s.pc]? = some i')
    (htail : tailCallInstruction i = some i')
    (hreturn : (table s.code).instructions[s.pc + 1]? = some .return_)
    (hcallee : i.tailRefuses s.data = false) (htries : ∀ f ∈ s.tryStack, f.callDepth ≠ s.depth)
    (hframes : ∀ c, s.callers.head? = some c → c.unpackDepth ≤ s.data.unpackFrames.length)
    (hwithin : s.stepInstruction table (withMaxCallDepth ops (s.depth + 1)) i =
      s.stepInstruction table ops i) :
    ∃ n s', (Vm.machine table ops).Steps n (s.stepInstruction table ops i) s' ∧
      Matches table table' s' (t.stepInstruction table' ops i') := by
  have hcall : i.isTailCall = false := hno s.code i (List.mem_of_getElem? hi)
  have hallows := Exec.exec_allows ops table i s.data
  have hactivation := Exec.exec_activation ops table i s.data
  have hunpack := Exec.exec_frames ops table i (List.suffix_refl s.data.unpackFrames) fun hend => by
    rw [tailCallInstruction_endsUnpack htail] at hend
    cases hend
  have hcallers : s.callers ≠ [] := by
    intro hnil
    cases h with
    | @mk code pc data control cs ct regions ts tt hregions hbelow hground =>
      have hsame : (table' code).instructions[pc]? = some i := by
        rw [hground.1 hnil]
        exact hi
      obtain rfl := Option.some.inj (hi'.symm.trans hsame)
      rw [tailCallInstruction_isTailCall htail] at hcall
      cases hcall
  unfold Vm.stepInstruction at hwithin ⊢
  rw [exec_withMaxCallDepth] at hwithin
  rw [Exec.exec_tailCallInstruction ops table' htail (h.data ▸ hcallee), (interface_table hT).exec, h.data,
    h.pc, map_eq_pure_bind, Exec.run_bind]
  cases hexec : (Exec.exec ops table i).run s.data with
  | error e d =>
    rw [hexec] at hactivation
    exact ⟨0, _, .refl _, h.update hactivation⟩
  | ok flow d =>
    rw [hexec] at hwithin hactivation hunpack
    have hbehind : Matches table table' { s with pc := s.pc + 1, data := d }
        { t with pc := s.pc + 1, data := d } := by
      rw [h.control]
      exact h.update hactivation
    by_cases henter : ∃ callee argc, flow = .enter callee argc
    · obtain ⟨callee, argc, rfl⟩ := henter
      refine ⟨0, _, .refl _, hbehind.enterTail hT hrun hreturn hcallers htries ?_ hwithin⟩
      exact fun c hc => (hframes c hc).trans hunpack.length_le
    · have hsame : flow.toTail = flow := by
        cases flow with
        | enter callee argc => exact absurd ⟨callee, argc, rfl⟩ henter
        | _ => rfl
      show ∃ n s', (Vm.machine table ops).Steps n _ s' ∧
        Matches table table' s' (Vm.follow table' ops _ flow.toTail)
      rw [hsame]
      refine hbehind.follow hT hrun ?_ hwithin
      rintro callee argc rfl
      rw [hallows _ _ hexec] at hcall
      cases hcall

/-- **A step of the rewritten machine** is one or more of the original one. -/
theorem Matches.step (hT : TailCallsRewritten table table')
    (hno : ∀ fn i, i ∈ (table fn).instructions → i.isTailCall = false)
    (h : Matches table table' s t) (hsafe : TailSafe table table' ops s) :
    ∃ n s', (Vm.machine table ops).Steps n (s.step table ops) s' ∧
      Matches table table' s' (t.step table' ops) := by
  have hwithin : s.step table (withMaxCallDepth ops (s.depth + 1)) = s.step table ops := hsafe.depth
  cases hcontrol : s.control with
  | running =>
    have htcontrol : t.control = .running := h.control.trans hcontrol
    rcases h.finishTryBoundary with ⟨hs, ht⟩ | ⟨s', t', hs, ht, hmatches⟩
    · rcases getElem?_table hT s.code s.pc with hsame | ⟨i, i', hi, hi', htail, hreturn⟩
      · cases hi : (table s.code).instructions[s.pc]? with
        | some i =>
          have hi' : (table' t.code).instructions[t.pc]? = some i := by
            rw [h.code, h.pc, hsame, hi]
          rw [Vm.step_eq_stepInstruction _ _ hcontrol hs hi, Vm.step_eq_stepInstruction _ _ hcontrol hs hi]
            at hwithin
          rw [Vm.step_eq_stepInstruction _ _ hcontrol hs hi, Vm.step_eq_stepInstruction _ _ htcontrol ht hi']
          exact h.stepInstruction hT hcontrol (hno s.code i (List.mem_of_getElem? hi)) hwithin
        | none =>
          have hi' : (table' t.code).instructions[t.pc]? = none := by
            rw [h.code, h.pc, hsame, hi]
          rw [Vm.step_eq_returnFrame _ _ hcontrol hs hi, Vm.step_eq_returnFrame _ _ htcontrol ht hi']
          exact h.returnFrame hcontrol
      · have hti' : (table' t.code).instructions[t.pc]? = some i' := by rw [h.code, h.pc, hi']
        have hnext : s.nextInstruction table = some i := by
          rw [Vm.nextInstruction_eq table hcontrol hs, hi]
        have hnext' : s.nextInstruction table' = some i' := by
          rw [Vm.nextInstruction_eq table' hcontrol hs, hi']
        have htailcall := tailCallInstruction_isTailCall htail
        rw [Vm.step_eq_stepInstruction _ _ hcontrol hs hi, Vm.step_eq_stepInstruction _ _ hcontrol hs hi]
          at hwithin
        rw [Vm.step_eq_stepInstruction _ _ hcontrol hs hi, Vm.step_eq_stepInstruction _ _ htcontrol ht hti']
        exact h.stepTail hT hno hcontrol hi hi' htail hreturn
          (hsafe.callee i i' hnext hnext' htailcall) (hsafe.tries i' hnext' htailcall)
          (hsafe.frames i' hnext' htailcall) hwithin
    · rw [Vm.step_eq_finished _ _ hcontrol hs, Vm.step_eq_finished _ _ htcontrol ht]
      exact ⟨0, s', .refl _, hmatches⟩
  | builtin run =>
    rw [Vm.step, Vm.step, hcontrol] at hwithin
    rw [Vm.step, Vm.step, h.control, hcontrol]
    exact ⟨0, _, .refl _, h.stepBuiltin hT hwithin⟩
  | unwinding e =>
    rw [Vm.step, Vm.step, h.control, hcontrol]
    exact h.unwind hcontrol
  | halted res =>
    rw [Vm.step, Vm.step, h.control, hcontrol]
    exact ⟨0, _, .refl _, h⟩

end Steps

section Programs

variable {table table' : FnTable}

/-- The original machine follows the rewritten one. -/
theorem simulation (hT : TailCallsRewritten table table')
    (hno : ∀ fn i, i ∈ (table fn).instructions → i.isTailCall = false) (ops : Ops W) :
    Machine.Simulation (Vm.machine table ops) (Vm.machine table' ops)
      (TailSafe table table' ops) (Matches table table') where
  step s t hsafe h ho := by
    obtain ⟨n, s', hsteps, hmatches⟩ := h.step hT hno hsafe.self
    have hos : (Vm.machine table ops).outcome s = none := by
      show s.outcome = none
      have hot : t.outcome = none := ho
      rw [Vm.outcome, h.control] at hot
      rw [Vm.outcome]
      cases hcontrol : s.control with
      | halted res =>
        rw [hcontrol] at hot
        cases hot
      | _ => rfl
    exact ⟨n, s', .head hos hsteps, hmatches⟩
  outcome s t r _ h ho := by
    refine ⟨0, s, .refl s, ?_⟩
    have hot : t.outcome = some r := ho
    show s.outcome = some r
    rw [Vm.outcome, h.control, h.data] at hot
    exact hot

/-! ### Two programs -/

/-- A program whose function ends with a call of another one. -/
def tailProgram : FnTable
  | 0 => ⟨some [], none, 0, false, [.loadConst (.compiledFunction 1), .callAnon 0]⟩
  | 1 => ⟨some [], none, 0, false, [.loadConst (.compiledFunction 2), .callAnon 0, .return_]⟩
  | _ => ⟨some [], none, 0, false, [.loadConst (.int 1)]⟩

/-- The same for a call of the variable `e` with an argument. -/
def symbolicProgram : FnTable
  | 1 => ⟨some [], none, 0, false,
      [.loadCallTarget (.var "e"), .loadConst (.int 1), .callUser "e" 1, .return_]⟩
  | fn => tailProgram fn

/-- Every function but the main code is rewritten. -/
def rewriteFunctions (table : FnTable) : FnTable
  | 0 => table 0
  | fn + 1 => (table (fn + 1)).rewriteTailCalls

theorem rewriteFunctions_rewritten (table : FnTable) :
    TailCallsRewritten table (rewriteFunctions table) := by
  intro fn
  cases fn with
  | zero => exact .inl rfl
  | succ fn => exact .inr rfl

theorem tailProgram_no_tail (fn : FnId) (i : Instruction) (hi : i ∈ (tailProgram fn).instructions) :
    i.isTailCall = false := by
  match fn with
  | 0 | 1 | n + 2 => simp [tailProgram] at hi; rcases hi with rfl | rfl | rfl <;> rfl

theorem TailSafe.of_not_tail {ops : Ops W} {s : Vm W} (hdepth : WithinDepth ops table s)
    (htail : ∀ i', s.nextInstruction table' = some i' → i'.isTailCall = false) :
    TailSafe table table' ops s where
  depth := hdepth
  callee _ i' _ hi' h := by
    rw [htail i' hi'] at h
    cases h
  tries i' hi' h := by
    rw [htail i' hi'] at h
    cases h
  frames i' hi' h := by
    rw [htail i' hi'] at h
    cases h

/-- The safe run of the program whose function ends with a call. -/
theorem tailProgram_always :
    (Vm.machine tailProgram Ops.inert).Always
      (TailSafe tailProgram (rewriteFunctions tailProgram) Ops.inert) (Vm.start 0 Env.empty) := by
  refine .head (.of_not_tail rfl fun i' hi' => ?_) (.head (.of_not_tail rfl fun i' hi' => ?_)
    (.head (.of_not_tail rfl fun i' hi' => ?_) (.head ⟨rfl, ?_, ?_, ?_⟩
    (.head (.of_not_tail rfl fun i' hi' => ?_) (.head (.of_not_tail rfl fun i' hi' => ?_)
    (.head (.of_not_tail rfl fun i' hi' => ?_) (.head (.of_not_tail rfl fun i' hi' => ?_)
    (.final (.of_not_tail rfl fun i' hi' => ?_) rfl))))))))
  · cases hi'
    rfl
  · cases hi'
    rfl
  · cases hi'
    rfl
  · intro i i' hi _ _
    cases hi
    rfl
  · intro i' _ _ f hf
    cases hf
  · intro i' _ _ c hc
    cases hc
    exact Nat.le_refl 0
  · cases hi'
    rfl
  · cases hi'
  · cases hi'
    rfl
  · cases hi'
  · cases hi'

/-- Operations with symbolic expressions that take arguments. -/
def symbolicOps : Ops Unit := { Ops.inert with callCas := fun _ _ => .ok (.int 1) }

/-- The variable `e` is a symbolic expression. -/
def symbolicEnv : Env Unit := Env.empty.setGlobal "e" (.cas (.var "x"))

end Programs

end Tce

end Wqpl
