/-
# Cooperative execution of the higher-order builtins

A slice of the VM runs a higher-order builtin as a frame that stops at every
callback and can be left at any step. Each builtin is so written twice, as a
recursion (`callSync`) and as a frame (`startResumableBuiltin`). Here the two
are compared as dialogues, for every environment of callbacks and every way to
slice the run.

They agree for all builtins but four: `zipw` fails before its callbacks where
the recursion fails in the middle, `splitw` takes dictionaries and builds the
chunk of an empty packed list as a string, and `findw` and `rfindw` go into
atoms again and saturate indices. `agrees_iff` is the exact condition.
-/
import Wqpl.HigherOrder.Zip
import Wqpl.HigherOrder.Split
import Wqpl.HigherOrder.Find

namespace Wqpl
namespace Ho

open Dialogue

/-! ### Both sides of a call -/

/-- Where a cooperative call starts: at its frame, or at the error of the
checks that come before a frame. -/
def startCooperative (b : HoBuiltin) (discarded : Bool) (args : BuiltinFnArgs) :
    Config BuiltinFrame HoCall WqErrorType Value :=
  match startResumableBuiltin b discarded args with
  | .ok frame => .running [] frame
  | .error e => .finished [] (.error e)

/-- The cooperative call makes the callbacks of the synchronous call and ends
as it does, against every environment and however it is sliced. -/
def Agrees (b : HoBuiltin) (discarded : Bool) (args : BuiltinFnArgs) : Prop :=
  ∀ o : Oracle HoCall Value WqErrorType, ∃ n, ∀ slices : List Nat, n ≤ slices.sum →
    runSlices BuiltinFrame.step o slices (startCooperative b discarded args) =
      .finished ((callSync b discarded args).run o []).1 ((callSync b discarded args).run o []).2

theorem finalValue_finalValue (d : Bool) (t : HoM Value) :
    finalValue d <$> (finalValue d <$> t) = finalValue d <$> t := by
  have h : finalValue d ∘ finalValue d = finalValue d := by
    funext v
    cases d <;> rfl
  rw [← comp_map, h]

/-- A synchronous call whose value is not used drops it, also where the builtin
has a variant of its own for that. -/
theorem callSync_eq (b : HoBuiltin) (d : Bool) (args : BuiltinFnArgs) :
    callSync b d args = lift (validateRuntimeCallArgs b args) >>= fun _ =>
      finalValue d <$> invoke b args := by
  have hdrop : ∀ t : HoM Value, (do Value.ignore t; return Value.emptyList) =
      finalValue true <$> t := fun t => by
    rw [ignore_bind]
    rfl
  unfold callSync
  congr 1
  funext _
  cases d with
  | false =>
    rw [if_neg (by simp), show finalValue false = id from rfl, id_map]
  | true =>
    rw [if_pos rfl]
    cases hdiscard : discardFn b args with
    | none => exact hdrop _
    | some run =>
      unfold discardFn at hdiscard
      unfold invoke
      split at hdiscard <;> cases hdiscard <;> rename_i hpos <;> simp only [hpos]
      · exact applyDiscard_eq _ _
      · exact mapDiscard_eq _ _ _
      · exact mapDiscard_eq _ _ _
      · exact filterDiscard_eq _ _

/-- Started so, the cooperative call carries out `t`. -/
def Starts (start : WqResult BuiltinFrame) (t : HoM Value) : Prop :=
  match start with
  | .ok frame => Unfolds BuiltinFrame.step frame t
  | .error e => t = fail e

theorem agrees_iff_eq {b : HoBuiltin} {d : Bool} {args : BuiltinFnArgs} {t : HoM Value}
    (h : Starts (startResumableBuiltin b d args) t) : Agrees b d args ↔ t = callSync b d args := by
  unfold Agrees startCooperative
  cases hstart : startResumableBuiltin b d args with
  | ok frame =>
    rw [hstart] at h
    exact realizes_iff_eq h
  | error e =>
    rw [hstart] at h
    rw [show t = fail e from h]
    have hend : ∀ (o : Oracle HoCall Value WqErrorType) (slices : List Nat),
        runSlices BuiltinFrame.step o slices (.finished [] (.error e)) =
          .finished [] (.error e) := by
      intro o slices
      rw [runSlices_eq]
      exact advance_finished _ _ _ _ _
    constructor
    · intro hagree
      refine run_injective _ _ fun o => ?_
      obtain ⟨n, hn⟩ := hagree o
      have := hn [n] (by simp)
      rw [hend] at this
      injection this with h1 h2
      exact Prod.ext h1 h2
    · intro heq o
      refine ⟨0, fun slices _ => ?_⟩
      rw [hend, ← heq]
      rfl

/-! ### What the frames carry out -/

section Starts

variable (d : Bool)

/-- A frame around a state that carries out `t`. -/
theorem starts_state {S : Type} {M : S → BuiltinFrameAction S} {wrap : S → BuiltinFrameState}
    (hstep : ∀ s, BuiltinFrame.step ⟨d, wrap s⟩ = wrapAction d wrap (M s)) {s : S} {t : HoM Value}
    (h : Unfolds M s (finalValue d <$> t)) :
    Starts (BuiltinFrame.mk d <$> Except.ok (wrap s)) (finalValue d <$> t) := by
  have hmap : Unfolds BuiltinFrame.step ⟨d, wrap s⟩ (finalValue d <$> (finalValue d <$> t)) :=
    h.map hstep
  rw [finalValue_finalValue] at hmap
  exact hmap

/-- As `starts_state`, after the check of a parameter. -/
theorem starts_lift {S P : Type} {M : S → BuiltinFrameAction S} {wrap : S → BuiltinFrameState}
    (hstep : ∀ s, BuiltinFrame.step ⟨d, wrap s⟩ = wrapAction d wrap (M s)) (check : WqResult P)
    {s : P → S} {t : P → HoM Value} (h : ∀ p, Unfolds M (s p) (finalValue d <$> t p)) :
    Starts (BuiltinFrame.mk d <$> wrap <$> (do return s (← check)))
      (finalValue d <$> (lift check >>= t)) := by
  cases check with
  | error e => rfl
  | ok p => exact starts_state d hstep (h p)

theorem starts_map (xs f layers : Value) :
    Starts (BuiltinFrame.mk d <$> .map <$> MapFrame.new xs f layers d)
      (finalValue d <$> map xs f layers) :=
  starts_lift d (fun _ => rfl) _ fun el => MapFrame.unfolds_new f el d xs

theorem starts_anyAll (modeAny : Bool) (xs f layers : Value) :
    Starts (BuiltinFrame.mk d <$> .predicate <$> PredicateFrame.new modeAny xs f layers)
      (finalValue d <$> anyAll modeAny xs f layers) := by
  unfold PredicateFrame.new anyAll
  cases effectiveLayers xs layers with
  | error e => rfl
  | ok maxDepth =>
    have hstep : ∀ s : PredicateFrame, BuiltinFrame.step ⟨d, .predicate s⟩ =
        wrapAction d .predicate s.step := fun _ => rfl
    exact (PredicateFrame.unfolds_new modeAny f maxDepth xs).map hstep

/-- The frame of `zipw`. -/
def cooperativeZipw (xs ys f layers : Value) : HoM Value := do
  let el ← lift (zipwEffectiveLayers xs ys layers)
  frameZip (ZipFrame.leaf f) el.toNat xs ys

theorem starts_zipw (xs ys f layers : Value) :
    Starts (BuiltinFrame.mk d <$> .zip <$> ZipFrame.new xs ys f layers d)
      (finalValue d <$> cooperativeZipw xs ys f layers) :=
  starts_lift d (fun _ => rfl) _ fun el => ZipFrame.unfolds_new f el d xs ys

/-- The frame of `splitw`. -/
def cooperativeSplitw (args : BuiltinFnArgs) (xs f : Value) : HoM Value := do
  let limit ← lift (splitwLimit args)
  frameSplit f limit xs

theorem starts_splitw (args : BuiltinFnArgs) (xs f : Value) :
    Starts (BuiltinFrame.mk d <$> .split <$> SplitFrame.new args xs f d)
      (finalValue d <$> cooperativeSplitw args xs f) := by
  unfold SplitFrame.new cooperativeSplitw
  cases splitwLimit args with
  | error e => rfl
  | ok limit =>
    have hatom : (ItemSource.fromValue xs).isNone = xs.isAtom := by cases xs <;> rfl
    simp only [lift_ok_bind, frameSplit]
    cases hsrc : ItemSource.fromValue xs with
    | none =>
      rw [hsrc] at hatom
      rw [if_pos (by rw [← hatom]; rfl)]
      rfl
    | some src =>
      rw [hsrc] at hatom
      rw [if_neg (by rw [← hatom]; simp)]
      exact starts_state d (fun _ => rfl) (SplitFrame.unfolds_new hsrc f limit d)

/-- The search of both `findw` with these parameters. -/
def findCtx (reverse : Bool) (f : Value) (parameters : Int × Int) : FindWithCtx :=
  { func := f, maxDepth := parameters.2, threshold := parameters.1, reverse }

/-- The frame of `findw` and `rfindw`. -/
def cooperativeFindw (reverse : Bool) (args : List Value) (xs f : Value) : HoM Value := do
  let parameters ← lift (findwParameters args)
  frameFind (findCtx reverse f parameters) d xs

theorem finalValue_frameFind (ctx : FindWithCtx) (v : Value) :
    finalValue d <$> frameFind ctx d v = frameFind ctx d v := by
  have h : frameFind ctx d v = finalValue d <$> Value.list <$>
      search ctx (FindFrame.entry d) true ctx.maxDepth.toNat v [] [] := by
    rw [frameFind, ← comp_map, map_eq_pure_bind]
    rfl
  rw [h, finalValue_finalValue]

theorem starts_findw (reverse : Bool) (args : List Value) (xs f : Value) :
    Starts (BuiltinFrame.mk d <$> .find <$> FindFrame.new reverse args xs f d)
      (finalValue d <$> cooperativeFindw d reverse args xs f) := by
  unfold FindFrame.new cooperativeFindw
  cases findwParameters args with
  | error e => rfl
  | ok parameters =>
    refine starts_state d (fun _ => rfl) ?_
    rw [lift_ok_bind, finalValue_frameFind]
    exact FindFrame.unfolds_new (findCtx reverse f parameters) d xs

end Starts

/-- What a cooperative call of validated arguments carries out: the recursion,
but for four builtins. -/
def cooperative (b : HoBuiltin) (d : Bool) (args : BuiltinFnArgs) : HoM Value :=
  match b, args.pos with
  | .zipw, [xs, ys, f] => cooperativeZipw xs ys f (.int 1)
  | .zipw, [xs, ys, f, layers] => cooperativeZipw xs ys f layers
  | .splitw, [xs, f] => cooperativeSplitw args xs f
  | .findw, xs :: f :: _ => cooperativeFindw d false args.pos xs f
  | .rfindw, xs :: f :: _ => cooperativeFindw d true args.pos xs f
  | _, _ => invoke b args

theorem starts_newState (b : HoBuiltin) (d : Bool) (args : BuiltinFnArgs) :
    Starts (BuiltinFrame.mk d <$> newState b d args) (finalValue d <$> cooperative b d args) := by
  unfold newState
  split <;> simp only [cooperative, invoke, *]
  · exact starts_state d (fun _ => rfl) (ApplyFrame.unfolds_new _ _ d)
  · exact starts_map d _ _ _
  · exact starts_map d _ _ _
  · exact starts_state d (fun _ => rfl) (FoldScanFrame.unfolds_fold_new _ _ _ d)
  · exact starts_state d (fun _ => rfl) (FoldScanFrame.unfolds_fold_new _ _ _ d)
  · exact starts_state d (fun _ => rfl) (FoldScanFrame.unfolds_scan_forward _ _ _ d)
  · exact starts_state d (fun _ => rfl) (FoldScanFrame.unfolds_scan_forward _ _ _ d)
  · exact starts_state d (fun _ => rfl) (FoldScanFrame.unfolds_scan_backward _ _ _ d)
  · exact starts_state d (fun _ => rfl) (FoldScanFrame.unfolds_scan_backward _ _ _ d)
  · exact starts_anyAll d true _ _ _
  · exact starts_anyAll d true _ _ _
  · exact starts_anyAll d false _ _ _
  · exact starts_anyAll d false _ _ _
  · exact starts_state d (fun _ => rfl) (FilterFrame.unfolds_new _ _ d)
  · exact starts_zipw d _ _ _ _
  · exact starts_zipw d _ _ _ _
  · exact starts_splitw d args _ _
  · exact starts_findw d false _ _ _
  · exact starts_findw d true _ _ _
  · rfl

/-- What a cooperative call carries out. -/
theorem starts_cooperative (b : HoBuiltin) (d : Bool) (args : BuiltinFnArgs) :
    Starts (startResumableBuiltin b d args)
      (lift (validateRuntimeCallArgs b args) >>= fun _ => finalValue d <$> cooperative b d args) := by
  unfold startResumableBuiltin
  cases validateRuntimeCallArgs b args with
  | error e => rfl
  | ok _ => exact starts_newState b d args

/-! ### When they agree -/

/-- `zipw`: the pairs fail in the same place. -/
def zipwAgrees (xs ys layers : Value) : Bool :=
  match zipwEffectiveLayers xs ys layers with
  | .ok el => zipAgree el.toNat xs ys
  | .error _ => true

/-- `splitw`: the source is no dictionary, and if the value is used no empty
packed list. -/
def splitwAgrees (d : Bool) (args : BuiltinFnArgs) (xs : Value) : Bool :=
  match splitwLimit args with
  | .ok _ => !xs.isDict && (d || !isEmptyPacked xs)
  | .error _ => true

/-- `findw` and `rfindw`: no result is asked for, or there is no atom above the
last layer and, if the value is used, no index beyond `i64`. -/
def findwAgrees (d : Bool) (args : List Value) (xs : Value) : Bool :=
  match findwParameters args with
  | .ok (threshold, maxDepth) =>
    findwithThresholdReached 0 threshold ||
      findDeep maxDepth.toNat xs && (d || findIndexable maxDepth.toNat xs)
  | .error _ => true

def sameInBoth (b : HoBuiltin) (d : Bool) (args : BuiltinFnArgs) : Bool :=
  match b, args.pos with
  | .zipw, [xs, ys, _] => zipwAgrees xs ys (.int 1)
  | .zipw, [xs, ys, _, layers] => zipwAgrees xs ys layers
  | .splitw, [xs, _] => splitwAgrees d args xs
  | .findw, xs :: _ :: _ => findwAgrees d args.pos xs
  | .rfindw, xs :: _ :: _ => findwAgrees d args.pos xs
  | _, _ => true

theorem cooperativeZipw_eq_iff (d : Bool) (xs ys f layers : Value) :
    finalValue d <$> cooperativeZipw xs ys f layers = finalValue d <$> zipw xs ys f layers ↔
      zipwAgrees xs ys layers = true := by
  unfold cooperativeZipw zipw zipwAgrees
  cases zipwEffectiveLayers xs ys layers with
  | error e => exact ⟨fun _ => rfl, fun _ => rfl⟩
  | ok el =>
    simp only [lift_ok_bind]
    rw [bc2Until_eq_syncZip (fun a b => callFn f [a, b]) el el.toNat 0 xs ys (by simp)]
    exact frameZip_eq_syncZip_iff f d el.toNat xs ys

theorem cooperativeSplitw_eq_iff (d : Bool) (args : BuiltinFnArgs) (xs f : Value) :
    finalValue d <$> cooperativeSplitw args xs f = finalValue d <$> splitw args xs f ↔
      splitwAgrees d args xs = true := by
  rw [splitw_eq]
  unfold cooperativeSplitw splitwAgrees
  cases splitwLimit args with
  | error e => exact ⟨fun _ => rfl, fun _ => rfl⟩
  | ok limit =>
    simp only [lift_ok_bind, Bool.and_eq_true, Bool.or_eq_true, Bool.not_eq_true']
    exact frameSplit_eq_syncSplit_iff f limit d xs

theorem finalValue_findw (d : Bool) (ctx : FindWithCtx) (xs : Value) :
    (finalValue d <$> do return .list (← findwithSearch ctx 0 xs [] [])) = syncFind ctx d xs := by
  have h : findwithSearch ctx 0 xs [] [] =
      search ctx (pathValue idxAsI64) false ctx.maxDepth.toNat xs [] [] :=
    findwithSearch_eq_search ctx ctx.maxDepth.toNat 0 xs [] [] (by simp)
  rw [h, map_bind, syncFind]
  rfl

theorem cooperativeFindw_eq_iff (d reverse : Bool) (args : List Value) (xs f : Value) :
    finalValue d <$> cooperativeFindw d reverse args xs f =
        finalValue d <$> findw reverse args xs f ↔
      findwAgrees d args xs = true := by
  unfold cooperativeFindw findw findwAgrees
  cases findwParameters args with
  | error e => exact ⟨fun _ => rfl, fun _ => rfl⟩
  | ok parameters =>
    simp only [lift_ok_bind]
    have hsync := finalValue_findw d (findCtx reverse f parameters) xs
    rw [findCtx] at hsync
    rw [finalValue_frameFind, hsync]
    exact frameFind_eq_syncFind_iff (findCtx reverse f parameters) d xs

theorem cooperative_eq_iff (b : HoBuiltin) (d : Bool) (args : BuiltinFnArgs) :
    finalValue d <$> cooperative b d args = finalValue d <$> invoke b args ↔
      sameInBoth b d args = true := by
  unfold cooperative sameInBoth
  split <;> simp only [invoke, *]
  · exact cooperativeZipw_eq_iff d _ _ _ _
  · exact cooperativeZipw_eq_iff d _ _ _ _
  · exact cooperativeSplitw_eq_iff d args _ _
  · exact cooperativeFindw_eq_iff d false _ _ _
  · exact cooperativeFindw_eq_iff d true _ _ _

end Ho
end Wqpl
