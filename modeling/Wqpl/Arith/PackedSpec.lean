/-
# What paths over packed lists yield

A path over packed lists that applies yields what the broadcast of the atoms'
operation yields (`PackedSpec`): its loop goes over the same pairs of items
(`bc2Until_loopPairs`), and an affine image of a range has the images of its
items (`affineIntRange_items`). An operation therefore differs from the
broadcast only where one of them panics (`sameChecked_iff`).
-/
import Mathlib.Tactic.Ring
import Wqpl.Arith.Lists
import Wqpl.FallibleLoop
import Wqpl.Representation

namespace Wqpl

open Value

/-- Both run to their end without a panic, and fail alike or yield the same
items. -/
def SameChecked (r s : Checked Value) : Prop :=
  ∃ x y, r.run = some x ∧ s.run = some y ∧ SameResult x y

/-- What a path over packed lists yields, the general one does. -/
def PackedSpec (packed : Packed Value) (general : Checked Value) : Prop :=
  ∀ v, packed.run = some (some v) → ∃ w, general.run = some (.ok w) ∧ v.norm = w.norm

/-- A computation that does not panic. -/
def Total {α : Type} (c : Checked α) : Prop := c.run ≠ none

/-- The same of a path over packed lists. -/
def Packed.Total {α : Type} (c : Packed α) : Prop := c.run ≠ none

theorem sameChecked_iff {packed : Packed Value} {general : Checked Value}
    (h : PackedSpec packed general) :
    SameChecked (packedOr packed general) general ↔ packed.Total ∧ Total general := by
  unfold SameChecked Packed.Total Total packedOr
  rw [ExceptT.run_mk]
  cases hp : packed.run with
  | none => simp
  | some r =>
    cases r with
    | some v =>
      obtain ⟨w, hw, hnorm⟩ := h v hp
      rw [hw]
      refine ⟨fun _ => by simp, fun _ => ⟨.ok v, .ok w, rfl, rfl, ?_⟩⟩
      exact congrArg Except.ok hnorm
    | none =>
      cases hg : general.run with
      | none => simp [hg]
      | some x => simp [hg, SameResult]

/-! ### Computations that do not panic -/

section Total

variable {α β : Type}

theorem total_pure (a : α) : Total (pure a : Checked α) := nofun

theorem total_throw (e : WqErrorType) : Total (throw e : Checked α) := nofun

theorem total_ofResult (r : WqResult α) : Total (Checked.ofResult r) := nofun

theorem total_bind {c : Checked α} {f : α → Checked β} (hc : Total c) (hf : ∀ a, Total (f a)) :
    Total (c >>= f) := by
  unfold Total at *
  rw [ExceptT.run_bind]
  cases h : c.run with
  | none => exact absurd h hc
  | some r =>
    cases r with
    | error e => exact nofun
    | ok a => exact hf a

theorem total_map_iff {c : Checked α} (f : α → β) :
    Total (c >>= fun a => pure (f a)) ↔ Total c := by
  unfold Total
  rw [ExceptT.run_bind]
  cases c.run with
  | none => exact ⟨fun h => absurd rfl h, fun h => absurd rfl h⟩
  | some r => cases r <;> exact ⟨fun _ => nofun, fun _ => nofun⟩

theorem total_ite {p : Prop} [Decidable p] {c d : Checked α} (hc : p → Total c)
    (hd : ¬p → Total d) : Total (if p then c else d) := by
  split
  · exact hc ‹_›
  · exact hd ‹_›

theorem total_ofOption {o : Option α} (h : o ≠ none) : Total (Checked.ofOption o) := by
  cases o with
  | none => exact absurd rfl h
  | some a => exact nofun

/-- A loop panics where an item does, and no item before it fails. -/
theorem mapM_panics_iff (f : α → Checked β) : ∀ xs : List α,
    ¬Total (xs.mapM f) ↔ ∃ pre x post, xs = pre ++ x :: post ∧ ¬Total (f x) ∧
      ∀ y ∈ pre, ∀ e, (f y).run ≠ some (.error e)
  | [] => by
    refine ⟨fun h => absurd (total_pure []) h, ?_⟩
    rintro ⟨pre, x, post, hxs, -⟩
    simp at hxs
  | x :: xs => by
    have ih := mapM_panics_iff f xs
    rw [List.mapM_cons]
    cases hx : (f x).run with
    | none =>
      refine ⟨fun _ => ⟨[], x, xs, rfl, fun h => h hx, by simp⟩, fun _ h => h ?_⟩
      rw [ExceptT.run_bind, hx]
      rfl
    | some r =>
      have hx' : Total (f x) := by
        unfold Total
        rw [hx]
        exact nofun
      cases r with
      | error e =>
        constructor
        · intro h
          refine absurd ?_ h
          unfold Total
          rw [ExceptT.run_bind, hx]
          exact nofun
        · rintro ⟨pre, y, post, hxs, hy, hpre⟩
          cases pre with
          | nil =>
            obtain ⟨rfl, -⟩ := List.cons.inj hxs
            exact absurd hx' hy
          | cons z pre =>
            obtain ⟨rfl, -⟩ := List.cons.inj hxs
            exact absurd hx (hpre x List.mem_cons_self e)
      | ok v =>
        have hrun : Total (f x >>= fun y => xs.mapM f >>= fun ys => pure (y :: ys)) ↔
            Total (xs.mapM f) := by
          unfold Total
          rw [ExceptT.run_bind, hx]
          exact total_map_iff _
        rw [hrun, ih]
        constructor
        · rintro ⟨pre, y, post, rfl, hy, hpre⟩
          refine ⟨x :: pre, y, post, rfl, hy, fun z hz e => ?_⟩
          rcases List.mem_cons.mp hz with rfl | hz
          · rw [hx]
            exact nofun
          · exact hpre z hz e
        · rintro ⟨pre, y, post, hxs, hy, hpre⟩
          cases pre with
          | nil =>
            obtain ⟨rfl, -⟩ := List.cons.inj hxs
            exact absurd hx' hy
          | cons z pre =>
            obtain ⟨-, rfl⟩ := List.cons.inj hxs
            exact ⟨pre, y, post, rfl, hy, fun w hw => hpre w (List.mem_cons_of_mem _ hw)⟩

theorem total_mapM {f : α → Checked β} {xs : List α} (h : ∀ x ∈ xs, Total (f x)) :
    Total (xs.mapM f) := by
  by_contra hpanics
  obtain ⟨pre, x, post, rfl, hx, -⟩ := (mapM_panics_iff f xs).mp hpanics
  exact hx (h x (by simp))

/-- A loop over items that all succeed. -/
theorem mapM_run_ok {f : α → Checked β} {xs : List α} {ys : List β}
    (h : List.Forall₂ (fun x y => (f x).run = some (.ok y)) xs ys) :
    (xs.mapM f).run = some (.ok ys) := by
  induction h with
  | nil => rfl
  | @cons x y xs ys hx _ ih =>
    rw [List.mapM_cons, ExceptT.run_bind, hx]
    show (xs.mapM f >>= fun ys => pure (y :: ys)).run = _
    rw [ExceptT.run_bind, ih]
    rfl

end Total

/-! ### Loops of packed paths -/

section Loops

variable {α β : Type}

theorem packed_mapM_yields {f : α → Packed β} : ∀ {xs : List α} {zs : List β},
    (xs.mapM f).run = some (some zs) →
      List.Forall₂ (fun x z => (f x).run = some (some z)) xs zs
  | [], zs, h => by
    obtain rfl : [] = zs := Option.some.inj (Option.some.inj h)
    exact .nil
  | x :: xs, zs, h => by
    rw [List.mapM_cons, OptionT.run_bind] at h
    cases hx : (f x).run with
    | none =>
      rw [hx] at h
      cases h
    | some r =>
      rw [hx] at h
      cases r with
      | none => cases h
      | some z =>
        change (xs.mapM f >>= fun zs => pure (z :: zs)).run = some (some zs) at h
        rw [OptionT.run_bind] at h
        cases hxs : (xs.mapM f).run with
        | none =>
          rw [hxs] at h
          cases h
        | some rs =>
          rw [hxs] at h
          cases rs with
          | none => cases h
          | some rest =>
            obtain rfl : z :: rest = zs := Option.some.inj (Option.some.inj h)
            exact .cons hx (packed_mapM_yields hxs)

/-- A loop of a packed path that yields a result yields it item by item. -/
theorem intlistLoop_yields {f : α → Packed Int64} {xs : List α} {zs : List Int64}
    (h : (intlistLoop xs f).run = some (some zs)) :
    List.Forall₂ (fun x z => (f x).run = some (some z)) xs zs := by
  unfold intlistLoop at h
  by_cases hlen : parBcThreshold ≤ xs.length
  · rw [if_pos hlen] at h
    obtain ⟨rs, hrs, hzs⟩ := Option.map_eq_some_iff.mp h
    have hxs := mapM_some hrs
    have hys := mapM_some hzs
    clear h hrs hzs hlen
    induction hxs generalizing zs with
    | nil =>
      cases hys
      exact .nil
    | cons hx _ ih =>
      cases hys with
      | cons hr hys => exact .cons (hx.trans (congrArg some hr)) (ih hys)
  · rw [if_neg hlen] at h
    exact packed_mapM_yields h

/-- A loop of a packed path panics where one item does at least. -/
theorem packed_mapM_panics {f : α → Packed β} : ∀ {xs : List α}, (xs.mapM f).run = none →
    ∃ pre x post, xs = pre ++ x :: post ∧ (f x).run = none ∧ ∀ y ∈ pre, (f y).run ≠ some none
  | [], h => by cases h
  | x :: xs, h => by
    cases hx : (f x).run with
    | none => exact ⟨[], x, xs, rfl, hx, by simp⟩
    | some r =>
      rw [List.mapM_cons, OptionT.run_bind, hx] at h
      cases r with
      | none => cases h
      | some z =>
        change (xs.mapM f >>= fun zs => pure (z :: zs)).run = none at h
        rw [OptionT.run_bind] at h
        cases hxs : (xs.mapM f).run with
        | none =>
          obtain ⟨pre, y, post, rfl, hy, hpre⟩ := packed_mapM_panics hxs
          refine ⟨x :: pre, y, post, rfl, hy, fun w hw => ?_⟩
          rcases List.mem_cons.mp hw with rfl | hw
          · rw [hx]
            exact nofun
          · exact hpre w hw
        | some rs =>
          rw [hxs] at h
          cases rs <;> cases h

theorem intlistLoop_map (xs : List α) (g : α → β) (f : β → Packed Int64) :
    intlistLoop (xs.map g) f = intlistLoop xs fun x => f (g x) := by
  unfold intlistLoop
  rw [List.length_map, List.mapM_map, List.mapM_map]
  rfl

end Loops

/-- The pairs of items that a path over packed lists goes over. -/
def loopPairs : Value → Value → Option (List (Int64 × Int64))
  | .intList a, .intList b => if a.length = b.length then some (a.zip b) else none
  | .intList a, .int b => some (a.map fun x => (x, b))
  | .int a, .intList b => some (b.map fun y => (a, y))
  | _, _ => none

theorem intlistBinary_eq (f : Int64 → Int64 → Packed Int64) (a b : Value) :
    intlistBinary f a b =
      match loopPairs a b with
      | some pairs => .intList <$> intlistLoop pairs fun p => f p.1 p.2
      | none => failure := by
  fun_cases loopPairs a b with
  | case1 a b h => simp only [intlistBinary, intlistZipMap, h, ne_eq, not_true_eq_false, if_false]
  | case2 a b h =>
    simp only [intlistBinary, intlistZipMap, ne_eq, h, not_false_eq_true, if_true]
    rfl
  | case3 a b => simp only [intlistBinary, intlistMap, intlistLoop_map]
  | case4 a b => simp only [intlistBinary, intlistMap, intlistLoop_map]
  | case5 a b hll hli hil => rw [intlistBinary] <;> simpa

/-! ### The broadcast over packed operands -/

/-- An integer or a packed list of numbers. -/
inductive PackedOperand
  | int (n : Int64)
  | intList (items : List Int64)
  | intRange (range : IntRangeData)
  | floatList (items : List F64)

def PackedOperand.toValue : PackedOperand → Value
  | .int n => .int n
  | .intList items => .intList items
  | .intRange range => .intRange range
  | .floatList items => .floatList items

/-- An item of a packed operand. -/
def IsMachineNumber : Value → Prop
  | .int _ | .float _ => True
  | _ => False

/-- The pairs of atoms that a broadcast goes over. -/
def reachedPairs (a b : Value) : List (Value × Value) :=
  if a.isAtom ∧ b.isAtom then [(a, b)]
  else if a.isAtom ∨ b.isAtom ∨ a.len = b.len then pairItems a b
  else []

theorem isAtom_of_isMachineNumber {v : Value} (h : IsMachineNumber v) : v.isAtom = true := by
  cases v <;> first | rfl | cases h

theorem isMachineNumber_items (a : PackedOperand) :
    ∀ v ∈ a.toValue.containerItems, IsMachineNumber v := by
  intro v hv
  cases a with
  | int n => cases hv
  | intList _ | intRange _ | floatList _ =>
    obtain ⟨x, -, rfl⟩ := List.mem_map.mp hv
    trivial

theorem isMachineNumber_of_isAtom {a : PackedOperand} (h : a.toValue.isAtom = true) :
    IsMachineNumber a.toValue := by
  cases a with
  | int n => trivial
  | _ => cases h

theorem isMachineNumber_pairItems {a b : PackedOperand} :
    ∀ p ∈ pairItems a.toValue b.toValue, IsMachineNumber p.1 ∧ IsMachineNumber p.2 := by
  intro p hp
  unfold pairItems at hp
  split at hp
  · obtain ⟨y, hy, rfl⟩ := List.mem_map.mp hp
    exact ⟨isMachineNumber_of_isAtom ‹_›, isMachineNumber_items b y hy⟩
  split at hp
  · obtain ⟨x, hx, rfl⟩ := List.mem_map.mp hp
    exact ⟨isMachineNumber_items a x hx, isMachineNumber_of_isAtom ‹_›⟩
  · have hp := List.of_mem_zip hp
    exact ⟨isMachineNumber_items a _ hp.1, isMachineNumber_items b _ hp.2⟩

theorem isMachineNumber_reachedPairs {a b : PackedOperand} :
    ∀ p ∈ reachedPairs a.toValue b.toValue, IsMachineNumber p.1 ∧ IsMachineNumber p.2 := by
  intro p hp
  unfold reachedPairs at hp
  split at hp
  · obtain rfl := List.mem_singleton.mp hp
    exact ⟨isMachineNumber_of_isAtom (And.left ‹_›), isMachineNumber_of_isAtom (And.right ‹_›)⟩
  split at hp
  · exact isMachineNumber_pairItems p hp
  · cases hp

theorem onAtoms1_eq (atom : Value → Checked Value) (v : Value) :
    onAtoms1 atom v = bc1Until .atom atom 0 v := by
  unfold onAtoms1
  by_cases h : v.isAtom = true
  · rw [if_pos h, bc1Until_of_stop .atom atom 0 h]
  · rw [if_neg h]

theorem onAtoms2_eq (atoms : Value → Value → Checked Value) (a b : Value) :
    onAtoms2 atoms a b = bc2Until .bothAtom atoms 0 a b := by
  unfold onAtoms2
  by_cases h : (a.isAtom && b.isAtom) = true
  · rw [if_pos h, bc2Until_of_stop .bothAtom atoms 0 h]
  · rw [if_neg h]

section Flat

variable (atoms : Value → Value → Checked Value) {a b : PackedOperand}

/-- The broadcast over packed operands is a loop over pairs of items. -/
theorem bc2Until_flat (hatoms : ¬(a.toValue.isAtom = true ∧ b.toValue.isAtom = true))
    (hlen : a.toValue.isAtom = true ∨ b.toValue.isAtom = true ∨ a.toValue.len = b.toValue.len) :
    bc2Until .bothAtom atoms 0 a.toValue b.toValue = do
      return fromItems (← (pairItems a.toValue b.toValue).mapM fun p => atoms p.1 p.2) := by
  have hstop : Bc2Stop.bothAtom.shouldStop 0 a.toValue b.toValue = false := by
    simpa [Bc2Stop.shouldStop] using hatoms
  have hdict : ¬(a.toValue.isDict = true ∧ b.toValue.isDict = true) := by
    cases a <;> exact fun h => by cases h.1
  have hbuild : rebuildPair a.toValue b.toValue = fromItems := by
    cases a <;> cases b <;> rfl
  have hitems : (pairItems a.toValue b.toValue).mapM
        (fun p => bc2Until .bothAtom atoms 1 p.1 p.2) =
      (pairItems a.toValue b.toValue).mapM fun p => atoms p.1 p.2 := by
    refine mapM_congr_mem _ fun p hp => ?_
    obtain ⟨h1, h2⟩ := isMachineNumber_pairItems p hp
    exact bc2Until_of_stop .bothAtom atoms 1 (Bc2Stop.shouldStop_of_isAtom _ _
      (isAtom_of_isMachineNumber h1) (isAtom_of_isMachineNumber h2))
  rw [bc2Until_container .bothAtom atoms 0 hstop hdict hlen, hbuild, hitems]

theorem total_bc2Until_iff : Total (bc2Until .bothAtom atoms 0 a.toValue b.toValue) ↔
    Total ((reachedPairs a.toValue b.toValue).mapM fun p => atoms p.1 p.2) := by
  unfold reachedPairs
  by_cases hatoms : a.toValue.isAtom = true ∧ b.toValue.isAtom = true
  · have hstop := Bc2Stop.shouldStop_of_isAtom .bothAtom 0 hatoms.1 hatoms.2
    rw [if_pos hatoms, bc2Until_of_stop .bothAtom atoms 0 hstop, List.mapM_cons]
    exact (total_map_iff _).symm
  rw [if_neg hatoms]
  by_cases hlen : a.toValue.isAtom = true ∨ b.toValue.isAtom = true ∨ a.toValue.len = b.toValue.len
  · rw [if_pos hlen, bc2Until_flat atoms hatoms hlen, total_map_iff]
  · push Not at hlen
    have hstop : Bc2Stop.bothAtom.shouldStop 0 a.toValue b.toValue = false := by
      simpa [Bc2Stop.shouldStop] using hatoms
    rw [if_neg (by simpa using hlen), bc2Until_length .bothAtom atoms 0 hstop
      (by simpa using hlen.1) (by simpa using hlen.2.1) hlen.2.2]
    exact iff_of_true (total_throw _) (total_pure _)

end Flat

/-! ### What the packed paths yield -/

theorem ofChecked_toInt {n : Int} {m : Int64} (h : m.toInt = n) : Value.ofChecked n = .int m := by
  unfold Value.ofChecked
  rw [i64?_some_iff.mpr h]

/-- The item of a range at a position. -/
theorem IntRangeData.toInt_item (r : IntRangeData) {i : Nat} (hi : i < r.len) :
    (Int64.ofInt (r.start.toInt + r.step.toInt * i)).toInt = r.start.toInt + r.step.toInt * i :=
  Int64.toInt_ofInt_of_le (r.fits i hi).1 (r.fits i hi).2

theorem checkedAffine_some {x scale offset z : Int64} (h : checkedAffine x scale offset = some z) :
    z.toInt = x.toInt * scale.toInt + offset.toInt := by
  obtain ⟨product, hproduct, hz⟩ := Option.bind_eq_some_iff.mp h
  rw [i64?_some_iff.mp hz, i64?_some_iff.mp hproduct]

/-- An affine image of a range has the images of its items. -/
theorem affineIntRange_items {range : IntRangeData} {scale offset : Int64} {v : Value}
    (h : affineIntRange range scale offset = some v) :
    ∃ image : IntRangeData, v = .intRange image ∧
      List.Forall₂ (fun x z => z.toInt = x.toInt * scale.toInt + offset.toInt)
        range.toVec image.toVec := by
  unfold affineIntRange at h
  by_cases hlen : range.len = 0
  · rw [if_pos hlen] at h
    obtain rfl := Option.some.inj h
    refine ⟨.empty, rfl, ?_⟩
    have hnil : range.toVec = [] := by
      unfold IntRangeData.toVec
      rw [hlen]
      rfl
    rw [hnil]
    exact .nil
  rw [if_neg hlen] at h
  obtain ⟨step, hstep, h⟩ := Option.bind_eq_some_iff.mp h
  by_cases hzero : step = 0
  · rw [if_pos hzero] at h
    cases h
  rw [if_neg hzero] at h
  obtain ⟨start, hstart, h⟩ := Option.bind_eq_some_iff.mp h
  obtain ⟨last, -, h⟩ := Option.bind_eq_some_iff.mp h
  obtain ⟨-, -, h⟩ := Option.bind_eq_some_iff.mp h
  obtain ⟨image, himage, h⟩ := Option.bind_eq_some_iff.mp h
  obtain rfl := Option.some.inj h
  refine ⟨image, rfl, ?_⟩
  unfold IntRangeData.ofEnds at himage
  split at himage
  · obtain rfl := Option.some.inj himage
    unfold IntRangeData.toVec
    rw [List.forall₂_map_left_iff, List.forall₂_map_right_iff, List.forall₂_same]
    intro i hi
    have hi := List.mem_range.mp hi
    rw [range.toInt_item hi]
    have hitem := IntRangeData.toInt_item ⟨start, step, range.len, range_fits ‹_›⟩ hi
    refine hitem.trans ?_
    show start.toInt + step.toInt * i = _
    rw [checkedAffine_some hstart, i64?_some_iff.mp hstep]
    ring
  · cases himage

section Specs

variable {ops : NumberOps} {general : Checked Value}

theorem packedSpec_failure : PackedSpec failure general := nofun

theorem packedSpec_orElse {p q : Packed Value} (hp : PackedSpec p general)
    (hq : PackedSpec q general) : PackedSpec (p <|> q) general := by
  intro v hv
  cases hrun : p.run with
  | none =>
    rw [OptionT.run_orElse, hrun] at hv
    cases hv
  | some r =>
    cases r with
    | none =>
      rw [OptionT.run_orElse, hrun] at hv
      exact hq v hv
    | some w =>
      rw [OptionT.run_orElse, hrun] at hv
      obtain rfl : w = v := Option.some.inj (Option.some.inj hv)
      exact hp w hrun

theorem packedSpec_ofOption {o : Option Value}
    (h : ∀ v, o = some v → ∃ w, general.run = some (.ok w) ∧ v.norm = w.norm) :
    PackedSpec (.ofOption o) general :=
  fun v hv => h v (Option.some.inj hv)

/-- A loop whose items all succeed yields the list of their results. -/
theorem loop_yields {α : Type} {xs : List α} {c : α → Checked Value} {zs : List Value}
    (hgeneral : general = do return fromItems (← xs.mapM c))
    (h : List.Forall₂ (fun x z => (c x).run = some (.ok z)) xs zs) :
    general.run = some (.ok (fromItems zs)) := by
  rw [hgeneral, ExceptT.run_bind, mapM_run_ok h]
  rfl

/-- A packed loop over machine integers, against a general loop over the same
items. -/
theorem packedSpec_intlistLoop {α : Type} {xs : List α} {c : α → Checked Value}
    {f : α → Packed Int64} (hgeneral : general = do return fromItems (← xs.mapM c))
    (hf : ∀ x z, (f x).run = some (some z) → (c x).run = some (.ok (.int z))) :
    PackedSpec (.intList <$> intlistLoop xs f) general := by
  intro v hv
  cases hloop : (intlistLoop xs f).run with
  | none => simp [hloop] at hv
  | some r =>
    cases r with
    | none => simp [hloop] at hv
    | some zs =>
      obtain rfl : .intList zs = v := by simpa [hloop] using hv
      refine ⟨fromItems (zs.map .int), loop_yields hgeneral ?_, ?_⟩
      · rw [List.forall₂_map_right_iff]
        exact (intlistLoop_yields hloop).imp hf
      · rw [norm_fromItems, List.map_map]
        rfl

/-- The same for an affine image of a range. -/
theorem packedSpec_affineIntRange {range : IntRangeData} {scale offset : Int64}
    {c : Int64 → Checked Value} (hgeneral : general = do return fromItems (← range.toVec.mapM c))
    (hc : ∀ x z, z.toInt = x.toInt * scale.toInt + offset.toInt →
      (c x).run = some (.ok (.int z))) :
    PackedSpec (.ofOption (affineIntRange range scale offset)) general := by
  refine packedSpec_ofOption fun v hv => ?_
  obtain ⟨image, rfl, himage⟩ := affineIntRange_items hv
  refine ⟨fromItems (image.toVec.map .int), loop_yields hgeneral ?_, ?_⟩
  · rw [List.forall₂_map_right_iff]
    exact himage.imp hc
  · rw [norm_fromItems, List.map_map]
    rfl

/-- A general loop over items with float results. -/
theorem floats_yield {α : Type} {xs : List α} {c : α → Checked Value} {g : α → F64}
    (hgeneral : general = do return fromItems (← xs.mapM c))
    (hc : ∀ x, (c x).run = some (.ok (.float (g x)))) :
    ∃ w, general.run = some (.ok w) ∧ (Value.floatList (xs.map g)).norm = w.norm := by
  refine ⟨fromItems (xs.map fun x => .float (g x)), loop_yields hgeneral ?_, ?_⟩
  · rw [List.forall₂_map_right_iff, List.forall₂_same]
    exact fun x _ => hc x
  · rw [norm_fromItems, Value.norm, List.map_map, List.map_map]
    rfl

/-! ### The broadcast as a loop -/

section Loops

variable (atoms : Value → Value → Checked Value) {a b : PackedOperand}

theorem bc2Until_left (ha : a.toValue.isAtom = true) (hb : b.toValue.isAtom = false) :
    bc2Until .bothAtom atoms 0 a.toValue b.toValue = do
      return fromItems (← b.toValue.containerItems.mapM fun y => atoms a.toValue y) := by
  rw [bc2Until_flat atoms (by simp [hb]) (.inl ha), pairItems, if_pos ha, List.mapM_map]
  rfl

theorem bc2Until_right (ha : a.toValue.isAtom = false) (hb : b.toValue.isAtom = true) :
    bc2Until .bothAtom atoms 0 a.toValue b.toValue = do
      return fromItems (← a.toValue.containerItems.mapM fun x => atoms x b.toValue) := by
  rw [bc2Until_flat atoms (by simp [ha]) (.inr (.inl hb)), pairItems, if_neg (by simp [ha]),
    if_pos hb, List.mapM_map]
  rfl

theorem bc2Until_zip (ha : a.toValue.isAtom = false) (hb : b.toValue.isAtom = false)
    (hlen : a.toValue.len = b.toValue.len) :
    bc2Until .bothAtom atoms 0 a.toValue b.toValue = do
      return fromItems (← (a.toValue.containerItems.zip b.toValue.containerItems).mapM
        fun p => atoms p.1 p.2) := by
  rw [bc2Until_flat atoms (by simp [ha]) (.inr (.inr hlen)), pairItems, if_neg (by simp [ha]),
    if_neg (by simp [hb])]

/-- The pairs of a packed loop are those of the broadcast. -/
theorem bc2Until_loopPairs {pairs : List (Int64 × Int64)}
    (h : loopPairs a.toValue b.toValue = some pairs) :
    bc2Until .bothAtom atoms 0 a.toValue b.toValue = do
      return fromItems (← pairs.mapM fun p => atoms (.int p.1) (.int p.2)) := by
  cases a with
  | int n =>
    cases b with
    | intList ys =>
      obtain rfl := Option.some.inj h
      rw [bc2Until_left atoms rfl rfl, List.mapM_map]
      exact congrArg (· >>= _) List.mapM_map
    | _ => cases h
  | intList xs =>
    cases b with
    | int n =>
      obtain rfl := Option.some.inj h
      rw [bc2Until_right atoms rfl rfl, List.mapM_map]
      exact congrArg (· >>= _) List.mapM_map
    | intList ys =>
      change (if xs.length = ys.length then some (xs.zip ys) else none) = some pairs at h
      by_cases hlen : xs.length = ys.length
      · rw [if_pos hlen] at h
        obtain rfl := Option.some.inj h
        have hlen' : (PackedOperand.intList xs).toValue.len =
            (PackedOperand.intList ys).toValue.len := hlen
        rw [bc2Until_zip atoms rfl rfl hlen']
        show (((xs.map Value.int).zip (ys.map Value.int)).mapM _ >>= _) = _
        rw [List.zip_map, List.mapM_map]
        rfl
      · rw [if_neg hlen] at h
        cases h
    | _ => cases h
  | _ => cases h

/-- A loop over machine integers, against the broadcast. -/
theorem packedSpec_intlistBinary {f : Int64 → Int64 → Packed Int64}
    (hf : ∀ x y z, (f x y).run = some (some z) →
      (atoms (.int x) (.int y)).run = some (.ok (.int z))) :
    PackedSpec (intlistBinary f a.toValue b.toValue)
      (bc2Until .bothAtom atoms 0 a.toValue b.toValue) := by
  rw [intlistBinary_eq]
  cases hpairs : loopPairs a.toValue b.toValue with
  | none => exact packedSpec_failure
  | some pairs =>
    exact packedSpec_intlistLoop (bc2Until_loopPairs atoms hpairs) fun p => hf p.1 p.2

theorem packedSpec_intlistDivision {f : Int64 → Int64 → Packed Int64}
    (hf : ∀ x y z, (f x y).run = some (some z) →
      (atoms (.int x) (.int y)).run = some (.ok (.int z))) :
    PackedSpec (intlistDivision f a.toValue b.toValue)
      (bc2Until .bothAtom atoms 0 a.toValue b.toValue) := by
  unfold intlistDivision
  split
  · split
    · exact packedSpec_failure
    · exact packedSpec_intlistBinary atoms hf
  · exact packedSpec_intlistBinary atoms hf

/-- An affine image of a range, against the range and an integer. -/
theorem packedSpec_range_int {range : IntRangeData} {n scale offset : Int64}
    (hatoms : ∀ x z, z.toInt = x.toInt * scale.toInt + offset.toInt →
      (atoms (.int x) (.int n)).run = some (.ok (.int z))) :
    PackedSpec (.ofOption (affineIntRange range scale offset))
      (bc2Until .bothAtom atoms 0 (.intRange range) (.int n)) := by
  have hloop := bc2Until_right atoms (a := .intRange range) (b := .int n) rfl rfl
  exact packedSpec_affineIntRange (hloop.trans (congrArg (· >>= _) List.mapM_map)) hatoms

theorem packedSpec_int_range {range : IntRangeData} {n scale offset : Int64}
    (hatoms : ∀ y z, z.toInt = y.toInt * scale.toInt + offset.toInt →
      (atoms (.int n) (.int y)).run = some (.ok (.int z))) :
    PackedSpec (.ofOption (affineIntRange range scale offset))
      (bc2Until .bothAtom atoms 0 (.int n) (.intRange range)) := by
  have hloop := bc2Until_left atoms (a := .int n) (b := .intRange range) rfl rfl
  exact packedSpec_affineIntRange (hloop.trans (congrArg (· >>= _) List.mapM_map)) hatoms

/-- A packed operation on floats, against the broadcast. -/
theorem packedSpec_packedFloatBinary {f : F64 → F64 → F64}
    (hff : ∀ x y, (atoms (.float x) (.float y)).run = some (.ok (.float (f x y))))
    (hfi : ∀ (x : F64) (n : Int64),
      (atoms (.float x) (.int n)).run = some (.ok (.float (f x (.ofInt n.toInt)))))
    (hif : ∀ (n : Int64) (y : F64),
      (atoms (.int n) (.float y)).run = some (.ok (.float (f (.ofInt n.toInt) y)))) :
    PackedSpec (.ofOption (packedFloatBinary f a.toValue b.toValue))
      (bc2Until .bothAtom atoms 0 a.toValue b.toValue) := by
  refine packedSpec_ofOption fun v hv => ?_
  cases a with
  | int n =>
    cases b with
    | floatList ys =>
      obtain rfl := Option.some.inj hv
      have hloop := bc2Until_left atoms (a := .int n) (b := .floatList ys) rfl rfl
      exact floats_yield (hloop.trans (congrArg (· >>= _) List.mapM_map)) (hif n)
    | _ => cases hv
  | floatList xs =>
    cases b with
    | int n =>
      obtain rfl := Option.some.inj hv
      have hloop := bc2Until_right atoms (a := .floatList xs) (b := .int n) rfl rfl
      exact floats_yield (hloop.trans (congrArg (· >>= _) List.mapM_map)) (hfi · n)
    | floatList ys =>
      change (if xs.length ≠ ys.length then none else some (xs.zipWith f ys)).map _ = some v at hv
      by_cases hlen : xs.length = ys.length
      · rw [if_neg (by simpa using hlen)] at hv
        obtain rfl := Option.some.inj hv
        have hlen' : (PackedOperand.floatList xs).toValue.len =
            (PackedOperand.floatList ys).toValue.len := hlen
        have hloop := bc2Until_zip atoms rfl rfl hlen'
        have hzip : (PackedOperand.floatList xs).toValue.containerItems.zip
              (PackedOperand.floatList ys).toValue.containerItems =
            (xs.zip ys).map fun p => (.float p.1, .float p.2) := List.zip_map ..
        rw [hzip, List.mapM_map] at hloop
        rw [← List.map_uncurry_zip_eq_zipWith]
        exact floats_yield hloop fun p => hff p.1 p.2
      · rw [if_pos hlen] at hv
        cases hv
    | _ => cases hv
  | _ => cases hv

end Loops

end Specs

end Wqpl
