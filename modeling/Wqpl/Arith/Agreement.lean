/-
# Operations on packed lists agree with the broadcast

Every operation on integers and packed lists fails or yields the same items as
the broadcast of its atoms' operation, and does not panic, except where it
takes a remainder of the smallest machine integer by -1
(`packed_agrees_iff`).
-/
import Wqpl.Arith.PackedSpec

namespace Wqpl

open Value

variable {ops : NumberOps} {a b : PackedOperand}

/-! ### The paths of the operations -/

/-- An exact result that a machine integer holds. -/
theorem run_ofChecked {n : Int} {z : Int64} (h : z.toInt = n) :
    (pure (Value.ofChecked n) : Checked Value).run = some (.ok (.int z)) := by
  rw [ofChecked_toInt h]
  rfl

theorem checkedOp_some {exact : Int → Int → Int} {x y z : Int64}
    (h : (checkedOp exact x y).run = some (some z)) : z.toInt = exact x.toInt y.toInt :=
  i64?_some_iff.mp (Option.some.inj h)

theorem packedSpec_addIntlist : PackedSpec (addIntlist a.toValue b.toValue)
    (bc2Until .bothAtom (addAtoms ops) 0 a.toValue b.toValue) := by
  have binary : PackedSpec (intlistBinary (checkedOp (· + ·)) a.toValue b.toValue)
      (bc2Until .bothAtom (addAtoms ops) 0 a.toValue b.toValue) :=
    packedSpec_intlistBinary _ fun x y z hz => run_ofChecked (checkedOp_some hz)
  cases a with
  | intRange range =>
    cases b with
    | int n =>
      refine packedSpec_range_int _ fun x z hz => run_ofChecked ?_
      rw [hz]
      exact congrArg (· + n.toInt) (Int.mul_one _)
    | _ => exact binary
  | int n =>
    cases b with
    | intRange range =>
      refine packedSpec_int_range _ fun y z hz => run_ofChecked ?_
      rw [hz, Int.add_comm]
      exact congrArg (n.toInt + ·) (Int.mul_one _)
    | _ => exact binary
  | _ => exact binary

theorem packedSpec_subIntlist : PackedSpec (subIntlist a.toValue b.toValue)
    (bc2Until .bothAtom (subAtoms ops) 0 a.toValue b.toValue) := by
  have binary : PackedSpec (intlistBinary (checkedOp (· - ·)) a.toValue b.toValue)
      (bc2Until .bothAtom (subAtoms ops) 0 a.toValue b.toValue) :=
    packedSpec_intlistBinary _ fun x y z hz => run_ofChecked (checkedOp_some hz)
  cases a with
  | intRange range =>
    cases b with
    | int n =>
      cases hneg : i64? (-n.toInt) with
      | none =>
        have hnone : subIntlist (.intRange range) (.int n) = failure := by
          rw [subIntlist, hneg]
          rfl
        exact hnone ▸ packedSpec_failure
      | some m =>
        have hsome : subIntlist (.intRange range) (.int n) =
            .ofOption (affineIntRange range 1 m) := by
          rw [subIntlist, hneg]
          rfl
        refine hsome ▸ packedSpec_range_int _ fun x z hz => run_ofChecked ?_
        rw [hz, i64?_some_iff.mp hneg]
        exact congrArg (· + -n.toInt) (Int.mul_one _)
    | _ => exact binary
  | int n =>
    cases b with
    | intRange range =>
      refine packedSpec_int_range _ fun y z hz => run_ofChecked ?_
      have hone : (-1 : Int64).toInt = -1 := rfl
      rw [hz, hone]
      omega
    | _ => exact binary
  | _ => exact binary

theorem packedSpec_mulIntlist : PackedSpec (mulIntlist a.toValue b.toValue)
    (bc2Until .bothAtom (mulAtoms ops) 0 a.toValue b.toValue) := by
  have binary : PackedSpec (intlistBinary (checkedOp (· * ·)) a.toValue b.toValue)
      (bc2Until .bothAtom (mulAtoms ops) 0 a.toValue b.toValue) :=
    packedSpec_intlistBinary _ fun x y z hz => run_ofChecked (checkedOp_some hz)
  have hzero : (0 : Int64).toInt = 0 := rfl
  cases a with
  | intRange range =>
    cases b with
    | int n =>
      refine packedSpec_range_int _ fun x z hz => run_ofChecked ?_
      rw [hz, hzero, Int.add_zero]
    | _ => exact binary
  | int n =>
    cases b with
    | intRange range =>
      refine packedSpec_int_range _ fun y z hz => run_ofChecked ?_
      rw [hz, hzero, Int.add_zero, Int.mul_comm]
    | _ => exact binary
  | _ => exact binary

theorem isZero_int (n : Int64) : isZero (.int n) = true ↔ n = 0 := by
  have htoInt : n.toInt = 0 ↔ n = 0 := Int64.toInt_inj (y := 0)
  simpa [isZero] using htoInt

theorem modAtoms_int {x y : Int64} (hy : y ≠ 0) :
    modAtoms ops (.int x) (.int y) = do return .int (← .ofOption (rem? x y)) := by
  have hzero : ¬isZero (.int y) = true := fun hzero => hy ((isZero_int y).mp hzero)
  unfold modAtoms
  rw [if_neg hzero]

theorem divDotAtoms_int {x y : Int64} (hy : y ≠ 0) :
    divDotAtoms ops (.int x) (.int y) = do
      if (← .ofOption (rem? x y)).toInt = 0 then return .int (← .ofOption (quot? x y))
      else return .fromFractionParts x.toInt y.toInt := by
  have hzero : ¬isZero (.int y) = true := fun hzero => hy ((isZero_int y).mp hzero)
  unfold divDotAtoms
  rw [if_neg hzero]

/-- A remainder that a loop takes is that of the atoms. -/
theorem remItem_modAtoms {x y z : Int64} (h : (remItem x y).run = some (some z)) :
    (modAtoms ops (.int x) (.int y)).run = some (.ok (.int z)) := by
  unfold remItem at h
  by_cases hy : y = 0
  · rw [if_pos hy] at h
    cases h
  rw [if_neg hy] at h
  obtain ⟨r, hr, hz⟩ := Option.map_eq_some_iff.mp h
  obtain rfl := Option.some.inj hz
  rw [modAtoms_int hy, hr]
  rfl

theorem floorDivItem_floorDivAtoms {x y z : Int64} (h : (floorDivItem x y).run = some (some z)) :
    (floorDivAtoms ops (.int x) (.int y)).run = some (.ok (.int z)) := by
  unfold floorDivItem at h
  rw [floorDivAtoms]
  by_cases hy : y = 0
  · rw [if_pos hy] at h
    cases h
  by_cases hoverflow : x.toInt = -2 ^ 63 ∧ y.toInt = -1
  · rw [if_neg hy, if_pos hoverflow] at h
    cases h
  rw [if_neg hy, if_neg hoverflow] at h ⊢
  obtain ⟨q, hq, hz⟩ := Option.map_eq_some_iff.mp h
  obtain rfl := Option.some.inj hz
  rw [hq]
  rfl

theorem packedSpec_shiftIntlist {atoms : Value → Value → Checked Value}
    {word : Int64 → Nat → Value}
    (hatoms : ∀ x s, atoms (.int x) (.int s) = do return word x (← exponent s.toInt)) :
    PackedSpec (shiftIntlist word a.toValue b.toValue)
      (bc2Until .bothAtom atoms 0 a.toValue b.toValue) := by
  cases a with
  | intList xs =>
    cases b with
    | int s =>
      refine packedSpec_ofOption fun v hv => ?_
      obtain ⟨shift, hshift, hv⟩ := Option.bind_eq_some_iff.mp hv
      obtain rfl := Option.some.inj hv
      have hloop := bc2Until_right atoms (a := .intList xs) (b := .int s) rfl rfl
      refine ⟨_, loop_yields (hloop.trans (congrArg (· >>= _) List.mapM_map)) (?_ :
        List.Forall₂ _ xs (xs.map (word · shift))), rfl⟩
      rw [List.forall₂_map_right_iff, List.forall₂_same]
      intro x _
      show (atoms (.int x) (.int s)).run = _
      rw [hatoms, exponent, hshift]
      rfl
    | _ => exact packedSpec_failure
  | _ => exact packedSpec_failure

/-- **What a path over packed lists yields**, the broadcast does. -/
theorem packedSpec_packed (op : ArithOp) : PackedSpec (op.packed ops a.toValue b.toValue)
    (bc2Until .bothAtom (op.atoms ops) 0 a.toValue b.toValue) := by
  cases op with
  | add =>
    refine packedSpec_orElse packedSpec_addIntlist (packedSpec_packedFloatBinary _
      (fun _ _ => rfl) (fun x n => ?_) (fun _ _ => rfl))
    exact congrArg (fun f => some (Except.ok (Value.float f))) (ops.fadd_comm _ _)
  | subtract =>
    exact packedSpec_orElse packedSpec_subIntlist (packedSpec_packedFloatBinary _
      (fun _ _ => rfl) (fun _ _ => rfl) (fun _ _ => rfl))
  | multiply =>
    refine packedSpec_orElse packedSpec_mulIntlist (packedSpec_packedFloatBinary _
      (fun _ _ => rfl) (fun x n => ?_) (fun _ _ => rfl))
    exact congrArg (fun f => some (Except.ok (Value.float f))) (ops.fmul_comm _ _)
  | modulo => exact packedSpec_intlistDivision _ fun _ _ _ => @remItem_modAtoms ops _ _ _
  | floorDiv => exact packedSpec_intlistDivision _ fun _ _ _ => @floorDivItem_floorDivAtoms ops _ _ _
  | bitAnd | bitOr | bitXor =>
    refine packedSpec_intlistBinary _ fun x y z hz => ?_
    obtain rfl := Option.some.inj (Option.some.inj hz)
    rfl
  | shl | shr => exact packedSpec_shiftIntlist fun _ _ => rfl
  | divide | divideDot | power | powerDot => exact packedSpec_failure

/-! ### One operand -/

theorem packedSpec_negIntlist : PackedSpec (negIntlist a.toValue)
    (bc1Until .atom (negAtom ops) 0 a.toValue) := by
  have hneg : ∀ x z : Int64, z.toInt = -x.toInt →
      (negAtom ops (.int x)).run = some (.ok (.int z)) := by
    intro x z hz
    rw [negAtom, i64?_some_iff.mpr hz]
    rfl
  cases a with
  | intList xs =>
    refine packedSpec_intlistLoop (c := fun x => negAtom ops (.int x)) ?_ fun x z hz => ?_
    · show bc1Until .atom (negAtom ops) 0 (.intList xs) = _
      rw [bc1Until.eq_def]
      exact congrArg (· >>= _) List.mapM_map
    · exact hneg x z (i64?_some_iff.mp (Option.some.inj hz))
  | intRange range =>
    refine packedSpec_affineIntRange (c := fun x => negAtom ops (.int x)) ?_ fun x z hz => ?_
    · show bc1Until .atom (negAtom ops) 0 (.intRange range) = _
      rw [bc1Until.eq_def]
      exact congrArg (· >>= _) List.mapM_map
    · have hone : (-1 : Int64).toInt = -1 := rfl
      have hzero : (0 : Int64).toInt = 0 := rfl
      refine hneg x z ?_
      rw [hz, hone, hzero]
      omega
  | _ => exact packedSpec_failure

theorem packedSpec_notIntlist : PackedSpec (notIntlist a.toValue)
    (bc1Until .atom (notAtom ops) 0 a.toValue) := by
  cases a with
  | intList xs =>
    refine packedSpec_intlistLoop (c := fun x => notAtom ops (.int x)) ?_ fun x z hz => ?_
    · show bc1Until .atom (notAtom ops) 0 (.intList xs) = _
      rw [bc1Until.eq_def]
      exact congrArg (· >>= _) List.mapM_map
    · obtain rfl := Option.some.inj (Option.some.inj hz)
      rfl
  | _ => exact packedSpec_failure

/-! ### Panics -/

/-- The quotient of these does not fit. -/
def IsOverflow (x y : Value) : Prop := x = .int Int64.minValue ∧ y = .int (-1)

theorem overflow_iff {x y : Int64} :
    (x.toInt = -2 ^ 63 ∧ y.toInt = -1) ↔ x = Int64.minValue ∧ y = -1 :=
  and_congr (Int64.toInt_inj (y := Int64.minValue)) (Int64.toInt_inj (y := -1))

theorem isOverflow_int {x y : Int64} :
    IsOverflow (.int x) (.int y) ↔ x.toInt = -2 ^ 63 ∧ y.toInt = -1 := by
  rw [overflow_iff, IsOverflow, Value.int.injEq, Value.int.injEq]

theorem rem?_eq_none {x y : Int64} (hy : y ≠ 0) :
    rem? x y = none ↔ IsOverflow (.int x) (.int y) := by
  rw [isOverflow_int]
  unfold rem?
  by_cases h : x.toInt = -2 ^ 63 ∧ y.toInt = -1
  · rw [if_pos (.inr h)]
    exact iff_of_true rfl h
  · rw [if_neg (not_or.mpr ⟨hy, h⟩)]
    exact iff_of_false nofun h

/-- The sign of the exclusive or tells whether the signs differ. -/
theorem xor_nonneg_iff (x y : Int64) : 0 ≤ (x ^^^ y).toInt ↔ (0 ≤ x.toInt ↔ 0 ≤ y.toInt) := by
  have hmsb : ∀ z : Int64, 0 ≤ z.toInt ↔ z.toBitVec.msb = false := by
    intro z
    rw [BitVec.msb_eq_toInt, Int64.toInt_toBitVec, decide_eq_false_iff_not, Int.not_lt]
  rw [hmsb, hmsb, hmsb, Int64.toBitVec_xor, BitVec.msb_xor]
  rcases x.toBitVec.msb <;> rcases y.toBitVec.msb <;> simp

theorem toInt_ofInt_tmod (x y : Int64) (hy : y.toInt ≠ 0) :
    (Int64.ofInt (x.toInt.tmod y.toInt)).toInt = x.toInt.tmod y.toInt := by
  have habs : (x.toInt.tmod y.toInt).natAbs < y.toInt.natAbs := by
    rw [Int.natAbs_tmod]
    exact Nat.mod_lt _ (Int.natAbs_pos.mpr hy)
  have hy₁ := y.le_toInt
  have hy₂ := y.toInt_lt
  exact Int64.toInt_ofInt_of_le (by omega) (by omega)

/-- The quotient of two machine integers rounded down fits whenever the
quotient does. -/
theorem floorQuotient?_eq {x y : Int64} (hy : y ≠ 0)
    (h : ¬(x.toInt = -2 ^ 63 ∧ y.toInt = -1)) :
    floorQuotient? x y = some (Int64.ofInt (x.toInt.fdiv y.toInt)) := by
  have hcond : ¬(y = 0 ∨ (x.toInt = -2 ^ 63 ∧ y.toInt = -1)) := not_or.mpr ⟨hy, h⟩
  have hy0 : y.toInt ≠ 0 := fun hzero => hy (Int64.toInt_inj.mp hzero)
  have hrun : floorQuotient? x y =
      if x.toInt.tmod y.toInt = 0 ∨ 0 ≤ (x ^^^ y).toInt then
        some (Int64.ofInt (x.toInt.tdiv y.toInt))
      else i64? ((Int64.ofInt (x.toInt.tdiv y.toInt)).toInt - 1) := by
    rw [← toInt_ofInt_tmod x y hy0]
    unfold floorQuotient? quot? rem?
    rw [if_neg hcond, if_neg hcond]
    rfl
  simp only [hrun, xor_nonneg_iff, ← Int.dvd_iff_tmod_eq_zero]
  have hfdiv := Int.fdiv_eq_tdiv (a := x.toInt) (b := y.toInt)
  by_cases hdvd : y.toInt ∣ x.toInt
  · rw [if_pos hdvd, Int.sub_zero] at hfdiv
    rw [if_pos (.inl hdvd), hfdiv]
  rw [if_neg hdvd] at hfdiv
  -- with a remainder the divisor is 2 at least, and the quotient far from the ends
  have hy1 : y.toInt ≠ 1 := fun hone => hdvd (hone ▸ Int.one_dvd _)
  have hy2 : y.toInt ≠ -1 := fun hone => hdvd (hone ▸ Int.neg_dvd.mpr (Int.one_dvd _))
  have hx := x.le_toInt
  have hx' := x.toInt_lt
  have habs : (x.toInt.tdiv y.toInt).natAbs ≤ 2 ^ 62 := by
    rw [Int.natAbs_tdiv]
    calc x.toInt.natAbs / y.toInt.natAbs
        ≤ x.toInt.natAbs / 2 := Nat.div_le_div_left (by omega) (by decide)
      _ ≤ 2 ^ 62 := by omega
  have hquot : (Int64.ofInt (x.toInt.tdiv y.toInt)).toInt = x.toInt.tdiv y.toInt :=
    Int64.toInt_ofInt_of_le (by omega) (by omega)
  have hfits : InI64 (x.toInt.tdiv y.toInt - 1) := by
    unfold InI64
    omega
  by_cases hsign : (0 ≤ x.toInt ↔ 0 ≤ y.toInt)
  · rw [if_pos (.inr hsign)]
    by_cases hx0 : 0 ≤ x.toInt
    · rw [hfdiv, if_pos hx0, if_pos (hsign.mp hx0), Int.sub_zero]
    · have hneg : y.toInt < 0 := by omega
      rw [hfdiv, if_neg hx0, if_neg (by omega), Int.sign_eq_neg_one_of_neg hneg]
      simp
  · rw [if_neg (not_or.mpr ⟨hdvd, hsign⟩), hquot, i64?, if_pos hfits, hfdiv]
    by_cases hx0 : 0 ≤ x.toInt
    · rw [if_pos hx0, if_neg (fun hy => hsign ⟨fun _ => hy, fun _ => hx0⟩)]
    · have hpos : 0 < y.toInt := by omega
      rw [if_neg hx0, if_pos hpos.le, Int.sign_eq_one_of_pos hpos]

theorem total_exponent (n : Int) : Total (exponent n) := by
  unfold exponent
  cases u32? n with
  | none => exact total_throw _
  | some k => exact total_pure k

theorem total_bigToFloat (n : Int) : Total (bigToFloat ops n) := by
  unfold bigToFloat
  cases ops.bigIntToF64 n with
  | none => exact total_throw _
  | some f => exact total_pure f

theorem total_floorFloat (v : Value) : Total (floorFloat ops v) := by
  unfold floorFloat
  split
  · exact total_ite (fun _ => total_throw _) fun _ => total_pure _
  · exact total_pure v

theorem total_exactPower (base exp : Int) : Total (exactPower base exp) := by
  unfold exactPower
  refine total_ite (fun _ => total_ite (fun _ => total_throw _) fun _ => ?_) fun _ => ?_
  · exact (total_map_iff _).mpr (total_exponent _)
  · exact (total_map_iff _).mpr (total_exponent _)

theorem total_powAtoms {x y : Value} (hx : IsMachineNumber x) (hy : IsMachineNumber y) :
    Total (powAtoms ops x y) := by
  cases x with
  | int n =>
    cases y with
    | int m =>
      refine total_ite (fun _ => (total_map_iff _).mpr (total_exponent _)) fun _ => ?_
      exact total_ite (fun _ => total_throw _) fun _ => total_pure _
    | float g => exact total_ite (fun _ => total_throw _) fun _ => total_pure _
    | _ => cases hy
  | float f =>
    cases y with
    | int _ | float _ => exact total_ite (fun _ => total_throw _) fun _ => total_pure _
    | _ => cases hy
  | _ => cases hx

theorem total_divAtoms {x y : Value} (hx : IsMachineNumber x) (hy : IsMachineNumber y) :
    Total (divAtoms ops x y) := by
  refine total_ite (fun _ => total_throw _) fun _ => ?_
  cases x with
  | int n =>
    cases y with
    | int _ | float _ => exact total_pure _
    | _ => cases hy
  | float f =>
    cases y with
    | int _ | float _ => exact total_pure _
    | _ => cases hy
  | _ => cases hx

/-- The operations that take no remainder do not panic. -/
theorem total_atoms {op : ArithOp} (hmod : op ≠ .modulo) (hdiv : op ≠ .divideDot) {x y : Value}
    (hx : IsMachineNumber x) (hy : IsMachineNumber y) : Total (op.atoms ops x y) := by
  have hdivision := @total_divAtoms ops _ _ hx hy
  have hpower := @total_powAtoms ops _ _ hx hy
  have hfloor : Total (do floorFloat ops (← divAtoms ops x y)) :=
    total_bind hdivision total_floorFloat
  cases x with
  | int n =>
    cases y with
    | int m =>
      cases op with
      | modulo => exact absurd rfl hmod
      | divideDot => exact absurd rfl hdiv
      | divide => exact hdivision
      | power => exact hpower
      | powerDot => exact total_ite (fun _ => total_exactPower _ _) fun _ => hpower
      | floorDiv =>
        refine total_ite (fun _ => total_throw _) fun hm => ?_
        refine total_ite (fun _ => total_pure _) fun hoverflow => ?_
        refine (total_map_iff _).mpr (total_ofOption ?_)
        rw [floorQuotient?_eq hm hoverflow]
        exact nofun
      | shl | shr => exact (total_map_iff _).mpr (total_exponent _)
      | add | subtract | multiply | bitAnd | bitOr | bitXor => exact total_pure _
    | float g =>
      cases op with
      | modulo => exact absurd rfl hmod
      | divideDot => exact absurd rfl hdiv
      | divide => exact hdivision
      | power | powerDot => exact hpower
      | floorDiv => exact hfloor
      | add | subtract | multiply => exact total_pure _
      | bitAnd | bitOr | bitXor | shl | shr => exact total_throw _
    | _ => cases hy
  | float f =>
    cases y with
    | int _ | float _ =>
      cases op with
      | modulo => exact absurd rfl hmod
      | divideDot => exact absurd rfl hdiv
      | divide => exact hdivision
      | power | powerDot => exact hpower
      | floorDiv => exact hfloor
      | add | subtract | multiply => exact total_pure _
      | bitAnd | bitOr | bitXor | shl | shr => exact total_throw _
    | _ => cases hy
  | _ => cases hx

/-- What the operations that take a remainder do on two numbers: they refuse a
divisor of zero, and panic where the quotient overflows. -/
structure TakesRemainder (atoms : Value → Value → Checked Value) : Prop where
  zero : ∀ x y, isZero y = true → (atoms x y).run = some (.error .zeroDiv)
  nonzero : ∀ x y, IsMachineNumber x → IsMachineNumber y → isZero y = false →
    (∃ v, (atoms x y).run = some (.ok v)) ∧ ¬IsOverflow x y ∨
      (atoms x y).run = none ∧ IsOverflow x y

theorem not_isOverflow_of_float {x y : Value} (h : (∃ f, x = .float f) ∨ ∃ g, y = .float g) :
    ¬IsOverflow x y := by
  rintro ⟨rfl, rfl⟩
  rcases h with ⟨f, h⟩ | ⟨g, h⟩ <;> cases h

theorem takesRemainder_modAtoms : TakesRemainder (modAtoms ops) where
  zero x y hy := by
    unfold modAtoms
    rw [if_pos hy]
    rfl
  nonzero x y hx hy hzero := by
    cases x with
    | int n =>
      cases y with
      | int m =>
        have hm : m ≠ 0 := fun h => by simp [(isZero_int m).mpr h] at hzero
        rw [modAtoms_int hm, ← rem?_eq_none hm]
        cases rem? n m with
        | none => exact .inr ⟨rfl, rfl⟩
        | some r => exact .inl ⟨⟨.int r, rfl⟩, nofun⟩
      | float g =>
        unfold modAtoms
        rw [if_neg (by simp [hzero])]
        exact .inl ⟨⟨_, rfl⟩, not_isOverflow_of_float (.inr ⟨g, rfl⟩)⟩
      | _ => cases hy
    | float f =>
      cases y with
      | int _ | float _ =>
        unfold modAtoms
        rw [if_neg (by simp [hzero])]
        exact .inl ⟨⟨_, rfl⟩, not_isOverflow_of_float (.inl ⟨f, rfl⟩)⟩
      | _ => cases hy
    | _ => cases hx

theorem takesRemainder_divDotAtoms : TakesRemainder (divDotAtoms ops) where
  zero x y hy := by
    unfold divDotAtoms
    rw [if_pos hy]
    rfl
  nonzero x y hx hy hzero := by
    cases x with
    | int n =>
      cases y with
      | int m =>
        have hm : m ≠ 0 := fun h => by simp [(isZero_int m).mpr h] at hzero
        rw [divDotAtoms_int hm, isOverflow_int]
        by_cases h : n.toInt = -2 ^ 63 ∧ m.toInt = -1
        · refine .inr ⟨?_, h⟩
          rw [(rem?_eq_none hm).mpr (isOverflow_int.mpr h)]
          rfl
        · have hcond : ¬(m = 0 ∨ (n.toInt = -2 ^ 63 ∧ m.toInt = -1)) := not_or.mpr ⟨hm, h⟩
          refine .inl ⟨?_, h⟩
          unfold rem? quot?
          rw [if_neg hcond, if_neg hcond]
          show ∃ v, (if (Int64.ofInt (n.toInt.tmod m.toInt)).toInt = 0 then
            pure (.int (Int64.ofInt (n.toInt.tdiv m.toInt)))
            else pure (.fromFractionParts n.toInt m.toInt) : Checked Value).run = some (.ok v)
          split <;> exact ⟨_, rfl⟩
      | float g =>
        unfold divDotAtoms
        rw [if_neg (by simp [hzero])]
        exact .inl ⟨⟨_, rfl⟩, not_isOverflow_of_float (.inr ⟨g, rfl⟩)⟩
      | _ => cases hy
    | float f =>
      cases y with
      | int _ | float _ =>
        unfold divDotAtoms
        rw [if_neg (by simp [hzero])]
        exact .inl ⟨⟨_, rfl⟩, not_isOverflow_of_float (.inl ⟨f, rfl⟩)⟩
      | _ => cases hy
    | _ => cases hx

namespace TakesRemainder

variable {atoms : Value → Value → Checked Value} (h : TakesRemainder atoms)
include h

theorem runs {x y : Value} (hx : IsMachineNumber x) (hy : IsMachineNumber y)
    (hzero : isZero y = false) (e : WqErrorType) : (atoms x y).run ≠ some (.error e) := by
  rcases h.nonzero x y hx hy hzero with ⟨⟨v, hv⟩, -⟩ | ⟨hnone, -⟩
  · rw [hv]
    exact nofun
  · rw [hnone]
    exact nofun

theorem total_iff {x y : Value} (hx : IsMachineNumber x) (hy : IsMachineNumber y) :
    Total (atoms x y) ↔ ¬IsOverflow x y := by
  unfold Total
  cases hzero : isZero y with
  | true =>
    rw [h.zero x y hzero]
    refine iff_of_true nofun ?_
    rintro ⟨-, rfl⟩
    cases hzero
  | false =>
    rcases h.nonzero x y hx hy hzero with ⟨⟨v, hv⟩, hoverflow⟩ | ⟨hnone, hoverflow⟩
    · rw [hv]
      exact iff_of_true nofun hoverflow
    · rw [hnone]
      exact iff_of_false (fun hne => hne rfl) fun hne => hne hoverflow

end TakesRemainder

/-- The overflow is reached: no divisor before it is zero. -/
def OverflowReached (pairs : List (Value × Value)) : Prop :=
  ∃ pre p post, pairs = pre ++ p :: post ∧ IsOverflow p.1 p.2 ∧ ∀ q ∈ pre, isZero q.2 = false

/-- A broadcast of such an operation panics where the overflow is reached. -/
theorem TakesRemainder.panics_iff {atoms : Value → Value → Checked Value}
    (h : TakesRemainder atoms) :
    ¬Total (bc2Until .bothAtom atoms 0 a.toValue b.toValue) ↔
      OverflowReached (reachedPairs a.toValue b.toValue) := by
  rw [total_bc2Until_iff, mapM_panics_iff]
  have hnumbers := @isMachineNumber_reachedPairs a b
  constructor
  · rintro ⟨pre, p, post, hpairs, hp, hpre⟩
    rw [hpairs] at hnumbers
    have hnp := hnumbers p (by simp)
    refine ⟨pre, p, post, hpairs, ?_, fun q hq => ?_⟩
    · by_contra hoverflow
      exact hp ((h.total_iff hnp.1 hnp.2).mpr hoverflow)
    · by_contra hzero
      exact hpre q hq .zeroDiv (h.zero q.1 q.2 (by simpa using hzero))
  · rintro ⟨pre, p, post, hpairs, hp, hpre⟩
    rw [hpairs] at hnumbers
    have hnp := hnumbers p (by simp)
    refine ⟨pre, p, post, hpairs, fun ht => (h.total_iff hnp.1 hnp.2).mp ht hp, ?_⟩
    intro q hq
    have hnq := hnumbers q (by simp [hq])
    exact h.runs hnq.1 hnq.2 (hpre q hq)

/-! ### Panics of the packed paths -/

section PackedTotal

theorem intlistLoop_total {α : Type} {xs : List α} {f : α → Packed Int64}
    (h : ∀ x ∈ xs, (f x).Total) : (intlistLoop xs f).Total := by
  unfold intlistLoop
  by_cases hlen : parBcThreshold ≤ xs.length
  · rw [if_pos hlen]
    intro hrun
    obtain ⟨x, hx, hnone⟩ := (mapM_none_iff xs).mp (Option.map_eq_none_iff.mp hrun)
    exact h x hx hnone
  · rw [if_neg hlen]
    intro hrun
    obtain ⟨pre, x, post, rfl, hnone, -⟩ := packed_mapM_panics hrun
    exact h x (by simp) hnone

theorem map_run_none {α β : Type} {c : Packed α} {f : α → β} :
    (f <$> c).run = none ↔ c.run = none := by
  rw [OptionT.run_map]
  exact Option.map_eq_none_iff

theorem map_total {α β : Type} {c : Packed α} {f : α → β} (h : c.Total) : (f <$> c).Total :=
  fun hrun => h (map_run_none.mp hrun)

theorem intlistBinary_run_none {f : Int64 → Int64 → Packed Int64} {x y : Value} :
    (intlistBinary f x y).run = none ↔
      ∃ pairs, loopPairs x y = some pairs ∧
        (intlistLoop pairs fun p => f p.1 p.2).run = none := by
  rw [intlistBinary_eq]
  cases loopPairs x y with
  | none => exact iff_of_false nofun (by simp)
  | some pairs =>
    rw [map_run_none]
    simp

theorem intlistBinary_total {f : Int64 → Int64 → Packed Int64} (h : ∀ x y, (f x y).Total)
    (x y : Value) : (intlistBinary f x y).Total := by
  intro hrun
  obtain ⟨pairs, -, hloop⟩ := intlistBinary_run_none.mp hrun
  exact intlistLoop_total (fun p _ => h p.1 p.2) hloop

theorem intlistDivision_run_none {f : Int64 → Int64 → Packed Int64} {x y : Value}
    (h : (intlistDivision f x y).run = none) : (intlistBinary f x y).run = none := by
  unfold intlistDivision at h
  split at h
  · split at h
    · cases h
    · exact h
  · exact h

theorem orElse_total {p q : Packed Value} (hp : p.Total) (hq : q.Total) : (p <|> q).Total := by
  unfold Packed.Total at *
  rw [OptionT.run_orElse]
  cases h : p.run with
  | none => exact absurd h hp
  | some r =>
    cases r with
    | none => exact hq
    | some v => exact nofun

theorem ofOption_total {α : Type} (o : Option α) : (Packed.ofOption o).Total := nofun

end PackedTotal

/-- The pair that overflows is gone over by a loop that runs in parallel. -/
def OverflowInParallel (a b : Value) : Prop :=
  ∃ pairs, loopPairs a b = some pairs ∧ parBcThreshold ≤ pairs.length ∧
    (Int64.minValue, -1) ∈ pairs

theorem remItem_run_none {x y : Int64} :
    (remItem x y).run = none ↔ x = Int64.minValue ∧ y = -1 := by
  rw [← overflow_iff, ← isOverflow_int]
  unfold remItem
  by_cases hy : y = 0
  · rw [if_pos hy, isOverflow_int, overflow_iff]
    refine iff_of_false nofun ?_
    rintro ⟨-, rfl⟩
    cases hy
  · rw [if_neg hy, ← rem?_eq_none hy]
    exact Option.map_eq_none_iff

theorem total_modIntlist (h : ¬OverflowInParallel a.toValue b.toValue)
    (hgeneral : Total (bc2Until .bothAtom (modAtoms ops) 0 a.toValue b.toValue)) :
    (modIntlist a.toValue b.toValue).Total := by
  intro hrun
  obtain ⟨pairs, hpairs, hloop⟩ := intlistBinary_run_none.mp (intlistDivision_run_none hrun)
  unfold intlistLoop at hloop
  by_cases hlen : parBcThreshold ≤ pairs.length
  · rw [if_pos hlen] at hloop
    obtain ⟨p, hp, hnone⟩ := (mapM_none_iff pairs).mp (Option.map_eq_none_iff.mp hloop)
    refine h ⟨pairs, hpairs, hlen, ?_⟩
    obtain ⟨h1, h2⟩ := remItem_run_none.mp hnone
    rwa [← h1, ← h2]
  · rw [if_neg hlen] at hloop
    obtain ⟨pre, p, post, hsplit, hnone, hpre⟩ := packed_mapM_panics hloop
    rw [bc2Until_loopPairs _ hpairs, total_map_iff] at hgeneral
    refine (mapM_panics_iff _ pairs).mpr ⟨pre, p, post, hsplit, ?_, fun q hq e hq' => ?_⟩ hgeneral
    · have hoverflow := isOverflow_int.mpr (overflow_iff.mpr (remItem_run_none.mp hnone))
      exact fun ht =>
        (takesRemainder_modAtoms.total_iff (x := .int p.1) (y := .int p.2) ⟨⟩ ⟨⟩).mp ht hoverflow
    · refine takesRemainder_modAtoms.runs (x := .int q.1) (y := .int q.2) ⟨⟩ ⟨⟩ ?_ e hq'
      have hzero : q.2 ≠ 0 := by
        intro hzero
        refine hpre q hq ?_
        unfold remItem
        rw [if_pos hzero]
        rfl
      simpa using fun hz => hzero ((isZero_int q.2).mp hz)

theorem not_total_modIntlist (h : OverflowInParallel a.toValue b.toValue) :
    ¬(modIntlist a.toValue b.toValue).Total := by
  obtain ⟨pairs, hpairs, hlen, hmem⟩ := h
  have hbinary : (intlistBinary remItem a.toValue b.toValue).run = none := by
    refine intlistBinary_run_none.mpr ⟨pairs, hpairs, ?_⟩
    unfold intlistLoop
    rw [if_pos hlen]
    refine Option.map_eq_none_iff.mpr ((mapM_none_iff pairs).mpr ⟨_, hmem, ?_⟩)
    exact remItem_run_none.mpr ⟨rfl, rfl⟩
  intro htotal
  refine htotal ?_
  unfold modIntlist intlistDivision
  split
  · rename_i xs n hxs hn
    rw [hxs, hn] at hpairs
    obtain rfl := Option.some.inj hpairs
    obtain ⟨x, -, hx⟩ := List.mem_map.mp hmem
    obtain rfl : n = -1 := (Prod.ext_iff.mp hx).2
    rw [if_neg (by decide)]
    exact hbinary
  · exact hbinary

/-! ### Agreement -/

/-- An operation on packed operands. -/
inductive PackedCall
  | negate (a : PackedOperand)
  | not (a : PackedOperand)
  | binary (op : ArithOp) (a b : PackedOperand)

namespace PackedCall

/-- The operation, its packed path first. -/
def eval (ops : NumberOps) : PackedCall → Checked Value
  | .negate a => neg ops a.toValue
  | .not a => not_ ops a.toValue
  | .binary op a b => op.eval ops a.toValue b.toValue

/-- The broadcast of the operation on atoms. -/
def broadcast (ops : NumberOps) : PackedCall → Checked Value
  | .negate a => bc1Until .atom (negAtom ops) 0 a.toValue
  | .not a => bc1Until .atom (notAtom ops) 0 a.toValue
  | .binary op a b => bc2Until .bothAtom (op.atoms ops) 0 a.toValue b.toValue

/-- The overflow of a remainder is reached. -/
def Overflows : PackedCall → Prop
  | .binary .modulo a b =>
    OverflowReached (reachedPairs a.toValue b.toValue) ∨ OverflowInParallel a.toValue b.toValue
  | .binary .divideDot a b => OverflowReached (reachedPairs a.toValue b.toValue)
  | _ => False

end PackedCall

theorem floorDivItem_total (x y : Int64) : (floorDivItem x y).Total := by
  unfold floorDivItem
  by_cases hy : y = 0
  · rw [if_pos hy]
    exact nofun
  by_cases h : x.toInt = -2 ^ 63 ∧ y.toInt = -1
  · rw [if_neg hy, if_pos h]
    exact nofun
  · rw [if_neg hy, if_neg h]
    rw [floorQuotient?_eq hy h]
    exact nofun

/-- Only the loop of remainders panics. -/
theorem total_packed {op : ArithOp} (hmod : op ≠ .modulo) :
    (op.packed ops a.toValue b.toValue).Total := by
  have checked : ∀ exact, (intlistBinary (checkedOp exact) a.toValue b.toValue).Total :=
    fun _ => intlistBinary_total (fun _ _ => ofOption_total _) _ _
  cases op with
  | modulo => exact absurd rfl hmod
  | add =>
    refine orElse_total ?_ (ofOption_total _)
    unfold addIntlist
    split
    · exact ofOption_total _
    · exact ofOption_total _
    · exact checked _
  | subtract =>
    refine orElse_total ?_ (ofOption_total _)
    unfold subIntlist
    split
    · exact ofOption_total _
    · exact ofOption_total _
    · exact checked _
  | multiply =>
    refine orElse_total ?_ (ofOption_total _)
    unfold mulIntlist
    split
    · exact ofOption_total _
    · exact ofOption_total _
    · exact checked _
  | floorDiv =>
    exact fun hrun =>
      intlistBinary_total floorDivItem_total _ _ (intlistDivision_run_none hrun)
  | bitAnd | bitOr | bitXor => exact intlistBinary_total (fun _ _ => ofOption_total (some _)) _ _
  | shl =>
    show (shlIntlist a.toValue b.toValue).Total
    unfold shlIntlist shiftIntlist
    split
    · exact ofOption_total _
    · exact nofun
  | shr =>
    show (shrIntlist a.toValue b.toValue).Total
    unfold shrIntlist shiftIntlist
    split
    · exact ofOption_total _
    · exact nofun
  | divide | divideDot | power | powerDot => exact nofun

theorem total_negIntlist (v : Value) : (negIntlist v).Total := by
  unfold negIntlist
  split
  · exact map_total (intlistLoop_total fun _ _ => ofOption_total _)
  · exact ofOption_total _
  · exact nofun

theorem total_notIntlist (v : Value) : (notIntlist v).Total := by
  unfold notIntlist
  split
  · exact map_total (intlistLoop_total fun _ _ => ofOption_total (some _))
  · exact nofun

theorem total_bc1Until {atom : Value → Checked Value}
    (h : ∀ v, IsMachineNumber v → Total (atom v)) : Total (bc1Until .atom atom 0 a.toValue) := by
  have items : Total (a.toValue.containerItems.mapM atom) :=
    total_mapM fun v hv => h v (isMachineNumber_items a v hv)
  rw [bc1Until.eq_def]
  cases a with
  | int n => exact h _ ⟨⟩
  | intList _ | intRange _ | floatList _ => exact (total_map_iff _).mpr items

theorem total_negAtom (v : Value) : Total (negAtom ops v) := by
  unfold negAtom
  split
  · split <;> exact total_pure _
  · exact total_pure _
  · exact total_pure _
  · exact total_ofResult _

theorem total_notAtom (v : Value) : Total (notAtom ops v) := by
  unfold notAtom
  split
  · exact total_pure _
  · exact total_pure _
  · exact total_pure _
  · exact total_throw _
  · exact total_ofResult _

/-- An operation that takes no remainder, by the broadcast. -/
theorem total_broadcast {op : ArithOp} (hmod : op ≠ .modulo) (hdiv : op ≠ .divideDot) :
    Total (bc2Until .bothAtom (op.atoms ops) 0 a.toValue b.toValue) := by
  refine (total_bc2Until_iff _).mpr (total_mapM fun p hp => ?_)
  obtain ⟨h1, h2⟩ := isMachineNumber_reachedPairs p hp
  exact total_atoms hmod hdiv h1 h2

/-- **Packed paths agree with the broadcast** of the atoms' operation, and
neither panics, unless the overflow of a remainder is reached. -/
theorem packed_agrees_iff (ops : NumberOps) (e : PackedCall) :
    SameChecked (e.eval ops) (e.broadcast ops) ↔ ¬e.Overflows := by
  cases e with
  | negate a =>
    rw [PackedCall.eval, PackedCall.broadcast, neg, onAtoms1_eq,
      sameChecked_iff packedSpec_negIntlist]
    exact iff_of_true ⟨total_negIntlist _, total_bc1Until fun v _ => total_negAtom v⟩ nofun
  | not a =>
    rw [PackedCall.eval, PackedCall.broadcast, not_, onAtoms1_eq,
      sameChecked_iff packedSpec_notIntlist]
    exact iff_of_true ⟨total_notIntlist _, total_bc1Until fun v _ => total_notAtom v⟩ nofun
  | binary op a b =>
    rw [PackedCall.eval, PackedCall.broadcast, ArithOp.eval, onAtoms2_eq, sameChecked_iff (packedSpec_packed op)]
    by_cases hmod : op = .modulo
    · subst hmod
      have hpanics := (@takesRemainder_modAtoms ops).panics_iff (a := a) (b := b)
      constructor
      · rintro ⟨hpacked, hgeneral⟩ (hreached | hparallel)
        · exact hpanics.mpr hreached hgeneral
        · exact not_total_modIntlist hparallel hpacked
      · intro h
        obtain ⟨hreached, hparallel⟩ := not_or.mp h
        have hgeneral := not_not.mp fun ht => hreached (hpanics.mp ht)
        exact ⟨total_modIntlist hparallel hgeneral, hgeneral⟩
    by_cases hdiv : op = .divideDot
    · subst hdiv
      have hpanics := (@takesRemainder_divDotAtoms ops).panics_iff (a := a) (b := b)
      refine ⟨fun h hreached => hpanics.mpr hreached h.2, fun h => ⟨total_packed hmod, ?_⟩⟩
      exact not_not.mp fun ht => h (hpanics.mp ht)
    · refine iff_of_true ⟨total_packed hmod, total_broadcast hmod hdiv⟩ ?_
      cases op <;> first | exact id | contradiction

/-- `-9223372036854775808 % -1` panics. -/
theorem packed_disagrees : ¬∀ (ops : NumberOps) (e : PackedCall),
    SameChecked (e.eval ops) (e.broadcast ops) := by
  intro h
  obtain ⟨x, -, hx, -⟩ := h .inert (.binary .modulo (.intList [Int64.minValue]) (.int (-1)))
  cases hx

end Wqpl
