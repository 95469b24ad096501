/-
# Ranges are exact

A range of integers has exactly the terms that precede its end, and its compact
form behaves as the list of them: at both ends of its iterator, under an index,
a slice, a reversal and an affine map (`makeRange_int`). A range of characters
has exactly the characters whose ordinals are such terms (`makeRange_char`).
-/
import Wqpl.Range.Make

namespace Wqpl

open DoubleEnded

/-! ### Integers -/

/-- What a compact range shows of itself is the list of its items. -/
structure IntRangeData.ActsAsItems (r : IntRangeData) : Prop where
  /-- Calls at both ends give what they give on the list. -/
  iterates : ∀ es, (run IntRangeIter.call es r.iter).1 = (run pull es r.toVec).1
  /-- The calls at the front, the items they leave, and the calls at the back
  read backwards, make up the list. -/
  once : ∀ es, ∃ left : List Int64, left.length = r.len - es.length ∧
    produced .front (run IntRangeIter.call es r.iter).1 ++ left ++
      (produced .back (run IntRangeIter.call es r.iter).1).reverse = r.toVec
  /-- No call ever steps beyond 64 bits. -/
  exact : ∀ es, (run IntRangeIter.call es r.iter).2.StepsFit
  get : ∀ idx, r.get idx = r.toVec[idx]?
  index : ∀ key, (Value.intRange r).index key = (Value.intList r.toVec).index key
  slice : ∀ keys, (Value.intRange r).indexMany keys = (Value.intList r.toVec).indexMany keys
  reverse : ∃ seq, ValueSeq.fromValue (reverse (.intRange r)) = some seq ∧
    seq.values = r.toVec.reverse.map .int
  affine : ∀ scale offset v, affineIntRange r scale offset = some v →
    ∃ image : IntRangeData, v = .intRange image ∧ image.toVec.map Int64.toInt =
      r.toVec.map fun x => x.toInt * scale.toInt + offset.toInt

theorem IntRangeData.actsAsItems (r : IntRangeData) : r.ActsAsItems where
  iterates es := (IntRangeIter.run_iter r es).1
  once es := by
    refine ⟨(run pull es r.toVec).2, ?_, ?_⟩
    · rw [run_pull_length, r.length_toVec]
    · rw [(IntRangeIter.run_iter r es).1]
      exact run_pull es r.toVec
  exact es := (IntRangeIter.run_iter r es).2
  get := r.get_eq
  index := r.index_eq
  slice := r.indexMany_eq
  reverse := r.reverse_range
  affine scale offset v h := by
    obtain ⟨image, rfl, himage⟩ := affineIntRange_items h
    refine ⟨image, rfl, ?_⟩
    generalize r.toVec = xs at himage ⊢
    generalize image.toVec = zs at himage ⊢
    induction himage with
    | nil => rfl
    | cons hz _ ih => rw [List.map_cons, List.map_cons, hz, ih]

theorem makeRangeInt_toVec {start stop step : Int64} {inclusive : Bool} {r : IntRangeData}
    (h : makeRangeInt start stop step inclusive = .ok r) :
    (r.start = start ∧ r.step = step ∧ validateStepInt start stop step = .ok ()) ∧
      rangeLen start stop step inclusive = .ok r.len := by
  unfold makeRangeInt at h
  split at h
  case h_1 => cases h
  case h_2 hvalid =>
    split at h
    · cases h
    · rename_i len hlen
      obtain rfl := Except.ok.inj h
      exact ⟨⟨rfl, rfl, hvalid⟩, hlen⟩

theorem makeRangeInt_ok {start stop step : Int64} {inclusive : Bool} {len : Nat}
    (hvalid : validateStepInt start stop step = .ok ())
    (hlen : rangeLen start stop step inclusive = .ok len) :
    ∃ r, makeRangeInt start stop step inclusive = .ok r := by
  unfold makeRangeInt
  split
  case h_1 h =>
    rw [hvalid] at h
    cases h
  case h_2 =>
    split
    case h_1 h =>
      rw [hlen] at h
      cases h
    case h_2 => exact ⟨_, rfl⟩

/-- The numbers of a range, and the place of its end. -/
theorem makeRangeInt_terms {start stop step : Int64} {inclusive : Bool} {r : IntRangeData}
    (h : makeRangeInt start stop step inclusive = .ok r) :
    r.toVec.map Int64.toInt =
        (List.range r.len).map (fun k : Nat => start.toInt + step.toInt * k) ∧
      ∀ k : Nat, k < r.len ↔
        Precedes step.toInt stop.toInt inclusive (start.toInt + step.toInt * k) := by
  obtain ⟨⟨rfl, rfl, hvalid⟩, hlen⟩ := makeRangeInt_toVec h
  obtain ⟨hstep, haway⟩ := validateStepInt_ok hvalid
  refine ⟨?_, rangeLen_spec hstep haway hlen⟩
  rw [r.toVec_eq, List.map_map]
  exact List.map_congr_left fun k hk => r.item_toInt (List.mem_range.mp hk)

theorem rangeLen_lt {start stop step : Int64} {inclusive : Bool} {len : Nat}
    (h : rangeLen start stop step inclusive = .ok len) : len < 2 ^ 64 := by
  unfold rangeLen rangeLenToUsize at h
  split_ifs at h with heq hlt
  · obtain rfl := Except.ok.inj h
    cases inclusive <;> decide
  · obtain rfl := Except.ok.inj h
    exact hlt

theorem validateStepInt_eq {start stop step : Int64} (hstep : step.toInt ≠ 0)
    (haway : ¬PointsAway start.toInt stop.toInt step.toInt) :
    validateStepInt start stop step = .ok () := by
  unfold validateStepInt
  rw [if_neg hstep, if_neg haway]

/-- A range is built unless its step leads away from the end, or it has a term
at the position `2 ^ 64 - 1`. -/
theorem makeRangeInt_built_iff {start stop step : Int64} (hstep : step.toInt ≠ 0)
    (inclusive : Bool) :
    (∃ r, makeRangeInt start stop step inclusive = .ok r) ↔
      ¬PointsAway start.toInt stop.toInt step.toInt ∧
        ¬Precedes step.toInt stop.toInt inclusive
          (start.toInt + step.toInt * (2 ^ 64 - 1 : Nat)) := by
  constructor
  · rintro ⟨r, hr⟩
    have hr' := makeRangeInt_toVec hr
    obtain ⟨-, haway⟩ := validateStepInt_ok hr'.1.2.2
    refine ⟨haway, fun h => ?_⟩
    have hlt := (rangeLen_spec hstep haway hr'.2 _).mpr h
    have := rangeLen_lt hr'.2
    omega
  · rintro ⟨haway, hlast⟩
    have hvalid := validateStepInt_eq hstep haway
    by_cases heq : start = stop
    · exact makeRangeInt_ok hvalid (if_pos heq)
    · rw [← lt_rangeSteps_iff_precedes hstep (fun h => heq (Int64.toInt_inj.mp h)) haway,
        Nat.not_lt] at hlast
      refine makeRangeInt_ok hvalid ((if_neg heq).trans (if_pos ?_))
      omega

theorem makeRange_int_eq (makeRangeFloat : Value → Value → Option Value → Bool → WqResult Value)
    (start stop step : Int64) (inclusive : Bool) :
    makeRange makeRangeFloat (.int start) (.int stop) (some (.int step)) inclusive =
      (makeRangeInt start stop step inclusive).map .intRange := by
  unfold makeRange
  dsimp only
  rcases makeRangeInt start stop step inclusive with err | r <;> rfl

/-- **Integer ranges are exact.** A range with a step is built unless the step
leads away from the end or a length would not fit 64 bits. It then has the terms
`start + k * step` that precede the end, in order. A compact range acts as the
list of its items. -/
theorem makeRange_int (makeRangeFloat : Value → Value → Option Value → Bool → WqResult Value)
    (start stop step : Int64) (hstep : step ≠ 0) (inclusive : Bool) :
    ((∃ v, makeRange makeRangeFloat (.int start) (.int stop) (some (.int step)) inclusive = .ok v) ↔
      ¬PointsAway start.toInt stop.toInt step.toInt ∧
        ¬Precedes step.toInt stop.toInt inclusive
          (start.toInt + step.toInt * (2 ^ 64 - 1 : Nat))) ∧
    (∀ v, makeRange makeRangeFloat (.int start) (.int stop) (some (.int step)) inclusive = .ok v →
      ∃ r : IntRangeData, v = .intRange r ∧ r.len < 2 ^ 64 ∧
        r.toVec.map Int64.toInt =
          (List.range r.len).map (fun k : Nat => start.toInt + step.toInt * k) ∧
        (∀ k : Nat, k < r.len ↔
          Precedes step.toInt stop.toInt inclusive (start.toInt + step.toInt * k))) ∧
    ∀ r : IntRangeData, r.ActsAsItems := by
  have hzero : step.toInt ≠ 0 := fun h => hstep (Int64.toInt_inj.mp h)
  rw [makeRange_int_eq, ← makeRangeInt_built_iff hzero]
  rcases h : makeRangeInt start stop step inclusive with err | r
  · exact ⟨by simp [Except.map], nofun, IntRangeData.actsAsItems⟩
  · refine ⟨by simp [Except.map], fun v hv => ?_, IntRangeData.actsAsItems⟩
    obtain rfl := Except.ok.inj hv
    obtain ⟨hitems, hends⟩ := makeRangeInt_terms h
    exact ⟨r, rfl, rangeLen_lt (makeRangeInt_toVec h).2, hitems, hends⟩

/-- A range that ends two below the largest integer. -/
theorem makeRange_int_near_max :
    ∃ r : IntRangeData,
      makeRange (fun _ _ _ _ => .error .domain) (.int 9223372036854775799)
        (.int 9223372036854775807) (some (.int 3)) true = .ok (.intRange r) ∧
      r.toVec.map Int64.toInt =
        [9223372036854775799, 9223372036854775802, 9223372036854775805] := by
  have hrange := makeRange_int (fun _ _ _ _ => .error .domain) 9223372036854775799
    9223372036854775807 3 (by decide) true
  obtain ⟨v, hv⟩ := hrange.1.mpr (by simp only [PointsAway, Precedes]; decide)
  obtain ⟨r, rfl, -, hitems, hends⟩ := hrange.2.1 v hv
  have htwo := hends 2
  have hthree := hends 3
  simp only [Precedes] at htwo hthree
  have hlen : r.len = 3 := by
    have h2 : 2 < r.len := htwo.mpr (by decide)
    have h3 : ¬3 < r.len := fun h => absurd (hthree.mp h) (by decide)
    omega
  refine ⟨r, hv, ?_⟩
  rw [hitems, hlen]
  decide

/-- The next point of a three-point range is its second term. -/
theorem makeRangeFromNext_int
    {makeRangeFloatFromNext : Value → Value → Value → Bool → WqResult Value}
    {start next stop : Int64} {inclusive : Bool} {v : Value}
    (h : makeRangeFromNext makeRangeFloatFromNext (.int start) (.int next) (.int stop) inclusive =
      .ok v) :
    ∃ step r, makeRangeInt start stop step inclusive = .ok r ∧ v = .intRange r ∧
      r.get 1 = some next := by
  unfold makeRangeFromNext at h
  dsimp only at h
  rcases hstep : i64? (next.toInt - start.toInt) with _ | step
  · rw [hstep] at h
    cases h
  rw [hstep] at h
  dsimp only at h
  rcases hnext : validateNextInt start next stop inclusive with err | u
  · rw [hnext] at h
    cases h
  rcases hr : makeRangeInt start stop step inclusive with err | r
  · rw [hnext, hr] at h
    cases h
  rw [hnext, hr] at h
  obtain rfl := Except.ok.inj h
  refine ⟨step, r, hr, rfl, ?_⟩
  obtain ⟨⟨hr0, hr1, hvalid⟩, -⟩ := makeRangeInt_toVec hr
  obtain ⟨hzero, -⟩ := validateStepInt_ok hvalid
  have hsum : next.toInt = start.toInt + step.toInt := by
    rw [i64?_some_iff.mp hstep]
    ring
  have hone : 1 < r.len := by
    rw [(makeRangeInt_terms hr).2 1, Nat.cast_one, mul_one, ← hsum]
    -- the check of the next point is that it precedes the end
    unfold validateNextInt at hnext
    rw [hstep] at hnext
    simp only [bind, Except.bind, hvalid] at hnext
    unfold Precedes
    split_ifs at hnext <;> simp only [*, decide_eq_true_eq, true_and, Bool.false_eq_true, false_and,
      or_false] at * <;> omega
  rw [r.get_eq_item hone]
  refine congrArg some (Int64.toInt_inj.mp ?_)
  rw [r.item_toInt hone, hr0, hr1, hsum, Nat.cast_one, mul_one]

/-! ### Characters -/

theorem toNat_surrogates (c : Char) :
    c.toNat < 0xD800 ∨ 0xDFFF < c.toNat ∧ c.toNat < 0x110000 := c.valid

theorem surrogates : surrogateStart = 0xD800 ∧ surrogateEnd = 0xDFFF ∧ surrogateLen = 0x800 :=
  ⟨rfl, rfl, rfl⟩

theorem coe_ordinal_eq (c : Char) :
    (c.ordinal : Nat) =
      if surrogateEnd < c.toNat then c.toNat - surrogateLen else c.toNat := by
  have hvalid := toNat_surrogates c
  obtain ⟨-, hend, hlen⟩ := surrogates
  have hcode : c.val.toNat = c.toNat := rfl
  have hlow : c.val < 0xD800 ↔ c.toNat < 0xD800 := UInt32.lt_iff_toNat_lt
  rw [Char.coe_ordinal, hcode, hend, hlen]
  simp only [hlow, Char.numSurrogates]
  split_ifs <;> omega

theorem charScalarIndex_toInt (c : Char) : (charScalarIndex c).toInt = c.ordinal := by
  unfold charScalarIndex
  dsimp only
  rw [← coe_ordinal_eq]
  exact Int64.toInt_ofNat_of_lt (c.ordinal.isLt.trans (by decide))

/-- The character is found from its ordinal. -/
theorem charFromScalarIndex_ordinal {index : Int64} {c : Char} (h : index.toInt = c.ordinal) :
    charFromScalarIndex index = .ok c := by
  have hlt := c.ordinal.isLt
  have hvalid := toNat_surrogates c
  obtain ⟨hstart, hend, hlen⟩ := surrogates
  have hcode : (if surrogateStart ≤ index.toInt.toNat then index.toInt.toNat + surrogateLen
      else index.toInt.toNat) = c.toNat := by
    have heq := coe_ordinal_eq c
    rw [h, Int.toNat_natCast, hstart, hlen]
    rw [hend, hlen] at heq
    split_ifs at heq ⊢ <;> omega
  unfold charFromScalarIndex
  rw [if_neg (by unfold maxScalarIndex; simp only [Char.numCodePoints] at hlt; omega)]
  dsimp only
  rw [hcode, Lex.charFromU32, if_pos (show c.toNat.isValidChar from c.valid), Char.ofNat_toNat]

/-- The ordinals from one character to another are those of characters. -/
theorem exists_ordinal {a b : Char} {x : Int}
    (h : (a.ordinal : Int) ≤ x ∧ x ≤ b.ordinal ∨ (b.ordinal : Int) ≤ x ∧ x ≤ a.ordinal) :
    ∃ c : Char, (c.ordinal : Int) = x := by
  have ha := a.ordinal.isLt
  have hb := b.ordinal.isLt
  refine ⟨.ofOrdinal ⟨x.toNat, by omega⟩, ?_⟩
  rw [Char.ordinal_ofOrdinal, Int.toNat_of_nonneg (by omega)]

/-- Numbers that are all ordinals are turned into characters without a failure. -/
theorem mapM_charFromScalarIndex {xs : List Int64}
    (h : ∀ x ∈ xs, ∃ c : Char, (c.ordinal : Int) = x.toInt) :
    ∃ chars : List Char, xs.mapM charFromScalarIndex = .ok chars ∧
      chars.map (fun c => (c.ordinal : Int)) = xs.map Int64.toInt := by
  induction xs with
  | nil => exact ⟨[], rfl, rfl⟩
  | cons x xs ih =>
    obtain ⟨c, hc⟩ := h x List.mem_cons_self
    obtain ⟨chars, hchars, hmap⟩ := ih fun y hy => h y (List.mem_cons_of_mem x hy)
    refine ⟨c :: chars, ?_, ?_⟩
    · rw [List.mapM_cons, charFromScalarIndex_ordinal hc.symm, hchars]
      rfl
    · rw [List.map_cons, List.map_cons, hmap, hc]

theorem makeRangeChar_eq {a b : Char} {step : Int64} {inclusive : Bool} {r : IntRangeData}
    (h : makeRangeInt (charScalarIndex a) (charScalarIndex b) step inclusive = .ok r) :
    makeRangeChar a b step inclusive =
      (r.toVec.mapM charFromScalarIndex).map fun chars => .string (String.ofList chars) := by
  unfold makeRangeChar
  dsimp only
  rw [(makeRangeInt_toVec h).1.2.2, h]
  rcases hchars : r.toVec.mapM charFromScalarIndex with err | chars <;>
    simp [hchars, bind, Except.bind, Except.map, pure, Except.pure]

theorem validateStepInt_of_makeRangeChar {a b : Char} {step : Int64} {inclusive : Bool} {v : Value}
    (h : makeRangeChar a b step inclusive = .ok v) :
    validateStepInt (charScalarIndex a) (charScalarIndex b) step = .ok () := by
  unfold makeRangeChar at h
  dsimp only at h
  rcases hvalid : validateStepInt (charScalarIndex a) (charScalarIndex b) step with err | u
  · rw [hvalid] at h
    cases h
  · rfl

/-- A range between two characters never has too many terms. -/
theorem not_precedes_of_ordinal {a b : Char} {step : Int} {inclusive : Bool} (hstep : step ≠ 0) :
    ¬Precedes step b.ordinal inclusive (a.ordinal + step * (2 ^ 64 - 1 : Nat)) := by
  intro h
  have hbetween := h.between hstep
  have ha := a.ordinal.isLt
  have hb := b.ordinal.isLt
  simp only [Char.numCodePoints] at ha hb
  omega

/-- **Character ranges are exact.** A range of characters is built unless its step
leads away from the end. Its characters are those whose ordinals among the scalar
values are the terms that precede the end, in order. -/
theorem makeRange_char (makeRangeFloat : Value → Value → Option Value → Bool → WqResult Value)
    (a b : Char) (step : Int64) (hstep : step ≠ 0) (inclusive : Bool) :
    ((∃ v, makeRange makeRangeFloat (.char a) (.char b) (some (.int step)) inclusive = .ok v) ↔
      ¬PointsAway a.ordinal b.ordinal step.toInt) ∧
    ∀ v, makeRange makeRangeFloat (.char a) (.char b) (some (.int step)) inclusive = .ok v →
      ∃ chars : List Char, v = .string (String.ofList chars) ∧
        chars.map (fun c => (c.ordinal : Int)) =
          (List.range chars.length).map (fun k : Nat => a.ordinal + step.toInt * k) ∧
        ∀ k : Nat, k < chars.length ↔
          Precedes step.toInt b.ordinal inclusive (a.ordinal + step.toInt * k) := by
  have hzero : step.toInt ≠ 0 := fun h => hstep (Int64.toInt_inj.mp h)
  show ((∃ v, makeRangeChar a b step inclusive = .ok v) ↔ _) ∧
    ∀ v, makeRangeChar a b step inclusive = .ok v → _
  have hbuilt : ¬PointsAway a.ordinal b.ordinal step.toInt →
      ∃ r, makeRangeInt (charScalarIndex a) (charScalarIndex b) step inclusive = .ok r := by
    intro haway
    rw [makeRangeInt_built_iff hzero, charScalarIndex_toInt, charScalarIndex_toInt]
    exact ⟨haway, not_precedes_of_ordinal hzero⟩
  -- the terms lie between the ends, so each is the ordinal of a character
  have hchars : ∀ r, makeRangeInt (charScalarIndex a) (charScalarIndex b) step inclusive = .ok r →
      ∃ chars, makeRangeChar a b step inclusive = .ok (.string (String.ofList chars)) ∧
        chars.map (fun c => (c.ordinal : Int)) = r.toVec.map Int64.toInt := by
    intro r hr
    obtain ⟨hitems, hends⟩ := makeRangeInt_terms hr
    rw [charScalarIndex_toInt] at hitems hends
    rw [charScalarIndex_toInt] at hends
    obtain ⟨chars, hok, hmap⟩ := @mapM_charFromScalarIndex r.toVec fun x hx => by
      have hx' := List.mem_map_of_mem (f := Int64.toInt) hx
      rw [hitems] at hx'
      obtain ⟨k, hk, hxk⟩ := List.mem_map.mp hx'
      rw [← hxk]
      exact exists_ordinal (((hends k).mp (List.mem_range.mp hk)).between hzero)
    refine ⟨chars, ?_, hmap⟩
    rw [makeRangeChar_eq hr, hok]
    rfl
  have haway : ∀ v, makeRangeChar a b step inclusive = .ok v →
      ¬PointsAway a.ordinal b.ordinal step.toInt := by
    intro v hv
    have hvalid := (validateStepInt_ok (validateStepInt_of_makeRangeChar hv)).2
    rwa [charScalarIndex_toInt, charScalarIndex_toInt] at hvalid
  refine ⟨⟨fun ⟨v, hv⟩ => haway v hv, fun h => ?_⟩, fun v hv => ?_⟩
  · obtain ⟨r, hr⟩ := hbuilt h
    obtain ⟨chars, hok, -⟩ := hchars r hr
    exact ⟨_, hok⟩
  · obtain ⟨r, hr⟩ := hbuilt (haway v hv)
    obtain ⟨chars, hok, hmap⟩ := hchars r hr
    obtain ⟨hitems, hends⟩ := makeRangeInt_terms hr
    obtain rfl := Except.ok.inj (hv.symm.trans hok)
    have hlen : chars.length = r.len := by
      simpa using congrArg List.length hmap
    rw [charScalarIndex_toInt] at hitems hends
    rw [charScalarIndex_toInt] at hends
    exact ⟨chars, rfl, by rw [hmap, hitems, hlen], by rwa [hlen]⟩

/-- A range down over the surrogates in steps of two. -/
theorem makeRange_char_over_surrogates :
    ∃ chars : List Char,
      makeRange (fun _ _ _ _ => .error .domain) (.char (.ofNat 0xE001)) (.char (.ofNat 0xD7FD))
        (some (.int (-2))) true = .ok (.string (String.ofList chars)) ∧
      chars.map (fun c => (c.ordinal : Int)) = [0xD801, 0xD7FF, 0xD7FD] := by
  have hrange := makeRange_char (fun _ _ _ _ => .error .domain) (.ofNat 0xE001) (.ofNat 0xD7FD) (-2)
    (by decide) true
  obtain ⟨v, hv⟩ := hrange.1.mpr (by simp only [PointsAway]; decide)
  obtain ⟨chars, rfl, hitems, hends⟩ := hrange.2 v hv
  have hlen : chars.length = 3 := by
    have h2 : 2 < chars.length := (hends 2).mpr (by simp only [Precedes]; decide)
    have h3 : ¬3 < chars.length := fun h => by
      have h := (hends 3).mp h
      simp only [Precedes] at h
      exact absurd h (by decide)
    omega
  refine ⟨chars, hv, ?_⟩
  rw [hitems, hlen]
  decide

end Wqpl
