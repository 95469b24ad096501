/-
# The canonical order is an order up to equality

`canonical_cmp` compares degrees and then keys, so it is a total preorder. It
tells unequal expressions apart where the keys can be read back
(`canonicalKey_inj`), and takes equal ones for equal where numbers are in their
smallest representation (`canonicalKey_canon`). `Legible` is the condition: no
predicate, whose key says nothing about it; no `Int` in the representation of a
`BigInt`; and no integral without bounds right before a `;`, since nothing in
the key says where such an integral ends.
-/
import Wqpl.Cas.Key

namespace Wqpl

/-- Permuted lists sort to the same, up to what the comparison does not see. -/
theorem map_mergeSort_eq {α β : Type} {cmp : α → α → Ordering} [Std.TransCmp cmp] {f : α → β}
    {xs ys : List α} (hcmp : ∀ a ∈ xs, ∀ b ∈ xs, cmp a b = .eq ↔ f a = f b) (hperm : xs.Perm ys) :
    (xs.mergeSort fun a b => (cmp a b).isLE).map f =
      (ys.mergeSort fun a b => (cmp a b).isLE).map f := by
  have hsorted : ∀ zs : List α, (zs.mergeSort fun a b => (cmp a b).isLE).Pairwise
      fun a b => (cmp a b).isLE = true := by
    intro zs
    refine List.pairwise_mergeSort (fun a b c => Std.TransCmp.isLE_trans) (fun a b => ?_) zs
    have hswap : cmp b a = (cmp a b).swap := Std.OrientedCmp.eq_swap
    rw [hswap]
    cases cmp a b <;> rfl
  have hmem : ∀ zs : List α, xs.Perm zs →
      ((zs.mergeSort fun a b => (cmp a b).isLE).map f).Pairwise
        fun x y => ∃ a ∈ xs, ∃ b ∈ xs, f a = x ∧ f b = y ∧ (cmp a b).isLE = true := by
    intro zs hzs
    refine List.pairwise_map.mpr ((hsorted zs).imp_of_mem fun {a b} ha hb h => ?_)
    have hin : ∀ {c}, c ∈ zs.mergeSort (fun a b => (cmp a b).isLE) → c ∈ xs := fun hc =>
      hzs.mem_iff.mpr ((List.mergeSort_perm zs _).mem_iff.mp hc)
    exact ⟨a, hin ha, b, hin hb, rfl, rfl, h⟩
  refine List.Perm.eq_of_pairwise ?_ (hmem xs (.refl xs)) (hmem ys hperm) (List.Perm.map f ?_)
  · rintro x y - - ⟨a, ha, b, hb, rfl, rfl, hab⟩ ⟨b', hb', a', ha', hb'', ha'', hba⟩
    have hle : (cmp b a).isLE = true := by
      have hbb := (hcmp b hb b' hb').mpr hb''.symm
      have haa := (hcmp a' ha' a ha).mpr ha''
      rwa [Std.TransCmp.congr_left hbb, ← Std.TransCmp.congr_right haa]
    exact (hcmp a ha b hb).mp (Std.OrientedCmp.isLE_antisymm hab hle)
  · exact (List.mergeSort_perm xs _).trans (hperm.trans (List.mergeSort_perm ys _).symm)

/-! ### Fields of algebraic numbers -/

/-- The coefficients of a polynomial. -/
theorem poly_inj {poly poly' : List Int} {rest rest' : List Char}
    (h : poly.flatMap (fun c => Text.intDigits c ++ [';']) ++ ("root:R:".toList ++ rest) =
      poly'.flatMap (fun c => Text.intDigits c ++ [';']) ++ ("root:R:".toList ++ rest')) :
    poly = poly' ∧ rest = rest' := by
  have hletter : ∀ (c : Int) (text text' : List Char),
      "root:R:".toList ++ text ≠ Text.intDigits c ++ text' := by
    intro c text text' h
    obtain ⟨d, digits, hdigits, hd⟩ := Text.intDigits_cons c
    rw [hdigits] at h
    rw [← (List.cons_eq_cons.mp h).1] at hd
    exact absurd hd (Text.not_isNumeral_of (by decide) (by decide))
  induction poly generalizing poly' with
  | nil =>
    cases poly' with
    | nil => exact ⟨rfl, List.append_cancel_left h⟩
    | cons c poly' =>
      rw [List.flatMap_cons, List.append_assoc, List.append_assoc] at h
      exact absurd h (hletter c _ _)
  | cons c poly ih =>
    cases poly' with
    | nil =>
      rw [List.flatMap_cons, List.append_assoc, List.append_assoc] at h
      exact absurd h.symm (hletter c _ _)
    | cons c' poly' =>
      rw [List.flatMap_cons, List.flatMap_cons, List.append_assoc, List.append_assoc,
        List.append_assoc, List.append_assoc] at h
      have hstop : ¬Text.IsNumeral ';' := Text.not_isNumeral_of (by decide) (by decide)
      obtain ⟨rfl, htail⟩ := Text.intDigits_append_inj (Text.begins_cons.mpr hstop)
        (Text.begins_cons.mpr hstop) h
      obtain ⟨rfl, hrest⟩ := ih (List.cons_eq_cons.mp htail).2
      exact ⟨rfl, hrest⟩

mutual

theorem AlgebraicBase.key_inj : ∀ (a b : AlgebraicBase) {r s : List Char},
    a.key ++ r = b.key ++ s → a.canon = b.canon ∧ r = s
  | .rational, .rational, r, s, h => ⟨rfl, by simpa [AlgebraicBase.key] using h⟩
  | .rational, .extension b, r, s, h => by simp [AlgebraicBase.key] at h
  | .extension a, .rational, r, s, h => by simp [AlgebraicBase.key] at h
  | .extension a, .extension b, r, s, h => by
    simp only [AlgebraicBase.key, List.cons_append, List.append_assoc, List.cons.injEq,
      true_and] at h
    obtain ⟨hcanon, h⟩ := AlgebraicField.key_inj a b h
    exact ⟨congrArg AlgebraicBase.extension hcanon, (List.cons_eq_cons.mp h).2⟩

/-- The key of a field is its own end. -/
theorem AlgebraicField.key_inj : ∀ (a b : AlgebraicField) {r s : List Char},
    a.key ++ r = b.key ++ s → a.canon = b.canon ∧ r = s
  | .mk base poly index lo hi, .mk base' poly' index' lo' hi', r, s, h => by
    rw [AlgebraicField.key_mk, AlgebraicField.key_mk] at h
    simp only [List.append_assoc] at h
    obtain ⟨hbase, hpoly⟩ := AlgebraicBase.key_inj base base' (List.append_cancel_left h)
    obtain ⟨rfl, hindex⟩ := poly_inj (List.append_cancel_left hpoly)
    have hstop : ¬Text.IsNumeral ')' := Text.not_isNumeral_of (by decide) (by decide)
    obtain ⟨rfl, hend⟩ := Text.natDigits_append_inj (Text.begins_cons.mpr hstop)
      (Text.begins_cons.mpr hstop) hindex
    refine ⟨?_, (List.cons_eq_cons.mp hend).2⟩
    rw [AlgebraicField.canon, AlgebraicField.canon, hbase]

end

mutual

theorem AlgebraicBase.key_canon : ∀ a : AlgebraicBase, a.canon.key = a.key
  | .rational => rfl
  | .extension field => by
    rw [AlgebraicBase.canon, AlgebraicBase.key, AlgebraicBase.key, AlgebraicField.key_canon field]

/-- The key says nothing about the interval around the root. -/
theorem AlgebraicField.key_canon : ∀ a : AlgebraicField, a.canon.key = a.key
  | .mk base poly index lo hi => by
    rw [AlgebraicField.canon, AlgebraicField.key_mk, AlgebraicField.key_mk,
      AlgebraicBase.key_canon base]

end

namespace Value

/-! ### Expressions -/

/-- The characters that are put around names and arguments. -/
def delimiters : List Char := [',', ';', ':', '(', ')']

def IsName (name : String) : Prop := ∀ c ∈ name.toList, c ∉ delimiters

instance (name : String) : Decidable (IsName name) :=
  inferInstanceAs (Decidable (∀ c ∈ name.toList, c ∉ delimiters))

mutual

/-- Integers, fractions and algebraic numbers. -/
def ExactNumber : Value → Prop
  | .int _ | .bigInt _ | .fraction _ => True
  | .algebraic _ coeffs => ExactNumbers coeffs
  | _ => False
termination_by structural v => v

def ExactNumbers : List Value → Prop
  | [] => True
  | x :: xs => ExactNumber x ∧ ExactNumbers xs
termination_by structural xs => xs

end

mutual

/-- A symbolic expression over exact numbers. -/
def Symbolic : Value → Prop
  | .cas kind => SymbolicKind kind
  | .int _ | .bigInt _ | .fraction _ => True
  | .algebraic _ coeffs => ExactNumbers coeffs
  | _ => False
termination_by structural v => v

def SymbolicKind : CasKind → Prop
  | .var name => IsName name
  | .boundVar _ | .const _ => True
  | .op _ args | .function _ args => SymbolicArgs args
  | .apply name args => IsName name ∧ SymbolicArgs args
  | .namedArg name value => IsName name ∧ Symbolic value
  | .integral body _ bounds => Symbolic body ∧ SymbolicBounds bounds
  | .limit body _ point _ => Symbolic body ∧ Symbolic point
  | .eq lhs rhs => Symbolic lhs ∧ Symbolic rhs
  | .predicate _ expr => Symbolic expr
termination_by structural kind => kind

def SymbolicArgs : List Value → Prop
  | [] => True
  | x :: xs => Symbolic x ∧ SymbolicArgs xs
termination_by structural xs => xs

def SymbolicBounds : Option (Value × Value) → Prop
  | none => True
  | some (lower, upper) => Symbolic lower ∧ Symbolic upper
termination_by structural bounds => bounds

end

mutual

/-- The key of the expression can be read back, also before a `;` if it is
`followed` by one. -/
def Legible (followed : Bool) : Value → Prop
  | .cas kind => LegibleKind followed kind
  | .bigInt n => ¬InI64 n
  | .algebraic _ coeffs => LegibleArgs coeffs
  | _ => True
termination_by structural v => v

def LegibleKind (followed : Bool) : CasKind → Prop
  | .op _ args | .function _ args | .apply _ args => LegibleArgs args
  | .namedArg _ value => Legible followed value
  | .integral body _ bounds => Legible bounds.isSome body ∧ LegibleBounds followed bounds
  | .limit body _ point _ => Legible true body ∧ Legible true point
  | .eq lhs rhs => Legible true lhs ∧ Legible followed rhs
  | .predicate _ _ => False
  | _ => True
termination_by structural kind => kind

def LegibleArgs : List Value → Prop
  | [] => True
  | x :: xs => Legible false x ∧ LegibleArgs xs
termination_by structural xs => xs

def LegibleBounds (followed : Bool) : Option (Value × Value) → Prop
  | none => followed = false
  | some (lower, upper) => Legible true lower ∧ Legible followed upper
termination_by structural bounds => bounds

end

/-! ### Numbers -/

variable {address : Value → List Char}

theorem canon_algebraic (field : AlgebraicField) (coeffs : List Value) :
    canon (.algebraic field coeffs) = .algebraic field.canon (canonItems coeffs) := rfl

/-- The first character of the key of a number. -/
def numberTag : Value → Char
  | .int _ => 'i'
  | .bigInt _ => 'b'
  | .fraction _ => 'q'
  | _ => 'a'

theorem atomKey_head {v : Value} (h : v.ExactNumber) (text : List Char) :
    (atomKey address v ++ text).head? = some v.numberTag := by
  cases v with
  | int n | bigInt n | fraction q | algebraic field coeffs => rfl
  | _ => cases h

theorem numberTag_ne (v : Value) : v.numberTag ≠ ')' := by
  unfold numberTag
  split <;> decide

theorem semicolon_stops (text : List Char) :
    Text.Begins (fun c => ¬Text.IsNumeral c) (';' :: text) :=
  Text.begins_cons.mpr (Text.not_isNumeral_of (by decide) (by decide))

theorem colon_stops (text : List Char) : Text.Begins (fun c => ¬Text.IsNumeral c) (':' :: text) :=
  Text.begins_cons.mpr (Text.not_isNumeral_of (by decide) (by decide))

mutual

/-- The key of a number is its own end. -/
theorem atomKey_inj (a b : Value) {r s : List Char} (ha : a.ExactNumber) (hb : b.ExactNumber)
    (h : atomKey address a ++ r = atomKey address b ++ s) : canon a = canon b ∧ r = s := by
  have hhead := congrArg List.head? h
  rw [atomKey_head ha, atomKey_head hb] at hhead
  cases a with
  | int n =>
    cases b with
    | int m =>
      simp only [atomKey_int, List.cons_append, List.append_assoc, List.cons.injEq, true_and] at h
      obtain ⟨hnum, hend⟩ := Text.intDigits_append_inj (semicolon_stops _) (semicolon_stops _) h
      rw [Int64.toInt_inj.mp hnum]
      exact ⟨rfl, (List.cons_eq_cons.mp hend).2⟩
    | bigInt m | fraction q | algebraic field coeffs =>
      exact absurd (Option.some.inj hhead) (by simp [numberTag])
    | _ => cases hb
  | bigInt n =>
    cases b with
    | bigInt m =>
      simp only [atomKey_bigInt, List.cons_append, List.append_assoc, List.cons.injEq,
        true_and] at h
      obtain ⟨rfl, hend⟩ := Text.intDigits_append_inj (semicolon_stops _) (semicolon_stops _) h
      exact ⟨rfl, (List.cons_eq_cons.mp hend).2⟩
    | int m | fraction q | algebraic field coeffs =>
      exact absurd (Option.some.inj hhead) (by simp [numberTag])
    | _ => cases hb
  | fraction q =>
    cases b with
    | fraction q' =>
      simp only [atomKey_fraction, List.cons_append, List.append_assoc, List.cons.injEq,
        true_and] at h
      obtain ⟨hnum, hden⟩ := Text.intDigits_append_inj (colon_stops _) (colon_stops _) h
      obtain ⟨hden, hend⟩ := Text.natDigits_append_inj (semicolon_stops _) (semicolon_stops _)
        (List.cons_eq_cons.mp hden).2
      rw [Rat.ext hnum hden]
      exact ⟨rfl, (List.cons_eq_cons.mp hend).2⟩
    | int m | bigInt m | algebraic field coeffs =>
      exact absurd (Option.some.inj hhead) (by simp [numberTag])
    | _ => cases hb
  | algebraic field coeffs =>
    cases b with
    | algebraic field' coeffs' =>
      rw [atomKey_algebraic, atomKey_algebraic] at h
      simp only [List.append_assoc] at h
      obtain ⟨hfield, hcoeffs⟩ := AlgebraicField.key_inj field field' (List.append_cancel_left h)
      obtain ⟨hitems, hend⟩ := atomsKey_inj coeffs coeffs' ha hb (List.append_cancel_left hcoeffs)
      rw [canon_algebraic, canon_algebraic, hfield, hitems]
      exact ⟨rfl, hend⟩
    | int m | bigInt m | fraction q =>
      exact absurd (Option.some.inj hhead) (by simp [numberTag])
    | _ => cases hb
  | _ => cases ha

theorem atomsKey_inj (xs ys : List Value) {r s : List Char} (hx : ExactNumbers xs)
    (hy : ExactNumbers ys) (h : atomsKey address xs ++ ')' :: r = atomsKey address ys ++ ')' :: s) :
    canonItems xs = canonItems ys ∧ r = s := by
  cases xs with
  | nil =>
    cases ys with
    | nil => exact ⟨rfl, (List.cons_eq_cons.mp h).2⟩
    | cons y ys =>
      have hhead := congrArg List.head? h
      rw [atomsKey_cons, List.append_assoc, atomKey_head hy.1] at hhead
      exact absurd (Option.some.inj hhead).symm y.numberTag_ne
  | cons x xs =>
    cases ys with
    | nil =>
      have hhead := congrArg List.head? h
      rw [atomsKey_cons, List.append_assoc, atomKey_head hx.1] at hhead
      exact absurd (Option.some.inj hhead) x.numberTag_ne
    | cons y ys =>
      rw [atomsKey_cons, atomsKey_cons, List.append_assoc, List.append_assoc] at h
      obtain ⟨hfirst, htail⟩ := atomKey_inj x y hx.1 hy.1 h
      obtain ⟨hrest, hend⟩ := atomsKey_inj xs ys hx.2 hy.2 htail
      exact ⟨by rw [canonItems, canonItems, hfirst, hrest], hend⟩

end

/-! ### Expressions -/

/-- The functions by their names. -/
def named : List CasFunction :=
  [.abs, .sgn, .sin, .cos, .tan, .sec, .csc, .cot, .erf, .erfc, .gamma, .lnGamma, .si, .ci, .ei,
    .en, .ellPk, .ellPe, .ellIk, .ellIe, .heaviside, .delta, .exp, .ln, .log, .log2, .log10, .sqrt,
    .arcSin, .arcCos, .arcTan, .arcTan2, .sinh, .cosh, .tanh, .arcSinh, .arcCosh, .arcTanh, .floor,
    .ceil, .round]

theorem mem_named (f : CasFunction) : f ∈ named := by
  cases f <;> decide

theorem named_nodup : (named.map CasFunction.name).Nodup := by
  decide +kernel

theorem CasFunction_name_inj {f g : CasFunction} (h : f.name = g.name) : f = g :=
  List.inj_on_of_nodup_map named_nodup (mem_named f) (mem_named g) h

/-- The text ends, or goes on with a `,`, or with a `;` if that is allowed. -/
def Before (followed : Bool) (text : List Char) : Prop :=
  Text.Begins (fun c => c = ',' ∨ followed = true ∧ c = ';') text

theorem before_semicolon (text : List Char) : Before true (';' :: text) :=
  Text.begins_cons.mpr (.inr ⟨rfl, rfl⟩)

theorem before_comma (followed : Bool) (text : List Char) : Before followed (',' :: text) :=
  Text.begins_cons.mpr (.inl rfl)

/-- The first character of the key of a symbolic expression. -/
def kindTag : CasKind → Char
  | .var _ => 'v'
  | .boundVar _ => 'b'
  | .const _ => 's'
  | .op _ _ => 'o'
  | .function _ _ => 'c'
  | .apply _ _ => 'a'
  | .namedArg _ _ | .predicate _ _ => 'n'
  | .integral _ _ _ => 'i'
  | .limit _ _ _ _ => 'l'
  | .eq _ _ => 'e'

variable (address) in
theorem kindKey_cons (kind : CasKind) :
    ∃ text, kindKey address kind = kindTag kind :: ':' :: text := by
  cases kind <;> exact ⟨_, rfl⟩

theorem kindTag_stops (kind : CasKind) : ¬Text.IsNumeral (kindTag kind) ∧ kindTag kind ≠ ')' := by
  cases kind <;> exact ⟨Text.not_isNumeral_of rfl (by simp [kindTag]), by simp [kindTag]⟩

theorem canonicalKey_number {v : Value} (h : v.ExactNumber) :
    canonicalKey address v = 'n' :: ':' :: atomKey address v := by
  cases v with
  | cas kind => cases h
  | _ => rfl

theorem symbolic_cases {v : Value} (h : v.Symbolic) :
    (∃ kind, v = .cas kind ∧ SymbolicKind kind) ∨ v.ExactNumber := by
  cases v with
  | cas kind => exact .inl ⟨kind, rfl, h⟩
  | int n | bigInt n | fraction q => exact .inr trivial
  | algebraic field coeffs => exact .inr h
  | _ => cases h

variable (address) in
theorem canonicalKey_head {v : Value} (h : v.Symbolic) :
    ∃ c text, canonicalKey address v = c :: text ∧ ¬Text.IsNumeral c ∧ c ≠ ')' := by
  rcases symbolic_cases h with ⟨kind, rfl, -⟩ | hnumber
  · obtain ⟨text, heq⟩ := kindKey_cons address kind
    exact ⟨kindTag kind, _, heq, kindTag_stops kind⟩
  · refine ⟨'n', _, canonicalKey_number hnumber, Text.not_isNumeral_of (by decide) (by decide), ?_⟩
    decide

variable (address) in
/-- The key of a number is a word before a bracket, or before a colon and a numeral. -/
theorem atomKey_split {v : Value} (h : v.ExactNumber) (text : List Char) :
    ∃ word c rest, atomKey address v ++ text = word ++ c :: rest ∧ (∀ d ∈ word, d ≠ '(' ∧ d ≠ ':') ∧
      (c = '(' ∨ c = ':' ∧ ∃ d digits, rest = d :: digits ∧ Text.IsNumeral d) := by
  cases v with
  | int n =>
    obtain ⟨d, digits, hn, hd⟩ := Text.intDigits_cons n.toInt
    refine ⟨['i'], ':', d :: digits ++ ';' :: text, ?_, by simp, .inr ⟨rfl, d, _, rfl, hd⟩⟩
    simp [atomKey_int, hn]
  | bigInt n =>
    obtain ⟨d, digits, hn, hd⟩ := Text.intDigits_cons n
    refine ⟨['b', 'i'], ':', d :: digits ++ ';' :: text, ?_, by simp, .inr ⟨rfl, d, _, rfl, hd⟩⟩
    simp [atomKey_bigInt, hn]
  | fraction q =>
    obtain ⟨d, digits, hn, hd⟩ := Text.intDigits_cons q.num
    refine ⟨['q'], ':', d :: digits ++ ':' :: (Text.natDigits q.den ++ ';' :: text), ?_, by simp,
      .inr ⟨rfl, d, _, rfl, hd⟩⟩
    simp [atomKey_fraction, hn]
  | algebraic field coeffs =>
    refine ⟨['a', 'l', 'g'], '(', field.key ++ (";coeffs:".toList ++
      (atomsKey address coeffs ++ ')' :: text)), ?_, by simp, .inl rfl⟩
    simp [atomKey_algebraic]
  | _ => cases h

/-- The key of a number is not that of a named argument. -/
theorem atomKey_ne_namedArg {v x : Value} {name : String} (hv : v.ExactNumber) (hname : IsName name)
    (hx : x.Symbolic) (r s : List Char) :
    atomKey address v ++ r ≠ name.toList ++ ':' :: (canonicalKey address x ++ s) := by
  intro h
  obtain ⟨word, c, rest, hword, hstops, hc⟩ := atomKey_split address hv r
  rw [hword] at h
  have hbracket : c = '(' ∨ c = ':' := hc.imp id And.left
  obtain ⟨-, htail⟩ := Text.append_inj (P := fun d => d = '(' ∨ d = ':')
    (fun d hd h => h.elim (hstops d hd).1 (hstops d hd).2)
    (fun d hd h => hname d hd (by rcases h with rfl | rfl <;> decide))
    (Text.begins_cons.mpr hbracket) (Text.begins_cons.mpr (.inr rfl)) h
  obtain ⟨hcolon, hrest⟩ := List.cons_eq_cons.mp htail
  rcases hc with rfl | ⟨-, d, digits, rfl, hd⟩
  · exact absurd hcolon (by decide)
  · obtain ⟨c', text, hkey, hc', -⟩ := canonicalKey_head address hx
    rw [hkey] at hrest
    exact hc' ((List.cons_eq_cons.mp hrest).1 ▸ hd)

/-- The key of a number is not that of another expression. -/
theorem kindKey_ne_number {followed : Bool} {kind : CasKind} {v : Value} (hkind : SymbolicKind kind)
    (hlegible : LegibleKind followed kind) (hv : v.ExactNumber) (r s : List Char) :
    kindKey address kind ++ r ≠ canonicalKey address v ++ s := by
  intro h
  rw [canonicalKey_number hv] at h
  cases kind with
  | namedArg name x =>
    rw [kindKey_namedArg] at h
    simp only [List.cons_append, List.append_assoc, List.cons.injEq, true_and] at h
    exact atomKey_ne_namedArg hv hkind.1 hkind.2 s r h.symm
  | predicate p x => exact hlegible
  | _ =>
    obtain ⟨text, hkey⟩ := kindKey_cons address _
    rw [hkey] at h
    exact absurd (List.cons_eq_cons.mp h).1 (by simp [kindTag])

theorem numberKey_inj {followed : Bool} (a b : Value) {r s : List Char} (ha : a.ExactNumber)
    (hb : b.Symbolic) (hlegible : Legible followed b)
    (h : canonicalKey address a ++ r = canonicalKey address b ++ s) :
    canon a = canon b ∧ r = s := by
  rcases symbolic_cases hb with ⟨kind, rfl, hkind⟩ | hnumber
  · exact absurd h.symm (kindKey_ne_number hkind hlegible ha s r)
  · rw [canonicalKey_number ha, canonicalKey_number hnumber] at h
    simp only [List.cons_append, List.cons.injEq, true_and] at h
    exact atomKey_inj a b ha hnumber h

theorem symbol_inj {op op' : CasOp} (h : op.symbol = op'.symbol) : op = op' := by
  cases op <;> cases op' <;> first | rfl | exact absurd h (by decide)

theorem constName_inj {c c' : CasConst} (h : c.name = c'.name) : c = c' := by
  cases c <;> cases c' <;> first | rfl | exact absurd h (by decide)

theorem limitDirectionKey_inj {d d' : Option LimitDirection}
    (h : limitDirectionKey d = limitDirectionKey d') : d = d' := by
  rcases d with _ | _ | _ <;> rcases d' with _ | _ | _ <;> first | rfl | exact absurd h (by decide)

theorem begins_delimiter {c : Char} (h : c ∈ delimiters) (text : List Char) :
    Text.Begins (· ∈ delimiters) (c :: text) :=
  Text.begins_cons.mpr h

theorem Before.begins {followed : Bool} {text : List Char} (h : Before followed text) :
    Text.Begins (· ∈ delimiters) text := by
  intro c hc
  rcases h c hc with rfl | ⟨-, rfl⟩ <;> decide

theorem Before.stops {followed : Bool} {text : List Char} (h : Before followed text) :
    Text.Begins (fun c => ¬Text.IsNumeral c) text := by
  intro c hc
  rcases h c hc with rfl | ⟨-, rfl⟩ <;> exact Text.not_isNumeral_of rfl (by decide)

theorem name_append_inj {name name' : String} {r s : List Char} (hname : IsName name)
    (hname' : IsName name') (hr : Text.Begins (· ∈ delimiters) r)
    (hs : Text.Begins (· ∈ delimiters) s) (h : name.toList ++ r = name'.toList ++ s) :
    name = name' ∧ r = s := by
  obtain ⟨hnames, hrests⟩ := Text.append_inj hname hname' hr hs h
  exact ⟨String.toList_inj.mp hnames, hrests⟩

theorem isName_symbol (op : CasOp) : IsName op.symbol := by
  cases op <;> simp [IsName, delimiters, CasOp.symbol]

theorem isName_const (c : CasConst) : IsName c.name := by
  cases c <;> simp [IsName, delimiters, CasConst.name]

theorem isName_function (f : CasFunction) : IsName f.name := by
  cases f <;> simp [IsName, delimiters, CasFunction.name]

theorem direction_append_inj {d d' : Option LimitDirection} {r s : List Char}
    (hr : Text.Begins (· ∈ delimiters) r) (hs : Text.Begins (· ∈ delimiters) s)
    (h : limitDirectionKey d ++ r = limitDirectionKey d' ++ s) : d = d' ∧ r = s := by
  have hword : ∀ d : Option LimitDirection, ∀ c ∈ limitDirectionKey d, c ∉ delimiters := by
    intro d
    unfold limitDirectionKey
    rcases d with _ | _ | _ <;> simp [delimiters]
  obtain ⟨hkeys, hrests⟩ := Text.append_inj (hword d) (hword d') hr hs h
  exact ⟨limitDirectionKey_inj hkeys, hrests⟩

/-- What comes after the body of an integral. -/
theorem before_bounds {followed : Bool} {bounds : Option (Value × Value)} {text : List Char}
    (hlegible : LegibleBounds followed bounds) (htext : Before followed text) :
    Before bounds.isSome (boundsKey address bounds ++ text) := by
  cases bounds with
  | none =>
    obtain rfl : followed = false := hlegible
    exact htext
  | some bounds => exact before_semicolon _

mutual

/-- The key of a legible expression tells what it is and where it ends. -/
theorem canonicalKey_inj {f g : Bool} (a b : Value) {r s : List Char} (ha : a.Symbolic)
    (hb : b.Symbolic) (hf : Legible f a) (hg : Legible g b) (hr : Before f r) (hs : Before g s)
    (h : canonicalKey address a ++ r = canonicalKey address b ++ s) :
    canon a = canon b ∧ r = s := by
  cases a with
  | cas kind =>
    cases b with
    | cas kind' =>
      obtain ⟨hkind, hrest⟩ := kindKey_inj kind kind' ha hb hf hg hr hs h
      exact ⟨congrArg Value.cas hkind, hrest⟩
    | int n =>
      obtain ⟨hcanon, hrest⟩ := numberKey_inj (.int n) _ hb ha hf h.symm
      exact ⟨hcanon.symm, hrest.symm⟩
    | bigInt n =>
      obtain ⟨hcanon, hrest⟩ := numberKey_inj (.bigInt n) _ hb ha hf h.symm
      exact ⟨hcanon.symm, hrest.symm⟩
    | fraction q =>
      obtain ⟨hcanon, hrest⟩ := numberKey_inj (.fraction q) _ hb ha hf h.symm
      exact ⟨hcanon.symm, hrest.symm⟩
    | algebraic field coeffs =>
      obtain ⟨hcanon, hrest⟩ := numberKey_inj (.algebraic field coeffs) _ hb ha hf h.symm
      exact ⟨hcanon.symm, hrest.symm⟩
    | _ => cases hb
  | int n => exact numberKey_inj (.int n) b ha hb hg h
  | bigInt n => exact numberKey_inj (.bigInt n) b ha hb hg h
  | fraction q => exact numberKey_inj (.fraction q) b ha hb hg h
  | algebraic field coeffs => exact numberKey_inj (.algebraic field coeffs) b ha hb hg h
  | _ => cases ha
termination_by structural a

theorem kindKey_inj {f g : Bool} (a b : CasKind) {r s : List Char} (ha : SymbolicKind a)
    (hb : SymbolicKind b) (hf : LegibleKind f a) (hg : LegibleKind g b) (hr : Before f r)
    (hs : Before g s) (h : kindKey address a ++ r = kindKey address b ++ s) :
    canonKind a = canonKind b ∧ r = s := by
  have htag : kindTag a = kindTag b := by
    obtain ⟨text, hkey⟩ := kindKey_cons address a
    obtain ⟨text', hkey'⟩ := kindKey_cons address b
    rw [hkey, hkey'] at h
    exact (List.cons_eq_cons.mp h).1
  cases a with
  | var name =>
    cases b with
    | var name' =>
      simp only [kindKey_var, List.cons_append, List.cons.injEq, true_and] at h
      obtain ⟨rfl, hrest⟩ := name_append_inj ha hb hr.begins hs.begins h
      exact ⟨rfl, hrest⟩
    | _ => exact absurd htag (by simp [kindTag])
  | boundVar index =>
    cases b with
    | boundVar index' =>
      simp only [kindKey_boundVar, List.cons_append, List.cons.injEq, true_and] at h
      obtain ⟨rfl, hrest⟩ := Text.natDigits_append_inj hr.stops hs.stops h
      exact ⟨rfl, hrest⟩
    | _ => exact absurd htag (by simp [kindTag])
  | const c =>
    cases b with
    | const c' =>
      simp only [kindKey_const, List.cons_append, List.cons.injEq, true_and] at h
      obtain ⟨hname, hrest⟩ := name_append_inj (isName_const c) (isName_const c') hr.begins
        hs.begins h
      exact ⟨congrArg CasKind.const (constName_inj hname), hrest⟩
    | _ => exact absurd htag (by simp [kindTag])
  | op op args =>
    cases b with
    | op op' args' =>
      simp only [kindKey_op, List.cons_append, List.append_assoc, List.cons.injEq, true_and] at h
      obtain ⟨hop, hargs⟩ := name_append_inj (isName_symbol op) (isName_symbol op')
        (begins_delimiter (by decide) _) (begins_delimiter (by decide) _) h
      obtain ⟨hitems, hrest⟩ := argsKey_inj args args' ha hb hf hg (List.cons_eq_cons.mp hargs).2
      exact ⟨by rw [canonKind, canonKind, symbol_inj hop, hitems], hrest⟩
    | _ => exact absurd htag (by simp [kindTag])
  | function fn args =>
    cases b with
    | function fn' args' =>
      simp only [kindKey_function, List.cons_append, List.append_assoc, List.cons.injEq,
        true_and] at h
      obtain ⟨hname, hargs⟩ := name_append_inj (isName_function fn) (isName_function fn')
        (begins_delimiter (by decide) _) (begins_delimiter (by decide) _) h
      obtain ⟨hitems, hrest⟩ := argsKey_inj args args' ha hb hf hg (List.cons_eq_cons.mp hargs).2
      exact ⟨by rw [canonKind, canonKind, CasFunction_name_inj hname, hitems], hrest⟩
    | _ => exact absurd htag (by simp [kindTag])
  | apply name args =>
    cases b with
    | apply name' args' =>
      simp only [kindKey_apply, List.cons_append, List.append_assoc, List.cons.injEq,
        true_and] at h
      obtain ⟨rfl, hargs⟩ := name_append_inj ha.1 hb.1 (begins_delimiter (by decide) _)
        (begins_delimiter (by decide) _) h
      obtain ⟨hitems, hrest⟩ := argsKey_inj args args' ha.2 hb.2 hf hg
        (List.cons_eq_cons.mp hargs).2
      exact ⟨by rw [canonKind, canonKind, hitems], hrest⟩
    | _ => exact absurd htag (by simp [kindTag])
  | namedArg name x =>
    cases b with
    | namedArg name' x' =>
      simp only [kindKey_namedArg, List.cons_append, List.append_assoc, List.cons.injEq,
        true_and] at h
      obtain ⟨rfl, hvalue⟩ := name_append_inj ha.1 hb.1 (begins_delimiter (by decide) _)
        (begins_delimiter (by decide) _) h
      obtain ⟨hcanon, hrest⟩ := canonicalKey_inj x x' ha.2 hb.2 hf hg hr hs
        (List.cons_eq_cons.mp hvalue).2
      exact ⟨by rw [canonKind, canonKind, hcanon], hrest⟩
    | predicate p x' => exact hg.elim
    | _ => exact absurd htag (by simp [kindTag])
  | integral body hint bounds =>
    cases b with
    | integral body' hint' bounds' =>
      simp only [kindKey_integral, List.cons_append, List.append_assoc, List.cons.injEq,
        true_and] at h
      obtain ⟨hbody, hbounds⟩ := canonicalKey_inj body body' ha.1 hb.1 hf.1 hg.1
        (before_bounds hf.2 hr) (before_bounds hg.2 hs) h
      obtain ⟨hcanon, hrest⟩ := boundsKey_inj bounds bounds' ha.2 hb.2 hf.2 hg.2 hr hs hbounds
      exact ⟨by rw [canonKind, canonKind, hbody, hcanon], hrest⟩
    | _ => exact absurd htag (by simp [kindTag])
  | limit body hint point direction =>
    cases b with
    | limit body' hint' point' direction' =>
      simp only [kindKey_limit, List.cons_append, List.append_assoc, List.cons.injEq,
        true_and] at h
      obtain ⟨hbody, htail⟩ := canonicalKey_inj body body' ha.1 hb.1 hf.1 hg.1
        (before_semicolon _) (before_semicolon _) h
      obtain ⟨hpoint, htail⟩ := canonicalKey_inj point point' ha.2 hb.2 hf.2 hg.2
        (before_semicolon _) (before_semicolon _) (List.cons_eq_cons.mp htail).2
      obtain ⟨rfl, hrest⟩ := direction_append_inj hr.begins hs.begins (List.cons_eq_cons.mp htail).2
      exact ⟨by rw [canonKind, canonKind, hbody, hpoint], hrest⟩
    | _ => exact absurd htag (by simp [kindTag])
  | eq lhs rhs =>
    cases b with
    | eq lhs' rhs' =>
      simp only [kindKey_eq, List.cons_append, List.append_assoc, List.cons.injEq, true_and] at h
      obtain ⟨hlhs, htail⟩ := canonicalKey_inj lhs lhs' ha.1 hb.1 hf.1 hg.1
        (before_semicolon _) (before_semicolon _) h
      obtain ⟨hrhs, hrest⟩ := canonicalKey_inj rhs rhs' ha.2 hb.2 hf.2 hg.2 hr hs
        (List.cons_eq_cons.mp htail).2
      exact ⟨by rw [canonKind, canonKind, hlhs, hrhs], hrest⟩
    | _ => exact absurd htag (by simp [kindTag])
  | predicate p x => exact hf.elim
termination_by structural a

theorem argsKey_inj (xs ys : List Value) {r s : List Char} (hx : SymbolicArgs xs)
    (hy : SymbolicArgs ys) (hf : LegibleArgs xs) (hg : LegibleArgs ys)
    (h : argsKey address xs ++ ')' :: r = argsKey address ys ++ ')' :: s) :
    canonItems xs = canonItems ys ∧ r = s := by
  cases xs with
  | nil =>
    cases ys with
    | nil => exact ⟨rfl, (List.cons_eq_cons.mp h).2⟩
    | cons y ys =>
      obtain ⟨c, text, hkey, -, hc⟩ := canonicalKey_head address hy.1
      rw [argsKey_cons, hkey] at h
      exact absurd (List.cons_eq_cons.mp h).1.symm hc
  | cons x xs =>
    cases ys with
    | nil =>
      obtain ⟨c, text, hkey, -, hc⟩ := canonicalKey_head address hx.1
      rw [argsKey_cons, hkey] at h
      exact absurd (List.cons_eq_cons.mp h).1 hc
    | cons y ys =>
      simp only [argsKey_cons, List.cons_append, List.append_assoc] at h
      obtain ⟨hfirst, htail⟩ := canonicalKey_inj x y hx.1 hy.1 hf.1 hg.1 (before_comma _ _)
        (before_comma _ _) h
      obtain ⟨hitems, hrest⟩ := argsKey_inj xs ys hx.2 hy.2 hf.2 hg.2 (List.cons_eq_cons.mp htail).2
      exact ⟨by rw [canonItems, canonItems, hfirst, hitems], hrest⟩
termination_by structural xs

theorem boundsKey_inj {f g : Bool} (a b : Option (Value × Value)) {r s : List Char}
    (ha : SymbolicBounds a) (hb : SymbolicBounds b) (hf : LegibleBounds f a)
    (hg : LegibleBounds g b) (hr : Before f r) (hs : Before g s)
    (h : boundsKey address a ++ r = boundsKey address b ++ s) :
    canonBounds a = canonBounds b ∧ r = s := by
  rcases a with _ | ⟨lower, upper⟩
  · rcases b with _ | ⟨lower', upper'⟩
    · exact ⟨rfl, h⟩
    · obtain rfl : f = false := hf
      obtain rfl : r = _ := h
      exact absurd (Text.begins_cons.mp hr) (by simp)
  · rcases b with _ | ⟨lower', upper'⟩
    · obtain rfl : g = false := hg
      obtain rfl : _ = s := h
      exact absurd (Text.begins_cons.mp hs) (by simp)
    · simp only [boundsKey_some, List.cons_append, List.append_assoc, List.cons.injEq,
        true_and] at h
      obtain ⟨hlower, htail⟩ := canonicalKey_inj lower lower' ha.1 hb.1 hf.1 hg.1
        (before_semicolon _) (before_semicolon _) h
      obtain ⟨hupper, hrest⟩ := canonicalKey_inj upper upper' ha.2 hb.2 hf.2 hg.2 hr hs
        (List.cons_eq_cons.mp htail).2
      exact ⟨by rw [canonBounds, canonBounds, hlower, hupper], hrest⟩
termination_by structural a

end

/-! ### Equal expressions have one key -/

theorem canon_bigInt {n : Int} (h : ¬InI64 n) : canon (.bigInt n) = .bigInt n := by
  simp only [canon, ValueSeq.fromValue, canonAtom, i64?, if_neg h]

mutual

theorem atomKey_canon (v : Value) (hv : v.ExactNumber) (hlegible : Legible false v) :
    atomKey address (canon v) = atomKey address v := by
  cases v with
  | int n => rfl
  | bigInt n => rw [canon_bigInt hlegible]
  | fraction q => rfl
  | algebraic field coeffs =>
    rw [canon_algebraic, atomKey_algebraic, atomKey_algebraic, AlgebraicField.key_canon,
      atomsKey_canon coeffs hv hlegible]
  | _ => cases hv
termination_by structural v

theorem atomsKey_canon (xs : List Value) (hx : ExactNumbers xs) (hlegible : LegibleArgs xs) :
    atomsKey address (canonItems xs) = atomsKey address xs := by
  cases xs with
  | nil => rfl
  | cons x xs =>
    rw [canonItems, atomsKey_cons, atomsKey_cons, atomKey_canon x hx.1 hlegible.1,
      atomsKey_canon xs hx.2 hlegible.2]
termination_by structural xs

end

mutual

theorem canonicalKey_canon {followed : Bool} (v : Value) (hv : v.Symbolic)
    (hlegible : Legible followed v) : canonicalKey address (canon v) = canonicalKey address v := by
  cases v with
  | cas kind => exact kindKey_canon kind hv hlegible
  | int n => rfl
  | bigInt n => rw [canon_bigInt hlegible]
  | fraction q => rfl
  | algebraic field coeffs =>
    refine congrArg (fun key => 'n' :: ':' :: key) ?_
    exact atomKey_canon (.algebraic field coeffs) hv hlegible
  | _ => cases hv
termination_by structural v

theorem kindKey_canon {followed : Bool} (kind : CasKind) (hkind : SymbolicKind kind)
    (hlegible : LegibleKind followed kind) :
    kindKey address (canonKind kind) = kindKey address kind := by
  cases kind with
  | var name => rfl
  | boundVar index => rfl
  | const c => rfl
  | op op args => rw [canonKind, kindKey_op, kindKey_op, argsKey_canon args hkind hlegible]
  | function f args =>
    rw [canonKind, kindKey_function, kindKey_function, argsKey_canon args hkind hlegible]
  | apply name args =>
    rw [canonKind, kindKey_apply, kindKey_apply, argsKey_canon args hkind.2 hlegible]
  | namedArg name x =>
    rw [canonKind, kindKey_namedArg, kindKey_namedArg, canonicalKey_canon x hkind.2 hlegible]
  | integral body hint bounds =>
    rw [canonKind, kindKey_integral, kindKey_integral, canonicalKey_canon body hkind.1 hlegible.1,
      boundsKey_canon bounds hkind.2 hlegible.2]
  | limit body hint point direction =>
    rw [canonKind, kindKey_limit, kindKey_limit, canonicalKey_canon body hkind.1 hlegible.1,
      canonicalKey_canon point hkind.2 hlegible.2]
  | eq lhs rhs =>
    rw [canonKind, kindKey_eq, kindKey_eq, canonicalKey_canon lhs hkind.1 hlegible.1,
      canonicalKey_canon rhs hkind.2 hlegible.2]
  | predicate p x => exact hlegible.elim
termination_by structural kind

theorem argsKey_canon (xs : List Value) (hx : SymbolicArgs xs) (hlegible : LegibleArgs xs) :
    argsKey address (canonItems xs) = argsKey address xs := by
  cases xs with
  | nil => rfl
  | cons x xs =>
    rw [canonItems, argsKey_cons, argsKey_cons, canonicalKey_canon x hx.1 hlegible.1,
      argsKey_canon xs hx.2 hlegible.2]
termination_by structural xs

theorem boundsKey_canon {followed : Bool} (bounds : Option (Value × Value))
    (hbounds : SymbolicBounds bounds) (hlegible : LegibleBounds followed bounds) :
    boundsKey address (canonBounds bounds) = boundsKey address bounds := by
  rcases bounds with _ | ⟨lower, upper⟩
  · rfl
  · rw [canonBounds, boundsKey_some, boundsKey_some, canonicalKey_canon lower hbounds.1 hlegible.1,
      canonicalKey_canon upper hbounds.2 hlegible.2]
termination_by structural bounds

end

theorem opDegree_canon (op : CasOp) (args : List Value) (ds : List Nat) :
    opDegree op (canonItems args) ds = opDegree op args ds := by
  rcases args with _ | ⟨base, _ | ⟨exp, _ | ⟨x, xs⟩⟩⟩
  · rfl
  · cases op <;> rfl
  · cases op with
    | power =>
      rcases ds with _ | ⟨d, _ | ⟨d', _ | ⟨d'', ds⟩⟩⟩
      · rfl
      · rfl
      · simp only [canonItems, opDegree, exactInt_canon]
      · rfl
    | _ => rfl
  · cases op <;> rfl

mutual

/-- Equal values have one degree. -/
theorem canonicalDegree_canon (v : Value) : canonicalDegree (canon v) = canonicalDegree v := by
  cases v with
  | cas kind => exact kindDegree_canon kind
  | bigInt n =>
    simp only [canon, ValueSeq.fromValue, canonAtom]
    cases i64? n <;> rfl
  | _ => rfl
termination_by structural v

theorem kindDegree_canon (kind : CasKind) : kindDegree (canonKind kind) = kindDegree kind := by
  cases kind with
  | op op args => rw [canonKind, kindDegree, kindDegree, opDegree_canon, degrees_canon args]
  | function f args => rw [canonKind, kindDegree, kindDegree, degrees_canon args]
  | apply name args => rw [canonKind, kindDegree, kindDegree, degrees_canon args]
  | namedArg name x => rw [canonKind, kindDegree, kindDegree, canonicalDegree_canon x]
  | _ => rfl
termination_by structural kind

theorem degrees_canon (xs : List Value) : degrees (canonItems xs) = degrees xs := by
  cases xs with
  | nil => rfl
  | cons x xs => rw [canonItems, degrees, degrees, canonicalDegree_canon x, degrees_canon xs]
termination_by structural xs

end

/-! ### The order -/

instance : Std.TransCmp (canonicalCmp address) :=
  inferInstanceAs (Std.TransCmp (compareLex _ _))

theorem canonicalCmp_eq_iff {a b : Value} (ha : a.Symbolic) (hb : b.Symbolic)
    (hlegible : Legible false a) (hlegible' : Legible false b) :
    canonicalCmp address a b = .eq ↔ canon a = canon b := by
  rw [canonicalCmp, compareLex_eq_eq, compareOn, compareOn, Std.LawfulEqOrd.compare_eq_iff_eq,
    Std.LawfulEqOrd.compare_eq_iff_eq]
  constructor
  · rintro ⟨-, hkey⟩
    have h : canonicalKey address a ++ [] = canonicalKey address b ++ [] := by rw [hkey]
    exact (canonicalKey_inj a b ha hb hlegible hlegible' Text.begins_nil Text.begins_nil h).1
  · intro h
    rw [← canonicalDegree_canon a, ← canonicalKey_canon a ha hlegible, h, canonicalDegree_canon,
      canonicalKey_canon b hb hlegible']
    exact ⟨rfl, rfl⟩

theorem sortCanonical_perm {xs ys : List Value} (hperm : xs.Perm ys)
    (hx : ∀ x ∈ xs, x.Symbolic ∧ Legible false x) :
    canonItems (sortCanonical address xs) = canonItems (sortCanonical address ys) := by
  rw [canonItems_eq, canonItems_eq]
  refine map_mergeSort_eq (fun a ha b hb => ?_) hperm
  exact canonicalCmp_eq_iff (hx a ha).1 (hx b hb).1 (hx a ha).2 (hx b hb).2

/-- A double integral of a variable, each over an interval or over none. -/
def doubleIntegral (inner outer : Option (Value × Value)) : Value :=
  cas (.integral (cas (.integral (cas (.var "x")) "x" inner)) "x" outer)

def unitInterval : Option (Value × Value) := some (.int 0, .int 1)

theorem doubleIntegral_symbolic {inner outer : Option (Value × Value)}
    (hinner : SymbolicBounds inner) (houter : SymbolicBounds outer) : (doubleIntegral inner outer).Symbolic := by
  have hname : IsName "x" := by simp [IsName, delimiters]
  exact ⟨⟨hname, hinner⟩, houter⟩

/-- Nothing says whether the bounds are those of the outer integral or of the inner one. -/
theorem canonicalCmp_nested (body lower upper : Value) (inner outer : String) :
    canonicalCmp address
      (cas (.integral (cas (.integral body inner none)) outer (some (lower, upper))))
      (cas (.integral (cas (.integral body inner (some (lower, upper)))) outer none)) = .eq := by
  rw [canonicalCmp, compareLex_eq_eq, compareOn, compareOn, Std.LawfulEqOrd.compare_eq_iff_eq,
    Std.LawfulEqOrd.compare_eq_iff_eq]
  refine ⟨rfl, ?_⟩
  simp [canonicalKey, kindKey_integral, boundsKey]

/-- A predicate falls through to the key of an atom, which says nothing about it. -/
theorem canonicalCmp_predicate (p q : CasPredicate) (x y : Value) :
    canonicalCmp address (cas (.predicate p x)) (cas (.predicate q y)) = .eq := by
  rw [canonicalCmp, compareLex_eq_eq, compareOn, compareOn, Std.LawfulEqOrd.compare_eq_iff_eq,
    Std.LawfulEqOrd.compare_eq_iff_eq]
  exact ⟨rfl, rfl⟩

theorem sortCanonical_pair {a b : Value} (h : canonicalCmp address a b = .eq) :
    sortCanonical address [a, b] = [a, b] := by
  refine List.mergeSort_of_pairwise (List.pairwise_pair.mpr ?_)
  rw [h]
  rfl

end Value

end Wqpl
