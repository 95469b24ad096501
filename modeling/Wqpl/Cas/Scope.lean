/-
# Scopes of symbolic expressions

The body of an integral or a limit binds a variable, which stands in it as an
index: the number of scopes between the variable and its own. Closing a scope
over a name, opening it with an expression and substituting for a variable are
one traversal with other leaves (`Value.mapLeaves`); below a body the index
grows by one, below a bound or a point it stays. Scopes are hygienic: what was
closed can be opened again, no variable is captured on the way, and
substitution commutes with opening (`scopes_hygienic`). The substitution of
the program also simplifies what it rebuilds; it is the plain one up to that
(`rebuilds_of_substitute`).
-/
import Mathlib
import Wqpl.FallibleLoop
import Wqpl.Hash

namespace Wqpl

/-! ### Traversals -/

/-- What stands for a variable and for a bound variable below some scopes. -/
structure Leaves where
  var : String → Nat → Value
  bound : Nat → Nat → Value

namespace Value

mutual

/-- The expression with other leaves, below `k` scopes. -/
def mapLeaves (f : Leaves) : Value → Nat → Value
  | .cas kind, k => mapKind f kind k
  | v, _ => v
termination_by structural v => v

def mapItems (f : Leaves) : List Value → Nat → List Value
  | [], _ => []
  | v :: vs, k => mapLeaves f v k :: mapItems f vs k
termination_by structural vs => vs

def mapKind (f : Leaves) : CasKind → Nat → Value
  | .var x, k => f.var x k
  | .boundVar i, k => f.bound i k
  | .const c, _ => .cas (.const c)
  | .op op args, k => .cas (.op op (mapItems f args k))
  | .function function args, k => .cas (.function function (mapItems f args k))
  | .apply head args, k => .cas (.apply head (mapItems f args k))
  | .namedArg name arg, k => .cas (.namedArg name (mapLeaves f arg k))
  | .integral body hint bounds, k =>
    .cas (.integral (mapLeaves f body (k + 1)) hint (mapBounds f bounds k))
  | .limit body hint point direction, k =>
    .cas (.limit (mapLeaves f body (k + 1)) hint (mapLeaves f point k) direction)
  | .eq lhs rhs, k => .cas (.eq (mapLeaves f lhs k) (mapLeaves f rhs k))
  | .predicate p expr, k => .cas (.predicate p (mapLeaves f expr k))
termination_by structural kind => kind

def mapBounds (f : Leaves) : Option (Value × Value) → Nat → Option (Value × Value)
  | none, _ => none
  | some (lower, upper), k => some (mapLeaves f lower k, mapLeaves f upper k)
termination_by structural bounds => bounds

end

mutual

/-- All bound variables are bound by one of the scopes in the expression or by
one of `k` scopes around it. -/
def LcAt : Value → Nat → Prop
  | .cas kind, k => LcKind kind k
  | _, _ => True
termination_by structural v => v

def LcItems : List Value → Nat → Prop
  | [], _ => True
  | v :: vs, k => LcAt v k ∧ LcItems vs k
termination_by structural vs => vs

def LcKind : CasKind → Nat → Prop
  | .var _, _ | .const _, _ => True
  | .boundVar i, k => i < k
  | .op _ args, k | .function _ args, k | .apply _ args, k => LcItems args k
  | .namedArg _ arg, k => LcAt arg k
  | .integral body _ bounds, k => LcAt body (k + 1) ∧ LcBounds bounds k
  | .limit body _ point _, k => LcAt body (k + 1) ∧ LcAt point k
  | .eq lhs rhs, k => LcAt lhs k ∧ LcAt rhs k
  | .predicate _ expr, k => LcAt expr k
termination_by structural kind => kind

def LcBounds : Option (Value × Value) → Nat → Prop
  | none, _ => True
  | some (lower, upper), k => LcAt lower k ∧ LcAt upper k
termination_by structural bounds => bounds

end

/-- Locally closed. -/
def LocallyClosed (v : Value) : Prop := v.LcAt 0

mutual

/-- `collect_free_cas_vars`. -/
def collectFreeCasVars : Value → Finset String → Finset String
  | .cas kind, names => collectFreeKind kind names
  | _, names => names
termination_by structural v => v

def collectFreeItems : List Value → Finset String → Finset String
  | [], names => names
  | v :: vs, names => collectFreeItems vs (collectFreeCasVars v names)
termination_by structural vs => vs

def collectFreeKind : CasKind → Finset String → Finset String
  | .var x, names => insert x names
  | .boundVar _, names | .const _, names => names
  | .op _ args, names | .function _ args, names | .apply _ args, names =>
    collectFreeItems args names
  | .namedArg _ arg, names => collectFreeCasVars arg names
  | .integral body _ bounds, names => collectFreeBounds bounds (collectFreeCasVars body names)
  | .limit body _ point _, names => collectFreeCasVars point (collectFreeCasVars body names)
  | .eq lhs rhs, names => collectFreeCasVars rhs (collectFreeCasVars lhs names)
  | .predicate _ expr, names => collectFreeCasVars expr names
termination_by structural kind => kind

def collectFreeBounds : Option (Value × Value) → Finset String → Finset String
  | none, names => names
  | some (lower, upper), names => collectFreeCasVars upper (collectFreeCasVars lower names)
termination_by structural bounds => bounds

end

def freeVars (v : Value) : Finset String := v.collectFreeCasVars ∅

end Value

/-! ### Scopes -/

/-- The body of an integral or a limit, and the name its variable is shown
under. -/
structure CasScope where
  body : Value
  hint : String

/-- `PartialEq::eq`: the hint does not count. -/
def CasScope.eq (a b : CasScope) : Bool := a.body.eq b.body

def closeValue (value : Value) (name : String) (targetIndex : Nat) : Value :=
  value.mapLeaves
    { var := fun x k => if x = name then .cas (.boundVar k) else .cas (.var x)
      bound := fun i _ => .cas (.boundVar i) } targetIndex

def closeCasScope (body : Value) (name : String) : CasScope where
  body := closeValue body name 0
  hint := name

def openValue (value replacement : Value) (targetIndex : Nat) : Value :=
  value.mapLeaves
    { var := fun x _ => .cas (.var x)
      bound := fun i k =>
        if i = k then replacement else .cas (.boundVar (if k < i then i - 1 else i)) } targetIndex

def openCasScopeWithValue (scope : CasScope) (replacement : Value) : Value :=
  openValue scope.body replacement 0

theorem exists_suffix (hint : String) (used : Finset String) :
    ∃ n : Nat, hint ++ toString (n + 1) ∉ used := by
  have hinj : Function.Injective fun n : Nat => hint ++ toString (n + 1) := by
    intro m n h
    have hlist := congrArg String.toList h
    simp only [String.toList_append, List.append_cancel_left_eq] at hlist
    have hrepr : Nat.repr (m + 1) = Nat.repr (n + 1) := String.toList_injective hlist
    have := Nat.repr_injective hrepr
    omega
  by_contra hall
  push Not at hall
  exact Set.infinite_of_injective_forall_mem hinj hall used.finite_toSet

/-- `fresh_name`: the hint, or else the first suffix from 1 on that is not used. -/
def freshName (hint : String) (used : Finset String) : String :=
  if hint ∉ used then hint else hint ++ toString (Nat.find (exists_suffix hint used) + 1)

theorem freshName_notMem (hint : String) (used : Finset String) : freshName hint used ∉ used := by
  unfold freshName
  split
  · assumption
  · exact Nat.find_spec (exists_suffix hint used)

/-- The name that `open_cas_scope` opens the scope with. -/
def CasScope.freshVar (scope : CasScope) : String := freshName scope.hint scope.body.freeVars

/-- `open_cas_scope`. -/
def openCasScope (scope : CasScope) : Value × Value :=
  (openCasScopeWithValue scope (.cas (.var scope.freshVar)), .cas (.var scope.freshVar))

/-! ### Free variables -/

namespace Value

mutual

theorem mem_collectFreeCasVars : ∀ (v : Value) (names : Finset String) (y : String),
    y ∈ collectFreeCasVars v names ↔ y ∈ names ∨ y ∈ v.freeVars
  | .cas kind, names, y => mem_collectFreeKind kind names y
  | .int _, _, _ | .bigInt _, _, _ | .float _, _, _ | .complex _ _, _, _ | .fraction _, _, _
  | .algebraic _ _, _, _ | .char _, _, _ | .tag _, _, _ | .bool _, _, _ | .intList _, _, _
  | .intRange _, _, _ | .floatList _, _, _ | .boolList _, _, _ | .list _, _, _ | .string _, _, _
  | .dict _, _, _ | .compiledFunction _, _, _ | .closure _ _, _, _ | .builtinFunction _ _, _, _
  | .liftedCallable _, _, _ | .rng _, _, _ | .stream _, _, _ =>
    ⟨.inl, fun h => h.resolve_right (Finset.notMem_empty _)⟩

theorem mem_collectFreeItems : ∀ (vs : List Value) (names : Finset String) (y : String),
    y ∈ collectFreeItems vs names ↔ y ∈ names ∨ y ∈ collectFreeItems vs ∅
  | [], _, _ => ⟨.inl, fun h => h.resolve_right (Finset.notMem_empty _)⟩
  | v :: vs, names, y => by
    show y ∈ collectFreeItems vs (collectFreeCasVars v names) ↔
      y ∈ names ∨ y ∈ collectFreeItems vs v.freeVars
    rw [mem_collectFreeItems vs, mem_collectFreeCasVars v, mem_collectFreeItems vs v.freeVars,
      or_assoc]

theorem mem_collectFreeKind : ∀ (kind : CasKind) (names : Finset String) (y : String),
    y ∈ collectFreeKind kind names ↔ y ∈ names ∨ y ∈ freeVars (.cas kind)
  | .var x, names, y => by
    show y ∈ insert x names ↔ y ∈ names ∨ y ∈ insert x ∅
    rw [Finset.mem_insert, Finset.mem_insert, or_comm, or_iff_left (Finset.notMem_empty y)]
  | .boundVar _, _, _ | .const _, _, _ =>
    ⟨.inl, fun h => h.resolve_right (Finset.notMem_empty _)⟩
  | .op _ args, names, y | .function _ args, names, y | .apply _ args, names, y =>
    mem_collectFreeItems args names y
  | .namedArg _ arg, names, y => mem_collectFreeCasVars arg names y
  | .integral body _ bounds, names, y => by
    show y ∈ collectFreeBounds bounds (collectFreeCasVars body names) ↔
      y ∈ names ∨ y ∈ collectFreeBounds bounds body.freeVars
    rw [mem_collectFreeBounds bounds, mem_collectFreeCasVars body,
      mem_collectFreeBounds bounds body.freeVars, or_assoc]
  | .limit body _ point _, names, y => by
    show y ∈ collectFreeCasVars point (collectFreeCasVars body names) ↔
      y ∈ names ∨ y ∈ collectFreeCasVars point body.freeVars
    rw [mem_collectFreeCasVars point, mem_collectFreeCasVars body,
      mem_collectFreeCasVars point body.freeVars, or_assoc]
  | .eq lhs rhs, names, y => by
    show y ∈ collectFreeCasVars rhs (collectFreeCasVars lhs names) ↔
      y ∈ names ∨ y ∈ collectFreeCasVars rhs lhs.freeVars
    rw [mem_collectFreeCasVars rhs, mem_collectFreeCasVars lhs,
      mem_collectFreeCasVars rhs lhs.freeVars, or_assoc]
  | .predicate _ expr, names, y => mem_collectFreeCasVars expr names y

theorem mem_collectFreeBounds : ∀ (bounds : Option (Value × Value)) (names : Finset String)
    (y : String), y ∈ collectFreeBounds bounds names ↔ y ∈ names ∨ y ∈ collectFreeBounds bounds ∅
  | none, _, _ => ⟨.inl, fun h => h.resolve_right (Finset.notMem_empty _)⟩
  | some (lower, upper), names, y => by
    show y ∈ collectFreeCasVars upper (collectFreeCasVars lower names) ↔
      y ∈ names ∨ y ∈ collectFreeCasVars upper lower.freeVars
    rw [mem_collectFreeCasVars upper, mem_collectFreeCasVars lower,
      mem_collectFreeCasVars upper lower.freeVars, or_assoc]

end

/-- The variables of an expression by its parts. -/
theorem mem_freeItems {v : Value} {vs : List Value} {y : String} :
    y ∈ collectFreeItems (v :: vs) ∅ ↔ y ∈ v.freeVars ∨ y ∈ collectFreeItems vs ∅ :=
  mem_collectFreeItems vs v.freeVars y

theorem mem_freeBounds {lower upper : Value} {y : String} :
    y ∈ collectFreeBounds (some (lower, upper)) ∅ ↔ y ∈ lower.freeVars ∨ y ∈ upper.freeVars :=
  mem_collectFreeCasVars upper lower.freeVars y

theorem mem_free_integral {body : Value} {hint : String} {bounds : Option (Value × Value)}
    {y : String} : y ∈ freeVars (.cas (.integral body hint bounds)) ↔
      y ∈ body.freeVars ∨ y ∈ collectFreeBounds bounds ∅ :=
  mem_collectFreeBounds bounds body.freeVars y

theorem mem_free_limit {body point : Value} {hint : String} {direction : Option LimitDirection}
    {y : String} : y ∈ freeVars (.cas (.limit body hint point direction)) ↔
      y ∈ body.freeVars ∨ y ∈ point.freeVars :=
  mem_collectFreeCasVars point body.freeVars y

theorem mem_free_eq {lhs rhs : Value} {y : String} :
    y ∈ freeVars (.cas (.eq lhs rhs)) ↔ y ∈ lhs.freeVars ∨ y ∈ rhs.freeVars :=
  mem_collectFreeCasVars rhs lhs.freeVars y

theorem mem_free_var {x y : String} : y ∈ freeVars (.cas (.var x)) ↔ y = x := by
  show y ∈ insert x ∅ ↔ y = x
  rw [Finset.mem_insert, or_iff_left (Finset.notMem_empty y)]

/-! ### One traversal after another -/

section Traversals

variable {f g h : Leaves} {d : Nat} {y : String} {P : String → Prop}

mutual

/-- Two traversals are one if they are one on the leaves: on the variables of
the expression, and on the indices that point to at most `d` scopes around it. -/
theorem mapLeaves_mapLeaves (hbound : ∀ i k, i < d + k → mapLeaves f (g.bound i k) k = h.bound i k) :
    ∀ (v : Value) (k : Nat), v.LcAt (d + k) →
      (∀ x ∈ v.freeVars, ∀ k, mapLeaves f (g.var x k) k = h.var x k) →
        mapLeaves f (mapLeaves g v k) k = mapLeaves h v k
  | .cas kind, k, hlc, hvar => mapLeaves_mapKind hbound kind k hlc hvar
  | .int _, _, _, _ | .bigInt _, _, _, _ | .float _, _, _, _ | .complex _ _, _, _, _
  | .fraction _, _, _, _ | .algebraic _ _, _, _, _ | .char _, _, _, _ | .tag _, _, _, _
  | .bool _, _, _, _ | .intList _, _, _, _ | .intRange _, _, _, _ | .floatList _, _, _, _
  | .boolList _, _, _, _ | .list _, _, _, _ | .string _, _, _, _ | .dict _, _, _, _
  | .compiledFunction _, _, _, _ | .closure _ _, _, _, _ | .builtinFunction _ _, _, _, _
  | .liftedCallable _, _, _, _ | .rng _, _, _, _ | .stream _, _, _, _ => rfl

theorem mapItems_mapItems (hbound : ∀ i k, i < d + k → mapLeaves f (g.bound i k) k = h.bound i k) :
    ∀ (vs : List Value) (k : Nat), LcItems vs (d + k) →
      (∀ x ∈ collectFreeItems vs ∅, ∀ k, mapLeaves f (g.var x k) k = h.var x k) →
        mapItems f (mapItems g vs k) k = mapItems h vs k
  | [], _, _, _ => rfl
  | v :: vs, k, hlc, hvar => by
    have hhead := mapLeaves_mapLeaves hbound v k hlc.1 fun x hx => hvar x (mem_freeItems.mpr (.inl hx))
    have htail := mapItems_mapItems hbound vs k hlc.2 fun x hx => hvar x (mem_freeItems.mpr (.inr hx))
    show mapLeaves f (mapLeaves g v k) k :: mapItems f (mapItems g vs k) k = _
    rw [hhead, htail]
    rfl

theorem mapLeaves_mapKind (hbound : ∀ i k, i < d + k → mapLeaves f (g.bound i k) k = h.bound i k) :
    ∀ (kind : CasKind) (k : Nat), LcKind kind (d + k) →
      (∀ x ∈ freeVars (.cas kind), ∀ k, mapLeaves f (g.var x k) k = h.var x k) →
        mapLeaves f (mapKind g kind k) k = mapKind h kind k
  | .var x, k, _, hvar => hvar x (mem_free_var.mpr rfl) k
  | .boundVar i, k, hlc, _ => hbound i k hlc
  | .const _, _, _, _ => rfl
  | .op op args, k, hlc, hvar =>
    congrArg (fun vs => Value.cas (.op op vs)) (mapItems_mapItems hbound args k hlc hvar)
  | .function function args, k, hlc, hvar =>
    congrArg (fun vs => Value.cas (.function function vs)) (mapItems_mapItems hbound args k hlc hvar)
  | .apply head args, k, hlc, hvar =>
    congrArg (fun vs => Value.cas (.apply head vs)) (mapItems_mapItems hbound args k hlc hvar)
  | .namedArg name arg, k, hlc, hvar =>
    congrArg (fun v => Value.cas (.namedArg name v)) (mapLeaves_mapLeaves hbound arg k hlc hvar)
  | .integral body hint bounds, k, hlc, hvar => by
    have hbody := mapLeaves_mapLeaves hbound body (k + 1) hlc.1 fun x hx =>
      hvar x (mem_free_integral.mpr (.inl hx))
    have hbounds := mapBounds_mapBounds hbound bounds k hlc.2 fun x hx =>
      hvar x (mem_free_integral.mpr (.inr hx))
    show Value.cas (.integral (mapLeaves f (mapLeaves g body (k + 1)) (k + 1)) hint
      (mapBounds f (mapBounds g bounds k) k)) = _
    rw [hbody, hbounds]
    rfl
  | .limit body hint point direction, k, hlc, hvar => by
    have hbody := mapLeaves_mapLeaves hbound body (k + 1) hlc.1 fun x hx =>
      hvar x (mem_free_limit.mpr (.inl hx))
    have hpoint := mapLeaves_mapLeaves hbound point k hlc.2 fun x hx =>
      hvar x (mem_free_limit.mpr (.inr hx))
    show Value.cas (.limit (mapLeaves f (mapLeaves g body (k + 1)) (k + 1)) hint
      (mapLeaves f (mapLeaves g point k) k) direction) = _
    rw [hbody, hpoint]
    rfl
  | .eq lhs rhs, k, hlc, hvar => by
    have hlhs := mapLeaves_mapLeaves hbound lhs k hlc.1 fun x hx => hvar x (mem_free_eq.mpr (.inl hx))
    have hrhs := mapLeaves_mapLeaves hbound rhs k hlc.2 fun x hx => hvar x (mem_free_eq.mpr (.inr hx))
    show Value.cas (.eq (mapLeaves f (mapLeaves g lhs k) k) (mapLeaves f (mapLeaves g rhs k) k)) = _
    rw [hlhs, hrhs]
    rfl
  | .predicate p expr, k, hlc, hvar =>
    congrArg (fun v => Value.cas (.predicate p v)) (mapLeaves_mapLeaves hbound expr k hlc hvar)

theorem mapBounds_mapBounds
    (hbound : ∀ i k, i < d + k → mapLeaves f (g.bound i k) k = h.bound i k) :
    ∀ (bounds : Option (Value × Value)) (k : Nat), LcBounds bounds (d + k) →
      (∀ x ∈ collectFreeBounds bounds ∅, ∀ k, mapLeaves f (g.var x k) k = h.var x k) →
        mapBounds f (mapBounds g bounds k) k = mapBounds h bounds k
  | none, _, _, _ => rfl
  | some (lower, upper), k, hlc, hvar => by
    have hlower := mapLeaves_mapLeaves hbound lower k hlc.1 fun x hx =>
      hvar x (mem_freeBounds.mpr (.inl hx))
    have hupper := mapLeaves_mapLeaves hbound upper k hlc.2 fun x hx =>
      hvar x (mem_freeBounds.mpr (.inr hx))
    show some (mapLeaves f (mapLeaves g lower k) k, mapLeaves f (mapLeaves g upper k) k) = _
    rw [hlower, hupper]
    rfl

end

mutual

/-- A traversal that keeps the leaves keeps the expression. -/
theorem mapLeaves_self (hbound : ∀ i k, i < d + k → f.bound i k = .cas (.boundVar i)) :
    ∀ (v : Value) (k : Nat), v.LcAt (d + k) →
      (∀ x ∈ v.freeVars, ∀ k, f.var x k = .cas (.var x)) → mapLeaves f v k = v
  | .cas kind, k, hlc, hvar => mapKind_self hbound kind k hlc hvar
  | .int _, _, _, _ | .bigInt _, _, _, _ | .float _, _, _, _ | .complex _ _, _, _, _
  | .fraction _, _, _, _ | .algebraic _ _, _, _, _ | .char _, _, _, _ | .tag _, _, _, _
  | .bool _, _, _, _ | .intList _, _, _, _ | .intRange _, _, _, _ | .floatList _, _, _, _
  | .boolList _, _, _, _ | .list _, _, _, _ | .string _, _, _, _ | .dict _, _, _, _
  | .compiledFunction _, _, _, _ | .closure _ _, _, _, _ | .builtinFunction _ _, _, _, _
  | .liftedCallable _, _, _, _ | .rng _, _, _, _ | .stream _, _, _, _ => rfl

theorem mapItems_self (hbound : ∀ i k, i < d + k → f.bound i k = .cas (.boundVar i)) :
    ∀ (vs : List Value) (k : Nat), LcItems vs (d + k) →
      (∀ x ∈ collectFreeItems vs ∅, ∀ k, f.var x k = .cas (.var x)) → mapItems f vs k = vs
  | [], _, _, _ => rfl
  | v :: vs, k, hlc, hvar => by
    have hhead := mapLeaves_self hbound v k hlc.1 fun x hx => hvar x (mem_freeItems.mpr (.inl hx))
    have htail := mapItems_self hbound vs k hlc.2 fun x hx => hvar x (mem_freeItems.mpr (.inr hx))
    show mapLeaves f v k :: mapItems f vs k = _
    rw [hhead, htail]

theorem mapKind_self (hbound : ∀ i k, i < d + k → f.bound i k = .cas (.boundVar i)) :
    ∀ (kind : CasKind) (k : Nat), LcKind kind (d + k) →
      (∀ x ∈ freeVars (.cas kind), ∀ k, f.var x k = .cas (.var x)) → mapKind f kind k = .cas kind
  | .var x, k, _, hvar => hvar x (mem_free_var.mpr rfl) k
  | .boundVar i, k, hlc, _ => hbound i k hlc
  | .const _, _, _, _ => rfl
  | .op op args, k, hlc, hvar =>
    congrArg (fun vs => Value.cas (.op op vs)) (mapItems_self hbound args k hlc hvar)
  | .function function args, k, hlc, hvar =>
    congrArg (fun vs => Value.cas (.function function vs)) (mapItems_self hbound args k hlc hvar)
  | .apply head args, k, hlc, hvar =>
    congrArg (fun vs => Value.cas (.apply head vs)) (mapItems_self hbound args k hlc hvar)
  | .namedArg name arg, k, hlc, hvar =>
    congrArg (fun v => Value.cas (.namedArg name v)) (mapLeaves_self hbound arg k hlc hvar)
  | .integral body hint bounds, k, hlc, hvar => by
    have hbody := mapLeaves_self hbound body (k + 1) hlc.1 fun x hx =>
      hvar x (mem_free_integral.mpr (.inl hx))
    have hbounds := mapBounds_self hbound bounds k hlc.2 fun x hx =>
      hvar x (mem_free_integral.mpr (.inr hx))
    show Value.cas (.integral (mapLeaves f body (k + 1)) hint (mapBounds f bounds k)) = _
    rw [hbody, hbounds]
  | .limit body hint point direction, k, hlc, hvar => by
    have hbody := mapLeaves_self hbound body (k + 1) hlc.1 fun x hx =>
      hvar x (mem_free_limit.mpr (.inl hx))
    have hpoint := mapLeaves_self hbound point k hlc.2 fun x hx =>
      hvar x (mem_free_limit.mpr (.inr hx))
    show Value.cas (.limit (mapLeaves f body (k + 1)) hint (mapLeaves f point k) direction) = _
    rw [hbody, hpoint]
  | .eq lhs rhs, k, hlc, hvar => by
    have hlhs := mapLeaves_self hbound lhs k hlc.1 fun x hx => hvar x (mem_free_eq.mpr (.inl hx))
    have hrhs := mapLeaves_self hbound rhs k hlc.2 fun x hx => hvar x (mem_free_eq.mpr (.inr hx))
    show Value.cas (.eq (mapLeaves f lhs k) (mapLeaves f rhs k)) = _
    rw [hlhs, hrhs]
  | .predicate p expr, k, hlc, hvar =>
    congrArg (fun v => Value.cas (.predicate p v)) (mapLeaves_self hbound expr k hlc hvar)

theorem mapBounds_self (hbound : ∀ i k, i < d + k → f.bound i k = .cas (.boundVar i)) :
    ∀ (bounds : Option (Value × Value)) (k : Nat), LcBounds bounds (d + k) →
      (∀ x ∈ collectFreeBounds bounds ∅, ∀ k, f.var x k = .cas (.var x)) →
        mapBounds f bounds k = bounds
  | none, _, _, _ => rfl
  | some (lower, upper), k, hlc, hvar => by
    have hlower := mapLeaves_self hbound lower k hlc.1 fun x hx =>
      hvar x (mem_freeBounds.mpr (.inl hx))
    have hupper := mapLeaves_self hbound upper k hlc.2 fun x hx =>
      hvar x (mem_freeBounds.mpr (.inr hx))
    show some (mapLeaves f lower k, mapLeaves f upper k) = _
    rw [hlower, hupper]

end

mutual

/-- The variables behind a traversal are those of the leaves. -/
theorem mem_freeVars_mapLeaves (hvar : ∀ x k, y ∈ (f.var x k).freeVars ↔ P x)
    (hbound : ∀ i k, y ∉ (f.bound i k).freeVars) :
    ∀ (v : Value) (k : Nat), y ∈ (mapLeaves f v k).freeVars ↔ ∃ x ∈ v.freeVars, P x
  | .cas kind, k => mem_freeVars_mapKind hvar hbound kind k
  | .int _, _ | .bigInt _, _ | .float _, _ | .complex _ _, _ | .fraction _, _ | .algebraic _ _, _
  | .char _, _ | .tag _, _ | .bool _, _ | .intList _, _ | .intRange _, _ | .floatList _, _
  | .boolList _, _ | .list _, _ | .string _, _ | .dict _, _ | .compiledFunction _, _
  | .closure _ _, _ | .builtinFunction _ _, _ | .liftedCallable _, _ | .rng _, _ | .stream _, _ =>
    ⟨fun h => absurd h (Finset.notMem_empty _), fun ⟨_, hx, _⟩ => absurd hx (Finset.notMem_empty _)⟩

theorem mem_freeItems_mapItems (hvar : ∀ x k, y ∈ (f.var x k).freeVars ↔ P x)
    (hbound : ∀ i k, y ∉ (f.bound i k).freeVars) : ∀ (vs : List Value) (k : Nat),
      y ∈ collectFreeItems (mapItems f vs k) ∅ ↔ ∃ x ∈ collectFreeItems vs ∅, P x
  | [], _ =>
    ⟨fun h => absurd h (Finset.notMem_empty _), fun ⟨_, hx, _⟩ => absurd hx (Finset.notMem_empty _)⟩
  | v :: vs, k => by
    show y ∈ collectFreeItems (mapLeaves f v k :: mapItems f vs k) ∅ ↔ _
    rw [mem_freeItems, mem_freeVars_mapLeaves hvar hbound v, mem_freeItems_mapItems hvar hbound vs]
    simp only [mem_freeItems, or_and_right, exists_or]

theorem mem_freeVars_mapKind (hvar : ∀ x k, y ∈ (f.var x k).freeVars ↔ P x)
    (hbound : ∀ i k, y ∉ (f.bound i k).freeVars) : ∀ (kind : CasKind) (k : Nat),
      y ∈ (mapKind f kind k).freeVars ↔ ∃ x ∈ freeVars (.cas kind), P x
  | .var x, k => by
    show y ∈ (f.var x k).freeVars ↔ _
    rw [hvar]
    simp only [mem_free_var, exists_eq_left]
  | .boundVar i, k =>
    ⟨fun h => absurd h (hbound i k), fun ⟨_, hx, _⟩ => absurd hx (Finset.notMem_empty _)⟩
  | .const _, _ =>
    ⟨fun h => absurd h (Finset.notMem_empty _), fun ⟨_, hx, _⟩ => absurd hx (Finset.notMem_empty _)⟩
  | .op _ args, k | .function _ args, k | .apply _ args, k =>
    mem_freeItems_mapItems hvar hbound args k
  | .namedArg _ arg, k => mem_freeVars_mapLeaves hvar hbound arg k
  | .integral body hint bounds, k => by
    show y ∈ freeVars (.cas (.integral (mapLeaves f body (k + 1)) hint (mapBounds f bounds k))) ↔ _
    rw [mem_free_integral, mem_freeVars_mapLeaves hvar hbound body,
      mem_freeBounds_mapBounds hvar hbound bounds]
    simp only [mem_free_integral, or_and_right, exists_or]
  | .limit body hint point direction, k => by
    show y ∈ freeVars (.cas (.limit (mapLeaves f body (k + 1)) hint (mapLeaves f point k)
      direction)) ↔ _
    rw [mem_free_limit, mem_freeVars_mapLeaves hvar hbound body,
      mem_freeVars_mapLeaves hvar hbound point]
    simp only [mem_free_limit, or_and_right, exists_or]
  | .eq lhs rhs, k => by
    show y ∈ freeVars (.cas (.eq (mapLeaves f lhs k) (mapLeaves f rhs k))) ↔ _
    rw [mem_free_eq, mem_freeVars_mapLeaves hvar hbound lhs,
      mem_freeVars_mapLeaves hvar hbound rhs]
    simp only [mem_free_eq, or_and_right, exists_or]
  | .predicate _ expr, k => mem_freeVars_mapLeaves hvar hbound expr k

theorem mem_freeBounds_mapBounds (hvar : ∀ x k, y ∈ (f.var x k).freeVars ↔ P x)
    (hbound : ∀ i k, y ∉ (f.bound i k).freeVars) : ∀ (bounds : Option (Value × Value)) (k : Nat),
      y ∈ collectFreeBounds (mapBounds f bounds k) ∅ ↔ ∃ x ∈ collectFreeBounds bounds ∅, P x
  | none, _ =>
    ⟨fun h => absurd h (Finset.notMem_empty _), fun ⟨_, hx, _⟩ => absurd hx (Finset.notMem_empty _)⟩
  | some (lower, upper), k => by
    show y ∈ collectFreeBounds (some (mapLeaves f lower k, mapLeaves f upper k)) ∅ ↔ _
    rw [mem_freeBounds, mem_freeVars_mapLeaves hvar hbound lower,
      mem_freeVars_mapLeaves hvar hbound upper]
    simp only [mem_freeBounds, or_and_right, exists_or]

end

end Traversals

/-! ### More scopes around an expression -/

mutual

theorem LcAt.mono {j k : Nat} (hjk : j ≤ k) : ∀ v : Value, v.LcAt j → v.LcAt k
  | .cas kind, h => LcKind.mono hjk kind h
  | .int _, _ | .bigInt _, _ | .float _, _ | .complex _ _, _ | .fraction _, _ | .algebraic _ _, _
  | .char _, _ | .tag _, _ | .bool _, _ | .intList _, _ | .intRange _, _ | .floatList _, _
  | .boolList _, _ | .list _, _ | .string _, _ | .dict _, _ | .compiledFunction _, _
  | .closure _ _, _ | .builtinFunction _ _, _ | .liftedCallable _, _ | .rng _, _ | .stream _, _ =>
    trivial

theorem LcItems.mono {j k : Nat} (hjk : j ≤ k) : ∀ vs : List Value, LcItems vs j → LcItems vs k
  | [], _ => trivial
  | v :: vs, h => ⟨LcAt.mono hjk v h.1, LcItems.mono hjk vs h.2⟩

theorem LcKind.mono {j k : Nat} (hjk : j ≤ k) : ∀ kind : CasKind, LcKind kind j → LcKind kind k
  | .var _, _ | .const _, _ => trivial
  | .boundVar _, h => Nat.lt_of_lt_of_le h hjk
  | .op _ args, h | .function _ args, h | .apply _ args, h => LcItems.mono hjk args h
  | .namedArg _ arg, h => LcAt.mono hjk arg h
  | .integral body _ bounds, h =>
    ⟨LcAt.mono (Nat.succ_le_succ hjk) body h.1, LcBounds.mono hjk bounds h.2⟩
  | .limit body _ point _, h => ⟨LcAt.mono (Nat.succ_le_succ hjk) body h.1, LcAt.mono hjk point h.2⟩
  | .eq lhs rhs, h => ⟨LcAt.mono hjk lhs h.1, LcAt.mono hjk rhs h.2⟩
  | .predicate _ expr, h => LcAt.mono hjk expr h

theorem LcBounds.mono {j k : Nat} (hjk : j ≤ k) :
    ∀ bounds : Option (Value × Value), LcBounds bounds j → LcBounds bounds k
  | none, _ => trivial
  | some (lower, upper), h => ⟨LcAt.mono hjk lower h.1, LcAt.mono hjk upper h.2⟩

end

end Value

/-! ### Hygiene -/

/-- Plain substitution: nothing is simplified. -/
def substitute (value : Value) (name : String) (replacement : Value) : Value :=
  value.mapLeaves
    { var := fun x _ => if x = name then replacement else .cas (.var x)
      bound := fun i _ => .cas (.boundVar i) } 0

variable {e r : Value} {x y z : String}

theorem mem_freeVars_substitute : y ∈ (substitute e x r).freeVars ↔
    (y ∈ e.freeVars ∧ y ≠ x) ∨ (x ∈ e.freeVars ∧ y ∈ r.freeVars) := by
  unfold substitute
  rw [Value.mem_freeVars_mapLeaves (P := fun z => (z ≠ x ∧ y = z) ∨ (z = x ∧ y ∈ r.freeVars))]
  · constructor
    · rintro ⟨z, hz, ⟨hne, rfl⟩ | ⟨rfl, hy⟩⟩
      · exact .inl ⟨hz, hne⟩
      · exact .inr ⟨hz, hy⟩
    · rintro (⟨hy, hne⟩ | ⟨hx, hy⟩)
      · exact ⟨y, hy, .inl ⟨hne, rfl⟩⟩
      · exact ⟨x, hx, .inr ⟨rfl, hy⟩⟩
  · intro z k
    dsimp only
    split
    · next h => simp only [h, ne_eq, not_true_eq_false, false_and, true_and, false_or]
    · next h =>
      rw [Value.mem_free_var]
      simp only [h, ne_eq, not_false_eq_true, true_and, false_and, or_false]
  · exact fun i k => Finset.notMem_empty y

theorem substitute_self (h : e.LocallyClosed) : substitute e x (.cas (.var x)) = e := by
  refine Value.mapLeaves_self (d := 0) (fun i k _ => rfl) e 0 h fun z _ k => ?_
  dsimp only
  split
  · next hz => rw [hz]
  · rfl

/-- A locally closed expression is the same below any scopes. -/
theorem openValue_closed (h : r.LocallyClosed) (u : Value) (k : Nat) : openValue r u k = r := by
  refine Value.mapLeaves_self (d := 0) (fun i j hi => ?_) r k
    (Value.LcAt.mono (Nat.zero_le _) r h) fun z _ k => rfl
  have hlt : i < j := by omega
  dsimp only
  rw [if_neg (by omega), if_neg (by omega)]

/-- Opening what was closed substitutes. -/
theorem open_close (h : e.LocallyClosed) (x : String) (r : Value) :
    openCasScopeWithValue (closeCasScope e x) r = substitute e x r := by
  refine Value.mapLeaves_mapLeaves (d := 0) (fun i k hi => ?_) e 0 h fun z _ k => ?_
  · have hlt : i < k := by omega
    show (if i = k then r else Value.cas (.boundVar (if k < i then i - 1 else i))) = _
    rw [if_neg (by omega), if_neg (by omega)]
  · dsimp only
    split
    · exact if_pos rfl
    · rfl

/-- Closing what was opened with a variable that is not in it gives it back. -/
theorem close_open {scope : CasScope} (h : scope.body.LcAt 1) (hz : z ∉ scope.body.freeVars) :
    (closeCasScope (openCasScopeWithValue scope (.cas (.var z))) z).body = scope.body := by
  have hself : scope.body.mapLeaves
      { var := fun x _ => .cas (.var x), bound := fun i _ => .cas (.boundVar i) } 0 =
      scope.body :=
    Value.mapLeaves_self (d := 1) (fun _ _ _ => rfl) _ 0 h fun _ _ _ => rfl
  refine Eq.trans (Value.mapLeaves_mapLeaves (d := 1) (fun i k hi => ?_) _ 0 h fun x hx k => ?_) hself
  · dsimp only
    split
    · next heq =>
      rw [heq]
      exact if_pos rfl
    · rw [if_neg (by omega)]
      rfl
  · refine if_neg ?_
    rintro rfl
    exact hz hx

/-- Substitution for a free variable commutes with opening. -/
theorem substitute_open {scope : CasScope} (h : scope.body.LcAt 1) (hr : r.LocallyClosed)
    (hyz : z ≠ y) :
    substitute (openCasScopeWithValue scope (.cas (.var z))) y r =
      openCasScopeWithValue { scope with body := substitute scope.body y r } (.cas (.var z)) := by
  -- both are one traversal that does both
  have hleft : substitute (openCasScopeWithValue scope (.cas (.var z))) y r = scope.body.mapLeaves
      { var := fun x _ => if x = y then r else .cas (.var x)
        bound := fun i k =>
          if i = k then .cas (.var z) else .cas (.boundVar (if k < i then i - 1 else i)) } 0 := by
    refine Value.mapLeaves_mapLeaves (d := 1) (fun i k hi => ?_) _ 0 h fun x _ k => rfl
    dsimp only
    split
    · exact if_neg hyz
    · rfl
  rw [hleft]
  refine (Value.mapLeaves_mapLeaves (d := 1) (fun i k hi => rfl) _ 0 h fun x _ k => ?_).symm
  dsimp only
  split
  · exact openValue_closed hr _ k
  · rfl

/-! ### The substitution of the program -/

/-- The constructors that simplify what they build: `cas_add`, `cas_mul`,
`cas_pow` and `simplify_cas_value`. -/
structure Simplifier where
  casAdd : List Value → WqResult Value
  casMul : List Value → WqResult Value
  casPow : Value → Value → WqResult Value
  simplifyCasValue : Value → WqResult Value

section Substitution

variable (b : Simplifier) (replacement : String → Option Value)

mutual

def substituteExprWith : Value → WqResult Value
  | .cas kind => substituteKindWith kind
  | v => .ok v
termination_by structural v => v

def substituteItemsWith : List Value → WqResult (List Value)
  | [] => .ok []
  | v :: vs => do
    let out ← substituteExprWith v
    let rest ← substituteItemsWith vs
    return out :: rest
termination_by structural vs => vs

def substituteKindWith : CasKind → WqResult Value
  | .eq lhs rhs => do
    let lhs ← substituteExprWith lhs
    let rhs ← substituteExprWith rhs
    return .cas (.eq lhs rhs)
  | .var name => .ok ((replacement name).getD (.cas (.var name)))
  | .boundVar i => .ok (.cas (.boundVar i))
  | .const c => .ok (.cas (.const c))
  | .predicate p expr => do
    let expr ← substituteExprWith expr
    return .cas (.predicate p expr)
  | .op .add args => do
    let out ← substituteItemsWith args
    b.casAdd out
  | .op .multiply args => do
    let out ← substituteItemsWith args
    b.casMul out
  | .op .power [base, exp] => do
    let base ← substituteExprWith base
    let exp ← substituteExprWith exp
    b.casPow base exp
  | .op op args => .ok (.cas (.op op args))
  | .function function args => do
    let out ← substituteItemsWith args
    b.simplifyCasValue (.cas (.function function out))
  | .apply name args => do
    let out ← substituteItemsWith args
    b.simplifyCasValue (.cas (.apply name out))
  | .namedArg name value => do
    let value ← substituteExprWith value
    return .cas (.namedArg name value)
  | .integral body hint bounds => do
    let body ← substituteExprWith body
    let bounds ← substituteBoundsWith bounds
    return .cas (.integral body hint bounds)
  | .limit body hint point direction => do
    let point ← substituteExprWith point
    let body ← substituteExprWith body
    return .cas (.limit body hint point direction)
termination_by structural kind => kind

def substituteBoundsWith : Option (Value × Value) → WqResult (Option (Value × Value))
  | none => .ok none
  | some (lower, upper) => do
    let lower ← substituteExprWith lower
    let upper ← substituteExprWith upper
    return some (lower, upper)
termination_by structural bounds => bounds

end

end Substitution

/-- `substitute_expr`. -/
def substituteExpr (b : Simplifier) (expr : Value) (var : String) (val : Value) : WqResult Value :=
  substituteExprWith b (fun name => if name = var then some val else none) expr

/-- The second expression is the first with some of its sums, products, powers
and calls simplified, from the leaves up. -/
inductive Rebuilds (b : Simplifier) : Value → Value → Prop
  | refl (v : Value) : Rebuilds b v v
  | add {args out : List Value} {v : Value} (h : List.Forall₂ (Rebuilds b) args out)
    (hv : b.casAdd out = .ok v) : Rebuilds b (.cas (.op .add args)) v
  | multiply {args out : List Value} {v : Value} (h : List.Forall₂ (Rebuilds b) args out)
    (hv : b.casMul out = .ok v) : Rebuilds b (.cas (.op .multiply args)) v
  | power {base base' exp exp' v : Value} (hbase : Rebuilds b base base')
    (hexp : Rebuilds b exp exp') (hv : b.casPow base' exp' = .ok v) :
    Rebuilds b (.cas (.op .power [base, exp])) v
  | function {function : CasFunction} {args out : List Value} {v : Value}
    (h : List.Forall₂ (Rebuilds b) args out)
    (hv : b.simplifyCasValue (.cas (.function function out)) = .ok v) :
    Rebuilds b (.cas (.function function args)) v
  | apply {name : String} {args out : List Value} {v : Value}
    (h : List.Forall₂ (Rebuilds b) args out)
    (hv : b.simplifyCasValue (.cas (.apply name out)) = .ok v) :
    Rebuilds b (.cas (.apply name args)) v
  | namedArg {name : String} {v v' : Value} (h : Rebuilds b v v') :
    Rebuilds b (.cas (.namedArg name v)) (.cas (.namedArg name v'))
  | indefinite {body body' : Value} {hint : String} (h : Rebuilds b body body') :
    Rebuilds b (.cas (.integral body hint none)) (.cas (.integral body' hint none))
  | definite {body body' lower lower' upper upper' : Value} {hint : String}
    (h : Rebuilds b body body') (hlower : Rebuilds b lower lower')
    (hupper : Rebuilds b upper upper') :
    Rebuilds b (.cas (.integral body hint (some (lower, upper))))
      (.cas (.integral body' hint (some (lower', upper'))))
  | limit {body body' point point' : Value} {hint : String} {direction : Option LimitDirection}
    (h : Rebuilds b body body') (hpoint : Rebuilds b point point') :
    Rebuilds b (.cas (.limit body hint point direction)) (.cas (.limit body' hint point' direction))
  | eq {lhs lhs' rhs rhs' : Value} (hlhs : Rebuilds b lhs lhs') (hrhs : Rebuilds b rhs rhs') :
    Rebuilds b (.cas (.eq lhs rhs)) (.cas (.eq lhs' rhs'))
  | predicate {p : CasPredicate} {expr expr' : Value} (h : Rebuilds b expr expr') :
    Rebuilds b (.cas (.predicate p expr)) (.cas (.predicate p expr'))

namespace Value

mutual

/-- Simplified expressions have sums, products and powers for operators. -/
def OperatorsKept : Value → Prop
  | .cas kind => KindKept kind
  | _ => True
termination_by structural v => v

def ItemsKept : List Value → Prop
  | [] => True
  | v :: vs => OperatorsKept v ∧ ItemsKept vs
termination_by structural vs => vs

def KindKept : CasKind → Prop
  | .var _ | .boundVar _ | .const _ => True
  | .op op args =>
    (op = .add ∨ op = .multiply ∨ (op = .power ∧ args.length = 2)) ∧ ItemsKept args
  | .function _ args | .apply _ args => ItemsKept args
  | .namedArg _ arg => OperatorsKept arg
  | .integral body _ bounds => OperatorsKept body ∧ BoundsKept bounds
  | .limit body _ point _ => OperatorsKept body ∧ OperatorsKept point
  | .eq lhs rhs => OperatorsKept lhs ∧ OperatorsKept rhs
  | .predicate _ expr => OperatorsKept expr
termination_by structural kind => kind

def BoundsKept : Option (Value × Value) → Prop
  | none => True
  | some (lower, upper) => OperatorsKept lower ∧ OperatorsKept upper
termination_by structural bounds => bounds

end

end Value

section Rebuilding

variable {b : Simplifier} {ρ : String → Option Value} {f : Leaves}
  (hvar : ∀ x k, f.var x k = (ρ x).getD (.cas (.var x)))
  (hbound : ∀ i k, f.bound i k = .cas (.boundVar i))
include hvar hbound

open Value

mutual

theorem rebuilds_of_substituteExprWith : ∀ (v : Value) (k : Nat) (w : Value), v.OperatorsKept →
    substituteExprWith b ρ v = .ok w → Rebuilds b (mapLeaves f v k) w
  | .cas kind, k, w, hkept, h => rebuilds_of_substituteKindWith kind k w hkept h
  | .int _, _, _, _, h | .bigInt _, _, _, _, h | .float _, _, _, _, h | .complex _ _, _, _, _, h
  | .fraction _, _, _, _, h | .algebraic _ _, _, _, _, h | .char _, _, _, _, h | .tag _, _, _, _, h
  | .bool _, _, _, _, h | .intList _, _, _, _, h | .intRange _, _, _, _, h
  | .floatList _, _, _, _, h | .boolList _, _, _, _, h | .list _, _, _, _, h
  | .string _, _, _, _, h | .dict _, _, _, _, h | .compiledFunction _, _, _, _, h
  | .closure _ _, _, _, _, h | .builtinFunction _ _, _, _, _, h | .liftedCallable _, _, _, _, h
  | .rng _, _, _, _, h | .stream _, _, _, _, h => Except.ok.inj h ▸ .refl _

theorem rebuilds_of_substituteItemsWith : ∀ (vs : List Value) (k : Nat) (ws : List Value),
    ItemsKept vs → substituteItemsWith b ρ vs = .ok ws →
      List.Forall₂ (Rebuilds b) (mapItems f vs k) ws
  | [], _, _, _, h => Except.ok.inj h ▸ .nil
  | v :: vs, k, ws, hkept, h => by
    obtain ⟨out, hout, h⟩ := ok_of_bind h
    obtain ⟨rest, hrest, h⟩ := ok_of_bind h
    obtain rfl := Except.ok.inj h
    exact .cons (rebuilds_of_substituteExprWith v k out hkept.1 hout)
      (rebuilds_of_substituteItemsWith vs k rest hkept.2 hrest)

theorem rebuilds_of_substituteKindWith : ∀ (kind : CasKind) (k : Nat) (w : Value), KindKept kind →
    substituteKindWith b ρ kind = .ok w → Rebuilds b (mapKind f kind k) w
  | .var x, k, w, _, h => by
    obtain rfl := Except.ok.inj h
    exact hvar x k ▸ .refl _
  | .boundVar i, k, w, _, h => by
    obtain rfl := Except.ok.inj h
    exact hbound i k ▸ .refl _
  | .const _, _, _, _, h => Except.ok.inj h ▸ .refl _
  | .op .add args, k, w, hkept, h => by
    obtain ⟨out, hout, h⟩ := ok_of_bind h
    exact .add (rebuilds_of_substituteItemsWith args k out hkept.2 hout) h
  | .op .multiply args, k, w, hkept, h => by
    obtain ⟨out, hout, h⟩ := ok_of_bind h
    exact .multiply (rebuilds_of_substituteItemsWith args k out hkept.2 hout) h
  | .op .power [base, exp], k, w, hkept, h => by
    obtain ⟨base', hbase, h⟩ := ok_of_bind h
    obtain ⟨exp', hexp, h⟩ := ok_of_bind h
    exact .power (rebuilds_of_substituteExprWith base k base' hkept.2.1 hbase)
      (rebuilds_of_substituteExprWith exp k exp' hkept.2.2.1 hexp) h
  | .op .power [], _, _, hkept, _ | .op .power [_], _, _, hkept, _
  | .op .power (_ :: _ :: _ :: _), _, _, hkept, _ => by
    rcases hkept.1 with hop | hop | ⟨-, hlen⟩
    · cases hop
    · cases hop
    · simp only [List.length_nil, List.length_cons] at hlen
      omega
  | .op .subtract _, _, _, hkept, _ | .op .divide _, _, _, hkept, _ => by
    rcases hkept.1 with hop | hop | ⟨hop, -⟩ <;> cases hop
  | .function function args, k, w, hkept, h => by
    obtain ⟨out, hout, h⟩ := ok_of_bind h
    exact .function (rebuilds_of_substituteItemsWith args k out hkept hout) h
  | .apply name args, k, w, hkept, h => by
    obtain ⟨out, hout, h⟩ := ok_of_bind h
    exact .apply (rebuilds_of_substituteItemsWith args k out hkept hout) h
  | .namedArg name arg, k, w, hkept, h => by
    obtain ⟨arg', harg, h⟩ := ok_of_bind h
    obtain rfl := Except.ok.inj h
    exact .namedArg (rebuilds_of_substituteExprWith arg k arg' hkept harg)
  | .integral body hint none, k, w, hkept, h => by
    obtain ⟨body', hbody, h⟩ := ok_of_bind h
    obtain rfl := Except.ok.inj h
    exact .indefinite (rebuilds_of_substituteExprWith body (k + 1) body' hkept.1 hbody)
  | .integral body hint (some (lower, upper)), k, w, hkept, h => by
    obtain ⟨body', hbody, h⟩ := ok_of_bind h
    obtain ⟨bounds', hbounds, h⟩ := ok_of_bind h
    obtain ⟨lower', hlower, hbounds⟩ := ok_of_bind hbounds
    obtain ⟨upper', hupper, hbounds⟩ := ok_of_bind hbounds
    obtain rfl := Except.ok.inj hbounds
    obtain rfl := Except.ok.inj h
    exact .definite (rebuilds_of_substituteExprWith body (k + 1) body' hkept.1 hbody)
      (rebuilds_of_substituteExprWith lower k lower' hkept.2.1 hlower)
      (rebuilds_of_substituteExprWith upper k upper' hkept.2.2 hupper)
  | .limit body hint point direction, k, w, hkept, h => by
    obtain ⟨point', hpoint, h⟩ := ok_of_bind h
    obtain ⟨body', hbody, h⟩ := ok_of_bind h
    obtain rfl := Except.ok.inj h
    exact .limit (rebuilds_of_substituteExprWith body (k + 1) body' hkept.1 hbody)
      (rebuilds_of_substituteExprWith point k point' hkept.2 hpoint)
  | .eq lhs rhs, k, w, hkept, h => by
    obtain ⟨lhs', hlhs, h⟩ := ok_of_bind h
    obtain ⟨rhs', hrhs, h⟩ := ok_of_bind h
    obtain rfl := Except.ok.inj h
    exact .eq (rebuilds_of_substituteExprWith lhs k lhs' hkept.1 hlhs)
      (rebuilds_of_substituteExprWith rhs k rhs' hkept.2 hrhs)
  | .predicate p expr, k, w, hkept, h => by
    obtain ⟨expr', hexpr, h⟩ := ok_of_bind h
    obtain rfl := Except.ok.inj h
    exact .predicate (rebuilds_of_substituteExprWith expr k expr' hkept hexpr)

end

end Rebuilding

/-- The substitution of the program is the plain one, up to the simplification
of what it rebuilds. -/
theorem rebuilds_of_substitute {b : Simplifier} {w : Value} (hkept : e.OperatorsKept)
    (h : substituteExpr b e x r = .ok w) : Rebuilds b (substitute e x r) w := by
  refine rebuilds_of_substituteExprWith (fun y k => ?_) (fun i k => rfl) e 0 w hkept h
  dsimp only
  split <;> rfl

/-- **Scopes are hygienic.** What was closed is opened again; opening with
another expression substitutes it and captures none of its variables; the name
is free no more in the closed scope; an opened scope is closed again; and
substitution commutes with opening. -/
theorem scopes_hygienic :
    (∀ e : Value, e.LocallyClosed → ∀ x,
      openCasScopeWithValue (closeCasScope e x) (.cas (.var x)) = e) ∧
    (∀ e r : Value, e.LocallyClosed → r.LocallyClosed → ∀ x,
      openCasScopeWithValue (closeCasScope e x) r = substitute e x r ∧
        ∀ y, y ∈ (substitute e x r).freeVars ↔
          (y ∈ e.freeVars ∧ y ≠ x) ∨ (x ∈ e.freeVars ∧ y ∈ r.freeVars)) ∧
    (∀ (b : Simplifier) (e r w : Value) (x : String), e.OperatorsKept →
      substituteExpr b e x r = .ok w → Rebuilds b (substitute e x r) w) ∧
    (∀ (e : Value) (x : String), x ∉ (closeCasScope e x).body.freeVars) ∧
    (∀ scope : CasScope, scope.body.LcAt 1 →
      (closeCasScope (openCasScope scope).1 scope.freshVar).eq scope = true) ∧
    (∀ (scope : CasScope) (y : String) (r : Value), scope.body.LcAt 1 → r.LocallyClosed →
      y ∈ scope.body.freeVars → scope.freshVar ∉ r.freeVars →
        let scope' : CasScope := { scope with body := substitute scope.body y r }
        scope.freshVar ∉ scope'.body.freeVars ∧
          substitute (openCasScope scope).1 y r =
            openCasScopeWithValue scope' (openCasScope scope).2) := by
  have hfresh : ∀ scope : CasScope, scope.freshVar ∉ scope.body.freeVars :=
    fun scope => freshName_notMem _ _
  refine ⟨fun e he x => ?_, fun e r he _ x => ⟨open_close he x r, fun y => mem_freeVars_substitute⟩,
    fun b e r w x hkept h => rebuilds_of_substitute hkept h, fun e x => ?_, fun scope h => ?_,
    fun scope y r h hr hy hz => ⟨?_, ?_⟩⟩
  · rw [open_close he, substitute_self he]
  · have hclose := Value.mem_freeVars_mapLeaves (y := x) (P := fun z => z ≠ x ∧ x = z)
      (f := { var := fun z k => if z = x then .cas (.boundVar k) else .cas (.var z)
              bound := fun i _ => .cas (.boundVar i) })
      (fun z k => by
        dsimp only
        split
        · next h => exact ⟨fun hx => absurd hx (Finset.notMem_empty x), fun hx => absurd h hx.1⟩
        · next h => rw [Value.mem_free_var, and_iff_right h])
      (fun i k => Finset.notMem_empty x) e 0
    intro hx
    obtain ⟨z, -, hne, heq⟩ := hclose.mp hx
    exact hne heq.symm
  · have hbody := close_open h (hfresh scope)
    unfold CasScope.eq openCasScope
    rw [hbody]
    exact (Value.eq_iff _ _).mpr rfl
  · intro hmem
    rcases mem_freeVars_substitute.mp hmem with ⟨hbody, -⟩ | ⟨-, hmem⟩
    · exact hfresh scope hbody
    · exact hz hmem
  · refine substitute_open h hr fun heq => hfresh scope ?_
    rwa [heq]

/-- The integral of `x * t` over `t` from 0 to `x`. -/
def scaledIntegral : Value :=
  .cas (.integral (.cas (.op .multiply [.cas (.var "x"), .cas (.boundVar 0)])) "t"
    (some (.int 0, .cas (.var "x"))))

/-- The integral below a scope over `x`, opened with `t`. -/
theorem scopes_hygienic_integral :
    openCasScopeWithValue (closeCasScope scaledIntegral "x") (.cas (.var "t")) =
        substitute scaledIntegral "x" (.cas (.var "t")) ∧
      (closeCasScope (openCasScope (closeCasScope scaledIntegral "x")).1
        (closeCasScope scaledIntegral "x").freshVar).eq (closeCasScope scaledIntegral "x") =
        true := by
  have hlc : scaledIntegral.LocallyClosed := ⟨⟨trivial, Nat.zero_lt_one, trivial⟩, trivial, trivial⟩
  have hlc' : (closeCasScope scaledIntegral "x").body.LcAt 1 :=
    ⟨⟨Nat.lt_succ_self 1, Nat.zero_lt_succ 1, trivial⟩, trivial, Nat.zero_lt_one⟩
  exact ⟨(scopes_hygienic.2.1 scaledIntegral (.cas (.var "t")) hlc trivial "x").1,
    scopes_hygienic.2.2.2.2.1 (closeCasScope scaledIntegral "x") hlc'⟩

/-- Adds two integers, as `cas_add` does, and leaves all else as it is. -/
def Simplifier.ofSums : Simplifier where
  casAdd
    | [.int m, .int n] => .ok (.int (m + n))
    | out => .ok (.cas (.op .add out))
  casMul out := .ok (.cas (.op .multiply out))
  casPow base exp := .ok (.cas (.op .power [base, exp]))
  simplifyCasValue := .ok

/-- Opening leaves `2 + 1` where the substitution of the program has `3`. -/
theorem substitution_simplifies : ¬∀ (e r : Value) (x : String), e.LocallyClosed →
    r.LocallyClosed →
      substituteExpr .ofSums e x r = .ok (openCasScopeWithValue (closeCasScope e x) r) := by
  intro hclaim
  have h := hclaim (.cas (.op .add [.cas (.var "x"), .int 1])) (.int 2) "x" ⟨trivial, trivial, trivial⟩
    trivial
  have hsum : substituteExpr .ofSums (.cas (.op .add [.cas (.var "x"), .int 1])) "x" (.int 2) =
      .ok (.int 3) := rfl
  rw [hsum] at h
  cases h

end Wqpl
