/-
# Broadcasting

`bc1Until` applies a function to the leaves of a value, `bc2Until` to the
pairs of leaves of two values; a leaf is an atom, or whatever lies at a given
depth. Both run the function in a monad, so that it may be a pure operator or
a callback. The depth is the length of the index path that the source keeps
for the notes of its errors.
-/
import Wqpl.Value

namespace Wqpl

inductive Bc1Stop
  | atom
  | atomOrDepth (el : Int)

inductive Bc2Stop
  | bothAtom
  | bothAtomOrDepth (el : Int)

def Bc1Stop.shouldStop : Bc1Stop → Nat → Value → Bool
  | .atom, _, v => v.isAtom
  | .atomOrDepth el, depth, v => v.isAtom || decide (el ≤ depth)

def Bc2Stop.shouldStop : Bc2Stop → Nat → Value → Value → Bool
  | .bothAtom, _, l, r => l.isAtom && r.isAtom
  | .bothAtomOrDepth el, depth, l, r => (l.isAtom && r.isAtom) || decide (el ≤ depth)

theorem Bc1Stop.shouldStop_of_isAtom (stop : Bc1Stop) (depth : Nat) {v : Value}
    (h : v.isAtom = true) : stop.shouldStop depth v = true := by
  cases stop <;> simp [Bc1Stop.shouldStop, h]

theorem Bc2Stop.shouldStop_of_isAtom (stop : Bc2Stop) (depth : Nat) {l r : Value}
    (hl : l.isAtom = true) (hr : r.isAtom = true) : stop.shouldStop depth l r = true := by
  cases stop <;> simp [Bc2Stop.shouldStop, hl, hr]

namespace Value

variable {m : Type → Type} [Monad m]

/-- `map(|_| ())`. -/
def ignore {α : Type} (x : m α) : m Unit := do
  let _ ← x
  return ()

/-! ### One operand -/

mutual

/-- `bc1_until_with_path`. The items of a packed list are atoms. -/
def bc1Until (stop : Bc1Stop) (f : Value → m Value) (depth : Nat) (v : Value) : m Value :=
  if stop.shouldStop depth v then f v
  else
    match v with
    | .list items => do return fromItems (← bc1Items stop f (depth + 1) items)
    | .intList items => do return fromItems (← (items.map .int).mapM f)
    | .intRange range => do return fromItems (← (range.toVec.map .int).mapM f)
    | .floatList items => do return fromItems (← (items.map .float).mapM f)
    | .boolList items => do return fromItems (← (items.map .bool).mapM f)
    | .string s => do return fromItems (← (s.toList.map .char).mapM f)
    | .dict entries => do
      return .dict (IndexMap.collect (← bc1Entries stop f (depth + 1) entries))
    | v => f v -- an atom: `shouldStop` held

def bc1Items (stop : Bc1Stop) (f : Value → m Value) (depth : Nat) :
    List Value → m (List Value)
  | [] => return []
  | v :: vs => do
    let x ← bc1Until stop f depth v
    let xs ← bc1Items stop f depth vs
    return x :: xs

def bc1Entries (stop : Bc1Stop) (f : Value → m Value) (depth : Nat) :
    List (String × Value) → m (List (String × Value))
  | [] => return []
  | (k, v) :: es => do
    let x ← bc1Until stop f depth v
    let xs ← bc1Entries stop f depth es
    return (k, x) :: xs

end

mutual

/-- `bc1_for_each_until_with_path`: as `bc1Until`, without a result. -/
def bc1ForEachUntil (stop : Bc1Stop) (f : Value → m Value) (depth : Nat) (v : Value) :
    m Unit :=
  if stop.shouldStop depth v then ignore (f v)
  else
    match v with
    | .list items => bc1ForEachItem stop f (depth + 1) items
    | .intList items => (items.map .int).forM fun x => ignore (f x)
    | .intRange range => (range.toVec.map .int).forM fun x => ignore (f x)
    | .floatList items => (items.map .float).forM fun x => ignore (f x)
    | .boolList items => (items.map .bool).forM fun x => ignore (f x)
    | .string s => (s.toList.map .char).forM fun x => ignore (f x)
    | .dict entries => bc1ForEachEntry stop f (depth + 1) entries
    | v => ignore (f v) -- an atom: `shouldStop` held

def bc1ForEachItem (stop : Bc1Stop) (f : Value → m Value) (depth : Nat) :
    List Value → m Unit
  | [] => return ()
  | v :: vs => do
    bc1ForEachUntil stop f depth v
    bc1ForEachItem stop f depth vs

def bc1ForEachEntry (stop : Bc1Stop) (f : Value → m Value) (depth : Nat) :
    List (String × Value) → m Unit
  | [] => return ()
  | (_, v) :: es => do
    bc1ForEachUntil stop f depth v
    bc1ForEachEntry stop f depth es

end

/-- The result of pairing a sequence with the entries of a dictionary. -/
def withKeys (keys : List String) (values : List Value) : Value :=
  .dict (IndexMap.collect (keys.zip values))

/-- The container with the same keys, if any, and the new items. -/
def rebuild (v : Value) (items : List Value) : Value :=
  match v with
  | .dict entries => withKeys (entries.map Prod.fst) items
  | _ => fromItems items

theorem bc1Until_of_stop (stop : Bc1Stop) (f : Value → m Value) (depth : Nat) {v : Value}
    (h : stop.shouldStop depth v = true) : bc1Until stop f depth v = f v := by
  rw [bc1Until.eq_def, if_pos h]

section Lawful

variable [LawfulMonad m]

theorem mapM_congr_mem {α β : Type} {f g : α → m β} : ∀ (xs : List α), (∀ x ∈ xs, f x = g x) →
    xs.mapM f = xs.mapM g
  | [], _ => by rw [List.mapM_nil, List.mapM_nil]
  | x :: xs, h => by
    rw [List.mapM_cons, List.mapM_cons, h x List.mem_cons_self,
      mapM_congr_mem xs fun y hy => h y (List.mem_cons_of_mem x hy)]

theorem bc1Items_eq_mapM (stop : Bc1Stop) (f : Value → m Value) (depth : Nat) :
    ∀ vs : List Value, bc1Items stop f depth vs = vs.mapM (bc1Until stop f depth)
  | [] => by rw [bc1Items, List.mapM_nil]
  | v :: vs => by rw [bc1Items, List.mapM_cons, bc1Items_eq_mapM stop f depth vs]

theorem bc1Entries_eq_mapM (stop : Bc1Stop) (f : Value → m Value) (depth : Nat) :
    ∀ es : List (String × Value), bc1Entries stop f depth es = do
      return (es.map Prod.fst).zip (← (es.map Prod.snd).mapM (bc1Until stop f depth))
  | [] => by simp [bc1Entries]
  | (k, v) :: es => by simp [bc1Entries, bc1Entries_eq_mapM stop f depth es]

theorem mapM_bc1Until_atoms (stop : Bc1Stop) (f : Value → m Value) (depth : Nat)
    (vs : List Value) (h : ∀ v ∈ vs, v.isAtom = true) :
    vs.mapM (bc1Until stop f depth) = vs.mapM f :=
  mapM_congr_mem vs fun v hv => bc1Until_of_stop stop f depth (stop.shouldStop_of_isAtom _ (h v hv))

/-- **What `bc1Until` does with a container**: the same to its items, one
layer deeper, and the container is rebuilt from the results. -/
theorem bc1Until_container (stop : Bc1Stop) (f : Value → m Value) (depth : Nat) (v : Value)
    (h : stop.shouldStop depth v = false) :
    bc1Until stop f depth v = do
      return rebuild v (← v.containerItems.mapM (bc1Until stop f (depth + 1))) := by
  have ha : v.isAtom = false := by
    cases ha : v.isAtom
    · rfl
    · exact absurd (stop.shouldStop_of_isAtom depth ha) (by simp [h])
  rw [bc1Until.eq_def, if_neg (by simp [h])]
  -- the items of a packed list are atoms, where the function stops at once
  have packed : ∀ {seq}, ValueSeq.fromValue v = some seq → (∀ items, v ≠ .list items) →
      seq.values.mapM f = v.containerItems.mapM (bc1Until stop f (depth + 1)) := by
    intro seq hs hl
    rw [containerItems_of_fromValue hs]
    exact (mapM_bc1Until_atoms stop f _ _ fun x hx => isAtom_of_mem_values hs hx hl).symm
  cases v with
  | list items => simp only [bc1Items_eq_mapM]; rfl
  | dict entries => simp only [bc1Entries_eq_mapM, bind_assoc, pure_bind]; rfl
  | intList items => rw [← packed rfl (by simp)]; rfl
  | intRange range => rw [← packed rfl (by simp)]; rfl
  | floatList items => rw [← packed rfl (by simp)]; rfl
  | boolList items => rw [← packed rfl (by simp)]; rfl
  | string s => rw [← packed rfl (by simp)]; rfl
  | _ => cases ha

/-- Dropping the results at the leaves or at the end is the same. -/
theorem forM_ignore {α β : Type} (g : α → m β) : ∀ vs : List α,
    (vs.forM fun v => ignore (g v)) = ignore (vs.mapM g)
  | [] => by simp [ignore]
  | v :: vs => by
    have ih := forM_ignore g vs
    simp only [List.forM_eq_forM] at ih
    simp only [List.forM_eq_forM, List.forM_cons, ih, List.mapM_cons]
    simp [ignore]

theorem bc1ForEachItem_eq_forM (stop : Bc1Stop) (f : Value → m Value) (depth : Nat) :
    ∀ vs : List Value, bc1ForEachItem stop f depth vs = vs.forM (bc1ForEachUntil stop f depth)
  | [] => by simp [bc1ForEachItem]
  | v :: vs => by simp [bc1ForEachItem, bc1ForEachItem_eq_forM stop f depth vs]

theorem bc1ForEachEntry_eq_forM (stop : Bc1Stop) (f : Value → m Value) (depth : Nat) :
    ∀ es : List (String × Value),
      bc1ForEachEntry stop f depth es = (es.map Prod.snd).forM (bc1ForEachUntil stop f depth)
  | [] => by simp [bc1ForEachEntry]
  | (k, v) :: es => by simp [bc1ForEachEntry, bc1ForEachEntry_eq_forM stop f depth es]

/-- The variant without a result does what `bc1Until` does. -/
theorem bc1ForEachUntil_eq (stop : Bc1Stop) (f : Value → m Value) (v : Value) : ∀ depth : Nat,
    bc1ForEachUntil stop f depth v = ignore (bc1Until stop f depth v) := by
  induction v using nestingInduction with
  | atom v hv =>
    intro depth
    have hstop := stop.shouldStop_of_isAtom depth hv
    rw [bc1Until_of_stop stop f depth hstop, bc1ForEachUntil.eq_def, if_pos hstop]
  | container v hv ih =>
    intro depth
    by_cases hstop : stop.shouldStop depth v = true
    · rw [bc1Until_of_stop stop f depth hstop, bc1ForEachUntil.eq_def, if_pos hstop]
    have hitems : v.containerItems.forM (bc1ForEachUntil stop f (depth + 1)) =
        ignore (bc1Until stop f depth v) := by
      rw [bc1Until_container stop f depth v (by simpa using hstop)]
      have hforM : ∀ vs : List Value, (∀ x ∈ vs, x ∈ v.containerItems) →
          vs.forM (bc1ForEachUntil stop f (depth + 1)) =
            vs.forM fun x => ignore (bc1Until stop f (depth + 1) x) := by
        intro vs hvs
        induction vs with
        | nil => rfl
        | cons x xs ihx =>
          have hxs := ihx fun y hy => hvs y (List.mem_cons_of_mem x hy)
          simp only [List.forM_eq_forM] at hxs
          simp only [List.forM_eq_forM, List.forM_cons, hxs, ih x (hvs x List.mem_cons_self)]
      rw [hforM _ fun x hx => hx, forM_ignore]
      simp [ignore]
    rw [bc1ForEachUntil.eq_def, if_neg hstop, ← hitems]
    have packed : ∀ {seq}, ValueSeq.fromValue v = some seq → (∀ items, v ≠ .list items) →
        (seq.values.forM fun x => ignore (f x)) =
          v.containerItems.forM (bc1ForEachUntil stop f (depth + 1)) := by
      intro seq hs hl
      rw [hitems, bc1Until_container stop f depth v (by simpa using hstop), forM_ignore,
        containerItems_of_fromValue hs,
        mapM_bc1Until_atoms stop f _ _ fun x hx => isAtom_of_mem_values hs hx hl]
      simp [ignore]
    cases v with
    | list items => exact bc1ForEachItem_eq_forM stop f (depth + 1) items
    | dict entries => exact bc1ForEachEntry_eq_forM stop f (depth + 1) entries
    | intList items => exact packed rfl (by simp)
    | intRange range => exact packed rfl (by simp)
    | floatList items => exact packed rfl (by simp)
    | boolList items => exact packed rfl (by simp)
    | string s => exact packed rfl (by simp)
    | _ => cases hv

end Lawful

/-! ### Two operands -/

mutual

/-- `bc2_until_with_path` for a left operand that is an atom, with
`broadcast_left`. -/
def bc2AtomLeft (stop : Bc2Stop) (op : Value → Value → m Value) (depth : Nat) (atom : Value)
    (v : Value) : m Value :=
  if stop.shouldStop depth atom v then op atom v
  else
    match v with
    | .list items => do return fromItems (← broadcastLeftItems stop op (depth + 1) atom items)
    | .intList items => do return fromItems (← (items.map .int).mapM (op atom))
    | .intRange range => do return fromItems (← (range.toVec.map .int).mapM (op atom))
    | .floatList items => do return fromItems (← (items.map .float).mapM (op atom))
    | .boolList items => do return fromItems (← (items.map .bool).mapM (op atom))
    | .string s => do return fromItems (← (s.toList.map .char).mapM (op atom))
    | .dict entries => do
      return .dict (IndexMap.collect (← broadcastLeftEntries stop op (depth + 1) atom entries))
    | v => op atom v

def broadcastLeftItems (stop : Bc2Stop) (op : Value → Value → m Value) (depth : Nat)
    (atom : Value) : List Value → m (List Value)
  | [] => return []
  | v :: vs => do
    let x ← bc2AtomLeft stop op depth atom v
    let xs ← broadcastLeftItems stop op depth atom vs
    return x :: xs

def broadcastLeftEntries (stop : Bc2Stop) (op : Value → Value → m Value) (depth : Nat)
    (atom : Value) : List (String × Value) → m (List (String × Value))
  | [] => return []
  | (k, v) :: es => do
    let x ← bc2AtomLeft stop op depth atom v
    let xs ← broadcastLeftEntries stop op depth atom es
    return (k, x) :: xs

end

mutual

/-- `bc2_until_with_path` for a right operand that is an atom, with
`broadcast_right`. -/
def bc2AtomRight (stop : Bc2Stop) (op : Value → Value → m Value) (depth : Nat) (v : Value)
    (atom : Value) : m Value :=
  if stop.shouldStop depth v atom then op v atom
  else
    match v with
    | .list items => do return fromItems (← broadcastRightItems stop op (depth + 1) items atom)
    | .intList items => do return fromItems (← (items.map .int).mapM (op · atom))
    | .intRange range => do return fromItems (← (range.toVec.map .int).mapM (op · atom))
    | .floatList items => do return fromItems (← (items.map .float).mapM (op · atom))
    | .boolList items => do return fromItems (← (items.map .bool).mapM (op · atom))
    | .string s => do return fromItems (← (s.toList.map .char).mapM (op · atom))
    | .dict entries => do
      return .dict (IndexMap.collect (← broadcastRightEntries stop op (depth + 1) entries atom))
    | v => op v atom

def broadcastRightItems (stop : Bc2Stop) (op : Value → Value → m Value) (depth : Nat) :
    List Value → Value → m (List Value)
  | [], _ => return []
  | v :: vs, atom => do
    let x ← bc2AtomRight stop op depth v atom
    let xs ← broadcastRightItems stop op depth vs atom
    return x :: xs

def broadcastRightEntries (stop : Bc2Stop) (op : Value → Value → m Value) (depth : Nat) :
    List (String × Value) → Value → m (List (String × Value))
  | [], _ => return []
  | (k, v) :: es, atom => do
    let x ← bc2AtomRight stop op depth v atom
    let xs ← broadcastRightEntries stop op depth es atom
    return (k, x) :: xs

end

/-- The pairs of the items of a packed list with other items. -/
def zipAtoms (stop : Bc2Stop) (op : Value → Value → m Value) (depth : Nat) :
    List Value → List Value → m (List Value)
  | x :: xs, y :: ys => do
    let z ← bc2AtomLeft stop op depth x y
    let zs ← zipAtoms stop op depth xs ys
    return z :: zs
  | _, _ => return []

section LawfulAtoms

variable [LawfulMonad m] (stop : Bc2Stop) (op : Value → Value → m Value)

theorem broadcastLeftItems_eq_mapM (depth : Nat) (atom : Value) : ∀ vs : List Value,
    broadcastLeftItems stop op depth atom vs = vs.mapM (bc2AtomLeft stop op depth atom)
  | [] => by rw [broadcastLeftItems, List.mapM_nil]
  | v :: vs => by rw [broadcastLeftItems, List.mapM_cons, broadcastLeftItems_eq_mapM depth atom vs]

theorem broadcastLeftEntries_eq_mapM (depth : Nat) (atom : Value) :
    ∀ es : List (String × Value), broadcastLeftEntries stop op depth atom es = do
      return (es.map Prod.fst).zip
        (← (es.map Prod.snd).mapM (bc2AtomLeft stop op depth atom))
  | [] => by simp [broadcastLeftEntries]
  | (k, v) :: es => by simp [broadcastLeftEntries, broadcastLeftEntries_eq_mapM depth atom es]

theorem broadcastRightItems_eq_mapM (depth : Nat) (atom : Value) : ∀ vs : List Value,
    broadcastRightItems stop op depth vs atom = vs.mapM fun v => bc2AtomRight stop op depth v atom
  | [] => by rw [broadcastRightItems, List.mapM_nil]
  | v :: vs => by
    rw [broadcastRightItems, List.mapM_cons, broadcastRightItems_eq_mapM depth atom vs]

theorem broadcastRightEntries_eq_mapM (depth : Nat) (atom : Value) :
    ∀ es : List (String × Value), broadcastRightEntries stop op depth es atom = do
      return (es.map Prod.fst).zip
        (← (es.map Prod.snd).mapM fun v => bc2AtomRight stop op depth v atom)
  | [] => by simp [broadcastRightEntries]
  | (k, v) :: es => by simp [broadcastRightEntries, broadcastRightEntries_eq_mapM depth atom es]

theorem zipAtoms_eq_mapM (depth : Nat) : ∀ xs ys : List Value,
    zipAtoms stop op depth xs ys = (xs.zip ys).mapM fun p => bc2AtomLeft stop op depth p.1 p.2
  | [], _ => by simp [zipAtoms]
  | _ :: _, [] => by simp [zipAtoms]
  | x :: xs, y :: ys => by simp [zipAtoms, zipAtoms_eq_mapM depth xs ys]

/-- An atom against the items of a container. -/
theorem bc2AtomLeft_container (depth : Nat) {atom v : Value}
    (h : stop.shouldStop depth atom v = false) (ha : atom.isAtom = true) :
    bc2AtomLeft stop op depth atom v = do
      return rebuild v (← v.containerItems.mapM (bc2AtomLeft stop op (depth + 1) atom)) := by
  rw [bc2AtomLeft.eq_def, if_neg (by simp [h])]
  have packed : ∀ {seq}, ValueSeq.fromValue v = some seq → (∀ items, v ≠ .list items) →
      seq.values.mapM (op atom) =
        v.containerItems.mapM (bc2AtomLeft stop op (depth + 1) atom) := by
    intro seq hs hl
    rw [containerItems_of_fromValue hs]
    refine mapM_congr_mem _ fun x hx => ?_
    have hx' := Bc2Stop.shouldStop_of_isAtom stop (depth + 1) ha (isAtom_of_mem_values hs hx hl)
    rw [bc2AtomLeft.eq_def, if_pos hx']
  cases v with
  | list items => simp only [broadcastLeftItems_eq_mapM]; rfl
  | dict entries => simp only [broadcastLeftEntries_eq_mapM, bind_assoc, pure_bind]; rfl
  | intList items => rw [← packed rfl (by simp)]; rfl
  | intRange range => rw [← packed rfl (by simp)]; rfl
  | floatList items => rw [← packed rfl (by simp)]; rfl
  | boolList items => rw [← packed rfl (by simp)]; rfl
  | string s => rw [← packed rfl (by simp)]; rfl
  | _ =>
    exact absurd (h.symm.trans (Bc2Stop.shouldStop_of_isAtom stop depth ha rfl)) Bool.false_ne_true

/-- The items of a container against an atom. -/
theorem bc2AtomRight_container (depth : Nat) {v atom : Value}
    (h : stop.shouldStop depth v atom = false) (ha : atom.isAtom = true) :
    bc2AtomRight stop op depth v atom = do
      return rebuild v
        (← v.containerItems.mapM fun x => bc2AtomRight stop op (depth + 1) x atom) := by
  rw [bc2AtomRight.eq_def, if_neg (by simp [h])]
  have packed : ∀ {seq}, ValueSeq.fromValue v = some seq → (∀ items, v ≠ .list items) →
      seq.values.mapM (op · atom) =
        v.containerItems.mapM fun x => bc2AtomRight stop op (depth + 1) x atom := by
    intro seq hs hl
    rw [containerItems_of_fromValue hs]
    refine mapM_congr_mem _ fun x hx => ?_
    have hx' := Bc2Stop.shouldStop_of_isAtom stop (depth + 1) (isAtom_of_mem_values hs hx hl) ha
    rw [bc2AtomRight.eq_def, if_pos hx']
  cases v with
  | list items => simp only [broadcastRightItems_eq_mapM]; rfl
  | dict entries => simp only [broadcastRightEntries_eq_mapM, bind_assoc, pure_bind]; rfl
  | intList items => rw [← packed rfl (by simp)]; rfl
  | intRange range => rw [← packed rfl (by simp)]; rfl
  | floatList items => rw [← packed rfl (by simp)]; rfl
  | boolList items => rw [← packed rfl (by simp)]; rfl
  | string s => rw [← packed rfl (by simp)]; rfl
  | _ =>
    exact absurd (h.symm.trans (Bc2Stop.shouldStop_of_isAtom stop depth rfl ha)) Bool.false_ne_true

end LawfulAtoms

variable [MonadExcept WqErrorType m]

mutual

/-- `bc2_until_with_path`. The arms of `zip_containers` for the pairs of list
representations differ in how they read the items only, and are one here:
a packed left operand has atoms for items. -/
def bc2Until (stop : Bc2Stop) (op : Value → Value → m Value) (depth : Nat) (l : Value)
    (r : Value) : m Value :=
  if stop.shouldStop depth l r then op l r
  else if l.isAtom then bc2AtomLeft stop op depth l r
  else if r.isAtom then bc2AtomRight stop op depth l r
  else if l.len ≠ r.len then throw .length
  else
    match l, r with
    | .dict dx, .dict dy => do
      return .dict (IndexMap.collect (← zipDicts stop op (depth + 1) dx dy))
    | .dict dx, r => do
      return withKeys (dx.map Prod.fst) (← zipEntries stop op (depth + 1) dx r.containerItems)
    | .list xs, .dict dy => do
      return withKeys (dy.map Prod.fst) (← zipItems stop op (depth + 1) xs (dy.map Prod.snd))
    | .list xs, r => do
      return fromItems (← zipItems stop op (depth + 1) xs r.containerItems)
    | l, .dict dy => do
      return withKeys (dy.map Prod.fst)
        (← zipAtoms stop op (depth + 1) l.containerItems (dy.map Prod.snd))
    | l, r => do
      return fromItems (← zipAtoms stop op (depth + 1) l.containerItems r.containerItems)

def zipItems (stop : Bc2Stop) (op : Value → Value → m Value) (depth : Nat) :
    List Value → List Value → m (List Value)
  | x :: xs, y :: ys => do
    let z ← bc2Until stop op depth x y
    let zs ← zipItems stop op depth xs ys
    return z :: zs
  | _, _ => return []

def zipEntries (stop : Bc2Stop) (op : Value → Value → m Value) (depth : Nat) :
    List (String × Value) → List Value → m (List Value)
  | (_, x) :: xs, y :: ys => do
    let z ← bc2Until stop op depth x y
    let zs ← zipEntries stop op depth xs ys
    return z :: zs
  | _, _ => return []

/-- The entries of two dictionaries in order; the keys must agree, each is
compared when its turn comes. -/
def zipDicts (stop : Bc2Stop) (op : Value → Value → m Value) (depth : Nat) :
    List (String × Value) → List (String × Value) → m (List (String × Value))
  | (kx, x) :: xs, (ky, y) :: ys =>
    if kx ≠ ky then throw .length
    else do
      let z ← bc2Until stop op depth x y
      let zs ← zipDicts stop op depth xs ys
      return (kx, z) :: zs
  | _, _ => return []

end

/-! ### Pairs of items -/

/-- The pairs of items two operands are taken apart into. -/
def pairItems (l r : Value) : List (Value × Value) :=
  if l.isAtom then r.containerItems.map fun y => (l, y)
  else if r.isAtom then l.containerItems.map fun x => (x, r)
  else l.containerItems.zip r.containerItems

/-- The container built from the results of the pairs. -/
def rebuildPair (l r : Value) (items : List Value) : Value :=
  match l, r with
  | .dict entries, _ => withKeys (entries.map Prod.fst) items
  | _, .dict entries => withKeys (entries.map Prod.fst) items
  | _, _ => fromItems items

section Spec

variable (stop : Bc2Stop) (op : Value → Value → m Value)

theorem bc2Until_of_stop (depth : Nat) {l r : Value} (h : stop.shouldStop depth l r = true) :
    bc2Until stop op depth l r = op l r := by
  rw [bc2Until.eq_def, if_pos h]

theorem bc2Until_atom_left (depth : Nat) {l : Value} (r : Value) (hl : l.isAtom = true) :
    bc2Until stop op depth l r = bc2AtomLeft stop op depth l r := by
  rw [bc2Until.eq_def]
  by_cases h : stop.shouldStop depth l r = true
  · rw [if_pos h, bc2AtomLeft.eq_def, if_pos h]
  · rw [if_neg h, if_pos hl]

theorem bc2Until_atom_right (depth : Nat) (l : Value) {r : Value} (hr : r.isAtom = true) :
    bc2Until stop op depth l r = bc2AtomRight stop op depth l r := by
  rw [bc2Until.eq_def]
  by_cases h : stop.shouldStop depth l r = true
  · rw [if_pos h, bc2AtomRight.eq_def, if_pos h]
  · have hl : ¬l.isAtom = true := fun hl => h (Bc2Stop.shouldStop_of_isAtom stop depth hl hr)
    rw [if_neg h, if_neg hl, if_pos hr]

/-- Containers of different lengths fail. -/
theorem bc2Until_length (depth : Nat) {l r : Value} (h : stop.shouldStop depth l r = false)
    (hl : l.isAtom = false) (hr : r.isAtom = false) (hne : l.len ≠ r.len) :
    bc2Until stop op depth l r = throw .length := by
  rw [bc2Until.eq_def, if_neg (by simp [h]), if_neg (by simp [hl]), if_neg (by simp [hr]),
    if_pos hne]

theorem bc2Until_dicts (depth : Nat) (dx dy : List (String × Value))
    (h : stop.shouldStop depth (.dict dx) (.dict dy) = false) (heq : dx.length = dy.length) :
    bc2Until stop op depth (.dict dx) (.dict dy) = do
      return .dict (IndexMap.collect (← zipDicts stop op (depth + 1) dx dy)) := by
  have hlen : ¬(Value.dict dx).len ≠ (Value.dict dy).len := by
    simp [len, ValueSeq.fromValue, heq]
  rw [bc2Until.eq_def, if_neg (by simp [h]), if_neg (by simp [isAtom]),
    if_neg (by simp [isAtom]), if_neg hlen]

variable [LawfulMonad m]

theorem zipItems_eq_mapM (depth : Nat) : ∀ xs ys : List Value,
    zipItems stop op depth xs ys = (xs.zip ys).mapM fun p => bc2Until stop op depth p.1 p.2
  | [], _ => by simp [zipItems]
  | _ :: _, [] => by simp [zipItems]
  | x :: xs, y :: ys => by simp [zipItems, zipItems_eq_mapM depth xs ys]

theorem zipEntries_eq_mapM (depth : Nat) : ∀ (xs : List (String × Value)) (ys : List Value),
    zipEntries stop op depth xs ys =
      ((xs.map Prod.snd).zip ys).mapM fun p => bc2Until stop op depth p.1 p.2
  | [], _ => by simp [zipEntries]
  | _ :: _, [] => by simp [zipEntries]
  | (k, x) :: xs, y :: ys => by simp [zipEntries, zipEntries_eq_mapM depth xs ys]

/-- **What `bc2Until` does with a pair that is not two dictionaries**: the
same to the pairs of their items, one layer deeper. -/
theorem bc2Until_container (depth : Nat) {l r : Value} (h : stop.shouldStop depth l r = false)
    (hd : ¬(l.isDict = true ∧ r.isDict = true))
    (hlen : l.isAtom = true ∨ r.isAtom = true ∨ l.len = r.len) :
    bc2Until stop op depth l r = do
      return rebuildPair l r
        (← (pairItems l r).mapM fun p => bc2Until stop op (depth + 1) p.1 p.2) := by
  by_cases hl : l.isAtom = true
  · rw [bc2Until_atom_left stop op depth r hl, bc2AtomLeft_container stop op depth h hl]
    have hitems : (pairItems l r).mapM (fun p => bc2Until stop op (depth + 1) p.1 p.2) =
        r.containerItems.mapM (bc2AtomLeft stop op (depth + 1) l) := by
      rw [pairItems, if_pos hl, List.mapM_map]
      exact mapM_congr_mem _ fun x _ => bc2Until_atom_left stop op _ _ hl
    have hbuild : rebuildPair l r = rebuild r := by
      cases l <;> first | cases r <;> rfl | cases hl
    rw [hitems, hbuild]
  by_cases hr : r.isAtom = true
  · rw [bc2Until_atom_right stop op depth l hr, bc2AtomRight_container stop op depth h hr]
    have hitems : (pairItems l r).mapM (fun p => bc2Until stop op (depth + 1) p.1 p.2) =
        l.containerItems.mapM fun x => bc2AtomRight stop op (depth + 1) x r := by
      rw [pairItems, if_neg hl, if_pos hr, List.mapM_map]
      exact mapM_congr_mem _ fun x _ => bc2Until_atom_right stop op _ _ hr
    have hbuild : rebuildPair l r = rebuild l := by
      cases r <;> first | cases l <;> rfl | cases hr
    rw [hitems, hbuild]
  have hlen' : ¬l.len ≠ r.len := by simpa [hl, hr] using hlen
  rw [bc2Until.eq_def, if_neg (by simp [h]), if_neg hl, if_neg hr, if_neg hlen', pairItems,
    if_neg hl, if_neg hr]
  -- a packed left operand pairs atoms with the items of the right
  have packed : (∀ items, l ≠ .list items) → (∀ entries, l ≠ .dict entries) →
      zipAtoms stop op (depth + 1) l.containerItems r.containerItems =
        (l.containerItems.zip r.containerItems).mapM fun p =>
          bc2Until stop op (depth + 1) p.1 p.2 := by
    intro hnl hnd
    obtain ⟨seq, hs⟩ := exists_fromValue (by simpa using hl)
      (by cases hd : l.isDict with
          | false => rfl
          | true => obtain ⟨es, rfl⟩ := exists_dict hd; exact absurd rfl (hnd es))
    rw [zipAtoms_eq_mapM]
    refine mapM_congr_mem _ fun p hp => (bc2Until_atom_left stop op _ _ ?_).symm
    have hp' := (List.of_mem_zip hp).1
    rw [containerItems_of_fromValue hs] at hp'
    exact isAtom_of_mem_values hs hp' hnl
  cases l with
  | dict dx =>
    cases r with
    | dict dy => exact absurd ⟨rfl, rfl⟩ hd
    | _ => simp only [zipEntries_eq_mapM]; rfl
  | list xs =>
    cases r with
    | dict dy => simp only [zipItems_eq_mapM]; rfl
    | _ => simp only [zipItems_eq_mapM]; rfl
  | intList items => rw [← packed (by simp) (by simp)]; cases r <;> rfl
  | intRange range => rw [← packed (by simp) (by simp)]; cases r <;> rfl
  | floatList items => rw [← packed (by simp) (by simp)]; cases r <;> rfl
  | boolList items => rw [← packed (by simp) (by simp)]; cases r <;> rfl
  | string s => rw [← packed (by simp) (by simp)]; cases r <;> rfl
  | _ => exact absurd rfl hl

end Spec

end Value

end Wqpl
