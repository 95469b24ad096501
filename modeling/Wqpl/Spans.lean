/-
# Spans of a text in bytes

A text is a list of characters, a place in it a number of UTF-8 bytes. Spans
that tile a text (`Tiles`) come one after the other, begin and end between two
characters, and leave out only gaps; cutting the text along them gives it back
(`Tiles.slices`).
-/
import Mathlib.Data.List.Basic
import Mathlib.Tactic.Common

namespace Text

/-- The number of bytes of a text. -/
def byteLen : List Char → Nat
  | [] => 0
  | c :: text => c.utf8Size + byteLen text

theorem byteLen_append (a b : List Char) : byteLen (a ++ b) = byteLen a + byteLen b := by
  induction a with
  | nil => exact (Nat.zero_add _).symm
  | cons c a ih => rw [List.cons_append, byteLen, byteLen, ih, Nat.add_assoc]

theorem byteLen_pos {text : List Char} (h : text ≠ []) : 0 < byteLen text := by
  cases text with
  | nil => exact absurd rfl h
  | cons c text => exact Nat.lt_of_lt_of_le c.utf8Size_pos (Nat.le_add_right _ _)

/-- A prefix of the text has that many bytes. -/
def IsBoundary (text : List Char) (pos : Nat) : Prop :=
  ∃ before after, text = before ++ after ∧ byteLen before = pos

/-- The text without its first bytes, if they are whole characters. -/
def dropBytes? : List Char → Nat → Option (List Char)
  | text, 0 => some text
  | [], _ + 1 => none
  | c :: text, n + 1 => if c.utf8Size ≤ n + 1 then dropBytes? text (n + 1 - c.utf8Size) else none

/-- The first bytes of the text, if they are whole characters. -/
def takeBytes? : List Char → Nat → Option (List Char)
  | _, 0 => some []
  | [], _ + 1 => none
  | c :: text, n + 1 =>
    if c.utf8Size ≤ n + 1 then (takeBytes? text (n + 1 - c.utf8Size)).map (c :: ·) else none

/-- The bytes from one place to another, if both are boundaries in this order. -/
def slice? (text : List Char) (start stop : Nat) : Option (List Char) :=
  if start ≤ stop then (dropBytes? text start).bind (takeBytes? · (stop - start)) else none

theorem dropBytes?_append (a b : List Char) : dropBytes? (a ++ b) (byteLen a) = some b := by
  induction a with
  | nil => cases b <;> rfl
  | cons c a ih =>
    obtain ⟨n, hn⟩ : ∃ n, byteLen (c :: a) = n + 1 :=
      ⟨byteLen (c :: a) - 1, (Nat.succ_pred_eq_of_pos (byteLen_pos (by simp))).symm⟩
    have hlen : c.utf8Size + byteLen a = n + 1 := hn
    rw [hn, List.cons_append, dropBytes?, if_pos (by omega), ← ih]
    congr 1
    omega

theorem takeBytes?_append (a b : List Char) : takeBytes? (a ++ b) (byteLen a) = some a := by
  induction a with
  | nil => cases b <;> rfl
  | cons c a ih =>
    obtain ⟨n, hn⟩ : ∃ n, byteLen (c :: a) = n + 1 :=
      ⟨byteLen (c :: a) - 1, (Nat.succ_pred_eq_of_pos (byteLen_pos (by simp))).symm⟩
    have hlen : c.utf8Size + byteLen a = n + 1 := hn
    have hrest : n + 1 - c.utf8Size = byteLen a := by omega
    rw [hn, List.cons_append, takeBytes?, if_pos (by omega), hrest, ih]
    rfl

theorem slice?_append (before text after : List Char) :
    slice? (before ++ text ++ after) (byteLen before) (byteLen before + byteLen text) =
      some text := by
  rw [slice?, if_pos (Nat.le_add_right _ _), List.append_assoc, dropBytes?_append,
    Nat.add_sub_cancel_left]
  exact takeBytes?_append text after

theorem dropBytes?_some {text rest : List Char} {n : Nat} (h : dropBytes? text n = some rest) :
    ∃ a, text = a ++ rest ∧ byteLen a = n := by
  induction text generalizing n with
  | nil =>
    cases n with
    | zero => exact ⟨[], Option.some.inj h, rfl⟩
    | succ n => cases h
  | cons c text ih =>
    cases n with
    | zero => exact ⟨[], Option.some.inj h, rfl⟩
    | succ n =>
      rw [dropBytes?] at h
      split at h
      · obtain ⟨a, rfl, ha⟩ := ih h
        exact ⟨c :: a, rfl, by rw [byteLen, ha]; omega⟩
      · cases h

theorem takeBytes?_some {text a : List Char} {n : Nat} (h : takeBytes? text n = some a) :
    ∃ rest, text = a ++ rest ∧ byteLen a = n := by
  induction text generalizing n a with
  | nil =>
    cases n with
    | zero => exact ⟨[], by rw [← Option.some.inj h]; rfl, by rw [← Option.some.inj h]; rfl⟩
    | succ n => cases h
  | cons c text ih =>
    cases n with
    | zero => exact ⟨c :: text, by rw [← Option.some.inj h]; rfl, by rw [← Option.some.inj h]; rfl⟩
    | succ n =>
      rw [takeBytes?] at h
      split at h
      · obtain ⟨b, hb, rfl⟩ := Option.map_eq_some_iff.mp h
        obtain ⟨rest, rfl, hlen⟩ := ih hb
        exact ⟨rest, rfl, by rw [byteLen, hlen]; omega⟩
      · cases h

/-- A slice stands between its places. -/
theorem slice?_some {source text : List Char} {start stop : Nat}
    (h : slice? source start stop = some text) :
    ∃ a b, source = a ++ text ++ b ∧ byteLen a = start ∧ start + byteLen text = stop := by
  rw [slice?] at h
  split at h
  · obtain ⟨rest, hrest, htext⟩ := Option.bind_eq_some_iff.mp h
    obtain ⟨a, rfl, ha⟩ := dropBytes?_some hrest
    obtain ⟨b, rfl, hlen⟩ := takeBytes?_some htext
    exact ⟨a, b, (List.append_assoc ..).symm, ha, by omega⟩
  · cases h

/-- A text is cut in one way at a number of bytes. -/
theorem append_inj_of_byteLen {a b c d : List Char} (h : a ++ b = c ++ d)
    (hlen : byteLen a = byteLen c) : a = c ∧ b = d := by
  rcases List.append_eq_append_iff.mp h with ⟨e, rfl, rfl⟩ | ⟨e, rfl, rfl⟩
  · have hempty : e = [] := by
      by_contra hne
      have := byteLen_pos hne
      rw [byteLen_append] at hlen
      omega
    simp [hempty]
  · have hempty : e = [] := by
      by_contra hne
      have := byteLen_pos hne
      rw [byteLen_append] at hlen
      omega
    simp [hempty]

/-- Spans that follow one another from a place on, before the rest of a text,
with gaps of the set between them. -/
inductive Tiles (P : Char → Prop) : Nat → List Char → List (Nat × Nat) → Prop
  | nil {pos gap} : (∀ c ∈ gap, P c) → Tiles P pos gap []
  | cons {pos gap text rest start stop spans} : (∀ c ∈ gap, P c) → text ≠ [] →
      start = pos + byteLen gap → stop = start + byteLen text → Tiles P stop rest spans →
      Tiles P pos (gap ++ text ++ rest) ((start, stop) :: spans)

namespace Tiles

variable {P : Char → Prop} {pos : Nat} {rest : List Char} {spans : List (Nat × Nat)}

/-- The spans are not empty and none begins before the place. -/
theorem bounds (h : Tiles P pos rest spans) : ∀ s ∈ spans, pos ≤ s.1 ∧ s.1 < s.2 := by
  induction h with
  | nil => simp
  | @cons pos gap text rest start stop spans hgap htext hstart hstop hrest ih =>
    have hpos := byteLen_pos htext
    intro s hs
    rcases List.mem_cons.mp hs with rfl | hs
    · exact ⟨by omega, by omega⟩
    · have := ih s hs
      exact ⟨by omega, this.2⟩

/-- Each span ends before the next begins. -/
theorem ordered (h : Tiles P pos rest spans) : spans.Pairwise fun s t => s.2 ≤ t.1 := by
  induction h with
  | nil => exact .nil
  | cons hgap htext hstart hstop hrest ih =>
    exact List.pairwise_cons.mpr ⟨fun s hs => (hrest.bounds s hs).1, ih⟩

/-- No span ends after the rest of the text. -/
theorem stop_le (h : Tiles P pos rest spans) : ∀ s ∈ spans, s.2 ≤ pos + byteLen rest := by
  induction h with
  | nil => simp
  | @cons pos gap text rest start stop spans hgap htext hstart hstop hrest ih =>
    have hlen : byteLen (gap ++ text ++ rest) = byteLen gap + byteLen text + byteLen rest := by
      rw [byteLen_append, byteLen_append]
    intro s hs
    rcases List.mem_cons.mp hs with rfl | hs
    · dsimp only
      omega
    · have := ih s hs
      omega

theorem boundary {before : List Char} (h : Tiles P pos rest spans) (hpos : byteLen before = pos) :
    ∀ s ∈ spans, IsBoundary (before ++ rest) s.1 ∧ IsBoundary (before ++ rest) s.2 := by
  induction h generalizing before with
  | nil => simp
  | @cons pos gap text rest start stop spans hgap htext hstart hstop hrest ih =>
    have hlen : byteLen (before ++ gap) = start := by rw [byteLen_append, hpos, hstart]
    have hlen' : byteLen (before ++ gap ++ text) = stop := by
      rw [byteLen_append, hlen, hstop]
    intro s hs
    rcases List.mem_cons.mp hs with rfl | hs
    · exact ⟨⟨before ++ gap, text ++ rest, by simp, hlen⟩,
        ⟨before ++ gap ++ text, rest, by simp, hlen'⟩⟩
    · have hih := ih hlen' s hs
      simpa using hih

end Tiles

end Text
