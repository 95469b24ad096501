/-
# Reused nodes

A reused node is written in front of the current token, and the gap between the
last token and the current one is not written: comments and blanks before the
node are lost. The cursor counts them, so the length of the text that has been
written and of what has been skipped is the place of the cursor (`Reads`).
-/
import Mathlib.Data.List.TakeWhile
import Wqpl.Cst.Write

namespace Wqpl
namespace Cst

open Wqpl.Lex (Token TokenType GreenToken IsGap)

/-! ### Skipping tokens -/

section Skip

variable {P : Char → Prop} {source before rest : List Char} {e : Nat}

/-- A boundary behind a prefix of the text lies in the rest. -/
theorem exists_rest_of_boundary {a b : List Char} (h : Text.IsBoundary (a ++ b) e)
    (ha : Text.byteLen a ≤ e) : ∃ b₁ b₂, b = b₁ ++ b₂ ∧ Text.byteLen a + Text.byteLen b₁ = e := by
  obtain ⟨x, y, hxy, hx⟩ := h
  rcases List.append_eq_append_iff.mp hxy with ⟨c, hc, hb⟩ | ⟨c, hc, hy⟩
  · exact ⟨c, y, hb, by rw [← hx, hc, Text.byteLen_append]⟩
  · have hlen : Text.byteLen a = Text.byteLen x + Text.byteLen c := by
      rw [hc, Text.byteLen_append]
    have hempty : c = [] := by
      by_contra hne
      have := Text.byteLen_pos hne
      omega
    refine ⟨[], b, rfl, ?_⟩
    rw [hlen, hempty, hx]
    rfl

/-- The spans behind a boundary that cuts none of them tile the rest. -/
theorem tiles_skip {pos : Nat} {spans : List (Nat × Nat)} (h : Text.Tiles P pos rest spans)
    (hpos : Text.byteLen before = pos) (he : pos ≤ e) (hbound : Text.IsBoundary (before ++ rest) e)
    (hcut : ∀ s ∈ spans, s.2 ≤ e ∨ e ≤ s.1) :
    ∃ text rest', rest = text ++ rest' ∧ pos + Text.byteLen text = e ∧
      Text.Tiles P e rest' (spans.dropWhile fun s => s.2 ≤ e) := by
  induction h generalizing before with
  | @nil pos gap hgap =>
    obtain ⟨b₁, b₂, rfl, hlen⟩ := exists_rest_of_boundary hbound (hpos ▸ he)
    exact ⟨b₁, b₂, rfl, hpos ▸ hlen, .nil fun c hc => hgap c (List.mem_append_right _ hc)⟩
  | @cons pos gap text rest start stop spans hgap htext hstart hstop hrest ih =>
    obtain ⟨hcut, hcuts⟩ := List.forall_mem_cons.mp hcut
    have hlen : Text.byteLen (before ++ gap ++ text) = stop := by
      rw [Text.byteLen_append, Text.byteLen_append, hpos, hstop, hstart]
    by_cases hstopLe : stop ≤ e
    · obtain ⟨text', rest', rfl, hlen', htiles⟩ := ih hlen hstopLe (by simpa using hbound) hcuts
      refine ⟨gap ++ text ++ text', rest', by simp, ?_, ?_⟩
      · rw [Text.byteLen_append, Text.byteLen_append]
        omega
      · rwa [List.dropWhile_cons_of_pos (by simpa using hstopLe)]
    · have hstartLe : e ≤ start := hcut.resolve_left hstopLe
      obtain ⟨b₁, b₂, hb, hlen'⟩ := exists_rest_of_boundary hbound (hpos ▸ he)
      have hb : gap ++ (text ++ rest) = b₁ ++ b₂ := by rw [← hb, List.append_assoc]
      have hgapEq : ∃ g, gap = b₁ ++ g ∧ b₂ = g ++ (text ++ rest) := by
        rcases List.append_eq_append_iff.mp hb with ⟨c, hc, hb₂⟩ | ⟨c, hc, hb₂⟩
        · -- the boundary is behind the gap, so it is at its end
          have hc' : Text.byteLen b₁ = Text.byteLen gap + Text.byteLen c := by
            rw [hc, Text.byteLen_append]
          have hempty : c = [] := by
            by_contra hne
            have := Text.byteLen_pos hne
            omega
          exact ⟨[], by rw [hc, hempty]; simp, by rw [hb₂, hempty]; rfl⟩
        · exact ⟨c, hc, hb₂⟩
      obtain ⟨g, rfl, rfl⟩ := hgapEq
      refine ⟨b₁, g ++ (text ++ rest), by simp, hpos ▸ hlen', ?_⟩
      rw [List.dropWhile_cons_of_neg (by simpa using hstopLe), ← List.append_assoc]
      refine .cons (fun c hc => hgap c (List.mem_append_right _ hc)) htext ?_ hstop hrest
      rw [hstart, Text.byteLen_append, ← hlen', hpos]
      omega

end Skip

/-! ### Where the cursor is -/

/-- The text that has been written. -/
def Parser.writtenText (p : Parser) : List Char := p.cst.written.flatMap GreenToken.text

/-- The cursor is behind what has been written and the bytes that were lost, and
the raw tokens cover the rest. -/
def Placed (source : List Char) (p : Parser) (lost : Nat) : Prop :=
  ∃ before rest, source = before ++ rest ∧ Text.byteLen before = p.rawCursorByte ∧
    Lex.Tables.Covers p.rawCursorByte rest p.raw ∧
    Text.byteLen p.writtenText + lost = p.rawCursorByte ∧ (lost = 0 → p.writtenText = before)

/-- The state of the parser in a run: its next tokens are among the raw ones
that have not been flushed. -/
structure Reads (source : List Char) (p : Parser) (lost : Nat) : Prop where
  ordered : p.tokens.Pairwise fun t u => t.byteEnd ≤ u.byteStart
  placed : Placed source p lost
  ahead : ∀ u ∈ p.ahead, u ∈ p.raw

section Placed

variable {source : List Char} {p p' : Parser} {lost : Nat}

theorem gapLeaf_text (gap : List Char) : (Lex.gapLeaf gap).flatMap GreenToken.text = gap := by
  unfold Lex.gapLeaf
  split <;> simp_all

theorem new?_text {kind : Lex.SyntaxKind} {text : List Char} {leaf : GreenToken}
    (h : GreenToken.new? kind text = some leaf) : leaf.text = text := by
  unfold GreenToken.new? at h
  split at h
  · exact (Option.some.inj h) ▸ rfl
  · cases h

/-- The first token of a covered text that is not the last. -/
theorem covers_cons {pos : Nat} {rest : List Char} {r : Token} {rs : List Token}
    (h : Lex.Tables.Covers pos rest (r :: rs)) (hr : r.tokenType.isEof = false) :
    ∃ gap text rest', rest = gap ++ text ++ rest' ∧ r.byteStart = pos + Text.byteLen gap ∧
      r.byteEnd = r.byteStart + Text.byteLen text ∧ Lex.Tables.Covers r.byteEnd rest' rs := by
  obtain ⟨init, last, hts, htiles, hinit, hlast, hstart, hstop⟩ := h
  cases init with
  | nil =>
    obtain ⟨rfl, -⟩ := List.cons.inj hts
    rw [hr] at hlast
    cases hlast
  | cons t init =>
    obtain ⟨rfl, rfl⟩ := List.cons.inj hts
    generalize hspans : (r :: init).map Lex.Tables.span = spans at htiles
    cases htiles with
    | nil => cases hspans
    | @cons _ gap text rest start stop spans hgap htext hstart' hstop' htiles =>
      obtain ⟨hspan, rfl⟩ := List.cons.inj hspans
      obtain ⟨rfl, rfl⟩ := Prod.mk.inj hspan
      refine ⟨gap, text, rest, rfl, hstart', hstop', init, last, rfl, htiles,
        (List.forall_mem_cons.mp hinit).2, hlast, ?_, ?_⟩
      · rw [hstart, Text.byteLen_append, Text.byteLen_append]
        omega
      · rw [hstop, Text.byteLen_append, Text.byteLen_append]
        omega

theorem Parser.flushToken_placed {r : Token} {rs : List Token}
    (h : p.flushToken source r = some p') (hraw : p.raw = r :: rs)
    (hr : r.tokenType.isEof = false) (hp : Placed source p lost) : Placed source p' lost := by
  have hraw' := (Parser.flushToken_raw h hraw).1
  obtain ⟨before, rest, hsource, hbefore, hcovers, hlen, htext⟩ := hp
  rw [hraw] at hcovers
  obtain ⟨gap, text, rest, rfl, hstart, hstop, hcovers⟩ := covers_cons hcovers hr
  obtain ⟨leaves, slice, leaf, hleaves, hslice, hleaf, rfl⟩ := Parser.flushToken_spec h
  have hsource' : source = before ++ gap ++ text ++ rest := by rw [hsource]; simp
  have hgap : leaves.flatMap GreenToken.text = gap := by
    rw [hsource', List.append_assoc (before ++ gap), hstart, ← hbefore, Lex.leading_eq] at hleaves
    split at hleaves
    · exact (Option.some.inj hleaves) ▸ gapLeaf_text gap
    · cases hleaves
  have htoken : slice = text := by
    rw [hsource', hstop, hstart, ← hbefore, ← Text.byteLen_append, Text.slice?_append] at hslice
    exact (Option.some.inj hslice).symm
  have hwritten : Parser.writtenText { p with
      rawIdx := p.rawIdx + 1
      rawCursorByte := r.byteEnd
      cst := pushTokens p.cst (leaves ++ [leaf]) } = p.writtenText ++ (gap ++ text) := by
    unfold Parser.writtenText
    rw [written_pushTokens, List.flatMap_append, List.flatMap_append, hgap,
      List.flatMap_singleton, new?_text hleaf, htoken]
  refine ⟨before ++ (gap ++ text), rest, by rw [hsource]; simp, ?_, hraw' ▸ hcovers, ?_, ?_⟩
  · rw [Text.byteLen_append, Text.byteLen_append]
    dsimp only
    omega
  · rw [hwritten, Text.byteLen_append, Text.byteLen_append]
    dsimp only
    omega
  · intro hlost
    rw [hwritten, htext hlost]

theorem Parser.flushTokens_placed {done rest : List Token}
    (h : done.foldlM (Parser.flushToken source) p = some p') (hraw : p.raw = done ++ rest)
    (hdone : ∀ r ∈ done, r.tokenType.isEof = false) (hp : Placed source p lost) :
    Placed source p' lost := by
  induction done generalizing p with
  | nil =>
    obtain rfl := Option.some.inj h
    exact hp
  | cons r done ih =>
    obtain ⟨hr, hdone⟩ := List.forall_mem_cons.mp hdone
    rw [List.foldlM_cons] at h
    obtain ⟨q, hq, h⟩ := Option.bind_eq_some_iff.mp h
    have hqraw := (Parser.flushToken_raw hq hraw).1
    exact ih h hqraw hdone (Parser.flushToken_placed hq hraw hr hp)

/-- A token that is not the last has a text; none ends behind the source. -/
theorem Placed.mem {u : Token} (hp : Placed source p lost) (hu : u ∈ p.raw) :
    p.rawCursorByte ≤ u.byteStart ∧ u.byteStart ≤ u.byteEnd ∧ u.byteEnd ≤ Text.byteLen source ∧
      (u.tokenType.isEof = false → u.byteStart < u.byteEnd) ∧
      (u.tokenType.isEof = true → u.byteEnd = Text.byteLen source) := by
  obtain ⟨before, rest, hsource, hbefore, ⟨init, last, hts, htiles, hinit, hlast, hstart, hstop⟩,
    -, -⟩ := hp
  have hlen : Text.byteLen source = p.rawCursorByte + Text.byteLen rest := by
    rw [hsource, Text.byteLen_append, hbefore]
  rw [hts] at hu
  rcases List.mem_append.mp hu with hu | hu
  · have hspan : Lex.Tables.span u ∈ init.map Lex.Tables.span := List.mem_map_of_mem hu
    have hbounds : p.rawCursorByte ≤ u.byteStart ∧ u.byteStart < u.byteEnd :=
      htiles.bounds _ hspan
    have hstop : u.byteEnd ≤ p.rawCursorByte + Text.byteLen rest := htiles.stop_le _ hspan
    refine ⟨hbounds.1, hbounds.2.le, hlen ▸ hstop, fun _ => hbounds.2, fun heof => ?_⟩
    rw [hinit u hu] at heof
    cases heof
  · obtain rfl := List.mem_singleton.mp hu
    refine ⟨by omega, by omega, by omega, fun heof => ?_, fun _ => by omega⟩
    rw [hlast] at heof
    cases heof

end Placed

/-! ### Steps -/

section Steps

variable {source : List Char} {p p' : Parser} {lost : Nat}

theorem Reads.advance (h : p.advance source = some p') (hp : Reads source p lost) :
    Reads source p' lost := by
  unfold Parser.advance at h
  cases hahead : p.ahead with
  | nil =>
    rw [hahead] at h
    obtain rfl := Option.some.inj h
    exact hp
  | cons t ts =>
    rw [hahead] at h
    obtain ⟨q, hq, h⟩ := Option.bind_eq_some_iff.mp h
    obtain rfl := Option.some.inj h
    obtain ⟨done, rest, hraw, hfold, hdone⟩ := Parser.flushThrough_spec hq
    obtain ⟨hqraw, htokens, hcurrent, -⟩ := Parser.flushTokens_fields hfold hraw
    have hplaced := Parser.flushTokens_placed hfold hraw (fun r hr => (hdone r hr).1) hp.placed
    have hahead' : p.tokens.drop (p.current + 1) = ts := by
      have hdrop : p.tokens.drop (p.current + 1) = p.ahead.drop 1 := by
        rw [Parser.ahead, List.drop_drop, Nat.add_comm]
      rw [hdrop, hahead, List.drop_one, List.tail_cons]
    refine ⟨htokens ▸ hp.ordered, hplaced, fun u hu => ?_⟩
    have hu : u ∈ ts := by
      have hu : u ∈ q.tokens.drop (q.current + 1) := hu
      rwa [htokens, hcurrent, hahead'] at hu
    have hordered : (t :: ts).Pairwise fun t u => t.byteEnd ≤ u.byteStart := by
      rw [← hahead]
      exact hp.ordered.sublist (List.drop_sublist _ _)
    have hut := List.rel_of_pairwise_cons hordered hu
    have ht := hp.ahead t (hahead ▸ List.mem_cons_self)
    have hmem := hp.ahead u (hahead ▸ List.mem_cons_of_mem t hu)
    show u ∈ q.raw
    rw [hqraw]
    refine (List.mem_append.mp (hraw ▸ hmem)).resolve_left fun hu => ?_
    -- what has been flushed begins no later than the current token, and the next ones behind it
    obtain ⟨heof, hle⟩ := hdone u hu
    obtain ⟨-, -, hend, hne, -⟩ := hp.placed.mem hmem
    obtain ⟨-, -, -, hne', hend'⟩ := hp.placed.mem ht
    have hlt := hne heof
    cases htEof : t.tokenType.isEof with
    | true => have := hend' htEof; omega
    | false => have := hne' htEof; omega

/-- In an ordered list, what is left after dropping is above the bound. -/
theorem lt_of_mem_dropWhile {e : Nat} {ts : List Token} {u : Token}
    (hordered : ts.Pairwise fun t u => t.byteEnd ≤ u.byteStart)
    (hspans : ∀ t ∈ ts, t.byteStart ≤ t.byteEnd) (hu : u ∈ ts.dropWhile fun t => t.byteEnd ≤ e) :
    e < u.byteEnd := by
  induction ts with
  | nil => simp at hu
  | cons t ts ih =>
    obtain ⟨hall, hordered⟩ := List.pairwise_cons.mp hordered
    obtain ⟨ht, hspans⟩ := List.forall_mem_cons.mp hspans
    by_cases hle : t.byteEnd ≤ e
    · rw [List.dropWhile_cons_of_pos (by simpa using hle)] at hu
      exact ih hordered hspans hu
    · rw [List.dropWhile_cons_of_neg (by simpa using hle)] at hu
      rcases List.mem_cons.mp hu with rfl | hu
      · omega
      · have := hall u hu
        have := hspans u hu
        omega

/-- A sequence item ends between two tokens. -/
theorem canReuseUntil_cut {e : Nat} {init : List Token} {last : Token}
    (h : Parser.canReuseUntil source e (init ++ [last]) = true)
    (hinit : ∀ r ∈ init, r.tokenType.isEof = false)
    (hordered : init.Pairwise fun t u => t.byteEnd ≤ u.byteStart) :
    ∀ r ∈ init, r.byteEnd ≤ e ∨ e ≤ r.byteStart := by
  induction init with
  | nil => simp
  | cons r init ih =>
    obtain ⟨hr, hinit⟩ := List.forall_mem_cons.mp hinit
    obtain ⟨hall, hordered⟩ := List.pairwise_cons.mp hordered
    rw [List.cons_append, Parser.canReuseUntil, if_neg (by simp [hr])] at h
    by_cases hle : r.byteEnd ≤ e
    · rw [if_pos hle] at h
      exact List.forall_mem_cons.mpr ⟨.inl hle, ih h hinit hordered⟩
    · rw [if_neg hle] at h
      have hstart : e ≤ r.byteStart := by
        by_contra hlt
        rw [if_pos (not_le.mp hlt)] at h
        cases h
      refine List.forall_mem_cons.mpr ⟨.inr hstart, fun u hu => .inr ?_⟩
      have := hall u hu
      omega

theorem drop_takeWhile {α : Type} (q : α → Bool) (l : List α) :
    l.drop (l.takeWhile q).length = l.dropWhile q := by
  induction l with
  | nil => rfl
  | cons a l ih =>
    cases h : q a with
    | true => rw [List.takeWhile_cons_of_pos h, List.dropWhile_cons_of_pos h]; exact ih
    | false =>
      rw [List.takeWhile_cons_of_neg (by simp [h]), List.dropWhile_cons_of_neg (by simp [h])]
      rfl

theorem dropWhile_raw {e : Nat} {init : List Token} {last : Token}
    (hinit : ∀ r ∈ init, r.tokenType.isEof = false) (hlast : last.tokenType.isEof = true) :
    (init ++ [last]).dropWhile (fun t => !t.tokenType.isEof && decide (t.byteEnd ≤ e)) =
      init.dropWhile (fun t => t.byteEnd ≤ e) ++ [last] := by
  induction init with
  | nil => simp [hlast]
  | cons r init ih =>
    obtain ⟨hr, hinit⟩ := List.forall_mem_cons.mp hinit
    rw [List.cons_append, List.dropWhile_cons, List.dropWhile_cons, ih hinit, hr]
    by_cases hle : r.byteEnd ≤ e <;> simp [hle]

/-- Where a reused node is written. -/
theorem Parser.tryReuse_spec {candidate : MeasuredNode}
    (h : p.tryReuseSequenceItem source candidate = some p') :
    ∃ t ts, p.ahead = t :: ts ∧ t.tokenType.isEof = false ∧
      Text.slice? source t.byteStart (t.byteStart + candidate.val.textLen) =
        some candidate.val.text ∧
      Parser.canReuseUntil source (t.byteStart + candidate.val.textLen) p.raw = true ∧
      p' = Parser.skipReusedBytes { p with cst := p.cst.appendNode candidate.val }
        (t.byteStart + candidate.val.textLen) := by
  unfold Parser.tryReuseSequenceItem Parser.currentByteStart at h
  cases hahead : p.ahead with
  | nil =>
    rw [hahead] at h
    simp at h
  | cons t ts =>
    rw [hahead] at h
    dsimp only at h
    split at h
    · rename_i hall
      obtain rfl := Option.some.inj h
      rw [Bool.and_eq_true, Bool.and_eq_true] at hall
      obtain ⟨⟨ht, hslice⟩, hreuse⟩ := hall
      exact ⟨t, ts, rfl, by simpa using ht, by simpa using hslice, hreuse, rfl⟩
    · cases h

theorem Reads.tryReuse {candidate : MeasuredNode}
    (h : p.tryReuseSequenceItem source candidate = some p') (hp : Reads source p lost) :
    Reads source p' (lost + (p.currentByteStart source - p.rawCursorByte)) := by
  obtain ⟨t, ts, hahead, ht, hslice, hreuse, rfl⟩ := Parser.tryReuse_spec h
  have hstart : p.currentByteStart source = t.byteStart := by
    rw [Parser.currentByteStart, hahead]
  rw [hstart]
  generalize hstop : t.byteStart + candidate.val.textLen = stop at hslice hreuse ⊢
  have hmem := hp.placed.mem (hp.ahead t (hahead ▸ List.mem_cons_self))
  have hraw' : (Parser.skipReusedBytes { p with cst := p.cst.appendNode candidate.val } stop).raw =
      p.raw.dropWhile fun t => !t.tokenType.isEof && decide (t.byteEnd ≤ stop) := by
    rw [← drop_takeWhile]
    exact (List.drop_drop ..).symm
  have hahead' :
      (Parser.skipReusedBytes { p with cst := p.cst.appendNode candidate.val } stop).ahead =
      p.ahead.dropWhile fun t => t.byteEnd ≤ stop := by
    rw [← drop_takeWhile]
    exact (List.drop_drop ..).symm
  have hspans : ∀ u ∈ p.ahead, u.byteStart ≤ u.byteEnd := fun u hu =>
    (hp.placed.mem (hp.ahead u hu)).2.1
  have hordered : p.ahead.Pairwise fun t u => t.byteEnd ≤ u.byteStart :=
    hp.ordered.sublist (List.drop_sublist _ _)
  refine ⟨hp.ordered, ?_, fun u hu => ?_⟩
  · obtain ⟨before, rest, hsource, hbefore, hcovers, hlen, htext⟩ := hp.placed
    obtain ⟨x, y, hxy, hx, hxe⟩ := Text.slice?_some hslice
    have hbound : Text.IsBoundary (before ++ rest) stop :=
      ⟨x ++ candidate.val.text, y, by rw [← hsource, hxy], by rw [Text.byteLen_append, hx, hxe]⟩
    have hord := hcovers.ordered
    obtain ⟨init, last, hts, htiles, hinit, hlast, hlastStart, hlastStop⟩ := hcovers
    rw [hts] at hreuse hord
    have hcut := canReuseUntil_cut hreuse hinit (List.pairwise_append.mp hord).1
    obtain ⟨text, rest', rfl, htextLen, htiles⟩ := tiles_skip htiles hbefore (by omega) hbound
      (by simpa [Lex.Tables.span] using hcut)
    have hwritten : (Parser.skipReusedBytes
        { p with cst := p.cst.appendNode candidate.val } stop).writtenText =
        p.writtenText ++ candidate.val.text := by
      show ((p.cst.push (.node candidate.val)).written).flatMap GreenToken.text = _
      rw [GreenNodeBuilder.written_push, List.flatMap_append, GreenChild.leaves]
      rfl
    refine ⟨before ++ text, rest', by rw [hsource, List.append_assoc], ?_, ?_, ?_, ?_⟩
    · rw [Text.byteLen_append, hbefore, htextLen]
      rfl
    · rw [hraw', hts, dropWhile_raw hinit hlast]
      rw [List.dropWhile_map] at htiles
      refine ⟨_, last, rfl, htiles, fun r hr => hinit r (List.dropWhile_sublist _ |>.subset hr),
        hlast, ?_, ?_⟩
      · rw [hlastStart, Text.byteLen_append]
        show _ = stop + _
        omega
      · rw [hlastStop, Text.byteLen_append]
        show _ = stop + _
        omega
    · rw [hwritten, Text.byteLen_append]
      show _ = stop
      omega
    · intro hlost
      rw [hwritten, htext (by omega)]
      have hxy' : source = x ++ (candidate.val.text ++ y) := by rw [hxy, List.append_assoc]
      have hprefix : before = x :=
        (Text.append_inj_of_byteLen (hsource.symm.trans hxy') (by omega)).1
      have hboth : before ++ text = x ++ candidate.val.text := by
        refine (Text.append_inj_of_byteLen (b := rest') (d := y) ?_ ?_).1
        · rw [← hxy, hsource, List.append_assoc]
        · rw [Text.byteLen_append, Text.byteLen_append, hx]
          omega
      rw [hboth, hprefix]
  · rw [hahead'] at hu
    rw [hraw']
    have hlt := lt_of_mem_dropWhile hordered hspans hu
    have hmem := hp.ahead u ((List.dropWhile_sublist _).subset hu)
    rw [← List.takeWhile_append_dropWhile (p := fun t : Token =>
      !t.tokenType.isEof && decide (t.byteEnd ≤ stop)) (l := p.raw)] at hmem
    refine (List.mem_append.mp hmem).resolve_left fun hu => ?_
    have htake := List.mem_takeWhile_imp hu
    rw [Bool.and_eq_true, decide_eq_true_iff] at htake
    omega

/-- The bytes that a step skips without writing them: the gap before a node that is
reused. -/
def Parser.skipped (source : List Char) (p : Parser) : Step → Nat
  | .tryReuse candidate =>
    if (p.tryReuseSequenceItem source candidate).isSome then
      p.currentByteStart source - p.rawCursorByte
    else 0
  | _ => 0

/-- The bytes that a run skips. -/
def Parser.skippedBytes (source : List Char) (p : Parser) : List Step → Nat
  | [] => 0
  | s :: steps =>
    p.skipped source s + ((p.step source s).map fun p => p.skippedBytes source steps).getD 0

theorem Reads.step {s : Step} (h : p.step source s = some p') (hp : Reads source p lost)
    (hm : p.cst.Measured) : Reads source p' (lost + p.skipped source s) := by
  have hbuilder : ∀ cst : GreenNodeBuilder, cst.written = p.cst.written →
      Reads source { p with cst } lost := by
    intro cst hwritten
    obtain ⟨before, rest, hsource, hbefore, hcovers, hlen, htext⟩ := hp.placed
    have htext' : Parser.writtenText { p with cst } = p.writtenText := by
      rw [Parser.writtenText, hwritten]
      rfl
    exact ⟨hp.ordered, ⟨before, rest, hsource, hbefore, hcovers, htext' ▸ hlen, htext' ▸ htext⟩,
      hp.ahead⟩
  cases s with
  | advance => exact hp.advance h
  | startNode kind =>
    obtain rfl := Option.some.inj h
    exact hbuilder _ (p.cst.written_startNode kind)
  | finishNode =>
    obtain ⟨cst, hcst, rfl⟩ := Option.map_eq_some_iff.mp h
    exact hbuilder _ (GreenNodeBuilder.finishNode_written hcst hm).1
  | startNodeAt cp kind =>
    obtain ⟨cst, hcst, rfl⟩ := Option.map_eq_some_iff.mp h
    exact hbuilder _ (GreenNodeBuilder.startNodeAt_written hcst hm).1
  | tryReuse candidate =>
    obtain rfl := Option.some.inj h
    unfold Parser.skipped
    dsimp only
    cases hreuse : p.tryReuseSequenceItem source candidate with
    | none => exact hp
    | some q => exact hp.tryReuse hreuse

theorem Reads.run {steps : List Step} (h : p.run source steps = some p') (hp : Reads source p lost)
    (hm : p.cst.Measured) : Reads source p' (lost + p.skippedBytes source steps) := by
  induction steps generalizing p lost with
  | nil =>
    obtain rfl := Option.some.inj h
    exact hp
  | cons s steps ih =>
    obtain ⟨q, hq, h⟩ := Option.bind_eq_some_iff.mp h
    have hih := ih h (hp.step hq hm) (Parser.step_measured hq hm)
    rw [Parser.skippedBytes, hq, Option.map_some, Option.getD_some, ← Nat.add_assoc]
    exact hih

end Steps

/-! ### The text of the tree -/

section Text

variable {source : List Char} {tokens : List Token} {cache : Option Nat} {steps : List Step}
  {n : GreenNode}

theorem reads_start (hcovers : Lex.Tables.Covers 0 source tokens) :
    Reads source (Parser.start tokens cache) 0 := by
  have hwritten : (Parser.start tokens cache).writtenText = [] := by
    rw [Parser.writtenText, start_written]
    rfl
  refine ⟨hcovers.ordered.sublist List.filter_sublist, ?_, ?_⟩
  · exact ⟨[], source, rfl, rfl, hcovers, by rw [hwritten]; rfl, fun _ => hwritten⟩
  · intro u hu
    exact (List.mem_filter.mp hu).1

/-- **Reused nodes lose the gaps before them.** What the tree has of the source and what
was skipped make up its length, so the tree has the text of the source exactly if
every reused node begins where the token before it ended. -/
theorem writeCst_text_iff (hcovers : Lex.Tables.Covers 0 source tokens)
    (h : writeCst source tokens cache steps = some n) :
    Text.byteLen n.text + (Parser.start tokens cache).skippedBytes source steps =
        Text.byteLen source ∧
      (n.text = source ↔ (Parser.start tokens cache).skippedBytes source steps = 0) := by
  obtain ⟨p, hrun, htake⟩ := Option.bind_eq_some_iff.mp h
  have hstart := start_measured tokens cache
  have hfirst : Reads source (Parser.start tokens cache) 0 := reads_start hcovers
  have hreads := hfirst.run hrun hstart
  obtain ⟨done, rest, q, gap, hraw, hfold, hdone, hrest, hgap, hleaves, -, -⟩ :=
    Parser.takeCst_spec htake (Parser.run_measured hrun hstart)
  rw [Nat.zero_add] at hreads
  generalize (Parser.start tokens cache).skippedBytes source steps = lost at hreads ⊢
  obtain ⟨before, tail, hsource, hbefore, ⟨init, last, hts, htiles, hinit, hlast, -, -⟩, hlen,
    htext⟩ := Parser.flushTokens_placed hfold hraw hdone hreads.placed
  rw [(Parser.flushTokens_fields hfold hraw).1] at hts
  have hempty : init = [] := by
    cases init with
    | nil => rfl
    | cons r init =>
      have hr := hrest r (by rw [hts]; rfl)
      rw [hinit r List.mem_cons_self] at hr
      cases hr
  have hgapText : gap.flatMap GreenToken.text = tail := by
    rw [hsource, ← hbefore, Lex.trailing_eq] at hgap
    split at hgap
    · exact (Option.some.inj hgap) ▸ gapLeaf_text tail
    · cases hgap
  have hnode : n.text = q.writtenText ++ tail := by
    rw [GreenNode.text, hleaves, List.flatMap_append, hgapText]
    rfl
  have hbytes : Text.byteLen n.text + lost = Text.byteLen source := by
    rw [hnode, hsource, Text.byteLen_append, Text.byteLen_append, hbefore]
    omega
  refine ⟨hbytes, fun heq => ?_, fun hlost => ?_⟩
  · rw [heq] at hbytes
    omega
  · rw [hnode, htext hlost, hsource]

/-- The second statement, with its tree from before a blank was typed in front of it. -/
def reusedLiteral : MeasuredNode :=
  ⟨.mk .literalExpr 1 [.token ⟨.intLit, ['2']⟩], rfl, trivial, trivial⟩

def reusingSteps : List Step :=
  [.advance, .startNodeAt ⟨0, 0⟩ .literalExpr, .finishNode, .advance, .tryReuse reusedLiteral]

/-- The blank before a reused statement is lost. -/
theorem writeCst_text_iff_blank :
    ∃ n, writeCst spacedSource spacedTokens (some 64) reusingSteps = some n ∧
      n.text = ['1', ';', '2'] ∧
      (n.text = spacedSource ↔
        (Parser.start spacedTokens (some 64)).skippedBytes spacedSource reusingSteps = 0) :=
  ⟨_, rfl, rfl, (writeCst_text_iff spacedTokens_covers rfl).2⟩

end Text

end Cst
end Wqpl
