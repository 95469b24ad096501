/-
# What the pretty printer writes

The loop of the printer is split into the choice of a layout and its writing.
`layout` is the sequence of items that the loop chooses, and it lays the
document out (`Lays`, `layout_lays`); writing the items one after the other is
what the loop does (`renderLoop_eq`). The text that is written is a sequence of
pieces (`pieces`), each with the indentation before it.

A group is laid out flat where the line it begins fits, as it is written
(`lineWidth_layout`), if no indentation is still to be written before it.
-/
import Mathlib.Data.List.Forall2
import Mathlib.Data.Nat.Basic
import Wqpl.Format.Render

namespace Wqpl

namespace Format

/-! ### Layouts -/

/-- What the loop writes for a leaf of the document. -/
inductive Item
  | text (t : List Char)
  | space
  | noSpace
  | newline (indent : Int32)
  | blank
deriving DecidableEq

/-- The item of a leaf; a node that has parts writes nothing itself. -/
def Frame.items (frame : Frame) : List Item :=
  match frame.doc, frame.mode with
  | .text t, _ => [.text t]
  | .line, .flat => [.space]
  | .lineSoft, .flat => [.noSpace]
  | .line, .break_ | .lineSoft, .break_ | .lineHard, _ => [.newline frame.indent]
  | .blank, _ => [.blank]
  | _, _ => []

/-- A document is laid out as its leaves in order. Each group is flat or broken,
all of it is flat in a flat group, and a group with a forced break is broken. -/
inductive Lays : Int32 → Mode → Doc → List Item → Prop
  | nil {i : Int32} {m : Mode} : Lays i m .nil []
  | text {i : Int32} {m : Mode} {t : List Char} : Lays i m (.text t) [.text t]
  | concat {i : Int32} {m : Mode} {a b : Doc} {as bs : List Item} :
      Lays i m a as → Lays i m b bs → Lays i m (.concat a b) (as ++ bs)
  | nest {i n : Int32} {m : Mode} {inner : Doc} {is : List Item} :
      Lays (i + n) m inner is → Lays i m (.nest n inner) is
  | groupFlat {i : Int32} {m : Mode} {inner : Doc} {is : List Item} :
      inner.hasForcedBreak = false → Lays i .flat inner is → Lays i m (.group inner) is
  | groupBreak {i : Int32} {m : Mode} {inner : Doc} {is : List Item} :
      m = .break_ ∨ inner.hasForcedBreak = true → Lays i .break_ inner is → Lays i m (.group inner) is
  | lineFlat {i : Int32} : Lays i .flat .line [.space]
  | lineBreak {i : Int32} : Lays i .break_ .line [.newline i]
  | softFlat {i : Int32} : Lays i .flat .lineSoft [.noSpace]
  | softBreak {i : Int32} : Lays i .break_ .lineSoft [.newline i]
  | hard {i : Int32} {m : Mode} : Lays i m .lineHard [.newline i]
  | blank {i : Int32} {m : Mode} : Lays i m .blank [.blank]

section Layout

variable (visualWidth : List Char → Nat) (width : Nat)

/-- The items that the loop writes from a state on. -/
def layout (stack : List Frame) (s : RenderState) : List Item :=
  match stack with
  | [] => []
  | frame :: stack =>
    frame.items ++
      layout (step visualWidth width frame stack s).1 (step visualWidth width frame stack s).2
termination_by stackSize stack
decreasing_by exact step_size visualWidth width frame stack s

/-- The items of a document. -/
def docLayout (doc : Doc) : List Item := layout visualWidth width [⟨0, .break_, doc⟩] .new

end Layout

/-! ### Writing -/

section Write

variable (visualWidth : List Char → Nat)

/-- One item written. -/
def RenderState.write (s : RenderState) : Item → RenderState
  | .text t => s.flushPendingBlank.flushPendingIndent.pushText visualWidth t
  | .space => s.flushPendingBlank.flushPendingIndent.pushText visualWidth [' ']
  | .noSpace => { s with pendingBlank := false }
  | .newline indent => s.emitNewline indent
  | .blank => { s with pendingBlank := true }

theorem step_write (width : Nat) (frame : Frame) (stack : List Frame) (s : RenderState) :
    (step visualWidth width frame stack s).2 = frame.items.foldl (·.write visualWidth) s := by
  obtain ⟨indent, mode, doc⟩ := frame
  unfold step
  cases doc with
  | group inner => dsimp only; split_ifs <;> rfl
  | line | lineSoft => cases mode <;> rfl
  | _ => cases mode <;> rfl

/-- The loop writes its layout. -/
theorem renderLoop_eq (width : Nat) (stack : List Frame) (s : RenderState) :
    renderLoop visualWidth width stack s =
      (layout visualWidth width stack s).foldl (·.write visualWidth) s := by
  fun_induction renderLoop visualWidth width stack s with
  | case1 s => rw [layout]; rfl
  | case2 s frame stack ih => rw [layout, List.foldl_append, ← step_write visualWidth width, ih]

/-- A piece of the output: a text or the space of a flat line, behind the
indentation written for it, or a line break. -/
inductive Piece
  | text (indent : Nat) (t : List Char)
  | space (indent : Nat)
  | newline
deriving DecidableEq

def Piece.chars : Piece → List Char
  | .text indent t => List.replicate indent ' ' ++ t
  | .space indent => List.replicate indent ' ' ++ [' ']
  | .newline => ['\n']

/-- The line breaks of a blank line that is still to be written. -/
def RenderState.blankPieces (s : RenderState) : List Piece :=
  if s.pendingBlank ∧ s.out ≠ [] then
    if s.out.getLast? = some '\n' then [.newline] else [.newline, .newline]
  else []

/-- What an item adds to the output. -/
def RenderState.pieces (s : RenderState) : Item → List Piece
  | .text t => s.blankPieces ++ [.text (s.pendingIndent.getD 0) t]
  | .space => s.blankPieces ++ [.space (s.pendingIndent.getD 0)]
  | .noSpace | .blank => []
  | .newline _ => if s.pendingBlank then [.newline, .newline] else [.newline]

/-- What the items add one after the other. -/
def pieces (s : RenderState) : List Item → List Piece
  | [] => []
  | item :: items => s.pieces item ++ pieces (s.write visualWidth item) items

theorem flushPendingBlank_spec (s : RenderState) :
    s.flushPendingBlank.out = s.out ++ s.blankPieces.flatMap Piece.chars ∧
      s.flushPendingBlank.pendingIndent.getD 0 = s.pendingIndent.getD 0 ∧
      s.flushPendingBlank.pendingBlank = false ∧
      s.flushPendingBlank.col = if s.blankPieces = [] then s.col else 0 := by
  unfold RenderState.flushPendingBlank RenderState.blankPieces
  cases hb : s.pendingBlank with
  | false => simp [hb]
  | true =>
    by_cases ho : s.out = []
    · simp [ho]
    · by_cases hl : s.out.getLast? = some '\n' <;> simp [ho, hl, Piece.chars]

theorem flushPendingIndent_spec (s : RenderState) :
    s.flushPendingIndent.out = s.out ++ List.replicate (s.pendingIndent.getD 0) ' ' ∧
      s.flushPendingIndent.col = s.col + s.pendingIndent.getD 0 ∧
      s.flushPendingIndent.pendingIndent = none ∧
      s.flushPendingIndent.pendingBlank = s.pendingBlank := by
  unfold RenderState.flushPendingIndent
  cases hi : s.pendingIndent <;> simp [hi]

/-- An item adds its pieces to the output. -/
theorem out_write (s : RenderState) (item : Item) :
    (s.write visualWidth item).out = s.out ++ (s.pieces item).flatMap Piece.chars := by
  have hblank := flushPendingBlank_spec s
  have hindent := flushPendingIndent_spec s.flushPendingBlank
  cases item with
  | text t =>
    show s.flushPendingBlank.flushPendingIndent.out ++ t = _
    rw [hindent.1, hblank.1, hblank.2.1]
    simp [RenderState.pieces, Piece.chars]
  | space =>
    show s.flushPendingBlank.flushPendingIndent.out ++ [' '] = _
    rw [hindent.1, hblank.1, hblank.2.1]
    simp [RenderState.pieces, Piece.chars]
  | noSpace | blank => exact (List.append_nil _).symm
  | newline indent =>
    unfold RenderState.write RenderState.emitNewline RenderState.pieces
    cases s.pendingBlank <;> simp [Piece.chars]

theorem out_writes (items : List Item) : ∀ s : RenderState,
    (items.foldl (·.write visualWidth) s).out =
      s.out ++ (pieces visualWidth s items).flatMap Piece.chars := by
  induction items with
  | nil => exact fun s => (List.append_nil _).symm
  | cons item items ih =>
    intro s
    rw [List.foldl_cons, ih, out_write, pieces, List.flatMap_append, List.append_assoc]

/-- The pieces of a document. -/
def docPieces (width : Nat) (doc : Doc) : List Piece :=
  pieces visualWidth .new (docLayout visualWidth width doc)

/-- The output is its pieces. -/
theorem render_eq (width : Nat) (doc : Doc) :
    render visualWidth doc width = (docPieces visualWidth width doc).flatMap Piece.chars := by
  unfold render
  rw [renderLoop_eq, out_writes]
  rfl

end Write

/-! ### The order of the texts -/

section Order

variable (visualWidth : List Char → Nat) (width : Nat)

/-- The frames of a stack are laid out one after the other. -/
theorem layout_lays (stack : List Frame) (s : RenderState) :
    ∃ parts, List.Forall₂ (fun f is => Lays f.indent f.mode f.doc is) stack parts ∧
      layout visualWidth width stack s = parts.flatten := by
  fun_induction layout visualWidth width stack s with
  | case1 s => exact ⟨[], .nil, rfl⟩
  | case2 s frame stack ih =>
    obtain ⟨parts, hparts, heq⟩ := ih
    rw [heq]
    obtain ⟨indent, mode, doc⟩ := frame
    -- a frame whose one part takes its place
    have one : ∀ {m : Mode} {i : Int32} {inner : Doc},
        (step visualWidth width ⟨indent, mode, doc⟩ stack s).1 = ⟨i, m, inner⟩ :: stack →
        Frame.items ⟨indent, mode, doc⟩ = [] →
        (∀ is, Lays i m inner is → Lays indent mode doc is) →
        ∃ parts', List.Forall₂ (fun f is => Lays f.indent f.mode f.doc is)
          (⟨indent, mode, doc⟩ :: stack) parts' ∧
          Frame.items ⟨indent, mode, doc⟩ ++ parts.flatten = parts'.flatten := by
      intro m i inner hstep hitems hlays
      rw [hstep] at hparts
      obtain ⟨is, rest, his, hrest, rfl⟩ := List.forall₂_cons_left_iff.mp hparts
      exact ⟨is :: rest, .cons (hlays is his) hrest, by rw [hitems]; rfl⟩
    -- a leaf
    have leaf : (step visualWidth width ⟨indent, mode, doc⟩ stack s).1 = stack →
        Lays indent mode doc (Frame.items ⟨indent, mode, doc⟩) →
        ∃ parts', List.Forall₂ (fun f is => Lays f.indent f.mode f.doc is)
          (⟨indent, mode, doc⟩ :: stack) parts' ∧
          Frame.items ⟨indent, mode, doc⟩ ++ parts.flatten = parts'.flatten := by
      intro hstep hlays
      rw [hstep] at hparts
      exact ⟨_ :: parts, .cons hlays hparts, rfl⟩
    cases doc with
    | nil => exact leaf rfl (by cases mode <;> exact .nil)
    | text t => exact leaf rfl (by cases mode <;> exact .text)
    | lineHard => exact leaf rfl (by cases mode <;> exact .hard)
    | blank => exact leaf rfl (by cases mode <;> exact .blank)
    | line =>
      cases mode with
      | flat => exact leaf rfl .lineFlat
      | break_ => exact leaf rfl .lineBreak
    | lineSoft =>
      cases mode with
      | flat => exact leaf rfl .softFlat
      | break_ => exact leaf rfl .softBreak
    | nest n inner =>
      exact one rfl (by cases mode <;> rfl) fun is his => .nest his
    | concat a b =>
      obtain ⟨as, rest, has, hrest, rfl⟩ := List.forall₂_cons_left_iff.mp hparts
      obtain ⟨bs, rest', hbs, hrest', rfl⟩ := List.forall₂_cons_left_iff.mp hrest
      refine ⟨(as ++ bs) :: rest', .cons (.concat has hbs) hrest', ?_⟩
      cases mode <;> simp [Frame.items]
    | group inner =>
      have hitems : Frame.items ⟨indent, mode, .group inner⟩ = [] := by cases mode <;> rfl
      by_cases hforced : inner.hasForcedBreak = true
      · exact one (congrArg Prod.fst (if_pos hforced)) hitems
          fun is his => .groupBreak (.inr hforced) his
      · have hnot : inner.hasForcedBreak = false := by simpa using hforced
        by_cases hflat : mode = .flat ∨
            fits visualWidth (width - s.col) (⟨indent, .flat, inner⟩ :: stack) = true
        · exact one (congrArg Prod.fst ((if_neg hforced).trans (if_pos hflat))) hitems
            fun is his => .groupFlat hnot his
        · have hbreak : mode = .break_ := by
            cases mode with
            | flat => exact absurd (.inl rfl) hflat
            | break_ => rfl
          exact one (congrArg Prod.fst ((if_neg hforced).trans (if_neg hflat))) hitems
            fun is his => .groupBreak (.inl hbreak) his

/-- A document is laid out from its first leaf to its last. -/
theorem docLayout_lays (doc : Doc) :
    Lays 0 .break_ doc (docLayout visualWidth width doc) := by
  obtain ⟨parts, hparts, heq⟩ := layout_lays visualWidth width [⟨0, .break_, doc⟩] .new
  obtain ⟨is, rest, his, hrest, rfl⟩ := List.forall₂_cons_left_iff.mp hparts
  obtain rfl := List.forall₂_nil_left_iff.mp hrest
  unfold docLayout
  rw [heq, List.flatten_cons, List.flatten_nil, List.append_nil]
  exact his

/-- The pieces are those of the items in order, with more line breaks between
them: a text for a text, a space for a flat line and a line break for a line
break. -/
inductive Follows : List Item → List Piece → Prop
  | nil : Follows [] []
  | text {t : List Char} {n : Nat} {is : List Item} {ps : List Piece} :
      Follows is ps → Follows (.text t :: is) (.text n t :: ps)
  | space {n : Nat} {is : List Item} {ps : List Piece} :
      Follows is ps → Follows (.space :: is) (.space n :: ps)
  | newline {i : Int32} {is : List Item} {ps : List Piece} :
      Follows is ps → Follows (.newline i :: is) (.newline :: ps)
  | noSpace {is : List Item} {ps : List Piece} : Follows is ps → Follows (.noSpace :: is) ps
  | blank {is : List Item} {ps : List Piece} : Follows is ps → Follows (.blank :: is) ps
  | extra {is : List Item} {ps : List Piece} : Follows is ps → Follows is (.newline :: ps)

/-- **The pieces follow the items.** -/
theorem pieces_follow : ∀ (items : List Item) (s : RenderState),
    Follows items (pieces visualWidth s items)
  | [], _ => .nil
  | item :: items, s => by
    have ih := pieces_follow items (s.write visualWidth item)
    have hblank : ∀ {is : List Item} {ps : List Piece}, Follows is ps →
        Follows is (s.blankPieces ++ ps) := by
      intro is ps h
      unfold RenderState.blankPieces
      split_ifs
      · exact .extra h
      · exact .extra (.extra h)
      · exact h
    rw [pieces]
    cases item with
    | text t =>
      rw [RenderState.pieces, List.append_assoc]
      exact hblank (.text ih)
    | space =>
      rw [RenderState.pieces, List.append_assoc]
      exact hblank (.space ih)
    | noSpace => exact .noSpace ih
    | blank => exact .blank ih
    | newline indent =>
      rw [RenderState.pieces]
      split_ifs
      · exact .extra (.newline ih)
      · exact .newline ih

end Order

/-! ### The column -/

section Column

variable (visualWidth : List Char → Nat) (width : Nat)

/-- The column behind some output that begins at column `c`: the columns of what
was written since the last line break. -/
def column (c : Nat) : List Piece → Nat
  | [] => c
  | .text n t :: ps =>
    if '\n' ∈ t then column (visualWidth (t.reverse.takeWhile (· ≠ '\n')).reverse) ps
    else column (c + n + visualWidth t) ps
  | .space n :: ps => column (c + n + 1) ps
  | .newline :: ps => column 0 ps

theorem column_append (ps qs : List Piece) : ∀ c : Nat,
    column visualWidth c (ps ++ qs) = column visualWidth (column visualWidth c ps) qs := by
  induction ps with
  | nil => exact fun c => rfl
  | cons p ps ih =>
    intro c
    cases p with
    | text n t =>
      rw [List.cons_append, column, column]
      split_ifs
      · exact ih _
      · exact ih _
    | space n => exact ih _
    | newline => exact ih _

/-- The line breaks of a blank line go back to the first column. -/
theorem column_blankPieces (s : RenderState) (c : Nat) :
    column visualWidth c s.blankPieces = if s.blankPieces = [] then c else 0 := by
  unfold RenderState.blankPieces
  split_ifs <;> first | rfl | simp_all

/-- A text of one line. -/
def Item.OneLine : Item → Prop
  | .text t => '\n' ∉ t
  | _ => True

/-- The column that the printer tracks is the real one, but for the indentation
that is still to be written. -/
theorem col_write (hspace : visualWidth [' '] = 1) {s : RenderState} {c : Nat} (hcol : s.col = c)
    {item : Item} (hline : item.OneLine) :
    (s.write visualWidth item).col = column visualWidth c (s.pieces item) := by
  have hblank := flushPendingBlank_spec s
  have hindent := flushPendingIndent_spec s.flushPendingBlank
  have hflush : s.flushPendingBlank.flushPendingIndent.col =
      column visualWidth c s.blankPieces + s.pendingIndent.getD 0 := by
    rw [hindent.2.1, hblank.2.2.2, hblank.2.1, column_blankPieces, hcol]
  cases item with
  | text t =>
    show s.flushPendingBlank.flushPendingIndent.col + visualWidth t = _
    have hline : '\n' ∉ t := hline
    rw [hflush, RenderState.pieces, column_append, column, if_neg hline]
    rfl
  | space =>
    show s.flushPendingBlank.flushPendingIndent.col + visualWidth [' '] = _
    rw [hflush, hspace, RenderState.pieces, column_append]
    rfl
  | noSpace | blank => exact hcol
  | newline indent =>
    rw [RenderState.pieces]
    split_ifs <;> rfl

/-- A state of the loop and the items written before it. -/
inductive Reached (doc : Doc) : List Item → List Frame → RenderState → Prop
  | start : Reached doc [] [⟨0, .break_, doc⟩] .new
  | step {items : List Item} {frame : Frame} {stack : List Frame} {s : RenderState} :
      Reached doc items (frame :: stack) s →
      Reached doc (items ++ frame.items) (step visualWidth width frame stack s).1
        (step visualWidth width frame stack s).2

theorem pieces_append (items items' : List Item) : ∀ s : RenderState,
    pieces visualWidth s (items ++ items') = pieces visualWidth s items ++
      pieces visualWidth (items.foldl (·.write visualWidth) s) items' := by
  induction items with
  | nil => exact fun s => rfl
  | cons item items ih =>
    intro s
    rw [List.cons_append, pieces, pieces, ih, List.append_assoc, List.foldl_cons]

/-- What is written before a state and what is written from it on make up the
layout of the document. -/
theorem reached_spec {doc : Doc} {items : List Item} {stack : List Frame} {s : RenderState}
    (h : Reached visualWidth width doc items stack s) :
    docLayout visualWidth width doc = items ++ layout visualWidth width stack s ∧
      s = items.foldl (·.write visualWidth) .new := by
  induction h with
  | start => exact ⟨rfl, rfl⟩
  | step _ ih =>
    obtain ⟨hlayout, hstate⟩ := ih
    refine ⟨?_, ?_⟩
    · rw [hlayout, layout, List.append_assoc]
    · rw [List.foldl_append, ← hstate, step_write]

/-- The tracked column is that of the output. -/
theorem col_writes (hspace : visualWidth [' '] = 1) (items : List Item) :
    ∀ (s : RenderState) (c : Nat), s.col = c → (∀ item ∈ items, item.OneLine) →
      (items.foldl (·.write visualWidth) s).col = column visualWidth c (pieces visualWidth s items) := by
  induction items with
  | nil => exact fun s c hcol _ => hcol
  | cons item items ih =>
    intro s c hcol hline
    rw [List.foldl_cons, pieces, column_append]
    exact ih _ _ (col_write visualWidth hspace hcol (hline item List.mem_cons_self))
      fun item' h => hline item' (List.mem_cons_of_mem _ h)

end Column

/-- The texts of a document. -/
def Doc.texts : Doc → List (List Char)
  | .text t => [t]
  | .concat a b => a.texts ++ b.texts
  | .nest _ inner | .group inner => inner.texts
  | _ => []

/-- The texts that are laid out are those of the document, in order. -/
theorem Lays.texts {i : Int32} {m : Mode} {doc : Doc} {items : List Item}
    (h : Lays i m doc items) :
    (items.filterMap fun item => match item with | .text t => some t | _ => none) = doc.texts := by
  induction h with
  | concat _ _ iha ihb => rw [List.filterMap_append, iha, ihb, Doc.texts]
  | nest _ ih | groupFlat _ _ ih | groupBreak _ _ ih => rw [ih, Doc.texts]
  | _ => rfl

/-! ### The line of a group -/

section Line

variable (visualWidth : List Char → Nat) (width : Nat)

/-- The columns of a document up to its first line break, its groups laid out
flat, and whether it has one. -/
def restWidth : Mode → Doc → Nat × Bool
  | _, .nil => (0, false)
  | _, .text t => (visualWidth t, false)
  | m, .concat a b =>
    let (x, ended) := restWidth m a
    if ended then (x, true) else
      let (y, ended) := restWidth m b
      (x + y, ended)
  | m, .nest _ inner => restWidth m inner
  | _, .group inner => restWidth .flat inner
  | .flat, .line => (1, false)
  | .flat, .lineSoft => (0, false)
  | .break_, .line | .break_, .lineSoft | _, .lineHard | _, .blank => (0, true)

/-- The columns of a stack up to its first line break. -/
def ahead : List Frame → Nat
  | [] => 0
  | f :: stack =>
    let (x, ended) := restWidth visualWidth f.mode f.doc
    if ended then x else x + ahead stack

theorem ahead_concat (i : Int32) (m : Mode) (a b : Doc) (stack : List Frame) :
    ahead visualWidth (⟨i, m, .concat a b⟩ :: stack) =
      ahead visualWidth (⟨i, m, a⟩ :: ⟨i, m, b⟩ :: stack) := by
  simp only [ahead, restWidth]
  cases (restWidth visualWidth m a).2 with
  | true => rfl
  | false =>
    simp only [Bool.false_eq_true, if_false]
    split_ifs
    · rfl
    · omega

/-- The look-ahead measures the columns up to the line break. -/
theorem fits_iff (remaining : Nat) (stack : List Frame) :
    fits visualWidth remaining stack = true ↔ ahead visualWidth stack ≤ remaining := by
  fun_induction fits visualWidth remaining stack with
  | case1 => simp [ahead]
  | case2 remaining _ _ stack ih => simpa [ahead, restWidth] using ih
  | case3 remaining _ _ t stack h =>
    simp only [ahead, restWidth, Bool.false_eq_true, if_false, false_iff]
    omega
  | case4 remaining _ _ t stack h ih =>
    simp only [ih, ahead, restWidth, Bool.false_eq_true, if_false]
    omega
  | case5 remaining indent mode a b stack ih => rw [ih, ahead_concat]
  | case6 remaining indent mode n inner stack ih => exact ih
  | case7 remaining indent _ inner stack ih => exact ih
  | case8 =>
    simp only [ahead, restWidth, Bool.false_eq_true, if_false, false_iff]
    omega
  | case9 remaining _ stack h ih =>
    simp only [ih, ahead, restWidth, Bool.false_eq_true, if_false]
    omega
  | case10 | case12 | case13 | case14 => simp [ahead, restWidth]
  | case11 remaining _ stack ih => simpa [ahead, restWidth] using ih

/-- A broken document ends its line no later than a flat one. -/
theorem restWidth_break (d : Doc) :
    (restWidth visualWidth .break_ d).1 ≤ (restWidth visualWidth .flat d).1 ∧
      ((restWidth visualWidth .flat d).2 = true → (restWidth visualWidth .break_ d).2 = true) := by
  induction d with
  | concat a b iha ihb =>
    obtain ⟨hlea, hendeda⟩ := iha
    obtain ⟨hleb, hendedb⟩ := ihb
    simp only [restWidth]
    cases ha' : (restWidth visualWidth .flat a).2 with
    | true =>
      rw [hendeda ha']
      exact ⟨hlea, id⟩
    | false =>
      cases ha : (restWidth visualWidth .break_ a).2 with
      | true => exact ⟨Nat.le_add_right_of_le hlea, fun _ => rfl⟩
      | false => exact ⟨Nat.add_le_add hlea hleb, hendedb⟩
  | nest n inner ih => exact ih
  | group inner ih => exact ⟨le_rfl, id⟩
  | _ => simp [restWidth]

theorem ahead_break (i : Int32) (d : Doc) (stack : List Frame) :
    ahead visualWidth (⟨i, .break_, d⟩ :: stack) ≤ ahead visualWidth (⟨i, .flat, d⟩ :: stack) := by
  obtain ⟨hle, hended⟩ := restWidth_break visualWidth d
  simp only [ahead]
  cases hflat : (restWidth visualWidth .flat d).2 with
  | true =>
    rw [hended hflat]
    exact hle
  | false =>
    cases hbreak : (restWidth visualWidth .break_ d).2 with
    | true => exact Nat.le_add_right_of_le hle
    | false => exact Nat.add_le_add_right hle _

/-- The columns that items write up to the next line break, a blank line taken
as one. -/
def lineWidth : List Item → Nat
  | [] => 0
  | .text t :: items => visualWidth t + lineWidth items
  | .space :: items => 1 + lineWidth items
  | .noSpace :: items => lineWidth items
  | .newline _ :: _ | .blank :: _ => 0

/-- **What is measured is what is written.** From a state without indentation
that is still to be written, where the measured columns fit, no more are written
up to the next line break. The induction is on the turns of the loop: the groups
that were measured flat are asked about the rest of the same columns. -/
theorem lineWidth_layout (hspace : visualWidth [' '] = 1) (stack : List Frame) (s : RenderState) :
    s.pendingIndent.getD 0 = 0 → ahead visualWidth stack ≤ width - s.col →
    lineWidth visualWidth (layout visualWidth width stack s) ≤ ahead visualWidth stack := by
  fun_induction layout visualWidth width stack s with
  | case1 s => exact fun _ _ => Nat.zero_le _
  | case2 s frame stack ih =>
    intro hindent hahead
    obtain ⟨i, m, d⟩ := frame
    have hblank := flushPendingBlank_spec s
    have hflush := flushPendingIndent_spec s.flushPendingBlank
    have hcol : s.flushPendingBlank.flushPendingIndent.col ≤ s.col := by
      rw [hflush.2.1, hblank.2.2.2, hblank.2.1, hindent]
      split_ifs <;> omega
    cases d with
    | nil =>
      have hstep : step visualWidth width ⟨i, m, .nil⟩ stack s = (stack, s) := rfl
      have hw : ahead visualWidth (⟨i, m, .nil⟩ :: stack) = ahead visualWidth stack := by
        simp [ahead, restWidth]
      have hitems : Frame.items ⟨i, m, .nil⟩ = [] := by cases m <;> rfl
      rw [hstep] at ih ⊢
      rw [hw] at hahead ⊢
      rw [hitems]
      exact ih hindent hahead
    | text t =>
      have hw : ahead visualWidth (⟨i, m, .text t⟩ :: stack) =
          visualWidth t + ahead visualWidth stack := by
        simp [ahead, restWidth]
      have hstep : step visualWidth width ⟨i, m, .text t⟩ stack s =
          (stack, s.flushPendingBlank.flushPendingIndent.pushText visualWidth t) := rfl
      have hitems : Frame.items ⟨i, m, .text t⟩ = [.text t] := by cases m <;> rfl
      rw [hstep] at ih ⊢
      rw [hw] at hahead ⊢
      rw [hitems]
      refine Nat.add_le_add_left (ih ?_ ?_) _
      · show s.flushPendingBlank.flushPendingIndent.pendingIndent.getD 0 = 0
        rw [hflush.2.2.1]
        rfl
      · show ahead visualWidth stack ≤ width - (s.flushPendingBlank.flushPendingIndent.col + visualWidth t)
        omega
    | concat a b =>
      rw [ahead_concat] at hahead ⊢
      have hitems : Frame.items ⟨i, m, .concat a b⟩ = [] := by cases m <;> rfl
      rw [hitems]
      exact ih hindent hahead
    | nest n inner =>
      have hitems : Frame.items ⟨i, m, .nest n inner⟩ = [] := by cases m <;> rfl
      rw [hitems]
      exact ih hindent hahead
    | group inner =>
      have hitems : Frame.items ⟨i, m, .group inner⟩ = [] := by cases m <;> rfl
      have hbreak := ahead_break visualWidth i inner stack
      have hw : ahead visualWidth (⟨i, m, .group inner⟩ :: stack) =
          ahead visualWidth (⟨i, .flat, inner⟩ :: stack) := rfl
      rw [hitems]
      rw [hw] at hahead ⊢
      by_cases hforced : inner.hasForcedBreak = true
      · have hstep : step visualWidth width ⟨i, m, .group inner⟩ stack s =
            (⟨i, .break_, inner⟩ :: stack, s) := if_pos hforced
        rw [hstep] at ih ⊢
        exact Nat.le_trans (ih hindent (Nat.le_trans hbreak hahead)) hbreak
      · have hfits := (fits_iff visualWidth (width - s.col) (⟨i, .flat, inner⟩ :: stack)).mpr hahead
        have hstep : step visualWidth width ⟨i, m, .group inner⟩ stack s =
            (⟨i, .flat, inner⟩ :: stack, s) := (if_neg hforced).trans (if_pos (.inr hfits))
        rw [hstep] at ih ⊢
        exact ih hindent hahead
    | line =>
      cases m with
      | flat =>
        have hw : ahead visualWidth (⟨i, .flat, .line⟩ :: stack) = 1 + ahead visualWidth stack := by
          simp [ahead, restWidth]
        have hstep : step visualWidth width ⟨i, .flat, .line⟩ stack s =
            (stack, s.flushPendingBlank.flushPendingIndent.pushText visualWidth [' ']) := rfl
        rw [hstep] at ih ⊢
        rw [hw] at hahead ⊢
        refine Nat.add_le_add_left (ih ?_ ?_) _
        · show s.flushPendingBlank.flushPendingIndent.pendingIndent.getD 0 = 0
          rw [hflush.2.2.1]
          rfl
        · show ahead visualWidth stack ≤ width - (s.flushPendingBlank.flushPendingIndent.col + visualWidth [' '])
          omega
      | break_ => exact Nat.zero_le _
    | lineSoft =>
      cases m with
      | flat =>
        have hw : ahead visualWidth (⟨i, .flat, .lineSoft⟩ :: stack) = ahead visualWidth stack := by
          simp [ahead, restWidth]
        rw [hw] at hahead ⊢
        exact ih hindent hahead
      | break_ => exact Nat.zero_le _
    | lineHard => cases m <;> exact Nat.zero_le _
    | blank => cases m <;> exact Nat.zero_le _

/-- A group that is laid out flat where no indentation is still to be written:
what is left of its line adds no columns, or it ends within the width. -/
theorem flat_lineWidth (hspace : visualWidth [' '] = 1) {doc inner : Doc} {items : List Item}
    {i : Int32} {stack : List Frame} {s : RenderState}
    (h : Reached visualWidth width doc items (⟨i, .break_, .group inner⟩ :: stack) s)
    (hforced : inner.hasForcedBreak = false) (hindent : s.pendingIndent.getD 0 = 0)
    (hlines : ∀ t ∈ doc.texts, '\n' ∉ t)
    (hflat : (step visualWidth width ⟨i, .break_, .group inner⟩ stack s).1 =
      ⟨i, .flat, inner⟩ :: stack) :
    lineWidth visualWidth (layout visualWidth width (⟨i, .flat, inner⟩ :: stack) s) = 0 ∨
      column visualWidth 0 (pieces visualWidth .new items ++ s.blankPieces) +
        lineWidth visualWidth (layout visualWidth width (⟨i, .flat, inner⟩ :: stack) s) ≤ width := by
  obtain ⟨hlayout, hstate⟩ := reached_spec visualWidth width h
  have hline : ∀ item ∈ items, item.OneLine := by
    intro item hitem
    cases item with
    | text t =>
      refine hlines t ?_
      rw [← (docLayout_lays visualWidth width doc).texts, hlayout, List.filterMap_append]
      exact List.mem_append_left _ (List.mem_filterMap.mpr ⟨.text t, hitem, rfl⟩)
    | _ => trivial
  have hcol : s.col = column visualWidth 0 (pieces visualWidth .new items) := by
    rw [hstate]
    exact col_writes visualWidth hspace items .new 0 rfl hline
  have hstart : column visualWidth 0 (pieces visualWidth .new items ++ s.blankPieces) ≤ s.col := by
    rw [column_append, ← hcol, column_blankPieces]
    split_ifs <;> omega
  have hfits : ahead visualWidth (⟨i, .flat, inner⟩ :: stack) ≤ width - s.col := by
    rw [← fits_iff]
    by_contra hnot
    have hstep : step visualWidth width ⟨i, .break_, .group inner⟩ stack s =
        (⟨i, .break_, inner⟩ :: stack, s) := by
      simp [step, hforced, hnot]
    rw [hstep] at hflat
    exact absurd hflat (by simp)
  have hwidth := lineWidth_layout visualWidth width hspace _ s hindent hfits
  omega

end Line

/-! ### The ends of the lines -/

section Ends

variable (visualWidth : List Char → Nat) (width : Nat)

/-- A space or a tab at the end of some output. -/
def EndsBlank (out : List Char) : Prop := out.getLast? = some ' ' ∨ out.getLast? = some '\t'

/-- A line break in the output is a piece of its own, if no text holds one. -/
theorem chars_newline (ps : List Piece) (hlines : ∀ n t, .text n t ∈ ps → '\n' ∉ t) :
    ∀ pre post : List Char, ps.flatMap Piece.chars = pre ++ '\n' :: post →
      ∃ p q, ps = p ++ .newline :: q ∧ pre = p.flatMap Piece.chars := by
  induction ps with
  | nil =>
    intro pre post h
    exact absurd h.symm (List.append_ne_nil_of_right_ne_nil pre (List.cons_ne_nil _ _))
  | cons p ps ih =>
    have ih := ih fun n t h => hlines n t (List.mem_cons_of_mem p h)
    intro pre post h
    rw [List.flatMap_cons] at h
    rcases List.append_eq_append_iff.mp h with ⟨rest, rfl, hrest⟩ | ⟨rest, hchars, hrest⟩
    · -- the line break is behind the first piece
      obtain ⟨p', q, rfl, rfl⟩ := ih rest post hrest
      exact ⟨p :: p', q, rfl, rfl⟩
    · cases rest with
      | nil =>
        obtain ⟨p', q, rfl, hp'⟩ := ih [] post hrest.symm
        refine ⟨p :: p', q, rfl, ?_⟩
        rw [List.flatMap_cons, ← hp', hchars, List.append_nil, List.append_nil]
      | cons c rest =>
        obtain ⟨rfl, -⟩ := List.cons.inj hrest
        have hmem : '\n' ∈ p.chars := by
          rw [hchars]
          exact List.mem_append_right _ List.mem_cons_self
        cases p with
        | text n t =>
          have ht : '\n' ∉ t := hlines n t List.mem_cons_self
          simp [Piece.chars, ht] at hmem
        | space n => simp [Piece.chars] at hmem
        | newline =>
          have hpre : pre = [] := by
            have hlength := congrArg List.length hchars
            simp only [Piece.chars, List.length_append, List.length_cons, List.length_nil] at hlength
            exact List.eq_nil_of_length_eq_zero (by omega)
          exact ⟨[], ps, rfl, hpre⟩

/-- The texts among the pieces are among those of the items. -/
theorem Follows.texts {items : List Item} {ps : List Piece} (h : Follows items ps) {n : Nat}
    {t : List Char} : .text n t ∈ ps → .text t ∈ items := by
  induction h with
  | nil => exact fun hmem => absurd hmem List.not_mem_nil
  | text _ ih =>
    intro hmem
    rcases List.mem_cons.mp hmem with heq | hmem
    · cases heq
      exact List.mem_cons_self
    · exact List.mem_cons_of_mem _ (ih hmem)
  | space _ ih | newline _ ih =>
    intro hmem
    rcases List.mem_cons.mp hmem with heq | hmem
    · cases heq
    · exact List.mem_cons_of_mem _ (ih hmem)
  | noSpace _ ih | blank _ ih => exact fun hmem => List.mem_cons_of_mem _ (ih hmem)
  | extra _ ih =>
    intro hmem
    rcases List.mem_cons.mp hmem with heq | hmem
    · cases heq
    · exact ih hmem

/-- Pieces end in a blank with the space of a flat line alone. -/
theorem ends_space {ps : List Piece}
    (htexts : ∀ n t, .text n t ∈ ps → t ≠ [] ∧ ¬ EndsBlank t)
    (hends : EndsBlank (ps.flatMap Piece.chars)) : ∃ p n, ps = p ++ [.space n] := by
  rcases List.eq_nil_or_concat ps with rfl | ⟨p, last, rfl⟩
  · exact absurd hends (by simp [EndsBlank])
  · rw [List.concat_eq_append] at hends htexts ⊢
    cases last with
    | text n t =>
      obtain ⟨hne, hnot⟩ := htexts n t (List.mem_append_right p List.mem_cons_self)
      refine absurd ?_ hnot
      have hlast : ((p ++ [Piece.text n t]).flatMap Piece.chars).getLast? = t.getLast? := by
        rw [List.flatMap_append, List.flatMap_singleton]
        unfold Piece.chars
        rw [← List.append_assoc,
          List.getLast?_append_of_ne_nil _ hne]
      unfold EndsBlank at hends ⊢
      rwa [hlast] at hends
    | space n => exact ⟨p, n, rfl⟩
    | newline => exact absurd hends (by simp [EndsBlank, Piece.chars])

/-- A blank line yields a line break before the next text, space or line break,
unless nothing has been written yet. -/
theorem blank_breaks {s : RenderState} (hpending : s.pendingBlank = true) (hout : s.out ≠ [])
    {item : Item} (hno : item ≠ .noSpace) (hblank : item ≠ .blank) (items : List Item) :
    ∃ qs, pieces visualWidth s (item :: items) = .newline :: qs ∧ Follows (item :: items) qs := by
  have hrest := pieces_follow visualWidth items (s.write visualWidth item)
  have hbreaks : ∃ k, s.blankPieces = .newline :: List.replicate k .newline := by
    unfold RenderState.blankPieces
    rw [if_pos ⟨hpending, hout⟩]
    split_ifs
    · exact ⟨0, rfl⟩
    · exact ⟨1, rfl⟩
  have hextra : ∀ (k : Nat) {is : List Item} {ps : List Piece}, Follows is ps →
      Follows is (List.replicate k .newline ++ ps) := by
    intro k is ps h
    induction k with
    | zero => exact h
    | succ k ih => exact .extra ih
  obtain ⟨k, hk⟩ := hbreaks
  cases item with
  | text t =>
    refine ⟨_, ?_, hextra k (Follows.text (n := s.pendingIndent.getD 0) hrest)⟩
    rw [pieces, RenderState.pieces, hk, List.append_assoc]
    rfl
  | space =>
    refine ⟨_, ?_, hextra k (Follows.space (n := s.pendingIndent.getD 0) hrest)⟩
    rw [pieces, RenderState.pieces, hk, List.append_assoc]
    rfl
  | noSpace => exact absurd rfl hno
  | blank => exact absurd rfl hblank
  | newline i =>
    refine ⟨_, ?_, .newline hrest⟩
    rw [pieces, RenderState.pieces, if_pos hpending]
    rfl

end Ends

/-! ### The layout of a document -/

/-- What the printer does with a document. -/
structure LaidOut (visualWidth : List Char → Nat) (width : Nat) (doc : Doc) : Prop where
  /-- The leaves are laid out in order, each group flat or broken. -/
  lays : Lays 0 .break_ doc (docLayout visualWidth width doc)
  texts : ((docLayout visualWidth width doc).filterMap fun item =>
    match item with | .text t => some t | _ => none) = doc.texts
  /-- The output is the texts of the layout, with a space for a flat line and a
  line break for a line break, and more line breaks between them. -/
  output : render visualWidth doc width =
    (docPieces visualWidth width doc).flatMap Piece.chars
  follows : Follows (docLayout visualWidth width doc) (docPieces visualWidth width doc)
  /-- A blank line breaks the line in front of what follows, once there is output. -/
  blanks : ∀ items item items',
    docLayout visualWidth width doc = items ++ .blank :: item :: items' →
    item ≠ .noSpace → item ≠ .blank → (pieces visualWidth .new items).flatMap Piece.chars ≠ [] →
    ∃ qs, docPieces visualWidth width doc = pieces visualWidth .new items ++ .newline :: qs ∧
      Follows (item :: items') qs
  /-- A group that is laid out flat fits, if no indentation is still to be written. -/
  groups : (∀ t ∈ doc.texts, '\n' ∉ t) → ∀ items i inner stack s,
    Reached visualWidth width doc items (⟨i, .break_, .group inner⟩ :: stack) s →
    inner.hasForcedBreak = false → s.pendingIndent.getD 0 = 0 →
    (step visualWidth width ⟨i, .break_, .group inner⟩ stack s).1 = ⟨i, .flat, inner⟩ :: stack →
    lineWidth visualWidth (layout visualWidth width (⟨i, .flat, inner⟩ :: stack) s) = 0 ∨
      column visualWidth 0 (pieces visualWidth .new items ++ s.blankPieces) +
        lineWidth visualWidth (layout visualWidth width (⟨i, .flat, inner⟩ :: stack) s) ≤ width
  /-- A line that ends in a blank ends in the space of a flat line. -/
  ends : (∀ t ∈ doc.texts, t ≠ [] ∧ '\n' ∉ t ∧ ¬ EndsBlank t) → ∀ pre,
    (pre = render visualWidth doc width ∨ ∃ post, render visualWidth doc width = pre ++ '\n' :: post) →
    EndsBlank pre → ∃ p n q, docPieces visualWidth width doc = p ++ .space n :: q ∧
      pre = (p ++ [.space n]).flatMap Piece.chars

end Format

end Wqpl
