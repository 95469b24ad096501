/-
# The pretty printer

A document is laid out by a loop over a stack of frames: each frame is a
document with the indentation and the mode, flat or broken, it is laid out in.
A group is laid out flat where what is left of the line `fits`. The loop writes
to a `RenderState`, which puts off blank lines and indentation until there is
text to write.

The indentation is an `i32`, whose sums wrap here. The display width of a text
is a parameter.

Key definitions: `Doc`, `fits`, `step`, `render`.
-/
import Mathlib.Algebra.GroupWithZero.Nat
import Mathlib.Data.List.Basic

namespace Wqpl

namespace Format

inductive Doc
  | nil
  | text (t : List Char)
  | concat (a b : Doc)
  | nest (n : Int32) (inner : Doc)
  | group (inner : Doc)
  | line
  | lineSoft
  | lineHard
  | blank
deriving DecidableEq

namespace Doc

/-- `has_forced_break`. -/
def hasForcedBreak : Doc → Bool
  | nil | text _ | line | lineSoft => false
  | lineHard | blank => true
  | concat a b => a.hasForcedBreak || b.hasForcedBreak
  | nest _ inner | group inner => inner.hasForcedBreak

def size : Doc → Nat
  | concat a b => a.size + b.size + 1
  | nest _ inner | group inner => inner.size + 1
  | _ => 1

end Doc

inductive Mode
  | flat | break_
deriving DecidableEq

structure Frame where
  indent : Int32
  mode : Mode
  doc : Doc
deriving DecidableEq

/-- The nodes in the documents of a stack. -/
def stackSize (stack : List Frame) : Nat := (stack.map fun f => f.doc.size).sum

theorem stackSize_cons (f : Frame) (stack : List Frame) :
    stackSize (f :: stack) = f.doc.size + stackSize stack := List.sum_cons

structure RenderState where
  out : List Char
  /-- The column of the next character, without the indentation still to be written. -/
  col : Nat
  pendingBlank : Bool
  pendingIndent : Option Nat

namespace RenderState

def new : RenderState := ⟨[], 0, false, none⟩

/-- `flush_pending_blank`: a file does not begin with a blank line. -/
def flushPendingBlank (s : RenderState) : RenderState :=
  if !s.pendingBlank then s
  else
    let s := { s with pendingBlank := false }
    if s.out.isEmpty then s
    else
      let out := if s.out.getLast? = some '\n' then s.out else s.out ++ ['\n']
      { s with out := out ++ ['\n'], col := 0, pendingIndent := some (s.pendingIndent.getD 0) }

/-- `flush_pending_indent`. -/
def flushPendingIndent (s : RenderState) : RenderState :=
  match s.pendingIndent with
  | none => s
  | some n =>
    { s with out := s.out ++ List.replicate n ' ', col := s.col + n, pendingIndent := none }

/-- `emit_newline`. -/
def emitNewline (s : RenderState) (indent : Int32) : RenderState :=
  let out := if s.pendingBlank then s.out ++ ['\n'] else s.out
  { out := out ++ ['\n'], col := 0, pendingBlank := false,
    pendingIndent := some indent.toInt.toNat }

end RenderState

section Render

variable (visualWidth : List Char → Nat)

/-- `push_text`. -/
def RenderState.pushText (s : RenderState) (t : List Char) : RenderState :=
  { s with out := s.out ++ t, col := s.col + visualWidth t }

/-- Whether the frames, the groups in them laid out flat, fit in the columns that
remain up to the next line break. The stack is the frame that is asked about on
top of those below it. -/
def fits (remaining : Nat) (stack : List Frame) : Bool :=
  match stack with
  | [] => true
  | ⟨_, _, .nil⟩ :: stack => fits remaining stack
  | ⟨_, _, .text t⟩ :: stack =>
    if remaining < visualWidth t then false else fits (remaining - visualWidth t) stack
  | ⟨indent, mode, .concat a b⟩ :: stack =>
    fits remaining (⟨indent, mode, a⟩ :: ⟨indent, mode, b⟩ :: stack)
  | ⟨indent, mode, .nest n inner⟩ :: stack => fits remaining (⟨indent + n, mode, inner⟩ :: stack)
  | ⟨indent, _, .group inner⟩ :: stack => fits remaining (⟨indent, .flat, inner⟩ :: stack)
  | ⟨_, .flat, .line⟩ :: stack => if remaining = 0 then false else fits (remaining - 1) stack
  | ⟨_, .break_, .line⟩ :: _ => true
  | ⟨_, .flat, .lineSoft⟩ :: stack => fits remaining stack
  | ⟨_, .break_, .lineSoft⟩ :: _ => true
  | ⟨_, _, .lineHard⟩ :: _ => true
  | ⟨_, _, .blank⟩ :: _ => true
termination_by stackSize stack
decreasing_by all_goals simp only [stackSize_cons, Doc.size]; omega

/-- One turn of the loop of `render`: the frame is popped off the stack. -/
def step (width : Nat) (frame : Frame) (stack : List Frame) (s : RenderState) :
    List Frame × RenderState :=
  let ⟨indent, mode, doc⟩ := frame
  match doc with
  | .nil => (stack, s)
  | .text t => (stack, s.flushPendingBlank.flushPendingIndent.pushText visualWidth t)
  | .concat a b => (⟨indent, mode, a⟩ :: ⟨indent, mode, b⟩ :: stack, s)
  | .nest n inner => (⟨indent + n, mode, inner⟩ :: stack, s)
  | .group inner =>
    if inner.hasForcedBreak then (⟨indent, .break_, inner⟩ :: stack, s)
    else if mode = .flat ∨
        fits visualWidth (width - s.col) (⟨indent, .flat, inner⟩ :: stack) = true then
      (⟨indent, .flat, inner⟩ :: stack, s)
    else (⟨indent, .break_, inner⟩ :: stack, s)
  | .line =>
    match mode with
    | .flat => (stack, s.flushPendingBlank.flushPendingIndent.pushText visualWidth [' '])
    | .break_ => (stack, s.emitNewline indent)
  | .lineSoft =>
    match mode with
    | .flat => (stack, { s with pendingBlank := false })
    | .break_ => (stack, s.emitNewline indent)
  | .lineHard => (stack, s.emitNewline indent)
  | .blank => (stack, { s with pendingBlank := true })

/-- Every turn takes a node off the stack. -/
theorem step_size (width : Nat) (frame : Frame) (stack : List Frame) (s : RenderState) :
    stackSize (step visualWidth width frame stack s).1 < stackSize (frame :: stack) := by
  obtain ⟨indent, mode, doc⟩ := frame
  unfold step
  cases doc with
  | group inner =>
    dsimp only
    split_ifs <;> simp only [stackSize_cons, Doc.size] <;> omega
  | line | lineSoft => cases mode <;> simp only [stackSize_cons, Doc.size] <;> omega
  | _ => simp only [stackSize_cons, Doc.size]; omega

/-- The loop of `render`. It ends because every turn takes a node off the
stack. -/
def renderLoop (width : Nat) (stack : List Frame) (s : RenderState) : RenderState :=
  match stack with
  | [] => s
  | frame :: stack =>
    renderLoop width (step visualWidth width frame stack s).1 (step visualWidth width frame stack s).2
termination_by stackSize stack
decreasing_by exact step_size visualWidth width frame stack s

/-- `render`. -/
def render (doc : Doc) (width : Nat) : List Char :=
  (renderLoop visualWidth width [⟨0, .break_, doc⟩] .new).out

end Render

end Format

end Wqpl
