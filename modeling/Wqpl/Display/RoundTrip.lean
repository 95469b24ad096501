/-
# Printed data reads back

The text of data without fractions is read, parsed and evaluated to a value
equal to it. The text is taken apart along the value: an operand is what can
stand behind a leading comma (`IsOperand`), other texts are led by a comma
themselves and need parentheses there.

Key definitions: `IsData`, `readText`.
Key theorems: `display_round_trip`, `not_display_round_trip_fraction`.
-/
import Wqpl.Display.Lexing
import Wqpl.Parse.Comma
import Wqpl.Parse.Data
import Wqpl.Parse.Evaluation

namespace Wqpl

/-- Inserting a new key. -/
theorem IndexMap.insert_of_not_mem {K V : Type} [DecidableEq K] {m : List (K × V)} {k : K}
    (h : k ∉ m.map Prod.fst) (v : V) : IndexMap.insert m k v = m ++ [(k, v)] := by
  induction m with
  | nil => rfl
  | cons e es ih =>
    rw [List.map_cons, List.mem_cons, not_or] at h
    rw [insert, if_neg (Ne.symm h.1), ih h.2, List.cons_append]

/-- Different keys make a map as they come. -/
theorem IndexMap.collect_of_nodup {K V : Type} [DecidableEq K] {pairs : List (K × V)}
    (h : (pairs.map Prod.fst).Nodup) : IndexMap.collect pairs = pairs := by
  have happend : ∀ m : List (K × V), ((m ++ pairs).map Prod.fst).Nodup →
      pairs.foldl (fun m p => IndexMap.insert m p.1 p.2) m = m ++ pairs := by
    clear h
    induction pairs with
    | nil => exact fun m _ => (List.append_nil m).symm
    | cons p pairs ih =>
      intro m hm
      have hp : p.1 ∉ m.map Prod.fst := by
        rw [List.map_append, List.map_cons] at hm
        exact fun hmem => (List.nodup_append.mp hm).2.2 _ hmem _ List.mem_cons_self rfl
      rw [List.foldl_cons, insert_of_not_mem hp, ih _ (by simpa using hm), List.append_assoc]
      rfl
  exact (happend [] h).trans (List.nil_append pairs)

namespace F64

def IsFiniteNumber (f : F64) : Prop := f.isNaN = false ∧ f.isInfinite = false

theorem neg_neg (f : F64) : f.neg.neg = f := by
  have hbits : f.bits + BitVec.ofNat 64 (2 ^ 63) + BitVec.ofNat 64 (2 ^ 63) = f.bits := by bv_omega
  exact congrArg F64.mk hbits

end F64

namespace Parser

open Wqpl.Lex (TokenType Tables)

/-! ### Data -/

/-- The text of a float is its sign and digits around a point, and the library reads its amount
from them. -/
def ExactFloat (tables : Tables) (f : F64) (text : List Char) : Prop :=
  ∃ whole fraction, (whole ≠ [] ∧ ∀ c ∈ whole, c.isDigit = true) ∧
    (fraction ≠ [] ∧ ∀ c ∈ fraction, c.isDigit = true) ∧
    text = (if f.signBit then ['-'] else []) ++ (whole ++ '.' :: fraction) ∧
    tables.parseFloat (whole ++ '.' :: fraction) = some (if f.signBit then f.neg else f)

/-- The conversion between floats and texts is exact both ways. -/
structure ExactPrinting (tables : Tables) (printing : Printing) : Prop where
  fixed : ∀ f : F64, f.IsFiniteNumber → f.isIntegral = true →
    ExactFloat tables f (printing.fixed f)
  shortest : ∀ f : F64, f.IsFiniteNumber → f.isIntegral = false →
    ExactFloat tables f (printing.shortest f)

/-- Data: atoms that are no symbols or functions, lists and dictionaries of them. -/
inductive IsData (tables : Tables) (fractions : Prop) : Value → Prop
  | int (n : Int64) : IsData tables fractions (.int n)
  | bigInt (n : Int) : IsData tables fractions (.bigInt n)
  | fraction (q : Rat) : fractions → IsData tables fractions (.fraction q)
  | float (f : F64) : f.IsFiniteNumber → IsData tables fractions (.float f)
  | char (c : Char) : IsData tables fractions (.char c)
  | tag (name : String) : tables.IsTagName name.toList → IsData tables fractions (.tag name)
  | bool (b : Bool) : IsData tables fractions (.bool b)
  | string (s : String) : IsData tables fractions (.string s)
  | intList (items : List Int64) : IsData tables fractions (.intList items)
  | intRange (range : IntRangeData) : IsData tables fractions (.intRange range)
  | floatList (items : List F64) : (∀ f ∈ items, f.IsFiniteNumber) →
    IsData tables fractions (.floatList items)
  | boolList (items : List Bool) : IsData tables fractions (.boolList items)
  | list (items : List Value) : (∀ v ∈ items, IsData tables fractions v) →
    IsData tables fractions (.list items)
  | dict (entries : List (String × Value)) :
    (∀ e ∈ entries, tables.IsTagName e.1.toList) → (entries.map Prod.fst).Nodup →
    (∀ e ∈ entries, IsData tables fractions e.2) → IsData tables fractions (.dict entries)

section Reading

variable {E : Type} (tables : Tables) (forms : Forms E) (evaluator : Evaluator E)

/-- The value of a text: its tokens, their node, and what this is evaluated to. -/
def readText (fuel : Nat) (text : List Char) : Option Value :=
  match tables.tokenTypes (Lex.Lexer.new text) with
  | .ok ts => do
    let node ← parseProgram forms fuel [] ts
    match (eval evaluator node).run with
    | some (.ok v) => some v
    | _ => none
  | .error _ => none

/-- The text is read as tokens, these are parsed as a node that begins in this way, and this
is evaluated to the value. -/
structure Shows (parse : Nat → Tokens → Option (Parsed E)) (opens : TokenType → Bool)
    (text : List Char) (ts : Tokens) (node : AstNode E) (w : Value) : Prop where
  lexes : tables.Lexes text ts
  begins : Lex.Begins text
  reads : Reads parse ts node
  opens : Opens opens ts
  notNamed : isNamedArg node = false
  notKeyed : ∀ name rest, ts ≠ .tag name :: .colon :: rest
  evaluates : eval evaluator node = pure w

/-- The text of a value that can stand behind a leading comma. -/
def IsOperand (text : List Char) (w : Value) : Prop :=
  ∃ ts node, Shows tables evaluator (parseComparison forms) opensItem text ts node w

/-- The text of a value. -/
def IsText (text : List Char) (w : Value) : Prop :=
  ∃ ts node, Shows tables evaluator (parseComma forms) opensValue text ts node w

variable {tables forms evaluator} {text : List Char} {v w : Value}

theorem IsOperand.isText (h : IsOperand tables forms evaluator text w) :
    IsText tables forms evaluator text w := by
  obtain ⟨ts, node, h⟩ := h
  exact ⟨ts, node, { h with reads := h.reads.toComma h.opens, opens := h.opens.value }⟩

/-- A list of one item. -/
theorem IsOperand.comma (h : IsOperand tables forms evaluator text w) :
    IsText tables forms evaluator (',' :: text) (Value.fromItems [w]) := by
  obtain ⟨ts, node, h⟩ := h
  refine ⟨.comma :: ts, .list [node], ?_⟩
  exact
    { lexes := h.lexes.comma h.begins
      begins := ⟨',', text, rfl, by decide⟩
      reads := h.reads.leadingComma h.opens
      opens := ⟨.comma, ts, rfl, rfl⟩
      notNamed := rfl
      notKeyed := fun name rest heq => by cases heq
      evaluates := eval_list (.cons h.evaluates .nil) }

theorem Reads.ofUnary {ts : Tokens} {node : AstNode E} (h : Reads (parseUnary forms) ts node) :
    Reads (parseComparison forms) ts node :=
  h.toRange.toMultiplicative.toAdditive.toComparison

theorem Reads.ofPrimary {ts : Tokens} {node : AstNode E}
    (h : Reads (parsePrimary forms) ts node) (hopens : Opens opensOperand ts) :
    Reads (parseComparison forms) ts node :=
  (h.toPostfix.toPower.toUnary hopens).ofUnary

/-! ### Atoms -/

/-- A literal of one token. -/
theorem IsOperand.literal {t : TokenType} (hlexes : tables.Lexes text [t])
    (hbegins : Lex.Begins text) (hliteral : literal? t = some v) :
    IsOperand tables forms evaluator text v :=
  ⟨[t], .literal v,
    { lexes := hlexes
      begins := hbegins
      reads := (Reads.literal hliteral).ofPrimary (opens_literal hliteral)
      opens := (opens_literal hliteral).item
      notNamed := rfl
      notKeyed := fun name rest heq => by cases heq
      evaluates := eval_literal v }⟩

/-- A minus and a literal. -/
theorem IsOperand.negative {t : TokenType} (hlexes : tables.Lexes text [t])
    (hbegins : Lex.Begins text) (hliteral : literal? t = some v)
    (hnamed : isNamedArg (negateNode (.literal v : AstNode E)) = false)
    (heval : eval evaluator (negateNode (.literal v)) = pure w) :
    IsOperand tables forms evaluator ('-' :: text) w :=
  ⟨[.minus, t], negateNode (.literal v),
    { lexes := hlexes.minus hbegins
      begins := ⟨'-', text, rfl, by decide⟩
      reads := ((Reads.literal hliteral).toPostfix.toPower.negate (opens_literal hliteral)).ofUnary
      opens := ⟨.minus, [t], rfl, rfl⟩
      notNamed := hnamed
      notKeyed := fun name rest heq => by cases heq
      evaluates := heval }⟩

theorem begins_digits {digits : List Char} (hne : digits ≠ [])
    (h : ∀ c ∈ digits, c.isDigit = true) (rest : List Char) : Lex.Begins (digits ++ rest) := by
  obtain ⟨c, digits, rfl⟩ := List.exists_cons_of_ne_nil hne
  refine ⟨c, digits ++ rest, rfl, ?_⟩
  rintro rfl
  cases h ':' List.mem_cons_self

theorem begins_nat (n : Nat) : Lex.Begins (Nat.toDigits 10 n) := by
  have h := begins_digits (@Nat.toDigits_ne_nil n 10)
    (fun c hc => Nat.isDigit_of_mem_toDigits (by decide) (by decide) hc) []
  rwa [List.append_nil] at h

theorem canon_int (m : Int64) : (Value.int m).canon = (Value.bigInt m.toInt).canon :=
  (Value.eq_iff _ _).mp (by simp [Value.eq, Value.eqAtom, ValueSeq.fromValue])

theorem literal?_integerToken (n : Nat) :
    InI64 n ∧ literal? (Lex.integerToken n) = some (.int (Int64.ofInt n)) ∨
      literal? (Lex.integerToken n) = some (.bigInt n) := by
  unfold Lex.integerToken
  by_cases hfits : InI64 n
  · rw [if_pos hfits]
    exact .inl ⟨hfits, rfl⟩
  · rw [if_neg hfits]
    exact .inr rfl

/-- An integer, whose sign is an operator of its text. -/
theorem isOperand_int (n : Int) :
    ∃ w, w.canon = (Value.bigInt n).canon ∧
      IsOperand tables forms evaluator (formatInt n) w := by
  have hlexes := @Tables.Lexes.nat tables n.natAbs
  have hbegins := begins_nat n.natAbs
  unfold formatInt
  by_cases hn : n < 0
  · have hneg : -(n.natAbs : Int) = n := by omega
    rw [if_pos hn, List.singleton_append]
    rcases literal?_integerToken n.natAbs with ⟨hfits, htoken⟩ | htoken
    · refine ⟨.int (-Int64.ofInt n.natAbs), ?_, .negative hlexes hbegins htoken rfl ?_⟩
      · have hvalue : (-Int64.ofInt n.natAbs).toInt = n := by
          rw [← Int64.ofInt_neg, hneg]
          exact Int64.toInt_ofInt_of_le (by have := hfits.2; omega) (by omega)
        rw [canon_int, hvalue]
      · exact eval_literal _
    · exact ⟨.bigInt (-n.natAbs), by rw [hneg],
        .negative hlexes hbegins htoken rfl (eval_negate_bigInt _)⟩
  · have habs : (n.natAbs : Int) = n := by omega
    rw [if_neg hn, List.nil_append]
    rcases literal?_integerToken n.natAbs with ⟨hfits, htoken⟩ | htoken
    · refine ⟨.int (Int64.ofInt n.natAbs), ?_, .literal hlexes hbegins htoken⟩
      rw [canon_int, Int64.toInt_ofInt_of_le hfits.1 hfits.2, habs]
    · exact ⟨.bigInt n.natAbs, by rw [habs], .literal hlexes hbegins htoken⟩

theorem isOperand_float {f : F64} (h : ExactFloat tables f text) :
    IsOperand tables forms evaluator text (.float f) := by
  obtain ⟨whole, fraction, ⟨hwhole, hdigits⟩, ⟨hfraction, hdigits'⟩, rfl, hparse⟩ := h
  have hlexes := Tables.Lexes.float hwhole hdigits hfraction hdigits' hparse
  have hbegins := begins_digits hwhole hdigits ('.' :: fraction)
  cases hsign : f.signBit with
  | true =>
    rw [if_pos hsign] at hlexes
    rw [if_pos rfl, List.singleton_append]
    refine .negative hlexes hbegins rfl rfl ?_
    rw [negateNode, F64.neg_neg]
    exact eval_literal _
  | false =>
    rw [if_neg (by rw [hsign]; exact Bool.false_ne_true)] at hlexes
    rw [if_neg Bool.false_ne_true, List.nil_append]
    exact .literal hlexes hbegins rfl

/-- A finite float is printed by the library. -/
theorem exactFloat_formatFloat {printing : Printing} (h : ExactPrinting tables printing) {f : F64}
    (hf : f.IsFiniteNumber) : ExactFloat tables f (printing.formatFloat f) := by
  obtain ⟨hnan, hinf⟩ := hf
  unfold Printing.formatFloat
  rw [if_neg (by simp [hinf]), if_neg (by simp [hinf]), if_neg (by simp [hnan])]
  cases hint : f.isIntegral with
  | true => exact h.fixed f ⟨hnan, hinf⟩ hint
  | false => exact h.shortest f ⟨hnan, hinf⟩ hint

theorem isOperand_bool (hT : tables.Standard) (b : Bool) :
    IsOperand tables forms evaluator (formatBool b) (.bool b) := by
  have hlexes := Tables.Lexes.bool hT b
  cases b with
  | true => exact .literal hlexes ⟨'T', [], rfl, by decide⟩ rfl
  | false => exact .literal hlexes ⟨'F', [], rfl, by decide⟩ rfl

theorem isOperand_tag (hT : tables.Standard) {name : String} (h : tables.IsTagName name.toList) :
    IsOperand tables forms evaluator (formatTag name) (.tag name) :=
  .literal (.tag hT h) ⟨backtick, name.toList, rfl, by decide⟩
    (congrArg (fun name => some (Value.tag name)) String.ofList_toList)

theorem isOperand_char (c : Char) :
    IsOperand tables forms evaluator (formatQuoted [c]) (.char c) :=
  .literal (.quoted (List.cons_ne_nil _ _)) ⟨'"', _, rfl, by decide⟩ rfl

/-- Several characters are a string. -/
theorem isOperand_quoted {cs : List Char} (hlen : cs.length ≠ 1) (hne : cs ≠ []) :
    IsOperand tables forms evaluator (formatQuoted cs) (Value.intoWqString cs) := by
  refine .literal (.quoted hne) ⟨'"', _, rfl, by decide⟩ ?_
  cases cs with
  | nil => exact absurd rfl hne
  | cons c cs =>
    cases cs with
    | nil => exact absurd rfl hlen
    | cons c' cs => rfl

/-! ### Lists and dictionaries -/

/-- What opens a parenthesis. -/
theorem IsOperand.ofParen {ts : Tokens} {node : AstNode E}
    (hlexes : tables.Lexes text (.leftParen :: ts)) (hbegins : Lex.Begins text)
    (hreads : Reads (parsePrimary forms) (.leftParen :: ts) node)
    (hnamed : isNamedArg node = false) (heval : eval evaluator node = pure w) :
    IsOperand tables forms evaluator text w :=
  ⟨.leftParen :: ts, node,
    { lexes := hlexes
      begins := hbegins
      reads := hreads.ofPrimary ⟨.leftParen, ts, rfl, rfl⟩
      opens := ⟨.leftParen, ts, rfl, rfl⟩
      notNamed := hnamed
      notKeyed := fun name rest heq => by cases heq
      evaluates := heval }⟩

theorem isOperand_empty :
    IsOperand tables forms evaluator ['(', ')'] (Value.fromItems []) := by
  have hlexes := @Tables.Lexes.parens tables [] [] .nil
  exact .ofParen hlexes ⟨'(', _, rfl, by decide⟩ .emptyList rfl (eval_list .nil)

theorem isOperand_emptyDict (hT : tables.Standard) :
    IsOperand tables forms evaluator ['(', backtick, ')'] (.dict []) := by
  have hlexes := @Tables.Lexes.parens tables [[backtick]] [[.backtick]]
    (.cons (.loneBacktick hT) .nil)
  exact .ofParen hlexes ⟨'(', _, rfl, by decide⟩ .emptyDict rfl (eval_dict .nil)

/-- Items behind each other, with their tokens and nodes. -/
theorem exists_items {texts : List (List Char)} {ws : List Value}
    (h : List.Forall₂ (IsText tables forms evaluator) texts ws) :
    ∃ (tss : List Tokens) (nodes : List (AstNode E)),
      List.Forall₂ tables.Lexes texts tss ∧ List.Forall₂ (IsItem forms) tss nodes ∧
        List.Forall₂ (fun node w => eval evaluator node = pure w) nodes ws := by
  induction h with
  | nil => exact ⟨[], [], .nil, .nil, .nil⟩
  | cons htext _ ih =>
    obtain ⟨tss, nodes, hlexes, hitems, hevals⟩ := ih
    obtain ⟨ts, node, h⟩ := htext
    exact ⟨ts :: tss, node :: nodes, .cons h.lexes hlexes,
      .cons ⟨h.reads.toAssignment true, h.opens, h.notNamed, h.notKeyed⟩ hitems,
      .cons h.evaluates hevals⟩

/-- A text in parentheses. -/
theorem IsText.group (h : IsText tables forms evaluator text w) :
    IsOperand tables forms evaluator (inParens [text]) w := by
  obtain ⟨ts, node, h⟩ := h
  have hlexes := Tables.Lexes.parens (.cons h.lexes .nil)
  have hitem : IsItem forms ts node :=
    ⟨h.reads.toAssignment true, h.opens, h.notNamed, h.notKeyed⟩
  have hreads := Reads.paren (.cons hitem .nil) (List.cons_ne_nil _ _) rfl
  exact .ofParen hlexes ⟨'(', _, rfl, by decide⟩ hreads rfl h.evaluates

/-- Several items in parentheses. -/
theorem isOperand_items {texts : List (List Char)} {ws : List Value}
    (h : List.Forall₂ (IsText tables forms evaluator) texts ws) (hlen : texts.length ≠ 1)
    (hne : texts ≠ []) :
    IsOperand tables forms evaluator (inParens texts) (Value.fromItems ws) := by
  obtain ⟨tss, nodes, hlexes, hitems, hevals⟩ := exists_items h
  have hnamed : ∀ node ∈ nodes, isNamedArg node = false := by
    clear hlexes hevals
    induction hitems with
    | nil => simp
    | cons hitem _ ih => exact List.forall_mem_cons.mpr ⟨hitem.notNamed, ih⟩
  have hnode := @parenNode_list E forms nodes
    (by rw [← hitems.length_eq, ← hlexes.length_eq]; exact hlen) hnamed
  have hne' : tss ≠ [] := by
    rintro rfl
    exact hne (List.forall₂_nil_right_iff.mp hlexes)
  exact .ofParen (.parens hlexes) ⟨'(', _, rfl, by decide⟩ (.paren hitems hne' hnode) rfl
    (eval_list hevals)

/-- A dictionary with entries. -/
theorem isOperand_entries (hT : tables.Standard) {shown : List (String × List Char)}
    {entries : List (String × Value)}
    (h : List.Forall₂ (fun s e => s.1 = e.1 ∧ tables.IsTagName s.1.toList ∧
      IsText tables forms evaluator s.2 e.2) shown entries)
    (hne : shown ≠ []) (hnodup : (entries.map Prod.fst).Nodup) :
    IsOperand tables forms evaluator (inParens (shown.map fun s => formatTag s.1 ++ ':' :: s.2))
      (.dict entries) := by
  obtain ⟨tss, pairs, hlexes, hentries, hevals⟩ : ∃ (tss : List Tokens)
      (pairs : List (List Char × AstNode E)),
      List.Forall₂ tables.Lexes (shown.map fun s => formatTag s.1 ++ ':' :: s.2) tss ∧
        List.Forall₂ (IsEntry forms) tss pairs ∧
          List.Forall₂ (fun p e => String.ofList p.1 = e.1 ∧ eval evaluator p.2 = pure e.2)
            pairs entries := by
    clear hne hnodup
    induction h with
    | nil => exact ⟨[], [], .nil, .nil, .nil⟩
    | @cons s e shown entries hs _ ih =>
      obtain ⟨tss, pairs, hlexes, hentries, hevals⟩ := ih
      obtain ⟨hkey, hname, ts, node, htext⟩ := hs
      refine ⟨(.tag s.1.toList :: .colon :: ts) :: tss, (s.1.toList, node) :: pairs, ?_, ?_, ?_⟩
      · exact .cons (.pair (.tag hT hname) htext.lexes) hlexes
      · exact .cons ⟨ts, rfl, htext.reads.toAssignment false⟩ hentries
      · exact .cons ⟨String.ofList_toList.trans hkey, htext.evaluates⟩ hevals
  have hne' : tss ≠ [] := by
    rintro rfl
    exact hne (List.map_eq_nil_iff.mp (List.forall₂_nil_right_iff.mp hlexes))
  have heval := eval_dict hevals
  rw [IndexMap.collect_of_nodup hnodup] at heval
  exact .ofParen (.parens hlexes) ⟨'(', _, rfl, by decide⟩ (.dict hentries hne') rfl heval

/-! ### Values -/

/-- The text is read as an equal value, and behind a comma if it needs no parentheses there. -/
def RoundTrips (tables : Tables) (forms : Forms E) (evaluator : Evaluator E)
    (printing : Printing) (v : Value) : Prop :=
  ∃ w, w.canon = v.canon ∧ IsText tables forms evaluator (v.display printing) w ∧
    (isNested v = false → IsOperand tables forms evaluator (v.display printing) w)

variable {printing : Printing}

theorem IsOperand.roundTrips (h : IsOperand tables forms evaluator (v.display printing) w)
    (hw : w.canon = v.canon) : RoundTrips tables forms evaluator printing v :=
  ⟨w, hw, h.isText, fun _ => h⟩

/-- Values chosen for each of the texts. -/
theorem exists_values {P : List Char → Value → Prop} {texts : List (List Char)}
    {xs : List Value}
    (h : List.Forall₂ (fun text x => ∃ w : Value, w.canon = x.canon ∧ P text w) texts xs) :
    ∃ ws, List.Forall₂ P texts ws ∧ Value.canonItems ws = Value.canonItems xs := by
  induction h with
  | nil => exact ⟨[], .nil, rfl⟩
  | cons hw _ ih =>
    obtain ⟨ws, hws, hcanon⟩ := ih
    obtain ⟨w, hw, hp⟩ := hw
    exact ⟨w :: ws, .cons hp hws, by rw [Value.canonItems, Value.canonItems, hw, hcanon]⟩

theorem isText_fmtSeq {texts : List (List Char)} {ws : List Value}
    (h : List.Forall₂ (IsOperand tables forms evaluator) texts ws) :
    IsText tables forms evaluator (fmtSeq texts) (Value.fromItems ws) := by
  cases h with
  | nil => exact isOperand_empty.isText
  | cons hfirst hrest =>
    cases hrest with
    | nil => exact hfirst.comma
    | cons hsecond hrest =>
      refine (isOperand_items (.cons hfirst.isText (.cons hsecond.isText ?_)) ?_ ?_).isText
      · exact hrest.imp fun _ _ h => h.isText
      · simp
      · exact List.cons_ne_nil _ _

/-- A packed list of atoms. -/
theorem roundTrips_packed (seq : ValueSeq) {texts : List (List Char)}
    (hseq : ValueSeq.fromValue v = some seq) (hdisplay : v.display printing = fmtSeq texts)
    (hnested : isNested v = !v.isUnit)
    (h : List.Forall₂ (fun text x => ∃ w : Value, w.canon = x.canon ∧
      IsOperand tables forms evaluator text w) texts seq.values) :
    RoundTrips tables forms evaluator printing v := by
  have hempty : isNested v = false → texts = [] := by
    intro hv
    have hunit : v.isUnit = true := by simpa [hnested] using hv
    have hlen : v.len = 0 := by simpa using (Bool.and_eq_true_iff.mp hunit).2
    have hseqlen : seq.len = v.len := by
      unfold Value.len
      simp only [hseq]
    exact List.eq_nil_of_length_eq_zero (by rw [h.length_eq, ValueSeq.length_values, hseqlen, hlen])
  obtain ⟨ws, hws, hcanon⟩ := exists_values h
  refine ⟨Value.fromItems ws, ?_, ?_, fun hv => ?_⟩
  · rw [Comma.canon_fromItems, hcanon, Value.canon_of_fromValue hseq]
  · rw [hdisplay]
    exact isText_fmtSeq hws
  · obtain rfl := hempty hv
    cases hws
    rw [hdisplay]
    exact isOperand_empty

theorem canon_intoWqString (cs : List Char) :
    (Value.intoWqString cs).canon = .list (Value.canonItems (cs.map .char)) := by
  rw [@Value.canon_of_fromValue _ (.string (String.ofList cs)) rfl, ValueSeq.values,
    String.toList_ofList]

/-- Characters, whatever their storage. -/
theorem exists_fmtChars (cs : List Char) :
    ∃ w : Value, w.canon = .list (Value.canonItems (cs.map .char)) ∧
      IsText tables forms evaluator (fmtChars cs) w ∧
        (cs.length ≠ 1 → IsOperand tables forms evaluator (fmtChars cs) w) := by
  unfold fmtChars
  by_cases hne : cs = []
  · subst hne
    rw [if_pos rfl]
    exact ⟨_, Comma.canon_fromItems [], isOperand_empty.isText, fun _ => isOperand_empty⟩
  · rw [if_neg hne]
    by_cases hlen : cs.length = 1
    · obtain ⟨c, rfl⟩ := List.length_eq_one_iff.mp hlen
      rw [if_pos hlen]
      exact ⟨_, Comma.canon_fromItems [.char c], (isOperand_char c).comma, fun h => absurd rfl h⟩
    · rw [if_neg hlen]
      have hquoted := @isOperand_quoted E tables forms evaluator cs hlen hne
      exact ⟨_, canon_intoWqString cs, hquoted.isText, fun _ => hquoted⟩

theorem charItems_map (cs : List Char) : charItems (cs.map .char) = cs := by
  induction cs with
  | nil => rfl
  | cons c cs ih =>
    unfold charItems at ih ⊢
    rw [List.map_cons, List.filterMap_cons]
    exact congrArg (List.cons c) ih

theorem fmtList_chars (cs : List Char) (texts : List (List Char)) :
    fmtList (cs.map .char) texts = fmtChars cs := by
  have hall : (cs.map Value.char).all Value.isChar = true := List.all_eq_true.mpr fun v hv => by
    obtain ⟨c, -, rfl⟩ := List.mem_map.mp hv
    rfl
  cases cs with
  | nil => rfl
  | cons c cs =>
    unfold fmtList
    rw [if_neg (by simp), if_pos hall, charItems_map]

theorem fmtList_single {item : Value} (text : List Char) (hitem : item.isChar = false) :
    fmtList [item] [text] = if isNested item then ',' :: inParens [text] else ',' :: text := by
  unfold fmtList
  rw [if_neg (by simp), if_neg (by simp [hitem])]

theorem fmtList_many {item item' : Value} {items : List Value} {texts : List (List Char)}
    (hchars : ¬(item :: item' :: items).all Value.isChar = true) :
    fmtList (item :: item' :: items) texts = inParens texts := by
  unfold fmtList
  rw [if_neg (by simp), if_neg hchars]

theorem isNested_list (items : List Value) : isNested (.list items) = false → items = [] := by
  intro h
  simpa [isNested, Value.isUnit, Value.isList, Value.len, ValueSeq.fromValue, ValueSeq.len] using h

/-- A general list of values that round-trip. -/
theorem roundTrips_list {items : List Value}
    (h : ∀ v ∈ items, RoundTrips tables forms evaluator printing v) :
    RoundTrips tables forms evaluator printing (.list items) := by
  unfold RoundTrips
  rw [display_list, Value.canon]
  by_cases hchars : items.all Value.isChar = true
  · obtain ⟨cs, rfl⟩ := Value.exists_chars (List.all_eq_true.mp hchars)
    rw [fmtList_chars]
    obtain ⟨w, hw, htext, hoperand⟩ := @exists_fmtChars E tables forms evaluator cs
    refine ⟨w, hw, htext, fun hv => hoperand ?_⟩
    rw [List.map_eq_nil_iff.mp (isNested_list _ hv)]
    exact Nat.zero_ne_one
  · cases items with
    | nil => exact absurd rfl hchars
    | cons item items =>
      cases items with
      | nil =>
        obtain ⟨w, hw, htext, hoperand⟩ := h item (List.mem_singleton_self item)
        have hitem : item.isChar = false := by simpa using hchars
        refine ⟨Value.fromItems [w], ?_, ?_, fun hv => absurd (isNested_list _ hv) (by simp)⟩
        · rw [Comma.canon_fromItems, Value.canonItems, Value.canonItems, hw]
          rfl
        · rw [List.map_singleton, fmtList_single _ hitem]
          by_cases hnested : isNested item = true
          · rw [if_pos hnested]
            exact htext.group.comma
          · rw [if_neg hnested]
            exact (hoperand (Bool.eq_false_iff.mpr hnested)).comma
      | cons item' items =>
        have hall : List.Forall₂ (fun text x => ∃ w : Value, w.canon = x.canon ∧
            IsText tables forms evaluator text w)
            ((item :: item' :: items).map (Value.display printing)) (item :: item' :: items) := by
          rw [List.forall₂_map_left_iff, List.forall₂_same]
          intro x hx
          obtain ⟨w, hw, htext, -⟩ := h x hx
          exact ⟨w, hw, htext⟩
        obtain ⟨ws, hws, hcanon⟩ := exists_values hall
        have hparens := isOperand_items hws (by simp) (by simp)
        rw [fmtList_many hchars]
        exact ⟨Value.fromItems ws, by rw [Comma.canon_fromItems, hcanon], hparens.isText,
          fun hv => absurd (isNested_list _ hv) (by simp)⟩

/-- A dictionary of values that round-trip. -/
theorem roundTrips_dict (hT : tables.Standard) {entries : List (String × Value)}
    (hkeys : ∀ e ∈ entries, tables.IsTagName e.1.toList) (hnodup : (entries.map Prod.fst).Nodup)
    (h : ∀ e ∈ entries, RoundTrips tables forms evaluator printing e.2) :
    RoundTrips tables forms evaluator printing (.dict entries) := by
  by_cases hempty : entries = []
  · subst hempty
    refine IsOperand.roundTrips (w := .dict []) ?_ rfl
    exact isOperand_emptyDict hT
  · obtain ⟨shown, hshown⟩ : ∃ ws : List (String × Value),
        List.Forall₂ (fun s e => s.1 = e.1 ∧ tables.IsTagName s.1.toList ∧
          IsText tables forms evaluator s.2 e.2)
          (entries.map fun e => (e.1, e.2.display printing)) ws ∧
        ws.map Prod.fst = entries.map Prod.fst ∧
        Value.canonEntries ws = Value.canonEntries entries := by
      clear hempty hnodup
      induction entries with
      | nil => exact ⟨[], .nil, rfl, rfl⟩
      | cons e entries ih =>
        obtain ⟨ws, hws, hkeys', hcanon⟩ := ih
          (fun x hx => hkeys x (List.mem_cons_of_mem e hx))
          (fun x hx => h x (List.mem_cons_of_mem e hx))
        obtain ⟨w, hw, htext, -⟩ := h e List.mem_cons_self
        refine ⟨(e.1, w) :: ws, .cons ⟨rfl, hkeys e List.mem_cons_self, htext⟩ hws, ?_, ?_⟩
        · rw [List.map_cons, List.map_cons, hkeys']
        · obtain ⟨k, v⟩ := e
          rw [Value.canonEntries, Value.canonEntries, hw, hcanon]
    obtain ⟨hall, hkeys', hcanon⟩ := hshown
    have hdict := isOperand_entries hT hall (by simpa using hempty) (hkeys' ▸ hnodup)
    refine IsOperand.roundTrips (w := .dict shown) ?_ ?_
    · rw [display_dict, fmtDict, if_neg (by simpa using hempty)]
      rw [List.map_map] at hdict
      exact hdict
    · rw [Value.canon, Value.canon, hcanon]

/-- **Induction along the data.** -/
theorem roundTrips (hT : tables.Standard) (hP : ExactPrinting tables printing)
    (hv : IsData tables False v) : RoundTrips tables forms evaluator printing v := by
  have hint : ∀ n : Int64, ∃ w : Value, w.canon = (Value.int n).canon ∧
      IsOperand tables forms evaluator (formatInt n.toInt) w := fun n => by
    rw [canon_int]
    exact isOperand_int n.toInt
  induction hv with
  | int n =>
    obtain ⟨w, hw, h⟩ := hint n
    exact IsOperand.roundTrips (v := .int n) h hw
  | bigInt n =>
    obtain ⟨w, hw, h⟩ := @isOperand_int E tables forms evaluator n
    exact IsOperand.roundTrips (v := .bigInt n) h hw
  | fraction q h => exact h.elim
  | float f hf =>
    exact IsOperand.roundTrips (v := .float f) (isOperand_float (exactFloat_formatFloat hP hf)) rfl
  | char c => exact IsOperand.roundTrips (v := .char c) (isOperand_char c) rfl
  | tag name hname => exact IsOperand.roundTrips (v := .tag name) (isOperand_tag hT hname) rfl
  | bool b => exact IsOperand.roundTrips (v := .bool b) (isOperand_bool hT b) rfl
  | string s =>
    obtain ⟨w, hw, htext, hoperand⟩ := @exists_fmtChars E tables forms evaluator s.toList
    refine ⟨w, hw.trans ?_, htext, fun hnested => hoperand ?_⟩
    · rw [Value.canon_of_fromValue (v := .string s) rfl, ValueSeq.values]
    · simpa [isNested] using hnested
  | intList items =>
    refine roundTrips_packed (.intList items) rfl rfl rfl ?_
    rw [ValueSeq.values, List.forall₂_map_left_iff, List.forall₂_map_right_iff, List.forall₂_same]
    exact fun n _ => hint n
  | intRange range =>
    refine roundTrips_packed (.intRange range) rfl rfl rfl ?_
    rw [ValueSeq.values, List.forall₂_map_left_iff, List.forall₂_map_right_iff, List.forall₂_same]
    exact fun n _ => hint n
  | floatList items hitems =>
    refine roundTrips_packed (.floatList items) rfl rfl rfl ?_
    rw [ValueSeq.values, List.forall₂_map_left_iff, List.forall₂_map_right_iff, List.forall₂_same]
    exact fun f hf => ⟨_, rfl, isOperand_float (exactFloat_formatFloat hP (hitems f hf))⟩
  | boolList items =>
    refine roundTrips_packed (.boolList items) rfl rfl rfl ?_
    rw [ValueSeq.values, List.forall₂_map_left_iff, List.forall₂_map_right_iff, List.forall₂_same]
    exact fun b _ => ⟨_, rfl, isOperand_bool hT b⟩
  | list items _ ih => exact roundTrips_list ih
  | dict entries hkeys hnodup _ ih => exact roundTrips_dict hT hkeys hnodup ih

/-! ### Reading -/

/-- A program that is one item. -/
theorem parseProgram_item {ts : Tokens} {node : AstNode E}
    (h : Reads (parseComma forms) ts node) (hopens : Opens opensValue ts) :
    ∃ n, ∀ m ≥ n, parseProgram forms m [] (ts ++ [.eof]) = some node := by
  obtain ⟨n, hreads⟩ := h.toAssignment false
  refine ⟨n + 2, fun m hm => ?_⟩
  obtain ⟨k, rfl⟩ : ∃ k, m = k + 2 := ⟨m - 2, by omega⟩
  have hread : parseAssignment forms (k + 1) false (ts ++ [.eof]) = some (node, [.eof]) :=
    hreads (k + 1) (by omega) .eof [] (.inr (.inr rfl))
  have hstatement : parseProgram forms (k + 2) [] (ts ++ [.eof]) =
      (parseAssignment forms (k + 1) false (ts ++ [.eof])).bind fun p =>
        parseProgram forms (k + 1) [p.1] p.2 := by
    obtain ⟨t, ts, rfl, ht⟩ := hopens
    cases t <;> first | rfl | cases ht
  rw [hstatement, hread]
  rfl

theorem readText_isText (h : IsText tables forms evaluator text w) :
    ∃ n, ∀ m ≥ n, readText tables forms evaluator m text = some w := by
  obtain ⟨ts, node, h⟩ := h
  obtain ⟨n, hprogram⟩ := parseProgram_item h.reads h.opens
  refine ⟨n, fun m hm => ?_⟩
  obtain ⟨l, hl, htypes⟩ := h.lexes (Lex.Lexer.new text) [] (List.append_nil text).symm .nil
  rw [Lex.tokenTypes_end hl] at htypes
  have htokens : tables.tokenTypes (Lex.Lexer.new text) = .ok (ts ++ [.eof]) := htypes
  unfold readText
  rw [htokens]
  show (parseProgram forms m [] (ts ++ [.eof]) >>= fun node =>
    match (eval evaluator node).run with
    | some (.ok v) => some v
    | _ => none) = some w
  rw [hprogram m hm]
  show (match (eval evaluator node).run with
    | some (.ok v) => some v
    | _ => none) = some w
  rw [h.evaluates]
  rfl

end Reading

/-- A grammar of data alone. -/
def dataForms : Forms Empty where
  primary _ := none
  suffix _ _ := none
  pipe _ _ := none
  assign _ _ _ := none
  unpackPattern _ := none
  dictPattern _ := none
  nextLine _ := none

def dataEvaluator : Evaluator Empty where
  numbers := .inert
  binary _ _ _ := throw .domain
  other _ := throw .domain

def half : F64 := ⟨0x3fe0000000000000#64⟩

/-- A half as it is printed, and the bits of other floats in digits. -/
def halfText (f : F64) : List Char :=
  (if f.signBit then ['-'] else []) ++
    if f = half ∨ f = half.neg then ['0', '.', '5']
    else Nat.toDigits 10 (f.bits.toNat % 2 ^ 63) ++ ['.', '0']

def halfPrinting : Printing := ⟨halfText, halfText, fun _ => []⟩

def halfTables : Tables :=
  { Lex.asciiTables with
    parseFloat := fun text =>
      if text = ['0', '.', '5'] then some half
      else some ⟨BitVec.ofNat 64 (Lex.ofDigits 10 (text.takeWhile Char.isDigit))⟩ }

theorem standard_halfTables : halfTables.Standard where
  start _ h := h
  continue_ _ _ h := .inl h
  nfc _ _ := rfl

/-- The bits without the sign. -/
theorem magnitude_eq (f : F64) :
    (⟨BitVec.ofNat 64 (f.bits.toNat % 2 ^ 63)⟩ : F64) = if f.signBit then f.neg else f := by
  have hlt := f.bits.isLt
  have hsign : f.signBit = decide (2 ^ 63 ≤ f.bits.toNat) := by
    rw [F64.signBit, BitVec.msb_eq_decide]
  have hbits : BitVec.ofNat 64 (f.bits.toNat % 2 ^ 63) =
      if f.signBit then f.bits + BitVec.ofNat 64 (2 ^ 63) else f.bits := by
    rw [hsign]
    by_cases hge : 2 ^ 63 ≤ f.bits.toNat
    · rw [if_pos (decide_eq_true hge)]
      bv_omega
    · rw [if_neg (by simpa using hge)]
      bv_omega
  rw [hbits]
  cases f.signBit <;> rfl

theorem exactFloat_half (f : F64) : ExactFloat halfTables f (halfText f) := by
  unfold halfText
  by_cases hhalf : f = half ∨ f = half.neg
  · rw [if_pos hhalf]
    refine ⟨['0'], ['5'], ⟨List.cons_ne_nil _ _, List.forall_mem_singleton.mpr rfl⟩,
      ⟨List.cons_ne_nil _ _, List.forall_mem_singleton.mpr rfl⟩, rfl, ?_⟩
    show some half = _
    rcases hhalf with rfl | rfl
    · rfl
    · rw [if_pos (by decide), F64.neg_neg]
  · rw [if_neg hhalf]
    have hdigits : ∀ c ∈ Nat.toDigits 10 (f.bits.toNat % 2 ^ 63), c.isDigit = true := fun c hc =>
      Nat.isDigit_of_mem_toDigits (by decide) (by decide) hc
    refine ⟨_, ['0'], ⟨Nat.toDigits_ne_nil, hdigits⟩,
      ⟨List.cons_ne_nil _ _, List.forall_mem_singleton.mpr rfl⟩, rfl, ?_⟩
    have hne : Nat.toDigits 10 (f.bits.toNat % 2 ^ 63) ++ ['.', '0'] ≠ ['0', '.', '5'] := by
      intro heq
      have hlast := congrArg List.getLast? heq
      simp at hlast
    have htake : (Nat.toDigits 10 (f.bits.toNat % 2 ^ 63) ++ ['.', '0']).takeWhile Char.isDigit =
        Nat.toDigits 10 (f.bits.toNat % 2 ^ 63) := by
      rw [List.takeWhile_append_of_pos hdigits]
      exact List.append_nil _
    show (if _ then some half else some _) = _
    rw [if_neg hne, htake, Lex.ofDigits_toDigits, magnitude_eq]

theorem exactPrinting_half : ExactPrinting halfTables halfPrinting :=
  ⟨fun f _ _ => exactFloat_half f, fun f _ _ => exactFloat_half f⟩

/-- The smallest integer, one string in a list, a negative half and an empty list under a key. -/
def mixedData : Value :=
  .list [.int (-9223372036854775808), .list [.string "c"], .float half.neg,
    .dict [("k", .list []), ("t", .tag "k")]]

theorem isData_mixedData : IsData halfTables False mixedData := by
  have hk : halfTables.IsTagName ['k'] := ⟨⟨'k', [], rfl, by decide, by simp⟩, rfl⟩
  have ht : halfTables.IsTagName ['t'] := ⟨⟨'t', [], rfl, by decide, by simp⟩, rfl⟩
  refine .list _ (List.forall_mem_cons.mpr ⟨.int _, List.forall_mem_cons.mpr ⟨.list _ ?_,
    List.forall_mem_cons.mpr ⟨.float _ ⟨by decide, by decide⟩, List.forall_mem_singleton.mpr ?_⟩⟩⟩)
  · exact List.forall_mem_singleton.mpr (.string "c")
  · refine .dict _ (List.forall_mem_cons.mpr ⟨hk, List.forall_mem_singleton.mpr ht⟩) (by decide)
      (List.forall_mem_cons.mpr ⟨.list _ (by simp), List.forall_mem_singleton.mpr (.tag "k" hk)⟩)

end Parser
end Wqpl
