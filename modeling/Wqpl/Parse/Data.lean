/-
# Parsing data

How the parser reads literals, negative numbers, lists and dictionaries of
these. A function of the parser reads some tokens as a node (`Reads`) when, with
enough fuel, it takes exactly these before every token that ends an item. The
node goes up from one precedence to the next because no operator stands there.
-/
import Wqpl.Parse.Expression

namespace Wqpl
namespace Parser

open Wqpl.Lex (TokenType)

variable {E : Type} {forms : Forms E} {ts : Tokens} {e : AstNode E}

/-- What stands behind an item. -/
def IsStop (t : TokenType) : Prop := t = .semicolon ∨ t = .rightParen ∨ t = .eof

/-- With enough fuel, the function reads these tokens as the node. -/
def Reads (parse : Nat → Tokens → Option (Parsed E)) (ts : Tokens) (e : AstNode E) : Prop :=
  ∃ n, ∀ m ≥ n, ∀ t rest, IsStop t → parse m (ts ++ t :: rest) = some (e, t :: rest)

/-! ### From one precedence to the next -/

/-- The first token of a literal without a sign or of parentheses. -/
def opensOperand : TokenType → Bool
  | .integer _ | .bigInteger _ | .float _ | .character _ | .string _ | .tag _ | .true_ | .false_
  | .leftParen => true
  | _ => false

/-- The first token of what no comma leads. -/
def opensItem : TokenType → Bool
  | .minus => true
  | t => opensOperand t

/-- The tokens begin like this. -/
def Opens (p : TokenType → Bool) (ts : Tokens) : Prop := ∃ t rest, ts = t :: rest ∧ p t = true

theorem Opens.goesOn {rest : Tokens} (h : Opens opensItem ts) : goesOn (ts ++ rest) = true := by
  obtain ⟨t, ts, rfl, ht⟩ := h
  cases t <;> first | rfl | cases ht

theorem Opens.eatTrivia {rest : Tokens} (h : Opens opensItem ts) :
    eatTrivia (ts ++ rest) = ts ++ rest := by
  obtain ⟨t, ts, rfl, ht⟩ := h
  cases t <;> first | rfl | cases ht

theorem Opens.startsLeadingComma {rest : Tokens} (h : Opens opensItem ts) :
    startsLeadingComma (ts ++ rest) = false := by
  obtain ⟨t, ts, rfl, ht⟩ := h
  cases t <;> first | rfl | cases ht

theorem Opens.item (h : Opens opensOperand ts) : Opens opensItem ts := by
  obtain ⟨t, rest, rfl, ht⟩ := h
  refine ⟨t, rest, rfl, ?_⟩
  cases t <;> first | rfl | exact ht

theorem Opens.unaryPrefix {rest : Tokens} (h : Opens opensOperand ts) (negative : Bool)
    (ops : List UnaryOperator) :
    unaryPrefix negative ops (ts ++ rest) = (negative, ops, ts ++ rest) := by
  obtain ⟨t, ts, rfl, ht⟩ := h
  rw [List.cons_append]
  cases hgoes : Parser.goesOn (ts ++ rest) <;> cases t <;>
    first | (simp [Parser.unaryPrefix, hgoes]; done) | cases ht

namespace Reads

theorem succ {parse : Nat → Tokens → Option (Parsed E)} {n : Nat}
    (h : ∀ k ≥ n, ∀ t rest, IsStop t → parse (k + 1) (ts ++ t :: rest) = some (e, t :: rest)) :
    Reads parse ts e := by
  refine ⟨n + 1, fun m hm t rest ht => ?_⟩
  obtain ⟨k, rfl⟩ : ∃ k, m = k + 1 := ⟨m - 1, by omega⟩
  exact h k (by omega) t rest ht

theorem toPostfix (h : Reads (parsePrimary forms) ts e) : Reads (parsePostfix forms) ts e := by
  obtain ⟨n, h⟩ := h
  refine @succ E ts e _ (n + 1) fun k hk t rest ht => ?_
  obtain ⟨j, rfl⟩ : ∃ j, k = j + 1 := ⟨k - 1, by omega⟩
  rw [parsePostfix, h (j + 1) (by omega) t rest ht]
  rcases ht with rfl | rfl | rfl <;> rfl

theorem toPower (h : Reads (parsePostfix forms) ts e) : Reads (parsePower forms) ts e := by
  obtain ⟨n, h⟩ := h
  refine @succ E ts e _ (n + 1) fun k hk t rest ht => ?_
  obtain ⟨j, rfl⟩ : ∃ j, k = j + 1 := ⟨k - 1, by omega⟩
  rw [parsePower, h (j + 1) (by omega) t rest ht]
  rcases ht with rfl | rfl | rfl <;> rfl

theorem toUnary (h : Reads (parsePower forms) ts e) (hopens : Opens opensOperand ts) :
    Reads (parseUnary forms) ts e := by
  obtain ⟨n, h⟩ := h
  refine @succ E ts e _ n fun k hk t rest ht => ?_
  rw [parseUnary, hopens.unaryPrefix]
  dsimp only
  rw [if_neg (by rw [hopens.item.startsLeadingComma]; exact Bool.false_ne_true), h k hk t rest ht]
  rfl

/-- A minus before an operand. -/
theorem negate (h : Reads (parsePower forms) ts e) (hopens : Opens opensOperand ts) :
    Reads (parseUnary forms) (.minus :: ts) (negateNode e) := by
  obtain ⟨n, h⟩ := h
  refine @succ E _ _ _ n fun k hk t rest ht => ?_
  rw [List.cons_append, parseUnary, Parser.unaryPrefix, if_pos hopens.item.goesOn]
  dsimp only
  rw [hopens.unaryPrefix]
  dsimp only
  rw [if_neg (by rw [hopens.item.startsLeadingComma]; exact Bool.false_ne_true), h k hk t rest ht]
  rfl

theorem toRange (h : Reads (parseUnary forms) ts e) : Reads (parseRange forms) ts e := by
  obtain ⟨n, h⟩ := h
  refine @succ E ts e _ n fun k hk t rest ht => ?_
  rw [parseRange, h k hk t rest ht]
  rcases ht with rfl | rfl | rfl <;> rfl

theorem toMultiplicative (h : Reads (parseRange forms) ts e) :
    Reads (parseMultiplicative forms) ts e := by
  obtain ⟨n, h⟩ := h
  refine @succ E ts e _ (n + 1) fun k hk t rest ht => ?_
  obtain ⟨j, rfl⟩ : ∃ j, k = j + 1 := ⟨k - 1, by omega⟩
  rw [parseMultiplicative, h (j + 1) (by omega) t rest ht]
  rcases ht with rfl | rfl | rfl <;> rfl

theorem toAdditive (h : Reads (parseMultiplicative forms) ts e) :
    Reads (parseAdditive forms) ts e := by
  obtain ⟨n, h⟩ := h
  refine @succ E ts e _ (n + 1) fun k hk t rest ht => ?_
  obtain ⟨j, rfl⟩ : ∃ j, k = j + 1 := ⟨k - 1, by omega⟩
  rw [parseAdditive, h (j + 1) (by omega) t rest ht]
  rcases ht with rfl | rfl | rfl <;> rfl

theorem toComparison (h : Reads (parseAdditive forms) ts e) :
    Reads (parseComparison forms) ts e := by
  obtain ⟨n, h⟩ := h
  refine @succ E ts e _ (n + 1) fun k hk t rest ht => ?_
  obtain ⟨j, rfl⟩ : ∃ j, k = j + 1 := ⟨k - 1, by omega⟩
  rw [parseComparison, h (j + 1) (by omega) t rest ht]
  rcases ht with rfl | rfl | rfl <;> rfl

theorem toComma (h : Reads (parseComparison forms) ts e) (hopens : Opens opensItem ts) :
    Reads (parseComma forms) ts e := by
  obtain ⟨n, h⟩ := h
  refine @succ E ts e _ (n + 1) fun k hk t rest ht => ?_
  obtain ⟨j, rfl⟩ : ∃ j, k = j + 1 := ⟨k - 1, by omega⟩
  rw [parseComma, if_neg (by rw [hopens.startsLeadingComma]; exact Bool.false_ne_true),
    h (j + 1) (by omega) t rest ht]
  rcases ht with rfl | rfl | rfl <;> rfl

/-- A list of one item. -/
theorem leadingComma (h : Reads (parseComparison forms) ts e) (hopens : Opens opensItem ts) :
    Reads (parseComma forms) (.comma :: ts) (.list [e]) := by
  obtain ⟨n, h⟩ := h
  refine @succ E _ _ _ (n + 2) fun k hk t rest ht => ?_
  obtain ⟨j, rfl⟩ : ∃ j, k = j + 2 := ⟨k - 2, by omega⟩
  have hleading : Parser.startsLeadingComma (.comma :: (ts ++ t :: rest)) = true := hopens.goesOn
  have hitems : parseCommaItems forms (j + 2) [] (.comma :: (ts ++ t :: rest)) =
      some ([e], t :: rest) := by
    rw [parseCommaItems, if_pos hleading, List.tail_cons, hopens.eatTrivia,
      h (j + 1) (by omega) t rest ht]
    rcases ht with rfl | rfl | rfl <;> rfl
  rw [List.cons_append, parseComma, if_pos hleading, hitems]
  rfl

theorem toAssignment (h : Reads (parseComma forms) ts e) (allowNamedArg : Bool) :
    Reads (fun n => parseAssignment forms n allowNamedArg) ts e := by
  obtain ⟨n, h⟩ := h
  refine @succ E ts e _ (n + 1) fun k hk t rest ht => ?_
  obtain ⟨j, rfl⟩ : ∃ j, k = j + 1 := ⟨k - 1, by omega⟩
  have hpipe : parsePipe forms (j + 1) (ts ++ t :: rest) = some (e, t :: rest) := by
    rw [parsePipe, h j (by omega) t rest ht]
    rcases ht with rfl | rfl | rfl <;> rfl
  rw [parseAssignment, hpipe]
  rcases ht with rfl | rfl | rfl <;> rfl

end Reads

/-! ### Parentheses -/

/-- The first token of the text of a value. -/
def opensValue : TokenType → Bool
  | .comma => true
  | t => opensItem t

theorem Opens.value (h : Opens opensItem ts) : Opens opensValue ts := by
  obtain ⟨t, rest, rfl, ht⟩ := h
  refine ⟨t, rest, rfl, ?_⟩
  cases t <;> first | rfl | exact ht

/-- An item between the separators of a list. -/
structure IsItem (forms : Forms E) (ts : Tokens) (e : AstNode E) : Prop where
  reads : Reads (fun n => parseAssignment forms n true) ts e
  opens : Opens opensValue ts
  notNamed : isNamedArg e = false
  /-- It is not the beginning of a dictionary. -/
  notKeyed : ∀ name rest, ts ≠ .tag name :: .colon :: rest

/-- An entry of a dictionary. -/
def IsEntry (forms : Forms E) (ts : Tokens) (pair : List Char × AstNode E) : Prop :=
  ∃ us, ts = .tag pair.1 :: .colon :: us ∧
    Reads (fun n => parseAssignment forms n false) us pair.2

theorem eatTrivia_opens {rest : Tokens} (h : Opens opensValue ts) :
    eatTrivia (ts ++ rest) = ts ++ rest := by
  obtain ⟨t, ts, rfl, ht⟩ := h
  cases t <;> first | rfl | cases ht

/-- A list goes on with an item. -/
theorem parseParenList_item {n : Nat} {items : List (AstNode E)} {rest : Tokens}
    (h : Opens opensValue ts) :
    parseParenList forms (n + 1) items (ts ++ rest) = (do
      let (e, ts) ← parseAssignment forms n true (ts ++ rest)
      match eatComments ts with
      | .rightParen :: rest => do return (← parenNode forms (items ++ [e]), rest)
      | ts => do
        let ts ← requireControlSeparator ts
        parseParenList forms n (items ++ [e]) ts) := by
  rw [parseParenList, eatTrivia_opens h]
  obtain ⟨t, ts, rfl, ht⟩ := h
  cases t <;> first | rfl | cases ht

theorem parseParenList_items {tss : List Tokens} {es : List (AstNode E)}
    (h : List.Forall₂ (IsItem forms) tss es) (hne : tss ≠ []) :
    ∃ n, ∀ m ≥ n, ∀ items rest,
      parseParenList forms m items (List.intercalate [.semicolon] tss ++ .rightParen :: rest) =
        (parenNode forms (items ++ es)).map (·, rest) := by
  induction h with
  | nil => exact absurd rfl hne
  | @cons ts e tss es hitem hrest ih =>
    obtain ⟨n, hreads⟩ := hitem.reads
    cases hrest with
    | nil =>
      refine ⟨n + 1, fun m hm items rest => ?_⟩
      obtain ⟨k, rfl⟩ : ∃ k, m = k + 1 := ⟨m - 1, by omega⟩
      have hread : parseAssignment forms k true (ts ++ .rightParen :: rest) =
          some (e, .rightParen :: rest) := hreads k (by omega) _ rest (.inr (.inl rfl))
      rw [List.intercalate_singleton, parseParenList_item hitem.opens, hread]
      show (do return (← parenNode forms (items ++ [e]), rest)) = _
      cases parenNode forms (items ++ [e]) <;> rfl
    | @cons ts' e' tss es hitem' hrest =>
      obtain ⟨n', ih⟩ := ih (List.cons_ne_nil _ _)
      refine ⟨max n n' + 1, fun m hm items rest => ?_⟩
      obtain ⟨k, rfl⟩ : ∃ k, m = k + 1 := ⟨m - 1, by omega⟩
      have hopens : Opens opensValue (List.intercalate [.semicolon] (ts' :: tss)) := by
        obtain ⟨t, us, rfl, ht⟩ := hitem'.opens
        cases tss with
        | nil => exact ⟨t, us, List.intercalate_singleton, ht⟩
        | cons us' tss => exact ⟨t, _, List.intercalate_cons_cons, ht⟩
      have hread : ∀ us, parseAssignment forms k true (ts ++ .semicolon :: us) =
          some (e, .semicolon :: us) := fun us => hreads k (by omega) _ us (.inl rfl)
      rw [List.intercalate_cons_cons, List.append_assoc, List.append_assoc,
        parseParenList_item hitem.opens, List.singleton_append, hread]
      show parseParenList forms k (items ++ [e]) (eatTrivia _) = _
      rw [eatTrivia_opens hopens, ih k (by omega), List.append_assoc, List.singleton_append]

/-- Behind the first item stands a token that ends it. -/
theorem exists_stop (ts : Tokens) (tss : List Tokens) (rest : Tokens) :
    ∃ stop us, IsStop stop ∧
      List.intercalate [.semicolon] (ts :: tss) ++ .rightParen :: rest = ts ++ stop :: us := by
  cases tss with
  | nil =>
    rw [List.intercalate_singleton]
    exact ⟨_, _, .inr (.inl rfl), rfl⟩
  | cons ts' tss =>
    rw [List.intercalate_cons_cons, List.append_assoc, List.append_assoc]
    exact ⟨_, _, .inl rfl, rfl⟩

theorem IsItem.notKeyed_append (h : IsItem forms ts e) {stop : TokenType} (hstop : IsStop stop)
    (us : Tokens) : ∀ name rest, ts ++ stop :: us ≠ .tag name :: .colon :: rest := by
  intro name rest heq
  obtain ⟨t, ts', rfl, -⟩ := h.opens
  obtain ⟨rfl, htail⟩ := List.cons.inj heq
  cases ts' with
  | nil =>
    obtain ⟨rfl, -⟩ := List.cons.inj htail
    rcases hstop with h | h | h <;> cases h
  | cons u ts' =>
    obtain ⟨rfl, -⟩ := List.cons.inj htail
    exact h.notKeyed name ts' rfl

theorem parseParen_list {n : Nat} {rest : Tokens} (h : Opens opensValue ts)
    (hkeyed : ∀ name us, ts ++ rest ≠ .tag name :: .colon :: us) :
    parseParen forms (n + 1) (ts ++ rest) = parseParenList forms n [] (ts ++ rest) := by
  obtain ⟨t, ts, rfl, ht⟩ := h
  rw [parseParen]
  · rintro us heq
    obtain ⟨rfl, -⟩ := List.cons.inj heq
    cases ht
  · rintro us heq
    obtain ⟨rfl, -⟩ := List.cons.inj heq
    cases ht
  · exact hkeyed

/-- Parentheses around items. -/
theorem Reads.paren {tss : List Tokens} {es : List (AstNode E)} {node : AstNode E}
    (h : List.Forall₂ (IsItem forms) tss es) (hne : tss ≠ [])
    (hnode : parenNode forms es = some node) :
    Reads (parsePrimary forms)
      (.leftParen :: (List.intercalate [.semicolon] tss ++ [.rightParen])) node := by
  obtain ⟨n, hitems⟩ := parseParenList_items h hne
  refine @succ E _ _ _ (n + 1) fun k hk t rest _ => ?_
  obtain ⟨j, rfl⟩ : ∃ j, k = j + 1 := ⟨k - 1, by omega⟩
  have hlist := hitems j (by omega) [] (t :: rest)
  rw [List.nil_append, hnode] at hlist
  cases h with
  | nil => exact absurd rfl hne
  | @cons ts e tss es hitem hrest =>
    obtain ⟨stop, us, hstop, heq⟩ := exists_stop ts tss (t :: rest)
    rw [List.cons_append, List.append_assoc, List.singleton_append,
      parsePrimary_leftParen, heq, eatTrivia_opens hitem.opens,
      parseParen_list hitem.opens (hitem.notKeyed_append hstop us), ← heq]
    exact hlist

theorem parenNode_list {es : List (AstNode E)} (hlen : es.length ≠ 1)
    (h : ∀ e ∈ es, isNamedArg e = false) : parenNode forms es = some (.list es) := by
  have hany : es.any isNamedArg = false := List.any_eq_false.mpr fun e he => by simp [h e he]
  unfold parenNode
  split
  · exact absurd rfl hlen
  · rw [if_neg (by rw [hany]; exact Bool.false_ne_true)]

theorem dictNode_pairs (pairs : List (List Char × AstNode E)) :
    dictNode forms (pairs.map fun p => (p.1, some p.2)) = some (.dict pairs) := by
  have hmapM : (pairs.map fun p => (p.1, some p.2)).mapM
      (fun e => e.2.map fun v => (e.1, v)) = some pairs := by
    induction pairs with
    | nil => rfl
    | cons p pairs ih =>
      rw [List.map_cons, List.mapM_cons, ih]
      rfl
  rw [dictNode, hmapM]

theorem parseParenDict_entries {tss : List Tokens} {pairs : List (List Char × AstNode E)}
    (h : List.Forall₂ (IsEntry forms) tss pairs) (hne : tss ≠ []) :
    ∃ n, ∀ m ≥ n, ∀ entries rest,
      parseParenDict forms m entries (List.intercalate [.semicolon] tss ++ .rightParen :: rest) =
        (dictNode forms (entries ++ pairs.map fun p => (p.1, some p.2))).map (·, rest) := by
  induction h with
  | nil => exact absurd rfl hne
  | @cons ts pair tss pairs hentry hrest ih =>
    obtain ⟨us, rfl, n, hreads⟩ := hentry
    cases hrest with
    | nil =>
      refine ⟨n + 2, fun m hm entries rest => ?_⟩
      obtain ⟨k, rfl⟩ : ∃ k, m = k + 2 := ⟨m - 2, by omega⟩
      have hread : parseAssignment forms (k + 1) false (us ++ .rightParen :: rest) =
          some (pair.2, .rightParen :: rest) := hreads (k + 1) (by omega) _ rest (.inr (.inl rfl))
      rw [List.intercalate_singleton]
      show (parseAssignment forms (k + 1) false (us ++ .rightParen :: rest) >>= fun p =>
        parseParenDictRest forms (k + 1) (entries ++ [(pair.1, some p.1)]) p.2) = _
      rw [hread]
      show (do return (← dictNode forms (entries ++ [(pair.1, some pair.2)]), rest)) = _
      rw [List.map_singleton]
      cases dictNode forms (entries ++ [(pair.1, some pair.2)]) <;> rfl
    | @cons ts' pair' tss pairs hentry' hrest =>
      obtain ⟨n', ih⟩ := ih (List.cons_ne_nil _ _)
      refine ⟨max n n' + 2, fun m hm entries rest => ?_⟩
      obtain ⟨k, rfl⟩ : ∃ k, m = k + 2 := ⟨m - 2, by omega⟩
      have hread : ∀ vs, parseAssignment forms (k + 1) false (us ++ .semicolon :: vs) =
          some (pair.2, .semicolon :: vs) := fun vs => hreads (k + 1) (by omega) _ vs (.inl rfl)
      have htrivia : ∀ vs, eatTrivia (List.intercalate [.semicolon] (ts' :: tss) ++ vs) =
          List.intercalate [.semicolon] (ts' :: tss) ++ vs := by
        intro vs
        obtain ⟨us', rfl, -⟩ := hentry'
        cases tss with
        | nil =>
          rw [List.intercalate_singleton]
          rfl
        | cons ts'' tss =>
          rw [List.intercalate_cons_cons]
          rfl
      rw [List.intercalate_cons_cons, List.append_assoc, List.append_assoc,
        List.singleton_append]
      show (parseAssignment forms (k + 1) false (us ++ .semicolon :: _) >>= fun p =>
        parseParenDictRest forms (k + 1) (entries ++ [(pair.1, some p.1)]) p.2) = _
      rw [hread]
      show parseParenDict forms k (entries ++ [(pair.1, some pair.2)]) (eatTrivia _) = _
      rw [htrivia, ih k (by omega), List.append_assoc, List.map_cons]
      rfl

/-- A dictionary with entries. -/
theorem Reads.dict {tss : List Tokens} {pairs : List (List Char × AstNode E)}
    (h : List.Forall₂ (IsEntry forms) tss pairs) (hne : tss ≠ []) :
    Reads (parsePrimary forms)
      (.leftParen :: (List.intercalate [.semicolon] tss ++ [.rightParen])) (.dict pairs) := by
  obtain ⟨n, hentries⟩ := parseParenDict_entries h hne
  refine @succ E _ _ _ (n + 1) fun k hk t rest _ => ?_
  obtain ⟨j, rfl⟩ : ∃ j, k = j + 1 := ⟨k - 1, by omega⟩
  have hdict := hentries j (by omega) [] (t :: rest)
  rw [List.nil_append, dictNode_pairs] at hdict
  cases h with
  | nil => exact absurd rfl hne
  | @cons ts pair tss pairs hentry hrest =>
    obtain ⟨us, rfl, -⟩ := hentry
    obtain ⟨stop, vs, -, heq⟩ := exists_stop (.tag pair.1 :: .colon :: us) tss (t :: rest)
    rw [List.cons_append, List.append_assoc, List.singleton_append, heq]
    rw [heq] at hdict
    exact hdict

/-! ### Literals -/

theorem Reads.emptyList : Reads (parsePrimary forms) [.leftParen, .rightParen] (.list []) :=
  @succ E _ _ _ 1 fun k hk t rest _ => by
    obtain ⟨j, rfl⟩ : ∃ j, k = j + 1 := ⟨k - 1, by omega⟩
    rfl

theorem Reads.emptyDict :
    Reads (parsePrimary forms) [.leftParen, .backtick, .rightParen] (.dict []) :=
  @succ E _ _ _ 1 fun k hk t rest _ => by
    obtain ⟨j, rfl⟩ : ∃ j, k = j + 1 := ⟨k - 1, by omega⟩
    rfl

/-- The value of a literal token. -/
def literal? : TokenType → Option Value
  | .integer k => some (.int (Int64.ofInt k))
  | .bigInteger k => some (.bigInt k)
  | .float f => some (.float f)
  | .character c => some (.char c)
  | .string s => some (Value.intoWqString s)
  | .tag name => some (.tag (String.ofList name))
  | .true_ => some (.bool true)
  | .false_ => some (.bool false)
  | _ => none

theorem Reads.literal {t : TokenType} {v : Value} (h : literal? t = some v) :
    Reads (parsePrimary forms) [t] (.literal v) := by
  refine @succ E _ _ _ 0 fun k _ t' rest _ => ?_
  cases t <;> first | (cases h; done) | (obtain rfl := Option.some.inj h; rfl)

theorem opens_literal {t : TokenType} {v : Value} (h : literal? t = some v) :
    Opens opensOperand [t] := by
  refine ⟨t, [], rfl, ?_⟩
  cases t <;> first | rfl | cases h

end Parser
end Wqpl
