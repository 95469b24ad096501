/-
# Parsing expressions

A recursive descent over the tokens, one function for each precedence, from
assignments down to literals. Every call takes one unit of fuel. Without a
result there is a syntax error, or the fuel has run out.

The forms that are no data are parameters: those with a keyword or a
brace of their own, the suffixes of an operand, pipes, assignments and patterns,
and whether an operand may stand on the next line, which its column decides.

Key definitions: `AstNode`, `parseAssignment`, `parsePrimary`, `parseProgram`.
-/
import Wqpl.Lex.Tokenize

namespace Wqpl

/-- `-f`. Adding the sign bit flips it. -/
def F64.neg (f : F64) : F64 := ⟨f.bits + BitVec.ofNat 64 (2 ^ 63)⟩

namespace Parser

open Wqpl.Lex (TokenType)

/-! ### Nodes -/

inductive AstNode (E : Type)
  | literal (v : Value)
  | variable (name : List Char)
  | outerVariable (name : List Char)
  | ellipsis
  | unaryOp (op : UnaryOperator) (operand : AstNode E)
  | binaryOp (left : AstNode E) (op : BinaryOperator) (right : AstNode E)
  | comparisonChain (first : AstNode E) (rest : List (BinaryOperator × AstNode E))
  | range (start stop : AstNode E) (step : Option (AstNode E)) (inclusive : Bool)
  | cat (items : List (AstNode E))
  | list (items : List (AstNode E))
  | dict (pairs : List (List Char × AstNode E))
  | group (node : AstNode E)
  /-- An operand and what stands behind it: a call, or an index. -/
  | application (object : AstNode E) (items : List (AstNode E)) (explicitCall : Bool)
  | namedArg (name : List Char) (value : AstNode E)
  | block (statements : List (AstNode E))
  /-- Another form. -/
  | expr (e : E)

abbrev Tokens := List TokenType

abbrev Parsed (E : Type) := AstNode E × Tokens

/-- The forms that are no data. -/
structure Forms (E : Type) where
  /-- A conditional, a function, a loop, an import and so on. -/
  primary : Tokens → Option (Parsed E)
  /-- What goes on from an operand: brackets, a mark of mutation or a depth. -/
  suffix : AstNode E → Tokens → Option (Parsed E)
  /-- From the first pipe on. -/
  pipe : AstNode E → Tokens → Option (Parsed E)
  /-- From the assignment operator on; whether it may make a named argument. -/
  assign : Bool → AstNode E → Tokens → Option (Parsed E)
  /-- The pattern of a list with named entries. -/
  unpackPattern : List (AstNode E) → Option (AstNode E)
  /-- The pattern of a dictionary with keys alone. -/
  dictPattern : List (List Char × Option (AstNode E)) → Option (AstNode E)
  /-- The operand on the next line, behind an operator. -/
  nextLine : Tokens → Option Tokens

/-! ### Kinds of tokens -/

def isTrivia : TokenType → Bool
  | .newline | .comment _ => true
  | _ => false

def isComment : TokenType → Bool
  | .comment _ => true
  | _ => false

def isTerminator : TokenType → Bool
  | .semicolon | .leftBracket | .rightBracket | .rightParen | .rightBrace | .pipe | .pipeDot
  | .pipePipe | .pipePipeDot | .comma | .eof => true
  | _ => false

def isAssignmentOp : TokenType → Bool
  | .colon | .plusColon | .minusColon | .multiplyColon | .divideColon | .divideDotColon
  | .moduloColon | .powerColon | .powerDotColon | .commaColon | .floorDivColon => true
  | _ => false

def isPipe : TokenType → Bool
  | .pipe | .pipeDot | .pipePipe | .pipePipeDot => true
  | _ => false

def comparisonOp : TokenType → Option BinaryOperator
  | .equal => some .equal
  | .equalDot => some .equalDot
  | .notEqual => some .notEqual
  | .notEqualDot => some .notEqualDot
  | .lessThan => some .lt
  | .lessThanOrEqual => some .lte
  | .greaterThan => some .gt
  | .greaterThanOrEqual => some .gte
  | _ => none

def additiveOp : TokenType → Option BinaryOperator
  | .plus => some .add
  | .minus => some .subtract
  | _ => none

def multiplicativeOp : TokenType → Option BinaryOperator
  | .multiply => some .multiply
  | .divide => some .divide
  | .divideDot => some .divideDot
  | .modulo => some .modulo
  | .matmul => some .matmul
  | .floorDiv => some .floorDiv
  | _ => none

def powerOp : TokenType → Option BinaryOperator
  | .power => some .power
  | .powerDot => some .powerDot
  | _ => none

/-- An operator that stands for its function. -/
def operatorName : TokenType → Option (List Char)
  | .plus => some "+".toList
  | .minus => some "-".toList
  | .multiply => some "*".toList
  | .divide => some "/".toList
  | .divideDot => some "/.".toList
  | .powerDot => some "^.".toList
  | .modulo => some "%".toList
  | .power => some "^".toList
  | .matmul => some "**".toList
  | .equal => some "=".toList
  | .equalDot => some "=.".toList
  | .notEqual => some "~".toList
  | .notEqualDot => some "~.".toList
  | .lessThan => some "<".toList
  | .lessThanOrEqual => some "<=".toList
  | .greaterThan => some ">".toList
  | .greaterThanOrEqual => some ">=".toList
  | .sharp => some "#".toList
  | .comma => some ",".toList
  | .floorDiv => some "/%".toList
  | _ => none

/-- Whether a token behind an operand is its argument, and whether it makes a call for sure. -/
def argument? (isOperator : Bool) : TokenType → Option Bool
  | .minus => if isOperator then some false else none
  | .integer _ | .bigInteger _ | .tag _ | .identifier _ | .keyword _ | .apostrophe | .sharp
  | .dollar | .dollarDot | .dollarDollar | .atDebug | .atPause | .formatString _ _ _
  | .atSymbolic | .atImport | .leftParen => some false
  | .float _ | .imaginary _ | .character _ | .string _ | .inf | .leftBrace | .true_
  | .false_ => some true
  | _ => none

/-! ### Trivia -/

/-- `eat_trivia(true, true)`. -/
def eatTrivia (ts : Tokens) : Tokens := ts.dropWhile isTrivia

/-- `eat_trivia(false, true)`. -/
def eatComments (ts : Tokens) : Tokens := ts.dropWhile isComment

/-- The next token that is no trivia goes on with the expression. -/
def goesOn (rest : Tokens) : Bool := (eatTrivia rest).head?.any fun t => !isTerminator t

/-- `current_starts_leading_comma_list`. -/
def startsLeadingComma : Tokens → Bool
  | .comma :: rest => goesOn rest
  | _ => false

/-- `require_control_separator`. -/
def requireControlSeparator : Tokens → Option Tokens
  | .semicolon :: ts => some (eatTrivia ts)
  | ts =>
    match eatComments ts with
    | .newline :: ts => some (eatTrivia ts)
    | _ => none

def eatStmtSeparators (ts : Tokens) : Tokens :=
  ts.dropWhile fun t => t = .semicolon ∨ isTrivia t = true

/-! ### Building nodes -/

section Nodes

variable {E : Type}

def isList : AstNode E → Bool
  | .list _ => true
  | _ => false

def listItems : AstNode E → List (AstNode E)
  | .list items => items
  | _ => []

def isNamedArg : AstNode E → Bool
  | .namedArg _ _ => true
  | _ => false

/-- What stands between commas: lists are merged, other items are concatenated. -/
def commaNode : List (AstNode E) → AstNode E
  | [item] => item
  | items => if items.all isList then .list (items.flatMap listItems) else .cat items

def comparisonNode (first : AstNode E) : List (BinaryOperator × AstNode E) → AstNode E
  | [] => first
  | [(op, right)] => .binaryOp first op right
  | rest => .comparisonChain first rest

/-- Powers associate to the right. -/
def powerNode : AstNode E → List (BinaryOperator × AstNode E) → AstNode E
  | e, [] => e
  | e, (op, right) :: rest => .binaryOp e op (powerNode right rest)

/-- A minus before a literal is part of it, if this is no big integer. -/
def negateNode : AstNode E → AstNode E
  | .literal (.int n) => .literal (.int (-n))
  | .literal (.float f) => .literal (.float f.neg)
  | node => .unaryOp .negate node

/-- The operators before an operand, pairs of minus signs left out: whether a minus is the last
of them, and those before it. -/
def unaryPrefix : Bool → List UnaryOperator → Tokens → Bool × List UnaryOperator × Tokens
  | negative, ops, t :: ts =>
    if goesOn ts then
      match t with
      | .minus => unaryPrefix (!negative) ops ts
      | .sharp => unaryPrefix false (ops ++ if negative then [.negate, .count] else [.count]) ts
      | .notEqual => unaryPrefix false (ops ++ if negative then [.negate, .not] else [.not]) ts
      | _ => (negative, ops, t :: ts)
    else (negative, ops, t :: ts)
  | negative, ops, [] => (negative, ops, [])

def applyUnary (negative : Bool) (ops : List UnaryOperator) (node : AstNode E) : AstNode E :=
  ops.foldr .unaryOp (if negative then negateNode node else node)

/-- `is_operator_node`. -/
def isOperatorNode (e : AstNode E) : Bool :=
  let names : List (List Char) := ["+", "-", "*", "/", "/.", "/%", "%", "^", "^.", "**", "=", "~",
    "<", "<=", ">", ">=", ",", "#"].map String.toList
  match e with
  | .variable name | .application (.variable name) _ _ => names.contains name
  | _ => false

/-- Whether a token goes on from an operand by a suffix. -/
def startsSuffix (e : AstNode E) : TokenType → Bool
  | .leftBracket | .atDepth _ => true
  | .bang =>
    match e with
    | .variable _ | .outerVariable _ => true
    | _ => false
  | _ => false

variable (forms : Forms E)

/-- `eat_rhs_trivia`. -/
def eatRhsTrivia : Tokens → Option Tokens
  | .newline :: ts => forms.nextLine ts
  | .comment _ :: ts => eatRhsTrivia ts
  | .eof :: _ | [] => none
  | ts => some ts

/-- What stands in parentheses: one node is a group. -/
def parenNode : List (AstNode E) → Option (AstNode E)
  | [node] => some (.group node)
  | items => if items.any isNamedArg then forms.unpackPattern items else some (.list items)

def dictNode (entries : List (List Char × Option (AstNode E))) : Option (AstNode E) :=
  match entries.mapM fun e => e.2.map fun v => (e.1, v) with
  | some pairs => some (.dict pairs)
  | none => forms.dictPattern entries

/-! ### The parser -/

mutual

def parseAssignment : Nat → Bool → Tokens → Option (Parsed E)
  | 0, _, _ => none
  | n + 1, allowNamedArg, ts => do
    let (e, ts) ← parsePipe n ts
    if ts.head?.any isAssignmentOp then forms.assign allowNamedArg e ts else some (e, ts)

def parsePipe : Nat → Tokens → Option (Parsed E)
  | 0, _ => none
  | n + 1, ts => do
    let (e, ts) ← parseComma n ts
    if (eatTrivia ts).head?.any isPipe then forms.pipe e (eatTrivia ts) else some (e, ts)

def parseComma : Nat → Tokens → Option (Parsed E)
  | 0, _ => none
  | n + 1, ts =>
    if startsLeadingComma ts then do
      let (items, ts) ← parseCommaItems n [] ts
      some (.list items, ts)
    else do
      let (first, ts) ← parseComparison n ts
      let (items, ts) ← parseCommaItems n [first] ts
      some (commaNode items, ts)

/-- The loops of `parse_comma`. -/
def parseCommaItems : Nat → List (AstNode E) → Tokens → Option (List (AstNode E) × Tokens)
  | 0, _, _ => none
  | n + 1, items, ts =>
    if startsLeadingComma ts then do
      let (e, ts) ← parseComparison n (eatTrivia ts.tail)
      parseCommaItems n (items ++ [e]) ts
    else some (items, ts)

def parseComparison : Nat → Tokens → Option (Parsed E)
  | 0, _ => none
  | n + 1, ts => do
    let (first, ts) ← parseAdditive n ts
    let (rest, ts) ← parseComparisonRest n [] ts
    some (comparisonNode first rest, ts)

/-- The loop of `parse_comparison`. -/
def parseComparisonRest : Nat → List (BinaryOperator × AstNode E) → Tokens →
    Option (List (BinaryOperator × AstNode E) × Tokens)
  | 0, _, _ => none
  | n + 1, rest, ts =>
    match ts.head?.bind comparisonOp with
    | none => some (rest, ts)
    | some op => do
      let ts ← eatRhsTrivia forms ts.tail
      let (right, ts) ← if startsLeadingComma ts then parseComma n ts else parseAdditive n ts
      parseComparisonRest n (rest ++ [(op, right)]) ts

def parseAdditive : Nat → Tokens → Option (Parsed E)
  | 0, _ => none
  | n + 1, ts => do
    let (left, ts) ← parseMultiplicative n ts
    parseAdditiveRest n left ts

/-- The loop of `parse_additive`. -/
def parseAdditiveRest : Nat → AstNode E → Tokens → Option (Parsed E)
  | 0, _, _ => none
  | n + 1, left, ts =>
    match ts.head?.bind additiveOp with
    | none => some (left, ts)
    | some op => do
      let ts ← eatRhsTrivia forms ts.tail
      let (right, ts) ← if startsLeadingComma ts then parseComma n ts else parseMultiplicative n ts
      parseAdditiveRest n (.binaryOp left op right) ts

def parseMultiplicative : Nat → Tokens → Option (Parsed E)
  | 0, _ => none
  | n + 1, ts => do
    let (left, ts) ← parseRange n ts
    parseMultiplicativeRest n left ts

/-- The loop of `parse_multiplicative`. -/
def parseMultiplicativeRest : Nat → AstNode E → Tokens → Option (Parsed E)
  | 0, _, _ => none
  | n + 1, left, ts =>
    match ts.head?.bind multiplicativeOp with
    | none => some (left, ts)
    | some op => do
      let ts ← eatRhsTrivia forms ts.tail
      let (right, ts) ← if startsLeadingComma ts then parseComma n ts else parseRange n ts
      parseMultiplicativeRest n (.binaryOp left op right) ts

/-- `a..b`, `a..=b`, and with a second item between them. -/
def parseRange : Nat → Tokens → Option (Parsed E)
  | 0, _ => none
  | n + 1, ts => do
    let (start, ts) ← parseUnary n ts
    match ts with
    | .rangeInclusive :: ts => do
      let (stop, ts) ← parseRangeOperand n ts
      match ts with
      | .range :: _ | .rangeInclusive :: _ => none
      | _ => some (.range start stop none true, ts)
    | .range :: ts => do
      let (second, ts) ← parseRangeOperand n ts
      match ts with
      | .range :: ts => do
        let (stop, ts) ← parseRangeOperand n ts
        some (.range start stop (some second) false, ts)
      | .rangeInclusive :: ts => do
        let (stop, ts) ← parseRangeOperand n ts
        some (.range start stop (some second) true, ts)
      | _ => some (.range start second none false, ts)
    | _ => some (start, ts)

/-- The operand behind a range operator. -/
def parseRangeOperand : Nat → Tokens → Option (Parsed E)
  | 0, _ => none
  | n + 1, ts => do
    let ts ← eatRhsTrivia forms ts
    if startsLeadingComma ts then parseComma n ts else parseUnary n ts

def parseUnary : Nat → Tokens → Option (Parsed E)
  | 0, _ => none
  | n + 1, ts => do
    let (negative, ops, ts) := unaryPrefix false [] ts
    let (node, ts) ← if startsLeadingComma ts then parseComma n ts else parsePower n ts
    some (applyUnary negative ops node, ts)

def parsePower : Nat → Tokens → Option (Parsed E)
  | 0, _ => none
  | n + 1, ts => do
    let (first, ts) ← parsePostfix n ts
    let (rest, ts) ← parsePowerRest n [] ts
    some (powerNode first rest, ts)

/-- The loop of `parse_power`. -/
def parsePowerRest : Nat → List (BinaryOperator × AstNode E) → Tokens →
    Option (List (BinaryOperator × AstNode E) × Tokens)
  | 0, _, _ => none
  | n + 1, rest, ts =>
    match ts.head?.bind powerOp with
    | none => some (rest, ts)
    | some op => do
      let ts ← eatRhsTrivia forms ts.tail
      let (right, ts) ← if startsLeadingComma ts then parseComma n ts else parseUnary n ts
      parsePowerRest n (rest ++ [(op, right)]) ts

def parsePostfix : Nat → Tokens → Option (Parsed E)
  | 0, _ => none
  | n + 1, ts => do
    let (e, ts) ← parsePrimary n ts
    parsePostfixRest n e ts

/-- The loop of `parse_postfix`. -/
def parsePostfixRest : Nat → AstNode E → Tokens → Option (Parsed E)
  | 0, _, _ => none
  | n + 1, e, ts =>
    match eatComments ts with
    | [] => some (e, [])
    | t :: rest =>
      if startsSuffix e t then do
        let (e, ts) ← forms.suffix e (t :: rest)
        parsePostfixRest n e ts
      else
        match argument? (isOperatorNode e) t with
        | some explicitCall => do
          let (arg, ts) ← parseRange n (t :: rest)
          parsePostfixRest n (.application e [arg] explicitCall) ts
        | none => some (e, t :: rest)

def parsePrimary : Nat → Tokens → Option (Parsed E)
  | 0, _ => none
  | n + 1, ts =>
    match ts with
    | .integer k :: rest => some (.literal (.int (Int64.ofInt k)), rest)
    | .bigInteger k :: rest => some (.literal (.bigInt k), rest)
    | .float f :: rest => some (.literal (.float f), rest)
    | .character c :: rest => some (.literal (.char c), rest)
    | .string s :: rest => some (.literal (Value.intoWqString s), rest)
    | .tag name :: rest => some (.literal (.tag (String.ofList name)), rest)
    | .true_ :: rest => some (.literal (.bool true), rest)
    | .false_ :: rest => some (.literal (.bool false), rest)
    | .inf :: rest => some (.literal (.float ⟨0x7ff0000000000000#64⟩), rest)
    | .identifier name :: rest => some (.variable name, rest)
    | .apostrophe :: .identifier name :: rest => some (.outerVariable name, rest)
    | .leftParen :: rest => parseParen n (eatTrivia rest)
    | .ellipsis :: rest => some (.ellipsis, rest)
    | [] => none
    | t :: rest =>
      match operatorName t with
      | some name => some (.variable name, rest)
      | none => forms.primary (t :: rest)

/-- Behind an opening parenthesis. -/
def parseParen : Nat → Tokens → Option (Parsed E)
  | 0, _ => none
  | n + 1, ts =>
    match ts with
    | .backtick :: ts =>
      match eatTrivia ts with
      | .rightParen :: ts => some (.dict [], ts)
      | _ => none
    | .rightParen :: ts => some (.list [], ts)
    | .tag _ :: .colon :: _ => parseParenDict n [] ts
    | _ => parseParenList n [] ts

def parseParenList : Nat → List (AstNode E) → Tokens → Option (Parsed E)
  | 0, _, _ => none
  | n + 1, items, ts =>
    match eatTrivia ts with
    | [] | .eof :: _ => none
    | .rightParen :: rest => do return (← parenNode forms items, rest)
    | ts => do
      let (e, ts) ← parseAssignment n true ts
      match eatComments ts with
      | .rightParen :: rest => do return (← parenNode forms (items ++ [e]), rest)
      | ts => do
        let ts ← requireControlSeparator ts
        parseParenList n (items ++ [e]) ts

def parseParenDict : Nat → List (List Char × Option (AstNode E)) → Tokens → Option (Parsed E)
  | 0, _, _ => none
  | n + 1, entries, ts =>
    match eatTrivia ts with
    | .rightParen :: rest => do return (← dictNode forms entries, rest)
    | .tag key :: .colon :: ts => do
      let (v, ts) ← parseAssignment n false ts
      parseParenDictRest n (entries ++ [(key, some v)]) ts
    | .tag key :: ts => parseParenDictRest n (entries ++ [(key, none)]) ts
    | _ => none

/-- Behind an entry. -/
def parseParenDictRest : Nat → List (List Char × Option (AstNode E)) → Tokens → Option (Parsed E)
  | 0, _, _ => none
  | n + 1, entries, ts =>
    match eatComments ts with
    | .rightParen :: rest => do return (← dictNode forms entries, rest)
    | ts => do
      let ts ← requireControlSeparator ts
      parseParenDict n entries ts

end

theorem parsePrimary_leftParen (n : Nat) (ts : Tokens) :
    parsePrimary forms (n + 1) (.leftParen :: ts) = parseParen forms n (eatTrivia ts) :=
  rfl

/-- The statements up to the end; one statement is the program. -/
def parseProgram : Nat → List (AstNode E) → Tokens → Option (AstNode E)
  | 0, _, _ => none
  | n + 1, statements, ts =>
    match eatStmtSeparators ts with
    | [] | .eof :: _ =>
      match statements with
      | [statement] => some statement
      | statements => some (.block statements)
    | .rightBrace :: _ | .rightBracket :: _ | .rightParen :: _ => none
    | ts => do
      let (statement, ts) ← parseAssignment forms n false ts
      parseProgram n (statements ++ [statement]) ts

end Nodes

end Parser
end Wqpl
