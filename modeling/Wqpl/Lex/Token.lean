/-
# Tokens

What the lexer makes of a text. A token knows its place in the text as a
character number, a line and a column and as a span of bytes.
-/
import Wqpl.Value

namespace Wqpl
namespace Lex

inductive Keyword
  | wLoop
  | nLoop
  | block
  | and
  | or
deriving DecidableEq, Repr

/-- A segment inside a format string. -/
inductive FmtPart
  | text (content : List Char) (start stop : Nat)
  | expr (source : List Char) (start stop : Nat)
deriving DecidableEq, Repr

inductive TokenType
  | identifier (name : List Char)
  | keyword (k : Keyword)
  | integer (n : Int)
  | bigInteger (n : Int)
  | float (f : F64)
  | imaginary (f : F64)
  | character (c : Char)
  | string (s : List Char)
  | tag (name : List Char)
  | backtick
  | inf
  | true_
  | false_
  | plus
  | minus
  | multiply
  | power
  | powerDot
  | divide
  | divideDot
  | modulo
  | matmul
  | floorDiv
  | plusColon
  | minusColon
  | multiplyColon
  | divideColon
  | divideDotColon
  | moduloColon
  | powerColon
  | powerDotColon
  | commaColon
  | floorDivColon
  | colon
  | equal
  | equalDot
  | notEqual
  | notEqualDot
  | lessThan
  | lessThanOrEqual
  | greaterThan
  | greaterThanOrEqual
  | sharp
  | pipe
  | pipeDot
  | pipePipe
  | pipePipeDot
  | range
  | rangeInclusive
  | dollar
  | dollarDot
  | dollarDollar
  | atBreak
  | atContinue
  | atReturn
  | atDebug
  | atPause
  | atDepth (depth : Int)
  | atSymbolic
  | atTry
  | atImport
  | leftParen
  | rightParen
  | leftBracket
  | rightBracket
  | leftBrace
  | rightBrace
  | semicolon
  | comma
  | ellipsis
  | apostrophe
  | comment (text : List Char)
  | newline
  | eof
  | bang
  | error
  | formatString (parts : List FmtPart) (openQuote closeQuote : Nat)
deriving DecidableEq, Repr

namespace TokenType

def isEof : TokenType → Bool
  | .eof => true
  | _ => false

/-- `Keyword::from_identifier`. -/
def keyword? (identifier : List Char) : Option Keyword :=
  if identifier = ['W'] then some .wLoop
  else if identifier = ['N'] then some .nLoop
  else if identifier = ['B'] then some .block
  else if identifier = ['A'] ∨ identifier = "and".toList then some .and
  else if identifier = ['O'] ∨ identifier = "or".toList then some .or
  else none

def reservedIdentifier (identifier : List Char) : Option TokenType :=
  if identifier = "true".toList ∨ identifier = ['T'] then some .true_
  else if identifier = "false".toList ∨ identifier = ['F'] then some .false_
  else if identifier = "inf".toList then some .inf
  else (keyword? identifier).map .keyword

def fromIdentifier (identifier : List Char) : TokenType :=
  (reservedIdentifier identifier).getD (.identifier identifier)

theorem fromIdentifier_isEof (name : List Char) : (fromIdentifier name).isEof = false := by
  unfold fromIdentifier reservedIdentifier
  split_ifs
  · rfl
  · rfl
  · rfl
  · cases keyword? name <;> rfl

end TokenType

/-- A token; its span of bytes is `[byteStart, byteEnd)`. -/
structure Token where
  tokenType : TokenType
  position : Nat
  line : Nat
  column : Nat
  byteStart : Nat
  byteEnd : Nat
deriving DecidableEq, Repr

end Lex
end Wqpl
