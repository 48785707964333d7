import Reckoner.Numeral

/-!
# Tokens

A statement is a list of tokens. A number token holds its value and never a sign: `-` is a token
of its own, and whether it negates an operand or joins two is decided by what stands before it
(`isSign`). A search for tokens compares them with `==`, under which `0` and `-0` are the same
number and NaN is no number's equal; `=` compares numbers by their bits.
-/

namespace Reckoner

inductive Token where
  /-- A literal, such as `3.25`. -/
  | number (value : Float)
  /-- A run of letters, naming a variable, a constant or a function. -/
  | identifier (name : String)
  /-- The keyword `let`. -/
  | letKeyword
  /-- `_`, the value of the previous statement. -/
  | previous
  | plus
  | minus
  | star
  | slash
  | percent
  | caret
  | bang
  | openParen
  | closeParen
  | openBracket
  | closeBracket
  | comma
  | equals
  deriving BEq, DecidableEq

namespace Token

/-- The binary arithmetic operators. -/
def isOperator : Token → Bool
  | plus | minus | star | slash | percent | caret => true
  | _ => false

/-- The tokens that are an operand by themselves. -/
def isAtom : Token → Bool
  | number _ | identifier _ | previous => true
  | _ => false

/-- The two tokens that can be signs. -/
def isPlusOrMinus : Token → Bool
  | plus | minus => true
  | _ => false

/-- Whether a token that follows `before` is a sign: a `+` or `-` that opens its range or comes
right after an operator, as the second one of `3 - -2` does. -/
def isSign (before : Option Token) (t : Token) : Bool :=
  t.isPlusOrMinus && before.all isOperator

/-- Whether the token at an index of a list is a sign. -/
def isSignAt (ts : List Token) (i : Nat) : Bool :=
  ts[i]?.any (isSign (if i = 0 then none else ts[i - 1]?))

/-- The token that a single character stands for. -/
def ofSymbol? : Char → Option Token
  | '_' => some previous
  | '+' => some plus
  | '-' => some minus
  | '*' => some star
  | '/' => some slash
  | '%' => some percent
  | '^' => some caret
  | '!' => some bang
  | '(' => some openParen
  | ')' => some closeParen
  | '[' => some openBracket
  | ']' => some closeBracket
  | ',' => some comma
  | '=' => some equals
  | _ => none

/-- The text of a token; a number is written with the fewest digits that read back. -/
def text : Token → String
  | number value => Numeral.plain value
  | identifier name => name
  | letKeyword => "let"
  | previous => "_"
  | plus => "+"
  | minus => "-"
  | star => "*"
  | slash => "/"
  | percent => "%"
  | caret => "^"
  | bang => "!"
  | openParen => "("
  | closeParen => ")"
  | openBracket => "["
  | closeBracket => "]"
  | comma => ","
  | equals => "="

end Token

end Reckoner
