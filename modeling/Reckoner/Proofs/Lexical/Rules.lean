import Reckoner.Lexeme

/-!
# The lexical rules

    numeral := [0-9.]+ ([eE] [+-]? [0-9]+)?
    word    := [a-zA-Z]+
    symbol  := one of  _ + - * / % ^ ! ( ) [ ] , =

The rules say what a lexeme is and what it is read as, with no regard to what stands around it.
`Munch` cuts a text by them, always into the longest lexeme that the rest starts with. A numeral is
a number if its body has a digit and at most one dot.
-/

namespace Reckoner.Lexical

/-- The exponent part of a numeral, with the power of ten that it stands for. -/
inductive ExponentPart : List Char → Int → Prop
  | absent : ExponentPart [] 0
  | unsigned {mark : Char} {digits : List Char} : mark = 'e' ∨ mark = 'E' → digits ≠ [] →
      (∀ c ∈ digits, c.isDigit) → ExponentPart (mark :: digits) (Decimal.ofDigits digits)
  | positive {mark : Char} {digits : List Char} : mark = 'e' ∨ mark = 'E' → digits ≠ [] →
      (∀ c ∈ digits, c.isDigit) → ExponentPart (mark :: '+' :: digits) (Decimal.ofDigits digits)
  | negative {mark : Char} {digits : List Char} : mark = 'e' ∨ mark = 'E' → digits ≠ [] →
      (∀ c ∈ digits, c.isDigit) → ExponentPart (mark :: '-' :: digits) (-Decimal.ofDigits digits)

/-- A numeral with its body, the digits and dots in front, and its power of ten. -/
inductive Numeral : List Char → List Char → Int → Prop
  | mk {body part : List Char} {power : Int} : body ≠ [] → (∀ c ∈ body, c.isDigit ∨ c = '.') →
      ExponentPart part power → Numeral (body ++ part) body power

/-- The bodies that write a number. -/
def WellFormed (body : List Char) : Prop :=
  (∃ c ∈ body, c.isDigit) ∧ body.count '.' ≤ 1

/-- The decimal that a body and a power of ten write: the digits without the dot, and one power
less for each of those behind it. -/
def decimal (body : List Char) (power : Int) : Decimal :=
  let places := (body.dropWhile (· != '.')).length - 1
  ⟨Decimal.ofDigits (body.filter Char.isDigit), power - places⟩

structure Word (w : List Char) : Prop where
  nonempty : w ≠ []
  letters : ∀ c ∈ w, c.isAlpha

/-- The tokens that are written with one fixed character. -/
def symbols : List Token :=
  [.previous, .plus, .minus, .star, .slash, .percent, .caret, .bang, .openParen, .closeParen,
    .openBracket, .closeBracket, .comma, .equals]

/-- The texts that match a rule. -/
inductive IsLexeme : List Char → Prop
  | numeral {w body : List Char} {power : Int} : Numeral w body power → IsLexeme w
  | word {w : List Char} : Word w → IsLexeme w
  | symbol {t : Token} : t ∈ symbols → IsLexeme t.text.toList

/-- What a lexeme is read as. -/
inductive Reads : List Char → Except Failure Token → Prop
  | number {w body : List Char} {power : Int} : Numeral w body power → WellFormed body →
      Reads w (.ok (.number (decimal body power).lowest.toFloat))
  | malformed {w body : List Char} {power : Int} : Numeral w body power → ¬ WellFormed body →
      Reads w (.error (.badLiteral (String.ofList w)))
  | keyword : Reads ['l', 'e', 't'] (.ok .letKeyword)
  | name {w : List Char} : Word w → w ≠ ['l', 'e', 't'] →
      Reads w (.ok (.identifier (String.ofList w)))
  | symbol {t : Token} : t ∈ symbols → Reads t.text.toList (.ok t)

/-- The characters that lexemes are made of. -/
def IsLexemeChar (c : Char) : Prop :=
  c.isDigit ∨ c.isAlpha ∨
    c ∈ ['.', '_', '+', '-', '*', '/', '%', '^', '!', '(', ')', '[', ']', ',', '=']

/-- The longest lexeme at the front of a text. -/
structure Longest (text w : List Char) : Prop where
  lexeme : IsLexeme w
  isPrefix : w <+: text
  longest : ∀ v, v <+: text → IsLexeme v → v.length ≤ w.length

def Blank (gap : List Char) : Prop :=
  ∀ c ∈ gap, c ∈ [' ', '\t', '\r', '\n', '\x0c']

/-- The tokens of a text, or the first failure from the left. -/
inductive Munch : List Char → Except Failure (List Token) → Prop
  | done {gap : List Char} : Blank gap → Munch gap (.ok [])
  | unknown {gap rest : List Char} {c : Char} : Blank gap → ¬ Blank [c] →
      (∀ w, w <+: c :: rest → ¬ IsLexeme w) →
      Munch (gap ++ c :: rest) (.error (.unknownToken (String.singleton c)))
  | refused {gap w rest : List Char} {failure : Failure} : Blank gap → Longest (w ++ rest) w →
      Reads w (.error failure) → Munch (gap ++ (w ++ rest)) (.error failure)
  | token {gap w rest : List Char} {t : Token} {result : Except Failure (List Token)} :
      Blank gap → Longest (w ++ rest) w → Reads w (.ok t) → Munch rest result →
      Munch (gap ++ (w ++ rest)) (result.map (t :: ·))

end Reckoner.Lexical
