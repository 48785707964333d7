import Reckoner.Token

/-!
# Nesting

Parentheses and brackets are counted apart, an opener up and a closer down. The counts say how
many of each kind are open, not whether they pair up: `( [ ) ]` is balanced. They do not depend
on the direction of reading, so a list may be counted from either end.
-/

namespace Reckoner

/-- Openers minus closers, of each kind. -/
structure Nesting where
  parens : Int := 0
  brackets : Int := 0
  deriving DecidableEq, Repr

namespace Nesting

/-- The counts after one more token. -/
def track (n : Nesting) : Token → Nesting
  | .openParen => { n with parens := n.parens + 1 }
  | .closeParen => { n with parens := n.parens - 1 }
  | .openBracket => { n with brackets := n.brackets + 1 }
  | .closeBracket => { n with brackets := n.brackets - 1 }
  | _ => n

/-- The counts of a whole list. -/
def ofTokens (ts : List Token) : Nesting :=
  ts.foldl track {}

/-- Whether as many parentheses and brackets were closed as opened. -/
def isBalanced (n : Nesting) : Bool :=
  n.parens == 0 && n.brackets == 0

end Nesting

end Reckoner
