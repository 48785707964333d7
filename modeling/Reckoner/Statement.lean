import Reckoner.Expr.Reader

/-!
# Statements

    statement   := declaration | expression
    declaration := "let" name "=" expression

A statement that starts with `let` is a declaration or nothing.
-/

namespace Reckoner

inductive Statement where
  | expression (e : Expr)
  | declaration (name : String) (value : Expr)
  | fault (why : SyntaxFault)

/-- The statement that a list of tokens makes. -/
def Statement.ofTokens : List Token → Statement
  | [] => .fault .emptyStatement
  | .letKeyword :: .identifier name :: .equals :: [] => .fault (.missingValue name)
  | .letKeyword :: .identifier name :: .equals :: value =>
    .declaration name (Reader.expression value)
  | .letKeyword :: _ => .fault .malformedDeclaration
  | ts => .expression (Reader.expression ts)

namespace Statement

theorem ofTokens_of_ne_let {first : Token} (rest : List Token) (h : first ≠ .letKeyword) :
    ofTokens (first :: rest) = .expression (Reader.expression (first :: rest)) := by
  unfold ofTokens
  split <;> simp_all

theorem ofTokens_of_let (name : String) (first : Token) (rest : List Token) :
    ofTokens (.letKeyword :: .identifier name :: .equals :: first :: rest) =
      .declaration name (Reader.expression (first :: rest)) := rfl

theorem eq_of_expression {ts : List Token} {e : Expr} (h : ofTokens ts = .expression e) :
    e = Reader.expression ts := by
  unfold ofTokens at h
  split at h <;> simp_all

theorem eq_of_declaration {ts : List Token} {name : String} {e : Expr}
    (h : ofTokens ts = .declaration name e) :
    ∃ value, ts = .letKeyword :: .identifier name :: .equals :: value ∧
      e = Reader.expression value := by
  unfold ofTokens at h
  split at h <;> simp_all

end Statement

end Reckoner
