import Reckoner.Token

/-!
# The shape of a primary

The two ends of a range tell what kind of primary it can be: a factorial by the `!` at its end, a
group or a call by the bracket that opens it and the one that ends it. The lemmas say that a shape
gives back its range, so the parts of a primary are shorter than the primary, and that a range of
each shape has it.
-/

namespace Reckoner

namespace Reader

/-- What the ends of a primary's range say about it. -/
inductive Shape where
  | factorial (operand : List Token)
  | group (inner : List Token)
  | call (callee : String) (inner : List Token)
  /-- A group or an argument list that does not end with the range. -/
  | unclosed
  | atom

/-- A `!` at the end comes first: it applies to all that is before it. -/
def Shape.ofTokens (ts : List Token) : Shape :=
  match ts.getLast?, ts with
  | some .bang, _ => .factorial ts.dropLast
  | some .closeParen, .openParen :: rest => .group rest.dropLast
  | _, .openParen :: _ => .unclosed
  | some .closeBracket, .identifier callee :: .openBracket :: rest => .call callee rest.dropLast
  | _, .identifier _ :: .openBracket :: _ => .unclosed
  | _, _ => .atom

namespace Shape

theorem eq_of_factorial {ts operand : List Token} (h : ofTokens ts = .factorial operand) :
    ts = operand ++ [.bang] := by
  unfold ofTokens at h
  split at h <;> simp only [reduceCtorEq, factorial.injEq] at h
  rename_i closed
  obtain ⟨init, rfl⟩ := List.getLast?_eq_some_iff.mp closed
  simp [← h]

theorem eq_of_group {ts inner : List Token} (h : ofTokens ts = .group inner) :
    ts = .openParen :: (inner ++ [.closeParen]) := by
  unfold ofTokens at h
  split at h <;> simp only [reduceCtorEq, group.injEq] at h
  rename_i closed
  obtain ⟨init, eq⟩ := List.getLast?_eq_some_iff.mp closed
  cases init with
  | nil => simp at eq
  | cons t init => simp_all

theorem eq_of_call {ts inner : List Token} {callee : String}
    (h : ofTokens ts = .call callee inner) :
    ts = .identifier callee :: .openBracket :: (inner ++ [.closeBracket]) := by
  unfold ofTokens at h
  split at h <;> simp only [reduceCtorEq, call.injEq] at h
  rename_i closed
  obtain ⟨init, eq⟩ := List.getLast?_eq_some_iff.mp closed
  cases init with
  | nil => simp at eq
  | cons t init =>
    cases init with
    | nil => simp at eq
    | cons u init => simp_all

@[simp] theorem ofTokens_factorial (operand : List Token) :
    ofTokens (operand ++ [.bang]) = .factorial operand := by
  simp [ofTokens]

@[simp] theorem ofTokens_group (inner : List Token) :
    ofTokens (.openParen :: (inner ++ [.closeParen])) = .group inner := by
  simp [ofTokens, List.getLast?_cons]

@[simp] theorem ofTokens_call (callee : String) (inner : List Token) :
    ofTokens (.identifier callee :: .openBracket :: (inner ++ [.closeBracket])) =
      .call callee inner := by
  simp [ofTokens, List.getLast?_cons]

end Shape

end Reader

end Reckoner
