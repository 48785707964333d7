import Reckoner.Expr.Basic
import Reckoner.Expr.Shape
import Reckoner.Scan

/-!
# Reading expressions

The levels of the grammar, loosest first:

    expression := expression ("+" | "-") term | term
    term       := term ("*" | "/" | "%") unary | unary
    unary      := ("+" | "-")* power
    power      := primary "^" power | primary
    primary    := primary "!" | "(" expression ")" | name "[" arguments? "]"
                | name | "_" | number
    arguments  := arguments "," expression | expression

Each level splits its range at the top-level operator that the tree has at its root and reads the
parts; a range without one belongs to the next level. Every range gets a tree, with flaws where
the grammar has none. The lemmas at the end say what a level does with each kind of range.
-/

namespace Reckoner

namespace Reader

def additive : List Token := [.plus, .minus]

def multiplicative : List Token := [.star, .slash, .percent]

/-- A range that is one name, `_` or number by itself. -/
def atom : List Token → Expr
  | [] => .flaw .missingOperand
  | [.identifier name] => .named name
  | [.previous] => .previous
  | [.number value] => .number value
  | t :: rest =>
    match t.isAtom, rest with
    | true, extra :: _ => .flaw (.trailing extra)
    | _, _ => .flaw (.misplaced t)

mutual

def expression (ts : List Token) : Expr :=
  match _ : splitTopLevel ts additive .last with
  | .error _ => .flaw .unbalanced
  | .ok none => term ts
  | .ok (some s) => .binary (.ofToken s.operator) (expression s.before) (term s.after)
termination_by 7 * ts.length + 5
decreasing_by
  · omega
  · have := length_before_lt ‹_›; omega
  · have := length_after_lt ‹_›; omega

def term (ts : List Token) : Expr :=
  match _ : splitTopLevel ts multiplicative .last with
  | .error _ => .flaw .unbalanced
  | .ok none => unary ts
  | .ok (some s) => .binary (.ofToken s.operator) (term s.before) (unary s.after)
termination_by 7 * ts.length + 4
decreasing_by
  · omega
  · have := length_before_lt ‹_›; omega
  · have := length_after_lt ‹_›; omega

/-- A run of signs applies to all of the power behind it, so `-2 ^ 2` is `-4`. -/
def unary (ts : List Token) : Expr :=
  let signs := (ts.takeWhile Token.isPlusOrMinus).filterMap Sign.ofToken?
  let operand := power (ts.dropWhile Token.isPlusOrMinus)
  if signs.isEmpty then operand else .signed signs operand
termination_by 7 * ts.length + 3
decreasing_by
  have := (List.dropWhile_sublist (l := ts) Token.isPlusOrMinus).length_le
  omega

def power (ts : List Token) : Expr :=
  match _ : splitTopLevel ts [.caret] .first with
  | .error _ => .flaw .unbalanced
  | .ok none => primary ts
  | .ok (some s) => .binary .pow (primary s.before) (power s.after)
termination_by 7 * ts.length + 2
decreasing_by
  · omega
  · have := length_before_lt ‹_›; omega
  · have := length_after_lt ‹_›; omega

def primary (ts : List Token) : Expr :=
  match _ : Shape.ofTokens ts with
  | .factorial operand => .factorial (primary operand)
  | .group inner => .group (expression inner)
  | .call callee inner => .call callee (if inner.isEmpty then [] else arguments inner)
  | .unclosed => .flaw .unbalanced
  | .atom => atom ts
termination_by 7 * ts.length + 1
decreasing_by
  · simp [Shape.eq_of_factorial ‹_›]
  · simp only [Shape.eq_of_group ‹_›, List.length_append, List.length_cons]; omega
  · simp only [Shape.eq_of_call ‹_›, List.length_append, List.length_cons]; omega

def arguments (ts : List Token) : List Expr :=
  match _ : splitTopLevel ts [.comma] .last with
  | .error _ => [.flaw .unbalanced]
  | .ok none => [expression ts]
  | .ok (some s) => arguments s.before ++ [expression s.after]
termination_by 7 * ts.length + 6
decreasing_by
  · omega
  · have := length_before_lt ‹_›; omega
  · have := length_after_lt ‹_›; omega

end

theorem expression_of_error {ts : List Token} {failure : Failure}
    (h : splitTopLevel ts additive .last = .error failure) : expression ts = .flaw .unbalanced := by
  rw [expression]; split <;> simp_all

theorem expression_of_none {ts : List Token} (h : splitTopLevel ts additive .last = .ok none) :
    expression ts = term ts := by
  rw [expression]; split <;> simp_all

theorem expression_of_some {ts : List Token} {s : Split}
    (h : splitTopLevel ts additive .last = .ok (some s)) :
    expression ts = .binary (.ofToken s.operator) (expression s.before) (term s.after) := by
  rw [expression]; split <;> simp_all

theorem term_of_error {ts : List Token} {failure : Failure}
    (h : splitTopLevel ts multiplicative .last = .error failure) : term ts = .flaw .unbalanced := by
  rw [term]; split <;> simp_all

theorem term_of_none {ts : List Token} (h : splitTopLevel ts multiplicative .last = .ok none) :
    term ts = unary ts := by
  rw [term]; split <;> simp_all

theorem term_of_some {ts : List Token} {s : Split}
    (h : splitTopLevel ts multiplicative .last = .ok (some s)) :
    term ts = .binary (.ofToken s.operator) (term s.before) (unary s.after) := by
  rw [term]; split <;> simp_all

theorem power_of_error {ts : List Token} {failure : Failure}
    (h : splitTopLevel ts [.caret] .first = .error failure) : power ts = .flaw .unbalanced := by
  rw [power]; split <;> simp_all

theorem power_of_none {ts : List Token} (h : splitTopLevel ts [.caret] .first = .ok none) :
    power ts = primary ts := by
  rw [power]; split <;> simp_all

theorem power_of_some {ts : List Token} {s : Split}
    (h : splitTopLevel ts [.caret] .first = .ok (some s)) :
    power ts = .binary .pow (primary s.before) (power s.after) := by
  rw [power]; split <;> simp_all

theorem primary_of_factorial {ts operand : List Token}
    (h : Shape.ofTokens ts = .factorial operand) : primary ts = .factorial (primary operand) := by
  rw [primary]; split <;> simp_all

theorem primary_of_group {ts inner : List Token} (h : Shape.ofTokens ts = .group inner) :
    primary ts = .group (expression inner) := by
  rw [primary]; split <;> simp_all

theorem primary_of_call {ts inner : List Token} {callee : String}
    (h : Shape.ofTokens ts = .call callee inner) :
    primary ts = .call callee (if inner.isEmpty then [] else arguments inner) := by
  rw [primary]; split <;> simp_all

theorem primary_of_unclosed {ts : List Token} (h : Shape.ofTokens ts = .unclosed) :
    primary ts = .flaw .unbalanced := by
  rw [primary]; split <;> simp_all

theorem primary_of_atom {ts : List Token} (h : Shape.ofTokens ts = .atom) :
    primary ts = atom ts := by
  rw [primary]; split <;> simp_all

theorem arguments_of_error {ts : List Token} {failure : Failure}
    (h : splitTopLevel ts [.comma] .last = .error failure) : arguments ts = [.flaw .unbalanced] := by
  rw [arguments]; split <;> simp_all

theorem arguments_of_none {ts : List Token} (h : splitTopLevel ts [.comma] .last = .ok none) :
    arguments ts = [expression ts] := by
  rw [arguments]; split <;> simp_all

theorem arguments_of_some {ts : List Token} {s : Split}
    (h : splitTopLevel ts [.comma] .last = .ok (some s)) :
    arguments ts = arguments s.before ++ [expression s.after] := by
  rw [arguments]; split <;> simp_all

end Reader

end Reckoner
