import Reckoner.Proofs.Grammar.Soundness

/-!
# Statements and sentences

No list of tokens has two parse trees: reading inverts derivation, and what it gives back
determines the tree, as each expression stands at the root of trees of one level only. Together
with soundness this makes the statements that succeed exactly the sentences whose tree does. For a
text it means that the counting of brackets never matters to a success.
-/

namespace Reckoner

/-- How loose the rule is that an expression is derived by. -/
def Expr.looseness : Expr → Nat
  | .binary .add _ _ | .binary .sub _ _ => 4
  | .binary .mul _ _ | .binary .div _ _ | .binary .rem _ _ => 3
  | .signed _ _ => 2
  | .binary .pow _ _ => 1
  | _ => 0

namespace Grammar

def Level.looseness : Level → Nat
  | expression => 4
  | term => 3
  | unary => 2
  | power => 1
  | primary => 0

theorem Additive.operation_injective {op op' : Additive} (h : op.operation = op'.operation) :
    op = op' := by
  cases op <;> cases op' <;> simp_all [operation]

theorem Multiplicative.operation_injective {op op' : Multiplicative}
    (h : op.operation = op'.operation) : op = op' := by
  cases op <;> cases op' <;> simp_all [operation]

namespace Tree

variable {l : Level}

theorem looseness_sum (left : Tree .expression) (op : Additive) (right : Tree .term) :
    (sum left op right).expr.looseness = 4 := by
  cases op <;> rfl

theorem looseness_product (left : Tree .term) (op : Multiplicative) (right : Tree .unary) :
    (product left op right).expr.looseness = 3 := by
  cases op <;> rfl

theorem looseness_expr_le (t : Tree l) : t.expr.looseness ≤ l.looseness := by
  induction t with
  | sum left op right => exact Nat.le_of_eq (looseness_sum left op right)
  | ofTerm t ih => exact Nat.le_trans ih (by decide)
  | product left op right => exact Nat.le_of_eq (looseness_product left op right)
  | ofUnary t ih => exact Nat.le_trans ih (by decide)
  | signed signs operand ih =>
      cases signs with
      | nil => exact Nat.le_trans ih (by decide)
      | cons sign signs => exact Nat.le_refl _
  | power base exponent => exact Nat.le_refl _
  | ofPrimary t ih => exact Nat.le_trans ih (by decide)
  | group | call | named | previous | number | factorial => exact Nat.le_refl _

/-- No tree of a level derives an expression that stands at the root of a looser one. -/
theorem expr_ne_of_looser {e : Expr} (t : Tree l) (looser : l.looseness < e.looseness) :
    e ≠ t.expr := by
  rintro rfl
  exact absurd t.looseness_expr_le (Nat.not_le.mpr looser)

theorem exprOfAll_injective {args args' : List (Tree .expression)}
    (h : ∀ arg ∈ args, ∀ {arg' : Tree .expression}, arg.expr = arg'.expr → arg = arg')
    (eq : exprOfAll args = exprOfAll args') : args = args' := by
  induction args generalizing args' with
  | nil =>
      cases args' with
      | nil => rfl
      | cons => cases eq
  | cons arg args ih =>
      cases args' with
      | nil => cases eq
      | cons arg' args' =>
          obtain ⟨head, tail⟩ := List.forall_mem_cons.mp h
          obtain ⟨eqh, eqt⟩ := List.cons.inj eq
          rw [head eqh, ih tail eqt]

/-- Two trees of one level that derive the same expression are the same. -/
theorem expr_injective {t u : Tree l} (h : t.expr = u.expr) : t = u := by
  induction t with
  | sum left op right ihl ihr =>
      cases u with
      | sum left' op' right' =>
          obtain ⟨ho, hl, hr⟩ := Expr.binary.inj h
          rw [ihl hl, ihr hr, Additive.operation_injective ho]
      | ofTerm u =>
          exact absurd h (u.expr_ne_of_looser (by rw [looseness_sum]; decide))
  | ofTerm t ih =>
      cases u with
      | sum left op right =>
          exact absurd h.symm (t.expr_ne_of_looser (by rw [looseness_sum]; decide))
      | ofTerm u => rw [ih h]
  | product left op right ihl ihr =>
      cases u with
      | product left' op' right' =>
          obtain ⟨ho, hl, hr⟩ := Expr.binary.inj h
          rw [ihl hl, ihr hr, Multiplicative.operation_injective ho]
      | ofUnary u =>
          exact absurd h (u.expr_ne_of_looser (by rw [looseness_product]; decide))
  | ofUnary t ih =>
      cases u with
      | product left op right =>
          exact absurd h.symm (t.expr_ne_of_looser (by rw [looseness_product]; decide))
      | ofUnary u => rw [ih h]
  | signed signs operand ih =>
      cases u with
      | signed signs' operand' =>
          cases signs with
          | nil =>
              cases signs' with
              | nil => rw [ih h]
              | cons => exact absurd h.symm (operand.expr_ne_of_looser Nat.one_lt_two)
          | cons sign signs =>
              cases signs' with
              | nil => exact absurd h (operand'.expr_ne_of_looser Nat.one_lt_two)
              | cons sign' signs' =>
                  obtain ⟨hs, ho⟩ := Expr.signed.inj h
                  rw [hs, ih ho]
  | power base exponent ihb ihe =>
      cases u with
      | power base' exponent' =>
          obtain ⟨_, hb, he⟩ := Expr.binary.inj h
          rw [ihb hb, ihe he]
      | ofPrimary u => exact absurd h (u.expr_ne_of_looser Nat.zero_lt_one)
  | ofPrimary t ih =>
      cases u with
      | power base exponent => exact absurd h.symm (t.expr_ne_of_looser Nat.zero_lt_one)
      | ofPrimary u => rw [ih h]
  | group inner ih =>
      cases u with
      | group inner' => rw [ih (Expr.group.inj h)]
      | _ => cases h
  | call callee args ih =>
      cases u with
      | call callee' args' =>
          obtain ⟨hc, ha⟩ := Expr.call.inj h
          rw [hc, exprOfAll_injective ih ha]
      | _ => cases h
  | named name =>
      cases u with
      | named name' => rw [Expr.named.inj h]
      | _ => cases h
  | previous =>
      cases u with
      | previous => rfl
      | _ => cases h
  | number value =>
      cases u with
      | number value' => rw [Expr.number.inj h]
      | _ => cases h
  | factorial operand ih =>
      cases u with
      | factorial operand' => rw [ih (Expr.factorial.inj h)]
      | _ => cases h

/-- No list of tokens is derived by two trees of a level. -/
theorem tokens_injective {t u : Tree l} (h : t.tokens = u.tokens) : t = u := by
  apply expr_injective
  rw [← t.read_tokens, ← u.read_tokens, h]

end Tree

namespace Sentence

theorem expression_ne_declaration (e value : Tree .expression) (name : String) :
    e.tokens ≠ (declaration name value).tokens := by
  obtain ⟨first, rest, eq, ne⟩ := e.starts_ne_let
  rw [eq]
  exact fun same => ne (List.cons.inj same).1

theorem tokens_injective {s u : Sentence} (h : s.tokens = u.tokens) : s = u := by
  cases s with
  | declaration name value =>
      cases u with
      | declaration name' value' =>
          simp only [tokens, List.cons.injEq, Token.identifier.injEq, true_and] at h
          rw [h.1, Tree.tokens_injective h.2]
      | expression e => exact absurd h.symm (expression_ne_declaration e value name)
  | expression e =>
      cases u with
      | declaration name value => exact absurd h (expression_ne_declaration e value name)
      | expression e' => rw [Tree.tokens_injective h]

theorem nested (s : Sentence) : Nested s.tokens := by
  cases s with
  | declaration name value => exact .plain rfl (.plain rfl (.plain rfl value.nested))
  | expression e => exact e.nested

end Sentence

variable {c : Calculator} {env after : Environment} {ts : List Token} {x : Float}

theorem exists_tree_of_eval (h : (Reader.expression ts).eval c env = .ok x) :
    ∃ e : Tree .expression, e.tokens = ts :=
  sound .expression ts (Expr.flawless_of_eval _ h)

theorem exists_sentence_of_statement (h : (c.statement ts).run env = .ok x after) :
    ∃ s : Sentence, s.tokens = ts := by
  rw [Calculator.statement] at h
  cases made : Statement.ofTokens ts with
  | fault why =>
      rw [made, Calculator.run_fault] at h
      cases h
  | expression e =>
      obtain rfl := Statement.eq_of_expression made
      rw [made] at h
      obtain ⟨eval, _⟩ := Calculator.run_expression_eq_ok.mp h
      obtain ⟨e, eq⟩ := exists_tree_of_eval eval
      exact ⟨.expression e, eq⟩
  | declaration name value =>
      obtain ⟨rest, rfl, rfl⟩ := Statement.eq_of_declaration made
      rw [made] at h
      obtain ⟨_, eval, _⟩ := Calculator.run_declaration_eq_ok.mp h
      obtain ⟨e, rfl⟩ := exists_tree_of_eval eval
      exact ⟨.declaration name e, rfl⟩

/-- The statements that succeed are the sentences that do. -/
theorem statement_eq_ok_iff :
    (c.statement ts).run env = .ok x after ↔
      ∃ s : Sentence, s.tokens = ts ∧ s.run c env = .ok x after := by
  constructor
  · intro h
    obtain ⟨s, rfl⟩ := exists_sentence_of_statement h
    rw [Calculator.statement, s.ofTokens_tokens, s.perform_statement] at h
    exact ⟨s, rfl, h⟩
  · rintro ⟨s, rfl, h⟩
    rw [Calculator.statement, s.ofTokens_tokens, s.perform_statement, h]

/-- Counting the brackets rejects no sentence. -/
theorem tokenize_of_lex {source : String} {s : Sentence} (h : lex source.toList = .ok s.tokens) :
    tokenize source = .ok s.tokens := by
  have balanced := Nesting.isBalanced_iff.mpr s.nested.ofTokens_eq
  exact Failure.bind_eq_ok.mpr ⟨s.tokens, h, if_pos balanced⟩

theorem lex_of_tokenize {source : String} (h : tokenize source = .ok ts) :
    lex source.toList = .ok ts := by
  obtain ⟨found, eq, h⟩ := Failure.bind_eq_ok.mp h
  split at h
  · cases h
    exact eq
  · cases h

theorem evaluate_eq_ok_iff {source : String} :
    (c.evaluate source).run env = .ok x after ↔
      ∃ s : Sentence, lex source.toList = .ok s.tokens ∧ s.run c env = .ok x after := by
  rw [Calculator.run_evaluate_eq_ok]
  constructor
  · rintro ⟨ts, read, h⟩
    obtain ⟨s, rfl, run⟩ := statement_eq_ok_iff.mp h
    exact ⟨s, lex_of_tokenize read, run⟩
  · rintro ⟨s, read, run⟩
    exact ⟨s.tokens, tokenize_of_lex read, statement_eq_ok_iff.mpr ⟨s, rfl, run⟩⟩

/-- Nothing outside the grammar is accepted, of lists of tokens and of texts. Counting the brackets
of a text refuses no sentence, and without the count the same texts would succeed. -/
theorem accepted_iff_sentence (c : Calculator) (env : Environment) :
    (∀ ts x after, (c.statement ts).run env = .ok x after →
      Nested ts ∧ ∃ s : Sentence, s.tokens = ts ∧
        (∀ other : Sentence, other.tokens = ts → other = s) ∧ s.run c env = .ok x after) ∧
    (∀ source x after, (c.evaluate source).run env = .ok x after ↔
      ∃ s : Sentence, lex source.toList = .ok s.tokens ∧ s.run c env = .ok x after) ∧
    (∀ source (s : Sentence), lex source.toList = .ok s.tokens → tokenize source = .ok s.tokens) ∧
    ∀ source ts, lex source.toList = .ok ts → ∀ x after,
      (c.evaluate source).run env = .ok x after ↔ (c.statement ts).run env = .ok x after := by
  refine ⟨?_, fun _ _ _ => evaluate_eq_ok_iff, fun _ _ => tokenize_of_lex, ?_⟩
  · intro ts x after h
    obtain ⟨s, rfl, run⟩ := statement_eq_ok_iff.mp h
    refine ⟨s.nested, s, rfl, ?_, run⟩
    intro other same
    exact Sentence.tokens_injective same
  · intro source ts read x after
    rw [evaluate_eq_ok_iff, statement_eq_ok_iff, read]
    constructor
    · rintro ⟨s, same, run⟩
      exact ⟨s, (Except.ok.inj same).symm, run⟩
    · rintro ⟨s, rfl, run⟩
      exact ⟨s, rfl, run⟩

theorem accepted_iff_sentence_group :
    let ts := [Token.openParen, .number 2, .plus, .number 3, .closeParen]
    (({} : Calculator).statement ts).run {} = .ok (2 + 3) { previous := 2 + 3 } ∧ Nested ts ∧
      tokenize "(2 + 3)" = .ok ts ∧
      (({} : Calculator).evaluate "(2 + 3)").run {} = .ok (2 + 3) { previous := 2 + 3 } := by
  intro ts
  let s : Sentence := .expression (.ofTerm (.ofUnary (.signed [] (.ofPrimary (.group
    (.sum (.ofTerm (.ofUnary (.signed [] (.ofPrimary (.number 2))))) .plus
      (.ofUnary (.signed [] (.ofPrimary (.number 3))))))))))
  have read : lex "(2 + 3)".toList = .ok s.tokens := Failure.eq_ok_of_toOption (by decide +kernel)
  have accepted : (({} : Calculator).statement ts).run {} = .ok (2 + 3) { previous := 2 + 3 } :=
    statement_eq_ok_iff.mpr ⟨s, rfl, rfl⟩
  obtain ⟨list, _, counts, text⟩ := accepted_iff_sentence {} {}
  exact ⟨accepted, (list ts _ _ accepted).1, counts _ s read, (text _ ts read _ _).mpr accepted⟩

end Grammar

end Reckoner
