import Reckoner.Proofs.Grammar.Frame
import Reckoner.Proofs.Session.Stability

/-!
# A variable and the expression it was declared by

After `let x = e` the name `x` and the group `( e )` have the same value, so one can stand for the
other in every expression. On the side of the tokens, a name that no bracket follows is a primary
of its own, and a parenthesis with a properly nested list behind it opens the group of that list;
in both cases the rest is a frame that does not see which of the two fills it.
-/

namespace Reckoner.Grammar

variable {c : Calculator} {env after : Environment} {ts value : List Token} {name : String}
  {v w : Float}

/-- The expressions that have a value are the trees that have it. -/
theorem eval_expression_eq_ok_iff :
    (Reader.expression ts).eval c env = .ok w ↔
      ∃ t : Tree .expression, t.tokens = ts ∧ t.eval c env = .ok w := by
  have eval_tokens : ∀ t : Tree .expression,
      (Reader.expression t.tokens).eval c env = t.eval c env := by
    intro t
    rw [← t.eval_expr, ← t.read_tokens]
    rfl
  constructor
  · intro h
    obtain ⟨t, rfl⟩ := exists_tree_of_eval h
    exact ⟨t, rfl, (eval_tokens t).symm.trans h⟩
  · rintro ⟨t, rfl, h⟩
    exact (eval_tokens t).trans h

theorem Sentence.run_declaration_eq_ok {e : Tree .expression} :
    (Sentence.declaration name e).run c env = .ok v after ↔
      c.constants.contains name = false ∧ e.eval c env = .ok v ∧
        env.bindings.contains name = false ∧
        after = { bindings := env.bindings.insert name v, previous := v } := by
  rw [← perform_statement, statement, Calculator.run_declaration_eq_ok, e.eval_expr]

/-- What a declaration without `_` leaves: its name and its expression have the same value. -/
theorem exists_tree_of_declaration
    (h : (c.statement (.letKeyword :: .identifier name :: .equals :: value)).run env = .ok v after)
    (absent : .previous ∉ value) :
    ∃ e : Tree .expression, e.tokens = value ∧
      (Tree.named name).eval c after = (Tree.group e).eval c after := by
  obtain ⟨s, same, run⟩ := statement_eq_ok_iff.mp h
  cases s with
  | expression e =>
      obtain ⟨first, rest, eq, ne⟩ := e.starts_ne_let
      exact absurd (List.cons.inj (eq.symm.trans same)).1 ne
  | declaration other e =>
      obtain ⟨_, rfl, rfl⟩ : Token.letKeyword = .letKeyword ∧ other = name ∧ e.tokens = value := by
        simpa [Sentence.tokens] using same
      obtain ⟨constant, had, free, rfl⟩ := Sentence.run_declaration_eq_ok.mp run
      have has : e.eval c { bindings := env.bindings.insert other v, previous := v } = .ok v :=
        e.persists_eval (Table.le_insert free v) absent v had
      refine ⟨e, rfl, ?_⟩
      simp only [Tree.eval, Table.get?_eq_none constant, Table.get?_insert_self]
      exact has.symm

namespace Tree

variable {t : Tree .expression} {xs ys : List Token}

/-- A name that no bracket follows is a primary by itself. -/
theorem exists_frame_of_named (h : t.tokens = xs ++ .identifier name :: ys)
    (bare : ys.head? ≠ some .openBracket) :
    ∃ f : Frame .primary .expression, f.fill (.named name) = t ∧ f.before = xs ∧ f.after = ys := by
  obtain ⟨f, p, opens, filled, before, behind⟩ := t.framed rfl h
  cases opens with
  | named => exact ⟨f, filled, before, (List.cons.inj behind).2⟩
  | call callee args =>
      obtain ⟨_, rfl⟩ := List.cons.inj behind
      exact absurd rfl bare

/-- A parenthesis in front of a properly nested list and its closer opens the group of the list. -/
theorem exists_frame_of_group {e : Tree .expression}
    (h : t.tokens = xs ++ .openParen :: (e.tokens ++ .closeParen :: ys)) :
    ∃ f : Frame .primary .expression, f.fill (.group e) = t ∧ f.before = xs ∧ f.after = ys := by
  obtain ⟨f, p, opens, filled, before, behind⟩ := t.framed rfl h
  cases opens with
  | group inner =>
      have inside : inner.tokens ++ .closeParen :: f.after = e.tokens ++ .closeParen :: ys := by
        simpa [tokens] using behind
      have pair : Token.openParen.closer? = some .closeParen := rfl
      obtain ⟨same, rest⟩ := Nested.eq_of_append_closer pair inner.nested e.nested inside
      obtain rfl := tokens_injective same
      exact ⟨f, filled, before, rest⟩

end Tree

/-- A variable can be replaced by the group of the expression that it was declared by, and the
group by the variable, wherever the name does not stand in front of a bracket. -/
theorem eval_replace_iff {e : Tree .expression} (xs : List Token) {ys : List Token}
    (same : (Tree.named name).eval c env = (Tree.group e).eval c env)
    (bare : ys.head? ≠ some .openBracket) :
    (Reader.expression (xs ++ .identifier name :: ys)).eval c env = .ok w ↔
      (Reader.expression (xs ++ .openParen :: (e.tokens ++ .closeParen :: ys))).eval c env =
        .ok w := by
  rw [eval_expression_eq_ok_iff, eval_expression_eq_ok_iff]
  constructor
  · rintro ⟨t, tokens, has⟩
    obtain ⟨f, rfl, rfl, rfl⟩ := Tree.exists_frame_of_named tokens bare
    refine ⟨f.fill (.group e), ?_, (f.eval_congr same).symm.trans has⟩
    simp [f.tokens_fill, Tree.tokens]
  · rintro ⟨t, tokens, has⟩
    obtain ⟨f, rfl, rfl, rfl⟩ := Tree.exists_frame_of_group tokens
    refine ⟨f.fill (.named name), ?_, (f.eval_congr same).trans has⟩
    simp [f.tokens_fill, Tree.tokens]

/-- After a declaration that succeeded, the name and the declared expression in parentheses can
stand for each other: an expression has a value with the one exactly if it has it with the
other. -/
theorem declared_name_replaceable (c : Calculator) (env after : Environment) (name : String)
    (value : List Token) (v : Float)
    (declared : (c.statement (.letKeyword :: .identifier name :: .equals :: value)).run env =
      .ok v after)
    (absent : .previous ∉ value) (ts : List Token) (i : Nat)
    (here : ts[i]? = some (.identifier name)) (bare : ts[i + 1]? ≠ some .openBracket) (w : Float) :
    (Reader.expression ts).eval c after = .ok w ↔
      (Reader.expression
        (ts.take i ++ [.openParen] ++ value ++ [.closeParen] ++ ts.drop (i + 1))).eval c after =
          .ok w := by
  obtain ⟨e, rfl, same⟩ := exists_tree_of_declaration declared absent
  have cut : ts = ts.take i ++ .identifier name :: ts.drop (i + 1) := by
    obtain ⟨bound, at_i⟩ := List.getElem?_eq_some_iff.mp here
    rw [← at_i, List.getElem_cons_drop, List.take_append_drop]
  have next : (ts.drop (i + 1)).head? ≠ some .openBracket := by
    rwa [List.head?_drop]
  have replaced := eval_replace_iff (ts.take i) (w := w) same next
  rw [← cut] at replaced
  simpa using replaced

/-- The name of a function, declared by a call of it and replaced in another call. -/
theorem declared_name_replaceable_abs :
    let c : Calculator := {}
    let after : Environment :=
      { bindings := .ofList [("abs", Float.abs 2)], previous := Float.abs 2 }
    let value := [.identifier "abs", .openBracket, .number 2, .closeBracket]
    let w := Float.abs (Float.abs 2) * Float.abs 2
    (c.statement (.letKeyword :: .identifier "abs" :: .equals :: value)).run {} =
      .ok (Float.abs 2) after ∧
    (Reader.expression [.identifier "abs", .openBracket, .identifier "abs", .closeBracket, .star,
      .identifier "abs"]).eval c after = .ok w ∧
    (Reader.expression ([.identifier "abs", .openBracket, .openParen] ++ value ++
      [.closeParen, .closeBracket, .star, .identifier "abs"])).eval c after = .ok w := by
  intro c after value w
  let atom (p : Tree .primary) : Tree .unary := .signed [] (.ofPrimary p)
  let whole (p : Tree .primary) : Tree .expression := .ofTerm (.ofUnary (atom p))
  let ts : List Token := [.identifier "abs", .openBracket, .identifier "abs", .closeBracket, .star,
    .identifier "abs"]
  have declared : (c.statement (.letKeyword :: .identifier "abs" :: .equals :: value)).run {} =
      .ok (Float.abs 2) after :=
    statement_eq_ok_iff.mpr
      ⟨.declaration "abs" (whole (.call "abs" [whole (.number 2)])), rfl, rfl⟩
  have has : (Reader.expression ts).eval c after = .ok w :=
    eval_expression_eq_ok_iff.mpr
      ⟨.ofTerm (.product (.ofUnary (atom (.call "abs" [whole (.named "abs")]))) .star
        (atom (.named "abs"))), rfl, rfl⟩
  have replaced := declared_name_replaceable c {} after "abs" value (Float.abs 2) declared
    (by simp [value]) ts 2 rfl (by simp [ts]) w
  exact ⟨declared, has, replaced.mp has⟩

end Reckoner.Grammar
