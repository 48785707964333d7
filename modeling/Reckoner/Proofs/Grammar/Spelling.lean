import Reckoner.Proofs.Binary64.Packing
import Reckoner.Proofs.Function.Standard
import Reckoner.Proofs.Grammar.Reading

/-!
# Operations with two spellings

`sum[a, b, c]` and `a + b + c` add the same numbers in the same order, and stop at the same first
failure of an operand. The call starts its sum from `-0` and the operators start from the first
operand, which comes to the same as `-0` adds nothing. `factorial[a]` and `(a)!` are one function.
-/

namespace Reckoner.Grammar

/-- The lists of tokens that a rule derives. -/
def Derives (l : Level) (ts : List Token) : Prop :=
  ∃ t : Tree l, t.tokens = ts

variable {l : Level} {c : Calculator} {env : Environment}

/-- Trees for lists of tokens that are all derived by one rule. -/
theorem exists_trees {parts : List (List Token)} (h : ∀ part ∈ parts, Derives l part) :
    ∃ trees : List (Tree l), trees.map Tree.tokens = parts := by
  induction parts with
  | nil => exact ⟨[], rfl⟩
  | cons part parts ih =>
      obtain ⟨head, tail⟩ := List.forall_mem_cons.mp h
      obtain ⟨t, rfl⟩ := head
      obtain ⟨trees, rfl⟩ := ih tail
      exact ⟨t :: trees, rfl⟩

namespace Tree

/-- A tree's tokens, read and evaluated. -/
theorem eval_read_tokens (e : Tree .expression) :
    (Reader.expression e.tokens).eval c env = e.eval c env := by
  have read : Reader.expression e.tokens = e.expr := e.read_tokens
  rw [read, e.eval_expr]

/-- Terms added to an expression, from left to right. -/
def plusTerms (left : Tree .expression) (terms : List (Tree .term)) : Tree .expression :=
  terms.foldl (fun left t => .sum left .plus t) left

theorem tokens_plusTerms (left : Tree .expression) (terms : List (Tree .term)) :
    (left.plusTerms terms).tokens = [.plus].intercalate (left.tokens :: terms.map tokens) := by
  induction terms generalizing left with
  | nil => exact List.intercalate_singleton.symm
  | cons t terms ih =>
      have added : (plusTerms (.sum left .plus t) terms).tokens =
          [.plus].intercalate ((left.tokens ++ .plus :: t.tokens) :: terms.map tokens) :=
        ih (.sum left .plus t)
      rw [List.map_cons, List.intercalate_cons_cons]
      refine added.trans ?_
      cases terms with
      | nil => simp [List.intercalate_singleton]
      | cons next terms => simp [List.intercalate_cons_cons]

theorem eval_plusTerms (left : Tree .expression) (terms : List (Tree .term)) :
    (left.plusTerms terms).eval c env = (do
      let x ← left.eval c env
      let xs ← evalAll c env (terms.map .ofTerm)
      return xs.foldl (· + ·) x) := by
  induction terms generalizing left with
  | nil => exact (bind_pure (left.eval c env)).symm
  | cons t terms ih =>
      refine (ih (.sum left .plus t)).trans ?_
      simp only [List.map_cons, eval, evalAll]
      cases left.eval c env with
      | error => rfl
      | ok x =>
          cases t.eval c env with
          | error => rfl
          | ok y => cases evalAll c env (terms.map .ofTerm) <;> rfl

theorem eval_call (callee : String) (args : List (Tree .expression)) :
    (call callee args).eval c env = (do
      let values ← evalAll c env args
      c.functions.call callee values) := by
  rw [eval]
  rfl

/-- A primary as an expression. -/
def loosen (t : Tree .primary) : Tree .expression :=
  .ofTerm (.ofUnary (.signed [] (.ofPrimary t)))

theorem eval_loosen (t : Tree .primary) : t.loosen.eval c env = t.eval c env :=
  bind_pure (t.eval c env)

theorem eval_read_primary (t : Tree .primary) :
    (Reader.expression t.tokens).eval c env = t.eval c env :=
  t.loosen.eval_read_tokens.trans t.eval_loosen

theorem tokens_call_terms (callee : String) (terms : List (Tree .term)) :
    (call callee (terms.map .ofTerm)).tokens = .identifier callee :: .openBracket ::
      ([.comma].intercalate (terms.map tokens) ++ [.closeBracket]) := by
  rw [tokens, tokensOfAll_eq_map, List.map_map]
  rfl

theorem tokens_call_single (callee : String) (e : Tree .expression) :
    (call callee [e]).tokens =
      .identifier callee :: .openBracket :: (e.tokens ++ [.closeBracket]) := by
  rw [tokens, tokensOfAll, tokensOfAll, List.intercalate_singleton]

theorem tokens_factorial_group (e : Tree .expression) :
    (factorial (.group e)).tokens = .openParen :: (e.tokens ++ [.closeParen, .bang]) := by
  simp [tokens]

end Tree

section Standard

theorem total_cons (x : Float) (xs : List Float) :
    Builtin.total (x :: xs) = xs.foldl (· + ·) x := by
  rw [Builtin.total, List.foldl_cons, Binary64.neg_zero_add]

variable (standard : c.functions = .standard)
include standard

/-- The sum of terms by its two spellings. -/
theorem eval_sum_call (first : Tree .term) (rest : List (Tree .term)) :
    (Tree.call "sum" ((first :: rest).map .ofTerm)).eval c env =
      ((Tree.ofTerm first).plusTerms rest).eval c env := by
  have body (xs : List Float) : Library.standard.call "sum" xs = .ok (Builtin.total xs) :=
    Library.call_standard (b := .sum) rfl
  rw [Tree.eval_call, Tree.eval_plusTerms, standard, List.map_cons, Tree.evalAll]
  cases (Tree.ofTerm first).eval c env with
  | error => rfl
  | ok x =>
      cases Tree.evalAll c env (rest.map .ofTerm) with
      | error => rfl
      | ok xs => exact (body (x :: xs)).trans (congrArg Except.ok (total_cons x xs))

/-- The factorial by its two spellings. -/
theorem eval_factorial_call (e : Tree .expression) :
    (Tree.call "factorial" [e]).eval c env = (Tree.factorial (.group e)).eval c env := by
  have body (x : Float) : Library.standard.call "factorial" [x] = Numeric.factorial x :=
    Library.call_standard (b := .factorial) rfl
  rw [Tree.eval_call, standard]
  simp only [Tree.evalAll, Tree.eval]
  cases e.eval c env with
  | error => rfl
  | ok x => exact body x

end Standard

/-- With the standard functions, a sum and a factorial have the same value or the same failure
whether they are written as a call or with operators. -/
theorem spellings_agree (constants : Table Float) (env : Environment) :
    let c : Calculator := { constants }
    (∀ terms : List (List Token), terms ≠ [] → (∀ ts ∈ terms, Derives .term ts) →
      (Reader.expression (.identifier "sum" :: .openBracket ::
        ([.comma].intercalate terms ++ [.closeBracket]))).eval c env =
          (Reader.expression ([.plus].intercalate terms)).eval c env) ∧
    ∀ ts, Derives .expression ts →
      (Reader.expression (.identifier "factorial" :: .openBracket :: (ts ++ [.closeBracket]))).eval
        c env = (Reader.expression (.openParen :: (ts ++ [.closeParen, .bang]))).eval c env := by
  intro c
  refine ⟨?_, ?_⟩
  · intro terms nonempty derived
    obtain ⟨trees, rfl⟩ := exists_trees derived
    cases trees with
    | nil => exact absurd rfl nonempty
    | cons first rest =>
        have operators : ((Tree.ofTerm first).plusTerms rest).tokens =
            [.plus].intercalate ((first :: rest).map Tree.tokens) :=
          (Tree.ofTerm first).tokens_plusTerms rest
        rw [← Tree.tokens_call_terms, ← operators, Tree.eval_read_primary, Tree.eval_read_tokens,
          eval_sum_call rfl]
  · rintro ts ⟨e, rfl⟩
    rw [← Tree.tokens_call_single, ← Tree.tokens_factorial_group, Tree.eval_read_primary,
      Tree.eval_read_primary, eval_factorial_call rfl]

/-- A sign may follow a comma and an operator alike. -/
theorem spellings_agree_signed :
    let c : Calculator := { constants := .empty }
    let terms : List (List Token) := [[.minus, .number 1], [.minus, .number 2, .star, .number 3]]
    let call : List Token := .identifier "sum" :: .openBracket ::
      ([.comma].intercalate terms ++ [.closeBracket])
    let e : List Token := [.number 4, .minus, .number 1]
    terms ≠ [] ∧ (∀ ts ∈ terms, Derives .term ts) ∧
      (Reader.expression call).eval c {} = .ok (-1 + -2 * 3) ∧ Derives .expression e ∧
      (Reader.expression (.identifier "factorial" :: .openBracket :: (e ++ [.closeBracket]))).eval
        c {} = Numeric.factorial (4 - 1) := by
  intro c terms call e
  let one : Tree .term := .ofUnary (.signed [.minus] (.ofPrimary (.number 1)))
  let six : Tree .term := .product (.ofUnary (.signed [.minus] (.ofPrimary (.number 2)))) .star
    (.signed [] (.ofPrimary (.number 3)))
  let three : Tree .expression := .sum (Tree.number 4).loosen .minus
    (.ofUnary (.signed [] (.ofPrimary (.number 1))))
  have derived : ∀ ts ∈ terms, Derives .term ts := by
    intro ts member
    simp only [terms, List.mem_cons, List.not_mem_nil, or_false] at member
    obtain rfl | rfl := member
    · exact ⟨one, rfl⟩
    · exact ⟨six, rfl⟩
  have operators : (Reader.expression ([.plus].intercalate terms)).eval c {} =
      .ok (-1 + -2 * 3) :=
    Tree.eval_read_tokens (.sum (.ofTerm one) .plus six)
  have bang : (Reader.expression (.openParen :: (e ++ [.closeParen, .bang]))).eval c {} =
      Numeric.factorial (4 - 1) :=
    (Tree.factorial (.group three)).eval_read_primary
  obtain ⟨sums, factorials⟩ := spellings_agree .empty {}
  exact ⟨by simp [terms], derived, (sums terms (by simp [terms]) derived).trans operators,
    ⟨three, rfl⟩, (factorials e ⟨three, rfl⟩).trans bang⟩

end Reckoner.Grammar
