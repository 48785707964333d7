import Reckoner.Proofs.Grammar.Yield

/-!
# Reading what a tree derives

`Tree.expr` drops the steps from one level to the next and keeps the rest. The reader gives exactly
this back for the tokens of a tree: the token at the root of the tree is the one that the range is
split at, by `Tree.clear` for the side that is searched first. Evaluation then agrees as well, so a
statement does what its tree says.
-/

namespace Reckoner

namespace Grammar

def Additive.operation : Additive → BinaryOp
  | plus => .add
  | minus => .sub

def Multiplicative.operation : Multiplicative → BinaryOp
  | star => .mul
  | slash => .div
  | percent => .rem

@[simp] theorem Additive.ofToken_token (op : Additive) :
    BinaryOp.ofToken op.token = op.operation := by
  cases op <;> rfl

@[simp] theorem Multiplicative.ofToken_token (op : Multiplicative) :
    BinaryOp.ofToken op.token = op.operation := by
  cases op <;> rfl

namespace Tree

mutual

/-- The expression that a tree derives. -/
def expr : {l : Level} → Tree l → Expr
  | _, .sum left op right => .binary op.operation left.expr right.expr
  | _, .ofTerm t => t.expr
  | _, .product left op right => .binary op.operation left.expr right.expr
  | _, .ofUnary t => t.expr
  | _, .signed signs operand =>
    if signs.isEmpty then operand.expr else .signed signs operand.expr
  | _, .power base exponent => .binary .pow base.expr exponent.expr
  | _, .ofPrimary t => t.expr
  | _, .group inner => .group inner.expr
  | _, .call callee args => .call callee (exprOfAll args)
  | _, .named name => .named name
  | _, .previous => .previous
  | _, .number value => .number value
  | _, .factorial operand => .factorial operand.expr

def exprOfAll : List (Tree .expression) → List Expr
  | [] => []
  | arg :: args => arg.expr :: exprOfAll args

end

theorem exprOfAll_eq_map (args : List (Tree .expression)) : exprOfAll args = args.map expr := by
  induction args with
  | nil => rfl
  | cons arg args ih => rw [exprOfAll, ih, List.map_cons]

end Tree

/-- The reader of a level. -/
def Level.read : Level → List Token → Expr
  | expression => Reader.expression
  | term => Reader.term
  | unary => Reader.unary
  | power => Reader.power
  | primary => Reader.primary

theorem intercalate_concat {parts : List (List Token)} (nonempty : parts ≠ [])
    (separator : Token) (last : List Token) :
    [separator].intercalate (parts ++ [last]) =
      [separator].intercalate parts ++ separator :: last := by
  induction parts with
  | nil => exact absurd rfl nonempty
  | cons part parts ih =>
      cases parts with
      | nil => simp
      | cons next parts => simpa using ih (List.cons_ne_nil next parts)

namespace Tree

variable {l : Level}

theorem arguments_ne_nil {args : List (Tree .expression)} (nonempty : args ≠ []) :
    [.comma].intercalate (tokensOfAll args) ≠ [] := by
  cases args with
  | nil => exact absurd rfl nonempty
  | cons arg args =>
      have := arg.tokens_ne_nil
      cases args <;> simp_all [tokensOfAll]

/-- An argument list is cut before its last argument. -/
theorem cut_arguments (parts : List (List Token)) (last : Tree .expression) :
    splitTopLevel ([.comma].intercalate parts ++ .comma :: last.tokens) [.comma] .last =
      .ok (some ⟨[.comma].intercalate parts, .comma, last.tokens⟩) := by
  have start : Scan.Clear [.comma] none last.tokens := last.clear (List.Subset.refl _) rfl
  exact splitTopLevel_last rfl rfl rfl last.ofTokens_tokens (start.comma_congr _)

theorem arguments_single {arg : Tree .expression} (h : Reader.expression arg.tokens = arg.expr) :
    Reader.arguments ([.comma].intercalate ([arg].map tokens)) = [arg].map expr := by
  have start : Scan.Clear [.comma] none arg.tokens := arg.clear (List.Subset.refl _) rfl
  have whole := splitTopLevel_of_clear arg.ofTokens_tokens start .last
  simpa [h] using Reader.arguments_of_none whole

theorem arguments_concat {init : List (Tree .expression)} {last : Tree .expression}
    (nonempty : init ≠ []) (h : Reader.expression last.tokens = last.expr)
    (front : Reader.arguments ([.comma].intercalate (init.map tokens)) = init.map expr) :
    Reader.arguments ([.comma].intercalate ((init ++ [last]).map tokens)) =
      (init ++ [last]).map expr := by
  have cut := cut_arguments (init.map tokens) last
  rw [List.map_append, List.map_singleton, intercalate_concat (by simpa using nonempty),
    Reader.arguments_of_some cut, front, h, List.map_append, List.map_singleton]

/-- The reader takes arguments off the end, so the ones in front stay as they are while the list
grows. -/
theorem arguments_append {init rest : List (Tree .expression)} (nonempty : init ≠ [])
    (h : ∀ arg ∈ rest, Reader.expression arg.tokens = arg.expr)
    (front : Reader.arguments ([.comma].intercalate (init.map tokens)) = init.map expr) :
    Reader.arguments ([.comma].intercalate ((init ++ rest).map tokens)) =
      (init ++ rest).map expr := by
  induction rest generalizing init with
  | nil => simpa using front
  | cons last rest ih =>
      obtain ⟨head, tail⟩ := List.forall_mem_cons.mp h
      rw [List.append_cons]
      exact ih (by simp) tail (arguments_concat nonempty head front)

theorem arguments_tokens {args : List (Tree .expression)} (nonempty : args ≠ [])
    (h : ∀ arg ∈ args, Reader.expression arg.tokens = arg.expr) :
    Reader.arguments ([.comma].intercalate (tokensOfAll args)) = exprOfAll args := by
  rw [tokensOfAll_eq_map, exprOfAll_eq_map]
  cases args with
  | nil => exact absurd rfl nonempty
  | cons first rest =>
      obtain ⟨head, tail⟩ := List.forall_mem_cons.mp h
      exact arguments_append (List.cons_ne_nil first []) tail (arguments_single head)

theorem isPlusOrMinus_of_mem {signs : List Sign} {t : Token} (h : t ∈ signs.map Sign.token) :
    t.isPlusOrMinus = true := by
  obtain ⟨sign, _, rfl⟩ := List.mem_map.mp h
  cases sign <;> rfl

theorem takeWhile_signs {ts : List Token} (signs : List Sign)
    (h : Starts (·.isPlusOrMinus = false) ts) :
    (signs.map Sign.token ++ ts).takeWhile Token.isPlusOrMinus = signs.map Sign.token := by
  obtain ⟨first, rest, rfl, unsigned⟩ := h
  rw [List.takeWhile_append_of_pos fun _ => isPlusOrMinus_of_mem]
  simp [unsigned]

theorem dropWhile_signs {ts : List Token} (signs : List Sign)
    (h : Starts (·.isPlusOrMinus = false) ts) :
    (signs.map Sign.token ++ ts).dropWhile Token.isPlusOrMinus = ts := by
  obtain ⟨first, rest, rfl, unsigned⟩ := h
  rw [List.dropWhile_append_of_pos fun _ => isPlusOrMinus_of_mem]
  simp [unsigned]

theorem filterMap_signs (signs : List Sign) :
    (signs.map Sign.token).filterMap Sign.ofToken? = signs := by
  induction signs with
  | nil => rfl
  | cons sign signs ih => cases sign <;> simpa [Sign.token, Sign.ofToken?] using ih

theorem cut_sum (left : Tree .expression) (op : Additive) (right : Tree .term) :
    splitTopLevel (left.tokens ++ op.token :: right.tokens) Reader.additive .last =
      .ok (some ⟨left.tokens, op.token, right.tokens⟩) := by
  have clear : Scan.Clear Reader.additive (some op.token) right.tokens :=
    right.clear (by decide) (by cases op <;> rfl)
  exact splitTopLevel_last (by cases op <;> rfl) op.token_not_isBracket
    (left.endsOperand.not_isSign op.token) right.ofTokens_tokens clear

theorem cut_product (left : Tree .term) (op : Multiplicative) (right : Tree .unary) :
    splitTopLevel (left.tokens ++ op.token :: right.tokens) Reader.multiplicative .last =
      .ok (some ⟨left.tokens, op.token, right.tokens⟩) := by
  have clear : Scan.Clear Reader.multiplicative (some op.token) right.tokens :=
    right.clear (by decide) (by cases op <;> rfl)
  exact splitTopLevel_last (by cases op <;> rfl) op.token_not_isBracket
    (left.endsOperand.not_isSign op.token) right.ofTokens_tokens clear

/-- The first `^` is the root, as the base in front of it has none outside of brackets. -/
theorem cut_power (base : Tree .primary) (exponent : Tree .power) :
    splitTopLevel (base.tokens ++ .caret :: exponent.tokens) [.caret] .first =
      .ok (some ⟨base.tokens, .caret, exponent.tokens⟩) := by
  have clear : Scan.Clear [.caret] none base.tokens := base.clear (by decide) rfl
  exact splitTopLevel_first rfl rfl (base.endsOperand.not_isSign _) base.ofTokens_tokens
    exponent.ofTokens_tokens clear

/-- A tree of a level that keeps the candidates inside is not cut. -/
theorem cut_none {candidates : List Token} (t : Tree l) (sub : candidates ⊆ l.closed)
    (search : Search) : splitTopLevel t.tokens candidates search = .ok none :=
  splitTopLevel_of_clear t.ofTokens_tokens (t.clear sub rfl) search

/-- Reading inverts derivation at every level. -/
theorem read_tokens (t : Tree l) : l.read t.tokens = t.expr := by
  induction t with
  | sum left op right ihl ihr =>
      calc Reader.expression (left.tokens ++ op.token :: right.tokens)
        _ = .binary (.ofToken op.token) (Reader.expression left.tokens)
              (Reader.term right.tokens) := Reader.expression_of_some (cut_sum left op right)
        _ = .binary op.operation left.expr right.expr := by
              rw [op.ofToken_token, ← ihl, ← ihr]; rfl
  | ofTerm t ih => exact (Reader.expression_of_none (t.cut_none (by decide) .last)).trans ih
  | product left op right ihl ihr =>
      calc Reader.term (left.tokens ++ op.token :: right.tokens)
        _ = .binary (.ofToken op.token) (Reader.term left.tokens)
              (Reader.unary right.tokens) := Reader.term_of_some (cut_product left op right)
        _ = .binary op.operation left.expr right.expr := by
              rw [op.ofToken_token, ← ihl, ← ihr]; rfl
  | ofUnary t ih => exact (Reader.term_of_none (t.cut_none (by decide) .last)).trans ih
  | signed signs operand ih =>
      have unsigned := operand.starts_unsigned (.inl rfl)
      simp only [Level.read, tokens, expr] at ih ⊢
      rw [Reader.unary, takeWhile_signs signs unsigned, dropWhile_signs signs unsigned,
        filterMap_signs, ih]
  | power base exponent ihb ihe =>
      calc Reader.power (base.tokens ++ .caret :: exponent.tokens)
        _ = .binary .pow (Reader.primary base.tokens) (Reader.power exponent.tokens) :=
              Reader.power_of_some (cut_power base exponent)
        _ = .binary .pow base.expr exponent.expr := by rw [← ihb, ← ihe]; rfl
  | ofPrimary t ih => exact (Reader.power_of_none (t.cut_none (by decide) .first)).trans ih
  | group inner ih =>
      exact (Reader.primary_of_group (Reader.Shape.ofTokens_group _)).trans (congrArg Expr.group ih)
  | call callee args ih =>
      refine (Reader.primary_of_call (Reader.Shape.ofTokens_call callee _)).trans ?_
      by_cases none : args = []
      · subst none
        rfl
      · rw [if_neg (by simpa using arguments_ne_nil none), arguments_tokens none ih, expr]
  | named name => exact Reader.primary_of_atom rfl
  | previous => exact Reader.primary_of_atom rfl
  | number value => exact Reader.primary_of_atom rfl
  | factorial operand ih =>
      exact (Reader.primary_of_factorial (Reader.Shape.ofTokens_factorial _)).trans
        (congrArg Expr.factorial ih)

variable (c : Calculator) (env : Environment)

theorem evalAll_exprOfAll {args : List (Tree .expression)}
    (h : ∀ arg ∈ args, arg.expr.eval c env = arg.eval c env) :
    Expr.evalAll c env (exprOfAll args) = evalAll c env args := by
  induction args with
  | nil => rfl
  | cons arg args ih =>
      obtain ⟨head, tail⟩ := List.forall_mem_cons.mp h
      simp only [exprOfAll, Expr.evalAll, evalAll, head, ih tail]

theorem eval_expr (t : Tree l) : t.expr.eval c env = t.eval c env := by
  induction t with
  | sum left op right ihl ihr =>
      simp only [expr, Expr.eval, ihl, ihr]
      cases op <;> rfl
  | ofTerm t ih => exact ih
  | product left op right ihl ihr =>
      simp only [expr, Expr.eval, ihl, ihr]
      cases op <;> rfl
  | ofUnary t ih => exact ih
  | signed signs operand ih =>
      cases signs with
      | nil => simp [expr, eval, ih]
      | cons sign signs => simp [expr, eval, Expr.eval, ih, Sign.negates]
  | power base exponent ihb ihe =>
      simp only [expr, Expr.eval, ihb, ihe]
      rfl
  | ofPrimary t ih => exact ih
  | group inner ih => exact ih
  | call callee args ih =>
      simp only [expr, Expr.eval, evalAll_exprOfAll c env ih]
      rfl
  | named name =>
      simp only [expr, Expr.eval, eval, Calculator.lookup]
      cases c.constants.get? name <;> cases env.bindings.get? name <;> rfl
  | previous => rfl
  | number value => rfl
  | factorial operand ih =>
      simp only [expr, Expr.eval, ih]
      rfl

end Tree

namespace Sentence

/-- The statement that a sentence makes. -/
def statement : Sentence → Statement
  | declaration name value => .declaration name value.expr
  | expression e => .expression e.expr

theorem ofTokens_tokens (s : Sentence) : Statement.ofTokens s.tokens = s.statement := by
  cases s with
  | declaration name value =>
      obtain ⟨first, rest, eq, _⟩ := value.starts_ne_let
      rw [tokens, statement, ← value.read_tokens, eq]
      exact Statement.ofTokens_of_let name first rest
  | expression e =>
      obtain ⟨first, rest, eq, ne⟩ := e.starts_ne_let
      rw [tokens, statement, ← e.read_tokens, eq]
      exact Statement.ofTokens_of_ne_let rest ne

theorem perform_statement (c : Calculator) (env : Environment) (s : Sentence) :
    (c.perform s.statement).run env = s.run c env := by
  cases s with
  | declaration name value =>
      rw [statement, Calculator.run_declaration, value.eval_expr]
      rfl
  | expression e =>
      rw [statement, Calculator.run_expression, e.eval_expr, run]
      cases e.eval c env <;> rfl

theorem run_evaluate {c : Calculator} {env : Environment} {text : String} {s : Sentence}
    (read : tokenize text = .ok s.tokens) : (c.evaluate text).run env = s.run c env := by
  rw [← s.perform_statement, ← s.ofTokens_tokens]
  simp [Calculator.evaluate, read, Calculator.statement]

end Sentence

/-- A statement does exactly what its parse tree says: it has the value of the tree, or fails
where the tree does, and leaves the environment that the tree leaves. -/
theorem statement_tokens (s : Sentence) (c : Calculator) (env : Environment) :
    (c.statement s.tokens).run env = s.run c env := by
  rw [Calculator.statement, s.ofTokens_tokens, s.perform_statement]

end Grammar

end Reckoner
