import Reckoner.Proofs.Grammar.Tree
import Reckoner.Proofs.Scan

/-!
# What a tree derives

The tokens of a tree are properly nested and end with an operand, so a sign behind them joins.
`Level.closed` names the tokens that a level keeps inside: in what a tree of that level derives they
occur between brackets or as signs only. Both facts together determine where a range splits.
-/

namespace Reckoner

/-- What holds of parts, and of any two such lists once they are joined, holds of all joined. -/
theorem intercalate_of_join {p : List Token → Prop} {parts : List (List Token)}
    {separator : Token} (nil : p []) (join : ∀ {xs ys}, p xs → p ys → p (xs ++ separator :: ys))
    (h : ∀ part ∈ parts, p part) : p ([separator].intercalate parts) := by
  induction parts with
  | nil => exact nil
  | cons part parts ih =>
      obtain ⟨head, tail⟩ := List.forall_mem_cons.mp h
      cases parts with
      | nil => rwa [List.intercalate_singleton]
      | cons next parts =>
          rw [List.intercalate_cons_cons, List.append_assoc]
          exact join head (ih tail)

theorem Nested.intercalate {parts : List (List Token)} {separator : Token}
    (plain : separator.isBracket = false) (h : ∀ part ∈ parts, Nested part) :
    Nested ([separator].intercalate parts) :=
  intercalate_of_join .nil (fun hx hy => hx.append (.plain plain hy)) h

theorem mem_intercalate {parts : List (List Token)} {part : List Token} {t separator : Token}
    (inside : part ∈ parts) (member : t ∈ part) : t ∈ [separator].intercalate parts := by
  induction parts with
  | nil => cases inside
  | cons first parts ih =>
      cases parts with
      | nil =>
          obtain rfl := List.mem_singleton.mp inside
          rwa [List.intercalate_singleton]
      | cons next parts =>
          rw [List.intercalate_cons_cons, List.append_assoc]
          rcases List.mem_cons.mp inside with rfl | behind
          · exact List.mem_append_left _ member
          · exact List.mem_append_right _ (.tail _ (ih behind))

namespace Grammar

theorem Additive.token_not_isBracket (op : Additive) : op.token.isBracket = false := by
  cases op <;> rfl

theorem Multiplicative.token_not_isBracket (op : Multiplicative) : op.token.isBracket = false := by
  cases op <;> rfl

namespace Tree

variable {l : Level}

theorem tokensOfAll_eq_map (args : List (Tree .expression)) :
    tokensOfAll args = args.map tokens := by
  induction args with
  | nil => rfl
  | cons arg args ih => rw [tokensOfAll, ih, List.map_cons]

theorem nested_signs (signs : List Sign) : Nested (signs.map Sign.token) := by
  induction signs with
  | nil => exact .nil
  | cons sign signs ih => exact .plain (by cases sign <;> rfl) ih

theorem nested_arguments {args : List (Tree .expression)} (h : ∀ arg ∈ args, Nested arg.tokens) :
    Nested ([.comma].intercalate (tokensOfAll args)) := by
  apply Nested.intercalate rfl
  intro part member
  rw [tokensOfAll_eq_map] at member
  obtain ⟨arg, inside, rfl⟩ := List.mem_map.mp member
  exact h arg inside

theorem mem_arguments {args : List (Tree .expression)} {arg : Tree .expression} {t : Token}
    (inside : arg ∈ args) (member : t ∈ arg.tokens) :
    t ∈ [.comma].intercalate (tokensOfAll args) := by
  rw [tokensOfAll_eq_map]
  exact mem_intercalate (List.mem_map_of_mem inside) member

/-- Every tree derives a properly nested list. -/
theorem nested (t : Tree l) : Nested t.tokens := by
  induction t with
  | sum left op right ihl ihr => exact ihl.append (.plain op.token_not_isBracket ihr)
  | ofTerm t ih => exact ih
  | product left op right ihl ihr => exact ihl.append (.plain op.token_not_isBracket ihr)
  | ofUnary t ih => exact ih
  | signed signs operand ih => exact (nested_signs signs).append ih
  | power base exponent ihb ihe => exact ihb.append (.plain rfl ihe)
  | ofPrimary t ih => exact ih
  | group inner ih => exact .enclose rfl ih
  | call callee args ih => exact .plain rfl (.enclose rfl (nested_arguments ih))
  | named name => exact .singleton rfl
  | previous => exact .singleton rfl
  | number value => exact .singleton rfl
  | factorial operand ih => exact ih.append (.singleton rfl)

theorem ofTokens_tokens (t : Tree l) : Nesting.ofTokens t.tokens = {} :=
  t.nested.ofTokens_eq

/-- A range whose last token is no operator: what follows it cannot be a sign. -/
def EndsOperand (ts : List Token) : Prop :=
  ∃ last, ts.getLast? = some last ∧ last.isOperator = false

theorem EndsOperand.append_left {ys : List Token} (h : EndsOperand ys) (xs : List Token) :
    EndsOperand (xs ++ ys) := by
  obtain ⟨last, eq, operand⟩ := h
  exact ⟨last, by simp [List.getLast?_append, eq], operand⟩

theorem EndsOperand.singleton {t : Token} (h : t.isOperator = false) : EndsOperand [t] :=
  ⟨t, rfl, h⟩

theorem EndsOperand.not_isSign {xs : List Token} (h : EndsOperand xs) (t : Token) :
    t.isSign xs.getLast? = false := by
  obtain ⟨last, eq, operand⟩ := h
  simp [Token.isSign, eq, operand]

theorem endsOperand (t : Tree l) : EndsOperand t.tokens := by
  induction t with
  | sum left op right _ ihr => exact (ihr.append_left [op.token]).append_left left.tokens
  | ofTerm t ih => exact ih
  | product left op right _ ihr => exact (ihr.append_left [op.token]).append_left left.tokens
  | ofUnary t ih => exact ih
  | signed signs operand ih => exact ih.append_left _
  | power base exponent _ ihe => exact (ihe.append_left [.caret]).append_left base.tokens
  | ofPrimary t ih => exact ih
  | group inner _ =>
      have closer : EndsOperand [.closeParen] := .singleton rfl
      exact closer.append_left (.openParen :: inner.tokens)
  | call callee args _ =>
      have closer : EndsOperand [.closeBracket] := .singleton rfl
      exact closer.append_left
        (.identifier callee :: .openBracket :: [.comma].intercalate (tokensOfAll args))
  | named name => exact .singleton rfl
  | previous => exact .singleton rfl
  | number value => exact .singleton rfl
  | factorial operand _ => exact (EndsOperand.singleton rfl).append_left operand.tokens

theorem tokens_ne_nil (t : Tree l) : t.tokens ≠ [] := by
  obtain ⟨last, eq, _⟩ := t.endsOperand
  intro empty
  simp [empty] at eq

/-- A range whose first token has a property. -/
def Starts (p : Token → Prop) (ts : List Token) : Prop :=
  ∃ first rest, ts = first :: rest ∧ p first

theorem Starts.append {p : Token → Prop} {xs : List Token} (h : Starts p xs) (ys : List Token) :
    Starts p (xs ++ ys) := by
  obtain ⟨first, rest, rfl, holds⟩ := h
  exact ⟨first, rest ++ ys, rfl, holds⟩

/-- No expression looks like a declaration. -/
theorem starts_ne_let (t : Tree l) : Starts (· ≠ .letKeyword) t.tokens := by
  induction t with
  | sum left op right ihl _ => exact ihl.append _
  | ofTerm t ih => exact ih
  | product left op right ihl _ => exact ihl.append _
  | ofUnary t ih => exact ih
  | signed signs operand ih =>
      cases signs with
      | nil => exact ih
      | cons sign signs => exact ⟨_, _, rfl, by cases sign <;> exact nofun⟩
  | power base exponent ihb _ => exact ihb.append _
  | ofPrimary t ih => exact ih
  | group | call | named | previous | number => exact ⟨_, _, rfl, nofun⟩
  | factorial operand ih => exact ih.append _

/-- Signs stand in front of a power, never at its start. -/
theorem starts_unsigned (t : Tree l) (tight : l = .power ∨ l = .primary) :
    Starts (·.isPlusOrMinus = false) t.tokens := by
  induction t with
  | sum | ofTerm | product | ofUnary | signed => simp at tight
  | power base exponent ihb _ => exact (ihb (.inr rfl)).append _
  | ofPrimary t ih => exact ih (.inr rfl)
  | group | call | named | previous | number => exact ⟨_, _, rfl, rfl⟩
  | factorial operand ih => exact (ih (.inr rfl)).append _

end Tree

/-- The tokens that a level keeps inside. -/
def Level.closed : Level → List Token
  | expression => [.comma]
  | term => [.comma, .plus, .minus]
  | unary | power => [.comma, .plus, .minus, .star, .slash, .percent]
  | primary => [.comma, .plus, .minus, .star, .slash, .percent, .caret]

namespace Tree

variable {l : Level} {candidates : List Token} {before : Option Token}

theorem contains_eq_false {t : Token} (sub : candidates ⊆ l.closed)
    (absent : l.closed.contains t = false) : candidates.contains t = false := by
  rw [List.contains_eq_any_beq, List.any_eq_false] at absent ⊢
  exact fun u member => absent u (sub member)

theorem clear_signs {ts : List Token} (signs : List Sign) (start : before.all Token.isOperator)
    (h : ∀ {b : Option Token}, b.all Token.isOperator → Scan.Clear candidates b ts) :
    Scan.Clear candidates before (signs.map Sign.token ++ ts) := by
  induction signs generalizing before with
  | nil => exact h start
  | cons sign signs ih =>
      refine .cons (.inr ?_) (ih ?_)
      · cases sign <;> simp [Token.isSign, Sign.token, Token.isPlusOrMinus, start]
      · cases sign <;> rfl

theorem clear_join {xs ys : List Token} {op : Token} (plain : op.isBracket = false)
    (absent : candidates.contains op = false) (balanced : Nesting.ofTokens ys = {})
    (hx : Scan.Clear candidates before xs) (hy : Scan.Clear candidates (some op) ys) :
    Scan.Clear candidates before (xs ++ op :: ys) := by
  refine hx.append (.cons (.inl absent) hy) ?_
  simp [Nesting.ofTokens_cons, Token.weight_of_not_isBracket plain, balanced]

/-- At the start of a range or behind an operator, a tree is clear of what its level keeps
inside. -/
theorem clear (t : Tree l) (sub : candidates ⊆ l.closed) (start : before.all Token.isOperator) :
    Scan.Clear candidates before t.tokens := by
  induction t generalizing before with
  | sum left op right ihl ihr =>
      have absent : candidates.contains op.token = false :=
        contains_eq_false sub (by cases op <;> rfl)
      exact clear_join op.token_not_isBracket absent right.ofTokens_tokens (ihl sub start)
        (ihr (List.Subset.trans sub (by decide)) (by cases op <;> rfl))
  | ofTerm t ih => exact ih (List.Subset.trans sub (by decide)) start
  | product left op right ihl ihr =>
      have absent : candidates.contains op.token = false :=
        contains_eq_false sub (by cases op <;> rfl)
      exact clear_join op.token_not_isBracket absent right.ofTokens_tokens (ihl sub start)
        (ihr (List.Subset.trans sub (by decide)) (by cases op <;> rfl))
  | ofUnary t ih => exact ih (List.Subset.trans sub (by decide)) start
  | signed signs operand ih => exact clear_signs signs start (ih sub)
  | power base exponent ihb ihe =>
      exact clear_join rfl (contains_eq_false sub rfl) exponent.ofTokens_tokens
        (ihb (List.Subset.trans sub (by decide)) start) (ihe sub rfl)
  | ofPrimary t ih => exact ih (List.Subset.trans sub (by decide)) start
  | group inner _ => exact .enclose rfl inner.nested (contains_eq_false sub rfl)
  | call callee args _ =>
      exact .cons (.inl (contains_eq_false sub rfl))
        (.enclose rfl (nested_arguments fun arg _ => arg.nested) (contains_eq_false sub rfl))
  | named name => exact .singleton (contains_eq_false sub rfl)
  | previous => exact .singleton (contains_eq_false sub rfl)
  | number value => exact .singleton (contains_eq_false sub rfl)
  | factorial operand ih =>
      exact (ih sub start).append (.singleton (contains_eq_false sub rfl)) rfl

end Tree

end Grammar

end Reckoner
