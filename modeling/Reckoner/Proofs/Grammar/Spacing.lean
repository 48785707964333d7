import Reckoner.Proofs.Lexical.Joined
import Reckoner.Proofs.Session.Stability

/-!
# Blanks in expressions

The grammar never puts two operands side by side: between them stands an operator, a bracket or a
comma. So no two tokens of an expression have texts that would grow together, and an expression
reads the same without its blanks. A declaration needs one, between `let` and the name.
-/

namespace Reckoner.Grammar

section Joins

variable {xs ys : List Token} {op : Token}

/-- A symbol keeps what stands before it apart from what stands behind it. -/
theorem isChain_join (hx : xs.IsChain Token.Apart) (hy : ys.IsChain Token.Apart)
    (symbol : op.isAlphanumeric = false) : (xs ++ op :: ys).IsChain Token.Apart := by
  refine hx.append (hy.cons ?_) ?_
  · intro t _ alphanumeric
    rw [symbol] at alphanumeric
    cases alphanumeric
  · intro t _ u first _
    obtain rfl := Option.some.inj first
    exact symbol

theorem isChain_cons (hx : xs.IsChain Token.Apart) (symbol : op.isAlphanumeric = false) :
    (op :: xs).IsChain Token.Apart :=
  isChain_join .nil hx symbol

theorem isChain_concat (hx : xs.IsChain Token.Apart) (symbol : op.isAlphanumeric = false) :
    (xs ++ [op]).IsChain Token.Apart :=
  isChain_join hx .nil symbol

theorem isChain_intercalate {parts : List (List Token)} {separator : Token}
    (symbol : separator.isAlphanumeric = false) (h : ∀ part ∈ parts, part.IsChain Token.Apart) :
    ([separator].intercalate parts).IsChain Token.Apart :=
  intercalate_of_join .nil (fun hx hy => isChain_join hx hy symbol) h

end Joins

namespace Tree

variable {l : Level}

theorem isChain_signs (signs : List Sign) {ts : List Token} (h : ts.IsChain Token.Apart) :
    (signs.map Sign.token ++ ts).IsChain Token.Apart := by
  induction signs with
  | nil => exact h
  | cons sign signs ih => exact isChain_cons ih (by cases sign <;> rfl)

/-- No two neighbours among the tokens of a tree need a blank between them. -/
theorem isChain_tokens (t : Tree l) : t.tokens.IsChain Token.Apart := by
  induction t with
  | sum left op right ihl ihr => exact isChain_join ihl ihr (by cases op <;> rfl)
  | ofTerm t ih => exact ih
  | product left op right ihl ihr => exact isChain_join ihl ihr (by cases op <;> rfl)
  | ofUnary t ih => exact ih
  | signed signs operand ih => exact isChain_signs signs ih
  | power base exponent ihb ihe => exact isChain_join ihb ihe rfl
  | ofPrimary t ih => exact ih
  | group inner ih => exact isChain_cons (isChain_concat ih rfl) rfl
  | call callee args ih =>
      have inside : ([.comma].intercalate (tokensOfAll args)).IsChain Token.Apart := by
        apply isChain_intercalate rfl
        rw [tokensOfAll_eq_map]
        exact List.forall_mem_map.mpr ih
      have opens : Token.openBracket.isAlphanumeric = false := rfl
      have closes : Token.closeBracket.isAlphanumeric = false := rfl
      exact isChain_join (.singleton (.identifier callee)) (isChain_concat inside closes) opens
  | named name => exact .singleton _
  | previous => exact .singleton _
  | number value => exact .singleton _
  | factorial operand ih => exact isChain_concat ih rfl

end Tree

/-- Blanks mean nothing inside an expression: without them a text that has a value is read as the
same tokens, and has the same value and the same environment after it. -/
theorem blanks_insignificant (c : Calculator) (env after : Environment) (source : String)
    (ts : List Token) (x : Float) (value : (c.evaluate source).run env = .ok x after)
    (read : tokenize source = .ok ts) (expression : ts.head? ≠ some .letKeyword) :
    tokenize (withoutBlanks source) = .ok ts ∧
      (c.evaluate (withoutBlanks source)).run env = .ok x after := by
  obtain ⟨found, eq, run⟩ := Calculator.run_evaluate_eq_ok.mp value
  obtain rfl := Except.ok.inj (eq.symm.trans read)
  obtain ⟨s, rfl⟩ := exists_sentence_of_statement run
  obtain ⟨e, rfl⟩ := exists_expression_of_tokens expression
  have compact := Lexical.tokenize_withoutBlanks read e.isChain_tokens
  exact ⟨compact, Calculator.run_evaluate_eq_ok.mpr ⟨_, compact, run⟩⟩

/-- The constant stays apart from the numbers, whose exponent it is not. -/
theorem blanks_insignificant_exponent :
    let ts : List Token := [.number 2, .star, .identifier "e", .plus, .number 5]
    let after : Environment := { previous := 2 * 3 + 5 }
    let c : Calculator := { constants := .ofList [("e", 3)] }
    (c.evaluate "2 * e\t+ 5 ").run {} = .ok (2 * 3 + 5) after ∧
      tokenize "2 * e\t+ 5 " = .ok ts ∧ ts.head? ≠ some .letKeyword ∧
        withoutBlanks "2 * e\t+ 5 " = "2*e+5" ∧ tokenize "2*e+5" = .ok ts ∧
          (c.evaluate "2*e+5").run {} = .ok (2 * 3 + 5) after := by
  intro ts after c
  have read : tokenize "2 * e\t+ 5 " = .ok ts := Failure.eq_ok_of_toOption (by decide +kernel)
  let two : Tree .term := .ofUnary (.signed [] (.ofPrimary (.number 2)))
  let product : Tree .term := .product two .star (.signed [] (.ofPrimary (.named "e")))
  let five : Tree .term := .ofUnary (.signed [] (.ofPrimary (.number 5)))
  have run : (c.statement ts).run {} = .ok (2 * 3 + 5) after :=
    statement_eq_ok_iff.mpr ⟨.expression (.sum (.ofTerm product) .plus five), rfl, rfl⟩
  have value := Calculator.run_evaluate_eq_ok.mpr ⟨ts, read, run⟩
  have compact : withoutBlanks "2 * e\t+ 5 " = "2*e+5" := by decide +kernel
  have again := blanks_insignificant c {} after "2 * e\t+ 5 " ts _ value read nofun
  rw [compact] at again
  exact ⟨value, read, nofun, compact, again⟩

end Reckoner.Grammar
