import Reckoner.Proofs.Function.Refusal
import Reckoner.Proofs.Grammar.Mention
import Reckoner.Proofs.Grammar.Sentence
import Reckoner.Proofs.Session.Result

/-!
# Causes of failures

A failure names what stands in the statement: the name that is not bound, in the part that it plays
there, or the token that starts no operand. What evaluation fails with is explained by one of the
mentions of the expression, or it is a refusal of operands; and mentions stand in the tokens. The
tree of a sentence mentions no flaw, so a sentence fails only where its names or operands do.
-/

namespace Reckoner

/-- The tokens form a sentence of the grammar. -/
def IsSentence (ts : List Token) : Prop :=
  ∃ s : Grammar.Sentence, s.tokens = ts

/-- What has to be true of a statement and its setting for it to fail in some way. -/
def Failure.Caused (c : Calculator) (env : Environment) (ts : List Token) : Failure → Prop
  | redeclared name => (∃ rest, ts = .letKeyword :: .identifier name :: .equals :: rest) ∧
      (c.constants.contains name = true ∨ env.bindings.contains name = true)
  | undefined name =>
      BareIn name ts ∧ c.constants.contains name = false ∧ env.bindings.contains name = false ∨
        CalledIn name ts ∧ c.functions.contains name = false
  | unknownToken text =>
      (∃ t ∈ ts, t.text = text ∧ t.isAtom = false ∧ t ≠ .openParen) ∧ ¬ IsSentence ts
  | syntaxError _ | unbalanced => ¬ IsSentence ts
  | badLiteral _ => False
  | unsupportedOperand _ => True

/-- The failure that a mention leads to. -/
def Mention.Explains (c : Calculator) (env : Environment) (failure : Failure) : Mention → Prop
  | bare name => failure = .undefined name ∧ c.constants.get? name = none ∧
      env.bindings.get? name = none
  | callee name => failure = .undefined name ∧ c.functions.get? name = none
  | previous => False
  | flaw why => failure = why.failure

variable {c : Calculator} {env : Environment} {ts : List Token} {p : Failure → Prop}

theorem Calculator.failsOnly_lookup {name : String}
    (h : ∀ failure, (Mention.bare name).Explains c env failure → p failure) :
    FailsOnly p (c.lookup env name) := by
  unfold lookup
  split
  · exact .ok _
  · next constant =>
    split
    · exact .ok _
    · next free => exact .error (h _ ⟨rfl, constant, free⟩)

theorem Library.failsOnly_call {name : String} (refusal : ∀ fault, p (.unsupportedOperand fault))
    (bodies : c.functions.OnlyRefuses)
    (h : ∀ failure, (Mention.callee name).Explains c env failure → p failure)
    (args : List Float) : FailsOnly p (c.functions.call name args) := by
  unfold call
  split
  · next absent => exact .error (h _ ⟨rfl, absent⟩)
  · next f registered =>
    refine .ite ((bodies name f registered args).mono ?_) (.error (refusal _))
    rintro _ ⟨fault, rfl⟩
    exact refusal fault

namespace Expr

mutual

/-- Evaluation fails by a refusal of operands or by something that the expression mentions. -/
theorem failsOnly_eval (refusal : ∀ fault, p (.unsupportedOperand fault))
    (bodies : c.functions.OnlyRefuses) :
    (e : Expr) → (∀ m ∈ e.mentions, ∀ failure, m.Explains c env failure → p failure) →
      FailsOnly p (e.eval c env)
  | .number value, _ => .ok value
  | .named _, h => Calculator.failsOnly_lookup (h _ (List.mem_singleton_self _))
  | .previous, _ => .ok _
  | .group inner, h => failsOnly_eval refusal bodies inner h
  | .call callee args, h => by
      obtain ⟨called, inArgs⟩ := List.forall_mem_cons.mp h
      exact (failsOnly_evalAll refusal bodies args inArgs).bind
        fun values => Library.failsOnly_call refusal bodies called values
  | .factorial operand, h => by
      refine (failsOnly_eval refusal bodies operand h).bind fun x => ?_
      refine (Numeric.failsOnly_factorial x).mono ?_
      rintro _ ⟨fault, rfl⟩
      exact refusal fault
  | .signed _ operand, h => (failsOnly_eval refusal bodies operand h).bind fun _ => .ok _
  | .binary op left right, h => by
      obtain ⟨inLeft, inRight⟩ := List.forall_mem_append.mp h
      have left := failsOnly_eval refusal bodies left inLeft
      have right := failsOnly_eval refusal bodies right inRight
      simp only [eval]
      split
      · exact right.bind fun _ => .ite (.error (refusal _)) (left.bind fun _ => .ok _)
      · exact left.bind fun _ => right.bind fun _ => .ok _
  | .flaw why, h => .error (h _ (List.mem_singleton_self _) _ rfl)

theorem failsOnly_evalAll (refusal : ∀ fault, p (.unsupportedOperand fault))
    (bodies : c.functions.OnlyRefuses) :
    (es : List Expr) → (∀ m ∈ mentionsOfAll es, ∀ failure, m.Explains c env failure → p failure) →
      FailsOnly p (evalAll c env es)
  | [], _ => .ok []
  | e :: es, h => by
      obtain ⟨inHead, inTail⟩ := List.forall_mem_append.mp h
      exact (failsOnly_eval refusal bodies e inHead).bind
        fun _ => (failsOnly_evalAll refusal bodies es inTail).bind fun _ => .ok _

end

end Expr

namespace Grammar

variable {l : Level} {why : Flaw}

theorem Tree.flaw_notMem_all {args : List (Tree .expression)}
    (h : ∀ arg ∈ args, .flaw why ∉ arg.expr.mentions) :
    .flaw why ∉ Expr.mentionsOfAll (exprOfAll args) := by
  induction args with
  | nil => exact List.not_mem_nil
  | cons arg args ih =>
      obtain ⟨head, tail⟩ := List.forall_mem_cons.mp h
      simp [exprOfAll, Expr.mentionsOfAll, head, ih tail]

/-- What a tree derives has no flaw in it. -/
theorem Tree.flaw_notMem (t : Tree l) : .flaw why ∉ t.expr.mentions := by
  induction t with
  | sum left op right ihl ihr => simp [expr, Expr.mentions, ihl, ihr]
  | ofTerm t ih => exact ih
  | product left op right ihl ihr => simp [expr, Expr.mentions, ihl, ihr]
  | ofUnary t ih => exact ih
  | signed signs operand ih => cases signs <;> simpa [expr, Expr.mentions] using ih
  | power base exponent ihb ihe => simp [expr, Expr.mentions, ihb, ihe]
  | ofPrimary t ih => exact ih
  | group inner ih => exact ih
  | call callee args ih => simpa [expr, Expr.mentions] using flaw_notMem_all ih
  | named name => simp [expr, Expr.mentions]
  | previous => simp [expr, Expr.mentions]
  | number value => simp [expr, Expr.mentions]
  | factorial operand ih => exact ih

theorem not_isSentence_of_fault {fault : SyntaxFault}
    (made : Statement.ofTokens ts = .fault fault) : ¬ IsSentence ts := by
  rintro ⟨s, rfl⟩
  rw [s.ofTokens_tokens] at made
  cases s <;> cases made

theorem not_isSentence_of_expression {e : Expr} (made : Statement.ofTokens ts = .expression e)
    (member : .flaw why ∈ e.mentions) : ¬ IsSentence ts := by
  rintro ⟨s, rfl⟩
  rw [s.ofTokens_tokens] at made
  cases s with
  | declaration name value => cases made
  | expression t =>
      cases made
      exact t.flaw_notMem member

theorem not_isSentence_of_declaration {name : String} {e : Expr}
    (made : Statement.ofTokens ts = .declaration name e) (member : .flaw why ∈ e.mentions) :
    ¬ IsSentence ts := by
  rintro ⟨s, rfl⟩
  rw [s.ofTokens_tokens] at made
  cases s with
  | declaration name value =>
      cases made
      exact value.flaw_notMem member
  | expression t => cases made

end Grammar

/-- What a mention explains has its cause in the tokens, if these are no sentence where the mention
is a flaw. -/
theorem Mention.Explains.caused {m : Mention} {failure : Failure} (h : m.Explains c env failure)
    (inside : m.In ts) (flawed : ∀ why, m = .flaw why → ¬ IsSentence ts) :
    failure.Caused c env ts := by
  cases m with
  | bare name =>
      obtain ⟨rfl, constant, free⟩ := h
      exact .inl ⟨inside, by simp [Table.contains, constant], by simp [Table.contains, free]⟩
  | callee name =>
      obtain ⟨rfl, absent⟩ := h
      exact .inr ⟨inside, by simp [Table.contains, absent]⟩
  | previous => cases h
  | flaw why =>
      have broken := flawed why rfl
      obtain rfl : failure = why.failure := h
      cases why with
      | unbalanced | missingOperand | trailing => exact broken
      | misplaced t => exact ⟨⟨t, inside.1, rfl, inside.2⟩, broken⟩

/-- An expression whose mentions stand in the tokens, and whose flaws keep these from being a
sentence, fails only for causes in them. -/
theorem Expr.failsOnly_caused (bodies : c.functions.OnlyRefuses) {e : Expr}
    (inside : ∀ m ∈ e.mentions, m.In ts)
    (flawed : ∀ why, .flaw why ∈ e.mentions → ¬ IsSentence ts) :
    FailsOnly (Failure.Caused c env ts) (e.eval c env) := by
  have refusal : ∀ fault, (Failure.unsupportedOperand fault).Caused c env ts := fun _ => trivial
  apply failsOnly_eval refusal bodies
  intro m member failure explains
  apply explains.caused (inside m member)
  rintro why rfl
  exact flawed why member

theorem Calculator.failsOnly_result (bodies : c.functions.OnlyRefuses) (ts : List Token) :
    FailsOnly (Failure.Caused c env ts) (c.result env ts) := by
  unfold result
  split
  · next fault made => exact .error (Grammar.not_isSentence_of_fault made)
  · next e made =>
    exact Expr.failsOnly_caused bodies (Grammar.in_of_expression made) fun _ =>
      Grammar.not_isSentence_of_expression made
  · next name e made =>
    obtain ⟨rest, starts, _⟩ := Statement.eq_of_declaration made
    have value : FailsOnly (Failure.Caused c env ts) (e.eval c env) :=
      Expr.failsOnly_caused bodies (Grammar.in_of_declaration made) fun _ =>
        Grammar.not_isSentence_of_declaration made
    split
    · next constant => exact .error ⟨⟨rest, starts⟩, .inl constant⟩
    · split
      · next failure failed => exact .error (value failure failed)
      · split
        · next bound => exact .error ⟨⟨rest, starts⟩, .inr bound⟩
        · exact .ok _

/-- Every failure of a statement has its cause in the statement, whether that is a sentence or
not, if the functions fail only by refusing their operands; and all builtins do. -/
theorem failure_caused :
    Library.standard.OnlyRefuses ∧
    ∀ (c : Calculator) (env after : Environment) (ts : List Token) (failure : Failure),
      c.functions.OnlyRefuses → (c.statement ts).run env = .error failure after →
      failure.Caused c env ts := by
  refine ⟨Library.onlyRefuses_standard, ?_⟩
  intro c env after ts failure bodies failed
  apply Calculator.failsOnly_result bodies
  rw [Calculator.run_statement] at failed
  split at failed
  · cases failed
  · next found =>
    cases failed
    exact found

/-- A call of a name that is bound as a variable. -/
theorem failure_caused_called_variable :
    let c : Calculator := {}
    let env : Environment := { bindings := .ofList [("x", 2)] }
    let ts : List Token := [.letKeyword, .identifier "y", .equals, .identifier "x", .openBracket,
      .number 1, .closeBracket]
    c.functions.OnlyRefuses ∧ (c.statement ts).run env = .error (.undefined "x") env ∧
      (Failure.undefined "x").Caused c env ts := by
  intro c env ts
  let atom (t : Grammar.Tree .primary) : Grammar.Tree .expression :=
    .ofTerm (.ofUnary (.signed [] (.ofPrimary t)))
  let s : Grammar.Sentence := .declaration "y" (atom (.call "x" [atom (.number 1)]))
  have failed : (c.statement ts).run env = .error (.undefined "x") env :=
    Grammar.statement_tokens s c env
  obtain ⟨bodies, caused⟩ := failure_caused
  exact ⟨bodies, failed, caused c env env ts _ bodies failed⟩

end Reckoner
