import Reckoner.Proofs.Grammar.Reading

/-!
# What an expression mentions

A name with a `[` behind it is the name of a function, and any other name that of a constant or a
variable. A range is cut at operators and brackets and never in front of a `[`, so a name plays the
same part in a range as in the list that the range was cut from. Hence all that an expression
mentions stands in the tokens that it was read from, whether these are well formed or not.
-/

namespace Reckoner

/-- The name stands in a list with no `[` behind it. -/
def BareIn (name : String) (ts : List Token) : Prop :=
  ∃ xs ys, ts = xs ++ .identifier name :: ys ∧ ys.head? ≠ some .openBracket

/-- The name stands in a list with a `[` behind it. -/
def CalledIn (name : String) (ts : List Token) : Prop :=
  ∃ xs ys, ts = xs ++ .identifier name :: .openBracket :: ys

section Occurrence

variable {name : String} {ys : List Token}

@[simp] theorem not_bareIn_nil : ¬ BareIn name [] := by
  simp [BareIn]

theorem bareIn_cons {t : Token} {ts : List Token} : BareIn name (t :: ts) ↔
    t = .identifier name ∧ ts.head? ≠ some .openBracket ∨ BareIn name ts := by
  constructor
  · rintro ⟨xs, ys, eq, bare⟩
    cases xs with
    | nil =>
        obtain ⟨rfl, rfl⟩ := List.cons.inj eq
        exact .inl ⟨rfl, bare⟩
    | cons x xs => exact .inr ⟨xs, ys, (List.cons.inj eq).2, bare⟩
  · rintro (⟨rfl, bare⟩ | ⟨xs, ys, rfl, bare⟩)
    · exact ⟨[], ts, rfl, bare⟩
    · exact ⟨t :: xs, ys, rfl, bare⟩

@[simp] theorem not_calledIn_nil : ¬ CalledIn name [] := by
  simp [CalledIn]

theorem calledIn_cons {t : Token} {ts : List Token} : CalledIn name (t :: ts) ↔
    t = .identifier name ∧ ts.head? = some .openBracket ∨ CalledIn name ts := by
  constructor
  · rintro ⟨xs, ys, eq⟩
    cases xs with
    | nil =>
        obtain ⟨rfl, rfl⟩ := List.cons.inj eq
        exact .inl ⟨rfl, rfl⟩
    | cons x xs => exact .inr ⟨xs, ys, (List.cons.inj eq).2⟩
  · rintro (⟨rfl, called⟩ | ⟨xs, ys, rfl⟩)
    · obtain ⟨ys, rfl⟩ := List.head?_eq_some_iff.mp called
      exact ⟨[], ys, rfl⟩
    · exact ⟨t :: xs, ys, rfl⟩

theorem BareIn.inside (h : BareIn name ys) (xs zs : List Token)
    (bound : zs.head? ≠ some .openBracket) : BareIn name (xs ++ ys ++ zs) := by
  obtain ⟨us, vs, rfl, bare⟩ := h
  refine ⟨xs ++ us, vs ++ zs, by simp, ?_⟩
  cases vs with
  | nil => exact bound
  | cons v vs => exact bare

theorem CalledIn.inside (h : CalledIn name ys) (xs zs : List Token) :
    CalledIn name (xs ++ ys ++ zs) := by
  obtain ⟨us, vs, rfl⟩ := h
  exact ⟨xs ++ us, vs ++ zs, by simp⟩

end Occurrence

/-- What the value of an expression can depend on, and why it may have none. -/
inductive Mention where
  | bare (name : String)
  | callee (name : String)
  | previous
  | flaw (why : Flaw)

namespace Expr

mutual

/-- All that is mentioned in an expression. -/
def mentions : Expr → List Mention
  | .number _ => []
  | .named name => [.bare name]
  | .previous => [.previous]
  | .group inner => inner.mentions
  | .call callee args => .callee callee :: mentionsOfAll args
  | .factorial operand => operand.mentions
  | .signed _ operand => operand.mentions
  | .binary _ left right => left.mentions ++ right.mentions
  | .flaw why => [.flaw why]

def mentionsOfAll : List Expr → List Mention
  | [] => []
  | e :: es => e.mentions ++ mentionsOfAll es

end

theorem mentionsOfAll_append (es fs : List Expr) :
    mentionsOfAll (es ++ fs) = mentionsOfAll es ++ mentionsOfAll fs := by
  induction es with
  | nil => rfl
  | cons e es ih => simp [mentionsOfAll, ih]

end Expr

namespace Mention

/-- The mention is made by tokens of the list. A flaw is made by the token that it complains of if
that one can start no operand; the other flaws are of the range as a whole. -/
def In (ts : List Token) : Mention → Prop
  | bare name => BareIn name ts
  | callee name => CalledIn name ts
  | previous => .previous ∈ ts
  | flaw (.misplaced t) => t ∈ ts ∧ t.isAtom = false ∧ t ≠ .openParen
  | flaw _ => True

variable {m : Mention} {ts ys candidates : List Token} {search : Search} {s : Split}

theorem mem_inside {t : Token} (h : t ∈ ys) (xs zs : List Token) : t ∈ xs ++ ys ++ zs :=
  List.mem_append_left zs (List.mem_append_right xs h)

/-- What a range mentions is mentioned in the list around it, if no `[` follows the range there. -/
theorem In.inside (h : m.In ys) (xs zs : List Token) (bound : zs.head? ≠ some .openBracket) :
    m.In (xs ++ ys ++ zs) := by
  cases m with
  | bare name => exact BareIn.inside h xs zs bound
  | callee name => exact CalledIn.inside h xs zs
  | previous => exact mem_inside h xs zs
  | flaw why =>
      cases why with
      | misplaced t => exact ⟨mem_inside h.1 xs zs, h.2⟩
      | unbalanced | missingOperand | trailing => trivial

theorem In.before (cut : splitTopLevel ts candidates search = .ok (some s))
    (closed : candidates.contains .openBracket = false) (h : m.In s.before) : m.In ts := by
  have bound : (s.operator :: s.after).head? ≠ some .openBracket := by
    intro eq
    have wanted := contains_operator_of_splitTopLevel cut
    rw [Option.some.inj eq, closed] at wanted
    cases wanted
  rw [eq_append_of_splitTopLevel cut]
  exact h.inside [] (s.operator :: s.after) bound

theorem In.after (cut : splitTopLevel ts candidates search = .ok (some s)) (h : m.In s.after) :
    m.In ts := by
  rw [eq_append_of_splitTopLevel cut, List.append_cons]
  simpa using h.inside (s.before ++ [s.operator]) [] (by simp)

end Mention

namespace Grammar

/-- All that is mentioned in what a level reads from a range stands in the range. -/
def Traced (l : Level) (ts : List Token) : Prop :=
  ∀ m ∈ (l.read ts).mentions, m.In ts

def TracedArguments (ts : List Token) : Prop :=
  ∀ m ∈ Expr.mentionsOfAll (Reader.arguments ts), m.In ts

namespace Traced

variable {ts inner : List Token} {candidates : List Token} {search : Search} {s : Split}
  {l l' : Level} {callee : String}

theorem unbalanced (h : l.read ts = .flaw .unbalanced) : Traced l ts := by
  intro m member
  rw [h] at member
  obtain rfl := List.mem_singleton.mp member
  trivial

theorem of_eq (same : l.read ts = l'.read ts) (h : Traced l' ts) : Traced l ts := by
  rw [Traced, same]
  exact h

theorem binary {op : BinaryOp} {l₁ l₂ : Level}
    (cut : splitTopLevel ts candidates search = .ok (some s))
    (read : l.read ts = .binary op (l₁.read s.before) (l₂.read s.after))
    (closed : candidates.contains .openBracket = false)
    (left : Traced l₁ s.before) (right : Traced l₂ s.after) : Traced l ts := by
  intro m member
  rw [read] at member
  rcases List.mem_append.mp member with inLeft | inRight
  · exact (left m inLeft).before cut closed
  · exact (right m inRight).after cut

theorem signed (h : Traced .power (ts.dropWhile Token.isPlusOrMinus)) : Traced .unary ts := by
  intro m member
  have operand : m ∈ (Reader.power (ts.dropWhile Token.isPlusOrMinus)).mentions := by
    rw [Level.read, Reader.unary] at member
    split at member <;> exact member
  have inside := (h m operand).inside (ts.takeWhile Token.isPlusOrMinus) [] (by simp)
  rwa [List.append_nil, List.takeWhile_append_dropWhile] at inside

theorem factorial (shape : Reader.Shape.ofTokens ts = .factorial inner)
    (h : Traced .primary inner) : Traced .primary ts := by
  intro m member
  rw [Level.read, Reader.primary_of_factorial shape] at member
  rw [Reader.Shape.eq_of_factorial shape]
  exact (h m member).inside [] [.bang] (by simp)

theorem group (shape : Reader.Shape.ofTokens ts = .group inner) (h : Traced .expression inner) :
    Traced .primary ts := by
  intro m member
  rw [Level.read, Reader.primary_of_group shape] at member
  rw [Reader.Shape.eq_of_group shape]
  exact (h m member).inside [.openParen] [.closeParen] (by simp)

theorem call (shape : Reader.Shape.ofTokens ts = .call callee inner) (h : TracedArguments inner) :
    Traced .primary ts := by
  intro m member
  rw [Level.read, Reader.primary_of_call shape] at member
  rw [Reader.Shape.eq_of_call shape]
  rcases List.mem_cons.mp member with rfl | inside
  · exact ⟨[], inner ++ [.closeBracket], rfl⟩
  · split at inside
    · cases inside
    · exact (h m inside).inside [.identifier callee, .openBracket] [.closeBracket] (by simp)

/-- A range of no other shape does not start with a parenthesis. -/
theorem ne_openParen_of_atom {t : Token} {rest : List Token}
    (shape : Reader.Shape.ofTokens (t :: rest) = .atom) : t ≠ .openParen := by
  rintro rfl
  unfold Reader.Shape.ofTokens at shape
  split at shape <;> simp_all

theorem atom (shape : Reader.Shape.ofTokens ts = .atom) : Traced .primary ts := by
  intro m member
  rw [Level.read, Reader.primary_of_atom shape, Reader.atom.eq_def] at member
  split at member
  · obtain rfl := List.mem_singleton.mp member
    trivial
  · obtain rfl := List.mem_singleton.mp member
    exact ⟨[], [], rfl, by simp⟩
  · obtain rfl := List.mem_singleton.mp member
    exact List.mem_singleton_self _
  · cases member
  · next t rest notName notPrevious notNumber =>
    cases operand : t.isAtom with
    | false =>
        obtain rfl : m = .flaw (.misplaced t) := by simpa [operand, Expr.mentions] using member
        exact ⟨List.mem_cons_self, operand, ne_openParen_of_atom shape⟩
    | true =>
        cases rest with
        | cons extra rest =>
            obtain rfl : m = .flaw (.trailing extra) := by
              simpa [operand, Expr.mentions] using member
            trivial
        | nil =>
            -- An operand by itself is one of the cases before.
            cases t with
            | identifier name => exact (notName name rfl rfl).elim
            | previous => exact (notPrevious rfl rfl).elim
            | number value => exact (notNumber value rfl rfl).elim
            | _ => cases operand

end Traced

namespace TracedArguments

variable {ts : List Token} {s : Split}

theorem refused {failure : Failure} (cut : splitTopLevel ts [.comma] .last = .error failure) :
    TracedArguments ts := by
  intro m member
  rw [Reader.arguments_of_error cut] at member
  obtain rfl := List.mem_singleton.mp member
  trivial

theorem single (cut : splitTopLevel ts [.comma] .last = .ok none) (h : Traced .expression ts) :
    TracedArguments ts := by
  intro m member
  rw [Reader.arguments_of_none cut] at member
  apply h m
  simpa [Expr.mentionsOfAll, Level.read] using member

theorem concat (cut : splitTopLevel ts [.comma] .last = .ok (some s))
    (init : TracedArguments s.before) (last : Traced .expression s.after) :
    TracedArguments ts := by
  intro m member
  rw [Reader.arguments_of_some cut, Expr.mentionsOfAll_append] at member
  rcases List.mem_append.mp member with inInit | inLast
  · exact (init m inInit).before cut rfl
  · have inside : m ∈ (Reader.expression s.after).mentions := by
      simpa [Expr.mentionsOfAll] using inLast
    exact (last m inside).after cut

end TracedArguments

/-- Nothing is mentioned in an expression that does not stand in its tokens. -/
theorem traced (ts : List Token) : Traced .expression ts :=
  (Reader.expression.mutual_induct
    (Traced .expression) (Traced .term) (Traced .unary) (Traced .power) (Traced .primary)
    TracedArguments
    (fun _ _ cut => .unbalanced (Reader.expression_of_error cut))
    (fun _ cut => .of_eq (Reader.expression_of_none cut))
    (fun _ _ cut => .binary cut (Reader.expression_of_some cut) rfl)
    (fun _ _ cut => .unbalanced (Reader.term_of_error cut))
    (fun _ cut => .of_eq (Reader.term_of_none cut))
    (fun _ _ cut => .binary cut (Reader.term_of_some cut) rfl)
    (fun _ _ => .signed)
    (fun _ _ => .signed)
    (fun _ _ cut => .unbalanced (Reader.power_of_error cut))
    (fun _ cut => .of_eq (Reader.power_of_none cut))
    (fun _ _ cut => .binary cut (Reader.power_of_some cut) rfl)
    (fun _ _ shape => .factorial shape)
    (fun _ _ shape => .group shape)
    (fun _ _ _ shape => .call shape)
    (fun _ shape => .unbalanced (Reader.primary_of_unclosed shape))
    (fun _ shape => .atom shape)
    (fun _ _ cut => .refused cut)
    (fun _ cut => .single cut)
    (fun _ _ cut => .concat cut)).1 ts

variable {ts : List Token} {e : Expr} {name : String}

theorem in_of_expression (h : Statement.ofTokens ts = .expression e) :
    ∀ m ∈ e.mentions, m.In ts := by
  rw [Statement.eq_of_expression h]
  exact traced ts

theorem in_of_declaration (h : Statement.ofTokens ts = .declaration name e) :
    ∀ m ∈ e.mentions, m.In ts := by
  obtain ⟨value, rfl, rfl⟩ := Statement.eq_of_declaration h
  intro m member
  let start : List Token := [.letKeyword, .identifier name, .equals]
  have inside : m.In (start ++ value ++ []) := (traced value m member).inside start [] (by simp)
  rwa [List.append_nil] at inside

/-- No bracket follows the name that a declaration is for. -/
theorem bareIn_of_declaration (h : Statement.ofTokens ts = .declaration name e) :
    BareIn name ts := by
  obtain ⟨value, rfl, _⟩ := Statement.eq_of_declaration h
  exact ⟨[.letKeyword], .equals :: value, rfl, by simp⟩

end Grammar

end Reckoner
