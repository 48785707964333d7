import Reckoner.Proofs.Grammar.Reading

/-!
# Nothing but sentences

An expression without a flaw is one that a tree derives, and it is derived by one tree only. As
evaluation reports every flaw, a statement that succeeds is a sentence. No property of a malformed
range is needed for this: a range that is read without a flaw is put together from such parts, and
the tree of the whole from their trees.
-/

namespace Reckoner

/-- Expressions without a flaw. -/
inductive Expr.Flawless : Expr → Prop
  | number {value : Float} : Flawless (.number value)
  | named {name : String} : Flawless (.named name)
  | previous : Flawless .previous
  | group {inner : Expr} : Flawless inner → Flawless (.group inner)
  | call {callee : String} {args : List Expr} :
      (∀ arg ∈ args, Flawless arg) → Flawless (.call callee args)
  | factorial {operand : Expr} : Flawless operand → Flawless (.factorial operand)
  | signed {signs : List Sign} {operand : Expr} :
      Flawless operand → Flawless (.signed signs operand)
  | binary {op : BinaryOp} {left right : Expr} :
      Flawless left → Flawless right → Flawless (.binary op left right)

namespace Expr

variable {c : Calculator} {env : Environment}

theorem exists_eval_of_binary {op : BinaryOp} {left right : Expr} {x : Float}
    (h : (binary op left right).eval c env = .ok x) :
    (∃ y, left.eval c env = .ok y) ∧ ∃ z, right.eval c env = .ok z := by
  simp only [eval] at h
  split at h
  · obtain ⟨z, hz, h⟩ := Failure.bind_eq_ok.mp h
    split at h
    · cases h
    · obtain ⟨y, hy, _⟩ := Failure.bind_eq_ok.mp h
      exact ⟨⟨y, hy⟩, ⟨z, hz⟩⟩
  · obtain ⟨y, hy, h⟩ := Failure.bind_eq_ok.mp h
    obtain ⟨z, hz, _⟩ := Failure.bind_eq_ok.mp h
    exact ⟨⟨y, hy⟩, ⟨z, hz⟩⟩

mutual

/-- An expression that has a value was evaluated to its last part, so no part is a flaw. -/
theorem flawless_of_eval : (e : Expr) → {x : Float} → e.eval c env = .ok x → e.Flawless
  | .number _, _, _ => .number
  | .named _, _, _ => .named
  | .previous, _, _ => .previous
  | .group inner, _, h => .group (inner.flawless_of_eval h)
  | .call _ args, _, h => by
      obtain ⟨_, hargs, _⟩ := Failure.bind_eq_ok.mp h
      exact .call (flawless_of_evalAll args hargs)
  | .factorial operand, _, h => by
      obtain ⟨_, ho, _⟩ := Failure.bind_eq_ok.mp h
      exact .factorial (operand.flawless_of_eval ho)
  | .signed _ operand, _, h => by
      obtain ⟨_, ho, _⟩ := Failure.bind_eq_ok.mp h
      exact .signed (operand.flawless_of_eval ho)
  | .binary _ left right, _, h => by
      obtain ⟨⟨_, hl⟩, _, hr⟩ := exists_eval_of_binary h
      exact .binary (left.flawless_of_eval hl) (right.flawless_of_eval hr)
  | .flaw _, _, h => nomatch h

theorem flawless_of_evalAll : (es : List Expr) → {xs : List Float} → evalAll c env es = .ok xs →
    ∀ e ∈ es, e.Flawless
  | [], _, _ => nofun
  | e :: es, _, h => by
      obtain ⟨_, he, h⟩ := Failure.bind_eq_ok.mp h
      obtain ⟨_, hes, _⟩ := Failure.bind_eq_ok.mp h
      exact List.forall_mem_cons.mpr ⟨e.flawless_of_eval he, flawless_of_evalAll es hes⟩

end

end Expr

namespace Grammar

theorem Additive.exists_of_contains {t : Token} (h : Reader.additive.contains t = true) :
    ∃ op : Additive, op.token = t := by
  cases t with
  | plus => exact ⟨.plus, rfl⟩
  | minus => exact ⟨.minus, rfl⟩
  | _ => cases h

theorem Multiplicative.exists_of_contains {t : Token}
    (h : Reader.multiplicative.contains t = true) : ∃ op : Multiplicative, op.token = t := by
  cases t with
  | star => exact ⟨.star, rfl⟩
  | slash => exact ⟨.slash, rfl⟩
  | percent => exact ⟨.percent, rfl⟩
  | _ => cases h

theorem eq_caret_of_contains {t : Token} (h : [Token.caret].contains t = true) : t = .caret := by
  cases t with
  | caret => rfl
  | _ => cases h

theorem eq_comma_of_contains {t : Token} (h : [Token.comma].contains t = true) : t = .comma := by
  cases t with
  | comma => rfl
  | _ => cases h

theorem map_token_filterMap {ts : List Token} (h : ∀ t ∈ ts, t.isPlusOrMinus = true) :
    (ts.filterMap Sign.ofToken?).map Sign.token = ts := by
  induction ts with
  | nil => rfl
  | cons t ts ih =>
      obtain ⟨head, tail⟩ := List.forall_mem_cons.mp h
      cases t with
      | plus => exact congrArg (Token.plus :: ·) (ih tail)
      | minus => exact congrArg (Token.minus :: ·) (ih tail)
      | _ => cases head

/-- A range that is read without a flaw at a level is derived by it. -/
def Sound (l : Level) (ts : List Token) : Prop :=
  (l.read ts).Flawless → ∃ t : Tree l, t.tokens = ts

def SoundArguments (ts : List Token) : Prop :=
  (∀ e ∈ Reader.arguments ts, e.Flawless) →
    ∃ args : List (Tree .expression),
      args ≠ [] ∧ [.comma].intercalate (Tree.tokensOfAll args) = ts

namespace Sound

variable {ts inner : List Token} {s : Split} {callee : String}

theorem of_flaw {l : Level} {why : Flaw} (h : l.read ts = .flaw why) : Sound l ts := by
  intro flawless
  rw [h] at flawless
  cases flawless

theorem sum (cut : splitTopLevel ts Reader.additive .last = .ok (some s))
    (left : Sound .expression s.before) (right : Sound .term s.after) : Sound .expression ts := by
  intro flawless
  rw [Level.read, Reader.expression_of_some cut] at flawless
  cases flawless with
  | binary hl hr =>
      obtain ⟨l, eql⟩ := left hl
      obtain ⟨r, eqr⟩ := right hr
      obtain ⟨op, eqo⟩ := Additive.exists_of_contains (contains_operator_of_splitTopLevel cut)
      refine ⟨.sum l op r, ?_⟩
      rw [Tree.tokens, eql, eqr, eqo, ← eq_append_of_splitTopLevel cut]

theorem ofTerm (cut : splitTopLevel ts Reader.additive .last = .ok none) (h : Sound .term ts) :
    Sound .expression ts := by
  intro flawless
  rw [Level.read, Reader.expression_of_none cut] at flawless
  obtain ⟨t, eq⟩ := h flawless
  exact ⟨.ofTerm t, eq⟩

theorem product (cut : splitTopLevel ts Reader.multiplicative .last = .ok (some s))
    (left : Sound .term s.before) (right : Sound .unary s.after) : Sound .term ts := by
  intro flawless
  rw [Level.read, Reader.term_of_some cut] at flawless
  cases flawless with
  | binary hl hr =>
      obtain ⟨l, eql⟩ := left hl
      obtain ⟨r, eqr⟩ := right hr
      obtain ⟨op, eqo⟩ := Multiplicative.exists_of_contains (contains_operator_of_splitTopLevel cut)
      refine ⟨.product l op r, ?_⟩
      rw [Tree.tokens, eql, eqr, eqo, ← eq_append_of_splitTopLevel cut]

theorem ofUnary (cut : splitTopLevel ts Reader.multiplicative .last = .ok none)
    (h : Sound .unary ts) : Sound .term ts := by
  intro flawless
  rw [Level.read, Reader.term_of_none cut] at flawless
  obtain ⟨t, eq⟩ := h flawless
  exact ⟨.ofUnary t, eq⟩

theorem signed (h : Sound .power (ts.dropWhile Token.isPlusOrMinus)) : Sound .unary ts := by
  intro flawless
  have operand : (Reader.power (ts.dropWhile Token.isPlusOrMinus)).Flawless := by
    rw [Level.read, Reader.unary] at flawless
    split at flawless
    · exact flawless
    · cases flawless with
      | signed inner => exact inner
  obtain ⟨t, eq⟩ := h operand
  have signs : ∀ t ∈ ts.takeWhile Token.isPlusOrMinus, t.isPlusOrMinus = true :=
    List.all_eq_true.mp List.all_takeWhile
  refine ⟨.signed ((ts.takeWhile Token.isPlusOrMinus).filterMap Sign.ofToken?) t, ?_⟩
  rw [Tree.tokens, eq, map_token_filterMap signs, List.takeWhile_append_dropWhile]

theorem power (cut : splitTopLevel ts [.caret] .first = .ok (some s))
    (base : Sound .primary s.before) (exponent : Sound .power s.after) : Sound .power ts := by
  intro flawless
  rw [Level.read, Reader.power_of_some cut] at flawless
  cases flawless with
  | binary hb he =>
      obtain ⟨b, eqb⟩ := base hb
      obtain ⟨e, eqe⟩ := exponent he
      have eqo := eq_caret_of_contains (contains_operator_of_splitTopLevel cut)
      refine ⟨.power b e, ?_⟩
      rw [Tree.tokens, eqb, eqe, ← eqo, ← eq_append_of_splitTopLevel cut]

theorem ofPrimary (cut : splitTopLevel ts [.caret] .first = .ok none) (h : Sound .primary ts) :
    Sound .power ts := by
  intro flawless
  rw [Level.read, Reader.power_of_none cut] at flawless
  obtain ⟨t, eq⟩ := h flawless
  exact ⟨.ofPrimary t, eq⟩

theorem factorial (shape : Reader.Shape.ofTokens ts = .factorial inner)
    (h : Sound .primary inner) : Sound .primary ts := by
  intro flawless
  rw [Level.read, Reader.primary_of_factorial shape] at flawless
  cases flawless with
  | factorial operand =>
      obtain ⟨t, eq⟩ := h operand
      refine ⟨.factorial t, ?_⟩
      rw [Tree.tokens, eq, Reader.Shape.eq_of_factorial shape]

theorem group (shape : Reader.Shape.ofTokens ts = .group inner) (h : Sound .expression inner) :
    Sound .primary ts := by
  intro flawless
  rw [Level.read, Reader.primary_of_group shape] at flawless
  cases flawless with
  | group operand =>
      obtain ⟨t, eq⟩ := h operand
      refine ⟨.group t, ?_⟩
      rw [Tree.tokens, eq, Reader.Shape.eq_of_group shape]

theorem call (shape : Reader.Shape.ofTokens ts = .call callee inner) (h : SoundArguments inner) :
    Sound .primary ts := by
  intro flawless
  rw [Level.read, Reader.primary_of_call shape] at flawless
  rw [Reader.Shape.eq_of_call shape]
  cases flawless with
  | call members =>
      split at members
      · next empty =>
        obtain rfl := List.isEmpty_iff.mp empty
        exact ⟨.call callee [], rfl⟩
      · obtain ⟨args, _, eq⟩ := h members
        exact ⟨.call callee args, by rw [Tree.tokens, eq]⟩

theorem atom (shape : Reader.Shape.ofTokens ts = .atom) : Sound .primary ts := by
  intro flawless
  rw [Level.read, Reader.primary_of_atom shape, Reader.atom.eq_def] at flawless
  split at flawless
  · cases flawless
  · next name => exact ⟨.named name, rfl⟩
  · exact ⟨.previous, rfl⟩
  · next value => exact ⟨.number value, rfl⟩
  · split at flawless <;> cases flawless

end Sound

namespace SoundArguments

variable {ts : List Token} {s : Split}

theorem refused {failure : Failure} (cut : splitTopLevel ts [.comma] .last = .error failure) :
    SoundArguments ts := by
  intro flawless
  rw [Reader.arguments_of_error cut] at flawless
  cases flawless _ (List.mem_singleton_self _)

theorem single (cut : splitTopLevel ts [.comma] .last = .ok none) (h : Sound .expression ts) :
    SoundArguments ts := by
  intro flawless
  rw [Reader.arguments_of_none cut] at flawless
  obtain ⟨arg, eq⟩ := h (flawless _ (List.mem_singleton_self _))
  exact ⟨[arg], List.cons_ne_nil _ _, by simp [Tree.tokensOfAll, eq]⟩

theorem concat (cut : splitTopLevel ts [.comma] .last = .ok (some s))
    (init : SoundArguments s.before) (last : Sound .expression s.after) : SoundArguments ts := by
  intro flawless
  rw [Reader.arguments_of_some cut] at flawless
  obtain ⟨front, back⟩ := List.forall_mem_append.mp flawless
  obtain ⟨args, nonempty, eqi⟩ := init front
  obtain ⟨arg, eql⟩ := last (back _ (List.mem_singleton_self _))
  have eqo := eq_comma_of_contains (contains_operator_of_splitTopLevel cut)
  refine ⟨args ++ [arg], by simp, ?_⟩
  rw [Tree.tokensOfAll_eq_map] at eqi ⊢
  rw [List.map_append, List.map_singleton, intercalate_concat (by simpa using nonempty), eqi, eql,
    ← eqo, ← eq_append_of_splitTopLevel cut]

end SoundArguments

/-- Every range that is read without a flaw is a sentence of the level that it is read at. -/
theorem sound (l : Level) (ts : List Token) : Sound l ts := by
  obtain ⟨expression, term, unary, power, primary, _⟩ := Reader.expression.mutual_induct
    (Sound .expression) (Sound .term) (Sound .unary) (Sound .power) (Sound .primary)
    SoundArguments
    (fun _ _ cut => .of_flaw (Reader.expression_of_error cut))
    (fun _ cut => .ofTerm cut)
    (fun _ _ cut => .sum cut)
    (fun _ _ cut => .of_flaw (Reader.term_of_error cut))
    (fun _ cut => .ofUnary cut)
    (fun _ _ cut => .product cut)
    (fun _ _ => .signed)
    (fun _ _ => .signed)
    (fun _ _ cut => .of_flaw (Reader.power_of_error cut))
    (fun _ cut => .ofPrimary cut)
    (fun _ _ cut => .power cut)
    (fun _ _ shape => .factorial shape)
    (fun _ _ shape => .group shape)
    (fun _ _ _ shape => .call shape)
    (fun _ shape => .of_flaw (Reader.primary_of_unclosed shape))
    (fun _ shape => .atom shape)
    (fun _ _ cut => .refused cut)
    (fun _ cut => .single cut)
    (fun _ _ cut => .concat cut)
  cases l with
  | expression => exact expression ts
  | term => exact term ts
  | unary => exact unary ts
  | power => exact power ts
  | primary => exact primary ts

end Grammar

end Reckoner
