import Reckoner.Proofs.Grammar.Yield

/-!
# Frames

A frame is a tree with a gap for a tree of some level. What stands around the gap is the same
whatever fills it, and so is the way in which the value depends on the one in the gap. Frames are
put together from one for each place of a constructor; `Tree.framed` finds the frame around the
primary that starts at a given token.
-/

namespace Reckoner

/-- The tokens that start a primary and can be followed by more of it. -/
def Token.isOpening : Token → Bool
  | openParen | identifier _ => true
  | _ => false

theorem Token.ne_of_isOpening {first t : Token} (opening : first.isOpening = true)
    (other : t.isOpening = false) : first ≠ t := by
  rintro rfl
  exact absurd (opening.symm.trans other) nofun

/-- A closer ends what a properly nested list can be: two such lists in front of the same closer
are the same. -/
theorem Nested.eq_of_append_closer {opener closer : Token} {xs ys us vs : List Token}
    (pair : opener.closer? = some closer) (hx : Nested xs) (hy : Nested ys)
    (same : xs ++ closer :: us = ys ++ closer :: vs) : xs = ys ∧ us = vs := by
  -- The longer list would hold the closer that ends the shorter one, but not its opener.
  have longer : ∀ {ps qs rest : List Token}, Nested ps → Nested qs → qs ≠ ps ++ closer :: rest := by
    rintro ps qs rest hp hq rfl
    have behind := hq.suffix_nonpos (⟨ps ++ [closer], by simp⟩ : rest <:+ ps ++ closer :: rest)
    have closing := Token.weight_closer_neg pair
    have counts := hq.ofTokens_eq
    rw [Nesting.ofTokens_append, hp.ofTokens_eq, Nesting.empty_add, Nesting.ofTokens_cons] at counts
    have parens := congrArg Nesting.parens counts
    have brackets := congrArg Nesting.brackets counts
    simp only [Nesting.add_parens, Nesting.add_brackets] at parens brackets
    omega
  rcases List.append_eq_append_iff.mp same with ⟨gap, eqy, eqg⟩ | ⟨gap, eqx, eqg⟩
  · cases gap with
    | nil => simp_all
    | cons t gap =>
        obtain ⟨rfl, _⟩ := List.cons.inj eqg
        exact absurd eqy (longer hx hy)
  · cases gap with
    | nil => simp_all
    | cons t gap =>
        obtain ⟨rfl, _⟩ := List.cons.inj eqg
        exact absurd eqx (longer hy hx)

namespace Grammar

/-- A tree of level `l'` with a gap for one of level `l`. -/
structure Frame (l l' : Level) where
  fill : Tree l → Tree l'
  before : List Token
  after : List Token
  tokens_fill : ∀ t, (fill t).tokens = before ++ t.tokens ++ after
  eval_congr : ∀ {c env t u}, t.eval c env = u.eval c env →
    (fill t).eval c env = (fill u).eval c env

namespace Frame

variable {l l' l'' : Level}

protected def id : Frame l l where
  fill t := t
  before := []
  after := []
  tokens_fill t := by simp
  eval_congr h := h

/-- A frame in the gap of another. -/
def comp (outer : Frame l' l'') (inner : Frame l l') : Frame l l'' where
  fill t := outer.fill (inner.fill t)
  before := outer.before ++ inner.before
  after := inner.after ++ outer.after
  tokens_fill t := by simp [outer.tokens_fill, inner.tokens_fill]
  eval_congr h := outer.eval_congr (inner.eval_congr h)

def sumLeft (op : Additive) (right : Tree .term) : Frame .expression .expression where
  fill t := .sum t op right
  before := []
  after := op.token :: right.tokens
  tokens_fill t := by simp [Tree.tokens]
  eval_congr h := by cases op <;> simp only [Tree.eval, h]

def sumRight (left : Tree .expression) (op : Additive) : Frame .term .expression where
  fill t := .sum left op t
  before := left.tokens ++ [op.token]
  after := []
  tokens_fill t := by simp [Tree.tokens]
  eval_congr h := by cases op <;> simp only [Tree.eval, h]

def ofTerm : Frame .term .expression where
  fill := .ofTerm
  before := []
  after := []
  tokens_fill t := by simp [Tree.tokens]
  eval_congr h := h

def productLeft (op : Multiplicative) (right : Tree .unary) : Frame .term .term where
  fill t := .product t op right
  before := []
  after := op.token :: right.tokens
  tokens_fill t := by simp [Tree.tokens]
  eval_congr h := by cases op <;> simp only [Tree.eval, h]

def productRight (left : Tree .term) (op : Multiplicative) : Frame .unary .term where
  fill t := .product left op t
  before := left.tokens ++ [op.token]
  after := []
  tokens_fill t := by simp [Tree.tokens]
  eval_congr h := by cases op <;> simp only [Tree.eval, h]

def ofUnary : Frame .unary .term where
  fill := .ofUnary
  before := []
  after := []
  tokens_fill t := by simp [Tree.tokens]
  eval_congr h := h

def signed (signs : List Sign) : Frame .power .unary where
  fill := .signed signs
  before := signs.map Sign.token
  after := []
  tokens_fill t := by simp [Tree.tokens]
  eval_congr h := by simp only [Tree.eval, h]

def base (exponent : Tree .power) : Frame .primary .power where
  fill t := .power t exponent
  before := []
  after := .caret :: exponent.tokens
  tokens_fill t := by simp [Tree.tokens]
  eval_congr h := by simp only [Tree.eval, h]

def exponent (base : Tree .primary) : Frame .power .power where
  fill := .power base
  before := base.tokens ++ [.caret]
  after := []
  tokens_fill t := by simp [Tree.tokens]
  eval_congr h := by simp only [Tree.eval, h]

def ofPrimary : Frame .primary .power where
  fill := .ofPrimary
  before := []
  after := []
  tokens_fill t := by simp [Tree.tokens]
  eval_congr h := h

def group : Frame .expression .primary where
  fill := .group
  before := [.openParen]
  after := [.closeParen]
  tokens_fill t := by simp [Tree.tokens]
  eval_congr h := h

def factorial : Frame .primary .primary where
  fill := .factorial
  before := []
  after := [.bang]
  tokens_fill t := by simp [Tree.tokens]
  eval_congr h := by simp only [Tree.eval, h]

end Frame

/-- A list in the middle of others, with the separators around it. -/
theorem intercalate_middle (separator : Token) (front : List (List Token)) (part : List Token)
    (back : List (List Token)) :
    [separator].intercalate (front ++ part :: back) =
      front.flatMap (· ++ [separator]) ++ part ++ back.flatMap (separator :: ·) := by
  induction front with
  | nil =>
      induction back generalizing part with
      | nil => simp
      | cons next back ih => simpa using ih next
  | cons first front ih =>
      cases front with
      | nil => simpa using ih
      | cons next front => simpa using ih

namespace Tree

theorem evalAll_congr {c : Calculator} {env : Environment} {t u : Tree .expression}
    (h : t.eval c env = u.eval c env) (front back : List (Tree .expression)) :
    evalAll c env (front ++ t :: back) = evalAll c env (front ++ u :: back) := by
  induction front with
  | nil => simp only [List.nil_append, evalAll, h]
  | cons first front ih => simp only [List.cons_append, evalAll, ih]

end Tree

def Frame.argument (callee : String) (front back : List (Tree .expression)) :
    Frame .expression .primary where
  fill t := .call callee (front ++ t :: back)
  before := .identifier callee :: .openBracket :: front.flatMap fun t => t.tokens ++ [.comma]
  after := (back.flatMap fun t => .comma :: t.tokens) ++ [.closeBracket]
  tokens_fill t := by
    simp [Tree.tokens, Tree.tokensOfAll_eq_map, intercalate_middle, List.flatMap_map]
  eval_congr h := by simp only [Tree.eval, Tree.evalAll_congr h]

/-- A joined list that has a token other than the joining one has it in one of the two parts. -/
theorem join_cases {us vs xs ys : List Token} {op t : Token} (ne : t ≠ op)
    (h : us ++ op :: vs = xs ++ t :: ys) :
    (∃ gap, us = xs ++ t :: gap ∧ ys = gap ++ op :: vs) ∨
      ∃ gap, xs = us ++ op :: gap ∧ vs = gap ++ t :: ys := by
  rcases List.append_eq_append_iff.mp h with ⟨gap, eqx, eqg⟩ | ⟨gap, equ, eqg⟩
  · cases gap with
    | nil =>
        obtain ⟨rfl, _⟩ := List.cons.inj eqg
        exact absurd rfl ne
    | cons first gap =>
        obtain ⟨rfl, rfl⟩ := List.cons.inj eqg
        exact .inr ⟨gap, eqx, rfl⟩
  · cases gap with
    | nil =>
        obtain ⟨rfl, _⟩ := List.cons.inj eqg
        exact absurd rfl ne
    | cons first gap =>
        obtain ⟨rfl, rfl⟩ := List.cons.inj eqg
        exact .inl ⟨gap, equ, rfl⟩

theorem append_cases (us : List Token) {vs xs ys : List Token} {t : Token} (absent : t ∉ us)
    (h : us ++ vs = xs ++ t :: ys) : ∃ gap, xs = us ++ gap ∧ vs = gap ++ t :: ys := by
  rcases List.append_eq_append_iff.mp h with ⟨gap, eqx, eqv⟩ | ⟨gap, rfl, eqg⟩
  · exact ⟨gap, eqx, eqv⟩
  · cases gap with
    | nil => exact ⟨[], by simp, by simpa using eqg.symm⟩
    | cons first gap =>
        obtain ⟨rfl, _⟩ := List.cons.inj eqg
        exact absurd (List.mem_append_right xs (.head gap)) absent

/-- A list in the middle of others that holds a token other than the separator. -/
theorem intercalate_cases {parts : List (List Token)} {xs ys : List Token} {separator t : Token}
    (ne : t ≠ separator) (h : [separator].intercalate parts = xs ++ t :: ys) :
    ∃ front part back before after, parts = front ++ part :: back ∧ part = before ++ t :: after ∧
      xs = front.flatMap (· ++ [separator]) ++ before ∧
      ys = after ++ back.flatMap (separator :: ·) := by
  induction parts generalizing xs with
  | nil => simp at h
  | cons part parts ih =>
      cases parts with
      | nil =>
          rw [List.intercalate_singleton] at h
          exact ⟨[], part, [], xs, ys, rfl, h, by simp, by simp⟩
      | cons next parts =>
          rw [List.intercalate_cons_cons, List.append_assoc, List.singleton_append] at h
          rcases join_cases ne h with ⟨gap, eqp, rfl⟩ | ⟨gap, rfl, eqr⟩
          · refine ⟨[], part, next :: parts, xs, gap, rfl, eqp, by simp, ?_⟩
            simpa using intercalate_middle separator [] next parts
          · obtain ⟨front, inner, back, before, after, eqs, eqi, rfl, rfl⟩ := ih eqr
            refine ⟨part :: front, inner, back, before, after, by rw [eqs]; rfl, eqi, by simp, rfl⟩

namespace Tree

/-- The primaries that start with an opening token, by that token. A factorial starts with the
first token of its operand and is left out. -/
inductive Opens : Token → Tree .primary → Prop
  | group (inner : Tree .expression) : Opens .openParen (.group inner)
  | call (callee : String) (args : List (Tree .expression)) :
      Opens (.identifier callee) (.call callee args)
  | named (name : String) : Opens (.identifier name) (.named name)

/-- The tree is a frame filled with a primary, and `first` is the first token of the primary, with
`xs` before it and `ys` behind it. -/
def Framed {l : Level} (t : Tree l) (xs : List Token) (first : Token) (ys : List Token) : Prop :=
  ∃ (f : Frame .primary l) (p : Tree .primary), Opens first p ∧ f.fill p = t ∧ f.before = xs ∧
    p.tokens ++ f.after = first :: ys

namespace Framed

variable {l l' : Level} {xs ys : List Token} {first : Token}

theorem self {p : Tree .primary} (opens : Opens first p) (h : p.tokens = first :: ys) :
    Framed p [] first ys :=
  ⟨.id, p, opens, rfl, rfl, by simpa [Frame.id] using h⟩

theorem lift {t : Tree l} (h : Framed t xs first ys) (f : Frame l l') :
    Framed (f.fill t) (f.before ++ xs) first (ys ++ f.after) := by
  obtain ⟨g, p, opens, rfl, rfl, behind⟩ := h
  refine ⟨f.comp g, p, opens, rfl, rfl, ?_⟩
  simp only [Frame.comp, ← List.append_assoc, behind, List.cons_append]

end Framed

variable {l : Level} {first : Token}

theorem framed_arguments {args : List (Tree .expression)} {xs ys : List Token} (callee : String)
    (ne : first ≠ .comma)
    (ih : ∀ arg ∈ args, ∀ us vs, arg.tokens = us ++ first :: vs → Framed arg us first vs)
    (h : [.comma].intercalate (tokensOfAll args) = xs ++ first :: ys) :
    Framed (.call callee args) (.identifier callee :: .openBracket :: xs) first
      (ys ++ [.closeBracket]) := by
  rw [tokensOfAll_eq_map] at h
  obtain ⟨front, part, back, before, after, eqs, eqp, rfl, rfl⟩ := intercalate_cases ne h
  obtain ⟨front, rest, rfl, rfl, eqr⟩ := List.map_eq_append_iff.mp eqs
  obtain ⟨arg, back, rfl, rfl, rfl⟩ := List.map_eq_cons_iff.mp eqr
  have inside := ih arg (by simp) before after eqp
  simpa [Frame.argument, List.flatMap_map] using inside.lift (.argument callee front back)

theorem framed_group {inner : Tree .expression} {xs ys : List Token}
    (opening : first.isOpening = true)
    (ih : ∀ us vs, inner.tokens = us ++ first :: vs → Framed inner us first vs)
    (h : (group inner).tokens = xs ++ first :: ys) : Framed (.group inner) xs first ys := by
  cases xs with
  | nil =>
      obtain ⟨rfl, _⟩ := List.cons.inj h
      exact .self (.group inner) h
  | cons t xs =>
      obtain ⟨rfl, rest⟩ := List.cons.inj h
      rcases join_cases (Token.ne_of_isOpening opening rfl) rest with
        ⟨gap, inside, rfl⟩ | ⟨gap, _, behind⟩
      · exact (ih xs gap inside).lift .group
      · simp at behind

theorem framed_call {args : List (Tree .expression)} {xs ys : List Token} {callee : String}
    (opening : first.isOpening = true)
    (ih : ∀ arg ∈ args, ∀ us vs, arg.tokens = us ++ first :: vs → Framed arg us first vs)
    (h : (call callee args).tokens = xs ++ first :: ys) :
    Framed (.call callee args) xs first ys := by
  cases xs with
  | nil =>
      obtain ⟨rfl, _⟩ := List.cons.inj h
      exact .self (.call callee args) h
  | cons t xs =>
      obtain ⟨rfl, rest⟩ := List.cons.inj h
      obtain ⟨xs, rfl, listed⟩ := append_cases [.openBracket]
        (by simpa using Token.ne_of_isOpening opening rfl) rest
      rcases join_cases (Token.ne_of_isOpening opening rfl) listed with
        ⟨gap, inside, rfl⟩ | ⟨gap, _, behind⟩
      · exact framed_arguments callee (Token.ne_of_isOpening opening rfl) ih inside
      · simp at behind

/-- Around each opening token of a tree there is a frame, with the primary that the token opens in
its gap. -/
theorem framed (opening : first.isOpening = true) (t : Tree l) {xs ys : List Token}
    (h : t.tokens = xs ++ first :: ys) : Framed t xs first ys := by
  induction t generalizing xs ys with
  | sum left op right ihl ihr =>
      have ne : first ≠ op.token := Token.ne_of_isOpening opening (by cases op <;> rfl)
      rcases join_cases ne h with ⟨gap, inside, rfl⟩ | ⟨gap, rfl, inside⟩
      · exact (ihl inside).lift (.sumLeft op right)
      · simpa [Frame.sumRight] using (ihr inside).lift (.sumRight left op)
  | ofTerm t ih => simpa [Frame.ofTerm] using (ih h).lift .ofTerm
  | product left op right ihl ihr =>
      have ne : first ≠ op.token := Token.ne_of_isOpening opening (by cases op <;> rfl)
      rcases join_cases ne h with ⟨gap, inside, rfl⟩ | ⟨gap, rfl, inside⟩
      · exact (ihl inside).lift (.productLeft op right)
      · simpa [Frame.productRight] using (ihr inside).lift (.productRight left op)
  | ofUnary t ih => simpa [Frame.ofUnary] using (ih h).lift .ofUnary
  | signed signs operand ih =>
      have absent : first ∉ signs.map Sign.token := by
        intro member
        obtain ⟨sign, _, rfl⟩ := List.mem_map.mp member
        cases sign <;> cases opening
      obtain ⟨gap, rfl, inside⟩ := append_cases _ absent h
      simpa [Frame.signed] using (ih inside).lift (.signed signs)
  | power base exponent ihb ihe =>
      rcases join_cases (Token.ne_of_isOpening opening rfl) h with
        ⟨gap, inside, rfl⟩ | ⟨gap, rfl, inside⟩
      · exact (ihb inside).lift (.base exponent)
      · simpa [Frame.exponent] using (ihe inside).lift (.exponent base)
  | ofPrimary t ih => simpa [Frame.ofPrimary] using (ih h).lift .ofPrimary
  | group inner ih => exact framed_group opening (fun _ _ => ih) h
  | call callee args ih => exact framed_call opening (fun arg member _ _ => ih arg member) h
  | named name =>
      cases xs with
      | nil =>
          obtain ⟨rfl, _⟩ := List.cons.inj h
          exact .self (.named name) h
      | cons t xs => simp [tokens] at h
  | previous =>
      obtain ⟨_, _, impossible⟩ := append_cases [.previous]
        (by simpa using Token.ne_of_isOpening opening rfl) h
      simp at impossible
  | number value =>
      obtain ⟨_, _, impossible⟩ := append_cases [.number value]
        (by simpa using Token.ne_of_isOpening opening rfl) h
      simp at impossible
  | factorial operand ih =>
      rcases join_cases (Token.ne_of_isOpening opening rfl) h with
        ⟨gap, inside, rfl⟩ | ⟨gap, _, behind⟩
      · exact (ih inside).lift .factorial
      · simp at behind

end Tree

end Grammar

end Reckoner
