import Reckoner.Nesting

/-!
# Counts and proper nesting

Counting is additive, so the counts of a list are the sum of the counts of its parts, in whatever
order they are read. `Nested` is what the counts cannot tell: that each closer belongs to an opener
of its own kind. In a properly nested list the counts of every suffix are at most zero, so no
position between a pair looks like one outside of it.
-/

namespace Reckoner

namespace Nesting

instance : Add Nesting := ⟨fun m n => ⟨m.parens + n.parens, m.brackets + n.brackets⟩⟩

@[ext] theorem ext {m n : Nesting} (parens : m.parens = n.parens)
    (brackets : m.brackets = n.brackets) : m = n := by
  cases m
  cases n
  simp_all

@[simp] theorem add_parens (m n : Nesting) : (m + n).parens = m.parens + n.parens := rfl

@[simp] theorem add_brackets (m n : Nesting) : (m + n).brackets = m.brackets + n.brackets := rfl

@[simp] theorem add_empty (n : Nesting) : n + {} = n := by
  ext <;> simp

@[simp] theorem empty_add (n : Nesting) : {} + n = n := by
  ext <;> simp

theorem add_comm (m n : Nesting) : m + n = n + m := by
  ext <;> simp <;> omega

/-- The counts of a single token. -/
def weight (t : Token) : Nesting := track {} t

theorem track_eq_add (n : Nesting) (t : Token) : n.track t = n + weight t := by
  cases t <;> ext <;> simp [track, weight] <;> rfl

theorem foldl_track (n : Nesting) (ts : List Token) :
    ts.foldl track n = n + ofTokens ts := by
  induction ts generalizing n with
  | nil => simp [ofTokens]
  | cons t ts ih =>
      simp only [ofTokens, List.foldl_cons]
      rw [ih (n.track t), ih (track {} t), track_eq_add n t, track_eq_add {} t]
      ext <;> simp <;> omega

@[simp] theorem ofTokens_nil : ofTokens [] = {} := rfl

theorem ofTokens_cons (t : Token) (ts : List Token) :
    ofTokens (t :: ts) = weight t + ofTokens ts := by
  rw [ofTokens, List.foldl_cons, foldl_track]
  rfl

theorem ofTokens_append (xs ys : List Token) :
    ofTokens (xs ++ ys) = ofTokens xs + ofTokens ys := by
  rw [ofTokens, List.foldl_append, foldl_track, foldl_track, empty_add]

theorem isBalanced_iff {n : Nesting} : n.isBalanced = true ↔ n = {} := by
  simp only [isBalanced, Bool.and_eq_true, beq_iff_eq]
  exact ⟨fun h => ext h.1 h.2, fun h => by simp [h]⟩

end Nesting

namespace Token

/-- The tokens that open or close. -/
def isBracket : Token → Bool
  | openParen | closeParen | openBracket | closeBracket => true
  | _ => false

/-- What closes an opener. -/
def closer? : Token → Option Token
  | openParen => some closeParen
  | openBracket => some closeBracket
  | _ => none

variable {t opener closer : Token}

theorem weight_of_not_isBracket (h : t.isBracket = false) : Nesting.weight t = {} := by
  cases t <;> simp_all [isBracket, Nesting.weight, Nesting.track]

theorem weight_pair (h : opener.closer? = some closer) :
    Nesting.weight opener + Nesting.weight closer = {} := by
  cases opener <;> cases h <;> rfl

theorem weight_closer_neg (h : opener.closer? = some closer) :
    (Nesting.weight closer).parens ≤ 0 ∧ (Nesting.weight closer).brackets ≤ 0 ∧
      (Nesting.weight closer).parens + (Nesting.weight closer).brackets < 0 := by
  cases opener <;> cases h <;> decide

end Token

/-- Properly nested lists: every opener is closed behind it by the closer of its own kind, and
what stands between the two is properly nested again. -/
inductive Nested : List Token → Prop
  | nil : Nested []
  | plain {t : Token} {rest : List Token} :
      t.isBracket = false → Nested rest → Nested (t :: rest)
  | pair {opener closer : Token} {inner rest : List Token} : opener.closer? = some closer →
      Nested inner → Nested rest → Nested (opener :: (inner ++ closer :: rest))

namespace Nested

variable {xs ys zs ts inner rest : List Token} {t opener closer : Token}

theorem singleton (h : t.isBracket = false) : Nested [t] :=
  .plain h .nil

theorem enclose (pair : opener.closer? = some closer) (h : Nested inner) :
    Nested (opener :: (inner ++ [closer])) :=
  .pair pair h .nil

theorem append (hx : Nested xs) (hy : Nested ys) : Nested (xs ++ ys) := by
  induction hx with
  | nil => exact hy
  | plain other _ ih => exact .plain other ih
  | pair pair inner _ _ ih => simpa using Nested.pair pair inner ih

/-- A properly nested list is balanced. The converse fails: the counts accept `( [ ) ]`. -/
theorem ofTokens_eq (h : Nested ts) : Nesting.ofTokens ts = {} := by
  induction h with
  | nil => rfl
  | plain other _ ih => simp [Nesting.ofTokens_cons, Token.weight_of_not_isBracket other, ih]
  | pair pair _ _ ihi ihr =>
      simp [Nesting.ofTokens_cons, Nesting.ofTokens_append, ihi, ihr, Token.weight_pair pair]

example : Nesting.ofTokens [.openParen, .openBracket, .closeParen, .closeBracket] = {} := by
  decide

theorem suffix_append_cases (h : zs <:+ xs ++ ys) :
    zs <:+ ys ∨ ∃ tail, tail <:+ xs ∧ zs = tail ++ ys := by
  obtain ⟨front, eq⟩ := h
  rcases List.append_eq_append_iff.mp eq with ⟨tail, hx, hz⟩ | ⟨gap, _, hy⟩
  · exact .inr ⟨tail, ⟨front, hx.symm⟩, hz⟩
  · exact .inl ⟨gap, hy.symm⟩

/-- A suffix that starts inside a pair counts the closer and not the opener. -/
theorem suffix_pair_cases (balanced : Nesting.ofTokens rest = {})
    (h : zs <:+ inner ++ closer :: rest) :
    zs <:+ rest ∨ ∃ tail, tail <:+ inner ∧
      Nesting.ofTokens zs = Nesting.ofTokens tail + Nesting.weight closer := by
  rcases suffix_append_cases h with behind | ⟨tail, htail, rfl⟩
  · rcases List.suffix_cons_iff.mp behind with rfl | behind
    · exact .inr ⟨[], List.nil_suffix, by simp [Nesting.ofTokens_cons, balanced]⟩
    · exact .inl behind
  · exact .inr ⟨tail, htail, by simp [Nesting.ofTokens_append, Nesting.ofTokens_cons, balanced]⟩

/-- A suffix closes at least as much as it opens: what is missing in it are openers. -/
theorem suffix_nonpos (h : Nested ts) (suffix : ys <:+ ts) :
    (Nesting.ofTokens ys).parens ≤ 0 ∧ (Nesting.ofTokens ys).brackets ≤ 0 := by
  induction h generalizing ys with
  | nil => simp [List.suffix_nil.mp suffix]
  | plain other rest ih =>
      rcases List.suffix_cons_iff.mp suffix with rfl | behind
      · simp [(plain other rest).ofTokens_eq]
      · exact ih behind
  | pair pair inner rest ihi ihr =>
      rcases List.suffix_cons_iff.mp suffix with rfl | behind
      · simp [(Nested.pair pair inner rest).ofTokens_eq]
      · rcases suffix_pair_cases rest.ofTokens_eq behind with behind | ⟨tail, htail, eq⟩
        · exact ihr behind
        · have inside := ihi htail
          have closing := Token.weight_closer_neg pair
          rw [eq, Nesting.add_parens, Nesting.add_brackets]
          omega

/-- From inside a pair the range looks unbalanced, up to the closer and including it. -/
theorem ofTokens_ne_of_suffix_closer (h : Nested inner) (pair : opener.closer? = some closer)
    (suffix : zs <:+ inner ++ [closer]) (nonempty : zs ≠ []) : Nesting.ofTokens zs ≠ {} := by
  rcases suffix_pair_cases rfl suffix with behind | ⟨tail, htail, eq⟩
  · exact absurd (List.suffix_nil.mp behind) nonempty
  · intro balanced
    have inside := h.suffix_nonpos htail
    have closing := Token.weight_closer_neg pair
    have parens := congrArg Nesting.parens (eq.symm.trans balanced)
    have brackets := congrArg Nesting.brackets (eq.symm.trans balanced)
    simp only [Nesting.add_parens, Nesting.add_brackets] at parens brackets
    omega

end Nested

end Reckoner
