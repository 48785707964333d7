import Mathlib.Logic.ExistsUnique
import Reckoner.Proofs.Lexical.Munch
import Reckoner.Proofs.Nesting

/-!
# The tokens of a text

A text is tokenized as the rules cut it, and refused afterwards if it has more openers than closers
of a kind, or the other way round. The cuts leave nothing out: blanks and lexemes joined again are
the text.
-/

namespace Reckoner

namespace Nesting

theorem weight_parens (t : Token) : (weight t).parens =
    (if t == .openParen then 1 else 0) - (if t == .closeParen then 1 else 0) := by
  cases t <;> rfl

theorem weight_brackets (t : Token) : (weight t).brackets =
    (if t == .openBracket then 1 else 0) - (if t == .closeBracket then 1 else 0) := by
  cases t <;> rfl

theorem ofTokens_eq_counts (ts : List Token) :
    ofTokens ts = ⟨ts.count .openParen - ts.count .closeParen,
      ts.count .openBracket - ts.count .closeBracket⟩ := by
  induction ts with
  | nil => rfl
  | cons t ts ih =>
      rw [ofTokens_cons, ih]
      ext
      · rw [add_parens, weight_parens]
        simp only [List.count_cons]
        split <;> split <;> omega
      · rw [add_brackets, weight_brackets]
        simp only [List.count_cons]
        split <;> split <;> omega

end Nesting

namespace Lexical

variable {cs : List Char} {ts : List Token} {source : String} {failure : Failure}

/-- As many closers as openers, of each kind. -/
def Balanced (ts : List Token) : Prop :=
  ts.count .openParen = ts.count .closeParen ∧ ts.count .openBracket = ts.count .closeBracket

instance (ts : List Token) : Decidable (Balanced ts) :=
  inferInstanceAs (Decidable (ts.count .openParen = ts.count .closeParen ∧
    ts.count .openBracket = ts.count .closeBracket))

theorem isBalanced_iff_balanced : (Nesting.ofTokens ts).isBalanced = true ↔ Balanced ts := by
  simp only [Nesting.ofTokens_eq_counts, Nesting.isBalanced, Bool.and_eq_true, beq_iff_eq, Balanced]
  omega

section Tokenize

theorem tokenize_of_lex_eq_ok (h : lex source.toList = .ok ts) :
    tokenize source =
      if (Nesting.ofTokens ts).isBalanced then .ok ts else .error .unbalanced := by
  rw [tokenize, h]
  rfl

theorem tokenize_of_lex_eq_error (h : lex source.toList = .error failure) :
    tokenize source = .error failure := by
  rw [tokenize, h]
  rfl

theorem tokenize_eq_ok_iff :
    tokenize source = .ok ts ↔ Munch source.toList (.ok ts) ∧ Balanced ts := by
  constructor
  · intro h
    cases read : lex source.toList with
    | error failure =>
        rw [tokenize_of_lex_eq_error read] at h
        cases h
    | ok tokens =>
        rw [tokenize_of_lex_eq_ok read] at h
        split at h
        · next balanced =>
          cases h
          exact ⟨lex_eq_iff.mp read, isBalanced_iff_balanced.mp balanced⟩
        · cases h
  · rintro ⟨cut, balanced⟩
    rw [tokenize_of_lex_eq_ok (lex_eq_iff.mpr cut), if_pos (isBalanced_iff_balanced.mpr balanced)]

theorem tokenize_eq_error_iff :
    tokenize source = .error failure ↔ Munch source.toList (.error failure) ∨
      failure = .unbalanced ∧ ∃ ts, Munch source.toList (.ok ts) ∧ ¬ Balanced ts := by
  constructor
  · intro h
    cases read : lex source.toList with
    | error first =>
        rw [tokenize_of_lex_eq_error read] at h
        cases h
        exact .inl (lex_eq_iff.mp read)
    | ok tokens =>
        rw [tokenize_of_lex_eq_ok read] at h
        split at h
        · cases h
        · next unbalanced =>
          cases h
          refine .inr ⟨rfl, tokens, lex_eq_iff.mp read, ?_⟩
          exact fun balanced => unbalanced (isBalanced_iff_balanced.mpr balanced)
  · rintro (cut | ⟨rfl, ts, cut, unbalanced⟩)
    · exact tokenize_of_lex_eq_error (lex_eq_iff.mpr cut)
    · rw [tokenize_of_lex_eq_ok (lex_eq_iff.mpr cut), if_neg]
      exact fun balanced => unbalanced (isBalanced_iff_balanced.mp balanced)

end Tokenize

section Cuts

/-- A lexeme with the blanks in front of it, and its token. -/
structure Cut where
  gap : List Char
  lexeme : List Char
  token : Token
  blank : Blank gap
  reads : Reads lexeme (.ok token)

def Cut.chars (cut : Cut) : List Char :=
  cut.gap ++ cut.lexeme

/-- A text that is read to its end is the lexemes of its tokens, with blanks between them. -/
theorem exists_cuts (h : Munch cs (.ok ts)) :
    ∃ (cuts : List Cut) (tail : List Char), Blank tail ∧ cuts.map Cut.token = ts ∧
      cuts.flatMap Cut.chars ++ tail = cs := by
  generalize result : Except.ok ts = tokens at h
  induction h generalizing ts with
  | @done gap blank =>
      cases result
      exact ⟨[], gap, blank, rfl, rfl⟩
  | unknown | refused => cases result
  | @token gap w rest t later blank _ reads _ ih =>
      cases later with
      | error => cases result
      | ok behind =>
          cases result
          obtain ⟨cuts, tail, blankTail, tokens, text⟩ := ih rfl
          refine ⟨⟨gap, w, t, blank, reads⟩ :: cuts, tail, blankTail, ?_, ?_⟩
          · rw [List.map_cons, tokens]
          · rw [List.flatMap_cons, List.append_assoc, text, Cut.chars, List.append_assoc]

end Cuts

section Alphabet

/-- A text that is read to its end has no characters besides those of lexemes and blanks. -/
theorem Munch.chars (h : Munch cs (.ok ts)) : ∀ c ∈ cs, IsLexemeChar c ∨ Blank [c] := by
  obtain ⟨cuts, tail, blankTail, _, rfl⟩ := exists_cuts h
  have single {gap : List Char} {c : Char} (blank : Blank gap) (member : c ∈ gap) : Blank [c] :=
    List.forall_mem_singleton.mpr (blank c member)
  intro c member
  rcases List.mem_append.mp member with inCuts | inTail
  · obtain ⟨cut, _, inCut⟩ := List.mem_flatMap.mp inCuts
    rcases List.mem_append.mp inCut with inGap | inLexeme
    · exact .inr (single cut.blank inGap)
    · exact .inl ((isLexeme_of_reads cut.reads).chars c inLexeme)
  · exact .inr (single blankTail inTail)

/-- The failures of reading a text, before its brackets are counted. -/
def IsLexical (failure : Failure) : Prop :=
  ∃ text, failure = .unknownToken text ∨ failure = .badLiteral text

theorem Munch.isLexical (h : Munch cs (.error failure)) : IsLexical failure := by
  generalize result : Except.error failure = tokens at h
  induction h with
  | done => cases result
  | unknown =>
      cases result
      exact ⟨_, .inl rfl⟩
  | refused _ _ reads =>
      cases result
      cases reads with
      | malformed => exact ⟨_, .inr rfl⟩
  | @token gap w rest t later _ _ _ _ ih =>
      cases later with
      | ok => cases result
      | error => exact ih (by cases result; rfl)

/-- A character that is in no lexeme and no blank makes the reading fail. -/
theorem tokenize_of_foreign {c : Char} (member : c ∈ source.toList) (foreign : ¬ IsLexemeChar c)
    (visible : ¬ Blank [c]) : ∃ failure, IsLexical failure ∧ tokenize source = .error failure := by
  obtain ⟨result, cut⟩ := exists_munch source.toList
  cases result with
  | ok ts => exact absurd (cut.chars c member) (not_or.mpr ⟨foreign, visible⟩)
  | error failure => exact ⟨failure, cut.isLexical, tokenize_eq_error_iff.mpr (.inl cut)⟩

end Alphabet

/-- A text has exactly one cut by the rules, and `tokenize` gives its tokens, or its first failure
from the left; that the brackets do not add up is reported only when nothing else is. A tokenized
text has no characters besides its lexemes and the blanks between them. -/
theorem tokenize_maximal_munch (source : String) :
    (∃! result, Munch source.toList result) ∧
    (∀ ts, tokenize source = .ok ts ↔ Munch source.toList (.ok ts) ∧ Balanced ts) ∧
    (∀ failure, tokenize source = .error failure ↔ Munch source.toList (.error failure) ∨
      failure = .unbalanced ∧ ∃ ts, Munch source.toList (.ok ts) ∧ ¬ Balanced ts) ∧
    ∀ ts, tokenize source = .ok ts → ∃ (cuts : List Cut) (tail : List Char), Blank tail ∧
      cuts.map Cut.token = ts ∧ source = String.ofList (cuts.flatMap Cut.chars ++ tail) := by
  refine ⟨?_, fun _ => tokenize_eq_ok_iff, fun _ => tokenize_eq_error_iff, ?_⟩
  · obtain ⟨result, cut⟩ := exists_munch source.toList
    refine ⟨result, cut, ?_⟩
    intro other cut'
    exact (lex_of_munch cut').symm.trans (lex_of_munch cut)
  · intro ts h
    obtain ⟨cuts, tail, blank, tokens, text⟩ := exists_cuts (tokenize_eq_ok_iff.mp h).1
    refine ⟨cuts, tail, blank, tokens, ?_⟩
    rw [text, String.ofList_toList]

/-- The exponents of `1e+` and `.5e` are given back, as no digit follows their signs. -/
theorem tokenize_maximal_munch_given_back :
    let ts : List Token := [.number 1, .identifier "e", .plus, .number 0.5, .identifier "e"]
    tokenize "1e+.5e" = .ok ts ∧ ∃ (cuts : List Cut) (tail : List Char), Blank tail ∧
      cuts.map Cut.token = ts ∧ "1e+.5e" = String.ofList (cuts.flatMap Cut.chars ++ tail) := by
  intro ts
  have read : tokenize "1e+.5e" = .ok ts := Failure.eq_ok_of_toOption (by decide +kernel)
  exact ⟨read, (tokenize_maximal_munch "1e+.5e").2.2.2 ts read⟩

end Lexical

end Reckoner
