import Reckoner.Proofs.Lexical.NumberText
import Reckoner.Proofs.Lexical.Separated

/-!
# Tokens can be written and read again

Lexemes joined by spaces are read one by one, as a blank ends every lexeme. The text of a token is
read as that token, with one exception: a literal that is too large is infinity, and infinity is
written with letters and read as a name.
-/

namespace Reckoner

namespace Token

/-- Numbers and names as they are read, unless a literal is too large. -/
def IsWritable : Token → Prop
  | number x => x.isFinite = true ∧ Binary64.isNegative x = false
  | identifier name => name ≠ "" ∧ (∀ c ∈ name.toList, c.isAlpha) ∧ name ≠ "let"
  | _ => True

/-- A literal that is too large. -/
def IsOverflow : Token → Prop
  | number x => x.isInf = true ∧ Binary64.isNegative x = false
  | _ => False

/-- What the text of a token is read as. -/
def reread : Token → Token
  | number x => if x.isInf then identifier "inf" else number x
  | t => t

end Token

/-- The texts of tokens, with spaces between them. -/
def spaced (ts : List Token) : String :=
  " ".intercalate (ts.map Token.text)

namespace Lexical

variable {w rest : List Char} {t : Token} {ts : List Token} {result : Except Failure Token}

section Lexemes

/-- A lexeme by itself is read as its token. -/
theorem munch_lexeme (reads : Reads w (.ok t)) : Munch w (.ok [t]) := by
  have none : Blank [] := nofun
  have longest : Longest (w ++ []) w := by
    refine ⟨isLexeme_of_reads reads, List.prefix_append w [], ?_⟩
    intro v isPrefix _
    rw [List.append_nil] at isPrefix
    exact isPrefix.length_le
  have cut : Munch ([] ++ (w ++ [])) (.ok [t]) := .token none longest reads (.done none)
  rwa [List.nil_append, List.append_nil] at cut

/-- Lexemes that are joined by spaces are read one by one. -/
theorem munch_spaced {texts : List (List Char)}
    (h : List.Forall₂ (fun w t => Reads w (.ok t)) texts ts) :
    Munch ([' '].intercalate texts) (.ok ts) := by
  have space : Blank [' '] := by
    intro c member
    obtain rfl := List.mem_singleton.mp member
    exact .head _
  induction h with
  | nil => exact .done nofun
  | @cons w t texts ts reads later ih =>
      cases later with
      | nil =>
          rw [List.intercalate_singleton]
          exact munch_lexeme reads
      | @cons w' t' texts ts reads' later =>
          rw [List.intercalate_cons_cons, List.append_assoc]
          exact (munch_lexeme reads).append_blank space (List.cons_ne_nil ' ' []) ih

end Lexemes

section Tokens

variable {x : Float}

theorem reread_of_isWritable (h : t.IsWritable) : t.reread = t := by
  cases t with
  | number x =>
      have finite := Binary64.isFinite_eq x
      rw [h.1] at finite
      exact if_neg (by simp_all)
  | _ => rfl

theorem reread_of_isOverflow (h : t.IsOverflow) : t.reread = .identifier "inf" := by
  cases t with
  | number => exact if_pos h.1
  | _ => cases h

theorem reads_inf (inf : x.isInf = true) (nonnegative : Binary64.isNegative x = false) :
    Reads (Numeral.plain x).toList (.ok (.identifier "inf")) := by
  have text : Numeral.plain x = "inf" := by
    simp only [Numeral.plain, Numeral.written, Binary64.isNaN_of_isInf inf, inf, nonnegative]
    rfl
  rw [text]
  exact .name ⟨by simp, List.all_eq_true.mp rfl⟩ (by decide)

/-- The text of a token is read as the token, and that of infinity as a name. -/
theorem reads_text (h : t.IsWritable ∨ t.IsOverflow) : Reads t.text.toList (.ok t.reread) := by
  rcases h with writable | overflow
  · rw [reread_of_isWritable writable]
    cases t with
    | number => exact reads_plain writable.1 writable.2
    | identifier name =>
        obtain ⟨nonempty, letters, notKeyword⟩ := writable
        have read := Reads.name ⟨by simpa using nonempty, letters⟩ fun keyword =>
          notKeyword (String.toList_inj.mp keyword)
        rwa [String.ofList_toList] at read
    | letKeyword => exact .keyword
    | _ => exact .symbol (by simp [symbols])
  · rw [reread_of_isOverflow overflow]
    cases t with
    | number => exact reads_inf overflow.1 overflow.2
    | _ => cases overflow

/-- What is read from a text is a token that can be written, or a literal that is too large. -/
theorem isWritable_or_isOverflow (h : Reads w (.ok t)) : t.IsWritable ∨ t.IsOverflow := by
  cases h with
  | @number _ body power numeral formed =>
      have positive := Decimal.sign?_toFloat (decimal body power).lowest
      obtain ⟨nan, nonnegative⟩ := Binary64.sign?_eq_positive_iff.mp positive
      have finite := Binary64.isFinite_eq (decimal body power).lowest.toFloat
      cases inf : (decimal body power).lowest.toFloat.isInf with
      | false => exact .inl ⟨by rw [finite, nan, inf]; rfl, nonnegative⟩
      | true => exact .inr ⟨inf, nonnegative⟩
  | keyword => exact .inl trivial
  | name word notKeyword =>
      refine .inl ⟨?_, ?_, ?_⟩
      · simpa using word.nonempty
      · simpa using word.letters
      · intro keyword
        apply notKeyword
        rw [← String.toList_ofList (l := w), keyword]
        rfl
  | symbol member =>
      left
      cases t with
      | number | identifier => simp [symbols] at member
      | _ => trivial

end Tokens

section Text

theorem ofTokens_map_reread (ts : List Token) :
    Nesting.ofTokens (ts.map Token.reread) = Nesting.ofTokens ts := by
  have weight (t : Token) : Nesting.weight t.reread = Nesting.weight t := by
    cases t with
    | number x =>
        simp only [Token.reread]
        split <;> rfl
    | _ => rfl
  induction ts with
  | nil => rfl
  | cons t ts ih => rw [List.map_cons, Nesting.ofTokens_cons, Nesting.ofTokens_cons, weight, ih]

theorem tokenize_spaced (valid : ∀ t ∈ ts, t.IsWritable ∨ t.IsOverflow) (balanced : Balanced ts) :
    tokenize (spaced ts) = .ok (ts.map Token.reread) := by
  have text : (spaced ts).toList = [' '].intercalate (ts.map fun t => t.text.toList) := by
    rw [spaced, String.toList_intercalate, List.map_map]
    rfl
  have reads : List.Forall₂ (fun w t => Reads w (.ok t)) (ts.map fun t => t.text.toList)
      (ts.map Token.reread) := by
    rw [List.forall₂_map_left_iff, List.forall₂_map_right_iff, List.forall₂_same]
    intro t member
    exact reads_text (valid t member)
  rw [tokenize_eq_ok_iff, text]
  refine ⟨munch_spaced reads, ?_⟩
  rw [← isBalanced_iff_balanced, ofTokens_map_reread]
  exact isBalanced_iff_balanced.mpr balanced

theorem valid_of_tokenize {source : String} (h : tokenize source = .ok ts) :
    (∀ t ∈ ts, t.IsWritable ∨ t.IsOverflow) ∧ Balanced ts := by
  obtain ⟨cut, balanced⟩ := tokenize_eq_ok_iff.mp h
  refine ⟨?_, balanced⟩
  obtain ⟨cuts, tail, _, rfl, _⟩ := exists_cuts cut
  intro t member
  obtain ⟨cut, _, rfl⟩ := List.mem_map.mp member
  exact isWritable_or_isOverflow cut.reads

theorem map_reread_eq_self_iff (valid : ∀ t ∈ ts, t.IsWritable ∨ t.IsOverflow) :
    ts.map Token.reread = ts ↔ ∀ t ∈ ts, ¬ t.IsOverflow := by
  have pointwise : ts.map Token.reread = ts ↔ ∀ t ∈ ts, t.reread = t := by
    conv_lhs => rhs; rw [← List.map_id ts]
    exact List.map_inj_left
  rw [pointwise]
  constructor
  · intro same t member overflow
    have read := same t member
    rw [reread_of_isOverflow overflow] at read
    subst read
    exact overflow
  · intro none t member
    exact reread_of_isWritable ((valid t member).resolve_right (none t member))

/-- A literal that is too large, read as infinity. -/
theorem reads_large : Reads "1e309".toList
    (.ok (.number (.ofModel (.pack (.infinity .positive))))) := by
  have numeral : Numeral (['1'] ++ ['e', '3', '0', '9']) ['1'] 309 :=
    .mk (by simp) (by simp) (.unsigned (.inl rfl) (by simp) (List.all_eq_true.mp rfl))
  have read := Reads.number numeral ⟨⟨'1', by simp, rfl⟩, by decide⟩
  have infinite : (decimal ['1'] 309).lowest.toFloat = .ofModel (.pack (.infinity .positive)) := by
    decide +kernel
  rwa [infinite] at read

theorem exists_reads (h : t.IsWritable ∨ t.IsOverflow) : ∃ w, Reads w (.ok t) := by
  rcases h with writable | overflow
  · have read := reads_text (.inl writable)
    rw [reread_of_isWritable writable] at read
    exact ⟨_, read⟩
  · cases t with
    | number x =>
        rw [Binary64.eq_infinity overflow.1 overflow.2]
        exact ⟨_, reads_large⟩
    | _ => cases overflow

theorem exists_texts (valid : ∀ t ∈ ts, t.IsWritable ∨ t.IsOverflow) :
    ∃ texts, List.Forall₂ (fun w t => Reads w (.ok t)) texts ts := by
  induction ts with
  | nil => exact ⟨[], .nil⟩
  | cons t ts ih =>
      obtain ⟨w, read⟩ := exists_reads (valid t (.head _))
      obtain ⟨texts, reads⟩ := ih fun t member => valid t (.tail _ member)
      exact ⟨w :: texts, .cons read reads⟩

theorem exists_source (valid : ∀ t ∈ ts, t.IsWritable ∨ t.IsOverflow) (balanced : Balanced ts) :
    ∃ source, tokenize source = .ok ts := by
  obtain ⟨texts, reads⟩ := exists_texts valid
  refine ⟨String.ofList ([' '].intercalate texts), ?_⟩
  rw [tokenize_eq_ok_iff, String.toList_ofList]
  exact ⟨munch_spaced reads, balanced⟩

end Text

/-- Tokens that can be written, with spaces between them, are read as the same tokens. What is read
from any text are such tokens, up to literals that are too large, and every such list is read from
some text. Written and read again it stays the same, but for those literals: they become names. -/
theorem tokenize_spaced_tokens :
    (∀ ts, (∀ t ∈ ts, t.IsWritable) → Balanced ts → tokenize (spaced ts) = .ok ts) ∧
    (∀ source ts, tokenize source = .ok ts →
      ((∀ t ∈ ts, t.IsWritable ∨ t.IsOverflow) ∧ Balanced ts) ∧
        tokenize (spaced ts) = .ok (ts.map Token.reread) ∧
        (tokenize (spaced ts) = .ok ts ↔ ∀ t ∈ ts, ¬ t.IsOverflow)) ∧
    ∀ ts, (∃ source, tokenize source = .ok ts) ↔
      (∀ t ∈ ts, t.IsWritable ∨ t.IsOverflow) ∧ Balanced ts := by
  refine ⟨?_, ?_, ?_⟩
  · intro ts writable balanced
    have same : ts.map Token.reread = ts := by
      conv_rhs => rw [← List.map_id ts]
      exact List.map_congr_left fun t member => reread_of_isWritable (writable t member)
    rw [tokenize_spaced (fun t member => .inl (writable t member)) balanced, same]
  · intro source ts read
    obtain ⟨valid, balanced⟩ := valid_of_tokenize read
    have again := tokenize_spaced valid balanced
    refine ⟨⟨valid, balanced⟩, again, ?_⟩
    rw [again, Except.ok.injEq]
    exact map_reread_eq_self_iff valid
  · intro ts
    constructor
    · rintro ⟨source, read⟩
      exact valid_of_tokenize read
    · rintro ⟨valid, balanced⟩
      exact exists_source valid balanced

/-- A call is read as it was written, and a literal that is too large becomes a name. -/
theorem tokenize_spaced_tokens_large :
    let call : List Token := [.identifier "f", .openBracket, .number 0.1, .closeBracket]
    let large : List Token := [.number (.ofBits 0x7ff0000000000000)]
    ((∀ t ∈ call, t.IsWritable) ∧ Balanced call ∧ tokenize (spaced call) = .ok call) ∧
      tokenize "1e309" = .ok large ∧
        ((∀ t ∈ large, t.IsWritable ∨ t.IsOverflow) ∧ Balanced large) ∧
          large.map Token.reread = [.identifier "inf"] ∧
            tokenize (spaced large) = .ok (large.map Token.reread) := by
  intro call large
  have writable : ∀ t ∈ call, t.IsWritable := by
    intro t member
    simp only [call, List.mem_cons, List.not_mem_nil, or_false] at member
    rcases member with rfl | rfl | rfl | rfl
    · exact ⟨by decide, List.all_eq_true.mp rfl, by decide⟩
    · trivial
    · exact ⟨by decide +kernel, by decide +kernel⟩
    · trivial
  have balanced : Balanced call := ⟨by decide +kernel, by decide +kernel⟩
  have read : tokenize "1e309" = .ok large := Failure.eq_ok_of_toOption (by decide +kernel)
  obtain ⟨written, given, _⟩ := tokenize_spaced_tokens
  obtain ⟨valid, again, _⟩ := given "1e309" large read
  exact ⟨⟨writable, balanced, written call writable balanced⟩, read, valid, by decide +kernel,
    again⟩

end Lexical

end Reckoner
