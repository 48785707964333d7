import Mathlib.Data.List.Chain
import Mathlib.Data.List.Forall2
import Reckoner.Proofs.Lexical.Tokenize

/-!
# Lexemes joined without blanks

A numeral and a run of letters end where a symbol begins: the only symbols inside of a numeral are
signs of exponents, and these follow a mark that no whole numeral ends with. Lexemes that stand
directly behind each other are therefore read one by one, as long as no two that are made of
letters, digits and dots meet. Where no two such tokens are neighbours, the blanks of a text can be
left out.
-/

namespace Reckoner

namespace Token

/-- The tokens whose texts are made of letters, digits and dots. -/
def isAlphanumeric : Token → Bool
  | number _ | identifier _ | letKeyword => true
  | _ => false

/-- Tokens that need no blank between them. -/
def Apart (t u : Token) : Prop :=
  t.isAlphanumeric = true → u.isAlphanumeric = false

end Token

/-- The characters that are no spaces, tabs, carriage returns, line feeds or form feeds. -/
def dropBlanks (cs : List Char) : List Char :=
  cs.filter (· ∉ [' ', '\t', '\r', '\n', '\x0c'])

/-- A text without its blanks. -/
def withoutBlanks (source : String) : String :=
  String.ofList (dropBlanks source.toList)

namespace Lexical

variable {w rest body part : List Char} {power : Int} {t : Token} {ts : List Token}

/-- A text that goes on with no letter, digit or dot. -/
def Stops (rest : List Char) : Prop :=
  ∀ c, rest.head? = some c → Decimal.isBodyChar c = false ∧ c.isAlpha = false

section Longest

theorem Stops.exponentPart_eq_nil (stop : Stops rest) : Lexeme.exponentPart rest = [] := by
  cases rest with
  | nil => rfl
  | cons c rest =>
      have letter := (stop c rfl).2
      have small : c ≠ 'e' := by rintro rfl; cases letter
      have large : c ≠ 'E' := by rintro rfl; cases letter
      simp [Lexeme.exponentPart, small, large]

theorem Stops.not_isDigit (stop : Stops rest) :
    ∀ c, rest.head? = some c → c.isDigit = false := by
  intro c first
  apply eq_false_of_ne_true
  intro digit
  have notBody := (stop c first).1
  rw [isBodyChar_iff.mpr (.inl digit)] at notBody
  cases notBody

theorem exponentPart_append_stop (exponent : ExponentPart part power) (stop : Stops rest) :
    Lexeme.exponentPart (part ++ rest) = part := by
  obtain rfl | ⟨mark, sign, digits, rfl, marked, nonempty, all, signed⟩ :=
    exponent.eq_nil_or_signed
  · exact stop.exponentPart_eq_nil
  · have unsigned : (sign ++ (digits ++ rest)).drop sign.length = digits ++ rest := List.drop_left
    have taken := takeWhile_append_stop rest all stop.not_isDigit
    have marks : (mark == 'e' || mark == 'E') = true := by
      obtain rfl | rfl := marked <;> rfl
    rw [List.cons_append, List.append_assoc]
    simp [Lexeme.exponentPart, signed, unsigned, taken, marks, nonempty]

/-- A numeral is cut off whole where the text stops behind it. -/
theorem literalPart_append_stop (numeral : Numeral w body power) (stop : Stops rest) :
    Lexeme.literalPart (w ++ rest) = w := by
  cases numeral with
  | @mk body part power nonempty chars exponent =>
      have inside : ∀ c ∈ body, Decimal.isBodyChar c := by
        intro c member
        exact isBodyChar_iff.mpr (chars c member)
      have ends : ∀ c, (part ++ rest).head? = some c → Decimal.isBodyChar c = false := by
        intro c first
        cases part with
        | nil => exact (stop c first).1
        | cons mark part => exact not_isBodyChar_of_exponent exponent c first
      rw [List.append_assoc, Lexeme.literalPart, takeWhile_append_stop _ inside ends,
        dropWhile_append_stop _ inside ends, exponentPart_append_stop exponent stop]

theorem longest_word_append_stop (word : Word w) (stop : Stops rest) : Longest (w ++ rest) w := by
  have taken := takeWhile_append_stop rest word.letters fun c first => (stop c first).2
  obtain ⟨c, tail, rfl, letter⟩ := word.exists_cons
  have longest : Longest (c :: tail ++ rest) ((c :: tail ++ rest).takeWhile Char.isAlpha) :=
    longest_word letter
  rwa [taken] at longest

/-- What a token is read from is the longest lexeme where it ends with a symbol or stops. -/
theorem longest_of_stop (h : Reads w (.ok t)) (stop : t.isAlphanumeric = true → Stops rest) :
    Longest (w ++ rest) w := by
  cases h with
  | number numeral formed =>
      have whole := literalPart_append_stop numeral (stop rfl)
      obtain ⟨c, tail, rfl, digit⟩ := numeral.exists_cons
      have longest : Longest (c :: tail ++ rest) (Lexeme.literalPart (c :: tail ++ rest)) :=
        longest_literal digit
      rwa [whole] at longest
  | keyword => exact longest_word_append_stop word_let (stop rfl)
  | name word => exact longest_word_append_stop word (stop rfl)
  | symbol member =>
      obtain ⟨c, text, symbol⟩ := exists_char_of_symbol member
      rw [text]
      exact longest_symbol symbol

end Longest

section Joined

theorem stops_of_reads (h : Reads w (.ok t)) (symbol : t.isAlphanumeric = false) :
    Stops (w ++ rest) := by
  cases h with
  | number | keyword | name => cases symbol
  | symbol member =>
      obtain ⟨c, text, symbol⟩ := exists_char_of_symbol member
      rw [text]
      intro d first
      obtain rfl := Option.some.inj first
      exact symbol_char symbol

/-- Lexemes directly behind each other are read one by one. -/
theorem munch_joined {texts : List (List Char)}
    (h : List.Forall₂ (fun w t => Reads w (.ok t)) texts ts) (apart : ts.IsChain Token.Apart) :
    Munch texts.flatten (.ok ts) := by
  have none : Blank [] := nofun
  induction h with
  | nil => exact .done none
  | @cons w t texts ts reads later ih =>
      obtain ⟨next, behind⟩ := List.isChain_cons.mp apart
      have stop : t.isAlphanumeric = true → Stops texts.flatten := by
        intro alphanumeric
        cases later with
        | nil => exact nofun
        | @cons w' t' texts ts reads' later =>
            exact stops_of_reads reads' (next t' rfl alphanumeric)
      exact .token none (longest_of_stop reads stop) reads (ih behind)

theorem dropBlanks_blank {gap : List Char} (blank : Blank gap) : dropBlanks gap = [] := by
  rw [dropBlanks, List.filter_eq_nil_iff]
  intro c member kept
  exact of_decide_eq_true kept (blank c member)

theorem dropBlanks_lexeme (h : Reads w (.ok t)) : dropBlanks w = w := by
  rw [dropBlanks, List.filter_eq_self]
  intro c member
  have notBlank := not_isBlank_of_mem_lexeme (isLexeme_of_reads h) c member
  rw [decide_eq_true_iff, ← isBlank_iff, notBlank]
  exact Bool.false_ne_true

theorem dropBlanks_append (cs ds : List Char) :
    dropBlanks (cs ++ ds) = dropBlanks cs ++ dropBlanks ds :=
  List.filter_append _ _

/-- Without its blanks a text is the lexemes of its cuts. -/
theorem dropBlanks_cuts (cuts : List Cut) {tail : List Char} (blank : Blank tail) :
    dropBlanks (cuts.flatMap Cut.chars ++ tail) = (cuts.map Cut.lexeme).flatten := by
  induction cuts with
  | nil => exact dropBlanks_blank blank
  | cons cut cuts ih =>
      rw [List.flatMap_cons, List.append_assoc, dropBlanks_append, ih, Cut.chars,
        dropBlanks_append, dropBlanks_blank cut.blank, dropBlanks_lexeme cut.reads]
      rfl

/-- Blanks between tokens that need none can be left out. -/
theorem tokenize_withoutBlanks {source : String} (read : tokenize source = .ok ts)
    (apart : ts.IsChain Token.Apart) : tokenize (withoutBlanks source) = .ok ts := by
  obtain ⟨cut, balanced⟩ := tokenize_eq_ok_iff.mp read
  obtain ⟨cuts, tail, blank, rfl, text⟩ := exists_cuts cut
  have reads : List.Forall₂ (fun w t => Reads w (.ok t)) (cuts.map Cut.lexeme)
      (cuts.map Cut.token) := by
    rw [List.forall₂_map_left_iff, List.forall₂_map_right_iff, List.forall₂_same]
    intro cut _
    exact cut.reads
  rw [tokenize_eq_ok_iff, withoutBlanks, String.toList_ofList, ← text, dropBlanks_cuts cuts blank]
  exact ⟨munch_joined reads apart, balanced⟩

end Joined

end Lexical

end Reckoner
