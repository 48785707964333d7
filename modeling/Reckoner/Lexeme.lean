import Reckoner.Decimal.Literal
import Reckoner.Failure
import Reckoner.Nesting

/-!
# Lexemes and the tokens of a text

Blanks separate tokens and are dropped. What follows is cut into lexemes, each the longest one
that starts there: a numeric literal, a run of letters, or one symbol. An `e` after digits belongs
to the literal only if digits follow it, so `1e` is a number and a name. The first character that
starts no lexeme and the first malformed literal end the reading; brackets are counted only when
all of the text has been read. The lemmas say that a lexeme is a part of the text and never an
empty one, so reading makes progress.
-/

namespace Reckoner

/-- A piece of text, and the token that it is read as. -/
structure Lexeme where
  text : List Char
  token : Except Failure Token

namespace Lexeme

/-- The characters that separate tokens: space, tab, carriage return, line feed, form feed. -/
def isBlank (c : Char) : Bool :=
  c == ' ' || c == '\t' || c == '\r' || c == '\n' || c == '\x0c'

/-- The sign at the front of a text, empty if there is none. -/
def signPart : List Char → List Char
  | [] => []
  | c :: _ => if c == '+' || c == '-' then [c] else []

/-- The exponent part at the front of a text, empty if there is none: `e` or `E`, a sign or none,
and at least one digit. -/
def exponentPart : List Char → List Char
  | [] => []
  | c :: rest =>
    let sign := signPart rest
    let digits := (rest.drop sign.length).takeWhile Char.isDigit
    if (c == 'e' || c == 'E') && !digits.isEmpty then c :: (sign ++ digits) else []

/-- The numeric literal at the front of a text. -/
def literalPart (cs : List Char) : List Char :=
  cs.takeWhile Decimal.isBodyChar ++ exponentPart (cs.dropWhile Decimal.isBodyChar)

/-- A literal, which may turn out not to be a number. -/
def literal (text : List Char) : Lexeme where
  text
  token :=
    match Decimal.ofLiteral? text with
    | some d => .ok (.number d.toFloat)
    | none => .error (.badLiteral (String.ofList text))

/-- A run of letters, which is a name unless it is the keyword. -/
def word (text : List Char) : Lexeme where
  text
  token := .ok (if text = ['l', 'e', 't'] then .letKeyword else .identifier (String.ofList text))

/-- The longest lexeme at the front of a text. -/
def first? (cs : List Char) : Option Lexeme :=
  match cs with
  | [] => none
  | c :: _ =>
    if Decimal.isBodyChar c then some (literal (literalPart cs))
    else if c.isAlpha then some (word (cs.takeWhile Char.isAlpha))
    else (Token.ofSymbol? c).map fun t => ⟨[c], .ok t⟩

theorem signPart_isPrefix (cs : List Char) : signPart cs <+: cs := by
  cases cs with
  | nil => exact List.prefix_refl _
  | cons c rest => simp only [signPart]; split <;> simp

theorem exponentPart_isPrefix (cs : List Char) : exponentPart cs <+: cs := by
  cases cs with
  | nil => exact List.prefix_refl _
  | cons c rest =>
      simp only [exponentPart]
      split
      · obtain ⟨unsigned, eq⟩ := signPart_isPrefix rest
        have digits := List.takeWhile_prefix (l := unsigned) Char.isDigit
        have behind : rest.drop (signPart rest).length = unsigned :=
          (congrArg _ eq).symm.trans List.drop_left
        rw [behind, List.cons_prefix_cons]
        exact ⟨rfl, ((List.prefix_append_right_inj _).mpr digits).trans ⟨[], by simpa using eq⟩⟩
      · exact List.nil_prefix

theorem literalPart_isPrefix (cs : List Char) : literalPart cs <+: cs := by
  have behind := exponentPart_isPrefix (cs.dropWhile Decimal.isBodyChar)
  simpa [literalPart] using
    (List.prefix_append_right_inj (cs.takeWhile Decimal.isBodyChar)).mpr behind

/-- A lexeme is what the text starts with. -/
theorem isPrefix_of_first? {cs : List Char} {w : Lexeme} (h : first? cs = some w) :
    w.text <+: cs := by
  unfold first? at h
  split at h
  · simp at h
  · split at h
    · obtain rfl := Option.some.inj h
      exact literalPart_isPrefix _
    · split at h
      · obtain rfl := Option.some.inj h
        exact List.takeWhile_prefix _
      · obtain ⟨t, _, rfl⟩ := Option.map_eq_some_iff.mp h
        simp

theorem text_ne_nil_of_first? {cs : List Char} {w : Lexeme} (h : first? cs = some w) :
    w.text ≠ [] := by
  unfold first? at h
  split at h
  · simp at h
  · split at h
    · obtain rfl := Option.some.inj h
      simp [literal, literalPart, *]
    · split at h
      · obtain rfl := Option.some.inj h
        simp [word, *]
      · obtain ⟨t, _, rfl⟩ := Option.map_eq_some_iff.mp h
        simp

theorem length_drop_lt {cs : List Char} {w : Lexeme} (h : first? cs = some w) :
    (cs.drop w.text.length).length < cs.length := by
  have := (isPrefix_of_first? h).length_le
  have := List.length_pos_iff.mpr (text_ne_nil_of_first? h)
  simp only [List.length_drop]
  omega

end Lexeme

/-- The tokens of a text, brackets not yet counted. -/
def lex (cs : List Char) : Except Failure (List Token) :=
  match _ : cs.dropWhile Lexeme.isBlank with
  | [] => .ok []
  | c :: rest =>
    match _ : Lexeme.first? (c :: rest) with
    | none => .error (.unknownToken (String.singleton c))
    | some lexeme => do
      let t ← lexeme.token
      let ts ← lex ((c :: rest).drop lexeme.text.length)
      return t :: ts
termination_by cs.length
decreasing_by
  have unread : cs.dropWhile Lexeme.isBlank = c :: rest := by assumption
  have := unread ▸ (List.dropWhile_sublist (l := cs) Lexeme.isBlank).length_le
  have := Lexeme.length_drop_lt ‹Lexeme.first? (c :: rest) = some lexeme›
  omega

theorem lex_of_blank {cs : List Char} (h : cs.dropWhile Lexeme.isBlank = []) : lex cs = .ok [] := by
  rw [lex]; split <;> simp_all

theorem lex_of_none {cs rest : List Char} {c : Char}
    (h : cs.dropWhile Lexeme.isBlank = c :: rest) (absent : Lexeme.first? (c :: rest) = none) :
    lex cs = .error (.unknownToken (String.singleton c)) := by
  rw [lex]
  split
  · simp_all
  · rename_i d tail eq
    obtain ⟨rfl, rfl⟩ := List.cons.inj (h.symm.trans eq)
    split <;> simp_all

theorem lex_of_some {cs rest : List Char} {c : Char} {w : Lexeme}
    (h : cs.dropWhile Lexeme.isBlank = c :: rest) (found : Lexeme.first? (c :: rest) = some w) :
    lex cs = (do
      let t ← w.token
      let ts ← lex ((c :: rest).drop w.text.length)
      return t :: ts) := by
  rw [lex]
  split
  · simp_all
  · rename_i d tail eq
    obtain ⟨rfl, rfl⟩ := List.cons.inj (h.symm.trans eq)
    split <;> simp_all

/-- The tokens of a statement's text. -/
def tokenize (source : String) : Except Failure (List Token) := do
  let ts ← lex source.toList
  if (Nesting.ofTokens ts).isBalanced then return ts else throw .unbalanced

end Reckoner
