import Reckoner.Proofs.Lexical.Numeral

/-!
# The lexer follows the rules

`Lexeme.first?` finds the longest lexeme at the front of a text, and none only if no rule matches
there. The first character decides between the rules, so it is enough to look for the longest
match of one: the digits and dots of a numeral end where the next character is none, and an exponent
is taken exactly if a digit follows its mark and its sign. Reading a text is then the same as
`Munch`, by induction on what is left to read.
-/

namespace Reckoner.Lexical

variable {cs text v w body part : List Char} {power : Int} {t : Token}
  {result : Except Failure Token}

theorem prefix_takeWhile {p : Char → Bool} (isPrefix : v <+: cs) (all : ∀ c ∈ v, p c) :
    v <+: cs.takeWhile p := by
  obtain ⟨rest, rfl⟩ := isPrefix
  rw [List.takeWhile_append_of_pos all]
  exact List.prefix_append _ _

section Exponent

theorem isDigit_takeWhile (cs : List Char) : ∀ c ∈ cs.takeWhile Char.isDigit, c.isDigit :=
  List.all_eq_true.mp List.all_takeWhile

/-- What is cut off as an exponent is none or a whole one. -/
theorem exists_power_exponentPart (cs : List Char) :
    ∃ power, ExponentPart (Lexeme.exponentPart cs) power := by
  cases cs with
  | nil => exact ⟨0, .absent⟩
  | cons mark rest =>
      simp only [Lexeme.exponentPart]
      split
      · next taken =>
        have marked : mark = 'e' ∨ mark = 'E' := by
          simp only [Bool.and_eq_true, Bool.or_eq_true, beq_iff_eq] at taken
          exact taken.1
        have nonempty : (rest.drop (Lexeme.signPart rest).length).takeWhile Char.isDigit ≠ [] := by
          simp only [Bool.and_eq_true, Bool.not_eq_true', List.isEmpty_eq_false_iff] at taken
          exact taken.2
        have digits := isDigit_takeWhile (rest.drop (Lexeme.signPart rest).length)
        cases rest with
        | nil => exact ⟨_, .unsigned marked nonempty digits⟩
        | cons sign rest =>
            by_cases plus : sign = '+'
            · subst plus
              exact ⟨_, .positive marked nonempty digits⟩
            · by_cases minus : sign = '-'
              · subst minus
                exact ⟨_, .negative marked nonempty digits⟩
              · have unsigned : Lexeme.signPart (sign :: rest) = [] := by
                  simp [Lexeme.signPart, plus, minus]
                rw [unsigned] at nonempty digits ⊢
                exact ⟨_, .unsigned marked nonempty digits⟩
      · exact ⟨0, .absent⟩

theorem le_length_exponentPart {mark : Char} {sign digits rest : List Char}
    (marked : mark = 'e' ∨ mark = 'E') (nonempty : digits ≠ []) (all : ∀ c ∈ digits, c.isDigit)
    (signed : Lexeme.signPart (sign ++ (digits ++ rest)) = sign) :
    (mark :: (sign ++ digits)).length ≤
      (Lexeme.exponentPart (mark :: (sign ++ (digits ++ rest)))).length := by
  have taken : digits <+: (digits ++ rest).takeWhile Char.isDigit :=
    prefix_takeWhile (List.prefix_append _ _) all
  have some : (digits ++ rest).takeWhile Char.isDigit ≠ [] := by
    intro empty
    rw [empty] at taken
    exact nonempty (List.prefix_nil.mp taken)
  have unsigned : (sign ++ (digits ++ rest)).drop sign.length = digits ++ rest := List.drop_left
  have marks : (mark == 'e' || mark == 'E') = true := by
    rcases marked with rfl | rfl <;> rfl
  simp only [Lexeme.exponentPart, signed, unsigned, marks, List.isEmpty_eq_false_iff.mpr some]
  simpa using taken.length_le

theorem signPart_of_digits {digits : List Char} (nonempty : digits ≠ [])
    (all : ∀ c ∈ digits, c.isDigit) (rest : List Char) : Lexeme.signPart (digits ++ rest) = [] := by
  obtain ⟨c, digits, rfl⟩ := List.exists_cons_of_ne_nil nonempty
  have digit := all c (.head digits)
  have plus : c ≠ '+' := by rintro rfl; cases digit
  have minus : c ≠ '-' := by rintro rfl; cases digit
  simp [Lexeme.signPart, plus, minus]

/-- An exponent that is there is a mark, a sign or none, and digits. -/
theorem ExponentPart.eq_nil_or_signed (h : ExponentPart part power) :
    part = [] ∨ ∃ mark sign digits, part = mark :: (sign ++ digits) ∧
      (mark = 'e' ∨ mark = 'E') ∧ digits ≠ [] ∧ (∀ c ∈ digits, c.isDigit) ∧
        ∀ rest, Lexeme.signPart (sign ++ (digits ++ rest)) = sign := by
  cases h with
  | absent => exact .inl rfl
  | @unsigned mark digits marked nonempty all =>
      exact .inr ⟨mark, [], digits, rfl, marked, nonempty, all, signPart_of_digits nonempty all⟩
  | @positive mark digits marked nonempty all =>
      exact .inr ⟨mark, ['+'], digits, rfl, marked, nonempty, all, fun _ => rfl⟩
  | @negative mark digits marked nonempty all =>
      exact .inr ⟨mark, ['-'], digits, rfl, marked, nonempty, all, fun _ => rfl⟩

/-- No longer exponent starts where one is cut off. -/
theorem length_exponent_le (exponent : ExponentPart part power) (isPrefix : part <+: cs) :
    part.length ≤ (Lexeme.exponentPart cs).length := by
  obtain ⟨rest, rfl⟩ := isPrefix
  obtain rfl | ⟨mark, sign, digits, rfl, marked, nonempty, all, signed⟩ :=
    exponent.eq_nil_or_signed
  · exact Nat.zero_le _
  · rw [List.cons_append, List.append_assoc]
    exact le_length_exponentPart marked nonempty all (signed rest)

end Exponent

section Heads

theorem le_toNat_of_isAlpha {c : Char} (letter : c.isAlpha = true) : 'A'.toNat ≤ c.toNat := by
  have cases : (decide ('A'.val ≤ c.val ∧ c.val ≤ 'Z'.val) ||
      (decide ('a'.val ≤ c.val) && decide (c.val ≤ 'z'.val))) = true := letter
  simp only [Bool.or_eq_true, Bool.and_eq_true, decide_eq_true_eq] at cases
  rcases cases with ⟨upper, _⟩ | ⟨lower, _⟩
  · exact UInt32.le_iff_toNat_le.mp upper
  · exact Nat.le_trans (by decide) (UInt32.le_iff_toNat_le.mp lower)

theorem not_isBodyChar_of_isAlpha {c : Char} (letter : c.isAlpha = true) :
    Decimal.isBodyChar c = false := by
  apply eq_false_of_ne_true
  intro inside
  rcases isBodyChar_iff.mp inside with digit | rfl
  · have above : 65 ≤ c.toNat := le_toNat_of_isAlpha letter
    have below : c.toNat ≤ 57 := (Char.isDigit_iff_toNat.mp digit).2
    omega
  · cases letter

theorem symbol_char {c : Char} (h : Token.ofSymbol? c = some t) :
    Decimal.isBodyChar c = false ∧ c.isAlpha = false := by
  unfold Token.ofSymbol? at h
  split at h <;> first | decide | cases h

theorem exists_char_of_symbol (h : t ∈ symbols) :
    ∃ c, t.text.toList = [c] ∧ Token.ofSymbol? c = some t := by
  cases t with
  | number | identifier | letKeyword => simp [symbols] at h
  | _ => exact ⟨_, rfl, rfl⟩

theorem ofSymbol?_eq_some_iff {c : Char} :
    Token.ofSymbol? c = some t ↔ t ∈ symbols ∧ t.text.toList = [c] := by
  constructor
  · intro h
    unfold Token.ofSymbol? at h
    split at h <;> cases h <;> simp [symbols, Token.text]
  · rintro ⟨member, text⟩
    obtain ⟨d, written, symbol⟩ := exists_char_of_symbol member
    obtain rfl : c = d := List.singleton_inj.mp (text.symm.trans written)
    exact symbol

/-- A text that matches the rule of numerals starts with a digit or a dot. -/
theorem Numeral.exists_cons (h : Numeral w body power) :
    ∃ c rest, w = c :: rest ∧ Decimal.isBodyChar c = true := by
  cases h with
  | @mk body part power nonempty chars exponent =>
      obtain ⟨c, rest, rfl⟩ := List.exists_cons_of_ne_nil nonempty
      exact ⟨c, rest ++ part, rfl, isBodyChar_iff.mpr (chars c (.head rest))⟩

theorem Word.exists_cons (h : Word w) : ∃ c rest, w = c :: rest ∧ c.isAlpha = true := by
  obtain ⟨c, rest, rfl⟩ := List.exists_cons_of_ne_nil h.nonempty
  exact ⟨c, rest, rfl, h.letters c (.head rest)⟩

theorem word_let : Word ['l', 'e', 't'] :=
  ⟨by simp, List.all_eq_true.mp rfl⟩

end Heads

section First

theorem first?_of_isBodyChar {c : Char} (h : Decimal.isBodyChar c = true) (rest : List Char) :
    Lexeme.first? (c :: rest) = some (Lexeme.literal (Lexeme.literalPart (c :: rest))) := by
  simp [Lexeme.first?, h]

theorem first?_of_isAlpha {c : Char} (h : c.isAlpha = true) (rest : List Char) :
    Lexeme.first? (c :: rest) = some (Lexeme.word ((c :: rest).takeWhile Char.isAlpha)) := by
  simp [Lexeme.first?, not_isBodyChar_of_isAlpha h, h]

theorem first?_of_symbol {c : Char} (h : Token.ofSymbol? c = some t) (rest : List Char) :
    Lexeme.first? (c :: rest) = some ⟨[c], .ok t⟩ := by
  obtain ⟨body, letter⟩ := symbol_char h
  simp [Lexeme.first?, body, letter, h]

/-- The numeral that is cut off is one, with the digits and dots at the front as its body. -/
theorem exists_numeral_literalPart {c : Char} (h : Decimal.isBodyChar c = true)
    (rest : List Char) : ∃ body power, Numeral (Lexeme.literalPart (c :: rest)) body power := by
  obtain ⟨power, exponent⟩ :=
    exists_power_exponentPart ((c :: rest).dropWhile Decimal.isBodyChar)
  refine ⟨_, power, .mk ?_ ?_ exponent⟩
  · simp [h]
  · intro d member
    exact isBodyChar_iff.mp (List.all_eq_true.mp List.all_takeWhile d member)

/-- No longer numeral starts where one is cut off. -/
theorem length_numeral_le (numeral : Numeral v body power) (isPrefix : v <+: cs) :
    v.length ≤ (Lexeme.literalPart cs).length := by
  obtain ⟨rest, rfl⟩ := isPrefix
  cases numeral with
  | @mk body part power nonempty chars exponent =>
      have inside : ∀ c ∈ body, Decimal.isBodyChar c := by
        intro c member
        exact isBodyChar_iff.mpr (chars c member)
      rw [List.append_assoc, Lexeme.literalPart, List.takeWhile_append_of_pos inside,
        List.dropWhile_append_of_pos inside]
      cases part with
      | nil =>
          simp only [List.nil_append, List.append_nil, List.length_append]
          omega
      | cons mark part =>
          -- The mark of an exponent ends the body, so the exponents start at the same place.
          have stop := not_isBodyChar_of_exponent exponent mark rfl
          have taken := length_exponent_le exponent (List.prefix_append _ rest)
          simp only [List.cons_append, List.takeWhile_cons, List.dropWhile_cons, stop,
            List.length_append]
          exact Nat.add_le_add_left taken body.length

theorem reads_literal (numeral : Numeral w body power) : Reads w (Lexeme.literal w).token := by
  obtain ⟨reads, refuses⟩ := ofLiteral?_eq numeral
  by_cases formed : WellFormed body
  · simp only [Lexeme.literal, reads formed]
    exact .number numeral formed
  · simp only [Lexeme.literal, refuses formed]
    exact .malformed numeral formed

theorem reads_word (word : Word w) : Reads w (Lexeme.word w).token := by
  by_cases keyword : w = ['l', 'e', 't']
  · subst keyword
    exact .keyword
  · simp only [Lexeme.word, if_neg keyword]
    exact .name word keyword

theorem isLexeme_of_reads (h : Reads w result) : IsLexeme w := by
  cases h with
  | number numeral | malformed numeral => exact .numeral numeral
  | keyword => exact .word word_let
  | name word => exact .word word
  | symbol member => exact .symbol member

/-- A lexeme by its first character. -/
theorem lexeme_cases (h : IsLexeme w) :
    ∃ c rest, w = c :: rest ∧
      (Decimal.isBodyChar c = true ∧ (∃ body power, Numeral w body power) ∨
        c.isAlpha = true ∧ Word w ∨
        ∃ t, Token.ofSymbol? c = some t ∧ w = t.text.toList ∧ rest = []) := by
  cases h with
  | numeral numeral =>
      obtain ⟨c, rest, eq, digit⟩ := numeral.exists_cons
      exact ⟨c, rest, eq, .inl ⟨digit, _, _, numeral⟩⟩
  | word word =>
      obtain ⟨c, rest, eq, letter⟩ := word.exists_cons
      exact ⟨c, rest, eq, .inr (.inl ⟨letter, word⟩)⟩
  | symbol member =>
      obtain ⟨c, eq, symbol⟩ := exists_char_of_symbol member
      exact ⟨c, [], eq, .inr (.inr ⟨_, symbol, rfl, rfl⟩)⟩

theorem longest_literal {c : Char} {rest : List Char} (digit : Decimal.isBodyChar c = true) :
    Longest (c :: rest) (Lexeme.literalPart (c :: rest)) := by
  obtain ⟨body, power, numeral⟩ := exists_numeral_literalPart digit rest
  refine ⟨.numeral numeral, Lexeme.literalPart_isPrefix _, ?_⟩
  intro v isPrefix lexeme
  obtain ⟨d, vs, rfl, kind⟩ := lexeme_cases lexeme
  obtain ⟨rfl, _⟩ := List.cons_prefix_cons.mp isPrefix
  rcases kind with ⟨_, body, power, numeral⟩ | ⟨letter, _⟩ | ⟨t, symbol, _⟩
  · exact length_numeral_le numeral isPrefix
  · rw [not_isBodyChar_of_isAlpha letter] at digit
    cases digit
  · rw [(symbol_char symbol).1] at digit
    cases digit

theorem longest_word {c : Char} {rest : List Char} (letter : c.isAlpha = true) :
    Longest (c :: rest) ((c :: rest).takeWhile Char.isAlpha) := by
  refine ⟨.word ⟨by simp [letter], List.all_eq_true.mp List.all_takeWhile⟩,
    List.takeWhile_prefix _, ?_⟩
  intro v isPrefix lexeme
  obtain ⟨d, vs, rfl, kind⟩ := lexeme_cases lexeme
  obtain ⟨rfl, _⟩ := List.cons_prefix_cons.mp isPrefix
  rcases kind with ⟨digit, _⟩ | ⟨_, word⟩ | ⟨t, symbol, _⟩
  · rw [not_isBodyChar_of_isAlpha letter] at digit
    cases digit
  · exact (prefix_takeWhile isPrefix word.letters).length_le
  · rw [(symbol_char symbol).2] at letter
    cases letter

theorem longest_symbol {c : Char} {rest : List Char} (symbol : Token.ofSymbol? c = some t) :
    Longest (c :: rest) [c] := by
  obtain ⟨member, text⟩ := ofSymbol?_eq_some_iff.mp symbol
  refine ⟨text ▸ .symbol member, ⟨rest, rfl⟩, ?_⟩
  intro v isPrefix lexeme
  obtain ⟨d, vs, rfl, kind⟩ := lexeme_cases lexeme
  obtain ⟨rfl, _⟩ := List.cons_prefix_cons.mp isPrefix
  obtain ⟨notBody, notLetter⟩ := symbol_char symbol
  rcases kind with ⟨digit, _⟩ | ⟨letter, _⟩ | ⟨_, _, _, rfl⟩
  · rw [notBody] at digit
    cases digit
  · rw [notLetter] at letter
    cases letter
  · exact Nat.le_refl 1

/-- The first lexeme of a text is the longest one that it starts with, read by the rules. -/
theorem longest_of_first? {l : Lexeme} (h : Lexeme.first? cs = some l) :
    Longest cs l.text ∧ Reads l.text l.token := by
  cases cs with
  | nil => cases h
  | cons c rest =>
      by_cases digit : Decimal.isBodyChar c = true
      · rw [first?_of_isBodyChar digit] at h
        obtain rfl := Option.some.inj h
        obtain ⟨body, power, numeral⟩ := exists_numeral_literalPart digit rest
        exact ⟨longest_literal digit, reads_literal numeral⟩
      · by_cases letter : c.isAlpha = true
        · rw [first?_of_isAlpha letter] at h
          obtain rfl := Option.some.inj h
          have word : Word ((c :: rest).takeWhile Char.isAlpha) :=
            ⟨by simp [letter], List.all_eq_true.mp List.all_takeWhile⟩
          exact ⟨longest_word letter, reads_word word⟩
        · simp only [Lexeme.first?, digit, letter] at h
          obtain ⟨t, symbol, rfl⟩ := Option.map_eq_some_iff.mp h
          obtain ⟨member, text⟩ := ofSymbol?_eq_some_iff.mp symbol
          exact ⟨longest_symbol symbol, text ▸ .symbol member⟩

/-- Where no first lexeme is found, no rule matches. -/
theorem not_isLexeme_of_first? (h : Lexeme.first? cs = none) (isPrefix : w <+: cs) :
    ¬ IsLexeme w := by
  intro lexeme
  obtain ⟨c, rest, rfl, kind⟩ := lexeme_cases lexeme
  obtain ⟨behind, rfl⟩ := isPrefix
  rw [List.cons_append] at h
  rcases kind with ⟨digit, _⟩ | ⟨letter, _⟩ | ⟨t, symbol, _⟩
  · rw [first?_of_isBodyChar digit] at h
    cases h
  · rw [first?_of_isAlpha letter] at h
    cases h
  · rw [first?_of_symbol symbol] at h
    cases h

end First

section Unique

/-- A lexeme by itself is its own first lexeme. -/
theorem first?_of_reads (h : Reads w result) : Lexeme.first? w = some ⟨w, result⟩ := by
  have literal : ∀ {body power}, Numeral w body power →
      Lexeme.first? w = some (Lexeme.literal w) := by
    intro body power numeral
    obtain ⟨c, rest, rfl, digit⟩ := numeral.exists_cons
    have whole : Lexeme.literalPart (c :: rest) = c :: rest :=
      (Lexeme.literalPart_isPrefix _).eq_of_length_le
        (length_numeral_le numeral (List.prefix_refl _))
    rw [first?_of_isBodyChar digit, whole]
  have word : Word w → Lexeme.first? w = some (Lexeme.word w) := by
    intro word
    obtain ⟨c, rest, rfl, letter⟩ := word.exists_cons
    have whole := prefix_takeWhile (List.prefix_refl _) word.letters
    rw [first?_of_isAlpha letter, ← whole.eq_of_length_le (List.takeWhile_prefix _).length_le]
  cases h with
  | number numeral formed =>
      rw [literal numeral, Lexeme.literal, (ofLiteral?_eq numeral).1 formed]
  | malformed numeral malformed =>
      rw [literal numeral, Lexeme.literal, (ofLiteral?_eq numeral).2 malformed]
  | keyword => exact word word_let
  | name letters other => rw [word letters, Lexeme.word, if_neg other]
  | symbol member =>
      obtain ⟨c, text, symbol⟩ := exists_char_of_symbol member
      rw [text, first?_of_symbol symbol]

theorem reads_unique {result' : Except Failure Token} (h : Reads w result)
    (h' : Reads w result') : result = result' := by
  have same := (first?_of_reads h).symm.trans (first?_of_reads h')
  exact (Lexeme.mk.inj (Option.some.inj same)).2

theorem Longest.unique (h : Longest text v) (h' : Longest text w) : v = w := by
  have short : v.length ≤ w.length := h'.longest v h.isPrefix h.lexeme
  have long : w.length ≤ v.length := h.longest w h'.isPrefix h'.lexeme
  exact (List.prefix_of_prefix_length_le h.isPrefix h'.isPrefix short).eq_of_length_le long

/-- The longest lexeme is the one that the lexer finds. -/
theorem first?_of_longest (longest : Longest text w) (reads : Reads w result) :
    Lexeme.first? text = some ⟨w, result⟩ := by
  cases found : Lexeme.first? text with
  | none => exact absurd longest.lexeme (not_isLexeme_of_first? found longest.isPrefix)
  | some l =>
      obtain ⟨first, token⟩ := l
      obtain ⟨longest', reads'⟩ := longest_of_first? found
      obtain rfl : first = w := longest'.unique longest
      obtain rfl : token = result := reads_unique reads' reads
      rfl

end Unique

section Text

variable {gap rest : List Char} {tokens : Except Failure (List Token)}

theorem isBlank_iff {c : Char} :
    Lexeme.isBlank c = true ↔ c ∈ [' ', '\t', '\r', '\n', '\x0c'] := by
  simp [Lexeme.isBlank, or_assoc]

theorem IsLexeme.chars (h : IsLexeme w) : ∀ c ∈ w, IsLexemeChar c := by
  intro c member
  cases h with
  | numeral numeral =>
      cases numeral with
      | mk _ chars exponent =>
          rcases List.mem_append.mp member with inside | behind
          · rcases chars c inside with digit | rfl
            · exact .inl digit
            · exact .inr (.inr (by simp))
          · rcases exponent.chars c behind with digit | mark
            · exact .inl digit
            · simp only [List.mem_cons, List.not_mem_nil, or_false] at mark
              rcases mark with rfl | rfl | rfl | rfl
              · exact .inr (.inl rfl)
              · exact .inr (.inl rfl)
              · exact .inr (.inr (by simp))
              · exact .inr (.inr (by simp))
  | word word => exact .inr (.inl (word.letters c member))
  | symbol isSymbol =>
      obtain ⟨d, written, symbol⟩ := exists_char_of_symbol isSymbol
      rw [written, List.mem_singleton] at member
      subst member
      unfold Token.ofSymbol? at symbol
      split at symbol <;> cases symbol <;> exact .inr (.inr (by simp))

theorem not_isLexemeChar_of_isBlank {c : Char} (blank : Lexeme.isBlank c = true) :
    ¬ IsLexemeChar c := by
  have member := isBlank_iff.mp blank
  simp only [List.mem_cons, List.not_mem_nil, or_false] at member
  unfold IsLexemeChar
  rcases member with rfl | rfl | rfl | rfl | rfl <;> decide

theorem not_isBlank_of_mem_lexeme (h : IsLexeme w) : ∀ c ∈ w, Lexeme.isBlank c = false :=
  fun c member => eq_false_of_ne_true fun blank =>
    not_isLexemeChar_of_isBlank blank (h.chars c member)

theorem exists_cons_of_lexeme (h : IsLexeme w) :
    ∃ c rest, w = c :: rest ∧ Lexeme.isBlank c = false := by
  obtain ⟨c, rest, rfl, _⟩ := lexeme_cases h
  exact ⟨c, rest, rfl, not_isBlank_of_mem_lexeme h c (.head rest)⟩

theorem dropWhile_blank (rest : List Char) (blank : Blank gap)
    (stop : ∀ c, rest.head? = some c → ¬ Blank [c]) :
    (gap ++ rest).dropWhile Lexeme.isBlank = rest := by
  apply dropWhile_append_stop rest
  · intro c member
    exact isBlank_iff.mpr (blank c member)
  · intro c first
    apply eq_false_of_ne_true
    intro isBlank
    apply stop c first
    intro d member
    obtain rfl := List.mem_singleton.mp member
    exact isBlank_iff.mp isBlank

theorem dropWhile_blank_lexeme (rest : List Char) (blank : Blank gap) (lexeme : IsLexeme w) :
    (gap ++ (w ++ rest)).dropWhile Lexeme.isBlank = w ++ rest := by
  obtain ⟨c, behind, rfl, notBlank⟩ := exists_cons_of_lexeme lexeme
  apply dropWhile_blank _ blank
  intro d first isBlank
  obtain rfl := Option.some.inj first
  rw [isBlank_iff.mpr (isBlank c (List.mem_singleton_self c))] at notBlank
  cases notBlank

/-- What the lexer does with a text whose first lexeme is known. -/
theorem lex_of_longest (blank : Blank gap) (longest : Longest (w ++ rest) w)
    (reads : Reads w result) :
    lex (gap ++ (w ++ rest)) = (do
      let t ← result
      let ts ← lex rest
      return t :: ts) := by
  obtain ⟨c, behind, rfl, _⟩ := exists_cons_of_lexeme longest.lexeme
  have unread := dropWhile_blank_lexeme rest blank longest.lexeme
  have found := first?_of_longest longest reads
  rw [lex_of_some unread found]
  show (do
    let t ← result
    let ts ← lex ((c :: behind ++ rest).drop (c :: behind).length)
    return t :: ts) = _
  rw [List.drop_left]

/-- The lexer follows every cut by the rules. -/
theorem lex_of_munch (h : Munch cs tokens) : lex cs = tokens := by
  induction h with
  | @done gap blank =>
      apply lex_of_blank
      have all := dropWhile_blank [] blank (by simp)
      rwa [List.append_nil] at all
  | @unknown gap rest c blank notBlank nothing =>
      have unread := dropWhile_blank (c :: rest) blank (by simpa using notBlank)
      cases found : Lexeme.first? (c :: rest) with
      | none => exact lex_of_none unread found
      | some l =>
          have longest := (longest_of_first? found).1
          exact absurd longest.lexeme (nothing _ longest.isPrefix)
  | refused blank longest reads =>
      rw [lex_of_longest blank longest reads]
      rfl
  | @token gap w rest t result blank longest reads _ ih =>
      rw [lex_of_longest blank longest reads, ih]
      cases result <;> rfl

theorem blank_takeWhile (cs : List Char) : Blank (cs.takeWhile Lexeme.isBlank) := by
  intro c member
  exact isBlank_iff.mp (List.all_eq_true.mp List.all_takeWhile c member)

theorem not_blank_of_dropWhile {c : Char} (h : cs.dropWhile Lexeme.isBlank = c :: rest) :
    ¬ Blank [c] := by
  intro blank
  have stop := List.head?_dropWhile_not Lexeme.isBlank cs
  simp only [h, List.head?_cons] at stop
  rw [isBlank_iff.mpr (blank c (List.mem_singleton_self c))] at stop
  cases stop

/-- Every text can be cut by the rules. -/
theorem exists_munch (cs : List Char) : ∃ tokens, Munch cs tokens := by
  induction cs using lex.induct with
  | case1 cs empty =>
      have all := List.takeWhile_append_dropWhile (p := Lexeme.isBlank) (l := cs)
      rw [empty, List.append_nil] at all
      exact ⟨.ok [], .done (all ▸ blank_takeWhile cs)⟩
  | case2 cs c rest unread none =>
      rw [← List.takeWhile_append_dropWhile (p := Lexeme.isBlank) (l := cs), unread]
      refine ⟨_, .unknown (blank_takeWhile cs) (not_blank_of_dropWhile unread) ?_⟩
      intro w isPrefix
      exact not_isLexeme_of_first? none isPrefix
  | case3 cs c rest unread l found ih =>
      obtain ⟨longest, reads⟩ := longest_of_first? found
      obtain ⟨behind, cut⟩ := longest.isPrefix
      rw [← List.takeWhile_append_dropWhile (p := Lexeme.isBlank) (l := cs), unread, ← cut]
      rw [← cut] at longest ih
      rw [List.drop_left] at ih
      obtain ⟨tokens, later⟩ := ih
      obtain ⟨text, token⟩ := l
      cases token with
      | error failure => exact ⟨_, .refused (blank_takeWhile cs) longest reads⟩
      | ok t => exact ⟨_, .token (blank_takeWhile cs) longest reads later⟩

/-- The lexer and the rules agree. -/
theorem lex_eq_iff : lex cs = tokens ↔ Munch cs tokens := by
  constructor
  · rintro rfl
    obtain ⟨tokens, h⟩ := exists_munch cs
    rwa [lex_of_munch h]
  · exact lex_of_munch

end Text

end Reckoner.Lexical
