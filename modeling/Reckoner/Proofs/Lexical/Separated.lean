import Reckoner.Proofs.Lexical.Tokenize

/-!
# Texts separated by blanks

No lexeme has a blank in it, so what can be a lexeme in front of a blank does not depend on what
stands behind it. A text of two parts with blanks between them is read as its parts are: the first
failure from the left ends the reading, and if there is none the tokens are those of both parts.
Brackets are counted over the tokens of both, so a pair may be opened in one part and closed in the
other.
-/

namespace Reckoner.Lexical

variable {cs ds gap v w : List Char}

section Munch

/-- A lexeme does not reach behind a blank. -/
theorem isPrefix_of_blank (blank : Blank gap) (nonempty : gap ≠ []) (lexeme : IsLexeme v)
    (isPrefix : v <+: cs ++ (gap ++ ds)) : v <+: cs := by
  obtain shorter | ⟨more, rfl⟩ :=
    List.prefix_or_prefix_of_prefix isPrefix (List.prefix_append cs (gap ++ ds))
  · exact shorter
  · cases more with
    | nil => simp
    | cons c more =>
        obtain ⟨b, gap, rfl⟩ := List.exists_cons_of_ne_nil nonempty
        have behind : c :: more <+: b :: (gap ++ ds) :=
          (List.prefix_append_right_inj cs).mp isPrefix
        obtain rfl := (List.cons_prefix_cons.mp behind).1
        have notBlank := not_isBlank_of_mem_lexeme lexeme c (by simp)
        rw [isBlank_iff.mpr (blank c (.head _))] at notBlank
        cases notBlank

/-- What is the longest lexeme in front of a blank stays so, whatever stands behind. -/
theorem Longest.append_blank (h : Longest cs w) (blank : Blank gap) (nonempty : gap ≠ []) :
    Longest (cs ++ (gap ++ ds)) w := by
  refine ⟨h.lexeme, h.isPrefix.trans (List.prefix_append cs (gap ++ ds)), ?_⟩
  intro v isPrefix lexeme
  exact h.longest v (isPrefix_of_blank blank nonempty lexeme isPrefix) lexeme

theorem Munch.blank_append {tokens : Except Failure (List Token)} (blank : Blank gap)
    (h : Munch cs tokens) : Munch (gap ++ cs) tokens := by
  have wider : ∀ {behind}, Blank behind → Blank (gap ++ behind) := by
    intro behind blank' c member
    exact (List.mem_append.mp member).elim (blank c) (blank' c)
  cases h with
  | done blank' => exact .done (wider blank')
  | unknown blank' notBlank nothing =>
      rw [← List.append_assoc]
      exact .unknown (wider blank') notBlank nothing
  | refused blank' longest reads =>
      rw [← List.append_assoc]
      exact .refused (wider blank') longest reads
  | token blank' longest reads later =>
      rw [← List.append_assoc]
      exact .token (wider blank') longest reads later

/-- Two texts with blanks between them are cut one after the other. -/
theorem Munch.append_blank {first second : Except Failure (List Token)} (h : Munch cs first)
    (blank : Blank gap) (nonempty : gap ≠ []) (h' : Munch ds second) :
    Munch (cs ++ (gap ++ ds)) (do
      let ts ← first
      let us ← second
      return ts ++ us) := by
  induction h with
  | done before =>
      have later := (h'.blank_append blank).blank_append before
      cases second <;> exact later
  | unknown before notBlank nothing =>
      rw [List.append_assoc, List.cons_append]
      refine .unknown before notBlank ?_
      intro w isPrefix lexeme
      exact nothing w (isPrefix_of_blank blank nonempty lexeme isPrefix) lexeme
  | @refused _ w rest _ before longest reads =>
      have longest : Longest (w ++ rest ++ (gap ++ ds)) w := longest.append_blank blank nonempty
      rw [List.append_assoc] at longest
      rw [List.append_assoc, List.append_assoc]
      exact .refused before longest reads
  | @token _ w rest t later before longest reads _ ih =>
      have longest : Longest (w ++ rest ++ (gap ++ ds)) w := longest.append_blank blank nonempty
      rw [List.append_assoc] at longest
      rw [List.append_assoc, List.append_assoc]
      have step := Munch.token before longest reads ih
      cases later <;> cases second <;> exact step

theorem lex_append_blank (blank : Blank gap) (nonempty : gap ≠ []) :
    lex (cs ++ (gap ++ ds)) = (do
      let ts ← lex cs
      let us ← lex ds
      return ts ++ us) :=
  lex_eq_iff.mpr ((lex_eq_iff.mp rfl).append_blank blank nonempty (lex_eq_iff.mp rfl))

end Munch

section Tokenize

variable {source : String} {failure : Failure}

/-- The lexical failures of a text are those of cutting it. -/
theorem lex_eq_error_iff :
    lex source.toList = .error failure ↔ IsLexical failure ∧ tokenize source = .error failure := by
  constructor
  · intro refused
    exact ⟨(lex_eq_iff.mp refused).isLexical, tokenize_of_lex_eq_error refused⟩
  · rintro ⟨⟨text, lexical⟩, refused⟩
    obtain cut | ⟨rfl, _⟩ := tokenize_eq_error_iff.mp refused
    · exact lex_eq_iff.mpr cut
    · simp at lexical

theorem exists_lex_eq_ok
    (accepted : ∀ failure, IsLexical failure → tokenize source ≠ .error failure) :
    ∃ ts, lex source.toList = .ok ts := by
  cases read : lex source.toList with
  | ok ts => exact ⟨ts, rfl⟩
  | error failure =>
      obtain ⟨lexical, refused⟩ := lex_eq_error_iff.mp read
      exact absurd refused (accepted failure lexical)

end Tokenize

/-- A text that has blanks between two parts fails as its first part does if that has a lexical
failure, and otherwise as the second part does if that has one. If neither has, the tokens are those
of the two parts, each of which may be unbalanced, and only their brackets together count. -/
theorem tokenize_append_blank (front back : String) {gap : String} (blank : Blank gap.toList)
    (nonempty : gap ≠ "") :
    (∀ failure, IsLexical failure → tokenize front = .error failure →
      tokenize (front ++ gap ++ back) = .error failure) ∧
    ((∀ failure, IsLexical failure → tokenize front ≠ .error failure) →
      (∀ failure, IsLexical failure → tokenize back = .error failure →
        tokenize (front ++ gap ++ back) = .error failure) ∧
      ((∀ failure, IsLexical failure → tokenize back ≠ .error failure) →
        ∃ ts us, lex front.toList = .ok ts ∧ lex back.toList = .ok us ∧
          tokenize (front ++ gap ++ back) =
            if Balanced (ts ++ us) then .ok (ts ++ us) else .error .unbalanced)) := by
  have whole : lex (front.toList ++ (gap.toList ++ back.toList)) = _ :=
    lex_append_blank blank (mt String.toList_eq_nil_iff.mp nonempty)
  rw [← List.append_assoc, ← String.toList_append, ← String.toList_append] at whole
  refine ⟨?_, fun accepted => ?_⟩
  · intro failure lexical refused
    rw [lex_eq_error_iff.mpr ⟨lexical, refused⟩] at whole
    exact tokenize_of_lex_eq_error whole
  · obtain ⟨ts, read⟩ := exists_lex_eq_ok accepted
    rw [read] at whole
    refine ⟨?_, fun accepted' => ?_⟩
    · intro failure lexical refused
      rw [lex_eq_error_iff.mpr ⟨lexical, refused⟩] at whole
      exact tokenize_of_lex_eq_error whole
    · obtain ⟨us, read'⟩ := exists_lex_eq_ok accepted'
      rw [read'] at whole
      refine ⟨ts, us, read, read', ?_⟩
      rw [tokenize_of_lex_eq_ok whole]
      simp only [isBalanced_iff_balanced]

/-- The `e` at the end of a part does not become an exponent, and a group may be opened in one part
and closed in the other. -/
theorem tokenize_append_blank_group :
    let front : List Token := [.openParen, .number 2, .identifier "e"]
    let back : List Token := [.number 5, .closeParen]
    (Blank " ".toList ∧ " " ≠ "") ∧
      ((∀ failure, IsLexical failure → tokenize "(2e" ≠ .error failure) ∧
        ∀ failure, IsLexical failure → tokenize "5)" ≠ .error failure) ∧
      tokenize ("(2e" ++ " " ++ "5)") = .ok (front ++ back) := by
  intro front back
  have blank : Blank " ".toList := by
    intro c member
    obtain rfl : c = ' ' := List.mem_singleton.mp member
    exact .head _
  have read : lex "(2e".toList = .ok front := Failure.eq_ok_of_toOption (by decide +kernel)
  have read' : lex "5)".toList = .ok back := Failure.eq_ok_of_toOption (by decide +kernel)
  have accepted : ∀ failure, IsLexical failure → tokenize "(2e" ≠ .error failure := by
    intro failure lexical refused
    have read'' := lex_eq_error_iff.mpr ⟨lexical, refused⟩
    rw [read] at read''
    cases read''
  have accepted' : ∀ failure, IsLexical failure → tokenize "5)" ≠ .error failure := by
    intro failure lexical refused
    have read'' := lex_eq_error_iff.mpr ⟨lexical, refused⟩
    rw [read'] at read''
    cases read''
  obtain ⟨ts, us, first, second, whole⟩ :=
    ((tokenize_append_blank "(2e" "5)" blank (by decide)).2 accepted).2 accepted'
  obtain rfl := Except.ok.inj (read.symm.trans first)
  obtain rfl := Except.ok.inj (read'.symm.trans second)
  exact ⟨⟨blank, by decide⟩, ⟨accepted, accepted'⟩, whole.trans (if_pos (by decide +kernel))⟩

end Reckoner.Lexical
