import Reckoner.Proofs.Nesting
import Reckoner.Scan

/-!
# Splitting a range where its root operator stands

A range is `Clear` of some tokens if none of them joins two parts of it: each occurrence is between
brackets or a sign. Clearness is shown for the parts of a range and then for the whole. The
splitting lemmas say where a range is cut whose one side is clear: at the last joining token if
what follows it is clear, at the first if what precedes it is.
-/

namespace Reckoner

namespace Scan

variable {candidates xs ys ts inner : List Token} {before : Option Token} {t : Token}

@[simp] theorem topLevel_nesting (candidates : List Token) (before : Option Token) (index : Nat)
    (ts : List Token) : (topLevel candidates before index ts).1 = Nesting.ofTokens ts := by
  induction ts generalizing before index with
  | nil => rfl
  | cons t ts ih =>
      simp only [topLevel]
      split <;> simp only [ih, Nesting.ofTokens_cons, Nesting.track_eq_add, Nesting.add_comm]

/-- The positions found in a range with one more token in front. -/
theorem topLevel_cons (candidates : List Token) (before : Option Token) (index : Nat) (t : Token)
    (ts : List Token) : (topLevel candidates before index (t :: ts)).2 =
      (if (Nesting.ofTokens (t :: ts)).isBalanced && candidates.contains t && !t.isSign before
        then [index] else []) ++ (topLevel candidates (some t) (index + 1) ts).2 := by
  have counts : (Nesting.ofTokens ts).track t = Nesting.ofTokens (t :: ts) := by
    rw [Nesting.track_eq_add, Nesting.ofTokens_cons, Nesting.add_comm]
  simp only [topLevel, topLevel_nesting, counts]
  split <;> rfl

theorem contains_of_mem_topLevel {index i : Nat}
    (h : i ∈ (topLevel candidates before index ts).2) :
    ∃ t, ts[i - index]? = some t ∧ candidates.contains t = true := by
  induction ts generalizing before index with
  | nil => simp [topLevel] at h
  | cons t ts ih =>
      rw [topLevel_cons, List.mem_append] at h
      rcases h with here | behind
      · split at here
        · next qualifies =>
          obtain rfl := List.mem_singleton.mp here
          simp only [Bool.and_eq_true] at qualifies
          exact ⟨t, by simp, qualifies.1.2⟩
        · simp at here
      · obtain ⟨u, at_u, wanted⟩ := ih behind
        have bound := (mem_topLevel_bounds behind).1
        refine ⟨u, ?_, wanted⟩
        rw [show i - index = (i - (index + 1)) + 1 by omega, List.getElem?_cons_succ, at_u]

/-- A balanced range behind another leaves the counts of the first as they are. -/
theorem topLevel_append (balanced : Nesting.ofTokens ys = {}) (candidates : List Token)
    (before : Option Token) (index : Nat) :
    (topLevel candidates before index (xs ++ ys)).2 =
      (topLevel candidates before index xs).2 ++
        (topLevel candidates (xs.getLast?.or before) (index + xs.length) ys).2 := by
  induction xs generalizing before index with
  | nil => simp [topLevel]
  | cons t xs ih =>
      have last : (xs.getLast?.or (some t)) = (t :: xs).getLast?.or before := by
        cases xs <;> simp [List.getLast?_cons]
      have shift : index + 1 + xs.length = index + (t :: xs).length := by
        simp only [List.length_cons]
        omega
      have counts : Nesting.ofTokens (t :: (xs ++ ys)) = Nesting.ofTokens (t :: xs) := by
        simp [Nesting.ofTokens_cons, Nesting.ofTokens_append, balanced]
      rw [List.cons_append, topLevel_cons, topLevel_cons, counts, ih, last, shift,
        List.append_assoc]

/-- No token of `candidates` joins two parts of a range that follows the token `before`. -/
def Clear (candidates : List Token) (before : Option Token) (ts : List Token) : Prop :=
  ∀ index, (topLevel candidates before index ts).2 = []

theorem Clear.nil : Clear candidates before [] :=
  fun _ => rfl

theorem Clear.append (hx : Clear candidates before xs)
    (hy : Clear candidates (xs.getLast?.or before) ys)
    (balanced : Nesting.ofTokens ys = {}) : Clear candidates before (xs ++ ys) := by
  intro index
  rw [topLevel_append balanced, hx, hy]
  rfl

theorem Clear.cons (skip : candidates.contains t = false ∨ t.isSign before = true)
    (h : Clear candidates (some t) ts) : Clear candidates before (t :: ts) := by
  intro index
  rw [topLevel_cons, h]
  rcases skip with absent | sign
  · simp [absent]
  · simp [sign]

theorem Clear.singleton (absent : candidates.contains t = false) :
    Clear candidates before [t] :=
  .cons (.inl absent) .nil

/-- A comma is no sign, whatever is before it. -/
theorem Clear.comma_congr (h : Clear [.comma] before ts) (other : Option Token) :
    Clear [.comma] other ts := by
  intro index
  have found := h index
  cases ts with
  | nil => rfl
  | cons t ts =>
      have skip : ∀ b, ([.comma].contains t && !t.isSign b) = [Token.comma].contains t := by
        intro b
        cases t <;> rfl
      rw [topLevel_cons, Bool.and_assoc, skip] at found ⊢
      exact found

theorem Clear.of_unbalanced (h : ∀ zs, zs <:+ ts → zs ≠ [] → Nesting.ofTokens zs ≠ {}) :
    Clear candidates before ts := by
  induction ts generalizing before with
  | nil => exact .nil
  | cons t ts ih =>
      intro index
      have here := h (t :: ts) List.suffix_rfl (List.cons_ne_nil t ts)
      have behind : Clear candidates (some t) ts :=
        ih fun zs suffix => h zs (suffix.trans (List.suffix_cons t ts))
      have unbalanced : (Nesting.ofTokens (t :: ts)).isBalanced = false :=
        Bool.eq_false_iff.mpr (here ∘ Nesting.isBalanced_iff.mp)
      simp [topLevel_cons, unbalanced, behind (index + 1)]

/-- A pair of brackets is clear of everything but its opener, whatever stands between them. -/
theorem Clear.enclose {opener closer : Token} (pair : opener.closer? = some closer)
    (nested : Nested inner) (absent : candidates.contains opener = false) :
    Clear candidates before (opener :: (inner ++ [closer])) := by
  refine .cons (.inl absent) (.of_unbalanced ?_)
  intro zs suffix nonempty
  exact nested.ofTokens_ne_of_suffix_closer pair suffix nonempty

end Scan

variable {candidates xs ys ts : List Token} {t : Token}

/-- A range is cut only at a token that is asked for. -/
theorem contains_operator_of_splitTopLevel {search : Search} {s : Split}
    (h : splitTopLevel ts candidates search = .ok (some s)) :
    candidates.contains s.operator = true := by
  simp only [splitTopLevel] at h
  split at h
  · simp at h
  · simp at h
  · next i found =>
    obtain ⟨t, at_i, wanted⟩ :=
      Scan.contains_of_mem_topLevel (mem_topLevel_of_findTopLevel found)
    rw [Nat.sub_zero] at at_i
    obtain rfl : (⟨ts.take i, t, ts.drop (i + 1)⟩ : Split) = s := by simpa [at_i] using h
    exact wanted

/-- A range that is clear as a whole is not split. -/
theorem splitTopLevel_of_clear (balanced : Nesting.ofTokens ts = {})
    (clear : Scan.Clear candidates none ts) (search : Search) :
    splitTopLevel ts candidates search = .ok none := by
  have none_found := clear 0
  cases search <;> simp [splitTopLevel, findTopLevel, none_found, balanced, Nesting.isBalanced]

/-- What is found in a range around a token that joins its two sides. -/
theorem Scan.topLevel_of_joins (wanted : candidates.contains t = true) (plain : t.isBracket = false)
    (binary : t.isSign xs.getLast? = false) (balanced : Nesting.ofTokens ys = {}) :
    (topLevel candidates none 0 (xs ++ t :: ys)).2 =
      (topLevel candidates none 0 xs).2 ++
        xs.length :: (topLevel candidates (some t) (xs.length + 1) ys).2 := by
  have counts : Nesting.ofTokens (t :: ys) = {} := by
    simp [Nesting.ofTokens_cons, Token.weight_of_not_isBracket plain, balanced]
  rw [topLevel_append counts, topLevel_cons, counts]
  simp [Nesting.isBalanced, wanted, binary]

/-- The range is cut at a joining token if what follows it is clear. -/
theorem splitTopLevel_last (wanted : candidates.contains t = true) (plain : t.isBracket = false)
    (binary : t.isSign xs.getLast? = false) (balanced : Nesting.ofTokens ys = {})
    (clear : Scan.Clear candidates (some t) ys) :
    splitTopLevel (xs ++ t :: ys) candidates .last = .ok (some ⟨xs, t, ys⟩) := by
  have found := Scan.topLevel_of_joins wanted plain binary balanced
  rw [clear] at found
  simp [splitTopLevel, findTopLevel, found]

/-- The range is cut at a joining token if what precedes it is clear. -/
theorem splitTopLevel_first (wanted : candidates.contains t = true) (plain : t.isBracket = false)
    (binary : t.isSign xs.getLast? = false) (left : Nesting.ofTokens xs = {})
    (right : Nesting.ofTokens ys = {}) (clear : Scan.Clear candidates none xs) :
    splitTopLevel (xs ++ t :: ys) candidates .first = .ok (some ⟨xs, t, ys⟩) := by
  have found := Scan.topLevel_of_joins wanted plain binary right
  have counts : Nesting.ofTokens (xs ++ t :: ys) = {} := by
    simp [Nesting.ofTokens_append, Nesting.ofTokens_cons, Token.weight_of_not_isBracket plain,
      left, right]
  rw [clear] at found
  simp [splitTopLevel, findTopLevel, found, counts, Nesting.isBalanced]

end Reckoner
