import Mathlib.Order.Bounds.Basic
import Mathlib.Tactic.MkIffOfInductiveProp
import Reckoner.Proofs.Lexical.Tokenize
import Reckoner.Proofs.Scan

/-!
# Positions outside of all brackets

A position qualifies for a search if its token is wanted and no sign, and if what follows it, the
token included, is balanced. `findTopLevel` gives the last or the first position that qualifies, and
refuses an unbalanced range only where it has to look at all of it. In a properly nested list the
counts from the end tell the same as the pairs themselves: a token that is no bracket is followed by
a balanced rest exactly if no pair stands around it, and exactly if no bracket is open where a
reader from the left comes to it.
-/

namespace Reckoner.Scan

open Lexical

variable {candidates ts inner : List Token} {before : Option Token} {t u : Token} {i k : Nat}

/-- Tokens that a search takes for one another: numbers that compare equal, and otherwise the same
token. -/
inductive Same : Token → Token → Prop
  | number {x y : Float} : (x == y) = true → Same (.number x) (.number y)
  | other {t : Token} : (∀ x, t ≠ .number x) → Same t t

/-- The token at a position is one of those searched for. -/
def Wanted (candidates ts : List Token) (i : Nat) : Prop :=
  ∃ t, ts[i]? = some t ∧ ∃ u ∈ candidates, Same t u

/-- A `+` or `-` that opens the list or follows an operator. -/
def IsSign (ts : List Token) (i : Nat) : Prop :=
  (ts[i]? = some .plus ∨ ts[i]? = some .minus) ∧
    (i = 0 ∨ ∃ t ∈ [Token.plus, .minus, .star, .slash, .percent, .caret], ts[i - 1]? = some t)

@[mk_iff]
structure Qualifies (candidates ts : List Token) (i : Nat) : Prop where
  wanted : Wanted candidates ts i
  binary : ¬ IsSign ts i
  balanced : Balanced (ts.drop i)

/-- A position between an opener and the closer that belongs to it. -/
def Enclosed (ts : List Token) (i : Nat) : Prop :=
  ∃ front opener inner closer back, ts = front ++ opener :: (inner ++ closer :: back) ∧
    opener.closer? = some closer ∧ Nested inner ∧
    front.length < i ∧ i ≤ front.length + inner.length

/-- How a token changes the number of open brackets, of either kind. -/
def bracketStep : Token → Int
  | .openParen | .openBracket => 1
  | .closeParen | .closeBracket => -1
  | _ => 0

/-- How many brackets are open where a reader from the left comes to a position. -/
def depthAt (ts : List Token) (i : Nat) : Int :=
  (ts.take i).foldl (fun depth t => depth + bracketStep t) 0

section Search

theorem same_iff : Same t u ↔ (t == u) = true := by
  constructor
  · rintro (equal | other)
    · exact equal
    · cases t with
      | number x => exact absurd rfl (other x)
      | identifier name => exact beq_self_eq_true name
      | _ => rfl
  · intro equal
    cases t with
    | number x => cases u with
      | number y => exact .number equal
      | _ => cases equal
    | identifier name => cases u with
      | identifier other =>
        obtain rfl : name = other := eq_of_beq equal
        exact .other nofun
      | _ => cases equal
    | _ => cases u <;> first | exact Bool.noConfusion equal | exact .other nofun

theorem wanted_iff (at_i : ts[i]? = some t) :
    Wanted candidates ts i ↔ candidates.contains t = true := by
  simp [Wanted, at_i, same_iff, List.contains_iff_exists_mem_beq]

theorem isSign_iff (at_i : ts[i]? = some t) :
    IsSign ts i ↔ t.isSign (if i = 0 then none else ts[i - 1]?) = true := by
  have sign : (ts[i]? = some .plus ∨ ts[i]? = some .minus) ↔ t.isPlusOrMinus = true := by
    rw [at_i]
    cases t <;> simp [Token.isPlusOrMinus]
  have operator (u : Token) :
      u ∈ [Token.plus, .minus, .star, .slash, .percent, .caret] ↔ u.isOperator = true := by
    cases u <;> simp [Token.isOperator]
  rw [IsSign, sign, Token.isSign, Bool.and_eq_true]
  refine and_congr_right fun _ => ?_
  by_cases first : i = 0
  · simp [first]
  · have inside : i - 1 < ts.length := by
      have := (List.getElem?_eq_some_iff.mp at_i).1
      omega
    simp only [first, operator, List.getElem?_eq_getElem inside]
    simp

/-- The test that a search makes at each position. -/
theorem qualifies_iff_test (at_i : ts[i]? = some t) :
    Qualifies candidates ts i ↔
      ((Nesting.ofTokens (ts.drop i)).isBalanced && candidates.contains t &&
        !t.isSign (if i = 0 then none else ts[i - 1]?)) = true := by
  rw [qualifies_iff, wanted_iff at_i, isSign_iff at_i, ← isBalanced_iff_balanced, Bool.not_eq_true]
  simp only [Bool.and_eq_true, Bool.not_eq_true']
  tauto

theorem mem_topLevel_iff {index : Nat} : index + k ∈ (topLevel candidates before index ts).2 ↔
    ∃ t, ts[k]? = some t ∧
      ((Nesting.ofTokens (ts.drop k)).isBalanced && candidates.contains t &&
        !t.isSign (if k = 0 then before else ts[k - 1]?)) = true := by
  induction ts generalizing before index k with
  | nil => simp [topLevel]
  | cons t ts ih =>
      rw [topLevel_cons, List.mem_append]
      cases k with
      | zero =>
          have notBehind : index ∉ (topLevel candidates (some t) (index + 1) ts).2 := by
            intro member
            have := (mem_topLevel_bounds member).1
            omega
          rw [Nat.add_zero, or_iff_left notBehind]
          simp
      | succ k =>
          have shift : index + (k + 1) = index + 1 + k := by omega
          have notHere (b : Bool) : index + (k + 1) ∉ (if b then [index] else []) := by
            cases b <;> simp
          have front : (if k = 0 then some t else ts[k - 1]?) = (t :: ts)[k]? := by
            cases k <;> rfl
          rw [or_iff_right (notHere _), shift, ih, front]
          simp

/-- The positions that are found in a whole range. -/
def positions (candidates ts : List Token) : List Nat :=
  (topLevel candidates none 0 ts).2

theorem mem_positions : i ∈ positions candidates ts ↔ Qualifies candidates ts i := by
  rw [positions, ← Nat.zero_add i, mem_topLevel_iff, Nat.zero_add]
  constructor
  · rintro ⟨t, at_i, found⟩
    exact (qualifies_iff_test at_i).mpr found
  · intro qualifies
    obtain ⟨t, at_i, _⟩ := qualifies.wanted
    exact ⟨t, at_i, (qualifies_iff_test at_i).mp qualifies⟩

theorem pairwise_topLevel (candidates : List Token) (before : Option Token) (index : Nat)
    (ts : List Token) : (topLevel candidates before index ts).2.Pairwise (· < ·) := by
  induction ts generalizing before index with
  | nil => exact .nil
  | cons t ts ih =>
      rw [topLevel_cons]
      split
      · exact .cons (fun i member => (mem_topLevel_bounds member).1) (ih (some t) (index + 1))
      · exact ih (some t) (index + 1)

theorem getLast?_positions :
    (positions candidates ts).getLast? = some i ↔ IsGreatest {j | Qualifies candidates ts j} i := by
  have sorted : (positions candidates ts).Pairwise (· < ·) :=
    pairwise_topLevel candidates none 0 ts
  have greatest {j : Nat} (last : (positions candidates ts).getLast? = some j) :
      IsGreatest {j | Qualifies candidates ts j} j := by
    refine ⟨mem_positions.mp (List.mem_of_getLast? last), ?_⟩
    intro k qualifies
    obtain ⟨front, eq⟩ := List.getLast?_eq_some_iff.mp last
    have member := eq ▸ mem_positions.mpr qualifies
    obtain inFront | same := List.mem_append.mp member
    · exact Nat.le_of_lt ((List.pairwise_append.mp (eq ▸ sorted)).2.2 k inFront j (.head _))
    · exact Nat.le_of_eq (List.mem_singleton.mp same)
  refine ⟨greatest, fun h => ?_⟩
  cases last : (positions candidates ts).getLast? with
  | none =>
      have member := mem_positions.mpr h.1
      rw [List.getLast?_eq_none_iff.mp last] at member
      cases member
  | some j => rw [(greatest last).unique h]

theorem head?_positions :
    (positions candidates ts).head? = some i ↔ IsLeast {j | Qualifies candidates ts j} i := by
  have sorted : (positions candidates ts).Pairwise (· < ·) :=
    pairwise_topLevel candidates none 0 ts
  have least {j : Nat} (first : (positions candidates ts).head? = some j) :
      IsLeast {j | Qualifies candidates ts j} j := by
    refine ⟨mem_positions.mp (List.mem_of_head? first), ?_⟩
    intro k qualifies
    obtain ⟨rest, eq⟩ := List.head?_eq_some_iff.mp first
    have member := eq ▸ mem_positions.mpr qualifies
    obtain same | behind := List.mem_cons.mp member
    · exact Nat.le_of_eq same.symm
    · exact Nat.le_of_lt ((List.pairwise_cons.mp (eq ▸ sorted)).1 k behind)
  refine ⟨least, fun h => ?_⟩
  cases first : (positions candidates ts).head? with
  | none =>
      have member := mem_positions.mpr h.1
      rw [List.head?_eq_none_iff.mp first] at member
      cases member
  | some j => rw [(least first).unique h]

theorem positions_eq_nil_iff :
    positions candidates ts = [] ↔ ∀ j, ¬ Qualifies candidates ts j := by
  simp only [List.eq_nil_iff_forall_not_mem, mem_positions]

end Search

section Outcome

variable {failure : Failure}

theorem findTopLevel_last_of_some (last : (positions candidates ts).getLast? = some i) :
    findTopLevel ts candidates .last = .ok (some i) := by
  simp only [findTopLevel, positions] at last ⊢
  rw [last]

theorem findTopLevel_last_of_nil (nothing : positions candidates ts = []) :
    findTopLevel ts candidates .last = if Balanced ts then .ok none else .error .unbalanced := by
  simp only [findTopLevel, positions] at nothing ⊢
  simp only [nothing, List.getLast?_nil, topLevel_nesting, isBalanced_iff_balanced]

theorem findTopLevel_first :
    findTopLevel ts candidates .first =
      if Balanced ts then .ok (positions candidates ts).head? else .error .unbalanced := by
  simp only [findTopLevel, topLevel_nesting, isBalanced_iff_balanced, positions]

theorem findTopLevel_last_eq_some_iff :
    findTopLevel ts candidates .last = .ok (some i) ↔
      IsGreatest {j | Qualifies candidates ts j} i := by
  rw [← getLast?_positions]
  cases last : (positions candidates ts).getLast? with
  | some j => simp [findTopLevel_last_of_some last]
  | none =>
      rw [findTopLevel_last_of_nil (List.getLast?_eq_none_iff.mp last)]
      split <;> simp

theorem findTopLevel_last_eq_none_iff :
    findTopLevel ts candidates .last = .ok none ↔
      (∀ j, ¬ Qualifies candidates ts j) ∧ Balanced ts := by
  rw [← positions_eq_nil_iff, ← List.getLast?_eq_none_iff]
  cases last : (positions candidates ts).getLast? with
  | some j => simp [findTopLevel_last_of_some last]
  | none =>
      rw [findTopLevel_last_of_nil (List.getLast?_eq_none_iff.mp last)]
      split <;> simp [*]

theorem findTopLevel_last_eq_error_iff :
    findTopLevel ts candidates .last = .error failure ↔
      failure = .unbalanced ∧ (∀ j, ¬ Qualifies candidates ts j) ∧ ¬ Balanced ts := by
  rw [← positions_eq_nil_iff, ← List.getLast?_eq_none_iff]
  cases last : (positions candidates ts).getLast? with
  | some j => simp [findTopLevel_last_of_some last]
  | none =>
      rw [findTopLevel_last_of_nil (List.getLast?_eq_none_iff.mp last)]
      split <;> simp [*, eq_comm]

theorem findTopLevel_first_eq_some_iff :
    findTopLevel ts candidates .first = .ok (some i) ↔
      Balanced ts ∧ IsLeast {j | Qualifies candidates ts j} i := by
  rw [← head?_positions, findTopLevel_first]
  split <;> simp [*]

theorem findTopLevel_first_eq_none_iff :
    findTopLevel ts candidates .first = .ok none ↔
      Balanced ts ∧ ∀ j, ¬ Qualifies candidates ts j := by
  rw [← positions_eq_nil_iff, ← List.head?_eq_none_iff, findTopLevel_first]
  split <;> simp [*]

theorem findTopLevel_first_eq_error_iff :
    findTopLevel ts candidates .first = .error failure ↔
      failure = .unbalanced ∧ ¬ Balanced ts := by
  rw [findTopLevel_first]
  split <;> simp [*, eq_comm]

end Outcome

section Nested

theorem Enclosed.append_left (front : List Token) (h : Enclosed ts i) :
    Enclosed (front ++ ts) (front.length + i) := by
  obtain ⟨outer, opener, inner, closer, back, rfl, pair, nested, behind, within⟩ := h
  refine ⟨front ++ outer, opener, inner, closer, back, ?_, pair, nested, ?_, ?_⟩
  · rw [List.append_assoc]
  · rw [List.length_append]
    omega
  · rw [List.length_append]
    omega

theorem isBracket_of_closer? {opener closer : Token} (pair : opener.closer? = some closer) :
    opener.isBracket = true ∧ closer.isBracket = true := by
  cases opener <;> cases pair <;> exact ⟨rfl, rfl⟩

/-- From between a pair the rest is unbalanced: it closes more than it opens. -/
theorem ofTokens_drop_of_enclosed (nested : Nested ts) (enclosed : Enclosed ts i) :
    Nesting.ofTokens (ts.drop i) ≠ {} := by
  obtain ⟨front, opener, inner, closer, back, rfl, pair, within, behind, inside⟩ := enclosed
  obtain ⟨k, rfl⟩ : ∃ k, i = (front ++ [opener]).length + k := by
    refine ⟨i - (front.length + 1), ?_⟩
    rw [List.length_append, List.length_singleton]
    omega
  have short : k ≤ inner.length := by
    rw [List.length_append, List.length_singleton] at inside
    omega
  rw [List.append_cons front opener (inner ++ closer :: back), List.drop_length_add_append,
    List.drop_append_of_le_length short, Nesting.ofTokens_append, Nesting.ofTokens_cons]
  have tail := within.suffix_nonpos (List.drop_suffix k inner)
  have closing := Token.weight_closer_neg pair
  have suffix : back <:+ front ++ opener :: (inner ++ closer :: back) :=
    ⟨front ++ opener :: (inner ++ [closer]), by simp⟩
  have rest := nested.suffix_nonpos suffix
  intro balanced
  have parens := congrArg Nesting.parens balanced
  have brackets := congrArg Nesting.brackets balanced
  simp only [Nesting.add_parens, Nesting.add_brackets] at parens brackets
  omega

/-- A position that holds no bracket is between a pair, or what follows it is balanced. -/
theorem ofTokens_drop_or_enclosed (nested : Nested ts) (at_i : ts[i]? = some t)
    (plain : t.isBracket = false) : Nesting.ofTokens (ts.drop i) = {} ∨ Enclosed ts i := by
  induction nested generalizing i with
  | nil => simp at at_i
  | @plain u rest other nested ih =>
      cases i with
      | zero => exact .inl (Nested.plain other nested).ofTokens_eq
      | succ j =>
          obtain outside | enclosed := ih at_i
          · exact .inl outside
          · have wider := enclosed.append_left [u]
            rw [List.length_singleton, Nat.add_comm] at wider
            exact .inr wider
  | @pair opener closer inner rest pair within nested _ ih =>
      obtain ⟨opens, closes⟩ := isBracket_of_closer? pair
      have whole :
          opener :: (inner ++ closer :: rest) = (opener :: (inner ++ [closer])) ++ rest := by
        simp
      obtain inside | ⟨m, rfl⟩ : i < inner.length + 2 ∨ ∃ m, i = (inner.length + 2) + m := by
        by_cases h : i < inner.length + 2
        · exact .inl h
        · exact .inr ⟨i - (inner.length + 2), by omega⟩
      · have notOpener : i ≠ 0 := by
          rintro rfl
          obtain rfl : opener = t := Option.some.inj at_i
          rw [opens] at plain
          cases plain
        have notCloser : i ≠ inner.length + 1 := by
          rintro rfl
          obtain rfl : closer = t := by simpa using at_i
          rw [closes] at plain
          cases plain
        refine .inr ⟨[], opener, inner, closer, rest, rfl, pair, within, ?_, ?_⟩
        · exact Nat.pos_of_ne_zero notOpener
        · rw [List.length_nil]
          omega
      · have length : (opener :: (inner ++ [closer])).length = inner.length + 2 := by simp
        rw [whole, ← length] at at_i ⊢
        rw [List.drop_length_add_append]
        rw [List.getElem?_append_right (Nat.le_add_right _ m), Nat.add_sub_cancel_left] at at_i
        exact (ih at_i).imp id (Enclosed.append_left _)

theorem foldl_bracketStep (ts : List Token) (depth : Int) :
    ts.foldl (fun depth t => depth + bracketStep t) depth =
      depth + ((Nesting.ofTokens ts).parens + (Nesting.ofTokens ts).brackets) := by
  induction ts generalizing depth with
  | nil => simp
  | cons t ts ih =>
      rw [List.foldl_cons, ih, Nesting.ofTokens_cons, Nesting.add_parens, Nesting.add_brackets]
      cases t <;> simp [bracketStep, Nesting.weight, Nesting.track] <;> omega

/-- Nothing is open in front of a position exactly if what follows it is balanced. -/
theorem ofTokens_drop_iff_depthAt (nested : Nested ts) :
    Nesting.ofTokens (ts.drop i) = {} ↔ depthAt ts i = 0 := by
  have total := nested.ofTokens_eq
  rw [← List.take_append_drop i ts, Nesting.ofTokens_append] at total
  have parens := congrArg Nesting.parens total
  have brackets := congrArg Nesting.brackets total
  simp only [Nesting.add_parens, Nesting.add_brackets] at parens brackets
  have closing := nested.suffix_nonpos (List.drop_suffix i ts)
  rw [depthAt, foldl_bracketStep]
  constructor
  · intro balanced
    rw [balanced] at parens brackets
    simp only at parens brackets
    omega
  · intro flat
    ext <;> simp only <;> omega

theorem qualifies_iff_not_enclosed (nested : Nested ts)
    (plain : ∀ t ∈ candidates, t.isBracket = false) :
    Qualifies candidates ts i ↔ Wanted candidates ts i ∧ ¬ IsSign ts i ∧ ¬ Enclosed ts i := by
  have outside (wanted : Wanted candidates ts i) : Balanced (ts.drop i) ↔ ¬ Enclosed ts i := by
    obtain ⟨t, at_i, u, member, same⟩ := wanted
    have noBracket : t.isBracket = false := by
      obtain number | other := same
      · rfl
      · exact plain t member
    rw [← isBalanced_iff_balanced, Nesting.isBalanced_iff]
    constructor
    · exact fun balanced enclosed => ofTokens_drop_of_enclosed nested enclosed balanced
    · exact (ofTokens_drop_or_enclosed nested at_i noBracket).resolve_right
  constructor
  · rintro ⟨wanted, binary, balanced⟩
    exact ⟨wanted, binary, (outside wanted).mp balanced⟩
  · rintro ⟨wanted, binary, free⟩
    exact ⟨wanted, binary, (outside wanted).mpr free⟩

theorem qualifies_iff_depthAt (nested : Nested ts) :
    Qualifies candidates ts i ↔ Wanted candidates ts i ∧ ¬ IsSign ts i ∧ depthAt ts i = 0 := by
  rw [← ofTokens_drop_iff_depthAt nested, ← Nesting.isBalanced_iff, isBalanced_iff_balanced]
  exact ⟨fun ⟨wanted, binary, balanced⟩ => ⟨wanted, binary, balanced⟩,
    fun ⟨wanted, binary, balanced⟩ => ⟨wanted, binary, balanced⟩⟩

theorem exists_findTopLevel (nested : Nested ts) (candidates : List Token) (search : Search) :
    ∃ found, findTopLevel ts candidates search = .ok found := by
  have balanced : Balanced ts :=
    isBalanced_iff_balanced.mp (Nesting.isBalanced_iff.mpr nested.ofTokens_eq)
  cases result : findTopLevel ts candidates search with
  | ok found => exact ⟨found, rfl⟩
  | error failure =>
      cases search with
      | last => exact absurd balanced (findTopLevel_last_eq_error_iff.mp result).2.2
      | first => exact absurd balanced (findTopLevel_first_eq_error_iff.mp result).2

end Nested

/-- A search for the last position finds the greatest one that qualifies, and a list in which none
does is refused if it is unbalanced; a search for the first refuses every unbalanced list and finds
the least position otherwise. In a properly nested list neither search fails, and for tokens that
are no brackets the positions are those outside of every pair, the same that a reader from the left
comes to with nothing open. -/
theorem findTopLevel_qualifying (candidates ts : List Token) :
    (∀ i, findTopLevel ts candidates .last = .ok (some i) ↔
      IsGreatest {j | Qualifies candidates ts j} i) ∧
    (findTopLevel ts candidates .last = .ok none ↔
      (∀ j, ¬ Qualifies candidates ts j) ∧ Balanced ts) ∧
    (∀ failure, findTopLevel ts candidates .last = .error failure ↔
      failure = .unbalanced ∧ (∀ j, ¬ Qualifies candidates ts j) ∧ ¬ Balanced ts) ∧
    (∀ i, findTopLevel ts candidates .first = .ok (some i) ↔
      Balanced ts ∧ IsLeast {j | Qualifies candidates ts j} i) ∧
    (findTopLevel ts candidates .first = .ok none ↔
      Balanced ts ∧ ∀ j, ¬ Qualifies candidates ts j) ∧
    (∀ failure, findTopLevel ts candidates .first = .error failure ↔
      failure = .unbalanced ∧ ¬ Balanced ts) ∧
    (Nested ts →
      (∀ search, ∃ found, findTopLevel ts candidates search = .ok found) ∧
      ((∀ t ∈ candidates, t.isBracket = false) → ∀ i,
        (Qualifies candidates ts i ↔
          Wanted candidates ts i ∧ ¬ IsSign ts i ∧ ¬ Enclosed ts i) ∧
        (Qualifies candidates ts i ↔
          Wanted candidates ts i ∧ ¬ IsSign ts i ∧ depthAt ts i = 0))) := by
  refine ⟨fun _ => findTopLevel_last_eq_some_iff, findTopLevel_last_eq_none_iff,
    fun _ => findTopLevel_last_eq_error_iff, fun _ => findTopLevel_first_eq_some_iff,
    findTopLevel_first_eq_none_iff, fun _ => findTopLevel_first_eq_error_iff, fun nested => ?_⟩
  refine ⟨exists_findTopLevel nested candidates, fun plain i => ?_⟩
  exact ⟨qualifies_iff_not_enclosed nested plain, qualifies_iff_depthAt nested⟩

/-- In `(1 - 2) - -3` only the second `-` joins two parts: the first is between a pair, the last is
a sign. -/
theorem findTopLevel_qualifying_difference :
    let ts : List Token := [.openParen, .number 1, .minus, .number 2, .closeParen, .minus, .minus,
      .number 3]
    let candidates : List Token := [.plus, .minus]
    Nested ts ∧ (∀ t ∈ candidates, t.isBracket = false) ∧
      findTopLevel ts candidates .last = .ok (some 5) ∧
      IsGreatest {j | Qualifies candidates ts j} 5 ∧ ¬ Enclosed ts 5 ∧ depthAt ts 5 = 0 := by
  intro ts candidates
  have inner : Nested [.number 1, .minus, .number 2] := .plain rfl (.plain rfl (.singleton rfl))
  have nested : Nested ts := .pair rfl inner (.plain rfl (.plain rfl (.singleton rfl)))
  have plain : ∀ t ∈ candidates, t.isBracket = false := by decide
  have found : findTopLevel ts candidates .last = .ok (some 5) :=
    Failure.eq_ok_of_toOption (by decide +kernel)
  obtain ⟨last, _, _, _, _, _, outside⟩ := findTopLevel_qualifying candidates ts
  have greatest := (last 5).mp found
  obtain ⟨enclosed, depth⟩ := (outside nested).2 plain 5
  exact ⟨nested, plain, found, greatest, (enclosed.mp greatest.1).2.2, (depth.mp greatest.1).2.2⟩

end Reckoner.Scan
