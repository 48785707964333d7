import Reckoner.Proofs.Position

/-!
# Ranges with their bounds checked

A guarded computation checks each index and each range against the list that it is taken from, and
ends where one is not inside. The search for a top-level token is written here as the loop that it
is: it looks at one token after the other from the end, and at the one in front of it to tell a
sign. Its invariant is that what was found last is the least position so far that qualifies. The
loop never leaves the range and finds what `findTopLevel` does, so a range can be cut there.
-/

namespace Reckoner

/-- Why a guarded computation has no value. -/
inductive Abort where
  | failed (why : Failure)
  /-- An index or a range that is not inside of its list. -/
  | outOfRange
  /-- A call that no room is left for. -/
  | tooDeep

abbrev Guarded := Except Abort

namespace Guarded

variable {α β : Type} {xs : List α} {x : α} {i : Nat}

/-- A computation in which nothing is checked. -/
def ofResult (result : Except Failure α) : Guarded α :=
  result.mapError .failed

@[simp] theorem ofResult_ok (x : α) : ofResult (.ok x) = .ok x := rfl

@[simp] theorem ofResult_error (why : Failure) :
    ofResult (.error why : Except Failure α) = .error (.failed why) := rfl

@[simp] theorem ofResult_pure (x : α) : ofResult (pure x) = pure x := rfl

@[simp] theorem ofResult_bind (result : Except Failure α) (f : α → Except Failure β) :
    ofResult (result >>= f) = (do
      let x ← ofResult result
      ofResult (f x)) := by
  cases result <;> rfl

@[simp] theorem ok_bind (x : α) (f : α → Guarded β) : ((.ok x : Guarded α) >>= f) = f x := rfl

/-- The entry at an index. -/
def item (xs : List α) (i : Nat) : Guarded α :=
  match xs[i]? with
  | some x => .ok x
  | none => .error .outOfRange

/-- The entries from one index up to another. -/
def range (xs : List α) (start stop : Nat) : Guarded (List α) :=
  if start ≤ stop ∧ stop ≤ xs.length then .ok ((xs.take stop).drop start) else .error .outOfRange

theorem item_of_getElem? (h : xs[i]? = some x) : item xs i = .ok x := by
  rw [item, h]

theorem range_take (h : i ≤ xs.length) : range xs 0 i = .ok (xs.take i) :=
  if_pos ⟨Nat.zero_le i, h⟩

theorem range_drop (h : i ≤ xs.length) : range xs i xs.length = .ok (xs.drop i) := by
  rw [range, if_pos ⟨h, Nat.le_refl _⟩, List.take_length]

section Search

open Scan Lexical

variable {ts candidates : List Token} {t : Token} {index : Nat} {found : Option Nat}

/-- Whether the token at an index is a sign; the one in front of it is read only if there is one. -/
def isSign (ts : List Token) (i : Nat) : Guarded Bool := do
  if (← item ts i).isPlusOrMinus then
    if i = 0 then return true
    else return (← item ts (i - 1)).isOperator
  else return false

/-- Whether a token is found at its index, where `nesting` are the counts from there to the end. -/
def isFound (ts candidates : List Token) (nesting : Nesting) (t : Token) (i : Nat) :
    Guarded Bool := do
  if nesting.isBalanced && candidates.contains t then return !(← isSign ts i) else return false

/-- The search among the tokens in front of an index, where `nesting` are the counts from there to
the end, and `found` is what the search for the first position has found there. -/
def seekBefore (ts candidates : List Token) (search : Search) :
    (index : Nat) → (nesting : Nesting) → (found : Option Nat) → Guarded (Option Nat)
  | 0, nesting, found => if nesting.isBalanced then .ok found else .error (.failed .unbalanced)
  | index + 1, nesting, found => do
    let t ← item ts index
    let nesting := nesting.track t
    if ← isFound ts candidates nesting t index then
      match search with
      | .last => return some index
      | .first => seekBefore ts candidates search index nesting (some index)
    else seekBefore ts candidates search index nesting found

/-- The search in a whole range. -/
def seek (ts candidates : List Token) (search : Search) : Guarded (Option Nat) :=
  seekBefore ts candidates search ts.length {} none

/-- The range cut at the wanted top-level token. -/
def cut (ts candidates : List Token) (search : Search) : Guarded (Option Split) := do
  match ← seek ts candidates search with
  | none => return none
  | some i =>
    return some ⟨← range ts 0 i, ← item ts i, ← range ts (i + 1) ts.length⟩

theorem isSign_eq (at_i : ts[i]? = some t) :
    isSign ts i = .ok (t.isSign (if i = 0 then none else ts[i - 1]?)) := by
  have inside := (List.getElem?_eq_some_iff.mp at_i).1
  rw [isSign, item_of_getElem? at_i, ok_bind, Token.isSign]
  cases t.isPlusOrMinus with
  | false => rfl
  | true =>
      by_cases first : i = 0
      · simp [first, pure, Except.pure]
      · have before : ts[i - 1]? = some ts[i - 1] := List.getElem?_eq_getElem (by omega)
        simp [first, before, item_of_getElem? before, pure, Except.pure]

theorem isFound_eq (at_i : ts[i]? = some t) (nesting : Nesting) :
    isFound ts candidates nesting t i = .ok (nesting.isBalanced && candidates.contains t &&
      !t.isSign (if i = 0 then none else ts[i - 1]?)) := by
  rw [isFound, isSign_eq at_i, ok_bind]
  cases nesting.isBalanced && candidates.contains t <;> rfl

/-- One step of the search: it finds a position that qualifies, and no other. -/
theorem seekBefore_succ (inside : index < ts.length) (search : Search) (found : Option Nat) :
    ∃ b, (b = true ↔ Qualifies candidates ts index) ∧
      seekBefore ts candidates search (index + 1) (Nesting.ofTokens (ts.drop (index + 1))) found =
        if b then
          match search with
          | .last => .ok (some index)
          | .first =>
            seekBefore ts candidates search index (Nesting.ofTokens (ts.drop index)) (some index)
        else seekBefore ts candidates search index (Nesting.ofTokens (ts.drop index)) found := by
  have at_index : ts[index]? = some ts[index] := List.getElem?_eq_getElem inside
  have counts : (Nesting.ofTokens (ts.drop (index + 1))).track ts[index] =
      Nesting.ofTokens (ts.drop index) := by
    rw [List.drop_eq_getElem_cons inside, Nesting.ofTokens_cons, Nesting.track_eq_add,
      Nesting.add_comm]
  refine ⟨_, (qualifies_iff_test at_index).symm, ?_⟩
  rw [seekBefore, item_of_getElem? at_index, ok_bind]
  simp only [counts, isFound_eq at_index, ok_bind]
  rfl

theorem seekBefore_last (inside : index ≤ ts.length)
    (nothing : ∀ j, index ≤ j → ¬ Qualifies candidates ts j) :
    seekBefore ts candidates .last index (Nesting.ofTokens (ts.drop index)) none =
      ofResult (findTopLevel ts candidates .last) := by
  induction index with
  | zero =>
      have empty := positions_eq_nil_iff.mpr fun j => nothing j (Nat.zero_le j)
      rw [findTopLevel_last_of_nil empty, seekBefore, List.drop_zero]
      simp only [isBalanced_iff_balanced]
      split <;> rfl
  | succ index ih =>
      obtain ⟨b, test, step⟩ := @seekBefore_succ ts candidates index inside .last none
      rw [step]
      cases b with
      | true =>
          have greatest : IsGreatest {j | Qualifies candidates ts j} index := by
            refine ⟨test.mp rfl, fun j qualifies => ?_⟩
            by_contra behind
            exact nothing j (by omega) qualifies
          rw [findTopLevel_last_eq_some_iff.mpr greatest]
          rfl
      | false =>
          refine ih (by omega) fun j above => ?_
          obtain rfl | behind := Nat.eq_or_lt_of_le above
          · exact fun qualifies => nomatch test.mpr qualifies
          · exact nothing j behind

/-- What was found is the least position that qualifies among those that were looked at. -/
theorem seekBefore_first {found : Option Nat} (inside : index ≤ ts.length)
    (least : ∀ i, found = some i ↔ IsLeast {j | index ≤ j ∧ Qualifies candidates ts j} i) :
    seekBefore ts candidates .first index (Nesting.ofTokens (ts.drop index)) found =
      ofResult (findTopLevel ts candidates .first) := by
  induction index generalizing found with
  | zero =>
      have head : (positions candidates ts).head? = found := by
        ext i
        simp only [head?_positions, least, Nat.zero_le, true_and]
      rw [findTopLevel_first, seekBefore, List.drop_zero, head]
      simp only [isBalanced_iff_balanced]
      split <;> rfl
  | succ index ih =>
      obtain ⟨b, test, step⟩ := @seekBefore_succ ts candidates index inside .first found
      rw [step]
      cases b with
      | true =>
          -- what was found so far is behind, so the new position takes its place
          have here : IsLeast {j | index ≤ j ∧ Qualifies candidates ts j} index :=
            ⟨⟨Nat.le_refl _, test.mp rfl⟩, fun _ member => member.1⟩
          refine ih (by omega) fun i => ?_
          constructor
          · rintro ⟨⟩
            exact here
          · exact fun other => congrArg some (here.unique other)
      | false =>
          have same : {j | index ≤ j ∧ Qualifies candidates ts j} =
              {j | index + 1 ≤ j ∧ Qualifies candidates ts j} := by
            ext j
            refine and_congr_left fun qualifies => ?_
            refine ⟨fun above => Nat.lt_of_le_of_ne above ?_, Nat.le_of_succ_le⟩
            rintro rfl
            exact nomatch test.mpr qualifies
          refine ih (by omega) fun i => ?_
          rw [same]
          exact least i

/-- The search stays inside of its range and finds what is to be found. -/
theorem seek_eq (ts candidates : List Token) (search : Search) :
    seek ts candidates search = ofResult (findTopLevel ts candidates search) := by
  have nothing (j : Nat) (behind : ts.length ≤ j) : ¬ Qualifies candidates ts j := by
    rintro ⟨⟨t, at_j, _⟩, _, _⟩
    have := (List.getElem?_eq_some_iff.mp at_j).1
    omega
  have start : Nesting.ofTokens (ts.drop ts.length) = {} := by simp
  rw [seek, ← start]
  cases search with
  | last => exact seekBefore_last (Nat.le_refl _) nothing
  | first =>
      refine seekBefore_first (Nat.le_refl _) fun i => ⟨nofun, fun least => ?_⟩
      exact absurd least.1.2 (nothing i least.1.1)

/-- A range is cut where the model splits it, and both parts are inside of it. -/
theorem cut_eq (ts candidates : List Token) (search : Search) :
    cut ts candidates search = ofResult (splitTopLevel ts candidates search) := by
  rw [cut, seek_eq, splitTopLevel]
  cases found : findTopLevel ts candidates search with
  | error failure => rfl
  | ok position =>
      cases position with
      | none => rfl
      | some i =>
          have inside := lt_length_of_findTopLevel found
          have at_i : ts[i]? = some ts[i] := List.getElem?_eq_getElem inside
          simp only [ofResult_ok, ok_bind, range_take (Nat.le_of_lt inside), item_of_getElem? at_i,
            range_drop inside, at_i, Option.map_some]
          rfl

/-- A range is not cut for one reason only. -/
theorem eq_unbalanced_of_splitTopLevel {search : Search} {failure : Failure}
    (refused : splitTopLevel ts candidates search = .error failure) : failure = .unbalanced := by
  rw [splitTopLevel] at refused
  cases found : findTopLevel ts candidates search with
  | ok position => cases position <;> simp [found] at refused
  | error other =>
      obtain rfl : other = failure := by simpa [found] using refused
      cases search with
      | last => exact (findTopLevel_last_eq_error_iff.mp found).1
      | first => exact (findTopLevel_first_eq_error_iff.mp found).1

/-- What is done with a range that is cut first, by the outcome of the cut. -/
theorem cut_bind {search : Search} {next : Option Split → Guarded α} {result : Except Failure α}
    (refused : splitTopLevel ts candidates search = .error .unbalanced →
      result = .error .unbalanced)
    (whole : splitTopLevel ts candidates search = .ok none → next none = ofResult result)
    (parts : ∀ s, splitTopLevel ts candidates search = .ok (some s) →
      next (some s) = ofResult result) :
    (cut ts candidates search >>= next) = ofResult result := by
  rw [cut_eq]
  cases split : splitTopLevel ts candidates search with
  | error failure =>
      obtain rfl := eq_unbalanced_of_splitTopLevel split
      rw [refused split]
      rfl
  | ok position =>
      cases position with
      | none => exact whole split
      | some s => exact parts s split

end Search

end Guarded

end Reckoner
