import Reckoner.Failure
import Reckoner.Nesting

/-!
# Finding a top-level operator

An operator joins two parts of a range if it stands outside all parentheses and brackets and is
not a sign. A range is counted from its end, so a position is outside when the tokens from it to
the end are balanced. `findTopLevel` gives the first or the last such position of the wanted
tokens: splitting at the last makes an operator associate to the left, at the first to the right.
-/

namespace Reckoner

/-- Which of several top-level positions is wanted. -/
inductive Search where
  | first
  | last
  deriving DecidableEq, Repr

namespace Scan

/-- The counts of a range, and the positions in it that qualify, in order. The range starts at
`index` and follows the token `before`. -/
def topLevel (candidates : List Token) (before : Option Token) (index : Nat) :
    List Token → Nesting × List Nat
  | [] => ({}, [])
  | t :: ts =>
    let (inner, found) := topLevel candidates (some t) (index + 1) ts
    let nesting := inner.track t
    if nesting.isBalanced && candidates.contains t && !t.isSign before then
      (nesting, index :: found)
    else (nesting, found)

theorem mem_topLevel_bounds {candidates : List Token} {before : Option Token} {index i : Nat}
    {ts : List Token} (h : i ∈ (topLevel candidates before index ts).2) :
    index ≤ i ∧ i < index + ts.length := by
  induction ts generalizing before index with
  | nil => simp [topLevel] at h
  | cons t ts ih =>
      have inner : i ∈ (topLevel candidates (some t) (index + 1) ts).2 →
          index ≤ i ∧ i < index + (t :: ts).length := by
        intro hi
        have := ih hi
        simp only [List.length_cons]
        omega
      simp only [topLevel] at h
      split at h
      · rcases List.mem_cons.mp h with rfl | hi
        · simp
        · exact inner hi
      · exact inner h

end Scan

/-- The position of the wanted top-level token. The last one is found without looking at what is
before it; in every other case a range that is not balanced as a whole is refused. -/
def findTopLevel (ts candidates : List Token) : Search → Except Failure (Option Nat)
  | .last =>
    let (nesting, found) := Scan.topLevel candidates none 0 ts
    match found.getLast? with
    | some i => .ok (some i)
    | none => if nesting.isBalanced then .ok none else .error .unbalanced
  | .first =>
    let (nesting, found) := Scan.topLevel candidates none 0 ts
    if nesting.isBalanced then .ok found.head? else .error .unbalanced

theorem mem_topLevel_of_findTopLevel {ts candidates : List Token} {search : Search} {i : Nat}
    (h : findTopLevel ts candidates search = .ok (some i)) :
    i ∈ (Scan.topLevel candidates none 0 ts).2 := by
  cases search with
  | last =>
      simp only [findTopLevel] at h
      split at h
      · next j last =>
        obtain rfl : j = i := by simpa using h
        exact List.mem_of_getLast? last
      · split at h <;> simp at h
  | first =>
      simp only [findTopLevel] at h
      split at h
      · exact List.mem_of_head? (Except.ok.inj h)
      · simp at h

theorem lt_length_of_findTopLevel {ts candidates : List Token} {search : Search} {i : Nat}
    (h : findTopLevel ts candidates search = .ok (some i)) : i < ts.length := by
  simpa using (Scan.mem_topLevel_bounds (mem_topLevel_of_findTopLevel h)).2

/-- A range cut at one of its tokens. -/
structure Split where
  before : List Token
  operator : Token
  after : List Token

/-- The range cut at the wanted top-level token. -/
def splitTopLevel (ts candidates : List Token) (search : Search) :
    Except Failure (Option Split) :=
  match findTopLevel ts candidates search with
  | .error e => .error e
  | .ok none => .ok none
  | .ok (some i) => .ok (ts[i]?.map fun t => ⟨ts.take i, t, ts.drop (i + 1)⟩)

theorem eq_append_of_splitTopLevel {ts candidates : List Token} {search : Search} {s : Split}
    (h : splitTopLevel ts candidates search = .ok (some s)) :
    ts = s.before ++ s.operator :: s.after := by
  simp only [splitTopLevel] at h
  split at h
  · simp at h
  · simp at h
  · rename_i i hi
    have bound := lt_length_of_findTopLevel hi
    simp only [List.getElem?_eq_getElem bound, Option.map_some, Except.ok.injEq,
      Option.some.injEq] at h
    subst h
    simp

theorem length_before_lt {ts candidates : List Token} {search : Search} {s : Split}
    (h : splitTopLevel ts candidates search = .ok (some s)) : s.before.length < ts.length := by
  simp [eq_append_of_splitTopLevel h]

theorem length_after_lt {ts candidates : List Token} {search : Search} {s : Split}
    (h : splitTopLevel ts candidates search = .ok (some s)) : s.after.length < ts.length := by
  simp only [eq_append_of_splitTopLevel h, List.length_append, List.length_cons]
  omega

end Reckoner
