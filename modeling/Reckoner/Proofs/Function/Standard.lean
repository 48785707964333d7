import Reckoner.Proofs.Function.Refusal

/-!
# The builtins of the standard library

No two builtins have one name, so the standard library finds each of them under its own name, and a
call with as many arguments as the builtin takes runs it. The number of arguments is fixed in two
places, by `Builtin.arity` for calls through a library and by `Builtin.apply` for a builtin that is
used without one. The two agree: the arity lets through exactly the lists that `apply` does not
refuse for their length.
-/

namespace Reckoner

/-- A computation is refused for the number of its arguments. -/
def RefusedByCount (x : Except Failure Float) : Prop :=
  ∃ fault : OperandFault, fault.OfCount ∧ x = .error (.unsupportedOperand fault)

theorem FailsOnly.not_refusedByCount {x : Except Failure Float}
    (h : FailsOnly Failure.IsValueRefusal x) : ¬ RefusedByCount x := by
  rintro ⟨fault, ofCount, failed⟩
  obtain ⟨_, ofValue, ⟨⟩⟩ := h _ failed
  exact ofValue ofCount

namespace Builtin

variable {b : Builtin} {args : List Float}

theorem mem_all (b : Builtin) : b ∈ all := by
  cases b with
  | elementary f =>
      have listed : f ∈ Elementary.all := by cases f <;> decide
      exact List.mem_append_left _ (List.mem_map_of_mem listed)
  | sum | average | factorial | permutation | combination => decide

theorem nodup_names : (all.map name).Nodup := by
  decide +kernel

/-- A builtin that takes a fixed number of arguments checks that number first. -/
theorem apply_of_checkCount {count : Nat} {failure : Failure} (arity : b.arity = .exactly count)
    (refused : checkCount count args = .error failure) : b.apply args = .error failure := by
  have wrong : args.length ≠ count ∧ failure = wrongCount count args.length := by
    unfold checkCount at refused
    split at refused
    · cases refused
    · next other =>
      cases refused
      exact ⟨other, rfl⟩
  obtain ⟨other, rfl⟩ := wrong
  cases b with
  | sum | average => cases arity
  | elementary | factorial =>
      cases arity
      match args with
      | [] | _ :: _ :: _ => rfl
      | [_] => exact absurd rfl other
  | permutation | combination =>
      cases arity
      match args with
      | [] | [_] | _ :: _ :: _ :: _ => rfl
      | [_, _] => exact absurd rfl other

theorem refusedByCount_apply (h : b.arity.admits args.length = false) :
    RefusedByCount (b.apply args) := by
  cases arity : b.arity with
  | any =>
      rw [arity] at h
      cases h
  | exactly count =>
      rw [arity] at h
      have other : args.length ≠ count := by simpa [Arity.admits] using h
      have refused : checkCount count args = .error (wrongCount count args.length) := if_neg other
      exact ⟨.argumentCount .., trivial, apply_of_checkCount arity refused⟩
  | atLeast count =>
      cases b with
      | average =>
          obtain rfl : args = [] := by simpa [Builtin.arity, Arity.admits] using h
          exact ⟨.averageOfNothing, trivial, rfl⟩
      | elementary | sum | factorial | permutation | combination => cases arity

theorem refusesValues_apply (h : b.arity.admits args.length = true) :
    FailsOnly Failure.IsValueRefusal (b.apply args) := by
  cases b with
  | sum => exact .ok _
  | average =>
      match args with
      | [] => cases h
      | _ :: _ => exact .ok _
  | elementary f =>
      match args with
      | [_] => exact .ok _
      | [] | _ :: _ :: _ => cases h
  | factorial =>
      match args with
      | [x] => exact Numeric.refusesValues_factorial x
      | [] | _ :: _ :: _ => cases h
  | permutation =>
      match args with
      | [n, k] => exact refusesValues_selections n k
      | [] | [_] | _ :: _ :: _ :: _ => cases h
  | combination =>
      match args with
      | [n, k] => exact refusesValues_choices n k
      | [] | [_] | _ :: _ :: _ :: _ => cases h

end Builtin

namespace Library

variable {b : Builtin} {args : List Float}

theorem records_standard :
    standard.Records (Builtin.all.map fun b => (b.name, b.callable)) := by
  apply Table.records_ofList
  rw [List.map_map]
  exact Builtin.nodup_names

theorem get?_standard (b : Builtin) : standard.get? b.name = some b.callable := by
  rw [records_standard.get?_iff]
  exact List.mem_map_of_mem b.mem_all

theorem call_standard (admitted : b.arity.admits args.length = true) :
    standard.call b.name args = b.apply args := by
  simp only [call, get?_standard]
  exact if_pos admitted

theorem refusedByCount_call_standard (h : b.arity.admits args.length = false) :
    RefusedByCount (standard.call b.name args) := by
  simp only [call, get?_standard]
  exact ⟨.argumentCount .., trivial, if_neg (ne_true_of_eq_false h)⟩

end Library

/-- A call through the standard library and the builtin by itself agree about the number of
arguments, for every builtin and every list of arguments. The library holds the builtins and nothing
else, each under a name of its own. -/
theorem standard_arities_agree (b : Builtin) (args : List Float) :
    (if b.arity.admits args.length = true then
      Library.standard.call b.name args = b.apply args ∧ ¬ RefusedByCount (b.apply args)
    else
      RefusedByCount (Library.standard.call b.name args) ∧ RefusedByCount (b.apply args)) ∧
    (Builtin.all.map Builtin.name).Nodup ∧
    ∀ name f, Library.standard.get? name = some f ↔
      ∃ b : Builtin, b.name = name ∧ b.callable = f := by
  refine ⟨?_, Builtin.nodup_names, fun name f => ?_⟩
  · split
    · next admitted =>
      exact ⟨Library.call_standard admitted,
        (Builtin.refusesValues_apply admitted).not_refusedByCount⟩
    · next refused =>
      have refused := eq_false_of_ne_true refused
      exact ⟨Library.refusedByCount_call_standard refused, Builtin.refusedByCount_apply refused⟩
  · rw [Library.records_standard.get?_iff, List.mem_map]
    constructor
    · rintro ⟨b, _, entry⟩
      exact ⟨b, Prod.mk.inj entry⟩
    · rintro ⟨b, rfl, rfl⟩
      exact ⟨b, b.mem_all, rfl⟩

end Reckoner
