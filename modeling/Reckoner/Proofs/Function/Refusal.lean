import Reckoner.Function.Builtin
import Reckoner.Proofs.Table

/-!
# How functions fail

`FailsOnly p x` says that if the computation `x` fails, its failure has the property `p`. The
builtins fail only by refusing their operands, be it their number or their values; of functions
from outside this can be assumed. Once their number is right, only the values are refused.
-/

namespace Reckoner

/-- The failure of a computation, if there is one, has a property. -/
def FailsOnly {α : Type} (p : Failure → Prop) (x : Except Failure α) : Prop :=
  ∀ failure, x = .error failure → p failure

namespace FailsOnly

variable {α β : Type} {p q : Failure → Prop} {x : Except Failure α} {f : α → Except Failure β}

theorem ok (a : α) : FailsOnly p (.ok a : Except Failure α) :=
  nofun

theorem error {failure : Failure} (h : p failure) :
    FailsOnly p (.error failure : Except Failure α) := by
  rintro _ ⟨⟩
  exact h

theorem bind (hx : FailsOnly p x) (hf : ∀ a, FailsOnly p (f a)) : FailsOnly p (x >>= f) := by
  cases x with
  | error failure => exact .error (hx failure rfl)
  | ok a => exact hf a

theorem ite {c : Prop} [Decidable c] {y : Except Failure α} (hx : FailsOnly p x)
    (hy : FailsOnly p y) : FailsOnly p (if c then x else y) := by
  split
  · exact hx
  · exact hy

theorem mono (h : FailsOnly p x) (weaker : ∀ failure, p failure → q failure) : FailsOnly q x :=
  fun failure failed => weaker failure (h failure failed)

end FailsOnly

/-- The fault is the number of the arguments, whatever they are. -/
def OperandFault.OfCount : OperandFault → Prop
  | argumentCount .. | averageOfNothing => True
  | divisionByZero | modulusByZero | factorialOfNaN | factorialOfNegative _ | custom _ => False

namespace Failure

/-- The operands of an operation are refused. -/
def IsRefusal (failure : Failure) : Prop :=
  ∃ fault, failure = .unsupportedOperand fault

theorem isRefusal (fault : OperandFault) : (unsupportedOperand fault).IsRefusal :=
  ⟨fault, rfl⟩

/-- The operands of an operation are refused for their values. -/
def IsValueRefusal (failure : Failure) : Prop :=
  ∃ fault : OperandFault, ¬ fault.OfCount ∧ failure = .unsupportedOperand fault

theorem IsValueRefusal.isRefusal {failure : Failure} (h : failure.IsValueRefusal) :
    failure.IsRefusal :=
  h.imp fun _ => And.right

end Failure

open Failure (IsRefusal IsValueRefusal isRefusal)

namespace Numeric

theorem refusesValues_factorial (x : Float) : FailsOnly IsValueRefusal (factorial x) := by
  unfold factorial
  split
  · exact .error ⟨_, id, rfl⟩
  · split
    · split
      · exact .error ⟨_, id, rfl⟩
      · exact .ite (.ok _) (.ok _)
    · exact .ok _

theorem failsOnly_factorial (x : Float) : FailsOnly IsRefusal (factorial x) :=
  (refusesValues_factorial x).mono fun _ => IsValueRefusal.isRefusal

end Numeric

namespace Builtin

theorem refusesValues_selections (n k : Float) : FailsOnly IsValueRefusal (selections n k) :=
  (Numeric.refusesValues_factorial n).bind fun _ =>
    (Numeric.refusesValues_factorial (n - k)).bind fun _ => .ok _

theorem refusesValues_choices (n k : Float) : FailsOnly IsValueRefusal (choices n k) :=
  (refusesValues_selections n k).bind fun _ =>
    (Numeric.refusesValues_factorial k).bind fun _ => .ok _

theorem failsOnly_apply (b : Builtin) (args : List Float) : FailsOnly IsRefusal (b.apply args) := by
  unfold apply
  split
  · exact .ok _
  · exact .error (isRefusal _)
  · exact .ok _
  · exact .error (isRefusal _)
  · exact .ok _
  · exact Numeric.failsOnly_factorial _
  · exact .error (isRefusal _)
  · exact (refusesValues_selections _ _).mono fun _ => IsValueRefusal.isRefusal
  · exact .error (isRefusal _)
  · exact (refusesValues_choices _ _).mono fun _ => IsValueRefusal.isRefusal
  · exact .error (isRefusal _)

end Builtin

namespace Library

/-- The bodies of all functions fail only by refusing their operands. -/
def OnlyRefuses (functions : Library) : Prop :=
  ∀ name f, functions.get? name = some f → ∀ args, FailsOnly IsRefusal (f.body args)

theorem onlyRefuses_standard : standard.OnlyRefuses := by
  intro name f registered args
  obtain ⟨b, _, entry⟩ := List.mem_map.mp (Table.mem_of_get?_ofList registered)
  obtain ⟨_, rfl⟩ := Prod.mk.inj entry
  exact b.failsOnly_apply args

end Library

end Reckoner
