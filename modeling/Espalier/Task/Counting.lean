import Espalier.Number.Binary64
import Espalier.Task

/-!
# Counting

The plainest computation that a task can drive: it counts up to a target, and its output is the
count. It can be told to fail, or to cancel its own task, at a certain count.
-/

namespace Espalier

/-- A count on its way to a target. -/
structure Counting where
  count : Nat
  target : Nat
  /-- The count at which a step fails. -/
  failAt : Option Nat
  /-- The count on reaching which a step asks for its task to be cancelled. -/
  cancelAt : Option Nat
deriving DecidableEq, Repr

namespace Counting

def step (c : Counting) : StepReport Counting Binary64 Nat :=
  if c.failAt = some c.count then
    { state := c, result := .error (.other "boom"), cancels := false }
  else
    let next := { c with count := c.count + 1 }
    { state := next
      result := .ok (if c.target ≤ next.count then .done next.count else .pending)
      cancels := decide (c.cancelAt = some next.count) }

instance : Stepwise Counting Binary64 Nat := ⟨step⟩

end Counting

end Espalier
