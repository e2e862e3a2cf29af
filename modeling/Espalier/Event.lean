import Espalier.Particle

/-!
# Events

What a search reports while it advances. `Event.kind` is what sinks filter by.
-/

namespace Espalier

/-- The kinds of events. -/
inductive EventKind where
  | runStarted
  | generationGrown
  | resampled
  | survivorSelected
  | finalized
  | runFinished
  | warning
deriving DecidableEq, Repr

/-- A report of a search. -/
inductive Event (R : Type) where
  | runStarted (start : String) (generations population : Nat)
  /-- Every particle of a generation has grown; `best` is the cost with the lowest total and
  `mean` the mean total. -/
  | generationGrown (generation population : Nat) (scale : R) (best : Cost R) (mean : R)
  /-- A population was drawn from the previous one. `parents` of its particles had a fork, and
  `effectiveSize` is the square of the sum of the weights over the sum of their squares. -/
  | resampled (generation before after parents : Nat) (effectiveSize : R) (uniform : Bool)
  /-- The particle with the lowest cost was chosen. -/
  | survivorSelected (particle : ParticleId) (cost : Cost R) (nodes : Nat)
  /-- The survivor was closed by so many productions, and its details grew so many times. -/
  | finalized (closings detailGrowths : Nat)
  | runFinished (nodes : Nat) (cost : Cost R)
  | warning (context message : String)
deriving DecidableEq

def Event.kind {R : Type} : Event R → EventKind
  | .runStarted .. => .runStarted
  | .generationGrown .. => .generationGrown
  | .resampled .. => .resampled
  | .survivorSelected .. => .survivorSelected
  | .finalized .. => .finalized
  | .runFinished .. => .runFinished
  | .warning .. => .warning

end Espalier
