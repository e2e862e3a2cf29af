import Espalier.Number

/-!
# What can go wrong

A `Failure` is the cause for which building a grammar, setting up a search or advancing a
task ended early. `Failure.message` is the one place where causes are put into words.
-/

namespace Espalier

/-- A schedule that a configuration may be refused for. -/
inductive ScheduleName where
  | sampleCount
  | heuristicScale
deriving DecidableEq, Repr

def ScheduleName.text : ScheduleName → String
  | .sampleCount => "sample_count"
  | .heuristicScale => "heuristic_scale"

def ScheduleName.least : ScheduleName → Nat
  | .sampleCount => 1
  | .heuristicScale => 0

/-- Why a configuration is refused. -/
inductive ConfigFault (R : Type) where
  | noGenerations
  | emptySchedule (schedule : ScheduleName)
  | outOfRange (schedule : ScheduleName) (generation : Nat) (value : R)
  | noBudget
deriving DecidableEq

def ConfigFault.message {R : Type} [Scalar R] : ConfigFault R → String
  | .noGenerations => "generations must be > 0"
  | .emptySchedule schedule => schedule.text ++ " schedule is empty"
  | .outOfRange schedule generation value =>
    schedule.text ++ " at generation " ++ toString generation ++ " must be finite and >= "
      ++ toString schedule.least ++ " (got " ++ Scalar.text value ++ ")"
  | .noBudget => "burst_budget must be > 0"

/-- A cause for which an operation ended early. -/
inductive Failure (R : Type) where
  /-- The configuration of a search is refused. -/
  | invalidConfig (fault : ConfigFault R)
  /-- A choice of a rule was given a weight that is not a positive finite number. -/
  | invalidWeight (rule : String) (weight : R)
  | unknownRule (rule : String)
  /-- A bud has to be closed, but its rule has no closing production. -/
  | missingClosing (rule : String)
  /-- A rule is defined, but none of its choices was selected. -/
  | noChoice (rule : String)
  | cancelled
  | failedEarlier
  /-- The output of a completed task is gone. -/
  | outputTaken
  | alreadyFinished
  | emptyPopulation
  /-- A stage that needs the survivor was entered without one. -/
  | noSurvivor
  /-- One growth tried as many productions as it was allowed and appended nothing. -/
  | stalled
  | other (text : String)
deriving DecidableEq

def Failure.message {R : Type} [Scalar R] : Failure R → String
  | .invalidConfig fault => "invalid configuration: " ++ fault.message
  | .invalidWeight rule weight =>
    "invalid weight " ++ Scalar.text weight ++ " for rule '" ++ rule
      ++ "': weights must be finite and > 0"
  | .unknownRule rule => "unknown rule '" ++ rule ++ "'"
  | .missingClosing rule =>
    "rule '" ++ rule ++ "' has open spawn points but no wrap-up production"
  | .noChoice rule => "weighted sampling of rule '" ++ rule ++ "' selected no definition"
  | .cancelled => "task was cancelled"
  | .failedEarlier => "task failed in an earlier burst"
  | .outputTaken => "task output was already taken"
  | .alreadyFinished => "growth run already finished"
  | .emptyPopulation => "population is empty"
  | .noSurvivor => "no survivor selected"
  | .stalled => "growth stalled"
  | .other text => text

end Espalier
