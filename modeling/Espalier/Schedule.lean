import Espalier.Failure

/-!
# Schedules and the configuration of a search

A `Schedule` gives a number for each generation. Population sizes usually shrink from
generation to generation, and the scale of the heuristic cost usually falls to zero, so that
the last generations are judged on real cost alone. `Config` holds both schedules, the number
of generations and the time one burst may take; `Config.validate` says which ones a search
accepts.
-/

namespace Espalier

variable {R : Type}

/-- A number for each generation. -/
inductive Schedule (R : Type) where
  /-- The same value for every generation. -/
  | constant (value : R)
  /-- A straight line from the first generation to the last. -/
  | linear (start stop : R)
  /-- One value for each generation; the last one repeats. -/
  | explicit (values : List R)
deriving DecidableEq

namespace Schedule

/-- The value for one of so many generations. -/
def valueAt [Arithmetic R] (s : Schedule R) (generation generations : Nat) : R :=
  match s with
  | .constant value => value
  | .linear start stop =>
    if generations ≤ 1 then start else
    let way := (generation : R) / ((generations - 1 : Nat) : R)
    start + (stop - start) * (if way ≤ 1 then way else 1)
  | .explicit values => (values[generation]? <|> values.getLast?).getD 0

/-- The value for a generation rounded to a population size, which is at least one. -/
def countAt [Scalar R] (s : Schedule R) (generation generations : Nat) : Nat :=
  let value := s.valueAt generation generations
  if Scalar.isFinite value then max 1 (Scalar.roundCount value) else 1

/-- Whether a schedule has no value of its own to give. -/
def isEmpty : Schedule R → Bool
  | .explicit [] => true
  | _ => false

/-- Whether a value is allowed in a schedule of this name. -/
def allows [Scalar R] (name : ScheduleName) (value : R) : Bool :=
  Scalar.isFinite value && !decide (value < (name.least : R))

/-- Checks the generations from `generation` on, `left` of them. -/
def checkFrom [Scalar R] (s : Schedule R) (name : ScheduleName) (generations : Nat) :
    (left generation : Nat) → Except (ConfigFault R) Unit
  | 0, _ => .ok ()
  | left + 1, generation =>
    let value := s.valueAt generation generations
    if allows name value then s.checkFrom name generations left (generation + 1)
    else .error (.outOfRange name generation value)

/-- Checks that the schedule has a value for every generation and that each is allowed. -/
def check [Scalar R] (s : Schedule R) (name : ScheduleName) (generations : Nat) :
    Except (ConfigFault R) Unit :=
  if s.isEmpty then .error (.emptySchedule name)
  else s.checkFrom name generations generations 0

end Schedule

/-- The configuration of a search. -/
structure Config (R : Type) where
  generations : Nat
  sampleCount : Schedule R
  /-- How much the heuristic cost counts in each generation. -/
  heuristicScale : Schedule R
  /-- The time one burst may take, in nanoseconds. -/
  budget : Nat
deriving DecidableEq

namespace Config

/-- Ten generations of a hundred particles, real cost alone, eight milliseconds a burst. -/
def standard [Arithmetic R] : Config R :=
  { generations := 10
    sampleCount := .constant ((100 : Nat) : R)
    heuristicScale := .constant 0
    budget := 8000000 }

def sampleCountAt [Scalar R] (c : Config R) (generation : Nat) : Nat :=
  c.sampleCount.countAt generation c.generations

/-- The scale of the heuristic cost in a generation. -/
def heuristicScaleAt [Arithmetic R] (c : Config R) (generation : Nat) : R :=
  c.heuristicScale.valueAt generation c.generations

/-- Checks a configuration, in this order: generations, population sizes, scales, budget. -/
def validate [Scalar R] (c : Config R) : Except (ConfigFault R) Unit := do
  if c.generations = 0 then throw .noGenerations
  c.sampleCount.check .sampleCount c.generations
  c.heuristicScale.check .heuristicScale c.generations
  if c.budget = 0 then throw .noBudget

end Config

end Espalier
