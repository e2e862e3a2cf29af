import Espalier.Document.Reader
import Espalier.Number.Binary64
import Espalier.Particle
import Espalier.Schedule
import Espalier.Task

/-!
# Values in documents

How schedules, configurations, costs, statistics and the small types around them are read from
documents. A record is an object or a list of its fields, an alternative an object with one
entry; see `Document.record?` and `Document.variant?`. A count has to be written as one, while a
number may be written in any way as long as it is not too large.
-/

namespace Espalier

namespace Document

/-- A number; one too large for double precision is refused. -/
def number? : Document → Option Binary64
  | .number n =>
    let x := Binary64.ofNumeral n
    if x.isFinite then some x else none
  | _ => none

def count? (bound : Nat) : Document → Option Nat
  | .number n => n.count?.filter (· < bound)
  | _ => none

def word? : Document → Option Nat := count? UInt64.size

/-- The items of a list, each read the same way. -/
def listOf? {α : Type} (item? : Document → Option α) : Document → Option (List α)
  | .list items => items.mapM item?
  | _ => none

/-- A span of time in nanoseconds, written as seconds and nanoseconds. Nanoseconds that fill a
second are carried over, as long as the seconds then still fit into a word. -/
def span? (d : Document) : Option Nat := do
  let [seconds, rest] ← d.record? ["secs", "nanos"] false | none
  let total := (← seconds.word?) * 1000000000 + (← rest.count? UInt32.size)
  if total < UInt64.size * 1000000000 then some total else none

end Document

def Schedule.ofDocument? (d : Document) : Option (Schedule Binary64) := do
  match ← d.variant? with
  | ("Constant", some value) => return .constant (← value.number?)
  | ("Linear", some ends) =>
    let [start, stop] ← ends.record? ["start", "end"] true | none
    return .linear (← start.number?) (← stop.number?)
  | ("Explicit", some values) => return .explicit (← values.listOf? Document.number?)
  | _ => none

def Config.ofDocument? (d : Document) : Option (Config Binary64) := do
  let [generations, sampleCount, heuristicScale, budget] ←
    d.record? ["generations", "sample_count", "heuristic_scale", "burst_budget"] true | none
  return { generations := ← generations.word?
           sampleCount := ← Schedule.ofDocument? sampleCount
           heuristicScale := ← Schedule.ofDocument? heuristicScale
           budget := ← budget.span? }

def Cost.ofDocument? (d : Document) : Option (Cost Binary64) := do
  let [real, heuristic] ← d.record? ["real", "heuristic"] true | none
  return { real := ← real.number?, heuristic := ← heuristic.number? }

/-- The work of a task together with the time it took, in all and inside bursts. -/
structure TimedStats extends TaskStats where
  elapsed : Nat
  busy : Nat
deriving DecidableEq, Repr

def TimedStats.ofDocument? (d : Document) : Option TimedStats := do
  let [elapsed, busy, bursts, steps] ←
    d.record? ["elapsed", "busy", "bursts", "steps"] true | none
  return { elapsed := ← elapsed.span?, busy := ← busy.span?, bursts := ← bursts.word?
           steps := ← steps.word? }

def Phase.ofDocument? (d : Document) : Option Phase := do
  let (name, content) ← d.variant?
  match content with
  | none | some .null =>
    match name with
    | "Skeleton" => some .skeleton
    | "PostSkeleton" => some .detail
    | _ => none
  | _ => none

end Espalier
