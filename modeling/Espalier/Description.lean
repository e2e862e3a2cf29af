import Espalier.Number.Binary64
import Espalier.Search
import Espalier.Text.Quoted

/-!
# Descriptions

One line of text for a value, with the names of its parts, for logs and debugging. Numbers are
written so that they are seen to be no counts: whole ones end in `.0`.
-/

namespace Espalier

/-- A record with its name, its fields and their descriptions. -/
def describeRecord (name : String) (fields : List (String × String)) : String :=
  name ++ " \x7b " ++ ", ".intercalate (fields.map fun (field, text) => field ++ ": " ++ text)
    ++ " \x7d"

def describeList (items : List String) : String := "[" ++ ", ".intercalate items ++ "]"

/-- A span of nanoseconds in the largest unit that it fills, with as many decimals as it needs. -/
def describeSpan (nanoseconds : Nat) : String :=
  let (unit, digits, suffix) :=
    if 1000000000 ≤ nanoseconds then (1000000000, 9, "s")
    else if 1000000 ≤ nanoseconds then (1000000, 6, "ms")
    else if 1000 ≤ nanoseconds then (1000, 3, "µs")
    else (1, 0, "ns")
  let decimals := (Nat.toDigits 10 (nanoseconds % unit + unit)).drop 1 |>.take digits
  let decimals := (decimals.reverse.dropWhile (· == '0')).reverse
  toString (nanoseconds / unit) ++ (if decimals.isEmpty then "" else "." ++ String.ofList decimals)
    ++ suffix

def describeOption (part : Option String) : String :=
  match part with
  | none => "None"
  | some text => "Some(" ++ text ++ ")"

def Schedule.describe : Schedule Binary64 → String
  | .constant value => "Constant(" ++ value.debugText ++ ")"
  | .linear start stop =>
    describeRecord "Linear" [("start", start.debugText), ("end", stop.debugText)]
  | .explicit values => "Explicit(" ++ describeList (values.map (·.debugText)) ++ ")"

def Config.describe (c : Config Binary64) : String :=
  describeRecord "SosmcConfig"
    [("generations", toString c.generations), ("sample_count", c.sampleCount.describe),
     ("heuristic_scale", c.heuristicScale.describe), ("burst_budget", describeSpan c.budget)]

def Cost.describe (c : Cost Binary64) : String :=
  describeRecord "Cost" [("real", c.real.debugText), ("heuristic", c.heuristic.debugText)]

def describeParticleId (id : ParticleId) : String := "ParticleId(" ++ toString id ++ ")"

def Particle.describe {N : Type} (p : Particle N Binary64) : String :=
  describeRecord "Particle"
    [("id", describeParticleId p.id),
     ("parent", describeOption (p.parent.map describeParticleId)),
     ("nodes", toString p.growth.size), ("cost", p.cost.describe),
     ("log_probability", p.logProbability.debugText), ("skeleton", toString p.skeleton.size),
     ("post_skeleton", toString p.details.size)]

/-- The description of a rule with its name. Bodies have none. -/
def Rule.describe {N : Type} (rule : Rule N Binary64) (name : String) : String :=
  describeRecord "Rule"
    [("name", Text.quoted name), ("total_weight", rule.totalWeight.debugText),
     ("definitions", describeList (rule.weights.map fun weight =>
       describeRecord "Definition" [("weight", weight.debugText ++ ", ..")]))]

def Grammar.describe {N : Type} (g : Grammar N Binary64) : String :=
  describeRecord "Grammar"
    [("rules", describeList (g.ruleNames.map Text.quoted)),
     ("wrap_ups", toString g.closings.size),
     ("post_skeleton",
       "\x7b" ++ ", ".intercalate (g.details.toList.map Text.quoted) ++ "\x7d")]

def TaskState.describe : TaskState → String
  | .running => "Running"
  | .completed => "Completed"
  | .cancelled => "Cancelled"
  | .failed => "Failed"

/-- The description of a task with the time it has taken, in all and inside bursts. -/
def Task.describe {σ O L : Type} (t : Task σ O L) (elapsed busy : Nat) : String :=
  describeRecord "Task"
    [("state", t.state.describe), ("budget", describeSpan t.budget),
     ("stats", describeRecord "TaskStats"
       [("elapsed", describeSpan elapsed), ("busy", describeSpan busy),
        ("bursts", toString t.stats.bursts), ("steps", toString t.stats.steps)]),
     ("callbacks", toString t.callbacks.length)]

def Stage.describe : Stage → String
  | .populate => "Initialize"
  | .grow generation next => describeRecord "Grow"
      [("generation", toString generation), ("next", toString next)]
  | .resample generation => describeRecord "Resample" [("generation", toString generation)]
  | .selectSurvivor => "SelectSurvivor"
  | .close => "WrapUp"
  | .detail => "Detail"
  | .done => "Done"

def Search.describe {N ρ κ ω : Type} (s : Search N Binary64 ρ κ ω) : String :=
  describeRecord "SosmcRun"
    [("start_rule", Text.quoted s.start), ("config", s.config.describe),
     ("stage", s.stage.describe), ("population", toString s.population.size),
     ("wrap_ups", toString s.closings), ("detail_growths", toString s.detailGrowths)]

end Espalier
