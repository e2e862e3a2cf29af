import Espalier.Failure

/-!
# Tasks

A computation that advances step by step is driven in bursts: each burst takes at least one
step and goes on until the time it was given is used up or the computation ends. What a burst
needs to know of time is only how many further steps it leaves room for, so that number is an
argument, and every way a clock can cut a computation into bursts is a sequence of them.

A task can be cancelled from outside or by one of its own steps. The request takes effect at the
start of the next burst, and also when the last step has been taken: then the output is dropped
and no callback runs.
-/

namespace Espalier

/-- What a step that did not fail leads to. -/
inductive Step (O : Type) where
  | pending
  | done (output : O)
deriving DecidableEq

/-- What one step did. -/
structure StepReport (σ R O : Type) where
  /-- The computation after the step, also after one that failed. -/
  state : σ
  result : Except (Failure R) (Step O)
  /-- Whether the step asked for its own task to be cancelled. -/
  cancels : Bool

/-- A computation that advances step by step. -/
class Stepwise (σ : Type) (R O : outParam Type) where
  step : σ → StepReport σ R O

/-- Where a task is. -/
inductive TaskState where
  | running
  | completed
  | cancelled
  | failed
deriving DecidableEq, Repr

/-- How a burst ended. -/
inductive Burst where
  /-- Its time was used up before the computation ended. -/
  | pending
  | completed
  /-- The task was cancelled and will never complete. -/
  | cancelled
deriving DecidableEq, Repr

/-- The work a task has done. The time it took, from its first burst on and within bursts, is left
out: no step and no burst depends on it. So what callbacks and the ends of jobs are told of a task
is how many bursts and steps it had, and nothing of their duration. -/
structure TaskStats where
  bursts : Nat
  /-- Steps that did not fail. -/
  steps : Nat
deriving DecidableEq, Repr

/-- A computation driven in bursts. Callbacks are known by their labels. -/
structure Task (σ O L : Type) where
  computation : σ
  /-- The time a burst may take, in nanoseconds. -/
  budget : Nat
  /-- Whether cancellation was asked for. -/
  cancelRequested : Bool
  state : TaskState
  /-- The output of a completed task, until it is taken. -/
  output : Option O
  stats : TaskStats
  /-- The callbacks to run on completion, in order. -/
  callbacks : List L

/-- The run of a callback: its label and what it was given. -/
structure CallbackRun (O L : Type) where
  label : L
  output : O
  stats : TaskStats
deriving DecidableEq

/-- A burst's end, with the callbacks it ran. -/
structure BurstReport (σ R O L : Type) where
  task : Task σ O L
  result : Except (Failure R) Burst
  ran : List (CallbackRun O L)

namespace Task

variable {σ R O L : Type}

def ofComputation (computation : σ) (budget : Nat) : Task σ O L :=
  { computation, budget, cancelRequested := false, state := .running, output := none,
    stats := { bursts := 0, steps := 0 }, callbacks := [] }

/-- Whether the task reached a state it will not leave. -/
def isFinished (t : Task σ O L) : Bool := t.state ≠ .running

def cancel (t : Task σ O L) : Task σ O L := { t with cancelRequested := true }

def takeOutput (t : Task σ O L) : Option O × Task σ O L := (t.output, { t with output := none })

/-- Registers a callback. On a completed task it runs at once, unless the output was taken; on a
cancelled or failed one it never runs. -/
def notify (t : Task σ O L) (label : L) : Task σ O L × List (CallbackRun O L) :=
  match t.state, t.output with
  | .running, _ => ({ t with callbacks := t.callbacks ++ [label] }, [])
  | .completed, some output => (t, [⟨label, output, t.stats⟩])
  | _, _ => (t, [])

def abandon (t : Task σ O L) (state : TaskState) : Task σ O L :=
  { t with state, callbacks := [] }

def complete (t : Task σ O L) (output : O) : Task σ O L × List (CallbackRun O L) :=
  ({ t with state := .completed, output := some output, callbacks := [] },
    t.callbacks.map fun label => ⟨label, output, t.stats⟩)

/-- Takes a step and, as long as the computation goes on, up to `room` more. -/
def takeSteps [Stepwise σ R O] : (room : Nat) → Task σ O L → BurstReport σ R O L
  | room, t =>
    let report := Stepwise.step t.computation
    let t := { t with
      computation := report.state
      cancelRequested := t.cancelRequested || report.cancels }
    match report.result with
    | .error failure => { task := t.abandon .failed, result := .error failure, ran := [] }
    | .ok step =>
      let t := { t with stats := { t.stats with steps := t.stats.steps + 1 } }
      match step with
      | .done output =>
        if t.cancelRequested then
          { task := t.abandon .cancelled, result := .ok .cancelled, ran := [] }
        else
          let (t, ran) := t.complete output
          { task := t, result := .ok .completed, ran }
      | .pending =>
        match room with
        | 0 => { task := t, result := .ok .pending, ran := [] }
        | room + 1 => takeSteps room t

/-- Runs a burst that leaves room for so many steps after the first. A task that has ended stays
as it is, and one that failed says so. -/
def runBurst [Stepwise σ R O] (room : Nat) (t : Task σ O L) : BurstReport σ R O L :=
  match t.state with
  | .completed => { task := t, result := .ok .completed, ran := [] }
  | .cancelled => { task := t, result := .ok .cancelled, ran := [] }
  | .failed => { task := t, result := .error .failedEarlier, ran := [] }
  | .running =>
    if t.cancelRequested then
      { task := t.abandon .cancelled, result := .ok .cancelled, ran := [] }
    else
      takeSteps room { t with stats := { t.stats with bursts := t.stats.bursts + 1 } }

/-- How many steps after the first a budget leaves room for when each takes a nanosecond. -/
def room (budget : Nat) : Nat := budget - 1

/-- The end of a task that was driven until it ended. -/
structure Completion (σ R O L : Type) where
  task : Task σ O L
  result : Except (Failure R) (O × TaskStats)
  ran : List (CallbackRun O L)

/-- Runs bursts until the task ends, at most as many as `bursts`. The burst after `n` others
leaves room for `room n` steps after its first. -/
def runToCompletion [Stepwise σ R O] (room : Nat → Nat) :
    (bursts : Nat) → Task σ O L → Option (Completion σ R O L)
  | 0, _ => none
  | bursts + 1, t =>
    let report : BurstReport σ R O L := t.runBurst (room t.stats.bursts)
    match report.result with
    | .error failure => some { task := report.task, result := .error failure, ran := report.ran }
    | .ok .cancelled => some { task := report.task, result := .error .cancelled, ran := report.ran }
    | .ok .completed =>
      let (output, t) := report.task.takeOutput
      let result := match output with
        | none => .error .outputTaken
        | some output => .ok (output, t.stats)
      some { task := t, result, ran := report.ran }
    | .ok .pending => runToCompletion room bursts report.task

end Task

end Espalier
