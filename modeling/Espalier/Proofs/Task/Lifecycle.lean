import Espalier.Proofs.Task.Life

/-!
# The lifecycle of a task

Bursts, requests for cancellation, callbacks and the taking of the output may come in any order.
Whatever the order, `Lifecycle` says what they amount to: when the computation is stepped, how a
task ends, what a cancellation prevents and which callbacks run. `lifecycle` is the statement that
every task is one, after all acts.
-/

namespace Espalier.Task

open Stepwise Journal

variable {σ R O L : Type} [Stepwise σ R O] {c : σ} {j : List (Entry R O L)}
  {t : Task (Logged σ) O L}

/-- What holds of a task after the acts of a journal, and after all acts that follow. -/
structure Lifecycle (c : σ) (j : List (Entry R O L)) (t : Task (Logged σ) O L) : Prop where
  /-- After a step that ended the computation there is no other. -/
  calls : ∀ {earlier later : List σ} {call : σ}, t.computation.calls = earlier ++ call :: later →
    later ≠ [] → (step call).result = .ok .pending
  /-- As long as the task runs no step has ended the computation. -/
  running : t.state = .running → ∀ call ∈ t.computation.calls, (step call).result = .ok .pending
  /-- A task that has ended stays as it ended, and its computation is not stepped again. -/
  ended : t.state ≠ .running → ∀ more, SameEnd t (t.run more)
  /-- The task has completed if and only if the last step was taken and nothing had asked for
  cancellation by then. -/
  completes : t.state = .completed ↔
    (∃ output, Loops c t.computation.calls (.ok output)) ∧ ¬ Asked j t.computation.calls
  /-- Cancellation that was asked for in time keeps the output from ever being available and the
  callbacks from ever running. -/
  suppressed : Asked j t.computation.calls → ∀ more, (t.run more).state ≠ .completed ∧
    (t.run more).output = none ∧ ran (j ++ t.journal more) = [] ∧
    ∀ e ∈ j ++ t.journal more, e.reply.output = none
  /-- On a completed task the callbacks registered while it was running have run, each once and in
  order, and after them the ones that came before the output was taken. -/
  callbacks : ∀ {output : O}, Loops c t.computation.calls (.ok output) → t.state = .completed →
    ran j = (registered j ++ late j).map fun label => ⟨label, output, t.stats⟩
  /-- On a task that has not completed none has run. -/
  noCallbacks : t.state ≠ .completed → ran j = []
  /-- A callback registered on a completed task runs at once, unless the output was taken. -/
  atOnce : ∀ {output : O}, Loops c t.computation.calls (.ok output) → t.state = .completed →
    ∀ label, t.notify label = (t, if taken j then [] else [⟨label, output, t.stats⟩])
  /-- The output is there from completion until it is taken. -/
  output : ∀ {output : O}, Loops c t.computation.calls (.ok output) → t.state = .completed →
    t.output = if taken j then none else some output

theorem Life.goesOn_or_loops (h : t.Life c j) :
    GoesOn c t.computation.calls t.computation.state ∨
      ∃ ending, Loops c t.computation.calls ending := by
  cases hstate : t.state with
  | running => exact Or.inl (h.underway hstate).goesOn
  | completed =>
    obtain ⟨output, hloops, -⟩ := h.holds_at hstate
    exact Or.inr ⟨.ok output, hloops⟩
  | cancelled =>
    obtain ⟨hgoesOn | ⟨output, hloops⟩, -⟩ := h.holds_at hstate
    · exact Or.inl hgoesOn
    · exact Or.inr ⟨.ok output, hloops⟩
  | failed =>
    obtain ⟨failure, hloops, -⟩ := h.holds_at hstate
    exact Or.inr ⟨.error failure, hloops⟩

theorem Life.calls_pending (h : t.Life c j) {earlier later : List σ} {call : σ}
    (hcalls : t.computation.calls = earlier ++ call :: later) (hlater : later ≠ []) :
    (step call).result = .ok .pending := by
  rcases h.goesOn_or_loops with hgoesOn | ⟨ending, hloops⟩
  · exact hgoesOn.pending call (hcalls ▸ List.mem_append_right _ List.mem_cons_self)
  · exact hloops.pending hcalls hlater

/-- A task that has taken its last step without a request for cancellation has completed. -/
theorem Life.completed (h : t.Life c j) {output : O}
    (hloops : Loops c t.computation.calls (.ok output))
    (hasked : ¬ Asked j t.computation.calls) : t.state = .completed := by
  cases hstate : t.state with
  | completed => rfl
  | running =>
    -- What is on its way has not taken its last step.
    obtain ⟨rest, hrest, hloops'⟩ := (h.underway hstate).goesOn.rest hloops
    exact absurd (List.append_cancel_left ((List.append_nil _).trans hrest)).symm hloops'.ne_nil
  | cancelled => exact absurd (h.holds_at hstate).2.2.1 hasked
  | failed =>
    obtain ⟨failure, hfailed, -⟩ := h.holds_at hstate
    exact nomatch (hloops.unique hfailed).2

theorem Life.completes_iff (h : t.Life c j) : t.state = .completed ↔
    (∃ output, Loops c t.computation.calls (.ok output)) ∧ ¬ Asked j t.computation.calls := by
  constructor
  · intro hstate
    obtain ⟨output, hloops, -, hnot, -⟩ := h.holds_at hstate
    exact ⟨⟨output, hloops⟩, hnot⟩
  · rintro ⟨⟨output, hloops⟩, hnot⟩
    exact h.completed hloops hnot

theorem Life.ran_nil (h : t.Life c j) (hstate : t.state ≠ .completed) : ran j = [] := by
  cases hnow : t.state with
  | completed => exact absurd hnow hstate
  | running => exact (h.holds_at hnow).2.2
  | cancelled => exact (h.holds_at hnow).2.2.2.2
  | failed =>
    obtain ⟨_, -, -, -, hran⟩ := h.holds_at hnow
    exact hran

/-- The output is the one the computation ended with. -/
theorem Life.holds_output (h : t.Life c j) {output : O}
    (hloops : Loops c t.computation.calls (.ok output)) (hstate : t.state = .completed) :
    t.output = (if taken j then none else some output) ∧
      ran j = (registered j ++ late j).map fun label => ⟨label, output, t.stats⟩ := by
  obtain ⟨output', hloops', -, -, houtput, hran⟩ := h.holds_at hstate
  obtain rfl := Except.ok.inj (hloops.unique hloops').2
  exact ⟨houtput, hran⟩

/-- A request that came in time stays one. -/
theorem asked_more {calls new : List σ} {more : List (Entry R O L)} (h : Asked j calls) :
    Asked (j ++ more) (calls ++ new) := by
  rcases h with ⟨e, he, hcancel⟩ | ⟨call, hcall, hcancels⟩
  · exact Or.inl ⟨e, List.mem_append_left _ he, hcancel⟩
  · exact Or.inr ⟨call, List.mem_append_left _ hcall, hcancels⟩

theorem Life.not_completed (h : t.Life c j) (hasked : Asked j t.computation.calls)
    (more : List (Act L)) : (t.run more).state ≠ .completed := by
  intro hstate
  obtain ⟨new, hnew⟩ := t.calls_run more
  have hnot := ((h.run more).completes_iff.mp hstate).2
  rw [hnew] at hnot
  exact hnot (asked_more hasked)

variable {budget : Nat} {acts : List (Act L)}

theorem life_of_start (c : σ) (budget : Nat) (acts : List (Act L)) :
    ((start c budget).run acts).Life c ((start c budget : Task (Logged σ) O L).journal acts) :=
  (life_start c budget).run acts

/-- The output of a task that has not completed was not to be had before either. -/
theorem output_none_of_entry {e : Entry R O L}
    (he : e ∈ (start c budget : Task (Logged σ) O L).journal acts)
    (hstate : ((start c budget : Task (Logged σ) O L).run acts).state ≠ .completed) :
    e.reply.output = none := by
  obtain ⟨before, act, after, rfl, rfl⟩ := mem_journal he
  -- A task that had completed by then would have stayed so.
  have hbefore : ((start c budget : Task (Logged σ) O L).run before).state ≠ .completed := by
    intro hnow
    have hend := run_ended (by rw [hnow]; exact nofun) (act :: after)
    rw [run_append, hend.state] at hstate
    exact hstate hnow
  cases act with
  | takeOutput => exact (life_of_start c budget before).output_none hbefore
  | burst | cancel | notify | setBudget => rfl

/-- Every task has the lifecycle, whatever is done to it and in whatever order. -/
theorem lifecycle (c : σ) (budget : Nat) (acts : List (Act L)) :
    ((start c budget).run acts).Lifecycle c
      ((start c budget : Task (Logged σ) O L).journal acts) := by
  have h := life_of_start c budget acts
  constructor
  case calls => exact h.calls_pending
  case running => exact fun hstate => (h.underway hstate).goesOn.pending
  case ended => exact fun hstate => run_ended hstate
  case completes => exact h.completes_iff
  case suppressed =>
    intro hasked more
    have hmore := h.run more
    have hstate := h.not_completed hasked more
    refine ⟨hstate, hmore.output_none hstate, hmore.ran_nil hstate, ?_⟩
    intro e he
    rw [← journal_append] at he
    rw [← run_append] at hstate
    exact output_none_of_entry he hstate
  case callbacks => exact fun hloops hstate => (h.holds_output hloops hstate).2
  case noCallbacks => exact h.ran_nil
  case atOnce =>
    intro output hloops hstate label
    have houtput := (h.holds_output hloops hstate).1
    unfold notify
    rw [hstate, houtput]
    cases taken ((start c budget : Task (Logged σ) O L).journal acts) <;> rfl
  case output => exact fun hloops hstate => (h.holds_output hloops hstate).1

end Espalier.Task
