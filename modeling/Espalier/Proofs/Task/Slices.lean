import Espalier.Proofs.Task.Lifecycle
import Espalier.Task.Counting

/-!
# Slices of time

However a clock cuts a computation into bursts, and whatever happens to the budget on the way, a
task that nobody cancels does what a plain loop does: the same calls in the same order with the
same end (`slices`). `Clocked` is a burst as a clock cuts it, which it answers after each step that
goes on, and `clocked_iff` says that rooms are all there is to clocks.

A task that is run to completion (`completion_of_loops`) takes at most as many bursts as the loop
has calls, for there is a call in each (`bursts_le_calls`).
-/

namespace Espalier

open Stepwise Journal

variable {σ R O L : Type}

def Act.isBurst : Act L → Bool
  | .burst _ => true
  | _ => false

namespace Task

/-! ## Clocks -/

section Clocks

variable [Stepwise σ R O] {t : Task σ O L} {report : BurstReport σ R O L}

/-- The steps of a burst that asks a clock, after each step that goes on, whether its time is used
up: `usedUp n` is what the clock answers the time after `n` others. -/
inductive Clocked : (usedUp : Nat → Bool) → Task σ O L → BurstReport σ R O L → Prop where
  | ended {usedUp : Nat → Bool} {t : Task σ O L}
    (result : (step t.computation).result ≠ .ok .pending) : Clocked usedUp t (takeSteps 0 t)
  | cut {usedUp : Nat → Bool} {t : Task σ O L}
    (result : (step t.computation).result = .ok .pending) (now : usedUp 0 = true) :
    Clocked usedUp t { task := t.stepped, result := .ok .pending, ran := [] }
  | left {usedUp : Nat → Bool} {t : Task σ O L} {report : BurstReport σ R O L}
    (result : (step t.computation).result = .ok .pending) (now : usedUp 0 = false)
    (rest : Clocked (fun n => usedUp (n + 1)) t.stepped report) : Clocked usedUp t report

/-- A clock leaves room for some number of steps. -/
theorem Clocked.room {usedUp : Nat → Bool} (h : Clocked usedUp t report) :
    ∃ room, takeSteps room t = report := by
  induction h with
  | ended => exact ⟨0, rfl⟩
  | cut result => exact ⟨0, takeSteps_usedUp result⟩
  | left result _ _ ih =>
    obtain ⟨room, hroom⟩ := ih
    exact ⟨room + 1, (takeSteps_left room result).trans hroom⟩

theorem clocked_room (room : Nat) (t : Task σ O L) :
    Clocked (fun n => decide (room ≤ n)) t (takeSteps room t) := by
  induction room generalizing t with
  | zero =>
    by_cases h : (step t.computation).result = .ok .pending
    · rw [takeSteps_usedUp h]
      exact .cut h rfl
    · exact .ended h
  | succ room ih =>
    by_cases h : (step t.computation).result = .ok .pending
    · rw [takeSteps_left room h]
      refine .left h rfl ?_
      simpa using ih t.stepped
    · rw [takeSteps_of_ended _ h]
      exact .ended h

/-- The bursts that a clock can cut are those that leave room for some number of steps. -/
theorem clocked_iff : (∃ usedUp, Clocked usedUp t report) ↔ ∃ room, takeSteps room t = report := by
  constructor
  · rintro ⟨usedUp, h⟩
    exact h.room
  · rintro ⟨room, rfl⟩
    exact ⟨_, clocked_room room t⟩

end Clocks

variable [Stepwise σ R O] {c : σ} {j : List (Entry R O L)} {t : Task (Logged σ) O L}

/-! ## Progress -/

/-- A task that runs has run before. -/
theorem running_of_run (acts : List (Act L)) (h : (t.run acts).state = .running) :
    t.state = .running :=
  Decidable.byContradiction fun hended => hended ((run_ended hended acts).state.symm.trans h)

theorem calls_burst (room : Nat) (h : t.state = .running) (hflag : t.cancelRequested = false) :
    ∃ new, new ≠ [] ∧ (t.runBurst room).task.computation.calls = t.computation.calls ++ new := by
  rw [runBurst_running room h hflag]
  exact calls_takeSteps room t.begun

/-- As long as a task runs, each burst has stepped the computation. -/
theorem bursts_le_calls (acts : List (Act L)) (h : (t.run acts).state = .running) :
    t.computation.calls.length + acts.countP (·.isBurst)
      ≤ (t.run acts).computation.calls.length := by
  induction acts generalizing t with
  | nil => exact Nat.le_refl _
  | cons act acts ih =>
    -- The task still runs at the end, so every burst before found it running and not cancelled.
    have hafter : (t.act act).2.state = .running := running_of_run acts h
    have hbefore : t.state = .running := running_of_run [act] hafter
    have hfirst : t.computation.calls.length + (if act.isBurst then 1 else 0)
        ≤ (t.act act).2.computation.calls.length := by
      cases act with
      | burst room =>
        show _ ≤ (t.runBurst room).task.computation.calls.length
        cases hflag : t.cancelRequested with
        | true =>
          have hended : (t.runBurst room).task.state = .cancelled := by
            rw [runBurst_cancelled room hbefore hflag]
            rfl
          exact nomatch hended.symm.trans hafter
        | false =>
          obtain ⟨new, hnew, hcalls⟩ := calls_burst room hbefore hflag
          rw [hcalls, List.length_append]
          exact Nat.add_le_add_left (List.length_pos_iff.mpr hnew) _
      | cancel | notify | takeOutput | setBudget =>
        obtain ⟨new, hnew⟩ := t.calls_act _
        rw [hnew, List.length_append]
        exact Nat.le_add_right _ _
    have hrest := ih (t := (t.act act).2) h
    show _ ≤ ((t.act act).2.run acts).computation.calls.length
    rw [List.countP_cons]
    omega

/-- The calls of a task are the first ones of a plain loop, or all of them. -/
theorem Life.calls_begin (h : t.Life c j) {calls : List σ} {ending : Except (Failure R) O}
    (hloops : Loops c calls ending) : ∃ rest, calls = t.computation.calls ++ rest ∧
      (t.state = .running → rest ≠ []) := by
  rcases h.goesOn_or_loops with hgoesOn | ⟨ending', hended⟩
  · obtain ⟨rest, hrest, hloops'⟩ := hgoesOn.rest hloops
    exact ⟨rest, hrest, fun _ => hloops'.ne_nil⟩
  · refine ⟨[], ?_, fun hstate => ?_⟩
    · rw [List.append_nil]
      exact (hloops.unique hended).1
    · obtain ⟨rest, hrest, hloops'⟩ := (h.underway hstate).goesOn.rest hended
      exact absurd (List.append_cancel_left ((List.append_nil _).trans hrest)).symm hloops'.ne_nil

theorem Life.uncancelled (h : t.Life c j) (hnot : ¬ Asked j t.computation.calls) :
    t.state ≠ .cancelled :=
  fun hstate => hnot (h.holds_at hstate).2.2.1

/-! ## Runs to completion -/

section EndOfBurst

variable {e : Entry R O L} {answer : Except (Failure R) Burst} {new : List (CallbackRun O L)}

omit [Stepwise σ R O] in
theorem OfBurst.answer_of_cut (he : OfBurst e answer new) {last : Except (Failure R) Burst}
    (h : Cut (j ++ [e]) [last]) : answer = last := by
  obtain ⟨cuts, hcuts⟩ := h
  rw [he.answers] at hcuts
  exact List.singleton_inj.mp (List.append_inj' hcuts rfl).2

omit [Stepwise σ R O] in
theorem OfBurst.answer_of_running (he : OfBurst e answer new) (h : Cut (j ++ [e]) []) :
    answer = .ok .pending := by
  obtain ⟨cuts, hcuts⟩ := h
  rw [he.answers, List.append_nil] at hcuts
  exact List.eq_of_mem_replicate (hcuts ▸ List.mem_append_right _ List.mem_cons_self)

end EndOfBurst

/-- What a run to completion returns, of a task that holds what its journal says. -/
structure Returned (c : σ) (j : List (Entry R O L)) (completion : Completion (Logged σ) R O L) :
    Prop where
  begins : ∀ {calls : List σ} {ending : Except (Failure R) O}, Loops c calls ending →
    ∃ rest, calls = completion.task.computation.calls ++ rest
  ending : ¬ Asked j completion.task.computation.calls →
    ∃ ending, Loops c completion.task.computation.calls ending ∧
      completion.result = ending.map (·, completion.task.stats)
  steps : completion.task.stats.steps = successes completion.task.computation.calls

section Completion

variable {room : Nat → Nat} {completion : Completion (Logged σ) R O L}

/-- A burst of a run to completion that does not end the task leaves it to the others, with more
calls than before. -/
theorem completion_left (limit : Nat) (h : t.Life c j) (hstate : t.state = .running)
    (hafter : (t.runBurst (room t.stats.bursts)).task.state = .running) :
    runToCompletion room (limit + 1) t
        = runToCompletion room limit (t.runBurst (room t.stats.bursts)).task ∧
      t.computation.calls.length
        < (t.runBurst (room t.stats.bursts)).task.computation.calls.length := by
  have hlife : (t.runBurst (room t.stats.bursts)).task.Life c _ := life_burst h _
  have hresult := (ofBurst_entry hstate _).answer_of_running (hlife.holds_at hafter).2.1
  refine ⟨by rw [runToCompletion]; simp only [hresult], ?_⟩
  have hcalls := bursts_le_calls [.burst (room t.stats.bursts)] hafter
  exact Nat.lt_of_succ_le hcalls

/-- The burst of a run to completion that ends the task is the last one. -/
theorem completion_last (limit : Nat) (h : t.Life c j) (hstate : t.state = .running)
    (hafter : (t.runBurst (room t.stats.bursts)).task.state ≠ .running) :
    ∃ completion, runToCompletion room (limit + 1) t = some completion ∧
      Returned c j completion := by
  have he := ofBurst_entry hstate (room t.stats.bursts)
  -- Only the report and its entry matter from here on, so what the burst did is forgotten.
  have hlife : (t.runBurst (room t.stats.bursts)).task.Life c _ := life_burst h _
  generalize t.entry (.burst (room t.stats.bursts)) = e at he hlife
  rw [runToCompletion]
  generalize t.runBurst (room t.stats.bursts) = report at he hlife hafter
  have hbegins {calls : List σ} {ending : Except (Failure R) O} (hloops : Loops c calls ending) :
      ∃ rest, calls = report.task.computation.calls ++ rest := by
    obtain ⟨rest, hrest, -⟩ := hlife.calls_begin hloops
    exact ⟨rest, hrest⟩
  cases hnow : report.task.state with
  | running => exact absurd hnow hafter
  | completed =>
    obtain ⟨output, hloops, hcut, -, houtput, -⟩ := hlife.holds_at hnow
    have htaken : taken (j ++ [e]) = false :=
      he.same.2.2.trans (nothing_late (h.alive hstate)).2
    rw [htaken] at houtput
    simp only [he.answer_of_cut hcut, takeOutput, houtput]
    exact ⟨_, rfl, hbegins, fun _ => ⟨.ok output, hloops, rfl⟩, hlife.steps⟩
  | cancelled =>
    obtain ⟨-, hcut, hasked, -⟩ := hlife.holds_at hnow
    simp only [he.answer_of_cut hcut]
    exact ⟨_, rfl, hbegins, fun hnot => absurd ((he.asked _).mp hasked) hnot, hlife.steps⟩
  | failed =>
    obtain ⟨failure, hloops, hcut, -⟩ := hlife.holds_at hnow
    simp only [he.answer_of_cut hcut]
    exact ⟨_, rfl, hbegins, fun _ => ⟨.error failure, hloops, rfl⟩, hlife.steps⟩

/-- A burst before tells nothing of what is returned. -/
theorem Returned.earlier {e : Entry R O L} {answer : Except (Failure R) Burst}
    {new : List (CallbackRun O L)} (h : Returned c (j ++ [e]) completion)
    (he : OfBurst e answer new) : Returned c j completion :=
  ⟨h.begins, fun hnot => h.ending fun hasked => hnot ((he.asked _).mp hasked), h.steps⟩

theorem returned_of_completion {limit : Nat} (h : t.Life c j) (hstate : t.state = .running)
    (hreturns : runToCompletion room limit t = some completion) : Returned c j completion := by
  induction limit generalizing t j with
  | zero => exact nomatch hreturns
  | succ limit ih =>
    by_cases hafter : (t.runBurst (room t.stats.bursts)).task.state = .running
    · have hlife : (t.runBurst (room t.stats.bursts)).task.Life c _ := life_burst h _
      rw [(completion_left limit h hstate hafter).1] at hreturns
      exact (ih hlife hafter hreturns).earlier (ofBurst_entry hstate _)
    · obtain ⟨completion', hreturns', hreturned⟩ :=
        completion_last limit h hstate hafter
      exact Option.some.inj (hreturns'.symm.trans hreturns) ▸ hreturned

/-- A run to completion of a computation that ends returns, after at most as many bursts as there
are calls left. -/
theorem completion_of_loops (room : Nat → Nat) {limit : Nat} (h : t.Life c j)
    (hstate : t.state = .running) {calls : List σ} {ending : Except (Failure R) O}
    (hloops : Loops c calls ending)
    (hlimit : calls.length ≤ t.computation.calls.length + limit) :
    ∃ completion, runToCompletion room limit t = some completion := by
  induction limit generalizing t j with
  | zero =>
    -- Without a burst left there would be no call left, but the loop is ahead of a running task.
    obtain ⟨rest, rfl, hrest⟩ := h.calls_begin hloops
    have hpos := List.length_pos_iff.mpr (hrest hstate)
    rw [List.length_append] at hlimit
    omega
  | succ limit ih =>
    by_cases hafter : (t.runBurst (room t.stats.bursts)).task.state = .running
    · have hlife : (t.runBurst (room t.stats.bursts)).task.Life c _ := life_burst h _
      obtain ⟨hrest, hcalls⟩ := completion_left limit h hstate hafter
      rw [hrest]
      exact ih hlife hafter (by omega)
    · obtain ⟨completion, hreturns, -⟩ := completion_last limit h hstate hafter
      exact ⟨completion, hreturns⟩

end Completion

/-! ## Tasks that are never cancelled -/

/-- What holds of a task that nothing asked for its cancellation, after some acts. -/
structure Sliced (c : σ) (acts : List (Act L)) (j : List (Entry R O L))
    (t : Task (Logged σ) O L) : Prop where
  /-- As long as it runs, it has made the calls of a plain loop on its way, and all its bursts
  were cut by the clock. -/
  running : t.state = .running → GoesOn c t.computation.calls t.computation.state ∧ Cut j []
  /-- As long as it runs, the loop is ahead of it, and there were fewer bursts than the loop has
  calls. -/
  ahead : t.state = .running → ∀ {calls : List σ} {ending : Except (Failure R) O},
    Loops c calls ending → (∃ rest, rest ≠ [] ∧ calls = t.computation.calls ++ rest) ∧
      acts.countP (·.isBurst) < calls.length
  /-- When it has ended, it has made the calls of the plain loop and ended as that does, and so
  said its last burst. -/
  ended : t.state ≠ .running → ∃ ending, Loops c t.computation.calls ending ∧
    Cut j [ending.map fun _ => .completed] ∧
    (t.state, t.output) = match ending with
      | .ok output => (.completed, if taken j then none else some output)
      | .error _ => (.failed, none)
  steps : t.stats.steps = successes t.computation.calls
  bursts : t.stats.bursts = (answers j).length
  /-- The next burst makes a call. -/
  progress : t.state = .running → ∀ room, ∃ new, new ≠ [] ∧
    (t.runBurst room).task.computation.calls = t.computation.calls ++ new
  /-- The next burst leaves room for some number of steps, whatever the clock answers, and a clock
  may leave room for any number. -/
  clock_iff : t.state = .running → ∀ {report : BurstReport (Logged σ) R O L},
    (∃ usedUp, Clocked usedUp t.begun report) ↔ ∃ room, t.runBurst room = report
  /-- Run to completion it returns, in time, what the plain loop ends with. -/
  completes : t.state = .running → ∀ {calls : List σ} {ending : Except (Failure R) O},
    Loops c calls ending → ¬ Asked j calls → ∀ room {limit : Nat}, calls.length ≤ limit →
    ∃ completion, runToCompletion room limit t = some completion ∧
      completion.task.computation.calls = calls ∧
      completion.result = ending.map (·, completion.task.stats) ∧
      completion.task.stats.steps = successes calls
  /-- What it returns when it is run to completion is the end of the plain loop. -/
  returns : t.state = .running → ∀ {room : Nat → Nat} {limit : Nat}
    {completion : Completion (Logged σ) R O L}, runToCompletion room limit t = some completion →
    ¬ Asked j completion.task.computation.calls →
    ∃ ending, Loops c completion.task.computation.calls ending ∧
      completion.result = ending.map (·, completion.task.stats)

theorem Life.ending (h : t.Life c j) (hstate : t.state ≠ .running)
    (hnot : ¬ Asked j t.computation.calls) : ∃ ending, Loops c t.computation.calls ending ∧
      Cut j [ending.map fun _ => .completed] ∧
      (t.state, t.output) = match ending with
        | .ok output => (.completed, if taken j then none else some output)
        | .error _ => (.failed, none) := by
  cases hnow : t.state with
  | running => exact absurd hnow hstate
  | cancelled => exact absurd hnow (h.uncancelled hnot)
  | completed =>
    obtain ⟨output, hloops, hcut, -, houtput, -⟩ := h.holds_at hnow
    exact ⟨.ok output, hloops, hcut, congrArg _ houtput⟩
  | failed =>
    obtain ⟨failure, hloops, hcut, houtput, -⟩ := h.holds_at hnow
    exact ⟨.error failure, hloops, hcut, congrArg _ houtput⟩

theorem asked_of_begin {calls rest : List σ} (h : Asked j calls) : Asked j (calls ++ rest) := by
  have hmore : Asked (j ++ []) (calls ++ rest) := asked_more h
  rwa [List.append_nil] at hmore

/-- A task that nothing asked for its cancellation does what a plain loop does, however its time
is sliced. -/
theorem slices (c : σ) (budget : Nat) (acts : List (Act L))
    (hnot : ¬ Asked ((start c budget : Task (Logged σ) O L).journal acts)
      ((start c budget : Task (Logged σ) O L).run acts).computation.calls) :
    ((start c budget).run acts).Sliced c acts
      ((start c budget : Task (Logged σ) O L).journal acts) := by
  have h := life_of_start c budget acts
  have hflag (hstate : ((start c budget : Task (Logged σ) O L).run acts).state = .running) :
      ((start c budget : Task (Logged σ) O L).run acts).cancelRequested = false :=
    Bool.eq_false_iff.mpr fun hasked => hnot ((h.underway hstate).asked.mp hasked)
  constructor
  case running => exact fun hstate => ⟨(h.underway hstate).goesOn, (h.holds_at hstate).2.1⟩
  case ahead =>
    intro hstate calls ending hloops
    obtain ⟨rest, rfl, hrest⟩ := h.calls_begin hloops
    have hbursts := bursts_le_calls acts hstate
    have hpos := List.length_pos_iff.mpr (hrest hstate)
    refine ⟨⟨rest, hrest hstate, rfl⟩, ?_⟩
    rw [List.length_append]
    omega
  case ended => exact fun hstate => h.ending hstate hnot
  case steps => exact h.steps
  case bursts => exact h.bursts (h.uncancelled hnot)
  case progress => exact fun hstate room => calls_burst room hstate (hflag hstate)
  case clock_iff =>
    intro hstate report
    have hburst (room : Nat) := runBurst_running room hstate (hflag hstate)
    simp only [hburst]
    exact clocked_iff
  case completes =>
    intro hstate calls ending hloops hasked room limit hlimit
    obtain ⟨completion, hreturns⟩ :=
      completion_of_loops room h hstate hloops (Nat.le_add_left_of_le hlimit)
    have hreturned := returned_of_completion h hstate hreturns
    obtain ⟨rest, hrest⟩ := hreturned.begins hloops
    obtain ⟨ending', hloops', hresult⟩ :=
      hreturned.ending fun hnow => hasked (hrest ▸ asked_of_begin hnow)
    obtain ⟨rfl, rfl⟩ := hloops.unique hloops'
    exact ⟨completion, hreturns, rfl, hresult, hreturned.steps⟩
  case returns =>
    exact fun hstate => fun hreturns => (returned_of_completion h hstate hreturns).ending

/-- Counting to three in two bursts, with a change of the budget between them. -/
theorem slices_counting :
    let c : Counting := { count := 0, target := 3, failAt := none, cancelAt := none }
    let acts : List (Act Nat) := [.notify 0, .burst 0, .setBudget 9, .burst 5, .takeOutput]
    ¬ Asked ((start c 1).journal acts) ((start c 1).run acts).computation.calls ∧
      ((start c 1).run acts).Sliced c acts ((start c 1).journal acts) ∧
      ((start c 1).run acts).state = .completed :=
  have hnot : ¬ Asked _ _ := by decide +kernel
  ⟨hnot, slices _ _ _ hnot, by decide +kernel⟩

end Task

end Espalier
