import Espalier.Proofs.Task.Loop

/-!
# Journals of tasks

What is done to a task from outside is an `Act`: a burst is run, cancellation is asked for, a
callback is registered, the output is taken or the budget is changed. `Task.journal` lists the acts
with the state each of them found and with what it brought back. The notions that statements about
tasks need are read off a journal: which callbacks were `registered` while the task was running,
which ones `late`, whether cancellation was `Asked` for in time, what the bursts of the running
task answered (`answers`) and which callbacks have `ran`.

`takeSteps_last` takes a burst apart into steps that go on and one last step, and the four lemmas
after it say what the last step leads to.
-/

namespace Espalier

variable {σ R O L : Type}

/-- What is done to a task from outside. -/
inductive Act (L : Type) where
  /-- Runs a burst. `room` is how often the clock says that there is time left when it is asked,
  which is after each step that goes on. -/
  | burst (room : Nat)
  /-- Asks for cancellation, through whichever handle. -/
  | cancel
  | notify (label : L)
  | takeOutput
  | setBudget (budget : Nat)
deriving DecidableEq

/-- What an act brings back. -/
structure Reply (R O L : Type) where
  burst : Option (Except (Failure R) Burst)
  output : Option O
  /-- The callbacks it ran. -/
  ran : List (CallbackRun O L)

def Reply.nothing : Reply R O L := { burst := none, output := none, ran := [] }

/-- An act on a task, with the state it found and with what it brought back. -/
structure Entry (R O L : Type) where
  found : TaskState
  act : Act L
  reply : Reply R O L

/-! ## What a journal tells -/

namespace Entry

/-- The callback that was registered while the task was running. -/
def registered? (e : Entry R O L) : Option L :=
  match e.act with
  | .notify label => if e.found = .running then some label else none
  | _ => none

/-- The callback that was registered on the completed task. -/
def late? (e : Entry R O L) : Option L :=
  match e.act with
  | .notify label => if e.found = .completed then some label else none
  | _ => none

/-- Whether the output of the completed task was taken. -/
def takes (e : Entry R O L) : Bool :=
  match e.act with
  | .takeOutput => decide (e.found = .completed)
  | _ => false

/-- What a burst of the running task answered. -/
def answer? (e : Entry R O L) : Option (Except (Failure R) Burst) :=
  match e.act with
  | .burst _ => if e.found = .running then e.reply.burst else none
  | _ => none

end Entry

namespace Journal

variable {j : List (Entry R O L)} {e : Entry R O L}

/-- The callbacks registered while the task was running. -/
def registered (j : List (Entry R O L)) : List L := j.filterMap (·.registered?)

/-- Whether the output of the completed task has been taken. -/
def taken (j : List (Entry R O L)) : Bool := j.any (·.takes)

/-- The callbacks registered on the completed task before its output was taken. -/
def late : List (Entry R O L) → List L
  | [] => []
  | e :: j => if e.takes then [] else e.late?.toList ++ late j

/-- What the bursts of the running task answered. -/
def answers (j : List (Entry R O L)) : List (Except (Failure R) Burst) := j.filterMap (·.answer?)

/-- The callbacks that have run. -/
def ran (j : List (Entry R O L)) : List (CallbackRun O L) := j.flatMap (·.reply.ran)

/-- Cancellation was asked for while the task was running, from outside or by one of the steps it
called. -/
def Asked [Stepwise σ R O] (j : List (Entry R O L)) (calls : List σ) : Prop :=
  (∃ e ∈ j, e.found = .running ∧ e.act = .cancel) ∨
    ∃ call ∈ calls, (Stepwise.step call).cancels = true

instance [DecidableEq L] [Stepwise σ R O] (j : List (Entry R O L)) (calls : List σ) :
    Decidable (Asked j calls) :=
  inferInstanceAs (Decidable (_ ∨ _))

theorem registered_concat : registered (j ++ [e]) = registered j ++ e.registered?.toList := by
  unfold registered
  rw [List.filterMap_append]
  cases h : e.registered? <;> simp [h]

theorem taken_concat : taken (j ++ [e]) = (taken j || e.takes) := by
  simp [taken]

theorem late_concat :
    late (j ++ [e]) = late j ++ if taken j || e.takes then [] else e.late?.toList := by
  induction j with
  | nil => simp [late, taken]
  | cons first j ih =>
    rw [List.cons_append]
    unfold late
    cases hfirst : first.takes with
    | true => simp [taken, hfirst]
    | false =>
      rw [ih]
      simp [taken, hfirst]

theorem answers_concat : answers (j ++ [e]) = answers j ++ e.answer?.toList := by
  unfold answers
  rw [List.filterMap_append]
  cases h : e.answer? <;> simp [h]

theorem ran_concat : ran (j ++ [e]) = ran j ++ e.reply.ran := by
  simp [ran]

theorem asked_concat [Stepwise σ R O] {calls : List σ} :
    Asked (j ++ [e]) calls ↔ Asked j calls ∨ (e.found = .running ∧ e.act = .cancel) := by
  unfold Asked
  constructor
  · rintro (⟨found, hfound, hcancel⟩ | hcalls)
    · rcases List.mem_append.mp hfound with hbefore | hlast
      · exact Or.inl (Or.inl ⟨found, hbefore, hcancel⟩)
      · exact Or.inr (List.mem_singleton.mp hlast ▸ hcancel)
    · exact Or.inl (Or.inr hcalls)
  · rintro ((⟨found, hfound, hcancel⟩ | hcalls) | hcancel)
    · exact Or.inl ⟨found, List.mem_append_left _ hfound, hcancel⟩
    · exact Or.inr hcalls
    · exact Or.inl ⟨e, List.mem_append_right _ (List.mem_singleton.mpr rfl), hcancel⟩

theorem asked_call [Stepwise σ R O] {calls : List σ} {call : σ} :
    Asked j (calls ++ [call]) ↔ Asked j calls ∨ (Stepwise.step call).cancels = true := by
  unfold Asked
  constructor
  · rintro (hacts | ⟨found, hfound, hcancels⟩)
    · exact Or.inl (Or.inl hacts)
    · rcases List.mem_append.mp hfound with hbefore | hlast
      · exact Or.inl (Or.inr ⟨found, hbefore, hcancels⟩)
      · exact Or.inr (List.mem_singleton.mp hlast ▸ hcancels)
  · rintro ((hacts | ⟨found, hfound, hcancels⟩) | hcancels)
    · exact Or.inl hacts
    · exact Or.inr ⟨found, List.mem_append_left _ hfound, hcancels⟩
    · exact Or.inr ⟨call, List.mem_append_right _ (List.mem_singleton.mpr rfl), hcancels⟩

end Journal

/-! ## Acts -/

namespace Task

variable [Stepwise σ R O] {t : Task σ O L}

def act (t : Task σ O L) : Act L → Reply R O L × Task σ O L
  | .burst room =>
    let report := t.runBurst room
    ({ burst := some report.result, output := none, ran := report.ran }, report.task)
  | .cancel => (.nothing, t.cancel)
  | .notify label =>
    let (t, ran) := t.notify label
    ({ burst := none, output := none, ran }, t)
  | .takeOutput =>
    let (output, t) := t.takeOutput
    ({ burst := none, output, ran := [] }, t)
  | .setBudget budget => (.nothing, { t with budget })

/-- The task after some acts, in order. -/
def run (t : Task σ O L) (acts : List (Act L)) : Task σ O L :=
  acts.foldl (fun t act => (t.act act).2) t

/-- The entry of an act. -/
def entry (t : Task σ O L) (act : Act L) : Entry R O L :=
  { found := t.state, act, reply := (t.act act).1 }

/-- Some acts, each with the state it found and with what it brought back. -/
def journal (t : Task σ O L) : List (Act L) → List (Entry R O L)
  | [] => []
  | act :: acts => t.entry act :: (t.act act).2.journal acts

theorem run_append (t : Task σ O L) (acts more : List (Act L)) :
    t.run (acts ++ more) = (t.run acts).run more :=
  List.foldl_append

theorem journal_append (t : Task σ O L) (acts more : List (Act L)) :
    t.journal (acts ++ more) = t.journal acts ++ (t.run acts).journal more := by
  induction acts generalizing t with
  | nil => rfl
  | cons first acts ih => exact congrArg (t.entry first :: ·) (ih _)

/-- A task over a computation the calls of which are kept, at its beginning. -/
def start (c : σ) (budget : Nat) : Task (Logged σ) O L := ofComputation (.ofState c) budget

/-! ## Bursts -/

/-- The task after a step of its computation that did not fail. -/
def stepped (t : Task σ O L) : Task σ O L :=
  { t with
    computation := (Stepwise.step t.computation).state
    cancelRequested := t.cancelRequested || (Stepwise.step t.computation).cancels
    stats := { t.stats with steps := t.stats.steps + 1 } }

/-- The task after a step of its computation that failed. -/
def broken (t : Task σ O L) : Task σ O L :=
  { t with
    computation := (Stepwise.step t.computation).state
    cancelRequested := t.cancelRequested || (Stepwise.step t.computation).cancels
    state := .failed
    callbacks := [] }

theorem takeSteps_failed {failure : Failure R} (room : Nat)
    (h : (Stepwise.step t.computation).result = .error failure) :
    takeSteps room t = { task := t.broken, result := .error failure, ran := [] } := by
  cases room <;> simp [takeSteps, h, broken, abandon]

theorem takeSteps_cancelled {output : O} (room : Nat)
    (h : (Stepwise.step t.computation).result = .ok (.done output))
    (hasked : t.stepped.cancelRequested = true) :
    takeSteps room t
      = { task := t.stepped.abandon .cancelled, result := .ok .cancelled, ran := [] } := by
  unfold stepped at hasked ⊢
  dsimp only at hasked
  cases room <;> simp [takeSteps, h, hasked]

theorem takeSteps_completed {output : O} (room : Nat)
    (h : (Stepwise.step t.computation).result = .ok (.done output))
    (hasked : t.stepped.cancelRequested = false) :
    takeSteps room t = { task := (t.stepped.complete output).1, result := .ok .completed,
                         ran := (t.stepped.complete output).2 } := by
  unfold stepped at hasked ⊢
  dsimp only at hasked
  cases room <;> simp [takeSteps, h, hasked]

theorem takeSteps_usedUp (h : (Stepwise.step t.computation).result = .ok .pending) :
    takeSteps 0 t = { task := t.stepped, result := .ok .pending, ran := [] } := by
  simp [takeSteps, h, stepped]

theorem takeSteps_left (room : Nat) (h : (Stepwise.step t.computation).result = .ok .pending) :
    takeSteps (room + 1) t = takeSteps room t.stepped := by
  rw [takeSteps]
  simp only [h]
  rfl

/-- What a last step of a burst leads to does not depend on the room that was left. -/
theorem takeSteps_of_ended (room : Nat) (h : (Stepwise.step t.computation).result ≠ .ok .pending) :
    takeSteps room t = takeSteps 0 t := by
  cases hresult : (Stepwise.step t.computation).result with
  | error failure => rw [takeSteps_failed room hresult, takeSteps_failed 0 hresult]
  | ok step =>
    cases step with
    | pending => exact absurd hresult h
    | done output =>
      cases hasked : t.stepped.cancelRequested with
      | true => rw [takeSteps_cancelled room hresult hasked, takeSteps_cancelled 0 hresult hasked]
      | false => rw [takeSteps_completed room hresult hasked, takeSteps_completed 0 hresult hasked]

/-- A burst is some steps that go on, and then a last one. What the steps that go on keep holds of
the task as the last step finds it. -/
theorem takeSteps_last {P : Task σ O L → Prop}
    (keeps : ∀ t, P t → (Stepwise.step t.computation).result = .ok .pending → P t.stepped)
    (room : Nat) (ht : P t) : ∃ t', P t' ∧ takeSteps room t = takeSteps 0 t' := by
  induction room generalizing t with
  | zero => exact ⟨t, ht, rfl⟩
  | succ room ih =>
    by_cases h : (Stepwise.step t.computation).result = .ok .pending
    · rw [takeSteps_left room h]
      exact ih (keeps t ht h)
    · exact ⟨t, ht, takeSteps_of_ended (room + 1) h⟩

/-- The task as a burst finds it that is not cancelled. -/
def begun (t : Task σ O L) : Task σ O L :=
  { t with stats := { t.stats with bursts := t.stats.bursts + 1 } }

theorem runBurst_running (room : Nat) (h : t.state = .running)
    (hasked : t.cancelRequested = false) : t.runBurst room = takeSteps room t.begun := by
  unfold runBurst begun
  rw [h]
  dsimp only
  rw [if_neg (by rw [hasked]; exact Bool.false_ne_true)]

theorem runBurst_cancelled (room : Nat) (h : t.state = .running)
    (hasked : t.cancelRequested = true) :
    t.runBurst room = { task := t.abandon .cancelled, result := .ok .cancelled, ran := [] } := by
  unfold runBurst
  rw [h]
  dsimp only
  rw [if_pos hasked]

/-- A burst leaves a task that has ended as it is and runs no callback. -/
theorem runBurst_ended (room : Nat) (h : t.state ≠ .running) :
    (t.runBurst room).task = t ∧ (t.runBurst room).ran = [] := by
  unfold runBurst
  cases hstate : t.state with
  | running => exact absurd hstate h
  | completed | cancelled | failed => exact ⟨rfl, rfl⟩

/-! ## Ended tasks -/

/-- What no act changes once the task has ended. -/
structure SameEnd (t t' : Task σ O L) : Prop where
  state : t'.state = t.state
  computation : t'.computation = t.computation
  stats : t'.stats = t.stats

theorem act_ended (h : t.state ≠ .running) (act : Act L) : SameEnd t (t.act act).2 := by
  cases act with
  | burst room =>
    show SameEnd t (t.runBurst room).task
    rw [(runBurst_ended room h).1]
    exact ⟨rfl, rfl, rfl⟩
  | notify label =>
    have hnotify : (t.notify label).1 = t := by
      unfold notify
      split
      · exact absurd ‹_› h
      · rfl
      · rfl
    show SameEnd t (t.notify label).1
    rw [hnotify]
    exact ⟨rfl, rfl, rfl⟩
  | cancel | takeOutput | setBudget => exact ⟨rfl, rfl, rfl⟩

theorem run_ended (h : t.state ≠ .running) (acts : List (Act L)) : SameEnd t (t.run acts) := by
  induction acts generalizing t with
  | nil => exact ⟨rfl, rfl, rfl⟩
  | cons act acts ih =>
    have hfirst := act_ended h act
    have hrest := ih (hfirst.state ▸ h)
    exact ⟨hrest.state.trans hfirst.state, hrest.computation.trans hfirst.computation,
      hrest.stats.trans hfirst.stats⟩

/-- An entry is that of an act on the task as the acts before it left it. -/
theorem mem_journal {acts : List (Act L)} {e : Entry R O L} (he : e ∈ t.journal acts) :
    ∃ before act after, acts = before ++ act :: after ∧ e = (t.run before).entry act := by
  induction acts generalizing t with
  | nil => exact absurd he List.not_mem_nil
  | cons first acts ih =>
    rcases List.mem_cons.mp he with rfl | hrest
    · exact ⟨[], first, acts, rfl, rfl⟩
    · obtain ⟨before, act, after, rfl, rfl⟩ := ih hrest
      exact ⟨first :: before, act, after, rfl, rfl⟩

/-! ## Calls -/

/-- The last step of a burst is one, whatever it leads to. -/
theorem computation_takeSteps_zero (t : Task σ O L) :
    (takeSteps 0 t).task.computation = (Stepwise.step t.computation).state := by
  cases hresult : (Stepwise.step t.computation).result with
  | error failure =>
    rw [takeSteps_failed 0 hresult]
    rfl
  | ok step =>
    cases step with
    | pending =>
      rw [takeSteps_usedUp hresult]
      rfl
    | done output =>
      cases hasked : t.stepped.cancelRequested with
      | true =>
        rw [takeSteps_cancelled 0 hresult hasked]
        rfl
      | false =>
        rw [takeSteps_completed 0 hresult hasked]
        rfl

/-- A burst that is not cancelled steps the computation at least once. -/
theorem calls_takeSteps (room : Nat) (t : Task (Logged σ) O L) :
    ∃ new, new ≠ [] ∧
      (takeSteps room t).task.computation.calls = t.computation.calls ++ new := by
  -- The steps that go on only add to the calls, and the last one adds itself.
  have keeps (t' : Task (Logged σ) O L)
      (h : ∃ new, t'.computation.calls = t.computation.calls ++ new)
      (_ : (Stepwise.step t'.computation).result = .ok .pending) :
      ∃ new, t'.stepped.computation.calls = t.computation.calls ++ new := by
    obtain ⟨new, hnew⟩ := h
    refine ⟨new ++ [t'.computation.state], ?_⟩
    rw [← List.append_assoc, ← hnew]
    rfl
  obtain ⟨t', ⟨new, hnew⟩, hlast⟩ := takeSteps_last keeps room ⟨[], (List.append_nil _).symm⟩
  refine ⟨new ++ [t'.computation.state], by simp, ?_⟩
  rw [hlast, computation_takeSteps_zero, ← List.append_assoc, ← hnew]
  rfl

/-- What has been called stays called. -/
theorem calls_act (t : Task (Logged σ) O L) (act : Act L) :
    ∃ new, (t.act act).2.computation.calls = t.computation.calls ++ new := by
  have hsame : ∀ t' : Task (Logged σ) O L, t'.computation = t.computation →
      ∃ new, t'.computation.calls = t.computation.calls ++ new :=
    fun t' ht' => ⟨[], by rw [ht', List.append_nil]⟩
  by_cases hstate : t.state = .running
  · cases act with
    | burst room =>
      show ∃ new, (t.runBurst room).task.computation.calls = t.computation.calls ++ new
      cases hflag : t.cancelRequested with
      | true =>
        rw [runBurst_cancelled room hstate hflag]
        exact hsame _ rfl
      | false =>
        rw [runBurst_running room hstate hflag]
        obtain ⟨new, -, hnew⟩ := calls_takeSteps room t.begun
        exact ⟨new, hnew⟩
    | notify label =>
      refine hsame (t.notify label).1 ?_
      unfold notify
      split <;> rfl
    | cancel | takeOutput | setBudget => exact hsame _ rfl
  · exact hsame _ (act_ended hstate act).computation

theorem calls_run (t : Task (Logged σ) O L) (acts : List (Act L)) :
    ∃ new, (t.run acts).computation.calls = t.computation.calls ++ new := by
  induction acts generalizing t with
  | nil => exact ⟨[], (List.append_nil _).symm⟩
  | cons act acts ih =>
    obtain ⟨first, hfirst⟩ := t.calls_act act
    obtain ⟨rest, hrest⟩ := ih (t.act act).2
    exact ⟨first ++ rest, hrest.trans (by rw [hfirst, List.append_assoc])⟩

end Task

end Espalier
