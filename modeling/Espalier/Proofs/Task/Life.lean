import Espalier.Proofs.Task.Journal

/-!
# The life of a task

> `Life`: what a task holds after the acts of its journal. As long as it runs, its calls are those
> of a plain loop on its way; when it has ended, they are those of a whole loop or were cut short
> by a cancellation.

Within a burst `Underway` is kept by every step that goes on, and `life_takeSteps` says what the
last step of a burst makes of it. There is one lemma for each act, `life_act` puts them together,
and `Life.run` is the run.
-/

namespace Espalier

open Stepwise Journal

variable {σ R O L : Type} [Stepwise σ R O] {c : σ} {j : List (Entry R O L)}

/-- How many calls did not fail. -/
def successes (calls : List σ) : Nat := calls.countP fun call => (step call).result.isOk

namespace Task

/-- A running task, as any step of a burst finds it. -/
structure Underway (c : σ) (j : List (Entry R O L)) (t : Task (Logged σ) O L) : Prop where
  state : t.state = .running
  goesOn : GoesOn c t.computation.calls t.computation.state
  steps : t.stats.steps = successes t.computation.calls
  output : t.output = none
  callbacks : t.callbacks = registered j
  asked : t.cancelRequested = true ↔ Asked j t.computation.calls

/-- The bursts of the running task were cut by the clock, but for what the last ones answered. -/
def Cut (j : List (Entry R O L)) (last : List (Except (Failure R) Burst)) : Prop :=
  ∃ cuts, answers j = List.replicate cuts (.ok .pending) ++ last

/-- What a task holds in each state after the acts of a journal. -/
def Holds (c : σ) (j : List (Entry R O L)) (t : Task (Logged σ) O L) : TaskState → Prop
  | .running => t.Underway c j ∧ Cut j [] ∧ ran j = []
  | .completed =>
    ∃ output, Loops c t.computation.calls (.ok output) ∧ Cut j [.ok .completed] ∧
      ¬ Asked j t.computation.calls ∧ t.output = (if taken j then none else some output) ∧
      ran j = (registered j ++ late j).map fun label => ⟨label, output, t.stats⟩
  | .cancelled =>
    (GoesOn c t.computation.calls t.computation.state ∨
        ∃ output, Loops c t.computation.calls (.ok output)) ∧
      Cut j [.ok .cancelled] ∧ Asked j t.computation.calls ∧ t.output = none ∧ ran j = []
  | .failed =>
    ∃ failure, Loops c t.computation.calls (.error failure) ∧ Cut j [.error failure] ∧
      t.output = none ∧ ran j = []

/-- A task after the acts of a journal. -/
structure Life (c : σ) (j : List (Entry R O L)) (t : Task (Logged σ) O L) : Prop where
  /-- A burst that finds cancellation asked for does not count. -/
  bursts : t.state ≠ .cancelled → t.stats.bursts = (answers j).length
  steps : t.stats.steps = successes t.computation.calls
  asked : Asked j t.computation.calls → t.cancelRequested = true
  alive : t.state = .running → ∀ e ∈ j, e.found = .running
  holds : t.Holds c j t.state

variable {t : Task (Logged σ) O L}

theorem Life.holds_at (h : t.Life c j) {state : TaskState} (hstate : t.state = state) :
    t.Holds c j state :=
  hstate ▸ h.holds

theorem Life.underway (h : t.Life c j) (hstate : t.state = .running) : t.Underway c j :=
  (h.holds_at hstate).1

omit [Stepwise σ R O] in
/-- As long as a task runs nothing comes late and nothing is taken. -/
theorem nothing_late (halive : ∀ e ∈ j, e.found = .running) : late j = [] ∧ taken j = false := by
  induction j with
  | nil => exact ⟨rfl, rfl⟩
  | cons e j ih =>
    have hfound := halive e List.mem_cons_self
    obtain ⟨hlate, htaken⟩ := ih fun other hother => halive other (List.mem_cons_of_mem _ hother)
    have htakes : e.takes = false := by
      unfold Entry.takes
      split <;> simp [hfound]
    have hlate? : e.late? = none := by
      unfold Entry.late?
      split <;> simp [hfound]
    constructor
    · simp [late, htakes, hlate?, hlate]
    · simpa [taken, htakes] using htaken

theorem life_start (c : σ) (budget : Nat) : (start c budget : Task (Logged σ) O L).Life c [] := by
  have hasked : ¬ Asked ([] : List (Entry R O L)) ([] : List σ) := by
    rintro (⟨e, he, -⟩ | ⟨call, hcall, -⟩)
    · exact absurd he List.not_mem_nil
    · exact absurd hcall List.not_mem_nil
  constructor
  case bursts => exact fun _ => rfl
  case steps => rfl
  case asked => exact fun h => absurd h hasked
  case alive => exact fun _ e he => absurd he List.not_mem_nil
  case holds =>
    refine ⟨⟨rfl, .start, rfl, rfl, rfl, ?_⟩, ⟨0, rfl⟩, rfl⟩
    exact ⟨fun h => absurd h Bool.false_ne_true, fun h => absurd h hasked⟩

/-! ## Within a burst -/

theorem successes_concat (calls : List σ) (call : σ) : successes (calls ++ [call])
    = successes calls + if (step call).result.isOk then 1 else 0 := by
  unfold successes
  rw [List.countP_append, List.countP_singleton]

/-- A step adds its request to the ones before. -/
theorem Underway.asked_stepped (h : t.Underway c j) :
    t.stepped.cancelRequested = true ↔ Asked j t.stepped.computation.calls := by
  show (t.cancelRequested || (step t.computation.state).cancels) = true
    ↔ Asked j (t.computation.calls ++ [t.computation.state])
  rw [Bool.or_eq_true, h.asked, asked_call]

/-- A running task amid a burst, which the journal does not have yet. -/
structure Amid (c : σ) (j : List (Entry R O L)) (t : Task (Logged σ) O L) : Prop
    extends Underway c j t where
  bursts : t.stats.bursts = (answers j).length + 1
  alive : ∀ e ∈ j, e.found = .running
  cut : Cut j []
  quiet : ran j = []

theorem steps_stepped (h : t.Underway c j) {step' : Step O}
    (hresult : (step t.computation.state).result = .ok step') :
    t.stepped.stats.steps = successes t.stepped.computation.calls := by
  show t.stats.steps + 1 = successes (t.computation.calls ++ [t.computation.state])
  rw [successes_concat, hresult, h.steps]
  rfl

/-- A step that goes on leaves the task amid the burst. -/
theorem amid_stepped (h : t.Amid c j)
    (hresult : (step t.computation.state).result = .ok .pending) : t.stepped.Amid c j := by
  constructor
  case toUnderway =>
    constructor
    case state => exact h.state
    case goesOn => exact .next h.goesOn hresult
    case steps => exact steps_stepped h.toUnderway hresult
    case output => exact h.output
    case callbacks => exact h.callbacks
    case asked => exact h.asked_stepped
  case bursts => exact h.bursts
  case alive => exact h.alive
  case cut => exact h.cut
  case quiet => exact h.quiet

/-- The entry of a burst of the running task, with what it answered and the callbacks it ran. -/
structure OfBurst (e : Entry R O L) (answer : Except (Failure R) Burst)
    (new : List (CallbackRun O L)) : Prop where
  found : e.found = .running
  burst : ∃ room, e.act = .burst room
  answer : e.reply.burst = some answer
  ran : e.reply.ran = new

theorem ofBurst_entry (hstate : t.state = .running) (room : Nat) :
    OfBurst (t.entry (.burst room)) (t.runBurst room).result (t.runBurst room).ran :=
  ⟨hstate, ⟨room, rfl⟩, rfl, rfl⟩

section EndOfBurst

variable {e : Entry R O L} {answer : Except (Failure R) Burst} {new : List (CallbackRun O L)}

omit [Stepwise σ R O] in
/-- A burst registers nothing and takes nothing. -/
theorem OfBurst.same (he : OfBurst e answer new) : registered (j ++ [e]) = registered j ∧
    late (j ++ [e]) = late j ∧ taken (j ++ [e]) = taken j := by
  obtain ⟨room, hact⟩ := he.burst
  refine ⟨?_, ?_, ?_⟩
  · simp [registered_concat, Entry.registered?, hact]
  · simp [late_concat, Entry.late?, hact]
  · simp [taken_concat, Entry.takes, hact]

theorem OfBurst.asked (he : OfBurst e answer new) (calls : List σ) :
    Asked (j ++ [e]) calls ↔ Asked j calls := by
  obtain ⟨room, hact⟩ := he.burst
  simp [asked_concat, hact]

omit [Stepwise σ R O] in
theorem OfBurst.answers (he : OfBurst e answer new) :
    answers (j ++ [e]) = answers j ++ [answer] := by
  obtain ⟨room, hact⟩ := he.burst
  simp [answers_concat, Entry.answer?, hact, he.found, he.answer]

theorem Amid.bursts_concat (h : t.Amid c j) (he : OfBurst e answer new) :
    t.stats.bursts = (Journal.answers (j ++ [e])).length := by
  rw [he.answers, List.length_append, List.length_singleton, h.bursts]

theorem Amid.cut_concat (h : t.Amid c j) (he : OfBurst e answer new) :
    Cut (j ++ [e]) [answer] := by
  obtain ⟨cuts, hcuts⟩ := h.cut
  exact ⟨cuts, by rw [he.answers, hcuts, List.append_nil]⟩

theorem Amid.ran_concat (h : t.Amid c j) (he : OfBurst e answer new) : ran (j ++ [e]) = new := by
  rw [Journal.ran_concat, h.quiet, he.ran, List.nil_append]

theorem life_failed (h : t.Amid c j) {failure : Failure R} (he : OfBurst e (.error failure) [])
    (hresult : (step t.computation.state).result = .error failure) :
    t.broken.Life c (j ++ [e]) := by
  have hloops : Loops c t.broken.computation.calls (.error failure) :=
    h.goesOn.loops (.last hresult)
  constructor
  case bursts => exact fun _ => h.bursts_concat he
  case steps =>
    show t.stats.steps = successes (t.computation.calls ++ [t.computation.state])
    rw [successes_concat, hresult, h.steps]
    rfl
  case asked => exact fun hasked => h.asked_stepped.mpr ((he.asked _).mp hasked)
  case alive => exact nofun
  case holds => exact ⟨failure, hloops, h.cut_concat he, h.output, h.ran_concat he⟩

theorem life_usedUp (h : t.Amid c j) (he : OfBurst e (.ok .pending) [])
    (hresult : (step t.computation.state).result = .ok .pending) :
    t.stepped.Life c (j ++ [e]) := by
  have hnext := amid_stepped h hresult
  have hunderway : t.stepped.Underway c (j ++ [e]) := by
    obtain ⟨hstate, hgoesOn, hsteps, houtput, hcallbacks, hasked⟩ := hnext.toUnderway
    exact ⟨hstate, hgoesOn, hsteps, houtput, hcallbacks.trans he.same.1.symm,
      hasked.trans (he.asked _).symm⟩
  constructor
  case bursts => exact fun _ => h.bursts_concat he
  case steps => exact hunderway.steps
  case asked => exact hunderway.asked.mpr
  case alive =>
    intro _ other hother
    rcases List.mem_append.mp hother with hbefore | hlast
    · exact h.alive other hbefore
    · exact List.mem_singleton.mp hlast ▸ he.found
  case holds =>
    rw [hunderway.state]
    obtain ⟨cuts, hcuts⟩ := h.cut_concat he
    refine ⟨hunderway, ⟨cuts + 1, ?_⟩, h.ran_concat he⟩
    rw [hcuts, List.append_nil, List.replicate_succ']

/-- Cancellation that was asked for by the last step or before suppresses the completion. -/
theorem life_suppressed (h : t.Amid c j) (he : OfBurst e (.ok .cancelled) []) {output : O}
    (hresult : (step t.computation.state).result = .ok (.done output))
    (hflag : t.stepped.cancelRequested = true) :
    (t.stepped.abandon .cancelled).Life c (j ++ [e]) := by
  have hloops : Loops c t.stepped.computation.calls (.ok output) :=
    h.goesOn.loops (.last hresult)
  have hasked := (he.asked _).mpr (h.asked_stepped.mp hflag)
  constructor
  case bursts => exact fun _ => h.bursts_concat he
  case steps => exact steps_stepped h.toUnderway hresult
  case asked => exact fun _ => hflag
  case alive => exact nofun
  case holds =>
    exact ⟨Or.inr ⟨output, hloops⟩, h.cut_concat he, hasked, h.output, h.ran_concat he⟩

theorem life_completed (h : t.Amid c j) {output : O}
    (he : OfBurst e (.ok .completed) (t.stepped.complete output).2)
    (hresult : (step t.computation.state).result = .ok (.done output))
    (hflag : t.stepped.cancelRequested = false) :
    (t.stepped.complete output).1.Life c (j ++ [e]) := by
  have hloops : Loops c t.stepped.computation.calls (.ok output) :=
    h.goesOn.loops (.last hresult)
  have hnot : ¬ Asked (j ++ [e]) t.stepped.computation.calls := by
    rw [he.asked, ← h.asked_stepped, hflag]
    exact Bool.false_ne_true
  -- The callbacks that run are those the journal has registered: none of them came late.
  obtain ⟨hlate, htaken⟩ := nothing_late h.alive
  obtain ⟨hregistered, hlate', htaken'⟩ := he.same (j := j)
  constructor
  case bursts => exact fun _ => h.bursts_concat he
  case steps => exact steps_stepped h.toUnderway hresult
  case asked => exact fun hasked => absurd hasked hnot
  case alive => exact nofun
  case holds =>
    refine ⟨output, hloops, h.cut_concat he, hnot, ?_, ?_⟩
    · rw [htaken', htaken]
      rfl
    · rw [h.ran_concat he, hregistered, hlate', hlate, List.append_nil, ← h.callbacks]
      rfl

/-- What the last step of a burst makes of the task. -/
theorem life_takeSteps (h : t.Amid c j)
    (he : OfBurst e (takeSteps 0 t).result (takeSteps 0 t).ran) :
    (takeSteps 0 t).task.Life c (j ++ [e]) := by
  cases hresult : (step t.computation.state).result with
  | error failure =>
    rw [takeSteps_failed 0 hresult] at he ⊢
    exact life_failed h he hresult
  | ok step' =>
    cases step' with
    | pending =>
      rw [takeSteps_usedUp hresult] at he ⊢
      exact life_usedUp h he hresult
    | done output =>
      cases hflag : t.stepped.cancelRequested with
      | true =>
        rw [takeSteps_cancelled 0 hresult hflag] at he ⊢
        exact life_suppressed h he hresult hflag
      | false =>
        rw [takeSteps_completed 0 hresult hflag] at he ⊢
        exact life_completed h he hresult hflag

end EndOfBurst

/-! ## Acts -/

/-- A burst that finds cancellation asked for ends the task without a step. -/
theorem life_abandoned (h : t.Life c j) (hstate : t.state = .running)
    (hflag : t.cancelRequested = true) {e : Entry R O L} (he : OfBurst e (.ok .cancelled) []) :
    (t.abandon .cancelled).Life c (j ++ [e]) := by
  have hunderway := h.underway hstate
  obtain ⟨-, ⟨cuts, hcuts⟩, hran⟩ := h.holds_at hstate
  have hasked := (he.asked _).mpr (hunderway.asked.mp hflag)
  constructor
  case bursts => exact fun hne => absurd rfl hne
  case steps => exact h.steps
  case asked => exact fun _ => hflag
  case alive => exact nofun
  case holds =>
    refine ⟨Or.inl hunderway.goesOn, ⟨cuts, ?_⟩, hasked, hunderway.output, ?_⟩
    · rw [he.answers, hcuts, List.append_nil]
    · rw [ran_concat, hran, he.ran, List.append_nil]

/-- A burst of the running task brings it to its end or cuts it. -/
theorem life_burst_running (h : t.Life c j) (hstate : t.state = .running) (room : Nat) :
    (t.act (.burst room)).2.Life c (j ++ [t.entry (.burst room)]) := by
  have he := ofBurst_entry hstate room
  show (t.runBurst room).task.Life c (j ++ [t.entry (.burst room)])
  cases hflag : t.cancelRequested with
  | true =>
    rw [runBurst_cancelled room hstate hflag] at he ⊢
    exact life_abandoned h hstate hflag he
  | false =>
    -- The counter of bursts is ahead of the journal until the burst has ended.
    have hunderway := h.underway hstate
    obtain ⟨-, hcut, hran⟩ := h.holds_at hstate
    have hbursts := h.bursts (by rw [hstate]; exact nofun)
    have hamid : t.begun.Amid c j := by
      constructor
      case toUnderway =>
        obtain ⟨_, hgoesOn, hsteps, houtput, hcallbacks, hasked⟩ := hunderway
        exact ⟨hstate, hgoesOn, hsteps, houtput, hcallbacks, hasked⟩
      case bursts => exact congrArg Nat.succ hbursts
      case alive => exact h.alive hstate
      case cut => exact hcut
      case quiet => exact hran
    rw [runBurst_running room hstate hflag] at he ⊢
    -- The steps that go on keep the task amid the burst, so only the last one matters.
    obtain ⟨t', ht', hlast⟩ :=
      takeSteps_last (P := fun t => t.Amid c j) (fun _ => amid_stepped) room hamid
    rw [hlast] at he ⊢
    exact life_takeSteps ht' he

/-- An act that takes no step and leaves the task in its state. -/
structure Between (t t' : Task (Logged σ) O L) (e : Entry R O L) : Prop where
  computation : t'.computation = t.computation
  state : t'.state = t.state
  stats : t'.stats = t.stats
  found : e.found = t.state
  answer : e.answer? = none

section Between

variable {t' : Task (Logged σ) O L} {e : Entry R O L}

omit [Stepwise σ R O] in
theorem Between.answers (he : Between t t' e) : Journal.answers (j ++ [e]) = Journal.answers j := by
  simp [answers_concat, he.answer]

omit [Stepwise σ R O] in
theorem Between.cut (he : Between t t' e) {last : List (Except (Failure R) Burst)}
    (h : Cut j last) : Cut (j ++ [e]) last := by
  obtain ⟨cuts, hcuts⟩ := h
  exact ⟨cuts, he.answers.trans hcuts⟩

theorem asked_other (hact : e.act ≠ .cancel) (calls : List σ) :
    Asked (j ++ [e]) calls ↔ Asked j calls := by
  rw [asked_concat, or_iff_left fun h => hact h.2]

/-- All that such an act can change is what a task holds in its state. -/
theorem Life.between (h : t.Life c j) (he : Between t t' e)
    (hasked : Asked (j ++ [e]) t.computation.calls → t'.cancelRequested = true)
    (hholds : t'.Holds c (j ++ [e]) t.state) : t'.Life c (j ++ [e]) := by
  constructor
  case bursts =>
    rw [he.state, he.stats, he.answers]
    exact h.bursts
  case steps =>
    rw [he.stats, he.computation]
    exact h.steps
  case asked =>
    rw [he.computation]
    exact hasked
  case alive =>
    rw [he.state]
    intro hstate other hother
    rcases List.mem_append.mp hother with hbefore | hlast
    · exact h.alive hstate other hbefore
    · rw [List.mem_singleton.mp hlast, he.found]
      exact hstate
  case holds =>
    rw [he.state]
    exact hholds

end Between

/-- An entry that a journal tells nothing by. -/
structure Quiet (e : Entry R O L) : Prop where
  registered : e.registered? = none
  late : e.late? = none
  takes : e.takes = false
  answer : e.answer? = none
  ran : e.reply.ran = []
  act : e.found = .running → e.act ≠ .cancel

/-- What is not told may change the budget, and it may ask a task that has ended for
cancellation. -/
theorem life_quiet (h : t.Life c j) {e : Entry R O L} (he : Quiet e) (hfound : e.found = t.state)
    (budget : Nat) {flag : Bool} (hflag : t.cancelRequested = true → flag = true)
    (hsame : t.state = .running → flag = t.cancelRequested) :
    ({ t with budget, cancelRequested := flag } : Task (Logged σ) O L).Life c (j ++ [e]) := by
  have hregistered : registered (j ++ [e]) = registered j := by
    simp [registered_concat, he.registered]
  have hlate : late (j ++ [e]) = late j := by simp [late_concat, he.late]
  have htaken : taken (j ++ [e]) = taken j := by simp [taken_concat, he.takes]
  have hran : ran (j ++ [e]) = ran j := by rw [ran_concat, he.ran, List.append_nil]
  have hasked : ∀ calls : List σ, Asked (j ++ [e]) calls ↔ Asked j calls := by
    intro calls
    rw [asked_concat, or_iff_left fun ⟨hfound, hact⟩ => he.act hfound hact]
  have hbetween : Between t { t with budget, cancelRequested := flag } e :=
    ⟨rfl, rfl, rfl, hfound, he.answer⟩
  refine h.between hbetween (fun hnow => hflag (h.asked ((hasked _).mp hnow))) ?_
  cases hstate : t.state with
  | running =>
    obtain ⟨⟨_, hgoesOn, hsteps, houtput, hcallbacks, hiff⟩, hcut, hquiet⟩ := h.holds_at hstate
    refine ⟨⟨rfl, hgoesOn, hsteps, houtput, hcallbacks.trans hregistered.symm, ?_⟩,
      hbetween.cut hcut, hran.trans hquiet⟩
    rw [hasked, ← hiff]
    exact iff_of_eq (congrArg (· = true) (hsame hstate))
  | completed =>
    obtain ⟨output, hloops, hcut, hnot, houtput, hruns⟩ := h.holds_at hstate
    refine ⟨output, hloops, hbetween.cut hcut, fun hnow => hnot ((hasked _).mp hnow), ?_, ?_⟩
    · rw [htaken]
      exact houtput
    · rw [hran, hregistered, hlate]
      exact hruns
  | cancelled =>
    obtain ⟨hcalls, hcut, hnow, houtput, hquiet⟩ := h.holds_at hstate
    exact ⟨hcalls, hbetween.cut hcut, (hasked _).mpr hnow, houtput, hran.trans hquiet⟩
  | failed =>
    obtain ⟨failure, hloops, hcut, houtput, hquiet⟩ := h.holds_at hstate
    exact ⟨failure, hloops, hbetween.cut hcut, houtput, hran.trans hquiet⟩

/-- What is not told and leaves the task as it is. -/
theorem life_same (h : t.Life c j) {e : Entry R O L} (he : Quiet e) (hfound : e.found = t.state) :
    t.Life c (j ++ [e]) :=
  life_quiet h he hfound t.budget id fun _ => rfl

theorem life_burst (h : t.Life c j) (room : Nat) :
    (t.act (.burst room)).2.Life c (j ++ [t.entry (.burst room)]) := by
  by_cases hstate : t.state = .running
  · exact life_burst_running h hstate room
  · obtain ⟨htask, hran⟩ := runBurst_ended room hstate
    have he : Quiet (t.entry (.burst room)) :=
      ⟨rfl, rfl, rfl, if_neg hstate, hran, fun hfound => absurd hfound hstate⟩
    show (t.runBurst room).task.Life c _
    rw [htask]
    exact life_same h he rfl

theorem life_cancel (h : t.Life c j) : (t.act .cancel).2.Life c (j ++ [t.entry .cancel]) := by
  by_cases hstate : t.state = .running
  · obtain ⟨⟨_, hgoesOn, hsteps, houtput, hcallbacks, -⟩, hcut, hran⟩ := h.holds_at hstate
    have hasked : Asked (j ++ [t.entry .cancel]) t.computation.calls :=
      asked_concat.mpr (Or.inr ⟨hstate, rfl⟩)
    have hregistered : registered (j ++ [t.entry .cancel]) = registered j := by
      simp [registered_concat, Entry.registered?, entry]
    have hbetween : Between t t.cancel (t.entry .cancel) := ⟨rfl, rfl, rfl, rfl, rfl⟩
    refine h.between hbetween (fun _ => rfl) ?_
    rw [hstate]
    refine ⟨⟨hstate, hgoesOn, hsteps, houtput, hcallbacks.trans hregistered.symm, ?_⟩,
      hbetween.cut hcut, ?_⟩
    · exact ⟨fun _ => hasked, fun _ => rfl⟩
    · rw [ran_concat, hran]
      rfl
  · have he : Quiet (t.entry .cancel) :=
      ⟨rfl, rfl, rfl, rfl, rfl, fun hfound => absurd hfound hstate⟩
    exact life_quiet h he rfl t.budget (fun _ => rfl) fun hnow => absurd hnow hstate

theorem life_setBudget (h : t.Life c j) (budget : Nat) :
    (t.act (.setBudget budget)).2.Life c (j ++ [t.entry (.setBudget budget)]) := by
  have he : Quiet (t.entry (.setBudget budget)) :=
    ⟨rfl, rfl, rfl, rfl, rfl, fun _ => by simp [entry]⟩
  exact life_quiet h he rfl budget id fun _ => rfl

/-- A callback registered on the running task waits. -/
theorem life_notify_running (h : t.Life c j) (hstate : t.state = .running) (label : L) :
    (t.act (.notify label)).2.Life c (j ++ [t.entry (.notify label)]) := by
  obtain ⟨⟨_, hgoesOn, hsteps, houtput, hcallbacks, hiff⟩, hcut, hran⟩ := h.holds_at hstate
  have hnotify : t.notify label = ({ t with callbacks := t.callbacks ++ [label] }, []) := by
    simp [notify, hstate]
  have hregistered : registered (j ++ [t.entry (.notify label)]) = registered j ++ [label] := by
    simp [registered_concat, Entry.registered?, entry, hstate]
  have hasked : ∀ calls : List σ, Asked (j ++ [t.entry (.notify label)]) calls ↔ Asked j calls :=
    asked_other (by simp [entry])
  show (t.notify label).1.Life c _
  rw [hnotify]
  have hbetween : Between t { t with callbacks := t.callbacks ++ [label] }
      (t.entry (.notify label)) := ⟨rfl, rfl, rfl, rfl, rfl⟩
  refine h.between hbetween (fun hnow => h.asked ((hasked _).mp hnow)) ?_
  rw [hstate]
  refine ⟨⟨rfl, hgoesOn, hsteps, houtput, ?_, hiff.trans (hasked _).symm⟩,
    hbetween.cut hcut, ?_⟩
  · rw [hregistered, ← hcallbacks]
  · simp [ran_concat, hran, entry, act, hnotify]

/-- A callback registered on the completed task runs, unless the output was taken. -/
theorem life_notify_completed (h : t.Life c j) (hstate : t.state = .completed) (label : L) :
    (t.act (.notify label)).2.Life c (j ++ [t.entry (.notify label)]) := by
  obtain ⟨output, hloops, hcut, hnot, houtput, hran⟩ := h.holds_at hstate
  have hnotify : t.notify label
      = (t, if taken j then [] else [⟨label, output, t.stats⟩]) := by
    cases htaken : taken j <;> simp [notify, hstate, houtput, htaken]
  have hregistered : registered (j ++ [t.entry (.notify label)]) = registered j := by
    simp [registered_concat, Entry.registered?, entry, hstate]
  have hlate : late (j ++ [t.entry (.notify label)])
      = late j ++ if taken j then [] else [label] := by
    simp [late_concat, Entry.late?, Entry.takes, entry, hstate]
  have htaken : taken (j ++ [t.entry (.notify label)]) = taken j := by
    simp [taken_concat, Entry.takes, entry]
  have hasked : ∀ calls : List σ, Asked (j ++ [t.entry (.notify label)]) calls ↔ Asked j calls :=
    asked_other (by simp [entry])
  show (t.notify label).1.Life c _
  rw [hnotify]
  have hbetween : Between t t (t.entry (.notify label)) := ⟨rfl, rfl, rfl, rfl, rfl⟩
  refine h.between hbetween (fun hnow => h.asked ((hasked _).mp hnow)) ?_
  rw [hstate]
  refine ⟨output, hloops, hbetween.cut hcut, fun hnow => hnot ((hasked _).mp hnow), ?_, ?_⟩
  · rw [htaken, houtput]
  · rw [ran_concat, hran, hregistered, hlate]
    cases htaken : taken j <;> simp [entry, act, hnotify, htaken]

theorem life_notify (h : t.Life c j) (label : L) :
    (t.act (.notify label)).2.Life c (j ++ [t.entry (.notify label)]) := by
  cases hstate : t.state with
  | running => exact life_notify_running h hstate label
  | completed => exact life_notify_completed h hstate label
  | cancelled | failed =>
    have hnotify : t.notify label = (t, []) := by simp [notify, hstate]
    have he : Quiet (t.entry (.notify label)) := by
      refine ⟨?_, ?_, rfl, rfl, ?_, fun _ => by simp [entry]⟩
      · simp [Entry.registered?, entry, hstate]
      · simp [Entry.late?, entry, hstate]
      · simp [entry, act, hnotify]
    show (t.notify label).1.Life c _
    rw [hnotify]
    exact life_same h he rfl

/-- Taking the output of the completed task leaves it without. -/
theorem life_takeOutput_completed (h : t.Life c j) (hstate : t.state = .completed) :
    (t.act .takeOutput).2.Life c (j ++ [t.entry .takeOutput]) := by
  obtain ⟨output, hloops, hcut, hnot, -, hran⟩ := h.holds_at hstate
  have hregistered : registered (j ++ [t.entry .takeOutput]) = registered j := by
    simp [registered_concat, Entry.registered?, entry]
  have hlate : late (j ++ [t.entry .takeOutput]) = late j := by
    simp [late_concat, Entry.late?, entry]
  have htaken : taken (j ++ [t.entry .takeOutput]) = true := by
    simp [taken_concat, Entry.takes, entry, hstate]
  have hasked : ∀ calls : List σ, Asked (j ++ [t.entry .takeOutput]) calls ↔ Asked j calls :=
    asked_other (by simp [entry])
  have hbetween : Between t t.takeOutput.2 (t.entry .takeOutput) := ⟨rfl, rfl, rfl, rfl, rfl⟩
  refine h.between hbetween (fun hnow => h.asked ((hasked _).mp hnow)) ?_
  rw [hstate]
  refine ⟨output, hloops, hbetween.cut hcut, fun hnow => hnot ((hasked _).mp hnow), ?_, ?_⟩
  · rw [htaken]
    rfl
  · rw [ran_concat, hran, hregistered, hlate]
    exact List.append_nil _

theorem Life.output_none (h : t.Life c j) (hstate : t.state ≠ .completed) : t.output = none := by
  cases hnow : t.state with
  | completed => exact absurd hnow hstate
  | running => exact (h.underway hnow).output
  | cancelled => exact (h.holds_at hnow).2.2.2.1
  | failed =>
    obtain ⟨_, -, -, houtput, -⟩ := h.holds_at hnow
    exact houtput

theorem life_takeOutput (h : t.Life c j) :
    (t.act .takeOutput).2.Life c (j ++ [t.entry .takeOutput]) := by
  by_cases hstate : t.state = .completed
  · exact life_takeOutput_completed h hstate
  · have he : Quiet (t.entry .takeOutput) := by
      refine ⟨rfl, rfl, ?_, rfl, rfl, fun _ => by simp [entry]⟩
      simp [Entry.takes, entry, hstate]
    have htask : t.takeOutput.2 = t := by
      unfold takeOutput
      rw [← h.output_none hstate]
    show t.takeOutput.2.Life c _
    rw [htask]
    exact life_same h he rfl

theorem life_act (h : t.Life c j) (act : Act L) :
    (t.act act).2.Life c (j ++ [t.entry act]) := by
  cases act with
  | burst room => exact life_burst h room
  | cancel => exact life_cancel h
  | notify label => exact life_notify h label
  | takeOutput => exact life_takeOutput h
  | setBudget budget => exact life_setBudget h budget

/-- A task that holds what its journal says goes on to do so. -/
theorem Life.run (h : t.Life c j) (acts : List (Act L)) :
    (t.run acts).Life c (j ++ t.journal acts) := by
  induction acts generalizing t j with
  | nil => exact (List.append_nil j).symm ▸ h
  | cons act acts ih =>
    have hrest := ih (life_act h act)
    rwa [List.append_assoc] at hrest

end Task

end Espalier
