import Espalier.Proofs.Host.Channel
import Espalier.Proofs.Search.Filters

/-!
# What a burst of a search puts on the bus

A job that runs a search has come to where the search comes alone (`Job.Follows`), but for its sink,
which is emptied after every burst. `follows_burst` is the step from there: however many steps a
burst takes, the job goes on following the search or ends as the search does, and what the burst
puts on the bus is what the search reports on the way, of the kinds its sink admits.
-/

namespace Espalier

variable {N R ρ κ : Type} [Scalar R] [RandomSource ρ] [CostModel κ N R]

/-! ## A search at the end of a channel -/

namespace Search

variable {s : Search N R ρ κ (Sink R)} {kinds : Option (List EventKind)} {n : Nat}

/-- What a search reports in its first steps when it runs alone and everything is collected. -/
def alone (s : Search N R ρ κ (Sink R)) (n : Nat) : List (Event R) :=
  ((s.withWatcher (Sink.collect #[])).after n).watcher.events.toList

theorem alone_eq_trace (s : Search N R ρ κ (Sink R)) (n : Nat) : s.alone n = s.trace n := by
  unfold alone
  rw [(s.unmoved n).collected]
  rfl

/-- What a search reports alone, of the kinds that a channel admits. -/
def heard (kinds : Option (List EventKind)) (s : Search N R ρ κ (Sink R)) (n : Nat) :
    List (Event R) :=
  (s.alone n).filter fun event => Sink.admits kinds event.kind

theorem heard_succ (kinds : Option (List EventKind)) (s : Search N R ρ κ (Sink R)) (n : Nat) :
    heard kinds s (n + 1) = heard kinds s n
      ++ (s.after n).reports.filter fun event => Sink.admits kinds event.kind := by
  unfold heard
  rw [alone_eq_trace, alone_eq_trace, trace_succ, List.filter_append]

/-- The first steps go on. -/
def Underway (s : Search N R ρ κ (Sink R)) (n : Nat) : Prop :=
  ∀ m < n, (s.after m).step.1 = .ok .pending

theorem Underway.succ (h : s.Underway n) (hstep : (s.after n).step.1 = .ok .pending) :
    s.Underway (n + 1) := by
  intro m hm
  rcases Nat.lt_succ_iff_lt_or_eq.mp hm with hbefore | rfl
  · exact h m hbefore
  · exact hstep

/-- A channel takes the place of the watcher without getting in the way of a step. -/
theorem step_channel (s : Search N R ρ κ (Sink R)) (kinds : Option (List EventKind))
    (waiting : Array (Event R)) :
    (s.withWatcher (Sink.channel kinds waiting)).step = (s.step.1, s.step.2.withWatcher
      (Sink.channel kinds (waiting ++
        (s.reports.filter fun event => Sink.admits kinds event.kind).toArray))) := by
  obtain ⟨w, hstep⟩ := s.step_withWatcher (Sink.channel kinds waiting)
  have hwatcher : w = Sink.channel kinds (waiting ++
      (s.reports.filter fun event => Sink.admits kinds event.kind).toArray) := by
    have hsink := sink_after (s.withWatcher (Sink.channel kinds waiting)) 1
    have htrace : (s.withWatcher (Sink.channel kinds waiting)).trace 1 = s.reports := by
      rw [trace_withWatcher, trace_succ]
      rfl
    rw [htrace] at hsink
    have hw : ((s.withWatcher (Sink.channel kinds waiting)).after 1).watcher = w :=
      congrArg (fun r => r.2.watcher) hstep
    exact hw.symm.trans (hsink.trans (Sink.sendMany_channel kinds _ waiting))
  rw [hstep, hwatcher]

end Search

/-! ## Bursts -/

namespace Job

variable {kinds : Option (List EventKind)} {s : Search N R ρ κ (Sink R)} {n : Nat}
  {job : Job (Search N R ρ κ (Sink R)) (Outcome N R)}
  {room : Job (Search N R ρ κ (Sink R)) (Outcome N R) → Nat}

/-- A job has come to where a search comes alone in some steps, all of which go on. -/
structure Follows (kinds : Option (List EventKind)) (s : Search N R ρ κ (Sink R)) (n : Nat)
    (job : Job (Search N R ρ κ (Sink R)) (Outcome N R)) : Prop where
  computation : job.task.computation = (s.after n).withWatcher (Sink.channel kinds #[])
  steps : job.task.stats.steps = n
  underway : s.Underway n

/-- What a burst makes of a job that follows a search, and what it puts on the bus. -/
inductive Followed (kinds : Option (List EventKind)) (s : Search N R ρ κ (Sink R)) (n : Nat)
    (room : Job (Search N R ρ κ (Sink R)) (Outcome N R) → Nat)
    (job : Job (Search N R ρ κ (Sink R)) (Outcome N R)) : Prop where
  | pending (m : Nat) (more : n < m) (goesOn : job.ending? room = none)
    (follows : Follows kinds s m (job.burst room))
    (events : s.heard kinds m = s.heard kinds n ++ (job.events room).toList)
  | finished (m : Nat) (more : n ≤ m) (output : Outcome N R)
    (ends : job.ending? room = some (.finished output (job.burst room).task.stats))
    (steps : (job.burst room).task.stats.steps = m + 1) (underway : s.Underway m)
    (last : (s.after m).step.1 = .ok (.done output))
    (events : s.heard kinds (m + 1) = s.heard kinds n ++ (job.events room).toList)
  | failed (m : Nat) (more : n ≤ m) (failure : Failure R)
    (ends : job.ending? room = some (.failed failure)) (underway : s.Underway m)
    (last : (s.after m).step.1 = .error failure)
    (events : s.heard kinds (m + 1) = s.heard kinds n ++ (job.events room).toList)
  | cancelled (asked : job.task.cancelRequested = true)
    (ends : job.ending? room = some .cancelled) (silent : job.events room = #[])

/-- A task amid a burst that has come some steps further. -/
structure Amid (kinds : Option (List EventKind)) (s : Search N R ρ κ (Sink R)) (n m : Nat)
    (t : Task (Search N R ρ κ (Sink R)) (Outcome N R) Unit) (waiting : Array (Event R)) :
    Prop where
  more : n ≤ m
  computation : t.computation = (s.after m).withWatcher (Sink.channel kinds waiting)
  steps : t.stats.steps = m
  underway : s.Underway m
  events : s.heard kinds m = s.heard kinds n ++ waiting.toList
  unasked : t.cancelRequested = false

variable {m : Nat} {t : Task (Search N R ρ κ (Sink R)) (Outcome N R) Unit}
  {waiting : Array (Event R)}

/-- The waiting events after one more step. -/
def further (kinds : Option (List EventKind)) (s : Search N R ρ κ (Sink R)) (m : Nat)
    (waiting : Array (Event R)) : Array (Event R) :=
  waiting ++ ((s.after m).reports.filter fun event => Sink.admits kinds event.kind).toArray

/-- A step of a task amid a burst is the next step of the search. -/
theorem Amid.step (h : Amid kinds s n m t waiting) :
    (Stepwise.step t.computation).result = (s.after m).step.1 ∧
      (Stepwise.step t.computation).state
        = (s.after (m + 1)).withWatcher (Sink.channel kinds (further kinds s m waiting)) := by
  have hstep : Stepwise.step t.computation
      = { state := t.computation.step.2, result := t.computation.step.1, cancels := false } := rfl
  rw [hstep, h.computation, Search.step_channel]
  exact ⟨rfl, rfl⟩

theorem Amid.heard_succ (h : Amid kinds s n m t waiting) :
    s.heard kinds (m + 1) = s.heard kinds n ++ (further kinds s m waiting).toList := by
  unfold further
  rw [Search.heard_succ, h.events, Array.toList_append, List.append_assoc]

theorem Amid.stepped (h : Amid kinds s n m t waiting) (hpending : (s.after m).step.1 = .ok .pending) :
    Amid kinds s n (m + 1) t.stepped (further kinds s m waiting) where
  more := Nat.le_succ_of_le h.more
  computation := h.step.2
  steps := congrArg (· + 1) h.steps
  underway := h.underway.succ hpending
  events := h.heard_succ
  unasked := by
    show (t.cancelRequested || false) = false
    rw [h.unasked]
    rfl

/-- What the last step of a burst makes of it. -/
theorem Amid.followed (h : Amid kinds s n m t waiting)
    (hburst : job.task.runBurst (room job) = Task.takeSteps 0 t) : Followed kinds s n room job := by
  obtain ⟨hresult, hstate⟩ := h.step
  have hevents : job.events room = further kinds s m waiting := by
    unfold Job.events
    rw [hburst, Task.computation_takeSteps_zero, hstate]
    rfl
  have hheard : s.heard kinds (m + 1) = s.heard kinds n ++ (job.events room).toList :=
    hevents ▸ h.heard_succ
  cases hsearch : (s.after m).step.1 with
  | error failure =>
    refine .failed m h.more failure ?_ h.underway hsearch hheard
    unfold ending?
    rw [hburst, Task.takeSteps_failed 0 (hresult.trans hsearch)]
    rfl
  | ok step =>
    cases step with
    | pending =>
      have hused := Task.takeSteps_usedUp (hresult.trans hsearch)
      have hnext := h.stepped hsearch
      refine .pending (m + 1) (Nat.lt_succ_of_le h.more) ?_ ⟨?_, ?_, hnext.underway⟩ hheard
      · unfold ending?
        rw [hburst, hused]
        rfl
      · unfold burst
        rw [hburst, hused]
        show (Hosted.collect t.stepped.computation).2 = _
        rw [hnext.computation]
        rfl
      · unfold burst
        rw [hburst, hused]
        exact hnext.steps
    | done output =>
      have hquiet : t.stepped.cancelRequested = false := by
        show (t.cancelRequested || false) = false
        rw [h.unasked]
        rfl
      have hdone := Task.takeSteps_completed 0 (hresult.trans hsearch) hquiet
      refine .finished m h.more output ?_ ?_ h.underway hsearch hheard
      · unfold ending? burst
        rw [hburst, hdone]
        rfl
      · unfold burst
        rw [hburst, hdone]
        exact congrArg (· + 1) h.steps

/-- However many steps a burst takes, it follows the search. -/
theorem follows_burst (h : Follows kinds s n job) (hrunning : job.task.state = .running) :
    Followed kinds s n room job := by
  cases hasked : job.task.cancelRequested with
  | true =>
    refine .cancelled hasked (ending?_of_asked hrunning hasked) ?_
    unfold events
    rw [Task.runBurst_cancelled (room job) hrunning hasked]
    show (Hosted.collect job.task.computation).1 = #[]
    rw [h.computation]
    rfl
  | false =>
    have keeps (t : Task (Search N R ρ κ (Sink R)) (Outcome N R) Unit)
        (ht : t.state = .running ∧ ∃ m waiting, Amid kinds s n m t waiting)
        (hpending : (Stepwise.step t.computation).result = .ok .pending) :
        t.stepped.state = .running ∧ ∃ m waiting, Amid kinds s n m t.stepped waiting := by
      obtain ⟨hstate, m, waiting, hamid⟩ := ht
      exact ⟨hstate, m + 1, _, hamid.stepped (hamid.step.1.symm.trans hpending)⟩
    have hbegun : Amid kinds s n n job.task.begun #[] :=
      ⟨Nat.le_refl n, h.computation, h.steps, h.underway, (List.append_nil _).symm, hasked⟩
    obtain ⟨t, ⟨-, m, waiting, hamid⟩, hlast⟩ :=
      Task.takeSteps_last keeps (room job) (t := job.task.begun) ⟨hrunning, n, #[], hbegun⟩
    exact hamid.followed ((Task.runBurst_running (room job) hrunning hasked).trans hlast)

end Job

end Espalier
