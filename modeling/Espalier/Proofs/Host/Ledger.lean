import Espalier.Proofs.Host.Triggers
import Espalier.Proofs.Search.Run
import Mathlib.Data.List.Induction

/-!
# What becomes of the jobs of a host

`ledger` lists the jobs that left their entities in the course of some triggers, in order, with why
they did. `none_unaccounted` balances it: the jobs that left and those still attached are all that
requests started, each of them once, and what the frames report is what the ledger says of finished
and failed jobs. A job that was cancelled was asked to while it was attached.

The other way for a job to go is to be replaced by a later request, and of this no one is told
(`replaced_small`).
-/

namespace Espalier.Host

variable {σ R O : Type} [Hosted σ R O] {h : Host σ R O} {triggers : List (Trigger σ O)}
  {job : Job σ O}

/-- The host after some triggers. -/
def after (h : Host σ R O) (triggers : List (Trigger σ O)) : Host σ R O :=
  triggers.foldl trigger h

/-- All departures, in order. -/
def ledger (h : Host σ R O) : List (Trigger σ O) → List (Departure σ R O)
  | [] => []
  | t :: triggers => h.departures t ++ (h.trigger t).ledger triggers

/-- All frames, in order. -/
def frames (h : Host σ R O) : List (Trigger σ O) → List (Frame R O)
  | [] => []
  | t :: triggers => (h.frame? t).toList ++ (h.trigger t).frames triggers

theorem after_concat (h : Host σ R O) (triggers : List (Trigger σ O)) (t : Trigger σ O) :
    h.after (triggers ++ [t]) = (h.after triggers).trigger t :=
  List.foldl_concat ..

theorem ledger_append (h : Host σ R O) (triggers later : List (Trigger σ O)) :
    h.ledger (triggers ++ later) = h.ledger triggers ++ (h.after triggers).ledger later := by
  induction triggers generalizing h with
  | nil => rfl
  | cons first triggers ih =>
    show h.departures first ++ (h.trigger first).ledger (triggers ++ later) = _
    rw [ih, ← List.append_assoc]
    rfl

theorem ledger_concat (h : Host σ R O) (triggers : List (Trigger σ O)) (t : Trigger σ O) :
    h.ledger (triggers ++ [t]) = h.ledger triggers ++ (h.after triggers).departures t := by
  rw [ledger_append]
  exact congrArg _ (List.append_nil _)

theorem frames_concat (h : Host σ R O) (triggers : List (Trigger σ O)) (t : Trigger σ O) :
    h.frames (triggers ++ [t]) = h.frames triggers ++ ((h.after triggers).frame? t).toList := by
  induction triggers generalizing h with
  | nil => exact List.append_nil _
  | cons first triggers ih =>
    show (h.frame? first).toList ++ (h.trigger first).frames (triggers ++ [t]) = _
    rw [ih, ← List.append_assoc]
    rfl

/-! ## What happened to a job -/

/-- The job was started by a request for its entity and type. -/
def Started (h : Host σ R O) (triggers : List (Trigger σ O)) (job : Job σ O) : Prop :=
  ∃ before computation later,
    triggers = before ++ .request job.entity job.nodeType (some computation) :: later ∧
      (h.after before).accepts job.entity = true ∧ job.id = (h.after before).fresh

/-- Cancellation was asked for on the job's entity while the job was attached to it. -/
def Asked (h : Host σ R O) (triggers : List (Trigger σ O)) (job : Job σ O) : Prop :=
  ∃ before later, triggers = before ++ .cancel job.entity :: later ∧
    ∃ old ∈ (h.after before).jobs, old.id = job.id

/-- A request for the job's entity and type was met while the job was attached. -/
def Displaced (h : Host σ R O) (triggers : List (Trigger σ O)) (job : Job σ O) : Prop :=
  ∃ before computation later,
    triggers = before ++ .request job.entity job.nodeType (some computation) :: later ∧
      (h.after before).accepts job.entity = true ∧ job ∈ (h.after before).jobs

theorem Started.concat (hjob : Started h triggers job) (t : Trigger σ O) :
    Started h (triggers ++ [t]) job := by
  obtain ⟨before, computation, later, rfl, hstarted⟩ := hjob
  exact ⟨before, computation, later ++ [t], by simp, hstarted⟩

theorem Asked.concat (hjob : Asked h triggers job) (t : Trigger σ O) :
    Asked h (triggers ++ [t]) job := by
  obtain ⟨before, later, rfl, hthere⟩ := hjob
  exact ⟨before, later ++ [t], by simp, hthere⟩

theorem Displaced.concat (hjob : Displaced h triggers job) (t : Trigger σ O) :
    Displaced h (triggers ++ [t]) job := by
  obtain ⟨before, computation, later, rfl, hmet, hthere⟩ := hjob
  exact ⟨before, computation, later ++ [t], by simp, hmet, hthere⟩

/-- The job that is displaced leaves. -/
theorem Displaced.left (hjob : Displaced h triggers job) :
    { job, fate := .replaced } ∈ h.ledger triggers := by
  obtain ⟨before, computation, later, rfl, hmet, hthere⟩ := hjob
  have hleaves : { job, fate := .replaced } ∈ (h.after before).departures
      (.request job.entity job.nodeType (some computation)) := by
    dsimp only [departures]
    rw [if_pos hmet]
    exact List.mem_map_of_mem (List.mem_filter.mpr ⟨hthere, by simp⟩)
  rw [ledger_append]
  exact List.mem_append_right _ (List.mem_append_left _ hleaves)

/-- How a job was started is told by its number and its place. -/
theorem Started.of_same {other : Job σ O} (hjob : Started h triggers job)
    (hid : other.id = job.id) (hslot : other.slot = job.slot) : Started h triggers other := by
  obtain ⟨hentity, htype⟩ := Prod.mk.inj hslot
  unfold Started
  rw [hid, hentity, htype]
  exact hjob

theorem Asked.of_same {other : Job σ O} (hjob : Asked h triggers job)
    (hid : other.id = job.id) (hslot : other.slot = job.slot) : Asked h triggers other := by
  unfold Asked
  rw [hid, (Prod.mk.inj hslot).1]
  exact hjob

/-! ## The account -/

/-- What the triggers have come to. -/
structure Account (h : Host σ R O) (triggers : List (Trigger σ O)) : Prop where
  /-- Every job that was started is attached or has left, and has left once. -/
  once : ((h.ledger triggers).map (·.job.id) ++ (h.after triggers).jobs.map (·.id)).Perm
    (List.range (h.after triggers).fresh)
  /-- Those that are attached were started by requests for where they are. -/
  attached : ∀ job ∈ (h.after triggers).jobs, Started h triggers job
  /-- And so were those that have left. -/
  left : ∀ d ∈ h.ledger triggers, Started h triggers d.job
  /-- The frames report the jobs that finished, and no others. -/
  finished : (h.frames triggers).flatMap (·.finished.toList)
    = (h.ledger triggers).filterMap (·.finished?)
  /-- The frames report the jobs that failed, and no others. -/
  failed : (h.frames triggers).flatMap (·.failed.toList)
    = (h.ledger triggers).filterMap (·.failed?)
  /-- A job that was cancelled was asked to on its entity while it was attached. -/
  cancelled : ∀ d ∈ h.ledger triggers, d.fate = .ended .cancelled → Asked h triggers d.job
  /-- The jobs that were replaced are those that were attached when another one of their type was
  requested. -/
  replaced : ∀ job, { job, fate := .replaced } ∈ h.ledger triggers ↔ Displaced h triggers job

/-- The account together with what carries it from one trigger to the next. -/
structure Kept (h : Host σ R O) (triggers : List (Trigger σ O)) : Prop extends
    Account h triggers where
  sound : (h.after triggers).Sound
  asked : ∀ job ∈ (h.after triggers).jobs, job.task.cancelRequested = true → Asked h triggers job

/-- A host as it is set up has nothing to account for. -/
theorem kept_ofSetup (setup : Setup R) : Kept (Host.ofSetup setup : Host σ R O) [] := by
  constructor
  case toAccount =>
    constructor
    case once => exact .refl _
    case attached => exact fun job hjob => absurd hjob List.not_mem_nil
    case left | cancelled => exact fun d hd => absurd hd List.not_mem_nil
    case finished | failed => rfl
    case replaced =>
      refine fun job => ⟨fun hd => absurd hd List.not_mem_nil, ?_⟩
      rintro ⟨before, computation, later, hnil, -⟩
      exact absurd hnil.symm (by simp)
  case sound =>
    constructor
    case toTidy => exact ⟨List.nodup_nil, List.nodup_nil⟩
    case below | running => exact fun job hjob => absurd hjob List.not_mem_nil
    case named | handles => exact fun handle hhandle => absurd hhandle List.not_mem_nil
  case asked => exact fun job hjob => absurd hjob List.not_mem_nil

theorem Kept.once_concat (hkept : Kept h triggers) {t : Trigger σ O}
    (hstep : Triggered (h.after triggers) t ((h.after triggers).trigger t)
      ((h.after triggers).departures t)) :
    ((h.ledger (triggers ++ [t])).map (·.job.id) ++
      (h.after (triggers ++ [t])).jobs.map (·.id)).Perm
        (List.range (h.after (triggers ++ [t])).fresh) := by
  have honce := hkept.once
  have hmore := hstep.once
  rw [after_concat, ledger_concat]
  rw [List.perm_iff_count] at honce hmore ⊢
  intro id
  have honce' := honce id
  have hmore' := hmore id
  simp only [List.map_append, List.count_append] at honce' hmore' ⊢
  omega

theorem kept_concat (hobedient : Job.Obedient σ) (hkept : Kept h triggers) (t : Trigger σ O) :
    Kept h (triggers ++ [t]) := by
  have hstep := triggered hobedient hkept.sound t
  have hattached : ∀ job ∈ (h.after (triggers ++ [t])).jobs, Started h (triggers ++ [t]) job := by
    intro job hjob
    rw [after_concat] at hjob
    cases hstep.comes job hjob with
    | stayed old there id slot asked =>
      exact ((hkept.attached old there).concat t).of_same id slot
    | started computation request accepted id unasked =>
      exact ⟨triggers, computation, [], by rw [request], accepted, id⟩
  have hleft : ∀ d ∈ h.ledger (triggers ++ [t]),
      d ∈ h.ledger triggers ∨ d ∈ (h.after triggers).departures t := by
    intro d hd
    rw [ledger_concat] at hd
    exact List.mem_append.mp hd
  constructor
  case toAccount =>
    constructor
    case once => exact hkept.once_concat hstep
    case attached => exact hattached
    case left =>
      intro d hd
      rcases hleft d hd with hbefore | hnow
      · exact (hkept.left d hbefore).concat t
      · obtain ⟨old, hold, hlater⟩ := hstep.there d hnow
        exact ((hkept.attached old hold).concat t).of_same hlater.id hlater.slot
    case finished =>
      rw [frames_concat, ledger_concat, List.flatMap_append, List.filterMap_append, hkept.finished,
        (reported_spec hobedient hkept.sound t).1]
    case failed =>
      rw [frames_concat, ledger_concat, List.flatMap_append, List.filterMap_append, hkept.failed,
        (reported_spec hobedient hkept.sound t).2]
    case cancelled =>
      intro d hd hfate
      rcases hleft d hd with hbefore | hnow
      · exact (hkept.cancelled d hbefore hfate).concat t
      · obtain ⟨old, hold, hlater⟩ := hstep.there d hnow
        have hasked := hlater.asked (hstep.cancelled d hnow hfate)
        exact ((hkept.asked old hold hasked).concat t).of_same hlater.id hlater.slot
    case replaced =>
      refine fun job => ⟨fun hd => ?_, Displaced.left⟩
      rcases hleft _ hd with hbefore | hnow
      · exact ((hkept.replaced job).mp hbefore).concat t
      · obtain ⟨hthere, hmet, computation, ht⟩ := hstep.replaced _ hnow rfl
        exact ⟨triggers, computation, [], by rw [ht], hmet, hthere⟩
  case sound =>
    rw [after_concat]
    exact hstep.sound
  case asked =>
    intro job hjob hasked
    rw [after_concat] at hjob
    cases hstep.comes job hjob with
    | stayed old there id slot asked =>
      refine Asked.of_same ?_ id slot
      rcases asked hasked with hbefore | rfl
      · exact (hkept.asked old there hbefore).concat t
      · exact ⟨triggers, [], rfl, old, there, rfl⟩
    | started computation request accepted id unasked =>
      exact absurd (unasked.symm.trans hasked) Bool.false_ne_true

/-- No job is lost without a trace in the account, whatever triggers reach the host and in whatever
order. -/
theorem none_unaccounted (hobedient : Job.Obedient σ) (setup : Setup R)
    (triggers : List (Trigger σ O)) : Account (Host.ofSetup setup : Host σ R O) triggers := by
  have hkept : Kept (Host.ofSetup setup : Host σ R O) triggers := by
    induction triggers using List.reverseRecOn with
    | nil => exact kept_ofSetup setup
    | append_singleton triggers t ih => exact kept_concat hobedient ih t
  exact hkept.toAccount

/-- Two requests for one entity and then a frame with time for a whole search. -/
def requestedTwice {σ O : Type} (computation : σ) : List (Trigger σ O) :=
  [.spawn 0, .request 0 0 (some computation), .request 0 0 (some computation), .update fun _ => 99]

/-- One job finishes where two were requested, and the account has both. -/
theorem none_unaccounted_small :
    Job.Obedient (Search String Binary64 Source (NoCost String Binary64) (Sink Binary64)) ∧
      ∃ s : Search String Binary64 Source (NoCost String Binary64) (Sink Binary64),
        Sample.brief ⟨⟩ = .ok s ∧
          Account (Host.ofSetup (Setup.empty.addPlugin 0)) (requestedTwice s) := by
  have hobedient : Job.Obedient
      (Search String Binary64 Source (NoCost String Binary64) (Sink Binary64)) := fun _ => rfl
  have hok : (Sample.brief (⟨⟩ : NoCost String Binary64)).isOk = true := by decide +kernel
  obtain ⟨s, hnew⟩ := Search.exists_ok hok
  exact ⟨hobedient, s, hnew, none_unaccounted hobedient _ _⟩

/-- Two jobs are started and in the end none is attached, but the frames report one job that
finished and none that failed, and nobody asked for cancellation. -/
theorem replaced_small :
    ∃ s : Search String Binary64 Source (NoCost String Binary64) (Sink Binary64),
      Sample.brief ⟨⟩ = .ok s ∧
        ∃ h : Host (Search String Binary64 Source (NoCost String Binary64) (Sink Binary64))
          Binary64 (Outcome String Binary64),
          h = Host.ofSetup (Setup.empty.addPlugin 0) ∧
            (h.after (requestedTwice s)).fresh = 2 ∧
            (h.after (requestedTwice s)).jobs.isEmpty = true ∧
            ((h.frames (requestedTwice s)).flatMap (·.finished.toList)).length = 1 ∧
            ((h.frames (requestedTwice s)).flatMap (·.failed.toList)).length = 0 ∧
            ∀ t ∈ (requestedTwice s : List (Trigger _ (Outcome String Binary64))),
              ∀ entity, t ≠ .cancel entity := by
  obtain ⟨h, hh⟩ : ∃ h : Host (Search String Binary64 Source (NoCost String Binary64)
    (Sink Binary64)) Binary64 (Outcome String Binary64),
    h = Host.ofSetup (Setup.empty.addPlugin 0) := ⟨_, rfl⟩
  have hrun : ((Sample.brief (⟨⟩ : NoCost String Binary64)).toOption.map fun s =>
      ((h.after (requestedTwice s)).fresh, (h.after (requestedTwice s)).jobs.isEmpty,
        ((h.frames (requestedTwice s)).flatMap (·.finished.toList)).length,
        ((h.frames (requestedTwice s)).flatMap (·.failed.toList)).length))
          = some (2, true, 1, 0) := by
    rw [hh]
    decide +kernel
  obtain ⟨s, hnew, hseen⟩ := Search.exists_of_toOption_map hrun
  obtain ⟨hfresh, hseen⟩ := Prod.mk.inj hseen
  obtain ⟨hjobs, hseen⟩ := Prod.mk.inj hseen
  obtain ⟨hfinished, hfailed⟩ := Prod.mk.inj hseen
  refine ⟨s, hnew, h, hh, hfresh, hjobs, hfinished, hfailed, ?_⟩
  intro t ht entity
  simp only [requestedTwice, List.mem_cons, List.not_mem_nil, or_false] at ht
  rcases ht with rfl | rfl | rfl | rfl <;> exact nofun

end Espalier.Host
