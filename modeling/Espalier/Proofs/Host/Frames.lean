import Espalier.Host
import Espalier.Proofs.Task.Journal
import Mathlib.Data.List.Nodup

/-!
# What a frame does to the jobs

The jobs of a host do not get into each other's way: a frame gives every job of a type one burst,
and what comes of a job depends on that job alone. `runType_spec` says so for the jobs of one type,
where nothing but the ended jobs is removed, and `burst_spec` says what a burst can end in.

`Tidy` is what makes the removal hit the right jobs: no two jobs have the same number, and no two
are of one type on the same entity.
-/

namespace Espalier

variable {σ R O : Type} [Hosted σ R O] {room : Job σ O → Nat} {nodeType : NodeType}

/-! ## Jobs -/

namespace Job

/-- Where a job is attached. -/
def slot (job : Job σ O) : Entity × NodeType := (job.entity, job.nodeType)

/-- A job after a burst. -/
def burst (room : Job σ O → Nat) (job : Job σ O) : Job σ O :=
  let report : BurstReport σ R O Unit := job.task.runBurst (room job)
  let computation := (Hosted.collect report.task.computation).2
  { job with task := { report.task with computation } }

/-- How a burst ends a job, if it does. -/
def ending? (room : Job σ O → Nat) (job : Job σ O) : Option (Ending R O) :=
  Host.ending? (job.task.runBurst (room job)).result (job.burst room).task

/-- What is left of a job after the jobs of a type have run. -/
def advance (room : Job σ O → Nat) (nodeType : NodeType) (job : Job σ O) : Option (Job σ O) :=
  if job.nodeType = nodeType then
    if (job.ending? room).isSome then none else some (job.burst room)
  else some job

omit [Hosted σ R O] in
theorem slot_eq_iff {job : Job σ O} {entity : Entity} :
    (job.entity == entity && job.nodeType == nodeType) = true ↔
      job.slot = (entity, nodeType) := by
  unfold slot
  simp

/-- No step asks for its own task to be cancelled. -/
def Obedient (σ : Type) {R O : Type} [Stepwise σ R O] : Prop :=
  ∀ c : σ, (Stepwise.step c).cancels = false

/-- What a burst of a running job amounts to. -/
inductive Burst (room : Job σ O → Nat) (job : Job σ O) : Prop where
  | pending (goesOn : job.ending? room = none) (running : (job.burst room).task.state = .running)
    (asked : (job.burst room).task.cancelRequested = job.task.cancelRequested)
  | finished (output : O) (ends : job.ending? room
      = some (.finished output (job.burst room).task.stats))
  | failed (failure : Failure R) (ends : job.ending? room = some (.failed failure))
  | cancelled (ends : job.ending? room = some .cancelled)
    (asked : job.task.cancelRequested = true)

/-- The next burst of a running job that was asked to cancel does. -/
theorem ending?_of_asked {job : Job σ O} (hrunning : job.task.state = .running)
    (hasked : job.task.cancelRequested = true) : job.ending? room = some .cancelled := by
  unfold ending?
  rw [Task.runBurst_cancelled (room job) hrunning hasked]
  rfl

/-- A burst of a running job goes on or ends it, and only a job that was asked to is cancelled. -/
theorem burst_spec {job : Job σ O} (hobedient : Obedient σ) (hrunning : job.task.state = .running) :
    Burst room job := by
  cases hasked : job.task.cancelRequested with
  | true => exact .cancelled (ending?_of_asked hrunning hasked) hasked
  | false =>
    -- Steps that go on leave the task running, and as much asked to cancel as it was.
    have keeps (t : Task σ O Unit) (ht : t.state = .running ∧ t.cancelRequested = false)
        (_ : (Stepwise.step t.computation).result = .ok .pending) :
        t.stepped.state = .running ∧ t.stepped.cancelRequested = false := by
      refine ⟨ht.1, ?_⟩
      show (t.cancelRequested || (Stepwise.step t.computation).cancels) = false
      rw [ht.2, hobedient]
      rfl
    obtain ⟨t, ht, hlast⟩ := Task.takeSteps_last keeps (room job) (t := job.task.begun)
      ⟨hrunning, hasked⟩
    have hburst : job.task.runBurst (room job) = Task.takeSteps 0 t :=
      (Task.runBurst_running (room job) hrunning hasked).trans hlast
    have hquiet : t.stepped.cancelRequested = false := by
      show (t.cancelRequested || (Stepwise.step t.computation).cancels) = false
      rw [ht.2, hobedient]
      rfl
    cases hresult : (Stepwise.step t.computation).result with
    | error failure =>
      rw [Task.takeSteps_failed 0 hresult] at hburst
      refine .failed failure ?_
      unfold ending?
      rw [hburst]
      rfl
    | ok step =>
      cases step with
      | pending =>
        rw [Task.takeSteps_usedUp hresult] at hburst
        refine .pending ?_ ?_ ?_
        · unfold ending?
          rw [hburst]
          rfl
        · unfold burst
          rw [hburst]
          exact ht.1
        · unfold burst
          rw [hburst, hasked]
          exact hquiet
      | done output =>
        rw [Task.takeSteps_completed 0 hresult hquiet] at hburst
        refine .finished output ?_
        unfold ending? burst
        rw [hburst]
        rfl

end Job

/-! ## Bursts of several jobs -/

namespace Host

variable {h : Host σ R O} {job : Job σ O} {jobs : List (Job σ O)}

/-- The jobs of a type that their next burst ends, with how they end. -/
def endings (room : Job σ O → Nat) (nodeType : NodeType) (h : Host σ R O) :
    List (Job σ O × Ending R O) :=
  h.jobs.filterMap fun job =>
    if job.nodeType = nodeType then (job.ending? room).map (job, ·) else none

/-- What a job of the host is while some jobs run: the burst replaces it. -/
def replaced (room : Job σ O → Nat) (running : List (Job σ O)) (job : Job σ O) : Job σ O :=
  running.foldl (fun job other => if job.id = other.id then other.burst room else job) job

/-- A burst puts the job after it in the job's place. -/
theorem runJob_spec (room : Job σ O → Nat) (h : Host σ R O) (job : Job σ O) :
    (h.runJob room job).1.jobs
        = h.jobs.map (fun other => if other.id = job.id then job.burst room else other) ∧
      (h.runJob room job).1.handles = h.handles ∧ (h.runJob room job).1.fresh = h.fresh ∧
      (h.runJob room job).2 = job.ending? room :=
  ⟨rfl, rfl, rfl, rfl⟩

/-- What running some jobs one after another comes to. -/
theorem runJobs_spec (room : Job σ O → Nat) (running : List (Job σ O)) (h : Host σ R O)
    (before : List (Entity × Ending R O)) : ∃ after : Host σ R O,
      running.foldl
        (fun (h, endings) job =>
          let (h, ending) := h.runJob room job
          (h, endings ++ (ending.map fun ending => (job.entity, ending)).toList))
        (h, before)
      = (after, before ++ running.filterMap fun job =>
          (job.ending? room).map fun ending => (job.entity, ending)) ∧
      after.jobs = h.jobs.map (replaced room running) ∧ after.handles = h.handles ∧
      after.fresh = h.fresh := by
  induction running generalizing h before with
  | nil => exact ⟨h, by simp, (List.map_id _).symm, rfl, rfl⟩
  | cons job running ih =>
    obtain ⟨hjobs, hhandles, hfresh, hending⟩ := runJob_spec room h job
    obtain ⟨after, hrun, hjobs', hhandles', hfresh'⟩ := ih (h.runJob room job).1
      (before ++ ((h.runJob room job).2.map fun ending => (job.entity, ending)).toList)
    refine ⟨after, hrun.trans ?_, hjobs'.trans ?_, hhandles'.trans hhandles, hfresh'.trans hfresh⟩
    · rw [hending, List.append_assoc, List.filterMap_cons]
      cases job.ending? room <;> rfl
    · rw [hjobs, List.map_map]
      rfl

omit [Hosted σ R O] in
/-- Removing the jobs that ended and noting how they did are two matters. -/
theorem detachAll_eq (nodeType : NodeType) (ended : List (Entity × Ending R O)) (h : Host σ R O)
    (frame : Frame R O) :
    ended.foldl
      (fun (h, frame) (entity, ending) => (h.detach entity nodeType, frame.note entity ending))
      (h, frame)
    = (ended.foldl (fun h entry => h.detach entry.1 nodeType) h,
        ended.foldl (fun frame entry => frame.note entry.1 entry.2) frame) := by
  induction ended generalizing h frame with
  | nil => rfl
  | cons entry ended ih => exact ih (h.detach entry.1 nodeType) (frame.note entry.1 entry.2)

omit [Hosted σ R O] in
/-- What removing some jobs that ended comes to. -/
theorem detachAll_spec (nodeType : NodeType) (ended : List (Entity × Ending R O))
    (h : Host σ R O) :
    let after := ended.foldl (fun h entry => h.detach entry.1 nodeType) h
    after.jobs = h.jobs.filter (fun job => ended.all fun entry =>
        !(job.entity == entry.1 && job.nodeType == nodeType)) ∧
      after.handles = h.handles.filter (fun handle => ended.all fun entry =>
        decide (handle.1 ≠ entry.1)) ∧ after.fresh = h.fresh := by
  induction ended generalizing h with
  | nil =>
    exact ⟨(List.filter_eq_self.mpr fun _ _ => rfl).symm,
      (List.filter_eq_self.mpr fun _ _ => rfl).symm, rfl⟩
  | cons entry ended ih =>
    intro after
    obtain ⟨hjobs, hhandles, hfresh⟩ := ih (h.detach entry.1 nodeType)
    refine ⟨hjobs.trans ?_, hhandles.trans ?_, hfresh⟩
    · unfold detach
      rw [List.filter_filter]
      refine List.filter_congr fun job _ => ?_
      rw [List.all_cons, Bool.and_comm]
    · unfold detach
      rw [List.filter_filter]
      refine List.filter_congr fun handle _ => ?_
      rw [List.all_cons, Bool.and_comm]

/-- What has been noted before does not matter to what the jobs of a type do. -/
theorem runType_frame (room : Job σ O → Nat) (nodeType : NodeType) (h : Host σ R O)
    (frame frame' : Frame R O) :
    (runType room nodeType h frame).1 = (runType room nodeType h frame').1 := by
  unfold runType
  dsimp only
  rw [detachAll_eq, detachAll_eq]

/-- No two jobs share a number, and no two are of one type on one entity. -/
structure Tidy (h : Host σ R O) : Prop where
  ids : (h.jobs.map (·.id)).Nodup
  slots : (h.jobs.map (·.slot)).Nodup

omit [Hosted σ R O] in
theorem Tidy.eq_of_id (hh : h.Tidy) {job other : Job σ O} (hjob : job ∈ h.jobs)
    (hother : other ∈ h.jobs) (hid : job.id = other.id) : job = other :=
  List.inj_on_of_nodup_map hh.ids hjob hother hid

omit [Hosted σ R O] in
theorem Tidy.eq_of_slot (hh : h.Tidy) {job other : Job σ O} (hjob : job ∈ h.jobs)
    (hother : other ∈ h.jobs) (hslot : job.slot = other.slot) : job = other :=
  List.inj_on_of_nodup_map hh.slots hjob hother hslot

/-- A job stays what it is while others run. -/
theorem replaced_of_not_mem (hjob : ∀ other ∈ jobs, job.id ≠ other.id) :
    replaced room jobs job = job := by
  induction jobs with
  | nil => rfl
  | cons other jobs ih =>
    obtain ⟨hne, hrest⟩ := List.forall_mem_cons.mp hjob
    unfold replaced
    rw [List.foldl_cons, if_neg hne]
    exact ih hrest

/-- A job that runs among others has had one burst. -/
theorem replaced_of_mem (hids : (jobs.map (·.id)).Nodup) (hjob : job ∈ jobs) :
    replaced room jobs job = job.burst room := by
  induction jobs with
  | nil => exact absurd hjob List.not_mem_nil
  | cons other jobs ih =>
    obtain ⟨hother, hids⟩ := List.nodup_cons.mp hids
    have hne : ∀ later ∈ jobs, other.id ≠ later.id := fun later hlater hid =>
      hother (List.mem_map.mpr ⟨later, hlater, hid.symm⟩)
    unfold replaced
    rcases List.mem_cons.mp hjob with rfl | htail
    · rw [List.foldl_cons, if_pos rfl]
      show replaced room jobs (job.burst room) = _
      exact replaced_of_not_mem hne
    · rw [List.foldl_cons, if_neg (Ne.symm (hne job htail))]
      exact ih hids htail

theorem mem_endings {ending : Ending R O} : (job, ending) ∈ h.endings room nodeType ↔
    job ∈ h.jobs ∧ job.nodeType = nodeType ∧ job.ending? room = some ending := by
  unfold endings
  rw [List.mem_filterMap]
  constructor
  · rintro ⟨other, hother, hends⟩
    by_cases htype : other.nodeType = nodeType
    · rw [if_pos htype, Option.map_eq_some_iff] at hends
      obtain ⟨_, hending, heq⟩ := hends
      obtain ⟨rfl, rfl⟩ := Prod.mk.inj heq
      exact ⟨hother, htype, hending⟩
    · rw [if_neg htype] at hends
      exact absurd hends (by simp)
  · rintro ⟨hjob, htype, hending⟩
    exact ⟨job, hjob, by rw [if_pos htype, hending]; rfl⟩

/-- The endings as they are collected, by entities. -/
theorem entities_endings (room : Job σ O → Nat) (nodeType : NodeType) (h : Host σ R O) :
    (h.jobs.filter (·.nodeType == nodeType)).filterMap
      (fun job => (job.ending? room).map fun ending => (job.entity, ending))
    = (h.endings room nodeType).map fun entry => (entry.1.entity, entry.2) := by
  unfold endings
  rw [List.filterMap_filter, List.map_filterMap]
  refine List.filterMap_congr fun job _ => ?_
  by_cases htype : job.nodeType = nodeType
  · rw [if_pos (beq_iff_eq.mpr htype), if_pos htype, Option.map_map]
    rfl
  · rw [if_neg (mt beq_iff_eq.mp htype), if_neg htype]
    rfl

/-- Whether a job outlasts the removal of those of a type that ended. -/
def outlasts (room : Job σ O → Nat) (nodeType : NodeType) (h : Host σ R O) (job : Job σ O) :
    Bool :=
  ((h.endings room nodeType).map fun entry => (entry.1.entity, entry.2)).all fun entry =>
    !(job.entity == entry.1 && job.nodeType == nodeType)

/-- A job is removed after its burst if and only if the burst ended it. -/
theorem Tidy.outlasts_eq (hh : h.Tidy) (hjob : job ∈ h.jobs) (htype : job.nodeType = nodeType) :
    h.outlasts room nodeType (job.burst room) = (job.ending? room).isNone := by
  show h.outlasts room nodeType job = _
  unfold outlasts
  cases hending : job.ending? room with
  | some ending =>
    have hmem : (job, ending) ∈ h.endings room nodeType :=
      mem_endings.mpr ⟨hjob, htype, hending⟩
    rw [Option.isNone_some, List.all_eq_false]
    exact ⟨(job.entity, ending), List.mem_map_of_mem hmem, by simp [htype]⟩
  | none =>
    rw [Option.isNone_none, List.all_eq_true]
    intro entry hentry
    obtain ⟨⟨other, ending⟩, hmem, rfl⟩ := List.mem_map.mp hentry
    obtain ⟨hother, htype', hends⟩ := mem_endings.mp hmem
    -- The only job of the type on the entity is the one that goes on.
    by_cases hentity : job.entity = other.entity
    · have hslot : job.slot = other.slot := Prod.ext hentity (htype.trans htype'.symm)
      rw [hh.eq_of_slot hjob hother hslot, hends] at hending
      exact absurd hending (by simp)
    · simp [hentity]

/-- What is left of a job after its burst, if it had one, and after the removal. -/
theorem Tidy.advance_eq (hh : h.Tidy) (hjob : job ∈ h.jobs) :
    Option.guard (h.outlasts room nodeType)
      (replaced room (h.jobs.filter (·.nodeType == nodeType)) job)
    = job.advance room nodeType := by
  unfold Job.advance
  by_cases htype : job.nodeType = nodeType
  · have hids : ((h.jobs.filter (·.nodeType == nodeType)).map (·.id)).Nodup :=
      hh.ids.sublist (List.filter_sublist.map _)
    rw [replaced_of_mem hids (List.mem_filter.mpr ⟨hjob, beq_iff_eq.mpr htype⟩), if_pos htype]
    simp only [Option.guard, hh.outlasts_eq hjob htype]
    cases job.ending? room <;> rfl
  · have hother : ∀ other ∈ h.jobs.filter (·.nodeType == nodeType), job.id ≠ other.id := by
      intro other hother hid
      obtain ⟨hmem, htype'⟩ := List.mem_filter.mp hother
      exact htype (hh.eq_of_id hjob hmem hid ▸ beq_iff_eq.mp htype')
    rw [replaced_of_not_mem hother, if_neg htype]
    simp [Option.guard, outlasts, htype]

/-- What the jobs of a type running comes to: each has its burst, those that end are removed and
noted in order, each with the handle of its entity, and nothing else happens to any job. -/
theorem runType_spec (room : Job σ O → Nat) (nodeType : NodeType) (hh : h.Tidy)
    (frame : Frame R O) :
    (runType room nodeType h frame).1.jobs = h.jobs.filterMap (Job.advance room nodeType) ∧
      (runType room nodeType h frame).1.handles = h.handles.filter (fun handle =>
        (h.endings room nodeType).all fun entry => decide (handle.1 ≠ entry.1.entity)) ∧
      (runType room nodeType h frame).1.fresh = h.fresh ∧
      (runType room nodeType h frame).2
        = (h.endings room nodeType).foldl (fun frame entry => frame.note entry.1.entity entry.2)
          frame := by
  obtain ⟨ended, hended⟩ : ∃ ended, (h.endings room nodeType).map
    (fun entry => (entry.1.entity, entry.2)) = ended := ⟨_, rfl⟩
  obtain ⟨ran, hran, hjobs, hhandles, hfresh⟩ :=
    runJobs_spec room (h.jobs.filter (·.nodeType == nodeType)) h []
  rw [List.nil_append, entities_endings, hended] at hran
  obtain ⟨hjobs', hhandles', hfresh'⟩ := detachAll_spec nodeType ended ran
  have hrun : runType room nodeType h frame
      = (ended.foldl (fun h entry => h.detach entry.1 nodeType) ran,
        ended.foldl (fun frame entry => frame.note entry.1 entry.2) frame) := by
    unfold runType
    dsimp only
    rw [hran, detachAll_eq]
  rw [hrun]
  refine ⟨hjobs'.trans ?_, hhandles'.trans ?_, hfresh'.trans hfresh, ?_⟩
  · have houtlasts : (fun job => ended.all fun entry =>
        !(job.entity == entry.1 && job.nodeType == nodeType)) = h.outlasts room nodeType := by
      rw [← hended]
      rfl
    rw [houtlasts, hjobs, ← List.filterMap_eq_filter, List.filterMap_map]
    exact List.filterMap_congr fun job hjob => hh.advance_eq hjob
  · rw [hhandles, ← hended]
    exact List.filter_congr fun handle _ => List.all_map
  · show ended.foldl _ frame = _
    rw [← hended, List.foldl_map]

end Host

end Espalier
