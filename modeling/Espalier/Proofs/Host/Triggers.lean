import Espalier.Proofs.Host.Frames

/-!
# What a trigger does to the jobs of a host

Requests, cancellations and frames reach a host in any order; each is a `Trigger`. `departures`
lists the jobs that a trigger takes off their entities, and why: a frame ended them, or a request
put another job in their place.

`triggered` is the step lemma. The numbers of the jobs that were there are found again, each once,
among those that left and those that stayed; a job is new by a request or was there before; and a
job that is cancelled was asked to.
-/

namespace Espalier.Host

variable {σ R O : Type}

/-! ## Triggers -/

/-- What happens to a host from outside. -/
inductive Trigger (σ O : Type) where
  | spawn (entity : Entity)
  /-- A request that may still hold its computation. -/
  | request (entity : Entity) (nodeType : NodeType) (request : Option σ)
  | cancel (entity : Entity)
  /-- A frame. `room` is how many steps the clock leaves for each job after its first. -/
  | update (room : Job σ O → Nat)

/-- Why a job is attached to its entity no longer. -/
inductive Fate (R O : Type) where
  | ended (ending : Ending R O)
  /-- Another job of the type was put in its place. -/
  | replaced

/-- A job as it was when it left, and why it did. -/
structure Departure (σ R O : Type) where
  job : Job σ O
  fate : Fate R O

/-- What is reported of a job that finished. -/
def Departure.finished? (d : Departure σ R O) : Option (Entity × O × TaskStats) :=
  match d.fate with
  | .ended (.finished output stats) => some (d.job.entity, output, stats)
  | _ => none

/-- What is reported of a job that failed. -/
def Departure.failed? (d : Departure σ R O) : Option (Entity × Failure R) :=
  match d.fate with
  | .ended (.failed failure) => some (d.job.entity, failure)
  | _ => none

/-- Whether requests for an entity are met. -/
def accepts (h : Host σ R O) (entity : Entity) : Bool :=
  h.setup.bus.isSome && h.entities.contains entity

variable [Hosted σ R O]

/-- The jobs that some types of jobs running, one type after another, end. -/
def endingsOf (room : Job σ O → Nat) : List NodeType → Host σ R O → List (Job σ O × Ending R O)
  | [], _ => []
  | nodeType :: nodeTypes, h =>
    h.endings room nodeType ++ endingsOf room nodeTypes (runType room nodeType h .empty).1

def trigger (h : Host σ R O) : Trigger σ O → Host σ R O
  | .spawn entity => h.spawn entity
  | .request entity nodeType computation => (h.request entity nodeType computation).1
  | .cancel entity => h.cancel entity
  | .update room => (h.frame room).1

/-- The jobs that a trigger takes off their entities. -/
def departures (h : Host σ R O) : Trigger σ O → List (Departure σ R O)
  | .request entity nodeType (some _) => if h.accepts entity then
      (h.jobs.filter fun job => job.entity == entity && job.nodeType == nodeType).map
        fun job => { job, fate := .replaced }
    else []
  | .update room => (h.endingsOf room h.setup.nodeTypes).map
      fun entry => { job := entry.1, fate := .ended entry.2 }
  | _ => []

/-- The frame that a trigger is, if it is one. -/
def frame? (h : Host σ R O) : Trigger σ O → Option (Frame R O)
  | .update room => some (h.frame room).2
  | _ => none

/-! ## Jobs over time -/

/-- A job at two moments, between which nobody asked for it to be cancelled. -/
structure Later (old job : Job σ O) : Prop where
  id : job.id = old.id
  slot : job.slot = old.slot
  asked : job.task.cancelRequested = true → old.task.cancelRequested = true

omit [Hosted σ R O] in
theorem Later.trans {first second third : Job σ O} (h : Later first second)
    (h' : Later second third) : Later first third :=
  ⟨h'.id.trans h.id, h'.slot.trans h.slot, fun hasked => h.asked (h'.asked hasked)⟩

/-- The jobs are in order: they are tidy, their numbers have been given out, and none has ended.
A cancel handle that names a job is on the entity of that job. -/
structure Sound (h : Host σ R O) : Prop extends Tidy h where
  below : ∀ job ∈ h.jobs, job.id < h.fresh
  running : ∀ job ∈ h.jobs, job.task.state = .running
  named : ∀ handle ∈ h.handles, handle.2 < h.fresh
  handles : ∀ handle ∈ h.handles, ∀ job ∈ h.jobs, job.id = handle.2 → job.entity = handle.1

variable {h : Host σ R O} {room : Job σ O → Nat} {nodeType : NodeType} {job : Job σ O}

/-- A running job that is left after the jobs of a type have run is one that was there. -/
theorem later_of_advance (hobedient : Job.Obedient σ) {old : Job σ O}
    (hrunning : old.task.state = .running) (hadvance : old.advance room nodeType = some job) :
    Later old job ∧ job.task.state = .running := by
  unfold Job.advance at hadvance
  by_cases htype : old.nodeType = nodeType
  · rw [if_pos htype] at hadvance
    have hburst : old.Burst room := Job.burst_spec hobedient hrunning
    cases hburst with
    | pending goesOn running asked =>
      rw [goesOn] at hadvance
      obtain rfl := Option.some.inj hadvance
      exact ⟨⟨rfl, rfl, fun hasked => asked ▸ hasked⟩, running⟩
    | finished output ends =>
      rw [ends] at hadvance
      exact absurd hadvance (by simp)
    | failed failure ends =>
      rw [ends] at hadvance
      exact absurd hadvance (by simp)
    | cancelled ends asked =>
      rw [ends] at hadvance
      exact absurd hadvance (by simp)
  · rw [if_neg htype] at hadvance
    obtain rfl := Option.some.inj hadvance
    exact ⟨⟨rfl, rfl, fun hasked => hasked⟩, hrunning⟩

/-- Only a job that was asked to is cancelled. -/
theorem asked_of_endings (hobedient : Job.Obedient σ) (hs : h.Sound)
    (hmem : (job, Ending.cancelled) ∈ h.endings room nodeType) :
    job.task.cancelRequested = true := by
  obtain ⟨hjob, -, hending⟩ := mem_endings.mp hmem
  have hburst : job.Burst room := Job.burst_spec hobedient (hs.running job hjob)
  cases hburst with
  | pending goesOn => exact absurd (goesOn.symm.trans hending) (by simp)
  | finished output ends => exact absurd (ends.symm.trans hending) (by simp)
  | failed failure ends => exact absurd (ends.symm.trans hending) (by simp)
  | cancelled _ asked => exact asked

theorem advance_same {old : Job σ O} (hadvance : old.advance room nodeType = some job) :
    job.id = old.id ∧ job.slot = old.slot := by
  unfold Job.advance at hadvance
  split at hadvance
  · split at hadvance
    · exact absurd hadvance (by simp)
    · obtain rfl := Option.some.inj hadvance
      exact ⟨rfl, rfl⟩
  · obtain rfl := Option.some.inj hadvance
    exact ⟨rfl, rfl⟩

/-- What jobs are told apart by stays, as far as they do. -/
theorem sublist_advance {α : Type} (key : Job σ O → α)
    (hkey : ∀ {old job : Job σ O}, old.advance room nodeType = some job → key job = key old)
    (jobs : List (Job σ O)) :
    ((jobs.filterMap (Job.advance room nodeType)).map key).Sublist (jobs.map key) := by
  induction jobs with
  | nil => exact .refl _
  | cons old jobs ih =>
    rw [List.filterMap_cons, List.map_cons]
    cases hadvance : old.advance room nodeType with
    | none => exact ih.cons _
    | some job =>
      rw [← hkey hadvance]
      exact ih.cons_cons _

/-- Every job is ended by the jobs of a type running, or left, and not both. -/
theorem perm_advance (room : Job σ O → Nat) (nodeType : NodeType) (h : Host σ R O) :
    ((h.endings room nodeType).map (·.1.id) ++
      (h.jobs.filterMap (Job.advance room nodeType)).map (·.id)).Perm (h.jobs.map (·.id)) := by
  unfold endings
  induction h.jobs with
  | nil => exact .refl _
  | cons job jobs ih =>
    rw [List.filterMap_cons, List.filterMap_cons, List.map_cons]
    unfold Job.advance at ih ⊢
    by_cases htype : job.nodeType = nodeType
    · rw [if_pos htype, if_pos htype]
      cases job.ending? room with
      | some ending => exact ih.cons job.id
      | none => exact List.perm_middle.trans (ih.cons job.id)
    · rw [if_neg htype, if_neg htype]
      exact List.perm_middle.trans (ih.cons job.id)

/-- What becomes of the jobs of a host when some of them have run: `left` are those that ended. -/
structure Ran (h h' : Host σ R O) (left : List (Job σ O × Ending R O)) : Prop where
  sound : h'.Sound
  fresh : h'.fresh = h.fresh
  handles : h'.handles.Sublist h.handles
  stayed : ∀ job ∈ h'.jobs, ∃ old ∈ h.jobs, Later old job
  ended : ∀ entry ∈ left, ∃ old ∈ h.jobs, Later old entry.1
  asked : ∀ entry ∈ left, entry.2 = .cancelled → entry.1.task.cancelRequested = true
  once : (left.map (·.1.id) ++ h'.jobs.map (·.id)).Perm (h.jobs.map (·.id))

theorem ran_runType (hobedient : Job.Obedient σ) (room : Job σ O → Nat) (nodeType : NodeType)
    (hs : h.Sound) (frame : Frame R O) :
    Ran h (runType room nodeType h frame).1 (h.endings room nodeType) := by
  obtain ⟨hjobs, hkept, hfresh, -⟩ := runType_spec room nodeType hs.toTidy frame
  have hhandles : (runType room nodeType h frame).1.handles.Sublist h.handles :=
    hkept ▸ List.filter_sublist
  have hold : ∀ job ∈ (runType room nodeType h frame).1.jobs,
      ∃ old ∈ h.jobs, Later old job ∧ job.task.state = .running := by
    intro job hjob
    rw [hjobs] at hjob
    obtain ⟨old, hmem, hadvance⟩ := List.mem_filterMap.mp hjob
    exact ⟨old, hmem, later_of_advance hobedient (hs.running old hmem) hadvance⟩
  have htidy : (runType room nodeType h frame).1.Tidy := by
    constructor
    case ids =>
      rw [hjobs]
      exact hs.ids.sublist (sublist_advance (·.id) (fun hadvance => (advance_same hadvance).1) _)
    case slots =>
      rw [hjobs]
      exact hs.slots.sublist
        (sublist_advance (·.slot) (fun hadvance => (advance_same hadvance).2) _)
  constructor
  case sound =>
    refine ⟨htidy, fun job hjob => ?_, fun job hjob => ?_, fun handle hhandle => ?_,
      fun handle hhandle job hjob hid => ?_⟩
    · obtain ⟨old, hmem, hlater, -⟩ := hold job hjob
      rw [hfresh, hlater.id]
      exact hs.below old hmem
    · obtain ⟨old, -, -, hrunning⟩ := hold job hjob
      exact hrunning
    · rw [hfresh]
      exact hs.named handle (hhandles.mem hhandle)
    · obtain ⟨old, hmem, hlater, -⟩ := hold job hjob
      rw [(Prod.mk.inj hlater.slot).1]
      exact hs.handles handle (hhandles.mem hhandle) old hmem (hlater.id.symm.trans hid)
  case fresh => exact hfresh
  case handles => exact hhandles
  case stayed =>
    intro job hjob
    obtain ⟨old, hmem, hlater, -⟩ := hold job hjob
    exact ⟨old, hmem, hlater⟩
  case ended =>
    intro entry hentry
    exact ⟨entry.1, (mem_endings.mp hentry).1, ⟨rfl, rfl, fun hasked => hasked⟩⟩
  case asked =>
    rintro ⟨job, ending⟩ hentry rfl
    exact asked_of_endings hobedient hs hentry
  case once =>
    rw [hjobs]
    exact perm_advance room nodeType h

omit [Hosted σ R O] in
theorem Ran.trans {h' h'' : Host σ R O} {left left' : List (Job σ O × Ending R O)}
    (hran : Ran h h' left) (hran' : Ran h' h'' left') : Ran h h'' (left ++ left') := by
  have hback : ∀ job : Job σ O, (∃ old ∈ h'.jobs, Later old job) →
      ∃ old ∈ h.jobs, Later old job := by
    rintro job ⟨old, hold, hlater⟩
    obtain ⟨older, holder, hlater'⟩ := hran.stayed old hold
    exact ⟨older, holder, hlater'.trans hlater⟩
  constructor
  case sound => exact hran'.sound
  case fresh => exact hran'.fresh.trans hran.fresh
  case handles => exact hran'.handles.trans hran.handles
  case stayed => exact fun job hjob => hback job (hran'.stayed job hjob)
  case ended =>
    intro entry hentry
    rcases List.mem_append.mp hentry with hfirst | hsecond
    · exact hran.ended entry hfirst
    · exact hback entry.1 (hran'.ended entry hsecond)
  case asked =>
    intro entry hentry
    rcases List.mem_append.mp hentry with hfirst | hsecond
    · exact hran.asked entry hfirst
    · exact hran'.asked entry hsecond
  case once =>
    rw [List.map_append, List.append_assoc]
    exact (hran'.once.append_left _).trans hran.once

/-- What some types of jobs running, one type after another, comes to. -/
theorem ran_types (hobedient : Job.Obedient σ) (room : Job σ O → Nat)
    (nodeTypes : List NodeType) (hs : h.Sound) (frame : Frame R O) :
    let after := nodeTypes.foldl (fun (h, frame) nodeType => runType room nodeType h frame)
      (h, frame)
    Ran h after.1 (h.endingsOf room nodeTypes) ∧ after.2 = (h.endingsOf room nodeTypes).foldl
      (fun frame entry => frame.note entry.1.entity entry.2) frame := by
  induction nodeTypes generalizing h frame with
  | nil =>
    refine ⟨⟨hs, rfl, .refl _, fun job hjob => ⟨job, hjob, rfl, rfl, fun hasked => hasked⟩, ?_, ?_,
      .refl _⟩, rfl⟩
    · exact fun entry hentry => absurd hentry List.not_mem_nil
    · exact fun entry hentry => absurd hentry List.not_mem_nil
  | cons nodeType nodeTypes ih =>
    intro after
    have hran : Ran h (runType room nodeType h frame).1 (h.endings room nodeType) :=
      ran_runType hobedient room nodeType hs frame
    obtain ⟨-, -, -, hframe⟩ := runType_spec room nodeType hs.toTidy frame
    obtain ⟨hran', hframe'⟩ := ih hran.sound (runType room nodeType h frame).2
    have hsame := runType_frame room nodeType h frame .empty
    unfold endingsOf
    rw [← hsame, List.foldl_append, ← hframe]
    exact ⟨hran.trans hran', hframe'⟩

/-! ## Triggers one by one -/

/-- How a job comes to be attached after a trigger. -/
inductive Comes (h : Host σ R O) (t : Trigger σ O) (job : Job σ O) : Prop where
  | stayed (old : Job σ O) (there : old ∈ h.jobs) (id : job.id = old.id)
    (slot : job.slot = old.slot) (asked : job.task.cancelRequested = true →
      old.task.cancelRequested = true ∨ t = .cancel old.entity)
  | started (computation : σ) (request : t = .request job.entity job.nodeType (some computation))
    (accepted : h.accepts job.entity = true) (id : job.id = h.fresh)
    (unasked : job.task.cancelRequested = false)

/-- What a trigger does to the jobs: `left` are those it takes off their entities. -/
structure Triggered (h : Host σ R O) (t : Trigger σ O) (h' : Host σ R O)
    (left : List (Departure σ R O)) : Prop where
  sound : h'.Sound
  once : (left.map (·.job.id) ++ h'.jobs.map (·.id) ++ List.range h.fresh).Perm
    (h.jobs.map (·.id) ++ List.range h'.fresh)
  comes : ∀ job ∈ h'.jobs, Comes h t job
  there : ∀ d ∈ left, ∃ old ∈ h.jobs, Later old d.job
  cancelled : ∀ d ∈ left, d.fate = .ended .cancelled → d.job.task.cancelRequested = true
  replaced : ∀ d ∈ left, d.fate = .replaced → d.job ∈ h.jobs ∧
    h.accepts d.job.entity = true ∧
      ∃ computation, t = .request d.job.entity d.job.nodeType (some computation)

omit [Hosted σ R O] in
/-- A trigger that starts no job and ends none. -/
theorem triggered_of_map (hs : h.Sound) {h' : Host σ R O} {t : Trigger σ O}
    {f : Job σ O → Job σ O} (hjobs : h'.jobs = h.jobs.map f) (hhandles : h'.handles = h.handles)
    (hfresh : h'.fresh = h.fresh) (hid : ∀ job, (f job).id = job.id)
    (hslot : ∀ job, (f job).slot = job.slot)
    (hrunning : ∀ job, (f job).task.state = job.task.state)
    (hasked : ∀ job ∈ h.jobs, (f job).task.cancelRequested = true →
      job.task.cancelRequested = true ∨ t = .cancel job.entity) : Triggered h t h' [] := by
  have hids : h'.jobs.map (·.id) = h.jobs.map (·.id) := by
    rw [hjobs, List.map_map]
    exact List.map_congr_left fun job _ => hid job
  have hslots : h'.jobs.map (·.slot) = h.jobs.map (·.slot) := by
    rw [hjobs, List.map_map]
    exact List.map_congr_left fun job _ => hslot job
  have hold : ∀ job ∈ h'.jobs, ∃ old ∈ h.jobs, f old = job := by
    intro job hjob
    rw [hjobs] at hjob
    exact List.mem_map.mp hjob
  constructor
  case sound =>
    refine ⟨⟨hids ▸ hs.ids, hslots ▸ hs.slots⟩, fun job hjob => ?_, fun job hjob => ?_,
      fun handle hhandle => ?_, fun handle hhandle job hjob hnames => ?_⟩
    · obtain ⟨old, hmem, rfl⟩ := hold job hjob
      rw [hfresh, hid]
      exact hs.below old hmem
    · obtain ⟨old, hmem, rfl⟩ := hold job hjob
      rw [hrunning]
      exact hs.running old hmem
    · rw [hhandles] at hhandle
      rw [hfresh]
      exact hs.named handle hhandle
    · obtain ⟨old, hmem, rfl⟩ := hold job hjob
      rw [hhandles] at hhandle
      rw [(Prod.mk.inj (hslot old)).1]
      exact hs.handles handle hhandle old hmem ((hid old).symm.trans hnames)
  case once =>
    rw [hids, hfresh]
    exact .refl _
  case comes =>
    intro job hjob
    obtain ⟨old, hmem, rfl⟩ := hold job hjob
    exact .stayed old hmem (hid old) (hslot old) (hasked old hmem)
  case there | cancelled | replaced => exact fun d hd => absurd hd List.not_mem_nil

omit [Hosted σ R O] in
/-- A trigger that leaves the jobs and their handles as they are. -/
theorem triggered_of_same (hs : h.Sound) {h' : Host σ R O} (t : Trigger σ O)
    (hjobs : h'.jobs = h.jobs) (hhandles : h'.handles = h.handles) (hfresh : h'.fresh = h.fresh) :
    Triggered h t h' [] :=
  triggered_of_map hs (hjobs.trans (List.map_id _).symm) hhandles hfresh (fun _ => rfl)
    (fun _ => rfl) (fun _ => rfl) fun _ _ => Or.inl

/-- The job that a request starts. -/
def started (h : Host σ R O) (bus : Bus R) (entity : Entity) (nodeType : NodeType)
    (computation : σ) : Job σ O :=
  { id := h.fresh, entity, nodeType
    task := .ofComputation (Hosted.connect bus.sink computation) (Hosted.budget computation) }

/-- A request that is met puts its job in the place of any other of its type. -/
theorem request_eq {bus : Bus R} (hbus : h.setup.bus = some bus) {entity : Entity}
    (hentity : h.entities.contains entity = true) (nodeType : NodeType) (computation : σ) :
    (h.request entity nodeType (some computation)).1 = { h with
      jobs := h.jobs.filter (fun job => !(job.entity == entity && job.nodeType == nodeType))
        ++ [h.started bus entity nodeType computation]
      handles := (entity, h.fresh) :: h.handles.filter (·.1 ≠ entity)
      fresh := h.fresh + 1 } := by
  unfold request started
  rw [hbus]
  dsimp only
  rw [if_pos hentity]
  unfold insertJob insertHandle
  rw [if_pos hentity]

/-- A request that is met puts a job in the place of any other of its type. -/
theorem request_of_accepts {entity : Entity} (haccepts : h.accepts entity = true)
    (nodeType : NodeType) (computation : σ) :
    ∃ job : Job σ O, job.id = h.fresh ∧ job.slot = (entity, nodeType) ∧
      job.task.state = .running ∧ job.task.cancelRequested = false ∧
      (h.request entity nodeType (some computation)).1 = { h with
        jobs := h.jobs.filter (fun job => !(job.entity == entity && job.nodeType == nodeType))
          ++ [job]
        handles := (entity, h.fresh) :: h.handles.filter (·.1 ≠ entity)
        fresh := h.fresh + 1 } := by
  obtain ⟨hbus, hentity⟩ := Bool.and_eq_true_iff.mp haccepts
  obtain ⟨bus, hbus⟩ := Option.isSome_iff_exists.mp hbus
  exact ⟨h.started bus entity nodeType computation, rfl, rfl, rfl, rfl,
    request_eq hbus hentity nodeType computation⟩

/-- A request that is not met changes nothing. -/
theorem request_of_not_accepts {entity : Entity} (haccepts : ¬ h.accepts entity = true)
    (computation : σ) : (h.request entity nodeType (some computation)).1 = h := by
  unfold request
  cases hbus : h.setup.bus with
  | none => rfl
  | some bus =>
    have hentity : ¬ h.entities.contains entity = true := by
      intro hentity
      refine haccepts (Bool.and_eq_true_iff.mpr ⟨?_, hentity⟩)
      rw [hbus]
      rfl
    dsimp only
    rw [if_neg hentity]

omit [Hosted σ R O] in
/-- Putting a new job in the place of others and a handle for it on the entity. -/
theorem Sound.attach (hs : h.Sound) {others : List (Job σ O)} {new : Job σ O} {entity : Entity}
    (hothers : others.Sublist h.jobs) (hslots : ∀ job ∈ others, job.slot ≠ new.slot)
    (hid : new.id = h.fresh) (hentity : new.entity = entity)
    (hrunning : new.task.state = .running) :
    Sound { h with
      jobs := others ++ [new]
      handles := (entity, h.fresh) :: h.handles.filter (·.1 ≠ entity)
      fresh := h.fresh + 1 } := by
  have hmem : ∀ job ∈ others ++ [new], job ∈ h.jobs ∨ job = new := by
    intro job hjob
    rcases List.mem_append.mp hjob with hother | hnew
    · exact Or.inl (hothers.mem hother)
    · exact Or.inr (List.mem_singleton.mp hnew)
  constructor
  case toTidy =>
    constructor
    case ids =>
      rw [List.map_append, List.nodup_append]
      refine ⟨hs.ids.sublist (hothers.map _), List.nodup_singleton _, ?_⟩
      intro id hid' id' hnew heq
      obtain ⟨job, hjob, rfl⟩ := List.mem_map.mp hid'
      have hfresh : job.id = h.fresh := heq.trans ((List.mem_singleton.mp hnew).trans hid)
      exact Nat.ne_of_lt (hs.below job (hothers.mem hjob)) hfresh
    case slots =>
      rw [List.map_append, List.nodup_append]
      refine ⟨hs.slots.sublist (hothers.map _), List.nodup_singleton _, ?_⟩
      intro slot hslot slot' hnew heq
      obtain ⟨job, hjob, rfl⟩ := List.mem_map.mp hslot
      exact hslots job hjob (heq.trans (List.mem_singleton.mp hnew))
  case below =>
    intro job hjob
    rcases hmem job hjob with hold | rfl
    · exact Nat.lt_succ_of_lt (hs.below job hold)
    · exact hid ▸ Nat.lt_succ_self _
  case running =>
    intro job hjob
    rcases hmem job hjob with hold | rfl
    · exact hs.running job hold
    · exact hrunning
  case named =>
    intro handle hhandle
    rcases List.mem_cons.mp hhandle with rfl | hold
    · exact Nat.lt_succ_self _
    · exact Nat.lt_succ_of_lt (hs.named handle (List.mem_filter.mp hold).1)
  case handles =>
    intro handle hhandle job hjob hnames
    rcases List.mem_cons.mp hhandle with rfl | hold
    · rcases hmem job hjob with hbefore | rfl
      · exact absurd hnames (Nat.ne_of_lt (hs.below job hbefore))
      · exact hentity
    · have hthere : handle ∈ h.handles := (List.mem_filter.mp hold).1
      rcases hmem job hjob with hbefore | rfl
      · exact hs.handles handle hthere job hbefore hnames
      · exact absurd (hid.symm.trans hnames).symm (Nat.ne_of_lt (hs.named handle hthere))

theorem triggered_request (hs : h.Sound) (entity : Entity) (nodeType : NodeType)
    (computation : σ) :
    Triggered h (.request entity nodeType (some computation))
      (h.trigger (.request entity nodeType (some computation)))
      (h.departures (.request entity nodeType (some computation))) := by
  by_cases haccepts : h.accepts entity = true
  · obtain ⟨new, hid, hslot, hrunning, hunasked, hrequest⟩ :=
      request_of_accepts haccepts nodeType computation
    obtain ⟨hentity, htype⟩ := Prod.mk.inj hslot
    have hother : ∀ job ∈ h.jobs.filter
        (fun job => !(job.entity == entity && job.nodeType == nodeType)),
        job ∈ h.jobs ∧ job.slot ≠ (entity, nodeType) := by
      intro job hjob
      obtain ⟨hmem, hne⟩ := List.mem_filter.mp hjob
      refine ⟨hmem, fun hsame => ?_⟩
      rw [Job.slot_eq_iff.mpr hsame] at hne
      exact absurd hne Bool.false_ne_true
    have hleft : h.departures (.request entity nodeType (some computation))
        = (h.jobs.filter fun job => job.entity == entity && job.nodeType == nodeType).map
          fun job => { job, fate := .replaced } := if_pos haccepts
    show Triggered h _ (h.request entity nodeType (some computation)).1 _
    rw [hleft, hrequest]
    constructor
    case sound =>
      refine hs.attach List.filter_sublist (fun job hjob => ?_) hid hentity hrunning
      exact hslot ▸ (hother job hjob).2
    case once =>
      have hparts := List.filter_append_perm
        (fun job : Job σ O => job.entity == entity && job.nodeType == nodeType) h.jobs
      have hids := hparts.map (·.id)
      rw [List.perm_iff_count] at hids ⊢
      intro id
      have hid' := hids id
      simp only [List.map_map, List.map_append, List.count_append, List.map_cons, List.map_nil,
        List.range_succ, hid, Function.comp_def] at hid' ⊢
      omega
    case comes =>
      intro job hjob
      rcases List.mem_append.mp hjob with hold | hnew
      · exact .stayed job (hother job hold).1 rfl rfl Or.inl
      · obtain rfl := List.mem_singleton.mp hnew
        subst hentity htype
        exact .started computation rfl haccepts hid hunasked
    case there =>
      intro d hd
      obtain ⟨job, hjob, rfl⟩ := List.mem_map.mp hd
      exact ⟨job, (List.mem_filter.mp hjob).1, rfl, rfl, fun hasked => hasked⟩
    case cancelled =>
      intro d hd hfate
      obtain ⟨job, hjob, rfl⟩ := List.mem_map.mp hd
      exact absurd hfate nofun
    case replaced =>
      intro d hd _
      obtain ⟨job, hjob, rfl⟩ := List.mem_map.mp hd
      obtain ⟨hmem, hsame⟩ := List.mem_filter.mp hjob
      obtain ⟨rfl, rfl⟩ := Prod.mk.inj (Job.slot_eq_iff.mp hsame)
      exact ⟨hmem, haccepts, computation, rfl⟩
  · have hleft : h.departures (.request entity nodeType (some computation)) = [] :=
      if_neg haccepts
    have hsame : h.trigger (.request entity nodeType (some computation)) = h :=
      request_of_not_accepts haccepts computation
    rw [hleft]
    exact triggered_of_same hs _ (by rw [hsame]) (by rw [hsame]) (by rw [hsame])

omit [Hosted σ R O] in
theorem triggered_cancel (hs : h.Sound) (entity : Entity) :
    Triggered h (.cancel entity) (h.cancel entity) [] := by
  unfold cancel
  split
  · exact triggered_of_same hs _ rfl rfl rfl
  · cases hhandle : h.handle? entity with
    | none => exact triggered_of_same hs _ rfl rfl rfl
    | some id =>
      have hmem : (entity, id) ∈ h.handles := by
        obtain ⟨before, after, hsplit, -⟩ := List.lookup_eq_some_iff.mp hhandle
        rw [hsplit]
        exact List.mem_append_right _ List.mem_cons_self
      dsimp only
      refine triggered_of_map hs rfl rfl rfl (fun job => ?_) (fun job => ?_) (fun job => ?_)
        (fun job hjob hasked => ?_)
      · split <;> rfl
      · split <;> rfl
      · split <;> rfl
      · by_cases hid : job.id = id
        · rw [hs.handles _ hmem job hjob hid]
          exact Or.inr rfl
        · rw [if_neg hid] at hasked
          exact Or.inl hasked

omit [Hosted σ R O] in
/-- Draining the bus has no part in what happens to jobs. -/
theorem drain_spec (h : Host σ R O) (frame : Frame R O) :
    (h.drain frame).1.jobs = h.jobs ∧ (h.drain frame).1.handles = h.handles ∧
      (h.drain frame).1.fresh = h.fresh ∧ (h.drain frame).2.finished = frame.finished ∧
      (h.drain frame).2.failed = frame.failed := by
  unfold drain
  split
  · exact ⟨rfl, rfl, rfl, rfl, rfl⟩
  · split <;> exact ⟨rfl, rfl, rfl, rfl, rfl⟩

omit [Hosted σ R O] in
/-- It does not matter in which order the jobs are. -/
theorem Sound.of_perm (hs : h.Sound) {h' : Host σ R O} (hjobs : h'.jobs.Perm h.jobs)
    (hhandles : h'.handles = h.handles) (hfresh : h'.fresh = h.fresh) : h'.Sound where
  ids := (hjobs.map _).nodup_iff.mpr hs.ids
  slots := (hjobs.map _).nodup_iff.mpr hs.slots
  below := fun job hjob => hfresh ▸ hs.below job (hjobs.subset hjob)
  running := fun job hjob => hs.running job (hjobs.subset hjob)
  named := fun handle hhandle => hfresh ▸ hs.named handle (hhandles ▸ hhandle)
  handles := fun handle hhandle job hjob =>
    hs.handles handle (hhandles ▸ hhandle) job (hjobs.subset hjob)

omit [Hosted σ R O] in
theorem Sound.drain (hs : h.Sound) (frame : Frame R O) : (h.drain frame).1.Sound := by
  obtain ⟨hjobs, hhandles, hfresh, -, -⟩ := drain_spec h frame
  exact hs.of_perm (hjobs ▸ .refl _) hhandles hfresh

omit [Hosted σ R O] in
/-- What is reported of jobs that ended, in the order they are noted. -/
theorem noted_spec (left : List (Job σ O × Ending R O)) (frame : Frame R O) :
    let after := left.foldl (fun frame entry => frame.note entry.1.entity entry.2) frame
    after.finished.toList = frame.finished.toList ++ left.filterMap (fun entry =>
        Departure.finished? { job := entry.1, fate := .ended entry.2 }) ∧
      after.failed.toList = frame.failed.toList ++ left.filterMap (fun entry =>
        Departure.failed? { job := entry.1, fate := .ended entry.2 }) := by
  induction left generalizing frame with
  | nil => exact ⟨(List.append_nil _).symm, (List.append_nil _).symm⟩
  | cons entry left ih =>
    obtain ⟨hfinished, hfailed⟩ := ih (frame.note entry.1.entity entry.2)
    obtain ⟨job, ending⟩ := entry
    refine ⟨hfinished.trans ?_, hfailed.trans ?_⟩
    · cases ending <;> simp [Frame.note, Departure.finished?]
    · cases ending <;> simp [Frame.note, Departure.failed?]

/-- What a frame does to the jobs, and what it reports. -/
theorem frame_spec (hobedient : Job.Obedient σ) (hs : h.Sound) (room : Job σ O → Nat) :
    Ran h (h.frame room).1 (h.endingsOf room h.setup.nodeTypes) ∧
      (h.frame room).2.finished.toList
        = (h.departures (.update room)).filterMap (·.finished?) ∧
      (h.frame room).2.failed.toList = (h.departures (.update room)).filterMap (·.failed?) := by
  obtain ⟨hran, hnoted⟩ := ran_types hobedient room h.setup.nodeTypes hs .empty
  obtain ⟨types, htypes⟩ : ∃ types, h.setup.nodeTypes.foldl
    (fun (h, frame) nodeType => runType room nodeType h frame) (h, Frame.empty) = types := ⟨_, rfl⟩
  have hframe : h.frame room = types.1.drain types.2 := by
    rw [← htypes]
    rfl
  rw [htypes] at hran hnoted
  obtain ⟨hjobs, hhandles, hfresh, hfinished, hfailed⟩ := drain_spec types.1 types.2
  obtain ⟨hfinished', hfailed'⟩ := noted_spec (h.endingsOf room h.setup.nodeTypes) .empty
  rw [hframe]
  refine ⟨?_, ?_, ?_⟩
  · constructor
    case sound => exact hran.sound.drain types.2
    case fresh => exact hfresh.trans hran.fresh
    case handles => exact hhandles ▸ hran.handles
    case stayed => exact hjobs ▸ hran.stayed
    case ended => exact hran.ended
    case asked => exact hran.asked
    case once => exact hjobs ▸ hran.once
  · unfold departures
    rw [hfinished, hnoted, hfinished', List.filterMap_map]
    rfl
  · unfold departures
    rw [hfailed, hnoted, hfailed', List.filterMap_map]
    rfl

theorem triggered_update (hobedient : Job.Obedient σ) (hs : h.Sound) (room : Job σ O → Nat) :
    Triggered h (.update room) (h.frame room).1 (h.departures (.update room)) := by
  obtain ⟨hran, -, -⟩ := frame_spec hobedient hs room
  constructor
  case sound => exact hran.sound
  case once =>
    rw [hran.fresh]
    unfold departures
    rw [List.map_map]
    exact hran.once.append_right _
  case comes =>
    intro job hjob
    obtain ⟨old, hmem, hlater⟩ := hran.stayed job hjob
    exact .stayed old hmem hlater.id hlater.slot fun hasked => Or.inl (hlater.asked hasked)
  case there =>
    intro d hd
    obtain ⟨entry, hentry, rfl⟩ := List.mem_map.mp hd
    exact hran.ended entry hentry
  case cancelled =>
    intro d hd hfate
    obtain ⟨entry, hentry, rfl⟩ := List.mem_map.mp hd
    exact hran.asked entry hentry (Fate.ended.inj hfate)
  case replaced =>
    intro d hd hfate
    obtain ⟨entry, hentry, rfl⟩ := List.mem_map.mp hd
    exact absurd hfate nofun

/-- What a trigger reports is what it takes off the entities and has something to report of. -/
theorem reported_spec (hobedient : Job.Obedient σ) (hs : h.Sound) (t : Trigger σ O) :
    (h.frame? t).toList.flatMap (·.finished.toList) = (h.departures t).filterMap (·.finished?) ∧
      (h.frame? t).toList.flatMap (·.failed.toList)
        = (h.departures t).filterMap (·.failed?) := by
  cases t with
  | spawn entity => exact ⟨rfl, rfl⟩
  | cancel entity => exact ⟨rfl, rfl⟩
  | update room =>
    obtain ⟨-, hfinished, hfailed⟩ := frame_spec hobedient hs room
    exact ⟨(List.append_nil _).trans hfinished, (List.append_nil _).trans hfailed⟩
  | request entity nodeType computation =>
    have hsilent : ∀ d ∈ h.departures (.request entity nodeType computation),
        d.finished? = none ∧ d.failed? = none := by
      intro d hd
      cases computation with
      | none => exact absurd hd List.not_mem_nil
      | some computation =>
        dsimp only [departures] at hd
        split at hd
        · obtain ⟨job, -, rfl⟩ := List.mem_map.mp hd
          exact ⟨rfl, rfl⟩
        · exact absurd hd List.not_mem_nil
    constructor
    · exact (List.filterMap_eq_nil_iff.mpr fun d hd => (hsilent d hd).1).symm
    · exact (List.filterMap_eq_nil_iff.mpr fun d hd => (hsilent d hd).2).symm

/-- What any trigger does to the jobs. -/
theorem triggered (hobedient : Job.Obedient σ) (hs : h.Sound) (t : Trigger σ O) :
    Triggered h t (h.trigger t) (h.departures t) := by
  cases t with
  | spawn entity => exact triggered_of_same hs _ rfl rfl rfl
  | request entity nodeType computation =>
    cases computation with
    | none => exact triggered_of_same hs _ rfl rfl rfl
    | some computation => exact triggered_request hs entity nodeType computation
  | cancel entity => exact triggered_cancel hs entity
  | update room => exact triggered_update hobedient hs room

end Espalier.Host
