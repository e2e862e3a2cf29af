import Espalier.Proofs.Host.Frames

/-!
# What the jobs put on the bus

All jobs of a host report onto one bus. `eventsOf` tells the events of an entity from those of the
others, and of what some jobs put on the bus it finds the events of the entity's own job, no more
and no less (`eventsOf_posted_of_mem`). Jobs of different types may run at the same time, and then
their events get between each other: `Mixed` allows for that, and no entity can tell the difference
(`Mixed.eventsOf_eq`).

What a frame does to the setup is nothing but this: events are put on the bus and taken off again.
-/

namespace Espalier

namespace Host

/-! ## The events of an entity -/

section Posts

variable {R : Type} {posts mixed : List (Entity × Event R)}

/-- The events that come from the job of an entity. -/
def eventsOf (entity : Entity) (posts : List (Entity × Event R)) : List (Event R) :=
  posts.filterMap fun post => if post.1 = entity then some post.2 else none

@[simp]
theorem eventsOf_append (entity : Entity) (posts later : List (Entity × Event R)) :
    eventsOf entity (posts ++ later) = eventsOf entity posts ++ eventsOf entity later :=
  List.filterMap_append

theorem eventsOf_cons (entity : Entity) (post : Entity × Event R)
    (posts : List (Entity × Event R)) :
    eventsOf entity (post :: posts) = eventsOf entity [post] ++ eventsOf entity posts :=
  eventsOf_append entity [post] posts

theorem eventsOf_own (entity : Entity) (events : List (Event R)) :
    eventsOf entity (events.map (entity, ·)) = events := by
  unfold eventsOf
  rw [List.filterMap_map]
  exact (List.filterMap_congr fun event _ => if_pos rfl).trans List.filterMap_some

theorem eventsOf_other {entity other : Entity} (hother : other ≠ entity)
    (events : List (Event R)) : eventsOf entity (events.map (other, ·)) = [] := by
  unfold eventsOf
  rw [List.filterMap_map]
  exact List.filterMap_eq_nil_iff.mpr fun event _ => if_neg hother

/-- The same events in another order, in which those of each entity are as they were. -/
inductive Mixed : List (Entity × Event R) → List (Entity × Event R) → Prop where
  | same (posts : List (Entity × Event R)) : Mixed posts posts
  | swap (before : List (Entity × Event R)) (first second : Entity × Event R)
    (later : List (Entity × Event R)) (distinct : first.1 ≠ second.1) :
    Mixed (before ++ first :: second :: later) (before ++ second :: first :: later)
  | trans {posts mixed more : List (Entity × Event R)} :
    Mixed posts mixed → Mixed mixed more → Mixed posts more

theorem Mixed.eventsOf_eq (h : Mixed posts mixed) (entity : Entity) :
    eventsOf entity mixed = eventsOf entity posts := by
  induction h with
  | same => rfl
  | swap before first second later distinct =>
    -- One of the two is of another entity.
    have hone : eventsOf entity [first] = [] ∨ eventsOf entity [second] = [] := by
      by_cases hfirst : first.1 = entity
      · exact Or.inr (eventsOf_other (fun hsecond => distinct (hfirst.trans hsecond.symm))
          [second.2])
      · exact Or.inl (eventsOf_other hfirst [first.2])
    have hpair (one other : Entity × Event R) : eventsOf entity (before ++ one :: other :: later)
        = eventsOf entity before ++ (eventsOf entity [one] ++ eventsOf entity [other])
          ++ eventsOf entity later := by
      rw [eventsOf_append, eventsOf_cons _ one, eventsOf_cons _ other later, List.append_assoc,
        List.append_assoc]
    rw [hpair, hpair]
    rcases hone with hnil | hnil <;> rw [hnil, List.append_nil, List.nil_append]
  | trans _ _ ih ih' => exact ih'.trans ih

end Posts

end Host

variable {σ R O : Type} [Hosted σ R O] {room : Job σ O → Nat} {jobs : List (Job σ O)}
  {job : Job σ O}

/-! ## What bursts put on the bus -/

/-- The events that a burst of a job puts on the bus. -/
def Job.events (room : Job σ O → Nat) (job : Job σ O) : Array (Event R) :=
  (Hosted.collect (R := R) (O := O) (job.task.runBurst (R := R) (room job)).task.computation).1

namespace Host

/-- What bursts of some jobs put on the bus, one job after another. -/
def posted (room : Job σ O → Nat) (jobs : List (Job σ O)) : List (Entity × Event R) :=
  jobs.flatMap fun job => (job.events room).toList.map (job.entity, ·)

/-- An entity without a job among those that run has no events. -/
theorem eventsOf_posted_of_not_mem {entity : Entity} (hnone : ∀ job ∈ jobs, job.entity ≠ entity) :
    eventsOf entity (posted room jobs) = [] := by
  induction jobs with
  | nil => rfl
  | cons job jobs ih =>
    obtain ⟨hjob, hjobs⟩ := List.forall_mem_cons.mp hnone
    show eventsOf entity ((job.events room).toList.map (job.entity, ·) ++ posted room jobs) = []
    rw [eventsOf_append, eventsOf_other hjob, ih hjobs]
    rfl

/-- Jobs do not mix: an entity has the events of its own job. -/
theorem eventsOf_posted_of_mem (hentities : (jobs.map (·.entity)).Nodup) (hjob : job ∈ jobs) :
    eventsOf job.entity (posted room jobs) = (job.events room).toList := by
  induction jobs with
  | nil => exact absurd hjob List.not_mem_nil
  | cons first jobs ih =>
    obtain ⟨hfirst, hentities⟩ := List.nodup_cons.mp hentities
    show eventsOf job.entity
      ((first.events room).toList.map (first.entity, ·) ++ posted room jobs) = _
    rw [eventsOf_append]
    rcases List.mem_cons.mp hjob with rfl | hlater
    · have hnone : ∀ later ∈ jobs, later.entity ≠ job.entity := fun later hlater hsame =>
        hfirst (List.mem_map.mpr ⟨later, hlater, hsame⟩)
      rw [eventsOf_own, eventsOf_posted_of_not_mem hnone, List.append_nil]
    · have hother : first.entity ≠ job.entity := fun hsame =>
        hfirst (List.mem_map.mpr ⟨job, hlater, hsame.symm⟩)
      rw [eventsOf_other hother, ih hentities hlater, List.nil_append]

end Host

namespace Host

/-- Messages come from the bus, not from jobs that run or end. -/
theorem messages_runType (room : Job σ O → Nat) (nodeType : NodeType) (h : Host σ R O)
    (frame : Frame R O) : (runType room nodeType h frame).2.messages = frame.messages := by
  unfold runType
  dsimp only
  rw [detachAll_eq]
  refine List.foldlRecOn (motive := fun after : Frame R O => after.messages = frame.messages)
    _ _ rfl fun after hafter entry _ => ?_
  cases entry.2 <;> exact hafter

end Host

/-! ## What becomes of the setup -/

omit [Hosted σ R O] in
/-- A setup with more on its bus. -/
def Setup.posting (s : Setup R) (posts : List (Entity × Event R)) : Setup R :=
  { s with bus := s.bus.map fun bus => { bus with waiting := bus.waiting ++ posts.toArray } }

theorem Setup.posting_nil (s : Setup R) : s.posting [] = s := by
  unfold posting
  cases hbus : s.bus with
  | none => rw [Option.map_none, ← hbus]
  | some bus => simp [← hbus]

theorem Setup.posting_append (s : Setup R) (posts later : List (Entity × Event R)) :
    s.posting (posts ++ later) = (s.posting posts).posting later := by
  unfold posting
  cases s.bus with
  | none => rfl
  | some bus => simp

namespace Host

theorem setup_request (h : Host σ R O) (entity : Entity) (nodeType : NodeType)
    (request : Option σ) : (h.request entity nodeType request).1.setup = h.setup := by
  unfold Host.request
  split
  · rfl
  · rfl
  · dsimp only
    unfold insertJob
    split <;> rfl

omit [Hosted σ R O] in
theorem setup_cancel (h : Host σ R O) (entity : Entity) : (h.cancel entity).setup = h.setup := by
  unfold cancel
  split
  · rfl
  · split <;> rfl

theorem setup_runJob (room : Job σ O → Nat) (h : Host σ R O) (job : Job σ O) :
    (h.runJob room job).1.setup
      = h.setup.posting ((job.events room).toList.map (job.entity, ·)) := by
  have hpost : ((job.events room).toList.map (job.entity, ·)).toArray
      = (job.events room).map (job.entity, ·) := by
    rw [← Array.toList_map]
  unfold Setup.posting
  rw [hpost]
  rfl

/-- Some jobs that run one after another put their events on the bus, in order. -/
theorem setup_runJobs (room : Job σ O → Nat) (running : List (Job σ O)) (h : Host σ R O)
    (before : List (Entity × Ending R O)) :
    (running.foldl
      (fun (h, endings) job =>
        let (h, ending) := h.runJob room job
        (h, endings ++ (ending.map fun ending => (job.entity, ending)).toList))
      (h, before)).1.setup = h.setup.posting (posted room running) := by
  induction running generalizing h before with
  | nil => exact h.setup.posting_nil.symm
  | cons job running ih =>
    refine (ih (h.runJob room job).1 _).trans ?_
    rw [setup_runJob, ← Setup.posting_append]
    rfl

theorem setup_runType (room : Job σ O → Nat) (nodeType : NodeType) (h : Host σ R O)
    (frame : Frame R O) :
    (runType room nodeType h frame).1.setup
      = h.setup.posting (posted room (h.jobs.filter (·.nodeType == nodeType))) := by
  have hdetached (ended : List (Entity × Ending R O)) (h : Host σ R O) :
      (ended.foldl (fun h entry => h.detach entry.1 nodeType) h).setup = h.setup :=
    List.foldlRecOn (motive := fun after : Host σ R O => after.setup = h.setup) ended _ rfl
      fun _ hafter _ _ => hafter
  unfold runType
  dsimp only
  rw [detachAll_eq]
  exact (hdetached _ _).trans (setup_runJobs room _ h [])

end Host

end Espalier
