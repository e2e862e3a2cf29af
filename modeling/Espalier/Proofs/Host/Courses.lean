import Espalier.Proofs.Host.Channel
import Espalier.Proofs.Host.Ledger

/-!
# What may happen to a host

A `Course` is what may happen to a host: triggers reach it one after another, its jobs run in no
particular order, and events that jobs report in one frame get between each other. A `Record` keeps
what can be known of a course from outside: the requests that were met, the entities for which
cancellation was asked for, and the frames.
-/

namespace Espalier.Host

variable {σ R O : Type}

/-! ## Records -/

/-- A request that was met. -/
structure Request (σ : Type) where
  entity : Entity
  nodeType : NodeType
  computation : σ
  /-- How many frames there had been. -/
  before : Nat

/-- What is known of a host from outside. -/
structure Record (σ R O : Type) where
  /-- The requests that were met. -/
  requests : List (Request σ)
  /-- The entities for which cancellation was asked for while they had a job. -/
  asked : List Entity
  frames : List (Frame R O)

namespace Record

def empty : Record σ R O := { requests := [], asked := [], frames := [] }

/-- The messages of all frames. -/
def messages (record : Record σ R O) : List (Entity × Event R) :=
  record.frames.flatMap (·.messages.toList)

/-- The jobs that finished in some frame. -/
def finished (record : Record σ R O) : List (Entity × O × TaskStats) :=
  record.frames.flatMap (·.finished.toList)

/-- The jobs that failed in some frame. -/
def failed (record : Record σ R O) : List (Entity × Failure R) :=
  record.frames.flatMap (·.failed.toList)

def add (record : Record σ R O) (frame : Frame R O) : Record σ R O :=
  { record with frames := record.frames ++ [frame] }

variable {record : Record σ R O} {frame : Frame R O}

@[simp]
theorem messages_add : (record.add frame).messages = record.messages ++ frame.messages.toList := by
  simp [messages, add]

@[simp]
theorem finished_add : (record.add frame).finished = record.finished ++ frame.finished.toList := by
  simp [finished, add]

@[simp]
theorem failed_add : (record.add frame).failed = record.failed ++ frame.failed.toList := by
  simp [failed, add]

/-- Whatever is known of ends is known in the other record. -/
structure Within (record record' : Record σ R O) : Prop where
  asked : record.asked ⊆ record'.asked
  finished : record.finished ⊆ record'.finished
  failed : record.failed ⊆ record'.failed

theorem Within.rfl : Within record record :=
  ⟨List.Subset.refl _, List.Subset.refl _, List.Subset.refl _⟩

/-- The record after another trigger. -/
def next [Hosted σ R O] (record : Record σ R O) (h : Host σ R O) : Trigger σ O → Record σ R O
  | .request entity nodeType (some computation) =>
    if h.accepts entity then
      let before := record.frames.length
      { record with requests := record.requests ++ [{ entity, nodeType, computation, before }] }
    else record
  | .cancel entity =>
    if h.jobs.any (·.entity == entity) then { record with asked := record.asked ++ [entity] }
    else record
  | .update room => record.add (h.frame room).2
  | _ => record

theorem requests_next [Hosted σ R O] (record : Record σ R O) (h : Host σ R O) (t : Trigger σ O) :
    record.requests <+: (record.next h t).requests := by
  unfold next
  split
  · split
    · exact List.prefix_append _ _
    · exact List.prefix_refl _
  · split <;> exact List.prefix_refl _
  · exact List.prefix_refl _
  · exact List.prefix_refl _

theorem next_cancel [Hosted σ R O] (record : Record σ R O) (h : Host σ R O) (entity : Entity) :
    (record.next h (.cancel entity)).requests = record.requests ∧
      (record.next h (.cancel entity)).frames = record.frames ∧
      record.asked ⊆ (record.next h (.cancel entity)).asked := by
  unfold next
  dsimp only
  split
  · exact ⟨rfl, rfl, List.subset_append_left _ _⟩
  · exact ⟨rfl, rfl, .refl _⟩

/-- How many bursts the job of a request is due if it has not ended: one for every frame and every
plugin of its type. -/
def due (setup : Setup R) (record : Record σ R O) (request : Request σ) : Nat :=
  (record.frames.length - request.before) * setup.nodeTypes.count request.nodeType

end Record

/-! ## Courses -/

/-- What may have happened to a host since it was set up. -/
inductive Course [Hosted σ R O] (setup : Setup R) : Record σ R O → Host σ R O → Prop where
  | start : Course setup .empty (ofSetup setup)
  | trigger {record : Record σ R O} {h : Host σ R O} (t : Trigger σ O) :
    Course setup record h → Course setup (record.next h t) (h.trigger t)
  /-- Jobs run in any order, and so do the types of jobs. -/
  | reorder {record : Record σ R O} {h : Host σ R O} {jobs : List (Job σ O)}
    {nodeTypes : List NodeType} (sameJobs : jobs.Perm h.jobs)
    (sameTypes : nodeTypes.Perm h.setup.nodeTypes) : Course setup record h →
      Course setup record { h with jobs, setup := { h.setup with nodeTypes } }
  /-- Jobs that run at the same time take turns with their events. -/
  | mix {record : Record σ R O} {h : Host σ R O} {frame : Frame R O}
    {messages : Array (Entity × Event R)} (mixed : Mixed frame.messages.toList messages.toList) :
    Course setup (record.add frame) h → Course setup (record.add { frame with messages }) h

/-- What triggers come to, when the jobs run in the order they were started. -/
def run [Hosted σ R O] (setup : Setup R) (triggers : List (Trigger σ O)) :
    Record σ R O × Host σ R O :=
  triggers.foldl (fun (record, h) t => (record.next h t, h.trigger t)) (.empty, ofSetup setup)

theorem course_run [Hosted σ R O] (setup : Setup R) (triggers : List (Trigger σ O)) :
    Course setup (run setup triggers).1 (run setup triggers).2 :=
  List.foldlRecOn (motive := fun after : Record σ R O × Host σ R O => Course setup after.1 after.2)
    triggers _ .start fun _ hafter t _ => hafter.trigger t

/-! ## Jobs on their entities -/

/-- No job is attached to the entity. -/
def Free (h : Host σ R O) (entity : Entity) : Prop := ∀ job ∈ h.jobs, job.entity ≠ entity

/-- A cancellation moves no job. -/
theorem cancel_shape (h : Host σ R O) (entity : Entity) :
    ∃ f, (h.cancel entity).jobs = h.jobs.map f ∧ ∀ job, (f job).slot = job.slot ∧
      (f job).task.computation = job.task.computation ∧ (f job).task.stats = job.task.stats := by
  have hsame : ∃ f, h.jobs = h.jobs.map f ∧ ∀ job, (f job).slot = job.slot ∧
      (f job).task.computation = job.task.computation ∧ (f job).task.stats = job.task.stats :=
    ⟨id, (List.map_id _).symm, fun job => ⟨rfl, rfl, rfl⟩⟩
  unfold cancel
  split
  · exact hsame
  · split
    · exact hsame
    · refine ⟨_, rfl, fun job => ?_⟩
      split <;> exact ⟨rfl, rfl, rfl⟩

variable [Hosted σ R O] {h : Host σ R O} {job : Job σ O} {room : Job σ O → Nat}
  {nodeType : NodeType} {frame : Frame R O}

/-- What the jobs of a type running adds to what is known. -/
theorem Record.noted_runType (record : Record σ R O) (hh : h.Tidy) (room : Job σ O → Nat)
    (nodeType : NodeType) (frame : Frame R O) :
    (record.add frame).Within (record.add (Host.runType room nodeType h frame).2) ∧
      (∀ job output stats, (job, Ending.finished output stats) ∈ h.endings room nodeType →
        (job.entity, output, stats)
          ∈ (record.add (Host.runType room nodeType h frame).2).finished) ∧
      ∀ job failure, (job, Ending.failed failure) ∈ h.endings room nodeType →
        (job.entity, failure) ∈ (record.add (Host.runType room nodeType h frame).2).failed := by
  obtain ⟨-, -, -, hframe⟩ := runType_spec room nodeType hh frame
  obtain ⟨hfinished, hfailed⟩ := noted_spec (h.endings room nodeType) frame
  rw [hframe]
  refine ⟨⟨List.Subset.refl _, ?_, ?_⟩, ?_, ?_⟩
  · rw [finished_add, finished_add, hfinished, ← List.append_assoc]
    exact List.subset_append_left _ _
  · rw [failed_add, failed_add, hfailed, ← List.append_assoc]
    exact List.subset_append_left _ _
  · intro job output stats hends
    rw [finished_add, hfinished, ← List.append_assoc]
    exact List.mem_append_right _ (List.mem_filterMap.mpr ⟨_, hends, rfl⟩)
  · intro job failure hends
    rw [failed_add, hfailed, ← List.append_assoc]
    exact List.mem_append_right _ (List.mem_filterMap.mpr ⟨_, hends, rfl⟩)

/-- What is left of a job is attached. -/
theorem mem_runType {old : Job σ O} (hh : h.Tidy) (hold : old ∈ h.jobs)
    (hadvance : old.advance room nodeType = some job) :
    job ∈ (runType room nodeType h frame).1.jobs := by
  obtain ⟨hjobs, -, -, -⟩ := runType_spec room nodeType hh frame
  rw [hjobs]
  exact List.mem_filterMap.mpr ⟨old, hold, hadvance⟩

/-- No job comes to an entity by others running. -/
theorem Free.runType {entity : Entity} (hfree : h.Free entity) (hh : h.Tidy) (frame : Frame R O) :
    (Host.runType room nodeType h frame).1.Free entity := by
  obtain ⟨hjobs, -, -, -⟩ := runType_spec room nodeType hh frame
  intro job hjob
  rw [hjobs] at hjob
  obtain ⟨old, hold, hadvance⟩ := List.mem_filterMap.mp hjob
  rw [(Prod.mk.inj (advance_same hadvance).2).1]
  exact hfree old hold

end Espalier.Host
