import Espalier.Host.Setup
import Espalier.Search

/-!
# Running searches inside a host

A `Host` runs searches as jobs attached to entities, one job for each entity and type of nodes,
and advances each of them by one burst a frame. A request starts a job and leaves a cancel handle
on the entity. The handle names the job it was made for; jobs of every type share the one handle
an entity can have, and a job that ends takes the handle along, whichever job that names.

After the bursts of a frame the bus is drained: what it held becomes the frame's messages.

Two things are simpler here than in a host at large. Nothing is triggered inside a frame by those
who observe the end of a job: whatever they ask for comes before the next frame. And a request is
met for every type of nodes, also for one without a plugin, where nobody would observe it; the job
is attached then, but no frame runs it until the plugin is added.
-/

namespace Espalier

/-- A computation that can run as a job. -/
class Hosted (σ : Type) (R O : outParam Type) extends Stepwise σ R O where
  /-- The time one burst may take, in nanoseconds. -/
  budget : σ → Nat
  progress : σ → R
  /-- Lets events go into a sink, in place of any other. -/
  connect : Sink R → σ → σ
  /-- Takes the events that wait in the sink. -/
  collect : σ → Array (Event R) × σ

instance {N R ρ κ : Type} [Scalar R] [RandomSource ρ] [CostModel κ N R] :
    Hosted (Search N R ρ κ (Sink R)) R (Outcome N R) where
  budget s := s.config.budget
  progress s := s.progress
  connect sink s := { s with watcher := sink }
  collect s :=
    let (events, watcher) := s.watcher.receive
    (events, { s with watcher })

/-- The number of a job. -/
abbrev JobId := Nat

/-- A task attached to an entity. -/
structure Job (σ O : Type) where
  id : JobId
  entity : Entity
  nodeType : NodeType
  task : Task σ O Unit

/-- What happened in a frame, in order. -/
structure Frame (R O : Type) where
  messages : Array (Entity × Event R)
  finished : Array (Entity × O × TaskStats)
  failed : Array (Entity × Failure R)

def Frame.empty {R O : Type} : Frame R O := { messages := #[], finished := #[], failed := #[] }

/-- The end of a job. -/
inductive Ending (R O : Type) where
  | finished (output : O) (stats : TaskStats)
  | failed (failure : Failure R)
  | cancelled

/-- Adds the end of an entity's job to a frame. -/
def Frame.note {R O : Type} (f : Frame R O) (entity : Entity) : Ending R O → Frame R O
  | .finished output stats => { f with finished := f.finished.push (entity, output, stats) }
  | .failed failure => { f with failed := f.failed.push (entity, failure) }
  | .cancelled => f

/-- A host with its entities and their jobs. -/
structure Host (σ R O : Type) where
  setup : Setup R
  entities : List Entity
  jobs : List (Job σ O)
  /-- The cancel handles by entity. -/
  handles : List (Entity × JobId)
  /-- The jobs that were asked to cancel, running or not. -/
  cancelled : List JobId
  fresh : JobId

namespace Host

variable {σ R O : Type}

def ofSetup (setup : Setup R) : Host σ R O :=
  { setup, entities := [], jobs := [], handles := [], cancelled := [], fresh := 0 }

/-! ## Entities and their jobs -/

def spawn (h : Host σ R O) (entity : Entity) : Host σ R O :=
  { h with entities := entity :: h.entities }

/-- Removes an entity with everything attached to it. -/
def despawn (h : Host σ R O) (entity : Entity) : Host σ R O :=
  { h with
    entities := h.entities.filter (· ≠ entity)
    jobs := h.jobs.filter (·.entity ≠ entity)
    handles := h.handles.filter (·.1 ≠ entity) }

/-- The job of an entity for a type of nodes. -/
def job? (h : Host σ R O) (entity : Entity) (nodeType : NodeType) : Option (Job σ O) :=
  h.jobs.find? fun job => job.entity == entity && job.nodeType == nodeType

/-- The job that the cancel handle of an entity names. -/
def handle? (h : Host σ R O) (entity : Entity) : Option JobId := h.handles.lookup entity

def isCancelled (h : Host σ R O) (id : JobId) : Bool := h.cancelled.contains id

/-- Attaches a task to an entity as its job for a type of nodes, in place of any other. -/
def insertJob (h : Host σ R O) (entity : Entity) (nodeType : NodeType) (task : Task σ O Unit) :
    Host σ R O :=
  if h.entities.contains entity then
    let others := h.jobs.filter fun job => !(job.entity == entity && job.nodeType == nodeType)
    { h with
      jobs := others ++ [{ id := h.fresh, entity, nodeType, task }]
      fresh := h.fresh + 1 }
  else h

/-- Leaves a cancel handle on an entity, in place of any other. -/
def insertHandle (h : Host σ R O) (entity : Entity) (id : JobId) : Host σ R O :=
  { h with handles := (entity, id) :: h.handles.filter (·.1 ≠ entity) }

/-- Starts a job for a request that still holds its computation. The request is empty
afterwards, so that the same request starts one job at most. -/
def request [Hosted σ R O] (h : Host σ R O) (entity : Entity) (nodeType : NodeType)
    (request : Option σ) : Host σ R O × Option σ :=
  match request, h.setup.bus with
  | none, _ => (h, none)
  | some computation, none => (h, some computation)
  | some computation, some bus =>
    if h.entities.contains entity then
      let id := h.fresh
      let task := Task.ofComputation (Hosted.connect bus.sink computation)
        (Hosted.budget computation)
      ((h.insertJob entity nodeType task).insertHandle entity id, none)
    else (h, none)

/-! ## Cancelling -/

def cancelJob (h : Host σ R O) (id : JobId) : Host σ R O :=
  { h with
    jobs := h.jobs.map fun job => if job.id = id then { job with task := job.task.cancel } else job
    cancelled := id :: h.cancelled }

/-- Asks the job that an entity's cancel handle names to cancel, provided that anyone observes
such wishes. -/
def cancel (h : Host σ R O) (entity : Entity) : Host σ R O :=
  if h.setup.cancelObservers = 0 then h else
  match h.handle? entity with
  | none => h
  | some id => h.cancelJob id

/-! ## Frames -/

/-- Puts events onto the bus, if there is one. -/
def post (h : Host σ R O) (entity : Entity) (events : Array (Event R)) : Host σ R O :=
  let setup := { h.setup with bus := h.setup.bus.map (·.post entity events) }
  { h with setup }

def update (h : Host σ R O) (job : Job σ O) : Host σ R O :=
  { h with jobs := h.jobs.map fun other => if other.id = job.id then job else other }

/-- How a burst ended a job, if it did. -/
def ending? (result : Except (Failure R) Burst) (task : Task σ O Unit) : Option (Ending R O) :=
  match result with
  | .error failure => some (.failed failure)
  | .ok .pending => none
  | .ok .cancelled => some .cancelled
  | .ok .completed => some (match task.output with
    | some output => .finished output task.stats
    | none => .cancelled)

/-- Runs one burst of a job, with room for some steps after the first. -/
def runJob [Hosted σ R O] (room : Job σ O → Nat) (h : Host σ R O) (job : Job σ O) :
    Host σ R O × Option (Ending R O) :=
  let report : BurstReport σ R O Unit := job.task.runBurst (room job)
  let (events, computation) := Hosted.collect report.task.computation
  let task := { report.task with computation }
  ((h.update { job with task }).post job.entity events, ending? report.result task)

/-- Removes what a job that ended leaves on its entity: the job of that type, and the handle. -/
def detach (h : Host σ R O) (entity : Entity) (nodeType : NodeType) : Host σ R O :=
  { h with
    jobs := h.jobs.filter fun job => !(job.entity == entity && job.nodeType == nodeType)
    handles := h.handles.filter (·.1 ≠ entity) }

/-- Runs a burst of every job of one type of nodes. Jobs that ended are removed after all have
run. -/
def runType [Hosted σ R O] (room : Job σ O → Nat) (nodeType : NodeType) (h : Host σ R O)
    (frame : Frame R O) : Host σ R O × Frame R O :=
  let jobs := h.jobs.filter (·.nodeType == nodeType)
  let (h, endings) := jobs.foldl
    (fun (h, endings) job =>
      let (h, ending) := h.runJob room job
      (h, endings ++ (ending.map fun ending => (job.entity, ending)).toList))
    (h, [])
  endings.foldl
    (fun (h, frame) (entity, ending) => (h.detach entity nodeType, frame.note entity ending))
    (h, frame)

/-- Drains the bus into a frame's messages, provided that a drain is registered. -/
def drain (h : Host σ R O) (frame : Frame R O) : Host σ R O × Frame R O :=
  if h.setup.drains = 0 then (h, frame) else
  match h.setup.bus with
  | none => (h, frame)
  | some bus =>
    let (messages, bus) := bus.receive
    let setup := { h.setup with bus := some bus }
    ({ h with setup }, { frame with messages := frame.messages ++ messages })

def frame [Hosted σ R O] (room : Job σ O → Nat) (h : Host σ R O) : Host σ R O × Frame R O :=
  let (h, frame) := h.setup.nodeTypes.foldl
    (fun (h, frame) nodeType => runType room nodeType h frame) (h, Frame.empty)
  h.drain frame

/-- Runs frames until no entity has a job, at least one and at most `limit`. -/
def runUntilIdle [Hosted σ R O] (room : Job σ O → Nat) :
    (limit : Nat) → Host σ R O → Host σ R O × List (Frame R O)
  | 0, h => (h, [])
  | limit + 1, h =>
    let (h, frame) := h.frame room
    if h.jobs.isEmpty then (h, [frame])
    else
      let (h, frames) := runUntilIdle room limit h
      (h, frame :: frames)

end Host

end Espalier
