import Espalier.Proofs.Host.Bursts
import Espalier.Proofs.Host.Courses

/-!
# What is delivered for a request

With one job to an entity, whatever the messages of other entities in between, the messages of an
entity are what its search reports when it runs alone, as far as it has come, of the kinds the bus
was told to report (`messages_exact`). `Standing` says how far that is.

`Delivering` is the invariant that carries this through a frame, in the course of which a part of
the events waits on the bus: each type of jobs that runs puts its events there, and the drain turns
them into messages.
-/

namespace Espalier.Host

/-! ## How a request stands -/

variable {N R ρ κ : Type} [Scalar R] [RandomSource ρ] [CostModel κ N R]
  {kinds : Option (List EventKind)} {nodeTypes : List NodeType} {nodeType : NodeType}
  {h h' : Host (Search N R ρ κ (Sink R)) R (Outcome N R)}
  {job : Job (Search N R ρ κ (Sink R)) (Outcome N R)}
  {room : Job (Search N R ρ κ (Sink R)) (Outcome N R) → Nat}
  {record record' : Record (Search N R ρ κ (Sink R)) R (Outcome N R)}
  {frame : Frame R (Outcome N R)} {waiting waiting' : List (Entity × Event R)}
  {due due' : Request (Search N R ρ κ (Sink R)) → Nat} {bursts bursts' : Nat}
  {request : Request (Search N R ρ κ (Sink R))} {messages : List (Event R)}

/-- How a request stands whose job is due some bursts, and what messages its entity has. -/
inductive Standing (kinds : Option (List EventKind))
    (h : Host (Search N R ρ κ (Sink R)) R (Outcome N R))
    (record : Record (Search N R ρ κ (Sink R)) R (Outcome N R)) (bursts : Nat)
    (request : Request (Search N R ρ κ (Sink R))) (messages : List (Event R)) : Prop where
  /-- The job runs, and has come at least as many steps as bursts are due. -/
  | running (n : Nat) (due : bursts ≤ n)
    (job : Job (Search N R ρ κ (Sink R)) (Outcome N R)) (there : job ∈ h.jobs)
    (slot : job.slot = (request.entity, request.nodeType))
    (follows : job.Follows kinds request.computation n)
    (exact : messages = request.computation.heard kinds n)
  /-- The job has taken all its steps and finished. -/
  | finished (n : Nat) (output : Outcome N R) (stats : TaskStats)
    (reported : (request.entity, output, stats) ∈ record.finished) (steps : stats.steps = n + 1)
    (underway : request.computation.Underway n)
    (last : (request.computation.after n).step.1 = .ok (.done output))
    (free : h.Free request.entity) (exact : messages = request.computation.heard kinds (n + 1))
  /-- The job has failed in a step. -/
  | failed (n : Nat) (failure : Failure R)
    (reported : (request.entity, failure) ∈ record.failed)
    (underway : request.computation.Underway n)
    (last : (request.computation.after n).step.1 = .error failure)
    (free : h.Free request.entity) (exact : messages = request.computation.heard kinds (n + 1))
  /-- The job has been cancelled on its way. -/
  | cancelled (n : Nat) (asked : request.entity ∈ record.asked)
    (underway : request.computation.Underway n) (free : h.Free request.entity)
    (exact : messages = request.computation.heard kinds n)

/-- Nothing changes for a request whose job, if it runs, stays where it has come. -/
theorem Standing.carry (hs : Standing kinds h record bursts request messages)
    (hwithin : record.Within record')
    (hstays : ∀ job ∈ h.jobs, job.slot = (request.entity, request.nodeType) →
      bursts' ≤ bursts ∧ ∃ job' ∈ h'.jobs, job'.slot = job.slot ∧
        job'.task.computation = job.task.computation ∧ job'.task.stats = job.task.stats)
    (hfree : h.Free request.entity → h'.Free request.entity) :
    Standing kinds h' record' bursts' request messages := by
  cases hs with
  | running n due job there slot follows exact =>
    obtain ⟨hbursts, job', hthere, hslot, hcomputation, hstats⟩ := hstays job there slot
    refine .running n (Nat.le_trans hbursts due) job' hthere (hslot.trans slot)
      ⟨?_, ?_, follows.underway⟩ exact
    · rw [hcomputation]
      exact follows.computation
    · rw [hstats]
      exact follows.steps
  | finished n output stats reported steps underway last free exact =>
    exact .finished n output stats (hwithin.finished reported) steps underway last (hfree free) exact
  | failed n failure reported underway last free exact =>
    exact .failed n failure (hwithin.failed reported) underway last (hfree free) exact
  | cancelled n asked underway free exact =>
    exact .cancelled n (hwithin.asked asked) underway (hfree free) exact

/-! ## Delivering -/

/-- A host on the way from requests to messages. Some events wait on the bus. -/
structure Delivering (kinds : Option (List EventKind)) (nodeTypes : List NodeType)
    (h : Host (Search N R ρ κ (Sink R)) R (Outcome N R))
    (record : Record (Search N R ρ κ (Sink R)) R (Outcome N R))
    (waiting : List (Entity × Event R)) (due : Request (Search N R ρ κ (Sink R)) → Nat) :
    Prop where
  sound : h.Sound
  bus : h.setup.bus = some { kinds, waiting := waiting.toArray }
  types : h.setup.nodeTypes.Perm nodeTypes
  drains : h.setup.drains ≠ 0
  entities : (h.jobs.map (·.entity)).Nodup
  asked : ∀ job ∈ h.jobs, job.task.cancelRequested = true → job.entity ∈ record.asked
  known : ∀ job ∈ h.jobs, ∃ request ∈ record.requests, request.entity = job.entity
  before : ∀ request ∈ record.requests, request.before ≤ record.frames.length
  /-- Nothing is reported of an entity without a request. -/
  quiet : ∀ entity, (∀ request ∈ record.requests, request.entity ≠ entity) →
    eventsOf entity (record.messages ++ waiting) = []
  standing : ∀ request ∈ record.requests, Standing kinds h record (due request) request
    (eventsOf request.entity (record.messages ++ waiting))

/-- Where no job comes to the host and no request, the jobs and the requests that are there are all
there is to see to. -/
theorem Delivering.of_old (hd : Delivering kinds nodeTypes h record waiting due)
    (hsound : h'.Sound) (hbus : h'.setup.bus = some { kinds, waiting := waiting'.toArray })
    (htypes : h'.setup.nodeTypes.Perm h.setup.nodeTypes)
    (hdrains : h'.setup.drains = h.setup.drains)
    (hentities : (h'.jobs.map (·.entity)).Subperm (h.jobs.map (·.entity)))
    (hasked : ∀ job ∈ h'.jobs, job.task.cancelRequested = true → job.entity ∈ record'.asked)
    (hrequests : record'.requests = record.requests)
    (hframes : record.frames.length ≤ record'.frames.length)
    (hevents : ∀ entity, h.Free entity → eventsOf entity (record'.messages ++ waiting')
      = eventsOf entity (record.messages ++ waiting))
    (hstanding : ∀ request ∈ record.requests, Standing kinds h' record' (due' request) request
      (eventsOf request.entity (record'.messages ++ waiting'))) :
    Delivering kinds nodeTypes h' record' waiting' due' := by
  constructor
  case sound => exact hsound
  case bus => exact hbus
  case types => exact htypes.trans hd.types
  case drains => exact hdrains ▸ hd.drains
  case entities =>
    obtain ⟨kept, hperm, hkept⟩ := hentities
    exact hperm.nodup_iff.mp (hd.entities.sublist hkept)
  case asked => exact hasked
  case known =>
    intro job hjob
    obtain ⟨old, hold, hsame⟩ := List.mem_map.mp (hentities.subset (List.mem_map_of_mem hjob))
    exact hrequests ▸ hsame ▸ hd.known old hold
  case before =>
    exact fun request hrequest => Nat.le_trans (hd.before request (hrequests ▸ hrequest)) hframes
  case quiet =>
    intro entity hnone
    rw [hrequests] at hnone
    refine (hevents entity fun job hjob hentity => ?_).trans (hd.quiet entity hnone)
    obtain ⟨request, hrequest, hsame⟩ := hd.known job hjob
    exact hnone request hrequest (hsame.trans hentity)
  case standing => exact fun request hrequest => hstanding request (hrequests ▸ hrequest)

/-- What no job can tell from what there was. -/
theorem Delivering.of_same (hd : Delivering kinds nodeTypes h record waiting due)
    (hjobs : h'.jobs.Perm h.jobs) (hsound : h'.Sound)
    (hbus : h'.setup.bus = some { kinds, waiting := waiting'.toArray })
    (htypes : h'.setup.nodeTypes.Perm h.setup.nodeTypes)
    (hdrains : h'.setup.drains = h.setup.drains) (hrequests : record'.requests = record.requests)
    (hframes : record.frames.length ≤ record'.frames.length) (hwithin : record.Within record')
    (hevents : ∀ entity, eventsOf entity (record'.messages ++ waiting')
      = eventsOf entity (record.messages ++ waiting)) :
    Delivering kinds nodeTypes h' record' waiting' due := by
  refine hd.of_old hsound hbus htypes hdrains (hjobs.map _).subperm (fun job hjob hasked => ?_)
    hrequests hframes (fun entity _ => hevents entity) fun request hrequest => ?_
  · exact hwithin.asked (hd.asked job (hjobs.subset hjob) hasked)
  · rw [hevents]
    refine (hd.standing request hrequest).carry hwithin (fun job hjob _ => ?_)
      fun hfree job hjob => hfree job (hjobs.subset hjob)
    exact ⟨Nat.le_refl _, job, hjobs.symm.subset hjob, rfl, rfl, rfl⟩

/-! ## Frames -/

/-- An entity whose job has ended has none. -/
theorem Delivering.free_of_ending (hd : Delivering kinds nodeTypes h record waiting due)
    {ending : Ending R (Outcome N R)} (hends : (job, ending) ∈ h.endings room nodeType) :
    (Host.runType room nodeType h frame).1.Free job.entity := by
  obtain ⟨hjob, htype, hending⟩ := mem_endings.mp hends
  obtain ⟨hjobs, -, -, -⟩ := runType_spec room nodeType hd.sound.toTidy frame
  intro other hother hsame
  rw [hjobs] at hother
  obtain ⟨old, hold, hadvance⟩ := List.mem_filterMap.mp hother
  have hentity : old.entity = job.entity :=
    (Prod.mk.inj (advance_same hadvance).2).1.symm.trans hsame
  obtain rfl : old = job := List.inj_on_of_nodup_map hd.entities hold hjob hentity
  unfold Job.advance at hadvance
  rw [if_pos htype, hending] at hadvance
  exact absurd hadvance (by simp)

/-- How a request stands after a burst of its job. -/
theorem Delivering.standing_of_burst
    (hd : Delivering kinds nodeTypes h (record.add frame) waiting due) {n : Nat}
    (hdue : bursts ≤ n) (hjob : job ∈ h.jobs)
    (hslot : job.slot = (request.entity, request.nodeType)) (hruns : job.nodeType = nodeType)
    (hfollows : job.Follows kinds request.computation n)
    (hexact : messages = request.computation.heard kinds n) :
    Standing kinds (Host.runType room nodeType h frame).1
      (record.add (Host.runType room nodeType h frame).2) (bursts + 1) request
      (messages ++ (job.events room).toList) := by
  obtain ⟨-, hfinished, hfailed⟩ := record.noted_runType hd.sound.toTidy room nodeType frame
  obtain ⟨hentity, -⟩ := Prod.mk.inj hslot
  have hends (ending : Ending R (Outcome N R)) (hending : job.ending? room = some ending) :
      (job, ending) ∈ h.endings room nodeType := mem_endings.mpr ⟨hjob, hruns, hending⟩
  have hfree (ending : Ending R (Outcome N R)) (hending : job.ending? room = some ending) :
      (Host.runType room nodeType h frame).1.Free request.entity :=
    hentity ▸ hd.free_of_ending (hends ending hending)
  rw [hexact]
  have hburst : Job.Followed kinds request.computation n room job :=
    Job.follows_burst hfollows (hd.sound.running job hjob)
  cases hburst with
  | pending m more goesOn follows events =>
    refine .running m (Nat.lt_of_le_of_lt hdue more) (job.burst room) ?_ hslot follows events.symm
    refine mem_runType hd.sound.toTidy hjob ?_
    unfold Job.advance
    rw [if_pos hruns, goesOn]
    rfl
  | finished m more output ends steps underway last events =>
    exact .finished m output _ (hentity ▸ hfinished job output _ (hends _ ends)) steps underway
      last (hfree _ ends) events.symm
  | failed m more failure ends underway last events =>
    exact .failed m failure (hentity ▸ hfailed job failure (hends _ ends)) underway last
      (hfree _ ends) events.symm
  | cancelled asked ends silent =>
    refine .cancelled n (hentity ▸ hd.asked job hjob asked) hfollows.underway (hfree _ ends) ?_
    rw [silent]
    exact List.append_nil _

/-- Nothing changes for a request whose job, if it has one, is of another type. -/
theorem Delivering.standing_of_other
    (hd : Delivering kinds nodeTypes h (record.add frame) waiting due)
    (hother : ∀ job ∈ h.jobs, job.entity = request.entity → job.nodeType ≠ nodeType)
    (hs : Standing kinds h (record.add frame) bursts request messages) :
    Standing kinds (Host.runType room nodeType h frame).1
      (record.add (Host.runType room nodeType h frame).2)
      (bursts + if nodeType == request.nodeType then 1 else 0) request
      (messages ++ eventsOf request.entity
        (posted room (h.jobs.filter (·.nodeType == nodeType)))) := by
  have hsilent : eventsOf request.entity
      (posted room (h.jobs.filter (·.nodeType == nodeType))) = [] := by
    refine eventsOf_posted_of_not_mem fun job hjob hentity => ?_
    obtain ⟨hmem, htype⟩ := List.mem_filter.mp hjob
    exact hother job hmem hentity (beq_iff_eq.mp htype)
  rw [hsilent, List.append_nil]
  have hnoted := record.noted_runType hd.sound.toTidy room nodeType frame
  refine hs.carry hnoted.1 (fun job hjob hslot => ?_) fun hfree =>
    hfree.runType hd.sound.toTidy frame
  obtain ⟨hentity, htype⟩ := Prod.mk.inj hslot
  have hne : job.nodeType ≠ nodeType := hother job hjob hentity
  rw [if_neg fun hsame => hne (htype.trans (beq_iff_eq.mp hsame).symm)]
  refine ⟨Nat.le_refl _, job, mem_runType hd.sound.toTidy hjob ?_, rfl, rfl, rfl⟩
  unfold Job.advance
  rw [if_neg hne]

/-- How a request stands after the jobs of a type have run. -/
theorem Delivering.standing_runType
    (hd : Delivering kinds nodeTypes h (record.add frame) waiting due)
    (room : Job (Search N R ρ κ (Sink R)) (Outcome N R) → Nat) (nodeType : NodeType)
    (hrequest : request ∈ record.requests) :
    Standing kinds (Host.runType room nodeType h frame).1
      (record.add (Host.runType room nodeType h frame).2)
      (due request + if nodeType == request.nodeType then 1 else 0) request
      (eventsOf request.entity ((record.add frame).messages ++ waiting)
        ++ eventsOf request.entity (posted room (h.jobs.filter (·.nodeType == nodeType)))) := by
  have hstanding := hd.standing request hrequest
  by_cases hruns : ∃ job ∈ h.jobs, job.entity = request.entity ∧ job.nodeType = nodeType
  · obtain ⟨job, hjob, hentity, htype⟩ := hruns
    cases hstanding with
    | running n hdue job' there slot follows exact =>
      -- An entity has one job at most, so the one that runs is the one of the request.
      obtain ⟨hentity', htype'⟩ := Prod.mk.inj slot
      obtain rfl : job' = job :=
        List.inj_on_of_nodup_map hd.entities there hjob (hentity'.trans hentity.symm)
      have hevents : eventsOf job'.entity
          (posted room (h.jobs.filter (·.nodeType == nodeType))) = (job'.events room).toList :=
        eventsOf_posted_of_mem (hd.entities.sublist (List.filter_sublist.map _))
          (List.mem_filter.mpr ⟨hjob, beq_iff_eq.mpr htype⟩)
      rw [if_pos (beq_iff_eq.mpr (htype.symm.trans htype')), ← hentity, hevents, hentity]
      exact hd.standing_of_burst hdue hjob slot htype follows exact
    | finished _ _ _ _ _ _ _ free => exact absurd hentity (free job hjob)
    | failed _ _ _ _ _ free => exact absurd hentity (free job hjob)
    | cancelled _ _ _ free => exact absurd hentity (free job hjob)
  · exact hd.standing_of_other (fun job hjob hentity htype => hruns ⟨job, hjob, hentity, htype⟩)
      hstanding

/-- The jobs of a type run. -/
theorem Delivering.runType (hd : Delivering kinds nodeTypes h (record.add frame) waiting due)
    (room : Job (Search N R ρ κ (Sink R)) (Outcome N R) → Nat) (nodeType : NodeType) :
    Delivering kinds nodeTypes (Host.runType room nodeType h frame).1
      (record.add (Host.runType room nodeType h frame).2)
      (waiting ++ posted room (h.jobs.filter (·.nodeType == nodeType)))
      fun request => due request + if nodeType == request.nodeType then 1 else 0 := by
  obtain ⟨hjobs, -, -, -⟩ := runType_spec room nodeType hd.sound.toTidy frame
  have hran := ran_runType (fun _ => rfl) room nodeType hd.sound frame
  have hsetup := setup_runType room nodeType h frame
  have hmessages : (record.add (Host.runType room nodeType h frame).2).messages
      = (record.add frame).messages := by
    rw [Record.messages_add, Record.messages_add, messages_runType]
  have hevents (entity : Entity) : eventsOf entity
      ((record.add (Host.runType room nodeType h frame).2).messages
        ++ (waiting ++ posted room (h.jobs.filter (·.nodeType == nodeType))))
      = eventsOf entity ((record.add frame).messages ++ waiting)
        ++ eventsOf entity (posted room (h.jobs.filter (·.nodeType == nodeType))) := by
    rw [hmessages, ← List.append_assoc, eventsOf_append]
  refine hd.of_old hran.sound ?_ (hsetup ▸ .refl _) (hsetup ▸ rfl) ?_ (fun job hjob hasked => ?_)
    rfl ?_ (fun entity hfree => ?_) fun request hrequest => ?_
  · rw [hsetup]
    unfold Setup.posting
    rw [hd.bus]
    simp
  · rw [hjobs]
    exact (sublist_advance (·.entity)
      (fun hadvance => (Prod.mk.inj (advance_same hadvance).2).1) _).subperm
  · obtain ⟨old, hold, hlater⟩ := hran.stayed job hjob
    exact (Prod.mk.inj hlater.slot).1 ▸ hd.asked old hold (hlater.asked hasked)
  · simp [Record.add]
  · rw [hevents, eventsOf_posted_of_not_mem fun job hjob => hfree job (List.mem_filter.mp hjob).1,
      List.append_nil]
  · rw [hevents]
    exact hd.standing_runType room nodeType hrequest

/-- The jobs of some types run, one type after another. -/
theorem Delivering.runTypes (hd : Delivering kinds nodeTypes h (record.add frame) waiting due)
    (room : Job (Search N R ρ κ (Sink R)) (Outcome N R) → Nat) (types : List NodeType) :
    let after := types.foldl (fun (h, frame) nodeType => Host.runType room nodeType h frame)
      (h, frame)
    ∃ waiting', Delivering kinds nodeTypes after.1 (record.add after.2) waiting'
      fun request => due request + types.count request.nodeType := by
  induction types generalizing h frame waiting due with
  | nil => exact ⟨waiting, hd⟩
  | cons nodeType types ih =>
    obtain ⟨waiting', hafter⟩ := ih (hd.runType room nodeType)
    refine ⟨waiting', ?_⟩
    have hcount (request : Request (Search N R ρ κ (Sink R))) :
        due request + (nodeType :: types).count request.nodeType
        = due request + (if nodeType == request.nodeType then 1 else 0)
          + types.count request.nodeType := by
      rw [List.count_cons]
      omega
    simp only [hcount]
    exact hafter

/-- What waits on the bus is received. -/
theorem Delivering.drain (hd : Delivering kinds nodeTypes h (record.add frame) waiting due) :
    Delivering kinds nodeTypes (h.drain frame).1 (record.add (h.drain frame).2) [] due := by
  have hsound : (h.drain frame).1.Sound := hd.sound.drain frame
  have hdrain : h.drain frame
      = ({ h with setup := { h.setup with bus := some { kinds, waiting := #[] } } },
        { frame with messages := frame.messages ++ waiting.toArray }) := by
    unfold Host.drain
    rw [if_neg hd.drains, hd.bus]
    rfl
  rw [hdrain] at hsound ⊢
  refine hd.of_same (.refl _) hsound rfl (.refl _) rfl rfl ?_ ⟨?_, ?_, ?_⟩ fun entity => ?_
  · simp [Record.add]
  · exact List.Subset.refl _
  · simp
  · simp
  · simp

/-- What is due may be told in another way. -/
theorem Delivering.of_due (hd : Delivering kinds nodeTypes h record waiting due)
    (hdue : ∀ request ∈ record.requests, due' request = due request) :
    Delivering kinds nodeTypes h record waiting due' :=
  { hd with
    standing := fun request hrequest => hdue request hrequest ▸ hd.standing request hrequest }

/-- A frame delivers what its bursts report. -/
theorem Delivering.after_frame (hd : Delivering kinds nodeTypes h record [] due)
    (room : Job (Search N R ρ κ (Sink R)) (Outcome N R) → Nat) :
    Delivering kinds nodeTypes (h.frame room).1 (record.add (h.frame room).2) []
      fun request => due request + nodeTypes.count request.nodeType := by
  have hbegun : Delivering kinds nodeTypes h (record.add .empty) [] due := by
    refine hd.of_same (.refl _) hd.sound hd.bus (.refl _) rfl rfl ?_ ⟨?_, ?_, ?_⟩ fun entity => ?_
    · simp [Record.add]
    · exact List.Subset.refl _
    · simp
    · simp
    · simp [Frame.empty]
  obtain ⟨waiting', hran⟩ := hbegun.runTypes room h.setup.nodeTypes
  refine hran.drain.of_due fun request _ => ?_
  rw [hd.types.count_eq]

/-! ## Requests and cancellations -/

/-- A request for an entity that has had none is met: its job starts where its search does. -/
theorem Delivering.after_request (hd : Delivering kinds nodeTypes h record [] due) {entity : Entity}
    (haccepts : h.accepts entity = true)
    (hnew : ∀ request ∈ record.requests, request.entity ≠ entity) (nodeType : NodeType)
    (computation : Search N R ρ κ (Sink R))
    (hdue : due { entity, nodeType, computation, before := record.frames.length } = 0) :
    Delivering kinds nodeTypes (h.request entity nodeType (some computation)).1
      { record with requests := record.requests
          ++ [{ entity, nodeType, computation, before := record.frames.length }] } [] due := by
  have hfree : h.Free entity := by
    intro job hjob hentity
    obtain ⟨request, hrequest, hsame⟩ := hd.known job hjob
    exact hnew request hrequest (hsame.trans hentity)
  have hsound : (h.request entity nodeType (some computation)).1.Sound :=
    (triggered_request hd.sound entity nodeType computation).sound
  have hkept : h.jobs.filter (fun job => !(job.entity == entity && job.nodeType == nodeType))
      = h.jobs := List.filter_eq_self.mpr fun job hjob => by simp [hfree job hjob]
  have hrequest := request_eq hd.bus (Bool.and_eq_true_iff.mp haccepts).2 nodeType computation
  rw [hkept] at hrequest
  obtain ⟨new, hstarted⟩ : ∃ new, h.started { kinds, waiting := #[] } entity nodeType computation
    = new := ⟨_, rfl⟩
  rw [hrequest, hstarted] at hsound ⊢
  have hmem : ∀ job ∈ h.jobs ++ [new], job ∈ h.jobs ∨ job = new := fun job hjob =>
    (List.mem_append.mp hjob).imp_right List.mem_singleton.mp
  have hentity : new.entity = entity := hstarted ▸ rfl
  constructor
  case sound => exact hsound
  case bus => exact hd.bus
  case types => exact hd.types
  case drains => exact hd.drains
  case entities =>
    rw [List.map_append, List.nodup_append]
    refine ⟨hd.entities, List.nodup_singleton _, ?_⟩
    rintro _ hjob _ hlast rfl
    obtain ⟨job, hjob, hsame⟩ := List.mem_map.mp hjob
    exact hfree job hjob (hsame.trans ((List.mem_singleton.mp hlast).trans hentity))
  case asked =>
    intro job hjob hasked
    rcases hmem job hjob with hold | rfl
    · exact hd.asked job hold hasked
    · rw [← hstarted] at hasked
      exact absurd hasked Bool.false_ne_true
  case known =>
    intro job hjob
    rcases hmem job hjob with hold | rfl
    · obtain ⟨request, hrequest, hsame⟩ := hd.known job hold
      exact ⟨request, List.mem_append_left _ hrequest, hsame⟩
    · exact ⟨_, List.mem_append_right _ (List.mem_singleton_self _), hentity.symm⟩
  case before =>
    intro request hrequest
    rcases List.mem_append.mp hrequest with hold | hlast
    · exact hd.before request hold
    · rw [List.mem_singleton.mp hlast]
  case quiet =>
    exact fun other hnone => hd.quiet other fun request hrequest =>
      hnone request (List.mem_append_left _ hrequest)
  case standing =>
    intro request hrequest
    rcases List.mem_append.mp hrequest with hold | hlast
    · refine (hd.standing request hold).carry ⟨.refl _, .refl _, .refl _⟩ (fun job hjob _ => ?_)
        fun hfree job hjob => ?_
      · exact ⟨Nat.le_refl _, job, List.mem_append_left _ hjob, rfl, rfl, rfl⟩
      · rcases hmem job hjob with hbefore | rfl
        · exact hfree job hbefore
        · exact fun hsame => hnew request hold (hsame.symm.trans hentity)
    · obtain rfl := List.mem_singleton.mp hlast
      refine .running 0 (Nat.le_of_eq hdue) new (List.mem_append_right _ (List.mem_singleton_self _))
        (hstarted ▸ rfl) ⟨hstarted ▸ rfl, hstarted ▸ rfl, nofun⟩ ?_
      exact hd.quiet entity hnew

/-- A cancellation is noted, and no job gets anywhere by it. -/
theorem Delivering.after_cancel (hd : Delivering kinds nodeTypes h record [] due)
    (entity : Entity) :
    Delivering kinds nodeTypes (h.cancel entity) (record.next h (.cancel entity)) [] due := by
  have htriggered := triggered_cancel hd.sound entity
  have hsetup := setup_cancel h entity
  obtain ⟨f, hjobs, hshape⟩ := cancel_shape h entity
  have hentities : (h.cancel entity).jobs.map (·.entity) = h.jobs.map (·.entity) := by
    rw [hjobs, List.map_map]
    exact List.map_congr_left fun job _ => (Prod.mk.inj (hshape job).1).1
  obtain ⟨hrequests, hframes, hasked⟩ := record.next_cancel h entity
  have hmessages : (record.next h (.cancel entity)).messages = record.messages :=
    congrArg (List.flatMap _) hframes
  refine hd.of_old htriggered.sound (hsetup ▸ hd.bus) (hsetup ▸ .refl _) (hsetup ▸ rfl)
    (hentities ▸ .refl _) (fun job hjob hcancels => ?_) hrequests (Nat.le_of_eq (hframes ▸ rfl))
    (fun _ _ => by rw [hmessages]) fun request hrequest => ?_
  · cases htriggered.comes job hjob with
    | stayed old there id slot asked =>
      rw [(Prod.mk.inj slot).1]
      rcases asked hcancels with hbefore | hnow
      · exact hasked (hd.asked old there hbefore)
      · obtain rfl := Trigger.cancel.inj hnow
        have hany : h.jobs.any (·.entity == old.entity) = true :=
          List.any_eq_true.mpr ⟨old, there, beq_self_eq_true _⟩
        unfold Record.next
        dsimp only
        rw [if_pos hany]
        exact List.mem_append_right _ (List.mem_singleton_self _)
    | started computation request => exact absurd request nofun
  · rw [hmessages]
    refine (hd.standing request hrequest).carry ⟨hasked, ?_, ?_⟩ (fun job hjob _ => ?_)
      fun hfree job hjob hsame => ?_
    · unfold Record.finished
      rw [hframes]
      exact .refl _
    · unfold Record.failed
      rw [hframes]
      exact .refl _
    · exact ⟨Nat.le_refl _, f job, hjobs ▸ List.mem_map_of_mem hjob, hshape job⟩
    · obtain ⟨old, hold, hentity⟩ := List.mem_map.mp (hentities ▸ List.mem_map_of_mem hjob)
      exact hfree old hold (hentity.trans hsame)

/-! ## What is delivered -/

/-- A host as it is set up has nothing to deliver. -/
theorem delivering_ofSetup {setup : Setup R} {bus : Bus R} (hbus : setup.bus = some bus)
    (hwaiting : bus.waiting = #[]) (hdrains : setup.drains ≠ 0) :
    Delivering bus.kinds setup.nodeTypes
      (ofSetup setup : Host (Search N R ρ κ (Sink R)) R (Outcome N R)) .empty [] due := by
  constructor
  case sound => exact (kept_ofSetup setup).sound
  case bus =>
    rw [← hwaiting]
    exact hbus
  case types => exact .refl _
  case drains => exact hdrains
  case entities => exact List.nodup_nil
  case asked | known => exact fun job hjob => absurd hjob List.not_mem_nil
  case before | standing => exact fun request hrequest => absurd hrequest List.not_mem_nil
  case quiet => exact fun entity _ => rfl

/-- A host goes on delivering after a trigger, as long as no entity has two requests. -/
theorem Delivering.after_trigger {setup : Setup R}
    (hd : Delivering kinds setup.nodeTypes h record [] (record.due setup))
    (t : Trigger (Search N R ρ κ (Sink R)) (Outcome N R))
    (hdistinct : ((record.next h t).requests.map (·.entity)).Nodup) :
    Delivering kinds setup.nodeTypes (h.trigger t) (record.next h t) []
      ((record.next h t).due setup) := by
  cases t with
  | spawn entity =>
    exact hd.of_same (.refl _) (triggered (fun _ => rfl) hd.sound (.spawn entity)).sound hd.bus
      (.refl _) rfl rfl (Nat.le_refl _) .rfl fun _ => rfl
  | request entity nodeType computation =>
    cases computation with
    | none => exact hd
    | some computation =>
      show Delivering _ _ (h.request entity nodeType (some computation)).1 _ _ _
      unfold Record.next at hdistinct ⊢
      dsimp only at hdistinct ⊢
      by_cases haccepts : h.accepts entity = true
      · rw [if_pos haccepts] at hdistinct ⊢
        rw [List.map_append, List.nodup_append] at hdistinct
        obtain ⟨-, -, hnew⟩ := hdistinct
        refine hd.after_request haccepts (fun request hrequest => ?_) nodeType computation ?_
        · exact hnew _ (List.mem_map_of_mem hrequest) entity (List.mem_singleton_self _)
        · unfold Record.due
          rw [Nat.sub_self, Nat.zero_mul]
      · rw [if_neg haccepts, request_of_not_accepts haccepts computation]
        exact hd
  | cancel entity =>
    obtain ⟨-, hframes, -⟩ := record.next_cancel h entity
    refine (hd.after_cancel entity).of_due fun request _ => ?_
    unfold Record.due
    rw [hframes]
  | update room =>
    refine (hd.after_frame room).of_due fun request hrequest => ?_
    have hlength : (record.add (h.frame room).2).frames.length - request.before
        = record.frames.length - request.before + 1 := by
      unfold Record.add
      rw [List.length_append]
      exact Nat.sub_add_comm (hd.before request hrequest)
    unfold Record.due
    show ((record.add (h.frame room).2).frames.length - _) * _ = _
    rw [hlength, Nat.succ_mul]

/-- Whatever happens, a host goes on delivering, as long as no entity has two requests. -/
theorem Course.delivering {setup : Setup R} {bus : Bus R} (hbus : setup.bus = some bus)
    (hwaiting : bus.waiting = #[]) (hdrains : setup.drains ≠ 0) (hcourse : Course setup record h)
    (hdistinct : (record.requests.map (·.entity)).Nodup) :
    Delivering bus.kinds setup.nodeTypes h record [] (record.due setup) := by
  induction hcourse with
  | start => exact delivering_ofSetup hbus hwaiting hdrains
  | @trigger record h t _ ih =>
    have hbefore : (record.requests.map (·.entity)).Nodup :=
      hdistinct.sublist ((record.requests_next h t).sublist.map _)
    exact (ih hbefore).after_trigger t hdistinct
  | reorder sameJobs sameTypes _ ih =>
    have hd := ih hdistinct
    exact hd.of_same sameJobs (hd.sound.of_perm sameJobs rfl rfl) hd.bus sameTypes rfl rfl
      (Nat.le_refl _) .rfl fun _ => rfl
  | @mix record h frame messages mixed _ ih =>
    have hd := ih hdistinct
    have hdue : (record.add { frame with messages }).due setup = (record.add frame).due setup := by
      unfold Record.due Record.add
      simp
    rw [hdue]
    refine hd.of_same (.refl _) hd.sound hd.bus (.refl _) rfl rfl ?_ ⟨?_, ?_, ?_⟩ fun entity => ?_
    · simp [Record.add]
    · exact .refl _
    · simp
    · simp
    · simp [mixed.eventsOf_eq]

/-- Delivery is exact and jobs do not mix. Whatever happens to a host with a bus that is drained, in
whatever order its jobs run, and however their bursts are cut: as long as no entity has two
requests, nothing is left on the bus between frames, nothing is reported of an entity without a
request, and the messages of any other entity are what its search reports when it runs alone, as far
as it has come, of the kinds the bus was told to report. -/
theorem messages_exact {setup : Setup R} {bus : Bus R} (hbus : setup.bus = some bus)
    (hwaiting : bus.waiting = #[]) (hdrains : setup.drains ≠ 0) (hcourse : Course setup record h)
    (hdistinct : (record.requests.map (·.entity)).Nodup) :
    h.setup.bus = some bus ∧
      (∀ entity, (∀ request ∈ record.requests, request.entity ≠ entity) →
        eventsOf entity record.messages = []) ∧
      ∀ request ∈ record.requests, Standing bus.kinds h record (record.due setup request) request
        (eventsOf request.entity record.messages) := by
  have hd := hcourse.delivering hbus hwaiting hdrains hdistinct
  refine ⟨?_, fun entity hnone => ?_, fun request hrequest => ?_⟩
  · rw [hd.bus]
    show some { kinds := bus.kinds, waiting := #[] } = some bus
    rw [← hwaiting]
  · have hquiet := hd.quiet entity hnone
    rw [List.append_nil] at hquiet
    exact hquiet
  · have hstanding := hd.standing request hrequest
    rw [List.append_nil] at hstanding
    exact hstanding

/-- Two searches that start in different frames and whose bursts are cut in different ways. -/
def staggered {σ O : Type} (computation : σ) : List (Trigger σ O) :=
  [.spawn 0, .spawn 1, .request 1 0 (some computation), .update fun _ => 1,
    .request 0 0 (some computation), .update fun job => job.entity, .update fun _ => 2]

/-- A host for one type of nodes with a bus that is told to report some kinds. -/
def telling {R : Type} (kinds : List EventKind) : Setup R :=
  (Setup.empty.addPlugin 0).insertBus (Bus.standard.withKinds kinds)

/-- The messages of two searches get between each other, and each entity has those of its own. -/
theorem messages_exact_staggered :
    let kinds : List EventKind := [.runStarted, .survivorSelected, .runFinished]
    ∃ s : Search String Binary64 Source (NoCost String Binary64) (Sink Binary64),
      Sample.brief ⟨⟩ = .ok s ∧
        ∃ record h, Course (O := Outcome String Binary64) (telling kinds) record h ∧
          run (telling kinds) (staggered s) = (record, h) ∧
          record.requests.map (·.entity) = [1, 0] ∧
          record.messages.map (·.1) = [1, 1, 0, 1, 0] ∧
          h.setup.bus = some (Bus.standard.withKinds kinds) ∧
          (∀ entity, (∀ request ∈ record.requests, request.entity ≠ entity) →
            eventsOf entity record.messages = []) ∧
          ∀ request ∈ record.requests,
            Standing (some kinds) h record (record.due (telling kinds) request) request
              (eventsOf request.entity record.messages) := by
  intro kinds
  obtain ⟨setup, hsetup⟩ : ∃ setup : Setup Binary64, setup = telling kinds := ⟨_, rfl⟩
  have hrun : ((Sample.brief (⟨⟩ : NoCost String Binary64)).toOption.map fun s =>
      let record := (run (O := Outcome String Binary64) setup (staggered s)).1
      (record.requests.map (·.entity), record.messages.map (·.1)))
        = some ([1, 0], [1, 1, 0, 1, 0]) := by
    rw [hsetup]
    decide +kernel
  obtain ⟨s, hnew, hseen⟩ := Search.exists_of_toOption_map hrun
  obtain ⟨hrequests, hmessages⟩ := Prod.mk.inj hseen
  have hcourse := course_run (O := Outcome String Binary64) setup (staggered s)
  obtain ⟨⟨record, h⟩, hafter⟩ : ∃ after,
    run (O := Outcome String Binary64) setup (staggered s) = after := ⟨_, rfl⟩
  rw [hafter] at hrequests hmessages hcourse
  have hdistinct : (record.requests.map (·.entity)).Nodup := hrequests ▸ by decide
  have hbus : setup.bus = some (Bus.standard.withKinds kinds) := hsetup ▸ rfl
  have hdrains : setup.drains ≠ 0 := hsetup ▸ Nat.one_ne_zero
  have hexact := messages_exact hbus rfl hdrains hcourse hdistinct
  rw [← hsetup]
  exact ⟨s, hnew, record, h, hcourse, hafter, hrequests, hmessages, hexact⟩

end Espalier.Host
