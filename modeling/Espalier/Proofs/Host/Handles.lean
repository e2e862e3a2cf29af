import Espalier.Proofs.Host.Channel
import Espalier.Proofs.Host.Ledger

/-!
# What a cancel handle reaches

An entity has one cancel handle, whatever the types of the jobs attached to it. As long as the jobs
that are requested for an entity are all of one type, the handle names the job that is attached:
`Reaching` is kept by every such trigger. A cancellation then reaches the job, and a job that was
reached neither finishes nor fails whatever happens later, as it stays `Condemned`
(`cancel_reaches`).

Jobs of two types on one entity hide each other from the handle (`cancel_misses_small`).
-/

namespace Espalier.Host

variable {σ R O : Type} {h : Host σ R O} {job : Job σ O} {typeOf : Entity → NodeType}
  {nodeType : NodeType} {room : Job σ O → Nat} {id : JobId}

/-! ## Handles -/

/-- Removing the handles of other entities does not matter to an entity. -/
theorem lookup_filter (handles : List (Entity × JobId)) (keep : Entity → Bool) {entity : Entity}
    (hkeep : keep entity = true) :
    (handles.filter fun handle => keep handle.1).lookup entity = handles.lookup entity := by
  induction handles with
  | nil => rfl
  | cons handle handles ih =>
    rw [List.filter_cons]
    by_cases hentity : entity = handle.1
    · subst hentity
      rw [if_pos hkeep, List.lookup_cons, List.lookup_cons, beq_self_eq_true]
    · have hother : (entity == handle.1) = false := beq_false_of_ne hentity
      split
      · rw [List.lookup_cons, List.lookup_cons, hother, ih]
      · rw [List.lookup_cons, hother, ih]

/-- Every job is of the type its entity is for, and the handle of its entity names it. -/
structure Reaching (typeOf : Entity → NodeType) (h : Host σ R O) : Prop where
  typed : ∀ job ∈ h.jobs, job.nodeType = typeOf job.entity
  reached : ∀ job ∈ h.jobs, h.handle? job.entity = some job.id

/-- A trigger that requests no job of another type than the entity is for. -/
def Trigger.Fits (typeOf : Entity → NodeType) : Trigger σ O → Prop
  | .request entity nodeType _ => nodeType = typeOf entity
  | _ => True

/-- A host whose jobs are those that were there, perhaps asked to cancel, and whose handles are the
same. -/
theorem Reaching.of_map (hr : Reaching typeOf h) {h' : Host σ R O} {f : Job σ O → Job σ O}
    (hjobs : h'.jobs = h.jobs.map f) (hhandles : h'.handles = h.handles)
    (hid : ∀ job, (f job).id = job.id) (hslot : ∀ job, (f job).slot = job.slot) :
    Reaching typeOf h' := by
  have hold : ∀ job ∈ h'.jobs, ∃ old ∈ h.jobs, f old = job := by
    intro job hjob
    rw [hjobs] at hjob
    exact List.mem_map.mp hjob
  constructor
  case typed =>
    intro job hjob
    obtain ⟨old, hmem, rfl⟩ := hold job hjob
    obtain ⟨hentity, htype⟩ := Prod.mk.inj (hslot old)
    rw [hentity, htype]
    exact hr.typed old hmem
  case reached =>
    intro job hjob
    obtain ⟨old, hmem, rfl⟩ := hold job hjob
    obtain ⟨hentity, -⟩ := Prod.mk.inj (hslot old)
    unfold handle?
    rw [hhandles, hentity, hid]
    exact hr.reached old hmem

variable [Hosted σ R O]

/-- A job that goes on keeps its handle, since no other job of the entity can have ended. -/
theorem Reaching.runType (hh : h.Tidy) (hr : Reaching typeOf h) (frame : Frame R O) :
    Reaching typeOf (runType room nodeType h frame).1 := by
  obtain ⟨hjobs, hhandles, -, -⟩ := runType_spec room nodeType hh frame
  have hold : ∀ job ∈ (Host.runType room nodeType h frame).1.jobs,
      ∃ old ∈ h.jobs, old.advance room nodeType = some job := by
    intro job hjob
    rw [hjobs] at hjob
    exact List.mem_filterMap.mp hjob
  constructor
  case typed =>
    intro job hjob
    obtain ⟨old, hmem, hadvance⟩ := hold job hjob
    obtain ⟨hentity, htype⟩ := Prod.mk.inj (advance_same hadvance).2
    rw [hentity, htype]
    exact hr.typed old hmem
  case reached =>
    intro job hjob
    obtain ⟨old, hmem, hadvance⟩ := hold job hjob
    obtain ⟨hid, hslot⟩ := advance_same hadvance
    obtain ⟨hentity, -⟩ := Prod.mk.inj hslot
    have hkeep : ((h.endings room nodeType).all fun entry =>
        decide (old.entity ≠ entry.1.entity)) = true := by
      rw [List.all_eq_true]
      rintro ⟨other, ending⟩ hentry
      obtain ⟨hother, htype, hends⟩ := mem_endings.mp hentry
      -- A job that ended on the same entity would be of the same type, and so the same job.
      refine decide_eq_true fun hsame => ?_
      have htype' : old.nodeType = other.nodeType := by
        rw [hr.typed old hmem, hr.typed other hother, hsame]
      obtain rfl := hh.eq_of_slot hmem hother (Prod.ext hsame htype')
      unfold Job.advance at hadvance
      rw [if_pos htype, hends] at hadvance
      exact absurd hadvance (by simp)
    unfold handle?
    rw [hhandles, hentity, hid]
    exact (lookup_filter h.handles (fun entity => (h.endings room nodeType).all fun entry =>
      decide (entity ≠ entry.1.entity)) hkeep).trans (hr.reached old hmem)

/-- A job that is requested takes the handle over from the only job it could have named. -/
theorem Reaching.request (hr : Reaching typeOf h) (entity : Entity) (computation : σ) :
    Reaching typeOf (h.request entity (typeOf entity) (some computation)).1 := by
  by_cases haccepts : h.accepts entity = true
  · obtain ⟨new, hid, hslot, -, -, hrequest⟩ :=
      request_of_accepts haccepts (typeOf entity) computation
    obtain ⟨hentity, htype⟩ := Prod.mk.inj hslot
    have hjobs : ∀ job ∈ (h.request entity (typeOf entity) (some computation)).1.jobs,
        job ∈ h.jobs ∧ job.entity ≠ entity ∨ job = new := by
      intro job hjob
      rw [hrequest] at hjob
      rcases List.mem_append.mp hjob with hother | hnew
      · obtain ⟨hmem, hne⟩ := List.mem_filter.mp hother
        refine Or.inl ⟨hmem, fun hsame => ?_⟩
        rw [hr.typed job hmem, hsame, beq_self_eq_true, beq_self_eq_true] at hne
        exact absurd hne (by decide)
      · exact Or.inr (List.mem_singleton.mp hnew)
    constructor
    case typed =>
      intro job hjob
      rcases hjobs job hjob with ⟨hmem, -⟩ | rfl
      · exact hr.typed job hmem
      · rw [htype, hentity]
    case reached =>
      intro job hjob
      unfold handle?
      rw [hrequest, List.lookup_cons]
      rcases hjobs job hjob with ⟨hmem, hne⟩ | rfl
      · rw [beq_false_of_ne hne]
        exact (lookup_filter h.handles (fun other => decide (other ≠ entity))
          (decide_eq_true hne)).trans (hr.reached job hmem)
      · rw [hentity, beq_self_eq_true, hid]
  · rw [request_of_not_accepts haccepts computation]
    exact hr

/-- What jobs of one type running and the bus being drained keep, a frame keeps. -/
theorem frame_induction {P : Host σ R O → Prop} (room : Job σ O → Nat)
    (hrun : ∀ (h : Host σ R O) (nodeType : NodeType) (frame : Frame R O), P h →
      P (Host.runType room nodeType h frame).1)
    (hdrain : ∀ (h : Host σ R O) (frame : Frame R O), P h → P (h.drain frame).1) (hh : P h) :
    P (h.frame room).1 := by
  unfold Host.frame
  refine hdrain _ _ (List.foldlRecOn (motive := fun after : Host σ R O × Frame R O => P after.1)
    h.setup.nodeTypes _ hh fun after hafter nodeType _ => ?_)
  exact hrun after.1 nodeType after.2 hafter

/-- Handles go on reaching the jobs as long as no entity is asked for two types. -/
theorem Reaching.trigger (hobedient : Job.Obedient σ) (hs : h.Sound) (hr : Reaching typeOf h)
    {t : Trigger σ O} (hfits : t.Fits typeOf) : Reaching typeOf (h.trigger t) := by
  cases t with
  | spawn entity => exact ⟨hr.typed, hr.reached⟩
  | request entity nodeType computation =>
    cases computation with
    | none => exact hr
    | some computation =>
      obtain rfl : nodeType = typeOf entity := hfits
      exact hr.request entity computation
  | cancel entity =>
    show Reaching typeOf (h.cancel entity)
    unfold cancel
    split
    · exact hr
    · split
      · exact hr
      · refine hr.of_map rfl rfl (fun job => ?_) (fun job => ?_)
        · split <;> rfl
        · split <;> rfl
  | update room =>
    show Reaching typeOf (h.frame room).1
    refine (frame_induction room (P := fun h => h.Sound ∧ Reaching typeOf h)
      (fun h nodeType frame hh => ?_) (fun h frame hh => ?_) ⟨hs, hr⟩).2
    · exact ⟨(ran_runType hobedient room nodeType hh.1 frame).sound, hh.2.runType hh.1.toTidy frame⟩
    · obtain ⟨hjobs, hhandles, -, -, -⟩ := drain_spec h frame
      exact ⟨hh.1.drain frame,
        hh.2.of_map (hjobs.trans (List.map_id _).symm) hhandles (fun _ => rfl) fun _ => rfl⟩

/-! ## Jobs that were asked to cancel -/

omit [Hosted σ R O] in
/-- The job of a number, if it is still attached, was asked to cancel. -/
structure Condemned (h : Host σ R O) (id : JobId) : Prop extends Sound h where
  given : id < h.fresh
  asked : ∀ job ∈ h.jobs, job.id = id → job.task.cancelRequested = true

/-- Nothing is reported of the job of a number when it leaves. -/
def Departure.Silent (id : JobId) (d : Departure σ R O) : Prop :=
  d.job.id = id → d.finished? = none ∧ d.failed? = none

theorem Condemned.runType (hobedient : Job.Obedient σ) (hc : h.Condemned id)
    (frame : Frame R O) : (runType room nodeType h frame).1.Condemned id := by
  have hran := ran_runType hobedient room nodeType hc.toSound frame
  obtain ⟨hjobs, -, -, -⟩ := runType_spec room nodeType hc.toTidy frame
  constructor
  case toSound => exact hran.sound
  case given => exact hran.fresh ▸ hc.given
  case asked =>
    intro job hjob hid
    rw [hjobs] at hjob
    obtain ⟨old, hmem, hadvance⟩ := List.mem_filterMap.mp hjob
    have hasked := hc.asked old hmem ((advance_same hadvance).1.symm.trans hid)
    unfold Job.advance at hadvance
    split at hadvance
    · rw [Job.ending?_of_asked (hc.running old hmem) hasked] at hadvance
      exact absurd hadvance (by simp)
    · obtain rfl := Option.some.inj hadvance
      exact hasked

theorem Condemned.endings (hc : h.Condemned id) :
    ∀ entry ∈ h.endings room nodeType, entry.1.id = id → entry.2 = .cancelled := by
  rintro ⟨job, ending⟩ hentry hid
  obtain ⟨hjob, -, hends⟩ := mem_endings.mp hentry
  rw [Job.ending?_of_asked (hc.running job hjob) (hc.asked job hjob hid)] at hends
  exact (Option.some.inj hends).symm

theorem Condemned.endingsOf (hobedient : Job.Obedient σ) (nodeTypes : List NodeType)
    (hc : h.Condemned id) :
    ∀ entry ∈ h.endingsOf room nodeTypes, entry.1.id = id → entry.2 = .cancelled := by
  induction nodeTypes generalizing h with
  | nil => exact fun entry hentry => absurd hentry List.not_mem_nil
  | cons nodeType nodeTypes ih =>
    intro entry hentry
    rcases List.mem_append.mp hentry with hfirst | hlater
    · exact hc.endings entry hfirst
    · exact ih (hc.runType hobedient .empty) entry hlater

/-- A job that was asked to cancel leaves in silence, whatever the trigger. -/
theorem Condemned.departures (hobedient : Job.Obedient σ) (hc : h.Condemned id)
    (t : Trigger σ O) : ∀ d ∈ h.departures t, d.Silent id := by
  intro d hd hid
  cases t with
  | spawn entity | cancel entity => exact absurd hd List.not_mem_nil
  | request entity nodeType computation =>
    cases computation with
    | none => exact absurd hd List.not_mem_nil
    | some computation =>
      dsimp only [Host.departures] at hd
      split at hd
      · obtain ⟨job, -, rfl⟩ := List.mem_map.mp hd
        exact ⟨rfl, rfl⟩
      · exact absurd hd List.not_mem_nil
  | update room =>
    obtain ⟨⟨job, ending⟩, hentry, rfl⟩ := List.mem_map.mp hd
    obtain rfl := hc.endingsOf hobedient _ _ hentry hid
    exact ⟨rfl, rfl⟩

omit [Hosted σ R O] in
/-- Cancelling takes no wish to cancel back. -/
theorem cancel_spec (h : Host σ R O) (entity : Entity) : (h.cancel entity).fresh = h.fresh ∧
    ∀ job ∈ (h.cancel entity).jobs, ∃ old ∈ h.jobs, old.id = job.id ∧
      (old.task.cancelRequested = true → job.task.cancelRequested = true) := by
  have hsame : ∀ job ∈ h.jobs, ∃ old ∈ h.jobs, old.id = job.id ∧
      (old.task.cancelRequested = true → job.task.cancelRequested = true) :=
    fun job hjob => ⟨job, hjob, rfl, fun hasked => hasked⟩
  unfold cancel
  split
  · exact ⟨rfl, hsame⟩
  · split
    · exact ⟨rfl, hsame⟩
    · refine ⟨rfl, fun job hjob => ?_⟩
      obtain ⟨old, hmem, rfl⟩ := List.mem_map.mp hjob
      refine ⟨old, hmem, ?_, fun hasked => ?_⟩
      · split <;> rfl
      · split
        · rfl
        · exact hasked

/-- Nobody takes back the wish to cancel a job. -/
theorem Condemned.trigger (hobedient : Job.Obedient σ) (hc : h.Condemned id) (t : Trigger σ O) :
    (h.trigger t).Condemned id := by
  have hsound : (h.trigger t).Sound := (triggered hobedient hc.toSound t).sound
  cases t with
  | spawn entity => exact ⟨hsound, hc.given, hc.asked⟩
  | request entity nodeType computation =>
    cases computation with
    | none => exact hc
    | some computation =>
      by_cases haccepts : h.accepts entity = true
      · obtain ⟨new, hid, -, -, -, hrequest⟩ := request_of_accepts haccepts nodeType computation
        have hafter : h.trigger (.request entity nodeType (some computation)) = _ := hrequest
        refine ⟨hsound, hafter ▸ Nat.lt_succ_of_lt hc.given, fun job hjob hjobId => ?_⟩
        rw [hafter] at hjob
        rcases List.mem_append.mp hjob with hother | hnew
        · exact hc.asked job (List.mem_filter.mp hother).1 hjobId
        · obtain rfl := List.mem_singleton.mp hnew
          exact absurd (hjobId.symm.trans hid) (Nat.ne_of_lt hc.given)
      · have hafter : h.trigger (.request entity nodeType (some computation)) = h :=
          request_of_not_accepts haccepts computation
        rw [hafter]
        exact hc
  | cancel entity =>
    obtain ⟨hfresh, hjobs⟩ := cancel_spec h entity
    refine ⟨hsound, hfresh ▸ hc.given, fun job hjob hjobId => ?_⟩
    obtain ⟨old, hmem, hid, hasked⟩ := hjobs job hjob
    exact hasked (hc.asked old hmem (hid.trans hjobId))
  | update room =>
    refine frame_induction room (P := fun h => h.Condemned id)
      (fun h nodeType frame hh => hh.runType hobedient frame) (fun h frame hh => ?_) hc
    obtain ⟨hjobs, -, hfresh, -, -⟩ := drain_spec h frame
    exact ⟨hh.toSound.drain frame, hfresh ▸ hh.given, hjobs ▸ hh.asked⟩

/-- A job that was asked to cancel is never reported of. -/
theorem Condemned.ledger (hobedient : Job.Obedient σ) (hc : h.Condemned id)
    (triggers : List (Trigger σ O)) : ∀ d ∈ h.ledger triggers, d.Silent id := by
  induction triggers generalizing h with
  | nil => exact fun d hd => absurd hd List.not_mem_nil
  | cons t triggers ih =>
    intro d hd
    rcases List.mem_append.mp hd with hnow | hlater
    · exact hc.departures hobedient t d hnow
    · exact ih (hc.trigger hobedient t) d hlater

/-! ## What a cancellation reaches -/

/-- The cancel observers that were registered remain. -/
theorem cancelObservers_trigger (h : Host σ R O) (t : Trigger σ O) :
    (h.trigger t).setup.cancelObservers = h.setup.cancelObservers := by
  cases t with
  | spawn entity => rfl
  | request entity nodeType computation =>
    exact congrArg Setup.cancelObservers (setup_request h entity nodeType computation)
  | cancel entity => exact congrArg Setup.cancelObservers (setup_cancel h entity)
  | update room =>
    refine frame_induction room
      (P := fun after => after.setup.cancelObservers = h.setup.cancelObservers)
      (fun before nodeType frame hh => ?_) (fun before frame hh => ?_) rfl
    · exact (congrArg Setup.cancelObservers (setup_runType room nodeType before frame)).trans hh
    · unfold drain
      split
      · exact hh
      · split <;> exact hh

omit [Hosted σ R O] in
/-- A cancellation reaches the job that an entity's handle names. -/
theorem condemned_cancel (hs : h.Sound) (hobserved : h.setup.cancelObservers ≠ 0)
    (hjob : job ∈ h.jobs) (hhandle : h.handle? job.entity = some job.id) :
    (h.cancel job.entity).isCancelled job.id = true ∧ (h.cancel job.entity).Condemned job.id := by
  have hsound : (h.cancel job.entity).Sound := (triggered_cancel hs job.entity).sound
  have hcancel : h.cancel job.entity = h.cancelJob job.id := by
    unfold cancel
    rw [if_neg hobserved, hhandle]
  rw [hcancel] at hsound ⊢
  refine ⟨by simp [isCancelled, cancelJob], hsound, hs.below job hjob, fun other hother hid => ?_⟩
  obtain ⟨old, -, rfl⟩ := List.mem_map.mp hother
  by_cases hsame : old.id = job.id
  · rw [if_pos hsame]
    rfl
  · rw [if_neg hsame] at hid
    exact absurd hid hsame

/-- What has happened to a host when some triggers have reached it. -/
theorem reaching_after (hobedient : Job.Obedient σ) (setup : Setup R)
    (triggers : List (Trigger σ O)) (hfits : ∀ t ∈ triggers, t.Fits typeOf) :
    let after := (Host.ofSetup setup : Host σ R O).after triggers
    after.Sound ∧ Reaching typeOf after ∧
      after.setup.cancelObservers = setup.cancelObservers := by
  induction triggers using List.reverseRecOn with
  | nil =>
    refine ⟨(kept_ofSetup setup).sound, ⟨?_, ?_⟩, rfl⟩
    · exact fun job hjob => absurd hjob List.not_mem_nil
    · exact fun job hjob => absurd hjob List.not_mem_nil
  | append_singleton triggers t ih =>
    obtain ⟨hs, hr, hobservers⟩ := ih fun t ht => hfits t (List.mem_append_left _ ht)
    have hfit : t.Fits typeOf := hfits t (List.mem_append_right _ (List.mem_singleton_self t))
    intro after
    have hafter : after = _ := after_concat _ triggers t
    rw [hafter]
    exact ⟨(triggered hobedient hs t).sound, hr.trigger hobedient hs hfit,
      (cancelObservers_trigger _ t).trans hobservers⟩

/-- As long as the jobs requested for an entity are all of one type, whatever else happens and in
whatever order, a cancellation reaches every job attached to its entity: the job is asked to cancel
and neither finishes nor fails, whatever happens later. -/
theorem cancel_reaches (hobedient : Job.Obedient σ) (setup : Setup R)
    (hobserved : setup.cancelObservers ≠ 0) (typeOf : Entity → NodeType)
    (triggers later : List (Trigger σ O)) (hfits : ∀ t ∈ triggers, t.Fits typeOf) :
    let h := (Host.ofSetup setup : Host σ R O).after triggers
    ∀ job ∈ h.jobs, (h.cancel job.entity).isCancelled job.id = true ∧
      ∀ d ∈ (h.cancel job.entity).ledger later, d.Silent job.id := by
  intro h job hjob
  obtain ⟨hs, hr, hobservers⟩ := reaching_after hobedient setup triggers hfits
  obtain ⟨hcancelled, hcondemned⟩ :=
    condemned_cancel hs (hobservers ▸ hobserved) hjob (hr.reached job hjob)
  exact ⟨hcancelled, hcondemned.ledger hobedient later⟩

/-- Requests for one entity, of some types. -/
def requested {σ O : Type} (nodeTypes : List NodeType) (computation : σ) : List (Trigger σ O) :=
  .spawn 0 :: nodeTypes.map fun nodeType => .request 0 nodeType (some computation)

/-- Of two jobs of one type that are requested one after the other, a cancellation reaches the one
that is attached. -/
theorem cancel_reaches_small :
    Job.Obedient (Search String Binary64 Source (NoCost String Binary64) (Sink Binary64)) ∧
      ∃ s : Search String Binary64 Source (NoCost String Binary64) (Sink Binary64),
        Sample.brief ⟨⟩ = .ok s ∧
          let h : Host (Search String Binary64 Source (NoCost String Binary64) (Sink Binary64))
              Binary64 (Outcome String Binary64) :=
            (Host.ofSetup (Setup.empty.addPlugin 0)).after (requested [0, 0] s)
          h.jobs.map (·.id) = [1] ∧ ∀ job ∈ h.jobs,
            (h.cancel job.entity).isCancelled job.id = true ∧
              ∀ d ∈ (h.cancel job.entity).ledger [.update fun _ => 99], d.Silent job.id := by
  have hobedient : Job.Obedient
      (Search String Binary64 Source (NoCost String Binary64) (Sink Binary64)) := fun _ => rfl
  obtain ⟨setup, hsetup⟩ : ∃ setup : Setup Binary64, setup = Setup.empty.addPlugin 0 := ⟨_, rfl⟩
  have hrun : ((Sample.brief (⟨⟩ : NoCost String Binary64)).toOption.map fun s =>
      ((Host.ofSetup setup : Host _ Binary64 (Outcome String Binary64)).after
        (requested [0, 0] s)).jobs.map (·.id)) = some [1] := by
    rw [hsetup]
    decide +kernel
  obtain ⟨s, hnew, hjobs⟩ := Search.exists_of_toOption_map hrun
  rw [hsetup] at hjobs
  refine ⟨hobedient, s, hnew, hjobs, ?_⟩
  refine cancel_reaches hobedient _ (by decide) (fun _ => 0) _ _ fun t ht => ?_
  simp only [requested, List.map_cons, List.map_nil, List.mem_cons, List.not_mem_nil,
    or_false] at ht
  rcases ht with rfl | rfl | rfl
  · exact trivial
  · exact rfl
  · exact rfl

/-- Of two jobs of different types that are attached to one entity, a cancellation reaches the later
one only: the earlier one finishes in the next frame. -/
theorem cancel_misses_small :
    ∃ s : Search String Binary64 Source (NoCost String Binary64) (Sink Binary64),
      Sample.brief ⟨⟩ = .ok s ∧
        ∃ h : Host (Search String Binary64 Source (NoCost String Binary64) (Sink Binary64))
          Binary64 (Outcome String Binary64),
          h = (Host.ofSetup ((Setup.empty.addPlugin 0).addPlugin 1)).after (requested [0, 1] s) ∧
            h.jobs.map (fun job => (job.id, job.entity)) = [(0, 0), (1, 0)] ∧
            (h.cancel 0).isCancelled 0 = false ∧
            (((h.cancel 0).frames [.update fun _ => 99]).flatMap (·.finished.toList)).length
              = 1 := by
  obtain ⟨setup, hsetup⟩ : ∃ setup : Setup Binary64,
    setup = (Setup.empty.addPlugin 0).addPlugin 1 := ⟨_, rfl⟩
  have hrun : ((Sample.brief (⟨⟩ : NoCost String Binary64)).toOption.map fun s =>
      let h : Host _ Binary64 (Outcome String Binary64) :=
        (Host.ofSetup setup).after (requested [0, 1] s)
      (h.jobs.map fun job => (job.id, job.entity), (h.cancel 0).isCancelled 0,
        (((h.cancel 0).frames [.update fun _ => 99]).flatMap (·.finished.toList)).length))
          = some ([(0, 0), (1, 0)], false, 1) := by
    rw [hsetup]
    decide +kernel
  obtain ⟨s, hnew, hseen⟩ := Search.exists_of_toOption_map hrun
  obtain ⟨hjobs, hseen⟩ := Prod.mk.inj hseen
  obtain ⟨hmissed, hfinished⟩ := Prod.mk.inj hseen
  exact ⟨s, hnew, _, by rw [hsetup], hjobs, hmissed, hfinished⟩

end Espalier.Host
