import Espalier.Proofs.Host.Handles

/-!
# Building a host

A host is built from plugins and, where the kinds of events are to be restricted, a bus. Whether the
shared parts are registered is decided by whatever comes first: once if that is a plugin, however
many plugins and buses follow, and never if it is a bus (`shared_build`). A host that was built with
the bus first runs its jobs, but never writes a message and does not heed cancellations
(`silent_of_busFirst`).
-/

namespace Espalier

namespace Setup

variable {R : Type}

/-- What a host is built from. -/
inductive Part (R : Type) where
  | plugin (nodeType : NodeType)
  | bus (bus : Bus R)

def install (s : Setup R) : Part R → Setup R
  | .plugin nodeType => s.addPlugin nodeType
  | .bus bus => s.insertBus bus

def build (parts : List (Part R)) : Setup R := parts.foldl install .empty

/-- Every shared part has been registered a number of times. -/
structure Shared (s : Setup R) (times : Nat) : Prop where
  messageQueues : s.messageQueues = times
  drains : s.drains = times
  cancelObservers : s.cancelObservers = times
  settingsLoaders : s.settingsLoaders = times

/-- With a bus there, nothing is registered any more. -/
theorem Shared.install {s : Setup R} {times : Nat} (hs : s.Shared times)
    (hbus : s.bus.isSome = true) (part : Part R) :
    (s.install part).Shared times ∧ (s.install part).bus.isSome = true := by
  cases part with
  | bus bus => exact ⟨⟨hs.messageQueues, hs.drains, hs.cancelObservers, hs.settingsLoaders⟩, rfl⟩
  | plugin nodeType =>
    obtain ⟨bus, hsome⟩ := Option.isSome_iff_exists.mp hbus
    have hkept : s.share = s := by
      unfold share
      rw [hsome]
    unfold Setup.install addPlugin
    rw [hkept]
    exact ⟨⟨hs.messageQueues, hs.drains, hs.cancelObservers, hs.settingsLoaders⟩, hbus⟩

/-- How often the shared parts are registered. -/
def timesShared : List (Part R) → Nat
  | .plugin _ :: _ => 1
  | _ => 0

/-- The shared parts are registered once if a plugin comes first, and otherwise not at all. -/
theorem shared_build (parts : List (Part R)) : (build parts).Shared (timesShared parts) := by
  cases parts with
  | nil => exact ⟨rfl, rfl, rfl, rfl⟩
  | cons first parts =>
    have hfirst : ((empty : Setup R).install first).Shared (timesShared (first :: parts)) ∧
        ((empty : Setup R).install first).bus.isSome = true := by
      cases first <;> exact ⟨⟨rfl, rfl, rfl, rfl⟩, rfl⟩
    exact (List.foldlRecOn (motive := fun s : Setup R => s.Shared (timesShared (first :: parts)) ∧
      s.bus.isSome = true) parts _ hfirst fun s hs part _ => hs.1.install hs.2 part).1

end Setup

namespace Host

variable {σ R O : Type} [Hosted σ R O] {h : Host σ R O}

/-- Messages come from nowhere but the drain. -/
theorem messages_runTypes (hdrains : h.setup.drains = 0) (room : Job σ O → Nat)
    (nodeTypes : List NodeType) :
    let after := nodeTypes.foldl (fun (h, frame) nodeType => runType room nodeType h frame)
      (h, Frame.empty)
    after.2.messages = #[] ∧ after.1.setup.drains = 0 := by
  refine List.foldlRecOn (motive := fun after : Host σ R O × Frame R O =>
    after.2.messages = #[] ∧ after.1.setup.drains = 0) nodeTypes _ ⟨rfl, hdrains⟩
    fun after hafter nodeType _ => ⟨?_, ?_⟩
  · exact (messages_runType room nodeType after.1 after.2).trans hafter.1
  · exact (congrArg Setup.drains (setup_runType room nodeType after.1 after.2)).trans hafter.2

/-- Without a drain a frame has no messages. -/
theorem messages_frame (hdrains : h.setup.drains = 0) (room : Job σ O → Nat) :
    (h.frame room).2.messages = #[] ∧ (h.frame room).1.setup.drains = 0 := by
  obtain ⟨hmessages, hnone⟩ := messages_runTypes hdrains room h.setup.nodeTypes
  unfold Host.frame drain
  dsimp only
  rw [if_pos hnone]
  exact ⟨hmessages, hnone⟩

theorem drains_trigger (hdrains : h.setup.drains = 0) (t : Trigger σ O) :
    (h.trigger t).setup.drains = 0 := by
  cases t with
  | spawn entity => exact hdrains
  | request entity nodeType computation =>
    exact (congrArg Setup.drains (setup_request h entity nodeType computation)).trans hdrains
  | cancel entity => exact (congrArg Setup.drains (setup_cancel h entity)).trans hdrains
  | update room => exact (messages_frame hdrains room).2

theorem messages_frames (hdrains : h.setup.drains = 0) (triggers : List (Trigger σ O)) :
    ∀ frame ∈ h.frames triggers, frame.messages = #[] := by
  induction triggers generalizing h with
  | nil => exact fun frame hframe => absurd hframe List.not_mem_nil
  | cons t triggers ih =>
    intro frame hframe
    rcases List.mem_append.mp hframe with hnow | hlater
    · cases t with
      | spawn | request | cancel => exact absurd hnow List.not_mem_nil
      | update room =>
        rw [List.mem_singleton.mp hnow]
        exact (messages_frame hdrains room).1
    · exact ih (drains_trigger hdrains t) frame hlater

/-- A host that was built with the bus first writes no message, whatever happens to it, and nothing
comes of a cancellation. -/
theorem silent_of_busFirst (bus : Bus R) (parts : List (Setup.Part R))
    (triggers : List (Trigger σ O)) :
    let h : Host σ R O := ofSetup (Setup.build (.bus bus :: parts))
    (∀ frame ∈ h.frames triggers, frame.messages = #[]) ∧
      ∀ entity, (h.after triggers).cancel entity = h.after triggers := by
  intro h
  have hshared : h.setup.Shared 0 := Setup.shared_build (.bus bus :: parts)
  refine ⟨messages_frames hshared.drains triggers, fun entity => ?_⟩
  have hdeaf : (h.after triggers).setup.cancelObservers = 0 := by
    refine List.foldlRecOn (motive := fun after : Host σ R O => after.setup.cancelObservers = 0)
      triggers _ hshared.cancelObservers fun after hafter t _ => ?_
    exact (cancelObservers_trigger after t).trans hafter
  unfold cancel
  rw [if_pos hdeaf]

end Host

end Espalier
