import Espalier.Proofs.Store.Freezing
import Espalier.Proofs.Store.Folding

/-!
# Names of growths

`Store.Sound` says that segments count the names that hold them, and one branch more if there is
one that has no name at the moment. A name may be given up (`Sound.drop`) and given to such a branch
(`Sound.put`), a branch may freeze its tail (`settled_freeze`), and a branch may be renewed along
with the segments (`Sound.renew`). Each says what becomes of the lists that the names stand for.
-/

namespace Espalier.Store

open Segments

variable {N : Type} {s : Store N} {name : String} {branch : Branch N} {pending : Option SegmentId}

/-- How many of some branches have a segment as their head. -/
def headCount (branches : Std.ExtTreeMap String (Branch N)) (id : SegmentId) : Nat :=
  tally branches fun branch => branch.head == some id

/-- A store between two steps, with one hold that belongs to a branch without a name if
`pending` is its head. -/
structure Sound (s : Store N) (pending : Option SegmentId) : Prop where
  segments : s.segments.Sound s.fresh (withHold (headCount s.branches) pending)
  frozen : ∀ (name : String) (branch : Branch N), s.branches[name]? = some branch →
    branch.frozen = (s.segments.upTo branch.head).length

/-- The nodes a name stands for, if it stands for any. -/
def view (s : Store N) (name : String) : Option (List N) := s.branches[name]?.map s.branchNodes

/-- Lists by name, with another list or none for one of the names. -/
def assign (lists : String → Option (List N)) (name : String) (nodes : Option (List N)) :
    String → Option (List N) :=
  fun other => if other = name then nodes else lists other

theorem branchNodes_eq (s : Store N) (branch : Branch N) :
    s.branchNodes branch = s.segments.upTo branch.head ++ branch.tail.toList := by
  unfold branchNodes
  cases branch.head <;> rfl

theorem sound_empty : (empty : Store N).Sound none := by
  constructor
  case segments =>
    have hcount : headCount (∅ : Std.ExtTreeMap String (Branch N)) = fun _ => 0 := by
      funext id
      exact tally_empty _
    rw [withHold_none]
    show Segments.Sound (∅ : Segments N) 0 (headCount ∅)
    rw [hcount]
    exact Segments.sound_empty
  case frozen =>
    intro name branch h
    exact absurd h (by simp [empty])

/-! ## Counting the names of a segment -/

theorem headCount_insert (branches : Std.ExtTreeMap String (Branch N)) (name : String)
    (branch : Branch N) :
    headCount (branches.insert name branch)
      = withHold (headCount (branches.erase name)) branch.head := by
  funext id
  exact tally_insert branches name branch _

theorem headCount_of_there {branches : Std.ExtTreeMap String (Branch N)}
    (h : branches[name]? = some branch) :
    headCount branches = withHold (headCount (branches.erase name)) branch.head := by
  funext id
  exact tally_eq_add_erase h _

/-- A name holds the head of its branch. -/
theorem headCount_pos {branches : Std.ExtTreeMap String (Branch N)}
    (h : branches[name]? = some branch) : ∀ id, branch.head = some id → 0 < headCount branches id :=
  fun _ hid => tally_pos h (by simp [hid])

/-- Renewing the segments under a set of names that stays as it is. -/
theorem branchNodes_congr {s' : Store N}
    (h : s'.segments.upTo branch.head = s.segments.upTo branch.head) :
    s'.branchNodes branch = s.branchNodes branch := by
  rw [branchNodes_eq, branchNodes_eq, h]

/-! ## Giving up a name -/

theorem branches_drop (s : Store N) (name : String) :
    (s.drop name).branches = s.branches.erase name := by
  unfold drop
  cases h : s.branches[name]? with
  | none => exact (erase_eq_self h).symm
  | some branch => rfl

/-- Dropping a name keeps the store sound and every chain that is held otherwise. -/
theorem Sound.drop (hs : s.Sound pending) (name : String) :
    (s.drop name).Sound pending ∧
      ∀ head : Option SegmentId,
        (∀ id, head = some id →
          0 < withHold (headCount (s.branches.erase name)) pending id) →
        (s.drop name).segments.upTo head = s.segments.upTo head := by
  unfold Store.drop
  cases h : s.branches[name]? with
  | none => exact ⟨hs, fun _ _ => rfl⟩
  | some branch =>
    dsimp only
    have hseg := hs.segments
    rw [headCount_of_there h, withHold_comm] at hseg
    -- What is left of the names holds what it held before.
    have hrest : ∀ (other : String) (found : Branch N),
        (s.branches.erase name)[other]? = some found →
        s.branches[other]? = some found ∧ ∀ id, found.head = some id →
          0 < withHold (headCount (s.branches.erase name)) pending id := by
      intro other found hfound
      exact ⟨(there_of_erase hfound).2, fun id hid =>
        Nat.lt_of_lt_of_le (headCount_pos hfound id hid) (le_withHold _ _ _)⟩
    -- Only a head can be released; a name with a tail alone leaves the segments as they are.
    cases hhead : branch.head with
    | none =>
      rw [hhead, withHold_none] at hseg
      refine ⟨⟨hseg, fun other found hfound => ?_⟩, fun _ _ => rfl⟩
      exact hs.frozen other found (hrest other found hfound).1
    | some head =>
      rw [hhead] at hseg
      obtain ⟨hreleased, hkept⟩ := hseg.release
      refine ⟨⟨hreleased, fun other found hfound => ?_⟩, fun head hroot =>
        hreleased.upTo_kept hkept hroot⟩
      obtain ⟨hold, hroot⟩ := hrest other found hfound
      rw [hs.frozen other found hold]
      exact congrArg List.length (hreleased.upTo_kept hkept hroot).symm

/-- A dropped name stands for nothing any more, and the others for what they did. -/
theorem Sound.view_drop (hs : s.Sound pending) (name : String) :
    (s.drop name).view = assign s.view name none := by
  funext other
  unfold assign
  by_cases he : name = other
  · rw [if_pos he.symm]
    unfold view
    rw [branches_drop, getElem?_erase_ite, if_pos he, Option.map_none]
  · rw [if_neg (Ne.symm he)]
    unfold view
    rw [branches_drop, getElem?_erase_ne s.branches he]
    refine Option.map_congr fun found hfound => ?_
    refine branchNodes_congr ((hs.drop name).2 found.head fun id hid => ?_)
    have hleft : (s.branches.erase name)[other]? = some found :=
      (getElem?_erase_ne s.branches he).trans hfound
    exact Nat.lt_of_lt_of_le (headCount_pos hleft id hid) (le_withHold _ _ _)

/-! ## Giving a branch a name -/

/-- A name may be given to the branch whose hold is pending; it then stands for the branch. -/
theorem Sound.put (hs : s.Sound branch.head)
    (hfrozen : branch.frozen = (s.segments.upTo branch.head).length) (name : String) :
    (s.put name branch).Sound none := by
  obtain ⟨hdropped, hupTo⟩ := hs.drop name
  have hown := hupTo branch.head fun id hid => withHold_pos hid
  unfold Store.put
  constructor
  case segments =>
    have hseg := hdropped.segments
    rw [branches_drop] at hseg
    rw [withHold_none]
    show (s.drop name).segments.Sound (s.drop name).fresh
      (headCount ((s.drop name).branches.insert name branch))
    have htwice : (s.branches.erase name).erase name = s.branches.erase name :=
      erase_eq_self (by rw [getElem?_erase_ite, if_pos rfl])
    rw [headCount_insert, branches_drop, htwice]
    exact hseg
  case frozen =>
    intro other found hfound
    rcases new_or_there_of_insert hfound with ⟨-, rfl⟩ | ⟨-, hold⟩
    · rw [hfrozen]
      exact congrArg List.length hown.symm
    · exact hdropped.frozen other found hold

theorem Sound.view_put (hs : s.Sound branch.head) (name : String) :
    (s.put name branch).view = assign s.view name (some (s.branchNodes branch)) := by
  funext other
  have hview := congrFun (hs.view_drop name) other
  unfold assign at hview ⊢
  have hown := (hs.drop name).2 branch.head fun id hid => withHold_pos hid
  by_cases he : other = name
  · rw [if_pos he]
    unfold view Store.put
    rw [getElem?_insert_ite, if_pos he.symm]
    exact congrArg some (branchNodes_congr hown)
  · rw [if_neg he] at hview ⊢
    rw [← hview]
    unfold view Store.put
    rw [getElem?_insert_ne _ branch (Ne.symm he)]
    rfl

/-! ## Freezing a tail -/

/-- A branch was frozen: all of its nodes are in its chain now, and whatever is held otherwise
stands for the nodes it stood for. -/
structure Settled (roots : SegmentId → Nat) (s : Store N) (branch : Branch N) (s' : Store N)
    (branch' : Branch N) : Prop where
  branches : s'.branches = s.branches
  segments : s'.segments.Sound s'.fresh (withHold roots branch'.head)
  frozen : branch'.frozen = (s'.segments.upTo branch'.head).length
  tail : branch'.tail = #[]
  nodes : s'.segments.upTo branch'.head = s.branchNodes branch
  others : ∀ head : Option SegmentId, (∀ id, head = some id → 0 < roots id) →
    s'.segments.upTo head = s.segments.upTo head

theorem size_eq_length (hfrozen : branch.frozen = (s.segments.upTo branch.head).length) :
    branch.size = (s.branchNodes branch).length := by
  rw [branchNodes_eq, List.length_append, Branch.size, hfrozen]
  rfl

variable {roots : SegmentId → Nat}

/-- A branch may freeze its tail as a segment of its own. -/
theorem settled_start (hs : s.segments.Sound s.fresh (withHold roots branch.head))
    (hfrozen : branch.frozen = (s.segments.upTo branch.head).length) :
    Settled roots s branch (s.startSegment branch).1 (s.startSegment branch).2 := by
  have hsound := hs.start branch.tail
  rw [← hfrozen] at hsound
  have hnodes : (s.startSegment branch).1.segments.nodes s.fresh = s.branchNodes branch := by
    rw [branchNodes_eq]
    exact nodes_start hs branch.frozen 1 branch.tail
  refine ⟨rfl, hsound, ?_, rfl, hnodes, fun head hroot => upTo_congr fun id hid => ?_⟩
  · show branch.size = ((s.startSegment branch).1.segments.nodes s.fresh).length
    rw [hnodes, size_eq_length hfrozen]
  · exact nodes_start_of_there hs _
      (hs.rooted id (Nat.lt_of_lt_of_le (hroot id hid) (le_withHold _ _ _)))

/-- A branch may extend a head that nobody else holds by its tail. -/
theorem settled_extend {head : SegmentId} {segment : Segment N}
    (hs : s.segments.Sound s.fresh (withHold roots (some head))) (hhead : branch.head = some head)
    (h : s.segments[head]? = some segment) (hone : segment.holders = 1)
    (hfrozen : branch.frozen = (s.segments.upTo branch.head).length) :
    Settled roots s branch
      { s with
        segments := s.segments.insert head { segment with nodes := segment.nodes ++ branch.tail } }
      { head := some head, frozen := branch.size, tail := #[] } := by
  have hfree : ∀ id, 0 < roots id → head ≠ id := by
    rintro id hpos rfl
    have hcount := hs.counted head segment h
    rw [withHold_some_self] at hcount
    omega
  have hnodes := nodes_extend hs h hone branch.tail
  have hbranch : s.branchNodes branch = s.segments.nodes head ++ branch.tail.toList := by
    rw [branchNodes_eq, hhead]
    rfl
  refine ⟨rfl, hs.extend h hone branch.tail, ?_, rfl, hnodes.trans hbranch.symm,
    fun other hother => upTo_congr fun id hid => ?_⟩
  · show branch.size = List.length (Segments.nodes _ head)
    rw [hnodes, ← hbranch, size_eq_length hfrozen]
  · exact nodes_extend_of_ne hs h hone branch.tail (hfree id (hother id hid))

/-- What comes of freezing a branch: nothing, a new segment, or a longer head. -/
inductive Freezes (s : Store N) (branch : Branch N) : Store N × Branch N → Prop where
  | nothing (tail : branch.tail = #[]) : Freezes s branch (s, branch)
  | started (tail : branch.tail ≠ #[]) : Freezes s branch (s.startSegment branch)
  | extended {head : SegmentId} {segment : Segment N} (tail : branch.tail ≠ #[])
    (heads : branch.head = some head) (there : s.segments[head]? = some segment)
    (alone : segment.holders = 1) :
    Freezes s branch
      ({ s with
          segments := s.segments.insert head
            { segment with nodes := segment.nodes ++ branch.tail } },
        { head := some head, frozen := branch.size, tail := #[] })

theorem freezes (s : Store N) (branch : Branch N) : Freezes s branch (s.freeze branch) := by
  unfold freeze
  by_cases hempty : branch.tail.isEmpty
  · rw [if_pos hempty]
    exact .nothing (Array.isEmpty_iff.mp hempty)
  · rw [if_neg hempty]
    have htail : branch.tail ≠ #[] := fun heq => hempty (Array.isEmpty_iff.mpr heq)
    cases hhead : branch.head with
    | none => exact .started htail
    | some head =>
      dsimp only
      cases h : s.segments[head]? with
      | none => exact .started htail
      | some segment =>
        dsimp only
        by_cases hone : segment.holders = 1
        · rw [if_neg (fun hne => hne hone), modify_eq_insert h]
          exact .extended htail hhead h hone
        · rw [if_pos hone]
          exact .started htail

/-- Freezing a branch whose hold is pending settles it. -/
theorem settled_freeze (hs : s.segments.Sound s.fresh (withHold roots branch.head))
    (hfrozen : branch.frozen = (s.segments.upTo branch.head).length) :
    Settled roots s branch (s.freeze branch).1 (s.freeze branch).2 := by
  obtain ⟨result, hresult⟩ : ∃ result, s.freeze branch = result := ⟨_, rfl⟩
  have hfreezes := s.freezes branch
  rw [hresult] at hfreezes ⊢
  cases hfreezes with
  | nothing tail =>
    refine ⟨rfl, hs, hfrozen, tail, ?_, fun _ _ => rfl⟩
    rw [branchNodes_eq, tail, List.append_nil]
  | started => exact settled_start hs hfrozen
  | extended _ heads there alone => exact settled_extend (heads ▸ hs) heads there alone hfrozen

/-! ## Renewing a branch -/

/-- Renewing one branch along with the segments, while the others keep what they stand for. -/
theorem Sound.renew (hs : s.Sound none) (branch' : Branch N) {segments : Segments N}
    {fresh : SegmentId}
    (hseg : segments.Sound fresh
      (withHold (withHold (headCount (s.branches.erase name)) branch'.head) pending))
    (hfrozen : branch'.frozen = (segments.upTo branch'.head).length)
    (hothers : ∀ head : Option SegmentId,
      (∀ id, head = some id → 0 < headCount (s.branches.erase name) id) →
      segments.upTo head = s.segments.upTo head) :
    Sound { segments, branches := s.branches.insert name branch', fresh } pending ∧
      view { segments, branches := s.branches.insert name branch', fresh }
        = assign s.view name (some (segments.upTo branch'.head ++ branch'.tail.toList)) := by
  have hkept : ∀ (other : String) (found : Branch N), name ≠ other →
      s.branches[other]? = some found → segments.upTo found.head = s.segments.upTo found.head := by
    intro other found he hfound
    have hthere : (s.branches.erase name)[other]? = some found :=
      (getElem?_erase_ne s.branches he).trans hfound
    exact hothers found.head (headCount_pos hthere)
  refine ⟨⟨?_, fun other found hfound => ?_⟩, ?_⟩
  · show segments.Sound fresh (withHold (headCount (s.branches.insert name branch')) pending)
    rw [headCount_insert]
    exact hseg
  · rcases new_or_there_of_insert hfound with ⟨-, rfl⟩ | ⟨he, hold⟩
    · exact hfrozen
    · rw [hs.frozen other found hold]
      exact congrArg List.length (hkept other found he hold).symm
  · funext other
    unfold assign
    by_cases he : name = other
    · rw [if_pos he.symm]
      unfold view
      rw [getElem?_insert_ite, if_pos he, Option.map_some, branchNodes_eq]
    · rw [if_neg (Ne.symm he)]
      unfold view
      rw [getElem?_insert_ne s.branches branch' he]
      refine Option.map_congr fun found hfound => ?_
      rw [branchNodes_eq, branchNodes_eq, hkept other found he hfound]

theorem view_of_there (h : s.branches[name]? = some branch) :
    s.view name = some (s.branchNodes branch) := by
  unfold view
  rw [h]
  rfl

/-- Nothing changes when a name is assigned what it stands for. -/
theorem assign_self (lists : String → Option (List N)) (name : String) :
    assign lists name (lists name) = lists := by
  funext other
  unfold assign
  by_cases he : other = name
  · rw [if_pos he, he]
  · rw [if_neg he]

/-- A renewed branch with a hold to spare may be given another name as well. -/
theorem Sound.share (hs : s.Sound none) {segments : Segments N} {fresh : SegmentId}
    {branch' : Branch N}
    (hseg : segments.Sound fresh
      (withHold (withHold (headCount (s.branches.erase name)) branch'.head) branch'.head))
    (hfrozen : branch'.frozen = (segments.upTo branch'.head).length)
    (hnodes : s.view name = some (segments.upTo branch'.head ++ branch'.tail.toList))
    (hothers : ∀ head : Option SegmentId,
      (∀ id, head = some id → 0 < headCount (s.branches.erase name) id) →
      segments.upTo head = s.segments.upTo head) (copy : String) :
    (Store.put { segments, branches := s.branches.insert name branch', fresh } copy branch').Sound
        none ∧
      (Store.put { segments, branches := s.branches.insert name branch', fresh } copy branch').view
        = assign s.view copy (s.view name) := by
  obtain ⟨hrenewed, hview⟩ := hs.renew _ hseg hfrozen hothers
  refine ⟨hrenewed.put hfrozen copy, ?_⟩
  rw [hrenewed.view_put copy, branchNodes_eq, hview, hnodes.symm, assign_self]

end Espalier.Store
