import Espalier.Proofs.Store.Segments

/-!
# Keeping segments sound

A hold that is taken or given up leaves segments sound. `hold` and `release` change one count
(`recount`), and a release that takes the last holder takes the segment along (`eraseLeaf`), whose
hold on its parent is released in turn.

Either leaves whatever is still there standing for the same nodes, which is what `Keeps` says.
`Sound.replace` is what a change of one segment has to observe.
-/

namespace Espalier.Segments

variable {N : Type} {s s' : Segments N} {fresh id : SegmentId} {roots : SegmentId → Nat}
  {segment : Segment N}

/-- Whatever is there now was there before and stands for the same nodes. -/
def Keeps (s s' : Segments N) : Prop :=
  ∀ (id : SegmentId) (segment' : Segment N), s'[id]? = some segment' →
    (∃ segment : Segment N, s[id]? = some segment) ∧ s'.nodes id = s.nodes id

theorem keeps_refl (s : Segments N) : Keeps s s :=
  fun _ segment h => ⟨⟨segment, h⟩, rfl⟩

theorem keeps_trans {s₁ s₂ s₃ : Segments N} (h₁ : Keeps s₁ s₂) (h₂ : Keeps s₂ s₃) :
    Keeps s₁ s₃ := by
  intro id segment₃ h₃
  obtain ⟨⟨segment₂, hs₂⟩, hn₂⟩ := h₂ id segment₃ h₃
  obtain ⟨hs₁, hn₁⟩ := h₁ id segment₂ hs₂
  exact ⟨hs₁, hn₂.trans hn₁⟩

/-- What comes before a place that something outside holds is kept. -/
theorem Sound.upTo_kept (hs : s'.Sound fresh roots) (hk : Keeps s s') {head : Option SegmentId}
    (hroot : ∀ id, head = some id → 0 < roots id) : s'.upTo head = s.upTo head := by
  refine upTo_congr fun id hid => ?_
  obtain ⟨segment, hsegment⟩ := hs.rooted id (hroot id hid)
  exact (hk id segment hsegment).2

/-! ## Counting holders -/

/-- Chains do not read how often a segment is held. -/
theorem nodes_recount (h : s[id]? = some segment) (count : Nat) (other : SegmentId) :
    nodes (s.insert id { segment with holders := count }) other = s.nodes other := by
  refine nodes_congr (fun _ => True) (fun _ _ _ _ _ _ => trivial) ?_ other trivial
  intro other _
  rw [getElem?_insert_ite]
  by_cases hid : id = other
  · subst hid
    rw [if_pos rfl, h]
    rfl
  · rw [if_neg hid]

theorem keeps_recount (h : s[id]? = some segment) (count : Nat) :
    Keeps s (s.insert id { segment with holders := count }) := by
  intro other found hfound
  refine ⟨?_, nodes_recount h count other⟩
  rcases new_or_there_of_insert hfound with ⟨rfl, -⟩ | ⟨-, hthere⟩
  · exact ⟨segment, h⟩
  · exact ⟨found, hthere⟩

/-- A segment may be replaced by one with the same place in the chains, provided that nobody
continues what changes; its count may change along with the holds from outside. -/
theorem Sound.replace {roots' : SegmentId → Nat} {new : Segment N} (hs : s.Sound fresh roots)
    (h : s[id]? = some segment) (hparent : new.parent = segment.parent)
    (hstart : new.start = segment.start) (hpos : 0 < new.holders)
    (hnodes : ∀ (other : SegmentId) (found : Segment N) (parent : SegmentId),
      s[other]? = some found → found.parent = some parent →
      nodes (s.insert id new) parent = s.nodes parent)
    (hothers : ∀ other, id ≠ other → roots' other = roots other)
    (hid : roots' id + segment.holders = roots id + new.holders) :
    Sound (s.insert id new) fresh roots' := by
  have hchildren := children_insert_of_parent_eq h hparent
  have hthere : ∀ (other : SegmentId) (old : Segment N), s[other]? = some old →
      ∃ found : Segment N, (s.insert id new)[other]? = some found := by
    intro other old hold
    by_cases he : id = other
    · exact ⟨new, by rw [getElem?_insert_ite, if_pos he]⟩
    · exact ⟨old, (getElem?_insert_ne s new he).trans hold⟩
  have hparents : ∀ (other : SegmentId) (old : Segment N) (parent : SegmentId),
      s[other]? = some old → old.parent = some parent →
      (∃ before : Segment N, (s.insert id new)[parent]? = some before) ∧
        nodes (s.insert id new) parent = s.nodes parent := by
    intro other old parent hold hp
    obtain ⟨-, before, hbefore⟩ := hs.older other old parent hold hp
    exact ⟨hthere parent before hbefore, hnodes other old parent hold hp⟩
  refine sound_of_fits (fun other found hfound => ?_) fun other hroot => ?_
  · rcases new_or_there_of_insert hfound with ⟨rfl, rfl⟩ | ⟨he, hold⟩
    · -- The new one stands where the old one stood; only its count is its own.
      have hfits := hs.fits h
      have hcount := hfits.counted
      constructor
      case known => exact hfits.known
      case older =>
        intro parent hp
        rw [hparent] at hp
        exact ⟨(hfits.older parent hp).1, (hparents id segment parent h hp).1⟩
      case starts =>
        rw [hstart, hparent, upTo_congr fun parent hp => (hparents id segment parent h hp).2]
        exact hfits.starts
      case counted =>
        rw [hchildren id]
        omega
      case held => exact hpos
    · refine (hs.fits hold).kept (Nat.le_refl _)
        (fun parent => hparents other found parent hold) ?_
      rw [hothers other he, hchildren other]
  · by_cases he : id = other
    · exact hthere other segment (he ▸ h)
    · rw [hothers other he] at hroot
      obtain ⟨old, hold⟩ := hs.rooted other hroot
      exact hthere other old hold

/-- The count of a segment may change along with the holds from outside. -/
theorem Sound.recount {roots' : SegmentId → Nat} {count : Nat} (hs : s.Sound fresh roots)
    (h : s[id]? = some segment) (hpos : 0 < count)
    (hothers : ∀ other, id ≠ other → roots' other = roots other)
    (hid : roots' id + segment.holders = roots id + count) :
    Sound (s.insert id { segment with holders := count }) fresh roots' :=
  hs.replace h rfl rfl hpos (fun _ _ parent _ _ => nodes_recount h count parent) hothers hid

/-- A hold from outside may be added to a segment that is there. -/
theorem Sound.hold (hs : s.Sound fresh roots) (h : s[id]? = some segment) :
    (s.hold id).Sound fresh (withHold roots (some id)) ∧ Keeps s (s.hold id) := by
  rw [Segments.hold, h]
  dsimp only
  refine ⟨hs.recount h (Nat.succ_pos _) ?_ ?_, keeps_recount h _⟩
  · intro other hother
    exact withHold_of_ne fun heq => hother (Option.some.inj heq)
  · rw [withHold_some_self]
    omega

/-- The hold of a branch may be taken twice. -/
theorem Sound.hold_head {head : Option SegmentId} :
    s.Sound fresh (withHold roots head) →
    Sound (match head with | none => s | some id => s.hold id) fresh
        (withHold (withHold roots head) head) ∧
      Keeps s (match head with | none => s | some id => s.hold id) := by
  intro hs
  cases head with
  | none => exact ⟨hs, keeps_refl s⟩
  | some id =>
    obtain ⟨segment, h⟩ := hs.head_there id rfl
    exact hs.hold h

/-- Taking out a segment takes it from the children of its parent. -/
theorem children_erase (h : s[id]? = some segment) (other : SegmentId) :
    s.children other = children (s.erase id) other + (segment.parent == some other).toNat :=
  tally_eq_add_erase h _

/-- A segment whose only holder is outside may go; its hold on its parent is then outside. -/
theorem Sound.eraseLeaf (hs : s.Sound fresh (withHold roots (some id)))
    (h : s[id]? = some segment) (hone : segment.holders = 1) :
    Sound (s.erase id) fresh (withHold roots segment.parent) ∧ Keeps s (s.erase id) := by
  have hcount := hs.counted id segment h
  rw [withHold_some_self] at hcount
  have hroots : roots id = 0 := by omega
  have hchildren : s.children id = 0 := by omega
  -- Nobody continues the segment, so no other chain passes through it.
  have hnodes : ∀ other, id ≠ other → nodes (s.erase id) other = s.nodes other := by
    refine nodes_congr (fun other => id ≠ other) ?_ ?_
    · intro other found parent _ hfound hparent heq
      exact parent_ne_of_children_eq_zero hchildren hfound (heq ▸ hparent)
    · intro other he
      rw [getElem?_erase_ne s he]
  have hrest : ∀ other, id ≠ other → withHold roots (some id) other = roots other :=
    fun other he => withHold_of_ne fun heq => he (Option.some.inj heq)
  refine ⟨sound_of_fits (fun other found hfound => ?_) fun other hroot => ?_,
    fun other found hfound => ?_⟩
  · obtain ⟨he, hold⟩ := there_of_erase hfound
    refine (hs.fits hold).kept (Nat.le_refl _) (fun parent hp => ?_) ?_
    · have hne : id ≠ parent := fun heq =>
        parent_ne_of_children_eq_zero hchildren hold (heq ▸ hp)
      obtain ⟨-, before, hbefore⟩ := hs.older other found parent hold hp
      exact ⟨⟨before, (getElem?_erase_ne s hne).trans hbefore⟩, hnodes parent hne⟩
    · rw [hrest other he, children_erase h other]
      unfold withHold
      show roots other + _ + _ = roots other + (_ + _)
      omega
  · by_cases hp : segment.parent = some other
    · obtain ⟨hlt, before, hbefore⟩ := hs.older id segment other h hp
      exact ⟨before, (getElem?_erase_ne s (Nat.ne_of_gt hlt)).trans hbefore⟩
    · rw [withHold_of_ne hp] at hroot
      have he : id ≠ other := fun heq => by
        subst heq
        omega
      obtain ⟨found, hfound⟩ := hs.rooted other (by rw [hrest other he]; exact hroot)
      exact ⟨found, (getElem?_erase_ne s he).trans hfound⟩
  · obtain ⟨he, hold⟩ := there_of_erase hfound
    exact ⟨⟨found, hold⟩, hnodes other he⟩

/-- A hold from outside may be given up. -/
theorem Sound.release (hs : s.Sound fresh (withHold roots (some id))) :
    (s.release id).Sound fresh roots ∧ Keeps s (s.release id) := by
  -- The chain is followed upwards, so the induction is on the number of the segment.
  induction id using Nat.strongRecOn generalizing s with
  | ind id ih =>
    obtain ⟨segment, h⟩ := hs.rooted id (withHold_pos rfl)
    rw [Segments.release, h]
    dsimp only
    by_cases hmany : 1 < segment.holders
    · rw [if_pos hmany]
      refine ⟨hs.recount h (by omega) ?_ ?_, keeps_recount h _⟩
      · intro other hother
        exact (withHold_of_ne fun heq => hother (Option.some.inj heq)).symm
      · rw [withHold_some_self]
        omega
    · rw [if_neg hmany]
      have hheld := hs.held id segment h
      obtain ⟨herased, hkept⟩ := hs.eraseLeaf h (by omega)
      cases hp : segment.parent with
      | none =>
        rw [hp, withHold_none] at herased
        exact ⟨herased, hkept⟩
      | some parent =>
        rw [hp] at herased
        obtain ⟨hlt, -⟩ := hs.older id segment parent h hp
        dsimp only
        rw [if_pos hlt]
        obtain ⟨hsound, hrest⟩ := ih parent hlt herased
        exact ⟨hsound, keeps_trans hkept hrest⟩

end Espalier.Segments
