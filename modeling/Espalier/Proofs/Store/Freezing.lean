import Espalier.Proofs.Store.Upkeep

/-!
# Freezing tails

A tail is frozen in one of two ways: `extend` appends it to a head segment that nobody else holds,
`start` makes it a segment of its own. Either way the branch's chain then has the tail's nodes at
its end (`nodes_extend`, `nodes_start`), and no other chain changes.
-/

namespace Espalier.Segments

variable {N : Type} {s : Segments N} {fresh id : SegmentId} {roots : SegmentId → Nat}
  {segment : Segment N}

/-! ## Extending the head -/

/-- The chains other than the extended one are as they were. -/
theorem nodes_extend_of_ne (hs : s.Sound fresh (withHold roots (some id)))
    (h : s[id]? = some segment) (hone : segment.holders = 1) (extra : Array N)
    {other : SegmentId} (hother : id ≠ other) :
    nodes (s.insert id { segment with nodes := segment.nodes ++ extra }) other = s.nodes other := by
  have hchildren := hs.children_eq_zero h hone (withHold_pos rfl)
  refine nodes_congr (fun other => id ≠ other) ?_ ?_ other hother
  · intro other found parent _ hfound hparent heq
    exact parent_ne_of_children_eq_zero hchildren hfound (heq ▸ hparent)
  · intro other he
    rw [getElem?_insert_ne s _ he]

/-- The extended chain ends in the new nodes. -/
theorem nodes_extend (hs : s.Sound fresh (withHold roots (some id)))
    (h : s[id]? = some segment) (hone : segment.holders = 1) (extra : Array N) :
    nodes (s.insert id { segment with nodes := segment.nodes ++ extra }) id
      = s.nodes id ++ extra.toList := by
  have holder : ∀ parent, segment.parent = some parent → parent < id :=
    fun parent hp => (hs.older id segment parent h hp).1
  have hnew : (s.insert id { segment with nodes := segment.nodes ++ extra })[id]?
      = some { segment with nodes := segment.nodes ++ extra } := by
    rw [getElem?_insert_ite, if_pos rfl]
  rw [nodes_eq hnew holder,
    hs.nodes_eq h, upTo_congr fun parent hp =>
      nodes_extend_of_ne hs h hone extra (Nat.ne_of_gt (holder parent hp)),
    Array.toList_append, List.append_assoc]

/-- A head with one holder may be extended. -/
theorem Sound.extend (hs : s.Sound fresh (withHold roots (some id)))
    (h : s[id]? = some segment) (hone : segment.holders = 1) (extra : Array N) :
    Sound (s.insert id { segment with nodes := segment.nodes ++ extra }) fresh
      (withHold roots (some id)) := by
  have hchildren := hs.children_eq_zero h hone (withHold_pos rfl)
  refine hs.replace h rfl rfl (hs.held id segment h) ?_ (fun _ _ => rfl) rfl
  intro other found parent hfound hparent
  exact nodes_extend_of_ne hs h hone extra fun heq =>
    parent_ne_of_children_eq_zero hchildren hfound (heq ▸ hparent)

/-! ## Starting a segment -/

/-- The number the next segment gets is not taken. -/
theorem Sound.fresh_free (hs : s.Sound fresh roots) : s[fresh]? = none := by
  cases h : s[fresh]? with
  | none => rfl
  | some segment => exact absurd (hs.known fresh segment h) (Nat.lt_irrefl fresh)

/-- Nobody outside holds a number that is not taken. -/
theorem Sound.fresh_unheld (hs : s.Sound fresh roots) : roots fresh = 0 := by
  refine Nat.eq_zero_of_not_pos fun hpos => ?_
  obtain ⟨found, hfound⟩ := hs.rooted fresh hpos
  rw [hs.fresh_free] at hfound
  exact absurd hfound (by simp)

/-- No segment continues a number that is not taken. -/
theorem Sound.fresh_childless (hs : s.Sound fresh roots) : s.children fresh = 0 := by
  refine Nat.eq_zero_of_not_pos fun hpos => ?_
  obtain ⟨other, found, hfound, hp⟩ := exists_of_tally_pos hpos
  obtain ⟨-, before, hbefore⟩ := hs.older other found fresh hfound (beq_iff_eq.mp hp)
  rw [hs.fresh_free] at hbefore
  exact absurd hbefore (by simp)

/-- The new segment is one more that continues its parent. -/
theorem Sound.children_start (hs : s.Sound fresh roots) (new : Segment N) (other : SegmentId) :
    children (s.insert fresh new) other
      = s.children other + (new.parent == some other).toNat := by
  unfold children
  rw [tally_insert, erase_eq_self hs.fresh_free]

/-- The segments there were are there still. -/
theorem Sound.there_start (hs : s.Sound fresh roots) (new : Segment N) {other : SegmentId}
    {old : Segment N} (hold : s[other]? = some old) :
    (s.insert fresh new)[other]? = some old :=
  (getElem?_insert_ne s new (Nat.ne_of_gt (hs.known other old hold))).trans hold

/-- The chains there were stay as they were. -/
theorem nodes_start_of_there (hs : s.Sound fresh roots) (new : Segment N) {other : SegmentId}
    (hthere : ∃ found : Segment N, s[other]? = some found) :
    nodes (s.insert fresh new) other = s.nodes other := by
  refine nodes_congr (fun other => ∃ found : Segment N, s[other]? = some found) ?_ ?_ other hthere
  · intro other found parent _ hfound hparent
    exact (hs.older other found parent hfound hparent).2
  · rintro other ⟨found, hfound⟩
    have hne : fresh ≠ other := Nat.ne_of_gt (hs.known other found hfound)
    rw [getElem?_insert_ne s new hne]

/-- The new chain is the old one and the new nodes. -/
theorem nodes_start {head : Option SegmentId} (hs : s.Sound fresh (withHold roots head))
    (start holders : Nat) (tail : Array N) :
    nodes (s.insert fresh { parent := head, start, nodes := tail, holders }) fresh
      = s.upTo head ++ tail.toList := by
  have holder : ∀ parent, head = some parent → parent < fresh := by
    intro parent hp
    obtain ⟨before, hbefore⟩ := hs.head_there parent hp
    exact hs.known parent before hbefore
  have hnew : (s.insert fresh { parent := head, start, nodes := tail, holders })[fresh]?
      = some { parent := head, start, nodes := tail, holders } := by
    rw [getElem?_insert_ite, if_pos rfl]
  rw [nodes_eq hnew holder,
    upTo_congr fun parent hp => nodes_start_of_there hs _ (hs.head_there parent hp)]

/-- A branch may pass its hold on its head to a new segment with its tail. -/
theorem Sound.start {head : Option SegmentId} (hs : s.Sound fresh (withHold roots head))
    (tail : Array N) :
    Sound (s.insert fresh
        { parent := head, start := (s.upTo head).length, nodes := tail, holders := 1 })
      (fresh + 1) (withHold roots (some fresh)) := by
  generalize hnew : ({ parent := head, start := (s.upTo head).length, nodes := tail, holders := 1 }
    : Segment N) = new
  have hparent : new.parent = head := by rw [← hnew]
  -- The number is not taken, so neither the hold on the old head nor any other is on it.
  have hunheld : roots fresh = 0 := Nat.eq_zero_of_add_eq_zero_right hs.fresh_unheld
  have hheadne : (head == some fresh) = false :=
    Bool.toNat_eq_zero.mp (Nat.eq_zero_of_add_eq_zero_left hs.fresh_unheld)
  have hkept : ∀ (parent : SegmentId) (before : Segment N), s[parent]? = some before →
      (∃ found : Segment N, (s.insert fresh new)[parent]? = some found) ∧
        nodes (s.insert fresh new) parent = s.nodes parent :=
    fun parent before h => ⟨⟨before, hs.there_start new h⟩, nodes_start_of_there hs _ ⟨before, h⟩⟩
  refine sound_of_fits (fun other found hfound => ?_) fun other hroot => ?_
  · rcases new_or_there_of_insert hfound with ⟨rfl, rfl⟩ | ⟨he, hold⟩
    · constructor
      case known => exact Nat.lt_succ_self _
      case older =>
        intro parent hp
        obtain ⟨before, hbefore⟩ := hs.head_there parent (hparent.symm.trans hp)
        exact ⟨hs.known parent before hbefore, before, hs.there_start new hbefore⟩
      case starts =>
        rw [hparent, upTo_congr fun parent hp =>
          nodes_start_of_there hs _ (hs.head_there parent hp), ← hnew]
      case counted =>
        rw [withHold_some_self, hs.children_start, hunheld, hs.fresh_childless, hparent, hheadne,
          ← hnew]
        rfl
      case held =>
        rw [← hnew]
        exact Nat.succ_pos _
    · refine (hs.fits hold).kept (Nat.le_succ _) (fun parent hp => ?_) ?_
      · obtain ⟨-, before, hbefore⟩ := hs.older other found parent hold hp
        exact hkept parent before hbefore
      · -- The hold on the old head has become the new segment's.
        rw [withHold_of_ne fun heq => he (Option.some.inj heq), hs.children_start, hparent]
        unfold withHold
        omega
  · by_cases he : fresh = other
    · exact ⟨new, by rw [getElem?_insert_ite, if_pos he]⟩
    · rw [withHold_of_ne fun heq => he (Option.some.inj heq)] at hroot
      obtain ⟨old, hold⟩ := hs.rooted other (Nat.lt_of_lt_of_le hroot (Nat.le_add_right _ _))
      exact ⟨old, hs.there_start new hold⟩

end Espalier.Segments
