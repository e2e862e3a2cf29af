import Espalier.Proofs.Store.Relatives

/-!
# How long chains get

A fork folds the chain of its growth from the head downwards and stops at the first ancestor that
somebody else holds (`Sound.compact_ends`). No segment is held by nobody but segments: going from
child to child one comes to a growth (`Sound.exists_name`). So right after a fork the chain of a
growth is one segment, unless there is a relative other than the fork (`depth_fork`).

What lies below a shared ancestor is not folded, whoever has let go of it in the meantime. A chain
may thus have more segments than there are growths that share history with it (`deeper_chain`).
-/

namespace Espalier

namespace Segments

variable {N : Type} {s : Segments N} {fresh id x z parent : SegmentId}
  {roots : SegmentId → Nat} {segment before : Segment N}

/-- Chains go on to smaller numbers. -/
theorem Sound.le_of_reaches (hs : s.Sound fresh roots)
    (h : Relation.ReflTransGen s.Continues x z) : z ≤ x := by
  induction h with
  | refl => exact Nat.le_refl x
  | tail _ hnext ih =>
    obtain ⟨found, hfound, hp⟩ := hnext
    exact Nat.le_trans (Nat.le_of_lt (hs.older _ found _ hfound hp).1) ih

/-- Taking in ancestors stops at one that somebody else holds, or where the chain begins. -/
theorem absorb_ends {next : SegmentId} (hp : segment.parent = some parent)
    (horder : ∀ (id : SegmentId) (segment : Segment N) (parent : SegmentId),
      s[id]? = some segment → segment.parent = some parent → parent < id)
    (hnext : (s.absorb segment parent).2.parent = some next)
    (hbefore : (s.absorb segment parent).1[next]? = some before) : before.holders ≠ 1 := by
  induction parent using Nat.strongRecOn generalizing s segment with
  | ind parent ih =>
    rw [absorb] at hnext hbefore
    cases h : s[parent]? with
    | none =>
      rw [h] at hnext hbefore
      obtain rfl : parent = next := Option.some.inj (hp.symm.trans hnext)
      exact absurd (h.symm.trans hbefore) (by simp)
    | some older =>
      rw [h] at hnext hbefore
      dsimp only at hnext hbefore
      by_cases hone : older.holders = 1
      · rw [if_neg (fun hne => hne hone)] at hnext hbefore
        cases holder : older.parent with
        | none =>
          rw [holder] at hnext
          exact absurd hnext (by simp)
        | some grand =>
          have hlt := horder parent older grand h holder
          rw [holder] at hnext hbefore
          dsimp only at hnext hbefore
          rw [if_pos hlt] at hnext hbefore
          refine ih grand hlt rfl (fun id segment up hid => ?_) hnext hbefore
          exact horder id segment up (there_of_erase hid).2
      · rw [if_pos hone] at hnext hbefore
        obtain rfl : parent = next := Option.some.inj (hp.symm.trans hnext)
        obtain rfl : older = before := Option.some.inj (h.symm.trans hbefore)
        exact hone

/-- After folding, the head or its parent is held by somebody else as well, if there is a parent. -/
theorem Sound.compact_ends (hs : s.Sound fresh roots) (h : (s.compact id)[id]? = some segment)
    (hp : segment.parent = some parent) (hbefore : (s.compact id)[parent]? = some before) :
    segment.holders ≠ 1 ∨ before.holders ≠ 1 := by
  obtain ⟨hfolded, -⟩ := hs.compact id
  have hne : id ≠ parent := Nat.ne_of_gt (hfolded.older id segment parent h hp).1
  rw [Segments.compact] at h hbefore
  cases hid : s[id]? with
  | none =>
    rw [hid] at h
    exact absurd (hid.symm.trans h) (by simp)
  | some old =>
    rw [hid] at h hbefore
    dsimp only at h hbefore
    by_cases hone : old.holders = 1
    · rw [if_neg (fun hne => hne hone)] at h hbefore
      cases hup : old.parent with
      | none =>
        rw [hup] at h
        obtain rfl : old = segment := Option.some.inj (hid.symm.trans h)
        exact absurd (hup.symm.trans hp) (by simp)
      | some up =>
        rw [hup] at h hbefore
        dsimp only at h hbefore
        rw [getElem?_insert_ite, if_pos rfl] at h
        rw [getElem?_insert_ne _ _ hne] at hbefore
        obtain rfl := Option.some.inj h
        exact .inr (absorb_ends hup (fun id segment up hid hup => (hs.older id segment up hid hup).1)
          hp hbefore)
    · rw [if_pos hone] at h
      obtain rfl : old = segment := Option.some.inj (hid.symm.trans h)
      exact .inl hone

/-- A lineage reads parents only. -/
theorem lineage_congr {s' : Segments N}
    (h : ∀ id : SegmentId, s'[id]?.map Segment.parent = s[id]?.map Segment.parent)
    (id : SegmentId) : s'.lineage id = s.lineage id := by
  induction id using Nat.strongRecOn with
  | ind id ih =>
    have hid := h id
    rw [lineage, lineage]
    cases hold : s[id]? with
    | none =>
      rw [hold, Option.map_none, Option.map_eq_none_iff] at hid
      rw [hid]
    | some segment =>
      rw [hold, Option.map_some, Option.map_eq_some_iff] at hid
      obtain ⟨segment', hnow, hparent⟩ := hid
      rw [hnow]
      dsimp only
      rw [hparent]
      cases hp : segment.parent with
      | none => rfl
      | some parent =>
        dsimp only
        by_cases hlt : parent < id
        · rw [if_pos hlt, if_pos hlt, ih parent hlt]
        · rw [if_neg hlt, if_neg hlt]

theorem lineage_hold (s : Segments N) (held id : SegmentId) :
    (s.hold held).lineage id = s.lineage id := by
  refine lineage_congr (fun id => ?_) id
  rw [hold]
  cases h : s[held]? with
  | none => rfl
  | some segment =>
    dsimp only
    rw [getElem?_insert_ite]
    by_cases he : held = id
    · rw [if_pos he, ← he, h]
      rfl
    · rw [if_neg he]

end Segments

namespace Store

open Segments

variable {N : Type} {s : Store N} {name copy : String} {branch : Branch N}

/-- Every segment is in the chain of some growth. -/
theorem Sound.exists_name {x : SegmentId} {segment : Segment N} (hs : s.Sound none)
    (h : s.segments[x]? = some segment) :
    ∃ name head, s.head? name = some head ∧
      Relation.ReflTransGen s.segments.Continues head x := by
  -- Segments that continue this one have greater numbers, so the way to a growth ends.
  induction hgap : s.fresh - x using Nat.strongRecOn generalizing x segment with
  | ind gap ih =>
    have hcount := hs.segments.counted x segment h
    have hheld := hs.segments.held x segment h
    rw [withHold_none] at hcount
    by_cases hhead : 0 < headCount s.branches x
    · obtain ⟨name, branch, hbranch, heq⟩ := exists_of_tally_pos hhead
      exact ⟨name, x, (head?_of_there hbranch).trans (beq_iff_eq.mp heq), .refl⟩
    · have hchild : 0 < s.segments.children x := by omega
      obtain ⟨child, found, hfound, heq⟩ := exists_of_tally_pos hchild
      have hp := beq_iff_eq.mp heq
      have hlt := (hs.segments.older child found x hfound hp).1
      have hknown := hs.segments.known child found hfound
      have hless : s.fresh - child < gap :=
        hgap ▸ Nat.sub_lt_sub_left (Nat.lt_trans hlt hknown) hlt
      obtain ⟨name, head, hhead, hreach⟩ := ih (s.fresh - child) hless hfound rfl
      exact ⟨name, head, hhead, hreach.tail ⟨found, hfound, hp⟩⟩

/-- A growth that a name stands for besides another one that reaches the same segment. -/
theorem Sound.relative_of_reaches (hs : s.Sound none) {other : String} {x y z : SegmentId}
    (hx : s.head? name = some x) (hy : s.head? other = some y)
    (hxz : Relation.ReflTransGen s.segments.Continues x z)
    (hyz : Relation.ReflTransGen s.segments.Continues y z) :
    s.sharesHistory name other = true :=
  hs.sharesHistory_iff.mpr ⟨x, y, hx, hy, z, hxz, hyz⟩

/-- A segment that continues one of a growth's chain without being of the chain itself belongs to
a relative. -/
theorem Sound.relative_of_child (hs : s.Sound none) {head x child : SegmentId}
    (hname : s.head? name = some head) (hx : Relation.ReflTransGen s.segments.Continues head x)
    (hchild : s.segments.Continues child x)
    (hnot : ¬ Relation.ReflTransGen s.segments.Continues head child) :
    ∃ other, other ≠ name ∧ s.sharesHistory name other = true := by
  obtain ⟨found, hfound, hp⟩ := hchild
  obtain ⟨other, top, htop, hreach⟩ := hs.exists_name hfound
  refine ⟨other, ?_, hs.relative_of_reaches hname htop hx (hreach.tail ⟨found, hfound, hp⟩)⟩
  rintro rfl
  obtain rfl : head = top := Option.some.inj (hname.symm.trans htop)
  exact hnot hreach

/-- A growth whose head somebody else holds as well has a relative. -/
theorem Sound.relative_of_head (hs : s.Sound none) {head : SegmentId} {segment : Segment N}
    (hname : s.head? name = some head) (h : s.segments[head]? = some segment)
    (hmany : segment.holders ≠ 1) : ∃ other, other ≠ name ∧ s.sharesHistory name other = true := by
  obtain ⟨branch, hbranch, hhead⟩ := Option.bind_eq_some_iff.mp hname
  have hcount := hs.segments.counted head segment h
  rw [withHold_none] at hcount
  have hpos := headCount_pos hbranch head hhead
  by_cases hchild : 0 < s.segments.children head
  · obtain ⟨child, found, hfound, heq⟩ := exists_of_tally_pos hchild
    have hp := beq_iff_eq.mp heq
    refine hs.relative_of_child hname .refl ⟨found, hfound, hp⟩ fun hreach => ?_
    have hlt := (hs.segments.older child found head hfound hp).1
    exact absurd (hs.segments.le_of_reaches hreach) (Nat.not_le_of_lt hlt)
  · have hnames : 1 < headCount s.branches head := by omega
    obtain ⟨other, found, hne, hfound, heq⟩ := exists_other_of_tally hnames hbranch
    have hother := (head?_of_there hfound).trans (beq_iff_eq.mp heq)
    exact ⟨other, Ne.symm hne, hs.relative_of_reaches hname hother .refl .refl⟩

/-- So has one whose head continues a segment that somebody else holds as well. -/
theorem Sound.relative_of_parent (hs : s.Sound none) {head parent : SegmentId}
    {segment before : Segment N} (hname : s.head? name = some head)
    (h : s.segments[head]? = some segment) (hp : segment.parent = some parent)
    (hbefore : s.segments[parent]? = some before) (hmany : before.holders ≠ 1) :
    ∃ other, other ≠ name ∧ s.sharesHistory name other = true := by
  have hcontinues : s.segments.Continues head parent := ⟨segment, h, hp⟩
  have hlt := (hs.segments.older head segment parent h hp).1
  have hcount := hs.segments.counted parent before hbefore
  have hchildren := children_pos h hp
  rw [withHold_none] at hcount
  by_cases hhead : 0 < headCount s.branches parent
  · obtain ⟨other, found, hfound, heq⟩ := exists_of_tally_pos hhead
    have hother := (head?_of_there hfound).trans (beq_iff_eq.mp heq)
    refine ⟨other, ?_, hs.relative_of_reaches hname hother (.single hcontinues) .refl⟩
    rintro rfl
    obtain rfl : head = parent := Option.some.inj (hname.symm.trans hother)
    exact absurd hlt (Nat.lt_irrefl head)
  · have hsiblings : 1 < s.segments.children parent := by omega
    obtain ⟨child, found, hne, hfound, heq⟩ := exists_other_of_tally hsiblings h
    have hup := beq_iff_eq.mp heq
    refine hs.relative_of_child hname (.single hcontinues) ⟨found, hfound, hup⟩ fun hreach => ?_
    -- The chain goes on from the head to the parent, past its other child.
    rcases hreach.cases_head with heq | ⟨next, hnext, hrest⟩
    · exact hne heq
    · obtain rfl : parent = next := hcontinues.unique hnext
      have hless := (hs.segments.older child found parent hfound hup).1
      exact absurd (hs.segments.le_of_reaches hrest) (Nat.not_le_of_lt hless)

/-- A growth with a chain of several segments that was just folded has a relative. -/
theorem Sound.relative_of_folded (hs : s.Sound none) {head : SegmentId} {segment : Segment N}
    {parent : SegmentId} (hname : s.head? name = some head)
    (h : (s.folded (some head)).segments[head]? = some segment)
    (hp : segment.parent = some parent) :
    ∃ other, other ≠ name ∧ (s.folded (some head)).sharesHistory name other = true := by
  obtain ⟨hfolded, -⟩ := hs.folded (some head)
  have hhead : (s.folded (some head)).head? name = some head := hname
  obtain ⟨-, before, hbefore⟩ := hfolded.segments.older head segment parent h hp
  rcases hs.segments.compact_ends h hp hbefore with hmany | hmany
  · exact hfolded.relative_of_head hhead h hmany
  · exact hfolded.relative_of_parent hhead h hp hbefore hmany

/-- The chain of a growth that was cloned under a new name is as long as it was. -/
theorem depth_clone {head : SegmentId} (hname : s.head? name = some head) (hne : name ≠ copy)
    (hcopy : s.branches[copy]? = none) : (s.clone name copy).depth name = s.depth name := by
  obtain ⟨branch, hbranch, hhead⟩ := Option.bind_eq_some_iff.mp hname
  have hsegments : (s.clone name copy).segments = s.segments.hold head := by
    rw [clone_eq hbranch]
    unfold Store.put Store.drop
    rw [show (s.held branch.head).branches[copy]? = none from hcopy, hhead]
    rfl
  unfold depth
  rw [lineage_of_head ((head?_clone hne).trans hname), lineage_of_head hname, hsegments,
    lineage_hold]

/-- Right after a fork under a new name, a growth that is not empty has a chain of one segment or a
relative besides the fork. -/
theorem Sound.depth_fork (hs : s.Sound none) (h : s.branches[name]? = some branch)
    (hnodes : s.branchNodes branch ≠ []) (hcopy : s.branches[copy]? = none) :
    (s.fork name copy).depth name = 1 ∨
      ∃ other, other ≠ name ∧ other ≠ copy ∧ (s.fork name copy).sharesHistory name other = true := by
  have hne : name ≠ copy := by
    rintro rfl
    exact absurd (h.symm.trans hcopy) (by simp)
  obtain ⟨head, hhead⟩ := (hs.settled h).exists_head hnodes
  have hsettled := hs.settle h
  obtain ⟨hfolded, -⟩ := hsettled.folded (some head)
  have hname : (s.settle name branch).head? name = some head := head?_settle_self.trans hhead
  have hfork := hs.fork_eq h copy
  have hthere : ((s.settle name branch).folded (some head)).branches[name]?
      = some (s.freeze branch).2 := hhead ▸ branches_settled
  have habsent : ((s.settle name branch).folded (some head)).branches[copy]? = none :=
    (getElem?_insert_ne s.branches _ hne).trans hcopy
  rw [hhead] at hfork
  have hhead' : ((s.settle name branch).folded (some head)).head? name = some head := hname
  rw [hfork, depth_clone hhead' hne habsent]
  unfold depth
  obtain ⟨segment, hsegment⟩ := hfolded.head_there hhead'
  rw [lineage_of_head hhead', hfolded.segments.lineage_eq hsegment]
  cases hp : segment.parent with
  | none => exact .inl rfl
  | some parent =>
    obtain ⟨other, hother, hshares⟩ := hsettled.relative_of_folded hname hsegment hp
    have hocopy : other ≠ copy := by
      rintro rfl
      obtain ⟨-, y, -, hy, -⟩ := hfolded.sharesHistory_iff.mp hshares
      unfold head? at hy
      rw [habsent] at hy
      exact absurd hy (by simp)
    refine .inr ⟨other, hother, hocopy, ?_⟩
    rw [hfolded.sharesHistory_clone hthere hne hocopy]
    exact hshares

/-- Right after a fork the chain of a growth is one segment, or there is a relative besides the
fork. -/
theorem depth_fork (ops : List (Op N)) (hname : name ∈ (ops.foldl Op.run (empty : Store N)).branches)
    (hcopy : copy ∉ (ops.foldl Op.run (empty : Store N)).branches) :
    ((ops.foldl Op.run (empty : Store N)).fork name copy).depth name = 1 ∨
      ∃ other, other ≠ name ∧ other ≠ copy ∧
        ((ops.foldl Op.run (empty : Store N)).fork name copy).sharesHistory name other = true := by
  obtain ⟨hs, -⟩ := (sound_empty (N := N)).runs ops
  obtain ⟨branch, hbranch⟩ := Option.isSome_iff_exists.mp
    (Std.ExtTreeMap.mem_iff_isSome_getElem?.mp hname)
  refine hs.depth_fork hbranch (branchNodes_ne_nil ops hbranch) ?_
  exact Std.ExtTreeMap.getElem?_eq_none hcopy

/-- Two forks are taken and dropped again above a fork that is kept. The next fork finds a chain of
four segments, although only three growths share its history. -/
theorem deeper_chain :
    let s := [Op.plant "s" 0, .fork "s" "a", .push "s" 1, .fork "s" "b", .push "s" 2,
      .fork "s" "t", .drop "a", .drop "b", .push "s" 3, .fork "s" "f"].foldl Op.run (empty : Store Nat)
    s.depth "s" = 4 ∧ s.branches.keys.filter (s.sharesHistory "s") = ["f", "s", "t"] := by
  decide +kernel

end Store

end Espalier
