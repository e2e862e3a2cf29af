import Espalier.Growth.Store
import Espalier.Proofs.Tally

/-!
# Sound segments

What the segments of a store satisfy between any two operations. `Segments.Sound s fresh roots`
says that numbers are below `fresh`, that parents are there and older, that every segment starts
where its parent ends, and that each counts as holders exactly the segments that continue it and
the `roots` it has outside: growths, and a growth that is just being moved.

`Segments.nodes` is what a chain stands for. It reads parents and nodes alone, so an operation that
leaves those of a closed set of segments as they were leaves the set's chains as they were
(`nodes_congr`). `get?_eq` reads a node through the chain, which is where the starts matter.
-/

namespace Espalier.Segments

variable {N : Type} {s s' : Segments N} {fresh id : SegmentId} {roots : SegmentId → Nat}
  {segment : Segment N}

/-- The nodes from the root of a chain to the end of the segment that heads it. -/
def nodes (s : Segments N) (id : SegmentId) : List N :=
  ((s.chain id).reverse.map (·.nodes.toList)).flatten

/-- The nodes up to the end of a segment, if there is one. -/
def upTo (s : Segments N) : Option SegmentId → List N
  | none => []
  | some id => s.nodes id

/-- How many segments continue a segment. -/
def children (s : Segments N) (id : SegmentId) : Nat :=
  tally s fun segment => segment.parent == some id

/-- Some holds from outside, and one more on a segment if there is one. -/
def withHold (roots : SegmentId → Nat) (head : Option SegmentId) : SegmentId → Nat :=
  fun id => roots id + (head == some id).toNat

/-- The segments of a store between two operations, with `roots` holds from outside. -/
structure Sound (s : Segments N) (fresh : SegmentId) (roots : SegmentId → Nat) : Prop where
  known : ∀ (id : SegmentId) (segment : Segment N), s[id]? = some segment → id < fresh
  older : ∀ (id : SegmentId) (segment : Segment N) (parent : SegmentId),
    s[id]? = some segment → segment.parent = some parent →
    parent < id ∧ ∃ before : Segment N, s[parent]? = some before
  starts : ∀ (id : SegmentId) (segment : Segment N), s[id]? = some segment →
    segment.start = (s.upTo segment.parent).length
  counted : ∀ (id : SegmentId) (segment : Segment N), s[id]? = some segment →
    segment.holders = roots id + s.children id
  held : ∀ (id : SegmentId) (segment : Segment N), s[id]? = some segment → 0 < segment.holders
  rooted : ∀ id, 0 < roots id → ∃ segment : Segment N, s[id]? = some segment

@[simp] theorem withHold_none : withHold roots none = roots := by
  funext id
  rfl

@[simp] theorem withHold_some_self : withHold roots (some id) id = roots id + 1 := by
  simp [withHold]

theorem withHold_pos {head : Option SegmentId} (h : head = some id) :
    0 < withHold roots head id := by
  rw [h, withHold_some_self]
  exact Nat.succ_pos _

theorem withHold_of_ne {head : Option SegmentId} (h : head ≠ some id) :
    withHold roots head id = roots id := by
  simp [withHold, h]

/-- Two more holds may be counted in either order. -/
theorem withHold_comm (roots : SegmentId → Nat) (a b : Option SegmentId) :
    withHold (withHold roots a) b = withHold (withHold roots b) a := by
  funext id
  unfold withHold
  omega

theorem le_withHold (roots : SegmentId → Nat) (head : Option SegmentId) (id : SegmentId) :
    roots id ≤ withHold roots head id := Nat.le_add_right _ _

/-- The head of a branch is there. -/
theorem Sound.head_there {head : Option SegmentId} (hs : s.Sound fresh (withHold roots head)) :
    ∀ parent, head = some parent → ∃ before : Segment N, s[parent]? = some before := by
  rintro parent rfl
  exact hs.rooted parent (withHold_pos rfl)

/-- No segments are sound when nothing holds any. -/
theorem sound_empty : Sound (∅ : Segments N) fresh fun _ => 0 := by
  constructor
  case rooted => intro id h; exact absurd h (Nat.lt_irrefl 0)
  all_goals
    intro id
    simp

/-! ## Chains -/

/-- A segment's nodes come after those of its parent. -/
theorem nodes_eq (h : s[id]? = some segment)
    (holder : ∀ parent, segment.parent = some parent → parent < id) :
    s.nodes id = s.upTo segment.parent ++ segment.nodes.toList := by
  unfold nodes
  rw [chain, h]
  dsimp only
  cases hp : segment.parent with
  | none => simp [upTo]
  | some parent => simp [upTo, nodes, holder parent hp]

theorem Sound.nodes_eq (hs : s.Sound fresh roots) (h : s[id]? = some segment) :
    s.nodes id = s.upTo segment.parent ++ segment.nodes.toList :=
  Segments.nodes_eq h fun parent hp => (hs.older id segment parent h hp).1

/-- What a chain reads of a segment. -/
def content (segment : Segment N) : Option SegmentId × Array N := (segment.parent, segment.nodes)

/-- Chains in a set that is closed under parents stay as they are when the parents and the nodes
in the set do. -/
theorem nodes_congr (P : SegmentId → Prop)
    (closed : ∀ id segment parent, P id → s[id]? = some segment → segment.parent = some parent →
      P parent)
    (same : ∀ id, P id → s'[id]?.map content = s[id]?.map content) :
    ∀ id, P id → s'.nodes id = s.nodes id := by
  have hchain : ∀ id, P id →
      (s'.chain id).map (·.nodes.toList) = (s.chain id).map (·.nodes.toList) := by
    intro id
    -- A chain goes on to smaller numbers only, whatever the parents are.
    induction id using Nat.strongRecOn with
    | ind id ih =>
      intro hid
      have hsame := same id hid
      cases h : s[id]? with
      | none =>
        rw [h, Option.map_none, Option.map_eq_none_iff] at hsame
        rw [chain, chain, h, hsame]
      | some segment =>
        rw [h, Option.map_some, Option.map_eq_some_iff] at hsame
        obtain ⟨segment', h', hcontent⟩ := hsame
        obtain ⟨hparent, hnodes⟩ := Prod.mk.inj hcontent
        rw [chain, chain, h, h']
        dsimp only
        rw [hparent]
        cases hp : segment.parent with
        | none => simp [hnodes]
        | some parent =>
          dsimp only
          by_cases hlt : parent < id
          · rw [if_pos hlt, if_pos hlt, List.map_cons, List.map_cons, hnodes,
              ih parent hlt (closed id segment parent hid h hp)]
          · simp [if_neg hlt, hnodes]
  intro id hid
  unfold nodes
  rw [List.map_reverse, List.map_reverse, hchain id hid]

/-- The place of a node tells the segment of the chain it is in. -/
theorem Sound.get?_eq (hs : s.Sound fresh roots) :
    ∀ id place, s.get? id place = (s.nodes id)[place]? := by
  intro id
  induction id using Nat.strongRecOn with
  | ind id ih =>
    intro place
    rw [get?]
    cases h : s[id]? with
    | none =>
      have hnodes : s.nodes id = [] := by
        unfold nodes
        rw [chain, h]
        rfl
      rw [hnodes]
      rfl
    | some segment =>
      dsimp only
      rw [hs.nodes_eq h]
      have hstart := hs.starts id segment h
      -- The place is the segment's own, or it is one before its start.
      by_cases hle : segment.start ≤ place
      · rw [if_pos hle, List.getElem?_append_right (by omega), hstart, Array.getElem?_toList]
      · rw [if_neg hle, List.getElem?_append_left (by omega)]
        cases hp : segment.parent with
        | none =>
          rw [hp, upTo] at hstart
          exact absurd (hstart ▸ Nat.zero_le place) hle
        | some parent =>
          obtain ⟨hlt, -⟩ := hs.older id segment parent h hp
          dsimp only
          rw [if_pos hlt, ih parent hlt place]
          rfl

/-! ## Who holds a segment -/

/-- A segment with a parent is one of those that continue it. -/
theorem children_pos {parent : SegmentId} (h : s[id]? = some segment)
    (hp : segment.parent = some parent) : 0 < s.children parent :=
  tally_pos h (by simp [hp])

/-- A segment that nobody continues is nobody's parent. -/
theorem parent_ne_of_children_eq_zero {other : SegmentId} (hzero : s.children id = 0)
    (h : s[other]? = some segment) : segment.parent ≠ some id := by
  intro hp
  have := children_pos h hp
  omega

/-- A segment with one holder, outside, is continued by nobody. -/
theorem Sound.children_eq_zero (hs : s.Sound fresh roots) (h : s[id]? = some segment)
    (hone : segment.holders = 1) (hroot : 0 < roots id) : s.children id = 0 := by
  have := hs.counted id segment h
  omega

/-- A segment with one holder, a segment that continues it, is held by nobody outside. -/
theorem Sound.only_child (hs : s.Sound fresh roots) {parent : SegmentId} {before : Segment N}
    (h : s[id]? = some segment) (hp : segment.parent = some parent)
    (hbefore : s[parent]? = some before) (hone : before.holders = 1) :
    roots parent = 0 ∧ s.children parent = 1 := by
  have hcount := hs.counted parent before hbefore
  have hpos := children_pos h hp
  omega

/-- Of two segments that continue a segment with one child, one is the other. -/
theorem eq_of_only_child {parent other : SegmentId} {sibling : Segment N}
    (hone : s.children parent = 1) (h : s[id]? = some segment) (hp : segment.parent = some parent)
    (h' : s[other]? = some sibling) (hp' : sibling.parent = some parent) : other = id :=
  eq_of_tally_le_one (Nat.le_of_eq hone) h' (by simp [hp']) h (by simp [hp])

/-- Replacing a segment by one with the same parent changes nobody's children. -/
theorem children_insert_of_parent_eq {replacement : Segment N} (h : s[id]? = some segment)
    (hp : replacement.parent = segment.parent) (other : SegmentId) :
    children (s.insert id replacement) other = s.children other := by
  unfold children
  rw [tally_insert, tally_eq_add_erase h, hp]

/-! ## One segment among the others -/

/-- What a sound set asks of one of its segments. -/
structure Fits (s : Segments N) (fresh : SegmentId) (roots : SegmentId → Nat) (id : SegmentId)
    (segment : Segment N) : Prop where
  known : id < fresh
  older : ∀ parent, segment.parent = some parent →
    parent < id ∧ ∃ before : Segment N, s[parent]? = some before
  starts : segment.start = (s.upTo segment.parent).length
  counted : segment.holders = roots id + s.children id
  held : 0 < segment.holders

theorem Sound.fits (hs : s.Sound fresh roots) (h : s[id]? = some segment) :
    Fits s fresh roots id segment where
  known := hs.known id segment h
  older := fun parent => hs.older id segment parent h
  starts := hs.starts id segment h
  counted := hs.counted id segment h
  held := hs.held id segment h

theorem sound_of_fits
    (hfits : ∀ (id : SegmentId) (segment : Segment N), s[id]? = some segment →
      Fits s fresh roots id segment)
    (rooted : ∀ id, 0 < roots id → ∃ segment : Segment N, s[id]? = some segment) :
    s.Sound fresh roots where
  known := fun id segment h => (hfits id segment h).known
  older := fun id segment parent h => (hfits id segment h).older parent
  starts := fun id segment h => (hfits id segment h).starts
  counted := fun id segment h => (hfits id segment h).counted
  held := fun id segment h => (hfits id segment h).held
  rooted := rooted

/-- What comes before a segment is the same when its parent's nodes are. -/
theorem upTo_congr {head : Option SegmentId}
    (h : ∀ parent, head = some parent → s'.nodes parent = s.nodes parent) :
    s'.upTo head = s.upTo head := by
  cases head with
  | none => rfl
  | some parent => exact h parent rfl

/-- A segment fits among others when its parent is there with the nodes it had and the holders are
counted as before. This is how all segments but one or two get through an operation. -/
theorem Fits.kept {fresh' : SegmentId} {roots' : SegmentId → Nat}
    (hf : Fits s fresh roots id segment) (hfresh : fresh ≤ fresh')
    (hparent : ∀ parent, segment.parent = some parent →
      (∃ before : Segment N, s'[parent]? = some before) ∧ s'.nodes parent = s.nodes parent)
    (hcount : roots' id + s'.children id = roots id + s.children id) :
    Fits s' fresh' roots' id segment where
  known := Nat.lt_of_lt_of_le hf.known hfresh
  older := fun parent hp => ⟨(hf.older parent hp).1, (hparent parent hp).1⟩
  starts := by
    rw [upTo_congr fun parent hp => (hparent parent hp).2]
    exact hf.starts
  counted := hf.counted.trans hcount.symm
  held := hf.held

end Espalier.Segments
