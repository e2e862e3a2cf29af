import Espalier.Proofs.Store.Upkeep
import Mathlib.Logic.Relation

/-!
# Folding chains

`merge` folds a parent that only one segment continues into that segment. Every chain that is still
there keeps its nodes, also those that pass through the merged segment, since its start moves back
by as much as its nodes begin earlier. Folding a chain is a number of merges
(`Sound.compact_merges`), and what every merge keeps, all of them keep (`Sound.merges`).
-/

namespace Espalier.Segments

variable {N : Type} {s s' : Segments N} {fresh id : SegmentId} {roots : SegmentId → Nat}
  {segment : Segment N}

/-- A segment with its parent's nodes before its own. -/
def merged (before segment : Segment N) : Segment N :=
  { segment with
    parent := before.parent, start := before.start, nodes := before.nodes ++ segment.nodes }

theorem merged_of_parent {before : Segment N} {next : Option SegmentId}
    (h : before.parent = next) : merged before segment =
      { segment with
        parent := next, start := before.start, nodes := before.nodes ++ segment.nodes } := by
  rw [← h]
  rfl

section Merge

variable {parent : SegmentId} {before : Segment N}

/-- What is there after a merge is the merged segment, or it was there and is not the parent. -/
theorem merged_or_kept {other : SegmentId} {found : Segment N}
    (h : ((s.erase parent).insert id (merged before segment))[other]? = some found) :
    (id = other ∧ merged before segment = found) ∨
      (id ≠ other ∧ parent ≠ other ∧ s[other]? = some found) := by
  rcases new_or_there_of_insert h with hnew | ⟨he, hkept⟩
  · exact Or.inl hnew
  · exact Or.inr ⟨he, there_of_erase hkept⟩

/-- A segment that was there is there after a merge, unless it is the parent. -/
theorem there_of_merge {other : SegmentId} {old : Segment N} (hne : parent ≠ other)
    (hold : s[other]? = some old) : ∃ found : Segment N,
      ((s.erase parent).insert id (merged before segment))[other]? = some found := by
  by_cases he : id = other
  · exact ⟨merged before segment, by rw [getElem?_insert_ite, if_pos he]⟩
  · exact ⟨old, by rw [getElem?_insert_ne _ _ he, getElem?_erase_ne s hne, hold]⟩

/-- No other segment passes through the parent, and the merged one skips it: what a segment
continues after a merge was there before, is older and is not the parent. -/
theorem Sound.parent_of_merge (hs : s.Sound fresh roots) (h : s[id]? = some segment)
    (hp : segment.parent = some parent) (hbefore : s[parent]? = some before)
    (hone : before.holders = 1) {other next : SegmentId} {found : Segment N}
    (hfound : ((s.erase parent).insert id (merged before segment))[other]? = some found)
    (hnext : found.parent = some next) :
    next < other ∧ parent ≠ next ∧ ∃ old : Segment N, s[next]? = some old := by
  obtain ⟨-, honly⟩ := hs.only_child h hp hbefore hone
  obtain ⟨hlt, -⟩ := hs.older id segment parent h hp
  rcases merged_or_kept hfound with ⟨rfl, rfl⟩ | ⟨he, -, hthere⟩
  · obtain ⟨hnextlt, hold⟩ := hs.older parent before next hbefore hnext
    exact ⟨Nat.lt_trans hnextlt hlt, Nat.ne_of_gt hnextlt, hold⟩
  · obtain ⟨hnextlt, hold⟩ := hs.older other found next hthere hnext
    refine ⟨hnextlt, fun heq => ?_, hold⟩
    subst heq
    exact he (eq_of_only_child honly h hp hthere hnext).symm

/-- A merge changes no chain that is still there. -/
theorem Sound.nodes_merge (hs : s.Sound fresh roots) (h : s[id]? = some segment)
    (hp : segment.parent = some parent) (hbefore : s[parent]? = some before)
    (hone : before.holders = 1) (other : SegmentId) (found : Segment N)
    (hfound : ((s.erase parent).insert id (merged before segment))[other]? = some found) :
    nodes ((s.erase parent).insert id (merged before segment)) other = s.nodes other := by
  induction other using Nat.strongRecOn generalizing found with
  | ind other ih =>
    -- What comes before is older, so it is as it was by induction.
    have hup : upTo ((s.erase parent).insert id (merged before segment)) found.parent
        = s.upTo found.parent := by
      refine upTo_congr fun next hnext => ?_
      obtain ⟨hlt, hne, old, hold⟩ := hs.parent_of_merge h hp hbefore hone hfound hnext
      obtain ⟨now, hnow⟩ := there_of_merge hne hold
      exact ih next hlt now hnow
    rw [Segments.nodes_eq hfound fun next hnext =>
      (hs.parent_of_merge h hp hbefore hone hfound hnext).1, hup]
    rcases merged_or_kept hfound with ⟨rfl, rfl⟩ | ⟨-, -, hthere⟩
    · rw [hs.nodes_eq h, hp]
      show s.upTo before.parent ++ (before.nodes ++ segment.nodes).toList
        = s.nodes parent ++ segment.nodes.toList
      rw [hs.nodes_eq hbefore, Array.toList_append, List.append_assoc]
    · exact (hs.nodes_eq hthere).symm

/-- The children of the parent go with it, and all others stay. -/
theorem children_merge (h : s[id]? = some segment) (hp : segment.parent = some parent)
    (hbefore : s[parent]? = some before) (hidne : id ≠ parent) {other : SegmentId}
    (hne : parent ≠ other) :
    children ((s.erase parent).insert id (merged before segment)) other = s.children other := by
  have herased : (s.erase parent)[id]? = some segment :=
    (getElem?_erase_ne s (Ne.symm hidne)).trans h
  have hnot : (segment.parent == some other) = false := by
    rw [hp, beq_eq_false_iff_ne]
    exact fun heq => hne (Option.some.inj heq)
  rw [children_erase hbefore other]
  unfold children
  rw [tally_insert, tally_eq_add_erase herased, hnot]
  rfl

/-- A parent that only one segment holds may be folded into it. -/
theorem Sound.merge (hs : s.Sound fresh roots) (h : s[id]? = some segment)
    (hp : segment.parent = some parent) (hbefore : s[parent]? = some before)
    (hone : before.holders = 1) :
    Sound ((s.erase parent).insert id (merged before segment)) fresh roots ∧
      Keeps s ((s.erase parent).insert id (merged before segment)) := by
  obtain ⟨hunheld, -⟩ := hs.only_child h hp hbefore hone
  obtain ⟨hlt, -⟩ := hs.older id segment parent h hp
  have hidne : id ≠ parent := Nat.ne_of_gt hlt
  have hparent : ∀ (other : SegmentId) (found : Segment N) (next : SegmentId),
      ((s.erase parent).insert id (merged before segment))[other]? = some found →
      found.parent = some next → next < other ∧
        (∃ now : Segment N,
          ((s.erase parent).insert id (merged before segment))[next]? = some now) ∧
        nodes ((s.erase parent).insert id (merged before segment)) next = s.nodes next := by
    intro other found next hfound hnext
    obtain ⟨hnextlt, hne, old, hold⟩ := hs.parent_of_merge h hp hbefore hone hfound hnext
    obtain ⟨now, hnow⟩ := there_of_merge hne hold
    exact ⟨hnextlt, ⟨now, hnow⟩, hs.nodes_merge h hp hbefore hone next now hnow⟩
  refine ⟨sound_of_fits (fun other found hfound => ?_) fun other hroot => ?_,
    fun other found hfound => ⟨?_, hs.nodes_merge h hp hbefore hone other found hfound⟩⟩
  · rcases merged_or_kept hfound with ⟨rfl, rfl⟩ | ⟨-, hpe, hthere⟩
    · have hfits := hs.fits h
      have hup : upTo ((s.erase parent).insert id (merged before segment)) before.parent
          = s.upTo before.parent :=
        upTo_congr fun next hnext => (hparent id _ next hfound hnext).2.2
      constructor
      case known => exact hfits.known
      case older =>
        intro next hnext
        obtain ⟨hnextlt, hnow, -⟩ := hparent id _ next hfound hnext
        exact ⟨hnextlt, hnow⟩
      case starts =>
        show before.start = List.length (upTo _ before.parent)
        rw [hs.starts parent before hbefore, hup]
      case counted =>
        rw [children_merge h hp hbefore hidne (Ne.symm hidne)]
        exact hfits.counted
      case held => exact hfits.held
    · refine (hs.fits hthere).kept (Nat.le_refl _)
        (fun next hnext => (hparent other found next hfound hnext).2) ?_
      rw [children_merge h hp hbefore hidne hpe]
  · -- The parent is gone, but only its child held it.
    obtain ⟨old, hold⟩ := hs.rooted other hroot
    refine there_of_merge (fun heq => ?_) hold
    subst heq
    omega
  · rcases merged_or_kept hfound with ⟨rfl, -⟩ | ⟨-, -, hthere⟩
    · exact ⟨segment, h⟩
    · exact ⟨found, hthere⟩

end Merge

/-- A parent that only one segment holds was folded into that segment. -/
inductive Merges (s : Segments N) : Segments N → Prop where
  | fold {child parent : SegmentId} {segment before : Segment N} (there : s[child]? = some segment)
    (continues : segment.parent = some parent) (older : s[parent]? = some before)
    (only : before.holders = 1) : Merges s ((s.erase parent).insert child (merged before segment))

/-- Any number of merges keep segments sound and every chain that is still there. -/
theorem Sound.merges (hs : s.Sound fresh roots) (h : Relation.ReflTransGen Merges s s') :
    s'.Sound fresh roots ∧ Keeps s s' := by
  induction h with
  | refl => exact ⟨hs, keeps_refl s⟩
  | tail _ hmerge ih =>
    obtain ⟨hsound, hkept⟩ := ih
    cases hmerge with
    | fold there continues older only =>
      obtain ⟨hmerged, hrest⟩ := hsound.merge there continues older only
      exact ⟨hmerged, keeps_trans hkept hrest⟩

/-- The merges up a chain, from the segment that was read off the head and has taken in everything
below `parent` by now. -/
theorem Sound.absorb_merges {parent : SegmentId} (hlt : parent < id)
    (hp : segment.parent = some parent) (hs : Sound (s.insert id segment) fresh roots) :
    Relation.ReflTransGen Merges (s.insert id segment)
      ((s.absorb segment parent).1.insert id (s.absorb segment parent).2) := by
  induction parent using Nat.strongRecOn generalizing s segment with
  | ind parent ih =>
    have hid : (s.insert id segment)[id]? = some segment := by
      rw [getElem?_insert_ite, if_pos rfl]
    obtain ⟨-, before, hbefore⟩ := hs.older id segment parent hid hp
    have hidne : id ≠ parent := Nat.ne_of_gt hlt
    rw [getElem?_insert_ne s segment hidne] at hbefore
    rw [Segments.absorb, hbefore]
    dsimp only
    by_cases hone : before.holders = 1
    · rw [if_neg (fun hne => hne hone)]
      have hthere : (s.insert id segment)[parent]? = some before :=
        (getElem?_insert_ne s segment hidne).trans hbefore
      -- The stale copy of the head is replaced in the end, so it does not matter that it is there.
      have hstale : ((s.insert id segment).erase parent).insert id (merged before segment)
          = (s.erase parent).insert id (merged before segment) := by
        ext other found
        rw [getElem?_insert_ite, getElem?_insert_ite, getElem?_erase_ite, getElem?_erase_ite,
          getElem?_insert_ite]
        by_cases he : id = other
        · rw [if_pos he, if_pos he]
        · rw [if_neg he, if_neg he, if_neg he]
      have hmerge := Merges.fold hid hp hthere hone
      obtain ⟨hmerged, -⟩ := hs.merge hid hp hthere hone
      rw [hstale] at hmerge hmerged
      cases hnext : before.parent with
      | none =>
        dsimp only
        rw [← merged_of_parent hnext]
        exact .single hmerge
      | some next =>
        obtain ⟨hnextlt, -⟩ := hs.older parent before next hthere hnext
        dsimp only
        rw [if_pos hnextlt, ← merged_of_parent hnext]
        have hmp : (merged before segment).parent = some next := hnext
        exact .head hmerge (ih next hnextlt (Nat.lt_trans hnextlt hlt) hmp hmerged)
    · rw [if_pos hone]

/-- Folding a chain is a number of merges. -/
theorem Sound.compact_merges (hs : s.Sound fresh roots) (id : SegmentId) :
    Relation.ReflTransGen Merges s (s.compact id) := by
  rw [Segments.compact]
  cases h : s[id]? with
  | none => exact .refl
  | some segment =>
    dsimp only
    by_cases hone : segment.holders = 1
    · rw [if_neg (fun hne => hne hone)]
      cases hp : segment.parent with
      | none => exact .refl
      | some parent =>
        have hsame : s.insert id segment = s := insert_eq_self h
        obtain ⟨hlt, -⟩ := hs.older id segment parent h hp
        have hfolded := Sound.absorb_merges hlt hp (hsame.symm ▸ hs)
        rw [hsame] at hfolded
        exact hfolded
    · rw [if_pos hone]

/-- Folding keeps segments sound and every chain that is still there. -/
theorem Sound.compact (hs : s.Sound fresh roots) (id : SegmentId) :
    (s.compact id).Sound fresh roots ∧ Keeps s (s.compact id) :=
  hs.merges (hs.compact_merges id)

/-- The chain of a branch may be folded before its hold is taken twice. -/
theorem Sound.compact_hold_head {head : Option SegmentId} :
    s.Sound fresh (withHold roots head) →
    Sound (match head with | none => s | some id => (s.compact id).hold id) fresh
        (withHold (withHold roots head) head) ∧
      Keeps s (match head with | none => s | some id => (s.compact id).hold id) := by
  intro hs
  cases head with
  | none => exact ⟨hs, keeps_refl s⟩
  | some id =>
    obtain ⟨hfolded, hkept⟩ := hs.compact id
    obtain ⟨segment, h⟩ := hfolded.head_there id rfl
    obtain ⟨hheld, hrest⟩ := hfolded.hold h
    exact ⟨hheld, keeps_trans hkept hrest⟩

end Espalier.Segments
