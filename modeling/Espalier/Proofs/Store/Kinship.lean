import Espalier.Proofs.Store.Freezing
import Espalier.Proofs.Store.Folding

/-!
# Segments that are akin

Two segments are `Akin` if their chains meet. Since a segment continues one parent at most, chains
that meet have the rest in common, so this is an equivalence (`akin_equivalence`): the segments of a
store are a forest, and its trees are the families.

Nothing that happens to segments moves one from one family to another. A segment may go only when
nobody continues it, which leaves all other chains alone (`kindred_of_pruned`), or by a merge, and
then every chain through it passes through its only child (`Sound.kindred_merge`).
-/

namespace Espalier.Segments

variable {N : Type} {s s' : Segments N} {fresh id x y z : SegmentId}
  {roots : SegmentId → Nat} {segment : Segment N}

/-! ## Families -/

/-- A segment continues its parent. -/
def Continues (s : Segments N) (id parent : SegmentId) : Prop :=
  ∃ segment : Segment N, s[id]? = some segment ∧ segment.parent = some parent

/-- The chains of two segments meet. -/
def Akin (s : Segments N) : SegmentId → SegmentId → Prop :=
  Relation.Join (Relation.ReflTransGen s.Continues)

/-- A segment continues one other segment at most. -/
theorem Continues.unique (h : s.Continues id x) (h' : s.Continues id y) : x = y := by
  obtain ⟨segment, hsegment, hx⟩ := h
  obtain ⟨segment', hsegment', hy⟩ := h'
  obtain rfl : segment = segment' := Option.some.inj (hsegment.symm.trans hsegment')
  exact Option.some.inj (hx.symm.trans hy)

theorem akin_equivalence (s : Segments N) : Equivalence s.Akin := by
  refine Relation.equivalence_join_reflTransGen fun id x y hx hy => ⟨x, .refl, ?_⟩
  rw [hx.unique hy]

/-- A segment is akin to whatever its chain passes through. -/
theorem akin_of_reaches (h : Relation.ReflTransGen s.Continues x y) : s.Akin x y :=
  ⟨y, h, .refl⟩

/-- A map under which parents stay akin carries families into families. -/
theorem Akin.map {f : SegmentId → SegmentId}
    (hparent : ∀ id parent, s.Continues id parent → s'.Akin (f id) (f parent)) (h : s.Akin x y) :
    s'.Akin (f x) (f y) := by
  have hreach : ∀ {x z : SegmentId}, Relation.ReflTransGen s.Continues x z →
      s'.Akin (f x) (f z) := by
    intro x z hz
    induction hz with
    | refl => exact (akin_equivalence s').refl _
    | tail _ hnext ih => exact (akin_equivalence s').trans ih (hparent _ _ hnext)
  obtain ⟨z, hx, hy⟩ := h
  exact (akin_equivalence s').trans (hreach hx) ((akin_equivalence s').symm (hreach hy))

/-- A segment with neither a parent nor a child has no relatives. -/
theorem not_akin_of_alone (h : s[id]? = some segment) (hp : segment.parent = none)
    (hchildren : s.children id = 0) (hne : y ≠ id) : ¬ s.Akin id y := by
  rintro ⟨z, hid, hy⟩
  obtain rfl : id = z := by
    rcases hid.cases_head with heq | ⟨parent, ⟨found, hfound, hparent⟩, -⟩
    · exact heq
    · obtain rfl : segment = found := Option.some.inj (h.symm.trans hfound)
      exact absurd (hp.symm.trans hparent) (by simp)
  rcases hy.cases_tail with heq | ⟨child, -, found, hfound, hparent⟩
  · exact hne heq.symm
  · exact parent_ne_of_children_eq_zero hchildren hfound hparent

/-! ## Along a chain -/

/-- The chain of a segment is the segment and the chain of its parent. -/
theorem Sound.lineage_eq (hs : s.Sound fresh roots) (h : s[id]? = some segment) :
    s.lineage id = id :: segment.parent.elim [] s.lineage := by
  rw [lineage, h]
  dsimp only
  cases hp : segment.parent with
  | none => rfl
  | some parent =>
    obtain ⟨hlt, -⟩ := hs.older id segment parent h hp
    exact if_pos hlt

/-- What a segment continues is there. -/
theorem Sound.there_of_continues (hs : s.Sound fresh roots) (h : s.Continues x y) :
    ∃ found : Segment N, s[y]? = some found := by
  obtain ⟨found, hfound, hp⟩ := h
  exact (hs.older x found y hfound hp).2

/-- The numbers in a lineage are those that are reached from parent to parent. -/
theorem Sound.mem_lineage_iff (hs : s.Sound fresh roots) (h : s[x]? = some segment) :
    z ∈ s.lineage x ↔ Relation.ReflTransGen s.Continues x z := by
  -- A chain is followed upwards, so the induction is on the number of the segment.
  induction x using Nat.strongRecOn generalizing segment with
  | ind x ih =>
    rw [hs.lineage_eq h, List.mem_cons]
    cases hp : segment.parent with
    | none =>
      constructor
      · rintro (rfl | hnil)
        · exact .refl
        · exact absurd hnil List.not_mem_nil
      · intro hz
        rcases hz.cases_head with heq | ⟨parent, ⟨found, hfound, hparent⟩, -⟩
        · exact .inl heq.symm
        · obtain rfl : segment = found := Option.some.inj (h.symm.trans hfound)
          exact absurd (hp.symm.trans hparent) (by simp)
    | some parent =>
      have hcontinues : s.Continues x parent := ⟨segment, h, hp⟩
      obtain ⟨hlt, before, hbefore⟩ := hs.older x segment parent h hp
      show z = x ∨ z ∈ s.lineage parent ↔ _
      rw [ih parent hlt hbefore]
      constructor
      · rintro (rfl | hz)
        · exact .refl
        · exact .head hcontinues hz
      · intro hz
        rcases hz.cases_head with heq | ⟨next, hnext, hz⟩
        · exact .inl heq.symm
        · exact .inr (hcontinues.unique hnext ▸ hz)

/-- Two segments are akin exactly if some number is in both of their lineages. -/
theorem Sound.akin_iff (hs : s.Sound fresh roots)
    (hx : ∃ found : Segment N, s[x]? = some found) (hy : ∃ found : Segment N, s[y]? = some found) :
    s.Akin x y ↔ ∃ z, z ∈ s.lineage x ∧ z ∈ s.lineage y := by
  obtain ⟨found, hfound⟩ := hx
  obtain ⟨found', hfound'⟩ := hy
  refine exists_congr fun z => and_congr ?_ ?_
  · exact (hs.mem_lineage_iff hfound).symm
  · exact (hs.mem_lineage_iff hfound').symm

/-- What a chain passes through stands for a beginning of its nodes. -/
theorem Sound.nodes_prefix (hs : s.Sound fresh roots)
    (h : Relation.ReflTransGen s.Continues x z) : s.nodes z <+: s.nodes x := by
  induction h with
  | refl => exact List.prefix_rfl
  | tail _ hnext ih =>
    obtain ⟨found, hfound, hp⟩ := hnext
    refine .trans ?_ ih
    rw [hs.nodes_eq hfound, hp]
    exact List.prefix_append _ _

/-! ## What operations leave of a family -/

/-- Whatever is there now was there before, stands for the same nodes and is akin to what it was
akin to. -/
structure Kindred (s s' : Segments N) : Prop where
  keeps : Keeps s s'
  akin : ∀ (x y : SegmentId) (found found' : Segment N), s'[x]? = some found →
    s'[y]? = some found' → (s'.Akin x y ↔ s.Akin x y)

theorem kindred_refl (s : Segments N) : Kindred s s where
  keeps := keeps_refl s
  akin := fun _ _ _ _ _ _ => Iff.rfl

theorem kindred_trans {s₁ s₂ s₃ : Segments N} (h₁ : Kindred s₁ s₂) (h₂ : Kindred s₂ s₃) :
    Kindred s₁ s₃ where
  keeps := keeps_trans h₁.keeps h₂.keeps
  akin := by
    intro x y found found' hx hy
    obtain ⟨⟨before, hbefore⟩, -⟩ := h₂.keeps x found hx
    obtain ⟨⟨before', hbefore'⟩, -⟩ := h₂.keeps y found' hy
    exact (h₂.akin x y found found' hx hy).trans (h₁.akin x y before before' hbefore hbefore')

/-- Whatever is there now was there before and continues what it continued. -/
def Pruned (s s' : Segments N) : Prop :=
  ∀ (id : SegmentId) (segment' : Segment N), s'[id]? = some segment' →
    ∃ segment : Segment N, s[id]? = some segment ∧ segment.parent = segment'.parent

theorem pruned_refl (s : Segments N) : Pruned s s :=
  fun _ segment h => ⟨segment, h, rfl⟩

theorem pruned_trans {s₁ s₂ s₃ : Segments N} (h₁ : Pruned s₁ s₂) (h₂ : Pruned s₂ s₃) :
    Pruned s₁ s₃ := by
  intro id segment₃ h₃
  obtain ⟨segment₂, hs₂, hp₂⟩ := h₂ id segment₃ h₃
  obtain ⟨segment₁, hs₁, hp₁⟩ := h₁ id segment₂ hs₂
  exact ⟨segment₁, hs₁, hp₁.trans hp₂⟩

/-- Replacing a segment by one with the same parent. -/
theorem pruned_insert {new : Segment N} (h : s[id]? = some segment)
    (hp : new.parent = segment.parent) : Pruned s (s.insert id new) := by
  intro other found hfound
  rcases new_or_there_of_insert hfound with ⟨rfl, rfl⟩ | ⟨-, hthere⟩
  · exact ⟨segment, h, hp.symm⟩
  · exact ⟨found, hthere, rfl⟩

/-- What was there is there still when a segment is put in. -/
theorem there_of_insert (new : Segment N) (h : ∃ found : Segment N, s[x]? = some found) :
    ∃ found : Segment N, (s.insert id new)[x]? = some found := by
  by_cases he : id = x
  · exact ⟨new, by rw [getElem?_insert_ite, if_pos he]⟩
  · rw [getElem?_insert_ne s new he]
    exact h

theorem pruned_erase (s : Segments N) (id : SegmentId) : Pruned s (s.erase id) :=
  fun _ found hfound => ⟨found, (there_of_erase hfound).2, rfl⟩

theorem pruned_hold (s : Segments N) (id : SegmentId) : Pruned s (s.hold id) := by
  rw [Segments.hold]
  cases h : s[id]? with
  | none => exact pruned_refl s
  | some segment => exact pruned_insert h rfl

theorem pruned_release (s : Segments N) (id : SegmentId) : Pruned s (s.release id) := by
  induction id using Nat.strongRecOn generalizing s with
  | ind id ih =>
    rw [Segments.release]
    cases h : s[id]? with
    | none => exact pruned_refl s
    | some segment =>
      dsimp only
      by_cases hmany : 1 < segment.holders
      · rw [if_pos hmany]
        exact pruned_insert h rfl
      · rw [if_neg hmany]
        have herased := pruned_erase s id
        cases hp : segment.parent with
        | none => exact herased
        | some parent =>
          dsimp only
          by_cases hlt : parent < id
          · rw [if_pos hlt]
            exact pruned_trans herased (ih parent hlt (s.erase id))
          · rw [if_neg hlt]
            exact herased

/-- A new segment aside, the segments after a start are those before it. -/
theorem Sound.pruned_start (hs : s.Sound fresh roots) (new : Segment N) :
    Pruned (s.insert fresh new) s :=
  fun _ found hfound => ⟨found, hs.there_start new hfound, rfl⟩

/-- Pruning leaves families as they were: the chain of what is left is left as a whole. -/
theorem Sound.akin_of_pruned (hs : s'.Sound fresh roots) (h : Pruned s s')
    {found found' : Segment N} (hx : s'[x]? = some found) (hy : s'[y]? = some found') :
    s'.Akin x y ↔ s.Akin x y := by
  have hold : ∀ x z, s'.Continues x z → s.Continues x z := by
    rintro x z ⟨found, hfound, hp⟩
    obtain ⟨before, hbefore, hsame⟩ := h x found hfound
    exact ⟨before, hbefore, hsame.trans hp⟩
  have hnow : ∀ {x z : SegmentId}, Relation.ReflTransGen s.Continues x z →
      (∃ found : Segment N, s'[x]? = some found) → Relation.ReflTransGen s'.Continues x z := by
    intro x z hz
    induction hz using Relation.ReflTransGen.head_induction_on with
    | refl => exact fun _ => .refl
    | head hnext _ ih =>
      rintro ⟨found, hfound⟩
      obtain ⟨before, hbefore, hsame⟩ := h _ found hfound
      obtain ⟨before', hbefore', hp⟩ := hnext
      obtain rfl : before = before' := Option.some.inj (hbefore.symm.trans hbefore')
      have hnext' : s'.Continues _ _ := ⟨found, hfound, hsame.symm.trans hp⟩
      exact .head hnext' (ih (hs.there_of_continues hnext'))
  constructor
  · rintro ⟨z, hxz, hyz⟩
    have hmono := Relation.ReflTransGen.mono hold
    exact ⟨z, hmono x z hxz, hmono y z hyz⟩
  · rintro ⟨z, hxz, hyz⟩
    exact ⟨z, hnow hxz ⟨found, hx⟩, hnow hyz ⟨found', hy⟩⟩

theorem Sound.kindred_of_pruned (hs : s'.Sound fresh roots) (hkept : Keeps s s')
    (h : Pruned s s') : Kindred s s' where
  keeps := hkept
  akin := fun _ _ _ _ hx hy => hs.akin_of_pruned h hx hy

/-- A hold may be given up without harm to the families. -/
theorem Sound.kindred_release (hs : s.Sound fresh (withHold roots (some id))) :
    Kindred s (s.release id) := by
  obtain ⟨hreleased, hkept⟩ := hs.release
  exact hreleased.kindred_of_pruned hkept (pruned_release s id)

/-- And a head held once more. -/
theorem Sound.kindred_hold_head {head : Option SegmentId} :
    s.Sound fresh (withHold roots head) →
    Kindred s (match head with | none => s | some id => s.hold id) := by
  intro hs
  cases head with
  | none => exact kindred_refl s
  | some id =>
    obtain ⟨segment, h⟩ := hs.head_there id rfl
    obtain ⟨hheld, hkept⟩ := hs.hold h
    exact hheld.kindred_of_pruned hkept (pruned_hold s id)

/-! ## New segments -/

/-- A new segment is akin to what its parent is akin to, and to nothing if it has none. -/
theorem Sound.akin_start {head : Option SegmentId} {new : Segment N}
    (hs : s.Sound fresh (withHold roots head)) (hnew : new.parent = head)
    (hy : s[y]? = some segment) :
    Akin (s.insert fresh new) fresh y ↔ ∃ x, head = some x ∧ s.Akin x y := by
  have hthere : (s.insert fresh new)[fresh]? = some new := by
    rw [getElem?_insert_ite, if_pos rfl]
  cases head with
  | none =>
    have hchildren : children (s.insert fresh new) fresh = 0 := by
      rw [hs.children_start, hs.fresh_childless, hnew]
      rfl
    have hne : y ≠ fresh := Nat.ne_of_lt (hs.known y segment hy)
    refine iff_of_false (not_akin_of_alone hthere hnew hchildren hne) ?_
    rintro ⟨x, hx, -⟩
    exact absurd hx (by simp)
  | some parent =>
    obtain ⟨before, hbefore⟩ := hs.head_there parent rfl
    have hparent : Akin (s.insert fresh new) fresh parent :=
      akin_of_reaches (.single ⟨new, hthere, hnew⟩)
    have hsame := hs.akin_of_pruned (hs.pruned_start new) hbefore hy
    constructor
    · intro hfresh
      have hmeet := (akin_equivalence _).trans ((akin_equivalence _).symm hparent) hfresh
      exact ⟨parent, rfl, hsame.mpr hmeet⟩
    · rintro ⟨x, hx, hakin⟩
      obtain rfl : parent = x := Option.some.inj hx
      exact (akin_equivalence _).trans hparent (hsame.mp hakin)

/-! ## Merges -/

section Merge

variable {parent : SegmentId} {before : Segment N}

/-- The child stands in for its parent, and everybody else for himself. -/
def heir (id parent x : SegmentId) : SegmentId := if x = parent then id else x

theorem heir_parent : heir id parent parent = id := if_pos rfl

theorem heir_of_ne (h : x ≠ parent) : heir id parent x = x := if_neg h

/-- What the merged segment continues it reached through its parent before. -/
theorem akin_of_continues_merge (h : s[id]? = some segment) (hp : segment.parent = some parent)
    (hbefore : s[parent]? = some before)
    (hnext : Continues ((s.erase parent).insert id (merged before segment)) x y) : s.Akin x y := by
  obtain ⟨found, hfound, hparent⟩ := hnext
  rcases merged_or_kept hfound with ⟨rfl, rfl⟩ | ⟨-, -, hthere⟩
  · have hstep : s.Continues id parent := ⟨segment, h, hp⟩
    exact akin_of_reaches (.head hstep (.single ⟨before, hbefore, hparent⟩))
  · exact akin_of_reaches (.single ⟨found, hthere, hparent⟩)

/-- What continued the parent or was continued by it is akin to the child now. -/
theorem Sound.akin_heir (hs : s.Sound fresh roots) (h : s[id]? = some segment)
    (hp : segment.parent = some parent) (hbefore : s[parent]? = some before)
    (hone : before.holders = 1) (hnext : s.Continues x y) :
    Akin ((s.erase parent).insert id (merged before segment)) (heir id parent x)
      (heir id parent y) := by
  obtain ⟨-, honly⟩ := hs.only_child h hp hbefore hone
  have hidne : id ≠ parent := Nat.ne_of_gt (hs.older id segment parent h hp).1
  obtain ⟨found, hfound, hparent⟩ := hnext
  by_cases hx : x = id
  · -- The child and its parent are one segment now.
    subst hx
    obtain rfl : segment = found := Option.some.inj (h.symm.trans hfound)
    obtain rfl : parent = y := Option.some.inj (hp.symm.trans hparent)
    rw [heir_of_ne hidne, heir_parent]
    exact (akin_equivalence _).refl x
  · have hyne : y ≠ parent := by
      rintro rfl
      exact hx (eq_of_only_child honly h hp hfound hparent)
    rw [heir_of_ne hyne]
    by_cases hxp : x = parent
    · subst hxp
      obtain rfl : before = found := Option.some.inj (hbefore.symm.trans hfound)
      rw [heir_parent]
      refine akin_of_reaches (.single ⟨merged before segment, ?_, hparent⟩)
      rw [getElem?_insert_ite, if_pos rfl]
    · rw [heir_of_ne hxp]
      refine akin_of_reaches (.single ⟨found, ?_, hparent⟩)
      rw [getElem?_insert_ne _ _ (Ne.symm hx), getElem?_erase_ne s (Ne.symm hxp), hfound]

/-- A merge leaves families as they were: chains that met in the parent meet in its child. -/
theorem Sound.kindred_merge (hs : s.Sound fresh roots) (h : s[id]? = some segment)
    (hp : segment.parent = some parent) (hbefore : s[parent]? = some before)
    (hone : before.holders = 1) :
    Kindred s ((s.erase parent).insert id (merged before segment)) := by
  obtain ⟨-, hkept⟩ := hs.merge h hp hbefore hone
  have hleft : ∀ (x : SegmentId) (found : Segment N),
      ((s.erase parent).insert id (merged before segment))[x]? = some found → x ≠ parent := by
    intro x found hfound
    rcases merged_or_kept hfound with ⟨rfl, -⟩ | ⟨-, hne, -⟩
    · exact Nat.ne_of_gt (hs.older id segment parent h hp).1
    · exact Ne.symm hne
  refine ⟨hkept, fun x y found found' hx hy => ⟨fun hakin => ?_, fun hakin => ?_⟩⟩
  · exact Akin.map (f := fun x => x) (fun _ _ => akin_of_continues_merge h hp hbefore) hakin
  · have hmapped := hakin.map fun _ _ => hs.akin_heir h hp hbefore hone
    rw [heir_of_ne (hleft x found hx), heir_of_ne (hleft y found' hy)] at hmapped
    exact hmapped

end Merge

/-- So does any number of merges. -/
theorem Sound.kindred_merges (hs : s.Sound fresh roots) (h : Relation.ReflTransGen Merges s s') :
    Kindred s s' := by
  induction h with
  | refl => exact kindred_refl s
  | tail hmerges hmerge ih =>
    obtain ⟨hsound, -⟩ := hs.merges hmerges
    cases hmerge with
    | fold there continues older only =>
      exact kindred_trans ih (hsound.kindred_merge there continues older only)

/-! ## Segments that are not empty -/

/-- Every chain has nodes. -/
def Filled (s : Segments N) : Prop :=
  ∀ (id : SegmentId) (segment : Segment N), s[id]? = some segment → s.nodes id ≠ []

theorem filled_empty : Filled (∅ : Segments N) :=
  fun id segment h => absurd h (by simp)

theorem Filled.kept (hf : s.Filled) (h : Keeps s s') : s'.Filled := by
  intro id segment hsegment
  obtain ⟨⟨before, hbefore⟩, hnodes⟩ := h id segment hsegment
  exact hnodes ▸ hf id before hbefore

/-- Chains that meet have a beginning in common. -/
theorem Sound.common_of_akin (hs : s.Sound fresh roots) (hf : s.Filled)
    (hx : s[x]? = some segment) (h : s.Akin x y) :
    ∃ common, common ≠ [] ∧ common <+: s.nodes x ∧ common <+: s.nodes y := by
  obtain ⟨z, hxz, hyz⟩ := h
  obtain ⟨found, hfound⟩ : ∃ found : Segment N, s[z]? = some found := by
    rcases hxz.cases_tail with heq | ⟨child, -, hnext⟩
    · exact ⟨segment, heq ▸ hx⟩
    · exact hs.there_of_continues hnext
  exact ⟨s.nodes z, hf z found hfound, hs.nodes_prefix hxz, hs.nodes_prefix hyz⟩

end Espalier.Segments
