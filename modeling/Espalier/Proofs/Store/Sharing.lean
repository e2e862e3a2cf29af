import Espalier.Proofs.Store.Lists
import Espalier.Proofs.Store.Kinship

/-!
# Growths that share history

Growths share history when the heads of their chains are akin. Each operation is made of a few
changes of the segments, and none of these moves a segment to another family; so whether two
growths are relatives is settled when they are made, and only making one of them anew changes it
(`Sound.sharesHistory_runs`).

A fork is taken in three steps: the growth is frozen (`settle`), its chain is folded (`folded`), and
then it is cloned (`Sound.fork_eq`).
-/

namespace Espalier.Store

open Segments

variable {N : Type} {s s' : Store N} {name copy a b : String} {branch : Branch N}
  {pending pending' : Option SegmentId}

/-- The segment that heads the chain of a growth. -/
def head? (s : Store N) (name : String) : Option SegmentId := s.branches[name]?.bind (·.head)

theorem head?_of_there (h : s.branches[name]? = some branch) : s.head? name = branch.head := by
  unfold head?
  rw [h]
  rfl

/-- The head of a growth is there. -/
theorem Sound.head_there {x : SegmentId} (hs : s.Sound pending) (h : s.head? name = some x) :
    ∃ segment : Segment N, s.segments[x]? = some segment := by
  obtain ⟨branch, hbranch, hhead⟩ := Option.bind_eq_some_iff.mp h
  refine hs.segments.rooted x ?_
  exact Nat.lt_of_lt_of_le (headCount_pos hbranch x hhead) (le_withHold _ _ _)

theorem lineage_of_head {x : SegmentId} (h : s.head? name = some x) :
    s.lineage name = s.segments.lineage x := by
  unfold head? at h
  unfold Store.lineage
  rw [h]

theorem head_of_mem_lineage {z : SegmentId} (h : z ∈ s.lineage name) :
    ∃ x, s.head? name = some x := by
  cases hhead : s.head? name with
  | none =>
    unfold head? at hhead
    unfold Store.lineage at h
    rw [hhead] at h
    exact absurd h List.not_mem_nil
  | some x => exact ⟨x, rfl⟩

theorem sharesHistory_iff_mem :
    s.sharesHistory a b = true ↔ ∃ z, z ∈ s.lineage a ∧ z ∈ s.lineage b := by
  unfold sharesHistory
  rw [List.any_eq_true]
  simp only [List.contains_iff_mem]

theorem sharesHistory_comm (s : Store N) (a b : String) :
    s.sharesHistory a b = s.sharesHistory b a := by
  rw [Bool.eq_iff_iff, sharesHistory_iff_mem, sharesHistory_iff_mem]
  exact exists_congr fun z => and_comm

/-- Growths share history if they have heads that are akin. -/
theorem Sound.sharesHistory_iff (hs : s.Sound pending) :
    s.sharesHistory a b = true ↔
      ∃ x y, s.head? a = some x ∧ s.head? b = some y ∧ s.segments.Akin x y := by
  rw [sharesHistory_iff_mem]
  constructor
  · rintro ⟨z, hza, hzb⟩
    obtain ⟨x, hx⟩ := head_of_mem_lineage hza
    obtain ⟨y, hy⟩ := head_of_mem_lineage hzb
    rw [lineage_of_head hx] at hza
    rw [lineage_of_head hy] at hzb
    exact ⟨x, y, hx, hy,
      (hs.segments.akin_iff (hs.head_there hx) (hs.head_there hy)).mpr ⟨z, hza, hzb⟩⟩
  · rintro ⟨x, y, hx, hy, hakin⟩
    obtain ⟨z, hza, hzb⟩ :=
      (hs.segments.akin_iff (hs.head_there hx) (hs.head_there hy)).mp hakin
    rw [lineage_of_head hx, lineage_of_head hy]
    exact ⟨z, hza, hzb⟩

/-- Growths that keep their heads stay relatives, or strangers, if the segments leave families as
they were. -/
theorem Sound.sharesHistory_congr (hs : s.Sound pending) (hs' : s'.Sound pending')
    (hakin : ∀ x y, s.head? a = some x → s.head? b = some y →
      (s'.segments.Akin x y ↔ s.segments.Akin x y))
    (ha : s'.head? a = s.head? a) (hb : s'.head? b = s.head? b) :
    s'.sharesHistory a b = s.sharesHistory a b := by
  rw [Bool.eq_iff_iff, hs'.sharesHistory_iff, hs.sharesHistory_iff, ha, hb]
  exact exists₂_congr fun x y =>
    and_congr_right fun hx => and_congr_right fun hy => hakin x y hx hy

theorem Sound.sharesHistory_kindred (hs : s.Sound pending) (hs' : s'.Sound pending')
    (hkindred : Kindred s.segments s'.segments) (ha : s'.head? a = s.head? a)
    (hb : s'.head? b = s.head? b) : s'.sharesHistory a b = s.sharesHistory a b := by
  refine hs.sharesHistory_congr hs' (fun x y hx hy => ?_) ha hb
  obtain ⟨found, hfound⟩ := hs'.head_there (ha.trans hx)
  obtain ⟨found', hfound'⟩ := hs'.head_there (hb.trans hy)
  exact hkindred.akin x y found found' hfound hfound'

/-! ## Naming branches -/

theorem head?_drop (hne : a ≠ name) : (s.drop name).head? a = s.head? a := by
  unfold head?
  rw [branches_drop, getElem?_erase_ne s.branches (Ne.symm hne)]

theorem head?_put (hne : a ≠ name) : (s.put name branch).head? a = s.head? a := by
  unfold head? Store.put
  rw [getElem?_insert_ne _ _ (Ne.symm hne)]
  exact head?_drop hne

theorem head?_put_self : (s.put name branch).head? name = branch.head := by
  unfold head? Store.put
  rw [getElem?_insert_ite, if_pos rfl]
  rfl

theorem Sound.kindred_drop (hs : s.Sound pending) (name : String) :
    Kindred s.segments (s.drop name).segments := by
  unfold Store.drop
  cases h : s.branches[name]? with
  | none => exact kindred_refl s.segments
  | some branch =>
    dsimp only
    have hseg := hs.segments
    rw [headCount_of_there h, withHold_comm] at hseg
    cases hhead : branch.head with
    | none => exact kindred_refl s.segments
    | some head =>
      rw [hhead] at hseg
      exact hseg.kindred_release

theorem Sound.sharesHistory_drop (hs : s.Sound pending) (ha : a ≠ name) (hb : b ≠ name) :
    (s.drop name).sharesHistory a b = s.sharesHistory a b :=
  hs.sharesHistory_kindred (hs.drop name).1 (hs.kindred_drop name) (head?_drop ha) (head?_drop hb)

theorem Sound.sharesHistory_put (hs : s.Sound branch.head)
    (hfrozen : branch.frozen = (s.segments.upTo branch.head).length) (ha : a ≠ name)
    (hb : b ≠ name) : (s.put name branch).sharesHistory a b = s.sharesHistory a b :=
  hs.sharesHistory_kindred (hs.put hfrozen name) (hs.kindred_drop name) (head?_put ha)
    (head?_put hb)

/-! ## Replacing segments -/

/-- The segments may be replaced by others in which the names stand for the same. -/
theorem Sound.withSegments {segments : Segments N} (hs : s.Sound pending)
    (hseg : segments.Sound s.fresh (withHold (headCount s.branches) pending'))
    (hkept : Keeps s.segments segments) : ({ s with segments } : Store N).Sound pending' := by
  refine ⟨hseg, fun other found hfound => ?_⟩
  rw [hs.frozen other found hfound]
  refine congrArg List.length (hseg.upTo_kept hkept fun id hid => ?_).symm
  exact Nat.lt_of_lt_of_le (headCount_pos hfound id hid) (le_withHold _ _ _)

/-- The chain of a branch is held once more. -/
def held (s : Store N) (head : Option SegmentId) : Store N :=
  { s with
    segments := match head with
      | none => s.segments
      | some head => s.segments.hold head }

/-- A chain is folded. -/
def folded (s : Store N) (head : Option SegmentId) : Store N :=
  { s with
    segments := match head with
      | none => s.segments
      | some head => s.segments.compact head }

theorem Sound.held (hs : s.Sound none) (h : s.branches[name]? = some branch) :
    (s.held branch.head).Sound branch.head ∧ Kindred s.segments (s.held branch.head).segments := by
  have hseg := hs.segments
  rw [headCount_of_there h, withHold_none] at hseg
  obtain ⟨hheld, hkept⟩ := hseg.hold_head
  rw [← headCount_of_there h] at hheld
  exact ⟨hs.withSegments hheld hkept, hseg.kindred_hold_head⟩

theorem Sound.folded (hs : s.Sound none) (head : Option SegmentId) :
    (s.folded head).Sound none ∧ Kindred s.segments (s.folded head).segments := by
  cases head with
  | none => exact ⟨hs, kindred_refl s.segments⟩
  | some head =>
    obtain ⟨hfolded, hkept⟩ := hs.segments.compact head
    exact ⟨hs.withSegments hfolded hkept,
      hs.segments.kindred_merges (hs.segments.compact_merges head)⟩

theorem clone_eq (h : s.branches[name]? = some branch) (copy : String) :
    s.clone name copy = (s.held branch.head).put copy branch := by
  unfold Store.clone
  rw [h]
  rfl

/-! ## Freezing a growth under its name -/

/-- A branch is frozen, and a name stands for what it is then. -/
def settle (s : Store N) (name : String) (branch : Branch N) : Store N :=
  { (s.freeze branch).1 with branches := s.branches.insert name (s.freeze branch).2 }

theorem Sound.settled (hs : s.Sound none) (h : s.branches[name]? = some branch) :
    Settled (headCount (s.branches.erase name)) s branch (s.freeze branch).1
      (s.freeze branch).2 := by
  have hseg := hs.segments
  rw [headCount_of_there h, withHold_none] at hseg
  exact settled_freeze hseg (hs.frozen name branch h)

theorem Sound.settle (hs : s.Sound none) (h : s.branches[name]? = some branch) :
    (s.settle name branch).Sound none := by
  have hsettled := hs.settled h
  refine (hs.renew _ ?_ hsettled.frozen hsettled.others).1
  rw [withHold_none]
  exact hsettled.segments

theorem head?_settle (hne : a ≠ name) : (s.settle name branch).head? a = s.head? a := by
  unfold head? settle
  rw [getElem?_insert_ne _ _ (Ne.symm hne)]

theorem head?_settle_self : (s.settle name branch).head? name = (s.freeze branch).2.head := by
  unfold head? settle
  rw [getElem?_insert_ite, if_pos rfl]
  rfl

/-- Freezing leaves the families there are as they were. -/
theorem Sound.akin_settle (hs : s.Sound none) (h : s.branches[name]? = some branch)
    {x y : SegmentId} (hx : ∃ segment : Segment N, s.segments[x]? = some segment)
    (hy : ∃ segment : Segment N, s.segments[y]? = some segment) :
    (s.settle name branch).segments.Akin x y ↔ s.segments.Akin x y := by
  have hsound := (hs.settle h).segments
  obtain ⟨result, hresult⟩ : ∃ result, s.freeze branch = result := ⟨_, rfl⟩
  have hfreezes := s.freezes branch
  unfold Store.settle at hsound ⊢
  rw [hresult] at hfreezes hsound ⊢
  cases hfreezes with
  | nothing => exact Iff.rfl
  | started =>
    obtain ⟨segment, hsegment⟩ := hx
    obtain ⟨segment', hsegment'⟩ := hy
    exact (hs.segments.akin_of_pruned (hs.segments.pruned_start _) hsegment hsegment').symm
  | extended _ _ there _ =>
    obtain ⟨found, hfound⟩ := there_of_insert _ hx
    obtain ⟨found', hfound'⟩ := there_of_insert _ hy
    exact hsound.akin_of_pruned (pruned_insert there rfl) hfound hfound'

/-- What the head of a frozen growth is akin to is what its head was akin to before. -/
theorem Sound.akin_settle_head (hs : s.Sound none) (h : s.branches[name]? = some branch)
    {y : SegmentId} (hy : ∃ segment : Segment N, s.segments[y]? = some segment) :
    (∃ x, (s.freeze branch).2.head = some x ∧ (s.settle name branch).segments.Akin x y) ↔
      ∃ x, branch.head = some x ∧ s.segments.Akin x y := by
  have hkin := fun (x : SegmentId) (hx : ∃ segment : Segment N, s.segments[x]? = some segment) =>
    hs.akin_settle h hx hy
  have hseg := hs.segments
  rw [headCount_of_there h, withHold_none] at hseg
  obtain ⟨result, hresult⟩ : ∃ result, s.freeze branch = result := ⟨_, rfl⟩
  have hfreezes := s.freezes branch
  unfold Store.settle at hkin ⊢
  rw [hresult] at hfreezes ⊢
  rw [hresult] at hkin
  cases hfreezes with
  | nothing => exact Iff.rfl
  | started =>
    obtain ⟨segment, hsegment⟩ := hy
    have hstart := hseg.akin_start
      (show Segment.parent ⟨branch.head, branch.frozen, branch.tail, 1⟩ = branch.head from rfl)
      hsegment
    refine .trans ?_ hstart
    constructor
    · rintro ⟨x, hx, hakin⟩
      obtain rfl : s.fresh = x := Option.some.inj hx
      exact hakin
    · intro hakin
      exact ⟨s.fresh, rfl, hakin⟩
  | extended _ heads there _ =>
    rw [heads]
    refine exists_congr fun x => and_congr_right fun hx => hkin x ?_
    obtain rfl := Option.some.inj hx
    exact ⟨_, there⟩

/-- What a frozen growth is a relative of is what it was a relative of before. -/
theorem Sound.sharesHistory_settle_self (hs : s.Sound none)
    (h : s.branches[name]? = some branch) (hb : b ≠ name) :
    (s.settle name branch).sharesHistory name b = s.sharesHistory name b := by
  rw [Bool.eq_iff_iff, (hs.settle h).sharesHistory_iff, hs.sharesHistory_iff, head?_settle hb,
    head?_settle_self, head?_of_there h]
  constructor
  · rintro ⟨x, y, hx, hy, hakin⟩
    obtain ⟨x', hx', hakin'⟩ := (hs.akin_settle_head h (hs.head_there hy)).mp ⟨x, hx, hakin⟩
    exact ⟨x', y, hx', hy, hakin'⟩
  · rintro ⟨x, y, hx, hy, hakin⟩
    obtain ⟨x', hx', hakin'⟩ := (hs.akin_settle_head h (hs.head_there hy)).mpr ⟨x, hx, hakin⟩
    exact ⟨x', y, hx', hy, hakin'⟩

/-- Freezing a growth makes no relatives. -/
theorem Sound.sharesHistory_settle (hs : s.Sound none) (h : s.branches[name]? = some branch)
    (hne : a ≠ b) : (s.settle name branch).sharesHistory a b = s.sharesHistory a b := by
  by_cases ha : a = name
  · subst ha
    exact hs.sharesHistory_settle_self h (Ne.symm hne)
  · by_cases hb : b = name
    · subst hb
      rw [sharesHistory_comm, hs.sharesHistory_settle_self h hne, sharesHistory_comm]
    · refine hs.sharesHistory_congr (hs.settle h) (fun x y hx hy => ?_) (head?_settle ha)
        (head?_settle hb)
      exact hs.akin_settle h (hs.head_there hx) (hs.head_there hy)

/-! ## Forks -/

theorem branches_settled :
    ((s.settle name branch).folded (s.freeze branch).2.head).branches[name]?
      = some (s.freeze branch).2 := by
  unfold Store.folded Store.settle
  rw [getElem?_insert_ite, if_pos rfl]

/-- A fork is a clone of the frozen growth with its chain folded. -/
theorem Sound.fork_eq (hs : s.Sound none) (h : s.branches[name]? = some branch) (copy : String) :
    s.fork name copy
      = ((s.settle name branch).folded (s.freeze branch).2.head).clone name copy := by
  have hsettled := hs.settled h
  rw [clone_eq branches_settled]
  have htail : ({ (s.freeze branch).2 with tail := #[] } : Branch N) = (s.freeze branch).2 := by
    rw [← hsettled.tail]
  unfold Store.fork
  rw [h]
  dsimp only
  rw [htail, hsettled.branches]
  refine congrArg (fun t => Store.put t copy (s.freeze branch).2) ?_
  unfold Store.held Store.folded Store.settle
  cases (s.freeze branch).2.head <;> rfl

theorem Sound.kindred_clone (hs : s.Sound none) (name copy : String) :
    Kindred s.segments (s.clone name copy).segments := by
  cases h : s.branches[name]? with
  | none =>
    unfold Store.clone
    rw [h]
    exact kindred_refl s.segments
  | some branch =>
    rw [clone_eq h]
    obtain ⟨hheld, hkindred⟩ := hs.held h
    exact kindred_trans hkindred (hheld.kindred_drop copy)

theorem head?_clone (ha : a ≠ copy) : (s.clone name copy).head? a = s.head? a := by
  cases h : s.branches[name]? with
  | none =>
    unfold Store.clone
    rw [h]
  | some branch =>
    rw [clone_eq h, head?_put ha]
    rfl

/-- Cloning a growth makes no relatives of others. -/
theorem Sound.sharesHistory_clone (hs : s.Sound none) (h : s.branches[name]? = some branch)
    (ha : a ≠ copy) (hb : b ≠ copy) :
    (s.clone name copy).sharesHistory a b = s.sharesHistory a b :=
  hs.sharesHistory_kindred (hs.clone h copy).1 (hs.kindred_clone name copy) (head?_clone ha)
    (head?_clone hb)

/-- Neither does forking it. -/
theorem Sound.sharesHistory_fork (hs : s.Sound none) (h : s.branches[name]? = some branch)
    (hne : a ≠ b) (ha : a ≠ copy) (hb : b ≠ copy) :
    (s.fork name copy).sharesHistory a b = s.sharesHistory a b := by
  obtain ⟨hfolded, hkindred⟩ := (hs.settle h).folded (s.freeze branch).2.head
  calc (s.fork name copy).sharesHistory a b
      = (((s.settle name branch).folded (s.freeze branch).2.head).clone name copy).sharesHistory
          a b := by rw [hs.fork_eq h]
    _ = ((s.settle name branch).folded (s.freeze branch).2.head).sharesHistory a b :=
        hfolded.sharesHistory_clone branches_settled ha hb
    _ = (s.settle name branch).sharesHistory a b :=
        (hs.settle h).sharesHistory_kindred hfolded hkindred rfl rfl
    _ = s.sharesHistory a b := hs.sharesHistory_settle h hne

/-- A branch with nodes has a chain once it is frozen. -/
theorem Settled.exists_head {roots : SegmentId → Nat} {branch' : Branch N}
    (h : Settled roots s branch s' branch') (hnodes : s.branchNodes branch ≠ []) :
    ∃ head, branch'.head = some head := by
  cases hhead : branch'.head with
  | none =>
    have hempty := h.nodes
    rw [hhead] at hempty
    exact absurd hempty.symm hnodes
  | some head => exact ⟨head, rfl⟩

/-- A growth that is not empty is a relative of its fork. -/
theorem Sound.sharesHistory_fork_self (hs : s.Sound none) (h : s.branches[name]? = some branch)
    (hnodes : s.branchNodes branch ≠ []) (copy : String) :
    (s.fork name copy).sharesHistory name copy = true := by
  obtain ⟨head, hhead⟩ := (hs.settled h).exists_head hnodes
  have hcopy : (s.fork name copy).head? copy = some head := by
    rw [hs.fork_eq h, clone_eq branches_settled, head?_put_self, hhead]
  have hname : (s.fork name copy).head? name = some head := by
    by_cases hne : name = copy
    · rw [hne]
      exact hne ▸ hcopy
    · rw [hs.fork_eq h, head?_clone hne, head?_of_there branches_settled, hhead]
  rw [(hs.fork h copy).1.sharesHistory_iff]
  exact ⟨head, head, hname, hcopy, (akin_equivalence _).refl head⟩

/-! ## Along operations -/

namespace Op

/-- An operation leaves a growth in its place: it may push to the growth, fork it and clone it, but
it makes, resets or drops none under its name. -/
def Leaves (name : String) : Op N → Prop
  | push _ _ => True
  | plant other _ | fork _ other | clone _ other | reset other _ | drop other => name ≠ other

end Op

theorem head?_push (s : Store N) (name : String) (node : N) (a : String) :
    (s.push name node).head? a = s.head? a := by
  unfold Store.push
  cases h : s.branches[name]? with
  | none => rw [modify_eq_self h]
  | some branch =>
    rw [modify_eq_insert h]
    unfold head?
    rw [getElem?_insert_ite]
    by_cases ha : name = a
    · rw [if_pos ha, ← ha, h]
      rfl
    · rw [if_neg ha]

/-- An operation that leaves two growths in place leaves them relatives or strangers. -/
theorem Sound.sharesHistory_run (hs : s.Sound none) (op : Op N) (hne : a ≠ b)
    (ha : op.Leaves a) (hb : op.Leaves b) :
    (op.run s).sharesHistory a b = s.sharesHistory a b := by
  cases op with
  | push name node =>
    have hpushed := (hs.run (.push name node)).1
    exact hs.sharesHistory_congr hpushed (fun _ _ _ _ => Iff.rfl) (head?_push s name node a)
      (head?_push s name node b)
  | plant name root => exact hs.sharesHistory_put rfl ha hb
  | fork name copy =>
    cases h : s.branches[name]? with
    | none =>
      show (s.fork name copy).sharesHistory a b = s.sharesHistory a b
      unfold Store.fork
      rw [h]
    | some branch => exact hs.sharesHistory_fork h hne ha hb
  | clone name copy =>
    cases h : s.branches[name]? with
    | none =>
      show (s.clone name copy).sharesHistory a b = s.sharesHistory a b
      unfold Store.clone
      rw [h]
    | some branch => exact hs.sharesHistory_clone h ha hb
  | reset name root =>
    show (s.reset name root).sharesHistory a b = s.sharesHistory a b
    unfold Store.reset
    by_cases hmem : name ∈ s.branches
    · rw [if_pos hmem]
      exact hs.sharesHistory_put rfl ha hb
    · rw [if_neg hmem]
  | drop name => exact hs.sharesHistory_drop ha hb

/-- So does every sequence of such operations. -/
theorem Sound.sharesHistory_runs (hs : s.Sound none) (ops : List (Op N)) (hne : a ≠ b)
    (hops : ∀ op ∈ ops, op.Leaves a ∧ op.Leaves b) :
    (ops.foldl Op.run s).sharesHistory a b = s.sharesHistory a b := by
  induction ops generalizing s with
  | nil => rfl
  | cons op ops ih =>
    obtain ⟨ha, hb⟩ := hops op List.mem_cons_self
    have hrest := ih (hs.run op).1 fun later hlater => hops later (List.mem_cons_of_mem _ hlater)
    exact hrest.trans (hs.sharesHistory_run op hne ha hb)

end Espalier.Store
