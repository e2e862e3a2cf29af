import Espalier.Proofs.Patience
import Espalier.Proofs.Resampling
import Espalier.Proofs.Tree.Shoots

/-!
# Trees while they are searched for

A `Sapling` is a particle that grows into a tree: it is tended, its wood is within as many steps of
the root as it has had growths, and tips and leaves are counted. It stays one as it grows
(`Sapling.grow`), is closed (`Sapling.close`) and gets its leaves (`Sapling.grow_leaf`), and none of
these fails: each growth has to try no more buds than there are in the skeleton.

The bud of a seed is the only one at the root. It can be told from `Sapling.rooted` that it is gone
when the seed has grown, so that nothing is closed there.
-/

namespace Espalier.Tree

/-! ## Taking a bud -/

/-- A particle before and after a bud was taken out of a queue. -/
structure Takes (phase : Phase) (bud : Bud) (p q : Particle Segment Binary64) : Prop where
  growth : q.growth = p.growth
  queue : (p.buds phase).toList.Perm (bud :: (q.buds phase).toList)
  others : ∀ other, other ≠ phase → q.buds other = p.buds other

section Takes

variable {phase : Phase} {bud : Bud} {p q : Particle Segment Binary64}

theorem takes_of_takeBud {place : Nat} (h : p.takeBud phase place = some (bud, q)) :
    Takes phase bud p q :=
  have ⟨_, _, hgrowth, hqueue, hothers⟩ := Particle.takeBud_spec h
  ⟨hgrowth, hqueue, hothers⟩

/-- Closing takes the youngest bud. -/
theorem takes_pop (h : p.skeleton.back? = some bud) :
    Takes .skeleton bud p { p with skeleton := p.skeleton.pop } where
  growth := rfl
  queue := by
    obtain ⟨rest, hrest⟩ := Array.back?_eq_some_iff.mp h
    show p.skeleton.toList.Perm (bud :: p.skeleton.pop.toList)
    rw [hrest, Array.pop_push, Array.toList_push]
    exact List.perm_append_comm
  others other hother := by
    cases other with
    | skeleton => exact absurd rfl hother
    | detail => rfl

theorem Takes.subset (h : Takes phase bud p q) (other : Phase) :
    (q.buds other).toList ⊆ (p.buds other).toList := by
  by_cases hother : other = phase
  · subst hother
    exact fun _ hbud => h.queue.mem_iff.mpr (List.mem_cons_of_mem _ hbud)
  · rw [h.others other hother]
    exact List.Subset.refl _

theorem Takes.size (h : Takes phase bud p q) : (q.buds phase).size + 1 = (p.buds phase).size :=
  h.queue.length_eq.symm

end Takes

/-! ## Saplings -/

/-- A particle on its way to a tree, with the tips and leaves it has. -/
structure Sapling (place : Point) (d tips leaves : Nat) (p : Particle Segment Binary64) :
    Prop where
  tended : ∃ joint, Tended place p.growth.toList p.skeleton.toList p.details.toList joint
  within : Within d p.growth.toList
  tips : number .tip p.growth.toList = tips
  leaves : number .leaf p.growth.toList = leaves
  /-- A growth takes a bud and brings two at most. -/
  narrow : p.skeleton.size ≤ d + 1
  /-- It is a seed, or there is nothing to grow at the root. -/
  rooted : p.growth.size = 1 ∧ p.skeleton = #[Kind.trunk.bud 0] ∨
    1 < p.growth.size ∧ ∀ bud ∈ p.skeleton, bud.node ≠ 0
  /-- It is no seed after its first growth. -/
  ripe : 0 < d → 1 < p.growth.size

section Sapling

variable {place : Point} {d tips leaves : Nat} {p q : Particle Segment Binary64}

theorem sapling_seed (place : Point) (id : ParticleId) :
    Sapling place 0 0 0 (.seed id "trunk" (.root place)) where
  tended := by
    refine ⟨fun _ => 0, rfl, ⟨fun i hpos hlt => ?_, fun i child hpos hchild => ?_⟩,
      fun bud hbud => ?_, nofun, fun i segment hi hleafy => ?_, rfl⟩
    · exact absurd hlt (Nat.not_lt_of_le hpos)
    · obtain ⟨hlt, -⟩ := List.getElem?_eq_some_iff.mp hchild
      exact absurd hlt (Nat.not_lt_of_le hpos)
    · rw [show bud = Kind.trunk.bud 0 from List.mem_singleton.mp hbud]
      exact .mk rfl (show _ = some (Segment.root place) from rfl) rfl
    · have hroot := List.mem_singleton.mp (List.mem_of_getElem? hi)
      rw [hroot] at hleafy
      exact absurd hleafy Bool.false_ne_true
  within := by
    have hroot {segment : Segment} (hmem : segment ∈ [Segment.root place]) : segment.depth = 0 := by
      rw [List.mem_singleton.mp hmem]
      rfl
    exact ⟨fun _ hmem => Nat.le_succ_of_le (Nat.le_of_eq (hroot hmem)),
      fun _ hmem _ _ => Nat.le_of_eq (hroot hmem)⟩
  tips := rfl
  leaves := rfl
  narrow := Nat.le_refl 1
  rooted := .inl ⟨rfl, rfl⟩
  ripe h := absurd h (Nat.lt_irrefl 0)

/-- Being a sapling depends on what has grown and on the buds alone. -/
theorem Sapling.of_same (h : Sapling place d tips leaves p)
    (hnodes : q.growth.toList = p.growth.toList) (hbuds : ∀ phase, q.buds phase = p.buds phase) :
    Sapling place d tips leaves q := by
  have hskeleton : q.skeleton = p.skeleton := hbuds .skeleton
  have hdetails : q.details = p.details := hbuds .detail
  have hsize : q.growth.size = p.growth.size := congrArg List.length hnodes
  constructor
  case tended => rw [hnodes, hskeleton, hdetails]; exact h.tended
  case within => rw [hnodes]; exact h.within
  case tips => rw [hnodes]; exact h.tips
  case leaves => rw [hnodes]; exact h.leaves
  case narrow => rw [hskeleton]; exact h.narrow
  case rooted => rw [hskeleton, hsize]; exact h.rooted
  case ripe => rw [hsize]; exact h.ripe

theorem Sapling.with_cost (h : Sapling place d tips leaves p) (cost : Cost Binary64) :
    Sapling place d tips leaves { p with cost } :=
  h.of_same rfl fun phase => by cases phase <;> rfl

/-- A sapling without anything to grow is no seed, and it gets older all the same. -/
theorem Sapling.aged (h : Sapling place d tips leaves p) (hempty : p.skeleton.isEmpty = true) :
    Sapling place (d + 1) tips leaves p where
  tended := h.tended
  within := h.within.mono (Nat.le_succ d)
  tips := h.tips
  leaves := h.leaves
  narrow := Nat.le_succ_of_le h.narrow
  rooted := h.rooted
  ripe _ := by
    rcases h.rooted with ⟨-, hseed⟩ | ⟨hsize, -⟩
    · rw [hseed] at hempty
      exact absurd hempty Bool.false_ne_true
    · exact hsize

section Takes

variable {phase : Phase} {bud : Bud}

/-- A bud that is taken is one for its phase. -/
theorem Sapling.pending (h : Sapling place d tips leaves p) (htakes : Takes phase bud p q) :
    Pending p.growth.toList phase bud := by
  obtain ⟨joint, htended⟩ := h.tended
  have hmem : bud ∈ (p.buds phase).toList := htakes.queue.mem_iff.mpr List.mem_cons_self
  cases phase with
  | skeleton => exact htended.growing bud hmem
  | detail => exact htended.missing bud hmem

/-- After any bud has been taken nothing is left to grow at the root. -/
theorem Sapling.rest_rooted (h : Sapling place d tips leaves p) (htakes : Takes phase bud p q) :
    ∀ other ∈ q.skeleton, other.node ≠ 0 := by
  intro other hother
  rcases h.rooted with ⟨hsize, hseed⟩ | ⟨-, hnodes⟩
  · cases phase with
    | skeleton =>
      -- The seed had that one bud.
      have hone := htakes.size
      rw [show p.buds .skeleton = #[Kind.trunk.bud 0] from hseed] at hone
      have hnone : q.skeleton = #[] := Array.eq_empty_of_size_eq_zero (Nat.succ.inj hone)
      rw [hnone] at hother
      exact absurd hother (Array.not_mem_empty other)
    | detail =>
      -- The root carries no leaf.
      cases h.pending htakes with
      | @mk kind node parent due there carried =>
        obtain ⟨joint, htended⟩ := h.tended
        have hlt : node < 1 := hsize ▸ (List.getElem?_eq_some_iff.mp there).1
        obtain rfl := Nat.lt_one_iff.mp hlt
        obtain rfl : parent = .root place := Option.some.inj (there.symm.trans htended.root)
        cases kind with
        | leaf => exact absurd carried Bool.false_ne_true
        | trunk | branch => exact nomatch due
  · exact hnodes other (Array.mem_toList_iff.mp
      (htakes.subset .skeleton (Array.mem_toList_iff.mpr hother)))

end Takes

/-! ## A new segment -/

section Append

variable {kind : Kind} {node : NodeId} {parent child : Segment}
  {kinds : List Kind}

/-- What a segment with its buds adds to a particle. -/
theorem gain_segment (shape : Shape) (q : Particle Segment Binary64) (child : Segment)
    (kinds : List Kind) (id : NodeId) :
    (q.gain (grammar shape) ⟨[child], kinds.map (·.bud id)⟩).growth.toList
        = q.growth.toList ++ [child] ∧
      ∀ phase, ((q.gain (grammar shape) ⟨[child], kinds.map (·.bud id)⟩).buds phase).toList
        = (q.buds phase).toList ++ sprouts kinds id phase := by
  refine ⟨q.toList_gain _ _, fun phase => ?_⟩
  rw [q.buds_gain, List.filter_map]
  unfold sprouts
  congr 2
  exact List.filter_congr fun kind _ => by rw [Function.comp_apply, phaseOf_bud]

theorem size_gain_segment (shape : Shape) (q : Particle Segment Binary64) (child : Segment)
    (kinds : List Kind) (id : NodeId) :
    (q.gain (grammar shape) ⟨[child], kinds.map (·.bud id)⟩).growth.size = q.growth.size + 1 := by
  have hlength := congrArg List.length (gain_segment shape q child kinds id).1
  rw [List.length_append, List.length_singleton] at hlength
  exact hlength

/-- What a bud makes of a segment: it grows into it, or it is closed by it. -/
inductive Outgrowth (kind : Kind) (parent child : Segment) : Prop where
  | grown (part : child.part = kind.part)
  | closed (part : child.part = .tip) (due : kind.phase = .skeleton) (root : parent.part ≠ .root)

theorem Outgrowth.bears (h : Outgrowth kind parent child)
    (hcarries : parent.part.carries kind = true) : parent.part.bears child.part = true := by
  cases h with
  | grown part => exact part ▸ Part.bears_of_carries hcarries
  | closed part due root => exact part ▸ Part.bears_tip hcarries due root

/-- A leaf takes the place of its bud, and no other segment does. -/
theorem Outgrowth.details (h : Outgrowth kind parent child)
    (htakes : Takes kind.phase (kind.bud node) p q) : p.details.toList.Perm
      ((if child.part = .leaf then [Kind.leaf.bud node] else []) ++ q.details.toList) := by
  have hothers (hdue : kind.phase = .skeleton) : q.details = p.details :=
    htakes.others .detail (by rw [hdue]; decide)
  cases h with
  | closed part due =>
    rw [part, if_neg (by decide), hothers due]
    exact List.Perm.refl _
  | grown part =>
    cases kind with
    | trunk | branch =>
      rw [part, if_neg (by decide), hothers rfl]
      exact List.Perm.refl _
    | leaf =>
      rw [part]
      exact htakes.queue

/-- A segment with its buds in place of the bud that was taken makes a sapling of a sapling. How far
it is from the root is left to be shown. -/
theorem Sapling.append {e : Nat} (shape : Shape) (kind : Kind) (h : Sapling place d tips leaves p)
    (htakes : Takes kind.phase (kind.bud node) p q) (hparent : p.growth.get? node = some parent)
    (hcarries : parent.part.carries kind = true) (hchild : Outgrowth kind parent child)
    (hjoined : Joined parent child) (hkinds : Sprouting child.part kinds)
    (hwithin : Within e (p.growth.toList ++ [child]))
    (hnarrow : q.skeleton.size + (sprouts kinds p.growth.size .skeleton).length ≤ e + 1) :
    Sapling place e (tips + if child.part = .tip then 1 else 0)
      (leaves + if child.part = .leaf then 1 else 0)
      (q.gain (grammar shape) ⟨[child], kinds.map (·.bud p.growth.size)⟩) := by
  obtain ⟨joint, htended⟩ := h.tended
  obtain ⟨hnodes, hbuds⟩ := gain_segment shape q child kinds p.growth.size
  obtain ⟨r, hr⟩ : ∃ r, r = q.gain (grammar shape) ⟨[child], kinds.map (·.bud p.growth.size)⟩ :=
    ⟨_, rfl⟩
  rw [← hr, htakes.growth] at hnodes
  rw [← hr] at hbuds ⊢
  have hskeleton : r.skeleton.toList
      = q.skeleton.toList ++ sprouts kinds p.growth.size .skeleton := hbuds .skeleton
  have hsize : r.growth.size = p.growth.size + 1 := by
    rw [hr, size_gain_segment, htakes.growth]
  have hpos : 0 < p.growth.size := by
    rw [Growth.get?_eq_getElem?] at hparent
    exact Nat.zero_lt_of_lt (List.getElem?_eq_some_iff.mp hparent).1
  constructor
  case tended =>
    rw [Growth.get?_eq_getElem?] at hparent
    refine ⟨Function.update joint p.growth.size node, ?_⟩
    rw [hnodes, hskeleton, show r.details.toList = _ from hbuds .detail]
    exact (htended.of_buds (htakes.subset .skeleton) (hchild.details htakes)).append hparent hjoined
      (hchild.bears hcarries) hkinds rfl
  case within => exact hnodes ▸ hwithin
  case tips => rw [hnodes, number_append, h.tips]
  case leaves => rw [hnodes, number_append, h.leaves]
  case narrow =>
    have hlength := congrArg List.length hskeleton
    rw [List.length_append, Array.length_toList, Array.length_toList] at hlength
    omega
  case rooted =>
    refine .inr ⟨by omega, fun bud hbud => ?_⟩
    rw [← Array.mem_toList_iff, hskeleton] at hbud
    rcases List.mem_append.mp hbud with hrest | hnew
    · exact h.rest_rooted htakes bud (Array.mem_toList_iff.mp hrest)
    · rw [node_of_sprouts hnew]
      exact Nat.ne_of_gt hpos
  case ripe => exact fun _ => by omega

theorem Sapling.depth_le (h : Sapling place d tips leaves p)
    (hparent : p.growth.get? node = some parent) : parent.depth ≤ d + 1 := by
  rw [Growth.get?_eq_getElem?] at hparent
  exact h.within.all parent (List.mem_of_getElem? hparent)

theorem Sapling.wood_depth_le (h : Sapling place d tips leaves p)
    (hparent : p.growth.get? node = some parent) (hcarries : parent.part.carries kind = true)
    (hdue : kind.phase = .skeleton) : parent.depth ≤ d := by
  rw [Growth.get?_eq_getElem?] at hparent
  obtain ⟨htip, hleaf⟩ := Part.wood_of_carries hcarries hdue
  exact h.within.wood parent (List.mem_of_getElem? hparent) htip hleaf

/-- Where a branch is absent a sapling is left with a bud less. -/
theorem Sapling.absent (h : Sapling place d tips leaves p)
    (htakes : Takes .skeleton (Kind.branch.bud node) p q) : Sapling place d tips leaves q := by
  have hsize := htakes.size
  constructor
  case tended =>
    obtain ⟨joint, htended⟩ := h.tended
    rw [htakes.growth, show q.details = p.details from htakes.others .detail (by decide)]
    exact ⟨joint, htended.of_buds (htakes.subset .skeleton) (List.Perm.refl _)⟩
  case within => exact htakes.growth ▸ h.within
  case tips => exact htakes.growth ▸ h.tips
  case leaves => exact htakes.growth ▸ h.leaves
  case narrow => exact Nat.le_trans (Nat.le_of_succ_le (Nat.le_of_eq hsize)) h.narrow
  case rooted =>
    refine .inr ⟨?_, h.rest_rooted htakes⟩
    rw [htakes.growth]
    rcases h.rooted with ⟨-, hseed⟩ | ⟨hmore, -⟩
    · -- The bud of a seed is no branch.
      have hmem : Kind.branch.bud node ∈ (p.buds .skeleton).toList :=
        htakes.queue.mem_iff.mpr List.mem_cons_self
      rw [show p.buds .skeleton = #[Kind.trunk.bud 0] from hseed] at hmem
      have hrule : "branch" = "trunk" := congrArg Bud.rule (List.mem_singleton.mp hmem)
      exact absurd hrule (by decide)
    · exact hmore
  case ripe => exact htakes.growth ▸ h.ripe

end Append

/-! ## Growing -/

section Grow

variable {ρ κ : Type} [RandomSource ρ] [CostModel κ Segment Binary64] {shape : Shape}
  {source : ρ} {patience : Nat} {model : κ}

/-- A turn in the skeleton: nothing grows and a bud is gone, or a segment does, a step further from
the root than any wood before. -/
theorem Sapling.shoot {kind : Kind} {node : NodeId} {parent : Segment} {harvest : Harvest Segment}
    (h : Sapling place d tips leaves p) (htakes : Takes .skeleton (kind.bud node) p q)
    (hdue : kind.phase = .skeleton) (hparent : p.growth.get? node = some parent)
    (hcarries : parent.part.carries kind = true)
    (hshoot : Shoot parent p.growth.size kind harvest) :
    (Sapling place d tips leaves (q.gain (grammar shape) harvest) ∧
        (q.gain (grammar shape) harvest).growth.size = p.growth.size ∧
        (q.gain (grammar shape) harvest).skeleton.size < p.skeleton.size) ∨
      (Sapling place (d + 1) tips leaves (q.gain (grammar shape) harvest) ∧
        (q.gain (grammar shape) harvest).growth.size ≠ p.growth.size) := by
  have hsize := htakes.size
  cases hshoot with
  | absent hbranch =>
    subst hbranch
    rw [q.gain_none]
    exact .inl ⟨h.absent htakes, by rw [htakes.growth], Nat.lt_of_succ_le (Nat.le_of_eq hsize)⟩
  | @grown child kinds hjoined hpart hkinds =>
    have hwood : child.part ≠ .tip ∧ child.part ≠ .leaf := by
      rw [hpart]
      cases kind with
      | trunk | branch => decide
      | leaf => exact nomatch hdue
    have hdepth : child.depth ≤ d + 1 := by
      rw [hjoined.depth, if_neg hwood.2]
      exact Nat.succ_le_succ (h.wood_depth_le hparent hcarries hdue)
    have hwithin : Within (d + 1) (p.growth.toList ++ [child]) :=
      (h.within.mono (Nat.le_succ d)).append (Nat.le_succ_of_le hdepth) fun _ _ => hdepth
    have hnarrow : q.skeleton.size + (sprouts kinds p.growth.size .skeleton).length
        ≤ d + 1 + 1 := by
      have hfew := hkinds.length_skeleton p.growth.size
      have hbefore : q.skeleton.size + 1 ≤ d + 1 := Nat.le_trans (Nat.le_of_eq hsize) h.narrow
      omega
    have hgrown := h.append shape kind (hdue ▸ htakes) hparent hcarries (.grown hpart) hjoined
      (hpart ▸ hkinds) hwithin hnarrow
    rw [if_neg hwood.1, if_neg hwood.2] at hgrown
    refine .inr ⟨hgrown, ?_⟩
    rw [size_gain_segment, htakes.growth]
    exact Nat.succ_ne_self _

/-- What a turn applies, for a bud that was taken. -/
theorem Sapling.exists_shoot (shape : Shape) {phase : Phase} {bud : Bud}
    (h : Sapling place d tips leaves p) (htakes : Takes phase bud p q) (source : ρ) :
    ∃ kind node parent, bud = Kind.bud kind node ∧ kind.phase = phase ∧
      p.growth.get? node = some parent ∧ parent.part.carries kind = true ∧
      ∃ choice, ((grammar shape).sample bud.rule source).1 = .ok choice ∧ ∀ rest : ρ,
        ∃ harvest, Shoot parent p.growth.size kind harvest ∧
          (q.apply (grammar shape) choice.body bud.node rest).1
            = q.gain (grammar shape) harvest := by
  cases h.pending htakes with
  | @mk kind node parent hdue hthere hcarries =>
    have hparent : p.growth.get? node = some parent := p.growth.get?_eq_getElem? node ▸ hthere
    obtain ⟨choice, hsample, hshoot⟩ := exists_choice shape kind source
    have hview : q.view.growth = p.growth := htakes.growth
    refine ⟨kind, node, parent, rfl, hdue, hparent, hcarries, choice, hsample, fun rest =>
      ⟨_, ?_, q.perform_eq (grammar shape) (choice.body node) rest⟩⟩
    have hshoot := hshoot node q.view parent (hview ▸ hparent) rest
    rw [hview] at hshoot
    exact hshoot

/-- Where a growth of a sapling stands: nothing has grown yet, and there are as many turns left as
buds, or the growth is over. -/
def Shooting (place : Point) (d tips leaves start turns : Nat) (p : Particle Segment Binary64) :
    Prop :=
  (Sapling place d tips leaves p ∧ p.growth.size = start ∧ p.skeleton.size ≤ turns) ∨
    (Sapling place (d + 1) tips leaves p ∧ p.growth.size ≠ start)

theorem shooting_advances (ρ : Type) [RandomSource ρ] (shape : Shape) (place : Point)
    (d tips leaves start : Nat) : Particle.Advances ρ (grammar shape) .skeleton start
      (Shooting place d tips leaves start) := by
  intro turns p q pick bud hp hstart htake source
  obtain ⟨h, -, hturns⟩ : Sapling place d tips leaves p ∧ p.growth.size = start ∧
      p.skeleton.size ≤ turns :=
    hp.resolve_right fun hover => hover.2 hstart
  have htakes := takes_of_takeBud htake
  have hpos : 0 < p.skeleton.size := Nat.lt_of_lt_of_eq (Nat.succ_pos _) htakes.size
  obtain ⟨kind, node, parent, rfl, hdue, hparent, hcarries, choice, hsample, happly⟩ :=
    h.exists_shoot shape htakes source
  refine ⟨choice, hsample, fun rest => ?_⟩
  obtain ⟨harvest, hshoot, hgain⟩ := happly rest
  rw [hgain]
  rcases h.shoot htakes hdue hparent hcarries hshoot with ⟨hsame, hsize, hless⟩ | ⟨hold, hsize⟩
  · exact ⟨_, Nat.lt_of_lt_of_le hless hturns, .inl ⟨hsame, hsize.trans hstart, Nat.le_refl _⟩⟩
  · exact ⟨0, Nat.lt_of_lt_of_le hpos hturns, .inr ⟨hold, hstart ▸ hsize⟩⟩

/-- A sapling can always grow, with patience for the buds it has in the skeleton. -/
theorem Sapling.grow (shape : Shape) (useHeuristic : Bool) (model : κ) (source : ρ)
    (h : Sapling place d tips leaves p) (hpatience : d + 1 ≤ patience) :
    (p.grow (grammar shape) .skeleton useHeuristic patience model source).1.isOk = true ∧
      Sapling place (d + 1) tips leaves
        (p.grow (grammar shape) .skeleton useHeuristic patience model source).2.1 := by
  cases hopen : (p.buds .skeleton).isEmpty with
  | true =>
    rw [Particle.grow_nothing hopen]
    exact ⟨rfl, h.aged hopen⟩
  | false =>
    have hstart : Shooting place d tips leaves p.growth.size p.skeleton.size p :=
      .inl ⟨h, rfl, Nat.le_refl _⟩
    obtain ⟨hok, ⟨_, hend⟩, hstop⟩ := Particle.expand_ok
      (shooting_advances ρ shape place d tips leaves p.growth.size) source hstart
      (Nat.le_trans h.narrow hpatience)
    obtain ⟨hisOk, cost, hgrow⟩ := Particle.grow_ok useHeuristic model hopen hok
    refine ⟨hisOk, ?_⟩
    rw [hgrow]
    rcases hend with ⟨hsame, hsize, -⟩ | ⟨hold, -⟩
    · exact (hsame.aged (hstop.resolve_left (not_not.mpr hsize))).with_cost cost
    · exact hold.with_cost cost

/-! ## Closing -/

/-- What closing comes to where there is a closing production. -/
theorem close_eq {g : Grammar Segment Binary64} {bud : Bud} {body : Production Segment}
    (hback : p.skeleton.back? = some bud) (hclosing : g.closingFor bud.rule = .ok body) :
    p.close g source = (.ok (some bud),
      ({ p with skeleton := p.skeleton.pop } : Particle Segment Binary64).apply g body bud.node
        source) := by
  unfold Particle.close
  rw [hback]
  dsimp only
  rw [hclosing]

/-- Once a sapling has grown, nothing in its skeleton is at the root. -/
theorem Sapling.part_ne_root {kind : Kind} {node : NodeId} {parent : Segment}
    (h : Sapling place d tips leaves p) (hd : 0 < d)
    (htakes : Takes .skeleton (kind.bud node) p q) (hparent : p.growth.get? node = some parent) :
    parent.part ≠ .root := by
  obtain ⟨joint, htended⟩ := h.tended
  have hmem : kind.bud node ∈ p.skeleton :=
    Array.mem_toList_iff.mp (htakes.queue.mem_iff.mpr List.mem_cons_self)
  have hgrown := h.ripe hd
  rcases h.rooted with ⟨hsize, -⟩ | ⟨-, hnodes⟩
  · exact absurd hsize (Nat.ne_of_gt hgrown)
  · rw [Growth.get?_eq_getElem?] at hparent
    exact htended.hangs.part_ne_root (Nat.pos_of_ne_zero (hnodes _ hmem)) hparent

/-- A tip in place of a bud: there is a bud less in the skeleton and one more for a leaf. -/
theorem Sapling.tip {kind : Kind} {node : NodeId} {parent tip : Segment} (shape : Shape)
    (h : Sapling place d tips leaves p) (hd : 0 < d) (htakes : Takes .skeleton (kind.bud node) p q)
    (hdue : kind.phase = .skeleton) (hparent : p.growth.get? node = some parent)
    (hcarries : parent.part.carries kind = true) (hpart : tip.part = .tip)
    (hjoined : Joined parent tip) {r : Particle Segment Binary64}
    (hr : r = q.gain (grammar shape) ⟨[tip], [Kind.leaf].map (·.bud p.growth.size)⟩) :
    Sapling place d (tips + 1) leaves r ∧ r.skeleton.size + 1 = p.skeleton.size ∧
      r.details.size = p.details.size + 1 := by
  have hdepth : tip.depth ≤ d + 1 := by
    rw [hjoined.depth, if_neg (by rw [hpart]; decide)]
    exact Nat.succ_le_succ (h.wood_depth_le hparent hcarries hdue)
  have hwithin : Within d (p.growth.toList ++ [tip]) :=
    h.within.append hdepth fun htip => absurd hpart htip
  have hnarrow : q.skeleton.size + 0 ≤ d + 1 :=
    Nat.le_trans (Nat.le_of_succ_le (Nat.le_of_eq htakes.size)) h.narrow
  have hkinds : Sprouting tip.part [.leaf] := by
    rw [hpart]
    exact .tip
  have hgrown := h.append shape kind (hdue ▸ htakes) hparent hcarries
    (.closed hpart hdue (h.part_ne_root hd htakes hparent)) hjoined hkinds hwithin hnarrow
  rw [hpart, if_pos rfl, if_neg (by decide), ← hr] at hgrown
  have hbuds := (gain_segment shape q tip [.leaf] p.growth.size).2
  rw [← hr] at hbuds
  have hskeleton : r.skeleton.size = q.skeleton.size + 0 := by
    have hlength := congrArg List.length (hbuds .skeleton)
    rw [List.length_append] at hlength
    exact hlength
  have hdetails : r.details.size = q.details.size + 1 := by
    have hlength := congrArg List.length (hbuds .detail)
    rw [List.length_append] at hlength
    exact hlength
  have hothers : q.details = p.details := htakes.others .detail (by decide)
  exact ⟨hgrown, hskeleton ▸ htakes.size, hothers ▸ hdetails⟩

/-- A sapling that has grown is closed by tips, bud after bud. -/
theorem Sapling.close (shape : Shape) (source : ρ) (h : Sapling place d tips leaves p)
    (hd : 0 < d) :
    (p.skeleton = #[] ∧ p.close (grammar shape) source = (.ok none, p, source)) ∨
      ∃ bud, (p.close (grammar shape) source).1 = .ok (some bud) ∧
        Sapling place d (tips + 1) leaves (p.close (grammar shape) source).2.1 ∧
        (p.close (grammar shape) source).2.1.skeleton.size + 1 = p.skeleton.size ∧
        (p.close (grammar shape) source).2.1.details.size = p.details.size + 1 := by
  cases hback : p.skeleton.back? with
  | none =>
    refine .inl ⟨Array.back?_eq_none_iff.mp hback, ?_⟩
    unfold Particle.close
    rw [hback]
  | some bud =>
    have htakes := takes_pop hback
    cases h.pending htakes with
    | @mk kind node parent hdue hthere hcarries =>
      have hparent : p.growth.get? node = some parent := p.growth.get?_eq_getElem? node ▸ hthere
      have hview : (Particle.view { p with skeleton := p.skeleton.pop }).growth.get? node
          = some parent := hparent
      obtain ⟨tip, hpart, hjoined, hharvest⟩ := closes_with_tip hview source
      have hclosed := (Particle.perform_eq (grammar shape) (closeWithTip node)
        { p with skeleton := p.skeleton.pop } source).trans
          (congrArg (Particle.gain _ (grammar shape)) hharvest)
      rw [close_eq hback (closingFor_name shape hdue)]
      exact .inr ⟨kind.bud node, rfl,
        h.tip shape hd htakes hdue hparent hcarries hpart hjoined hclosed⟩

/-! ## Leaves -/

/-- A leaf in place of its bud. -/
theorem Sapling.leaf {node : NodeId} {parent leaf : Segment} (shape : Shape)
    (h : Sapling place d tips leaves p) (htakes : Takes .detail (Kind.leaf.bud node) p q)
    (hparent : p.growth.get? node = some parent)
    (hcarries : parent.part.carries .leaf = true) (hpart : leaf.part = .leaf)
    (hjoined : Joined parent leaf) {r : Particle Segment Binary64}
    (hr : r = q.gain (grammar shape) ⟨[leaf], [].map fun kind : Kind => kind.bud p.growth.size⟩) :
    Sapling place d tips (leaves + 1) r ∧ r.skeleton = p.skeleton ∧
      r.details.size + 1 = p.details.size := by
  have hdepth : leaf.depth ≤ d + 1 := by
    rw [hjoined.depth, if_pos hpart]
    exact h.depth_le hparent
  have hwithin : Within d (p.growth.toList ++ [leaf]) :=
    h.within.append hdepth fun _ hleaf => absurd hpart hleaf
  have hothers : q.skeleton = p.skeleton := htakes.others .skeleton (by decide)
  have hnarrow : q.skeleton.size + 0 ≤ d + 1 := hothers ▸ h.narrow
  have hkinds : Sprouting leaf.part [] := by
    rw [hpart]
    exact .leaf
  have hgrown := h.append shape .leaf htakes hparent hcarries (.grown hpart)
    hjoined hkinds hwithin hnarrow
  rw [hpart, if_neg (by decide), if_pos rfl, ← hr] at hgrown
  have hbuds := (gain_segment shape q leaf [] p.growth.size).2
  rw [← hr] at hbuds
  have hskeleton : r.skeleton = q.skeleton :=
    Array.toList_inj.mp ((hbuds .skeleton).trans (List.append_nil _))
  have hdetails : r.details = q.details :=
    Array.toList_inj.mp ((hbuds .detail).trans (List.append_nil _))
  exact ⟨hgrown, hskeleton.trans hothers, hdetails ▸ htakes.size⟩

/-- Where the growth of a leaf stands: it has its one turn, or it has had it. -/
def Leafing (place : Point) (d tips leaves : Nat) (p : Particle Segment Binary64) (turns : Nat)
    (q : Particle Segment Binary64) : Prop :=
  (q = p ∧ 0 < turns) ∨
    (Sapling place d tips (leaves + 1) q ∧ q.skeleton = p.skeleton ∧
      q.details.size + 1 = p.details.size ∧ q.growth.size ≠ p.growth.size)

theorem leafing_advances (ρ : Type) [RandomSource ρ] (shape : Shape)
    (h : Sapling place d tips leaves p) : Particle.Advances ρ (grammar shape) .detail p.growth.size
      (Leafing place d tips leaves p) := by
  intro turns r q pick bud hr hstart htake source
  obtain ⟨rfl, hturns⟩ : r = p ∧ 0 < turns := hr.resolve_right fun hover => hover.2.2.2 hstart
  have htakes := takes_of_takeBud htake
  obtain ⟨kind, node, parent, rfl, hdue, hparent, hcarries, choice, hsample, happly⟩ :=
    h.exists_shoot shape htakes source
  obtain rfl : kind = .leaf := by
    cases kind with
    | leaf => rfl
    | trunk | branch => exact nomatch hdue
  refine ⟨choice, hsample, fun rest => ⟨0, hturns, .inr ?_⟩⟩
  obtain ⟨harvest, hshoot, hgain⟩ := happly rest
  cases hshoot with
  | absent hbranch => exact nomatch hbranch
  | @grown leaf kinds hjoined hpart hkinds =>
    cases hkinds with
    | leaf =>
      obtain ⟨hgrown, hskeleton, hdetails⟩ :=
        h.leaf shape htakes hparent hcarries hpart hjoined hgain
      refine ⟨hgrown, hskeleton, hdetails, ?_⟩
      rw [hgain, size_gain_segment, htakes.growth]
      exact Nat.succ_ne_self _

/-- As long as there are buds of leaves a leaf grows, with patience for one of them. -/
theorem Sapling.grow_leaf (shape : Shape) (useHeuristic : Bool) (model : κ) (source : ρ)
    (h : Sapling place d tips leaves p) (hopen : p.details.isEmpty = false)
    (hpatience : 0 < patience) :
    (p.grow (grammar shape) .detail useHeuristic patience model source).1.isOk = true ∧
      Sapling place d tips (leaves + 1)
        (p.grow (grammar shape) .detail useHeuristic patience model source).2.1 ∧
      (p.grow (grammar shape) .detail useHeuristic patience model source).2.1.skeleton
        = p.skeleton ∧
      (p.grow (grammar shape) .detail useHeuristic patience model source).2.1.details.size + 1
        = p.details.size := by
  have hbuds : (p.buds .detail).isEmpty = false := hopen
  have hstart : Leafing place d tips leaves p 1 p := .inl ⟨rfl, Nat.one_pos⟩
  obtain ⟨hok, ⟨_, hend⟩, hstop⟩ :=
    Particle.expand_ok (leafing_advances ρ shape h) source hstart hpatience
  obtain ⟨hisOk, cost, hgrow⟩ := Particle.grow_ok useHeuristic model hbuds hok
  rw [hgrow]
  rcases hend with ⟨hsame, -⟩ | ⟨hgrown, hskeleton, hdetails, -⟩
  · -- Without its turn the growth would not be over.
    rw [hsame] at hstop
    rcases hstop with hsize | hempty
    · exact absurd rfl hsize
    · exact absurd hempty (Bool.eq_false_iff.mp hopen)
  · exact ⟨hisOk, hgrown.with_cost cost, hskeleton, hdetails⟩

end Grow

end Sapling

end Espalier.Tree
