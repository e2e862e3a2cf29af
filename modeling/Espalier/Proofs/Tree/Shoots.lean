import Espalier.Proofs.Grammar
import Espalier.Proofs.Growing
import Espalier.Proofs.Number.Shares
import Espalier.Proofs.Tree.Hanging
import Espalier.Tree.Growing

/-!
# What the grammar of trees lets grow

Every production of the grammar adds to a tree what a bud may grow into (`Shoot`): a segment joined
to the one that the bud is at, with the buds of its part, or nothing at all where a branch is
absent. `exists_choice` says that a choice is found for every bud, whatever is drawn, and that it is
such a production; `closes_with_tip` says what the closing production adds.
-/

namespace Espalier.Tree

/-- What a bud may grow into where it is at a segment, the next node being `id`. -/
inductive Shoot (parent : Segment) (id : NodeId) (kind : Kind) : Harvest Segment → Prop where
  | absent (branch : kind = .branch) : Shoot parent id kind .none
  | grown {child : Segment} {kinds : List Kind} (joined : Joined parent child)
    (part : child.part = kind.part) (sprouting : Sprouting kind.part kinds) :
    Shoot parent id kind ⟨[child], kinds.map (·.bud id)⟩

theorem joined_grow (parent : Segment) {part : Part} (hpart : part ≠ .leaf)
    (angle length width : Binary32) : Joined parent (parent.grow part angle length width) :=
  ⟨rfl, (if_neg hpart).symm⟩

/-- Wood grows in the direction of what it grows from, or at an angle to it. -/
theorem shoot_grow (kind : Kind) (hkind : kind.part ≠ .leaf) {kinds : List Kind}
    (h : Sprouting kind.part kinds) (parent : Segment) (id : NodeId)
    (angle length width : Binary32) : Shoot parent id kind
      ⟨[parent.grow kind.part angle length width], kinds.map (·.bud id)⟩ :=
  .grown (joined_grow parent hkind angle length width) rfl h

/-! ## Productions -/

section Programs

variable {ρ α : Type} [RandomSource ρ] {shape : Shape} {node : NodeId}
  {view : Espalier.View Segment} {parent : Segment} {P : Harvest Segment → Prop}

theorem harvest_withSegment (h : view.growth.get? node = some parent)
    (act : Segment → Program Unit) (source : ρ) :
    (withSegment node act).harvest view source = (act parent).harvest view source := by
  unfold withSegment
  dsimp only [bind, Expansion.bind, Expansion.harvest, Expansion.node?]
  rw [h]

/-- What is drawn first does not matter to what holds whatever is drawn. -/
theorem harvest_angleWithin {bound : Binary64} {f : Binary32 → Program α} (source : ρ)
    (h : ∀ angle (source : ρ), P ((f angle).harvest view source)) :
    P ((angleWithin bound >>= f).harvest view source) := h _ _

theorem harvest_chance {bound : Binary64} {f : Bool → Program α} (source : ρ)
    (h : ∀ chosen (source : ρ), P ((f chosen).harvest view source)) :
    P ((chance bound >>= f).harvest view source) := h _ _

theorem shoot_growTrunk (h : view.growth.get? node = some parent) (source : ρ) :
    Shoot parent view.growth.size .trunk ((growTrunk shape node).harvest view source) := by
  unfold growTrunk
  rw [harvest_withSegment h]
  refine harvest_angleWithin source fun angle source => ?_
  dsimp only [chance, Expansion.share, Expansion.append, Expansion.addBud, bind, Expansion.bind,
    Expansion.harvest, pure]
  by_cases hchosen : (unitShare (RandomSource.next source).1 : Binary64) < .ofFloat 0.5
  · rw [decide_eq_true hchosen]
    exact shoot_grow .trunk (by decide) .fork parent _ angle _ _
  · rw [decide_eq_false hchosen]
    exact shoot_grow .trunk (by decide) .trunk parent _ angle _ _

theorem shoot_endTrunk (h : view.growth.get? node = some parent) (source : ρ) :
    Shoot parent view.growth.size .trunk ((endTrunk shape node).harvest view source) := by
  unfold endTrunk
  rw [harvest_withSegment h]
  exact shoot_grow .trunk (by decide) .ending parent _ _ _ _

theorem shoot_growBranch (h : view.growth.get? node = some parent) (source : ρ) :
    Shoot parent view.growth.size .branch ((growBranch shape node).harvest view source) := by
  unfold growBranch
  rw [harvest_withSegment h]
  refine harvest_angleWithin source fun angle source => ?_
  dsimp only [chance, Expansion.share, Expansion.append, Expansion.addBud, bind, Expansion.bind,
    Expansion.harvest, pure]
  by_cases hchosen : (unitShare (RandomSource.next source).1 : Binary64) < shape.splitChance
  · rw [decide_eq_true hchosen]
    exact shoot_grow .branch (by decide) .split parent _ angle _ _
  · rw [decide_eq_false hchosen]
    exact shoot_grow .branch (by decide) .branch parent _ angle _ _

theorem shoot_growLeaf (h : view.growth.get? node = some parent) (source : ρ) :
    Shoot parent view.growth.size .leaf ((growLeaf shape node).harvest view source) := by
  unfold growLeaf
  rw [harvest_withSegment h]
  have hleaf (leaf : Segment) (hpart : leaf.part = .leaf) (hjoined : Joined parent leaf) :
      Shoot parent view.growth.size .leaf ⟨[leaf], []⟩ :=
    @Shoot.grown parent _ .leaf leaf [] hjoined hpart .leaf
  exact harvest_chance source fun chosen source => hleaf _ rfl ⟨rfl, rfl⟩

/-- The closing production adds a tip with the bud of a leaf. -/
theorem closes_with_tip (h : view.growth.get? node = some parent) (source : ρ) :
    ∃ tip, tip.part = .tip ∧ Joined parent tip ∧ (closeWithTip node).harvest view source
      = ⟨[tip], [Kind.leaf.bud view.growth.size]⟩ := by
  unfold closeWithTip
  rw [harvest_withSegment h]
  exact ⟨_, rfl, joined_grow parent (by decide) _ _ _, rfl⟩

end Programs

/-! ## The grammar -/

section Grammar

variable (shape : Shape) (kind : Kind)

/-- The rule for a kind of buds. -/
def Kind.rule (shape : Shape) : Kind → Rule Segment Binary64
  | trunk => (Rule.empty.push (.ofFloat 3) (growTrunk shape)).push (.ofFloat 1) (endTrunk shape)
  | branch => (Rule.empty.push (.ofFloat 5) (growBranch shape)).push (.ofFloat 1) .absent
  | leaf => Rule.empty.push 1 (growLeaf shape)

theorem rule?_name : (grammar shape).rule? kind.name = some (kind.rule shape) := by
  cases kind <;> rfl

theorem phaseOf_bud (node : NodeId) : (grammar shape).phaseOf (kind.bud node) = kind.phase := by
  have hdetail : (grammar shape).isDetail kind.name = decide (kind = .leaf) := by
    cases kind <;> rfl
  unfold Grammar.phaseOf
  rw [show (kind.bud node).rule = kind.name from rfl, hdetail]
  cases kind <;> rfl

/-- What grows during the search can be closed. -/
theorem closingFor_name {kind : Kind} (h : kind.phase = .skeleton) :
    (grammar shape).closingFor kind.name = .ok closeWithTip := by
  cases kind with
  | trunk | branch => rfl
  | leaf => exact nomatch h

theorem Kind.summed_rule : (kind.rule shape).Summed := by
  cases kind with
  | trunk | branch => exact (Rule.summed_empty.push _ _).push _ _
  | leaf => exact Rule.summed_empty.push _ _

/-- The weights of a rule come to four, six or one. -/
theorem Kind.share_le_total (word : UInt64) :
    unitShare word * (kind.rule shape).totalWeight ≤ (kind.rule shape).totalWeight := by
  cases kind with
  | trunk =>
    have htotal : (0 + .ofFloat 3 + .ofFloat 1 : Binary64).unpacked
        = .finite .positive (2 ^ 52) (-50) (by decide) := rfl
    exact Binary64.unitShare_mul_le htotal word
  | branch =>
    have htotal : (0 + .ofFloat 5 + .ofFloat 1 : Binary64).unpacked
        = .finite .positive (3 * 2 ^ 51) (-50) (by decide) := rfl
    exact Binary64.unitShare_mul_le htotal word
  | leaf =>
    have htotal : (0 + 1 : Binary64).unpacked
        = .finite .positive (2 ^ 52) (-52) (by decide) := rfl
    exact Binary64.unitShare_mul_le htotal word

/-- What the choices of a rule let grow. -/
theorem Kind.shoot_of_choice {ρ : Type} [RandomSource ρ] {choice : Choice Segment Binary64}
    (hchoice : choice ∈ (kind.rule shape).choices) {node : NodeId} {view : Espalier.View Segment}
    {parent : Segment} (h : view.growth.get? node = some parent) (source : ρ) :
    Shoot parent view.growth.size kind ((choice.body node).harvest view source) := by
  rw [← Array.mem_toList_iff] at hchoice
  cases kind with
  | trunk =>
    have hmem : choice ∈ [⟨.ofFloat 3, growTrunk shape⟩, ⟨.ofFloat 1, endTrunk shape⟩] := hchoice
    rcases List.mem_pair.mp hmem with rfl | rfl
    · exact shoot_growTrunk h source
    · exact shoot_endTrunk h source
  | branch =>
    have hmem : choice ∈ [⟨.ofFloat 5, growBranch shape⟩, ⟨.ofFloat 1, .absent⟩] := hchoice
    rcases List.mem_pair.mp hmem with rfl | rfl
    · exact shoot_growBranch h source
    · exact .absent rfl
  | leaf =>
    have hmem : choice ∈ [⟨1, growLeaf shape⟩] := hchoice
    rw [List.mem_singleton.mp hmem]
    exact shoot_growLeaf h source

/-- A choice is found for every bud, and it lets the bud grow into what it may grow into. -/
theorem exists_choice {ρ : Type} [RandomSource ρ] (source : ρ) :
    ∃ choice, ((grammar shape).sample kind.name source).1 = .ok choice ∧
      ∀ (node : NodeId) (view : Espalier.View Segment) (parent : Segment),
        view.growth.get? node = some parent → ∀ source : ρ,
          Shoot parent view.growth.size kind ((choice.body node).harvest view source) := by
  have hne : (kind.rule shape).choices ≠ #[] := by cases kind <;> exact nofun
  obtain ⟨choice, hmem, hsample⟩ := Grammar.exists_sample (rule?_name shape kind)
    (kind.summed_rule shape) hne source (kind.share_le_total shape _)
  exact ⟨choice, hsample, fun _ _ _ h => kind.shoot_of_choice shape hmem h⟩

end Grammar

end Espalier.Tree
