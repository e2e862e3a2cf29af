import Espalier.Proofs.Search.Provision

/-!
# How much patience a growth needs

A growth goes on until a node has been appended or no bud is left, so it can only go on for ever if
productions append nothing and register new buds all the time. A production that `Advances` finds a
choice for its bud and leaves fewer turns to be taken, by whatever invariant they are counted. Then
as much patience as there are turns is enough (`expand_ok`), and the invariant holds in the end.
-/

namespace Espalier.Particle

variable {N R ρ κ : Type} [Scalar R] [RandomSource ρ] {g : Grammar N R} {phase : Phase}
  {start turns patience : Nat} {p : Particle N R}

/-- What every turn should do, where `Inv turns` holds of particles with at most so many turns to
be taken: a choice is found for the bud, and what it leads to has fewer turns left. -/
def Advances (ρ : Type) [RandomSource ρ] (g : Grammar N R) (phase : Phase) (start : Nat)
    (Inv : Nat → Particle N R → Prop) : Prop :=
  ∀ (turns : Nat) (p q : Particle N R) (place : Nat) (bud : Bud), Inv turns p →
    p.growth.size = start → p.takeBud phase place = some (bud, q) → ∀ source : ρ, ∃ choice,
      (g.sample bud.rule source).1 = .ok choice ∧ ∀ rest : ρ,
        ∃ fewer < turns, Inv fewer (q.apply g choice.body bud.node rest).1

/-- Expanding buds comes to an end with as much patience as there are turns to be taken. -/
theorem expand_ok {Inv : Nat → Particle N R → Prop} (hadvances : Advances ρ g phase start Inv)
    (source : ρ) (hp : Inv turns p) (hpatience : turns ≤ patience) :
    (expand g phase start patience p source).1 = .ok () ∧
      (∃ fewer, Inv fewer (expand g phase start patience p source).2.1) ∧
      ((expand g phase start patience p source).2.1.growth.size ≠ start ∨
        ((expand g phase start patience p source).2.1.buds phase).isEmpty = true) := by
  induction patience generalizing turns p source with
  | zero =>
    unfold expand
    by_cases hstop : p.growth.size ≠ start ∨ (p.buds phase).isEmpty
    · rw [if_pos hstop]
      exact ⟨rfl, ⟨turns, hp⟩, hstop⟩
    · -- A turn would leave fewer than no turns.
      obtain ⟨hstart, hopen⟩ := not_or.mp hstop
      obtain ⟨place, ⟨bud, q⟩, -, htake⟩ :=
        exists_takeBud (Bool.eq_false_iff.mpr hopen) source
      obtain ⟨choice, -, hrest⟩ := hadvances turns p q place bud hp (not_not.mp hstart) htake source
      obtain ⟨fewer, hless, -⟩ := hrest source
      exact absurd hless (by omega)
  | succ patience ih =>
    unfold expand
    by_cases hstop : p.growth.size ≠ start ∨ (p.buds phase).isEmpty
    · rw [if_pos hstop]
      exact ⟨rfl, ⟨turns, hp⟩, hstop⟩
    · rw [if_neg hstop]
      obtain ⟨hstart, hopen⟩ := not_or.mp hstop
      obtain ⟨place, ⟨bud, q⟩, hplace, htake⟩ :=
        exists_takeBud (Bool.eq_false_iff.mpr hopen) source
      obtain ⟨choice, hchoice, hrest⟩ := hadvances turns p q place bud hp (not_not.mp hstart) htake
        (Selection.pickUniform R (p.buds phase).size source).2
      dsimp only
      rw [hplace, Option.bind_some, htake]
      dsimp only
      cases hsample : g.sample bud.rule (Selection.pickUniform R (p.buds phase).size source).2 with
      | mk result rest =>
        obtain rfl : result = .ok choice := (congrArg Prod.fst hsample).symm.trans hchoice
        obtain ⟨fewer, hless, hinv⟩ := hrest rest
        exact ih _ hinv (by omega)

variable [CostModel κ N R]

/-- A growth that comes to an end changes the cost after it has expanded buds. -/
theorem grow_ok (useHeuristic : Bool) (model : κ) {source : ρ}
    (hopen : (p.buds phase).isEmpty = false)
    (h : (expand g phase p.growth.size patience p source).1 = .ok ()) :
    (p.grow g phase useHeuristic patience model source).1.isOk = true ∧
      ∃ cost, (p.grow g phase useHeuristic patience model source).2.1
        = { (expand g phase p.growth.size patience p source).2.1 with cost } := by
  unfold grow
  rw [hopen, if_neg Bool.false_ne_true]
  dsimp only
  cases hexpand : expand g phase p.growth.size patience p source with
  | mk result rest =>
    rw [hexpand] at h
    obtain rfl : result = .ok () := h
    exact ⟨rfl, _, rfl⟩

/-- Without buds a growth does nothing. -/
theorem grow_nothing {useHeuristic : Bool} {model : κ} {source : ρ}
    (hclosed : (p.buds phase).isEmpty = true) :
    p.grow g phase useHeuristic patience model source = (.ok false, p, model, source) := by
  unfold grow
  rw [if_pos hclosed]

end Espalier.Particle
