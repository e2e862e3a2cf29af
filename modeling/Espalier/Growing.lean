import Espalier.Cost

/-!
# Growing a particle

`Particle.grow` expands random buds of one phase, one after the other, until a node has been
appended or no bud is left, and then lets a cost model judge the particle once. A production may
append nothing and register further buds, so this could go on for ever; `patience` bounds the
number of productions tried. `Particle.close` closes the youngest open bud, and `generate` grows
a particle without any judgement.
-/

namespace Espalier

namespace Particle

variable {N R ρ κ : Type} [Scalar R] [RandomSource ρ]

/-- Takes the bud at an index out of a phase. The pick was one of as many as there were buds. -/
def takeBud (p : Particle N R) (phase : Phase) (index : Nat) : Option (Bud × Particle N R) :=
  let buds := p.buds phase
  buds[index]?.map fun bud =>
    (bud, { p.setBuds phase (buds.eraseIdxIfInBounds index) with
      logProbability := p.logProbability - Scalar.ln ((buds.size : Nat) : R) })

/-- Expands random buds of a phase until the growth is no longer of size `start` or no bud is
left, with at most `patience` productions. -/
def expand (g : Grammar N R) (phase : Phase) (start : Nat) :
    (patience : Nat) → Particle N R → ρ → Except (Failure R) Unit × Particle N R × ρ
  | patience, p, source =>
    if p.growth.size ≠ start ∨ (p.buds phase).isEmpty then (.ok (), p, source) else
    match patience with
    | 0 => (.error .stalled, p, source)
    | patience + 1 =>
      let (index, source) := Selection.pickUniform R (p.buds phase).size source
      match index.bind (p.takeBud phase) with
      | none => (.ok (), p, source)
      | some (bud, p) =>
        match g.sample bud.rule source with
        | (.error failure, source) => (.error failure, p, source)
        | (.ok choice, source) =>
          let (p, source) := p.apply g choice.body bud.node source
          expand g phase start patience p source

/-- Lets a particle grow in a phase and have its cost replaced. The answer is whether a node was
appended. Without buds nothing happens and the cost model is not asked. -/
def grow [CostModel κ N R] (g : Grammar N R) (phase : Phase) (useHeuristic : Bool)
    (patience : Nat) (p : Particle N R) (model : κ) (source : ρ) :
    Except (Failure R) Bool × Particle N R × κ × ρ :=
  if (p.buds phase).isEmpty then (.ok false, p, model, source) else
  let start := p.growth.size
  match expand g phase start patience p source with
  | (.error failure, p, source) => (.error failure, p, model, source)
  | (.ok (), p, source) =>
    let batch : Batch N := ⟨start, (p.growth.appendedSince start).getD #[]⟩
    let (cost, model) := CostModel.evaluate model p batch useHeuristic
    (.ok (decide (start < p.growth.size)), { p with cost }, model, source)

/-- Closes the youngest bud of the skeleton with the closing production of its rule. The answer
is that bud, if there was one. -/
def close (g : Grammar N R) (p : Particle N R) (source : ρ) :
    Except (Failure R) (Option Bud) × Particle N R × ρ :=
  match p.skeleton.back? with
  | none => (.ok none, p, source)
  | some bud =>
    let p := { p with skeleton := p.skeleton.pop }
    match g.closingFor bud.rule with
    | .error failure => (.error failure, p, source)
    | .ok body =>
      let (p, source) := p.apply g body bud.node source
      (.ok (some bud), p, source)

/-- Lets a particle grow in the skeleton phase up to `depth` times, as long as buds are open. -/
def growFreely (g : Grammar N R) (patience : Nat) :
    (depth : Nat) → Particle N R → ρ → Except (Failure R) (Particle N R) × ρ
  | 0, p, source => (.ok p, source)
  | depth + 1, p, source =>
    if p.skeleton.isEmpty then (.ok p, source) else
    match p.grow g .skeleton false patience (⟨⟩ : NoCost N R) source with
    | (.error failure, _, _, source) => (.error failure, source)
    | (.ok _, p, _, source) => growFreely g patience depth p source

end Particle

/-- Grows a start rule from a root without costs, resampling, closing or details. -/
def generate {N R ρ : Type} [Scalar R] [RandomSource ρ] (g : Grammar N R) (root : N)
    (start : String) (patience depth : Nat) (source : ρ) :
    Except (Failure R) (Growth N) × ρ :=
  if !g.contains start then (.error (.unknownRule start), source) else
  match (Particle.seed 0 start root : Particle N R).growFreely g patience depth source with
  | (.error failure, source) => (.error failure, source)
  | (.ok p, source) => (.ok p.growth, source)

end Espalier
