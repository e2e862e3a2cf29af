import Espalier.Grammar

/-!
# Particles

A `Particle` is one candidate of a search: what it has grown, the buds still to be expanded in
each phase, its latest cost and the logarithm of the probability of the random picks that made
it. Productions act on a particle through `Particle.perform`.
-/

namespace Espalier

/-- The cost of a particle: that of the nodes it has, and an estimate for its open buds. -/
structure Cost (R : Type) where
  real : R
  heuristic : R
deriving DecidableEq

namespace Cost

variable {R : Type}

def zero [Zero R] : Cost R := ⟨0, 0⟩

def ofReal [Zero R] (real : R) : Cost R := ⟨real, 0⟩

def total [Add R] (c : Cost R) : R := c.real + c.heuristic

/-- Both parts together, the estimate scaled. -/
def scaled [Add R] [Mul R] (c : Cost R) (scale : R) : R := c.real + c.heuristic * scale

instance [Add R] : Add (Cost R) := ⟨fun c d => ⟨c.real + d.real, c.heuristic + d.heuristic⟩⟩

instance [BEq R] : BEq (Cost R) := ⟨fun c d => c.real == d.real && c.heuristic == d.heuristic⟩

end Cost

/-- The phase a bud is expanded in. -/
inductive Phase where
  /-- During the search. -/
  | skeleton
  /-- After the survivor has been chosen. -/
  | detail
deriving DecidableEq, Repr

/-- One candidate of a search. -/
structure Particle (N R : Type) where
  id : ParticleId
  /-- The particle this one was forked from. -/
  parent : Option ParticleId
  growth : Growth N
  cost : Cost R
  /-- The logarithm of the probability of its random picks. -/
  logProbability : R
  /-- The buds open in the skeleton phase. -/
  skeleton : Array Bud
  /-- The buds open in the detail phase. -/
  details : Array Bud

namespace Particle

variable {N R ρ α : Type}

/-- A particle that is only a root, without buds. -/
def ofRoot [Zero R] (id : ParticleId) (root : N) : Particle N R :=
  { id, parent := none, growth := .ofRoot root, cost := .zero, logProbability := 0,
    skeleton := #[], details := #[] }

/-- A particle that is only a root, with a bud of the start rule there. -/
def seed [Zero R] (id : ParticleId) (start : String) (root : N) : Particle N R :=
  { ofRoot id root with skeleton := #[⟨start, 0⟩] }

/-- Starts a particle anew from a root; it stays the same particle. -/
def restart [Zero R] (p : Particle N R) (start : String) (root : N) : Particle N R :=
  { seed p.id start root with parent := p.parent }

def buds (p : Particle N R) : Phase → Array Bud
  | .skeleton => p.skeleton
  | .detail => p.details

def setBuds (p : Particle N R) (phase : Phase) (buds : Array Bud) : Particle N R :=
  match phase with
  | .skeleton => { p with skeleton := buds }
  | .detail => { p with details := buds }

def isComplete (p : Particle N R) : Bool := p.skeleton.isEmpty && p.details.isEmpty

/-- The probability of the random picks that made the particle. -/
def probability [Scalar R] (p : Particle N R) : R := Scalar.exp p.logProbability

/-- Registers a bud in the phase its rule belongs to. -/
def addBud (p : Particle N R) (g : Grammar N R) (bud : Bud) : Particle N R :=
  if g.isDetail bud.rule then { p with details := p.details.push bud }
  else { p with skeleton := p.skeleton.push bud }

def perform [RandomSource ρ] (g : Grammar N R) :
    Expansion N α → Particle N R → ρ → α × Particle N R × ρ
  | .done result, p, source => (result, p, source)
  | .look next, p, source => perform g (next ⟨p.id, p.growth⟩) p source
  | .push node next, p, source =>
    perform g (next p.growth.size) { p with growth := p.growth.push node } source
  | .sprout bud next, p, source => perform g next (p.addBud g bud) source
  | .draw next, p, source =>
    let (word, source) := RandomSource.next source
    perform g (next word) p source

def apply [RandomSource ρ] (g : Grammar N R) (body : Production N) (node : NodeId)
    (p : Particle N R) (source : ρ) : Particle N R × ρ :=
  (perform g (body node) p source).2

/-- The particle after a fork, and the fork, which has a number of its own, remembers its
parent's and has copies of everything else. `mark` is the mark of the common history in case it
starts here. -/
def fork (p : Particle N R) (id : ParticleId) (mark : HistoryMark) :
    Particle N R × Particle N R :=
  let (growth, copy) := p.growth.fork mark
  ({ p with growth }, { p with id, parent := some p.id, growth := copy })

/-- How much a particle's cost speaks for it: `1 / exp(cost)`. -/
def costWeight [Scalar R] (p : Particle N R) (scale : R) : R :=
  1 / Scalar.exp (p.cost.scaled scale)

def weight [Scalar R] (p : Particle N R) (scale : R) : R := p.probability * p.costWeight scale

/-- The logarithm of the weight, which is finite even where the weight is too small to write. -/
def logWeight [Arithmetic R] (p : Particle N R) (scale : R) : R :=
  p.logProbability - p.cost.scaled scale

end Particle

end Espalier
