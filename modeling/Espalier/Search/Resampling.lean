import Espalier.Growing

/-!
# Resampling a population

A population is replaced by forks of its particles, drawn in proportion to their weights. The
weights are used relative to the largest one, so they can be told apart even where they are too
small to write; when no weight is finite, or the sum of them is not, every particle is equally
likely. `Lottery.ofLogWeights` makes that decision, `drawParents` draws, and `forkDrawn` builds
the new population.
-/

namespace Espalier.Search

variable {N R ρ : Type}

def largest? [Arithmetic R] : List R → Option R
  | [] => none
  | x :: xs => some (xs.foldl (fun top x => if top < x then x else top) x)

/-- Weights in proportion to the exponentials of `logWeights`, the largest finite one being one.
What is no number weighs nothing. Without any finite one only infinite weights remain. -/
def relativeWeights [Scalar R] (logWeights : List R) : List R :=
  match largest? (logWeights.filter Scalar.isFinite) with
  | none => logWeights.map fun w => if 0 < w then w else 0
  | some top => logWeights.map fun w => if Scalar.isNaN w then 0 else Scalar.exp (w - top)

/-- What parents are drawn by. -/
structure Lottery (R : Type) where
  weights : List R
  sum : R
  /-- Whether the weights given were of no use, so that all parents are equally likely. -/
  uniform : Bool
  /-- The sum of the weights given. -/
  givenSum : R

def Lottery.ofLogWeights [Scalar R] (logWeights : List R) : Lottery R :=
  let weights := relativeWeights logWeights
  let sum := total weights
  if Scalar.isFinite sum ∧ 0 < sum then
    { weights, sum, uniform := false, givenSum := sum }
  else
    { weights := List.replicate logWeights.length 1
      sum := ((logWeights.length : Nat) : R)
      uniform := true
      givenSum := sum }

/-- How many equally weighted particles the weights are worth. -/
def Lottery.effectiveSize [Scalar R] (l : Lottery R) : R :=
  let squares := total (l.weights.map fun w => w * w)
  if 0 < squares then l.sum * l.sum / squares else 0

def drawParents [Scalar R] [RandomSource ρ] (l : Lottery R) :
    (count : Nat) → ρ → List Nat × ρ
  | 0, source => ([], source)
  | count + 1, source =>
    match Selection.pickWeighted l.weights l.sum source with
    | (none, source) => ([], source)
    | (some place, source) =>
      let (places, source) := drawParents l count source
      (place :: places, source)

/-- Forks the particles at the drawn places. The forks are numbered from `nextId` on. -/
def forkDrawn (nextId : ParticleId) :
    List Nat → Array (Particle N R) → Array (Particle N R) → Array (Particle N R)
  | [], _, forks => forks
  | place :: places, population, forks =>
    match population[place]? with
    | none => forkDrawn nextId places population forks
    | some parent =>
      let (parent, fork) := parent.fork nextId nextId
      forkDrawn (nextId + 1) places (population.setIfInBounds place parent) (forks.push fork)

/-- How many different places below `size` were drawn. -/
def distinctCount (size : Nat) (places : List Nat) : Nat :=
  let drawn := places.foldl (fun drawn place => drawn.setIfInBounds place true)
    (Array.replicate size false)
  drawn.count true

end Espalier.Search
