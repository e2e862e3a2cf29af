import Espalier.Random

/-!
# Choosing an index

The three ways an index is chosen: uniformly below a length, in proportion to weights, and
the lowest of some values. Each is a plain function of the share drawn; the versions that
draw the share themselves end the file. Of equal lowest values the first is chosen, and a
weighted choice whose total was overstated falls back to the last index.
-/

namespace Espalier.Selection

variable {R ρ : Type}

/-- The index below `length` at a share of the unit interval. -/
def uniformIndex [Scalar R] (length : Nat) (share : R) : Nat :=
  min (Scalar.floorCount (share * (length : R))) (length - 1)

/-- The first index at which a roll, reduced by one weight after the other, is used up. -/
def spentAt [Arithmetic R] : List R → R → Option Nat
  | [], _ => none
  | weight :: weights, roll =>
    let roll := roll - weight
    if roll ≤ 0 then some 0 else (spentAt weights roll).map (· + 1)

/-- The index at a share of the total of some weights: where the roll is used up, or else the
last one. Without weights there is none. -/
def weightedIndex [Arithmetic R] (weights : List R) (sum : R) (share : R) : Option Nat :=
  if weights.isEmpty then none
  else some ((spentAt weights (share * sum)).getD (weights.length - 1))

/-- The first index at which the weights, added up one after the other from `reached`, come
to the target. -/
def reachedAt [Arithmetic R] (target : R) : R → List R → Option Nat
  | _, [] => none
  | reached, weight :: weights =>
    let reached := reached + weight
    if target ≤ reached then some 0 else (reachedAt target reached weights).map (· + 1)

/-- The lowest of a value and some others, with its index, the first one if several are equally
low. `index` is the place of the first of the others. -/
def lowestFrom [Scalar R] (best : R) (place index : Nat) : List R → Nat
  | [] => place
  | value :: values =>
    if Scalar.rank value < Scalar.rank best then lowestFrom value index (index + 1) values
    else lowestFrom best place (index + 1) values

/-- The index of the lowest value in the total order. -/
def lowestIndex [Scalar R] : List R → Option Nat
  | [] => none
  | value :: values => some (lowestFrom value 0 1 values)

/-- Draws an index below a length; nothing is drawn when there is none. -/
def pickUniform (R : Type) [Scalar R] [RandomSource ρ] (length : Nat) (source : ρ) :
    Option Nat × ρ :=
  if length = 0 then (none, source) else
  let (share, source) := drawShare (R := R) source
  (some (uniformIndex length share), source)

/-- Draws an index in proportion to weights; nothing is drawn when there are none. -/
def pickWeighted [Arithmetic R] [RandomSource ρ] (weights : List R) (sum : R) (source : ρ) :
    Option Nat × ρ :=
  if weights.isEmpty then (none, source) else
  let (share, source) := drawShare source
  (weightedIndex weights sum share, source)

end Espalier.Selection
