import Espalier.Cost
import Espalier.Recipe

/-!
# Costs from features

A `FeatureCost` judges particles of tagged nodes by a weighted sum of what can be counted: nodes,
their tags and values, open buds. A feature whose weight is zero is left out altogether, so that
it cannot spoil a sum with a value that is no number.
-/

namespace Espalier

/-- The weights of the features a cost is summed from. -/
structure FeatureCost (R : Type) where
  /-- The cost of any call. -/
  base : R
  /-- How much of the particle's old cost is kept. -/
  keep : R
  /-- For each node appended. -/
  perNode : R
  /-- For each node appended with one of these tags. -/
  tags : List (String × R)
  /-- For the value of each node appended. -/
  value : R
  /-- By the particle's number, the numbers after the last starting anew. -/
  byId : Array R
  /-- Estimated for each bud open in the skeleton phase. -/
  openBud : R
  /-- Estimated for each bud open in the detail phase. -/
  openDetail : R
  /-- Estimated when the heuristic counts. -/
  bonus : R

namespace FeatureCost

variable {R : Type} [Arithmetic R]

def none : FeatureCost R :=
  { base := 0, keep := 0, perNode := 0, tags := [], value := 0, byId := #[], openBud := 0,
    openDetail := 0, bonus := 0 }

/-- Adds a weighted feature to a sum unless its weight is zero. -/
def weigh (weight feature sum : R) : R := if isZero weight then sum else sum + weight * feature

/-- Adds what a node costs to a sum. -/
def addNode (f : FeatureCost R) (sum : R) (node : TaggedNode R) : R :=
  let sum := match f.tags.lookup node.tag with
    | some weight => sum + weight
    | Option.none => sum
  weigh f.value node.value sum

def real (f : FeatureCost R) (p : Particle (TaggedNode R) R) (batch : Batch (TaggedNode R)) : R :=
  let sum := weigh f.keep p.cost.real f.base
  let sum := weigh f.perNode (batch.nodes.size : R) sum
  let sum := batch.nodes.foldl f.addNode sum
  match f.byId[p.id % f.byId.size]? with
  | some weight => sum + weight
  | Option.none => sum

def estimate (f : FeatureCost R) (p : Particle (TaggedNode R) R) (useHeuristic : Bool) : R :=
  let sum := weigh f.openBud (p.skeleton.size : R) 0
  let sum := weigh f.openDetail (p.details.size : R) sum
  if useHeuristic then sum + f.bonus else sum

instance : CostModel (FeatureCost R) (TaggedNode R) R where
  evaluate f p batch useHeuristic := (⟨f.real p batch, f.estimate p useHeuristic⟩, f)

end FeatureCost

end Espalier
