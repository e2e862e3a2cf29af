import Espalier.Particle

/-!
# Cost models

A cost model judges a particle after each step of its growth. `CostModel κ N R` is a model with
a state of type `κ`, which may keep whatever it learns from earlier calls; it sees the particle
with its old cost, the batch of nodes just appended and whether the heuristic part counts. The
cost it returns replaces the old one. `Recorded` keeps a log of the calls made to any model.
-/

namespace Espalier

/-- The nodes appended in one step of growth. -/
structure Batch (N : Type) where
  /-- The place of the first node, or of the next one to come when there are none. -/
  first : NodeId
  nodes : Array N

/-- The nodes of a batch with their places. -/
def Batch.places {N : Type} (b : Batch N) : List (NodeId × N) :=
  b.nodes.toList.zipIdx.map fun (node, index) => (b.first + index, node)

/-- A judge of particles with a state of type `κ`. -/
class CostModel (κ : Type) (N R : outParam Type) where
  /-- The cost of a particle, and the state after the call. -/
  evaluate : κ → Particle N R → Batch N → (useHeuristic : Bool) → Cost R × κ

/-- The model that costs nothing. -/
structure NoCost (N R : Type) where

instance {N R : Type} [Arithmetic R] : CostModel (NoCost N R) N R where
  evaluate model _ _ _ := (.zero, model)

/-- A call made to a cost model: the particle as the model saw it, with its old cost, and what
else it was told. -/
structure CostCall (N R : Type) where
  particle : Particle N R
  batch : Batch N
  useHeuristic : Bool

/-- A cost model together with the calls made to it, the latest last. -/
structure Recorded (κ N R : Type) where
  model : κ
  calls : Array (CostCall N R)

def Recorded.ofModel {κ N R : Type} (model : κ) : Recorded κ N R := { model, calls := #[] }

instance {κ N R : Type} [CostModel κ N R] : CostModel (Recorded κ N R) N R where
  evaluate recorded particle batch useHeuristic :=
    let (cost, model) := CostModel.evaluate recorded.model particle batch useHeuristic
    (cost, { model, calls := recorded.calls.push { particle, batch, useHeuristic } })

end Espalier
