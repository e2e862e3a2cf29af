import Espalier.Cost
import Espalier.Tree.Segment

/-!
# Reaching a target

A cost model for trees that should come close to a target without touching obstacles: wood costs
by its area, every touch costs a penalty, and so does the gap between the target and the nearest
end of a segment. Buds are expected to cost something too.
-/

namespace Espalier.Tree

/-- What a tree should reach, and what it costs. -/
structure Reach where
  target : Point
  obstacles : List Disc
  woodWeight : Binary64
  collisionPenalty : Binary64
  reachWeight : Binary64
  openBudEstimate : Binary64

namespace Reach

/-- The usual weights, without obstacles. -/
def toTarget (target : Point) : Reach :=
  { target, obstacles := []
    woodWeight := (0.004 : Float)
    collisionPenalty := (4 : Float)
    reachWeight := (0.08 : Float)
    openBudEstimate := (0.05 : Float) }

def segmentCost (r : Reach) (s : Segment) : Binary64 :=
  let wood := (s.length * s.width).toBinary64 * r.woodWeight
  let touched := r.obstacles.countP (·.hits s)
  wood + (touched : Binary64) * r.collisionPenalty

/-- The cost of all segments, and the gap between the target and the nearest end. -/
def measure (r : Reach) (segments : Array Segment) : Binary64 × Binary32 :=
  segments.foldl
    (fun (sum, gap) s => (sum + r.segmentCost s, gap.atMost (s.stop.distance r.target)))
    (0, Binary32.infinity)

/-- The cost of a tree with some open buds. -/
def cost (r : Reach) (segments : Array Segment) (openBuds : Nat) : Cost Binary64 :=
  let (sum, gap) := r.measure segments
  { real := if gap.isFinite then sum + gap.toBinary64 * r.reachWeight else sum
    heuristic := (openBuds : Binary64) * r.openBudEstimate }

instance : CostModel Reach Segment Binary64 where
  evaluate r p _ _ := (r.cost p.growth.nodes p.skeleton.size, r)

end Reach

end Espalier.Tree
