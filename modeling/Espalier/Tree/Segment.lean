import Espalier.Tree.Point

/-!
# Segments of a tree

A tree is made of straight segments, each of which starts where the one it hangs from ends.
`Segment.grow` makes the next segment, and `Disc.hits` tells whether a segment touches a disc.
-/

namespace Espalier.Tree

/-- What a segment is in its tree. -/
inductive Part where
  | root
  | trunk
  | branch
  | tip
  | leaf
deriving DecidableEq, Repr

/-- A straight piece of a tree. -/
structure Segment where
  part : Part
  start : Point
  stop : Point
  width : Binary32
  /-- How many segments lie between it and the root. -/
  depth : Nat
deriving DecidableEq

namespace Segment

/-- The segment without length that a tree starts from. -/
def root (place : Point) : Segment :=
  { part := .root, start := place, stop := place, width := (8 : Float32), depth := 0 }

def length (s : Segment) : Binary32 := s.start.distance s.stop

/-- The direction of a segment; one without length points up. -/
def direction (s : Segment) : Point := (s.stop - s.start).unit?.getD .up

/-- The next segment: it starts where this one ends, at an angle to it. -/
def grow (s : Segment) (part : Part) (angle length width : Binary32) : Segment :=
  { part
    start := s.stop
    stop := s.stop + ((Point.atAngle angle).turn s.direction).stretch length
    width
    depth := s.depth + 1 }

/-- The distance of a point from a segment. -/
def distanceTo (s : Segment) (p : Point) : Binary32 :=
  let way := s.stop - s.start
  let square := way.inner way
  if square ≤ Binary32.epsilon then s.start.distance p
  else
    let share := ((p - s.start).inner way / square).clampUnit
    (s.start + way.stretch share).distance p

end Segment

/-- A disc: an obstacle, or a marker. -/
structure Disc where
  center : Point
  radius : Binary32
deriving DecidableEq

/-- Whether a segment, with its width, touches a disc. -/
def Disc.hits (d : Disc) (s : Segment) : Bool :=
  decide (s.distanceTo d.center < d.radius + s.width * ((0.5 : Float32) : Binary32))

end Espalier.Tree
