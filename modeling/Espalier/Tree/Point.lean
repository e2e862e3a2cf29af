import Espalier.Number.Binary32

/-!
# Points of the plane

Points and directions in single precision, with the few operations that growing and drawing a
tree need. Every formula fixes the order of its operations, since each of them rounds.
-/

namespace Espalier.Tree

/-- A point of the plane, or a direction in it. -/
structure Point where
  x : Binary32
  y : Binary32
deriving DecidableEq, Inhabited

namespace Point

/-- The direction in which a tree grows when it has no other. -/
def up : Point := ⟨(0 : Float32), (1 : Float32)⟩

instance : Add Point := ⟨fun p q => ⟨p.x + q.x, p.y + q.y⟩⟩
instance : Sub Point := ⟨fun p q => ⟨p.x - q.x, p.y - q.y⟩⟩

def stretch (p : Point) (factor : Binary32) : Point := ⟨p.x * factor, p.y * factor⟩

def inner (p q : Point) : Binary32 := p.x * q.x + p.y * q.y

def length (p : Point) : Binary32 := (p.inner p).sqrt

def distance (p q : Point) : Binary32 := (p - q).length

/-- A direction of length one, unless the length is too small or too large to say which. -/
def unit? (p : Point) : Option Point :=
  let factor := ((1 : Float32) : Binary32) / p.length
  if factor.isFinite ∧ ((0 : Float32) : Binary32) < factor then some (p.stretch factor) else none

/-- The direction of length one at an angle. -/
def atAngle (angle : Binary32) : Point := ⟨angle.cos, angle.sin⟩

/-- A direction turned by the angle of another of length one. -/
def turn (p turned : Point) : Point :=
  ⟨p.x * turned.x - p.y * turned.y, p.y * turned.x + p.x * turned.y⟩

/-- The point at a share of the way from one point to another. -/
def between (p q : Point) (share : Binary32) : Point :=
  p.stretch (((1 : Float32) : Binary32) - share) + q.stretch share

end Point

end Espalier.Tree
