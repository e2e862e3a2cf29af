import Espalier.Number.Binary64
import Espalier.Grammar
import Espalier.Tree.Segment

/-!
# How trees grow

`Tree.grammar` is a grammar of trees in the plane. A trunk goes on and may send out a branch, or
it ends in two; a branch goes on, may split, and carries a leaf, or it is a bud that never grows.
What is still open when a search ends is closed by a short tip with a leaf of its own. Leaves are
details: they grow when everything else has.
-/

namespace Espalier.Tree

/-- The measures of a tree. -/
structure Shape where
  trunkLength : Binary32
  trunkWidth : Binary32
  /-- The factor for length and width from a segment to the next. -/
  shrink : Binary32
  /-- The largest angle between a branch and what it grows from. -/
  spread : Binary32
  /-- The chance that a branch splits. -/
  splitChance : Binary64
  leafSize : Binary32

def Shape.standard : Shape :=
  { trunkLength := (22 : Float32)
    trunkWidth := (7 : Float32)
    shrink := (0.86 : Float32)
    spread := (0.7 : Float32)
    splitChance := (0.35 : Float)
    leafSize := (5 : Float32) }

/-- What productions on trees are written in. -/
abbrev Program := Expansion Segment

/-- Whether a random share is below a chance. -/
def chance (bound : Binary64) : Program Bool := do
  return decide ((← Expansion.share Binary64) < bound)

/-- A random angle within a bound to either side. -/
def angleWithin (bound : Binary64) : Program Binary32 := do
  return (← Expansion.between (-bound) bound).toBinary32

/-- Does something with the segment at a node, if there is one. -/
def withSegment (node : NodeId) (act : Segment → Program Unit) : Program Unit := do
  match ← Expansion.node? node with
  | none => return
  | some segment => act segment

/-- A trunk that goes on and may send out a branch. -/
def growTrunk (shape : Shape) : Production Segment := fun node =>
  withSegment node fun parent => do
    let angle ← angleWithin (0.12 : Float)
    let fromRoot := parent.part == .root
    let length := if fromRoot then shape.trunkLength else parent.length * shape.shrink.sqrt
    let width := if fromRoot then shape.trunkWidth else parent.width * shape.shrink
    let id ← Expansion.append (parent.grow .trunk angle length width)
    Expansion.addBud "trunk" id
    if ← chance (0.5 : Float) then Expansion.addBud "branch" id

def endTrunk (shape : Shape) : Production Segment := fun node =>
  withSegment node fun parent => do
    let length := parent.length.atLeast shape.trunkLength * shape.shrink
    let width := parent.width.atLeast (1 : Float32) * shape.shrink
    let id ← Expansion.append (parent.grow .trunk (0 : Float32) length width)
    Expansion.addBud "branch" id
    Expansion.addBud "branch" id

/-- A branch that goes on, may split and carries a leaf. -/
def growBranch (shape : Shape) : Production Segment := fun node =>
  withSegment node fun parent => do
    let angle ← angleWithin shape.spread.toBinary64
    let length := parent.length * shape.shrink
    let width := (parent.width * shape.shrink).atLeast (0.8 : Float32)
    let id ← Expansion.append (parent.grow .branch angle length width)
    Expansion.addBud "branch" id
    if ← chance shape.splitChance then Expansion.addBud "branch" id
    Expansion.addBud "leaf" id

/-- A leaf to either side. It counts no further from the root than what it hangs from. -/
def growLeaf (shape : Shape) : Production Segment := fun node =>
  withSegment node fun parent => do
    let side : Float32 := if ← chance (0.5 : Float) then -1.1 else 1.1
    let leaf := parent.grow .leaf side shape.leafSize (shape.leafSize * ((0.6 : Float32) : Binary32))
    let _ ← Expansion.append { leaf with depth := parent.depth }

/-- A tip with a leaf, which closes what is still open. -/
def closeWithTip : Production Segment := fun node =>
  withSegment node fun parent => do
    let length := (parent.length * ((0.4 : Float32) : Binary32)).atLeast (1 : Float32)
    let width := (parent.width * ((0.6 : Float32) : Binary32)).atLeast (0.6 : Float32)
    let id ← Expansion.append (parent.grow .tip (0 : Float32) length width)
    Expansion.addBud "leaf" id

def grammar (shape : Shape) : Grammar Segment Binary64 :=
  (Grammar.empty : Grammar Segment Binary64)
    |>.addChoices "trunk" [(.ofFloat 3, growTrunk shape), (.ofFloat 1, endTrunk shape)]
    |>.addChoices "branch" [(.ofFloat 5, growBranch shape), (.ofFloat 1, .absent)]
    |>.define "leaf" (growLeaf shape)
    |>.closeAll ["trunk", "branch"] closeWithTip
    |>.detail "leaf"

end Espalier.Tree
