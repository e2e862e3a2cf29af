import Espalier.Canvas
import Espalier.Tree.Segment

/-!
# Drawing trees

A tree is drawn with round stamps. Obstacles come first, then the wood, then the leaves, so that
leaves stay visible, and a target last of all. `stamps` lists everything that is pressed onto the
canvas, and `draw` presses it with a coverage, of which `covered` is the usual one. `paint` gives
every ink its color.
-/

namespace Espalier.Tree

/-- What a pixel shows. -/
inductive Ink where
  | background
  | part (part : Part)
  | disc
  | discRing
  | target
deriving DecidableEq, Repr

/-- A color as amounts of red, green and blue. -/
structure Color where
  red : UInt8
  green : UInt8
  blue : UInt8
deriving DecidableEq, Repr

/-- The color of a picture where nothing is drawn, unless another one is asked for. -/
def Color.paper : Color := ⟨244, 240, 228⟩

def Part.color : Part → Color
  | .root => ⟨90, 60, 40⟩
  | .trunk => ⟨101, 67, 33⟩
  | .branch => ⟨130, 90, 50⟩
  | .tip => ⟨160, 120, 70⟩
  | .leaf => ⟨70, 140, 60⟩

def Ink.color (background : Color) : Ink → Color
  | .background => background
  | .part kind => kind.color
  | .disc => ⟨205, 200, 195⟩
  | .discRing => ⟨150, 140, 130⟩
  | .target => ⟨200, 40, 40⟩

/-- The part of the plane that is drawn, and the size of the picture. -/
structure View where
  width : Nat
  height : Nat
  low : Point
  high : Point

def View.standard : View :=
  { width := 512, height := 512
    low := ⟨(-160 : Float32), (-10 : Float32)⟩
    high := ⟨(160 : Float32), (310 : Float32)⟩ }

/-- The greater of a value and the least positive step, which also stands in for a value that is
no number. -/
def positive (x : Binary32) : Binary32 := if Binary32.epsilon < x then x else Binary32.epsilon

/-- How many pixels there are to a unit of length, across and upwards. -/
def View.scale (v : View) : Point :=
  let size := v.high - v.low
  ⟨Binary32.ofNat v.width / positive size.x, Binary32.ofNat v.height / positive size.y⟩

def View.unit (v : View) : Binary32 := if v.scale.x < v.scale.y then v.scale.x else v.scale.y

/-- Where a point is in the picture, in pixels from its upper left corner. -/
def View.locate (v : View) (p : Point) : Point :=
  let offset := p - v.low
  ⟨offset.x * v.scale.x, Binary32.ofNat v.height - offset.y * v.scale.y⟩

/-- A round shape in the picture. -/
structure Dot where
  center : Point
  radius : Binary32

/-- The whole numbers from one to another that are below a bound. -/
def span (low high : Int) (bound : Nat) : List Nat :=
  List.range' low.toNat (min (high + 1) bound - low).toNat

/-- The pixels whose middle is within a dot, which counts as at least one pixel wide. -/
def covered : Coverage Dot := fun dot width height =>
  let radius := dot.radius.atLeast (0.5 : Float32)
  let low (x : Binary32) : Int := ((x - radius).floor.atLeast (0 : Float32)).toInt
  let high (x : Binary32) (size : Nat) : Int :=
    ((x + radius).ceil.atMost (Binary32.ofNat size - ((1 : Float32) : Binary32))).toInt
  let half : Binary32 := (0.5 : Float32)
  (span (low dot.center.y) (high dot.center.y height) height).flatMap fun y =>
    (span (low dot.center.x) (high dot.center.x width) width).filterMap fun x =>
      let middle : Point := ⟨Binary32.ofNat x + half, Binary32.ofNat y + half⟩
      if middle.distance dot.center ≤ radius then some (x, y) else none

/-- Dots from one place to another, two to a pixel. -/
def line (a b : Point) (radius : Binary32) : List Dot :=
  let steps := (a.distance b * ((2 : Float32) : Binary32)).ceil.atLeast (1 : Float32) |>.toNat
  (List.range (steps + 1)).map fun i =>
    ⟨a.between b (Binary32.ofNat i / Binary32.ofNat steps), radius⟩

def ring (center : Point) (radius : Binary32) : List Dot :=
  let steps := (radius * ((8 : Float32) : Binary32)).ceil.atLeast (16 : Float32) |>.toNat
  let whole : Binary32 := (6.2831855 : Float32)
  (List.range steps).map fun i =>
    let angle := Binary32.ofNat i / Binary32.ofNat steps * whole
    ⟨center + (Point.atAngle angle).stretch radius, (1 : Float32)⟩

def inked (ink : Ink) (dots : List Dot) : List (Stamp Dot Ink) := dots.map fun dot => ⟨dot, ink⟩

def discStamps (v : View) (d : Disc) : List (Stamp Dot Ink) :=
  let center := v.locate d.center
  let radius := d.radius * v.unit
  inked .disc [⟨center, radius⟩] ++ inked .discRing (ring center radius)

def segmentStamps (v : View) (s : Segment) : List (Stamp Dot Ink) :=
  let radius := (s.width * ((0.5 : Float32) : Binary32) * v.unit).atLeast (0.6 : Float32)
  inked (.part s.part) (line (v.locate s.start) (v.locate s.stop) radius)

def targetStamps (v : View) (p : Point) : List (Stamp Dot Ink) :=
  let center := v.locate p
  inked .target (ring center (6 : Float32) ++ [⟨center, (2 : Float32)⟩])

def Segment.isLeaf (s : Segment) : Bool := s.part == .leaf

/-- Everything that is pressed onto the canvas, in order. -/
def stamps (v : View) (tree : List Segment) (obstacles : List Disc) (target : Option Point) :
    List (Stamp Dot Ink) :=
  obstacles.flatMap (discStamps v)
    ++ (tree.filter fun s => !s.isLeaf).flatMap (segmentStamps v)
    ++ (tree.filter Segment.isLeaf).flatMap (segmentStamps v)
    ++ (target.map (targetStamps v)).getD []

/-- Draws a tree. A picture without pixels cannot be made. -/
def draw (coverage : Coverage Dot) (v : View) (tree : List Segment) (obstacles : List Disc)
    (target : Option Point) : Option (Canvas Ink) :=
  if v.width = 0 ∨ v.height = 0 then none
  else some ((Canvas.blank v.width v.height .background).pressAll coverage
    (stamps v tree obstacles target))

/-- Draws a tree in color. -/
def paint (coverage : Coverage Dot) (v : View) (tree : List Segment) (obstacles : List Disc)
    (target : Option Point) (background : Color := .paper) : Option (Canvas Color) :=
  (draw coverage v tree obstacles target).map (Canvas.map (Ink.color background))

end Espalier.Tree
