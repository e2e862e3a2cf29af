/-!
# Canvases

A picture is made by pressing stamps onto a canvas one after the other. Which pixels a stamp
covers is a parameter: a `Coverage` gives them from the shape of the stamp and the size of the
canvas. So a pixel shows the ink of the last stamp that covers it, and a pixel that no stamp
covers shows what it showed before.
-/

namespace Espalier

/-- A rectangle of pixels, each of which shows one ink. -/
structure Canvas (I : Type) where
  width : Nat
  height : Nat
  /-- The inks by rows, the top row first. -/
  pixels : Array I

/-- A shape with the ink it leaves. -/
structure Stamp (S I : Type) where
  shape : S
  ink : I

/-- The pixels, by column and row, that a shape covers on a canvas of a given size. -/
abbrev Coverage (S : Type) := S → (width height : Nat) → List (Nat × Nat)

namespace Canvas

variable {S I : Type}

def blank (width height : Nat) (ink : I) : Canvas I :=
  { width, height, pixels := Array.replicate (width * height) ink }

/-- The ink at a column and a row. -/
def ink? (c : Canvas I) (pixel : Nat × Nat) : Option I :=
  if pixel.1 < c.width then c.pixels[pixel.2 * c.width + pixel.1]? else none

/-- Puts ink on a pixel; places outside the canvas are left out. -/
def put (ink : I) (c : Canvas I) (pixel : Nat × Nat) : Canvas I :=
  if pixel.1 < c.width then
    let place := pixel.2 * c.width + pixel.1
    { c with pixels := c.pixels.setIfInBounds place ink }
  else c

@[simp] theorem width_put (ink : I) (c : Canvas I) (pixel : Nat × Nat) :
    (put ink c pixel).width = c.width := by
  unfold put
  split <;> rfl

@[simp] theorem height_put (ink : I) (c : Canvas I) (pixel : Nat × Nat) :
    (put ink c pixel).height = c.height := by
  unfold put
  split <;> rfl

@[simp] theorem size_pixels_put (ink : I) (c : Canvas I) (pixel : Nat × Nat) :
    (put ink c pixel).pixels.size = c.pixels.size := by
  unfold put
  split
  · simp
  · rfl

def press (coverage : Coverage S) (c : Canvas I) (stamp : Stamp S I) : Canvas I :=
  (coverage stamp.shape c.width c.height).foldl (put stamp.ink) c

def pressAll (coverage : Coverage S) (c : Canvas I) (stamps : List (Stamp S I)) : Canvas I :=
  stamps.foldl (press coverage) c

/-- The canvas with every ink replaced. -/
def map {J : Type} (f : I → J) (c : Canvas I) : Canvas J := { c with pixels := c.pixels.map f }

/-- The rows of inks, the top row first. -/
def rows (c : Canvas I) : List (List I) :=
  (List.range c.height).map fun row =>
    (c.pixels.extract (row * c.width) ((row + 1) * c.width)).toList

end Canvas

end Espalier
