/-!
# Classes of characters

A class of characters is written as the lengths of the runs of numbers outside and inside it, in
turn, beginning with zero or more numbers outside.
-/

namespace Espalier.Text

/-- Whether a number is inside the class, when the first run is as `inside` says. -/
def runsContain (inside : Bool) : List Nat → Nat → Bool
  | [], _ => inside
  | run :: runs, n => if n < run then inside else runsContain (!inside) runs (n - run)

/-- Whether a character belongs to a class given by its runs. -/
def belongs (runs : List Nat) (c : Char) : Bool := runsContain false runs c.toNat

end Espalier.Text
