/-!
# Numbers

Weights, costs and probabilities are numbers of a type `R` that the library leaves
open. `Arithmetic R` is what summing weights and taking shares of them needs;
`Scalar R` adds what a search needs besides: exponential and logarithm, the tests
for values that are not finite, a total order, rounding to counts and a written
form. Programs run with `Binary64`; statements about exact arithmetic choose an
exact instance instead.
-/

namespace Espalier

/-- Arithmetic in which weights are summed and shares of them are taken. -/
class Arithmetic (R : Type) extends Zero R, One R, Add R, Sub R, Mul R, Div R, NatCast R,
    LE R, LT R where
  decideLe : DecidableLE R
  decideLt : DecidableLT R

instance Arithmetic.instLe {R : Type} [Arithmetic R] (x y : R) : Decidable (x ≤ y) :=
  decideLe x y

instance Arithmetic.instLt {R : Type} [Arithmetic R] (x y : R) : Decidable (x < y) :=
  decideLt x y

/-- The numbers a search computes costs and weights in. -/
class Scalar (R : Type) extends Arithmetic R where
  exp : R → R
  ln : R → R
  isNaN : R → Bool
  isFinite : R → Bool
  /-- Place in a total order of all values, also of those that are no numbers. -/
  rank : R → Int
  /-- The count a value is cut down to: nothing for a value below one or for no number. -/
  floorCount : R → Nat
  /-- The count nearest to a value, a half going up: nothing for a negative value. -/
  roundCount : R → Nat
  text : R → String

/-- The sum of a list from left to right. The first term starts it, so the sum of one
number is that number itself; nothing sums to zero. -/
def total {R : Type} [Arithmetic R] : List R → R
  | [] => 0
  | x :: xs => xs.foldl (· + ·) x

/-- Whether a number equals zero, of either sign. -/
def isZero {R : Type} [Arithmetic R] (x : R) : Bool :=
  decide (x ≤ 0) && decide (0 ≤ x)

end Espalier
