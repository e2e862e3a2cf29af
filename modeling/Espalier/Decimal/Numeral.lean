import Espalier.Decimal.Shortest

/-!
# Written decimal numbers

A `Numeral` is a decimal number as it was written, before it is rounded to any machine number:
its sign, its digits and the power of ten they are multiplied by. It also remembers whether it
was written with digits alone, because a count must be.
-/

namespace Espalier.Decimal

/-- A decimal number as written: `± mantissa · 10 ^ exponent`. -/
structure Numeral where
  negative : Bool
  mantissa : Nat
  exponent : Int
  /-- Whether there was neither a point nor an exponent. -/
  whole : Bool
deriving DecidableEq, Repr

def digitsValue (digits : List Char) : Nat :=
  digits.foldl (fun n c => 10 * n + (c.toNat - '0'.toNat)) 0

/-- Takes a sign and the digits of an exponent. -/
def takeExponent (cs : List Char) : Option (Int × List Char) :=
  let (negative, cs) := match cs with
    | '-' :: cs => (true, cs)
    | '+' :: cs => (false, cs)
    | cs => (false, cs)
  let (digits, rest) := cs.span Char.isDigit
  if digits.isEmpty then none
  else
    let size : Int := digitsValue digits
    some (if negative then -size else size, rest)

namespace Numeral

/-- Puts the written parts of a number together. -/
def ofParts (negative : Bool) (whole fraction : List Char) (exponent : Int) (plain : Bool) :
    Numeral :=
  { negative
    mantissa := digitsValue (whole ++ fraction)
    exponent := exponent - fraction.length
    whole := plain }

/-- Takes the part of an unsigned number after its whole digits: a point with the digits that
follow, and an exponent. -/
def takeRest (negative : Bool) (whole cs : List Char) : Option (Numeral × List Char) :=
  let (point, fraction, cs) := match cs with
    | '.' :: cs =>
      let (fraction, cs) := cs.span Char.isDigit
      (true, fraction, cs)
    | cs => (false, [], cs)
  match cs with
  | 'e' :: cs | 'E' :: cs =>
    (takeExponent cs).map fun (exponent, cs) =>
      (ofParts negative whole fraction exponent false, cs)
  | cs => some (ofParts negative whole fraction 0 (!point), cs)

/-- The natural number written, if it was written as one, without a sign. -/
def count? (n : Numeral) : Option Nat :=
  if n.whole && !n.negative then some n.mantissa else none

/-- The exponent `k` with `10 ^ (k - 1) ≤ |x| < 10 ^ k`, for a number other than zero. -/
def magnitude (n : Numeral) : Int := n.exponent + digitCount n.mantissa

end Numeral

end Espalier.Decimal
