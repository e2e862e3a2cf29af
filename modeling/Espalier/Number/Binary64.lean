import Espalier.Number
import Espalier.Decimal.Text
import Espalier.Decimal.Numeral

/-!
# Double-precision numbers

`Binary64` is a double-precision number given by its bits, so that two values that are no
numbers can be told apart by sign. Arithmetic is that of `Float`; what it leaves open is
settled by `lift₂`: an operand that is no number passes through, the first before the second,
and an operation without a result yields the negative quiet value.

`rank` orders all values, also those that are no numbers, by sign and then by size. `text`,
`debugText` and `scientific` are the written forms.
-/

namespace Espalier

/-- A double-precision number, given by its bits. -/
structure Binary64 where
  bits : UInt64
deriving DecidableEq, Inhabited

namespace Binary64

def toFloat (x : Binary64) : Float := Float.ofBits x.bits

def ofFloat (x : Float) : Binary64 := ⟨x.toBits⟩

instance : Coe Float Binary64 := ⟨ofFloat⟩

def isNaN (x : Binary64) : Bool := 0x7ff0000000000000 < (x.bits &&& 0x7fffffffffffffff)

/-- Whether the value is a number and not infinite. -/
def isFinite (x : Binary64) : Bool := (x.bits &&& 0x7fffffffffffffff) < 0x7ff0000000000000

def isNegative (x : Binary64) : Bool := 0x8000000000000000 ≤ x.bits

def invalid : Binary64 := ⟨0xfff8000000000000⟩

def infinity : Binary64 := ⟨0x7ff0000000000000⟩

/-- A value that is no number, made quiet. -/
def quiet (x : Binary64) : Binary64 := ⟨x.bits ||| 0x0008000000000000⟩

/-- The result of an operation on numbers, `invalid` when there is none. -/
def ofResult (x : Float) : Binary64 := if x.isNaN then invalid else ofFloat x

/-- A function of one number; a value that is no number passes through. -/
def lift₁ (f : Float → Float) (x : Binary64) : Binary64 :=
  if x.isNaN then x.quiet else ofResult (f x.toFloat)

/-- An operation on two numbers; an operand that is no number passes through, the first
before the second. -/
def lift₂ (f : Float → Float → Float) (x y : Binary64) : Binary64 :=
  if x.isNaN then x.quiet else if y.isNaN then y.quiet else ofResult (f x.toFloat y.toFloat)

def ofNat (n : Nat) : Binary64 :=
  ofFloat (if n < UInt64.size then n.toUInt64.toFloat else Float.ofNat n)

def neg (x : Binary64) : Binary64 := ⟨x.bits ^^^ 0x8000000000000000⟩

/-- Place in the order of all values: negative ones first, each half by size. Zero comes
after negative zero, and values that are no numbers are the outermost. -/
def rank (x : Binary64) : Int :=
  if x.isNegative then -((x.bits.toNat : Int) - 0x8000000000000000) - 1 else x.bits.toNat

/-- The count a value is cut down to, at most `2 ^ 64 - 1`. -/
def floorCount (x : Binary64) : Nat := x.toFloat.toUInt64.toNat

/-- The count nearest to a value, a half going up, at most `2 ^ 64 - 1`. -/
def roundCount (x : Binary64) : Nat :=
  let below := x.toFloat.toUInt64
  if x.toFloat - below.toFloat < 0.5 then below.toNat else min (below.toNat + 1) (UInt64.size - 1)

/-- Mantissa and exponent of a finite value, without its sign. -/
def parts (x : Binary64) : Nat × Int :=
  let field := ((x.bits >>> 52) &&& 0x7ff).toNat
  let fraction := (x.bits &&& 0xfffffffffffff).toNat
  if field = 0 then (fraction, -1074) else (fraction + 0x10000000000000, (field : Int) - 1075)

/-- The interval of real numbers that round to a finite value other than zero. -/
def margin (x : Binary64) : Decimal.Margin :=
  let (mantissa, exponent) := x.parts
  .ofBinary mantissa exponent (mantissa = 0x10000000000000 && decide (-1074 < exponent))

/-- The size of a finite value as a fraction. -/
def ratio (x : Binary64) : Decimal.Ratio :=
  let (mantissa, exponent) := x.parts
  if 0 ≤ exponent then ⟨mantissa <<< exponent.toNat, 1⟩ else ⟨mantissa, 1 <<< (-exponent).toNat⟩

/-- Whether the value is zero, of either sign. -/
def isZero (x : Binary64) : Bool := (x.bits &&& 0x7fffffffffffffff) == 0

/-- Writes a value through `finite`, which writes a positive finite one; `zero` is the
written form of zero. Only numbers carry a sign. -/
def written (x : Binary64) (zero : String) (finite : Binary64 → String) : String :=
  if x.isNaN then "NaN" else
  let body := if x.isZero then zero else if x.isFinite then finite x else "inf"
  if x.isNegative then "-" ++ body else body

/-- The form in messages: the fewest digits that read back, all in place, and nothing after
a whole number. -/
def text (x : Binary64) : String :=
  x.written "0" fun x => (Decimal.shortest x.margin).positional ""

/-- The form in descriptions of values: whole numbers end in `.0`, and sizes below `10⁻⁴` or
from `10¹⁶` on have an exponent. -/
def debugText (x : Binary64) : String :=
  x.written "0.0" fun x =>
    let digits := Decimal.shortest x.margin
    if digits.point < -3 ∨ 16 < digits.point then digits.exponential
    else digits.positional ".0"

/-- The form with `places` digits after the point and an exponent. -/
def scientific (x : Binary64) (places : Nat) : String :=
  x.written ("0." ++ Decimal.zeros places ++ "e0") fun x =>
    (Decimal.rounded x.ratio (places + 1)).scientific places

/-- The number nearest to a decimal one, of two equally near ones the even one. Sizes that are
out of range by their magnitude alone need no rounding. -/
def ofNumeral (n : Decimal.Numeral) : Binary64 :=
  let size : Binary64 :=
    if n.mantissa = 0 ∨ n.magnitude < -330 then ⟨0⟩
    else if 310 < n.magnitude then infinity
    else ofFloat (Float.ofScientific n.mantissa (decide (n.exponent < 0)) n.exponent.natAbs)
  if n.negative then size.neg else size

/-- Equality of numbers: zeros of both signs are equal, and what is no number equals nothing. -/
instance : BEq Binary64 := ⟨fun x y => x.toFloat == y.toFloat⟩

instance : Neg Binary64 := ⟨neg⟩

instance : Scalar Binary64 where
  zero := ⟨0⟩
  one := ⟨0x3ff0000000000000⟩
  add := lift₂ (· + ·)
  sub := lift₂ (· - ·)
  mul := lift₂ (· * ·)
  div := lift₂ (· / ·)
  natCast := ofNat
  le x y := x.toFloat ≤ y.toFloat
  lt x y := x.toFloat < y.toFloat
  decideLe x y := inferInstanceAs (Decidable (x.toFloat ≤ y.toFloat))
  decideLt x y := inferInstanceAs (Decidable (x.toFloat < y.toFloat))
  exp := lift₁ Float.exp
  ln := lift₁ Float.log
  isNaN := isNaN
  isFinite := isFinite
  rank := rank
  floorCount := floorCount
  roundCount := roundCount
  text := text

end Binary64

end Espalier
