import Espalier.Number.Binary64

/-!
# Single-precision numbers

`Binary32` is a single-precision number given by its bits, for geometry. As with `Binary64`,
arithmetic is that of the machine type, an operand that is no number passes through, the first
before the second, and an operation without a result yields the negative quiet value.
-/

namespace Espalier

/-- A single-precision number, given by its bits. -/
structure Binary32 where
  bits : UInt32
deriving DecidableEq, Inhabited

namespace Binary32

def toFloat (x : Binary32) : Float32 := Float32.ofBits x.bits

def ofFloat (x : Float32) : Binary32 := ⟨x.toBits⟩

instance : Coe Float32 Binary32 := ⟨ofFloat⟩

def isNaN (x : Binary32) : Bool := 0x7f800000 < (x.bits &&& 0x7fffffff)

/-- Whether the value is a number and not infinite. -/
def isFinite (x : Binary32) : Bool := (x.bits &&& 0x7fffffff) < 0x7f800000

def isNegative (x : Binary32) : Bool := 0x80000000 ≤ x.bits

def invalid : Binary32 := ⟨0xffc00000⟩

def infinity : Binary32 := ⟨0x7f800000⟩

/-- The distance from one to the next number. -/
def epsilon : Binary32 := ⟨0x34000000⟩

/-- A value that is no number, made quiet. -/
def quiet (x : Binary32) : Binary32 := ⟨x.bits ||| 0x00400000⟩

/-- The result of an operation on numbers, `invalid` when there is none. -/
def ofResult (x : Float32) : Binary32 := if x.isNaN then invalid else ofFloat x

/-- A function of one number; a value that is no number passes through. -/
def lift₁ (f : Float32 → Float32) (x : Binary32) : Binary32 :=
  if x.isNaN then x.quiet else ofResult (f x.toFloat)

/-- An operation on two numbers; an operand that is no number passes through, the first
before the second. -/
def lift₂ (f : Float32 → Float32 → Float32) (x y : Binary32) : Binary32 :=
  if x.isNaN then x.quiet else if y.isNaN then y.quiet else ofResult (f x.toFloat y.toFloat)

instance : Add Binary32 := ⟨lift₂ (· + ·)⟩
instance : Sub Binary32 := ⟨lift₂ (· - ·)⟩
instance : Mul Binary32 := ⟨lift₂ (· * ·)⟩
instance : Div Binary32 := ⟨lift₂ (· / ·)⟩
instance : LT Binary32 := ⟨fun x y => x.toFloat < y.toFloat⟩
instance : LE Binary32 := ⟨fun x y => x.toFloat ≤ y.toFloat⟩
instance (x y : Binary32) : Decidable (x < y) :=
  inferInstanceAs (Decidable (x.toFloat < y.toFloat))
instance (x y : Binary32) : Decidable (x ≤ y) :=
  inferInstanceAs (Decidable (x.toFloat ≤ y.toFloat))

def ofNat (n : Nat) : Binary32 := ofFloat n.toUInt64.toFloat32

def sqrt : Binary32 → Binary32 := lift₁ Float32.sqrt

def sin : Binary32 → Binary32 := lift₁ Float32.sin

def cos : Binary32 → Binary32 := lift₁ Float32.cos

/-- The greatest whole number that is not greater. -/
def floor : Binary32 → Binary32 := lift₁ Float32.floor

/-- The least whole number that is not less. -/
def ceil : Binary32 → Binary32 := lift₁ Float32.ceil

/-- The greater of two values; one that is no number gives way to the other. -/
def atLeast (x bound : Binary32) : Binary32 :=
  if x.isNaN then bound else if x < bound then bound else x

/-- The lesser of two values; one that is no number gives way to the other. -/
def atMost (x bound : Binary32) : Binary32 :=
  if x.isNaN then bound else if bound < x then bound else x

/-- The value moved into the unit interval; what is no number stays as it is. -/
def clampUnit (x : Binary32) : Binary32 :=
  if x < (0 : Float32) then (0 : Float32) else if ((1 : Float32) : Binary32) < x then (1 : Float32)
  else x

/-- The value cut down to a whole number. -/
def toInt (x : Binary32) : Int := x.toFloat.toInt64.toInt

/-- The value cut down to a natural number. -/
def toNat (x : Binary32) : Nat := x.toFloat.toUInt64.toNat

def toBinary64 (x : Binary32) : Binary64 :=
  if x.isNaN then
    let payload := (x.bits &&& 0x003fffff).toUInt64 <<< 29
    ⟨payload ||| (if x.isNegative then 0xfff8000000000000 else 0x7ff8000000000000)⟩
  else .ofFloat x.toFloat.toFloat

end Binary32

def Binary64.toBinary32 (x : Binary64) : Binary32 :=
  if x.isNaN then
    let payload := (x.bits >>> 29).toUInt32 &&& 0x003fffff
    ⟨payload ||| (if x.isNegative then 0xffc00000 else 0x7fc00000)⟩
  else .ofFloat x.toFloat.toFloat32

end Espalier
