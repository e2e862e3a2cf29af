/-!
# The fewest decimal digits that read back

A finite binary number is `mantissa · 2 ^ exponent`. Every real number in an interval
around it rounds to it; `shortest` finds the decimal number in that interval with the
fewest digits and, among those, the one nearest to the value. For each number of digits
only the two neighbours of the value on that decimal grid can qualify, so both are tested
in exact arithmetic and the first grid with a hit wins.
-/

namespace Espalier.Decimal

/-- A positive decimal number `0.d₁d₂… · 10 ^ point`: its digits as one natural number
without a zero at the end, how many digits these are, and where the point stands. -/
structure Digits where
  value : Nat
  count : Nat
  point : Int
deriving Repr, DecidableEq

/-- A positive fraction, kept as a numerator and a denominator. -/
structure Ratio where
  num : Nat
  den : Nat

/-- `x · 10 ^ k`, for an exponent of either sign. -/
def Ratio.shift (x : Ratio) (k : Int) : Ratio :=
  if 0 ≤ k then ⟨x.num * Nat.pow 10 k.toNat, x.den⟩ else ⟨x.num, x.den * Nat.pow 10 (-k).toNat⟩

/-- The natural number nearest to a fraction, a tie going to the even one. -/
def Ratio.nearest (x : Ratio) : Nat :=
  let lower := x.num / x.den
  let twice := 2 * (x.num % x.den)
  if twice < x.den ∨ (twice = x.den ∧ lower % 2 = 0) then lower else lower + 1

/-- How many decimal digits a natural number has; none for zero. -/
def digitCount (n : Nat) : Nat :=
  if n = 0 then 0 else (Nat.toDigits 10 n).length

/-- The exponent `k` with `10 ^ (k - 1) ≤ x < 10 ^ k`. -/
def Ratio.magnitude (x : Ratio) : Int :=
  if x.den ≤ x.num then (digitCount (x.num / x.den) : Int)
  else
    -- Below one: `den / num` has as many digits as the point has to move, or one more.
    let k := 1 - (digitCount (x.den / x.num) : Int)
    let shifted := x.shift (-k)
    if shifted.den ≤ shifted.num then k + 1 else k

/-- The numbers that round to a value: its distance to either end of the interval and
whether the ends belong to it, all over the denominator of the value. -/
structure Margin where
  value : Ratio
  below : Nat
  above : Nat
  closed : Bool

/-- The interval of `mantissa · 2 ^ exponent`. The gap below is half as wide when the
mantissa is the least one of its binade (`narrow`). -/
def Margin.ofBinary (mantissa : Nat) (exponent : Int) (narrow : Bool) : Margin :=
  let scale := if 0 ≤ exponent then 1 <<< exponent.toNat else 1
  let den := if 0 ≤ exponent then 4 else 4 <<< (-exponent).toNat
  { value := ⟨4 * mantissa * scale, den⟩
    below := (if narrow then 1 else 2) * scale
    above := 2 * scale
    closed := mantissa % 2 == 0 }

/-- Whether `n · 10 ^ k` rounds to the value. -/
def Margin.covers (m : Margin) (n : Nat) (k : Int) : Bool :=
  let scaled : Ratio := if 0 ≤ k then ⟨n * Nat.pow 10 k.toNat, 1⟩ else ⟨n, Nat.pow 10 (-k).toNat⟩
  let x := scaled.num * m.value.den
  let low := (m.value.num - m.below) * scaled.den
  let high := (m.value.num + m.above) * scaled.den
  if m.closed then low ≤ x && x ≤ high else low < x && x < high

/-- Drops the zeros at the end of `n · 10 ^ k`. -/
def trimZeros : Nat → Nat → Nat
  | 0, n => n
  | fuel + 1, n => if n ≠ 0 ∧ n % 10 = 0 then trimZeros fuel (n / 10) else n

/-- Tries grids of `used`, `used + 1`, … digits; `left` more may follow. Of two neighbours
that both round to the value the nearer is taken, the upper one when they are equally near. -/
def searchGrid (m : Margin) (magnitude : Int) : Nat → Nat → Nat × Int
  | left, used =>
    let k := magnitude - used
    let grid := m.value.shift (-k)
    let lower := grid.num / grid.den
    let rest := grid.num % grid.den
    let down := m.covers lower k
    let up := m.covers (lower + 1) k
    match down, up, left with
    | true, true, _ => (if 2 * rest < grid.den then lower else lower + 1, k)
    | true, false, _ => (lower, k)
    | false, true, _ => (lower + 1, k)
    | false, false, 0 => (lower, k)
    | false, false, left + 1 => searchGrid m magnitude left (used + 1)

/-- The shortest decimal number that reads back as the value with this margin. -/
def shortest (m : Margin) : Digits :=
  let (n, k) := searchGrid m m.value.magnitude 16 1
  let value := trimZeros (digitCount n) n
  { value, count := digitCount value, point := k + digitCount n }

/-- The value rounded to `places` digits, a tie going to the even digit. -/
def rounded (value : Ratio) (places : Nat) : Digits :=
  let k := value.magnitude - places
  let n := (value.shift (-k)).nearest
  { value := n, count := digitCount n, point := k + digitCount n }

end Espalier.Decimal
