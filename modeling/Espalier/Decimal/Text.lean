import Espalier.Decimal.Shortest

/-!
# Written forms of decimal digits

Three ways to write the same digits: `positional` with all zeros and a point, `exponential`
with one digit before the point and as many after it as there are, and `scientific` with a
fixed number of digits after the point. None of them knows where the digits come from.
-/

namespace Espalier.Decimal

def Digits.text (d : Digits) : String := String.ofList (Nat.toDigits 10 d.value)

def zeros (n : Nat) : String := String.ofList (List.replicate n '0')

/-- All digits in place, with no exponent. A whole number is followed by `wholeEnd`, which is
empty or `.0`. -/
def Digits.positional (d : Digits) (wholeEnd : String) : String :=
  if d.point ≤ 0 then "0." ++ zeros (-d.point).toNat ++ d.text
  else if (d.count : Int) ≤ d.point then d.text ++ zeros (d.point - d.count).toNat ++ wholeEnd
  else
    let cs := d.text.toList
    String.ofList (cs.take d.point.toNat) ++ "." ++ String.ofList (cs.drop d.point.toNat)

/-- The first digit, a point and the other digits if there are any, and the exponent. -/
def Digits.exponential (d : Digits) : String :=
  let cs := d.text.toList
  let rest := String.ofList (cs.drop 1)
  String.ofList (cs.take 1) ++ (if rest.isEmpty then "" else "." ++ rest) ++ "e"
    ++ toString (d.point - 1)

/-- The first digit, a point, exactly `places` further digits, and the exponent. A number
rounded up to the next power of ten has one digit more than asked for, which is a zero. -/
def Digits.scientific (d : Digits) (places : Nat) : String :=
  let cs := d.text.toList
  String.ofList (cs.take 1) ++ "." ++ String.ofList ((cs.drop 1).take places)
    ++ zeros (places - (cs.length - 1)) ++ "e" ++ toString (d.point - 1)

end Espalier.Decimal
