/-
Decimal numbers and their positional text.

A decimal is a coefficient with a power of ten.  Its text never uses an exponent: the
power of ten becomes zeros behind the coefficient, or the place of the point.
-/

namespace ProtoSchema

/-- The number `coefficient * 10 ^ exponent`. -/
structure Decimal where
  coefficient : Nat
  exponent : Int
deriving DecidableEq, Repr, Inhabited

namespace Decimal

/-- The text without an exponent, with a point only if some digit stands behind it. -/
def text (d : Decimal) : String :=
  let digits := Nat.toDigits 10 d.coefficient
  if 0 ≤ d.exponent then String.ofList (digits ++ List.replicate d.exponent.toNat '0')
  else
    let places := (-d.exponent).toNat
    let padded := List.replicate (places + 1 - digits.length) '0' ++ digits
    let whole := padded.length - places
    String.ofList (padded.take whole ++ '.' :: padded.drop whole)

end Decimal

end ProtoSchema
