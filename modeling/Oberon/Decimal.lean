/-!
# Decimal numerals

A decimal numeral is a whole coefficient times a power of ten.  Real literals are decimals, and the
value of such a literal is the binary64 number nearest to it.
-/

namespace Oberon

/-- The number `coefficient * 10 ^ exponent`. -/
structure Decimal where
  coefficient : Nat
  exponent : Int
deriving DecidableEq, Repr

namespace Decimal

/-- The decimal written `whole.fraction`, scaled by `10 ^ exponent`; both parts are decimal
digits. -/
def ofDigits (whole fraction : List Char) (exponent : Int) : Decimal where
  coefficient := Nat.ofDigitChars 10 (whole ++ fraction) 0
  exponent := exponent - fraction.length

/-- The binary64 number nearest to a decimal, of two equally near ones the one with an even
significand; infinite when the decimal is beyond the largest finite number by half a unit or
more. -/
def toFloat (d : Decimal) : Float :=
  if 0 ≤ d.exponent then
    Float.ofScientific d.coefficient false d.exponent.toNat
  else
    Float.ofScientific d.coefficient true (-d.exponent).toNat

end Decimal

end Oberon
