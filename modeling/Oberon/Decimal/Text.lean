import Oberon.Decimal.Shortest

/-!
# Texts of reals

A real has a plain text (positional, without exponent, `2` for two), a literal text that always
has a point (`2.0`), and a listing text that turns to an exponent for very large and very small
numbers (`1e16`).  All three use the digits of the shortest decimal.
-/

namespace Oberon.Decimal

def digits (d : Decimal) : List Char :=
  Nat.toDigits 10 d.coefficient

def positional (d : Decimal) : String :=
  if 0 ≤ d.exponent then
    String.ofList (d.digits ++ List.replicate d.exponent.toNat '0')
  else
    let places := (-d.exponent).toNat
    let padded := List.replicate (places + 1 - d.digits.length) '0' ++ d.digits
    let point := padded.length - places
    String.ofList (padded.take point) ++ "." ++ String.ofList (padded.drop point)

/-- One digit before the point, the others after it, then the exponent: `1.5e-7`, `1e16`. -/
def scientific (d : Decimal) : String :=
  let mantissa :=
    match d.digits with
    | first :: second :: rest => String.ofList [first, '.'] ++ String.ofList (second :: rest)
    | few => String.ofList few
  mantissa ++ "e" ++ Int.repr (d.exponent + d.digits.length - 1)

end Oberon.Decimal

namespace Oberon.Real

open Float.Model (UnpackedFloat)

def signText : UnpackedFloat.Sign → String
  | .negative => "-"
  | .positive => ""

def text (x : Float) : String :=
  match x.toModel.unpack with
  | .notANumber => "NaN"
  | .infinity sign => signText sign ++ "inf"
  | .zero sign => signText sign ++ "0"
  | .finite sign mantissa exponent _ =>
    signText sign ++ (Decimal.shortest x.abs mantissa exponent).positional

def withPoint (numeral : String) : String :=
  if '.' ∈ numeral.toList then numeral else numeral ++ ".0"

def literal (x : Float) : String :=
  withPoint (text x)

/-- The text of a real in a listing: a point always, and an exponent for a magnitude of at least
`10 ^ 16` or below `10 ^ (-4)`. -/
def listing (x : Float) : String :=
  match x.toModel.unpack with
  | .finite sign mantissa exponent _ =>
    let decimal := Decimal.shortest x.abs mantissa exponent
    signText sign ++
      if 1e16 ≤ x.abs || x.abs < 1e-4 then decimal.scientific else withPoint decimal.positional
  | .zero sign => signText sign ++ "0.0"
  | _ => text x

def wholeMagnitude? (x : Float) : Option Nat :=
  match x.toModel.unpack with
  | .finite _ mantissa exponent _ =>
    let (num, den) := Decimal.ratio mantissa exponent
    if num % den = 0 then some (num / den) else none
  | .zero _ => some 0
  | _ => none

/-- The text of a real value: a whole number with all its digits and `.0`, any other real in its
plain text. -/
def valueText (x : Float) : String :=
  match x.toModel.unpack, wholeMagnitude? x with
  | .finite sign _ _ _, some n => signText sign ++ Nat.repr n ++ ".0"
  | .zero sign, some n => signText sign ++ Nat.repr n ++ ".0"
  | _, _ => text x

end Oberon.Real
