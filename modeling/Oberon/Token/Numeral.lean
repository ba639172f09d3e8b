import Oberon.Token

/-!
# Numerals

A numeral starts with a decimal digit and is one of

* `digit {digit}`, a decimal integer,
* `digit {hexDigit} "H"`, a hexadecimal integer,
* `digit {digit} "." {digit} ["E" ["+" | "-"] digit {digit}]`, a real.

Integers must be below `2 ^ 63` and reals finite.  A malformed numeral is refused with the text that
was read.
-/

namespace Oberon.Numeral

/-- Is `c` a digit of a hexadecimal numeral?  Only capitals are. -/
def isHexDigit (c : Char) : Bool :=
  c.isDigit || (decide ('A' ≤ c) && decide (c ≤ 'F'))

def hexDigitValue (c : Char) : Nat :=
  if c.isDigit then c.toNat - '0'.toNat else c.toNat - 'A'.toNat + 10

def hexValue (digits : List Char) : Nat :=
  digits.foldl (fun value c => 16 * value + hexDigitValue c) 0

def decimalValue (digits : List Char) : Nat :=
  Nat.ofDigitChars 10 digits 0

/-- A numeral as it was read: its token, or the refused text, and what follows it. -/
abbrev Reading :=
  Except String (Token × List Char)

/-- The integer token of `value`, unless it is out of range; `text` is what was read. -/
def integer (value : Nat) (text rest : List Char) : Reading :=
  if (value : Int) ≤ Int64.maxValue.toInt then .ok (.integer (Int64.ofNat value), rest)
  else .error (String.ofList text)

def real (whole fraction : List Char) (exponent : Int) (text rest : List Char) : Reading :=
  let value := (Decimal.ofDigits whole fraction exponent).toFloat
  if value.isFinite then .ok (.real value, rest) else .error (String.ofList text)

def takeSign : List Char → List Char × List Char
  | '+' :: rest => (['+'], rest)
  | '-' :: rest => (['-'], rest)
  | rest => ([], rest)

/-- Reads the part of a real behind its point.  A missing fraction counts as the digit `0`. -/
def readReal (whole rest : List Char) : Reading :=
  let digits := rest.takeWhile Char.isDigit
  let fraction := if digits.isEmpty then ['0'] else digits
  let text := whole ++ '.' :: fraction
  match rest.dropWhile Char.isDigit with
  | 'E' :: rest =>
    let (sign, rest) := takeSign rest
    let exponent := rest.takeWhile Char.isDigit
    let text := text ++ 'E' :: sign ++ exponent
    if exponent.isEmpty then .error (String.ofList text)
    else
      let scale : Int := decimalValue exponent
      real whole fraction (if sign = ['-'] then -scale else scale) text
        (rest.dropWhile Char.isDigit)
  | rest => real whole fraction 0 text rest

def read (first : Char) (rest : List Char) : Reading :=
  let digits := first :: rest.takeWhile isHexDigit
  match rest.dropWhile isHexDigit with
  | 'H' :: rest => integer (hexValue digits) (digits ++ ['H']) rest
  | rest =>
    if digits.all Char.isDigit then
      match rest with
      | '.' :: rest => readReal digits rest
      | rest => integer (decimalValue digits) digits rest
    -- letters need the `H` that makes the numeral hexadecimal
    else .error (String.ofList digits)

/-! ## What is left is not longer than what was given -/

theorem length_dropWhile_le (p : Char → Bool) (cs : List Char) :
    (cs.dropWhile p).length ≤ cs.length :=
  (List.dropWhile_sublist p).length_le

theorem rest_of_integer {value : Nat} {text rest rest' : List Char} {token : Token}
    (h : integer value text rest = .ok (token, rest')) : rest' = rest := by
  unfold integer at h
  split at h <;> cases h
  rfl

theorem rest_of_real {whole fraction text rest rest' : List Char} {exponent : Int} {token : Token}
    (h : real whole fraction exponent text rest = .ok (token, rest')) : rest' = rest := by
  unfold real at h
  dsimp only at h
  split at h <;> cases h
  rfl

theorem length_takeSign_le (cs : List Char) : (takeSign cs).2.length ≤ cs.length := by
  fun_cases takeSign cs <;> simp

theorem length_readReal_le_dropWhile {whole rest rest' : List Char} {token : Token}
    (h : readReal whole rest = .ok (token, rest')) :
    rest'.length ≤ (rest.dropWhile Char.isDigit).length := by
  unfold readReal at h
  dsimp only at h
  split at h
  next tail htail =>
    have hsign := length_takeSign_le tail
    have hexponent := length_dropWhile_le Char.isDigit (takeSign tail).2
    split at h
    · cases h
    · rw [rest_of_real h, htail, List.length_cons]
      omega
  next => exact Nat.le_of_eq (congrArg List.length (rest_of_real h))

/-- Whatever the numeral is, it takes all digits in front, those of the larger base too. -/
theorem length_read_le_dropWhile {first : Char} {rest rest' : List Char} {token : Token}
    (h : read first rest = .ok (token, rest')) :
    rest'.length ≤ (rest.dropWhile isHexDigit).length := by
  unfold read at h
  dsimp only at h
  split at h
  next tail htail =>
    rw [rest_of_integer h, htail, List.length_cons]
    omega
  next =>
    split at h
    · split at h
      next tail htail =>
        have hreal := length_readReal_le_dropWhile h
        have hfraction := length_dropWhile_le Char.isDigit tail
        rw [htail, List.length_cons]
        omega
      next => exact Nat.le_of_eq (congrArg List.length (rest_of_integer h))
    · cases h

/-- A numeral consumes from the front. -/
theorem length_read_le {first : Char} {rest rest' : List Char} {token : Token}
    (h : read first rest = .ok (token, rest')) : rest'.length ≤ rest.length :=
  Nat.le_trans (length_read_le_dropWhile h) (length_dropWhile_le isHexDigit rest)

end Oberon.Numeral
