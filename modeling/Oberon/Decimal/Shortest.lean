import Oberon.Decimal

/-!
# The shortest decimal of a real

Every positive finite binary64 number `x` is printed by the decimal with the fewest digits that
reads back as `x`, and of those by the one nearest to `x`.  The search goes through the grids of
multiples of `10 ^ p` from coarse to fine.  On each grid only the two neighbours of `x` need to be
tried: a decimal that reads back as `x` with some grid point between it and `x` would make that
point read back as `x` too.
-/

namespace Oberon.Decimal

def ratio (mantissa : Nat) (exponent : Int) : Nat × Nat :=
  if 0 ≤ exponent then (mantissa * Nat.pow 2 exponent.toNat, 1)
  else (mantissa, Nat.pow 2 (-exponent).toNat)

/-- The exact decimal of `mantissa * 2 ^ exponent`: a negative power of two is a power of five
over a power of ten. -/
def exactly (mantissa : Nat) (exponent : Int) : Decimal :=
  if 0 ≤ exponent then ⟨mantissa * Nat.pow 2 exponent.toNat, 0⟩
  else ⟨mantissa * Nat.pow 5 (-exponent).toNat, exponent⟩

/-- The least `k` with `num / den < 10 ^ k`, for positive `num` and `den`. -/
def magnitude (num den : Nat) : Int :=
  if den ≤ num then (Nat.toDigits 10 (num / den)).length
  else 1 - (Nat.toDigits 10 ((den - 1) / num)).length

/-- Of two decimals the one that reads back as `x`; where both do, the first if it is preferred. -/
def choose (x : Float) (first second : Decimal) (preferFirst : Bool) : Option Decimal :=
  if first.toFloat = x ∧ (preferFirst ∨ second.toFloat ≠ x) then some first
  else if second.toFloat = x then some second
  else none

/-- The neighbour of `num / den` among the multiples of `10 ^ p` that reads back as `x`; of two such
neighbours the nearer, and the upper one when both are equally near. -/
def onGrid (x : Float) (num den : Nat) (p : Int) : Option Decimal :=
  -- `n / d` is the value in units of the grid
  let n := if 0 ≤ p then num else num * Nat.pow 10 (-p).toNat
  let d := if 0 ≤ p then den * Nat.pow 10 p.toNat else den
  choose x ⟨n / d, p⟩ ⟨n / d + 1, p⟩ (2 * (n % d) < d)

def onGrids (x : Float) (num den : Nat) : (steps : Nat) → (p : Int) → Option Decimal
  | 0, _ => none
  | steps + 1, p => (onGrid x num den p).or (onGrids x num den steps (p - 1))

/-- The shortest decimal that reads back as `x`, where `x` is `mantissa * 2 ^ exponent`.  Seventeen
digits tell any two binary64 numbers apart, so the exact decimal is only the formal end of the
search. -/
def shortest (x : Float) (mantissa : Nat) (exponent : Int) : Decimal :=
  let (num, den) := ratio mantissa exponent
  (onGrids x num den 18 (magnitude num den)).getD (exactly mantissa exponent)

/-- The chosen decimal reads back. -/
theorem toFloat_of_choose {x : Float} {first second d : Decimal} {preferFirst : Bool}
    (h : choose x first second preferFirst = some d) : d.toFloat = x := by
  unfold choose at h
  split at h
  next hfirst => cases h; exact hfirst.1
  next =>
    split at h
    next hsecond => cases h; exact hsecond
    next => cases h

/-- A hit of the search reads back. -/
theorem toFloat_of_onGrids {x : Float} {num den : Nat} {d : Decimal} (steps : Nat) (p : Int)
    (h : onGrids x num den steps p = some d) : d.toFloat = x := by
  induction steps generalizing p with
  | zero => cases h
  | succ steps ih =>
    rw [onGrids, Option.or_eq_some_iff] at h
    rcases h with h | ⟨_, h⟩
    · exact toFloat_of_choose h
    · exact ih (p - 1) h

end Oberon.Decimal
