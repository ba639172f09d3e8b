import Mathlib.Algebra.Order.Field.Power
import Mathlib.Algebra.Order.Floor.Semiring
import Mathlib.Data.Int.Log
import Mathlib.Data.Rat.Floor
import Mathlib.Tactic.FieldSimp
import Mathlib.Tactic.Linarith
import Mathlib.Tactic.Positivity
import Mathlib.Tactic.Ring

/-!
# Rounding to binary64

The nearest binary64 number of a positive rational, and the operations of the floating-point model
that compute it.  The model keeps a mantissa and two bits for what was cut off behind it; `Tracks`
says which numbers such an extended mantissa stands for, and every shift preserves it.  Main
statements: products and quotients of positive numbers are rounded to the nearest number, whatever
their representations are.
-/

namespace Oberon.Binary64

open Float.Model Float.Model.UnpackedFloat

/-! ## The nearest number -/

/-- The nearest natural number, of two equally near ones the even one. -/
def halfEven (y : ℚ) : ℕ :=
  if 2 * (y - ⌊y⌋₊) < 1 then ⌊y⌋₊
  else if 2 * (y - ⌊y⌋₊) = 1 then ⌊y⌋₊ + ⌊y⌋₊ % 2
  else ⌊y⌋₊ + 1

/-- The exponent of the last place of the numbers around `q`. -/
def lastPlace (q : ℚ) : ℤ :=
  max (Int.log 2 q - 52) (-1074)

/-- The number `r * 2 ^ t` for `r ≤ 2 ^ 53`; at the upper end the last place moves. -/
def carried (r : ℕ) (t : ℤ) : UnpackedFloat :=
  if h : r = 0 then .zero .positive
  else if r < 2 ^ 53 then .finite .positive r t (Nat.pos_of_ne_zero h)
  else .finite .positive (2 ^ 52) (t + 1) (by decide)

/-- The number nearest to a positive rational, without a bound on the exponent. -/
def nearest (q : ℚ) : UnpackedFloat :=
  carried (halfEven (q / 2 ^ lastPlace q)) (lastPlace q)

/-! ## Extended mantissas -/

/-- The mantissa is the whole part of `y`, the round bit tells whether the rest reaches one half,
and the sticky bit whether anything is left beyond that. -/
def Tracks (em : ExtendedMantissa) (y : ℚ) : Prop :=
  ∃ rest : ℚ, 0 ≤ rest ∧ rest < 1 / 2 ∧ (em.stickyBit = true ↔ 0 < rest) ∧
    y = em.mantissa + (if em.roundBit then 1 / 2 else 0) + rest

/-- The mantissa is the whole part of what it tracks. -/
theorem Tracks.floor_eq {em : ExtendedMantissa} {y : ℚ} (h : Tracks em y) : ⌊y⌋₊ = em.mantissa := by
  obtain ⟨rest, hlow, hhigh, -, rfl⟩ := h
  have hround : (0 : ℚ) ≤ (if em.roundBit then 1 / 2 else 0) ∧
      (if em.roundBit then 1 / 2 else 0) ≤ (1 / 2 : ℚ) := by
    cases em.roundBit <;> norm_num
  have hmantissa : (0 : ℚ) ≤ em.mantissa := Nat.cast_nonneg _
  rw [Nat.floor_eq_iff (by linarith)]
  constructor <;> linarith

/-- Rounding by the two bits is rounding to the nearest natural number. -/
theorem Tracks.roundedMantissa_eq {em : ExtendedMantissa} {y : ℚ} (h : Tracks em y) :
    em.roundedMantissa = halfEven y := by
  have hfloor := h.floor_eq
  obtain ⟨rest, hlow, hhigh, hsticky, hy⟩ := h
  obtain ⟨mantissa, roundBit, stickyBit⟩ := em
  have hdiff : y - ⌊y⌋₊ = (if roundBit then 1 / 2 else 0) + rest := by
    rw [hfloor, hy]
    ring
  rw [halfEven, hdiff, hfloor]
  unfold ExtendedMantissa.roundedMantissa
  have hrest : stickyBit = false → rest = 0 := by
    intro hfalse
    have hnot : ¬ 0 < rest := by
      intro hpos
      have htrue : stickyBit = true := hsticky.mpr hpos
      rw [hfalse] at htrue
      cases htrue
    linarith
  -- below a half it goes down and above it up; a half is the round bit alone
  cases roundBit <;> cases stickyBit
  · rw [hrest rfl]
    simp [ExtendedMantissa.accuracy, Accuracy.roundToNearestEven]
  · have hlt : 2 * ((if false = true then 1 / 2 else 0) + rest) < (1 : ℚ) := by simp; linarith
    rw [if_pos hlt]
    rfl
  · rw [hrest rfl]
    norm_num [ExtendedMantissa.accuracy, Accuracy.roundToNearestEven]
  · have hpos : 0 < rest := hsticky.mp rfl
    have hge : ¬ 2 * ((if true = true then 1 / 2 else 0) + rest) < (1 : ℚ) := by simp; linarith
    have hne : ¬ 2 * ((if true = true then 1 / 2 else 0) + rest) = (1 : ℚ) := by
      intro heq
      simp only [↓reduceIte] at heq
      linarith
    rw [if_neg hge, if_neg hne]
    rfl

/-- One bit less halves what is tracked; the lost bit goes to the accuracy. -/
theorem Tracks.shiftRightOne {em : ExtendedMantissa} {y : ℚ} (h : Tracks em y) :
    Tracks em.shiftRightOne (y / 2) := by
  obtain ⟨rest, hlow, hhigh, hsticky, hy⟩ := h
  obtain ⟨mantissa, roundBit, stickyBit⟩ := em
  have hsplit : (mantissa : ℚ) = 2 * (mantissa / 2 : ℕ) + (mantissa % 2 : ℕ) := by
    exact_mod_cast (Nat.div_add_mod mantissa 2).symm
  -- the old round bit moves behind the new one
  refine ⟨(if roundBit then 1 / 4 else 0) + rest / 2, ?_, ?_, ?_, ?_⟩
  · cases roundBit <;> simp <;> linarith
  · cases roundBit <;> simp <;> linarith
  · show (roundBit || stickyBit) = true ↔ _
    cases roundBit
    · simpa using hsticky
    · simp
      linarith
  · have hparity := Nat.mod_two_eq_zero_or_one mantissa
    show y / 2 = (mantissa / 2 : ℕ) + (if (mantissa % 2 != 0) = true then 1 / 2 else 0) +
      ((if roundBit then 1 / 4 else 0) + rest / 2)
    rcases hparity with hparity | hparity <;> rw [hy, hsplit, hparity] <;> cases roundBit <;>
      simp <;> ring

/-- Each bit less halves what is tracked. -/
theorem Tracks.shiftRight {em : ExtendedMantissa} {y : ℚ} (h : Tracks em y) (n : ℕ) :
    Tracks (em >>> n) (y / 2 ^ n) := by
  show Tracks (n.repeat ExtendedMantissa.shiftRightOne em) (y / 2 ^ n)
  induction n with
  | zero => simpa [Nat.repeat] using h
  | succ n ih =>
    have hstep := ih.shiftRightOne
    rw [div_div, ← pow_succ] at hstep
    exact hstep

/-! ## Rounding -/

/-- Two powers of two around a value determine its binary logarithm. -/
theorem log_eq {q : ℚ} {k : ℤ} (hlow : 2 ^ k ≤ q) (hhigh : q < 2 ^ (k + 1)) : Int.log 2 q = k := by
  have hpos : 0 < q := lt_of_lt_of_le (by positivity) hlow
  have hle : k ≤ Int.log 2 q :=
    (Int.zpow_le_iff_le_log (by decide) hpos).mp (by exact_mod_cast hlow)
  have hlt : Int.log 2 q < k + 1 :=
    (Int.lt_zpow_iff_log_lt (by decide) hpos).mp (by exact_mod_cast hhigh)
  omega

/-- The model aims at the last place of the number that a mantissa tracks, if it has enough
bits. -/
theorem targetExponent_totalExponent (m : ℕ) (e : ℤ) :
    Format.binary64.targetExponent (totalExponent m e) = max (m.log2 + e - 52) (-1074) := by
  change max ((m.log2 + 1 : ℤ) + e - 53) (-1074) = _
  omega

/-- The exponent that is aimed at is that of the last place. -/
theorem targetExponent_eq {q : ℚ} (hq : 0 < q) {m : ℕ} {e : ℤ} (hlow : m ≤ q / 2 ^ e)
    (hhigh : q / 2 ^ e < m + 1) (he : e ≤ lastPlace q) :
    Format.binary64.targetExponent (totalExponent m e) = lastPlace q := by
  have htwo : (0 : ℚ) < 2 ^ e := by positivity
  rw [targetExponent_totalExponent]
  rcases Nat.eq_zero_or_pos m with rfl | hm
  · -- all bits were cut off, so the last place is the smallest one
    have hlog : Int.log 2 q < e := by
      rw [← Int.lt_zpow_iff_log_lt (by decide) hq]
      rw [div_lt_iff₀ htwo] at hhigh
      simpa using hhigh
    unfold lastPlace at he ⊢
    rw [Nat.log2_zero]
    omega
  · -- the bits that are left have the magnitude of the number
    have hlog : Int.log 2 q = m.log2 + e := by
      have hself : (2 : ℚ) ^ m.log2 ≤ m := by exact_mod_cast Nat.log2_self_le (Nat.ne_of_gt hm)
      have hnext : (m : ℚ) + 1 ≤ 2 ^ (m.log2 + 1) := by exact_mod_cast Nat.lt_log2_self
      rw [le_div_iff₀ htwo] at hlow
      rw [div_lt_iff₀ htwo] at hhigh
      apply log_eq
      · rw [zpow_add₀ (by norm_num), zpow_natCast]
        nlinarith
      · have hsum : (m.log2 : ℤ) + e + 1 = ((m.log2 + 1 : ℕ) : ℤ) + e := by push_cast; ring
        rw [hsum, zpow_add₀ (by norm_num), zpow_natCast]
        nlinarith
    rw [lastPlace, hlog]

theorem halfEven_le {y : ℚ} {n : ℕ} (hy : 0 ≤ y) (h : y ≤ n) : halfEven y ≤ n := by
  have hfloor : ⌊y⌋₊ ≤ n := Nat.floor_le_of_le h
  have hself : (⌊y⌋₊ : ℚ) ≤ y := Nat.floor_le hy
  unfold halfEven
  split
  next => exact hfloor
  next hhalf =>
    have hlt : ⌊y⌋₊ < n := by
      have : (⌊y⌋₊ : ℚ) < n := by linarith
      exact_mod_cast this
    split <;> omega

/-- In units of the last place a value has at most 53 bits. -/
theorem lt_two_zpow_lastPlace (q : ℚ) : q / 2 ^ lastPlace q < 2 ^ 53 := by
  have hlog : q < 2 ^ (Int.log 2 q + 1) := Int.lt_zpow_succ_log_self (by decide) q
  rw [div_lt_iff₀ (by positivity)]
  calc q < 2 ^ (Int.log 2 q + 1) := hlog
    _ ≤ 2 ^ (53 + lastPlace q) := by
      apply zpow_le_zpow_right₀ (by norm_num)
      unfold lastPlace
      omega
    _ = 2 ^ 53 * 2 ^ lastPlace q := by
      rw [zpow_add₀ (by norm_num)]
      norm_num

/-- The second shift only moves the last place when rounding filled all bits up. -/
theorem shiftToTargetExponent_exact {r : ℕ} {t : ℤ} (hr : r ≤ 2 ^ 53) (ht : -1074 ≤ t) :
    shiftToTargetExponent Format.binary64 r t .exact =
      if r < 2 ^ 53 then (⟨r, false, false⟩, t) else (⟨2 ^ 52, false, false⟩, t + 1) := by
  unfold shiftToTargetExponent
  rw [targetExponent_totalExponent]
  split
  next hlt =>
    -- the bits fit, and nothing is shifted
    have hlog : r.log2 ≤ 52 := by
      rcases Nat.eq_zero_or_pos r with rfl | hpos
      · simp
      · have := (Nat.log2_lt (Nat.ne_of_gt hpos)).mpr hlt
        omega
    have hshift : (max (r.log2 + t - 52) (-1074) - t).toNat = 0 := by omega
    simp only [shiftToExponent, hshift]
    simp [ExtendedMantissa.ofMantissaAndAccuracy, HShiftRight.hShiftRight, Nat.repeat]
  next hge =>
    obtain rfl : r = 2 ^ 53 := by omega
    have hshift : (max (((2 ^ 53 : ℕ).log2 : ℤ) + t - 52) (-1074) - t).toNat = 1 := by
      rw [Nat.log2_two_pow]
      omega
    simp only [shiftToExponent, hshift]
    rfl

/-- A mantissa with enough bits is rounded to the number nearest to what it tracks. -/
theorem roundWithAccuracy_eq_nearest {q : ℚ} (hq : 0 < q) {m : ℕ} {e : ℤ} {accuracy : Accuracy}
    (htracks : Tracks (.ofMantissaAndAccuracy m accuracy) (q / 2 ^ e)) (he : e ≤ lastPlace q) :
    roundWithAccuracy Format.binary64 .positive m e accuracy = nearest q := by
  have hmantissa : (ExtendedMantissa.ofMantissaAndAccuracy m accuracy).mantissa = m := by
    rcases accuracy with _ | (_ | _ | _) <;> rfl
  have hfloor := htracks.floor_eq
  rw [hmantissa] at hfloor
  have hnonneg : 0 ≤ q / 2 ^ e := by positivity
  have htarget : Format.binary64.targetExponent (totalExponent m e) = lastPlace q := by
    apply targetExponent_eq hq _ _ he
    · rw [← hfloor]
      exact Nat.floor_le hnonneg
    · rw [← hfloor]
      exact Nat.lt_floor_add_one _
  -- the first shift goes to the last place and rounds there
  have hfirst : ∃ em, shiftToTargetExponent Format.binary64 m e accuracy = (em, lastPlace q) ∧
      em.roundedMantissa = halfEven (q / 2 ^ lastPlace q) := by
    refine ⟨_, ?_, (htracks.shiftRight (lastPlace q - e).toNat).roundedMantissa_eq.trans ?_⟩
    · unfold shiftToTargetExponent
      rw [htarget]
      simp only [shiftToExponent]
      rw [Int.toNat_of_nonneg (by omega)]
      simp
    · have hpow : (2 : ℚ) ^ e * 2 ^ (lastPlace q - e).toNat = 2 ^ lastPlace q := by
        rw [← zpow_natCast, Int.toNat_of_nonneg (by omega), ← zpow_add₀ (by norm_num)]
        congr 1
        omega
      rw [div_div, hpow]
  obtain ⟨em, hshift, hrounded⟩ := hfirst
  have hle : halfEven (q / 2 ^ lastPlace q) ≤ 2 ^ 53 :=
    halfEven_le (by positivity) (by exact_mod_cast (lt_two_zpow_lastPlace q).le)
  have hsecond := shiftToTargetExponent_exact hle (t := lastPlace q) (le_max_right _ _)
  unfold roundWithAccuracy
  rw [hshift]
  dsimp only
  rw [hrounded, hsecond, nearest, carried]
  by_cases hlt : halfEven (q / 2 ^ lastPlace q) < 2 ^ 53
  · rw [if_pos hlt]
    by_cases hzero : halfEven (q / 2 ^ lastPlace q) = 0
    · rw [dif_pos hzero, dif_pos hzero]
    · rw [dif_neg hzero, dif_neg hzero, if_pos hlt]
  · have hne : halfEven (q / 2 ^ lastPlace q) ≠ 0 := by omega
    rw [if_neg hlt, dif_neg hne, if_neg hlt]
    rfl

/-! ## Operations -/

/-- A whole number tracks itself. -/
theorem tracks_natCast (m : ℕ) : Tracks (.ofMantissaAndAccuracy m .exact) m := by
  refine ⟨0, le_rfl, by norm_num, ?_, ?_⟩
  · simp [ExtendedMantissa.ofMantissaAndAccuracy]
  · simp [ExtendedMantissa.ofMantissaAndAccuracy]

/-- The magnitude of a number in mantissa and exponent. -/
theorem log_mul_zpow {m : ℕ} (hm : 0 < m) (e : ℤ) : Int.log 2 ((m : ℚ) * 2 ^ e) = m.log2 + e := by
  have hself : (2 : ℚ) ^ m.log2 ≤ m := by exact_mod_cast Nat.log2_self_le (Nat.ne_of_gt hm)
  have hnext : (m : ℚ) < 2 ^ (m.log2 + 1) := by exact_mod_cast Nat.lt_log2_self
  have htwo : (0 : ℚ) < 2 ^ e := by positivity
  apply log_eq
  · rw [zpow_add₀ (by norm_num), zpow_natCast]
    exact mul_le_mul_of_nonneg_right hself htwo.le
  · have hsum : (m.log2 : ℤ) + e + 1 = ((m.log2 + 1 : ℕ) : ℤ) + e := by push_cast; ring
    rw [hsum, zpow_add₀ (by norm_num), zpow_natCast]
    exact mul_lt_mul_of_pos_right hnext htwo

/-- An exact number that is no finer than the last place is rounded to the nearest. -/
theorem roundWithAccuracy_exact {m : ℕ} (hm : 0 < m) {e : ℤ} (he : e ≤ lastPlace (m * 2 ^ e)) :
    roundWithAccuracy Format.binary64 .positive m e .exact = nearest (m * 2 ^ e) := by
  have hpos : (0 : ℚ) < m := by exact_mod_cast hm
  apply roundWithAccuracy_eq_nearest (by positivity) _ he
  rw [mul_div_assoc, div_self (by positivity), mul_one]
  exact tracks_natCast m

/-- Rounding gives the nearest number. -/
theorem round_eq_nearest {m : ℕ} (hm : 0 < m) (e : ℤ) :
    UnpackedFloat.round Format.binary64 .positive m e = nearest (m * 2 ^ e) := by
  have htarget : Format.binary64.targetExponent (totalExponent m e) = lastPlace (m * 2 ^ e) := by
    rw [lastPlace, log_mul_zpow hm, targetExponent_totalExponent]
  unfold UnpackedFloat.round decreaseExponent
  rw [htarget]
  dsimp only
  rw [Nat.shiftLeft_eq]
  -- the mantissa grows as the exponent falls
  generalize hshift : (e - lastPlace (m * 2 ^ e)).toNat = shift
  have hvalue : ((m * 2 ^ shift : ℕ) : ℚ) * 2 ^ (e - shift) = m * 2 ^ e := by
    rw [zpow_sub₀ (by norm_num), zpow_natCast]
    push_cast
    field_simp
  rw [← hvalue]
  apply roundWithAccuracy_exact (by positivity)
  rw [hvalue]
  omega

/-- Multiplication gives the number nearest to the exact product. -/
theorem mul_eq_nearest {m₁ m₂ : ℕ} (h₁ : 0 < m₁) (h₂ : 0 < m₂) (e₁ e₂ : ℤ)
    (hbits : 2 ^ 52 ≤ m₁ * m₂) :
    UnpackedFloat.mul Format.binary64 (.finite .positive m₁ e₁ h₁) (.finite .positive m₂ e₂ h₂) =
      nearest ((m₁ * 2 ^ e₁) * (m₂ * 2 ^ e₂)) := by
  have hm : 0 < m₁ * m₂ := Nat.mul_pos h₁ h₂
  have hvalue : ((m₁ : ℚ) * 2 ^ e₁) * (m₂ * 2 ^ e₂) = ((m₁ * m₂ : ℕ) : ℚ) * 2 ^ (e₁ + e₂) := by
    rw [zpow_add₀ (by norm_num)]
    push_cast
    ring
  have hlog : 52 ≤ (m₁ * m₂).log2 := (Nat.le_log2 (Nat.ne_of_gt hm)).mpr hbits
  rw [hvalue]
  apply roundWithAccuracy_exact hm
  rw [lastPlace, log_mul_zpow hm]
  omega

/-- Quotient and remainder track the exact fraction. -/
theorem tracks_quotient {n d : ℕ} (hd : 0 < d) :
    Tracks (.ofMantissaAndAccuracy (n / d) (accuracyOfFraction (n % d) d)) ((n : ℚ) / d) := by
  have hd' : (0 : ℚ) < d := by exact_mod_cast hd
  have hsplit : (n : ℚ) / d = (n / d : ℕ) + (n % d : ℕ) / d := by
    have hdivision : (n : ℚ) = d * (n / d : ℕ) + (n % d : ℕ) := by
      exact_mod_cast (Nat.div_add_mod n d).symm
    field_simp
    linarith
  have hless : ((n % d : ℕ) : ℚ) < d := by exact_mod_cast Nat.mod_lt n hd
  -- the rest is compared with half of the divisor, which sets the two bits
  rw [hsplit]
  generalize n % d = r at hless
  unfold accuracyOfFraction
  by_cases hzero : r = 0
  · rw [if_pos hzero, hzero]
    exact ⟨0, le_rfl, by norm_num, by simp [ExtendedMantissa.ofMantissaAndAccuracy],
      by simp [ExtendedMantissa.ofMantissaAndAccuracy]⟩
  · have hpos : (0 : ℚ) < r / d := by
      have : (0 : ℚ) < r := by exact_mod_cast Nat.pos_of_ne_zero hzero
      positivity
    have hone : (r : ℚ) / d < 1 := by rwa [div_lt_one hd']
    rw [if_neg hzero]
    rcases hcompare : compare (2 * r) d with _ | _ | _
    · have hhalf : (r : ℚ) / d < 1 / 2 := by
        have hlt : 2 * r < d := Nat.compare_eq_lt.mp hcompare
        rw [div_lt_div_iff₀ hd' (by norm_num)]
        have : (2 * r : ℚ) < d := by exact_mod_cast hlt
        linarith
      exact ⟨r / d, hpos.le, hhalf, by simp [ExtendedMantissa.ofMantissaAndAccuracy, hpos],
        by simp [ExtendedMantissa.ofMantissaAndAccuracy]⟩
    · have hhalf : (r : ℚ) / d = 1 / 2 := by
        have heq : 2 * r = d := Nat.compare_eq_eq.mp hcompare
        rw [div_eq_div_iff (ne_of_gt hd') (by norm_num)]
        have : (2 * r : ℚ) = d := by exact_mod_cast heq
        linarith
      exact ⟨0, le_rfl, by norm_num, by simp [ExtendedMantissa.ofMantissaAndAccuracy],
        by simp [ExtendedMantissa.ofMantissaAndAccuracy, hhalf]⟩
    · have hhalf : 1 / 2 < (r : ℚ) / d := by
        have hgt : d < 2 * r := Nat.compare_eq_gt.mp hcompare
        rw [div_lt_div_iff₀ (by norm_num) hd']
        have : (d : ℚ) < 2 * r := by exact_mod_cast hgt
        linarith
      refine ⟨r / d - 1 / 2, by linarith, by linarith, ?_, ?_⟩
      · simp only [ExtendedMantissa.ofMantissaAndAccuracy, true_iff]
        linarith
      · simp only [ExtendedMantissa.ofMantissaAndAccuracy, ↓reduceIte]
        ring

/-- The quotient of two numbers has at least the difference of their magnitudes, less one. -/
theorem le_log_quotient {m₁ m₂ : ℕ} (h₁ : 0 < m₁) (h₂ : 0 < m₂) (e : ℤ) :
    (m₁.log2 : ℤ) - m₂.log2 - 1 + e ≤ Int.log 2 ((m₁ : ℚ) / m₂ * 2 ^ e) := by
  have hpos₁ : (0 : ℚ) < m₁ := by exact_mod_cast h₁
  have hpos₂ : (0 : ℚ) < m₂ := by exact_mod_cast h₂
  have hself : (2 : ℚ) ^ m₁.log2 ≤ m₁ := by exact_mod_cast Nat.log2_self_le (Nat.ne_of_gt h₁)
  have hnext : (m₂ : ℚ) ≤ 2 ^ (m₂.log2 + 1) := by exact_mod_cast Nat.lt_log2_self.le
  rw [← Int.zpow_le_iff_le_log (by decide) (by positivity)]
  have hexponent : (m₁.log2 : ℤ) - m₂.log2 - 1 + e =
      (m₁.log2 : ℤ) - ((m₂.log2 + 1 : ℕ) : ℤ) + e := by
    push_cast
    ring
  rw [hexponent, zpow_add₀ (by norm_num), zpow_sub₀ (by norm_num), zpow_natCast, zpow_natCast]
  push_cast
  gcongr

/-- Division gives the number nearest to the exact quotient. -/
theorem div_eq_nearest {m₁ m₂ : ℕ} (h₁ : 0 < m₁) (h₂ : 0 < m₂) (e₁ e₂ : ℤ) :
    UnpackedFloat.div Format.binary64 (.finite .positive m₁ e₁ h₁) (.finite .positive m₂ e₂ h₂) =
      nearest ((m₁ * 2 ^ e₁) / (m₂ * 2 ^ e₂)) := by
  have hpos₁ : (0 : ℚ) < m₁ := by exact_mod_cast h₁
  have hpos₂ : (0 : ℚ) < m₂ := by exact_mod_cast h₂
  have hquotient : ((m₁ : ℚ) * 2 ^ e₁) / (m₂ * 2 ^ e₂) = m₁ / m₂ * 2 ^ (e₁ - e₂) := by
    rw [zpow_sub₀ (by norm_num)]
    field_simp
  have hlog := le_log_quotient h₁ h₂ (e₁ - e₂)
  rw [hquotient]
  have htarget : Format.binary64.targetExponent (totalExponent m₁ e₁ - totalExponent m₂ e₂) =
      max (m₁.log2 + e₁ - (m₂.log2 + e₂) - 53) (-1074) := by
    change max ((m₁.log2 + 1 : ℤ) + e₁ - (m₂.log2 + 1 + e₂) - 53) (-1074) = _
    omega
  unfold UnpackedFloat.div divCore
  dsimp only
  rw [htarget]
  generalize ht : min (e₁ - e₂) (max (m₁.log2 + e₁ - (m₂.log2 + e₂) - 53) (-1074)) = t
  show roundWithAccuracy Format.binary64 .positive _ t _ = _
  -- the quotient keeps the bits down to `2 ^ t`
  apply roundWithAccuracy_eq_nearest (by positivity)
  · have hscaled : (m₁ : ℚ) / m₂ * 2 ^ (e₁ - e₂) / 2 ^ t =
        ((m₁ <<< (e₁ - e₂ - t).toNat : ℕ) : ℚ) / m₂ := by
      have hshift : (2 : ℚ) ^ (e₁ - e₂) = 2 ^ (e₁ - e₂ - t).toNat * 2 ^ t := by
        rw [← zpow_natCast, Int.toNat_of_nonneg (by omega), ← zpow_add₀ (by norm_num)]
        congr 1
        omega
      rw [Nat.shiftLeft_eq, hshift]
      push_cast
      field_simp
    rw [hscaled]
    exact tracks_quotient h₂
  · unfold lastPlace
    omega

/-! ## Exact numbers -/

/-- A mantissa and an exponent as they stand in a packed number. -/
structure Canonical (m : ℕ) (e : ℤ) : Prop where
  pos : 0 < m
  lt : m < 2 ^ 53
  le : -1074 ≤ e
  full : 2 ^ 52 ≤ m ∨ e = -1074

/-- A whole number is not changed by rounding. -/
theorem halfEven_natCast (n : ℕ) : halfEven n = n := by
  simp [halfEven]

/-- A number is the nearest to itself. -/
theorem nearest_of_canonical {m : ℕ} {e : ℤ} (h : Canonical m e) :
    nearest (m * 2 ^ e) = .finite .positive m e h.pos := by
  have hlog : m.log2 ≤ 52 := by
    have := (Nat.log2_lt (Nat.ne_of_gt h.pos)).mpr h.lt
    omega
  have hplace : lastPlace (m * 2 ^ e) = e := by
    rw [lastPlace, log_mul_zpow h.pos]
    have hle := h.le
    rcases h.full with hfull | rfl
    · have := (Nat.le_log2 (Nat.ne_of_gt h.pos)).mpr hfull
      omega
    · omega
  rw [nearest, hplace, mul_div_assoc, div_self (by positivity), mul_one, halfEven_natCast, carried,
    dif_neg (Nat.ne_of_gt h.pos), if_pos h.lt]

end Oberon.Binary64
