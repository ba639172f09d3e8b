import Oberon.Decimal.Text
import Oberon.Proofs.Decimal.Packing

/-!
# Literals of reals read back

The binary64 number of a decimal is the one nearest to its value, so decimals of one value read
alike.  Main statement: the literal text of a finite real without a minus sign reads as that real.
-/

namespace Oberon

namespace Binary64

open Float.Model Float.Model.UnpackedFloat

/-! ## Operands that are exact -/

def toFloat (u : UnpackedFloat) : Float :=
  .ofModel (.pack u)

/-- Unpacking loses nothing. -/
theorem toFloat_unpack (x : Float) : toFloat x.toModel.unpack = x := by
  obtain ⟨model⟩ := x
  unfold toFloat
  rw [pack_unpack]

/-- A float that is unpacked as a positive number with all bits and the given value. -/
def IsExact (x : Float) (q : ℚ) : Prop :=
  ∃ m e, ∃ hm : 0 < m, x.toModel.unpack = .finite .positive m e hm ∧ 2 ^ 52 ≤ m ∧
    (m : ℚ) * 2 ^ e = q

/-- Whole numbers below `2 ^ 53` are exact. -/
theorem isExact_natCast {n : ℕ} (hn : 0 < n) (hlt : n < 2 ^ 53) : IsExact n.toUInt64.toFloat n := by
  have hlog : n.log2 ≤ 52 := by
    have := (Nat.log2_lt (Nat.ne_of_gt hn)).mpr hlt
    omega
  have hcast : n.toUInt64.toNat = n := by
    simp
    omega
  -- all bits of the mantissa are used
  have hself : 2 ^ n.log2 ≤ n := Nat.log2_self_le (Nat.ne_of_gt hn)
  have hnext : n < 2 ^ (n.log2 + 1) := Nat.lt_log2_self
  have hfull : 2 ^ 52 ≤ n * 2 ^ (52 - n.log2) := by
    calc 2 ^ 52 = 2 ^ n.log2 * 2 ^ (52 - n.log2) := by rw [← pow_add]; congr 1; omega
      _ ≤ n * 2 ^ (52 - n.log2) := Nat.mul_le_mul_right _ hself
  have hbound : n * 2 ^ (52 - n.log2) < 2 ^ 53 := by
    calc n * 2 ^ (52 - n.log2) < 2 ^ (n.log2 + 1) * 2 ^ (52 - n.log2) :=
          Nat.mul_lt_mul_of_pos_right hnext (by positivity)
      _ = 2 ^ 53 := by rw [← pow_add]; congr 1; omega
  have hvalue : ((n * 2 ^ (52 - n.log2) : ℕ) : ℚ) * 2 ^ ((n.log2 : ℤ) - 52) = n := by
    have hexponent : (n.log2 : ℤ) - 52 = -((52 - n.log2 : ℕ) : ℤ) := by omega
    rw [hexponent, zpow_neg, zpow_natCast]
    push_cast
    field_simp
  have hcanonical : Canonical (n * 2 ^ (52 - n.log2)) (n.log2 - 52) :=
    ⟨by positivity, hbound, by omega, .inl hfull⟩
  refine ⟨_, _, hcanonical.pos, ?_, hfull, hvalue⟩
  have hround : UnpackedFloat.ofUInt64 Format.binary64 n.toUInt64 = nearest n := by
    have hcompare : compare (n : ℤ) 0 = .gt := by
      rw [Int.compare_eq_gt]
      omega
    unfold UnpackedFloat.ofUInt64 UnpackedFloat.ofNat UnpackedFloat.ofInt UnpackedFloat.normalize
    rw [hcast, hcompare]
    show UnpackedFloat.round Format.binary64 .positive ((n : ℤ).toNat) 0 = nearest n
    rw [Int.toNat_natCast, round_eq_nearest hn, zpow_zero, mul_one]
  show UnpackedFloat.unpack Format.binary64 (UnpackedFloat.pack Format.binary64
    (UnpackedFloat.ofUInt64 Format.binary64 n.toUInt64)) = _
  rw [hround, ← hvalue, nearest_of_canonical hcanonical, unpack_pack hcanonical (by omega)]

def isPowerOfTen (u : UnpackedFloat) (k : ℕ) : Bool :=
  match u with
  | .finite .positive m e _ =>
    decide (2 ^ 52 ≤ m) &&
      if 0 ≤ e then decide (m * 2 ^ e.toNat = 10 ^ k) else decide (m = 10 ^ k * 2 ^ (-e).toNat)
  | _ => false

theorem isExact_of_isPowerOfTen {x : Float} {k : ℕ} (h : isPowerOfTen x.toModel.unpack k = true) :
    IsExact x (10 ^ k) := by
  unfold isPowerOfTen at h
  split at h
  next m e hm hunpack =>
    rw [Bool.and_eq_true, decide_eq_true_eq] at h
    refine ⟨m, e, hm, hunpack, h.1, ?_⟩
    have hvalue := h.2
    split at hvalue
    next hnonneg =>
      rw [decide_eq_true_eq] at hvalue
      rw [← Int.toNat_of_nonneg hnonneg, zpow_natCast]
      exact_mod_cast hvalue
    next hneg =>
      rw [decide_eq_true_eq] at hvalue
      have hexponent : e = -((-e).toNat : ℤ) := by omega
      rw [hexponent, zpow_neg, zpow_natCast]
      have hvalue' : (m : ℚ) = 10 ^ k * 2 ^ (-e).toNat := by exact_mod_cast hvalue
      rw [hvalue']
      field_simp
  next => cases h

/-- Each entry of the table is the power of ten that it stands for. -/
theorem isPowerOfTen_table : ∀ k : Fin 23,
    isPowerOfTen ((Float.exactlyRepresentablePowersOfTen[k]).toModel.unpack) k = true := by
  decide +kernel

/-! ## Products and quotients of exact numbers -/

/-- A product of exact numbers is rounded once. -/
theorem mul_of_isExact {x y : Float} {q r : ℚ} (hx : IsExact x q) (hy : IsExact y r) :
    x * y = toFloat (nearest (q * r)) := by
  obtain ⟨m₁, e₁, h₁, hunpack₁, hbits₁, rfl⟩ := hx
  obtain ⟨m₂, e₂, h₂, hunpack₂, hbits₂, rfl⟩ := hy
  have hbits : 2 ^ 52 ≤ m₁ * m₂ := Nat.le_trans hbits₁ (Nat.le_mul_of_pos_right m₁ h₂)
  show toFloat (UnpackedFloat.mul Format.binary64 x.toModel.unpack y.toModel.unpack) = _
  rw [hunpack₁, hunpack₂, mul_eq_nearest h₁ h₂ e₁ e₂ hbits]

/-- A quotient of exact numbers is rounded once. -/
theorem div_of_isExact {x y : Float} {q r : ℚ} (hx : IsExact x q) (hy : IsExact y r) :
    x / y = toFloat (nearest (q / r)) := by
  obtain ⟨m₁, e₁, h₁, hunpack₁, -, rfl⟩ := hx
  obtain ⟨m₂, e₂, h₂, hunpack₂, -, rfl⟩ := hy
  show toFloat (UnpackedFloat.div Format.binary64 x.toModel.unpack y.toModel.unpack) = _
  rw [hunpack₁, hunpack₂, div_eq_nearest h₁ h₂ e₁ e₂]

theorem zero_mul_of_isExact {x y : Float} {r : ℚ} (hx : x.toModel.unpack = .zero .positive)
    (hy : IsExact y r) : x * y = toFloat (.zero .positive) := by
  obtain ⟨m, e, hm, hunpack, -⟩ := hy
  show toFloat (UnpackedFloat.mul Format.binary64 x.toModel.unpack y.toModel.unpack) = _
  rw [hx, hunpack]
  rfl

theorem zero_div_of_isExact {x y : Float} {r : ℚ} (hx : x.toModel.unpack = .zero .positive)
    (hy : IsExact y r) : x / y = toFloat (.zero .positive) := by
  obtain ⟨m, e, hm, hunpack, -⟩ := hy
  show toFloat (UnpackedFloat.div Format.binary64 x.toModel.unpack y.toModel.unpack) = _
  rw [hx, hunpack]
  rfl

/-- Wherever the exponent is not cut off, the conversion rounds once. -/
theorem ofScientific_unpacked {m : ℕ} (hm : 0 < m) {e : ℤ} (hhigh : e ≤ 2048)
    (hlow : -(2048 + (m.log2 : ℤ)) ≤ e) :
    UnpackedFloat.ofScientific Format.binary64 m e = nearest (m * 10 ^ e) := by
  have hpos : (0 : ℚ) < m := by exact_mod_cast hm
  unfold UnpackedFloat.ofScientific
  rw [dif_neg (Nat.ne_of_gt hm), if_neg (by norm_num; omega), if_neg (by norm_num; omega)]
  by_cases hnonneg : 0 ≤ e
  · -- shifted by the width of a mantissa, the product has enough bits to be rounded
    have hbits : 2 ^ 52 ≤ (m <<< Format.binary64.mantissaBits) * 10 ^ e.toNat := by
      have hten : 1 ≤ 10 ^ e.toNat := Nat.one_le_pow _ _ (by decide)
      calc 2 ^ 52 ≤ 1 * 2 ^ 53 * 1 := by norm_num
        _ ≤ m * 2 ^ 53 * 10 ^ e.toNat := Nat.mul_le_mul (Nat.mul_le_mul_right _ hm) hten
        _ = (m <<< Format.binary64.mantissaBits) * 10 ^ e.toNat := by rw [Nat.shiftLeft_eq]; rfl
    have hvalue : ((m <<< Format.binary64.mantissaBits : ℕ) : ℚ) *
        2 ^ (-(Format.binary64.mantissaBits : ℤ)) = m := by
      rw [Nat.shiftLeft_eq, zpow_neg, zpow_natCast]
      push_cast
      field_simp
    have hten : ((10 ^ e.toNat : ℕ) : ℚ) * 2 ^ (0 : ℤ) = 10 ^ e := by
      rw [zpow_zero, mul_one, Nat.cast_pow, ← zpow_natCast, Int.toNat_of_nonneg hnonneg]
      rfl
    rw [if_pos hnonneg, mul_eq_nearest _ _ _ _ hbits, hvalue, hten]
  · -- a negative exponent divides by a power of ten, which is exact
    have hten : ((10 ^ (-e).toNat : ℕ) : ℚ) = (10 ^ e)⁻¹ := by
      rw [Nat.cast_pow, ← zpow_natCast, Int.toNat_of_nonneg (by omega), zpow_neg]
      rfl
    rw [if_neg hnonneg, div_eq_nearest, hten, zpow_zero, mul_one, mul_one, div_inv_eq_mul]

/-- Numbers below half the smallest one round to zero. -/
theorem nearest_of_small {q : ℚ} (hpos : 0 < q) (hsmall : q < 2 ^ (-1075 : ℤ)) :
    nearest q = .zero .positive := by
  have hlog : Int.log 2 q < -1075 :=
    (Int.lt_zpow_iff_log_lt (by decide) hpos).mp (by exact_mod_cast hsmall)
  have hplace : lastPlace q = -1074 := max_eq_right (by omega)
  have hhalf : q / 2 ^ (-1074 : ℤ) < 1 / 2 := by
    rw [div_lt_iff₀ (by positivity)]
    calc q < 2 ^ (-1 + -1074 : ℤ) := hsmall
      _ = 1 / 2 * 2 ^ (-1074 : ℤ) := by rw [zpow_add₀ two_ne_zero, zpow_neg_one, one_div]
  have hfloor : ⌊q / 2 ^ (-1074 : ℤ)⌋₊ = 0 := Nat.floor_eq_zero.mpr (by linarith)
  have hround : halfEven (q / 2 ^ lastPlace q) = 0 := by
    rw [hplace, halfEven, hfloor, Nat.cast_zero, sub_zero, if_pos (by linarith)]
  rw [nearest, hround]
  rfl

theorem le_halfEven {y : ℚ} {n : ℕ} (h : n ≤ y) : n ≤ halfEven y := by
  have hfloor : n ≤ ⌊y⌋₊ := Nat.le_floor h
  unfold halfEven
  split
  · exact hfloor
  · split <;> omega

/-- The power of two behind the largest number and all that is beyond it are packed as
infinity. -/
theorem toFloat_nearest_of_large {q : ℚ} (h : 2 ^ 1024 ≤ q) :
    toFloat (nearest q) = toFloat (.infinity .positive) := by
  have hpos : 0 < q := lt_of_lt_of_le (by positivity) h
  have hlog : 1024 ≤ Int.log 2 q :=
    (Int.zpow_le_iff_le_log (by decide) hpos).mp (by exact_mod_cast h)
  have hplace : lastPlace q = Int.log 2 q - 52 := max_eq_left (by omega)
  -- the significand has all its bits, so the exponent tells how large the number is
  have hfull : 2 ^ 52 ≤ halfEven (q / 2 ^ lastPlace q) := by
    apply le_halfEven
    rw [le_div_iff₀ (by positivity)]
    calc ((2 ^ 52 : ℕ) : ℚ) * 2 ^ lastPlace q = 2 ^ (52 + lastPlace q) := by
          rw [zpow_add₀ two_ne_zero]
          norm_num
      _ ≤ 2 ^ Int.log 2 q := zpow_le_zpow_right₀ one_le_two (by omega)
      _ ≤ q := Int.zpow_log_le_self (by decide) hpos
  have hinfinite {m : ℕ} {e : ℤ} (hm : 0 < m) (he : 972 ≤ e) :
      toFloat (.finite .positive m e hm) = toFloat (.infinity .positive) := by
    have hpack : pack Format.binary64 (.finite .positive m e hm) =
        packedInfinity Format.binary64 .positive := by
      show (if 2 ^ 11 ≤ (e + (1023 : ℕ) + (52 : ℕ)).toNat + 1 then
        packedInfinity Format.binary64 .positive else _) = _
      rw [if_pos (by omega)]
    exact congrArg Float.ofModel (model_eq_of_toBits (congrArg UInt64.ofBitVec hpack))
  rw [nearest, carried, dif_neg (by omega)]
  -- rounding up may carry into the next power of two, which is even larger
  by_cases hcarry : halfEven (q / 2 ^ lastPlace q) < 2 ^ 53
  · rw [if_pos hcarry]
    exact hinfinite _ (by omega)
  · rw [if_neg hcarry]
    exact hinfinite _ (by omega)

end Binary64

/-! ## Decimals -/

namespace Decimal

open Binary64 Float.Model Float.Model.UnpackedFloat

def value (d : Decimal) : ℚ :=
  d.coefficient * 10 ^ d.exponent

/-- A decimal whose exponent is not beyond all numbers reads as the number nearest to its
value. -/
theorem toFloat_eq_nearest {d : Decimal} (hpos : 0 < d.coefficient) (hhigh : d.exponent ≤ 2048)
    (hlow : -(2048 + (d.coefficient.log2 : ℤ)) ≤ d.exponent) :
    d.toFloat = Binary64.toFloat (nearest d.value) := by
  obtain ⟨c, e⟩ := d
  unfold toFloat value
  by_cases hnonneg : 0 ≤ e
  · rw [if_pos hnonneg]
    have hten : (10 : ℚ) ^ e = 10 ^ e.toNat := by
      rw [← zpow_natCast, Int.toNat_of_nonneg hnonneg]
    -- a short coefficient and a small power are exact, so one operation rounds once
    by_cases hfast : c < 2 ^ 53 ∧ e.toNat ≤ 22
    · have hpower := isExact_of_isPowerOfTen (isPowerOfTen_table ⟨e.toNat, by omega⟩)
      rw [Float.ofScientific, dif_pos hfast]
      simp only [Bool.false_eq_true, ↓reduceIte]
      rw [hten]
      exact mul_of_isExact (isExact_natCast hpos hfast.1) hpower
    · rw [Float.ofScientific, dif_neg hfast]
      show Binary64.toFloat (UnpackedFloat.ofScientific Format.binary64 c (e.toNat : ℤ)) = _
      rw [Int.toNat_of_nonneg hnonneg, ofScientific_unpacked hpos hhigh hlow]
  · rw [if_neg hnonneg]
    have hten : (10 : ℚ) ^ e = (10 ^ (-e).toNat)⁻¹ := by
      rw [← zpow_natCast, Int.toNat_of_nonneg (by omega), zpow_neg, inv_inv]
    by_cases hfast : c < 2 ^ 53 ∧ (-e).toNat ≤ 22
    · have hpower := isExact_of_isPowerOfTen (isPowerOfTen_table ⟨(-e).toNat, by omega⟩)
      rw [Float.ofScientific, dif_pos hfast]
      simp only [↓reduceIte]
      rw [hten, ← div_eq_mul_inv]
      exact div_of_isExact (isExact_natCast hpos hfast.1) hpower
    · have hneg : Int.negOfNat (-e).toNat = e := by
        rw [Int.negOfNat_eq]
        show -((-e).toNat : ℤ) = e
        omega
      rw [Float.ofScientific, dif_neg hfast]
      simp only [↓reduceIte]
      show Binary64.toFloat (UnpackedFloat.ofScientific Format.binary64 c
          (Int.negOfNat (-e).toNat)) = _
      rw [hneg, ofScientific_unpacked hpos hhigh hlow]

theorem unpack_toFloat_zero :
    (Binary64.toFloat (.zero .positive)).toModel.unpack = .zero .positive :=
  rfl

theorem unpack_toFloat_infinity :
    (Binary64.toFloat (.infinity .positive)).toModel.unpack = .infinity .positive :=
  rfl

theorem toFloat_of_coefficient_zero (e : ℤ) :
    (⟨0, e⟩ : Decimal).toFloat = Binary64.toFloat (.zero .positive) := by
  have hzero : (0 : ℕ).toUInt64.toFloat.toModel.unpack = .zero .positive := rfl
  unfold toFloat
  by_cases hnonneg : 0 ≤ e
  · rw [if_pos hnonneg]
    by_cases hfast : 0 < 2 ^ 53 ∧ e.toNat ≤ 22
    · have hpower := isExact_of_isPowerOfTen (isPowerOfTen_table ⟨e.toNat, by omega⟩)
      rw [Float.ofScientific, dif_pos hfast]
      exact zero_mul_of_isExact hzero hpower
    · rw [Float.ofScientific, dif_neg hfast]
      rfl
  · rw [if_neg hnonneg]
    by_cases hfast : 0 < 2 ^ 53 ∧ (-e).toNat ≤ 22
    · have hpower := isExact_of_isPowerOfTen (isPowerOfTen_table ⟨(-e).toNat, by omega⟩)
      rw [Float.ofScientific, dif_pos hfast]
      exact zero_div_of_isExact hzero hpower
    · rw [Float.ofScientific, dif_neg hfast]
      rfl

/-- Exponents that are far too large give infinity. -/
theorem toFloat_of_large {d : Decimal} (hpos : 0 < d.coefficient) (hlarge : 2048 < d.exponent) :
    d.toFloat = Binary64.toFloat (.infinity .positive) := by
  obtain ⟨c, e⟩ := d
  have hlarge : 2048 < e := hlarge
  unfold toFloat
  rw [if_pos (by omega : 0 ≤ e), Float.ofScientific, dif_neg (by omega)]
  show Binary64.toFloat (UnpackedFloat.ofScientific Format.binary64 c (e.toNat : ℤ)) = _
  unfold UnpackedFloat.ofScientific
  rw [dif_neg (Nat.ne_of_gt hpos), if_pos (by norm_num; omega)]

/-- Exponents that are far too small give zero. -/
theorem toFloat_of_small {d : Decimal} (hpos : 0 < d.coefficient)
    (hsmall : d.exponent < -(2048 + (d.coefficient.log2 : ℤ))) :
    d.toFloat = Binary64.toFloat (.zero .positive) := by
  obtain ⟨c, e⟩ := d
  have hsmall : e < -(2048 + (c.log2 : ℤ)) := hsmall
  have hneg : Int.negOfNat (-e).toNat = e := by
    rw [Int.negOfNat_eq]
    show -((-e).toNat : ℤ) = e
    omega
  unfold toFloat
  rw [if_neg (by omega : ¬ 0 ≤ e), Float.ofScientific, dif_neg (by omega)]
  show Binary64.toFloat (UnpackedFloat.ofScientific Format.binary64 c (Int.negOfNat (-e).toNat)) = _
  unfold UnpackedFloat.ofScientific
  rw [hneg, dif_neg (Nat.ne_of_gt hpos), if_neg (by norm_num; omega), if_pos (by norm_num; omega)]

/-- A value with such an exponent is below half of the smallest number. -/
theorem value_lt_of_small {d : Decimal}
    (hsmall : d.exponent < -(2048 + (d.coefficient.log2 : ℤ))) : d.value < 2 ^ (-1075 : ℤ) := by
  obtain ⟨c, e⟩ := d
  have hcoefficient : (c : ℚ) < 2 ^ ((c.log2 : ℤ) + 1) := by
    exact_mod_cast Nat.lt_log2_self (n := c)
  obtain ⟨n, rfl⟩ : ∃ n : ℕ, e = -n := ⟨(-e).toNat, by dsimp only at hsmall; omega⟩
  have hpower : (10 : ℚ) ^ (-n : ℤ) ≤ 2 ^ (-n : ℤ) := by
    rw [zpow_neg, zpow_neg, zpow_natCast, zpow_natCast]
    exact inv_anti₀ (by positivity) (pow_le_pow_left₀ (by norm_num) (by norm_num) n)
  calc (c : ℚ) * 10 ^ (-n : ℤ) ≤ c * 2 ^ (-n : ℤ) := by gcongr
    _ < 2 ^ ((c.log2 : ℤ) + 1) * 2 ^ (-n : ℤ) := by gcongr
    _ = 2 ^ ((c.log2 : ℤ) + 1 + -n) := (zpow_add₀ two_ne_zero _ _).symm
    _ ≤ 2 ^ (-1075 : ℤ) := zpow_le_zpow_right₀ one_le_two (by dsimp only at hsmall; omega)

/-- A decimal is read as the number nearest to its value. -/
theorem toFloat_eq_nearest_of_le {d : Decimal} (hpos : 0 < d.coefficient)
    (hhigh : d.exponent ≤ 2048) :
    d.toFloat = Binary64.toFloat (nearest d.value) := by
  by_cases hlow : -(2048 + (d.coefficient.log2 : ℤ)) ≤ d.exponent
  · exact toFloat_eq_nearest hpos hhigh hlow
  · have hsmall : d.exponent < -(2048 + (d.coefficient.log2 : ℤ)) := by omega
    have hvalue : 0 < d.value := by
      unfold value
      positivity
    rw [toFloat_of_small hpos hsmall, nearest_of_small hvalue (value_lt_of_small hsmall)]

/-- A decimal that is read as a finite number has an exponent in range. -/
theorem exponent_lt_of_isFinite {d : Decimal} (hpos : 0 < d.coefficient)
    (h : d.toFloat.isFinite = true) : d.exponent < 2048 := by
  by_contra hlarge
  rw [not_lt] at hlarge
  rcases hlarge.lt_or_eq with hlarge | hlimit
  · rw [toFloat_of_large hpos hlarge] at h
    cases h
  · have hcoefficient : (1 : ℚ) ≤ d.coefficient := by exact_mod_cast hpos
    have hvalue : 2 ^ 1024 ≤ d.value := by
      calc (2 : ℚ) ^ 1024 ≤ 10 ^ 1024 := pow_le_pow_left₀ (by norm_num) (by norm_num) _
        _ ≤ 1 * 10 ^ (2048 : ℤ) := by
          rw [one_mul]
          exact pow_le_pow_right₀ (by norm_num) (by norm_num : 1024 ≤ 2048)
        _ ≤ d.coefficient * 10 ^ d.exponent := by rw [← hlimit]; gcongr
    rw [toFloat_eq_nearest_of_le hpos hlimit.ge, toFloat_nearest_of_large hvalue] at h
    cases h

/-- A zero behind the last place does not change the number that is read. -/
theorem toFloat_tenfold {c : ℕ} {e : ℤ} (hhigh : 0 < c → e ≤ 2048) :
    (⟨10 * c, e - 1⟩ : Decimal).toFloat = (⟨c, e⟩ : Decimal).toFloat := by
  rcases Nat.eq_zero_or_pos c with rfl | hpos
  · rw [Nat.mul_zero, toFloat_of_coefficient_zero, toFloat_of_coefficient_zero]
  · have hhigh : e ≤ 2048 := hhigh hpos
    have hvalue : (⟨10 * c, e - 1⟩ : Decimal).value = (⟨c, e⟩ : Decimal).value := by
      unfold value
      rw [zpow_sub_one₀ (by norm_num)]
      push_cast
      field_simp
    have hten : 0 < 10 * c := by omega
    have hbelow : e - 1 ≤ 2048 := by omega
    rw [toFloat_eq_nearest_of_le (d := ⟨c, e⟩) hpos hhigh, ← hvalue,
      toFloat_eq_nearest_of_le (d := ⟨10 * c, e - 1⟩) hten hbelow]

/-- A missing fraction reads as a zero, as long as one of the two literals is finite. -/
theorem toFloat_ofDigits_nil {whole : List Char} {exponent : ℤ}
    (h : (ofDigits whole [] exponent).toFloat.isFinite = true ∨
      (ofDigits whole ['0'] exponent).toFloat.isFinite = true) :
    (ofDigits whole ['0'] exponent).toFloat = (ofDigits whole [] exponent).toFloat := by
  have hzero : ofDigits whole ['0'] exponent =
      ⟨10 * (ofDigits whole [] exponent).coefficient,
        (ofDigits whole [] exponent).exponent - 1⟩ := by
    unfold ofDigits
    rw [Nat.ofDigitChars_append, List.append_nil]
    simp [Nat.ofDigitChars_cons]
  rw [hzero] at h ⊢
  apply toFloat_tenfold
  intro hpos
  rcases h with h | h
  · have hlow := exponent_lt_of_isFinite hpos h
    omega
  · have hten : 0 < 10 * (ofDigits whole [] exponent).coefficient := by omega
    have hlow := exponent_lt_of_isFinite hten h
    dsimp only at hlow
    omega

/-- A decimal that reads as a finite number other than zero has a coefficient and no huge
exponent. -/
theorem bounds_of_toFloat {d : Decimal} {s : Sign} {m : ℕ} {e : ℤ} {hm : 0 < m}
    (h : d.toFloat.toModel.unpack = .finite s m e hm) : 0 < d.coefficient ∧ d.exponent ≤ 2048 := by
  obtain ⟨c, p⟩ := d
  have hpos : 0 < c := by
    rcases Nat.eq_zero_or_pos c with rfl | hpos
    · rw [toFloat_of_coefficient_zero, unpack_toFloat_zero] at h
      cases h
    · exact hpos
  refine ⟨hpos, ?_⟩
  by_cases hlarge : p ≤ 2048
  · exact hlarge
  · have hlarge : 2048 < p := by omega
    rw [toFloat_of_large hpos hlarge, unpack_toFloat_infinity] at h
    cases h

/-- The exact decimal of a number reads as that number. -/
theorem toFloat_exactly {m : ℕ} {e : ℤ} (h : Canonical m e) :
    (exactly m e).toFloat = Binary64.toFloat (.finite .positive m e h.pos) := by
  have hlow := h.le
  have hpos := h.pos
  -- a negative power of two is a power of ten with fives in the coefficient
  have hvalue : (exactly m e).value = m * 2 ^ e := by
    unfold exactly value
    by_cases hnonneg : 0 ≤ e
    · rw [if_pos hnonneg]
      show ((m * 2 ^ e.toNat : ℕ) : ℚ) * 10 ^ (0 : ℤ) = m * 2 ^ e
      rw [zpow_zero, mul_one, Nat.cast_mul, Nat.cast_pow, ← zpow_natCast,
        Int.toNat_of_nonneg hnonneg]
      rfl
    · rw [if_neg hnonneg]
      show ((m * 5 ^ (-e).toNat : ℕ) : ℚ) * 10 ^ e = m * 2 ^ e
      have hten : (10 : ℚ) ^ e = 2 ^ e * 5 ^ e := by rw [← mul_zpow]; norm_num
      have hfive : (5 : ℚ) ^ e = (5 ^ (-e).toNat)⁻¹ := by
        rw [← zpow_natCast, Int.toNat_of_nonneg (by omega), zpow_neg, inv_inv]
      rw [hten, hfive]
      push_cast
      field_simp
  have hcoefficient : 0 < (exactly m e).coefficient := by
    unfold exactly
    split
    · show 0 < m * 2 ^ e.toNat
      positivity
    · show 0 < m * 5 ^ (-e).toNat
      positivity
  have hexponent : -1074 ≤ (exactly m e).exponent ∧ (exactly m e).exponent ≤ 0 := by
    unfold exactly
    split
    · show -1074 ≤ (0 : ℤ) ∧ (0 : ℤ) ≤ 0
      omega
    · show -1074 ≤ e ∧ e ≤ 0
      omega
  rw [toFloat_eq_nearest hcoefficient (by omega) (by omega), hvalue, nearest_of_canonical h]

/-- The shortest decimal of a positive number reads as that number. -/
theorem toFloat_shortest {x : Float} {m : ℕ} {e : ℤ} {hm : 0 < m}
    (h : x.toModel.unpack = .finite .positive m e hm) : (shortest x m e).toFloat = x := by
  unfold shortest
  dsimp only
  cases hgrids : onGrids x (ratio m e).1 (ratio m e).2 18
    (magnitude (ratio m e).1 (ratio m e).2) with
  | some d => exact toFloat_of_onGrids 18 _ hgrids
  | none =>
    have hcanonical := (canonical_of_unpack h).1
    show (exactly m e).toFloat = x
    rw [toFloat_exactly hcanonical, ← h, Binary64.toFloat_unpack]

/-! ## Texts -/

theorem isDigit_of_mem_digits {d : Decimal} {c : Char} (h : c ∈ d.digits) : c.isDigit = true :=
  Nat.isDigit_of_mem_toDigits (by decide) (by decide) h

/-- The digits of a decimal are those of its coefficient. -/
theorem ofDigitChars_digits (d : Decimal) : Nat.ofDigitChars 10 d.digits 0 = d.coefficient :=
  Nat.ofDigitChars_ten_toDigits

theorem isDigit_of_mem_replicate {n : ℕ} {c : Char} (h : c ∈ List.replicate n '0') :
    c.isDigit = true := by
  rw [(List.mem_replicate.mp h).2]
  rfl

/-- Digits with a point among them that read as `x`. -/
def Spells (text : List Char) (x : Float) : Prop :=
  ∃ whole fraction, text = whole ++ '.' :: fraction ∧ whole ≠ [] ∧ fraction ≠ [] ∧
    (∀ c ∈ whole, c.isDigit = true) ∧ (∀ c ∈ fraction, c.isDigit = true) ∧
    (ofDigits whole fraction 0).toFloat = x

theorem not_mem_of_isDigit {cs : List Char} (h : ∀ c ∈ cs, c.isDigit = true) : '.' ∉ cs := by
  intro hmem
  exact absurd (h '.' hmem) (by decide)

/-- A decimal without places reads the same with a point and a zero behind it. -/
theorem spells_withPoint_of_nonneg {d : Decimal} (h : 0 ≤ d.exponent) (hpos : 0 < d.coefficient)
    (hhigh : d.exponent ≤ 2048) : Spells (Real.withPoint d.positional).toList d.toFloat := by
  have hdigits : ∀ c ∈ d.digits ++ List.replicate d.exponent.toNat '0', c.isDigit = true := by
    intro c hc
    rcases List.mem_append.mp hc with hc | hc
    · exact isDigit_of_mem_digits hc
    · exact isDigit_of_mem_replicate hc
  have htext : (Real.withPoint d.positional).toList =
      (d.digits ++ List.replicate d.exponent.toNat '0') ++ '.' :: ['0'] := by
    unfold Real.withPoint positional
    rw [if_pos h, String.toList_ofList, if_neg (not_mem_of_isDigit hdigits), String.toList_append,
      String.toList_ofList]
    rfl
  refine ⟨_, ['0'], htext, ?_, by simp, hdigits, List.forall_mem_singleton.mpr rfl, ?_⟩
  · intro hnil
    exact Nat.toDigits_ne_nil (List.append_eq_nil_iff.mp hnil).1
  · -- the decimal that is read has another coefficient and exponent, but the same value
    have hcoefficient : Nat.ofDigitChars 10
        ((d.digits ++ List.replicate d.exponent.toNat '0') ++ ['0']) 0 =
          d.coefficient * 10 ^ (d.exponent.toNat + 1) := by
      rw [Nat.ofDigitChars_append, Nat.ofDigitChars_append, ofDigitChars_digits,
        Nat.ofDigitChars_replicate_zero, Nat.ofDigitChars_cons, Nat.ofDigitChars_nil]
      show 10 * (10 ^ d.exponent.toNat * d.coefficient) + 0 = _
      rw [pow_succ]
      ring
    have hread : ofDigits (d.digits ++ List.replicate d.exponent.toNat '0') ['0'] 0 =
        ⟨d.coefficient * 10 ^ (d.exponent.toNat + 1), -1⟩ := by
      unfold ofDigits
      rw [hcoefficient]
      rfl
    have hvalue : (⟨d.coefficient * 10 ^ (d.exponent.toNat + 1), -1⟩ : Decimal).value =
        d.value := by
      have hten : (10 : ℚ) ^ d.exponent = 10 ^ d.exponent.toNat := by
        rw [← zpow_natCast, Int.toNat_of_nonneg h]
      unfold value
      rw [hten, zpow_neg, zpow_one, pow_succ]
      push_cast
      field_simp
    rw [hread, toFloat_eq_nearest (d := ⟨_, -1⟩) (by positivity) (by norm_num) (by norm_num),
      hvalue, toFloat_eq_nearest hpos hhigh (by omega)]

/-- A decimal with places has a point already. -/
theorem spells_withPoint_of_neg {d : Decimal} (h : d.exponent < 0) :
    Spells (Real.withPoint d.positional).toList d.toFloat := by
  generalize hplaces : (-d.exponent).toNat = places
  generalize hpadded : List.replicate (places + 1 - d.digits.length) '0' ++ d.digits = padded
  -- with the padding there is a digit in front of the point
  have hlength : places + 1 ≤ padded.length := by
    rw [← hpadded, List.length_append, List.length_replicate]
    omega
  have hdigits : ∀ c ∈ padded, c.isDigit = true := by
    intro c hc
    rw [← hpadded] at hc
    rcases List.mem_append.mp hc with hc | hc
    · exact isDigit_of_mem_replicate hc
    · exact isDigit_of_mem_digits hc
  have hpositional : d.positional.toList =
      padded.take (padded.length - places) ++ '.' :: padded.drop (padded.length - places) := by
    unfold positional
    rw [if_neg (by omega)]
    simp only [hplaces, hpadded, String.toList_append, String.toList_ofList]
    rw [List.append_assoc]
    rfl
  have htext : (Real.withPoint d.positional).toList = d.positional.toList := by
    unfold Real.withPoint
    rw [if_pos]
    rw [hpositional]
    simp
  refine ⟨_, _, htext.trans hpositional, ?_, ?_, ?_, ?_, ?_⟩
  · intro hnil
    have hzero := congrArg List.length hnil
    simp only [List.length_take, List.length_nil] at hzero
    omega
  · intro hnil
    have hzero := congrArg List.length hnil
    simp only [List.length_drop, List.length_nil] at hzero
    omega
  · intro c hc
    exact hdigits c (List.mem_of_mem_take hc)
  · intro c hc
    exact hdigits c (List.mem_of_mem_drop hc)
  · -- the padding has no value and the number of places is the exponent
    have hread : ofDigits (padded.take (padded.length - places))
        (padded.drop (padded.length - places)) 0 = d := by
      obtain ⟨coefficient, exponent⟩ := d
      unfold ofDigits
      rw [List.take_append_drop, ← hpadded, Nat.ofDigitChars_append,
        Nat.ofDigitChars_replicate_zero, Nat.mul_zero, ofDigitChars_digits]
      congr 1
      rw [hpadded, List.length_drop]
      have hneg : exponent < 0 := h
      have hplaces : (-exponent).toNat = places := hplaces
      omega
    rw [hread]

end Decimal

namespace Real

open Binary64 Float.Model Float.Model.UnpackedFloat

def IsPlain (x : Float) : Prop :=
  x.isFinite = true ∧ x.toBits < 0x8000000000000000

instance (x : Float) : Decidable (IsPlain x) :=
  inferInstanceAs (Decidable (x.isFinite = true ∧ x.toBits < 0x8000000000000000))

/-- The sign of a packed number is its highest bit. -/
theorem unpackSign_of_lt {b : BitVec Format.binary64.numBits} (h : b.toNat < 2 ^ 63) :
    Sign.ofBitVec (unpackSign b) = .positive := by
  have hbit : unpackSign b = 0#1 := by
    apply BitVec.eq_of_toNat_eq
    unfold unpackSign
    simp only [BitVec.toNat_cast, BitVec.extractLsb_toNat, BitVec.toNat_zero]
    show b.toNat >>> 63 % 2 ^ 1 = 0
    rw [Nat.shiftRight_eq_div_pow]
    omega
  rw [hbit]
  rfl

/-- A finite pattern without a sign is zero or a positive number. -/
theorem unpack_of_isFinite {b : BitVec Format.binary64.numBits}
    (hfinite : (UnpackedFloat.unpack Format.binary64 b).isFinite = true) (hlt : b.toNat < 2 ^ 63) :
    UnpackedFloat.unpack Format.binary64 b = .zero .positive ∨
      ∃ m e, ∃ hm : 0 < m, UnpackedFloat.unpack Format.binary64 b = .finite .positive m e hm := by
  have hexponent : (unpackExponent b).toNat < 2047 := by
    by_contra hlarge
    rw [not_isFinite_of_exponent hlarge] at hfinite
    cases hfinite
  rw [unpack_of_parts (unpackSign_of_lt hlt) rfl rfl hexponent]
  by_cases hzero : (unpackExponent b).toNat = 0
  · rw [if_pos hzero]
    by_cases hmantissa : (unpackMantissa b).toNat = 0
    · exact .inl (dif_pos hmantissa)
    · exact .inr ⟨_, _, Nat.pos_of_ne_zero hmantissa, dif_neg hmantissa⟩
  · exact .inr ⟨_, _, _, if_neg hzero⟩

/-- A plain real is the positive zero or a positive number. -/
theorem unpack_of_isPlain {x : Float} (h : IsPlain x) :
    x.toModel.unpack = .zero .positive ∨
      ∃ m e, ∃ hm : 0 < m, x.toModel.unpack = .finite .positive m e hm :=
  unpack_of_isFinite h.1 h.2

/-- The literal of a plain real reads as that real. -/
theorem spells_literal {x : Float} (h : IsPlain x) : Decimal.Spells (literal x).toList x := by
  rcases unpack_of_isPlain h with hzero | ⟨m, e, hm, hunpack⟩
  · have hx : x = Binary64.toFloat (.zero .positive) := by rw [← toFloat_unpack x, hzero]
    have htext : (literal x).toList = ['0'] ++ '.' :: ['0'] := by
      unfold literal text
      rw [hzero]
      show (withPoint ("" ++ "0")).toList = ['0', '.', '0']
      decide
    have hzeroDigit : ∀ c ∈ ['0'], c.isDigit = true := List.forall_mem_singleton.mpr rfl
    refine ⟨['0'], ['0'], htext, by simp, by simp, hzeroDigit, hzeroDigit, ?_⟩
    rw [hx]
    exact Decimal.toFloat_of_coefficient_zero (-1)
  · have habs : x.abs = x := by
      show Binary64.toFloat x.toModel.unpack.abs = x
      rw [hunpack]
      show Binary64.toFloat (.finite .positive m e hm) = x
      rw [← hunpack, toFloat_unpack]
    have htext : literal x = withPoint (Decimal.shortest x m e).positional := by
      unfold literal text
      rw [hunpack]
      simp only [habs, signText, String.empty_append]
    -- from here on only the value of the shortest decimal matters
    have hread := Decimal.toFloat_shortest hunpack
    rw [htext]
    generalize Decimal.shortest x m e = d at hread
    rw [← hread] at hunpack
    obtain ⟨hpos, hhigh⟩ := Decimal.bounds_of_toFloat hunpack
    rw [← hread]
    by_cases hnonneg : 0 ≤ d.exponent
    · exact Decimal.spells_withPoint_of_nonneg hnonneg hpos hhigh
    · exact Decimal.spells_withPoint_of_neg (by omega)

/-! ## Decimals have no sign -/

def IsPositive : UnpackedFloat → Prop
  | .zero s => s = .positive
  | .infinity s => s = .positive
  | .finite s _ _ _ => s = .positive
  | .notANumber => False

theorem toNat_packComponents_lt (e : BitVec 11) (m : BitVec 52) :
    (packComponents Format.binary64 .positive e m).toNat < 2 ^ 63 := by
  have he := e.isLt
  have hm := m.isLt
  show (0#1 ++ e ++ m).toNat < 2 ^ 63
  rw [BitVec.toNat_append, ← Nat.shiftLeft_add_eq_or_of_lt m.isLt, BitVec.toNat_append,
    ← Nat.shiftLeft_add_eq_or_of_lt e.isLt, Nat.shiftLeft_eq, Nat.shiftLeft_eq, BitVec.toNat_zero]
  omega

/-- A number that is not negative has no sign bit. -/
theorem toBits_toFloat_lt {u : UnpackedFloat} (h : IsPositive u) :
    (Binary64.toFloat u).toBits < 0x8000000000000000 := by
  show (UnpackedFloat.pack Format.binary64 u).toNat < 2 ^ 63
  cases u with
  | notANumber => exact absurd h id
  | infinity s => cases h; exact toNat_packComponents_lt _ _
  | zero s => cases h; exact toNat_packComponents_lt _ _
  | finite s m e hm =>
    cases h
    unfold UnpackedFloat.pack
    dsimp only
    split
    · exact toNat_packComponents_lt _ _
    · split <;> exact toNat_packComponents_lt _ _

theorem isPositive_carried (r : ℕ) (t : ℤ) : IsPositive (carried r t) := by
  by_cases hzero : r = 0
  · rw [carried, dif_pos hzero]
    rfl
  · by_cases hlt : r < 2 ^ 53
    · rw [carried, dif_neg hzero, if_pos hlt]
      rfl
    · rw [carried, dif_neg hzero, if_neg hlt]
      rfl

/-- The number nearest to a value is not negative. -/
theorem isPositive_nearest (q : ℚ) : IsPositive (nearest q) :=
  isPositive_carried _ _

/-- A decimal that reads as a finite number reads as a plain one. -/
theorem isPlain_toFloat {d : Decimal} (h : d.toFloat.isFinite = true) : IsPlain d.toFloat := by
  refine ⟨h, ?_⟩
  suffices hpositive : ∃ u, IsPositive u ∧ d.toFloat = Binary64.toFloat u by
    obtain ⟨u, hu, hd⟩ := hpositive
    rw [hd]
    exact toBits_toFloat_lt hu
  obtain ⟨c, e⟩ := d
  rcases Nat.eq_zero_or_pos c with rfl | hpos
  · exact ⟨.zero .positive, rfl, Decimal.toFloat_of_coefficient_zero e⟩
  · by_cases hlarge : 2048 < e
    · exact ⟨.infinity .positive, rfl, Decimal.toFloat_of_large hpos hlarge⟩
    · by_cases hsmall : -(2048 + (c.log2 : ℤ)) ≤ e
      · exact ⟨_, isPositive_nearest _,
          Decimal.toFloat_eq_nearest hpos (by omega : e ≤ 2048) hsmall⟩
      · exact ⟨.zero .positive, rfl, Decimal.toFloat_of_small hpos (Int.not_le.mp hsmall)⟩

end Real

end Oberon
