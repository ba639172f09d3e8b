import Oberon.Proofs.Decimal.Rounding

/-!
# Packed binary64 numbers

Unpacking a number gives a canonical mantissa and exponent, and packing takes it back.
-/

namespace Oberon.Binary64

open Float.Model Float.Model.UnpackedFloat

theorem toBitVec_ofBitVec (b : BitVec 1) : (Sign.ofBitVec b).toBitVec = b := by
  unfold Sign.ofBitVec
  split
  next h => rw [h]; rfl
  next h =>
    show 1#1 = b
    bv_omega

/-- A packed number is put together from its three parts. -/
theorem packComponents_unpack (b : BitVec Format.binary64.numBits) :
    packComponents Format.binary64 (Sign.ofBitVec (unpackSign b)) (unpackExponent b)
      (unpackMantissa b) = b := by
  unfold packComponents
  rw [toBitVec_ofBitVec]
  ext i hi
  unfold unpackSign unpackExponent unpackMantissa
  by_cases hmantissa : i < 52
  · grind
  · by_cases hexponent : i < 63 <;> grind

theorem unpackSign_packComponents (s : Sign) (e : BitVec 11) (m : BitVec 52) :
    Sign.ofBitVec (unpackSign (packComponents Format.binary64 s e m)) = s := by
  have hbits : unpackSign (packComponents Format.binary64 s e m) = s.toBitVec := by
    unfold unpackSign packComponents
    ext i hi
    grind
  rw [hbits]
  cases s <;> rfl

/-- The hidden bit adds `2 ^ 52` to the stored mantissa. -/
theorem toNat_append_one (m : BitVec 52) : (1#1 ++ m).toNat = 2 ^ 52 + m.toNat := by
  rw [BitVec.toNat_append, ← Nat.shiftLeft_add_eq_or_of_lt m.isLt, Nat.shiftLeft_eq]
  rfl

/-- Finite numbers with the same parts are equal, whatever proof of positivity they carry. -/
theorem finite_congr {s : Sign} {m m' : ℕ} {e e' : ℤ} {hm : 0 < m} {hm' : 0 < m'} (h : m = m')
    (he : e = e') : UnpackedFloat.finite s m e hm = .finite s m' e' hm' := by
  subst h he
  rfl

/-- A finite packed number, by its exponent and mantissa as naturals. -/
theorem unpack_of_parts {b : BitVec Format.binary64.numBits} {s : Sign} {e : BitVec 11}
    {m : BitVec 52}
    (hsign : Sign.ofBitVec (unpackSign b) = s) (hexponent : unpackExponent b = e)
    (hmantissa : unpackMantissa b = m) (he : e.toNat < 2047) :
    unpack Format.binary64 b =
      if e.toNat = 0 then
        if h : m.toNat = 0 then .zero s else .finite s m.toNat (-1074) (Nat.pos_of_ne_zero h)
      else .finite s (2 ^ 52 + m.toNat) (e.toNat - 1075)
        (Nat.add_pos_left (Nat.two_pow_pos 52) _) := by
  have hinfinite : e ≠ -1#11 := by
    rintro rfl
    exact absurd he (by decide)
  subst hsign hexponent hmantissa
  unfold UnpackedFloat.unpack
  dsimp only
  rw [if_neg hinfinite]
  -- only an exponent of zero leaves the leading bit of the mantissa out
  by_cases hexponent : (unpackExponent b).toNat = 0
  · have hzero : unpackExponent b = 0#11 := by bv_omega
    rw [if_pos hzero, if_pos hexponent]
    by_cases hmantissa : (unpackMantissa b).toNat = 0
    · have hzero : unpackMantissa b = 0#52 := by bv_omega
      rw [dif_pos hzero, dif_pos hmantissa]
    · have hne : unpackMantissa b ≠ 0#52 := by bv_omega
      rw [dif_neg hne, dif_neg hmantissa]
      exact finite_congr rfl (by rw [hexponent]; rfl)
  · have hne : unpackExponent b ≠ 0#11 := by bv_omega
    rw [if_neg hne, if_neg hexponent]
    exact finite_congr (toNat_append_one (unpackMantissa b)) rfl

/-- A pattern with an exponent below 2047 unpacks to zero, a subnormal or a normal number. -/
theorem unpack_packComponents (s : Sign) (e : BitVec 11) (m : BitVec 52) (he : e.toNat < 2047) :
    unpack Format.binary64 (packComponents Format.binary64 s e m) =
      if e.toNat = 0 then
        if h : m.toNat = 0 then .zero s else .finite s m.toNat (-1074) (Nat.pos_of_ne_zero h)
      else .finite s (2 ^ 52 + m.toNat) (e.toNat - 1075)
        (Nat.add_pos_left (Nat.two_pow_pos 52) _) :=
  unpack_of_parts (unpackSign_packComponents s e m) unpackExponent_packComponents
    unpackMantissa_packComponents he

/-- A finite number in range is packed into its three fields. -/
theorem pack_finite {s : Sign} {m : ℕ} {e : ℤ} (hm : 0 < m) (hlow : -1074 ≤ e) (hhigh : e ≤ 971) :
    pack Format.binary64 (.finite s m e hm) =
      packComponents Format.binary64 s (if m.log2 = 52
        then BitVec.ofNat 11 (e + 1075).toNat else 0#11)
        (BitVec.ofNat 52 m) := by
  have hbiased : (e + (1023 : ℕ) + (52 : ℕ)).toNat = (e + 1075).toNat := by omega
  show (if 2 ^ 11 ≤ (e + (1023 : ℕ) + (52 : ℕ)).toNat + 1 then packedInfinity Format.binary64 s
    else if m.log2 + 1 = 53 then packComponents Format.binary64 s
        (BitVec.ofNat 11 (e + (1023 : ℕ) + (52 : ℕ)).toNat) (BitVec.ofNat 52 m)
      else packComponents Format.binary64 s 0#11 (BitVec.ofNat 52 m)) = _
  rw [hbiased, if_neg (by omega)]
  by_cases hlog : m.log2 = 52
  · rw [if_pos (by omega), if_pos hlog]
  · rw [if_neg (by omega), if_neg hlog]

/-- Unpacking takes packing back, as long as the exponent is not too large. -/
theorem unpack_pack {s : Sign} {m : ℕ} {e : ℤ} (h : Canonical m e) (he : e ≤ 971) :
    unpack Format.binary64 (pack Format.binary64 (.finite s m e h.pos)) = .finite s m e h.pos := by
  have hlow := h.le
  have hpos := h.pos
  have hlt := h.lt
  rw [pack_finite h.pos h.le he]
  by_cases hfull : 2 ^ 52 ≤ m
  · -- the leading bit is dropped in packing and put back in unpacking
    have hlog : m.log2 = 52 := by
      have := (Nat.le_log2 (Nat.ne_of_gt h.pos)).mpr hfull
      have := (Nat.log2_lt (Nat.ne_of_gt h.pos)).mpr h.lt
      omega
    have hexponent : (BitVec.ofNat 11 (e + 1075).toNat).toNat = (e + 1075).toNat := by
      rw [BitVec.toNat_ofNat, Nat.mod_eq_of_lt (by omega)]
    have hmantissa : (BitVec.ofNat 52 m).toNat = m - 2 ^ 52 := by
      rw [BitVec.toNat_ofNat]
      omega
    rw [if_pos hlog, unpack_packComponents _ _ _ (by rw [hexponent]; omega), hexponent,
      if_neg (by omega)]
    exact finite_congr (by rw [hmantissa]; omega) (by omega)
  · have hsubnormal : e = -1074 := h.full.resolve_left hfull
    have hlog : m.log2 < 52 := (Nat.log2_lt (Nat.ne_of_gt h.pos)).mpr (by omega)
    have hmantissa : (BitVec.ofNat 52 m).toNat = m := by
      rw [BitVec.toNat_ofNat, Nat.mod_eq_of_lt (by omega)]
    rw [if_neg (by omega), unpack_packComponents _ _ _ (by decide), if_pos BitVec.toNat_zero,
      dif_neg (by rw [hmantissa]; omega)]
    exact finite_congr hmantissa hsubnormal.symm

/-- An exponent that is not below 2047 has all ones. -/
theorem exponent_eq_of_not_lt {b : BitVec Format.binary64.numBits}
    (h : ¬ (unpackExponent b).toNat < 2047) : unpackExponent b = -1#11 := by
  have := (unpackExponent b).isLt
  bv_omega

/-- The largest exponent is that of infinities and of what is not a number. -/
theorem not_isFinite_of_exponent {b : BitVec Format.binary64.numBits}
    (h : ¬ (unpackExponent b).toNat < 2047) :
    (unpack Format.binary64 b).isFinite = false := by
  unfold UnpackedFloat.unpack
  dsimp only
  rw [if_pos (exponent_eq_of_not_lt h)]
  split <;> rfl

/-- What is unpacked is canonical, and its exponent is not too large. -/
theorem canonical_of_unpack {b : BitVec Format.binary64.numBits} {s : Sign} {m : ℕ} {e : ℤ}
    {hm : 0 < m} (h : unpack Format.binary64 b = .finite s m e hm) : Canonical m e ∧ e ≤ 971 := by
  have hmantissa : (unpackMantissa b).toNat < 2 ^ 52 := (unpackMantissa b).isLt
  by_cases hfinite : (unpackExponent b).toNat < 2047
  · rw [unpack_of_parts rfl rfl rfl hfinite] at h
    by_cases hexponent : (unpackExponent b).toNat = 0
    · rw [if_pos hexponent] at h
      by_cases hzero : (unpackMantissa b).toNat = 0
      · rw [dif_pos hzero] at h
        cases h
      · rw [dif_neg hzero] at h
        cases h
        exact ⟨⟨hm, by omega, by omega, .inr rfl⟩, by omega⟩
    · rw [if_neg hexponent] at h
      cases h
      exact ⟨⟨hm, by omega, by omega, .inl (by omega)⟩, by omega⟩
  · have hinfinite := not_isFinite_of_exponent hfinite
    rw [h] at hinfinite
    cases hinfinite

/-- Finite patterns survive unpacking and packing. -/
theorem pack_unpack_packComponents (s : Sign) (e : BitVec 11) (m : BitVec 52)
    (he : e.toNat < 2047) :
    pack Format.binary64 (unpack Format.binary64 (packComponents Format.binary64 s e m)) =
      packComponents Format.binary64 s e m := by
  have hm := m.isLt
  rw [unpack_packComponents s e m he]
  by_cases hexponent : e.toNat = 0
  · have hzero : e = 0#11 := by bv_omega
    subst hzero
    rw [if_pos hexponent]
    by_cases hmantissa : m.toNat = 0
    · have hzero : m = 0#52 := by bv_omega
      subst hzero
      rfl
    · have hlog : m.toNat.log2 < 52 := (Nat.log2_lt hmantissa).mpr hm
      rw [dif_neg hmantissa, pack_finite _ (by omega) (by omega), if_neg (by omega),
        BitVec.ofNat_toNat, BitVec.setWidth_eq]
  · rw [if_neg hexponent]
    -- a normal number has its leading bit at the top
    have hlog : (2 ^ 52 + m.toNat).log2 = 52 := by
      rw [Nat.log2_eq_iff (by omega)]
      omega
    have hsum : (e.toNat - 1075 + 1075 : ℤ).toNat = e.toNat := by omega
    have hmantissa : BitVec.ofNat 52 (2 ^ 52 + m.toNat) = m := by
      apply BitVec.eq_of_toNat_eq
      rw [BitVec.toNat_ofNat]
      omega
    rw [pack_finite _ (by omega) (by omega), if_pos hlog, hsum, hmantissa, BitVec.ofNat_toNat,
      BitVec.setWidth_eq]

/-- Valid patterns survive unpacking and packing. -/
theorem pack_unpack_of_valid {b : BitVec Format.binary64.numBits}
    (hvalid : Format.binary64.Valid b) :
    UnpackedFloat.pack Format.binary64 (UnpackedFloat.unpack Format.binary64 b) = b := by
  by_cases hfinite : (unpackExponent b).toNat < 2047
  · have hparts := pack_unpack_packComponents (.ofBitVec (unpackSign b)) (unpackExponent b)
      (unpackMantissa b) hfinite
    rw [packComponents_unpack] at hparts
    exact hparts
  · have hexponent := exponent_eq_of_not_lt hfinite
    have hparts := packComponents_unpack b
    rw [hexponent] at hparts
    unfold UnpackedFloat.unpack
    dsimp only
    rw [if_pos hexponent]
    by_cases hmantissa : unpackMantissa b = 0#52
    · rw [if_pos hmantissa]
      rw [hmantissa] at hparts
      exact hparts
    · rw [if_neg hmantissa]
      exact (hvalid.eq_packedNaN hexponent hmantissa).symm

/-- A number is given by its bits. -/
theorem model_eq_of_toBits {x y : Float.Model} (h : x.toBits = y.toBits) : x = y := by
  cases x
  cases y
  cases h
  rfl

/-- Packing takes unpacking back. -/
theorem pack_unpack (x : Float.Model) : Float.Model.pack x.unpack = x :=
  model_eq_of_toBits (congrArg UInt64.ofBitVec (pack_unpack_of_valid x.valid))

end Oberon.Binary64
