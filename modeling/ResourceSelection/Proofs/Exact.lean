import ResourceSelection.Proofs.Binary64

/-!
# Dividing by one

A resource without a call in flight shares its weight with nobody: its weight is divided by one, and
what comes out has to be the same float, bit for bit. A quotient is computed with more bits than the
result has room for and is then rounded, so that this is no matter of arithmetic alone. It holds
because a float unpacks to the exponent that the format has for its value. Such a value, written
with a few zeros more at its end, is rounded to what it was.
-/

namespace ResourceSelection.Binary64

open Float.Model (UnpackedFloat Format totalExponent)
open Float.Model.UnpackedFloat

/-- A finite value has the exponent that the format has for it. -/
def Canonical (f : Format) : UnpackedFloat → Prop
  | .finite _ m e _ => f.targetExponent (totalExponent m e) = e
  | _ => True

theorem toNat_implicit_append {w : ℕ} (v : BitVec w) : (1#1 ++ v).toNat = 2 ^ w + v.toNat := by
  rw [BitVec.toNat_append, ← Nat.shiftLeft_add_eq_or_of_lt v.isLt]
  simp [Nat.shiftLeft_eq]

/-- A float unpacks to a canonical value: a subnormal one has the least exponent, and any other has
all the bits that there are. -/
theorem canonical_unpack (bits : BitVec Format.binary64.numBits) :
    Canonical .binary64 (unpack .binary64 bits) := by
  have hmantissa : (unpackMantissa bits).toNat < 2 ^ 52 := (unpackMantissa bits).isLt
  unfold unpack
  simp only
  split
  · split <;> trivial
  · split
    · next hzero =>
        split
        · trivial
        · next hne =>
            have hpos : (unpackMantissa bits).toNat ≠ 0 := fun h =>
              hne (BitVec.toNat_inj.1 (by simpa using h))
            have hlog : (unpackMantissa bits).toNat.log2 < 52 := (Nat.log2_lt hpos).2 hmantissa
            have hexponent : (unpackExponent bits).toNat = 0 := by rw [hzero]; rfl
            simp only [Canonical, totalExponent, Format.targetExponent, Format.mantissaBits,
              Format.minExponent, Format.exponentBias, hexponent]
            omega
    · next hne =>
        have hpos : (unpackExponent bits).toNat ≠ 0 := fun h =>
          hne (BitVec.toNat_inj.1 (by simpa using h))
        have hlog : (2 ^ 52 + (unpackMantissa bits).toNat).log2 = 52 :=
          (Nat.log2_eq_iff (by omega)).2 ⟨by omega, by omega⟩
        simp only [Canonical, totalExponent, Format.targetExponent, Format.mantissaBits,
          Format.minExponent, Format.exponentBias, toNat_implicit_append, hlog]
        omega

/-! ## Zeros at the end of a mantissa -/

theorem shiftRightOne_double (m : ℕ) :
    ExtendedMantissa.shiftRightOne ⟨m * 2, false, false⟩ = ⟨m, false, false⟩ := by
  simp [ExtendedMantissa.shiftRightOne]

/-- What has only zeros at its end loses nothing when they are shifted out. -/
theorem shiftRight_zeros (m k : ℕ) :
    (⟨m * 2 ^ k, false, false⟩ : ExtendedMantissa) >>> k = ⟨m, false, false⟩ := by
  show Nat.repeat ExtendedMantissa.shiftRightOne k _ = _
  induction k generalizing m with
  | zero => rw [pow_zero, mul_one]; rfl
  | succ k ih =>
      rw [Nat.repeat, pow_succ', ← mul_assoc, ih, shiftRightOne_double]

theorem totalExponent_zeros {m : ℕ} (hm : 0 < m) (e : ℤ) (k : ℕ) :
    totalExponent (m * 2 ^ k) (e - k) = totalExponent m e := by
  have hlog : (m * 2 ^ k).log2 = m.log2 + k := by
    induction k with
    | zero => rw [pow_zero, mul_one, Nat.add_zero]
    | succ k ih =>
        rw [pow_succ', mul_left_comm, Nat.log2_two_mul (by positivity), ih, Nat.add_assoc]
  unfold totalExponent
  omega

theorem shiftToTargetExponent_zeros {f : Format} {m : ℕ} {e : ℤ} (hm : 0 < m)
    (hcanonical : f.targetExponent (totalExponent m e) = e) (k : ℕ) :
    shiftToTargetExponent f (m * 2 ^ k) (e - k) .exact = (⟨m, false, false⟩, e) := by
  have hamount : (e - (e - k)).toNat = k := by omega
  simp only [shiftToTargetExponent, shiftToExponent, totalExponent_zeros hm, hcanonical, hamount]
  exact Prod.ext (shiftRight_zeros m k) (by simp)

/-- Rounding takes the zeros away again, and nothing else. -/
theorem roundWithAccuracy_zeros {f : Format} {m : ℕ} {e : ℤ} (hm : 0 < m)
    (hcanonical : f.targetExponent (totalExponent m e) = e) (sign : Sign) (k : ℕ) :
    roundWithAccuracy f sign (m * 2 ^ k) (e - k) .exact = .finite sign m e hm := by
  -- the second shift finds nothing left to do
  have hagain := shiftToTargetExponent_zeros hm hcanonical 0
  rw [pow_zero, mul_one, Nat.cast_zero, sub_zero] at hagain
  have hrounded : (⟨m, false, false⟩ : ExtendedMantissa).roundedMantissa = m := rfl
  unfold roundWithAccuracy
  simp only [shiftToTargetExponent_zeros hm hcanonical k, hrounded, hagain]
  exact dif_neg hm.ne'

/-! ## Quotients -/

/-- The quotient by one has the mantissa of the dividend, with zeros at its end. -/
theorem divCore_one {f : Format} {m : ℕ} {e : ℤ}
    (hcanonical : f.targetExponent (totalExponent m e) = e) :
    ∃ k : ℕ, divCore f m e (2 ^ f.mantissaBitsWithoutImplicit) (-f.mantissaBitsWithoutImplicit) =
      (m * 2 ^ k, e - k, .exact) := by
  have hbits := f.hm
  have hone : totalExponent (2 ^ f.mantissaBitsWithoutImplicit)
      (-f.mantissaBitsWithoutImplicit) = 1 := by
    simp [totalExponent, Nat.log2_two_pow]
  unfold divCore
  simp only [hone]
  -- the quotient is sought with as many bits as the dividend has, or one more
  obtain ⟨k, hk⟩ : ∃ k : ℕ, f.targetExponent (totalExponent m e - 1) = e - k := by
    refine ⟨(e - f.targetExponent (totalExponent m e - 1)).toNat, ?_⟩
    unfold Format.targetExponent at hcanonical ⊢
    omega
  have htarget : min (e - -(f.mantissaBitsWithoutImplicit : ℤ))
      (f.targetExponent (totalExponent m e - 1)) = e - k := by omega
  have hamount : (e - -(f.mantissaBitsWithoutImplicit : ℤ) - (e - k)).toNat =
      k + f.mantissaBitsWithoutImplicit := by omega
  refine ⟨k, ?_⟩
  simp only [htarget, hamount, Nat.shiftLeft_eq, pow_add, ← mul_assoc]
  rw [Nat.mul_div_cancel _ (Nat.two_pow_pos _), Nat.mul_mod_left]
  rfl

theorem div_one_of_canonical {f : Format} {u : UnpackedFloat} (h : Canonical f u) :
    div f u (.finite .positive (2 ^ f.mantissaBitsWithoutImplicit)
      (-f.mantissaBitsWithoutImplicit) (Nat.two_pow_pos _)) = u := by
  have hsign (s : Sign) : s / Sign.positive = s := by cases s <;> rfl
  cases u with
  | infinity s => exact congrArg UnpackedFloat.infinity (hsign s)
  | notANumber => rfl
  | zero s => exact congrArg UnpackedFloat.zero (hsign s)
  | finite s m e hm =>
      obtain ⟨k, hk⟩ := divCore_one h
      unfold div
      simp only [hk, hsign]
      exact roundWithAccuracy_zeros hm h s k

/-- No float changes when it is divided by one. -/
theorem div_one (a : Float) : a / 1 = a := by
  have hvalue : div .binary64 (value a) (value 1) = value a :=
    div_one_of_canonical (canonical_unpack a.toModel.toBits.toBitVec)
  refine Float.toBits_inj.1 (UInt64.toBitVec_inj.1 ?_)
  show pack .binary64 (div .binary64 (value a) (value 1)) = _
  rw [hvalue]
  exact pack_unpack_of_valid a.toModel.valid

end ResourceSelection.Binary64
