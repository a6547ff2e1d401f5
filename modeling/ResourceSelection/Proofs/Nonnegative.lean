import ResourceSelection.Proofs.Arithmetic

/-!
# Results that are not below zero

Rounding keeps the sign of a result, and packing keeps the sign of a value. So a sum, a difference,
a product or a quotient is not below zero where the exact result is not, also where it overflows to
infinity or underflows to zero. What has to be excluded are the four operations on infinities and
zeros that have no result. Nothing is asked of the values otherwise, not even that they are
canonical: their number of quanta may be anything.
-/

namespace ResourceSelection.Binary64

open Float.Model (UnpackedFloat Format)
open Float.Model.UnpackedFloat

variable {u v : UnpackedFloat} {a b : Float}

/-! ## Values -/

theorem isNonneg_roundWithAccuracy (m : ℕ) (e : ℤ) (acc : Accuracy) :
    isNonneg (roundWithAccuracy .binary64 .positive m e acc) = true := by
  unfold roundWithAccuracy
  simp only
  split <;> rfl

theorem isNonneg_normalize {m : ℤ} (hm : 0 ≤ m) (e : ℤ) :
    isNonneg (UnpackedFloat.normalize .binary64 m e .positive) = true := by
  unfold UnpackedFloat.normalize
  split
  · next hlt => exact absurd (Int.compare_eq_lt.1 hlt) (not_lt.2 hm)
  · rfl
  · exact isNonneg_roundWithAccuracy _ _ _

/-- Components with the sign of a positive number and an exponent that is not the last one. -/
theorem isNonneg_unpack_packComponents {e : BitVec 11} (he : e ≠ -1#11) (m : BitVec 52) :
    isNonneg (unpack .binary64 (packComponents .binary64 .positive e m)) = true := by
  unfold unpack
  simp only [unpackMantissa_packComponents, unpackExponent_packComponents,
    unpackSign_packComponents, Sign.ofBitVec_toBitVec]
  rw [if_neg he]
  split
  · split <;> rfl
  · rfl

theorem isNonneg_unpack_pack (hu : isNonneg u = true) :
    isNonneg (unpack .binary64 (pack .binary64 u)) = true := by
  rcases u with (_ | _) | _ | s | ⟨_ | _, m, e, hm⟩ <;> try cases hu
  case infinity.positive =>
    rw [show pack .binary64 (.infinity .positive) = packedInfinity .binary64 .positive from rfl,
      unpack_packedInfinity]
    rfl
  case zero =>
    rw [show pack .binary64 (.zero s) = packedZero .binary64 s from rfl, unpack_packedZero]
    rfl
  case finite.positive =>
    rw [pack_finite]
    split
    · rw [unpack_packedInfinity]
      rfl
    · next hfits =>
        split
        · refine isNonneg_unpack_packComponents ?_ _
          intro heq
          have := congrArg BitVec.toNat heq
          rw [BitVec.toNat_ofNat] at this
          change _ = 2047 at this
          omega
        · exact isNonneg_unpack_packComponents (by decide) _

/-- The exact product of two numbers has a sign unless one is infinite and the other one zero. -/
theorem isNonneg_mul (hu : isNonneg u = true) (hv : isNonneg v = true)
    (h : (isPositive u && u.isFinite) = true ∨ (isPositive v && v.isFinite) = true) :
    isNonneg (mul .binary64 u v) = true := by
  rcases u with (_ | _) | _ | _ | ⟨_ | _, m, e, hm⟩ <;>
    rcases v with (_ | _) | _ | _ | ⟨_ | _, n, k, hn⟩ <;> try cases hu <;> try cases hv
  case finite.positive.finite.positive => exact isNonneg_roundWithAccuracy _ _ _
  all_goals first | rfl | (rcases h with h | h <;> cases h)

theorem isNonneg_div (hu : isNonneg u = true) (hv : (isPositive v && v.isFinite) = true) :
    isNonneg (div .binary64 u v) = true := by
  rcases u with (_ | _) | _ | _ | ⟨_ | _, m, e, hm⟩ <;>
    rcases v with (_ | _) | _ | _ | ⟨_ | _, n, k, hn⟩ <;> try cases hu <;> try cases hv
  case finite.positive.finite.positive => exact isNonneg_roundWithAccuracy _ _ _
  all_goals rfl

/-- Written with a smaller exponent, a value comes to what it came to. -/
theorem quanta_shiftLeft {m : ℕ} {e k : ℤ} (hle : k ≤ e) (hk : -1074 ≤ k) :
    (decreaseExponent m e k).1 * 2 ^ (k + 1074).toNat = quanta m e := by
  have hexponent : (e + 1074).toNat = (e - k).toNat + (k + 1074).toNat := by omega
  rw [quanta, hexponent, pow_add, ← mul_assoc, decreaseExponent, Nat.shiftLeft_eq]

theorem isNonneg_sub (hu : isNonneg u = true) (hv : isNonneg v = true)
    (hcu : Canonical .binary64 u) (hcv : Canonical .binary64 v) (hfinite : v.isFinite = true)
    (hle : magnitude v ≤ magnitude u) : isNonneg (sub .binary64 u v) = true := by
  rcases u with (_ | _) | _ | s | ⟨_ | _, m, e, hm⟩ <;>
    rcases v with (_ | _) | _ | s' | ⟨_ | _, n, k, hn⟩ <;> try cases hu <;> try cases hv
  case finite.positive.finite.positive =>
    have he := exponent_ge hcu
    have hk := exponent_ge hcv
    have hmantissa : (decreaseExponent n k (min e k)).1 ≤ (decreaseExponent m e (min e k)).1 := by
      refine Nat.le_of_mul_le_mul_right ?_ (Nat.two_pow_pos (min e k + 1074).toNat)
      rw [quanta_shiftLeft (min_le_right e k) (by omega),
        quanta_shiftLeft (min_le_left e k) (by omega)]
      exact WithTop.coe_le_coe.1 hle
    exact isNonneg_normalize (sub_nonneg.2 (Int.ofNat_le.2 hmantissa)) _
  case zero.finite.positive =>
    -- nothing is less than no quanta
    exact absurd (WithTop.coe_le_coe.1 hle) (Nat.not_le.2 (quanta_pos hn k))
  case zero.zero => cases s <;> cases s' <;> rfl
  all_goals first | rfl | cases hfinite

/-! ## Floats -/

theorem isPositive_and_isFinite (ha : 0 < a) (hfinite : a.isFinite = true) :
    (isPositive (value a) && (value a).isFinite) = true := by
  rw [zero_lt_iff.1 ha]
  exact hfinite

/-- A product of numbers that are not below zero is not below zero, if one of them is neither zero
nor infinite. -/
theorem mul_nonneg (ha : 0 ≤ a) (hb : 0 ≤ b)
    (h : 0 < a ∧ a.isFinite = true ∨ 0 < b ∧ b.isFinite = true) : 0 ≤ a * b := by
  rw [zero_le_iff] at ha hb ⊢
  refine isNonneg_unpack_pack (isNonneg_mul ha hb ?_)
  exact h.imp (fun h => isPositive_and_isFinite h.1 h.2) fun h => isPositive_and_isFinite h.1 h.2

theorem div_nonneg (ha : 0 ≤ a) (hb : 0 < b) (hfinite : b.isFinite = true) : 0 ≤ a / b := by
  rw [zero_le_iff] at ha ⊢
  exact isNonneg_unpack_pack (isNonneg_div ha (isPositive_and_isFinite hb hfinite))

/-- A number less a smaller one is not below zero, also where it is infinite. -/
theorem sub_nonneg_of_le (hb : 0 ≤ b) (hba : b ≤ a) (hfinite : b.isFinite = true) : 0 ≤ a - b := by
  have ha := Scalar.le_trans hb hba
  have hle := (le_iff_magnitude hb ha).1 hba
  rw [zero_le_iff] at ha hb ⊢
  exact isNonneg_unpack_pack (isNonneg_sub ha hb (canonical_value a) (canonical_value b) hfinite hle)

theorem toFloat_nonneg (n : UInt64) : 0 ≤ n.toFloat :=
  zero_le_iff.2 (isNonneg_unpack_pack (isNonneg_normalize (Int.natCast_nonneg _) _))

theorem isNonneg_ofScientific (m : ℕ) (e : ℤ) :
    isNonneg (ofScientific .binary64 m e) = true := by
  unfold ofScientific
  split
  · rfl
  · split
    · rfl
    · split
      · rfl
      · split
        · exact isNonneg_mul rfl rfl (.inl rfl)
        · exact isNonneg_div rfl rfl

/-- No whole number is below zero. -/
theorem natCast_nonneg (n : ℕ) : (0 : Float) ≤ (n : Float) := by
  show 0 ≤ Float.ofScientific n false 0
  unfold Float.ofScientific
  split
  · have hone : Float.exactlyRepresentablePowersOfTen[0] = 1 := rfl
    simp only [hone]
    exact mul_nonneg (toFloat_nonneg _) zero_le_one (.inr ⟨zero_lt_iff.2 rfl, rfl⟩)
  · exact zero_le_iff.2 (isNonneg_unpack_pack (isNonneg_ofScientific n 0))

end ResourceSelection.Binary64
