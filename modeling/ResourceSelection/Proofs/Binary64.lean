import Mathlib
import ResourceSelection.Proofs.Order
import ResourceSelection.Scalar.Binary64

/-!
# Binary floating point is lawful

The order laws of weights, proved of the numbers the library runs on. A float unpacks to a sign, a
mantissa and an exponent, or to one of the special values, and comparing two of them compares
those. `rank` sends everything but NaN into a linear order that the comparison agrees with, signed
zeros to one place, and the laws are read off that order.

What sums and quotients owe to the laws is a matter of signs only: rounding never changes one.
-/

namespace ResourceSelection.Binary64

open Float.Model (UnpackedFloat Format)
open Float.Model.UnpackedFloat

/-- Where a value stands among all others: by sign and kind first, then by exponent, then by
mantissa, the latter two reversed below zero. -/
def rank : UnpackedFloat → ℤ ×ₗ ℤ ×ₗ ℤ
  | .infinity .positive => toLex (2, toLex (0, 0))
  | .finite .positive m e _ => toLex (1, toLex (e, (m : ℤ)))
  | .zero _ => toLex (0, toLex (0, 0))
  | .finite .negative m e _ => toLex (-1, toLex (-e, -(m : ℤ)))
  | .infinity .negative => toLex (-2, toLex (0, 0))
  | .notANumber => toLex (0, toLex (0, 0))

theorem compare_then_eq_lt {e f : ℤ} {m n : ℕ} :
    (compare e f).then (compare m n) = .lt ↔ e < f ∨ e = f ∧ m < n := by
  rw [← Int.compare_eq_lt, ← Int.compare_eq_eq, ← Nat.compare_eq_lt]
  cases compare e f <;> simp [Ordering.then]

theorem compare_then_eq_gt {e f : ℤ} {m n : ℕ} :
    (compare e f).then (compare m n) = .gt ↔ f < e ∨ f = e ∧ n < m := by
  rw [eq_comm (a := f), ← Int.compare_eq_gt, ← Int.compare_eq_eq, ← Nat.compare_eq_gt]
  cases compare e f <;> simp [Ordering.then]

theorem compare_negative_positive : compare Sign.negative Sign.positive = .lt := rfl

theorem compare_positive_negative : compare Sign.positive Sign.negative = .gt := rfl

/-- Comparing two values compares their ranks. -/
theorem compare_rank {u v : UnpackedFloat} (hu : u.isNaN = false) (hv : v.isNaN = false) :
    ∃ o, u.compare v = some o ∧ (o = .lt ↔ rank u < rank v) ∧ (o = .gt ↔ rank v < rank u) := by
  rcases u with (_ | _) | _ | (_ | _) | ⟨_ | _, m, e, _⟩ <;>
    rcases v with (_ | _) | _ | (_ | _) | ⟨_ | _, n, f, _⟩ <;>
      simp [UnpackedFloat.isNaN] at hu hv <;>
        refine ⟨_, rfl, ?_, ?_⟩ <;>
          simp [rank, Prod.Lex.toLex_lt_toLex, Ordering.swap_eq_lt, compare_then_eq_lt,
            compare_then_eq_gt, compare_negative_positive, compare_positive_negative]
  -- the mantissas of two negative values are compared the other way around
  all_goals omega

theorem compare_of_isNaN_left {u v : UnpackedFloat} (hu : u.isNaN = true) : u.compare v = none := by
  obtain rfl := isNaN_iff.1 hu
  rfl

theorem compare_of_isNaN_right {u v : UnpackedFloat} (hv : v.isNaN = true) : u.compare v = none := by
  obtain rfl := isNaN_iff.1 hv
  cases u <;> rfl

/-! ## The comparisons -/

/-- The value that a float stands for. -/
abbrev value (a : Float) : UnpackedFloat := a.toModel.unpack

theorem lt_iff {a b : Float} :
    a < b ↔ (value a).isNaN = false ∧ (value b).isNaN = false ∧
      rank (value a) < rank (value b) := by
  refine (decide_eq_true_iff (p := a.toModel < b.toModel)).trans ?_
  show ((value a).compare (value b) == some .lt) = true ↔ _
  rcases hu : (value a).isNaN with _ | _
  · rcases hv : (value b).isNaN with _ | _
    · obtain ⟨o, ho, hlt, -⟩ := compare_rank hu hv
      simp [ho, hlt]
    · rw [compare_of_isNaN_right hv]
      simp
  · rw [compare_of_isNaN_left hu]
    simp

theorem le_iff {a b : Float} :
    a ≤ b ↔ (value a).isNaN = false ∧ (value b).isNaN = false ∧
      ¬ rank (value b) < rank (value a) := by
  refine (decide_eq_true_iff (p := a.toModel ≤ b.toModel)).trans ?_
  show ((value a).compare (value b)).any (·.isLE) = true ↔ _
  rcases hu : (value a).isNaN with _ | _
  · rcases hv : (value b).isNaN with _ | _
    · obtain ⟨o, ho, -, hgt⟩ := compare_rank hu hv
      rw [← hgt]
      cases o <;> simp [ho]
    · rw [compare_of_isNaN_right hv]
      simp
  · rw [compare_of_isNaN_left hu]
    simp

/-- Two floats are equal as numbers if neither is below the other. -/
theorem beq_iff {a b : Float} : (a == b) = true ↔ a ≤ b ∧ b ≤ a := by
  rw [le_iff, le_iff]
  show ((value a).compare (value b) == some .eq) = true ↔ _
  rcases hu : (value a).isNaN with _ | _
  · rcases hv : (value b).isNaN with _ | _
    · obtain ⟨o, ho, hlt, hgt⟩ := compare_rank hu hv
      rw [← hlt, ← hgt]
      cases o <;> simp [ho]
    · rw [compare_of_isNaN_right hv]
      simp
  · rw [compare_of_isNaN_left hu]
    simp

theorem value_zero : value (0 : Float) = .zero .positive := rfl

/-! ## Signs -/

/-- Whether a value is above zero. -/
def isPositive : UnpackedFloat → Bool
  | .infinity .positive => true
  | .finite .positive .. => true
  | _ => false

theorem zero_lt_iff {a : Float} : 0 < a ↔ isPositive (value a) = true := by
  rw [lt_iff, value_zero]
  rcases value a with (_ | _) | _ | (_ | _) | ⟨_ | _, m, e, _⟩ <;>
    simp [UnpackedFloat.isNaN, rank, isPositive, Prod.Lex.toLex_lt_toLex]

/-- The sign bit is the sign of the value that it is unpacked with. -/
theorem not_isPositive_of_unpackSign {f : Format} {bits : BitVec f.numBits}
    (h : unpackSign bits = 1#1) : isPositive (unpack f bits) = false := by
  have hsign : Sign.ofBitVec (unpackSign bits) = .negative := by rw [h]; rfl
  unfold unpack
  simp only [hsign]
  split
  · split <;> rfl
  · split
    · split <;> rfl
    · rfl

/-- Packing makes no value positive. -/
theorem isPositive_of_unpack_pack {u : UnpackedFloat}
    (h : isPositive (unpack .binary64 (pack .binary64 u)) = true) : isPositive u = true := by
  rcases u with (_ | _) | _ | (_ | _) | ⟨_ | _, m, e, hm⟩
  case finite.negative =>
    have hsign : unpackSign (pack .binary64 (.finite .negative m e hm)) = 1#1 := by
      unfold pack
      simp only
      split
      · exact unpackSign_packComponents _ _ _
      · split
        · exact unpackSign_packComponents _ _ _
        · exact unpackSign_packComponents _ _ _
    rw [not_isPositive_of_unpackSign hsign] at h
    exact absurd h Bool.false_ne_true
  case infinity.positive => rfl
  case finite.positive => rfl
  all_goals exact absurd h (by decide)

theorem isPositive_roundWithAccuracy {f : Format} {sign : Sign} {m : ℕ} {e : ℤ} {acc : Accuracy}
    (h : isPositive (roundWithAccuracy f sign m e acc) = true) : sign = .positive := by
  cases sign
  · simp only [roundWithAccuracy] at h
    split at h <;> exact absurd h Bool.false_ne_true
  · rfl

theorem pos_of_isPositive_normalize {f : Format} {m e : ℤ} {sign : Sign}
    (h : isPositive (UnpackedFloat.normalize f m e sign) = true) : 0 < m := by
  unfold UnpackedFloat.normalize at h
  split at h
  · exact nomatch isPositive_roundWithAccuracy h
  · exact absurd h Bool.false_ne_true
  · next hgt => exact Int.compare_eq_gt.1 hgt

/-- Two values that are not positive have no positive sum. -/
theorem isPositive_add {f : Format} {u v : UnpackedFloat} (hu : isPositive u = false)
    (hv : isPositive v = false) : isPositive (add f u v) = false := by
  unfold add
  split
  · rfl
  · rfl
  · split
    · exact hu
    · rfl
  · exact hu
  · exact hv
  · split
    · rfl
    · rfl
  · exact hv
  · exact hu
  · next sign m e _ sign' n k _ =>
      cases sign
      · cases sign'
        · rw [Bool.eq_false_iff]
          intro h
          have hneg (a b : ℕ) : ¬ 0 < -(a : ℤ) + -(b : ℤ) := by omega
          exact hneg _ _ (pos_of_isPositive_normalize h)
        · exact nomatch hv
      · exact nomatch hu

/-- What is no number and what is zero has no positive quotient. -/
theorem isPositive_div {f : Format} {u v : UnpackedFloat}
    (hu : u.isNaN = true ∨ rank u = rank (.zero .positive)) : isPositive (div f u v) = false := by
  rcases u with (_ | _) | _ | _ | ⟨_ | _, m, e, _⟩
  case notANumber => rfl
  case zero => cases v <;> rfl
  all_goals simp [UnpackedFloat.isNaN, rank] at hu

/-! ## The laws -/

theorem isNaN_of_isFinite {a : Float} (h : a.isFinite = true) : a.isNaN = false := by
  show (value a).isNaN = false
  replace h : (value a).isFinite = true := h
  cases hu : value a <;> simp [hu, UnpackedFloat.isFinite, UnpackedFloat.isNaN] at h ⊢

theorem not_infinity_lt (u : UnpackedFloat) : ¬ rank (.infinity .positive) < rank u := by
  rcases u with (_ | _) | _ | (_ | _) | ⟨_ | _, m, e, _⟩ <;>
    simp [rank, Prod.Lex.toLex_lt_toLex]

theorem not_lt_infinity (u : UnpackedFloat) : ¬ rank u < rank (.infinity .negative) := by
  rcases u with (_ | _) | _ | (_ | _) | ⟨_ | _, m, e, _⟩ <;>
    simp [rank, Prod.Lex.toLex_lt_toLex]

/-- What is above something and below something else is infinite on neither side. -/
theorem isFinite_of_lt_of_lt {a b c : Float} (hab : a < b) (hbc : b < c) : b.isFinite = true := by
  obtain ⟨-, hb, hab⟩ := lt_iff.1 hab
  obtain ⟨-, -, hbc⟩ := lt_iff.1 hbc
  show (value b).isFinite = true
  rcases hvalue : value b with (_ | _) | _ | _ | _
  · rw [hvalue] at hab
    exact absurd hab (not_lt_infinity _)
  · rw [hvalue] at hbc
    exact absurd hbc (not_infinity_lt _)
  · rw [hvalue] at hb
    exact nomatch hb
  · rfl
  · rfl

theorem pos_of_add {a b : Float} (h : 0 < a + b) : 0 < a ∨ 0 < b := by
  rw [zero_lt_iff] at h ⊢
  rw [zero_lt_iff]
  have hsum : isPositive (add .binary64 (value a) (value b)) = true := isPositive_of_unpack_pack h
  by_contra hnone
  rw [not_or, Bool.not_eq_true, Bool.not_eq_true] at hnone
  rw [isPositive_add hnone.1 hnone.2] at hsum
  exact Bool.false_ne_true hsum

theorem ne_zero_of_div {a b : Float} (h : 0 < a / b) : 0 < a ∨ a < 0 := by
  rw [zero_lt_iff] at h
  have hquot : isPositive (div .binary64 (value a) (value b)) = true := isPositive_of_unpack_pack h
  by_contra hnone
  rw [not_or] at hnone
  have hzero : (value a).isNaN = true ∨ rank (value a) = rank (.zero .positive) := by
    rcases hu : (value a).isNaN with _ | _
    · refine .inr (le_antisymm ?_ ?_)
      · exact le_of_not_gt fun h => hnone.1 (lt_iff.2 ⟨rfl, hu, h⟩)
      · exact le_of_not_gt fun h => hnone.2 (lt_iff.2 ⟨hu, rfl, h⟩)
    · exact .inl rfl
  rw [isPositive_div hzero] at hquot
  exact Bool.false_ne_true hquot

instance instLawfulScalarFloat : LawfulScalar Float where
  lt_irrefl a h := lt_irrefl _ (lt_iff.1 h).2.2
  lt_trans hab hbc := by
    obtain ⟨ha, hb, hab⟩ := lt_iff.1 hab
    obtain ⟨-, hc, hbc⟩ := lt_iff.1 hbc
    exact lt_iff.2 ⟨ha, hc, hab.trans hbc⟩
  lt_or_lt {a b c} hac hb := by
    obtain ⟨ha, hc, hac⟩ := lt_iff.1 hac
    rcases lt_or_ge (rank (value a)) (rank (value b)) with hab | hba
    · exact .inl (lt_iff.2 ⟨ha, hb, hab⟩)
    · exact .inr (lt_iff.2 ⟨hb, hc, hba.trans_lt hac⟩)
  isNaN_of_lt h := ⟨(lt_iff.1 h).1, (lt_iff.1 h).2.1⟩
  le_iff {a b} := by
    refine le_iff.trans ⟨fun ⟨ha, hb, h⟩ => ⟨ha, hb, fun hba => h (lt_iff.1 hba).2.2⟩, ?_⟩
    exact fun ⟨ha, hb, h⟩ => ⟨ha, hb, fun hba => h (lt_iff.2 ⟨hb, ha, hba⟩)⟩
  same_iff := beq_iff_eq.trans Float.toBits_inj
  isNaN_zero := rfl
  isNaN_of_isFinite := isNaN_of_isFinite
  isFinite_of_lt_of_lt := isFinite_of_lt_of_lt
  pos_of_add := pos_of_add
  ne_zero_of_div := ne_zero_of_div

end ResourceSelection.Binary64
