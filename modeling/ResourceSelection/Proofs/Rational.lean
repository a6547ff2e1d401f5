import Mathlib.Algebra.Order.Field.Rat
import Mathlib.Tactic.Linarith
import ResourceSelection.Proofs.Order
import ResourceSelection.Scalar.Rational

/-!
# Rational numbers are lawful

The order laws of weights hold of the rationals, where no value is special. There the larger and the
smaller of two numbers are the maximum and the minimum of the order, and bringing a weight between
its bounds is a matter of these two, whatever the weight was before.
-/

namespace ResourceSelection

instance instLawfulScalarRat : LawfulScalar ℚ where
  lt_irrefl := lt_irrefl
  lt_trans := lt_trans
  lt_or_lt {a b c} hac _ := (lt_or_ge a b).imp_right fun hba => lt_of_le_of_lt hba hac
  isNaN_of_lt _ := ⟨rfl, rfl⟩
  le_iff := ⟨fun h => ⟨rfl, rfl, not_lt.2 h⟩, fun h => not_lt.1 h.2.2⟩
  same_iff := beq_iff_eq
  isNaN_zero := rfl
  isNaN_of_isFinite _ := rfl
  isFinite_of_lt_of_lt _ _ := rfl
  pos_of_add {a b} h := by
    rcases lt_or_ge 0 a with ha | ha
    · exact .inl ha
    · exact .inr (by linarith)
  ne_zero_of_div {a b} h := by
    have ha : a ≠ 0 := by
      rintro rfl
      rw [zero_div] at h
      exact lt_irrefl 0 h
    exact (lt_or_gt_of_ne ha).symm

namespace Scalar

theorem larger_rat (x y : ℚ) : larger x y = max x y := by
  unfold larger
  split
  · next h => exact (max_eq_left (le_of_lt (of_decide_eq_true h))).symm
  · next h => exact (max_eq_right (not_lt.1 fun h' => h (decide_eq_true h'))).symm

theorem smaller_rat (x y : ℚ) : smaller x y = min x y := by
  unfold smaller
  split
  · next h => exact (min_eq_left (le_of_lt (of_decide_eq_true h))).symm
  · next h => exact (min_eq_right (not_lt.1 fun h' => h (decide_eq_true h'))).symm

end Scalar

theorem clampWeight_rat (x previous lo hi : ℚ) :
    clampWeight x previous lo hi = min (max x lo) hi := by
  show Scalar.smaller (Scalar.larger x lo) hi = _
  rw [Scalar.larger_rat, Scalar.smaller_rat]

end ResourceSelection
