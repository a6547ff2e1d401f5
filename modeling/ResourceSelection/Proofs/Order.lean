import ResourceSelection.Resource

/-!
# The order of weights

What the library relies on when it compares two numbers. The comparison is a strict weak order on
everything but NaN, and a NaN compares with nothing; what lies between two numbers is finite; a sum
or a quotient is positive only if one of its terms, or the dividend, is something other than zero.
Binary floating point obeys these laws, rounding, signed zeros and infinities included.

The laws are few on purpose. Whatever is proved from them holds of weights that a user can supply,
not only of numbers that behave.
-/

namespace ResourceSelection

/-- Numbers whose comparisons, sums and quotients are to be relied on. -/
class LawfulScalar (ω : Type) [Scalar ω] : Prop where
  lt_irrefl (a : ω) : ¬ a < a
  lt_trans {a b c : ω} : a < b → b < c → a < c
  lt_or_lt {a b c : ω} : a < c → Scalar.isNaN b = false → a < b ∨ b < c
  isNaN_of_lt {a b : ω} : a < b → Scalar.isNaN a = false ∧ Scalar.isNaN b = false
  le_iff {a b : ω} :
    a ≤ b ↔ Scalar.isNaN a = false ∧ Scalar.isNaN b = false ∧ ¬ b < a
  same_iff {a b : ω} : Scalar.same a b = true ↔ a = b
  isNaN_zero : Scalar.isNaN (0 : ω) = false
  isNaN_of_isFinite {a : ω} : Scalar.isFinite a = true → Scalar.isNaN a = false
  isFinite_of_lt_of_lt {a b c : ω} : a < b → b < c → Scalar.isFinite b = true
  pos_of_add {a b : ω} : 0 < a + b → 0 < a ∨ 0 < b
  ne_zero_of_div {a b : ω} : 0 < a / b → 0 < a ∨ a < 0

namespace Scalar

variable {ω : Type} [Scalar ω] [LawfulScalar ω] {a b c : ω}

open LawfulScalar

theorem le_refl (ha : isNaN a = false) : a ≤ a := le_iff.2 ⟨ha, ha, lt_irrefl a⟩

theorem le_of_not_lt (ha : isNaN a = false) (hb : isNaN b = false) (h : ¬ b < a) : a ≤ b :=
  le_iff.2 ⟨ha, hb, h⟩

theorem not_lt_of_le (h : a ≤ b) : ¬ b < a := (le_iff.1 h).2.2

theorem isNaN_left (h : a ≤ b) : isNaN a = false := (le_iff.1 h).1

theorem isNaN_right (h : a ≤ b) : isNaN b = false := (le_iff.1 h).2.1

theorem le_of_lt (h : a < b) : a ≤ b :=
  le_of_not_lt (isNaN_of_lt h).1 (isNaN_of_lt h).2 fun h' => lt_irrefl a (lt_trans h h')

theorem lt_of_lt_of_le (hab : a < b) (hbc : b ≤ c) : a < c :=
  (lt_or_lt hab (isNaN_right hbc)).resolve_right (not_lt_of_le hbc)

theorem le_trans (hab : a ≤ b) (hbc : b ≤ c) : a ≤ c :=
  le_of_not_lt (isNaN_left hab) (isNaN_right hbc)
    fun h => not_lt_of_le hbc (lt_of_lt_of_le h hab)

theorem not_le_of_isNaN (ha : isNaN a = true) : ¬ a ≤ b := by
  intro h
  rw [isNaN_left h] at ha
  exact Bool.false_ne_true ha

theorem not_lt_of_isNaN (hb : isNaN b = true) : ¬ a < b := by
  intro h
  rw [(isNaN_of_lt h).2] at hb
  exact Bool.false_ne_true hb

/-- What is not at most zero is positive, or no number. -/
theorem pos_or_isNaN_of_not_le_zero (h : ¬ b ≤ 0) : 0 < b ∨ isNaN b = true := by
  rcases hnan : isNaN b with _ | _
  · refine .inl (Decidable.byContradiction fun hb => h ?_)
    exact le_of_not_lt hnan isNaN_zero hb
  · exact .inr rfl

/-- A number that is not at most zero, and that something is below, is positive. -/
theorem pos_of_not_le_zero (h : ¬ b ≤ 0) (hab : a < b) : 0 < b :=
  (pos_or_isNaN_of_not_le_zero h).resolve_right fun hnan => not_lt_of_isNaN hnan hab

theorem le_larger (hb : isNaN b = false) : b ≤ larger a b := by
  unfold larger
  split
  · next h =>
      have hba : b < a := by simpa [hb] using h
      exact le_of_lt hba
  · exact le_refl hb

theorem smaller_le (hb : isNaN b = false) : smaller a b ≤ b := by
  unfold smaller
  split
  · next h =>
      have hab : a < b := by simpa [hb] using h
      exact le_of_lt hab
  · exact le_refl hb

omit [LawfulScalar ω] in
theorem larger_of_lt (h : b < a) : larger a b = a := by
  unfold larger
  rw [if_pos (by simp [h])]

omit [LawfulScalar ω] in
theorem larger_of_not_lt (hb : isNaN b = false) (h : ¬ b < a) : larger a b = b := by
  unfold larger
  rw [if_neg (by simp [hb, h])]

omit [LawfulScalar ω] in
theorem smaller_of_lt (h : a < b) : smaller a b = a := by
  unfold smaller
  rw [if_pos (by simp [h])]

omit [LawfulScalar ω] in
theorem smaller_of_not_lt (hb : isNaN b = false) (h : ¬ a < b) : smaller a b = b := by
  unfold smaller
  rw [if_neg (by simp [hb, h])]

omit [LawfulScalar ω] in
theorem le_smaller (hca : c ≤ a) (hcb : c ≤ b) : c ≤ smaller a b := by
  unfold smaller
  split
  · exact hca
  · exact hcb

/-- What a fold of additions leaves positive was positive somewhere. -/
theorem pos_of_foldl_add {xs : List ω} (h : 0 < xs.foldl (· + ·) a) :
    0 < a ∨ ∃ x ∈ xs, 0 < x := by
  induction xs generalizing a with
  | nil => exact .inl h
  | cons x rest ih =>
      rcases ih h with hsum | ⟨y, hy, hpos⟩
      · rcases pos_of_add hsum with ha | hx
        · exact .inl ha
        · exact .inr ⟨x, List.mem_cons_self, hx⟩
      · exact .inr ⟨y, List.mem_cons_of_mem x hy, hpos⟩

/-- A sum is positive only if one of its terms is. -/
theorem exists_pos_of_sum {xs : List ω} (h : 0 < sum xs) : ∃ x ∈ xs, 0 < x :=
  (pos_of_foldl_add h).resolve_left (lt_irrefl 0)

/-! ## Between two bounds -/

/-- One of two bounds, or strictly between them. A zero that equals a bound in everything but its
sign is none of these. -/
def Seated (lower upper x : ω) : Prop := x = lower ∨ x = upper ∨ lower < x ∧ x < upper

variable {lower upper x : ω}

omit [LawfulScalar ω] in
/-- Whatever is brought between two bounds has a seat there. -/
theorem seated_brought (hl : isNaN lower = false) (hu : isNaN upper = false) (x : ω) :
    Seated lower upper (smaller (larger x lower) upper) := by
  by_cases hupper : larger x lower < upper
  · rw [smaller_of_lt hupper]
    by_cases hlower : lower < x
    · rw [larger_of_lt hlower] at hupper ⊢
      exact .inr (.inr ⟨hlower, hupper⟩)
    · exact .inl (larger_of_not_lt hl hlower)
  · exact .inr (.inl (smaller_of_not_lt hu hupper))

theorem Seated.within (h : Seated lower upper x) (hle : lower ≤ upper) : lower ≤ x ∧ x ≤ upper := by
  rcases h with rfl | rfl | ⟨hl, hu⟩
  · exact ⟨le_refl (isNaN_left hle), hle⟩
  · exact ⟨hle, le_refl (isNaN_right hle)⟩
  · exact ⟨le_of_lt hl, le_of_lt hu⟩

theorem Seated.isFinite (h : Seated lower upper x) (hl : isFinite lower = true)
    (hu : isFinite upper = true) : isFinite x = true := by
  rcases h with rfl | rfl | ⟨hlower, hupper⟩
  · exact hl
  · exact hu
  · exact isFinite_of_lt_of_lt hlower hupper

/-- Nothing happens to a number that has its seat already, if the bounds are two numbers or one and
the same; zeros of different sign are neither. -/
theorem Seated.brought_eq (h : Seated lower upper x) (hl : isNaN lower = false)
    (hu : isNaN upper = false) (hbounds : lower < upper ∨ lower = upper) :
    smaller (larger x lower) upper = x := by
  rcases h with rfl | rfl | ⟨hlower, hupper⟩
  · rw [larger_of_not_lt hl (lt_irrefl x)]
    rcases hbounds with hlt | rfl
    · exact smaller_of_lt hlt
    · exact smaller_of_not_lt hl (lt_irrefl x)
  · have hlarger : larger x lower = x := by
      rcases hbounds with hlt | rfl
      · exact larger_of_lt hlt
      · exact larger_of_not_lt hl (lt_irrefl lower)
    rw [hlarger]
    exact smaller_of_not_lt hu (lt_irrefl x)
  · rw [larger_of_lt hlower]
    exact smaller_of_lt hupper

end Scalar

variable {ω : Type} [Scalar ω] [LawfulScalar ω]

open Scalar

/-- A clamped proposal lies between the bounds, whatever was proposed, if the weight it replaces
does. -/
theorem clampWeight_within {value previous lower upper : ω} (hlow : lower ≤ previous)
    (hupp : previous ≤ upper) :
    lower ≤ clampWeight value previous lower upper ∧
      clampWeight value previous lower upper ≤ upper := by
  have hl := isNaN_left hlow
  have hu := isNaN_right hupp
  unfold clampWeight
  split
  · exact ⟨hlow, hupp⟩
  · exact ⟨le_smaller (le_larger hl) (le_trans hlow hupp), smaller_le hu⟩

/-- Clamping raises no weight that the proposal does not raise. -/
theorem not_lt_clampWeight {value previous lower upper : ω} (hlow : lower ≤ previous)
    (hvalue : ¬ previous < value) : ¬ previous < clampWeight value previous lower upper := by
  have hlarger : ¬ previous < larger value lower := by
    unfold larger
    split
    · exact hvalue
    · exact not_lt_of_le hlow
  have hnan : isNaN (larger value lower) = false := isNaN_right (le_larger (isNaN_left hlow))
  unfold clampWeight
  split
  · exact LawfulScalar.lt_irrefl previous
  · unfold smaller
    split
    · exact hlarger
    · next hupper =>
        intro hlt
        rcases LawfulScalar.lt_or_lt hlt hnan with habove | hbelow
        · exact hlarger habove
        · simp [hbelow] at hupper

end ResourceSelection
