import Mathlib.Algebra.BigOperators.Group.List.Basic
import Mathlib.Algebra.Order.BigOperators.GroupWithZero.List
import Mathlib.Algebra.Order.Field.Rat
import Mathlib.Data.List.GetD
import Mathlib.Order.Bounds.Basic
import Mathlib.Order.Interval.Set.Basic
import Mathlib.Tactic.Linarith
import Mathlib.Tactic.NormNum
import Mathlib.Tactic.Ring
import ResourceSelection.Sampling.Priority
import ResourceSelection.Scalar.Rational

/-!
# Which group a draw prefers

Over the rationals the walk over the groups divides the draws among them. A group with score `s`
takes the part `min 1 s` of those that the groups before it have left over, so `leftover` is the
product of what each of them leaves, and a draw goes to the first group that it lies in reach of.

The walk never looks at the draw itself again once it has passed a group: it goes on with a draw
that was stretched from the part left over back over the whole unit interval. What carries the
induction is that stretching keeps the reach of every later group (`lt_reach_succ_iff`). A group
with score zero leaves everything and stretches nothing, and one with a score of one or more leaves
nothing, so both need no draw. That the draw is made late is of no consequence for the choice: it
may as well be made before the walk.
-/

namespace ResourceSelection

variable {rates : List ℚ} {factor rate r : ℚ} {i : ℕ}

/-! ## What the groups leave over -/

/-- The part of the draws that some groups leave to those behind them. -/
def leftover (factor : ℚ) (rates : List ℚ) : ℚ :=
  (rates.map fun rate => 1 - min 1 (rate * factor)).prod

/-- The point below which draws go to the group with index `i` or to one before it. -/
def reach (factor : ℚ) (rates : List ℚ) (i : ℕ) : ℚ := 1 - leftover factor (rates.take (i + 1))

theorem leftover_cons (factor rate : ℚ) (rates : List ℚ) :
    leftover factor (rate :: rates) = (1 - min 1 (rate * factor)) * leftover factor rates := by
  rw [leftover, List.map_cons, List.prod_cons, leftover]

theorem leftover_take_succ (factor : ℚ) (rates : List ℚ) (i : ℕ) :
    leftover factor (rates.take (i + 1)) =
      leftover factor (rates.take i) * (1 - min 1 (rates.getD i 0 * factor)) := by
  rw [List.take_add_one, leftover, List.map_append, List.prod_append, ← leftover,
    List.getD_eq_getElem?_getD]
  cases rates[i]? <;> simp

theorem leftover_nonneg (factor : ℚ) (rates : List ℚ) : 0 ≤ leftover factor rates := by
  refine List.prod_nonneg fun x hx => ?_
  obtain ⟨rate, -, rfl⟩ := List.mem_map.1 hx
  exact sub_nonneg.2 (min_le_left 1 _)

theorem leftover_take_succ_le (hrates : ∀ rate ∈ rates, 0 ≤ rate) (hfactor : 0 < factor) (i : ℕ) :
    leftover factor (rates.take (i + 1)) ≤ leftover factor (rates.take i) := by
  have hrate : 0 ≤ rates.getD i 0 := by
    rcases Nat.lt_or_ge i rates.length with hlt | hge
    · rw [List.getD_eq_getElem _ _ hlt]
      exact hrates _ (List.getElem_mem hlt)
    · rw [List.getD_eq_default _ _ hge]
  have hshare : 0 ≤ min 1 (rates.getD i 0 * factor) :=
    le_min zero_le_one (mul_nonneg hrate hfactor.le)
  rw [leftover_take_succ]
  exact mul_le_of_le_one_right (leftover_nonneg _ _) (by linarith)

theorem leftover_take_anti (hrates : ∀ rate ∈ rates, 0 ≤ rate) (hfactor : 0 < factor) {i j : ℕ}
    (h : i ≤ j) : leftover factor (rates.take j) ≤ leftover factor (rates.take i) := by
  induction h with
  | refl => exact le_rfl
  | step _ ih => exact (leftover_take_succ_le hrates hfactor _).trans ih

theorem leftover_take_le_one (hrates : ∀ rate ∈ rates, 0 ≤ rate) (hfactor : 0 < factor) (i : ℕ) :
    leftover factor (rates.take i) ≤ 1 :=
  leftover_take_anti hrates hfactor (Nat.zero_le i)

theorem reach_eq_add (factor : ℚ) (rates : List ℚ) (i : ℕ) :
    reach factor rates i = 1 - leftover factor (rates.take i) +
      min 1 (rates.getD i 0 * factor) * leftover factor (rates.take i) := by
  rw [reach, leftover_take_succ]
  ring

theorem lt_reach_zero_of_one_le (hscore : 1 ≤ rate * factor) (hr : r < 1) :
    r < reach factor (rate :: rates) 0 := by
  rw [reach, List.take_succ_cons, leftover_cons, min_eq_left hscore]
  linarith

theorem lt_reach_zero_iff (hscore : rate * factor < 1) :
    r < reach factor (rate :: rates) 0 ↔ r < rate * factor := by
  rw [reach, List.take_succ_cons, List.take_zero, leftover_cons, min_eq_right hscore.le]
  simp [leftover]

/-- A draw is in reach of a later group exactly if it is so when it has been stretched. -/
theorem lt_reach_succ_iff (hscore : rate * factor < 1) :
    r < reach factor (rate :: rates) (i + 1) ↔
      (r - rate * factor) / (1 - rate * factor) < reach factor rates i := by
  rw [reach, List.take_succ_cons, leftover_cons, min_eq_right hscore.le,
    div_lt_iff₀ (sub_pos.2 hscore), reach]
  constructor <;> intro h <;> linarith

/-! ## The walk -/

section

variable {γ : Type} (draw : γ → ℚ × γ)

theorem walkPriorities_cons (factor rate : ℚ) (rates : List ℚ) (index : ℕ) (r : ℚ) (g : γ) :
    walkPriorities factor draw (rate :: rates) index (some r) g =
      if 1 ≤ rate * factor then (index, g)
      else if rate * factor ≤ 0 then walkPriorities factor draw rates (index + 1) (some r) g
      else if r < rate * factor then (index, g)
      else walkPriorities factor draw rates (index + 1)
        (some ((r - rate * factor) / (1 - rate * factor))) g := rfl

theorem walkPriorities_cons_none (factor rate : ℚ) (rates : List ℚ) (index : ℕ) (g : γ) :
    walkPriorities factor draw (rate :: rates) index none g =
      if 1 ≤ rate * factor then (index, g)
      else if rate * factor ≤ 0 then walkPriorities factor draw rates (index + 1) none g
      else if (draw g).1 < rate * factor then (index, (draw g).2)
      else walkPriorities factor draw rates (index + 1)
        (some (((draw g).1 - rate * factor) / (1 - rate * factor))) (draw g).2 := rfl

/-- Once there is a draw, no other one is made. -/
theorem walkPriorities_some_eq (factor : ℚ) (rates : List ℚ) (index : ℕ) (r : ℚ) (g h : γ) :
    walkPriorities factor draw rates index (some r) g =
      ((walkPriorities factor draw rates index (some r) h).1, g) := by
  induction rates generalizing index r with
  | nil => rfl
  | cons rate rest ih =>
      rw [walkPriorities_cons, walkPriorities_cons]
      split
      · rfl
      · split
        · exact ih _ _
        · split
          · rfl
          · exact ih _ _

/-- The first positive score is below one, so that it takes a draw to decide. -/
def Undecided (factor : ℚ) (rates : List ℚ) : Prop :=
  ∃ rate ∈ rates.find? fun rate => 0 < rate * factor, rate * factor < 1

instance (factor : ℚ) (rates : List ℚ) : Decidable (Undecided factor rates) :=
  inferInstanceAs (Decidable (∃ rate ∈ rates.find? _, _))

theorem undecided_cons_of_le_zero (hscore : rate * factor ≤ 0) :
    Undecided factor (rate :: rates) ↔ Undecided factor rates := by
  rw [Undecided, List.find?_cons_of_neg (by simpa using hscore), Undecided]

theorem undecided_cons_of_pos (hscore : 0 < rate * factor) :
    Undecided factor (rate :: rates) ↔ rate * factor < 1 := by
  rw [Undecided, List.find?_cons_of_pos (by simpa using hscore)]
  simp

/-- The draw may as well be made before the walk, but for the generator that it leaves. -/
theorem walkPriorities_none_eq (factor : ℚ) (rates : List ℚ) (index : ℕ) (g : γ) :
    walkPriorities factor draw rates index none g =
      ((walkPriorities factor draw rates index (some (draw g).1) g).1,
        if Undecided factor rates then (draw g).2 else g) := by
  induction rates generalizing index with
  | nil =>
      have hnone : ¬ Undecided factor [] := by simp [Undecided]
      rw [if_neg hnone]
      rfl
  | cons rate rest ih =>
      rw [walkPriorities_cons_none, walkPriorities_cons]
      by_cases hone : 1 ≤ rate * factor
      · have hdecided : ¬ Undecided factor (rate :: rest) := by
          rw [undecided_cons_of_pos (by linarith)]
          exact not_lt.2 hone
        rw [if_pos hone, if_pos hone, if_neg hdecided]
      · rw [if_neg hone, if_neg hone]
        by_cases hzero : rate * factor ≤ 0
        · rw [if_pos hzero, if_pos hzero, ih]
          simp only [undecided_cons_of_le_zero hzero]
        · have hundecided : Undecided factor (rate :: rest) :=
            (undecided_cons_of_pos (not_le.1 hzero)).2 (not_le.1 hone)
          rw [if_neg hzero, if_neg hzero, if_pos hundecided]
          split
          · rfl
          · exact walkPriorities_some_eq draw factor rest _ _ _ g

/-- A group that a draw passes, with a score of zero or after a comparison, stretches it. -/
theorem walkPriorities_cons_of_passed (hscore : rate * factor < 1) (hnonneg : 0 ≤ rate * factor)
    (hpassed : rate * factor ≤ r) (index : ℕ) (g : γ) :
    walkPriorities factor draw (rate :: rates) index (some r) g =
      walkPriorities factor draw rates (index + 1)
        (some ((r - rate * factor) / (1 - rate * factor))) g := by
  rw [walkPriorities_cons, if_neg (not_le.2 hscore)]
  split
  · next hle =>
      rw [le_antisymm hle hnonneg, sub_zero, sub_zero, div_one]
  · rw [if_neg (not_lt.2 hpassed)]

def inReach (factor : ℚ) (rates : List ℚ) (r : ℚ) : Set ℕ :=
  {i | i < rates.length ∧ r < reach factor rates i}

theorem isLeast_inReach_zero (hlt : r < reach factor (rate :: rates) 0) :
    IsLeast (inReach factor (rate :: rates) r) 0 :=
  ⟨⟨Nat.succ_pos _, hlt⟩, fun _ _ => Nat.zero_le _⟩

theorem isLeast_inReach_succ (hscore : rate * factor < 1) (hpassed : rate * factor ≤ r)
    (h : IsLeast (inReach factor rates ((r - rate * factor) / (1 - rate * factor))) i) :
    IsLeast (inReach factor (rate :: rates) r) (i + 1) := by
  refine ⟨⟨Nat.succ_lt_succ h.1.1, (lt_reach_succ_iff hscore).2 h.1.2⟩, ?_⟩
  rintro (_ | j) ⟨hj, hlt⟩
  · exact absurd ((lt_reach_zero_iff hscore).1 hlt) (not_lt.2 hpassed)
  · exact Nat.succ_le_succ (h.2 ⟨Nat.lt_of_succ_lt_succ hj, (lt_reach_succ_iff hscore).1 hlt⟩)

theorem inReach_eq_empty (hscore : rate * factor < 1) (hpassed : rate * factor ≤ r)
    (h : inReach factor rates ((r - rate * factor) / (1 - rate * factor)) = ∅) :
    inReach factor (rate :: rates) r = ∅ := by
  rw [Set.eq_empty_iff_forall_notMem] at h ⊢
  rintro (_ | j) ⟨hj, hlt⟩
  · exact absurd ((lt_reach_zero_iff hscore).1 hlt) (not_lt.2 hpassed)
  · exact h j ⟨Nat.lt_of_succ_lt_succ hj, (lt_reach_succ_iff hscore).1 hlt⟩

/-- The walk ends at the first group in reach of the draw, or at the very first group when there is
none. -/
theorem walkPriorities_some_cases (hrates : ∀ rate ∈ rates, 0 ≤ rate) (hfactor : 0 < factor)
    (hr : 0 ≤ r ∧ r < 1) (index : ℕ) (g : γ) :
    (∃ i, IsLeast (inReach factor rates r) i ∧
      walkPriorities factor draw rates index (some r) g = (index + i, g)) ∨
    inReach factor rates r = ∅ ∧ walkPriorities factor draw rates index (some r) g = (0, g) := by
  induction rates generalizing index r with
  | nil => exact .inr ⟨Set.eq_empty_of_forall_notMem fun i hi => Nat.not_lt_zero i hi.1, rfl⟩
  | cons rate rest ih =>
      obtain ⟨hrate, hrest⟩ := List.forall_mem_cons.1 hrates
      have hnonneg : 0 ≤ rate * factor := mul_nonneg hrate hfactor.le
      by_cases hone : 1 ≤ rate * factor
      · refine .inl ⟨0, isLeast_inReach_zero (lt_reach_zero_of_one_le hone hr.2), ?_⟩
        rw [walkPriorities_cons, if_pos hone, Nat.add_zero]
      · have hscore := not_le.1 hone
        by_cases hlt : r < rate * factor
        · have hpos : ¬ rate * factor ≤ 0 := not_le.2 (lt_of_le_of_lt hr.1 hlt)
          refine .inl ⟨0, isLeast_inReach_zero ((lt_reach_zero_iff hscore).2 hlt), ?_⟩
          rw [walkPriorities_cons, if_neg hone, if_neg hpos, if_pos hlt, Nat.add_zero]
        · have hpassed := not_lt.1 hlt
          have hstretched : 0 ≤ (r - rate * factor) / (1 - rate * factor) ∧
              (r - rate * factor) / (1 - rate * factor) < 1 := by
            have hrest : 0 < 1 - rate * factor := sub_pos.2 hscore
            rw [le_div_iff₀ hrest, div_lt_iff₀ hrest]
            constructor <;> linarith [hr.2]
          rw [walkPriorities_cons_of_passed draw hscore hnonneg hpassed]
          rcases ih hrest hstretched (index + 1) with ⟨i, hleast, hwalk⟩ | ⟨hempty, hwalk⟩
          · refine .inl ⟨i + 1, isLeast_inReach_succ hscore hpassed hleast, ?_⟩
            rw [hwalk, Nat.add_assoc, Nat.add_comm 1]
          · exact .inr ⟨inReach_eq_empty hscore hpassed hempty, hwalk⟩

theorem pickPriority_eq (factor : ℚ) (rates : List ℚ) (g : γ) :
    pickPriority rates factor draw g =
      ((walkPriorities factor draw rates 0 (some (draw g).1) g).1,
        if Undecided factor rates then (draw g).2 else g) :=
  walkPriorities_none_eq draw factor rates 0 g

/-- A draw prefers the first group in its reach, or the very first one if there is none. -/
theorem pickPriority_cases (hrates : ∀ rate ∈ rates, 0 ≤ rate) (hfactor : 0 < factor) {g : γ}
    (hdraw : 0 ≤ (draw g).1 ∧ (draw g).1 < 1) :
    IsLeast (inReach factor rates (draw g).1) (pickPriority rates factor draw g).1 ∨
      inReach factor rates (draw g).1 = ∅ ∧ (pickPriority rates factor draw g).1 = 0 := by
  rw [pickPriority_eq]
  rcases walkPriorities_some_cases draw hrates hfactor hdraw 0 g with
    ⟨i, hleast, hwalk⟩ | ⟨hempty, hwalk⟩
  · rw [hwalk, Nat.zero_add]
    exact .inl hleast
  · rw [hwalk]
    exact .inr ⟨hempty, rfl⟩

end

/-! ## The draws of each group -/

/-- The first group in reach is the one whose part of the draws begins at or before the draw and
ends behind it. -/
theorem isLeast_inReach_iff (hrates : ∀ rate ∈ rates, 0 ≤ rate) (hfactor : 0 < factor)
    (hr : 0 ≤ r) : IsLeast (inReach factor rates r) i ↔
      i < rates.length ∧ 1 - leftover factor (rates.take i) ≤ r ∧ r < reach factor rates i := by
  constructor
  · rintro ⟨⟨hi, hlt⟩, hleast⟩
    refine ⟨hi, ?_, hlt⟩
    cases i with
    | zero => simpa [leftover] using hr
    | succ j =>
        by_contra hle
        exact Nat.not_succ_le_self j (hleast ⟨Nat.lt_of_succ_lt hi, not_le.1 hle⟩)
  · rintro ⟨hi, hle, hlt⟩
    refine ⟨⟨hi, hlt⟩, fun j hj => ?_⟩
    by_contra hji
    have hanti := leftover_take_anti hrates hfactor (Nat.lt_of_not_le hji)
    exact absurd hj.2 (not_lt.2 ((sub_le_sub_left hanti 1).trans hle))

theorem inReach_eq_empty_iff (hrates : ∀ rate ∈ rates, 0 ≤ rate) (hfactor : 0 < factor)
    (hr : 0 ≤ r) : inReach factor rates r = ∅ ↔ 1 - leftover factor rates ≤ r := by
  rw [Set.eq_empty_iff_forall_notMem]
  constructor
  · intro hnone
    rcases rates.eq_nil_or_concat with rfl | ⟨front, last, hrates⟩
    · simpa [leftover] using hr
    · have hlength : rates.length = front.length + 1 := by simp [hrates]
      have hlast : ¬ (front.length < rates.length ∧ r < reach factor rates front.length) :=
        hnone front.length
      rw [reach, ← hlength, List.take_length] at hlast
      exact not_lt.1 fun hlt => hlast ⟨hlength ▸ Nat.lt_succ_self _, hlt⟩
  · rintro hle i ⟨hi, hlt⟩
    have hanti := leftover_take_anti hrates hfactor (Nat.succ_le_of_lt hi)
    rw [List.take_length] at hanti
    exact absurd hlt (not_lt.2 ((sub_le_sub_left hanti 1).trans hle))

/-- The draws that prefer the group with index `i`. -/
def preferring (factor : ℚ) (rates : List ℚ) (i : ℕ) : Set ℚ :=
  {r | 0 ≤ r ∧ r < 1 ∧ (pickPriority rates factor (fun _ : Unit => (r, ())) ()).1 = i}

theorem mem_preferring_iff (hrates : ∀ rate ∈ rates, 0 ≤ rate) (hfactor : 0 < factor)
    (hr : 0 ≤ r ∧ r < 1) : r ∈ preferring factor rates i ↔
      IsLeast (inReach factor rates r) i ∨ inReach factor rates r = ∅ ∧ i = 0 := by
  have hcases := pickPriority_cases (fun _ : Unit => (r, ())) (g := ()) hrates hfactor hr
  rw [preferring, Set.mem_ofPred_eq]
  constructor
  · rintro ⟨-, -, rfl⟩
    exact hcases
  · rintro (hleast | ⟨hempty, rfl⟩)
    · refine ⟨hr.1, hr.2, ?_⟩
      rcases hcases with hpick | ⟨hempty, -⟩
      · exact hpick.unique hleast
      · exact absurd hleast.1 (hempty ▸ Set.notMem_empty i)
    · refine ⟨hr.1, hr.2, ?_⟩
      rcases hcases with hpick | ⟨-, hpick⟩
      · exact absurd hpick.1 (hempty ▸ Set.notMem_empty _)
      · exact hpick

theorem mem_unit_of_mem_Ico {left last : ℚ} (hleft : left ≤ 1) (hlast : last ≤ 1)
    (hr : r ∈ Set.Ico (1 - left) last) : 0 ≤ r ∧ r < 1 :=
  ⟨(sub_nonneg.2 hleft).trans hr.1, hr.2.trans_le hlast⟩

theorem reach_le_one (factor : ℚ) (rates : List ℚ) (i : ℕ) : reach factor rates i ≤ 1 :=
  sub_le_self 1 (leftover_nonneg _ _)

theorem preferring_of_ne_zero (hrates : ∀ rate ∈ rates, 0 ≤ rate) (hfactor : 0 < factor)
    (hi : i < rates.length) (hne : i ≠ 0) : preferring factor rates i =
      Set.Ico (1 - leftover factor (rates.take i)) (reach factor rates i) := by
  ext r
  constructor
  · intro hmem
    rcases (mem_preferring_iff hrates hfactor ⟨hmem.1, hmem.2.1⟩).1 hmem with hleast | ⟨-, hzero⟩
    · exact ((isLeast_inReach_iff hrates hfactor hmem.1).1 hleast).2
    · exact absurd hzero hne
  · intro hmem
    have hunit := mem_unit_of_mem_Ico (leftover_take_le_one hrates hfactor i)
      (reach_le_one factor rates i) hmem
    rw [mem_preferring_iff hrates hfactor hunit]
    exact .inl ((isLeast_inReach_iff hrates hfactor hunit.1).2 ⟨hi, hmem⟩)

/-- The first group has its own part of the draws, and what all groups leave over. -/
theorem preferring_zero (hrates : ∀ rate ∈ rates, 0 ≤ rate) (hfactor : 0 < factor) :
    preferring factor rates 0 =
      Set.Ico 0 (reach factor rates 0) ∪ Set.Ico (1 - leftover factor rates) 1 := by
  ext r
  rw [Set.mem_union]
  constructor
  · intro hmem
    rcases (mem_preferring_iff hrates hfactor ⟨hmem.1, hmem.2.1⟩).1 hmem with hleast | ⟨hempty, -⟩
    · exact .inl ⟨hmem.1, hleast.1.2⟩
    · exact .inr ⟨(inReach_eq_empty_iff hrates hfactor hmem.1).1 hempty, hmem.2.1⟩
  · rintro (⟨hr, hlt⟩ | hmem)
    · have hunit : 0 ≤ r ∧ r < 1 := ⟨hr, lt_of_lt_of_le hlt (reach_le_one factor rates 0)⟩
      have hlength : 0 < rates.length := by
        refine List.length_pos_iff.2 ?_
        rintro rfl
        exact absurd (lt_of_le_of_lt hr hlt) (by simp [reach, leftover])
      rw [mem_preferring_iff hrates hfactor hunit]
      exact .inl ⟨⟨hlength, hlt⟩, fun _ _ => Nat.zero_le _⟩
    · have hleft := leftover_take_le_one hrates hfactor rates.length
      rw [List.take_length] at hleft
      have hunit := mem_unit_of_mem_Ico hleft le_rfl hmem
      rw [mem_preferring_iff hrates hfactor hunit]
      exact .inr ⟨(inReach_eq_empty_iff hrates hfactor hunit.1).2 hmem.1, rfl⟩

/-- The choice in closed form. The first group in reach of the draw is preferred, and the very first
one if none is; so every group has the part of the draws that its score asks for out of what the
groups before it leave over, and the first one has the rest besides. A draw is made, once, exactly
where the first positive score is below one. -/
theorem preference_in_closed_form (hrates : ∀ rate ∈ rates, 0 ≤ rate) (hfactor : 0 < factor) :
    (∀ {γ : Type} (draw : γ → ℚ × γ) (g : γ), 0 ≤ (draw g).1 → (draw g).1 < 1 →
      (∀ i, IsLeast {i | i < rates.length ∧ (draw g).1 < reach factor rates i} i →
        (pickPriority rates factor draw g).1 = i) ∧
      ((∀ i < rates.length, ¬ (draw g).1 < reach factor rates i) →
        (pickPriority rates factor draw g).1 = 0) ∧
      (pickPriority rates factor draw g).2 =
        if Undecided factor rates then (draw g).2 else g) ∧
    (∀ i < rates.length, i ≠ 0 → preferring factor rates i =
      Set.Ico (1 - leftover factor (rates.take i))
        (1 - leftover factor (rates.take i) +
          min 1 (rates.getD i 0 * factor) * leftover factor (rates.take i))) ∧
    preferring factor rates 0 =
      Set.Ico 0 (min 1 (rates.getD 0 0 * factor)) ∪ Set.Ico (1 - leftover factor rates) 1 ∧
    min 1 (rates.getD 0 0 * factor) ≤ 1 - leftover factor rates := by
  have hfirst : reach factor rates 0 = min 1 (rates.getD 0 0 * factor) := by
    simp [reach_eq_add, leftover]
  refine ⟨fun draw g hnonneg hone => ⟨fun i hleast => ?_, fun hnone => ?_, ?_⟩, fun i hi hne => ?_,
    ?_, ?_⟩
  · rcases pickPriority_cases draw hrates hfactor ⟨hnonneg, hone⟩ with hpick | ⟨hempty, -⟩
    · exact hpick.unique hleast
    · exact (Set.eq_empty_iff_forall_notMem.1 hempty i hleast.1).elim
  · rcases pickPriority_cases draw hrates hfactor ⟨hnonneg, hone⟩ with hpick | ⟨-, hpick⟩
    · exact absurd hpick.1.2 (hnone _ hpick.1.1)
    · exact hpick
  · rw [pickPriority_eq]
  · rw [preferring_of_ne_zero hrates hfactor hi hne, reach_eq_add]
  · rw [preferring_zero hrates hfactor, hfirst]
  · have hanti := leftover_take_anti hrates hfactor (Nat.succ_le_succ (Nat.zero_le rates.length))
    rw [List.take_of_length_le (Nat.le_succ _)] at hanti
    rw [← hfirst]
    exact sub_le_sub_left hanti 1

/-- The scores are 1/5, 2/5 and 7/10, and a draw of 3/5 is out of reach of the first two groups. -/
theorem preference_of_three_scores :
    (∀ rate ∈ [(1 / 7 : ℚ), 2 / 7, 1 / 2], 0 ≤ rate) ∧ (0 : ℚ) < 7 / 5 ∧
    pickPriority [1 / 7, 2 / 7, 1 / 2] (7 / 5) (fun calls : ℕ => ((3 / 5 : ℚ), calls + 1)) 0 =
      (2, 1) ∧
    preferring (7 / 5) [1 / 7, 2 / 7, 1 / 2] 2 = Set.Ico (13 / 25) (107 / 125) := by
  have hrates : ∀ rate ∈ [(1 / 7 : ℚ), 2 / 7, 1 / 2], 0 ≤ rate := by norm_num
  have hfactor : (0 : ℚ) < 7 / 5 := by norm_num
  obtain ⟨hpick, hinterval, -, -⟩ := preference_in_closed_form hrates hfactor
  obtain ⟨hleast, -, hcalls⟩ :=
    hpick (fun calls : ℕ => ((3 / 5 : ℚ), calls + 1)) 0 (by norm_num) (by norm_num)
  have hleft : leftover (7 / 5) [1 / 7, 2 / 7] = 12 / 25 := by norm_num [leftover]
  have hreach : reach (7 / 5) [1 / 7, 2 / 7, 1 / 2] 2 = 107 / 125 := by norm_num [reach, leftover]
  have hthird : IsLeast (inReach (7 / 5) [1 / 7, 2 / 7, 1 / 2] (3 / 5)) 2 := by
    rw [isLeast_inReach_iff hrates hfactor (by norm_num), hreach]
    norm_num [hleft]
  have hundecided : Undecided (7 / 5) [1 / 7, 2 / 7, 1 / 2] := by
    rw [undecided_cons_of_pos] <;> norm_num
  refine ⟨hrates, hfactor, Prod.ext (hleast 2 hthird) ?_, ?_⟩
  · rw [hcalls, if_pos hundecided]
  · rw [hinterval 2 (by simp) (by simp)]
    norm_num [hleft]

end ResourceSelection
