import ResourceSelection.Proofs.Arithmetic
import ResourceSelection.Proofs.Sampling

/-!
# The weighted scan on any floats

A pick from a list of weights asks nothing of its numbers. Weights, total and point may be NaN,
infinite, negative and unrelated to each other, and still what is picked has positive weight, and
something is picked wherever there is something to pick.

`endings` says in which weights a walk can end: in a positive one that is longer than the `residue`
of the walk before it. A pick is the first of these, or the first positive weight where there is
none, and this is so whatever the residue has become on the way.

What it can become is a matter of its own. A length that is `Endless` is infinite or no
number: no weight is longer, and it stays endless whatever is taken off. A length that is not above
zero ends in the first weight that is not passed over; this is the first positive one, or else a NaN
that makes the length endless. So only a positive and finite length leads to another weight than the
first positive one, and no length leads past a NaN.
-/

namespace ResourceSelection

section

variable {ω : Type} [Scalar ω] {remaining weight total point : ω} {weights rest : List ω} {i : ℕ}

/-! ## The walk -/

theorem scanWeights_cons_of_le_zero (h : weight ≤ 0) :
    scanWeights remaining (weight :: rest) = (scanWeights remaining rest).map (· + 1) := by
  rw [scanWeights, if_pos h]

theorem scanWeights_cons_of_lt (h : ¬ weight ≤ 0) (hlt : remaining < weight) :
    scanWeights remaining (weight :: rest) = some 0 := by
  rw [scanWeights, if_neg h, if_pos hlt]

theorem scanWeights_cons_of_not_lt (h : ¬ weight ≤ 0) (hlt : ¬ remaining < weight) :
    scanWeights remaining (weight :: rest) =
      (scanWeights (remaining - weight) rest).map (· + 1) := by
  rw [scanWeights, if_neg h, if_neg hlt]

theorem firstPositive_cons_of_pos (h : 0 < weight) : firstPositive (weight :: rest) = some 0 := by
  rw [firstPositive, List.findIdx?_cons, decide_eq_true h, if_pos rfl]

theorem firstPositive_cons_of_not_pos (h : ¬ 0 < weight) :
    firstPositive (weight :: rest) = (firstPositive rest).map (· + 1) := by
  rw [firstPositive, List.findIdx?_cons, decide_eq_false h, if_neg Bool.false_ne_true]
  rfl

/-- What is left to walk past one weight. -/
def past (left weight : ω) : ω := if weight ≤ 0 then left else left - weight

theorem past_of_le_zero (h : weight ≤ 0) : past remaining weight = remaining := if_pos h

theorem past_of_not_le_zero (h : ¬ weight ≤ 0) : past remaining weight = remaining - weight :=
  if_neg h

/-- What is left to walk past the given weights. -/
def residue (remaining : ω) (weights : List ω) : ω := weights.foldl past remaining

/-- The indices in which a walk of length `remaining` can end. -/
def endings (remaining : ω) (weights : List ω) : Set ℕ :=
  {i | ∃ w, weights[i]? = some w ∧ 0 < w ∧ residue remaining (weights.take i) < w}

/-- The indices of the positive weights. -/
def positives (weights : List ω) : Set ℕ := {i | ∃ w, weights[i]? = some w ∧ 0 < w}

theorem zero_mem_endings :
    0 ∈ endings remaining (weight :: rest) ↔ 0 < weight ∧ remaining < weight := by
  simp [endings, residue]

theorem succ_mem_endings :
    i + 1 ∈ endings remaining (weight :: rest) ↔ i ∈ endings (past remaining weight) rest := by
  simp [endings, residue]

/-- Where a walk does not end in the first weight, it ends as the walk along the others does. -/
theorem isLeast_endings_succ (h : 0 ∉ endings remaining (weight :: rest))
    (hleast : IsLeast (endings (past remaining weight) rest) i) :
    IsLeast (endings remaining (weight :: rest)) (i + 1) := by
  refine ⟨succ_mem_endings.2 hleast.1, ?_⟩
  rintro (_ | j) hj
  · exact absurd hj h
  · exact Nat.succ_le_succ (hleast.2 (succ_mem_endings.1 hj))

theorem endings_cons_eq_empty (h : 0 ∉ endings remaining (weight :: rest))
    (hempty : endings (past remaining weight) rest = ∅) :
    endings remaining (weight :: rest) = ∅ := by
  rw [Set.eq_empty_iff_forall_notMem] at hempty ⊢
  rintro (_ | j) hj
  · exact h hj
  · exact hempty j (succ_mem_endings.1 hj)

/-- The first positive weight is the least of all, if there is one. -/
theorem firstPositive_cases (weights : List ω) :
    (∃ i, IsLeast (positives weights) i ∧ firstPositive weights = some i) ∨
      positives weights = ∅ ∧ firstPositive weights = none := by
  cases hfirst : firstPositive weights with
  | none =>
      refine .inr ⟨Set.eq_empty_iff_forall_notMem.2 ?_, rfl⟩
      rintro i ⟨w, hw, hpos⟩
      have hnone := List.findIdx?_eq_none_iff.1 hfirst w (List.mem_of_getElem? hw)
      exact absurd hpos (of_decide_eq_false hnone)
  | some i =>
      refine .inl ⟨i, ⟨positive_of_firstPositive hfirst, ?_⟩, rfl⟩
      rintro j ⟨w, hw, hpos⟩
      obtain ⟨_, -, hbefore⟩ := List.findIdx?_eq_some_iff_getElem.1 hfirst
      by_contra hlt
      obtain ⟨hj, rfl⟩ := List.getElem?_eq_some_iff.1 hw
      exact hbefore j (Nat.lt_of_not_le hlt) (decide_eq_true hpos)

variable [LawfulScalar ω]

/-- The scan ends in the first weight in which the walk can end. -/
theorem scanWeights_cases (remaining : ω) (weights : List ω) :
    (∃ i, IsLeast (endings remaining weights) i ∧ scanWeights remaining weights = some i) ∨
      endings remaining weights = ∅ ∧ scanWeights remaining weights = none := by
  induction weights generalizing remaining with
  | nil => exact .inr ⟨by simp [endings], rfl⟩
  | cons weight rest ih =>
      by_cases hend : 0 ∈ endings remaining (weight :: rest)
      · obtain ⟨hpos, hlt⟩ := zero_mem_endings.1 hend
        have hle : ¬ weight ≤ 0 := fun hle => Scalar.not_lt_of_le hle hpos
        exact .inl ⟨0, ⟨hend, fun _ _ => Nat.zero_le _⟩, scanWeights_cons_of_lt hle hlt⟩
      · have hnext : scanWeights remaining (weight :: rest) =
            (scanWeights (past remaining weight) rest).map (· + 1) := by
          by_cases hle : weight ≤ 0
          · rw [scanWeights_cons_of_le_zero hle, past_of_le_zero hle]
          · have hlt : ¬ remaining < weight := fun hlt =>
              hend (zero_mem_endings.2 ⟨Scalar.pos_of_not_le_zero hle hlt, hlt⟩)
            rw [scanWeights_cons_of_not_lt hle hlt, past_of_not_le_zero hle]
        rw [hnext]
        rcases ih (past remaining weight) with ⟨i, hleast, hscan⟩ | ⟨hempty, hscan⟩
        · exact .inl ⟨i + 1, isLeast_endings_succ hend hleast, by rw [hscan]; rfl⟩
        · exact .inr ⟨endings_cons_eq_empty hend hempty, by rw [hscan]; rfl⟩

/-! ## Picks -/

/-- The indices in which the walk of a pick can end. Only a total that is positive and finite is
walked along. -/
def reached (weights : List ω) (total point : ω) : Set ℕ :=
  {i | 0 < total ∧ Scalar.isFinite total = true ∧ i ∈ endings (point * total) weights}

/-- A pick is the first weight that is reached, else the first positive one, and nothing only where
no weight is positive. -/
theorem pickWeighted_cases (weights : List ω) (total point : ω) :
    (∃ i, IsLeast (reached weights total point) i ∧
      pickWeighted weights total point = some i) ∨
    reached weights total point = ∅ ∧
      ((∃ i, IsLeast (positives weights) i ∧ pickWeighted weights total point = some i) ∨
        positives weights = ∅ ∧ pickWeighted weights total point = none) := by
  have hscanned : (∃ i, IsLeast (reached weights total point) i ∧
      (if 0 < total ∧ Scalar.isFinite total then scanWeights (point * total) weights
        else none) = some i) ∨
      reached weights total point = ∅ ∧
        (if 0 < total ∧ Scalar.isFinite total then scanWeights (point * total) weights
          else none) = none := by
    by_cases htotal : 0 < total ∧ Scalar.isFinite total = true
    · have hreached : reached weights total point = endings (point * total) weights := by
        simp [reached, htotal]
      rw [hreached, if_pos htotal]
      exact scanWeights_cases _ _
    · refine .inr ⟨Set.eq_empty_iff_forall_notMem.2 ?_, if_neg htotal⟩
      exact fun i hi => htotal ⟨hi.1, hi.2.1⟩
  unfold pickWeighted
  simp only
  rcases hscanned with ⟨i, hleast, hscan⟩ | ⟨hempty, hscan⟩ <;> rw [hscan]
  · exact .inl ⟨i, hleast, Option.some_or⟩
  · rw [Option.none_or]
    exact .inr ⟨hempty, firstPositive_cases weights⟩

theorem pickWeighted_eq_some_iff_isLeast :
    pickWeighted weights total point = some i ↔
      IsLeast (reached weights total point) i ∨
        reached weights total point = ∅ ∧ IsLeast (positives weights) i := by
  rcases pickWeighted_cases weights total point with
    ⟨j, hleast, hpick⟩ | ⟨hempty, ⟨j, hleast, hpick⟩ | ⟨hnone, hpick⟩⟩ <;> rw [hpick]
  · refine ⟨fun h => .inl (Option.some.inj h ▸ hleast), ?_⟩
    rintro (h | ⟨hempty, -⟩)
    · exact congrArg some (hleast.unique h)
    · rw [hempty] at hleast
      exact hleast.1.elim
  · refine ⟨fun h => .inr ⟨hempty, Option.some.inj h ▸ hleast⟩, ?_⟩
    rintro (h | ⟨-, h⟩)
    · rw [hempty] at h
      exact h.1.elim
    · exact congrArg some (hleast.unique h)
  · rw [hempty, hnone]
    exact ⟨nofun, fun h => h.elim (fun h => h.1.elim) fun h => h.2.1.elim⟩

end

/-! ## Endless lengths -/

namespace Binary64

open Float.Model.UnpackedFloat

variable {left weight : Float}

/-- The length is infinite, or no number. -/
def Endless (left : Float) : Prop := value left = .notANumber ∨ value left = .infinity .positive

theorem Endless.not_lt (h : Endless left) (weight : Float) : ¬ left < weight := by
  rw [lt_iff]
  rintro ⟨hleft, -, hlt⟩
  rcases h with h | h <;> rw [h] at hleft hlt
  · exact nomatch hleft
  · exact not_infinity_lt _ hlt

theorem endless_of_value_sub
    (h : sub .binary64 (value left) (value weight) = .notANumber ∨
      sub .binary64 (value left) (value weight) = .infinity .positive) :
    Endless (left - weight) := by
  unfold Endless
  rw [value_sub]
  rcases h with h | h <;> rw [h]
  · exact .inl rfl
  · exact .inr rfl

theorem endless_sub_of_isNaN (hweight : Scalar.isNaN weight = true) : Endless (left - weight) := by
  have hvalue : value weight = .notANumber := isNaN_iff.1 hweight
  refine endless_of_value_sub (.inl ?_)
  rw [hvalue]
  cases value left <;> rfl

/-- Infinity less a finite weight is infinity still, and less an infinite one no number. -/
theorem Endless.sub_of_pos (h : Endless left) (hweight : 0 < weight) : Endless (left - weight) := by
  refine endless_of_value_sub ?_
  rcases h with h | h <;> rw [h]
  · exact .inl rfl
  · rcases value_cases_of_pos hweight with ⟨m, e, hm, hvalue⟩ | hvalue <;> rw [hvalue]
    · exact .inr rfl
    · exact .inl rfl

/-- A length is endless, not above zero, or else positive and finite. -/
theorem endless_or_le_zero (h : ¬ (0 < left ∧ left.isFinite = true)) :
    Endless left ∨ left ≤ 0 := by
  rcases hnan : left.isNaN with _ | _
  · by_cases hpos : 0 < left
    · rcases value_cases_of_pos hpos with ⟨m, e, hm, hvalue⟩ | hvalue
      · refine absurd ⟨hpos, ?_⟩ h
        show (value left).isFinite = true
        rw [hvalue]
        rfl
      · exact .inl (.inr hvalue)
    · exact .inr (Scalar.le_of_not_lt hnan rfl hpos)
  · exact .inl (.inl (isNaN_iff.1 hnan))

end Binary64

/-! ## Walks over floats -/

open Binary64 (Endless endless_sub_of_isNaN)

variable {left weight total point : Float} {weights : List Float} {i j : ℕ}

theorem endless_past_of_isNaN (hweight : Scalar.isNaN weight = true) :
    Endless (past left weight) := by
  rw [past_of_not_le_zero (Scalar.not_le_of_isNaN hweight)]
  exact endless_sub_of_isNaN hweight

/-- What is endless stays so past every weight. -/
theorem endless_past (h : Endless left) (weight : Float) : Endless (past left weight) := by
  by_cases hweight : weight ≤ 0
  · rwa [past_of_le_zero hweight]
  · rcases Scalar.pos_or_isNaN_of_not_le_zero hweight with hpos | hnan
    · rw [past_of_not_le_zero hweight]
      exact h.sub_of_pos hpos
    · exact endless_past_of_isNaN hnan

theorem endless_residue (h : Endless left) (weights : List Float) :
    Endless (residue left weights) := by
  induction weights generalizing left with
  | nil => exact h
  | cons weight rest ih => exact ih (endless_past h weight)

/-- Past a NaN every length is endless. -/
theorem endless_residue_of_mem (hweight : Scalar.isNaN weight = true) (h : weight ∈ weights)
    (left : Float) : Endless (residue left weights) := by
  induction weights generalizing left with
  | nil => exact nomatch h
  | cons first rest ih =>
      rcases List.mem_cons.1 h with rfl | hrest
      · exact endless_residue (endless_past_of_isNaN hweight) rest
      · exact ih hrest (past left first)

/-- An endless walk does not end in any weight. -/
theorem scanWeights_of_endless (h : Endless left) (weights : List Float) :
    scanWeights left weights = none := by
  rcases scanWeights_cases left weights with ⟨i, ⟨⟨w, -, -, hlt⟩, -⟩, -⟩ | ⟨-, hscan⟩
  · exact absurd hlt ((endless_residue h (weights.take i)).not_lt w)
  · exact hscan

/-- With nothing left to walk, the first positive weight is picked even if a NaN stands before
it. -/
theorem scanWeights_or_firstPositive (hleft : left ≤ 0) :
    (scanWeights left weights).or (firstPositive weights) = firstPositive weights := by
  induction weights with
  | nil => rfl
  | cons weight rest ih =>
      by_cases hweight : weight ≤ 0
      · rw [scanWeights_cons_of_le_zero hweight,
          firstPositive_cons_of_not_pos (Scalar.not_lt_of_le hweight), ← Option.map_or, ih]
      · rcases Scalar.pos_or_isNaN_of_not_le_zero hweight with hpos | hnan
        · have hlt : left < weight :=
            (LawfulScalar.lt_or_lt hpos (Scalar.isNaN_left hleft)).resolve_left
              (Scalar.not_lt_of_le hleft)
          rw [scanWeights_cons_of_lt hweight hlt, firstPositive_cons_of_pos hpos]
          rfl
        · rw [scanWeights_cons_of_not_lt hweight (Scalar.not_lt_of_isNaN hnan),
            scanWeights_of_endless (endless_sub_of_isNaN hnan)]
          rfl

/-! ## Picks from floats -/

/-- Only a positive and finite length leads to another weight than the first positive one. -/
theorem pickWeighted_eq_firstPositive
    (h : ¬ (0 < point * total ∧ (point * total).isFinite = true)) :
    pickWeighted weights total point = firstPositive weights := by
  unfold pickWeighted
  simp only
  split
  · rcases Binary64.endless_or_le_zero h with hendless | hle
    · rw [scanWeights_of_endless hendless, Option.none_or]
    · exact scanWeights_or_firstPositive hle
  · exact Option.none_or

/-- A NaN keeps the weights after it from being picked, the first positive one apart. -/
theorem picked_before_nan (hweight : weights[j]? = some weight) (hnan : weight.isNaN = true)
    (h : pickWeighted weights total point = some i) : i < j ∨ IsLeast (positives weights) i := by
  rcases pickWeighted_eq_some_iff_isLeast.1 h with ⟨⟨-, -, w, hw, hpos, hlt⟩, -⟩ | ⟨-, hfirst⟩
  · refine .inl (Nat.lt_of_not_le fun hle => ?_)
    rcases Nat.lt_or_eq_of_le hle with hbefore | rfl
    · have hmem : weight ∈ weights.take i :=
        List.mem_of_getElem? (i := j) (by rw [List.getElem?_take_of_lt hbefore, hweight])
      exact (endless_residue_of_mem hnan hmem (point * total)).not_lt w hlt
    · obtain rfl := Option.some.inj (hweight.symm.trans hw)
      exact Scalar.not_lt_of_isNaN hnan hpos
  · exact .inr hfirst

-- the point falls to the last weight, but there is a NaN on the way
example : pickWeighted [1, 0 / 0, 5] 6 (1 / 2 : Float) = some 0 := by decide +kernel

/-- Whatever floats the weights, the total and the point are, the index that is picked is one of the
list and its weight is positive, and nothing is picked exactly if no weight is positive. The walk
decides which weight it is, and the first positive one stands in where it ends nowhere. -/
theorem positive_picked_if_any (weights : List Float) (total point : Float) :
    (∀ i, pickWeighted weights total point = some i →
      ∃ h : i < weights.length, 0 < weights[i]) ∧
    (pickWeighted weights total point = none ↔ ∀ w ∈ weights, ¬ 0 < w) ∧
    ∀ i, pickWeighted weights total point = some i ↔
      IsLeast (reached weights total point) i ∨
        reached weights total point = ∅ ∧ IsLeast (positives weights) i := by
  refine ⟨fun i hpick => ?_, ⟨fun hnone w hw => not_positive_of_pickWeighted hnone hw,
    fun hnone => ?_⟩, fun i => pickWeighted_eq_some_iff_isLeast⟩
  · obtain ⟨w, hw, hpos⟩ := positive_of_pickWeighted hpick
    obtain ⟨h, rfl⟩ := List.getElem?_eq_some_iff.1 hw
    exact ⟨h, hpos⟩
  · refine Option.eq_none_iff_forall_ne_some.2 fun i hpick => ?_
    obtain ⟨w, hw, hpos⟩ := positive_of_pickWeighted hpick
    exact hnone w (List.mem_of_getElem? hw) hpos

end ResourceSelection
