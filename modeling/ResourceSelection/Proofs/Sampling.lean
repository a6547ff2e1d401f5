import ResourceSelection.Proofs.Order
import ResourceSelection.Sampling.Alias
import ResourceSelection.Sampling.Weighted

/-!
# Draws hit positive weights

Two ways to draw from weights, and what both owe their callers whatever the numbers and the draws
are: the index that comes out is one of a positive weight. The weighted scan answers whenever there
is a positive weight. The alias table answers always; its columns were made for the positive
weights only, and no entry of it leads outside of them.
-/

namespace ResourceSelection

variable {ω : Type} [Scalar ω]

/-! ## The weighted scan -/

section

variable [LawfulScalar ω] {weights : List ω} {i : Nat}

/-- The scan ends in a weight that is longer than what was left to walk and not at most zero, so in
a positive one. -/
theorem positive_of_scanWeights {remaining : ω} (h : scanWeights remaining weights = some i) :
    ∃ w, weights[i]? = some w ∧ 0 < w := by
  induction weights generalizing remaining i with
  | nil => exact nomatch h
  | cons weight rest ih =>
      unfold scanWeights at h
      split at h
      · obtain ⟨j, hj, rfl⟩ := Option.map_eq_some_iff.1 h
        exact ih hj
      · next hle =>
          split at h
          · next hlt =>
              obtain rfl := Option.some.inj h
              exact ⟨weight, rfl, Scalar.pos_of_not_le_zero hle hlt⟩
          · obtain ⟨j, hj, rfl⟩ := Option.map_eq_some_iff.1 h
            exact ih hj

omit [LawfulScalar ω] in
theorem positive_of_firstPositive (h : firstPositive weights = some i) :
    ∃ w, weights[i]? = some w ∧ 0 < w := by
  obtain ⟨hlt, hpos, -⟩ := List.findIdx?_eq_some_iff_getElem.1 h
  exact ⟨weights[i], List.getElem?_eq_getElem hlt, of_decide_eq_true hpos⟩

/-- What is picked has a positive weight. -/
theorem positive_of_pickWeighted {total point : ω}
    (h : pickWeighted weights total point = some i) : ∃ w, weights[i]? = some w ∧ 0 < w := by
  unfold pickWeighted at h
  rcases Option.or_eq_some_iff.1 h with hscanned | ⟨-, hfirst⟩
  · split at hscanned
    · exact positive_of_scanWeights hscanned
    · exact nomatch hscanned
  · exact positive_of_firstPositive hfirst

omit [LawfulScalar ω] in
/-- Nothing is picked only where no weight is positive. -/
theorem not_positive_of_pickWeighted {total point : ω}
    (h : pickWeighted weights total point = none) {w : ω} (hw : w ∈ weights) : ¬ 0 < w := by
  unfold pickWeighted at h
  have hfirst := (Option.or_eq_none_iff.1 h).2
  simpa using List.findIdx?_eq_none_iff.1 hfirst w hw

end

/-! ## Random numbers -/

namespace Rng

theorem belowWithin_lt {n : Nat} (hn : 0 < n) (least fuel : Nat) (g : Rng) :
    (belowWithin n least fuel g).1 < n := by
  induction fuel generalizing g with
  | zero => exact hn
  | succ fuel ih =>
      unfold belowWithin
      simp only
      split
      · exact ih _
      · exact Nat.div_lt_of_lt_mul (Nat.mul_lt_mul_of_pos_right (UInt64.toNat_lt _) hn)

theorem below_lt {n : Nat} (hn : 0 < n) (g : Rng) : (below n g).1 < n := by
  unfold below
  rw [if_neg (Nat.ne_of_gt hn)]
  exact belowWithin_lt hn _ _ _

end Rng

/-! ## The alias table -/

namespace AliasTable

variable {α : Type}

theorem getD_setIfInBounds_lt {n h : Nat} {xs : Array Nat} (hxs : ∀ j, xs.getD j 0 < n)
    (hh : h < n) (l j : Nat) : (xs.setIfInBounds l h).getD j 0 < n := by
  rw [Array.getD_eq_getD_getElem?, Array.getElem?_setIfInBounds]
  split
  · split
    · exact hh
    · exact Nat.zero_lt_of_lt hh
  · rw [← Array.getD_eq_getD_getElem?]
    exact hxs j

/-- Pairing sends what a column lacks to columns that there are. -/
theorem aliasOf_pair {n : Nat} {light heavy : List Nat} {c : Columns ω}
    (hlight : ∀ l ∈ light, l < n) (hheavy : ∀ h ∈ heavy, h < n)
    (hc : ∀ j, c.aliasOf.getD j 0 < n) (j : Nat) :
    (c.pair light heavy).aliasOf.getD j 0 < n := by
  induction light, heavy, c using Columns.pair.induct with
  | case1 c l light h heavy kept left next hleft ih =>
      have hh := hheavy h List.mem_cons_self
      rw [Columns.pair, if_pos hleft]
      refine ih ?_ (fun i hi => hheavy i (List.mem_cons_of_mem h hi))
        (getD_setIfInBounds_lt hc hh l)
      intro i hi
      rcases List.mem_cons.1 hi with rfl | hi
      · exact hh
      · exact hlight i (List.mem_cons_of_mem l hi)
  | case2 c l light h heavy kept left next hleft ih =>
      have hh := hheavy h List.mem_cons_self
      rw [Columns.pair, if_neg hleft]
      exact ih (fun i hi => hlight i (List.mem_cons_of_mem l hi)) hheavy
        (getD_setIfInBounds_lt hc hh l)
  | case3 c light heavy hdone =>
      rw [Columns.pair]
      · exact hc j
      · exact hdone

/-- A table with a column to draw, whose columns give to columns that there are. -/
structure Drawable (t : AliasTable α ω) : Prop where
  nonempty : 0 < t.items.size
  aliasOf (j : Nat) : t.aliasOf.getD j 0 < t.items.size

omit [Scalar ω] in
theorem getD_range_lt {n : Nat} (hn : 0 < n) (j : Nat) : (Array.range n).getD j 0 < n := by
  rw [Array.getD_eq_getD_getElem?]
  rcases Nat.lt_or_ge j n with hlt | hge
  · rw [Array.getElem?_eq_getElem (by simpa using hlt), Option.getD_some, Array.getElem_range]
    exact hlt
  · rw [Array.getElem?_eq_none (by simpa using hge)]
    exact hn

theorem drawable_ofWeights? {weighted : List (α × ω)} {t : AliasTable α ω}
    (h : ofWeights? weighted = some t) : t.Drawable := by
  unfold ofWeights? at h
  simp only at h
  split at h
  · exact nomatch h
  · next hkept =>
      cases h
      simp only [Bool.or_eq_true, not_or, List.isEmpty_iff] at hkept
      have hpos := List.length_pos_iff.2 hkept.1.1
      refine ⟨by simpa using hpos, fun j => ?_⟩
      simp only [List.size_toArray, List.length_map]
      refine aliasOf_pair ?_ ?_ (getD_range_lt hpos) j
      · exact fun l hl => by simpa using (List.mem_filter.1 hl).1
      · exact fun l hl => by simpa using (List.mem_filter.1 hl).1

/-- The items of a table are those of positive weight. -/
theorem positive_of_mem_items {weighted : List (α × ω)} {t : AliasTable α ω}
    (h : ofWeights? weighted = some t) {a : α} (ha : a ∈ t.items) :
    ∃ w, (a, w) ∈ weighted ∧ 0 < w := by
  unfold ofWeights? at h
  simp only at h
  split at h
  · exact nomatch h
  · cases h
    obtain ⟨entry, hentry, rfl⟩ := List.mem_map.1 (List.mem_toArray.1 ha)
    obtain ⟨hmem, hkept⟩ := List.mem_filter.1 hentry
    exact ⟨entry.2, hmem, of_decide_eq_true (Bool.and_eq_true_iff.1 hkept).2⟩

/-- Every draw gives an item of the table. -/
theorem Drawable.exists_sample {t : AliasTable α ω} (h : t.Drawable) (g : Rng) :
    ∃ a ∈ t.items, (t.sample g).1 = some a := by
  have hpick (column : Nat) (coin : ω) (hcolumn : column < t.items.size) :
      t.pick column coin < t.items.size := by
    unfold pick
    split
    · exact hcolumn
    · exact h.aliasOf column
  have hlt := hpick _ (Rng.unit ω (Rng.below t.items.size g).2).1 (Rng.below_lt h.nonempty g)
  exact ⟨t.items[_], Array.getElem_mem hlt, Array.getElem?_eq_getElem hlt⟩

end AliasTable

end ResourceSelection
