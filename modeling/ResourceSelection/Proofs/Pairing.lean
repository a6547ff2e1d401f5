import ResourceSelection.Proofs.Nonnegative
import ResourceSelection.Proofs.Sampling

/-!
# Every column is finished once

The construction of an alias table and the draws from it, told once more in a way that hides
nothing: what is read or written at an index that is not there ends them without an answer. The
construction keeps a record of the columns that it finishes, and also writes to those that are left
over when one of the two lists has run out.

`Unfinished` is what makes this the construction proper. The columns on the two lists are different
columns of the table, and nothing has been written about any of them. A pairing takes one of them
off for good, so no column is finished twice, and to write a full share into a left over one changes
nothing.

In floats the numbers need an argument of their own. What a heavy column has left is computed as
`(heavy + light) - 1`, and this is not below zero only because the sum is rounded to no less than
the heavy column had, which was at least one. A column that is too heavy for a float is infinite,
gives without end and stays infinite; none is ever a NaN.
-/

namespace ResourceSelection.AliasTable

variable {α β ω : Type} [Scalar ω]

omit [Scalar ω] in
/-- In range a look-up with a default never answers by it. -/
theorem getElem?_eq_getD {xs : Array β} {i : Nat} (h : i < xs.size) (x : β) :
    xs[i]? = some (xs.getD i x) := by
  rw [Array.getElem?_eq_getElem h, Array.getElem_eq_getD x]

/-! ## Operations that insist on their indices -/

namespace Checked

/-- Writes to an index that there is. -/
def write (xs : Array β) (i : Nat) (x : β) : Option (Array β) :=
  if i < xs.size then some (xs.setIfInBounds i x) else none

/-- Pairs columns, and gives all of itself to every column that is left over. Answers which columns
were finished, the first one first. -/
def pair (light heavy : List Nat) (c : Columns ω) : Option (List Nat × Columns ω) :=
  match light, heavy with
  | l :: light, h :: heavy => do
    let kept ← c.scaled[l]?
    let probability ← write c.probability l kept
    let aliasOf ← write c.aliasOf l h
    let held ← c.scaled[h]?
    let left := (held + kept) - 1
    let scaled ← write c.scaled h left
    let next : Columns ω := { scaled, probability, aliasOf }
    (if left < 1 then pair (h :: light) heavy next else pair light (h :: heavy) next).map
      fun (finished, c) => (l :: finished, c)
  | light, heavy => do
    let leftover := light.reverse ++ heavy.reverse
    let probability ← leftover.foldlM (fun shares column => write shares column 1) c.probability
    return (leftover, { c with probability })
termination_by light.length + heavy.length

/-- The table of a list of weighted items, if one of them has positive weight, and the columns in
the order in which they were finished. -/
def ofWeights? (weighted : List (α × ω)) : Option (Option (List Nat × AliasTable α ω)) :=
  let kept := weighted.filter fun entry => Scalar.isFinite entry.2 && decide (0 < entry.2)
  let weights := kept.map (·.2)
  let total := Scalar.sum weights
  if kept.isEmpty || !Scalar.isFinite total || decide (total ≤ 0) then some none
  else
    let n := kept.length
    let scaled := (weights.map fun w => w * (n : ω) / total).toArray
    let isLight := fun column => decide (scaled.getD column 0 < 1)
    let columns := (List.range n).reverse
    let start : Columns ω :=
      { scaled, probability := Array.replicate n 1, aliasOf := Array.range n }
    (pair (columns.filter isLight) (columns.filter fun c => !isLight c) start).map
      fun (finished, settled) => some (finished,
        { items := (kept.map (·.1)).toArray
          probability := settled.probability
          aliasOf := settled.aliasOf })

/-- The item that a column and a coin decide for. -/
def pick (t : AliasTable α ω) (column : Nat) (coin : ω) : Option α := do
  let share ← t.probability[column]?
  if coin < share then t.items[column]?
  else
    let other ← t.aliasOf[column]?
    t.items[other]?

omit [Scalar ω] in
theorem write_eq {xs : Array β} {i : Nat} (h : i < xs.size) (x : β) :
    write xs i x = some (xs.setIfInBounds i x) := if_pos h

omit [Scalar ω] in
/-- Writing what is there already changes nothing. -/
theorem write_same {xs : Array β} {i : Nat} {x : β} (h : xs[i]? = some x) :
    write xs i x = some xs := by
  obtain ⟨hi, hx⟩ := Array.getElem?_eq_some_iff.1 h
  rw [write_eq hi]
  refine congrArg some (Array.ext_getElem? fun j => ?_)
  rw [Array.getElem?_setIfInBounds]
  split
  · next hj =>
      subst hj
      simpa [hi] using h.symm
  · rfl

theorem foldlM_write_same {leftover : List Nat} {shares : Array ω}
    (h : ∀ column ∈ leftover, shares[column]? = some 1) :
    leftover.foldlM (fun shares column => write shares column 1) shares = some shares := by
  induction leftover with
  | nil => rfl
  | cons column rest ih =>
      rw [List.foldlM_cons, write_same (h column List.mem_cons_self)]
      exact ih fun other hother => h other (List.mem_cons_of_mem column hother)

end Checked

/-! ## Pairing -/

namespace Columns

/-- The given columns are different ones of `n`, and nothing has been written about them. -/
structure Unfinished (n : Nat) (columns : List Nat) (c : Columns ω) : Prop where
  scaled_size : c.scaled.size = n
  probability_size : c.probability.size = n
  aliasOf_size : c.aliasOf.size = n
  nodup : columns.Nodup
  lt : ∀ j ∈ columns, j < n
  whole : ∀ j ∈ columns, c.probability[j]? = some 1

variable {n l h : Nat} {columns : List Nat} {c : Columns ω}

theorem Unfinished.perm {columns' : List Nat} (hc : Unfinished n columns c)
    (hperm : columns.Perm columns') : Unfinished n columns' c where
  scaled_size := hc.scaled_size
  probability_size := hc.probability_size
  aliasOf_size := hc.aliasOf_size
  nodup := hperm.nodup_iff.1 hc.nodup
  lt j hj := hc.lt j (hperm.mem_iff.2 hj)
  whole j hj := hc.whole j (hperm.mem_iff.2 hj)

/-- The columns after `l` was finished with `h` as its alias. -/
def finish (c : Columns ω) (l h : Nat) : Columns ω where
  scaled := c.scaled.setIfInBounds h ((c.scaled.getD h 0 + c.scaled.getD l 0) - 1)
  probability := c.probability.setIfInBounds l (c.scaled.getD l 0)
  aliasOf := c.aliasOf.setIfInBounds l h

/-- Finishing a column leaves the others unfinished. -/
theorem Unfinished.finish (hc : Unfinished n (l :: columns) c) (h : Nat) :
    Unfinished n columns (c.finish l h) where
  scaled_size := Array.size_setIfInBounds.trans hc.scaled_size
  probability_size := Array.size_setIfInBounds.trans hc.probability_size
  aliasOf_size := Array.size_setIfInBounds.trans hc.aliasOf_size
  nodup := (List.nodup_cons.1 hc.nodup).2
  lt j hj := hc.lt j (List.mem_cons_of_mem l hj)
  whole j hj := by
    have hne : l ≠ j := by
      rintro rfl
      exact (List.nodup_cons.1 hc.nodup).1 hj
    exact (Array.getElem?_setIfInBounds_ne hne).trans (hc.whole j (List.mem_cons_of_mem l hj))

theorem Unfinished.getElem?_scaled (hc : Unfinished n columns c) (hl : l ∈ columns) :
    c.scaled[l]? = some (c.scaled.getD l 0) :=
  getElem?_eq_getD (hc.scaled_size.symm ▸ hc.lt l hl) 0

/-- What the heavy column has left. -/
theorem Unfinished.scaled_getD_finish {light heavy : List Nat}
    (hc : Unfinished n (l :: light ++ h :: heavy) c) :
    (c.finish l h).scaled.getD h 0 = (c.scaled.getD h 0 + c.scaled.getD l 0) - 1 := by
  have hlt : h < c.scaled.size := hc.scaled_size.symm ▸ hc.lt h (by simp)
  unfold Columns.finish
  simp [hlt]

/-- One round of the pairing finds all its indices in range. -/
theorem Unfinished.checked_pair_cons {light heavy : List Nat}
    (hc : Unfinished n (l :: light ++ h :: heavy) c) :
    Checked.pair (l :: light) (h :: heavy) c =
      (if (c.finish l h).scaled.getD h 0 < 1 then Checked.pair (h :: light) heavy (c.finish l h)
        else Checked.pair light (h :: heavy) (c.finish l h)).map
          fun (finished, c) => (l :: finished, c) := by
  have hl : l < n := hc.lt l (by simp)
  have hh : h < n := hc.lt h (by simp)
  have hscaled : h < c.scaled.size := hc.scaled_size.symm ▸ hh
  have hprobability : l < c.probability.size := hc.probability_size.symm ▸ hl
  have halias : l < c.aliasOf.size := hc.aliasOf_size.symm ▸ hl
  rw [Checked.pair, hc.getElem?_scaled (by simp), hc.getElem?_scaled (by simp),
    Checked.write_eq halias, hc.scaled_getD_finish]
  simp only [Option.bind_eq_bind, Option.bind_some, Checked.write_eq hprobability,
    Checked.write_eq hscaled]
  rfl

/-- No index is out of range while columns are paired, and every one of them is finished once. -/
theorem Unfinished.checked_pair {light heavy : List Nat}
    (hc : Unfinished n (light ++ heavy) c) :
    ∃ finished, Checked.pair light heavy c = some (finished, c.pair light heavy) ∧
      finished.Perm (light ++ heavy) := by
  induction light, heavy, c using Columns.pair.induct with
  | case1 c l light h heavy kept left next hleft ih =>
      have hscaled := hc.scaled_getD_finish
      have hfinished := hc.finish h
      obtain ⟨finished, hpair, hperm⟩ := ih (hfinished.perm List.perm_middle)
      refine ⟨l :: finished, ?_, ?_⟩
      · rw [hc.checked_pair_cons, if_pos (hscaled.symm ▸ hleft), Columns.pair, if_pos hleft]
        exact congrArg (Option.map _) hpair
      · exact (hperm.trans List.perm_middle.symm).cons l
  | case2 c l light h heavy kept left next hleft ih =>
      have hscaled := hc.scaled_getD_finish
      obtain ⟨finished, hpair, hperm⟩ := ih (hc.finish h)
      refine ⟨l :: finished, ?_, hperm.cons l⟩
      rw [hc.checked_pair_cons, if_neg (hscaled.symm ▸ hleft), Columns.pair, if_neg hleft]
      exact congrArg (Option.map _) hpair
  | case3 light heavy c hdone =>
      have hleftover : ∀ j ∈ light.reverse ++ heavy.reverse, c.probability[j]? = some 1 :=
        fun j hj => hc.whole j (by simpa using hj)
      refine ⟨light.reverse ++ heavy.reverse, ?_,
        (List.reverse_perm light).append (List.reverse_perm heavy)⟩
      rw [Columns.pair, Checked.pair]
      · simp [Checked.foldlM_write_same hleftover]
      · exact hdone
      · exact hdone

theorem sizes_pair {light heavy : List Nat} (hprobability : c.probability.size = n)
    (haliasOf : c.aliasOf.size = n) :
    (c.pair light heavy).probability.size = n ∧ (c.pair light heavy).aliasOf.size = n := by
  induction light, heavy, c using Columns.pair.induct with
  | case1 c l light h heavy kept left next hleft ih =>
      rw [Columns.pair, if_pos hleft]
      exact ih (Array.size_setIfInBounds.trans hprobability)
        (Array.size_setIfInBounds.trans haliasOf)
  | case2 c l light h heavy kept left next hleft ih =>
      rw [Columns.pair, if_neg hleft]
      exact ih (Array.size_setIfInBounds.trans hprobability)
        (Array.size_setIfInBounds.trans haliasOf)
  | case3 light heavy c hdone =>
      rw [Columns.pair]
      · exact ⟨hprobability, haliasOf⟩
      · exact hdone

/-! ## Floats -/

/-- Light columns hold a part of themselves, heavy ones at least all of it, and what a finished
column keeps is a part. -/
structure Weighed (light heavy : List Nat) (c : Columns Float) : Prop where
  light : ∀ l ∈ light, 0 ≤ c.scaled.getD l 0 ∧ c.scaled.getD l 0 < 1
  heavy : ∀ h ∈ heavy, 1 ≤ c.scaled.getD h 0
  probability : ∀ p ∈ c.probability, 0 ≤ p ∧ p ≤ 1

section

variable {light heavy : List Nat} {c : Columns Float}

/-- What a heavy column has left is not below zero: it had at least one, and a sum is rounded to no
less than its terms. -/
theorem Weighed.left_nonneg (hw : Weighed (l :: light) (h :: heavy) c) :
    0 ≤ (c.scaled.getD h 0 + c.scaled.getD l 0) - 1 := by
  have hheld : 1 ≤ c.scaled.getD h 0 := hw.heavy h List.mem_cons_self
  have hkept : 0 ≤ c.scaled.getD l 0 := (hw.light l List.mem_cons_self).1
  have hsum : c.scaled.getD h 0 ≤ c.scaled.getD h 0 + c.scaled.getD l 0 :=
    Binary64.le_add_right (Scalar.le_trans Binary64.zero_le_one hheld) hkept
  exact Binary64.sub_nonneg_of_le Binary64.zero_le_one (Scalar.le_trans hheld hsum) rfl

theorem scaled_getD_finish_of_ne {j : Nat} (hne : j ≠ h) :
    (c.finish l h).scaled.getD j 0 = c.scaled.getD j 0 := by
  unfold Columns.finish
  simp only [Array.getD_eq_getD_getElem?]
  rw [Array.getElem?_setIfInBounds_ne hne.symm]

theorem Weighed.probability_finish (hw : Weighed (l :: light) heavy c) :
    ∀ p ∈ (c.finish l h).probability, 0 ≤ p ∧ p ≤ 1 := by
  intro p hp
  obtain ⟨hzero, hone⟩ := hw.light l List.mem_cons_self
  rcases Array.mem_or_eq_of_mem_setIfInBounds hp with hp | rfl
  · exact hw.probability p hp
  · exact ⟨hzero, Scalar.le_of_lt hone⟩

/-- A round touches no column of the lists but the two that it takes from them. -/
theorem Weighed.others_finish (hw : Weighed (l :: light) (h :: heavy) c)
    (hc : Unfinished n (l :: light ++ h :: heavy) c) : Weighed light heavy (c.finish l h) := by
  have hdistinct := (List.nodup_cons.1 (List.nodup_middle.1 hc.nodup)).1
  have hother (i : Nat) (hi : i ∈ light ∨ i ∈ heavy) : i ≠ h := by
    rintro rfl
    exact hdistinct (by simp [hi])
  refine ⟨fun i hi => ?_, fun i hi => ?_, hw.probability_finish⟩
  · rw [scaled_getD_finish_of_ne (hother i (.inl hi))]
    exact hw.light i (List.mem_cons_of_mem l hi)
  · rw [scaled_getD_finish_of_ne (hother i (.inr hi))]
    exact hw.heavy i (List.mem_cons_of_mem h hi)

theorem Weighed.pair (hw : Weighed light heavy c) (hc : Unfinished n (light ++ heavy) c) :
    ∀ p ∈ (c.pair light heavy).probability, 0 ≤ p ∧ p ≤ 1 := by
  induction light, heavy, c using Columns.pair.induct with
  | case1 c l light h heavy kept left next hleft ih =>
      have hscaled : next.scaled.getD h 0 = left := hc.scaled_getD_finish
      obtain ⟨hlight, hheavy, hprobability⟩ := hw.others_finish hc
      have hback : 0 ≤ next.scaled.getD h 0 ∧ next.scaled.getD h 0 < 1 := by
        rw [hscaled]
        exact ⟨hw.left_nonneg, hleft⟩
      rw [Columns.pair, if_pos hleft]
      exact ih ⟨List.forall_mem_cons.2 ⟨hback, hlight⟩, hheavy, hprobability⟩
        ((hc.finish h).perm List.perm_middle)
  | case2 c l light h heavy kept left next hleft ih =>
      have hscaled : next.scaled.getD h 0 = left := hc.scaled_getD_finish
      obtain ⟨hlight, hheavy, hprobability⟩ := hw.others_finish hc
      have hback : 1 ≤ next.scaled.getD h 0 := by
        rw [hscaled]
        exact Scalar.le_of_not_lt rfl (Scalar.isNaN_right hw.left_nonneg) hleft
      rw [Columns.pair, if_neg hleft]
      exact ih ⟨hlight, List.forall_mem_cons.2 ⟨hback, hheavy⟩, hprobability⟩ (hc.finish h)
  | case3 light heavy c hdone =>
      rw [Columns.pair]
      · exact hw.probability
      · exact hdone

end

/-! ## The start -/

variable {scaled : Array ω}

/-- All columns of `n` before the first round. -/
theorem Unfinished.start (hn : scaled.size = n) (hperm : columns.Perm (List.range n)) :
    Unfinished n columns
      { scaled, probability := Array.replicate n 1, aliasOf := Array.range n } where
  scaled_size := hn
  probability_size := Array.size_replicate
  aliasOf_size := Array.size_range
  nodup := hperm.nodup_iff.2 List.nodup_range
  lt j hj := List.mem_range.1 (hperm.mem_iff.1 hj)
  whole j hj := by
    rw [Array.getElem?_replicate, if_pos (List.mem_range.1 (hperm.mem_iff.1 hj))]

/-- Every column is finished once when the light ones are paired with the others. -/
theorem checked_pair_start (hn : scaled.size = n) :
    let start : Columns ω :=
      { scaled, probability := Array.replicate n 1, aliasOf := Array.range n }
    let light := (List.range n).reverse.filter fun j => decide (scaled.getD j 0 < 1)
    let heavy := (List.range n).reverse.filter fun j => !decide (scaled.getD j 0 < 1)
    ∃ finished, Checked.pair light heavy start = some (finished, start.pair light heavy) ∧
      finished.Perm (List.range n) ∧ (start.pair light heavy).probability.size = n ∧
      (start.pair light heavy).aliasOf.size = n := by
  intro start light heavy
  have hperm : (light ++ heavy).Perm (List.range n) :=
    (List.filter_append_perm _ _).trans (List.reverse_perm _)
  obtain ⟨finished, hpair, hfinished⟩ := (Unfinished.start hn hperm).checked_pair
  exact ⟨finished, hpair, hfinished.trans hperm,
    sizes_pair Array.size_replicate Array.size_range⟩

theorem Weighed.start {scaled : Array Float} (hn : scaled.size = n)
    (hscaled : ∀ x ∈ scaled, 0 ≤ x) :
    Weighed ((List.range n).reverse.filter fun j => decide (scaled.getD j 0 < 1))
      ((List.range n).reverse.filter fun j => !decide (scaled.getD j 0 < 1))
      { scaled, probability := Array.replicate n 1, aliasOf := Array.range n } := by
  have hnonneg (j : Nat) (hj : j < n) : 0 ≤ scaled.getD j 0 := by
    have hlt : j < scaled.size := hn.symm ▸ hj
    exact Array.getElem_eq_getD (h := hlt) 0 ▸ hscaled _ (Array.getElem_mem hlt)
  refine ⟨fun j hj => ?_, fun j hj => ?_, fun p hp => ?_⟩
  · obtain ⟨hmem, hlight⟩ := List.mem_filter.1 hj
    exact ⟨hnonneg j (by simpa using hmem), of_decide_eq_true hlight⟩
  · obtain ⟨hmem, hheavy⟩ := List.mem_filter.1 hj
    refine Scalar.le_of_not_lt rfl (Scalar.isNaN_right (hnonneg j (by simpa using hmem))) ?_
    simpa using hheavy
  · rw [(Array.mem_replicate.1 hp).2]
    exact ⟨Binary64.zero_le_one, Scalar.le_refl rfl⟩

end Columns

/-! ## Tables -/

/-- The construction answers as it does when it insists on its indices, and then every column was
finished once. -/
theorem checked_ofWeights? (weighted : List (α × ω)) :
    Checked.ofWeights? weighted = some none ∧ ofWeights? weighted = none ∨
      ∃ finished t, Checked.ofWeights? weighted = some (some (finished, t)) ∧
        ofWeights? weighted = some t ∧ finished.Perm (List.range t.items.size) ∧
        t.probability.size = t.items.size ∧ t.aliasOf.size = t.items.size := by
  unfold Checked.ofWeights? ofWeights?
  simp only
  generalize weighted.filter _ = kept
  generalize hscaled : ((kept.map (·.2)).map _).toArray = scaled
  split
  · exact .inl ⟨rfl, rfl⟩
  · have hsize : scaled.size = kept.length := by
      rw [← hscaled]
      simp
    obtain ⟨finished, hpair, hfinished, hprobability, haliasOf⟩ :=
      Columns.checked_pair_start hsize
    rw [hpair]
    refine .inr ⟨finished, _, rfl, rfl, ?_, ?_, ?_⟩
    · simpa using hfinished
    · simpa using hprobability
    · simpa using haliasOf

/-- What a column of positive weight holds before the pairing, also where the product overflows or
the quotient underflows. -/
theorem scaled_nonneg {w total : Float} (n : Nat) (hw : w.isFinite = true) (hpos : 0 < w)
    (htotal : total.isFinite = true) (hle : ¬ total ≤ 0) : 0 ≤ w * (n : Float) / total := by
  have hproduct : 0 ≤ w * (n : Float) :=
    Binary64.mul_nonneg (Scalar.le_of_lt hpos) (Binary64.natCast_nonneg n) (.inl ⟨hpos, hw⟩)
  have hsum : 0 < total := by
    by_contra hnot
    exact hle (Scalar.le_of_not_lt (Binary64.isNaN_of_isFinite htotal) rfl hnot)
  exact Binary64.div_nonneg hproduct hsum htotal

/-- No share of a table of floats is outside of `[0, 1]`. -/
theorem probability_mem_unit {weighted : List (α × Float)} {t : AliasTable α Float}
    (h : ofWeights? weighted = some t) : ∀ p ∈ t.probability, 0 ≤ p ∧ p ≤ 1 := by
  unfold ofWeights? at h
  simp only at h
  split at h
  · exact nomatch h
  · next htotal =>
      cases h
      simp only [Bool.or_eq_true, not_or, Bool.not_eq_true', Bool.not_eq_false,
        decide_eq_true_eq] at htotal
      obtain ⟨⟨-, hfinite⟩, hle⟩ := htotal
      refine Columns.Weighed.pair (Columns.Weighed.start (by simp) ?_)
        (Columns.Unfinished.start (by simp)
          ((List.filter_append_perm _ _).trans (List.reverse_perm _)))
      intro x hx
      obtain ⟨w, hw, rfl⟩ := List.mem_map.1 (List.mem_toArray.1 hx)
      obtain ⟨entry, hentry, rfl⟩ := List.mem_map.1 hw
      obtain ⟨hweight, hpos⟩ := Bool.and_eq_true_iff.1 (List.mem_filter.1 hentry).2
      exact scaled_nonneg _ hweight (of_decide_eq_true hpos) hfinite hle

theorem items_ofWeights? {weighted : List (α × ω)} {t : AliasTable α ω}
    (h : ofWeights? weighted = some t) : t.items.toList =
      (weighted.filter fun entry => Scalar.isFinite entry.2 && decide (0 < entry.2)).map (·.1) := by
  unfold ofWeights? at h
  simp only at h
  split at h
  · exact nomatch h
  · cases h
    rfl

/-- What a table made of the given entries is, one column to each, and what the draws from it are.
The columns are those that its construction finished, in that order. -/
structure WellFormed (kept : List (α × ω)) (finished : List Nat) (t : AliasTable α ω) : Prop where
  items : t.items.toList = kept.map (·.1)
  nonempty : 0 < t.items.size
  probability_size : t.probability.size = t.items.size
  aliasOf_size : t.aliasOf.size = t.items.size
  aliasOf : ∀ j ∈ t.aliasOf, j < t.items.size
  probability : ∀ p ∈ t.probability, 0 ≤ p ∧ p ≤ 1
  finished : finished.Perm (List.range t.items.size)
  pick (column : Nat) (coin : ω) : column < t.items.size →
    ∃ entry ∈ kept, Checked.pick t column coin = some entry.1
  sample (rng : Rng) : ∃ column coin, column < t.items.size ∧
    (t.sample rng).1 = Checked.pick t column coin

theorem Drawable.pick_lt {t : AliasTable α ω} (h : t.Drawable) {column : Nat}
    (hcolumn : column < t.items.size) (coin : ω) : t.pick column coin < t.items.size := by
  unfold pick
  split
  · exact hcolumn
  · exact h.aliasOf column

/-- A draw reads nothing that is not there. -/
theorem checked_pick {t : AliasTable α ω} {column : Nat} (hcolumn : column < t.items.size)
    (hprobability : t.probability.size = t.items.size) (haliasOf : t.aliasOf.size = t.items.size)
    (coin : ω) : Checked.pick t column coin = t.items[t.pick column coin]? := by
  have hshare : t.probability[column]? = some (t.probability.getD column 0) :=
    getElem?_eq_getD (hprobability.symm ▸ hcolumn) 0
  have halias : t.aliasOf[column]? = some (t.aliasOf.getD column 0) :=
    getElem?_eq_getD (haliasOf.symm ▸ hcolumn) 0
  unfold Checked.pick pick
  rw [hshare, halias]
  simp only [Option.bind_eq_bind, Option.bind_some]
  split <;> rfl

theorem Drawable.sample_checked {t : AliasTable α ω} (h : t.Drawable)
    (hprobability : t.probability.size = t.items.size) (haliasOf : t.aliasOf.size = t.items.size)
    (rng : Rng) : ∃ column coin, column < t.items.size ∧
      (t.sample rng).1 = Checked.pick t column coin := by
  have hcolumn := Rng.below_lt h.nonempty rng
  refine ⟨_, (Rng.unit ω (Rng.below t.items.size rng).2).1, hcolumn, ?_⟩
  rw [checked_pick hcolumn hprobability haliasOf]
  rfl

/-- However large, small or meaningless the weights are, the construction of a table never reads or
writes outside of its columns and finishes each one once. A table is made of the entries of finite
positive weight, in their order, every share in it is a number from zero to one, and every draw is
one of these entries. -/
theorem table_well_formed (weighted : List (α × Float)) :
    Checked.ofWeights? weighted = some none ∧ ofWeights? weighted = none ∨
      ∃ finished t, Checked.ofWeights? weighted = some (some (finished, t)) ∧
        ofWeights? weighted = some t ∧
        WellFormed (weighted.filter fun entry => entry.2.isFinite && decide (0 < entry.2))
          finished t := by
  rcases checked_ofWeights? weighted with hnone | ⟨finished, t, hchecked, htable, hfinished, hp, ha⟩
  · exact .inl hnone
  · refine .inr ⟨finished, t, hchecked, htable, ?_⟩
    have hdrawable := drawable_ofWeights? htable
    have hitems := items_ofWeights? htable
    refine ⟨hitems, hdrawable.nonempty, hp, ha, ?_, probability_mem_unit htable, hfinished, ?_, ?_⟩
    · intro j hj
      obtain ⟨i, hi, rfl⟩ := Array.mem_iff_getElem.1 hj
      exact Array.getElem_eq_getD (h := hi) 0 ▸ hdrawable.aliasOf i
    · intro column coin hcolumn
      have hlt : t.pick column coin < t.items.size := hdrawable.pick_lt hcolumn coin
      have hmem : t.items[t.pick column coin] ∈ t.items.toList :=
        Array.mem_toList_iff.2 (Array.getElem_mem hlt)
      rw [hitems] at hmem
      obtain ⟨entry, hentry, heq⟩ := List.mem_map.1 hmem
      refine ⟨entry, hentry, ?_⟩
      rw [checked_pick hcolumn hp ha, Array.getElem?_eq_getElem hlt, heq]
    · exact hdrawable.sample_checked hp ha

/-- Weights that are no number, infinite, nothing, as large and as small as they come. -/
def extremes : List (String × Float) :=
  [("none", 0 / 0), ("endless", 1 / 0), ("zero", 0), ("below", -1),
    ("huge", Float.ofBits 0x7FEFFFFFFFFFFFFF), ("tiny", Float.ofBits 1)]

/-- Of the extreme weights a table is made, and the last two are in it. -/
theorem table_of_extremes : ∃ t, ofWeights? extremes = some t ∧
    t.items.toList = ["huge", "tiny"] ∧ ∀ p ∈ t.probability, 0 ≤ p ∧ p ≤ 1 := by
  have hsome : (ofWeights? extremes).isSome = true := by decide +kernel
  rcases table_well_formed extremes with ⟨-, hnone⟩ | ⟨finished, t, -, htable, ht⟩
  · rw [hnone] at hsome
    exact nomatch hsome
  · exact ⟨t, htable, ht.items.trans rfl, ht.probability⟩

end ResourceSelection.AliasTable
