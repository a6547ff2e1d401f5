import Mathlib.Algebra.BigOperators.Fin
import Mathlib.Algebra.BigOperators.Ring.List
import Mathlib.Algebra.Order.BigOperators.Group.Finset
import Mathlib.Algebra.Order.BigOperators.Group.List
import Mathlib.Algebra.Order.Field.Rat
import Mathlib.Data.List.GetD
import Mathlib.Order.Interval.Set.Basic
import Mathlib.Tactic.FieldSimp
import Mathlib.Tactic.Linarith
import Mathlib.Tactic.NormNum
import Mathlib.Tactic.Positivity
import Mathlib.Tactic.Ring
import ResourceSelection.Proofs.Sampling
import ResourceSelection.Scalar.Rational

/-!
# What the two samplers give to each weight

Over the rationals, where nothing is rounded, an item of weight `w` out of a total `W` gets the
part `w / W` of the draws from both samplers: `w / W` is the length of the interval of points for
which the weighted scan ends in it, and it is what the columns of the alias table keep for it or
give to it.

For the table, think of every column as one unit that is handed out. A column that is not yet
settled still hands all of itself to its own item, which is `scaled - 1` away from what the item is
owed: too much for a light column, too little for a heavy one. The pairing keeps this ledger. When
one of the two lists runs out, what is still owed is of one sign in all the columns that are left;
in sum nothing is owed, since as many units were handed out as there are columns. So each of them
holds exactly the one unit that it is given.
-/

namespace ResourceSelection

open Finset

theorem Scalar.sum_rat (xs : List ℚ) : Scalar.sum xs = xs.sum := by
  rw [List.sum_eq_foldl]
  rfl

/-! ## The weighted scan -/

section

variable {weights : List ℚ} {i : ℕ}

theorem sum_take_nonneg (hpos : ∀ w ∈ weights, 0 ≤ w) (i : ℕ) : 0 ≤ (weights.take i).sum :=
  List.sum_nonneg fun w hw => hpos w (List.mem_of_mem_take hw)

theorem sum_take_add_getD_le (hpos : ∀ w ∈ weights, 0 ≤ w) (i : ℕ) :
    (weights.take i).sum + weights.getD i 0 ≤ weights.sum := by
  have hrest : 0 ≤ (weights.drop (i + 1)).sum :=
    List.sum_nonneg fun w hw => hpos w (List.mem_of_mem_drop hw)
  have hsplit := List.sum_take_add_sum_drop weights (i + 1)
  have htake : (weights.take (i + 1)).sum = (weights.take i).sum + weights.getD i 0 := by
    rw [List.take_add_one, List.sum_append, List.getD_eq_getElem?_getD]
    cases weights[i]? <;> simp
  linarith

theorem scanWeights_cons (remaining weight : ℚ) (rest : List ℚ) :
    scanWeights remaining (weight :: rest) =
      if weight ≤ 0 then (scanWeights remaining rest).map (· + 1)
      else if remaining < weight then some 0
      else (scanWeights (remaining - weight) rest).map (· + 1) := rfl

/-- The scan ends in the weight whose interval holds the point. -/
theorem scanWeights_eq_some_iff {remaining : ℚ} (hpos : ∀ w ∈ weights, 0 ≤ w)
    (hr : 0 ≤ remaining) :
    scanWeights remaining weights = some i ↔
      (weights.take i).sum ≤ remaining ∧ remaining < (weights.take i).sum + weights.getD i 0 := by
  induction weights generalizing remaining i with
  | nil => simp [scanWeights, hr]
  | cons weight rest ih =>
      have hrest : ∀ w ∈ rest, 0 ≤ w := fun w hw => hpos w (List.mem_cons_of_mem weight hw)
      have hweight : 0 ≤ weight := hpos weight List.mem_cons_self
      have hmap (r : ℚ) : (scanWeights r rest).map (· + 1) = some i ↔
          ∃ j, scanWeights r rest = some j ∧ j + 1 = i := Option.map_eq_some_iff
      rw [scanWeights_cons]
      split
      · next hle =>
          have hzero : weight = 0 := le_antisymm hle hweight
          subst hzero
          rw [hmap]
          cases i with
          | zero => simp [hr]
          | succ i => simp [ih hrest hr]
      · split
        · next hlt =>
            cases i with
            | zero => simpa using ⟨hr, hlt⟩
            | succ i =>
                have := sum_take_nonneg hrest i
                simp only [List.take_succ_cons, List.sum_cons, List.getD_cons_succ]
                constructor
                · intro h
                  exact nomatch h
                · rintro ⟨hle, -⟩
                  linarith
        · next hge =>
            have hr' : 0 ≤ remaining - weight := by linarith
            rw [hmap]
            cases i with
            | zero =>  simpa [hr] using hge
            | succ i =>
                simp only [List.take_succ_cons, List.sum_cons, List.getD_cons_succ,
                  Nat.add_right_cancel_iff, exists_eq_right, ih hrest hr']
                constructor
                · rintro ⟨hle, hlt⟩
                  constructor <;> linarith
                · rintro ⟨hle, hlt⟩
                  constructor <;> linarith


/-- A point short of the total does not leave the list. -/
theorem sum_le_of_scanWeights_eq_none {remaining : ℚ} (hr : 0 ≤ remaining)
    (h : scanWeights remaining weights = none) : weights.sum ≤ remaining := by
  induction weights generalizing remaining with
  | nil => simpa using hr
  | cons weight rest ih =>
      rw [scanWeights_cons] at h
      rw [List.sum_cons]
      split at h
      · next hle =>
          have hle : weight ≤ 0 := hle
          have := ih hr (Option.map_eq_none_iff.1 h)
          linarith
      · split at h
        · exact nomatch h
        · next hge =>
            have hge : ¬ remaining < weight := hge
            have := ih (by linarith) (Option.map_eq_none_iff.1 h)
            linarith

theorem pickWeighted_eq_some_iff {point : ℚ} (hpos : ∀ w ∈ weights, 0 ≤ w)
    (hsum : 0 < weights.sum) (hpoint : 0 ≤ point) (hone : point < 1) :
    pickWeighted weights weights.sum point = some i ↔
      (weights.take i).sum ≤ point * weights.sum ∧
        point * weights.sum < (weights.take i).sum + weights.getD i 0 := by
  have hstretched : point * weights.sum < weights.sum := by nlinarith
  have hr : 0 ≤ point * weights.sum := mul_nonneg hpoint hsum.le
  have hscan : pickWeighted weights weights.sum point =
      scanWeights (point * weights.sum) weights := by
    have hcond : 0 < weights.sum ∧ Scalar.isFinite weights.sum = true := ⟨hsum, rfl⟩
    unfold pickWeighted
    rw [if_pos hcond]
    cases h : scanWeights (point * weights.sum) weights with
    | none => exact absurd (sum_le_of_scanWeights_eq_none hr h) (not_le.2 hstretched)
    | some j => rfl
  rw [hscan, scanWeights_eq_some_iff hpos hr]

/-- The points that pick the weight with index `i`. -/
def scanPoints (weights : List ℚ) (i : ℕ) : Set ℚ :=
  {point | 0 ≤ point ∧ point < 1 ∧ pickWeighted weights weights.sum point = some i}

theorem scanPoints_eq_Ico (hpos : ∀ w ∈ weights, 0 ≤ w) (hsum : 0 < weights.sum) (i : ℕ) :
    scanPoints weights i =
      Set.Ico ((weights.take i).sum / weights.sum)
        ((weights.take i).sum / weights.sum + weights.getD i 0 / weights.sum) := by
  have hbelow := sum_take_nonneg hpos i
  have hwithin := sum_take_add_getD_le hpos i
  ext point
  rw [scanPoints, Set.mem_ofPred_eq, Set.mem_Ico, ← add_div, div_le_iff₀ hsum, lt_div_iff₀ hsum]
  constructor
  · rintro ⟨hpoint, hone, hpick⟩
    exact (pickWeighted_eq_some_iff hpos hsum hpoint hone).1 hpick
  · rintro ⟨hle, hlt⟩
    have hpoint : 0 ≤ point := by
      by_contra hneg
      nlinarith
    have hone : point < 1 := by
      by_contra hge
      nlinarith
    exact ⟨hpoint, hone, (pickWeighted_eq_some_iff hpos hsum hpoint hone).2 ⟨hle, hlt⟩⟩

end

/-! ## The alias table -/

namespace AliasTable

theorem getD_setIfInBounds {β : Type} {xs : Array β} {l : ℕ} (hl : l < xs.size) (j : ℕ)
    (v d : β) : (xs.setIfInBounds l v).getD j d = if j = l then v else xs.getD j d := by
  simp only [Array.getD_eq_getD_getElem?, Array.getElem?_setIfInBounds]
  rcases eq_or_ne j l with rfl | hj
  · simp [hl]
  · simp [hj, hj.symm]

namespace Columns

variable {n : ℕ} {owed : ℕ → ℚ} {unsettled : List ℕ} {c : Columns ℚ} {l h : ℕ}

/-- What column `j` hands to item `i`. -/
def share (c : Columns ℚ) (j i : ℕ) : ℚ :=
  (if j = i then c.probability.getD j 0 else 0) +
    if c.aliasOf.getD j 0 = i then 1 - c.probability.getD j 0 else 0

/-- The ledger over `n` columns, `unsettled` among them: an item that holds all of its unsettled
column is still to get the difference between `scaled` and one, and then has what it is owed. -/
structure Ledger (n : ℕ) (owed : ℕ → ℚ) (unsettled : List ℕ) (c : Columns ℚ) : Prop where
  scaled_size : c.scaled.size = n
  probability_size : c.probability.size = n
  aliasOf_size : c.aliasOf.size = n
  nodup : unsettled.Nodup
  lt : ∀ j ∈ unsettled, j < n
  whole : ∀ j ∈ unsettled, c.probability.getD j 0 = 1 ∧ c.aliasOf.getD j 0 = j
  bounded : ∀ j < n, 0 ≤ c.probability.getD j 0 ∧ c.probability.getD j 0 ≤ 1
  own : ∀ j < n, c.aliasOf.getD j 0 = j → c.probability.getD j 0 = 1
  balance : ∀ i < n, ∑ j ∈ range n, c.share j i +
    (if i ∈ unsettled then c.scaled.getD i 0 - 1 else 0) = owed i

theorem Ledger.perm {unsettled' : List ℕ} (hc : Ledger n owed unsettled c)
    (hperm : unsettled.Perm unsettled') : Ledger n owed unsettled' c where
  scaled_size := hc.scaled_size
  probability_size := hc.probability_size
  aliasOf_size := hc.aliasOf_size
  nodup := hperm.nodup_iff.1 hc.nodup
  lt j hj := hc.lt j (hperm.mem_iff.2 hj)
  whole j hj := hc.whole j (hperm.mem_iff.2 hj)
  bounded := hc.bounded
  own := hc.own
  balance i hi := by simpa only [hperm.mem_iff] using hc.balance i hi

/-- Column `l` settled: it keeps what it holds, and column `h` makes up for the rest. -/
def settle (c : Columns ℚ) (l h : ℕ) : Columns ℚ where
  scaled := c.scaled.setIfInBounds h (c.scaled.getD h 0 + c.scaled.getD l 0 - 1)
  probability := c.probability.setIfInBounds l (c.scaled.getD l 0)
  aliasOf := c.aliasOf.setIfInBounds l h

theorem Ledger.scaled_settle (hc : Ledger n owed unsettled c) (hh : h ∈ unsettled) (j : ℕ) :
    (c.settle l h).scaled.getD j 0 =
      if j = h then c.scaled.getD h 0 + c.scaled.getD l 0 - 1 else c.scaled.getD j 0 :=
  getD_setIfInBounds (hc.scaled_size.symm ▸ hc.lt h hh) j _ 0

theorem Ledger.settle (hc : Ledger n owed (l :: h :: unsettled) c)
    (hlight : 0 ≤ c.scaled.getD l 0 ∧ c.scaled.getD l 0 < 1) :
    Ledger n owed (h :: unsettled) (c.settle l h) := by
  have hln : l < n := hc.lt l (by simp)
  obtain ⟨hl, hnodup⟩ := List.nodup_cons.1 hc.nodup
  have hlh : l ≠ h := fun heq => hl (by simp [heq])
  have hprob (j : ℕ) : (c.settle l h).probability.getD j 0 =
      if j = l then c.scaled.getD l 0 else c.probability.getD j 0 :=
    getD_setIfInBounds (hc.probability_size.symm ▸ hln) j _ 0
  have halias (j : ℕ) : (c.settle l h).aliasOf.getD j 0 =
      if j = l then h else c.aliasOf.getD j 0 :=
    getD_setIfInBounds (hc.aliasOf_size.symm ▸ hln) j _ 0
  obtain ⟨hwhole, hself⟩ := hc.whole l (by simp)
  -- only the row of `l` changes: `h` gets what `l` gives up
  have hshare (i j : ℕ) : (c.settle l h).share j i = c.share j i + if j = l then
      (if l = i then c.scaled.getD l 0 - 1 else 0) + (if h = i then 1 - c.scaled.getD l 0 else 0)
      else 0 := by
    unfold share
    rw [hprob, halias]
    rcases eq_or_ne j l with rfl | hj
    · rw [hwhole, hself]
      simp only [if_true]
      split <;> ring
    · simp [hj]
  constructor
  case scaled_size => exact Array.size_setIfInBounds.trans hc.scaled_size
  case probability_size => exact Array.size_setIfInBounds.trans hc.probability_size
  case aliasOf_size => exact Array.size_setIfInBounds.trans hc.aliasOf_size
  case nodup => exact hnodup
  case lt => exact fun j hj => hc.lt j (List.mem_cons_of_mem l hj)
  case whole =>
    intro j hj
    have hne : j ≠ l := fun heq => hl (heq ▸ hj)
    rw [hprob, halias, if_neg hne, if_neg hne]
    exact hc.whole j (List.mem_cons_of_mem l hj)
  case bounded =>
    intro j hj
    rw [hprob]
    split
    · exact ⟨hlight.1, hlight.2.le⟩
    · exact hc.bounded j hj
  case own =>
    intro j hj
    rw [hprob, halias]
    split
    · next heq =>
        intro hhj
        exact absurd (hhj.trans heq).symm hlh
    · exact hc.own j hj
  case balance =>
    intro i hi
    rw [← hc.balance i hi, hc.scaled_settle (by simp)]
    simp only [hshare, sum_add_distrib, sum_ite_eq', mem_range, hln, if_true]
    rcases eq_or_ne i l with rfl | hil
    · simp [hl, hlh.symm]
    · rcases eq_or_ne i h with rfl | hih
      · simp [hlh]
        ring
      · simp [hil, hil.symm, hih, hih.symm]

/-- What a settled column leaves of the numbers of those that are still to be paired. -/
theorem Ledger.scaled_settle_of_mem {rest : List ℕ} (hc : Ledger n owed (l :: h :: rest) c) :
    (c.settle l h).scaled.getD h 0 = c.scaled.getD h 0 + c.scaled.getD l 0 - 1 ∧
      ∀ j ∈ rest, (c.settle l h).scaled.getD j 0 = c.scaled.getD j 0 := by
  have hscaled := hc.scaled_settle (l := l) (h := h) (by simp)
  refine ⟨by rw [hscaled, if_pos rfl], fun j hj => ?_⟩
  have hne : j ≠ h := by
    rintro rfl
    exact (List.nodup_cons.1 (List.nodup_cons.1 hc.nodup).2).1 hj
  rw [hscaled, if_neg hne]

/-- When the pairing stops, what is left over is either all too light or all too heavy. -/
theorem Ledger.pair {light heavy : List ℕ} (hc : Ledger n owed (light ++ heavy) c)
    (hlight : ∀ l ∈ light, 0 ≤ c.scaled.getD l 0 ∧ c.scaled.getD l 0 < 1)
    (hheavy : ∀ h ∈ heavy, 1 ≤ c.scaled.getD h 0) :
    ∃ rest, Ledger n owed rest (c.pair light heavy) ∧
      ((∀ j ∈ rest, (c.pair light heavy).scaled.getD j 0 < 1) ∨
        ∀ j ∈ rest, 1 ≤ (c.pair light heavy).scaled.getD j 0) := by
  induction light, heavy, c using Columns.pair.induct with
  | case1 c l light h heavy kept left next hleft ih =>
      have hpaired := hc.perm (List.Perm.cons l List.perm_middle)
      obtain ⟨hnext, hother⟩ := hpaired.scaled_settle_of_mem
      have hkept := hlight l List.mem_cons_self
      have hfull := hheavy h List.mem_cons_self
      have hleft : c.scaled.getD h 0 + c.scaled.getD l 0 - 1 < 1 := hleft
      rw [Columns.pair, if_pos hleft]
      refine ih (hpaired.settle hkept) ?_ ?_
      · intro j hj
        rcases List.mem_cons.1 hj with rfl | hj
        · change 0 ≤ (c.settle l j).scaled.getD j 0 ∧ (c.settle l j).scaled.getD j 0 < 1
          rw [hnext]
          exact ⟨by linarith, hleft⟩
        · exact (hother j (List.mem_append_left heavy hj)).symm ▸
            hlight j (List.mem_cons_of_mem l hj)
      · intro j hj
        exact (hother j (List.mem_append_right light hj)).symm ▸
          hheavy j (List.mem_cons_of_mem h hj)
  | case2 c l light h heavy kept left next hleft ih =>
      have hpaired := hc.perm (List.Perm.cons l List.perm_middle)
      obtain ⟨hnext, hother⟩ := hpaired.scaled_settle_of_mem
      have hkept := hlight l List.mem_cons_self
      rw [Columns.pair, if_neg hleft]
      refine ih ((hpaired.settle hkept).perm List.perm_middle.symm) ?_ ?_
      · intro j hj
        exact (hother j (List.mem_append_left heavy hj)).symm ▸
          hlight j (List.mem_cons_of_mem l hj)
      · intro j hj
        rcases List.mem_cons.1 hj with rfl | hj
        · exact hnext.symm ▸ not_lt.1 hleft
        · exact (hother j (List.mem_append_right light hj)).symm ▸
            hheavy j (List.mem_cons_of_mem h hj)
  | case3 light heavy c hdone =>
      rw [Columns.pair]
      · refine ⟨light ++ heavy, hc, ?_⟩
        cases light with
        | nil => exact Or.inr hheavy
        | cons l light =>
            cases heavy with
            | nil => exact Or.inl fun j hj => (hlight j (by simpa using hj)).2
            | cons h heavy => exact (hdone l light h heavy rfl rfl).elim
      · exact hdone

/-- Every column hands out one unit. -/
theorem sum_share (c : Columns ℚ) {j : ℕ} (hj : j < n) (halias : c.aliasOf.getD j 0 < n) :
    ∑ i ∈ range n, c.share j i = 1 := by
  simp only [share, sum_add_distrib, sum_ite_eq, mem_range, hj, halias, if_true]
  ring

/-- Where as many units are owed as there are columns, and no column that is left over differs from
the others in whether too much or too little is in it, each item has what it is owed. -/
theorem Ledger.settled {rest : List ℕ} (hc : Ledger n owed rest c)
    (halias : ∀ j < n, c.aliasOf.getD j 0 < n) (howed : ∑ i ∈ range n, owed i = n)
    (hrest : (∀ j ∈ rest, c.scaled.getD j 0 < 1) ∨ ∀ j ∈ rest, 1 ≤ c.scaled.getD j 0)
    {i : ℕ} (hi : i < n) : ∑ j ∈ range n, c.share j i = owed i := by
  let missing := fun i => if i ∈ rest then c.scaled.getD i 0 - 1 else 0
  have hunits : ∑ i ∈ range n, ∑ j ∈ range n, c.share j i = n := by
    rw [sum_comm, sum_congr rfl fun j hj =>
      c.sum_share (mem_range.1 hj) (halias j (mem_range.1 hj))]
    simp
  have hsum : ∑ i ∈ range n, missing i = 0 := by
    have hbalance := sum_congr rfl fun i hi => hc.balance i (mem_range.1 hi)
    rw [sum_add_distrib, hunits, howed] at hbalance
    linarith
  have hzero : ∀ i ∈ range n, missing i = 0 := by
    rcases hrest with hless | hmore
    · refine (sum_eq_zero_iff_of_nonpos fun i _ => ?_).1 hsum
      show (if _ then _ else _) ≤ (0 : ℚ)
      split
      · next hmem => linarith [hless i hmem]
      · exact le_rfl
    · refine (sum_eq_zero_iff_of_nonneg fun i _ => ?_).1 hsum
      show (0 : ℚ) ≤ (if _ then _ else _)
      split
      · next hmem => linarith [hmore i hmem]
      · exact le_rfl
  have hbalance := hc.balance i hi
  have := hzero i (mem_range.2 hi)
  simp only [missing] at this
  linarith


/-- An item has what its own column keeps and what other columns give to it. -/
theorem Ledger.sum_share_eq {rest : List ℕ} (hc : Ledger n owed rest c) {i : ℕ} (hi : i < n) :
    ∑ j ∈ range n, c.share j i = c.probability.getD i 0 +
      ∑ j ∈ range n with c.aliasOf.getD j 0 = i ∧ j ≠ i, (1 - c.probability.getD j 0) := by
  have hgiven (j : ℕ) (hj : j ∈ range n) :
      (if c.aliasOf.getD j 0 = i then 1 - c.probability.getD j 0 else 0) =
        if c.aliasOf.getD j 0 = i ∧ j ≠ i then 1 - c.probability.getD j 0 else 0 := by
    rcases eq_or_ne j i with rfl | hne
    · by_cases hself : c.aliasOf.getD j 0 = j
      · rw [if_pos hself, hc.own j hi hself]
        simp
      · rw [if_neg hself, if_neg fun h => hself h.1]
    · simp only [hne, ne_eq, not_false_eq_true, and_true]
  simp only [share, sum_add_distrib, sum_ite_eq', mem_range, hi, if_true]
  rw [sum_congr rfl hgiven, sum_filter]

/-- The columns before any of them is settled. -/
def start (scaled : List ℚ) : Columns ℚ where
  scaled := scaled.toArray
  probability := Array.replicate scaled.length 1
  aliasOf := Array.range scaled.length

theorem ledger_start (scaled : List ℚ) :
    Ledger scaled.length (fun i => scaled.getD i 0) (List.range scaled.length) (start scaled) := by
  have hprob {j : ℕ} (hj : j < scaled.length) : (start scaled).probability.getD j 0 = 1 := by
    simp [start, Array.getD_eq_getD_getElem?, hj]
  have halias {j : ℕ} (hj : j < scaled.length) : (start scaled).aliasOf.getD j 0 = j := by
    simp [start, Array.getD_eq_getD_getElem?, hj]
  constructor
  case scaled_size => rfl
  case probability_size => exact Array.size_replicate
  case aliasOf_size => exact Array.size_range
  case nodup => exact List.nodup_range
  case lt => simp
  case whole => exact fun j hj => ⟨hprob (List.mem_range.1 hj), halias (List.mem_range.1 hj)⟩
  case bounded =>
    intro j hj
    rw [hprob hj]
    norm_num
  case own => exact fun j hj _ => hprob hj
  case balance =>
    intro i hi
    have hshare (j : ℕ) (hj : j ∈ range scaled.length) :
        (start scaled).share j i = if j = i then 1 else 0 := by
      rw [share, hprob (mem_range.1 hj), halias (mem_range.1 hj)]
      simp
    rw [sum_congr rfl hshare, sum_ite_eq', if_pos (mem_range.2 hi), if_pos (List.mem_range.2 hi)]
    simp [start]

/-- The columns after the pairing. -/
def paired (scaled : List ℚ) : Columns ℚ :=
  let columns := (List.range scaled.length).reverse
  let isLight := fun column => decide (scaled.toArray.getD column 0 < 1)
  (start scaled).pair (columns.filter isLight) (columns.filter fun c => !isLight c)

theorem ledger_paired {scaled : List ℚ} (hpos : ∀ x ∈ scaled, 0 ≤ x) :
    ∃ rest, Ledger scaled.length (fun i => scaled.getD i 0) rest (paired scaled) ∧
      ((∀ j ∈ rest, (paired scaled).scaled.getD j 0 < 1) ∨
        ∀ j ∈ rest, 1 ≤ (paired scaled).scaled.getD j 0) := by
  have hnonneg (j : ℕ) : 0 ≤ scaled.toArray.getD j 0 := by
    rw [Array.getD_eq_getD_getElem?, List.getElem?_toArray]
    rcases h : scaled[j]? with _ | x
    · exact le_rfl
    · exact hpos x (List.mem_of_getElem? h)
  refine Ledger.pair ((ledger_start scaled).perm ?_) ?_ ?_
  · exact (List.reverse_perm _).symm.trans (List.filter_append_perm _ _).symm
  · intro l hl
    exact ⟨hnonneg l, of_decide_eq_true (List.mem_filter.1 hl).2⟩
  · intro h hh
    have hheavy := (List.mem_filter.1 hh).2
    rw [Bool.not_eq_true', decide_eq_false_iff_not] at hheavy
    exact not_lt.1 hheavy

theorem aliasOf_paired_lt {scaled : List ℚ} {j : ℕ} (hj : j < scaled.length) :
    (paired scaled).aliasOf.getD j 0 < scaled.length := by
  refine aliasOf_pair ?_ ?_ (getD_range_lt (Nat.zero_lt_of_lt hj)) j
  · exact fun l hl => by simpa using (List.mem_filter.1 hl).1
  · exact fun h hh => by simpa using (List.mem_filter.1 hh).1

/-- After the pairing of columns that are full on average, each item has what its column held. -/
theorem portion_paired {scaled : List ℚ} (hpos : ∀ x ∈ scaled, 0 ≤ x)
    (hsum : scaled.sum = scaled.length) {i : ℕ} (hi : i < scaled.length) :
    (paired scaled).probability.getD i 0 +
      ∑ j ∈ range scaled.length with (paired scaled).aliasOf.getD j 0 = i ∧ j ≠ i,
        (1 - (paired scaled).probability.getD j 0) = scaled.getD i 0 := by
  obtain ⟨rest, hledger, hrest⟩ := ledger_paired hpos
  have howed : ∑ i ∈ range scaled.length, scaled.getD i 0 = scaled.length := by
    rw [← hsum, sum_range, ← Fin.sum_univ_getElem]
    simp
  rw [← hledger.sum_share_eq hi]
  exact hledger.settled (fun j hj => aliasOf_paired_lt hj) howed hrest hi

end Columns

/-! ## Coins -/

/-- The coins with which column `j` decides for item `i`. -/
def coins {α : Type} (t : AliasTable α ℚ) (j i : ℕ) : Set ℚ :=
  {coin | 0 ≤ coin ∧ coin < 1 ∧ t.pick j coin = i}

theorem coins_self {α : Type} {t : AliasTable α ℚ} {j : ℕ} (hle : t.probability.getD j 0 ≤ 1)
    (hown : t.aliasOf.getD j 0 = j → t.probability.getD j 0 = 1) :
    t.coins j j = Set.Ico 0 (t.probability.getD j 0) := by
  ext coin
  rw [coins, Set.mem_ofPred_eq, Set.mem_Ico, pick]
  constructor
  · rintro ⟨hcoin, hone, hpick⟩
    refine ⟨hcoin, ?_⟩
    split at hpick
    · assumption
    · rwa [hown hpick]
  · rintro ⟨hcoin, hlt⟩
    exact ⟨hcoin, hlt.trans_le hle, if_pos hlt⟩

theorem coins_of_ne {α : Type} {t : AliasTable α ℚ} {i j : ℕ} (hij : i ≠ j)
    (hpos : 0 ≤ t.probability.getD j 0) :
    t.coins j i =
      if t.aliasOf.getD j 0 = i then Set.Ico (t.probability.getD j 0) 1 else ∅ := by
  ext coin
  rw [coins, Set.mem_ofPred_eq, pick]
  constructor
  · rintro ⟨-, hone, hpick⟩
    split at hpick
    · exact absurd hpick.symm hij
    · next hge => exact if_pos hpick ▸ ⟨not_lt.1 hge, hone⟩
  · intro hmem
    split at hmem
    · next halias =>
        exact ⟨hpos.trans hmem.1, hmem.2, (if_neg (not_lt.2 hmem.1)).trans halias⟩
    · exact hmem.elim

/-! ## The table of a list of weights -/

variable {α : Type} {weighted : List (α × ℚ)}

/-- The entries that get a column. -/
def positive (weighted : List (α × ℚ)) : List (α × ℚ) := weighted.filter (0 < ·.2)

theorem sum_positive (hpos : ∀ entry ∈ weighted, 0 ≤ entry.2) :
    ((positive weighted).map (·.2)).sum = (weighted.map (·.2)).sum := by
  induction weighted with
  | nil => rfl
  | cons entry rest ih =>
      have hrest := ih fun e he => hpos e (List.mem_cons_of_mem entry he)
      rw [positive, List.filter_cons, List.map_cons, List.sum_cons, ← hrest]
      split
      · rw [List.map_cons, List.sum_cons, positive]
      · next hle =>
          have hzero : entry.2 = 0 :=
            le_antisymm (by simpa using hle) (hpos entry List.mem_cons_self)
          rw [hzero, zero_add, positive]

/-- What the entries come to, one being a full column. -/
def scaledWeights (kept : List (α × ℚ)) : List ℚ :=
  kept.map fun entry => entry.2 * kept.length / (kept.map (·.2)).sum

theorem sum_scaledWeights {kept : List (α × ℚ)} (htotal : 0 < (kept.map (·.2)).sum) :
    (scaledWeights kept).sum = (scaledWeights kept).length := by
  have hscaled : scaledWeights kept =
      (kept.map (·.2)).map fun w => w * (kept.length / (kept.map (·.2)).sum) := by
    simp only [scaledWeights, List.map_map, Function.comp_def, mul_div_assoc]
  rw [hscaled, List.sum_map_mul_right, List.map_id', List.length_map, List.length_map,
    mul_div_cancel₀ _ htotal.ne']

theorem ofWeights?_eq (hpos : ∀ entry ∈ weighted, 0 ≤ entry.2)
    (hsum : 0 < (weighted.map (·.2)).sum) :
    ofWeights? weighted =
      some
        { items := ((positive weighted).map (·.1)).toArray
          probability := (Columns.paired (scaledWeights (positive weighted))).probability
          aliasOf := (Columns.paired (scaledWeights (positive weighted))).aliasOf } := by
  have htotal : 0 < ((positive weighted).map (·.2)).sum := by rwa [sum_positive hpos]
  have hkept : (weighted.filter fun entry => Scalar.isFinite entry.2 && decide (0 < entry.2)) =
      positive weighted := rfl
  have hguard : ¬ (((positive weighted).isEmpty ||
      !Scalar.isFinite (Scalar.sum ((positive weighted).map (·.2))) ||
      decide (Scalar.sum ((positive weighted).map (·.2)) ≤ 0)) = true) := by
    have hne : (positive weighted).isEmpty = false := by
      cases h : positive weighted with
      | nil => simp [h] at htotal
      | cons entry rest => rfl
    rw [Scalar.sum_rat, hne, decide_eq_false (not_le.2 htotal)]
    exact Bool.false_ne_true
  unfold ofWeights?
  simp only [hkept]
  rw [if_neg hguard]
  simp only [Scalar.sum_rat, List.map_map, Columns.paired, Columns.start, scaledWeights,
    List.length_map]
  rfl

/-- The alias table and the weighted scan give every entry the same part of the draws, its weight
over the total. In the table that is what its column keeps and what other columns give to it, over
the number of columns; in the scan it is the length of the interval of points that end in it. An
entry of weight zero has neither a column nor a point. -/
theorem table_and_scan_draw_in_proportion (weighted : List (α × ℚ))
    (hpos : ∀ entry ∈ weighted, 0 ≤ entry.2) (hsum : 0 < (weighted.map (·.2)).sum) :
    (∃ t, ofWeights? weighted = some t ∧
      t.items = ((weighted.filter (0 < ·.2)).map (·.1)).toArray ∧
      t.probability.size = t.items.size ∧ t.aliasOf.size = t.items.size ∧
      (∀ j < t.items.size,
        0 ≤ t.probability.getD j 0 ∧ t.probability.getD j 0 ≤ 1 ∧
        t.aliasOf.getD j 0 < t.items.size ∧
        t.coins j j = Set.Ico 0 (t.probability.getD j 0) ∧
        ∀ i ≠ j, t.coins j i =
          if t.aliasOf.getD j 0 = i then Set.Ico (t.probability.getD j 0) 1 else ∅) ∧
      ∀ i entry, (weighted.filter (0 < ·.2))[i]? = some entry →
        (t.probability.getD i 0 +
          ∑ j ∈ range t.items.size with t.aliasOf.getD j 0 = i ∧ j ≠ i,
            (1 - t.probability.getD j 0)) / t.items.size =
          entry.2 / (weighted.map (·.2)).sum) ∧
    ∀ i entry, weighted[i]? = some entry →
      (∀ point : ℚ, 0 ≤ point → point < 1 →
        (pickWeighted (weighted.map (·.2)) (weighted.map (·.2)).sum point = some i ↔
          ((weighted.map (·.2)).take i).sum ≤ point * (weighted.map (·.2)).sum ∧
            point * (weighted.map (·.2)).sum < ((weighted.map (·.2)).take i).sum + entry.2)) ∧
      scanPoints (weighted.map (·.2)) i =
        Set.Ico (((weighted.map (·.2)).take i).sum / (weighted.map (·.2)).sum)
          (((weighted.map (·.2)).take i).sum / (weighted.map (·.2)).sum +
            entry.2 / (weighted.map (·.2)).sum) ∧
      (entry.2 = 0 → scanPoints (weighted.map (·.2)) i = ∅) := by
  constructor
  · have htotal : 0 < ((positive weighted).map (·.2)).sum := by rwa [sum_positive hpos]
    have hscaled : ∀ x ∈ scaledWeights (positive weighted), 0 ≤ x := by
      intro x hx
      obtain ⟨entry, hentry, rfl⟩ := List.mem_map.1 hx
      have := hpos entry (List.mem_filter.1 hentry).1
      positivity
    have hlength : (scaledWeights (positive weighted)).length = (positive weighted).length :=
      List.length_map _
    have hcolumns : ((positive weighted).map (·.1)).toArray.size = (positive weighted).length := by
      simp
    obtain ⟨rest, hledger, -⟩ := Columns.ledger_paired hscaled
    refine ⟨_, ofWeights?_eq hpos hsum, rfl, ?_, ?_, ?_, ?_⟩
    · rw [hledger.probability_size, hlength, hcolumns]
    · rw [hledger.aliasOf_size, hlength, hcolumns]
    · rw [hcolumns, ← hlength]
      intro j hj
      obtain ⟨hge, hle⟩ := hledger.bounded j hj
      exact ⟨hge, hle, Columns.aliasOf_paired_lt hj, coins_self hle (hledger.own j hj),
        fun i hij => coins_of_ne hij hge⟩
    · rw [hcolumns]
      intro i entry hentry
      obtain ⟨hi, rfl⟩ := List.getElem?_eq_some_iff.1 hentry
      have hi : i < (positive weighted).length := hi
      have hn : ((positive weighted).length : ℚ) ≠ 0 := by
        exact_mod_cast (Nat.zero_lt_of_lt hi).ne'
      have hportion := Columns.portion_paired hscaled (sum_scaledWeights htotal)
        (hlength.symm ▸ hi)
      rw [hlength] at hportion
      rw [hportion, ← sum_positive hpos, scaledWeights,
        List.getD_eq_getElem _ _ (by simpa using hi), List.getElem_map]
      field_simp
      rfl
  · intro i entry hentry
    have hweights : ∀ w ∈ weighted.map (·.2), 0 ≤ w := by
      intro w hw
      obtain ⟨e, he, rfl⟩ := List.mem_map.1 hw
      exact hpos e he
    have hweight : (weighted.map (·.2)).getD i 0 = entry.2 := by
      rw [List.getD_eq_getElem?_getD, List.getElem?_map, hentry]
      rfl
    have hpoints := scanPoints_eq_Ico hweights hsum i
    rw [hweight] at hpoints
    refine ⟨fun point hpoint hone => ?_, hpoints, fun hzero => ?_⟩
    · rw [← hweight]
      exact pickWeighted_eq_some_iff hweights hsum hpoint hone
    · rw [hpoints, hzero, zero_div, add_zero, Set.Ico_self]

theorem proportions_of_one_and_three :
    (∀ entry ∈ [("a", (1 : ℚ)), ("b", 0), ("c", 3)], 0 ≤ entry.2) ∧
    0 < ([("a", (1 : ℚ)), ("b", 0), ("c", 3)].map (·.2)).sum ∧
    (∃ t, ofWeights? [("a", (1 : ℚ)), ("b", 0), ("c", 3)] = some t ∧
      t.items = #["a", "c"] ∧
      (t.probability.getD 1 0 +
        ∑ j ∈ range 2 with t.aliasOf.getD j 0 = 1 ∧ j ≠ 1, (1 - t.probability.getD j 0)) / 2 =
          3 / 4) ∧
    scanPoints [1, 0, 3] 2 = Set.Ico (1 / 4) 1 ∧ scanPoints [1, 0, 3] 1 = ∅ := by
  have hpos : ∀ entry ∈ [("a", (1 : ℚ)), ("b", 0), ("c", 3)], 0 ≤ entry.2 := by simp
  have hsum : 0 < ([("a", (1 : ℚ)), ("b", 0), ("c", 3)].map (·.2)).sum := by norm_num
  obtain ⟨⟨t, ht, hitems, -, -, -, hportion⟩, hscan⟩ :=
    table_and_scan_draw_in_proportion _ hpos hsum
  have hitems : t.items = #["a", "c"] := by simpa using hitems
  have hportion := hportion 1 ("c", 3) (by simp)
  rw [hitems] at hportion
  refine ⟨hpos, hsum, ⟨t, ht, hitems, ?_⟩, ?_, ?_⟩
  · norm_num at hportion ⊢
    exact hportion
  · have hinterval := (hscan 2 ("c", 3) rfl).2.1
    norm_num at hinterval ⊢
    exact hinterval
  · exact (hscan 1 ("b", 0) rfl).2.2 rfl

end AliasTable

end ResourceSelection
