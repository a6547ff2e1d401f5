import Mathlib.Order.Interval.Finset.Nat
import ResourceSelection.Proofs.Grouping.Assignment

/-!
# Where a newcomer lands

When no core group is below its target, a newcomer draws one of the positions up to the number of
listed names, and joins the group that owns it. Two counts meet here. The positions are as many as
the index has names, and the groups are laid out over them by the sizes of their member lists. A
group has a position for each member as long as the row of members does not run past the last
position, and the last group has all that are left (`Grouping.card_landings`). So the shares are
the sizes, with one position more for the last group, exactly where the two counts agree.

They agree in every grouping whose assignments list no name twice. After one that did, the groups
have more members than there are positions, and it is the last group that comes off short.

That the positions are equally likely is a fact of the generator: a word that is not drawn again is
scaled down, and every position is what equally many words are scaled down to.
-/

namespace ResourceSelection

open Finset

/-! ## Equally likely draws -/

namespace Rng

/-- The words for which a draw below `n` gives a value at once. -/
def words (n value : ℕ) : Finset ℕ :=
  {w ∈ range wordCount | (wordCount - n) % n ≤ w * n % wordCount ∧ w * n / wordCount = value}

theorem belowWithin_of_mem_words {n value fuel : ℕ} (hfuel : fuel ≠ 0) {g : Rng}
    (h : g.next.1.toNat ∈ words n value) :
    belowWithin n ((wordCount - n) % n) fuel g = (value, g.next.2) := by
  obtain ⟨fuel, rfl⟩ := Nat.exists_eq_succ_of_ne_zero hfuel
  obtain ⟨-, hkept, hvalue⟩ := mem_filter.1 h
  rw [belowWithin]
  simp only
  rw [if_neg (Nat.not_lt.2 hkept), hvalue]

theorem below_of_mem_words {n value : ℕ} (hn : n ≠ 0) {g : Rng}
    (h : g.next.1.toNat ∈ words n value) : below n g = (value, g.next.2) := by
  rw [below, if_neg hn]
  exact belowWithin_of_mem_words (Nat.succ_ne_zero _) h

theorem mem_words_iff {n value w : ℕ} (hn : 0 < n) (hle : n ≤ wordCount) (hvalue : value < n) :
    w ∈ words n value ↔
      value * wordCount + wordCount % n ≤ w * n ∧ w * n < (value + 1) * wordCount := by
  have hpos : 0 < wordCount := Nat.lt_of_lt_of_le hn hle
  have hsplit := Nat.div_add_mod (w * n) wordCount
  have hmod := Nat.mod_lt (w * n) hpos
  rw [words, mem_filter, mem_range, ← Nat.mod_eq_sub_mod hle]
  constructor
  · rintro ⟨-, hkept, hw⟩
    rw [hw, Nat.mul_comm] at hsplit
    rw [Nat.succ_mul]
    omega
  · rintro ⟨hlow, hhigh⟩
    have hw : w * n / wordCount = value := by
      refine Nat.div_eq_of_lt_le ?_ hhigh
      omega
    rw [hw, Nat.mul_comm] at hsplit
    refine ⟨?_, by omega, hw⟩
    -- the product is below `n` times the number of words
    refine Nat.lt_of_mul_lt_mul_right (a := n) (hhigh.trans_le ?_)
    rw [Nat.mul_comm wordCount]
    exact Nat.mul_le_mul_right _ hvalue

/-- The words for one value stand in a row, behind those that are drawn again. -/
theorem words_eq_Ico {n value : ℕ} (hn : 0 < n) (hle : n ≤ wordCount) (hvalue : value < n) :
    words n value =
      Ico ((value * wordCount + wordCount % n + (n - 1)) / n)
        ((value * wordCount + wordCount % n + (n - 1)) / n + wordCount / n) := by
  have hceil (a w : ℕ) : (a + (n - 1)) / n ≤ w ↔ a ≤ w * n := by
    rw [← Nat.lt_succ_iff, Nat.div_lt_iff_lt_mul hn, Nat.succ_mul]
    omega
  have hend (all : ℕ) : (value * all + all % n + (n - 1)) / n + all / n =
      ((value + 1) * all + (n - 1)) / n := by
    have hsplit := Nat.div_add_mod all n
    have hall : value * all + all % n + (n - 1) + n * (all / n) =
        (value + 1) * all + (n - 1) := by
      rw [Nat.succ_mul]
      omega
    rw [← hall, Nat.add_mul_div_left _ _ hn]
  ext w
  have hbelow := (hceil ((value + 1) * wordCount) w).not
  rw [not_le, not_le] at hbelow
  rw [mem_words_iff hn hle hvalue, mem_Ico, hceil, hend, hbelow]

/-- Every value has the same number of words. -/
theorem card_words {n value : ℕ} (hn : 0 < n) (hle : n ≤ wordCount) (hvalue : value < n) :
    (words n value).card = wordCount / n := by
  rw [words_eq_Ico hn hle hvalue, Nat.card_Ico, Nat.add_sub_cancel_left]

end Rng

namespace Grouping

variable {α : Type}

/-! ## Positions -/

theorem le_groupOwning (count : ℕ) (sizes : List ℕ) (position : ℕ) :
    count ≤ groupOwning count sizes position := by
  induction sizes generalizing count position with
  | nil => exact le_rfl
  | cons size rest ih =>
      rw [groupOwning]
      split
      · exact le_rfl
      · exact (Nat.le_succ count).trans (ih (count + 1) _)

/-- A group owns the positions from the end of those before it to its own end, and the group after
all others has no end. -/
theorem groupOwning_eq_iff {count k : ℕ} {sizes : List ℕ} {position : ℕ} :
    groupOwning count sizes position = count + k ↔
      k ≤ sizes.length ∧ (sizes.take k).sum ≤ position ∧
        (k < sizes.length → position < (sizes.take (k + 1)).sum) := by
  induction sizes generalizing count k position with
  | nil =>
      simp only [groupOwning, List.length_nil, List.take_nil, List.sum_nil]
      omega
  | cons size rest ih =>
      rw [groupOwning]
      cases k with
      | zero =>
          have hlater := le_groupOwning (count + 1) rest (position - size)
          simp only [List.take_zero, List.sum_nil, List.take_succ_cons, List.sum_cons,
            List.length_cons]
          split <;> omega
      | succ k =>
          simp only [List.take_succ_cons, List.sum_cons, List.length_cons]
          split
          · omega
          · rw [show count + (k + 1) = count + 1 + k by omega, ih]
            omega

/-- The number of members before a group. -/
def start (g : Grouping α) (k : ℕ) : ℕ := ((g.groups.take k).map List.length).sum

theorem start_succ (g : Grouping α) (k : ℕ) :
    g.start (k + 1) = g.start k + (g.members k).length := by
  rw [start, start, List.take_add_one, List.map_append, List.sum_append, members,
    List.getD_eq_getElem?_getD]
  cases g.groups[k]? <;> simp

theorem groupAt_eq_iff {g : Grouping α} (hlength : g.groups.length = g.coreSizes.length + 1)
    {k position : ℕ} : g.groupAt position = k ↔
      k ≤ g.coreSizes.length ∧ g.start k ≤ position ∧
        (k < g.coreSizes.length → position < g.start (k + 1)) := by
  have hcount : ((g.groups.take g.coreSizes.length).map List.length).length =
      g.coreSizes.length := by
    simp [hlength]
  have hstart {j : ℕ} (hj : j ≤ g.coreSizes.length) :
      (((g.groups.take g.coreSizes.length).map List.length).take j).sum = g.start j := by
    rw [← List.map_take, List.take_take, min_eq_left hj, start]
  have howning : groupOwning 0 ((g.groups.take g.coreSizes.length).map List.length) position =
      0 + k ↔ _ := groupOwning_eq_iff
  rw [Nat.zero_add, hcount] at howning
  rw [groupAt, howning]
  refine and_congr_right fun hk => ?_
  rw [hstart hk]
  refine and_congr_right fun _ => forall_congr' fun hlt => ?_
  rw [hstart hlt]

/-- The positions that lead to a group. -/
def landings (g : Grouping α) (k : ℕ) : Finset ℕ :=
  {position ∈ range (g.size + 1) | g.groupAt position = k}

/-- A core group has a position for each member, up to the last position that there is. -/
theorem card_landings {g : Grouping α} (hlength : g.groups.length = g.coreSizes.length + 1) {k : ℕ}
    (hk : k < g.coreSizes.length) :
    (g.landings k).card = min (g.members k).length (g.size + 1 - g.start k) := by
  have hrow : g.landings k = Ico (g.start k) (min (g.start (k + 1)) (g.size + 1)) := by
    ext position
    simp only [landings, mem_filter, mem_range, mem_Ico, groupAt_eq_iff hlength]
    omega
  rw [hrow, Nat.card_Ico, start_succ]
  omega

theorem card_landings_last {g : Grouping α} (hlength : g.groups.length = g.coreSizes.length + 1) :
    (g.landings g.lastGroup).card = g.size + 1 - g.start g.lastGroup := by
  have hrow : g.landings g.lastGroup = Ico (g.start g.lastGroup) (g.size + 1) := by
    ext position
    simp only [landings, mem_filter, mem_range, mem_Ico, groupAt_eq_iff hlength, lastGroup]
    omega
  rw [hrow, Nat.card_Ico]

theorem start_lastGroup_add {g : Grouping α}
    (hlength : g.groups.length = g.coreSizes.length + 1) :
    g.start g.lastGroup + (g.members g.lastGroup).length = g.groupSizes.sum := by
  rw [← start_succ, start, lastGroup, ← hlength, List.take_length, groupSizes]

theorem start_le_start (g : Grouping α) {j k : ℕ} (h : j ≤ k) : g.start j ≤ g.start k := by
  induction h with
  | refl => exact le_rfl
  | step _ ih => exact ih.trans (by rw [start_succ]; omega)

def SharesBySize (g : Grouping α) : Prop :=
  (∀ k < g.coreSizes.length, (g.landings k).card = (g.members k).length) ∧
    (g.landings g.lastGroup).card = (g.members g.lastGroup).length + 1

theorem sharesBySize_iff {g : Grouping α} (hlength : g.groups.length = g.coreSizes.length + 1) :
    g.SharesBySize ↔ g.size = g.groupSizes.sum := by
  have htotal := start_lastGroup_add hlength
  have hlast := card_landings_last hlength
  constructor
  · rintro ⟨-, hshare⟩
    omega
  · intro htallied
    refine ⟨fun k hk => ?_, by omega⟩
    have hend : g.start (k + 1) ≤ g.start g.lastGroup := g.start_le_start hk
    rw [start_succ] at hend
    rw [card_landings hlength hk]
    omega

/-! ## Newcomers -/

variable [DecidableEq α]

theorem add_of_underfilled {g : Grouping α} {name : α} {group : ℕ}
    (hnew : g.priorityOf name = none) (h : g.Underfilled group)
    (hfirst : ∀ earlier < group, ¬ g.Underfilled earlier) :
    g.add name = (toPriority group, g.place name group) := by
  unfold add
  rw [hnew, firstUnderfilled_eq_some h hfirst]

theorem add_of_filled {g : Grouping α} {name : α} (hnew : g.priorityOf name = none)
    (h : ∀ group, ¬ g.Underfilled group) {position : ℕ} {rng : Rng}
    (hdraw : g.rng.below (g.size + 1) = (position, rng)) :
    g.add name = (toPriority (g.groupAt position),
      Grouping.place { g with rng } name (g.groupAt position)) := by
  unfold add
  rw [hnew, firstUnderfilled_eq_none h, hdraw]

/-- Where a newcomer goes. It tops up the first core group below its target, without a draw. When
there is none, one of as many positions as there are listed names, and one more, is drawn, all of
them equally likely, and the groups have their share of these by size as far as the positions reach:
in full, with one position more for the last group, exactly if the index lists as many names as the
groups have members. That is so as long as no assignment lists a name twice. -/
theorem newcomers_land_by_size {g : Grouping α} (h : g.Arises) (rng : Rng) {name : α}
    (hnew : g.priorityOf name = none) :
    (∀ group, g.Underfilled group → (∀ earlier < group, ¬ g.Underfilled earlier) →
      Grouping.add { g with rng } name =
          (toPriority group, Grouping.place { g with rng } name group) ∧
        (Grouping.add { g with rng } name).2.rng = rng) ∧
    ((∀ group, ¬ g.Underfilled group) →
      (∀ position next, rng.below (g.size + 1) = (position, next) → position ≤ g.size ∧
        Grouping.add { g with rng } name = (toPriority (g.groupAt position),
          Grouping.place { g with rng := next } name (g.groupAt position))) ∧
      (∀ position ≤ g.size, g.size < Rng.wordCount →
        (Rng.words (g.size + 1) position).card = Rng.wordCount / (g.size + 1) ∧
        (rng.next.1.toNat ∈ Rng.words (g.size + 1) position →
          rng.below (g.size + 1) = (position, rng.next.2))) ∧
      (∀ k < g.coreSizes.length,
        (g.landings k).card = min (g.members k).length (g.size + 1 - g.start k)) ∧
      (g.landings g.lastGroup).card = g.size + 1 - g.start g.lastGroup ∧
      (g.SharesBySize ↔ g.size = g.groupSizes.sum)) ∧
    (g.Reachable → g.size = g.groupSizes.sum) := by
  have hlength := h.length_groups
  refine ⟨fun group hunder hfirst => ?_, fun hfilled => ⟨fun position next hdraw => ?_,
    fun position hposition hwords => ?_, fun k hk => card_landings hlength hk,
    card_landings_last hlength, sharesBySize_iff hlength⟩, fun hreach => hreach.tidy.size_eq⟩
  · have hadd := add_of_underfilled (g := { g with rng }) hnew hunder hfirst
    exact ⟨hadd, by rw [hadd]; rfl⟩
  · have hlt := Rng.below_lt (Nat.succ_pos g.size) rng
    rw [hdraw] at hlt
    exact ⟨Nat.le_of_lt_succ hlt, add_of_filled (g := { g with rng }) hnew hfilled hdraw⟩
  · exact ⟨Rng.card_words (Nat.succ_pos _) hwords (Nat.lt_succ_of_le hposition),
      fun hword => Rng.below_of_mem_words (Nat.succ_ne_zero _) hword⟩

/-- Of four positions one leads to a core group of one, and three to a last group of two. -/
theorem newcomers_land_by_size_three :
    ((empty [1] ⟨0⟩).run [.assign ["a", "b", "c"]]).Arises ∧
      ((empty [1] ⟨0⟩).run [.assign ["a", "b", "c"]]).priorityOf "d" = none ∧
      (∀ group, ¬ ((empty [1] ⟨0⟩).run [.assign ["a", "b", "c"]]).Underfilled group) ∧
      (((empty [1] ⟨0⟩).run [.assign ["a", "b", "c"]]).landings 0).card = 1 ∧
      (((empty [1] ⟨0⟩).run [.assign ["a", "b", "c"]]).landings 1).card = 3 := by
  have harises : ((empty [1] ⟨0⟩).run [.assign ["a", "b", "c"]]).Arises :=
    ⟨[1], ⟨0⟩, [.assign ["a", "b", "c"]], rfl⟩
  have hnew : ((empty [1] ⟨0⟩).run [.assign ["a", "b", "c"]]).priorityOf "d" = none := rfl
  have hfilled : ∀ group, ¬ ((empty [1] ⟨0⟩).run [.assign ["a", "b", "c"]]).Underfilled group :=
    not_underfilled_of_firstUnderfilled rfl
  obtain ⟨-, hshares, -⟩ := newcomers_land_by_size harises ⟨7⟩ hnew
  obtain ⟨-, -, -, -, hshares⟩ := hshares hfilled
  obtain ⟨hcore, hlast⟩ := hshares.2 rfl
  exact ⟨harises, hnew, hfilled, hcore 0 (by decide), hlast⟩

/-- A name that is listed twice fills a core group of two by itself. There are two positions, and
both lead to the core group, so the next newcomer cannot join the last one. -/
theorem last_group_out_of_reach :
    ((empty [2] ⟨0⟩).run [.assign ["a", "a"]]).Arises ∧
      ((empty [2] ⟨0⟩).run [.assign ["a", "a"]]).priorityOf "b" = none ∧
      (∀ group, ¬ ((empty [2] ⟨0⟩).run [.assign ["a", "a"]]).Underfilled group) ∧
      (((empty [2] ⟨0⟩).run [.assign ["a", "a"]]).landings 1).card = 0 ∧
      (((empty [2] ⟨0⟩).run [.assign ["a", "a"]]).members 1).length + 1 = 1 ∧
      ¬ ((empty [2] ⟨0⟩).run [.assign ["a", "a"]]).SharesBySize := by
  have harises : ((empty [2] ⟨0⟩).run [.assign ["a", "a"]]).Arises :=
    ⟨[2], ⟨0⟩, [.assign ["a", "a"]], rfl⟩
  have hnone : (((empty [2] ⟨0⟩).run [.assign ["a", "a"]]).landings 1).card = 0 :=
    card_landings_last harises.length_groups
  refine ⟨harises, rfl, not_underfilled_of_firstUnderfilled rfl, hnone, rfl, ?_⟩
  rintro ⟨-, hlast⟩
  exact absurd (hnone.symm.trans hlast) (by decide)

end Grouping

end ResourceSelection
