import Mathlib.Data.List.Nodup
import Mathlib.Data.List.Sort
import ResourceSelection.Ranking

/-!
# Lists by rank

Listing by rank is insertion sort. The elements are the same, in ascending rank. A look-up does not
notice, as long as what is looked for has one rank. And no order is left out: where no name comes
twice, ranks for the names can have the elements in any (`exists_byRank`).
-/

namespace ResourceSelection

variable {α : Type} {rank : α → Nat}

theorem insertRanked_eq (rank : α → Nat) (x : α) (xs : List α) :
    insertRanked rank x xs = xs.orderedInsert (fun y z => rank y ≤ rank z) x := by
  induction xs with
  | nil => rfl
  | cons y ys ih => rw [insertRanked, List.orderedInsert_cons, ih]

theorem byRank_eq (rank : α → Nat) (xs : List α) :
    byRank rank xs = xs.insertionSort fun y z => rank y ≤ rank z := by
  induction xs with
  | nil => rfl
  | cons x rest ih =>
      rw [List.insertionSort_cons, ← ih, ← insertRanked_eq]
      rfl

theorem byRank_perm (rank : α → Nat) (xs : List α) : (byRank rank xs).Perm xs := by
  rw [byRank_eq]
  exact List.perm_insertionSort _ xs

theorem pairwise_byRank (rank : α → Nat) (xs : List α) :
    (byRank rank xs).Pairwise fun y z => rank y ≤ rank z := by
  have : Std.Total fun y z => rank y ≤ rank z := ⟨fun y z => Nat.le_total (rank y) (rank z)⟩
  have : IsTrans α fun y z => rank y ≤ rank z := ⟨fun _ _ _ => Nat.le_trans⟩
  rw [byRank_eq]
  exact List.pairwise_insertionSort _ xs

/-- What comes first still does where rank cannot tell the elements that are looked for apart. -/
theorem find?_insertRanked {p : α → Bool} {x : α}
    (h : ∀ y, p x = true → p y = true → rank y = rank x) (xs : List α) :
    (insertRanked rank x xs).find? p = (x :: xs).find? p := by
  induction xs with
  | nil => rfl
  | cons y ys ih =>
      unfold insertRanked
      split
      · rfl
      · next hlt =>
          rw [List.find?_cons, ih, List.find?_cons, List.find?_cons, List.find?_cons]
          cases hx : p x with
          | false => rfl
          | true =>
              cases hy : p y with
              | false => rfl
              | true => exact absurd (Nat.le_of_eq (h y hx hy).symm) hlt

theorem find?_byRank {p : α → Bool} (h : ∀ x y, p x = true → p y = true → rank y = rank x)
    (xs : List α) : (byRank rank xs).find? p = xs.find? p := by
  induction xs with
  | nil => rfl
  | cons x rest ih =>
      show (insertRanked rank x (byRank rank rest)).find? p = _
      rw [find?_insertRanked (h x), List.find?_cons, List.find?_cons, ih]

/-- Ranks for the names can have the elements in any order. -/
theorem exists_byRank {name : α → String} {xs ys : List α} (hnodup : (xs.map name).Nodup)
    (hperm : ys.Perm xs) : ∃ rank : String → Nat, byRank (fun x => rank (name x)) xs = ys := by
  have hnodup' : (ys.map name).Nodup := (hperm.map name).nodup_iff.2 hnodup
  let rank (other : String) : Nat := (ys.map name).idxOf other
  have hranked : ys.Pairwise fun x y => rank (name x) ≤ rank (name y) := by
    rw [List.pairwise_iff_getElem]
    intro i j hi hj hlt
    have hidx (k : Nat) (hk : k < ys.length) : rank (name ys[k]) = k := by
      have := hnodup'.idxOf_getElem k (by rwa [List.length_map])
      rwa [List.getElem_map] at this
    rw [hidx i hi, hidx j hj]
    exact Nat.le_of_lt hlt
  have hlisted := (byRank_perm (fun x => rank (name x)) xs).trans hperm.symm
  refine ⟨rank, List.Perm.eq_of_pairwise ?_ (pairwise_byRank _ xs) hranked hlisted⟩
  intro x y hx hy hle hge
  have hmem := hlisted.mem_iff.1 hx
  -- no two names have one place, so equal ranks are the ranks of one element
  exact List.inj_on_of_nodup_map hnodup' hmem hy
    ((List.idxOf_inj (List.mem_map_of_mem hmem)).1 (Nat.le_antisymm hle hge))

end ResourceSelection
