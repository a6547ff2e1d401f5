import Mathlib.Algebra.GroupWithZero.Nat
import Mathlib.Data.List.GetD
import Mathlib.Data.List.Nodup
import Mathlib.Data.List.Perm.Basic
import ResourceSelection.Membership.Grouping
import ResourceSelection.Proofs.Sampling

/-!
# Where the members of a grouping stand

The groups and the index tell the same story twice: a name is listed under the priority of a group,
and it is a member of that group. `Grouping.Placed` counts: a name occurs in a group once if it is
listed under its number, and else not at all. For that every number has to be a priority.

Whatever a grouping does comes down to two moves that keep this. A name that is not listed is placed
at the end of a group, and a listed name is taken out of its group. A promotion is the second
followed by the first.

Which group a move is made in does not matter here. That the right groups are filled is another
story, told once the places are known to be sound.
-/

namespace ResourceSelection

variable {α : Type}

/-! ## Lists -/

/-- What is left of a list, and what was taken out of it. -/
theorem perm_swapRemove {xs : List α} {i : Nat} {x : α} (h : xs[i]? = some x) :
    (x :: swapRemove xs i).Perm xs := by
  obtain ⟨hlt, rfl⟩ := List.getElem?_eq_some_iff.1 h
  have hne : xs ≠ [] := List.ne_nil_of_length_pos (by omega)
  have hset : xs.set i (xs.getLast hne) ≠ [] := by simpa using hne
  have hlast : (xs.set i (xs.getLast hne)).getLast hset = xs.getLast hne := by
    rw [List.getLast_eq_getElem, List.getElem_set]
    split
    · rfl
    · simp [List.getLast_eq_getElem]
  have hswap : swapRemove xs i = (xs.set i (xs.getLast hne)).dropLast := by
    simp only [swapRemove, List.getLast?_eq_some_getLast hne, if_pos hlt]
  have happend := List.dropLast_append_getLast hset
  rw [hlast, ← hswap] at happend
  -- the last element stands in the hole, so it is the one that is missing at the end
  have hperm : (xs.getLast hne :: swapRemove xs i).Perm (xs.getLast hne :: xs.eraseIdx i) := by
    refine (List.perm_append_singleton _ _).symm.trans ?_
    rw [happend]
    exact List.set_perm_cons_eraseIdx hlt _
  exact ((hperm.cons_inv).cons _).trans (List.getElem_cons_eraseIdx_perm hlt)

theorem getD_modify {xs : List (List α)} {i : Nat} (h : i < xs.length) (f : List α → List α)
    (j : Nat) : (xs.modify i f).getD j [] = if i = j then f (xs.getD j []) else xs.getD j [] := by
  simp only [List.getD_eq_getElem?_getD, List.getElem?_modify]
  by_cases hij : i = j
  · subst hij
    simp [List.getElem?_eq_getElem h]
  · simp [hij]

/-- A key that is taken out of an association list is not found, and any other key is as before. -/
theorem find?_filter_ne {β : Type} [DecidableEq α] (entries : List (α × β)) (key other : α) :
    (entries.filter fun entry => entry.1 ≠ key).find? (fun entry => entry.1 = other) =
      if other = key then none else entries.find? fun entry => entry.1 = other := by
  rw [List.find?_filter]
  by_cases h : other = key
  · rw [if_pos h, List.find?_eq_none]
    intro entry _
    simp [h]
  · rw [if_neg h]
    congr 1
    funext entry
    by_cases he : entry.1 = other
    · simp [he, h]
    · simp [he]

namespace Rng

theorem perm_swapIfInBounds (xs : Array α) (i j : Nat) :
    (xs.swapIfInBounds i j).toList.Perm xs.toList := by
  rw [Array.swapIfInBounds_def]
  split
  · split
    · exact Array.perm_iff_toList_perm.1 (Array.swap_perm _ _)
    · exact .refl _
  · exact .refl _

theorem foldl_swap_perm (draw : Nat → Rng → Nat × Rng) (places : List Nat)
    (acc : Array α × Rng) :
    (places.foldl (fun acc i =>
      let (j, g) := draw (i + 1) acc.2
      (acc.1.swapIfInBounds i j, g)) acc).1.toList.Perm acc.1.toList := by
  induction places generalizing acc with
  | nil => exact .refl _
  | cons i rest ih => exact (ih _).trans (perm_swapIfInBounds _ _ _)

/-- Shuffling loses no element and makes up none. -/
theorem shuffle_perm (xs : List α) (g : Rng) : (g.shuffle xs).1.Perm xs :=
  foldl_swap_perm below _ (xs.toArray, g)

end Rng

namespace Grouping

/-! ## The index -/

section

variable [DecidableEq α]

theorem priorityOf_eq (g : Grouping α) (name : α) :
    g.priorityOf name = (g.index.find? fun entry => entry.1 = name).map (·.2) := rfl

theorem priorityOf_unlist (g : Grouping α) (name other : α) :
    (g.unlist name).priorityOf other = if other = name then none else g.priorityOf other := by
  rw [priorityOf_eq, unlist, find?_filter_ne]
  split <;> rfl

theorem list_eq (g : Grouping α) (name : α) (group : Nat) :
    g.list name group =
      { g with index := (g.unlist name).index ++ [(name, toPriority group)] } := rfl

theorem priorityOf_list (g : Grouping α) (name : α) (group : Nat) (other : α) :
    (g.list name group).priorityOf other =
      if other = name then some (toPriority group) else g.priorityOf other := by
  have hunlist := g.priorityOf_unlist name other
  rw [priorityOf_eq] at hunlist
  rw [list_eq, priorityOf_eq, List.find?_append]
  by_cases h : other = name
  · rw [if_pos h, Option.map_eq_none_iff] at hunlist
    rw [hunlist]
    simp [h]
  · rw [if_neg h] at hunlist ⊢
    rw [← hunlist]
    simp [Ne.symm h]

theorem mem_names_iff (g : Grouping α) (name : α) :
    name ∈ g.index.map (·.1) ↔ (g.priorityOf name).isSome = true := by
  simp [priorityOf, List.mem_map]

end

/-! ## The two moves -/

section

variable [DecidableEq α]

/-- The grouping with a name taken out of a group, where it stands at a position. -/
def vacate (g : Grouping α) (name : α) (group position : Nat) : Grouping α :=
  { g.unlist name with groups := g.groups.modify group (swapRemove · position) }

theorem priorityOf_vacate (g : Grouping α) (name : α) (group position : Nat) (other : α) :
    (g.vacate name group position).priorityOf other =
      if other = name then none else g.priorityOf other :=
  g.priorityOf_unlist name other

theorem priorityOf_place (g : Grouping α) (name : α) (group : Nat) (other : α) :
    (g.place name group).priorityOf other =
      if other = name then some (toPriority group) else g.priorityOf other :=
  g.priorityOf_list name group other

theorem members_vacate {g : Grouping α} {group : Nat} (h : group < g.groups.length) (name : α)
    (position other : Nat) : (g.vacate name group position).members other =
      if group = other then swapRemove (g.members other) position else g.members other :=
  getD_modify h _ other

theorem members_place {g : Grouping α} {group : Nat} (h : group < g.groups.length) (name : α)
    (other : Nat) : (g.place name group).members other =
      if group = other then g.members other ++ [name] else g.members other :=
  getD_modify h _ other

@[simp] theorem length_groups_vacate (g : Grouping α) (name : α) (group position : Nat) :
    (g.vacate name group position).groups.length = g.groups.length :=
  List.length_modify ..

@[simp] theorem length_groups_place (g : Grouping α) (name : α) (group : Nat) :
    (g.place name group).groups.length = g.groups.length :=
  List.length_modify ..

@[simp] theorem coreSizes_vacate (g : Grouping α) (name : α) (group position : Nat) :
    (g.vacate name group position).coreSizes = g.coreSizes := rfl

@[simp] theorem coreSizes_place (g : Grouping α) (name : α) (group : Nat) :
    (g.place name group).coreSizes = g.coreSizes := rfl

/-- A name that is placed is listed once, whether it was listed before or not. -/
theorem nodup_listed_place {g : Grouping α} (h : (g.index.map (·.1)).Nodup) (name : α)
    (group : Nat) : ((g.place name group).index.map (·.1)).Nodup := by
  show (((g.index.filter fun entry => entry.1 ≠ name) ++ [(name, toPriority group)]).map (·.1)).Nodup
  rw [List.map_append, List.nodup_append]
  refine ⟨h.sublist (List.filter_sublist.map _), List.nodup_singleton _, ?_⟩
  intro other hother last hlast
  obtain ⟨entry, hentry, rfl⟩ := List.mem_map.1 hother
  obtain rfl : last = name := by simpa using hlast
  simpa using (List.mem_filter.1 hentry).2

end

theorem getD_groupSizes (g : Grouping α) (group : Nat) :
    g.groupSizes.getD group 0 = (g.members group).length := by
  simp only [groupSizes, members, List.getD_eq_getElem?_getD, List.getElem?_map]
  cases g.groups[group]? <;> rfl

theorem lt_length_of_mem {g : Grouping α} {name : α} {group : Nat} (h : name ∈ g.members group) :
    group < g.groups.length := by
  by_contra hge
  rw [members, List.getD_eq_default _ _ (Nat.le_of_not_lt hge)] at h
  exact absurd h List.not_mem_nil

/-- Where the numbers of all groups are priorities, none is changed when it becomes one. -/
theorem toPriority_of_lt {g : Grouping α} (hnumbered : g.coreSizes.length ≤ priorityLimit)
    (hlength : g.groups.length = g.coreSizes.length + 1) {group : Nat}
    (hgroup : group < g.groups.length) : toPriority group = group := by
  rw [hlength] at hgroup
  exact Nat.min_eq_left (Nat.le_trans (Nat.le_of_lt_succ hgroup) hnumbered)

/-! ## Sound places -/

variable [DecidableEq α]

/-- The groups and the index tell the same story. -/
structure Placed (g : Grouping α) : Prop where
  /-- Every group has a priority of its own. -/
  numbered : g.coreSizes.length ≤ priorityLimit
  length_groups : g.groups.length = g.coreSizes.length + 1
  listed : (g.index.map (·.1)).Nodup
  count (name : α) (group : Nat) :
    (g.members group).count name = if g.priorityOf name = some group then 1 else 0

namespace Placed

variable {g : Grouping α}

theorem toPriority_eq (h : g.Placed) {group : Nat} (hgroup : group < g.groups.length) :
    toPriority group = group :=
  toPriority_of_lt h.numbered h.length_groups hgroup

theorem mem_members (h : g.Placed) {name : α} {group : Nat} :
    name ∈ g.members group ↔ g.priorityOf name = some group := by
  rw [← List.count_pos_iff, h.count]
  split <;> simp_all

theorem lt_length (h : g.Placed) {name : α} {group : Nat} (hname : g.priorityOf name = some group) :
    group < g.groups.length :=
  lt_length_of_mem (h.mem_members.2 hname)

theorem nodup_members (h : g.Placed) (group : Nat) : (g.members group).Nodup := by
  rw [List.nodup_iff_count_le_one]
  intro name
  rw [h.count]
  split <;> omega

/-- No name stands in two groups, or twice in one. -/
theorem nodup_flatten (h : g.Placed) : g.groups.flatten.Nodup := by
  rw [List.nodup_flatten]
  constructor
  · intro members hmembers
    obtain ⟨group, hlt, rfl⟩ := List.mem_iff_getElem.1 hmembers
    have := h.nodup_members group
    rwa [Grouping.members, List.getD_eq_getElem _ _ hlt] at this
  · rw [List.pairwise_iff_getElem]
    intro i j hi hj hij name hname hname'
    have hfirst : g.priorityOf name = some i := by
      rw [← h.mem_members, Grouping.members, List.getD_eq_getElem _ _ hi]
      exact hname
    have hsecond : g.priorityOf name = some j := by
      rw [← h.mem_members, Grouping.members, List.getD_eq_getElem _ _ hj]
      exact hname'
    rw [hfirst] at hsecond
    cases hsecond
    omega

theorem mem_flatten (h : g.Placed) {name : α} :
    name ∈ g.groups.flatten ↔ (g.priorityOf name).isSome = true := by
  rw [List.mem_flatten, Option.isSome_iff_exists]
  constructor
  · rintro ⟨members, hmembers, hname⟩
    obtain ⟨group, hlt, rfl⟩ := List.mem_iff_getElem.1 hmembers
    refine ⟨group, h.mem_members.1 ?_⟩
    rwa [Grouping.members, List.getD_eq_getElem _ _ hlt]
  · rintro ⟨group, hgroup⟩
    have hlt := h.lt_length hgroup
    have hname := h.mem_members.2 hgroup
    rw [Grouping.members, List.getD_eq_getElem _ _ hlt] at hname
    exact ⟨_, List.getElem_mem hlt, hname⟩

/-- The listed names are the members of all groups. -/
theorem names_perm (h : g.Placed) : (g.index.map (·.1)).Perm g.groups.flatten := by
  rw [List.perm_ext_iff_of_nodup h.listed h.nodup_flatten]
  intro name
  rw [g.mem_names_iff, h.mem_flatten]

theorem size_eq (h : g.Placed) : g.size = g.groupSizes.sum := by
  have hlength := h.names_perm.length_eq
  rwa [List.length_map, List.length_flatten] at hlength

theorem rng (h : g.Placed) (rng : Rng) : Placed { g with rng } :=
  ⟨h.numbered, h.length_groups, h.listed, h.count⟩

theorem place (h : g.Placed) {name : α} (hnew : g.priorityOf name = none) {group : Nat}
    (hgroup : group < g.groups.length) : (g.place name group).Placed where
  numbered := h.numbered
  length_groups := by simpa using h.length_groups
  listed := nodup_listed_place h.listed name group
  count other j := by
    rw [members_place hgroup, priorityOf_place, h.toPriority_eq hgroup]
    by_cases hother : other = name
    · -- the name stood nowhere before
      have hcount := h.count name j
      rw [hnew] at hcount
      subst hother
      by_cases hj : group = j
      · simp_all
      · simp_all
    · by_cases hj : group = j
      · simp [hj, hother, Ne.symm hother, h.count]
      · simp [hj, hother, h.count]

theorem vacate (h : g.Placed) {name : α} {group position : Nat}
    (hname : (g.members group)[position]? = some name) :
    (g.vacate name group position).Placed where
  numbered := h.numbered
  length_groups := by simpa using h.length_groups
  listed := h.listed.sublist (List.filter_sublist.map _)
  count other j := by
    have hmem := List.mem_of_getElem? hname
    have hpriority := h.mem_members.1 hmem
    rw [members_vacate (lt_length_of_mem hmem), priorityOf_vacate]
    by_cases hj : group = j
    · subst hj
      have hcount := (perm_swapRemove hname).count_eq other
      rw [h.count, List.count_cons] at hcount
      by_cases hother : other = name
      · simp_all
      · simp_all [Ne.symm hother]
    · by_cases hother : other = name
      · simp [hj, hother, h.count, hpriority]
      · simp [hj, hother, h.count]

end Placed

theorem placed_empty {coreSizes : List Nat} (h : coreSizes.length ≤ priorityLimit) (rng : Rng) :
    (empty coreSizes rng : Grouping α).Placed where
  numbered := h
  length_groups := by simp [empty]
  listed := List.nodup_nil
  count name group := by
    have hmembers : (empty coreSizes rng : Grouping α).members group = [] := by
      simp [members, empty, List.getD_eq_getElem?_getD, List.getElem?_replicate]
      split <;> rfl
    rw [hmembers]
    rfl

/-! ## Promotion -/

/-- A promotion takes a random member out of its group and places it in another. -/
theorem promote_eq {g : Grouping α} {donor : Nat} (h : g.members donor ≠ []) (group : Nat) :
    ∃ position name rng, (g.members donor)[position]? = some name ∧
      g.promote group donor = { g.vacate name donor position with rng }.place name group := by
  have hpos := List.length_pos_iff.2 h
  have hlt := Rng.below_lt hpos g.rng
  refine ⟨_, _, (g.rng.below (g.members donor).length).2, List.getElem?_eq_getElem hlt, ?_⟩
  simp only [promote, List.getElem?_eq_getElem hlt]
  simp [vacate, place, list, unlist]

end Grouping

end ResourceSelection
