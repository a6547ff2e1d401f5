import Mathlib.Data.List.Dedup
import ResourceSelection.Proofs.Grouping.Promotions

/-!
# Many names at once

An assignment of many names looks for the first core group below its target again for each of them.
Over the whole list this comes to serving the groups one after the other: what carries the induction
is that as long as the first group has room all names go there, and that once it has none it is
passed over for good. So the groups get consecutive portions of the shuffled list (`portions`), each
as much as it has room for, and the last group gets the rest. The generator decides on the order of
the list and on nothing else.

The index is another matter. Names that are assigned are sorted out before anything is placed, and
not again while names are placed, so a new name that is listed twice is placed twice: the groups
have it as often as the list has, and the index has it once, where it was placed last.
`Grouping.Enlarged` says both, and that the groups and the index part exactly there.
-/

namespace ResourceSelection

variable {α : Type}

/-! ## Portions -/

/-- Names dealt out to groups with room for so many each, and the rest of them. -/
def portions : List Nat → List α → List (List α)
  | [], names => [names]
  | room :: rooms, names => names.take room :: portions rooms (names.drop room)

@[simp] theorem length_portions (rooms : List Nat) (names : List α) :
    (portions rooms names).length = rooms.length + 1 := by
  induction rooms generalizing names with
  | nil => rfl
  | cons room rooms ih => rw [portions, List.length_cons, ih, List.length_cons]

@[simp] theorem flatten_portions (rooms : List Nat) (names : List α) :
    (portions rooms names).flatten = names := by
  induction rooms generalizing names with
  | nil => simp [portions]
  | cons room rooms ih => rw [portions, List.flatten_cons, ih, List.take_append_drop]

/-- A group takes what it has room for out of what the groups before it have left. -/
theorem length_getD_portions {rooms : List Nat} {k : Nat} (hk : k < rooms.length)
    (names : List α) : ((portions rooms names).getD k []).length =
      min (rooms.getD k 0)
        (names.length - (((portions rooms names).take k).map List.length).sum) := by
  induction rooms generalizing names k with
  | nil => exact absurd hk (Nat.not_lt_zero k)
  | cons room rooms ih =>
      cases k with
      | zero => simp [portions]
      | succ k =>
          have hrest := ih (Nat.lt_of_succ_lt_succ hk) (names.drop room)
          simp only [portions, List.getD_cons_succ, List.take_succ_cons, List.map_cons,
            List.sum_cons, List.length_take]
          rw [hrest, List.length_drop]
          omega

theorem length_getD_portions_last (rooms : List Nat) (names : List α) :
    ((portions rooms names).getD rooms.length []).length =
      names.length - (((portions rooms names).take rooms.length).map List.length).sum := by
  induction rooms generalizing names with
  | nil => simp [portions]
  | cons room rooms ih =>
      have hrest := ih (names.drop room)
      simp only [portions, List.length_cons, List.getD_cons_succ, List.take_succ_cons,
        List.map_cons, List.sum_cons, List.length_take]
      rw [hrest, List.length_drop]
      omega

/-! ## Seats -/

/-- The groups with a name in the first that is below its target, or in the one without a target. -/
def seatAmong : List Nat → List (List α) → α → List (List α)
  | _, [], _ => []
  | [], members :: rest, name => (members ++ [name]) :: rest
  | target :: targets, members :: rest, name =>
    if members.length < target then (members ++ [name]) :: rest
    else members :: seatAmong targets rest name

theorem foldl_seatAmong_last (members : List α) (names : List α) :
    names.foldl (seatAmong []) [members] = [members ++ names] := by
  induction names generalizing members with
  | nil => rw [List.append_nil, List.foldl_nil]
  | cons name rest ih =>
      rw [List.foldl_cons, seatAmong, ih, List.append_assoc, List.singleton_append]

/-- The first group is served before the others are. -/
theorem foldl_seatAmong_cons (target : Nat) (targets : List Nat) (members : List α)
    (rest : List (List α)) (names : List α) :
    names.foldl (seatAmong (target :: targets)) (members :: rest) =
      (members ++ names.take (target - members.length)) ::
        (names.drop (target - members.length)).foldl (seatAmong targets) rest := by
  induction names generalizing members rest with
  | nil => simp
  | cons name names ih =>
      rw [List.foldl_cons, seatAmong]
      split
      · next hroom =>
          obtain ⟨room, hroom⟩ : ∃ room, target - members.length = room + 1 :=
            ⟨target - members.length - 1, by omega⟩
          have hnext : target - (members ++ [name]).length = room := by
            rw [List.length_append, List.length_singleton]
            omega
          rw [ih, hnext, hroom, List.take_succ_cons, List.drop_succ_cons, List.append_assoc,
            List.singleton_append]
      · next hfull =>
          have hnone : target - members.length = 0 := by omega
          rw [ih, hnone]
          simp

/-- The room that groups have below their targets. -/
def rooms (targets : List Nat) (groups : List (List α)) : List Nat :=
  List.zipWith (fun target members => target - members.length) targets groups

theorem length_rooms {targets : List Nat} {groups : List (List α)}
    (hlength : groups.length = targets.length + 1) :
    (rooms targets groups).length = targets.length := by
  rw [rooms, List.length_zipWith, hlength]
  omega

theorem length_portions_rooms {targets : List Nat} {groups : List (List α)}
    (hlength : groups.length = targets.length + 1) (names : List α) :
    (portions (rooms targets groups) names).length = groups.length := by
  rw [length_portions, length_rooms hlength, hlength]

theorem getD_rooms {targets : List Nat} {groups : List (List α)}
    (hlength : groups.length = targets.length + 1) {k : Nat} (hk : k < targets.length) :
    (rooms targets groups).getD k 0 = targets.getD k 0 - (groups.getD k []).length := by
  have hgroup : k < groups.length := by omega
  simp only [rooms, List.getD_eq_getElem?_getD, List.getElem?_zipWith,
    List.getElem?_eq_getElem hk, List.getElem?_eq_getElem hgroup, Option.getD_some]

/-- Names that are seated one after the other come in portions. -/
theorem foldl_seatAmong {targets : List Nat} {groups : List (List α)}
    (hlength : groups.length = targets.length + 1) (names : List α) :
    names.foldl (seatAmong targets) groups =
      List.zipWith (· ++ ·) groups (portions (rooms targets groups) names) := by
  induction targets generalizing groups names with
  | nil =>
      obtain ⟨members, rfl⟩ := List.length_eq_one_iff.1 hlength
      rw [foldl_seatAmong_last]
      rfl
  | cons target targets ih =>
      cases groups with
      | nil => exact nomatch hlength
      | cons members rest =>
          rw [foldl_seatAmong_cons, ih (Nat.succ.inj hlength)]
          rfl

/-- To look for the first group below its target is to pass over those that are not. -/
theorem seatAmong_eq {targets : List Nat} {groups : List (List α)}
    (hlength : groups.length = targets.length + 1) (name : α) :
    seatAmong targets groups name =
      groups.modify (((List.range targets.length).find? fun group =>
        (groups.getD group []).length < targets.getD group 0).getD targets.length)
        (· ++ [name]) := by
  induction targets generalizing groups with
  | nil =>
      obtain ⟨members, rfl⟩ := List.length_eq_one_iff.1 hlength
      rfl
  | cons target targets ih =>
      cases groups with
      | nil => exact nomatch hlength
      | cons members rest =>
          rw [seatAmong, List.length_cons, List.range_succ_eq_map, List.find?_cons]
          simp only [List.getD_cons_zero]
          by_cases hroom : members.length < target
          · rw [if_pos hroom]
            simp [hroom]
          · rw [if_neg hroom, ih (Nat.succ.inj hlength)]
            simp only [decide_eq_false hroom, List.find?_map, Function.comp_def,
              List.getD_cons_succ]
            cases (List.range targets.length).find? _ <;> rfl

theorem mem_flatten_of_mem_getD {groups : List (List α)} {k : Nat} {name : α}
    (h : name ∈ groups.getD k []) : name ∈ groups.flatten := by
  rw [List.getD_eq_getElem?_getD] at h
  cases hk : groups[k]? with
  | none => simp [hk] at h
  | some members =>
      exact List.mem_flatten.2 ⟨members, List.mem_of_getElem? hk, by simpa [hk] using h⟩

theorem getD_zipWith_append {groups newcomers : List (List α)}
    (hlength : newcomers.length = groups.length) (k : Nat) :
    (List.zipWith (· ++ ·) groups newcomers).getD k [] =
      groups.getD k [] ++ newcomers.getD k [] := by
  simp only [List.getD_eq_getElem?_getD, List.getElem?_zipWith]
  rcases Nat.lt_or_ge k groups.length with hlt | hge
  · rw [List.getElem?_eq_getElem hlt, List.getElem?_eq_getElem (hlength ▸ hlt)]
    rfl
  · rw [List.getElem?_eq_none hge, List.getElem?_eq_none (hlength ▸ hge)]
    rfl

theorem flatten_zipWith_append_perm {groups newcomers : List (List α)}
    (hlength : newcomers.length = groups.length) :
    (List.zipWith (· ++ ·) groups newcomers).flatten.Perm
      (groups.flatten ++ newcomers.flatten) := by
  induction groups generalizing newcomers with
  | nil =>
      obtain rfl := List.length_eq_zero_iff.1 hlength
      exact .refl _
  | cons members rest ih =>
      obtain ⟨new, newcomers, rfl⟩ := List.exists_cons_of_length_eq_add_one hlength
      have hrest := ih (Nat.succ.inj hlength)
      rw [List.zipWith_cons_cons, List.flatten_cons, List.flatten_cons, List.flatten_cons,
        List.append_assoc, List.append_assoc]
      exact ((hrest.append_left new).trans (List.perm_append_comm_assoc ..)).append_left members

namespace Grouping

variable [DecidableEq α]

/-! ## Any edits -/

/-- What edits of any kind make of a grouping without members, also those that list a name twice. -/
def Arises (g : Grouping α) : Prop :=
  ∃ (coreSizes : List Nat) (rng : Rng) (es : List (Edit α)), (empty coreSizes rng).run es = g

theorem Reachable.arises {g : Grouping α} (h : g.Reachable) : g.Arises := by
  obtain ⟨coreSizes, rng, es, -, -, heq⟩ := h
  exact ⟨coreSizes, rng, es, heq⟩

@[simp] theorem length_groups_promote (g : Grouping α) (group donor : Nat) :
    (g.promote group donor).groups.length = g.groups.length := by
  simp only [promote]
  split <;> simp [list]

@[simp] theorem length_groups_refill (g : Grouping α) (group : Nat) :
    (g.refill group).groups.length = g.groups.length := by
  induction g, group using refill.induct with
  | case1 g group hshort hnone => rw [refill, if_pos hshort, hnone]
  | case2 g group hshort donor hlt hsome ih =>
      rw [refill, if_pos hshort, hsome]
      simp only
      rw [ih, length_groups_promote]
  | case3 g group hdone => rw [refill, if_neg hdone]

theorem length_groups_edit (g : Grouping α) (e : Edit α) :
    (g.edit e).groups.length = g.groups.length := by
  cases e with
  | assign names =>
      obtain ⟨rng, heq⟩ := g.assignInitial_eq names
      show (g.assignInitial names).groups.length = _
      rw [heq, length_groups_foldl_seat]
  | add name =>
      show (g.add name).2.groups.length = _
      cases hname : g.priorityOf name with
      | some group =>
          unfold add
          rw [hname]
      | none =>
          obtain ⟨group, rng, -, -, heq⟩ := add_eq hname
          rw [heq]
          exact length_groups_place _ name group
  | remove name =>
      show (g.remove name).2.groups.length = _
      unfold remove
      split
      · rfl
      · simp only [length_groups_refill]
        split <;> simp [unlist]

theorem Arises.length_groups {g : Grouping α} (h : g.Arises) :
    g.groups.length = g.coreSizes.length + 1 := by
  obtain ⟨coreSizes, rng, es, rfl⟩ := h
  suffices ∀ g : Grouping α, g.groups.length = g.coreSizes.length + 1 →
      (g.run es).groups.length = (g.run es).coreSizes.length + 1 from
    this _ (by simp [empty])
  intro g hlength
  induction es generalizing g with
  | nil => exact hlength
  | cons e rest ih => exact ih (g.edit e) (by rw [length_groups_edit, coreSizes_edit, hlength])

/-! ## Groups after an assignment -/

theorem groups_seat {g : Grouping α} (hlength : g.groups.length = g.coreSizes.length + 1)
    (name : α) : (g.seat name).groups = seatAmong g.coreSizes g.groups name := by
  rw [seatAmong_eq hlength]
  rfl

theorem groups_foldl_seat {g : Grouping α} (hlength : g.groups.length = g.coreSizes.length + 1)
    (names : List α) :
    (names.foldl seat g).groups = names.foldl (seatAmong g.coreSizes) g.groups := by
  induction names generalizing g with
  | nil => rfl
  | cons name rest ih =>
      have hseat : (g.seat name).groups.length = (g.seat name).coreSizes.length + 1 := by
        rw [length_groups_seat, coreSizes_seat, hlength]
      rw [List.foldl_cons, ih hseat, groups_seat hlength, List.foldl_cons]
      rfl

def unassigned (g : Grouping α) (names : List α) : List α :=
  names.filter fun name => (g.priorityOf name).isNone

theorem groups_assignInitial {g : Grouping α}
    (hlength : g.groups.length = g.coreSizes.length + 1) (names : List α) :
    (g.assignInitial names).groups =
      List.zipWith (· ++ ·) g.groups
        (portions (rooms g.coreSizes g.groups) (g.fresh names)) := by
  obtain ⟨rng, heq⟩ := g.assignInitial_eq names
  have hseated : ((g.fresh names).foldl seat { g with rng }).groups = _ :=
    groups_foldl_seat (g := { g with rng }) hlength (g.fresh names)
  rw [heq, hseated, foldl_seatAmong hlength]

/-- Whatever the generator, an assignment puts the new names behind the members of the groups, and
serves the groups in order: a core group takes what it has room for out of what the groups before it
have left, and the last group takes the rest. A new name that is listed twice counts twice. -/
theorem groups_are_served_in_order {g : Grouping α} (h : g.Arises) (names : List α) (rng : Rng) :
    g.groups.length = g.coreSizes.length + 1 ∧ ∃ newcomers : List (List α),
      newcomers.length = g.groups.length ∧
      ({ g with rng }.assignInitial names).groups = List.zipWith (· ++ ·) g.groups newcomers ∧
      newcomers.flatten.Perm (g.unassigned names) ∧
      (∀ k < g.coreSizes.length, (newcomers.getD k []).length =
        min (g.coreSizes.getD k 0 - (g.members k).length)
          ((g.unassigned names).length - ((newcomers.take k).map List.length).sum)) ∧
      (newcomers.getD g.lastGroup []).length =
        (g.unassigned names).length - ((newcomers.take g.lastGroup).map List.length).sum := by
  have hlength := h.length_groups
  have hrooms := length_rooms hlength
  have hperm : (Grouping.fresh { g with rng } names).Perm (g.unassigned names) :=
    fresh_perm { g with rng } names
  refine ⟨hlength, portions (rooms g.coreSizes g.groups) (Grouping.fresh { g with rng } names),
    length_portions_rooms hlength _, groups_assignInitial (g := { g with rng }) hlength names, ?_,
    fun k hk => ?_, ?_⟩
  · rwa [flatten_portions]
  · rw [length_getD_portions (by rwa [hrooms]), getD_rooms hlength hk, hperm.length_eq,
      Grouping.members]
  · have hlast := length_getD_portions_last (rooms g.coreSizes g.groups)
      (Grouping.fresh { g with rng } names)
    rwa [hrooms, hperm.length_eq] at hlast

/-- One member, and three names to come. -/
theorem groups_are_served_in_order_three :
    ((empty [2, 1] ⟨0⟩).run [.assign ["a"]]).Arises ∧
      ∃ newcomers : List (List String), newcomers.map List.length = [1, 1, 1] ∧
        newcomers.flatten.Perm ["b", "c", "d"] ∧
        ({ (empty [2, 1] ⟨0⟩).run [.assign ["a"]] with rng := ⟨7⟩ }.assignInitial
          ["b", "a", "c", "d"]).groups = List.zipWith (· ++ ·) [["a"], [], []] newcomers := by
  have harises : ((empty [2, 1] ⟨0⟩).run [.assign ["a"]]).Arises :=
    ⟨[2, 1], ⟨0⟩, [.assign ["a"]], rfl⟩
  obtain ⟨-, newcomers, hlength, hgroups, hperm, hcore, hlast⟩ :=
    groups_are_served_in_order harises ["b", "a", "c", "d"] ⟨7⟩
  refine ⟨harises, newcomers, ?_, hperm, hgroups⟩
  obtain ⟨first, second, third, rfl⟩ := List.length_eq_three.1 hlength
  have hfirst : first.length = 1 := hcore 0 (by decide)
  have hsecond : second.length = min 1 (3 - (first.length + 0)) := hcore 1 (by decide)
  have hthird : third.length = 3 - (first.length + (second.length + 0)) := hlast
  simp only [List.map_cons, List.map_nil, hthird, hsecond, hfirst]
  rfl

/-! ## Groups and index -/

/-- The name is listed under a group in which it stands. -/
def Seated (g : Grouping α) (name : α) : Prop :=
  ∃ group, g.priorityOf name = some group ∧ name ∈ g.members group

theorem seated_seat {g : Grouping α} (hnumbered : g.coreSizes.length ≤ priorityLimit)
    (hlength : g.groups.length = g.coreSizes.length + 1) {name other : α}
    (h : g.Seated name ∨ name = other) : (g.seat other).Seated name := by
  have hgroup := lt_length_of_firstUnderfilled hlength
  unfold seat
  by_cases hname : name = other
  · subst hname
    refine ⟨_, by rw [priorityOf_place, if_pos rfl], ?_⟩
    rw [toPriority_of_lt hnumbered hlength hgroup, members_place hgroup, if_pos rfl]
    exact List.mem_append_right _ (List.mem_singleton_self name)
  · obtain ⟨group, hpriority, hmem⟩ := h.resolve_right hname
    refine ⟨group, by rw [priorityOf_place, if_neg hname, hpriority], ?_⟩
    rw [members_place hgroup]
    split
    · exact List.mem_append_left _ hmem
    · exact hmem

theorem seated_foldl_seat {g : Grouping α} (hnumbered : g.coreSizes.length ≤ priorityLimit)
    (hlength : g.groups.length = g.coreSizes.length + 1) {names : List α} {name : α}
    (h : g.Seated name ∨ name ∈ names) : (names.foldl seat g).Seated name := by
  induction names generalizing g with
  | nil => exact h.resolve_right List.not_mem_nil
  | cons other rest ih =>
      have hseat : (g.seat other).groups.length = (g.seat other).coreSizes.length + 1 := by
        rw [length_groups_seat, coreSizes_seat, hlength]
      refine ih ((coreSizes_seat g other).symm ▸ hnumbered) hseat ?_
      rcases h with h | h
      · exact .inl (seated_seat hnumbered hlength (.inl h))
      · rcases List.mem_cons.1 h with h | h
        · exact .inl (seated_seat hnumbered hlength (.inr h))
        · exact .inr h

theorem nodup_listed_foldl_seat {g : Grouping α} (h : (g.index.map (·.1)).Nodup)
    (names : List α) : ((names.foldl seat g).index.map (·.1)).Nodup := by
  induction names generalizing g with
  | nil => exact h
  | cons name rest ih => exact ih (nodup_listed_place h name _)

/-- The name is assigned to the group and stands there, once, and nowhere else. -/
def OnlyIn (g : Grouping α) (name : α) (group : Nat) : Prop :=
  g.priorityOf name = some group ∧ ∀ k, (g.members k).count name = if k = group then 1 else 0

/-- What becomes of sound places when new names are assigned at once. -/
structure Enlarged (g t : Grouping α) (new : List α) : Prop where
  kept {name : α} {group : Nat} : g.priorityOf name = some group → t.OnlyIn name group
  seated : ∀ name ∈ new, t.Seated name
  counted : ∀ name ∈ new, t.groups.flatten.count name = new.count name
  others {name : α} :
    g.priorityOf name = none → name ∉ new → t.priorityOf name = none ∧ name ∉ t.groups.flatten
  size : t.size = g.size + new.dedup.length
  sizes : t.groupSizes.sum = g.groupSizes.sum + new.length
  /-- Every new name stands in one place exactly if none is listed twice, -/
  once : (∀ name ∈ new, ∃ group, t.OnlyIn name group) ↔ new.Nodup
  /-- and so do the groups and the index have the same number of names. -/
  tallied : t.size = t.groupSizes.sum ↔ new.Nodup

theorem Placed.seat {g : Grouping α} (h : g.Placed) {name : α} (hnew : g.priorityOf name = none) :
    (g.seat name).Placed :=
  h.place hnew (lt_length_of_firstUnderfilled h.length_groups)

theorem Placed.foldl_seat {g : Grouping α} (h : g.Placed) {names : List α}
    (hnodup : names.Nodup) (hnew : ∀ name ∈ names, g.priorityOf name = none) :
    (names.foldl Grouping.seat g).Placed :=
  foldl_seat_induct Placed.seat h hnodup hnew

theorem Placed.onlyIn {g : Grouping α} (h : g.Placed) {name : α} {group : Nat}
    (hname : g.priorityOf name = some group) : g.OnlyIn name group := by
  refine ⟨hname, fun k => ?_⟩
  rw [h.count, hname]
  simp only [Option.some.injEq, eq_comm]

theorem placed_of_onlyIn {g : Grouping α} (hnumbered : g.coreSizes.length ≤ priorityLimit)
    (hlength : g.groups.length = g.coreSizes.length + 1) (hlisted : (g.index.map (·.1)).Nodup)
    (h : ∀ name, (∃ group, g.OnlyIn name group) ∨
      g.priorityOf name = none ∧ ∀ k, (g.members k).count name = 0) : g.Placed := by
  refine ⟨hnumbered, hlength, hlisted, fun name k => ?_⟩
  rcases h name with ⟨group, hgroup, hcount⟩ | ⟨hnone, hcount⟩
  · rw [hcount, hgroup]
    simp only [Option.some.injEq, eq_comm]
  · rw [hcount, hnone]
    simp

/-- The groups have the new names as often as the list has. -/
theorem flatten_foldl_seat_perm {g : Grouping α}
    (hlength : g.groups.length = g.coreSizes.length + 1) (names : List α) :
    (names.foldl seat g).groups.flatten.Perm (g.groups.flatten ++ names) := by
  have hportions := length_portions_rooms hlength names
  have hperm := flatten_zipWith_append_perm hportions
  rwa [flatten_portions, ← foldl_seatAmong hlength, ← groups_foldl_seat hlength] at hperm

theorem count_members_foldl_seat {g : Grouping α}
    (hlength : g.groups.length = g.coreSizes.length + 1) {names : List α} {name : α}
    (hname : name ∉ names) (k : Nat) :
    ((names.foldl seat g).members k).count name = (g.members k).count name := by
  have hportions := length_portions_rooms hlength names
  have hnone : name ∉ (portions (rooms g.coreSizes g.groups) names).getD k [] := by
    intro hmem
    have hin := mem_flatten_of_mem_getD hmem
    rw [flatten_portions] at hin
    exact hname hin
  rw [members, groups_foldl_seat hlength, foldl_seatAmong hlength, getD_zipWith_append hportions,
    List.count_append, List.count_eq_zero.2 hnone, Nat.add_zero, members]

/-- The index has them once each. -/
theorem size_foldl_seat {g : Grouping α} (h : (g.index.map (·.1)).Nodup) {names : List α}
    (hnew : ∀ name ∈ names, g.priorityOf name = none) :
    (names.foldl seat g).size = g.size + names.dedup.length := by
  have hdisjoint : (g.index.map (·.1) ++ names.dedup).Nodup := by
    refine h.append names.nodup_dedup fun name hname hmem => ?_
    rw [mem_names_iff, hnew name (List.mem_dedup.1 hmem)] at hname
    exact nomatch hname
  have hperm : ((names.foldl seat g).index.map (·.1)).Perm (g.index.map (·.1) ++ names.dedup) := by
    rw [List.perm_ext_iff_of_nodup (nodup_listed_foldl_seat h names) hdisjoint]
    intro name
    rw [mem_names_iff, isSome_priorityOf_foldl_seat, List.mem_append, mem_names_iff, List.mem_dedup]
  simpa [size] using hperm.length_eq

theorem length_dedup_eq_iff {names : List α} : names.dedup.length = names.length ↔ names.Nodup := by
  rw [← List.dedup_eq_self]
  exact ⟨fun h => names.dedup_sublist.eq_of_length h, fun h => by rw [h]⟩

theorem Placed.enlarged_foldl_seat {g : Grouping α} (h : g.Placed) {names new : List α}
    (hperm : names.Perm new) (hnew : ∀ name ∈ names, g.priorityOf name = none) :
    g.Enlarged (names.foldl Grouping.seat g) new := by
  have hlength := h.length_groups
  have hflatten := flatten_foldl_seat_perm hlength names
  have hplaced : names.Nodup → (names.foldl Grouping.seat g).Placed :=
    fun hnodup => h.foldl_seat hnodup hnew
  have hkept {name : α} {group : Nat} (hname : g.priorityOf name = some group) :
      (names.foldl Grouping.seat g).OnlyIn name group := by
    have hnot : name ∉ names := fun hmem => by simp [hnew name hmem] at hname
    refine ⟨by rw [priorityOf_foldl_seat hnot, hname], fun k => ?_⟩
    rw [count_members_foldl_seat hlength hnot, (h.onlyIn hname).2]
  have hsize : (names.foldl Grouping.seat g).size = g.size + new.dedup.length := by
    rw [size_foldl_seat h.listed hnew, hperm.dedup.length_eq]
  have hsizes : (names.foldl Grouping.seat g).groupSizes.sum = g.groupSizes.sum + new.length := by
    have := hflatten.length_eq
    rwa [List.length_append, List.length_flatten, List.length_flatten, hperm.length_eq] at this
  constructor
  case kept => exact hkept
  case seated =>
    exact fun name hname =>
      seated_foldl_seat h.numbered hlength (.inr (hperm.mem_iff.2 hname))
  case counted =>
    intro name hname
    have hnone : name ∉ g.groups.flatten := by
      rw [h.mem_flatten, hnew name (hperm.mem_iff.2 hname)]
      simp
    rw [hflatten.count_eq, List.count_append, List.count_eq_zero.2 hnone, Nat.zero_add,
      hperm.count_eq]
  case others =>
    intro name hname hnot
    have hnot : name ∉ names := fun hmem => hnot (hperm.mem_iff.1 hmem)
    refine ⟨by rw [priorityOf_foldl_seat hnot, hname], ?_⟩
    rw [hflatten.mem_iff, List.mem_append, h.mem_flatten, hname]
    simpa using hnot
  case size => exact hsize
  case sizes => exact hsizes
  case once =>
    rw [← hperm.nodup_iff]
    constructor
    · intro honce
      have hsound : (names.foldl Grouping.seat g).Placed := by
        refine placed_of_onlyIn ?_ ?_ (nodup_listed_foldl_seat h.listed names) fun name => ?_
        · rw [coreSizes_foldl_seat]
          exact h.numbered
        · rw [length_groups_foldl_seat, coreSizes_foldl_seat, hlength]
        · by_cases hname : name ∈ names
          · exact .inl (honce name (hperm.mem_iff.1 hname))
          · cases hold : g.priorityOf name with
            | some group => exact .inl ⟨group, hkept hold⟩
            | none =>
                refine .inr ⟨by rw [priorityOf_foldl_seat hname, hold], fun k => ?_⟩
                rw [count_members_foldl_seat hlength hname, h.count, hold]
                simp
      have hall := hflatten.nodup_iff.1 hsound.nodup_flatten
      exact (List.nodup_append.1 hall).2.1
    · intro hnodup name hname
      obtain ⟨group, hgroup, -⟩ :=
        seated_foldl_seat h.numbered hlength (.inr (hperm.mem_iff.2 hname))
      exact ⟨group, (hplaced hnodup).onlyIn hgroup⟩
  case tallied =>
    rw [hsize, hsizes, h.size_eq, Nat.add_left_cancel_iff, length_dedup_eq_iff]

/-- What an assignment of many names comes to, names that are listed twice or assigned already
included. -/
theorem assigned_as_often_as_listed {g : Grouping α} (h : g.Placed) (names : List α) (rng : Rng) :
    g.Enlarged ({ g with rng }.assignInitial names) (g.unassigned names) := by
  obtain ⟨next, heq⟩ := Grouping.assignInitial_eq { g with rng } names
  have hperm : (Grouping.fresh { g with rng } names).Perm (g.unassigned names) :=
    fresh_perm { g with rng } names
  have hnew : ∀ name ∈ Grouping.fresh { g with rng } names, g.priorityOf name = none :=
    fun _ => priorityOf_of_mem_fresh (g := { g with rng })
  have henlarged := (h.rng next).enlarged_foldl_seat hperm hnew
  rw [heq]
  exact ⟨henlarged.kept, henlarged.seated, henlarged.counted, henlarged.others, henlarged.size,
    henlarged.sizes, henlarged.once, henlarged.tallied⟩

/-- Of one assigned name and two new ones, one of them listed twice. -/
theorem assigned_as_often_as_listed_four :
    ((empty [1] ⟨0⟩).run [.assign ["x"]]).Placed ∧
      ((empty [1] ⟨0⟩).run [.assign ["x"]]).Enlarged
        ({ (empty [1] ⟨0⟩).run [.assign ["x"]] with rng := ⟨7⟩ }.assignInitial ["x", "a", "b", "a"])
        ["a", "b", "a"] := by
  have hplaced : ((empty [1] ⟨0⟩).run [.assign ["x"]]).Placed :=
    ((tidy_empty (by decide) ⟨0⟩).run (by simp [Edit.Distinct])).toPlaced
  exact ⟨hplaced, assigned_as_often_as_listed hplaced ["x", "a", "b", "a"] ⟨7⟩⟩

/-- One name, listed twice, stands in two groups and is listed under one of them. -/
theorem doubled_by_assignment :
    (empty [1] ⟨0⟩ : Grouping String).Placed ∧
      ((empty [1] ⟨0⟩).assignInitial ["a", "a"]).groups = [["a"], ["a"]] ∧
      ((empty [1] ⟨0⟩).assignInitial ["a", "a"]).priorityOf "a" = some 1 ∧
      ((empty [1] ⟨0⟩).assignInitial ["a", "a"]).size = 1 ∧
      ((empty [1] ⟨0⟩).assignInitial ["a", "a"]).groupSizes.sum = 2 ∧
      ¬ ∃ group, ((empty [1] ⟨0⟩).assignInitial ["a", "a"]).OnlyIn "a" group := by
  refine ⟨placed_empty (by decide) ⟨0⟩, rfl, rfl, rfl, rfl, ?_⟩
  rintro ⟨group, -, hcount⟩
  have hfirst : 1 = if 0 = group then 1 else 0 := hcount 0
  have hsecond : 1 = if 1 = group then 1 else 0 := hcount 1
  split at hfirst
  · next hgroup =>
      subst hgroup
      exact absurd hsecond (by decide)
  · exact absurd hfirst (by decide)

end Grouping

end ResourceSelection
