import ResourceSelection.Proofs.Grouping.Filling

/-!
# Removals in any order

When several names leave one after the other, who is promoted on the way depends on the draws and
on the order, and so does the group in which a later name is found. The sizes in the end do not.

Count in each group only those who are going to stay. A name that leaves does not change these
counts, and a promotion changes them when it moves one of those who stay: one more in the gap, one
less in the next group that has any. `levelled` goes over the groups from the front and gives each
what it holds when all gaps are closed: a group with enough members keeps them, less those that
the groups before it have taken, and any other group is filled up to its target from behind. Moving
one member into a gap early does not change the outcome, and when the last name has left there is
nothing more to close. So the sizes are the levelled counts, and nothing in those depends on an
order or on a draw.
-/

namespace ResourceSelection

variable {α : Type}

/-! ## Closing all gaps -/

/-- The sizes of the groups when all gaps are closed, from the targets of the core groups, the
number of members of each group, and how many of these go to earlier groups. -/
def levelled : List Nat → List Nat → Nat → List Nat
  | _, [], _ => []
  | [], held :: rest, taken => (held - taken) :: rest
  | target :: targets, held :: rest, taken =>
    let size := max (held - taken) (min target ((held :: rest).sum - taken))
    size :: levelled targets rest (size + taken - held)

theorem sum_modify_add_one {sizes : List Nat} {i : Nat} (h : i < sizes.length) :
    (sizes.modify i (· + 1)).sum = sizes.sum + 1 := by
  induction sizes generalizing i with
  | nil => exact absurd h (Nat.not_lt_zero i)
  | cons size rest ih =>
      cases i with
      | zero =>
          rw [List.modify_zero_cons, List.sum_cons, List.sum_cons]
          omega
      | succ i =>
          rw [List.modify_succ_cons, List.sum_cons, List.sum_cons, ih (Nat.lt_of_succ_lt_succ h)]
          omega

theorem sum_modify_sub_one {sizes : List Nat} {i : Nat} (h : 0 < sizes.getD i 0) :
    (sizes.modify i (· - 1)).sum = sizes.sum - 1 ∧ 0 < sizes.sum := by
  induction sizes generalizing i with
  | nil => exact absurd h (Nat.lt_irrefl 0)
  | cons size rest ih =>
      cases i with
      | zero =>
          rw [List.getD_cons_zero] at h
          rw [List.modify_zero_cons, List.sum_cons, List.sum_cons]
          omega
      | succ i =>
          obtain ⟨hsum, hpos⟩ := ih (by simpa using h)
          rw [List.modify_succ_cons, List.sum_cons, List.sum_cons, hsum]
          omega

/-- It is all the same whether a member has gone to an earlier group or is still going to. -/
theorem levelled_modify_sub_one {targets held : List Nat} {donor taken : Nat}
    (hdonor : donor ≤ targets.length) (hpos : 0 < held.getD donor 0)
    (hempty : ∀ i < donor, held.getD i 0 = 0) :
    levelled targets (held.modify donor (· - 1)) taken = levelled targets held (taken + 1) := by
  induction donor generalizing targets held taken with
  | zero =>
      cases held with
      | nil => exact absurd hpos (Nat.lt_irrefl 0)
      | cons first rest =>
          rw [List.getD_cons_zero] at hpos
          cases targets with
          | nil =>
              simp only [List.modify_zero_cons, levelled, List.cons.injEq, and_true]
              omega
          | cons target targets =>
              simp only [List.modify_zero_cons, levelled, List.sum_cons]
              have hsize : first - 1 - taken = first - (taken + 1) := by omega
              have hsum : first - 1 + rest.sum - taken = first + rest.sum - (taken + 1) := by omega
              rw [hsize, hsum]
              generalize max (first - (taken + 1)) _ = size
              have hnext : size + taken - (first - 1) = size + (taken + 1) - first := by omega
              rw [hnext]
  | succ donor ih =>
      cases held with
      | nil => exact absurd hpos (Nat.lt_irrefl 0)
      | cons first rest =>
          obtain rfl : first = 0 := hempty 0 (Nat.succ_pos donor)
          cases targets with
          | nil => exact absurd hdonor (Nat.not_succ_le_zero donor)
          | cons target targets =>
              have hpos : 0 < rest.getD donor 0 := by simpa using hpos
              have hempty : ∀ i < donor, rest.getD i 0 = 0 := fun i hi => by
                simpa using hempty (i + 1) (Nat.succ_lt_succ hi)
              have hsum : rest.sum - 1 - taken = rest.sum - (taken + 1) := by omega
              simp only [List.modify_succ_cons, levelled, List.sum_cons, Nat.zero_add,
                Nat.zero_sub, Nat.zero_max, Nat.sub_zero, (sum_modify_sub_one hpos).1, hsum]
              rw [ih (Nat.le_of_succ_le_succ hdonor) hpos hempty, Nat.add_assoc]

/-- A member that moves into a gap at the front is one that the gap takes no more. -/
theorem levelled_fill {target first : Nat} {targets rest : List Nat} {donor : Nat}
    (hgap : first < target) (hdonor : donor ≤ targets.length) (hpos : 0 < rest.getD donor 0)
    (hempty : ∀ i < donor, rest.getD i 0 = 0) (taken : Nat) :
    levelled (target :: targets) ((first + 1) :: rest.modify donor (· - 1)) taken =
      levelled (target :: targets) (first :: rest) taken := by
  obtain ⟨hsum, htotal⟩ := sum_modify_sub_one hpos
  have hsame : first + 1 + (rest.sum - 1) = first + rest.sum := by omega
  have hsize : max (first + 1 - taken) (min target (first + rest.sum - taken)) =
      max (first - taken) (min target (first + rest.sum - taken)) := by omega
  have hreach : first + 1 ≤
      max (first - taken) (min target (first + rest.sum - taken)) + taken := by omega
  simp only [levelled, List.sum_cons, hsum, hsame, hsize]
  generalize max (first - taken) _ = size at hreach ⊢
  have hnext : size + taken - (first + 1) + 1 = size + taken - first := by omega
  rw [levelled_modify_sub_one hdonor hpos hempty, hnext]

/-- Moving a member into a gap, from the next group that has any, leaves the levelled sizes as they
are. -/
theorem levelled_move {targets held : List Nat} {gap donor : Nat} (hlt : gap < donor)
    (hdonor : donor ≤ targets.length) (hgap : held.getD gap 0 < targets.getD gap 0)
    (hpos : 0 < held.getD donor 0)
    (hempty : ∀ between, gap < between → between < donor → held.getD between 0 = 0) (taken : Nat) :
    levelled targets ((held.modify donor (· - 1)).modify gap (· + 1)) taken =
      levelled targets held taken := by
  induction held generalizing targets gap donor taken with
  | nil => exact absurd hpos (Nat.lt_irrefl 0)
  | cons first rest ih =>
      cases targets with
      | nil => exact absurd hgap (Nat.not_lt_zero _)
      | cons target targets =>
          obtain ⟨donor, rfl⟩ := Nat.exists_eq_add_one_of_ne_zero (Nat.ne_zero_of_lt hlt)
          rw [List.getD_cons_succ] at hpos
          have hdonor := Nat.le_of_succ_le_succ hdonor
          cases gap with
          | zero =>
              refine levelled_fill hgap hdonor hpos (fun i hi => ?_) taken
              exact hempty (i + 1) (Nat.succ_pos i) (Nat.succ_lt_succ hi)
          | succ gap =>
              have hgap : rest.getD gap 0 < targets.getD gap 0 := hgap
              have hlt := Nat.lt_of_succ_lt_succ hlt
              have hempty : ∀ between, gap < between → between < donor →
                  rest.getD between 0 = 0 := fun between hgap hdonor =>
                hempty (between + 1) (Nat.succ_lt_succ hgap) (Nat.succ_lt_succ hdonor)
              obtain ⟨hsum, htotal⟩ := sum_modify_sub_one hpos
              have hlength : gap < (rest.modify donor (· - 1)).length := by
                rw [List.length_modify]
                by_contra hge
                rw [List.getD_eq_default _ _ (by omega)] at hpos
                omega
              have hsame : ((rest.modify donor (· - 1)).modify gap (· + 1)).sum = rest.sum := by
                rw [sum_modify_add_one hlength, hsum]
                omega
              simp only [List.modify_succ_cons, levelled, List.sum_cons, hsame]
              rw [ih hlt hdonor hgap hpos hempty]

/-- Where every group behind a gap is empty, there is nothing to move. -/
theorem levelled_eq_self {targets held : List Nat} (hlength : held.length = targets.length + 1)
    (hfilled : ∀ group later : Nat, held.getD group 0 < targets.getD group 0 → group < later →
      held.getD later 0 = 0) : levelled targets held 0 = held := by
  induction held generalizing targets with
  | nil => exact absurd hlength.symm (Nat.succ_ne_zero _)
  | cons first rest ih =>
      cases targets with
      | nil => rfl
      | cons target targets =>
          have hsize : max first (min target (first + rest.sum)) = first := by
            by_cases hgap : first < target
            · have hrest : rest.sum = 0 := by
                rw [List.sum_eq_zero_iff_forall_eq_nat]
                intro size hsize
                obtain ⟨i, hi, rfl⟩ := List.mem_iff_getElem.1 hsize
                have := hfilled 0 (i + 1) hgap (Nat.succ_pos i)
                rwa [List.getD_cons_succ, List.getD_eq_getElem _ _ hi] at this
              omega
            · omega
          simp only [levelled, List.sum_cons, Nat.sub_zero, Nat.add_zero, hsize, Nat.sub_self]
          rw [ih (Nat.succ.inj hlength)]
          intro group later hgap hlater
          exact hfilled (group + 1) (later + 1) hgap (Nat.succ_lt_succ hlater)

theorem map_modify {β : Type} {xs : List α} {i : Nat} {f : α → α} {h : β → β} {c : α → β}
    (hat : ∀ x, xs[i]? = some x → c (f x) = h (c x)) :
    (xs.modify i f).map c = (xs.map c).modify i h := by
  apply List.ext_getElem?
  intro j
  simp only [List.getElem?_map, List.getElem?_modify, Option.map_eq_map, Option.map_map]
  cases hx : xs[j]? with
  | none => rfl
  | some x =>
      by_cases hij : i = j
      · subst hij
        simp [hat x hx]
      · simp [hij]

namespace Grouping

/-! ## Those who stay -/

theorem members_of_getElem? {g : Grouping α} {group : Nat} {members : List α}
    (h : g.groups[group]? = some members) : g.members group = members := by
  rw [Grouping.members, List.getD_eq_getElem?_getD, h, Option.getD_some]

variable [DecidableEq α]

/-- The number of members of each group that are not among some names. -/
def stays (g : Grouping α) (names : List α) : List Nat :=
  g.groups.map (List.countP (· ∉ names))

theorem getD_stays (g : Grouping α) (names : List α) (group : Nat) :
    (g.stays names).getD group 0 = (g.members group).countP (· ∉ names) := by
  simp only [stays, members, List.getD_eq_getElem?_getD, List.getElem?_map]
  cases g.groups[group]? <;> rfl

theorem stays_congr {g : Grouping α} {names names' : List α}
    (h : ∀ name, name ∈ names ↔ name ∈ names') : g.stays names = g.stays names' := by
  simp only [stays, h]

theorem stays_vacate_of_mem {g : Grouping α} {name : α} {group position : Nat} {names : List α}
    (h : (g.members group)[position]? = some name) (hname : name ∈ names) :
    (g.vacate name group position).stays names = g.stays names := by
  unfold stays vacate
  rw [map_modify (h := id), List.modify_id]
  intro members hmembers
  rw [members_of_getElem? hmembers] at h
  have hcount := (perm_swapRemove h).countP_eq (· ∉ names)
  rwa [List.countP_cons_of_neg (by simpa using hname)] at hcount

theorem stays_vacate_of_not_mem {g : Grouping α} {name : α} {group position : Nat} {names : List α}
    (h : (g.members group)[position]? = some name) (hname : name ∉ names) :
    (g.vacate name group position).stays names = (g.stays names).modify group (· - 1) := by
  unfold stays vacate
  rw [map_modify]
  intro members hmembers
  rw [members_of_getElem? hmembers] at h
  have hcount := (perm_swapRemove h).countP_eq (· ∉ names)
  rw [List.countP_cons_of_pos (by simpa using hname)] at hcount
  omega

theorem stays_place_of_mem (g : Grouping α) {name : α} (group : Nat) {names : List α}
    (hname : name ∈ names) : (g.place name group).stays names = g.stays names := by
  unfold stays place
  rw [map_modify (h := id), List.modify_id]
  · rfl
  · intro members _
    simp [hname]

theorem stays_place_of_not_mem (g : Grouping α) {name : α} (group : Nat) {names : List α}
    (hname : name ∉ names) :
    (g.place name group).stays names = (g.stays names).modify group (· + 1) := by
  unfold stays place
  rw [map_modify]
  · rfl
  · intro members _
    simp [hname]

/-- With nobody left to go, all members stay. -/
theorem stays_eq_groupSizes {g : Grouping α} {names : List α}
    (h : ∀ group, ∀ name ∈ g.members group, name ∉ names) : g.stays names = g.groupSizes := by
  apply List.map_congr_left
  intro members hmembers
  obtain ⟨group, hlt, rfl⟩ := List.mem_iff_getElem.1 hmembers
  rw [List.countP_eq_length]
  intro name hname
  refine decide_eq_true (h group name ?_)
  rwa [Grouping.members, List.getD_eq_getElem _ _ hlt]

/-! ## What every removal keeps -/

/-- The sizes of the groups when some names have left and all gaps are closed. -/
def sizesWithout (g : Grouping α) (names : List α) : List Nat :=
  levelled g.coreSizes (g.stays names) 0

theorem sizesWithout_promote {g : Grouping α} {group donor : Nat} (hdonor : donor ≤ g.coreSizes.length)
    {hlt : group < donor} (hnext : g.nextDonor? group = some ⟨donor, hlt⟩)
    (hunder : g.Underfilled group) (names : List α) :
    (g.promote group donor).sizesWithout names = g.sizesWithout names := by
  obtain ⟨hmembers, hbetween⟩ := nextDonor?_eq_some hnext
  obtain ⟨position, name, rng, hname, heq⟩ := promote_eq hmembers group
  unfold sizesWithout
  rw [coreSizes_promote, heq]
  by_cases hmem : name ∈ names
  · rw [stays_place_of_mem _ _ hmem]
    show levelled _ ((g.vacate name donor position).stays names) 0 = _
    rw [stays_vacate_of_mem hname hmem]
  · rw [stays_place_of_not_mem _ _ hmem]
    show levelled _ (((g.vacate name donor position).stays names).modify group (· + 1)) 0 = _
    rw [stays_vacate_of_not_mem hname hmem]
    refine levelled_move hlt hdonor ?_ ?_ (fun between hgroup hbefore => ?_) 0
    · rw [getD_stays]
      exact Nat.lt_of_le_of_lt List.countP_le_length hunder
    · rw [getD_stays, List.countP_pos_iff]
      exact ⟨name, List.mem_of_getElem? hname, decide_eq_true hmem⟩
    · rw [getD_stays, hbetween between hgroup hbefore, List.countP_nil]

theorem sizesWithout_refill {g : Grouping α} (h : g.Placed) (group : Nat) (names : List α) :
    (g.refill group).sizesWithout names = g.sizesWithout names := by
  induction g, group using refill.induct with
  | case1 g group hshort hnone => rw [refill, if_pos hshort, hnone]
  | case2 g group hshort donor hlt hsome ih =>
      rw [refill, if_pos hshort, hsome]
      obtain ⟨hmembers, -⟩ := nextDonor?_eq_some hsome
      have hlength := h.length_groups
      have hdonor : donor < g.groups.length := by
        by_contra hge
        exact hmembers (members_eq_nil_of_ge (Nat.le_of_not_lt hge))
      refine (ih (h.promote (by omega) hmembers)).trans ?_
      exact sizesWithout_promote (by omega) hsome hshort.2 names
  | case3 g group hdone => rw [refill, if_neg hdone]

theorem sizesWithout_remove {g : Grouping α} (h : g.Placed) {name : α} {names : List α}
    (hname : name ∈ names) : (g.remove name).2.sizesWithout names = g.sizesWithout names := by
  cases hassigned : g.priorityOf name with
  | none =>
      unfold remove
      rw [hassigned]
  | some group =>
      obtain ⟨position, hposition, hfound⟩ := h.findIdx?_members hassigned
      rw [remove_eq hassigned hfound]
      refine (sizesWithout_refill (h.vacate hposition) group names).trans ?_
      unfold sizesWithout
      rw [stays_vacate_of_mem hposition hname]
      rfl

/-! ## One after the other -/

/-- The grouping with names removed one after the other. -/
def removeEach (g : Grouping α) (names : List α) : Grouping α :=
  names.foldl (fun g name => (g.remove name).2) g

@[simp] theorem coreSizes_removeEach (g : Grouping α) (names : List α) :
    (g.removeEach names).coreSizes = g.coreSizes := by
  induction names generalizing g with
  | nil => rfl
  | cons name rest ih => exact (ih _).trans (coreSizes_remove g name)

theorem Tidy.removeEach {g : Grouping α} (h : g.Tidy) (names : List α) :
    (g.removeEach names).Tidy := by
  induction names generalizing g with
  | nil => exact h
  | cons name rest ih => exact ih (h.remove name)

theorem Tidy.isSome_priorityOf_removeEach {g : Grouping α} (h : g.Tidy) (names : List α)
    (other : α) : ((g.removeEach names).priorityOf other).isSome = true ↔
      (g.priorityOf other).isSome = true ∧ other ∉ names := by
  induction names generalizing g with
  | nil => simp [Grouping.removeEach]
  | cons name rest ih =>
      refine (ih (h.remove name)).trans ?_
      rw [h.isSome_priorityOf_remove, List.mem_cons, not_or, and_assoc]

theorem Tidy.sizesWithout_removeEach {g : Grouping α} (h : g.Tidy) {names gone : List α}
    (hnames : ∀ name ∈ names, name ∈ gone) :
    (g.removeEach names).sizesWithout gone = g.sizesWithout gone := by
  induction names generalizing g with
  | nil => rfl
  | cons name rest ih =>
      obtain ⟨hname, hrest⟩ := List.forall_mem_cons.1 hnames
      exact (ih (h.remove name) hrest).trans (sizesWithout_remove h.toPlaced hname)

/-- Groups filled by the rule have no gaps to close. -/
theorem Tidy.groupSizes_eq {g : Grouping α} (h : g.Tidy) :
    levelled g.coreSizes g.groupSizes 0 = g.groupSizes := by
  refine levelled_eq_self (by simpa [groupSizes] using h.length_groups) ?_
  intro group later hgap hlater
  rw [getD_groupSizes] at hgap ⊢
  rw [h.filled group later hgap hlater, List.length_nil]

/-- The sizes after removals are those of the grouping without the names, its gaps closed. -/
theorem Tidy.groupSizes_removeEach {g : Grouping α} (h : g.Tidy) (names : List α) :
    (g.removeEach names).groupSizes = g.sizesWithout names := by
  have hgone : (g.removeEach names).stays names = (g.removeEach names).groupSizes := by
    refine stays_eq_groupSizes fun group name hname => ?_
    have hpriority := (h.removeEach names).mem_members.1 hname
    exact ((h.isSome_priorityOf_removeEach names name).1 (by rw [hpriority, Option.isSome_some])).2
  rw [← h.sizesWithout_removeEach fun _ => id, sizesWithout, hgone]
  exact (h.removeEach names).groupSizes_eq.symm

/-- In which order names are removed, and what is drawn meanwhile, makes no difference to the sizes
of the groups. -/
theorem groupSizes_removeEach_perm {g : Grouping α} (h : g.Reachable) {names names' : List α}
    (hperm : names.Perm names') (rng rng' : Rng) :
    ({ g with rng }.removeEach names).groupSizes =
      ({ g with rng := rng' }.removeEach names').groupSizes := by
  rw [(h.tidy.rng rng).groupSizes_removeEach, (h.tidy.rng rng').groupSizes_removeEach]
  unfold sizesWithout
  rw [stays_congr fun _ => hperm.mem_iff]
  rfl

/-- Of four names two leave, in one order or in the other. -/
theorem groupSizes_removeEach_perm_four :
    ((empty [1, 1] ⟨0⟩).run [.assign ["a", "b", "c", "d"]]).Reachable ∧
      ["a", "d"].Perm ["d", "a"] ∧
      ({ (empty [1, 1] ⟨0⟩).run [.assign ["a", "b", "c", "d"]] with rng := ⟨1⟩ }.removeEach
          ["a", "d"]).groupSizes =
        ({ (empty [1, 1] ⟨0⟩).run [.assign ["a", "b", "c", "d"]] with rng := ⟨2⟩ }.removeEach
          ["d", "a"]).groupSizes := by
  have hreach : ((empty [1, 1] ⟨0⟩).run [.assign ["a", "b", "c", "d"]]).Reachable :=
    ⟨[1, 1], ⟨0⟩, [.assign ["a", "b", "c", "d"]], by decide, by simp [Edit.Distinct], rfl⟩
  have hperm : ["a", "d"].Perm ["d", "a"] := .swap _ _ _
  exact ⟨hreach, hperm, groupSizes_removeEach_perm hreach hperm ⟨1⟩ ⟨2⟩⟩

end Grouping

end ResourceSelection
