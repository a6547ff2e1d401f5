import ResourceSelection.Proofs.Grouping.Places

/-!
# Core groups are filled in order

The rule that every grouping keeps: a core group below its target is the last one with members.
Newcomers keep it by filling the first such group. A name that leaves may break it at one place,
and the promotions that follow carry the gap to the back. `Grouping.FilledBut` says what holds in
between: the rule, except that one group, the gap, may be one member short of its target while
there are members behind it. A promotion fills the gap and leaves one, at most, where its member
came from, so the rule is whole again when nobody is left to promote or nobody is missing.

What the draws decide is who is promoted and where a newcomer lands. Nothing here asks about it.
-/

namespace ResourceSelection.Grouping

variable {α : Type}

/-! ## The rule -/

/-- The group is a core group below its target. -/
def Underfilled (g : Grouping α) (group : Nat) : Prop :=
  (g.members group).length < g.coreSizes.getD group 0

instance (g : Grouping α) (group : Nat) : Decidable (g.Underfilled group) :=
  inferInstanceAs (Decidable (_ < _))

def Filled (g : Grouping α) : Prop :=
  ∀ group later : Nat, g.Underfilled group → group < later → g.members later = []

/-- The rule, but for one group that may be one member short. -/
structure FilledBut (g : Grouping α) (gap : Nat) : Prop where
  others {group later : Nat} :
    group ≠ gap → g.Underfilled group → group < later → g.members later = []
  short {later : Nat} : gap < later → g.members later ≠ [] →
    g.coreSizes.getD gap 0 ≤ (g.members gap).length + 1

theorem Underfilled.lt_length {g : Grouping α} {group : Nat} (h : g.Underfilled group) :
    group < g.coreSizes.length := by
  by_contra hge
  rw [Underfilled, List.getD_eq_default _ _ (Nat.le_of_not_lt hge)] at h
  exact Nat.not_lt_zero _ h

/-! ## The two searches -/

theorem underfilled_of_firstUnderfilled {g : Grouping α} {group : Nat}
    (h : g.firstUnderfilled = some group) :
    g.Underfilled group ∧ ∀ earlier < group, ¬ g.Underfilled earlier := by
  obtain ⟨hunder, -, hfirst⟩ := List.find?_range_eq_some.1 h
  refine ⟨of_decide_eq_true hunder, fun earlier hlt => ?_⟩
  have := hfirst earlier hlt
  simpa [Underfilled] using this

theorem not_underfilled_of_firstUnderfilled {g : Grouping α} (h : g.firstUnderfilled = none)
    (group : Nat) : ¬ g.Underfilled group := by
  intro hunder
  have hnot := List.find?_range_eq_none.1 h group hunder.lt_length
  rw [Bool.not_eq_true', decide_eq_false_iff_not] at hnot
  exact absurd hunder hnot

theorem firstUnderfilled_eq_none {g : Grouping α} (h : ∀ group, ¬ g.Underfilled group) :
    g.firstUnderfilled = none := by
  cases hsearch : g.firstUnderfilled with
  | none => rfl
  | some group => exact absurd (underfilled_of_firstUnderfilled hsearch).1 (h group)

theorem firstUnderfilled_eq_some {g : Grouping α} {group : ℕ} (h : g.Underfilled group)
    (hfirst : ∀ earlier < group, ¬ g.Underfilled earlier) : g.firstUnderfilled = some group := by
  cases hsearch : g.firstUnderfilled with
  | none => exact absurd h (not_underfilled_of_firstUnderfilled hsearch group)
  | some found =>
      obtain ⟨hfound, hbefore⟩ := underfilled_of_firstUnderfilled hsearch
      rcases Nat.lt_trichotomy found group with hlt | rfl | hlt
      · exact absurd hfound (hfirst found hlt)
      · rfl
      · exact absurd h (hbefore group hlt)

theorem lt_length_of_firstUnderfilled {g : Grouping α}
    (hlength : g.groups.length = g.coreSizes.length + 1) :
    g.firstUnderfilled.getD g.lastGroup < g.groups.length := by
  cases hsearch : g.firstUnderfilled with
  | none => simp [lastGroup, hlength]
  | some group =>
      have := (underfilled_of_firstUnderfilled hsearch).1.lt_length
      rw [Option.getD_some]
      omega

theorem members_eq_nil_of_ge {g : Grouping α} {group : Nat} (h : g.groups.length ≤ group) :
    g.members group = [] :=
  List.getD_eq_default _ _ h

/-- The donor has members, and no group before it has. -/
theorem nextDonor?_eq_some {g : Grouping α} {group donor : Nat} {hlt : group < donor}
    (h : g.nextDonor? group = some ⟨donor, hlt⟩) :
    g.members donor ≠ [] ∧ ∀ between, group < between → between < donor →
      g.members between = [] := by
  obtain ⟨before, found, after, hrange, hfound, hbefore⟩ := List.findSome?_eq_some_iff.1 h
  have hfound' : found = donor ∧ g.members found ≠ [] := by
    split at hfound
    · split at hfound
      · exact nomatch hfound
      · next hmembers =>
          cases hfound
          exact ⟨rfl, by simpa using hmembers⟩
    · exact nomatch hfound
  obtain ⟨rfl, hmembers⟩ := hfound'
  refine ⟨hmembers, fun between hgroup hdonor => ?_⟩
  -- the range ascends, so what is smaller than the donor stands before it
  have hmem : between ∈ before := by
    have hsorted : (List.range g.groups.length).Pairwise (· < ·) := List.pairwise_lt_range
    have hin : between ∈ List.range g.groups.length := by
      have hd : found ∈ List.range g.groups.length := by simp [hrange]
      rw [List.mem_range] at hd ⊢
      omega
    rw [hrange] at hsorted hin
    have hafter := (List.pairwise_cons.1 (List.pairwise_append.1 hsorted).2.1).1
    rcases List.mem_append.1 hin with hin | hin
    · exact hin
    · rcases List.mem_cons.1 hin with rfl | hin
      · exact absurd hdonor (Nat.lt_irrefl _)
      · have := hafter between hin
        omega
  have hnone := hbefore between hmem
  rw [dif_pos hgroup] at hnone
  simpa using hnone

theorem nextDonor?_eq_none {g : Grouping α} {group : Nat} (h : g.nextDonor? group = none)
    {later : Nat} (hlater : group < later) : g.members later = [] := by
  by_cases hlt : later < g.groups.length
  · have := List.findSome?_eq_none_iff.1 h later (List.mem_range.2 hlt)
    rw [dif_pos hlater] at this
    simpa using this
  · exact members_eq_nil_of_ge (Nat.le_of_not_lt hlt)

theorem groupOwning_le (count : Nat) (sizes : List Nat) (position : Nat) :
    groupOwning count sizes position ≤ count + sizes.length := by
  induction sizes generalizing count position with
  | nil => exact Nat.le_refl _
  | cons size rest ih =>
      rw [groupOwning, List.length_cons]
      split
      · omega
      · have := ih (count + 1) (position - size)
        omega

theorem groupAt_le (g : Grouping α) (position : Nat) : g.groupAt position ≤ g.coreSizes.length := by
  have hle := groupOwning_le 0 ((g.groups.take g.coreSizes.length).map List.length) position
  rw [List.length_map, List.length_take, Nat.zero_add] at hle
  exact Nat.le_trans hle (Nat.min_le_left _ _)

/-! ## Sizes after a move -/

variable [DecidableEq α]

theorem length_members_place {g : Grouping α} {group : Nat} (h : group < g.groups.length)
    (name : α) (other : Nat) : ((g.place name group).members other).length =
      if group = other then (g.members other).length + 1 else (g.members other).length := by
  rw [members_place h]
  split <;> simp

theorem length_members_vacate {g : Grouping α} {group position : Nat} {name : α}
    (h : (g.members group)[position]? = some name) (other : Nat) :
    ((g.vacate name group position).members other).length =
      if group = other then (g.members other).length - 1 else (g.members other).length := by
  rw [members_vacate (lt_length_of_mem (List.mem_of_getElem? h))]
  split
  · next heq =>
      subst heq
      have := (perm_swapRemove h).length_eq
      rw [List.length_cons] at this
      omega
  · rfl

theorem length_members_promote {g : Grouping α} {group donor : Nat}
    (hgroup : group < g.groups.length) (hdonor : g.members donor ≠ []) (hne : group ≠ donor)
    (other : Nat) : ((g.promote group donor).members other).length =
      if group = other then (g.members other).length + 1
      else if donor = other then (g.members other).length - 1
      else (g.members other).length := by
  obtain ⟨position, name, rng, hname, heq⟩ := promote_eq hdonor group
  have hvacate := length_members_vacate hname other
  rw [heq, length_members_place (by simpa using hgroup)]
  show ite _ (((g.vacate name donor position).members other).length + 1)
    ((g.vacate name donor position).members other).length = _
  rw [hvacate]
  by_cases hother : group = other
  · simp [hother, Ne.symm (hother ▸ hne)]
  · simp [hother]

/-- A name that joins the first core group below its target, or any group when there is none, keeps
the rule. -/
theorem Filled.place {g : Grouping α} (h : g.Filled) {group : Nat} (hgroup : group < g.groups.length)
    (hfirst : ∀ first, g.firstUnderfilled = some first → group = first) (name : α) :
    (g.place name group).Filled := by
  intro i later hunder hlater
  have hunder' : g.Underfilled i := by
    rw [Underfilled, length_members_place hgroup, coreSizes_place] at hunder
    rw [Underfilled]
    split at hunder <;> omega
  cases hsearch : g.firstUnderfilled with
  | none => exact absurd hunder' (not_underfilled_of_firstUnderfilled hsearch i)
  | some first =>
      obtain rfl := hfirst first hsearch
      obtain ⟨-, hbefore⟩ := underfilled_of_firstUnderfilled hsearch
      have hle : group ≤ i := by
        by_contra hlt
        exact hbefore i (by omega) hunder'
      rw [members_place hgroup, if_neg (by omega)]
      exact h i later hunder' hlater

/-- A name that leaves makes a gap where it stood. -/
theorem Filled.vacate {g : Grouping α} (h : g.Filled) {name : α} {group position : Nat}
    (hname : (g.members group)[position]? = some name) :
    (g.vacate name group position).FilledBut group where
  others := by
    intro i later hi hunder hlater
    rw [Underfilled, length_members_vacate hname, if_neg (Ne.symm hi)] at hunder
    have hnil : g.members later = [] := h i later hunder hlater
    rw [← List.length_eq_zero_iff, length_members_vacate hname, hnil]
    simp
  short := by
    intro later hlater hmembers
    rw [length_members_vacate hname, if_pos rfl]
    have hsame : g.members later ≠ [] := by
      rw [← List.length_pos_iff, length_members_vacate hname, if_neg (by omega)] at hmembers
      exact List.length_pos_iff.1 hmembers
    have hnot : ¬ g.Underfilled group := fun hunder => hsame (h _ _ hunder hlater)
    rw [Underfilled] at hnot
    show g.coreSizes.getD group 0 ≤ _
    omega

/-! ## Filling a gap -/

/-- A promotion fills the gap, and the group that gave the member is the only one that may be short
after it. -/
theorem FilledBut.promote {g : Grouping α} {group : Nat} (h : g.FilledBut group)
    (hgroup : group < g.groups.length) {donor : Nat} {hlt : group < donor}
    (hdonor : g.nextDonor? group = some ⟨donor, hlt⟩) :
    (g.promote group donor).FilledBut donor := by
  obtain ⟨hmembers, -⟩ := nextDonor?_eq_some hdonor
  have hpos := List.length_pos_iff.2 hmembers
  have hlength := length_members_promote hgroup hmembers (Nat.ne_of_lt hlt)
  constructor
  · intro i later hi hunder hlater
    rw [Underfilled, hlength, coreSizes_promote] at hunder
    by_cases hgap : group = i
    · -- the gap had been one member short, and has one more now
      subst hgap
      have := h.short hlt hmembers
      rw [if_pos rfl] at hunder
      omega
    · rw [if_neg hgap, if_neg (Ne.symm hi)] at hunder
      have hnil {later : Nat} (hlater : i < later) : g.members later = [] :=
        h.others (Ne.symm hgap) hunder hlater
      have hbehind : ¬ i < donor := fun hbefore => hmembers (hnil hbefore)
      rw [← List.length_eq_zero_iff, hlength, if_neg (by omega), if_neg (by omega), hnil hlater]
      rfl
  · intro later hlater hsome
    rw [← List.length_pos_iff, hlength, if_neg (by omega), if_neg (by omega)] at hsome
    have hnot : ¬ g.Underfilled donor := fun hunder =>
      List.length_pos_iff.1 hsome (h.others (Nat.ne_of_gt hlt) hunder hlater)
    rw [Underfilled] at hnot
    rw [coreSizes_promote, hlength, if_neg (by omega), if_pos rfl]
    omega

theorem Placed.promote {g : Grouping α} (h : g.Placed) {group donor : Nat}
    (hgroup : group < g.groups.length) (hdonor : g.members donor ≠ []) :
    (g.promote group donor).Placed := by
  obtain ⟨position, name, rng, hname, heq⟩ := promote_eq hdonor group
  rw [heq]
  refine ((h.vacate hname).rng rng).place ?_ (by simpa using hgroup)
  show (g.vacate name donor position).priorityOf name = none
  rw [priorityOf_vacate, if_pos rfl]

/-- A promotion moves a name that is assigned. -/
theorem Placed.isSome_priorityOf_promote {g : Grouping α} (h : g.Placed) {donor : Nat}
    (hdonor : g.members donor ≠ []) (group : Nat) (other : α) :
    ((g.promote group donor).priorityOf other).isSome = (g.priorityOf other).isSome := by
  obtain ⟨position, name, rng, hname, heq⟩ := promote_eq hdonor group
  have hpriority := h.mem_members.1 (List.mem_of_getElem? hname)
  rw [heq, priorityOf_place]
  split
  · next hother => rw [hother, hpriority, Option.isSome_some, Option.isSome_some]
  · next hother =>
      show ((g.vacate name donor position).priorityOf other).isSome = _
      rw [priorityOf_vacate, if_neg hother]

@[simp] theorem coreSizes_refill (g : Grouping α) (group : Nat) :
    (g.refill group).coreSizes = g.coreSizes := by
  induction g, group using refill.induct with
  | case1 g group hshort hnone => rw [refill, if_pos hshort, hnone]
  | case2 g group hshort donor hlt hsome ih =>
      rw [refill, if_pos hshort, hsome]
      simp only
      rw [ih, coreSizes_promote]
  | case3 g group hdone => rw [refill, if_neg hdone]

/-- What filling a gap leads to. -/
structure Refilled (g t : Grouping α) : Prop where
  placed : t.Placed
  filled : t.Filled
  assigned (name : α) : (t.priorityOf name).isSome = (g.priorityOf name).isSome

theorem refilled_refill {g : Grouping α} {group : Nat} (hplaced : g.Placed)
    (hfilled : g.FilledBut group) : g.Refilled (g.refill group) := by
  induction g, group using refill.induct with
  | case1 g group hshort hnone =>
      rw [refill, if_pos hshort, hnone]
      refine ⟨hplaced, ?_, fun _ => rfl⟩
      intro i later hunder hlater
      by_cases hgap : i = group
      · exact nextDonor?_eq_none hnone (hgap ▸ hlater)
      · exact hfilled.others hgap hunder hlater
  | case2 g group hshort donor hlt hsome ih =>
      rw [refill, if_pos hshort, hsome]
      obtain ⟨hmembers, -⟩ := nextDonor?_eq_some hsome
      have hgroup : group < g.groups.length := by
        rw [hplaced.length_groups]
        omega
      have hnext := ih (hplaced.promote hgroup hmembers) (hfilled.promote hgroup hsome)
      refine ⟨hnext.placed, hnext.filled, fun name => ?_⟩
      rw [hnext.assigned, hplaced.isSome_priorityOf_promote hmembers]
  | case3 g group hdone =>
      rw [refill, if_neg hdone]
      refine ⟨hplaced, ?_, fun _ => rfl⟩
      intro i later hunder hlater
      refine hfilled.others ?_ hunder hlater
      rintro rfl
      exact hdone ⟨hunder.lt_length, hunder⟩

/-! ## Edits -/

/-- Sound places, filled by the rule. -/
structure Tidy (g : Grouping α) : Prop extends g.Placed where
  filled : g.Filled

theorem tidy_empty {coreSizes : List Nat} (h : coreSizes.length ≤ priorityLimit) (rng : Rng) :
    (empty coreSizes rng : Grouping α).Tidy where
  toPlaced := placed_empty h rng
  filled := by
    intro group later _ _
    simp only [members, empty, List.getD_eq_getElem?_getD, List.getElem?_replicate]
    split <;> rfl

theorem Tidy.rng {g : Grouping α} (h : g.Tidy) (rng : Rng) : Tidy { g with rng } where
  toPlaced := h.toPlaced.rng rng
  filled := h.filled

theorem Tidy.place {g : Grouping α} (h : g.Tidy) {name : α} (hnew : g.priorityOf name = none)
    {group : Nat} (hgroup : group ≤ g.coreSizes.length)
    (hfirst : ∀ first, g.firstUnderfilled = some first → group = first) :
    (g.place name group).Tidy := by
  have hlt : group < g.groups.length := by
    rw [h.length_groups]
    omega
  exact { h.toPlaced.place hnew hlt with filled := h.filled.place hlt hfirst name }

/-- Adding a name that is not assigned places it, after a draw or without one. -/
theorem add_eq {g : Grouping α} {name : α} (hnew : g.priorityOf name = none) :
    ∃ group rng, group ≤ g.coreSizes.length ∧
      (∀ first, g.firstUnderfilled = some first → group = first) ∧
      g.add name = (toPriority group, { g with rng }.place name group) := by
  unfold add
  rw [hnew]
  cases hsearch : g.firstUnderfilled with
  | some group =>
      have hlt := (underfilled_of_firstUnderfilled hsearch).1.lt_length
      exact ⟨group, g.rng, Nat.le_of_lt hlt, fun _ => Option.some.inj, rfl⟩
  | none =>
      generalize g.rng.below (g.size + 1) = draw
      obtain ⟨position, rng⟩ := draw
      refine ⟨g.groupAt position, rng, g.groupAt_le position, ?_, rfl⟩
      intro first h
      cases h

@[simp] theorem coreSizes_add (g : Grouping α) (name : α) :
    (g.add name).2.coreSizes = g.coreSizes := by
  cases hname : g.priorityOf name with
  | some group =>
      unfold add
      rw [hname]
  | none =>
      obtain ⟨group, rng, -, -, heq⟩ := add_eq hname
      rw [heq]
      rfl

theorem Tidy.add {g : Grouping α} (h : g.Tidy) (name : α) : (g.add name).2.Tidy := by
  cases hname : g.priorityOf name with
  | some group =>
      unfold Grouping.add
      rw [hname]
      exact h
  | none =>
      obtain ⟨group, rng, hgroup, hfirst, heq⟩ := add_eq hname
      rw [heq]
      exact (h.rng rng).place hname hgroup hfirst

theorem isSome_priorityOf_add (g : Grouping α) (name other : α) :
    ((g.add name).2.priorityOf other).isSome = true ↔
      (g.priorityOf other).isSome = true ∨ other = name := by
  cases hname : g.priorityOf name with
  | some group =>
      unfold add
      rw [hname]
      refine ⟨.inl, ?_⟩
      rintro (hother | rfl)
      · exact hother
      · rw [hname]
        rfl
  | none =>
      obtain ⟨group, rng, -, -, heq⟩ := add_eq hname
      rw [heq, priorityOf_place]
      show (ite _ _ (g.priorityOf other)).isSome = true ↔ _
      by_cases hother : other = name
      · simp [hother]
      · simp [hother]

/-- An assigned name is found in its group. -/
theorem Placed.findIdx?_members {g : Grouping α} (h : g.Placed) {name : α} {group : Nat}
    (hname : g.priorityOf name = some group) : ∃ position,
      (g.members group)[position]? = some name ∧
      (g.members group).findIdx? (fun member => member = name) = some position := by
  obtain ⟨position, hposition⟩ : ∃ position,
      (g.members group).findIdx? (fun member => member = name) = some position := by
    rw [← Option.isSome_iff_exists, List.findIdx?_isSome, List.any_eq_true]
    exact ⟨name, h.mem_members.2 hname, decide_eq_true rfl⟩
  obtain ⟨hlt, hfound, -⟩ := List.findIdx?_eq_some_iff_getElem.1 hposition
  refine ⟨position, ?_, hposition⟩
  rw [List.getElem?_eq_getElem hlt, of_decide_eq_true hfound]

/-- Removing an assigned name takes it out of its group and fills the gap. -/
theorem remove_eq {g : Grouping α} {name : α} {group position : Nat}
    (hname : g.priorityOf name = some group)
    (hfound : (g.members group).findIdx? (fun member => member = name) = some position) :
    g.remove name = (some group, (g.vacate name group position).refill group) := by
  have hunlisted : ((g.unlist name).members group).findIdx? (fun member => member = name) =
      some position := hfound
  unfold remove
  simp only [hname, hunlisted]
  rfl

@[simp] theorem coreSizes_remove (g : Grouping α) (name : α) :
    (g.remove name).2.coreSizes = g.coreSizes := by
  unfold remove
  split
  · rfl
  · simp only [coreSizes_refill]
    split <;> rfl

theorem refilled_remove {g : Grouping α} (h : g.Tidy) {name : α} {group : Nat}
    (hname : g.priorityOf name = some group) : ∃ position,
      (g.vacate name group position).Refilled (g.remove name).2 := by
  obtain ⟨position, hposition, hfound⟩ := h.findIdx?_members hname
  rw [remove_eq hname hfound]
  exact ⟨position, refilled_refill (h.vacate hposition) (h.filled.vacate hposition)⟩

theorem Tidy.remove {g : Grouping α} (h : g.Tidy) (name : α) : (g.remove name).2.Tidy := by
  cases hname : g.priorityOf name with
  | none =>
      unfold Grouping.remove
      rw [hname]
      exact h
  | some group =>
      obtain ⟨position, hrefill⟩ := refilled_remove h hname
      exact { hrefill.placed with filled := hrefill.filled }

theorem Tidy.isSome_priorityOf_remove {g : Grouping α} (h : g.Tidy) (name other : α) :
    ((g.remove name).2.priorityOf other).isSome = true ↔
      (g.priorityOf other).isSome = true ∧ other ≠ name := by
  cases hname : g.priorityOf name with
  | none =>
      unfold Grouping.remove
      rw [hname]
      refine ⟨fun hother => ⟨hother, ?_⟩, And.left⟩
      rintro rfl
      rw [hname] at hother
      exact nomatch hother
  | some group =>
      obtain ⟨position, hrefill⟩ := refilled_remove h hname
      rw [hrefill.assigned, priorityOf_vacate]
      by_cases hother : other = name
      · simp [hother]
      · simp [hother]

/-- The grouping with a name in the first core group below its target, or else in the last
group. -/
def seat (g : Grouping α) (name : α) : Grouping α :=
  g.place name (g.firstUnderfilled.getD g.lastGroup)

theorem Tidy.seat {g : Grouping α} (h : g.Tidy) {name : α} (hnew : g.priorityOf name = none) :
    (g.seat name).Tidy := by
  unfold Grouping.seat
  cases hsearch : g.firstUnderfilled with
  | none => exact h.place hnew (Nat.le_refl _) fun _ hfirst => nomatch hsearch.symm.trans hfirst
  | some group =>
      have hlt := (underfilled_of_firstUnderfilled hsearch).1.lt_length
      refine h.place hnew (Nat.le_of_lt hlt) fun _ hfirst => ?_
      exact Option.some.inj (hsearch.symm.trans hfirst)

theorem priorityOf_seat_of_ne (g : Grouping α) {name other : α} (h : other ≠ name) :
    (g.seat name).priorityOf other = g.priorityOf other := by
  unfold seat
  rw [priorityOf_place, if_neg h]

theorem isSome_priorityOf_seat (g : Grouping α) (name other : α) :
    ((g.seat name).priorityOf other).isSome = true ↔
      (g.priorityOf other).isSome = true ∨ other = name := by
  unfold seat
  rw [priorityOf_place]
  by_cases h : other = name
  · simp [h]
  · simp [h]

@[simp] theorem coreSizes_seat (g : Grouping α) (name : α) :
    (g.seat name).coreSizes = g.coreSizes :=
  coreSizes_place g name _

@[simp] theorem length_groups_seat (g : Grouping α) (name : α) :
    (g.seat name).groups.length = g.groups.length :=
  length_groups_place g name _

/-- What every single new name keeps is kept by names that are all different and new. -/
theorem foldl_seat_induct {motive : Grouping α → Prop}
    (hseat : ∀ {g : Grouping α}, motive g → ∀ {name : α}, g.priorityOf name = none →
      motive (g.seat name))
    {g : Grouping α} (h : motive g) {names : List α} (hnodup : names.Nodup)
    (hnew : ∀ name ∈ names, g.priorityOf name = none) : motive (names.foldl seat g) := by
  induction names generalizing g with
  | nil => exact h
  | cons name rest ih =>
      obtain ⟨hname, hrest⟩ := List.nodup_cons.1 hnodup
      refine ih (hseat h (hnew name List.mem_cons_self)) hrest fun other hother => ?_
      have hne : other ≠ name := by
        rintro rfl
        exact hname hother
      rw [priorityOf_seat_of_ne g hne]
      exact hnew other (List.mem_cons_of_mem name hother)

theorem Tidy.foldl_seat {g : Grouping α} (h : g.Tidy) {names : List α} (hnodup : names.Nodup)
    (hnew : ∀ name ∈ names, g.priorityOf name = none) : (names.foldl Grouping.seat g).Tidy :=
  foldl_seat_induct Tidy.seat h hnodup hnew

theorem isSome_priorityOf_foldl_seat (g : Grouping α) (names : List α) (other : α) :
    ((names.foldl seat g).priorityOf other).isSome = true ↔
      (g.priorityOf other).isSome = true ∨ other ∈ names := by
  induction names generalizing g with
  | nil => simp
  | cons name rest ih =>
      rw [List.foldl_cons, ih, isSome_priorityOf_seat, List.mem_cons]
      tauto

/-- The names of a list that are not assigned yet, in the order in which they are seated. -/
def fresh (g : Grouping α) (names : List α) : List α :=
  (g.rng.shuffle (names.filter fun name => (g.priorityOf name).isNone)).1

theorem fresh_perm (g : Grouping α) (names : List α) :
    (g.fresh names).Perm (names.filter fun name => (g.priorityOf name).isNone) :=
  Rng.shuffle_perm _ _

theorem assignInitial_eq (g : Grouping α) (names : List α) : ∃ rng,
    g.assignInitial names = (g.fresh names).foldl seat { g with rng } := by
  unfold assignInitial fresh
  generalize g.rng.shuffle _ = shuffled
  exact ⟨shuffled.2, rfl⟩

@[simp] theorem coreSizes_foldl_seat (names : List α) (g : Grouping α) :
    (names.foldl seat g).coreSizes = g.coreSizes := by
  induction names generalizing g with
  | nil => rfl
  | cons name rest ih => exact ih (g.seat name)

@[simp] theorem length_groups_foldl_seat (names : List α) (g : Grouping α) :
    (names.foldl seat g).groups.length = g.groups.length := by
  induction names generalizing g with
  | nil => rfl
  | cons name rest ih => exact (ih (g.seat name)).trans (length_groups_seat g name)

@[simp] theorem coreSizes_assignInitial (g : Grouping α) (names : List α) :
    (g.assignInitial names).coreSizes = g.coreSizes := by
  obtain ⟨rng, heq⟩ := g.assignInitial_eq names
  rw [heq, coreSizes_foldl_seat]

theorem priorityOf_of_mem_fresh {g : Grouping α} {names : List α} {name : α}
    (h : name ∈ g.fresh names) : g.priorityOf name = none := by
  have := (List.mem_filter.1 ((g.fresh_perm names).mem_iff.1 h)).2
  simpa using this

theorem Tidy.assignInitial {g : Grouping α} (h : g.Tidy) {names : List α} (hnodup : names.Nodup) :
    (g.assignInitial names).Tidy := by
  obtain ⟨rng, heq⟩ := g.assignInitial_eq names
  have hfresh : (g.fresh names).Nodup := (g.fresh_perm names).nodup_iff.2 (hnodup.filter _)
  rw [heq]
  have hnew : ∀ name ∈ g.fresh names, g.priorityOf name = none := fun _ => priorityOf_of_mem_fresh
  exact (h.rng rng).foldl_seat hfresh hnew

theorem isSome_priorityOf_assignInitial (g : Grouping α) (names : List α) (other : α) :
    ((g.assignInitial names).priorityOf other).isSome = true ↔
      (g.priorityOf other).isSome = true ∨ other ∈ names := by
  obtain ⟨rng, heq⟩ := g.assignInitial_eq names
  rw [heq, isSome_priorityOf_foldl_seat, (g.fresh_perm names).mem_iff, List.mem_filter]
  show (g.priorityOf other).isSome = true ∨ _ ↔ _
  cases g.priorityOf other with
  | none => simp
  | some group => simp

/-! ## Runs -/

/-- What is asked of a grouping. -/
inductive Edit (α : Type) where
  | assign (names : List α)
  | add (name : α)
  | remove (name : α)

/-- An assignment lists no name twice. -/
def Edit.Distinct : Edit α → Prop
  | .assign names => names.Nodup
  | _ => True

def edit (g : Grouping α) : Edit α → Grouping α
  | .assign names => g.assignInitial names
  | .add name => (g.add name).2
  | .remove name => (g.remove name).2

def run (es : List (Edit α)) (g : Grouping α) : Grouping α := es.foldl edit g

/-- The names that are assigned after an edit, when those of a list were before. -/
def Edit.assigned (names : List α) : Edit α → List α
  | .assign new => names ++ new
  | .add name => names ++ [name]
  | .remove name => names.filter (· ≠ name)

/-- The names that are assigned after some edits of an empty grouping. -/
def assignedBy (es : List (Edit α)) : List α := es.foldl Edit.assigned []

/-- What edits without repeated names make of a grouping without members, in which every group has a
priority of its own. -/
def Reachable (g : Grouping α) : Prop :=
  ∃ (coreSizes : List Nat) (rng : Rng) (es : List (Edit α)), coreSizes.length ≤ priorityLimit ∧
    (∀ e ∈ es, e.Distinct) ∧ (empty coreSizes rng).run es = g

theorem Tidy.edit {g : Grouping α} (h : g.Tidy) {e : Edit α} (he : e.Distinct) :
    (g.edit e).Tidy := by
  cases e with
  | assign names => exact h.assignInitial he
  | add name => exact h.add name
  | remove name => exact h.remove name

@[simp] theorem coreSizes_edit (g : Grouping α) (e : Edit α) :
    (g.edit e).coreSizes = g.coreSizes := by
  cases e with
  | assign names => exact coreSizes_assignInitial g names
  | add name => exact coreSizes_add g name
  | remove name => exact coreSizes_remove g name

@[simp] theorem coreSizes_run (es : List (Edit α)) (g : Grouping α) :
    (g.run es).coreSizes = g.coreSizes := by
  induction es generalizing g with
  | nil => rfl
  | cons e rest ih => exact (ih _).trans (coreSizes_edit g e)

theorem Tidy.run {g : Grouping α} (h : g.Tidy) {es : List (Edit α)} (hes : ∀ e ∈ es, e.Distinct) :
    (g.run es).Tidy := by
  induction es generalizing g with
  | nil => exact h
  | cons e rest ih =>
      obtain ⟨he, hrest⟩ := List.forall_mem_cons.1 hes
      exact ih (h.edit he) hrest

theorem Reachable.tidy {g : Grouping α} (h : g.Reachable) : g.Tidy := by
  obtain ⟨coreSizes, rng, es, hnumbered, hes, rfl⟩ := h
  exact (tidy_empty hnumbered rng).run hes

theorem Tidy.isSome_priorityOf_edit {g : Grouping α} (h : g.Tidy) (e : Edit α) {names : List α}
    (hnames : ∀ name, (g.priorityOf name).isSome = true ↔ name ∈ names) (name : α) :
    ((g.edit e).priorityOf name).isSome = true ↔ name ∈ e.assigned names := by
  cases e with
  | assign new =>
      show ((g.assignInitial new).priorityOf name).isSome = true ↔ _
      rw [isSome_priorityOf_assignInitial, hnames, Edit.assigned, List.mem_append]
  | add other =>
      show ((g.add other).2.priorityOf name).isSome = true ↔ _
      rw [isSome_priorityOf_add, hnames, Edit.assigned, List.mem_append, List.mem_singleton]
  | remove other =>
      show ((g.remove other).2.priorityOf name).isSome = true ↔ _
      rw [h.isSome_priorityOf_remove, hnames, Edit.assigned, List.mem_filter, decide_eq_true_iff]

/-- The assigned names are those that were assigned or added and not removed since. -/
theorem Tidy.isSome_priorityOf_run {g : Grouping α} (h : g.Tidy) {es : List (Edit α)}
    (hes : ∀ e ∈ es, e.Distinct) {names : List α}
    (hnames : ∀ name, (g.priorityOf name).isSome = true ↔ name ∈ names) (name : α) :
    ((g.run es).priorityOf name).isSome = true ↔ name ∈ es.foldl Edit.assigned names := by
  induction es generalizing g names with
  | nil => exact hnames name
  | cons e rest ih =>
      obtain ⟨he, hrest⟩ := List.forall_mem_cons.1 hes
      exact ih (h.edit he) hrest (h.isSome_priorityOf_edit e hnames)

end ResourceSelection.Grouping
