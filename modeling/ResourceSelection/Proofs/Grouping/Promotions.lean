import ResourceSelection.Proofs.Grouping.Filling

/-!
# Nobody is sent back

A member that is assigned stays in its group or moves to an earlier one, for as long as it is not
taken out. Newcomers move nobody. What moves members is the filling of the gap that somebody leaves,
and `Grouping.Shifted` says what it does from the gap on: each promotion goes from behind the gap
into it, and the next one starts behind the group that has just given a member, so that the moves
of one removal leave from different groups and arrive in different groups. Taken together they shift
the gap to the group from which nobody was promoted any more, which is the only one that ends up
smaller.

The sizes are those of the groups and the moves are those of the index. That both tell the same
story is what `Grouping.Placed` says, and the statements here use it in both directions.
-/

namespace ResourceSelection.Grouping

variable {α : Type} [DecidableEq α]

/-- The name stands in one group before and in another one after. -/
structure Moved (g t : Grouping α) (name : α) (i j : Nat) : Prop where
  before : g.priorityOf name = some i
  after : t.priorityOf name = some j
  ne : i ≠ j

/-! ## One promotion -/

/-- A promotion moves one member of the donor, and nobody else. -/
theorem Placed.priorityOf_promote {g : Grouping α} (h : g.Placed) {group donor : Nat}
    (hgroup : group < g.groups.length) (hdonor : g.members donor ≠ []) :
    ∃ name, g.priorityOf name = some donor ∧ ∀ other, (g.promote group donor).priorityOf other =
      if other = name then some group else g.priorityOf other := by
  obtain ⟨position, name, rng, hname, heq⟩ := promote_eq hdonor group
  refine ⟨name, h.mem_members.1 (List.mem_of_getElem? hname), fun other => ?_⟩
  rw [heq, priorityOf_place, h.toPriority_eq hgroup]
  by_cases hother : other = name
  · rw [if_pos hother, if_pos hother]
  · rw [if_neg hother, if_neg hother]
    show (g.vacate name donor position).priorityOf other = _
    rw [priorityOf_vacate, if_neg hother]

/-! ## Filling a gap -/

/-- Members have moved up so that the group that is one short is no longer the gap but the last one
that gave a member. -/
structure Shifted (g t : Grouping α) (gap last : Nat) : Prop where
  le : gap ≤ last
  sizes (k : Nat) : (t.members k).length + (if k = last then 1 else 0) =
    (g.members k).length + (if k = gap then 1 else 0)
  stays (name : α) : (t.priorityOf name).isSome = (g.priorityOf name).isSome
  forward {name : α} {i j : Nat} :
    Moved g t name i j → gap ≤ j ∧ j < i ∧ j < g.coreSizes.length
  leaving {name other : α} {i j k : Nat} : Moved g t name i j → Moved g t other i k → name = other
  joining {name other : α} {i j k : Nat} : Moved g t name i k → Moved g t other j k → name = other

theorem Shifted.refl (g : Grouping α) (gap : Nat) : g.Shifted g gap gap := by
  have hnobody {name : α} {i j : Nat} (h : Moved g g name i j) : False :=
    h.ne (Option.some.inj (h.before.symm.trans h.after))
  exact ⟨Nat.le_refl _, fun _ => rfl, fun _ => rfl, fun h => (hnobody h).elim,
    fun h => (hnobody h).elim, fun h => (hnobody h).elim⟩

/-- A promotion into the gap, and whatever follows from the donor on. -/
theorem Shifted.promote {g t : Grouping α} {gap donor last : Nat} (hplaced : g.Placed)
    (hgap : gap < g.coreSizes.length) (hlt : gap < donor) (hdonor : g.members donor ≠ [])
    (h : (g.promote gap donor).Shifted t donor last) : g.Shifted t gap last := by
  have hgroup : gap < g.groups.length := by
    rw [hplaced.length_groups]
    omega
  obtain ⟨promoted, hbefore, hafter⟩ := hplaced.priorityOf_promote hgroup hdonor
  -- the promoted name stands before the donor, where nobody is moved any more
  have hsettled : t.priorityOf promoted = some gap := by
    have hin : (g.promote gap donor).priorityOf promoted = some gap := by
      rw [hafter, if_pos rfl]
    obtain ⟨j, hj⟩ : ∃ j, t.priorityOf promoted = some j := by
      rw [← Option.isSome_iff_exists, h.stays, hin, Option.isSome_some]
    by_cases hne : gap = j
    · rw [hj, hne]
    · have := h.forward ⟨hin, hj, hne⟩
      omega
  -- so every move is that of the promoted name, or one of those that follow
  have hcases {name : α} {i j : Nat} (hmoved : Moved g t name i j) :
      name = promoted ∧ i = donor ∧ j = gap ∨
        Moved (g.promote gap donor) t name i j ∧ donor ≤ j ∧ j < i ∧ j < g.coreSizes.length := by
    by_cases hname : name = promoted
    · subst hname
      exact .inl ⟨rfl, Option.some.inj (hmoved.before.symm.trans hbefore),
        Option.some.inj (hmoved.after.symm.trans hsettled)⟩
    · have hmoved' : Moved (g.promote gap donor) t name i j := by
        refine ⟨?_, hmoved.after, hmoved.ne⟩
        rw [hafter, if_neg hname]
        exact hmoved.before
      have hforward := h.forward hmoved'
      rw [coreSizes_promote] at hforward
      exact .inr ⟨hmoved', hforward⟩
  have hlength := length_members_promote hgroup hdonor (Nat.ne_of_lt hlt)
  have hpos := List.length_pos_iff.2 hdonor
  constructor
  · exact Nat.le_trans (Nat.le_of_lt hlt) h.le
  · intro k
    have hsizes := h.sizes k
    rw [hlength] at hsizes
    rw [hsizes]
    by_cases hk : gap = k
    · subst hk
      rw [if_pos rfl, if_pos rfl, if_neg (by omega)]
    · rw [if_neg hk, if_neg (Ne.symm hk)]
      by_cases hk' : donor = k
      · subst hk'
        rw [if_pos rfl, if_pos rfl]
        omega
      · rw [if_neg hk', if_neg (Ne.symm hk')]
  · intro name
    rw [h.stays, hplaced.isSome_priorityOf_promote hdonor]
  · intro name i j hmoved
    rcases hcases hmoved with ⟨-, rfl, rfl⟩ | ⟨-, hforward⟩
    · exact ⟨Nat.le_refl _, hlt, hgap⟩
    · omega
  · intro name other i j k hmoved hmoved'
    rcases hcases hmoved with ⟨rfl, rfl, -⟩ | ⟨hfirst, hforward⟩
    · rcases hcases hmoved' with ⟨rfl, -, -⟩ | ⟨-, hforward'⟩
      · rfl
      · omega
    · rcases hcases hmoved' with ⟨-, rfl, -⟩ | ⟨hsecond, -⟩
      · omega
      · exact h.leaving hfirst hsecond
  · intro name other i j k hmoved hmoved'
    rcases hcases hmoved with ⟨rfl, -, rfl⟩ | ⟨hfirst, hforward⟩
    · rcases hcases hmoved' with ⟨rfl, -, -⟩ | ⟨-, hforward'⟩
      · rfl
      · omega
    · rcases hcases hmoved' with ⟨-, -, rfl⟩ | ⟨hsecond, -⟩
      · omega
      · exact h.joining hfirst hsecond

theorem shifted_refill {g : Grouping α} (gap : Nat) (hplaced : g.Placed) :
    ∃ last, g.Shifted (g.refill gap) gap last := by
  induction g, gap using refill.induct with
  | case1 g gap hshort hnone =>
      rw [refill, if_pos hshort, hnone]
      exact ⟨gap, .refl g gap⟩
  | case2 g gap hshort donor hlt hsome ih =>
      rw [refill, if_pos hshort, hsome]
      obtain ⟨hdonor, -⟩ := nextDonor?_eq_some hsome
      have hgroup : gap < g.groups.length := by
        rw [hplaced.length_groups]
        omega
      obtain ⟨last, hshifted⟩ := ih (hplaced.promote hgroup hdonor)
      exact ⟨last, hshifted.promote hplaced hshort.1 hlt hdonor⟩
  | case3 g gap hdone =>
      rw [refill, if_neg hdone]
      exact ⟨gap, .refl g gap⟩

/-! ## Coming and going -/

theorem Placed.length_groupSizes {g : Grouping α} (h : g.Placed) :
    g.groupSizes.length = g.coreSizes.length + 1 := by
  rw [groupSizes, List.length_map, h.length_groups]

/-- Sizes that differ in one place only. -/
theorem groupSizes_eq_modify {g t : Grouping α} (hg : g.Placed) (ht : t.Placed)
    (hcores : t.coreSizes = g.coreSizes) {group : Nat} {f : Nat → Nat}
    (h : ∀ k, (t.members k).length =
      if k = group then f (g.members k).length else (g.members k).length) :
    t.groupSizes = g.groupSizes.modify group f := by
  have hlength : t.groupSizes.length = g.groupSizes.length := by
    rw [hg.length_groupSizes, ht.length_groupSizes, hcores]
  refine List.ext_getElem (hlength.trans (List.length_modify ..).symm) fun k hk hk' => ?_
  have hk'' : k < g.groupSizes.length := hlength ▸ hk
  have hbefore := g.getD_groupSizes k
  have hafter := t.getD_groupSizes k
  rw [List.getD_eq_getElem _ _ hk''] at hbefore
  rw [List.getD_eq_getElem _ _ hk] at hafter
  rw [hafter, List.getElem_modify, hbefore, h k]
  simp only [eq_comm]

/-- A newcomer has joined one group, and nothing else has changed. -/
structure Joined (g t : Grouping α) (newcomer : α) (group : Nat) : Prop where
  exists_group : group < g.groupSizes.length
  sizes : t.groupSizes = g.groupSizes.modify group (· + 1)
  seat : t.priorityOf newcomer = some group
  others : ∀ name, name ≠ newcomer → t.priorityOf name = g.priorityOf name

/-- A member has left, one group is smaller by one, and those who have moved have moved up, at most
one out of each group and one into each group. -/
structure Left (g t : Grouping α) (leaver : α) (group : Nat) : Prop where
  exists_group : 0 < g.groupSizes.getD group 0
  sizes : t.groupSizes = g.groupSizes.modify group (· - 1)
  gone : t.priorityOf leaver = none
  others : ∀ name, name ≠ leaver → (t.priorityOf name).isSome = (g.priorityOf name).isSome
  promoted : ∀ name i j, Moved g t name i j → j < i ∧ j < g.coreSizes.length
  leaving : ∀ name other i j k, Moved g t name i j → Moved g t other i k → name = other
  joining : ∀ name other i j k, Moved g t name i k → Moved g t other j k → name = other

theorem Tidy.joined_add {g : Grouping α} (h : g.Tidy) {name : α} (hnew : g.priorityOf name = none) :
    ∃ group, (g.add name).1 = group ∧ g.Joined (g.add name).2 name group := by
  have hplaced := (h.add name).toPlaced
  have hcores := g.coreSizes_add name
  obtain ⟨group, rng, hgroup, -, heq⟩ := add_eq hnew
  have hlt : group < g.groups.length := by
    rw [h.length_groups]
    omega
  rw [heq] at hplaced hcores ⊢
  refine ⟨group, h.toPriority_eq hlt, ?_, groupSizes_eq_modify h.toPlaced hplaced hcores
    fun k => ?_, ?_, ?_⟩
  · rw [h.length_groupSizes]
    omega
  · have hlength : ((Grouping.place { g with rng } name group).members k).length = _ :=
      length_members_place (g := { g with rng }) hlt name k
    rw [hlength]
    simp only [eq_comm]
    rfl
  · rw [priorityOf_place, if_pos rfl, h.toPriority_eq hlt]
  · intro other hother
    rw [priorityOf_place, if_neg hother]
    rfl

theorem Tidy.left_remove {g : Grouping α} (h : g.Tidy) {name : α} {group : Nat}
    (hname : g.priorityOf name = some group) : ∃ last, g.Left (g.remove name).2 name last := by
  have hplaced := (h.remove name).toPlaced
  have hcores := g.coreSizes_remove name
  obtain ⟨position, hposition, hfound⟩ := h.findIdx?_members hname
  have heq : (g.remove name).2 = (g.vacate name group position).refill group := by
    rw [remove_eq hname hfound]
  rw [heq] at hplaced hcores ⊢
  obtain ⟨last, hshifted⟩ := shifted_refill group (h.vacate hposition)
  generalize (g.vacate name group position).refill group = t at *
  have hgone : t.priorityOf name = none := by
    rw [← Option.not_isSome_iff_eq_none, hshifted.stays, priorityOf_vacate, if_pos rfl]
    exact Bool.false_ne_true
  have hmoved {other : α} {i j : Nat} (hmoved : Moved g t other i j) :
      Moved (g.vacate name group position) t other i j := by
    refine ⟨?_, hmoved.after, hmoved.ne⟩
    rw [priorityOf_vacate, if_neg]
    · exact hmoved.before
    · rintro rfl
      exact nomatch hgone.symm.trans hmoved.after
  -- with the one who left counted in, the last group is short of one and no other
  have hsizes (k : Nat) : (t.members k).length + (if k = last then 1 else 0) =
      (g.members k).length := by
    have hk := hshifted.sizes k
    rw [length_members_vacate hposition] at hk
    rw [hk]
    by_cases hgroup : group = k
    · subst hgroup
      have := List.length_pos_of_mem (List.mem_of_getElem? hposition)
      rw [if_pos rfl, if_pos rfl]
      omega
    · rw [if_neg hgroup, if_neg (Ne.symm hgroup)]
      rfl
  have hlast := hsizes last
  rw [if_pos rfl] at hlast
  refine ⟨last, ?_, groupSizes_eq_modify h.toPlaced hplaced hcores fun k => ?_, hgone, ?_, ?_,
    fun _ _ _ _ _ h h' => hshifted.leaving (hmoved h) (hmoved h'),
    fun _ _ _ _ _ h h' => hshifted.joining (hmoved h) (hmoved h')⟩
  · rw [g.getD_groupSizes]
    omega
  · have hk := hsizes k
    by_cases hlast' : k = last
    · rw [if_pos hlast'] at hk ⊢
      omega
    · rw [if_neg hlast'] at hk ⊢
      exact hk
  · intro other hother
    rw [hshifted.stays, priorityOf_vacate, if_neg hother]
  · intro other i j hother
    exact (hshifted.forward (hmoved hother)).2

/-! ## Staying assigned -/

theorem priorityOf_foldl_seat {names : List α} {name : α} (h : name ∉ names) (g : Grouping α) :
    (names.foldl seat g).priorityOf name = g.priorityOf name := by
  induction names generalizing g with
  | nil => rfl
  | cons other rest ih =>
      rw [List.mem_cons, not_or] at h
      rw [List.foldl_cons, ih h.2, priorityOf_seat_of_ne g h.1]

theorem priorityOf_assignInitial {g : Grouping α} {name : α} {group : Nat}
    (h : g.priorityOf name = some group) (names : List α) :
    (g.assignInitial names).priorityOf name = some group := by
  obtain ⟨rng, heq⟩ := g.assignInitial_eq names
  have hnot : name ∉ g.fresh names := fun hmem => by
    rw [priorityOf_of_mem_fresh hmem] at h
    exact nomatch h
  rw [heq, priorityOf_foldl_seat hnot]
  exact h

theorem priorityOf_add {g : Grouping α} {name : α} {group : Nat}
    (h : g.priorityOf name = some group) (other : α) :
    (g.add other).2.priorityOf name = some group := by
  cases hother : g.priorityOf other with
  | some group' =>
      unfold add
      rw [hother]
      exact h
  | none =>
      obtain ⟨group', rng, -, -, heq⟩ := add_eq hother
      rw [heq, priorityOf_place, if_neg]
      · exact h
      · rintro rfl
        rw [hother] at h
        exact nomatch h

theorem Tidy.priorityOf_remove {g : Grouping α} (h : g.Tidy) {name other : α} {group : Nat}
    (hname : g.priorityOf name = some group) (hne : name ≠ other) :
    ∃ group', (g.remove other).2.priorityOf name = some group' ∧ group' ≤ group := by
  cases hother : g.priorityOf other with
  | none =>
      refine ⟨group, ?_, Nat.le_refl _⟩
      unfold Grouping.remove
      rw [hother]
      exact hname
  | some left =>
      obtain ⟨last, hleft⟩ := h.left_remove hother
      have hstays := hleft.others name hne
      rw [hname, Option.isSome_some] at hstays
      obtain ⟨group', hgroup'⟩ := Option.isSome_iff_exists.1 hstays
      refine ⟨group', hgroup', ?_⟩
      by_cases hsame : group = group'
      · exact Nat.le_of_eq hsame.symm
      · exact Nat.le_of_lt (hleft.promoted name group group' ⟨hname, hgroup', hsame⟩).1

/-- The edit takes the name out. -/
def Edit.Removes (name : α) : Edit α → Prop
  | .remove other => other = name
  | _ => False

theorem Tidy.priorityOf_edit {g : Grouping α} (h : g.Tidy) {e : Edit α} {name : α} {group : Nat}
    (hname : g.priorityOf name = some group) (he : ¬ e.Removes name) :
    ∃ group', (g.edit e).priorityOf name = some group' ∧ group' ≤ group := by
  cases e with
  | assign names => exact ⟨group, priorityOf_assignInitial hname names, Nat.le_refl _⟩
  | add other => exact ⟨group, priorityOf_add hname other, Nat.le_refl _⟩
  | remove other => exact h.priorityOf_remove hname (Ne.symm he)

/-- An edit that takes the name out leaves it unassigned. -/
theorem Tidy.not_removes {g : Grouping α} (h : g.Tidy) {e : Edit α} {name : α}
    (hstays : ((g.edit e).priorityOf name).isSome = true) : ¬ e.Removes name := by
  intro he
  cases e with
  | remove other =>
      obtain rfl : other = name := he
      exact ((h.isSome_priorityOf_remove other other).1 hstays).2 rfl
  | _ => exact he

theorem Tidy.priorityOf_run {g : Grouping α} (h : g.Tidy) {es : List (Edit α)}
    (hes : ∀ e ∈ es, e.Distinct) {name : α} {group : Nat} (hname : g.priorityOf name = some group)
    (hkept : ∀ e ∈ es, ¬ e.Removes name) :
    ∃ group', (g.run es).priorityOf name = some group' ∧ group' ≤ group := by
  induction es generalizing g group with
  | nil => exact ⟨group, hname, Nat.le_refl _⟩
  | cons e rest ih =>
      obtain ⟨he, hrest⟩ := List.forall_mem_cons.1 hes
      obtain ⟨hfirst, hkept⟩ := List.forall_mem_cons.1 hkept
      obtain ⟨middle, hmiddle, hle⟩ := h.priorityOf_edit hname hfirst
      obtain ⟨group', hgroup', hle'⟩ := ih (h.edit he) hrest hmiddle hkept
      exact ⟨group', hgroup', Nat.le_trans hle' hle⟩

/-- A name that is assigned after every edit has not been taken out by any. -/
theorem Tidy.forall_not_removes {g : Grouping α} (h : g.Tidy) {es : List (Edit α)}
    (hes : ∀ e ∈ es, e.Distinct) {name : α}
    (hstays : ∀ done, done <+: es → ((g.run done).priorityOf name).isSome = true) :
    ∀ e ∈ es, ¬ e.Removes name := by
  induction es generalizing g with
  | nil => simp
  | cons e rest ih =>
      obtain ⟨he, hrest⟩ := List.forall_mem_cons.1 hes
      refine List.forall_mem_cons.2 ⟨h.not_removes (hstays [e] (List.prefix_append [e] rest)), ?_⟩
      exact ih (h.edit he) hrest fun done hdone => hstays (e :: done) (List.cons_prefix_cons.2
        ⟨rfl, hdone⟩)

theorem run_append (g : Grouping α) (es es' : List (Edit α)) :
    g.run (es ++ es') = (g.run es).run es' :=
  List.foldl_append

/-! ## Membership over any run -/

/-- What is promised to the members of a grouping. -/
structure Steady (g : Grouping α) : Prop where
  /-- After any edits the groups and the index agree. -/
  listed : ∀ es : List (Edit α), (∀ e ∈ es, e.Distinct) → ∀ name group,
    name ∈ (g.run es).members group ↔ (g.run es).priorityOf name = some group
  /-- An edit that does not take a member out does not send it back. -/
  kept : ∀ (e : Edit α) (name : α) (group : Nat), e.Distinct → ¬ e.Removes name →
    g.priorityOf name = some group →
    ∃ group', (g.edit e).priorityOf name = some group' ∧ group' ≤ group
  /-- While a name stays assigned its group number never rises. -/
  run : ∀ (es : List (Edit α)) (name : α), (∀ e ∈ es, e.Distinct) →
    (∀ done, done <+: es → ((g.run done).priorityOf name).isSome = true) →
    ∀ earlier later, earlier <+: later → later <+: es → ∃ i j,
      (g.run earlier).priorityOf name = some i ∧ (g.run later).priorityOf name = some j ∧ j ≤ i
  add : ∀ name, g.priorityOf name = none →
    ∃ group, (g.add name).1 = group ∧ g.Joined (g.add name).2 name group
  remove : ∀ name group, g.priorityOf name = some group →
    (g.remove name).1 = some group ∧ ∃ last, g.Left (g.remove name).2 name last

theorem Tidy.steady {g : Grouping α} (h : g.Tidy) : g.Steady where
  listed es hes name group := (h.run hes).mem_members
  kept e name group _ he hname := h.priorityOf_edit hname he
  run := by
    rintro es name hes hstays earlier later ⟨rest, rfl⟩ hlater
    have hdistinct : ∀ e ∈ earlier ++ rest, e.Distinct := fun e he => hes e (hlater.subset he)
    have hkept := h.forall_not_removes hdistinct fun done hdone => hstays done (hdone.trans hlater)
    obtain ⟨i, hi⟩ := Option.isSome_iff_exists.1
      (hstays earlier ((List.prefix_append earlier rest).trans hlater))
    have hrun := h.run fun e he => hdistinct e (List.mem_append_left _ he)
    obtain ⟨j, hj, hle⟩ := hrun.priorityOf_run
      (fun e he => hdistinct e (List.mem_append_right _ he)) hi
      (fun e he => hkept e (List.mem_append_right _ he))
    exact ⟨i, j, hi, by rw [run_append, hj], hle⟩
  add name hnew := h.joined_add hnew
  remove name group hname := by
    obtain ⟨position, -, hfound⟩ := h.findIdx?_members hname
    exact ⟨by rw [remove_eq hname hfound], h.left_remove hname⟩

end ResourceSelection.Grouping
