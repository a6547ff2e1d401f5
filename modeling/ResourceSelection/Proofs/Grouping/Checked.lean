import ResourceSelection.Proofs.Grouping.Filling

/-!
# No look-up of a group fails

The operations of a grouping look groups up by number, and a number without a group would have them
read an empty group or drop a name. Here they are told once more in a way that hides nothing: a
look-up of a group that is not there ends the operation without an answer, and so do a draw from an
empty group and a position outside of one. The promotions after a removal get a number of rounds,
and there is no answer if these run out.

In a grouping with sound places all of these have an answer, and it is the one that the operations
proper give. The rounds that a removal needs are bounded by the number of core groups, since every
promotion moves the gap to a later group.
-/

namespace ResourceSelection.Grouping

variable {α : Type}

/-! ## Operations that insist on their groups -/

namespace Checked

def underfilled (g : Grouping α) (group : Nat) : Option Bool := do
  let members ← g.groups[group]?
  let target ← g.coreSizes[group]?
  return members.length < target

def firstUnderfilled (g : Grouping α) : Option (Option Nat) :=
  (List.range g.coreSizes.length).findM? (underfilled g)

/-- The group that owns a position, of the given ones in a row and the last group. -/
def owner (g : Grouping α) : List Nat → Nat → Option Nat
  | [], _ => some g.lastGroup
  | group :: rest, position => do
    let members ← g.groups[group]?
    if position < members.length then some group else owner g rest (position - members.length)

def nextDonor (g : Grouping α) (group : Nat) : Option (Option Nat) :=
  (List.range' (group + 1) (g.groups.length - (group + 1))).findM? fun donor => do
    let members ← g.groups[donor]?
    return !members.isEmpty

variable [DecidableEq α]

def place (g : Grouping α) (name : α) (group : Nat) : Option (Grouping α) := do
  guard (group < g.groups.length)
  return g.place name group

def assignInitial (g : Grouping α) (names : List α) : Option (Grouping α) :=
  let (fresh, rng) := g.rng.shuffle (names.filter fun name => (g.priorityOf name).isNone)
  fresh.foldlM (fun g name => do
    let first ← firstUnderfilled g
    place g name (first.getD g.lastGroup)) { g with rng }

def add (g : Grouping α) (name : α) : Option (Nat × Grouping α) :=
  match g.priorityOf name with
  | some priority => some (priority, g)
  | none => do
    match ← firstUnderfilled g with
    | some group =>
      let g ← place g name group
      return (toPriority group, g)
    | none =>
      let (position, rng) := g.rng.below (g.size + 1)
      let group ← owner g (List.range g.coreSizes.length) position
      let g ← place { g with rng } name group
      return (toPriority group, g)

def promote (g : Grouping α) (group donor : Nat) : Option (Grouping α) := do
  let members ← g.groups[donor]?
  guard (0 < members.length)
  guard ((g.rng.below members.length).1 < members.length)
  guard (group < g.groups.length)
  return g.promote group donor

/-- Promotes members until no group is short of one, in the given number of rounds. -/
def refill : Nat → Grouping α → Nat → Option (Grouping α)
  | 0, _, _ => none
  | rounds + 1, g, group =>
    if group < g.coreSizes.length then do
      if ← underfilled g group then
        match ← nextDonor g group with
        | none => some g
        | some donor =>
          let g ← promote g group donor
          refill rounds g donor
      else some g
    else some g

def remove (g : Grouping α) (name : α) : Option (Option Nat × Grouping α) :=
  match g.priorityOf name with
  | none => some (none, g)
  | some group => do
    let members ← g.groups[group]?
    let g := g.unlist name
    let g := match members.findIdx? fun member => member = name with
      | some position => { g with groups := g.groups.modify group (swapRemove · position) }
      | none => g
    let g ← refill (g.coreSizes.length + 1) g group
    return (some group, g)

def edit (g : Grouping α) : Edit α → Option (Grouping α)
  | .assign names => assignInitial g names
  | .add name => (add g name).map (·.2)
  | .remove name => (remove g name).map (·.2)

def run (es : List (Edit α)) (g : Grouping α) : Option (Grouping α) := es.foldlM edit g

end Checked

/-! ## Searches -/

/-- A search whose tests all have an answer is a search. -/
theorem findM?_eq_some {p : Nat → Option Bool} {q : Nat → Bool} {numbers : List Nat}
    (h : ∀ i ∈ numbers, p i = some (q i)) : numbers.findM? p = some (numbers.find? q) := by
  induction numbers with
  | nil => rfl
  | cons i rest ih =>
      obtain ⟨hi, hrest⟩ := List.forall_mem_cons.1 h
      rw [List.findM?, hi, List.find?_cons]
      cases q i with
      | true => rfl
      | false => exact ih hrest

section

variable {g : Grouping α}

theorem getElem?_groups {group : Nat} (h : group < g.groups.length) :
    g.groups[group]? = some (g.members group) := by
  rw [members, List.getD_eq_getElem _ _ h, List.getElem?_eq_getElem h]

variable (hlength : g.groups.length = g.coreSizes.length + 1)
include hlength

theorem checked_underfilled {group : Nat} (h : group < g.coreSizes.length) :
    Checked.underfilled g group = some (decide (g.Underfilled group)) := by
  have htarget : g.coreSizes.getD group 0 = g.coreSizes[group] := List.getD_eq_getElem _ _ h
  unfold Checked.underfilled
  rw [getElem?_groups (by omega), List.getElem?_eq_getElem h, ← htarget]
  rfl

theorem checked_firstUnderfilled : Checked.firstUnderfilled g = some g.firstUnderfilled :=
  findM?_eq_some fun _ hgroup => checked_underfilled hlength (List.mem_range.1 hgroup)

omit hlength in
theorem checked_owner {count : Nat} {rest after : List (List α)}
    (hrest : g.groups.drop count = rest ++ after) (hcount : count + rest.length = g.coreSizes.length)
    (position : Nat) : Checked.owner g (List.range' count rest.length) position =
      some (groupOwning count (rest.map List.length) position) := by
  induction rest generalizing count position with
  | nil =>
      have hlast : count = g.coreSizes.length := by simpa using hcount
      rw [hlast]
      rfl
  | cons members rest ih =>
      rw [List.length_cons] at hcount
      have hmembers : g.groups[count]? = some members := by
        have := congrArg List.head? hrest
        simpa [List.head?_drop] using this
      have htail : g.groups.drop (count + 1) = rest ++ after := by
        rw [← List.tail_drop, hrest]
        rfl
      rw [List.length_cons, List.range'_succ, Checked.owner, hmembers, List.map_cons, groupOwning]
      show ite _ _ _ = _
      split
      · rfl
      · exact ih htail (by omega) _

theorem checked_groupAt (position : Nat) :
    Checked.owner g (List.range g.coreSizes.length) position = some (g.groupAt position) := by
  have htake : (g.groups.take g.coreSizes.length).length = g.coreSizes.length := by
    rw [List.length_take]
    omega
  have hsplit : g.groups.drop 0 =
      g.groups.take g.coreSizes.length ++ g.groups.drop g.coreSizes.length :=
    (List.take_append_drop _ _).symm
  have howner := checked_owner hsplit (by omega) position
  rwa [htake, ← List.range_eq_range'] at howner

end

theorem checked_nextDonor (g : Grouping α) (group : Nat) :
    Checked.nextDonor g group = some ((g.nextDonor? group).map (·.1)) := by
  have hmem {i : Nat} : i ∈ List.range' (group + 1) (g.groups.length - (group + 1)) ↔
      group < i ∧ i < g.groups.length := by
    rw [List.mem_range'_1]
    omega
  have hlook : ∀ donor ∈ List.range' (group + 1) (g.groups.length - (group + 1)),
      (do
        let members ← g.groups[donor]?
        return !members.isEmpty) = some !(g.members donor).isEmpty := by
    intro donor hdonor
    rw [getElem?_groups (hmem.1 hdonor).2]
    rfl
  unfold Checked.nextDonor
  rw [findM?_eq_some hlook]
  congr 1
  cases hsearch : g.nextDonor? group with
  | none =>
      rw [List.find?_eq_none.2 fun i hi => by simp [nextDonor?_eq_none hsearch (hmem.1 hi).1]]
      rfl
  | some donor =>
      obtain ⟨donor, hlt⟩ := donor
      obtain ⟨hmembers, hbetween⟩ := nextDonor?_eq_some hsearch
      have hin : donor < g.groups.length := by
        by_contra hge
        exact hmembers (members_eq_nil_of_ge (by omega))
      rw [Option.map_some, List.find?_range'_eq_some]
      refine ⟨by simpa using hmembers, hmem.2 ⟨hlt, hin⟩, fun i hi hi' => ?_⟩
      simp [hbetween i (by omega) hi']

/-! ## Operations -/

variable [DecidableEq α]

theorem checked_place {g : Grouping α} {group : Nat} (h : group < g.groups.length) (name : α) :
    Checked.place g name group = some (g.place name group) := by
  unfold Checked.place
  rw [guard, if_pos h]
  rfl

theorem checked_seat {g : Grouping α} (hlength : g.groups.length = g.coreSizes.length + 1)
    (name : α) : (do
      let first ← Checked.firstUnderfilled g
      Checked.place g name (first.getD g.lastGroup)) = some (g.seat name) := by
  rw [checked_firstUnderfilled hlength]
  exact checked_place (lt_length_of_firstUnderfilled hlength) name

theorem checked_assignInitial {g : Grouping α} (hlength : g.groups.length = g.coreSizes.length + 1)
    (names : List α) : Checked.assignInitial g names = some (g.assignInitial names) := by
  have hfold (fresh : List α) (g : Grouping α) (hlength : g.groups.length = g.coreSizes.length + 1) :
      fresh.foldlM (fun g name => do
        let first ← Checked.firstUnderfilled g
        Checked.place g name (first.getD g.lastGroup)) g = some (fresh.foldl seat g) := by
    induction fresh generalizing g with
    | nil => rfl
    | cons name rest ih =>
        rw [List.foldlM_cons, checked_seat hlength]
        exact ih (g.seat name) (by rw [length_groups_seat, coreSizes_seat, hlength])
  unfold Checked.assignInitial assignInitial
  generalize g.rng.shuffle _ = shuffled
  exact hfold shuffled.1 { g with rng := shuffled.2 } hlength

theorem checked_add {g : Grouping α} (hlength : g.groups.length = g.coreSizes.length + 1)
    (name : α) : Checked.add g name = some (g.add name) := by
  unfold Checked.add add
  generalize g.rng.below (g.size + 1) = draw
  cases g.priorityOf name with
  | some group => rfl
  | none =>
      rw [checked_firstUnderfilled hlength]
      cases hsearch : g.firstUnderfilled with
      | some group =>
          have hcore := (underfilled_of_firstUnderfilled hsearch).1.lt_length
          have hgroup : group < g.groups.length := by omega
          have hplace := checked_place hgroup name
          show (do let g ← Checked.place g name group; pure (toPriority group, g)) = _
          rw [hplace]
          rfl
      | none =>
          obtain ⟨position, rng⟩ := draw
          have hgroup : g.groupAt position < g.groups.length := by
            have := g.groupAt_le position
            omega
          have hplace := checked_place (g := { g with rng }) hgroup name
          show (do
            let group ← Checked.owner g (List.range g.coreSizes.length) position
            let g ← Checked.place { g with rng } name group
            pure (toPriority group, g)) = _
          rw [checked_groupAt hlength]
          show (do let g ← Checked.place _ name (g.groupAt position); pure (_, g)) = _
          rw [hplace]
          rfl

theorem checked_promote {g : Grouping α} {group donor : Nat} (hgroup : group < g.groups.length)
    (hdonor : g.members donor ≠ []) :
    Checked.promote g group donor = some (g.promote group donor) := by
  have hlt : donor < g.groups.length := by
    by_contra hge
    exact hdonor (members_eq_nil_of_ge (by omega))
  have hpos := List.length_pos_iff.2 hdonor
  have hpick := Rng.below_lt hpos g.rng
  unfold Checked.promote
  rw [getElem?_groups hlt]
  show (do
    guard (0 < (g.members donor).length)
    guard ((g.rng.below (g.members donor).length).1 < (g.members donor).length)
    guard (group < g.groups.length)
    pure (g.promote group donor) : Option (Grouping α)) = _
  rw [guard, if_pos hpos, guard, if_pos hpick, guard, if_pos hgroup]
  rfl

/-- The gap moves to a later group with every promotion, so there are no more rounds than groups. -/
theorem checked_refill {g : Grouping α} (h : g.Placed) {group rounds : Nat}
    (hrounds : g.coreSizes.length - group < rounds) :
    Checked.refill rounds g group = some (g.refill group) := by
  induction g, group using refill.induct generalizing rounds with
  | case1 g group hshort hnone =>
      obtain ⟨rounds, rfl⟩ : ∃ n, rounds = n + 1 := ⟨rounds - 1, by omega⟩
      rw [Checked.refill, if_pos hshort.1, checked_underfilled h.length_groups hshort.1,
        checked_nextDonor, hnone, refill, if_pos hshort, hnone]
      exact if_pos (decide_eq_true hshort.2)
  | case2 g group hshort donor hlt hsome ih =>
      obtain ⟨rounds, rfl⟩ : ∃ n, rounds = n + 1 := ⟨rounds - 1, by omega⟩
      obtain ⟨hmembers, -⟩ := nextDonor?_eq_some hsome
      have hgroup : group < g.groups.length := by
        rw [h.length_groups]
        omega
      have hfewer : (g.promote group donor).coreSizes.length - donor < rounds := by
        rw [coreSizes_promote]
        omega
      have hnext := ih (h.promote hgroup hmembers) hfewer
      rw [Checked.refill, if_pos hshort.1, checked_underfilled h.length_groups hshort.1,
        checked_nextDonor, hsome, refill, if_pos hshort, hsome]
      refine (if_pos (decide_eq_true hshort.2)).trans ?_
      show (do let g ← Checked.promote g group donor; Checked.refill rounds g donor) = _
      rw [checked_promote hgroup hmembers]
      exact hnext
  | case3 g group hdone =>
      obtain ⟨rounds, rfl⟩ : ∃ n, rounds = n + 1 := ⟨rounds - 1, by omega⟩
      rw [Checked.refill, refill, if_neg hdone]
      split
      · next hcore =>
          rw [checked_underfilled h.length_groups hcore]
          have hnot : ¬ g.Underfilled group := fun hunder => hdone ⟨hcore, hunder⟩
          exact if_neg (by simpa using hnot)
      · rfl

theorem checked_remove {g : Grouping α} (h : g.Placed) (name : α) :
    Checked.remove g name = some (g.remove name) := by
  cases hname : g.priorityOf name with
  | none =>
      unfold Checked.remove remove
      rw [hname]
  | some group =>
      obtain ⟨position, hposition, hfound⟩ := h.findIdx?_members hname
      have hrounds : (g.vacate name group position).coreSizes.length - group <
          g.coreSizes.length + 1 := by
        rw [coreSizes_vacate]
        omega
      have hrefill := checked_refill (h.vacate hposition) hrounds
      unfold Checked.remove
      rw [remove_eq hname hfound, hname]
      simp only [getElem?_groups (h.lt_length hname), Option.bind_eq_bind, Option.bind_some, hfound]
      show (do
        let g ← Checked.refill (g.coreSizes.length + 1) (g.vacate name group position) group
        pure (some group, g)) = _
      rw [hrefill]
      rfl

theorem checked_edit {g : Grouping α} (h : g.Placed) (e : Edit α) :
    Checked.edit g e = some (g.edit e) := by
  cases e with
  | assign names => exact checked_assignInitial h.length_groups names
  | add name =>
      show (Checked.add g name).map _ = _
      rw [checked_add h.length_groups]
      rfl
  | remove name =>
      show (Checked.remove g name).map _ = _
      rw [checked_remove h]
      rfl

theorem checked_run {g : Grouping α} (h : g.Tidy) {es : List (Edit α)}
    (hes : ∀ e ∈ es, e.Distinct) : Checked.run es g = some (g.run es) := by
  induction es generalizing g with
  | nil => rfl
  | cons e rest ih =>
      obtain ⟨he, hrest⟩ := List.forall_mem_cons.1 hes
      unfold Checked.run
      rw [List.foldlM_cons, checked_edit h.toPlaced]
      exact ih (h.edit he) hrest

/-! ## What a grouping always keeps -/

/-- What there is to see of a grouping with certain core sizes and certain names. -/
structure Orderly (coreSizes : List Nat) (names : List α) (g : Grouping α) : Prop where
  /-- There is a group for each core size, and one more. -/
  length_groups : g.groups.length = coreSizes.length + 1
  /-- The names are the assigned ones. -/
  assigned : ∀ name, (g.priorityOf name).isSome = true ↔ name ∈ names
  /-- An assigned name occurs in the group of its number, once, and a name occurs nowhere else. -/
  placed : ∀ name group,
    (g.members group).count name = if g.priorityOf name = some group then 1 else 0
  size : g.size = g.groupSizes.sum
  /-- Behind a core group below its target all groups are empty. -/
  filled : ∀ group target later, coreSizes[group]? = some target →
    (g.members group).length < target → group < later → g.members later = []

/-- Whatever is assigned, added and removed in whatever order, no look-up of a group fails, every
removal comes to an end, and the groups are in order. There may be as many groups as there are
priorities. -/
theorem orderly_run {coreSizes : List Nat} (hnumbered : coreSizes.length ≤ priorityLimit)
    (rng : Rng) {es : List (Edit α)} (hes : ∀ e ∈ es, e.Distinct) :
    ∃ g, Checked.run es (empty coreSizes rng) = some g ∧
      (empty coreSizes rng).run es = g ∧ g.Orderly coreSizes (assignedBy es) := by
  have hempty : (empty coreSizes rng : Grouping α).Tidy := tidy_empty hnumbered rng
  have htidy := hempty.run hes
  have hsizes : ((empty coreSizes rng).run es).coreSizes = coreSizes := coreSizes_run es _
  refine ⟨_, checked_run hempty hes, rfl, ?_, ?_, htidy.count, htidy.size_eq, ?_⟩
  · rw [htidy.length_groups, hsizes]
  · exact hempty.isSome_priorityOf_run hes (fun name => by simp [priorityOf, empty])
  · intro group target later htarget hlt
    refine htidy.filled group later ?_
    rwa [Underfilled, hsizes, List.getD_eq_getElem?_getD, htarget]

/-- So it is when one of two names leaves and another one comes. -/
theorem orderly_run_trio : [1].length ≤ priorityLimit ∧
    (∀ e ∈ [Edit.assign ["a", "b"], .remove "a", .add "c"], e.Distinct) ∧
    ∃ g, Checked.run [.assign ["a", "b"], .remove "a", .add "c"] (empty [1] ⟨0⟩) = some g ∧
      (empty [1] ⟨0⟩).run [.assign ["a", "b"], .remove "a", .add "c"] = g ∧
      g.Orderly [1] (assignedBy [.assign ["a", "b"], .remove "a", .add "c"]) := by
  have hnumbered : [1].length ≤ priorityLimit := by decide
  have hes : ∀ e ∈ [Edit.assign ["a", "b"], .remove "a", .add "c"], e.Distinct := by
    simp [Edit.Distinct]
  exact ⟨hnumbered, hes, orderly_run hnumbered ⟨0⟩ hes⟩

end ResourceSelection.Grouping
