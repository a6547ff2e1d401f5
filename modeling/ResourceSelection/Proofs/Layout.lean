import Mathlib.Data.List.Nodup
import ResourceSelection.Proofs.Frame

/-!
# How the registry and the groups fit together

The registry leads from names to states and the groups lead from priorities to states, and neither
knows of the other. What keeps them in step is `Selector.Layout`: every state has exactly one place
in exactly one group, that of its priority, and the registry finds it under its own name. Building
establishes the layout, changes do not touch what it is about, and a registration restores it after
taking the group of priority zero apart.
-/

namespace ResourceSelection

variable {ω : Type}

namespace Selector

/-- The registry and the groups tell the same story about the states. -/
structure Layout (s : Selector ω) : Prop where
  ascending : s.pools.Pairwise fun p q => p.priority < q.priority
  inhabited {p : GroupOf Nat ω} : p ∈ s.pools → p.members ≠ []
  placed : (s.pools.flatMap (·.members)).Perm (List.range s.states.length)
  priority {p : GroupOf Nat ω} {place : Nat} {r : Resource ω} :
    p ∈ s.pools → place ∈ p.members → s.states[place]? = some r → r.priority = p.priority
  registered {name : String} {place : Nat} :
    s.place? name = some place ↔ ∃ r, s.states[place]? = some r ∧ r.name = name

/-! ## What follows from it -/

namespace Layout

variable {s : Selector ω}

theorem lt_length (h : s.Layout) {p : GroupOf Nat ω} (hp : p ∈ s.pools) {place : Nat}
    (hplace : place ∈ p.members) : place < s.states.length :=
  List.mem_range.1 (h.placed.mem_iff.1 (List.mem_flatMap_of_mem hp hplace))

theorem state (h : s.Layout) {p : GroupOf Nat ω} (hp : p ∈ s.pools) {place : Nat}
    (hplace : place ∈ p.members) : ∃ r, s.states[place]? = some r :=
  ⟨_, List.getElem?_eq_getElem (h.lt_length hp hplace)⟩

/-- Every state belongs to a group. -/
theorem exists_pool (h : s.Layout) {place : Nat} (hplace : place < s.states.length) :
    ∃ p ∈ s.pools, place ∈ p.members :=
  List.mem_flatMap.1 (h.placed.mem_iff.2 (List.mem_range.2 hplace))

theorem nodup_priorities (h : s.Layout) : (s.pools.map (·.priority)).Nodup :=
  List.pairwise_map.2 (h.ascending.imp Nat.ne_of_lt)

/-- Groups of one priority are one group. -/
theorem pool_unique (h : s.Layout) {p q : GroupOf Nat ω} (hp : p ∈ s.pools) (hq : q ∈ s.pools)
    (heq : p.priority = q.priority) : p = q :=
  List.inj_on_of_nodup_map h.nodup_priorities hp hq heq

/-- A name has one state. -/
theorem place_unique (h : s.Layout) {i j : Nat} {r r' : Resource ω} (hr : s.states[i]? = some r)
    (hr' : s.states[j]? = some r') (heq : r.name = r'.name) : i = j :=
  Option.some.inj ((h.registered.2 ⟨r, hr, heq⟩).symm.trans (h.registered.2 ⟨r', hr', rfl⟩))

/-- A name is registered if some state bears it. -/
theorem entry?_eq_some (h : s.Layout) {name : String} {place : Nat} {r : Resource ω} :
    s.entry? name = some (place, r) ↔ s.states[place]? = some r ∧ r.name = name := by
  unfold entry?
  constructor
  · intro hentry
    have hr := states_of_entry? hentry
    have hplace := place?_of_entry? hentry
    obtain ⟨t, ht, hname⟩ := h.registered.1 hplace
    obtain rfl := Option.some.inj (hr.symm.trans ht)
    exact ⟨hr, hname⟩
  · rintro ⟨hr, hname⟩
    rw [h.registered.2 ⟨r, hr, hname⟩, Option.bind_some, hr, Option.map_some]

theorem find?_eq_some (h : s.Layout) {name : String} {r : Resource ω} :
    s.find? name = some r ↔ ∃ place : Nat, s.states[place]? = some r ∧ r.name = name := by
  unfold find?
  rw [Option.map_eq_some_iff]
  constructor
  · rintro ⟨⟨place, t⟩, hentry, rfl⟩
    exact ⟨place, h.entry?_eq_some.1 hentry⟩
  · rintro ⟨place, hr⟩
    exact ⟨(place, r), h.entry?_eq_some.2 hr, rfl⟩

theorem mem_of_find? (h : s.Layout) {name : String} {r : Resource ω} (hr : s.find? name = some r) :
    r ∈ s.states ∧ r.name = name := by
  obtain ⟨place, hplace, hname⟩ := h.find?_eq_some.1 hr
  exact ⟨List.mem_of_getElem? hplace, hname⟩

end Layout

/-! ## Changes -/

theorem Layout.frame [Scalar ω] {s t : Selector ω} (h : s.Layout) (hf : s.Frame t) :
    t.Layout where
  ascending := by
    have hmap := List.pairwise_map.2 h.ascending
    rw [← hf.priorities] at hmap
    exact List.pairwise_map.1 hmap
  inhabited hp := by
    obtain ⟨q, hq, -, hmembers⟩ := hf.pool hp
    rw [← hmembers]
    exact h.inhabited hq
  placed := by
    rw [List.flatMap_def, hf.members, hf.length]
    exact h.placed
  priority hp hplace hr := by
    obtain ⟨q, hq, hpriority, hmembers⟩ := hf.pool hp
    obtain ⟨r', hr', hkept⟩ := hf.kept hr
    rw [hkept.priority, ← hpriority]
    exact h.priority hq (hmembers ▸ hplace) hr'
  registered := by
    intro name place
    unfold place?
    rw [hf.registry]
    refine h.registered.trans ⟨?_, ?_⟩
    · rintro ⟨r, hr, hname⟩
      obtain ⟨r', hr', hkept⟩ := hf.became hr
      exact ⟨r', hr', hkept.name.trans hname⟩
    · rintro ⟨r, hr, hname⟩
      obtain ⟨r', hr', hkept⟩ := hf.kept hr
      exact ⟨r', hr', hkept.name.symm.trans hname⟩

/-! ## Registration -/

theorem getElem?_concat {α : Type} {xs : List α} {x y : α} {i : Nat} :
    (xs ++ [x])[i]? = some y ↔ xs[i]? = some y ∨ i = xs.length ∧ y = x := by
  rcases Nat.lt_trichotomy i xs.length with hlt | rfl | hgt
  · rw [List.getElem?_append_left hlt]
    simp [Nat.ne_of_lt hlt]
  · rw [List.getElem?_concat_length, List.getElem?_eq_none (Nat.le_refl _)]
    simp [eq_comm]
  · rw [List.getElem?_eq_none (by simp; omega), List.getElem?_eq_none (Nat.le_of_lt hgt)]
    simp [Nat.ne_of_gt hgt]

/-- Sorting by different keys gives strictly ascending keys. -/
theorem ascending_mergeSort {α : Type} (key : α → Nat) {xs : List α}
    (h : xs.Pairwise fun a b => key a ≠ key b) :
    (xs.mergeSort fun a b => key a ≤ key b).Pairwise fun a b => key a < key b := by
  have hle : (xs.mergeSort fun a b => key a ≤ key b).Pairwise fun a b =>
      decide (key a ≤ key b) = true :=
    List.pairwise_mergeSort (fun a b c hab hbc => by simp at hab hbc ⊢; omega)
      (fun a b => by simp; omega) _
  have hne : (xs.mergeSort fun a b => key a ≤ key b).Pairwise fun a b => key a ≠ key b :=
    ((List.mergeSort_perm _ _).pairwise_iff fun hne => hne.symm).2 h
  exact hle.imp₂ (fun a b hab hab' => Nat.lt_of_le_of_ne (by simpa using hab) hab') hne

/-- Among groups in ascending priority those of one priority are at most one. -/
theorem filter_priority {pools : List (GroupOf Nat ω)}
    (h : pools.Pairwise fun p q => p.priority < q.priority) (priority : Nat) :
    (pools.filter fun p => p.priority = priority) =
      (pools.find? fun p => p.priority = priority).toList := by
  induction pools with
  | nil => rfl
  | cons p rest ih =>
      obtain ⟨hlt, hrest⟩ := List.pairwise_cons.1 h
      by_cases hp : p.priority = priority
      · have hnone : (rest.filter fun q => q.priority = priority) = [] := by
          rw [List.filter_eq_nil_iff]
          intro q hq
          have := hlt q hq
          simp only [decide_eq_true_eq]
          omega
        rw [List.filter_cons_of_pos (by simpa using hp), hnone,
          List.find?_cons_of_pos (by simpa using hp), Option.toList_some]
      · rw [List.filter_cons_of_neg (by simpa using hp),
          List.find?_cons_of_neg (by simpa using hp), ih hrest]

theorem membersOf_eq (s : Selector ω) (h : s.Layout) (priority : Nat) :
    s.membersOf priority =
      (s.pools.filter fun p => p.priority = priority).flatMap (·.members) := by
  rw [filter_priority h.ascending]
  unfold membersOf
  cases s.pools.find? fun p => p.priority = priority with
  | none => rfl
  | some p => rw [Option.toList_some, List.flatMap_singleton]

theorem mem_membersOf {s : Selector ω} {priority place : Nat} (h : place ∈ s.membersOf priority) :
    ∃ p ∈ s.pools, p.priority = priority ∧ place ∈ p.members := by
  unfold membersOf at h
  split at h
  · next p hfind =>
      exact ⟨p, List.mem_of_find?_eq_some hfind, by simpa using List.find?_some hfind, h⟩
  · exact absurd h List.not_mem_nil

section

open scoped List

variable [Scalar ω]

/-- The newcomer's state. -/
def newcomer (name : String) (weight : ω) (s : Selector ω) : Resource ω :=
  .ofDeclaration name (.ofWeight weight) s.settings.countsCalls

theorem place?_register (name other : String) (weight : ω) (s : Selector ω) :
    (s.register name weight).place? other =
      if other = name then some s.states.length else s.place? other := by
  show List.lookup other ((name, s.states.length) :: s.registry) = _
  rw [List.lookup_cons]
  split
  · next hbeq => rw [if_pos (beq_iff_eq.1 hbeq)]
  · next hbeq =>
      rw [if_neg (beq_eq_false_iff_ne.1 hbeq)]
      rfl

theorem states_register (name : String) (weight : ω) (s : Selector ω) :
    (s.register name weight).states = s.states ++ [s.newcomer name weight] := rfl

/-- The group that a newcomer joins. -/
def joined (name : String) (weight : ω) (s : Selector ω) : GroupOf Nat ω :=
  poolOf (s.register name weight).states 0 (s.membersOf 0 ++ [s.states.length])
    s.settings.aliasThreshold

theorem pools_register_perm (name : String) (weight : ω) (s : Selector ω) :
    (s.register name weight).pools.Perm
      ((s.pools.filter fun p => p.priority ≠ 0) ++ [s.joined name weight]) :=
  List.mergeSort_perm _ _

theorem mem_pools_register {name : String} {weight : ω} {s : Selector ω} {p : GroupOf Nat ω} :
    p ∈ (s.register name weight).pools ↔
      p ∈ s.pools ∧ p.priority ≠ 0 ∨ p = s.joined name weight := by
  rw [(pools_register_perm name weight s).mem_iff, List.mem_append, List.mem_filter,
    List.mem_singleton, decide_eq_true_iff]

theorem ascending_register {s : Selector ω} (h : s.Layout) (name : String) (weight : ω) :
    (s.register name weight).pools.Pairwise fun p q => p.priority < q.priority := by
  refine ascending_mergeSort GroupOf.priority (List.pairwise_append.2 ⟨?_, ?_, ?_⟩)
  · exact (h.ascending.imp Nat.ne_of_lt).filter _
  · exact List.pairwise_singleton _ _
  · intro p hp q hq
    obtain rfl := List.mem_singleton.1 hq
    show p.priority ≠ 0
    simpa using (List.mem_filter.1 hp).2

/-- A registration of a name not known before keeps the layout. -/
theorem Layout.register {s : Selector ω} (h : s.Layout) {name : String} (weight : ω)
    (hnew : s.place? name = none) : (s.register name weight).Layout where
  ascending := ascending_register h name weight
  inhabited hp := by
    rcases mem_pools_register.1 hp with ⟨hold, -⟩ | rfl
    · exact h.inhabited hold
    · exact List.append_ne_nil_of_right_ne_nil _ (List.cons_ne_nil _ _)
  placed := by
    -- the group of priority zero is taken out and put back with one place more
    have hsplit := (List.filter_append_perm (fun p => decide (p.priority = 0)) s.pools).flatMap_right
      (·.members)
    calc (s.register name weight).pools.flatMap (·.members)
        ~ ((s.pools.filter fun p => p.priority ≠ 0) ++ [s.joined name weight]).flatMap
            (·.members) := (pools_register_perm name weight s).flatMap_right _
      _ = (s.pools.filter fun p => p.priority ≠ 0).flatMap (·.members) ++
            (s.membersOf 0 ++ [s.states.length]) := by
          rw [List.flatMap_append, List.flatMap_singleton]
          rfl
      _ ~ s.pools.flatMap (·.members) ++ [s.states.length] := by
          rw [membersOf_eq s h, ← List.append_assoc]
          refine List.Perm.append_right _ (.trans List.perm_append_comm ?_)
          simpa using hsplit
      _ ~ List.range (s.states.length + 1) := by
          rw [List.range_succ]
          exact h.placed.append_right _
      _ = List.range (s.register name weight).states.length := by
          rw [states_register, List.length_append, List.length_singleton]
  priority hp hplace hr := by
    rw [states_register] at hr
    rcases mem_pools_register.1 hp with ⟨hold, -⟩ | rfl
    · rw [List.getElem?_append_left (h.lt_length hold hplace)] at hr
      exact h.priority hold hplace hr
    · rcases List.mem_append.1 hplace with hmember | hlast
      · obtain ⟨q, hq, hzero, hmem⟩ := mem_membersOf hmember
        rw [List.getElem?_append_left (h.lt_length hq hmem)] at hr
        exact (h.priority hq hmem hr).trans hzero
      · rw [List.mem_singleton.1 hlast, List.getElem?_concat_length] at hr
        cases hr
        rfl
  registered := by
    intro other place
    rw [place?_register, states_register]
    split
    · next hother =>
        subst hother
        constructor
        · intro heq
          cases heq
          exact ⟨_, List.getElem?_concat_length, rfl⟩
        · rintro ⟨r, hr, hname⟩
          -- an older state of this name would have been found before
          rcases getElem?_concat.1 hr with hold | ⟨rfl, -⟩
          · rw [h.registered.2 ⟨r, hold, hname⟩] at hnew
            exact absurd hnew (Option.some_ne_none _)
          · rfl
    · next hother =>
        refine h.registered.trans ⟨?_, ?_⟩
        · rintro ⟨r, hr, hname⟩
          exact ⟨r, getElem?_concat.2 (.inl hr), hname⟩
        · rintro ⟨r, hr, hname⟩
          rcases getElem?_concat.1 hr with hold | ⟨-, rfl⟩
          · exact ⟨r, hold, hname⟩
          · exact absurd hname.symm hother

end

end Selector

/-! ## Building -/

theorem nodup_eraseDups (xs : List Nat) : xs.eraseDups.Nodup := by
  match xs with
  | [] => exact List.nodup_nil
  | x :: rest =>
      rw [List.eraseDups_cons, List.nodup_cons]
      exact ⟨by simp, nodup_eraseDups _⟩
termination_by xs.length
decreasing_by exact Nat.lt_succ_of_le (List.length_filter_le _ rest)

/-- Numbered names are found at their places, each name coming once. -/
theorem lookup_zipIdx {names : List String} (h : names.Nodup) {name : String} {start place : Nat} :
    (names.zipIdx start).lookup name = some place ↔
      ∃ i, place = start + i ∧ names[i]? = some name := by
  induction names generalizing start with
  | nil => simp
  | cons first rest ih =>
      obtain ⟨hfirst, hrest⟩ := List.nodup_cons.1 h
      rw [List.zipIdx_cons, List.lookup_cons]
      split
      · next hbeq =>
          obtain rfl := beq_iff_eq.1 hbeq
          constructor
          · intro heq
            exact ⟨0, (Option.some.inj heq).symm, rfl⟩
          · rintro ⟨_ | i, rfl, hi⟩
            · rfl
            · have hmem : name ∈ rest := List.mem_of_getElem? hi
              exact absurd hmem hfirst
      · next hbeq =>
          rw [ih hrest]
          constructor
          · rintro ⟨i, rfl, hi⟩
            exact ⟨i + 1, by omega, hi⟩
          · rintro ⟨_ | i, rfl, hi⟩
            · exact absurd (Option.some.inj hi).symm (beq_eq_false_iff_ne.1 hbeq)
            · exact ⟨i, by omega, hi⟩

namespace Builder

theorem mem_placesOf {states : List (Resource ω)} {priority place : Nat} :
    place ∈ placesOf states priority ↔ ∃ r, states[place]? = some r ∧ r.priority = priority := by
  unfold placesOf
  rw [List.mem_filter, List.mem_range, Option.any_eq_true]
  constructor
  · rintro ⟨-, r, hr, hpriority⟩
    exact ⟨r, hr, of_decide_eq_true hpriority⟩
  · rintro ⟨r, hr, hpriority⟩
    exact ⟨(List.getElem?_eq_some_iff.1 hr).1, r, hr, decide_eq_true hpriority⟩

theorem mem_priorities {states : List (Resource ω)} {priority : Nat} :
    priority ∈ priorities states ↔ ∃ r ∈ states, r.priority = priority := by
  unfold priorities
  rw [List.mem_mergeSort, List.mem_eraseDups, List.mem_map]

theorem ascending_priorities (states : List (Resource ω)) :
    (priorities states).Pairwise (· < ·) :=
  Selector.ascending_mergeSort id (nodup_eraseDups _)

theorem placed_priorities (states : List (Resource ω)) :
    ((priorities states).flatMap (placesOf states)).Perm (List.range states.length) := by
  rw [List.perm_ext_iff_of_nodup ?_ List.nodup_range]
  · intro place
    rw [List.mem_flatMap, List.mem_range]
    constructor
    · rintro ⟨priority, -, hplace⟩
      obtain ⟨r, hr, -⟩ := mem_placesOf.1 hplace
      exact (List.getElem?_eq_some_iff.1 hr).1
    · intro hlt
      have hr := List.getElem?_eq_getElem hlt
      exact ⟨_, mem_priorities.2 ⟨_, List.mem_of_getElem? hr, rfl⟩, mem_placesOf.2 ⟨_, hr, rfl⟩⟩
  · rw [List.nodup_flatMap]
    refine ⟨fun _ _ => List.nodup_range.filter _, (ascending_priorities states).imp ?_⟩
    intro a b hab place ha hb
    obtain ⟨r, hr, rfl⟩ := mem_placesOf.1 ha
    obtain ⟨r', hr', rfl⟩ := mem_placesOf.1 hb
    obtain rfl := Option.some.inj (hr.symm.trans hr')
    exact Nat.lt_irrefl _ hab

variable [Scalar ω]

theorem groupUp_members (aliasThreshold : Nat) (states : List (Resource ω)) :
    (groupUp aliasThreshold states).flatMap (·.members) =
      (priorities states).flatMap (placesOf states) := by
  unfold groupUp
  rw [List.flatMap_map]
  rfl

theorem states_toSelector (b : Builder ω) (id place : Nat) :
    (b.toSelector id).states[place]? = (b.resources[place]?).map fun entry =>
      Resource.ofDeclaration entry.1 entry.2 b.settings.countsCalls := by
  unfold toSelector
  rw [List.getElem?_map]

/-- A selector built of resources with different names has the layout. -/
theorem layout_toSelector {b : Builder ω} (h : (b.resources.map (·.1)).Nodup) (id : Nat) :
    (b.toSelector id).Layout where
  ascending := List.pairwise_map.2 (ascending_priorities _)
  inhabited hp := by
    obtain ⟨priority, hpriority, rfl⟩ := List.mem_map.1 hp
    obtain ⟨r, hr, heq⟩ := mem_priorities.1 hpriority
    obtain ⟨place, hplace⟩ := List.mem_iff_getElem?.1 hr
    exact List.ne_nil_of_mem (mem_placesOf.2 ⟨r, hplace, heq⟩)
  placed := by
    show ((groupUp _ _).flatMap (·.members)).Perm _
    rw [groupUp_members]
    exact placed_priorities _
  priority hp hplace hr := by
    obtain ⟨priority, -, rfl⟩ := List.mem_map.1 hp
    obtain ⟨r', hr', heq⟩ := mem_placesOf.1 hplace
    obtain rfl := Option.some.inj (hr.symm.trans hr')
    exact heq
  registered := by
    intro name place
    refine (lookup_zipIdx h).trans ?_
    rw [states_toSelector]
    constructor
    · rintro ⟨i, rfl, hi⟩
      rw [Nat.zero_add]
      rw [List.getElem?_map] at hi
      obtain ⟨entry, hentry, rfl⟩ := Option.map_eq_some_iff.1 hi
      exact ⟨_, Option.map_eq_some_iff.2 ⟨entry, hentry, rfl⟩, rfl⟩
    · rintro ⟨r, hr, rfl⟩
      obtain ⟨entry, hentry, rfl⟩ := Option.map_eq_some_iff.1 hr
      refine ⟨place, (Nat.zero_add _).symm, ?_⟩
      rw [List.getElem?_map, hentry]
      rfl

end Builder

end ResourceSelection
