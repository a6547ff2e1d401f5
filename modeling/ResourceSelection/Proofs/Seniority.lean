import ResourceSelection.Proofs.Continuity
import ResourceSelection.Proofs.Grouping.Promotions

/-!
# Members keep their rank

A manager with a grouping hands every change of its membership on to the grouping, name by name: the
names that leave are taken out, and the names that are declared are added, which changes nothing for
those that have a group already (`Membership.grouping_change`). So a member that no change drops
stays assigned, and its group number can only fall. The selector of the moment has it registered
under that number. It is built that way, and no later call changes the priority of a resource that
is registered (`Selector.Ranks`).

All this is about members. A name that is registered because somebody reported a call to it has no
group, and stands at priority 0 until a change declares it.
-/

namespace ResourceSelection

variable {ω : Type}

/-! ## A change of the membership is a run of edits -/

/-- Adding names one after the other assigns them all, and takes none out. -/
theorem Grouping.isSome_priorityOf_run_add {α : Type} [DecidableEq α] (names : List α)
    (g : Grouping α) (name : α) : ((g.run (names.map .add)).priorityOf name).isSome = true ↔
      (g.priorityOf name).isSome = true ∨ name ∈ names := by
  induction names generalizing g with
  | nil => simp [run]
  | cons first rest ih =>
      show (((g.add first).2.run (rest.map .add)).priorityOf name).isSome = true ↔ _
      rw [ih, isSome_priorityOf_add, List.mem_cons, or_assoc]

namespace Membership

/-- The edits that a change asks of the grouping. -/
def edits (remove : List String) (entries : List (String × Declaration ω)) :
    List (Grouping.Edit String) :=
  remove.map .remove ++ (entries.map (·.1)).map .add

theorem distinct_of_mem_edits {remove : List String} {entries : List (String × Declaration ω)}
    {e : Grouping.Edit String} (h : e ∈ edits remove entries) : e.Distinct := by
  rcases List.mem_append.1 h with h | h
  · obtain ⟨name, -, rfl⟩ := List.mem_map.1 h
    trivial
  · obtain ⟨name, -, rfl⟩ := List.mem_map.1 h
    trivial

theorem not_removes_of_mem_edits {remove : List String} {entries : List (String × Declaration ω)}
    {name : String} (hname : name ∉ remove) {e : Grouping.Edit String}
    (h : e ∈ edits remove entries) : ¬ e.Removes name := by
  rcases List.mem_append.1 h with h | h
  · obtain ⟨other, hother, rfl⟩ := List.mem_map.1 h
    rintro rfl
    exact hname hother
  · obtain ⟨other, -, rfl⟩ := List.mem_map.1 h
    exact id

theorem grouping_change (m : Membership ω) (remove : List String)
    (entries : List (String × Declaration ω)) (rank : String → Nat) :
    (m.change remove entries rank).grouping =
      m.grouping.map fun g => g.run (edits remove entries) := by
  have hremove (m : Membership ω) (names : List String) :
      (m.removeAll names).grouping = m.grouping.map fun g => g.run (names.map .remove) := by
    induction names generalizing m with
    | nil => exact (Option.map_id' ..).symm
    | cons name rest ih =>
        refine (ih _).trans ?_
        rw [Option.map_map]
        rfl
  have hadd (m : Membership ω) (entries : List (String × Declaration ω)) :
      (m.addAll entries).grouping =
        m.grouping.map fun g => g.run ((entries.map (·.1)).map .add) := by
    induction entries generalizing m with
    | nil => exact (Option.map_id' ..).symm
    | cons entry rest ih =>
        refine (ih _).trans ?_
        rw [Option.map_map]
        rfl
  show ((m.removeAll remove).addAll entries).grouping = _
  rw [hadd, hremove, Option.map_map]
  refine congrArg (fun f => m.grouping.map f) (funext fun g => ?_)
  exact (g.run_append _ _).symm

theorem mem_names_change {m : Membership ω} {remove : List String}
    {entries : List (String × Declaration ω)} {rank : String → Nat} {name : String} :
    name ∈ (m.change remove entries rank).roster.names ↔
      name ∈ entries.map (·.1) ∨ name ∈ m.roster.names ∧ name ∉ remove := by
  rw [← Roster.isSome_get?, get?_change]
  refine Declarations.isSome_override.trans (or_congr_right ?_)
  rw [← Roster.isSome_get?]
  unfold Declarations.without
  by_cases h : name ∈ remove
  · simp [h]
  · simp [h]

/-- The grouping is in order and has a group for every member. -/
structure Hosts (m : Membership ω) (g : Grouping String) : Prop where
  grouping : m.grouping = some g
  tidy : g.Tidy
  assigned {name : String} : name ∈ m.roster.names → (g.priorityOf name).isSome = true

theorem Hosts.change {m : Membership ω} {g : Grouping String} (h : m.Hosts g)
    (remove : List String) (entries : List (String × Declaration ω)) (rank : String → Nat) :
    (m.change remove entries rank).Hosts (g.run (edits remove entries)) where
  grouping := by rw [m.grouping_change, h.grouping, Option.map_some]
  tidy := h.tidy.run fun _ => distinct_of_mem_edits
  assigned := by
    intro name hname
    rcases mem_names_change.1 hname with hadded | ⟨hmember, hkept⟩
    · rw [edits, Grouping.run_append, Grouping.isSome_priorityOf_run_add]
      exact .inr hadded
    · obtain ⟨group, hgroup⟩ := Option.isSome_iff_exists.1 (h.assigned hmember)
      obtain ⟨group', hgroup', -⟩ := h.tidy.priorityOf_run (fun _ => distinct_of_mem_edits) hgroup
        (fun _ he => not_removes_of_mem_edits hkept he)
      rw [hgroup', Option.isSome_some]

/-- A roster that a grouping in order is asked to take in. -/
theorem hosts_assignInitial {roster : Roster ω} (hnodup : roster.names.Nodup)
    {g : Grouping String} (h : g.Tidy) :
    Hosts ⟨roster, some (g.assignInitial roster.names)⟩ (g.assignInitial roster.names) where
  grouping := rfl
  tidy := h.assignInitial hnodup
  assigned hname := (g.isSome_priorityOf_assignInitial _ _).2 (.inr hname)

end Membership

/-! ## The selector of the moment -/

variable [Scalar ω]

/-- The selector has registered each of the names under the number of its group. -/
structure Selector.Ranks (s : Selector ω) (g : Grouping String) (names : List String) : Prop where
  layout : s.Layout
  ranked {name : String} : name ∈ names →
    ∃ r, s.find? name = some r ∧ g.priorityOf name = some r.priority

namespace Selector.Ranks

variable {s t : Selector ω} {g : Grouping String} {names : List String}

theorem frame (h : s.Ranks g names) (hf : s.Frame t) : t.Ranks g names where
  layout := h.layout.frame hf
  ranked := by
    intro name hname
    obtain ⟨r, hr, hpriority⟩ := h.ranked hname
    obtain ⟨place, hplace, rfl⟩ := h.layout.find?_eq_some.1 hr
    obtain ⟨r', hr', hkept⟩ := hf.became hplace
    refine ⟨r', (h.layout.frame hf).find?_eq_some.2 ⟨place, hr', hkept.name⟩, ?_⟩
    rw [hpriority, hkept.priority]

theorem register (h : s.Ranks g names) {name : String} (weight : ω)
    (hnew : s.place? name = none) : (s.register name weight).Ranks g names where
  layout := h.layout.register weight hnew
  ranked := by
    intro other hother
    obtain ⟨r, hr, hpriority⟩ := h.ranked hother
    refine ⟨r, ?_, hpriority⟩
    rw [find?_register h.layout weight hnew, if_neg]
    · exact hr
    · rintro rfl
      rw [h.layout.find?_eq_none_iff.2 hnew] at hr
      exact nomatch hr

theorem step [LawfulScalar ω] {s : System ω} (h : s.selector.Ranks g names) (e : Event ω) :
    (s.step e).selector.Ranks g names := by
  have hchanges := s.step_changes e
  rcases e.enrols_cases s.selector with heq | ⟨name, weight, hnew, -, heq⟩
  · rw [heq] at hchanges
    exact h.frame hchanges.frame
  · rw [heq] at hchanges
    exact (h.register weight hnew).frame hchanges.frame

end Selector.Ranks

theorem Membership.priority_declarationOf (m : Membership ω) (previous : Option (Selector ω))
    (name : String) (d : Declaration ω) : (m.declarationOf previous name d).priority =
      (m.grouping.bind (·.priorityOf name)).getD d.priority := by
  unfold declarationOf
  cases m.grouping.bind (·.priorityOf name) <;> cases previous.bind (·.statusOf name) <;> rfl

/-- A selector that is built for a membership ranks its members. -/
theorem Membership.Hosts.ranks_of_build [LawfulScalar ω] {m : Membership ω} {g : Grouping String}
    (h : m.Hosts g) {template : Builder ω} {previous : Option (Selector ω)} {id : Nat}
    {host : Host ω} {s : System ω} (hbuild : m.build template previous id host = .ok s) :
    s.selector.Ranks g m.roster.names where
  layout := (Builder.Reaches.built hbuild).layout
  ranked := by
    intro name hname
    obtain ⟨d, hd⟩ := Option.isSome_iff_exists.1 (Roster.isSome_get?.2 hname)
    obtain ⟨group, hgroup⟩ := Option.isSome_iff_exists.1 (h.assigned hname)
    have hfind := Builder.find?_of_build hbuild name
    rw [show (m.builder template previous).resources.lookup name = _ from
      m.roster.lookup_entries (m.declarationOf previous) name, hd, Option.map_some,
      Option.map_some] at hfind
    refine ⟨_, hfind, ?_⟩
    show _ = some (m.declarationOf previous name d).priority
    rw [priority_declarationOf, h.grouping, Option.bind_some, hgroup, Option.getD_some]

/-! ## The manager -/

namespace Manager

/-- The grouping has a group for every member, and the current selector ranks them accordingly. -/
structure Ranks (m : Manager ω) (g : Grouping String) : Prop where
  hosts : m.membership.Hosts g
  current : m.current.Ranks g m.membership.roster.names

namespace Ranks

variable {m : Manager ω} {g : Grouping String}

omit [Scalar ω] in
theorem priorityOf (h : m.Ranks g) {name : String} (hname : name ∈ m.membership.roster.names) :
    m.priorityOf name = g.priorityOf name := by
  obtain ⟨r, hr, hpriority⟩ := h.current.ranked hname
  rw [Manager.priorityOf, Selector.statusOf, hr, hpriority]
  rfl

variable [LawfulScalar ω]

theorem moves (h : m.Ranks g) {m' : Manager ω} (hmoves : m.Moves m') :
    m'.Ranks g ∧ m'.membership = m.membership := by
  refine hmoves.induct (P := fun m' => m'.Ranks g ∧ m'.membership = m.membership) ?_ ⟨h, rfl⟩
  rintro m m' hmove ⟨h, heq⟩
  refine ⟨?_, ?_⟩
  · cases hmove with
    | host => exact ⟨h.hosts, h.current⟩
    | shut => exact ⟨h.hosts, h.current⟩
    | use hs e =>
        refine ⟨h.hosts, ?_⟩
        obtain ⟨rfl, hcurrent⟩ | hcurrent := current_record hs e
        · rw [hcurrent]
          exact h.current.step e
        · rw [hcurrent]
          exact h.current
  · rw [← heq]
    cases hmove <;> rfl

theorem install (h : m.Ranks g) {remove : List String} {entries : List (String × Declaration ω)}
    {rank : String → Nat} {previous : Option (Selector ω)} {id : Nat} {host : Host ω} {s : System ω}
    (hbuild : (m.membership.change remove entries rank).build m.template previous id host = .ok s) :
    (m.install (m.membership.change remove entries rank) s).Ranks
      (g.run (Membership.edits remove entries)) where
  hosts := h.hosts.change remove entries rank
  current := by
    have hranks := (h.hosts.change remove entries rank).ranks_of_build hbuild
    show (ite _ s.close s).selector.Ranks _ _
    split
    · exact hranks.step (.call .close)
    · exact hranks

end Ranks

/-- The name is still a member, and its priority number is no greater than it was. -/
def Advances (name : String) (m m' : Manager ω) : Prop :=
  name ∈ m'.membership.roster.names ∧ ∃ before after,
    m.priorityOf name = some before ∧ m'.priorityOf name = some after ∧ after ≤ before

namespace Ranks

variable {m m' m'' : Manager ω} {g g' : Grouping String} {name : String}

omit [Scalar ω] in
theorem advances (h : m.Ranks g) (h' : m'.Ranks g') (hname : name ∈ m.membership.roster.names)
    (hname' : name ∈ m'.membership.roster.names)
    (hgroup : ∀ i, g.priorityOf name = some i → ∃ j, g'.priorityOf name = some j ∧ j ≤ i) :
    Advances name m m' := by
  obtain ⟨i, hi⟩ := Option.isSome_iff_exists.1 (h.hosts.assigned hname)
  obtain ⟨j, hj, hle⟩ := hgroup i hi
  exact ⟨hname', i, j, (h.priorityOf hname).trans hi, (h'.priorityOf hname').trans hj, hle⟩

omit [Scalar ω] in
theorem advances_refl (h : m.Ranks g) (hname : name ∈ m.membership.roster.names) :
    Advances name m m :=
  h.advances h hname hname fun i hi => ⟨i, hi, Nat.le_refl _⟩

end Ranks

omit [Scalar ω] in
theorem Advances.trans {name : String} {m m' m'' : Manager ω} (h : Advances name m m')
    (h' : Advances name m' m'') : Advances name m m'' := by
  obtain ⟨-, i, j, hi, hj, hle⟩ := h
  obtain ⟨hmember, j', k, hj', hk, hle'⟩ := h'
  obtain rfl : j = j' := Option.some.inj (hj.symm.trans hj')
  exact ⟨hmember, i, k, hi, hk, Nat.le_trans hle' hle⟩

/-! ## Events -/

end Manager

/-- The event takes the name out of the membership, if it succeeds. -/
def ManagerEvent.Removes (name : String) : ManagerEvent ω → Prop
  | .update _ remove _ => name ∈ remove
  | .updateAll resources _ => name ∉ resources.map (·.1)
  | _ => False

namespace Manager

variable [LawfulScalar ω]

theorem Ranks.advances_of_moves {m m' : Manager ω} {g : Grouping String} (h : m.Ranks g)
    (hmoves : m.Moves m') :
    m'.Ranks g ∧ ∀ name ∈ m.membership.roster.names, Advances name m m' := by
  obtain ⟨hranks, hsame⟩ := h.moves hmoves
  exact ⟨hranks, fun name hname => h.advances hranks hname (hsame ▸ hname)
    fun i hi => ⟨i, hi, Nat.le_refl _⟩⟩

/-- A change that is made, or fails, keeps every member that it is not told to drop. -/
theorem Ranks.apply {m : Manager ω} {g : Grouping String} (h : m.Ranks g) (add : Roster ω)
    (remove : List String) (rank : String → Nat) :
    ∃ g', (m.attempt (m.apply add remove rank)).Ranks g' ∧
      ∀ name ∈ m.membership.roster.names, name ∉ remove →
        Advances name m (m.attempt (m.apply add remove rank)) := by
  cases happly : m.apply add remove rank with
  | error failure =>
      obtain ⟨hranks, hadvances⟩ := h.advances_of_moves (Move.host m (failure.leave m.host)).moves
      exact ⟨g, hranks, fun name hname _ => hadvances name hname⟩
  | ok next =>
      obtain ⟨s, hbuild, rfl⟩ := apply_eq_ok happly
      have hranks := h.install hbuild
      refine ⟨_, hranks, fun name hname hkept => h.advances hranks hname ?_ fun i hi => ?_⟩
      · exact Membership.mem_names_change.2 (.inr ⟨hname, hkept⟩)
      · exact h.hosts.tidy.priorityOf_run (fun _ => Membership.distinct_of_mem_edits) hi
          (fun _ => Membership.not_removes_of_mem_edits hkept)

theorem Ranks.step {m : Manager ω} {g : Grouping String} (h : m.Ranks g) (e : ManagerEvent ω) :
    ∃ g', (m.step e).Ranks g' ∧ ∀ name ∈ m.membership.roster.names, ¬ e.Removes name →
      Advances name m (m.step e) := by
  by_cases hchange : e.isChange = false
  · obtain ⟨hranks, hadvances⟩ := h.advances_of_moves (m.moves_step hchange)
    exact ⟨g, hranks, fun name hname _ => hadvances name hname⟩
  cases e with
  | update add remove rank =>
      obtain ⟨g', hranks, hadvances⟩ := h.apply (Roster.ofList add) remove.eraseDups rank
      refine ⟨g', hranks, fun name hname hkept => hadvances name hname ?_⟩
      rw [List.mem_eraseDups]
      exact hkept
  | updateAll resources rank =>
      obtain ⟨g', hranks, hadvances⟩ := h.apply (Roster.ofList resources)
        (m.membership.dropped (Roster.ofList resources) rank) rank
      refine ⟨g', hranks, fun name hname hkept => hadvances name hname fun hdropped => ?_⟩
      have hlisted : name ∈ (Roster.ofList resources).names := by
        rw [← Roster.isSome_get?, Roster.get?_ofList]
        exact Declarations.isSome_override.2 (.inl (not_not.1 hkept))
      exact (Membership.mem_dropped.1 hdropped).2 hlisted
  | _ =>
      exact absurd rfl hchange

/-- The managers with a grouping that can come about. Each time that the members are gone through,
they may be listed in another order. -/
inductive Grouped : Manager ω → Prop
  | created {template : Builder ω} {resources : List (String × Declaration ω)}
      {grouping : Grouping String} {host : Host ω} {rank : String → Nat} {m : Manager ω} :
      grouping.Reachable → create template resources (some grouping) host rank = .ok m → Grouped m
  | step {m : Manager ω} (e : ManagerEvent ω) : Grouped m → Grouped (m.step e)

/-- Anything may happen to a manager, except that a member is removed. -/
inductive Tenure (name : String) (m : Manager ω) : Manager ω → Prop
  | refl : Tenure name m m
  | step {m' : Manager ω} (e : ManagerEvent ω) : Tenure name m m' → ¬ e.Removes name →
      Tenure name m (m'.step e)

theorem ranks_of_create {template : Builder ω} {resources : List (String × Declaration ω)}
    {grouping : Grouping String} {host : Host ω} {rank : String → Nat} {m : Manager ω}
    (hgrouping : grouping.Tidy)
    (h : create template resources (some grouping) host rank = .ok m) : ∃ g, m.Ranks g := by
  have hcreated := created_of_create h
  have hnodup := hcreated.nodup_names
  have hhosts := Membership.hosts_assignInitial hnodup hgrouping
  rw [show some (grouping.assignInitial m.membership.roster.names) = _ from
    hcreated.grouping.symm] at hhosts
  exact ⟨_, hhosts, hhosts.ranks_of_build hcreated.built⟩

theorem Grouped.ranks {m : Manager ω} (h : m.Grouped) : ∃ g, m.Ranks g := by
  induction h with
  | created hgrouping hcreate => exact ranks_of_create hgrouping.tidy hcreate
  | step e _ ih =>
      obtain ⟨g, hranks⟩ := ih
      obtain ⟨g', hranks', -⟩ := hranks.step e
      exact ⟨g', hranks'⟩

theorem Ranks.tenure {m m' : Manager ω} {g : Grouping String} {name : String} (h : m.Ranks g)
    (hname : name ∈ m.membership.roster.names) (ht : Tenure name m m') :
    Advances name m m' ∧ ∃ g', m'.Ranks g' := by
  induction ht with
  | refl => exact ⟨h.advances_refl hname, g, h⟩
  | step e _ hkept ih =>
      obtain ⟨hadvances, g', hranks⟩ := ih
      obtain ⟨g'', hranks', hstep⟩ := hranks.step e
      exact ⟨hadvances.trans (hstep name hadvances.1 hkept), g'', hranks'⟩

end Manager

/-- Members are never sent back: not by a grouping, whatever its generator draws, and not by a
manager that has one. -/
theorem never_demoted :
    (∀ {α : Type} [DecidableEq α] (g : Grouping α), g.Reachable → ∀ rng : Rng,
      Grouping.Steady { g with rng }) ∧
    (∀ (m m' : Manager Float) (name : String), m.Grouped → name ∈ m.membership.roster.names →
      Manager.Tenure name m m' → Manager.Advances name m m') := by
  refine ⟨fun g hg rng => (hg.tidy.rng rng).steady, fun m m' name hm hname ht => ?_⟩
  obtain ⟨g, hranks⟩ := hm.ranks
  exact (hranks.tenure hname ht).1

/-- One core group of one, and the member in it leaves. -/
theorem never_demoted_core : ∃ (g : Grouping String) (m m' : Manager Float), g.Reachable ∧
    g.priorityOf "c" = some 0 ∧ Grouping.Steady { g with rng := ⟨7⟩ } ∧
    m.Grouped ∧ m.priorityOf "c" = some 0 ∧ Manager.Advances "b" m m' := by
  obtain ⟨g, hg, hcore⟩ : ∃ g : Grouping String, g.Reachable ∧ g.priorityOf "c" = some 0 :=
    ⟨_, ⟨[1], ⟨0⟩, [.assign ["a", "b", "c"]], by decide, by simp [Grouping.Edit.Distinct], rfl⟩,
      rfl⟩
  obtain ⟨m, hcreate, hmember, hfirst⟩ : ∃ m : Manager Float,
      Manager.create Builder.pair [("c", .ofWeight 5)] (some (.empty [1] ⟨0⟩)) { rng := ⟨0⟩ } =
        .ok m ∧ m.membership.roster.names = ["a", "b", "c"] ∧ m.priorityOf "c" = some 0 :=
    ⟨_, rfl, rfl, rfl⟩
  have hm := Manager.Grouped.created ⟨[1], ⟨0⟩, [], by decide, by simp, rfl⟩ hcreate
  have ht : Manager.Tenure "b" m (m.step (.update [("d", .ofWeight 20)] ["c"])) :=
    .step _ .refl (by simp [ManagerEvent.Removes])
  exact ⟨g, m, _, hg, hcore, never_demoted.1 g hg ⟨7⟩, hm, hfirst,
    never_demoted.2 m _ "b" hm (by simp [hmember]) ht⟩

end ResourceSelection
