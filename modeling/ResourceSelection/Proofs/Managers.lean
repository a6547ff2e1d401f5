import ResourceSelection.Proofs.Binary64
import ResourceSelection.Proofs.Bounds
import ResourceSelection.Proofs.Moves

/-!
# The selectors of a manager

A manager never touches a selector but by calls and by replacing it, so whatever holds of every
selector that a builder leads to holds of the manager's. `Manager.Traced` says which builder this
is: for the current selector the one made from the membership, and for the earlier ones, which
somebody may still hold, some builder. Every event keeps it, whichever selector the event goes to.

The declarations that the current selector was built from are those of the roster, with the
priority of the grouping. They differ in the starting weight, which is carried over, but nothing
that stays fixed afterwards depends on it.
-/

namespace ResourceSelection

variable {ω : Type} [Scalar ω]

namespace Builder.Reaches

variable {b : Builder ω} {s : System ω}

/-- What others do to the host is an event. -/
theorem others {t : Selector ω} {host : Host ω} (h : b.Reaches ⟨t, host⟩) (host' : Host ω) :
    b.Reaches ⟨t, host'⟩ :=
  h.step (.others host')

theorem call (h : b.Reaches s) (c : Call) : b.Reaches (s.call c) := h.step (.call c)

theorem close (h : b.Reaches s) : b.Reaches s.close := h.call .close

end Builder.Reaches

namespace Manager

/-- Every selector of the manager comes from a builder, and the current one from the builder that
the membership describes. -/
structure Traced (m : Manager ω) : Prop where
  current : ∃ previous, (m.membership.builder m.template previous).Reaches m.system
  past {s : Selector ω} : s ∈ m.past → ∃ b : Builder ω, b.Reaches ⟨s, m.host⟩

namespace Traced

variable {m : Manager ω}

theorem exists_builder (h : m.Traced) {id : Nat} {s : System ω} (hs : m.snapshot? id = some s) :
    ∃ b : Builder ω, b.Reaches s := by
  obtain ⟨-, rfl | ⟨-, t, ht, rfl⟩⟩ := snapshot?_eq_some hs
  · exact ⟨_, h.current.choose_spec⟩
  · exact h.past ht

theorem others (h : m.Traced) (host : Host ω) : Traced { m with host } where
  current := h.current.imp fun _ hcurrent => hcurrent.others host
  past hs := (h.past hs).imp fun _ hpast => hpast.others host

/-- Whichever selector is put to use, it is recorded in its own place. -/
theorem use [LawfulScalar ω] (h : m.Traced) {s : System ω} {id : Nat}
    (hs : m.snapshot? id = some s) (e : Event ω) : (m.record (s.step e)).Traced where
  current := by
    obtain ⟨previous, hcurrent⟩ := h.current
    refine ⟨previous, ?_⟩
    show (m.membership.builder m.template previous).Reaches ⟨_, (s.step e).host⟩
    obtain ⟨rfl, heq⟩ | heq := current_record hs e
    · rw [heq]
      exact hcurrent.step e
    · rw [heq]
      exact hcurrent.others _
  past := by
    intro s' hs'
    obtain ⟨old, hold, rfl⟩ := List.mem_map.1 hs'
    show ∃ b : Builder ω, b.Reaches ⟨ite _ _ _, (s.step e).host⟩
    split
    · exact (h.exists_builder hs).imp fun _ hfrom => hfrom.step e
    · exact (h.past hold).imp fun _ hpast => hpast.others _

theorem moves [LawfulScalar ω] (h : m.Traced) {m' : Manager ω} (hmoves : m.Moves m') :
    m'.Traced := by
  refine hmoves.induct (P := Traced) ?_ h
  rintro m m' hmove h
  cases hmove with
  | host => exact h.others _
  | shut => exact ⟨h.current, h.past⟩
  | use hs e => exact h.use hs e

/-- A change of the membership builds the selector that becomes the current one. -/
theorem install (h : m.Traced) {next : Membership ω} {previous : Option (Selector ω)} {id : Nat}
    {host : Host ω} {s : System ω} (hbuild : next.build m.template previous id host = .ok s) :
    (m.install next s).Traced where
  current := by
    refine ⟨previous, ?_⟩
    have hbuilt : (next.builder m.template previous).Reaches s := .built hbuild
    have hclosed : (next.builder m.template previous).Reaches (if m.closed then s.close else s) := by
      split
      · exact hbuilt.close
      · exact hbuilt
    exact hclosed.others _
  past := by
    intro old hold
    obtain ⟨previous', hcurrent⟩ := h.current
    -- the selector that was the current one is closed, and keeps its builder
    rcases List.mem_cons.1 hold with rfl | hpast
    · exact ⟨_, (hcurrent.others _).close⟩
    · exact (h.past hpast).imp fun _ hpast => hpast.others _

theorem apply (h : m.Traced) {add : Roster ω} {remove : List String} {rank : String → Nat} :
    (m.attempt (m.apply add remove rank)).Traced :=
  attempt_apply_induct (fun _ => h.others _) h.install add remove rank

variable [LawfulScalar ω]

theorem step (h : m.Traced) (e : ManagerEvent ω) : (m.step e).Traced := by
  cases e with
  | update add remove rank => exact h.apply
  | updateAll resources rank => exact h.apply
  | _ => exact h.moves (m.moves_step rfl)

end Traced

theorem traced_of_create {template : Builder ω} {resources : List (String × Declaration ω)}
    {grouping : Option (Grouping String)} {host : Host ω} {rank : String → Nat} {m : Manager ω}
    (h : create template resources grouping host rank = .ok m) : m.Traced := by
  have hcreated := created_of_create h
  refine ⟨⟨none, .built hcreated.built⟩, fun hs => ?_⟩
  rw [hcreated.past] at hs
  exact nomatch hs

theorem Reachable.traced [LawfulScalar ω] {m : Manager ω} (h : m.Reachable) : m.Traced := by
  induction h with
  | created hcreate => exact traced_of_create hcreate
  | step e _ ih => exact ih.step e

/-! ## What the members are registered as -/

/-- How a name is registered in the current selector, but for its starting weight: as the roster
and the grouping say, or else as an unknown resource. -/
def declarationOf? (m : Manager ω) (name : String) : Option (Declaration ω) :=
  ((m.membership.roster.get? name).map (m.membership.declarationOf none name)).or
    (m.template.settings.autoAddWeight.map .ofWeight)

end Manager

omit [Scalar ω] in
theorem Roster.lookup_entries (r : Roster ω) (f : String → Declaration ω → Declaration ω)
    (name : String) :
    (r.entries.map fun (n, d) => (n, f n d)).lookup name = (r.get? name).map (f name) := by
  unfold get?
  induction r.entries with
  | nil => rfl
  | cons entry rest ih =>
      obtain ⟨n, d⟩ := entry
      rw [List.map_cons, List.lookup_cons, List.find?_cons]
      by_cases heq : n = name
      · subst heq
        simp
      · simp only [beq_eq_false_iff_ne.2 (Ne.symm heq), decide_eq_false heq]
        exact ih

/-- Where the weight starts is all that a previous selector decides about a member. -/
theorem Membership.meets_declarationOf (m : Membership ω) (previous : Option (Selector ω))
    (name : String) (d : Declaration ω) {r : Resource ω}
    (h : r.Meets (m.declarationOf previous name d)) : r.Meets (m.declarationOf none name d) := by
  unfold declarationOf at h
  simp only at h
  split at h
  · exact ⟨h.maxWeight, h.minWeight, h.priority⟩
  · exact h

namespace Manager

/-- A resource is as the manager says if it is as some builder of the current selector says. -/
theorem exists_meets {m : Manager ω} {previous : Option (Selector ω)} {name : String}
    {d : Declaration ω} {r : Resource ω}
    (hd : (m.membership.builder m.template previous).declarationOf? name = some d)
    (hr : r.Meets d) : ∃ d, m.declarationOf? name = some d ∧ r.Meets d := by
  have hlookup : (m.membership.builder m.template previous).resources.lookup name = _ :=
    m.membership.roster.lookup_entries (m.membership.declarationOf previous) name
  unfold Builder.declarationOf? at hd
  unfold declarationOf?
  rw [hlookup] at hd
  cases hget : m.membership.roster.get? name with
  | none =>
      rw [hget] at hd
      exact ⟨d, hd, hr⟩
  | some declared =>
      rw [hget] at hd
      obtain rfl := Option.some.inj hd
      exact ⟨m.membership.declarationOf none name declared, rfl,
        m.membership.meets_declarationOf previous name declared hr⟩

end Manager

/-! ## Bounds -/

/-- The resource has a number within its bounds as its weight, and the bounds and the priority that
it was registered with. -/
structure Resource.Steady (r : Resource ω) (registered : Option (Declaration ω)) : Prop where
  number : Scalar.isNaN r.current = false
  lower : r.minWeight ≤ r.current
  upper : r.current ≤ r.maxWeight
  meets : ∃ d, registered = some d ∧ r.Meets d

theorem Selector.Bounded.steady [LawfulScalar ω] {b : Builder ω} {s : Selector ω} (h : s.Bounded b)
    (hlayout : s.Layout) {name : String} {r : Resource ω} (hr : s.find? name = some r) :
    r.Steady (b.declarationOf? name) := by
  obtain ⟨hmem, rfl⟩ := hlayout.mem_of_find? hr
  obtain ⟨hlower, hupper⟩ := h.within hmem
  exact ⟨Scalar.isNaN_right hlower, hlower, hupper, h.meets hmem⟩

/-- Every weight of every selector, and of every manager's current one, is a number between the
bounds that its resource was registered with. -/
theorem weights_steady :
    (∀ (b : Builder Float) (s : System Float), b.Reaches s → ∀ (name : String) (r : Resource Float),
      s.selector.find? name = some r → r.Steady (b.declarationOf? name)) ∧
    (∀ m : Manager Float, m.Reachable → ∀ (name : String) (r : Resource Float),
      m.current.find? name = some r → r.Steady (m.declarationOf? name)) := by
  refine ⟨fun b s h name r hr => h.bounded.steady h.layout hr, fun m h name r hr => ?_⟩
  obtain ⟨previous, hcurrent⟩ := h.traced.current
  have hsteady := hcurrent.bounded.steady hcurrent.layout hr
  obtain ⟨d, hd, hmeets⟩ := hsteady.meets
  exact ⟨hsteady.number, hsteady.lower, hsteady.upper, Manager.exists_meets hd hmeets⟩

/-- So it is after a failed call to an unknown resource, and for a manager after an update. -/
theorem weights_steady_pair :
    (∃ s, Builder.pair.Reaches s ∧ ∀ name r, s.selector.find? name = some r →
      r.Steady (Builder.pair.declarationOf? name)) ∧
    (∃ m : Manager Float, m.Reachable ∧ ∀ name r, m.current.find? name = some r →
      r.Steady (m.declarationOf? name)) := by
  obtain ⟨s, hbuild⟩ := Builder.exists_build Builder.pair_valid (.of_none rfl) 0 { rng := ⟨0⟩ }
  have hs := (Builder.Reaches.built hbuild).step (.call (.report .failure "c"))
  obtain ⟨m, hcreate⟩ : ∃ m, Manager.create Builder.pair [("c", .ofWeight 5)] none
      { rng := ⟨0⟩ } = .ok m := ⟨_, rfl⟩
  have hm := (Manager.Reachable.created hcreate).step (.update [("b", .ofWeight 20)] ["a"])
  exact ⟨⟨_, hs, weights_steady.1 _ _ hs⟩, ⟨_, hm, weights_steady.2 _ hm⟩⟩

end ResourceSelection
