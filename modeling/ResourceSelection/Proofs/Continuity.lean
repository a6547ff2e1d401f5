import ResourceSelection.Proofs.Carrying
import ResourceSelection.Proofs.Effects
import ResourceSelection.Proofs.Managers
import ResourceSelection.Proofs.Roster

/-!
# What a change of the membership leaves

A change builds a selector from the roster and from nothing else, so what the current selector knows
afterwards are the members. A member that the change does not mention has its bounds and its weight
as before. A resource that was registered because somebody reported a call to it is no member. It
is gone after any change that does not declare it, whether the change dropped it or not.
-/

namespace ResourceSelection

variable {ω : Type} [Scalar ω]

namespace Manager

variable {m m' : Manager ω}

/-! ## A change that has been made -/

/-- What there is after a change that has led to the given membership. -/
structure Changed (m : Manager ω) (next : Membership ω) (m' : Manager ω) : Prop where
  template : m'.template = m.template
  membership : m'.membership = next
  memory : m'.host.memory = m.host.memory
  found (name : String) : m'.current.find? name = (next.roster.get? name).map fun d =>
    Resource.ofDeclaration name (next.declarationOf (some m.current) name d)
      m.template.settings.countsCalls

theorem changed_of_apply {add : Roster ω} {remove : List String} {rank : String → Nat}
    (h : m.apply add remove rank = .ok m') :
    m.Changed (m.membership.change remove add.entries rank) m' := by
  obtain ⟨s, hbuild, rfl⟩ := apply_eq_ok h
  generalize m.membership.change remove add.entries rank = next at *
  have hclosed : s.Calm (if m.closed then s.close else s) := by
    split
    · exact s.calm_close
    · exact .refl s
  have hold := System.calm_close ⟨m.current, (if m.closed then s.close else s).host⟩
  refine ⟨rfl, rfl, ?_, fun name => ?_⟩
  · exact hold.memory.trans (hclosed.memory.trans (Builder.calm_of_build hbuild).memory)
  · refine (hclosed.find? name).trans ((Builder.find?_of_build hbuild name).trans ?_)
    rw [show (next.builder m.template (some m.current)).resources.lookup name = _ from
      next.roster.lookup_entries (next.declarationOf (some m.current)) name, Option.map_map]
    rfl

/-! ## Members -/

variable [LawfulScalar ω]

/-- A member is registered, with the bounds that it was declared with. -/
theorem Traced.exists_stands (h : m.Traced) {name : String} {d : Declaration ω}
    (hd : m.membership.roster.get? name = some d) :
    ∃ r, m.current.find? name = some r ∧ r.Stands d := by
  obtain ⟨previous, hcurrent⟩ := h.current
  have hlookup : (m.membership.builder m.template previous).resources.lookup name = _ :=
    m.membership.roster.lookup_entries (m.membership.declarationOf previous) name
  rw [hd, Option.map_some] at hlookup
  obtain ⟨r, hr⟩ := hcurrent.exists_find?
    (List.mem_map_of_mem (Membership.mem_resources hd m.template previous))
  obtain ⟨hmem, hname⟩ := hcurrent.layout.mem_of_find? hr
  obtain ⟨d', hd', hmeets⟩ := hcurrent.bounded.meets hmem
  rw [Builder.declarationOf?, hname, hlookup] at hd'
  obtain rfl := Option.some.inj hd'
  refine ⟨r, hr, ?_, ?_, hcurrent.bounded.within hmem, hcurrent.seated hmem⟩
  · rw [hmeets.maxWeight, Membership.maxWeight_declarationOf]
  · rw [hmeets.minWeight, Membership.minWeight_declarationOf]

/-- A member that is declared with the same bounds as before keeps its weight. -/
theorem Changed.current_eq (h : m.Traced) {next : Membership ω} (hchanged : m.Changed next m')
    {name : String} {d d' : Declaration ω} (hd : m.membership.roster.get? name = some d)
    (hd' : next.roster.get? name = some d') (hmax : d'.maxWeight = d.maxWeight)
    (hmin : d'.minWeight = d.minWeight) (hdistinct : d.Distinct) {r r' : Resource ω}
    (hr : m.current.find? name = some r) (hr' : m'.current.find? name = some r') :
    r'.current = r.current := by
  obtain ⟨q, hq, hstands⟩ := h.exists_stands hd
  obtain rfl : q = r := Option.some.inj (hq.symm.trans hr)
  have hstatus : m.current.statusOf name = some q.status := by rw [Selector.statusOf, hr]; rfl
  have hfound := hchanged.found name
  rw [hr', hd', Option.map_some, next.declarationOf_carried hstatus] at hfound
  rw [Option.some.inj hfound]
  refine Resource.current_carried ⟨?_, ?_, hstands.within, hstands.seated⟩ ?_ name _
  · rw [hstands.maxWeight, Membership.maxWeight_declarationOf, hmax]
  · rw [hstands.minWeight, Membership.minWeight_declarationOf, hmin]
  · unfold Declaration.Distinct
    rw [Membership.maxWeight_declarationOf, Membership.minWeight_declarationOf, hmax, hmin]
    exact hdistinct

/-- Declared with the same bounds as before, a member still has its bounds. -/
theorem Changed.exists_stands (h : m.Traced) (h' : m'.Traced) {next : Membership ω}
    (hchanged : m.Changed next m') {name : String} {d : Declaration ω}
    (hd : m.membership.roster.get? name = some d) (hd' : next.roster.get? name = some d) :
    ∃ r r', m.current.find? name = some r ∧ m'.current.find? name = some r' ∧ r.Stands d ∧
      r'.Stands d ∧ (d.Distinct → r'.current = r.current) := by
  obtain ⟨r, hr, hstands⟩ := h.exists_stands hd
  obtain ⟨r', hr', hstands'⟩ := h'.exists_stands (hchanged.membership ▸ hd')
  exact ⟨r, r', hr, hr', hstands, hstands',
    fun hdistinct => hchanged.current_eq h hd hd' rfl rfl hdistinct hr hr'⟩

end Manager

omit [Scalar ω] in
theorem Declarations.isSome_override {f : Declarations ω} {entries : List (String × Declaration ω)}
    {name : String} : (f.override entries name).isSome = true ↔
      name ∈ entries.map (·.1) ∨ (f name).isSome = true := by
  induction entries generalizing f with
  | nil => simp [override]
  | cons entry rest ih =>
      show ((f.declare entry.1 entry.2).override rest name).isSome = true ↔ _
      rw [ih, List.map_cons, List.mem_cons]
      unfold declare
      by_cases heq : name = entry.1
      · simp [heq]
      · simp [heq]

omit [Scalar ω] in
theorem Membership.get?_update_of_not_mem {m : Membership ω} {add : List (String × Declaration ω)}
    {remove : List String} {name : String} (hadd : name ∉ add.map (·.1)) (hremove : name ∉ remove)
    (rank : String → Nat) : (m.change remove (Roster.ofList add).entries rank).roster.get? name =
      m.roster.get? name := by
  have hnone : Declarations.nothing.override add name = none := by
    rw [← Option.not_isSome_iff_eq_none, Declarations.isSome_override]
    simp [Declarations.nothing, hadd]
  rw [m.get?_update, Declarations.override_apply, hnone, Option.none_or]
  exact if_neg hremove

/-- Two weights between the bounds of a declaration are the same number, if the bounds are. -/
theorem Resource.Stands.current_le [LawfulScalar ω] {r r' : Resource ω} {d : Declaration ω}
    (h : r.Stands d) (h' : r'.Stands d) (heq : d.Distinct → r'.current = r.current) :
    r'.current ≤ r.current := by
  by_cases hdistinct : d.Distinct
  · rw [heq hdistinct]
    exact Scalar.le_refl (Scalar.isNaN_right h.within.1)
  · have hle : d.maxWeight ≤ d.minWeight :=
      Scalar.le_of_not_lt h.isNaN_bounds.2 h.isNaN_bounds.1 fun hlt => hdistinct (.inl hlt)
    rw [← h'.maxWeight, ← h.minWeight] at hle
    exact Scalar.le_trans h'.within.2 (Scalar.le_trans hle h.within.1)

namespace Manager

/-- An update leaves the resources that it adds and the members that it does not drop. A member that
it does not mention keeps its bounds and its weight. -/
theorem members_of_update {m m' : Manager Float} (hm : m.Reachable)
    {add : List (String × Declaration Float)} {remove : List String} {rank : String → Nat}
    (h : m.update add remove rank = .ok m') :
    (∀ name, (m'.current.statusOf name).isSome = true ↔ name ∈ add.map (·.1) ∨
      (m.membership.roster.get? name).isSome = true ∧ name ∉ remove) ∧
    ∀ name, (m.membership.roster.get? name).isSome = true → name ∉ remove →
      name ∉ add.map (·.1) → ∃ r r', m.current.find? name = some r ∧
        m'.current.find? name = some r' ∧ r'.maxWeight = r.maxWeight ∧
        r'.minWeight = r.minWeight ∧ (r'.current == r.current) = true ∧
        (r.minWeight < r.maxWeight ∨ r.minWeight = r.maxWeight → r'.current = r.current) := by
  have hchanged := changed_of_apply h
  have hm' : m'.Reachable := by
    have hstep := hm.step (.update add remove rank)
    rwa [show m.step (.update add remove rank) = m.attempt (m.update add remove rank) from rfl,
      h] at hstep
  have hroster := m.membership.get?_update add remove.eraseDups rank
  constructor
  · intro name
    rw [Selector.statusOf, Option.isSome_map, hchanged.found, Option.isSome_map, hroster,
      Declarations.isSome_override]
    unfold Declarations.without
    by_cases hremove : name ∈ remove
    · simp [hremove]
    · simp [hremove]
  · intro name hname hkept hunmentioned
    obtain ⟨d, hd⟩ := Option.isSome_iff_exists.1 hname
    have hd' : (m.membership.change remove.eraseDups (Roster.ofList add).entries
        rank).roster.get? name = some d := by
      rw [Membership.get?_update_of_not_mem hunmentioned (by simpa using hkept), hd]
    obtain ⟨r, r', hr, hr', hstands, hstands', heq⟩ :=
      hchanged.exists_stands hm.traced hm'.traced hd hd'
    refine ⟨r, r', hr, hr', ?_, ?_, ?_, fun hdistinct => heq ?_⟩
    · rw [hstands.maxWeight, hstands'.maxWeight]
    · rw [hstands.minWeight, hstands'.minWeight]
    · exact Binary64.beq_iff.2 ⟨hstands.current_le hstands' heq,
        hstands'.current_le hstands fun hdistinct => (heq hdistinct).symm⟩
    · rwa [hstands.minWeight, hstands.maxWeight] at hdistinct

/-- One resource leaves, another one is redeclared, and the third stays as it is. -/
theorem members_of_update_trio : ∃ m m' : Manager Float, m.Reachable ∧
    m.update [("b", .ofWeight 20)] ["a"] = .ok m' ∧ (m'.current.statusOf "a").isSome = false ∧
    ∃ r r', m.current.find? "c" = some r ∧ m'.current.find? "c" = some r' ∧
      r'.maxWeight = r.maxWeight ∧ (r'.current == r.current) = true := by
  obtain ⟨m, m', hcreate, hupdate, hmember⟩ : ∃ m m' : Manager Float,
      create Builder.pair [("c", .ofWeight 5)] none { rng := ⟨0⟩ } = .ok m ∧
      m.update [("b", .ofWeight 20)] ["a"] = .ok m' ∧
      (m.membership.roster.get? "c").isSome = true :=
    ⟨_, _, rfl, rfl, rfl⟩
  have hm := Reachable.created hcreate
  obtain ⟨hregistered, hkept⟩ := members_of_update hm hupdate
  obtain ⟨r, r', hr, hr', hmax, -, hcurrent, -⟩ := hkept "c" hmember (by simp) (by simp)
  refine ⟨m, m', hm, hupdate, ?_, r, r', hr, hr', hmax, hcurrent⟩
  rw [← Bool.not_eq_true, hregistered]
  simp

/-- A resource that was registered because a call to it was reported is lost by an update that adds
another one and drops none. -/
theorem newcomer_lost_by_update : ∃ m m' : Manager Float, m.Reachable ∧
    (m.current.statusOf "x").isSome = true ∧ m.update [("b", .ofWeight 100)] [] = .ok m' ∧
    (m'.current.statusOf "x").isSome = false := by
  obtain ⟨m, m', hcreate, hupdate, hbefore, hafter⟩ : ∃ m m' : Manager Float,
      create { (Builder.default : Builder Float) with
        settings := { (Settings.default : Settings Float) with autoAddWeight := some 10 } }
        [("a", .ofWeight 100)] none { rng := ⟨0⟩ } = .ok m ∧
      (m.step (.call (.report .success "x"))).update [("b", .ofWeight 100)] [] = .ok m' ∧
      ((m.step (.call (.report .success "x"))).current.statusOf "x").isSome = true ∧
      (m'.current.statusOf "x").isSome = false :=
    ⟨_, _, rfl, rfl, rfl, rfl⟩
  exact ⟨_, m', (Reachable.created hcreate).step (.call (.report .success "x")), hbefore, hupdate,
    hafter⟩

end Manager

end ResourceSelection
