import ResourceSelection.Proofs.Continuity
import ResourceSelection.Proofs.Members
import ResourceSelection.Proofs.Refusal

/-!
# What a change is judged by

A change builds a selector for all members, those that it declares and those that stay. The members
that stay have been accepted before, and the weights that they carry over lie between their bounds,
so they never speak against a change: it is accepted if the declarations that it makes are.

They are not all judged alike. The starting weight of a name that is registered gives way to the
weight carried over before anything is checked. Of such a declaration only the bounds are judged,
and a starting weight far outside them is let through.
-/

namespace ResourceSelection

variable {ω : Type} [Scalar ω]

namespace Declaration

omit [Scalar ω] in
/-- The declaration without a starting weight of its own. -/
def unset (d : Declaration ω) : Declaration ω := { d with initial := none }

theorem Ordered.congr {d d' : Declaration ω} (h : d.Ordered) (hmax : d'.maxWeight = d.maxWeight)
    (hmin : d'.minWeight = d.minWeight) : d'.Ordered where
  finiteMax := hmax ▸ h.finiteMax
  finiteMin := hmin ▸ h.finiteMin
  ranges := by
    unfold rangeFaults
    rw [hmax, hmin]
    exact h.ranges
  le := by
    rw [hmax, hmin]
    exact h.le

variable [LawfulScalar ω]

theorem validate_unset {d : Declaration ω} : d.unset.validate = .ok () ↔ d.Ordered := by
  rw [validate_eq_ok]
  constructor
  · intro h
    exact h.1.congr rfl rfl
  · intro h
    exact ⟨h.congr rfl rfl, h.finiteMax, h.le, Scalar.le_refl (Scalar.isNaN_right h.le)⟩

/-- A carried weight is never the reason why a declaration is not accepted. -/
theorem validate_carried {d : Declaration ω} (s : Status ω) :
    ({ d with initial := some (s.carry d) } : Declaration ω).validate = .ok () ↔ d.Ordered := by
  rw [validate_eq_ok]
  constructor
  · intro h
    exact h.1.congr rfl rfl
  · intro h
    have hseated := s.seated_carry h
    obtain ⟨hlower, hupper⟩ := hseated.within h.le
    exact ⟨h.congr rfl rfl, hseated.isFinite h.finiteMin h.finiteMax, hlower, hupper⟩

end Declaration

namespace Membership

variable {m : Membership ω}

omit [Scalar ω] in
theorem nodup_removeAll (h : m.roster.names.Nodup) (names : List String) :
    (m.removeAll names).roster.names.Nodup := by
  induction names generalizing m with
  | nil => exact h
  | cons name rest ih => exact ih (Roster.nodup_erase h name)

/-- What the members are built from is accepted if each of them is. -/
theorem validate_builder (hnodup : m.roster.names.Nodup) (template : Builder ω)
    (previous : Option (Selector ω)) : (m.builder template previous).validate = .ok () ↔
      template.settings.validate = .ok () ∧ ∀ name d, m.roster.get? name = some d →
        (m.declarationOf previous name d).validate = .ok () := by
  constructor
  · intro hvalid
    refine ⟨(m.builder template previous).validate_settings hvalid, fun name d hd => ?_⟩
    exact (Builder.validateResources_eq_ok.1
      (Builder.validateResources_of_validate hvalid)).1 _ (mem_resources hd template previous)
  · rintro ⟨hsettings, hmembers⟩
    unfold Builder.validate
    rw [show (m.builder template previous).settings = template.settings from rfl, hsettings]
    refine Builder.validateResources_eq_ok.2 ⟨?_, ?_, fun _ _ => List.not_mem_nil⟩
    · intro entry hentry
      obtain ⟨⟨name, d⟩, hmem, rfl⟩ := List.mem_map.1 hentry
      exact hmembers name d ((Roster.get?_eq_some_iff hnodup).2 hmem)
    · show (List.map _ (List.map _ _)).Nodup
      rw [List.map_map]
      exact hnodup

theorem validate_declarationOf_none (m : Membership ω) (name : String) (d : Declaration ω) :
    (m.declarationOf none name d).validate = d.validate := by
  rw [declarationOf_none]
  rfl

theorem ordered_declarationOf [LawfulScalar ω] (m : Membership ω) (previous : Option (Selector ω))
    (name : String) (d : Declaration ω) :
    (m.declarationOf previous name d).Ordered ↔ d.Ordered := by
  have hmax := m.maxWeight_declarationOf previous name d
  have hmin := m.minWeight_declarationOf previous name d
  exact ⟨fun h => h.congr hmax.symm hmin.symm, fun h => h.congr hmax hmin⟩

end Membership

namespace Manager

variable {m : Manager ω}

/-- What a change checks of a declaration: all of it, if the name is new, and otherwise nothing of
its starting weight. -/
def judged (m : Manager ω) (name : String) (d : Declaration ω) : Declaration ω :=
  if (m.current.statusOf name).isSome then d.unset else d

variable {add : Roster ω} {remove : List String} {rank : String → Nat}

theorem exists_apply_iff_validate (hanswers : m.template.Answers) :
    (∃ m', m.apply add remove rank = .ok m') ↔
      ((m.membership.change remove add.entries rank).builder m.template
        (some m.current)).validate = .ok () := by
  unfold apply
  simp only [Membership.build]
  constructor
  · rintro ⟨m', h⟩
    split at h
    · contradiction
    · next hbuild => exact (Builder.changes_of_build hbuild).1
  · intro h
    obtain ⟨s, hbuild⟩ := Builder.exists_build h hanswers (m.current.id + 1) m.host
    rw [hbuild]
    exact ⟨_, rfl⟩

theorem exists_invalid_apply_iff :
    (∃ fault, m.apply add remove rank = .error (.invalid fault)) ↔
      ((m.membership.change remove add.entries rank).builder m.template
        (some m.current)).validate ≠ .ok () := by
  rw [← Builder.exists_invalid_iff]
  unfold apply
  simp only [Membership.build]
  split
  · next hbuild =>
      rw [hbuild]
      simp only [Except.error.injEq]
  · next hbuild =>
      rw [hbuild]
      simp only [reduceCtorEq]

variable [LawfulScalar ω]

theorem validate_declarationOf (m : Manager ω) (next : Membership ω) (name : String)
    (d : Declaration ω) : (next.declarationOf (some m.current) name d).validate = .ok () ↔
      (m.judged name d).validate = .ok () := by
  unfold judged
  cases hstatus : m.current.statusOf name with
  | some status =>
      rw [next.declarationOf_carried hstatus, Declaration.validate_carried,
        next.ordered_declarationOf, Option.isSome_some, if_pos rfl, Declaration.validate_unset]
  | none =>
      rw [next.declarationOf_of_unknown hstatus, next.validate_declarationOf_none]
      rfl

/-- A member that stays has nothing to be judged for. -/
theorem Traced.validate_judged (h : m.Traced) {name : String} {d : Declaration ω}
    (hd : m.membership.roster.get? name = some d) : (m.judged name d).validate = .ok () := by
  obtain ⟨previous, hcurrent⟩ := h.current
  obtain ⟨r, hr, -⟩ := h.exists_stands hd
  have hregistered : (m.current.statusOf name).isSome = true := by
    rw [Selector.statusOf, hr]
    rfl
  have hvalid := (Builder.validateResources_eq_ok.1
    (Builder.validateResources_of_validate hcurrent.valid)).1 _
      (Membership.mem_resources hd m.template previous)
  unfold judged
  rw [if_pos hregistered, Declaration.validate_unset]
  exact (m.membership.ordered_declarationOf previous name d).1
    (Declaration.validate_eq_ok.1 hvalid).1

theorem Traced.nodup_names (h : m.Traced) : m.membership.roster.names.Nodup := by
  obtain ⟨previous, hcurrent⟩ := h.current
  have hnodup := Builder.nodup_names hcurrent.valid
  unfold Membership.builder at hnodup
  rw [List.map_map] at hnodup
  exact hnodup

/-- Nothing speaks against the members after a change but what the change declares. -/
theorem Traced.validate_change_iff (h : m.Traced) (hadd : add.names.Nodup) :
    ((m.membership.change remove add.entries rank).builder m.template
      (some m.current)).validate = .ok () ↔
        ∀ name d, add.get? name = some d → (m.judged name d).validate = .ok () := by
  have hnodup : (m.membership.change remove add.entries rank).roster.names.Nodup := by
    refine Roster.nodup_arrange ?_ rank
    rw [Membership.roster_addAll]
    exact Roster.nodup_putAll (Membership.nodup_removeAll h.nodup_names remove) add.entries
  have hget (name : String) : (m.membership.change remove add.entries rank).roster.get? name =
      (add.get? name).or (Declarations.without m.membership.roster.get? remove name) := by
    rw [Membership.get?_change, Declarations.override_apply, Roster.override_entries hadd]
  rw [Membership.validate_builder hnodup]
  generalize m.membership.change remove add.entries rank = next at *
  constructor
  · rintro ⟨-, hvalid⟩ name d hd
    refine (m.validate_declarationOf next name d).1 (hvalid name d ?_)
    rw [hget, hd]
    rfl
  · intro hjudged
    obtain ⟨previous, hcurrent⟩ := h.current
    refine ⟨(m.membership.builder m.template previous).validate_settings hcurrent.valid, ?_⟩
    intro name d hd
    rw [hget] at hd
    refine (m.validate_declarationOf next name d).2 ?_
    -- the change declares this member, or it stays
    rcases Option.or_eq_some_iff.1 hd with hadded | ⟨-, hstays⟩
    · exact hjudged name d hadded
    · unfold Declarations.without at hstays
      split at hstays
      · exact nomatch hstays
      · exact h.validate_judged hstays

/-- A change is accepted if what it declares is. -/
theorem Traced.exists_apply_iff (h : m.Traced) (hanswers : m.template.Answers)
    (hadd : add.names.Nodup) : (∃ m', m.apply add remove rank = .ok m') ↔
      ∀ name d, add.get? name = some d → (m.judged name d).validate = .ok () := by
  rw [exists_apply_iff_validate hanswers, h.validate_change_iff hadd]

theorem Traced.exists_invalid_iff (h : m.Traced) (hadd : add.names.Nodup) :
    (∃ fault, m.apply add remove rank = .error (.invalid fault)) ↔
      ∃ name d, add.get? name = some d ∧ (m.judged name d).validate ≠ .ok () := by
  rw [exists_invalid_apply_iff, ne_eq, h.validate_change_iff hadd]
  push Not
  rfl

end Manager

/-- What a change declares, in the order of declaration. -/
def MembershipChange.entries : MembershipChange ω → List (String × Declaration ω)
  | .update add _ _ => add
  | .updateAll resources _ => resources

theorem MembershipChange.make_ne_crashed {m : Manager ω} (hanswers : m.template.Answers)
    (c : MembershipChange ω) (asked : Tally) : c.make m ≠ .error (.crashed asked) := by
  have happly (add : Roster ω) (remove : List String) (rank : String → Nat) :
      m.apply add remove rank ≠ .error (.crashed asked) := by
    intro hcrashed
    unfold Manager.apply at hcrashed
    simp only [Membership.build] at hcrashed
    split at hcrashed
    · next hbuild =>
        rw [Except.error.inj hcrashed] at hbuild
        exact Builder.build_ne_crashed (b := Membership.builder _ m.template (some m.current))
          hanswers _ _ asked hbuild
    · cases hcrashed
  cases c with
  | update add remove rank => exact happly _ _ rank
  | updateAll resources rank => exact happly _ _ rank

/-- A change is refused as invalid if and only if one of its declarations is: of a new name the whole
declaration is judged, and of a registered one all but the starting weight. So it is accepted if and
only if all of them are valid, as long as the policy says of every resource whether it needs a
check. -/
theorem change_accepted_iff {m : Manager Float} (h : m.Reachable) (c : MembershipChange Float) :
    (m.template.Answers → ((∃ m', c.make m = .ok m') ↔ ∀ name d,
      Declarations.nothing.override c.entries name = some d →
        (m.judged name d).validate = .ok ())) ∧
    ((∃ fault, c.make m = .error (.invalid fault)) ↔ ∃ name d,
      Declarations.nothing.override c.entries name = some d ∧
        (m.judged name d).validate ≠ .ok ()) := by
  rw [← Roster.get?_ofList]
  cases c with
  | update add remove rank =>
      have hadd := Roster.nodup_ofList add
      refine ⟨fun hanswers => ?_, h.traced.exists_invalid_iff hadd⟩
      exact h.traced.exists_apply_iff hanswers hadd
  | updateAll resources rank =>
      have hadd := Roster.nodup_ofList resources
      refine ⟨fun hanswers => ?_, h.traced.exists_invalid_iff hadd⟩
      exact h.traced.exists_apply_iff hanswers hadd

/-- A declaration that starts above its maximum. -/
def Declaration.overweight : Declaration Float := ⟨100, 0, 0, some 500⟩

/-- It is let through for a member and refused for a new name. -/
theorem change_accepted_iff_pair : ∃ m : Manager Float, m.Reachable ∧
    (∃ m', m.update [("a", .overweight)] [] = .ok m') ∧
    ¬ ∃ m', m.update [("d", .overweight)] [] = .ok m' := by
  obtain ⟨m, hcreate, hpolicy, hmember, hnew⟩ : ∃ m : Manager Float,
      Manager.create Builder.pair [("c", .ofWeight 5)] none { rng := ⟨0⟩ } = .ok m ∧
      m.template.policy = some (.shipped .default) ∧
      (m.current.statusOf "a").isSome = true ∧ (m.current.statusOf "d").isSome = false :=
    ⟨_, rfl, rfl, rfl, rfl⟩
  have hm := Manager.Reachable.created hcreate
  have haccepted (c : MembershipChange Float) :=
    (change_accepted_iff hm c).1 (Builder.Answers.of_shipped hpolicy)
  refine ⟨m, hm, (haccepted (.update [("a", .overweight)] [])).2 ?_, fun hmade => ?_⟩
  · intro name d hd
    have hdeclared : (if name = "a" then some Declaration.overweight else none) = some d := hd
    split at hdeclared
    · next heq =>
        obtain rfl := Option.some.inj hdeclared
        rw [heq, Manager.judged, if_pos hmember]
        rfl
    · exact nomatch hdeclared
  · have hjudged := (haccepted (.update [("d", .overweight)] [])).1 hmade "d" _ rfl
    rw [Manager.judged, hnew] at hjudged
    exact absurd (congrArg Except.isOk hjudged) (by decide +kernel)

/-- No declaration may start above its maximum, and an update with one is made. -/
theorem overweight_let_through : ∃ m m' : Manager Float, m.Reachable ∧
    Declaration.overweight.validate ≠ .ok () ∧
    m.update [("a", .overweight)] [] = .ok m' := by
  obtain ⟨m, m', hcreate, hupdate⟩ : ∃ m m' : Manager Float,
      Manager.create (Builder.default : Builder Float) [("a", .ofWeight 100)] none
        { rng := ⟨0⟩ } = .ok m ∧
      m.update [("a", .overweight)] [] = .ok m' :=
    ⟨_, _, rfl, rfl⟩
  refine ⟨m, m', .created hcreate, fun hvalid => ?_, hupdate⟩
  exact absurd (congrArg Except.isOk hvalid) (by decide +kernel)

end ResourceSelection
