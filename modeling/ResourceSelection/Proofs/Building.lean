import ResourceSelection.Proofs.Refusal
import ResourceSelection.Proofs.Requirements

/-!
# Which builders are accepted

`Builder.build` looks for a fault in the whole builder before it makes anything. Here a selector is
put together declaration by declaration, on a host that could be written to at any time: each
declaration is checked, its name is looked up among those entered before, and it is entered itself;
what was done before a fault is found stays done. Both come to the same (`Draft.assemble_eq`), and
the host of a builder that is refused is what it was. A build of a valid builder can still come to
nothing if a supplied policy crashes when it is asked about a resource. That is no refusal.

Which fault is answered is said without reference to a search. It is the fault of the settings, or
that of an entry with nothing but valid entries of different names before it
(`Builder.firstFault_iff`).
-/

namespace ResourceSelection

variable {ω : Type}

/-! ## Entry by entry -/

/-- The resources that have been entered so far, and the place of each name. -/
structure Draft (ω : Type) where
  states : List (Resource ω) := []
  registry : List (String × Nat) := []

namespace Draft

variable [Scalar ω]

/-- The draft with one more resource. -/
def enter (countsCalls : Bool) (name : String) (d : Declaration ω) (draft : Draft ω) : Draft ω where
  states := draft.states ++ [Resource.ofDeclaration name d countsCalls]
  registry := draft.registry ++ [(name, draft.states.length)]

/-- Enters declarations until one is found to be wrong. -/
def enterAll (countsCalls : Bool) (draft : Draft ω) :
    List (String × Declaration ω) → OnHost ω (Draft ω)
  | [] => pure draft
  | (name, d) :: rest =>
    match d.validate with
    | .error fault => throw (.refused (.build (.bounds name fault)))
    | .ok () =>
      if (draft.registry.lookup name).isSome then throw (.refused (.build (.registeredTwice name)))
      else enterAll countsCalls (draft.enter countsCalls name d) rest

/-- The selector with the entered resources. -/
def toSelector (draft : Draft ω) (b : Builder ω) (id : Nat) : Selector ω where
  id
  settings := b.settings
  policy := b.policy.getD (.shipped b.settings.rule)
  listener := b.listener
  probe := b.probe
  states := draft.states
  registry := draft.registry
  pools := Builder.groupUp b.settings.aliasThreshold draft.states
  counters := {}
  checker := none
  closed := false

/-- Builds a selector, with a timer at hand or without. -/
def assemble (timer : Bool) (b : Builder ω) (id : Nat) : OnHost ω (Selector ω) := do
  match b.settings.validate with
  | .error fault => throw (.refused (.build (.settings fault)))
  | .ok () =>
    if b.needsTimer && !timer then throw (.refused .noTimer)
    let draft ← enterAll b.settings.countsCalls {} b.resources
    OnHost.start (b.rank id) (draft.toSelector b id)

/-! ## What it comes to -/

theorem enterAll_eq (countsCalls : Bool) (resources : List (String × Declaration ω)) {draft : Draft ω}
    {seen : List String} (hseen : ∀ name, (draft.registry.lookup name).isSome = seen.contains name)
    (host : Host ω) : enterAll countsCalls draft resources host =
      match Builder.validateResources seen resources with
      | .ok () => .ok ⟨draft.states ++ resources.map fun (name, d) =>
          Resource.ofDeclaration name d countsCalls,
          draft.registry ++ (resources.map (·.1)).zipIdx draft.states.length⟩ host
      | .error fault => .error (.refused (.build fault)) host := by
  induction resources generalizing draft seen with
  | nil =>
      simp only [Builder.validateResources, List.map_nil, List.zipIdx_nil, List.append_nil]
      rfl
  | cons entry rest ih =>
      obtain ⟨name, d⟩ := entry
      unfold enterAll Builder.validateResources
      cases d.validate with
      | error fault => rfl
      | ok =>
          rw [hseen]
          by_cases hname : seen.contains name
          · simp only [hname, if_true]
            rfl
          · have hseen' (other : String) :
                ((draft.enter countsCalls name d).registry.lookup other).isSome =
                  (name :: seen).contains other := by
              unfold enter
              rw [List.lookup_append, Option.isSome_or, hseen, List.contains_cons, Bool.or_comm]
              congr 1
              by_cases heq : other = name
              · simp [List.lookup, heq]
              · simp [List.lookup, beq_eq_false_iff_ne.2 heq]
            simp only [hname]
            refine (ih hseen').trans ?_
            unfold enter
            simp [List.zipIdx_cons]

/-- A builder that has a timer, if it needs one, is accepted or refused as it is at once. -/
theorem assemble_eq {timer : Bool} {b : Builder ω} (htimer : (b.needsTimer && !timer) = false)
    (id : Nat) (host : Host ω) :
    assemble timer b id host = OnHost.built host (b.build id host) := by
  cases hsettings : b.settings.validate with
  | error fault =>
      unfold assemble Builder.build Builder.validate
      rw [hsettings]
      rfl
  | ok =>
      have hassemble : assemble timer b id host =
          (enterAll b.settings.countsCalls {} b.resources >>= fun draft =>
            OnHost.start (b.rank id) (draft.toSelector b id)) host := by
        unfold assemble
        simp only [hsettings, htimer, Bool.false_eq_true, if_false]
      have hvalidate : b.validate = Builder.validateResources [] b.resources := by
        unfold Builder.validate
        rw [hsettings]
      have hnone (name : String) :
          (({} : Draft ω).registry.lookup name).isSome = ([] : List String).contains name := rfl
      have hentered := enterAll_eq b.settings.countsCalls b.resources hnone host
      rw [hassemble]
      cases hvalid : Builder.validateResources [] b.resources with
      | error fault =>
          rw [hvalid] at hentered hvalidate
          unfold Builder.build
          rw [hvalidate]
          exact InPlace.bind_error hentered _
      | ok =>
          rw [hvalid] at hentered hvalidate
          exact (InPlace.bind_ok hentered _).trans (OnHost.start_eq hvalidate id host)

end Draft

/-! ## The first fault -/

variable [Scalar ω]

/-- What is wrong with an entry after entries of the given names. -/
inductive EntryFault (taken : List String) (name : String) (d : Declaration ω) : BuildFault ω → Prop
  | bounds {fault : BoundsFault ω} (h : d.validate = .error fault) :
    EntryFault taken name d (.bounds name fault)
  | registeredTwice (h : d.Valid) (htaken : name ∈ taken) :
    EntryFault taken name d (.registeredTwice name)

/-- The fault of the settings, or else that of the first entry that has one. -/
inductive Builder.FirstFault (b : Builder ω) : BuildFault ω → Prop
  | settings {fault : SettingsFault ω} (h : b.settings.validate = .error fault) :
    b.FirstFault (.settings fault)
  | entry {before after : List (String × Declaration ω)} {name : String} {d : Declaration ω}
    {fault : BuildFault ω} (hsettings : b.settings.Valid)
    (hresources : b.resources = before ++ (name, d) :: after) (hbefore : ValidResources before)
    (hfault : EntryFault (before.map (·.1)) name d fault) : b.FirstFault fault

namespace Builder

/-- The search comes past what it finds nothing wrong with. -/
theorem validateResources_append {seen : List String} {before : List (String × Declaration ω)}
    (h : validateResources seen before = .ok ()) (after : List (String × Declaration ω)) :
    validateResources seen (before ++ after) =
      validateResources ((before.map (·.1)).reverse ++ seen) after := by
  induction before generalizing seen with
  | nil => rfl
  | cons entry rest ih =>
      obtain ⟨name, d⟩ := entry
      unfold validateResources at h
      rw [List.cons_append]
      conv_lhs => unfold validateResources
      split at h
      · exact nomatch h
      · next hvalid =>
          split at h
          · exact nomatch h
          · next hnew =>
              simp only [if_neg hnew]
              rw [ih h]
              simp

end Builder

namespace EntryFault

variable [LawfulScalar ω] [RangedScalar ω] {taken : List String} {name : String}
  {d : Declaration ω} {fault : BuildFault ω}

omit [LawfulScalar ω] [RangedScalar ω] in
theorem congr (h : EntryFault taken name d fault) {taken' : List String}
    (hsub : ∀ other ∈ taken, other ∈ taken') : EntryFault taken' name d fault := by
  cases h with
  | bounds h => exact .bounds h
  | registeredTwice h htaken => exact .registeredTwice h (hsub name htaken)

/-- The search ends at an entry with a fault. -/
theorem validateResources_eq (h : EntryFault taken name d fault)
    (after : List (String × Declaration ω)) :
    Builder.validateResources taken ((name, d) :: after) = .error fault := by
  unfold Builder.validateResources
  cases h with
  | bounds h => rw [h]
  | registeredTwice h htaken =>
      rw [Declaration.validate_iff.2 h]
      simp only [List.contains_iff_mem.2 htaken, if_true]

theorem exists_of_validateResources {seen : List String}
    {resources : List (String × Declaration ω)}
    (h : Builder.validateResources seen resources = .error fault) : ∃ before name d after,
      resources = before ++ (name, d) :: after ∧ Builder.validateResources seen before = .ok () ∧
        EntryFault ((before.map (·.1)).reverse ++ seen) name d fault := by
  induction resources generalizing seen with
  | nil => exact nomatch h
  | cons entry rest ih =>
      obtain ⟨name, d⟩ := entry
      unfold Builder.validateResources at h
      split at h
      · next fault hfault =>
          obtain rfl := Except.error.inj h
          exact ⟨[], name, d, rest, rfl, rfl, .bounds hfault⟩
      · next hvalid =>
          split at h
          · next hseen =>
              obtain rfl := Except.error.inj h
              exact ⟨[], name, d, rest, rfl, rfl,
                .registeredTwice (Declaration.validate_iff.1 hvalid) (List.contains_iff_mem.1 hseen)⟩
          · next hnew =>
              obtain ⟨before, name', d', after, rfl, hbefore, hfault⟩ := ih h
              refine ⟨(name, d) :: before, name', d', after, rfl, ?_, ?_⟩
              · unfold Builder.validateResources
                rw [hvalid]
                simp only [if_neg hnew]
                exact hbefore
              · simpa using hfault

end EntryFault

namespace Builder

variable [LawfulScalar ω] [RangedScalar ω] {b : Builder ω} {fault : BuildFault ω}

/-- The search answers the first fault. -/
theorem firstFault_iff : b.FirstFault fault ↔ b.validate = .error fault := by
  unfold validate
  constructor
  · intro h
    cases h with
    | settings h => rw [h]
    | entry hsettings hresources hbefore hfault =>
        rw [Settings.validate_iff.2 hsettings, hresources]
        refine (validateResources_append (validResources_iff.2 hbefore) _).trans ?_
        exact (hfault.congr (by simp)).validateResources_eq _
  · intro h
    split at h
    · next hsettings =>
        obtain rfl := Except.error.inj h
        exact .settings hsettings
    · next hsettings =>
        obtain ⟨before, name, d, after, hresources, hbefore, hfault⟩ :=
          EntryFault.exists_of_validateResources h
        exact .entry (Settings.validate_iff.1 hsettings) hresources
          (validResources_iff.1 hbefore) (hfault.congr (by simp))

theorem exists_firstFault (h : ¬ b.Valid) : ∃ fault, b.FirstFault fault := by
  cases hvalidate : b.validate with
  | ok => exact absurd (validate_iff.1 hvalidate) h
  | error fault => exact ⟨fault, firstFault_iff.2 hvalidate⟩

theorem build_eq_error_iff {id : Nat} {host : Host ω} :
    b.build id host = .error (.invalid fault) ↔ b.FirstFault fault := by
  rw [firstFault_iff]
  cases hvalid : b.validate with
  | error fault =>
      unfold build
      rw [hvalid]
      simp only [Except.error.injEq, BuildFailure.invalid.injEq]
  | ok => exact ⟨fun hbuild => absurd hvalid (exists_invalid_iff.1 ⟨fault, hbuild⟩), nofun⟩

end Builder

/-- A selector can be built if and only if its settings are valid, every resource is, and no name
comes twice, as long as the policy says of every resource whether it needs a check. A builder of
another kind is refused for its first fault, whatever the policy, and nothing has been done to the
host by then. -/
theorem Builder.build_accepts_valid {b : Builder Float} (h : b.runsByHand = true ∨ b.probe = none)
    (timer : Bool) (id : Nat) (host : Host Float) :
    (b.Answers → ((∃ s, b.build id host = .ok s) ↔ b.Valid)) ∧
    ((∃ fault, b.build id host = .error (.invalid fault)) ↔ ¬ b.Valid) ∧
    (∀ s, b.build id host = .ok s → Draft.assemble timer b id host = .ok s.selector s.host) ∧
    (¬ b.Valid → ∃ fault, b.FirstFault fault) ∧
    ∀ fault, b.FirstFault fault → b.build id host = .error (.invalid fault) ∧
      Draft.assemble timer b id host = .error (.refused (.build fault)) host := by
  have htimer : (b.needsTimer && !timer) = false := by
    unfold needsTimer
    rcases h with h | h
    · simp [h]
    · simp [h]
  have hassemble := Draft.assemble_eq htimer id host
  refine ⟨fun hanswers => ?_, ?_, ?_, exists_firstFault, ?_⟩
  · rw [← validate_iff]
    constructor
    · rintro ⟨s, hbuild⟩
      exact (build_cases hbuild).1
    · intro hvalid
      exact exists_build hvalid hanswers id host
  · rw [exists_invalid_iff, ne_eq, validate_iff]
  · intro s hbuild
    rw [hassemble, hbuild]
    rfl
  · intro fault hfault
    have hbuild : b.build id host = .error (.invalid fault) := build_eq_error_iff.2 hfault
    refine ⟨hbuild, ?_⟩
    rw [hassemble, hbuild]
    rfl

/-- The builder of two resources is accepted, and refused when the second has the name of the
first. -/
theorem Builder.build_accepts_valid_pair : ∃ b : Builder Float,
    (∃ s, pair.build 0 { rng := ⟨0⟩ } = .ok s) ∧ ¬ b.Valid ∧
    b.build 0 { rng := ⟨0⟩ } = .error (.invalid (.registeredTwice "a")) ∧
    Draft.assemble false b 0 { rng := ⟨0⟩ } = .error (.refused (.build (.registeredTwice "a")))
      { rng := ⟨0⟩ } := by
  let b : Builder Float :=
    { pair with resources := [("a", .ofWeight 100), ("a", ⟨50, 5, 1, none⟩)] }
  obtain ⟨haccepted, -⟩ := build_accepts_valid (b := pair) (.inl rfl) false 0 { rng := ⟨0⟩ }
  obtain ⟨-, -, -, -, hrefused⟩ := build_accepts_valid (b := b) (.inl rfl) false 0 { rng := ⟨0⟩ }
  refine ⟨b, (haccepted (.of_none rfl)).2 (validate_iff.1 pair_valid), fun h => ?_, hrefused _ ?_⟩
  · exact absurd h.resources.nodup (by decide)
  · have hresources : b.resources = [("a", .ofWeight 100)] ++ ("a", ⟨50, 5, 1, none⟩) :: [] := rfl
    refine .entry (validate_iff.1 pair_valid).settings hresources ?_ ?_
    · exact validResources_iff.1 rfl
    · exact .registeredTwice (Declaration.validate_iff.1 rfl) (by decide)

end ResourceSelection
