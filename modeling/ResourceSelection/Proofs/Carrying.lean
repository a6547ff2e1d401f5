import ResourceSelection.Membership.Manager
import ResourceSelection.Proofs.Bounds

/-!
# What is carried over

A member that stays is declared to the next selector at the weight that it has, brought between the
new bounds. What comes of that depends on nothing but the seat of the weight: every weight that a
selector ever holds is one of its bounds or lies strictly between them, and such a weight is carried
over unchanged as long as the bounds are. Only where the bounds are two zeros of different sign may
one zero become the other.

Under new bounds the carried weight has a seat again. It therefore passes the check that a starting
weight has to pass, and of the declaration only the bounds are left to be judged.
-/

namespace ResourceSelection

variable {ω : Type} [Scalar ω]

/-! ## How a member is declared -/

namespace Membership

@[simp] theorem maxWeight_declarationOf (m : Membership ω) (previous : Option (Selector ω))
    (name : String) (d : Declaration ω) :
    (m.declarationOf previous name d).maxWeight = d.maxWeight := by
  unfold declarationOf
  simp only
  split <;> split <;> rfl

@[simp] theorem minWeight_declarationOf (m : Membership ω) (previous : Option (Selector ω))
    (name : String) (d : Declaration ω) :
    (m.declarationOf previous name d).minWeight = d.minWeight := by
  unfold declarationOf
  simp only
  split <;> split <;> rfl

theorem mem_resources {m : Membership ω} {name : String} {d : Declaration ω}
    (h : m.roster.get? name = some d) (template : Builder ω) (previous : Option (Selector ω)) :
    (name, m.declarationOf previous name d) ∈ (m.builder template previous).resources := by
  obtain ⟨entry, hentry, rfl⟩ := Option.map_eq_some_iff.1 h
  obtain rfl : entry.1 = name := by simpa using List.find?_some hentry
  exact List.mem_map_of_mem (List.mem_of_find?_eq_some hentry)

/-- A name that the previous selector knows is declared at the weight carried over. -/
theorem declarationOf_carried (m : Membership ω) {previous : Selector ω} {name : String}
    {status : Status ω} (h : previous.statusOf name = some status) (d : Declaration ω) :
    m.declarationOf (some previous) name d = { m.declarationOf none name d with
      initial := some (status.carry (m.declarationOf none name d)) } := by
  unfold declarationOf
  simp only [Option.bind_some, h, Option.bind_none]

theorem declarationOf_of_unknown (m : Membership ω) {previous : Selector ω} {name : String}
    (h : previous.statusOf name = none) (d : Declaration ω) :
    m.declarationOf (some previous) name d = m.declarationOf none name d := by
  unfold declarationOf
  simp only [Option.bind_some, h, Option.bind_none]

end Membership

variable [LawfulScalar ω]

open Scalar LawfulScalar

/-! ## Every weight has a seat -/

/-- A resource registered by a sound declaration starts with a seat between its bounds. -/
theorem Resource.seated_ofDeclaration {d : Declaration ω} (h : d.Sound) (name : String)
    (countsCalls : Bool) : (ofDeclaration name d countsCalls).Seated := by
  show Scalar.Seated _ _ (clampWeight _ _ _ _)
  unfold clampWeight
  split
  · exact .inr (.inl rfl)
  · exact seated_brought (isNaN_left h.lower) (isNaN_right h.upper) d.initialWeight

namespace Builder.Reaches

variable {b : Builder ω} {s : System ω}

theorem seated (h : b.Reaches s) {r : Resource ω} (hr : r ∈ s.selector.states) : r.Seated := by
  suffices s.selector.Bounded b ∧ ∀ r ∈ s.selector.states, r.Seated from this.2 r hr
  refine h.induct (P := fun s => s.Bounded b ∧ ∀ r ∈ s.states, r.Seated) ?_ ?_ ?_
  · intro id hvalid
    refine ⟨bounded_toSelector hvalid id, fun r hr => ?_⟩
    obtain ⟨entry, hentry, rfl⟩ := mem_states_toSelector hr
    exact Resource.seated_ofDeclaration (sound_of_validate hvalid hentry) _ _
  · rintro s name weight hnew hauto ⟨hbounded, hseated⟩
    refine ⟨hbounded.register h.valid hnew hauto, fun r hr => ?_⟩
    rw [Selector.states_register, List.mem_append, List.mem_singleton] at hr
    rcases hr with hold | rfl
    · exact hseated r hold
    · rw [hbounded.settings] at hauto
      exact Resource.seated_ofDeclaration
        (Settings.sound_ofWeight (b.validate_settings h.valid) hauto) _ _
  · rintro s t hc ⟨hbounded, hseated⟩
    refine ⟨hbounded.frame hc.frame, fun r hr => ?_⟩
    obtain ⟨place, hplace⟩ := List.mem_iff_getElem?.1 hr
    obtain ⟨r', hr', hkept⟩ := hc.frame.kept hplace
    have hmem := List.mem_of_getElem? hr'
    exact hkept.seated (hbounded.within hmem) (hseated r' hmem)

end Builder.Reaches

/-- The resource has the bounds of the declaration and a weight with a seat between them. -/
structure Resource.Stands (r : Resource ω) (d : Declaration ω) : Prop where
  maxWeight : r.maxWeight = d.maxWeight
  minWeight : r.minWeight = d.minWeight
  within : r.Within
  seated : r.Seated

theorem Resource.Stands.isNaN_bounds {r : Resource ω} {d : Declaration ω} (h : r.Stands d) :
    isNaN d.minWeight = false ∧ isNaN d.maxWeight = false := by
  rw [← h.minWeight, ← h.maxWeight]
  exact ⟨isNaN_left h.within.1, isNaN_right h.within.2⟩

/-! ## The same bounds -/

namespace Declaration

/-- The bounds are two numbers or one and the same, and not two zeros of different sign. -/
def Distinct (d : Declaration ω) : Prop := d.minWeight < d.maxWeight ∨ d.minWeight = d.maxWeight

/-- The bounds are finite and in order, and each keeps its limits. -/
structure Ordered (d : Declaration ω) : Prop where
  finiteMax : isFinite d.maxWeight = true
  finiteMin : isFinite d.minWeight = true
  ranges : d.rangeFaults = []
  le : d.minWeight ≤ d.maxWeight

/-- A declaration is accepted if its bounds are in order and it starts between them. -/
theorem validate_eq_ok {d : Declaration ω} : d.validate = .ok () ↔
    d.Ordered ∧ isFinite d.initialWeight = true ∧ d.minWeight ≤ d.initialWeight ∧
      d.initialWeight ≤ d.maxWeight := by
  constructor
  · intro h
    have hsound := sound_of_validate h
    unfold validate at h
    split at h
    · exact nomatch h
    · next hfinite =>
        split at h
        · exact nomatch h
        · next hranges =>
            split at h
            · exact nomatch h
            · split at h
              · exact nomatch h
              · next hinitial =>
                  simp only [Bool.or_eq_true, Bool.not_eq_true', decide_eq_true_eq, not_or,
                    Bool.not_eq_false, List.isEmpty_iff] at hfinite hranges hinitial
                  exact ⟨⟨hfinite.1, hfinite.2, hranges, le_trans hsound.lower hsound.upper⟩,
                    hinitial.1.1, hsound.lower, hsound.upper⟩
  · rintro ⟨h, hfinite, hlower, hupper⟩
    unfold validate
    simp [h.finiteMax, h.finiteMin, h.ranges, not_lt_of_le h.le, hfinite, not_lt_of_le hlower,
      not_lt_of_le hupper]

end Declaration

namespace Status

variable {d : Declaration ω}

/-- A carried weight has a seat between the new bounds. -/
theorem seated_carry (s : Status ω) (h : d.Ordered) :
    Scalar.Seated d.minWeight d.maxWeight (s.carry d) :=
  seated_brought (isNaN_left h.le) (isNaN_right h.le) _

/-- A weight with a seat is carried over unchanged under the same bounds. -/
theorem carry_eq {r : Resource ω} (hr : r.Stands d) (hd : d.Distinct) :
    r.status.carry d = r.current := by
  obtain ⟨hl, hu⟩ := hr.isNaN_bounds
  have hseat : Scalar.Seated d.minWeight d.maxWeight r.current := by
    rw [← hr.minWeight, ← hr.maxWeight]
    exact hr.seated
  have hbrought := hseat.brought_eq hl hu hd
  by_cases hfull : r.maxWeight ≤ r.current
  · -- a weight at the maximum is the maximum: the minimum is below it, or the same
    have heq : d.maxWeight = r.current := by
      rw [hr.maxWeight] at hfull
      rcases hseat with heq | heq | ⟨-, hlt⟩
      · rcases hd with hlt | hsame
        · exact absurd hlt (heq ▸ not_lt_of_le hfull)
        · exact hsame.symm.trans heq.symm
      · exact heq.symm
      · exact absurd hlt (not_lt_of_le hfull)
    calc r.status.carry d
        = smaller (larger d.maxWeight d.minWeight) d.maxWeight := by
          rw [carry, if_pos (show r.status.maxWeight ≤ r.status.current from hfull)]
      _ = smaller (larger r.current d.minWeight) d.maxWeight := by rw [heq]
      _ = r.current := hbrought
  · have hsame : same r.status.maxWeight d.maxWeight = true := same_iff.2 hr.maxWeight
    calc r.status.carry d
        = smaller (larger r.current d.minWeight) d.maxWeight := by
          rw [carry, if_neg (show ¬ r.status.maxWeight ≤ r.status.current from hfull), if_pos hsame]
          rfl
      _ = r.current := hbrought

end Status

/-- A resource that is declared anew at the weight carried over, under the same bounds, has the
weight that it had. -/
theorem Resource.current_carried {r : Resource ω} {d : Declaration ω} (hr : r.Stands d)
    (hd : d.Distinct) (name : String) (countsCalls : Bool) :
    (ofDeclaration name { d with initial := some (r.status.carry d) } countsCalls).current =
      r.current := by
  obtain ⟨hl, hu⟩ := hr.isNaN_bounds
  show clampWeight (r.status.carry d) d.maxWeight d.minWeight d.maxWeight = _
  rw [Status.carry_eq hr hd, clampWeight, isNaN_right hr.within.1, ← hr.minWeight, ← hr.maxWeight]
  rw [← hr.minWeight] at hl
  rw [← hr.maxWeight] at hu
  refine hr.seated.brought_eq hl hu ?_
  rw [hr.minWeight, hr.maxWeight]
  exact hd

end ResourceSelection
