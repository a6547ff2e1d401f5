import ResourceSelection.Proofs.Asking
import ResourceSelection.Proofs.Order
import ResourceSelection.Scalar.Binary64

/-!
# What an accepted builder promises

Validation answers with the first cause that speaks against a builder. When there is none, the
declarations are sound: their bounds are finite and in order, none is negative, and the starting
weight lies between them. The names are all different, and the weight for unknown resources, if
there is one, makes a sound declaration too.
-/

namespace ResourceSelection

variable {ω : Type} [Scalar ω]

/-- A declaration whose weights are in order. -/
structure Declaration.Sound (d : Declaration ω) : Prop where
  nonneg : 0 ≤ d.minWeight
  lower : d.minWeight ≤ d.initialWeight
  upper : d.initialWeight ≤ d.maxWeight

namespace Builder

/-- The resources are accepted if every single one is and no name comes twice. -/
theorem validateResources_eq_ok {seen : List String} {resources : List (String × Declaration ω)} :
    validateResources seen resources = .ok () ↔
      (∀ entry ∈ resources, entry.2.validate = .ok ()) ∧ (resources.map (·.1)).Nodup ∧
        ∀ entry ∈ resources, entry.1 ∉ seen := by
  induction resources generalizing seen with
  | nil => simp [validateResources]
  | cons entry rest ih =>
      obtain ⟨name, d⟩ := entry
      unfold validateResources
      split
      · next fault hfault => simp [hfault]
      · next hvalid =>
          split
          · next hseen =>
              have : name ∈ seen := by simpa using hseen
              simp [this]
          · next hseen =>
              have : name ∉ seen := by simpa using hseen
              rw [ih, List.map_cons, List.nodup_cons, List.mem_map]
              constructor
              · rintro ⟨hall, hnodup, hnew⟩
                refine ⟨List.forall_mem_cons.2 ⟨hvalid, hall⟩, ⟨?_, hnodup⟩,
                  List.forall_mem_cons.2 ⟨this, fun entry h => ?_⟩⟩
                · rintro ⟨entry, hentry, rfl⟩
                  exact hnew entry hentry List.mem_cons_self
                · exact fun hmem => hnew entry h (List.mem_cons_of_mem name hmem)
              · rintro ⟨hall, ⟨hname, hnodup⟩, hnew⟩
                refine ⟨(List.forall_mem_cons.1 hall).2, hnodup, fun entry h hmem => ?_⟩
                rcases List.mem_cons.1 hmem with heq | hmem
                · exact hname ⟨entry, h, heq⟩
                · exact (List.forall_mem_cons.1 hnew).2 entry h hmem

theorem validateResources_of_validate {b : Builder ω} (h : b.validate = .ok ()) :
    validateResources [] b.resources = .ok () := by
  unfold validate at h
  split at h
  · exact nomatch h
  · exact h

theorem validate_settings {b : Builder ω} (h : b.validate = .ok ()) :
    b.settings.validate = .ok () := by
  unfold validate at h
  split at h
  · exact nomatch h
  · next hsettings => exact hsettings

theorem nodup_names {b : Builder ω} (h : b.validate = .ok ()) :
    (b.resources.map (·.1)).Nodup :=
  (validateResources_eq_ok.1 (validateResources_of_validate h)).2.1

end Builder

theorem Range.not_lt_of_atLeast {path : String} {least x : ω}
    (h : Range.atLeast path least x = []) : ¬ x < least := by
  intro hlt
  rw [Range.atLeast, if_pos hlt] at h
  exact nomatch h

variable [LawfulScalar ω]

open Scalar LawfulScalar

theorem Declaration.sound_of_validate {d : Declaration ω} (h : d.validate = .ok ()) : d.Sound := by
  unfold validate at h
  split at h
  · exact nomatch h
  · next hfinite =>
      split at h
      · exact nomatch h
      · next hranges =>
          split at h
          · exact nomatch h
          · split at h
            · exact nomatch h
            · next hinitial =>
                simp only [Bool.or_eq_true, Bool.not_eq_true', decide_eq_true_eq, not_or,
                  Bool.not_eq_false] at hfinite hinitial
                simp only [Bool.not_eq_true', Bool.not_eq_false, List.isEmpty_iff, rangeFaults,
                  List.append_eq_nil_iff] at hranges
                have hmax := isNaN_of_isFinite hfinite.1
                have hmin := isNaN_of_isFinite hfinite.2
                have hinit := isNaN_of_isFinite hinitial.1.1
                exact ⟨le_of_not_lt isNaN_zero hmin (Range.not_lt_of_atLeast hranges.2),
                  le_of_not_lt hmin hinit hinitial.1.2, le_of_not_lt hinit hmax hinitial.2⟩

/-- A number that is finite and not negative is a weight to register resources at. -/
theorem Declaration.sound_ofWeight {weight : ω} (hfinite : isFinite weight = true)
    (hweight : ¬ weight < 0) : (Declaration.ofWeight weight).Sound where
  nonneg := le_refl isNaN_zero
  lower := le_of_not_lt isNaN_zero (isNaN_of_isFinite hfinite) hweight
  upper := le_refl (isNaN_of_isFinite hfinite)

omit [LawfulScalar ω] in
/-- The weight for unknown resources is a finite number that is not negative. -/
theorem Settings.bounds_autoAddWeight {s : Settings ω} (h : s.validate = .ok ()) {weight : ω}
    (hauto : s.autoAddWeight = some weight) : isFinite weight = true ∧ ¬ weight < 0 := by
  unfold validate at h
  split at h
  · exact nomatch h
  · split at h
    · exact nomatch h
    · split at h
      · exact nomatch h
      · split at h
        · exact nomatch h
        · rw [hauto] at h
          simp only at h
          split at h
          · exact nomatch h
          · next hweight =>
              simpa only [Bool.or_eq_true, Bool.not_eq_true', decide_eq_true_eq, not_or,
                Bool.not_eq_false] using hweight

theorem Settings.sound_ofWeight {s : Settings ω} (h : s.validate = .ok ()) {weight : ω}
    (hauto : s.autoAddWeight = some weight) : (Declaration.ofWeight weight).Sound := by
  obtain ⟨hfinite, hweight⟩ := s.bounds_autoAddWeight h hauto
  exact Declaration.sound_ofWeight hfinite hweight

namespace Builder

/-- Every declaration of an accepted builder is sound. -/
theorem sound_of_validate {b : Builder ω} (h : b.validate = .ok ())
    {entry : String × Declaration ω} (hentry : entry ∈ b.resources) : entry.2.Sound :=
  Declaration.sound_of_validate
    ((validateResources_eq_ok.1 (validateResources_of_validate h)).1 entry hentry)

/-- A builder with resources of two priorities that also registers what it does not know. -/
def pair : Builder Float where
  settings := { Settings.default with autoAddWeight := some 10, countsCalls := true }
  resources := [("a", .ofWeight 100), ("b", ⟨50, 5, 1, none⟩)]
  policy := none
  listener := none
  probe := none
  runsByHand := true

theorem pair_valid : pair.validate = .ok () := by rfl

end Builder

end ResourceSelection
