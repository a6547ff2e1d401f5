import ResourceSelection.Proofs.Acceptance
import ResourceSelection.Proofs.Layout

/-!
# Weights stay within bounds

Every weight a resource ever has lies between the bounds that it was registered with, and neither
these nor its priority change. Policies and probes may propose what they like, NaN and the
infinities included. A weight is written when the resource is registered, when a report or a probe
proposes one and when the resource is forced down, and each of these starts from a weight within
the bounds and leaves one there.
-/

namespace ResourceSelection

variable {ω : Type} [Scalar ω]

/-- How a name is registered: as declared, or else as an unknown resource. -/
def Builder.declarationOf? (b : Builder ω) (name : String) : Option (Declaration ω) :=
  (b.resources.lookup name).or (b.settings.autoAddWeight.map .ofWeight)

omit [Scalar ω] in
/-- The resource has the bounds and the priority of a declaration. -/
structure Resource.Meets (r : Resource ω) (d : Declaration ω) : Prop where
  maxWeight : r.maxWeight = d.maxWeight
  minWeight : r.minWeight = d.minWeight
  priority : r.priority = d.priority

theorem Resource.Kept.meets {r t : Resource ω} (h : r.Kept t) {d : Declaration ω}
    (hr : r.Meets d) : t.Meets d :=
  ⟨h.maxWeight.trans hr.maxWeight, h.minWeight.trans hr.minWeight, h.priority.trans hr.priority⟩

/-- A resource registered by a sound declaration starts within its bounds. -/
theorem Resource.within_ofDeclaration [LawfulScalar ω] {d : Declaration ω} (h : d.Sound)
    (name : String) (countsCalls : Bool) : (ofDeclaration name d countsCalls).Within :=
  have hle := Scalar.le_trans h.lower h.upper
  clampWeight_within hle (Scalar.le_refl (Scalar.isNaN_right hle))

namespace Selector

/-- Every state is as its name was registered, with a weight between bounds that are not
negative. -/
structure Bounded (b : Builder ω) (s : Selector ω) : Prop where
  settings : s.settings = b.settings
  known {name : String} : name ∈ b.resources.map (·.1) → s.place? name ≠ none
  meets {r : Resource ω} : r ∈ s.states → ∃ d, b.declarationOf? r.name = some d ∧ r.Meets d
  within {r : Resource ω} : r ∈ s.states → r.Within
  nonneg {r : Resource ω} : r ∈ s.states → 0 ≤ r.minWeight

theorem Bounded.frame {b : Builder ω} {s t : Selector ω} (h : s.Bounded b) (hf : s.Frame t) :
    t.Bounded b where
  settings := hf.settings.trans h.settings
  known hname := by
    unfold place?
    rw [hf.registry]
    exact h.known hname
  meets hr := by
    obtain ⟨place, hplace⟩ := List.mem_iff_getElem?.1 hr
    obtain ⟨r', hr', hkept⟩ := hf.kept hplace
    obtain ⟨d, hd, hmeets⟩ := h.meets (List.mem_of_getElem? hr')
    exact ⟨d, hkept.name ▸ hd, hkept.meets hmeets⟩
  within hr := by
    obtain ⟨place, hplace⟩ := List.mem_iff_getElem?.1 hr
    obtain ⟨r', hr', hkept⟩ := hf.kept hplace
    exact hkept.within (h.within (List.mem_of_getElem? hr'))
  nonneg hr := by
    obtain ⟨place, hplace⟩ := List.mem_iff_getElem?.1 hr
    obtain ⟨r', hr', hkept⟩ := hf.kept hplace
    exact hkept.minWeight ▸ h.nonneg (List.mem_of_getElem? hr')

variable [LawfulScalar ω]

/-- A newcomer is registered as the settings say. -/
theorem Bounded.register {b : Builder ω} {s : Selector ω} (h : s.Bounded b)
    (hvalid : b.validate = .ok ()) {name : String} {weight : ω} (hnew : s.place? name = none)
    (hauto : s.settings.autoAddWeight = some weight) : (s.register name weight).Bounded b := by
  rw [h.settings] at hauto
  have hsound := Settings.sound_ofWeight (b.validate_settings hvalid) hauto
  have hundeclared : b.resources.lookup name = none := by
    rw [List.lookup_eq_none_iff]
    intro entry hentry
    have hne : entry.1 ≠ name := fun heq => h.known (List.mem_map_of_mem hentry) (heq ▸ hnew)
    simpa using hne.symm
  have hmem {r : Resource ω} (hr : r ∈ (s.register name weight).states) :
      r ∈ s.states ∨ r = s.newcomer name weight := by
    rw [states_register, List.mem_append, List.mem_singleton] at hr
    exact hr
  refine ⟨h.settings, ?_, ?_, ?_, ?_⟩
  · intro other hother
    rw [place?_register]
    split
    · exact Option.some_ne_none _
    · exact h.known hother
  · intro r hr
    rcases hmem hr with hold | rfl
    · exact h.meets hold
    · refine ⟨.ofWeight weight, ?_, rfl, rfl, rfl⟩
      show (b.resources.lookup name).or _ = _
      rw [hundeclared, hauto]
      rfl
  · intro r hr
    rcases hmem hr with hold | rfl
    · exact h.within hold
    · exact Resource.within_ofDeclaration hsound _ _
  · intro r hr
    rcases hmem hr with hold | rfl
    · exact h.nonneg hold
    · exact hsound.nonneg

end Selector

namespace Builder

omit [Scalar ω] in
/-- Among declarations of different names each is the one found under its name. -/
theorem lookup_resources {resources : List (String × Declaration ω)}
    (h : (resources.map (·.1)).Nodup) {entry : String × Declaration ω} (hentry : entry ∈ resources) :
    resources.lookup entry.1 = some entry.2 := by
  obtain ⟨before, after, rfl⟩ := List.append_of_mem hentry
  rw [List.lookup_eq_some_iff]
  refine ⟨before, after, rfl, fun other hother => ?_⟩
  rw [List.map_append, List.nodup_append] at h
  have hne : other.1 ≠ entry.1 :=
    h.2.2 other.1 (List.mem_map_of_mem hother) entry.1 (by simp)
  simpa using hne.symm

theorem mem_states_toSelector {b : Builder ω} {id : Nat} {r : Resource ω}
    (hr : r ∈ (b.toSelector id).states) : ∃ entry ∈ b.resources,
      r = Resource.ofDeclaration entry.1 entry.2 b.settings.countsCalls := by
  obtain ⟨entry, hentry, rfl⟩ := List.mem_map.1 hr
  exact ⟨entry, hentry, rfl⟩

variable [LawfulScalar ω]

theorem bounded_toSelector {b : Builder ω} (hvalid : b.validate = .ok ()) (id : Nat) :
    (b.toSelector id).Bounded b where
  settings := rfl
  known hname := by
    obtain ⟨i, hi⟩ := List.mem_iff_getElem?.1 hname
    have hplace : (b.toSelector id).place? _ = some (0 + i) :=
      (lookup_zipIdx (nodup_names hvalid)).2 ⟨i, rfl, hi⟩
    rw [hplace]
    exact Option.some_ne_none _
  meets hr := by
    obtain ⟨entry, hentry, rfl⟩ := mem_states_toSelector hr
    refine ⟨entry.2, ?_, rfl, rfl, rfl⟩
    show (b.resources.lookup entry.1).or _ = _
    rw [lookup_resources (nodup_names hvalid) hentry]
    rfl
  within hr := by
    obtain ⟨entry, hentry, rfl⟩ := mem_states_toSelector hr
    exact Resource.within_ofDeclaration (sound_of_validate hvalid hentry) _ _
  nonneg hr := by
    obtain ⟨entry, hentry, rfl⟩ := mem_states_toSelector hr
    exact (sound_of_validate hvalid hentry).nonneg

namespace Reaches

variable {b : Builder ω} {s : System ω}

theorem valid (h : b.Reaches s) : b.validate = .ok () :=
  h.induct (P := fun _ => b.validate = .ok ()) (fun _ hvalid => hvalid) (fun _ _ h => h) fun _ h => h

theorem layout (h : b.Reaches s) : s.selector.Layout :=
  h.induct (fun id hvalid => layout_toSelector (nodup_names hvalid) id)
    (fun hnew _ hs => hs.register _ hnew) fun hc hs => hs.frame hc.frame

theorem bounded (h : b.Reaches s) : s.selector.Bounded b :=
  h.induct (P := fun s => s.Bounded b) (fun id hvalid => bounded_toSelector hvalid id)
    (fun hnew hauto hs => hs.register h.valid hnew hauto) fun hc hs => hs.frame hc.frame

end Reaches

end Builder

end ResourceSelection
