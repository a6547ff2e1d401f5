import ResourceSelection.Proofs.Change

/-!
# What no change touches

The elementary changes leave most of a selector alone: what it was built with, which names it knows
and where, and of every group all but the snapshot and the count of turns. Of the states they leave
the number and, in each, all that `Resource.Kept` says.
-/

namespace ResourceSelection

variable {ω : Type}

/-- All that a group keeps for as long as it has the same members. -/
def GroupOf.fixed {μ : Type} (g : GroupOf μ ω) : Nat × List μ × ω × Bool × Nat :=
  (g.priority, g.members, g.totalMax, g.uniformMax, g.aliasThreshold)

theorem map_modify_of_eq {α β : Type} (f : α → α) (g : α → β) (h : ∀ a, g (f a) = g a)
    (index : Nat) (xs : List α) : (xs.modify index f).map g = xs.map g := by
  induction xs generalizing index with
  | nil => rw [List.modify_nil]
  | cons x rest ih =>
      cases index with
      | zero => rw [List.modify_zero_cons, List.map_cons, List.map_cons, h]
      | succ index => rw [List.modify_succ_cons, List.map_cons, List.map_cons, ih]

variable [Scalar ω]

namespace Selector

/-- The second selector is the first one after some changes, as far as their frame tells. -/
structure Frame (s t : Selector ω) : Prop where
  id : t.id = s.id
  settings : t.settings = s.settings
  policy : t.policy = s.policy
  registry : t.registry = s.registry
  pools : t.pools.map GroupOf.fixed = s.pools.map GroupOf.fixed
  length : t.states.length = s.states.length
  kept {place : Nat} {r : Resource ω} :
    t.states[place]? = some r → ∃ r', s.states[place]? = some r' ∧ r'.Kept r

namespace Frame

theorem refl (s : Selector ω) : s.Frame s :=
  ⟨rfl, rfl, rfl, rfl, rfl, rfl, fun h => ⟨_, h, .refl _⟩⟩

theorem trans {s t u : Selector ω} (h : s.Frame t) (h' : t.Frame u) : s.Frame u where
  id := h'.id.trans h.id
  settings := h'.settings.trans h.settings
  policy := h'.policy.trans h.policy
  registry := h'.registry.trans h.registry
  pools := h'.pools.trans h.pools
  length := h'.length.trans h.length
  kept hr := by
    obtain ⟨r', hr', hkept'⟩ := h'.kept hr
    obtain ⟨r'', hr'', hkept⟩ := h.kept hr'
    exact ⟨r'', hr'', hkept.trans hkept'⟩

/-- The state that a state before the changes has become. -/
theorem became {s t : Selector ω} (h : s.Frame t) {place : Nat} {r : Resource ω}
    (hr : s.states[place]? = some r) : ∃ r', t.states[place]? = some r' ∧ r.Kept r' := by
  have hlt : place < t.states.length := by
    rw [h.length]
    exact (List.getElem?_eq_some_iff.1 hr).1
  obtain ⟨r', hr', hkept⟩ := h.kept (List.getElem?_eq_getElem hlt)
  obtain rfl : r = r' := Option.some.inj (hr.symm.trans hr')
  exact ⟨_, List.getElem?_eq_getElem hlt, hkept⟩

theorem priorities {s t : Selector ω} (h : s.Frame t) :
    t.pools.map (·.priority) = s.pools.map (·.priority) := by
  simpa [GroupOf.fixed, Function.comp_def] using congrArg (List.map (·.1)) h.pools

theorem members {s t : Selector ω} (h : s.Frame t) :
    t.pools.map (·.members) = s.pools.map (·.members) := by
  simpa [GroupOf.fixed, Function.comp_def] using congrArg (List.map (·.2.1)) h.pools

/-- A group after the changes was a group before them. -/
theorem pool {s t : Selector ω} (h : s.Frame t) {p : GroupOf Nat ω} (hp : p ∈ t.pools) :
    ∃ q ∈ s.pools, q.priority = p.priority ∧ q.members = p.members := by
  have hmem : p.fixed ∈ s.pools.map GroupOf.fixed := h.pools ▸ List.mem_map_of_mem hp
  obtain ⟨q, hq, heq⟩ := List.mem_map.1 hmem
  exact ⟨q, hq, congrArg (·.1) heq, congrArg (·.2.1) heq⟩

end Frame

theorem frame_turnTo (s : Selector ω) (index : Nat) (cursor : UInt64) :
    s.Frame (s.turnTo index cursor) :=
  { Frame.refl s with
    pools := map_modify_of_eq (fun p => { p with cursor }) _ (fun _ => rfl) index s.pools }

theorem frame_modifyAt (s : Selector ω) (place : Nat) {f : Resource ω → Resource ω}
    (kept : ∀ r, Resource.Kept r (f r)) : s.Frame (s.modifyAt place f) :=
  { Frame.refl s with
    length := List.length_modify f s.states place
    kept := by
      intro i r hr
      simp only [modifyAt, List.getElem?_modify] at hr
      obtain ⟨r', hr', rfl⟩ := Option.map_eq_some_iff.1 hr
      refine ⟨r', hr', ?_⟩
      split
      · exact kept r'
      · exact .refl r' }

theorem frame_refreshGroup (s : Selector ω) (priority : Nat) :
    s.Frame (s.refreshGroup priority) := by
  unfold refreshGroup
  split
  · next index _ =>
      exact { Frame.refl s with
        pools := map_modify_of_eq (refreshPool s.states) _ (fun _ => rfl) index s.pools }
  · exact .refl s

/-- Every change has this frame. -/
theorem Change.frame {s t : Selector ω} (h : s.Change t) : s.Frame t := by
  cases h with
  | idle => exact { Frame.refl s with kept := fun hr => ⟨_, hr, .refl _⟩ }
  | turn index cursor => exact s.frame_turnTo index cursor
  | touch place kept same => exact s.frame_modifyAt place kept
  | weigh place kept found => exact (s.frame_modifyAt place kept).trans (frame_refreshGroup _ _)

theorem Changes.frame {s t : Selector ω} (h : s.Changes t) : s.Frame t :=
  h.induct (P := s.Frame) (fun hc hs => hs.trans hc.frame) (.refl s)

end Selector

/-! ## Events -/

namespace System

variable [LawfulScalar ω]

theorem settings_step (e : Event ω) (s : System ω) :
    (s.step e).selector.settings = s.selector.settings := by
  rw [(s.step_changes e).frame.settings]
  rcases e.enrols_cases s.selector with heq | ⟨name, weight, -, -, heq⟩
  · rw [heq]
  · rw [heq]
    rfl

theorem id_step (e : Event ω) (s : System ω) : (s.step e).selector.id = s.selector.id := by
  rw [(s.step_changes e).frame.id]
  rcases e.enrols_cases s.selector with heq | ⟨name, weight, -, -, heq⟩
  · rw [heq]
  · rw [heq]
    rfl

end System

end ResourceSelection
