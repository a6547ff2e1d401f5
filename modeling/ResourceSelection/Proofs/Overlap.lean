import Mathlib.Data.Fin.VecNotation
import ResourceSelection.Proofs.Stepwise

/-!
# Snapshots when reports overlap

Reports that overlap leave right snapshots behind, as long as these are installed in the order in
which they are begun. Whoever moves a weight begins a snapshot afterwards, so the last one to be
begun is begun after the last change, and reads what stands; and if the order is kept it is also the
last one to be installed. This is the invariant (`Crowd.Covered`): a client is yet to begin a
snapshot, or the last one that was begun has read what stands so far, or none is under way and the
one installed is right.

Nothing keeps the clients to that order. A client may read the weights, lose its turn, and install
them after another client has moved a weight and installed a later reading. The snapshot is then out
of date with every report done, and it stays so until a report moves a weight of the group again: a
failed call to a resource that is down already does not.
-/

namespace ResourceSelection

variable {ι ω : Type} [Scalar ω]

/-! ## What has been read -/

namespace Selector

variable {s t : Selector ω} {priority : Nat} {left : List Nat} {weights : List ω}

/-- The weights read so far are what the members read so far weigh now. -/
def Reads (s : Selector ω) (priority : Nat) (left : List Nat) (weights : List ω) : Prop :=
  ∃ before, s.membersOf priority = before ++ left ∧
    weights = (statesAt s.states before).map (·.current)

omit [Scalar ω] in
theorem reads_nil (s : Selector ω) (priority : Nat) :
    s.Reads priority (s.membersOf priority) [] :=
  ⟨[], rfl, rfl⟩

omit [Scalar ω] in
theorem Reads.next {place : Nat} (h : s.Reads priority (place :: left) weights) :
    s.Reads priority left (weights ++ (s.states[place]?).toList.map (·.current)) := by
  obtain ⟨before, hmembers, rfl⟩ := h
  refine ⟨before ++ [place], by rw [hmembers, List.append_assoc]; rfl, ?_⟩
  rw [statesAt, statesAt, List.filterMap_append, List.map_append]
  cases hplace : s.states[place]? with
  | none => simp [hplace]
  | some r => simp [hplace]

omit [Scalar ω] in
theorem Reads.eq (h : s.Reads priority [] weights) :
    weights = (statesAt s.states (s.membersOf priority)).map (·.current) := by
  obtain ⟨before, hmembers, rfl⟩ := h
  rw [hmembers, List.append_nil]

theorem Reads.spares (h : s.Reads priority left weights) (hspares : s.Spares priority t) :
    t.Reads priority left weights := by
  obtain ⟨before, hmembers, rfl⟩ := h
  refine ⟨before, (hspares.frame.membersOf priority).trans hmembers, ?_⟩
  have hplaces : ∀ place ∈ before, place ∈ s.membersOf priority := fun place hplace =>
    hmembers ▸ List.mem_append_left left hplace
  have hcurrent := congrArg (List.map (·.2)) (hspares.loads_statesAt hplaces)
  rw [List.map_map, List.map_map] at hcurrent
  exact hcurrent.symm

theorem Reads.install (h : s.Reads priority left weights) (installed : Nat) (written : List ω) :
    (s.install installed written).Reads priority left weights := by
  obtain ⟨before, hmembers, rfl⟩ := h
  refine ⟨before, ((s.frame_install installed written).membersOf priority).trans hmembers, ?_⟩
  rw [states_install]

end Selector

/-! ## Snapshots in order -/

omit [Scalar ω] in
/-- The transition that a client is about. -/
def Phase.transition? : Phase ω → Option (Transition ω)
  | idle => none
  | moved t | reading t _ _ | announcing t => some t

namespace Crowd

/-- A client is yet to begin a snapshot, or the last one that was begun has read what stands, or
none is under way and the one installed is right. -/
def Covered (priority : Nat) (c : Crowd ι ω) (begun : List ι) : Prop :=
  (∃ i t, (c.clients i).phase = .moved t) ∨
  (∃ i t left weights, begun.getLast? = some i ∧ (c.clients i).phase = .reading t left weights ∧
    c.system.selector.Reads priority left weights) ∨
  begun = [] ∧ c.system.selector.SettledAt priority

/-- What every step keeps where all reports are on resources of one group. -/
structure Grounded (priority : Nat) (c : Crowd ι ω) : Prop where
  layout : c.system.selector.Layout
  summed : c.system.selector.Summed
  within {r : Resource ω} : r ∈ c.system.selector.states → r.Within ∧ 0 ≤ r.minWeight
  elsewhere {other : Nat} : other ≠ priority → c.system.selector.SettledAt other
  todo {i : ι} {f : Feedback} : f ∈ (c.clients i).todo →
    ∃ place r, c.system.selector.entry? f.name = some (place, r) ∧ r.priority = priority
  transition {i : ι} {t : Transition ω} : (c.clients i).phase.transition? = some t →
    t.resource.priority = priority

/-- What every step keeps where snapshots are installed in the order in which they are begun. -/
structure Tracked (priority : Nat) (c : Crowd ι ω) (begun : List ι) : Prop
    extends c.Grounded priority where
  nodup : begun.Nodup
  reading {i : ι} : i ∈ begun ↔ ∃ t left weights, (c.clients i).phase = .reading t left weights
  covered : c.Covered priority begun

variable [DecidableEq ι] {priority : Nat} {c : Crowd ι ω} {begun : List ι} {i : ι}

section

variable [LawfulScalar ω]

omit [DecidableEq ι] in
/-- Moving a weight spares the other groups, and its own group as well if nothing comes of it. -/
theorem Grounded.moveWeight (h : c.Grounded priority) {f : Feedback} (hf : f ∈ (c.clients i).todo) :
    (∀ other, other ≠ priority →
      c.system.selector.Spares other (c.system.moveWeight f).2.selector) ∧
    match (c.system.moveWeight f).1 with
    | none => c.system.selector.Spares priority (c.system.moveWeight f).2.selector
    | some t => t.resource.priority = priority ∧ (Scalar.same t.old t.new = true →
        c.system.selector.Spares priority (c.system.moveWeight f).2.selector) := by
  obtain ⟨place, r, hentry, hpriority⟩ := h.todo hf
  obtain ⟨g, counters, kept, hselector, htransition⟩ := System.moveWeight_cases hentry
  have hspares {other : Nat} (hsame : (g r).current = r.current ∨ r.priority ≠ other) :
      c.system.selector.Spares other (c.system.moveWeight f).2.selector := by
    rw [hselector]
    refine (Selector.spares_modifyAt h.layout kept fun q hq => ?_).trans (.idle _ _ _ _ _)
    obtain rfl : r = q := Option.some.inj ((Selector.states_of_entry? hentry).symm.trans hq)
    exact hsame
  refine ⟨fun other hother => hspares (.inr fun heq => hother (heq.symm.trans hpriority)), ?_⟩
  cases hmove : (c.system.moveWeight f).1 with
  | none =>
      rw [hmove] at htransition
      exact hspares (.inl htransition)
  | some t =>
      rw [hmove] at htransition
      obtain ⟨hresource, hold, hnew⟩ := htransition
      refine ⟨by rw [hresource, hpriority], fun hsame => hspares (.inl ?_)⟩
      rw [← hold, ← hnew, LawfulScalar.same_iff.1 hsame]

omit [DecidableEq ι] in
theorem Grounded.advance (h : c.Grounded priority) (i : ι) :
    (∀ other, other ≠ priority →
      c.system.selector.Spares other ((c.clients i).advance c.system).2.selector) ∧
    (∀ f ∈ ((c.clients i).advance c.system).1.todo, f ∈ (c.clients i).todo) ∧
    ∀ t, ((c.clients i).advance c.system).1.phase.transition? = some t →
      t.resource.priority = priority := by
  rcases hclient : c.clients i with ⟨todo, phase⟩
  have hidle {t : Transition ω} (ht : Phase.idle.transition? = some t) :
      t.resource.priority = priority := absurd ht.symm (Option.some_ne_none t)
  have htransition (t : Transition ω) (ht : phase.transition? = some t) :
      t.resource.priority = priority := h.transition (i := i) (by rw [hclient, ht])
  match phase, todo with
  | .idle, [] =>
      exact ⟨fun other _ => .refl other _, fun f hf => hf, fun t ht => hidle ht⟩
  | .idle, f :: rest =>
      obtain ⟨helsewhere, hown⟩ := h.moveWeight (i := i) (f := f) (by simp [hclient])
      rw [Client.advance]
      rcases hmove : c.system.moveWeight f with ⟨_ | t, s⟩
      · simp only [hmove] at helsewhere ⊢
        exact ⟨helsewhere, fun g hg => List.mem_cons_of_mem f hg, fun t ht => hidle ht⟩
      · simp only [hmove] at helsewhere hown ⊢
        refine ⟨helsewhere, fun g hg => List.mem_cons_of_mem f hg, fun t' ht => ?_⟩
        have heq : t = t' := by
          split at ht
          · exact Option.some.inj ht
          · exact Option.some.inj ht
        rw [← heq]
        exact hown.1
  | .moved t, todo => exact ⟨fun other _ => .refl other _, fun f hf => hf, htransition⟩
  | .reading t (place :: left) weights, todo =>
      exact ⟨fun other _ => .refl other _, fun f hf => hf, htransition⟩
  | .reading t [] weights, todo =>
      refine ⟨fun other hother => Selector.spares_install h.layout ?_ weights, fun f hf => hf,
        htransition⟩
      rw [htransition t rfl]
      exact hother.symm
  | .announcing t, todo =>
      refine ⟨fun other _ => ?_, fun f hf => hf, fun t ht => hidle ht⟩
      obtain ⟨checker, hselector⟩ := System.selector_announce t c.system
      show c.system.selector.Spares other (c.system.announce t).selector
      rw [hselector]
      exact .idle other _ _ checker _

theorem Grounded.step (h : c.Grounded priority) (i : ι) : (c.step i).Grounded priority := by
  obtain ⟨hspares, htodo, htransition⟩ := h.advance i
  rw [← system_step] at hspares
  have hframe := (hspares (priority + 1) (by omega)).frame
  refine ⟨h.layout.frame hframe, hframe.summed h.summed, fun {r} hr => ?_, fun hother => ?_,
    fun {j f} hf => ?_, fun {j t} ht => ?_⟩
  · obtain ⟨place, hplace⟩ := List.mem_iff_getElem?.1 hr
    obtain ⟨r', hr', hkept⟩ := hframe.kept hplace
    obtain ⟨hwithin, hnonneg⟩ := h.within (List.mem_of_getElem? hr')
    exact ⟨hkept.within hwithin, hkept.minWeight ▸ hnonneg⟩
  · exact (hspares _ hother).settledAt h.layout (h.elsewhere hother)
  · have hbefore : f ∈ (c.clients j).todo := by
      by_cases hj : j = i
      · rw [hj, clients_step_self] at hf
        rw [hj]
        exact htodo f hf
      · rwa [clients_step_of_ne hj] at hf
    obtain ⟨place, r, hentry, hpriority⟩ := h.todo hbefore
    obtain ⟨r', hentry', hkept⟩ := hframe.entry? hentry
    exact ⟨place, r', hentry', hkept.priority.trans hpriority⟩
  · by_cases hj : j = i
    · rw [hj, clients_step_self] at ht
      exact htransition t ht
    · rw [clients_step_of_ne hj] at ht
      exact h.transition ht

theorem Grounded.run (h : c.Grounded priority) (schedule : List ι) :
    (c.run schedule).Grounded priority := by
  induction schedule generalizing c with
  | nil => exact h
  | cons i rest ih => exact ih (h.step i)

end

omit [DecidableEq ι] in
theorem Tracked.not_mem_begun (h : c.Tracked priority begun)
    {todo : List Feedback} {phase : Phase ω} (hclient : c.clients i = ⟨todo, phase⟩)
    (hphase : ∀ t left weights, phase ≠ .reading t left weights) : i ∉ begun := by
  intro hmem
  obtain ⟨t, left, weights, hreading⟩ := h.reading.1 hmem
  rw [hclient] at hreading
  exact hphase t left weights hreading

/-- A client that is yet to begin a snapshot still is, whatever another one does. -/
theorem covered_of_moved {j : ι} {t : Transition ω}
    (hj : (c.clients j).phase = .moved t) (hmoved : ∀ t, (c.clients i).phase ≠ .moved t)
    (begun : List ι) : (c.step i).Covered priority begun := by
  have hne : j ≠ i := by
    rintro rfl
    exact hmoved t hj
  exact .inl ⟨j, t, by rw [clients_step_of_ne hne, hj]⟩

/-- A client that is not about a snapshot, before or after its step, does not matter if it spares
the group. -/
theorem Covered.spares (h : c.Covered priority begun) (hlayout : c.system.selector.Layout)
    (hspares : c.system.selector.Spares priority (c.step i).system.selector)
    (hmoved : ∀ t, (c.clients i).phase ≠ .moved t)
    (hreading : ∀ t left weights, (c.clients i).phase ≠ .reading t left weights) :
    (c.step i).Covered priority begun := by
  rcases h with ⟨j, t, hj⟩ | ⟨j, t, left, weights, hlast, hj, hreads⟩ | ⟨hnil, hsettled⟩
  · exact covered_of_moved hj hmoved begun
  · have hne : j ≠ i := by
      rintro rfl
      exact hreading t left weights hj
    exact .inr (.inl ⟨j, t, left, weights, hlast, by rw [clients_step_of_ne hne, hj],
      hreads.spares hspares⟩)
  · exact .inr (.inr ⟨hnil, hspares.settledAt hlayout hsettled⟩)

variable [LawfulScalar ω]

/-- What is left to show of a step. -/
theorem Tracked.step (h : c.Tracked priority begun) {client : Client ω} {system : System ω}
    {begun' : List ι} (hadvance : (c.clients i).advance c.system = (client, system))
    (hnodup : begun'.Nodup)
    (hself : i ∈ begun' ↔ ∃ t left weights, client.phase = .reading t left weights)
    (hothers : ∀ j, j ≠ i → (j ∈ begun' ↔ j ∈ begun))
    (hcovered : (c.step i).Covered priority begun') : (c.step i).Tracked priority begun' := by
  refine ⟨h.toGrounded.step i, hnodup, fun {j} => ?_, hcovered⟩
  by_cases hj : j = i
  · rw [hj, clients_step_self, hadvance]
    exact hself
  · rw [clients_step_of_ne hj, hothers j hj]
    exact h.reading

/-- A client moves a weight: unless this comes to nothing, it has a snapshot to begin. -/
theorem Tracked.move (h : c.Tracked priority begun) {f : Feedback} {rest : List Feedback}
    (hclient : c.clients i = ⟨f :: rest, .idle⟩) : (c.step i).Tracked priority begun := by
  obtain ⟨-, hown⟩ := h.moveWeight (i := i) (f := f) (by simp [hclient])
  have hidle : i ∉ begun := h.not_mem_begun hclient nofun
  have hself {phase : Phase ω} (hphase : ∀ t left weights, phase ≠ .reading t left weights) :
      i ∈ begun ↔ ∃ t left weights, phase = .reading t left weights :=
    ⟨fun hmem => absurd hmem hidle,
      fun ⟨t, left, weights, heq⟩ => absurd heq (hphase t left weights)⟩
  have hquiet {client : Client ω} {system : System ω}
      (hadvance : (c.clients i).advance c.system = (client, system))
      (hspares : c.system.selector.Spares priority system.selector) :
      (c.step i).Covered priority begun := by
    refine h.covered.spares h.layout ?_ (by simp [hclient]) (by simp [hclient])
    rw [system_step, hadvance]
    exact hspares
  rcases hmove : c.system.moveWeight f with ⟨_ | t, s⟩
  · have hadvance : (c.clients i).advance c.system = (⟨rest, .idle⟩, s) := by
      rw [hclient, Client.advance]
      simp only [hmove]
    rw [hmove] at hown
    exact h.step hadvance h.nodup (hself (by simp)) (fun _ _ => Iff.rfl) (hquiet hadvance hown)
  · rw [hmove] at hown
    cases hsame : Scalar.same t.old t.new with
    | true =>
        have hadvance : (c.clients i).advance c.system = (⟨rest, .announcing t⟩, s) := by
          rw [hclient, Client.advance]
          simp only [hmove, hsame, if_true]
        exact h.step hadvance h.nodup (hself (by simp)) (fun _ _ => Iff.rfl)
          (hquiet hadvance (hown.2 hsame))
    | false =>
        have hadvance : (c.clients i).advance c.system = (⟨rest, .moved t⟩, s) := by
          rw [hclient, Client.advance]
          simp [hmove, hsame]
        exact h.step hadvance h.nodup (hself (by simp)) (fun _ _ => Iff.rfl)
          (.inl ⟨i, t, by rw [clients_step_self, hadvance]⟩)

/-- A snapshot is begun, and nothing has been read for it that could be out of date. -/
theorem Tracked.begin (h : c.Tracked priority begun) {todo : List Feedback} {t : Transition ω}
    (hclient : c.clients i = ⟨todo, .moved t⟩) : (c.step i).Tracked priority (begun ++ [i]) := by
  have hpriority : t.resource.priority = priority := h.transition (i := i) (by rw [hclient]; rfl)
  have hadvance : (c.clients i).advance c.system =
      (⟨todo, .reading t (c.system.selector.membersOf priority) []⟩, c.system) := by
    rw [hclient, ← hpriority]
    rfl
  have hidle : i ∉ begun := h.not_mem_begun hclient nofun
  refine h.step hadvance ?_ ?_ ?_ ?_
  · exact List.nodup_append.2 ⟨h.nodup, List.nodup_singleton i, fun j hj k hk heq =>
      hidle (List.mem_singleton.1 hk ▸ heq ▸ hj)⟩
  · simp
  · intro j hj
    simp [hj]
  · refine .inr (.inl ⟨i, t, _, [], List.getLast?_concat, by rw [clients_step_self, hadvance], ?_⟩)
    rw [system_step, hadvance]
    exact c.system.selector.reads_nil priority

/-- One more weight is read, and by the client that was last to begin it is read of what stands. -/
theorem Tracked.read (h : c.Tracked priority begun) {todo : List Feedback} {t : Transition ω}
    {place : Nat} {left : List Nat} {weights : List ω}
    (hclient : c.clients i = ⟨todo, .reading t (place :: left) weights⟩) :
    (c.step i).Tracked priority begun := by
  have hadvance : (c.clients i).advance c.system = (⟨todo, .reading t left (weights ++
      (c.system.selector.states[place]?).toList.map (·.current))⟩, c.system) := by
    rw [hclient]
    rfl
  have hmem : i ∈ begun := h.reading.2 ⟨t, _, weights, by rw [hclient]⟩
  refine h.step hadvance h.nodup ?_ (fun _ _ => Iff.rfl) ?_
  · simp [hmem]
  · rcases h.covered with ⟨j, t', hj⟩ | ⟨j, t', left', weights', hlast, hj, hreads⟩ | ⟨hnil, -⟩
    · exact covered_of_moved hj (by simp [hclient]) begun
    · right
      left
      by_cases hji : j = i
      · rw [hji, hclient] at hj
        obtain ⟨rfl, rfl, rfl⟩ := Phase.reading.inj hj
        refine ⟨i, t, left, _, hji ▸ hlast, by rw [clients_step_self, hadvance], ?_⟩
        rw [system_step, hadvance]
        exact hreads.next
      · refine ⟨j, t', left', weights', hlast, by rw [clients_step_of_ne hji, hj], ?_⟩
        rw [system_step, hadvance]
        exact hreads
    · rw [hnil] at hmem
      exact absurd hmem List.not_mem_nil

/-- The snapshot that was begun first is installed. If it is the only one, it says what stands, or a
client has moved a weight and will begin another. -/
theorem Tracked.install (h : c.Tracked priority begun) {todo : List Feedback} {t : Transition ω}
    {weights : List ω} (hclient : c.clients i = ⟨todo, .reading t [] weights⟩)
    (hfirst : begun.head? = some i) : (c.step i).Tracked priority begun.tail := by
  have hpriority : t.resource.priority = priority := h.transition (i := i) (by rw [hclient]; rfl)
  have hadvance : (c.clients i).advance c.system = (⟨todo, .announcing t⟩,
      { c.system with selector := c.system.selector.install priority weights }) := by
    rw [hclient, ← hpriority]
    rfl
  obtain ⟨later, rfl⟩ : ∃ later, begun = i :: later := by
    cases begun with
    | nil => exact nomatch hfirst
    | cons j later =>
      rw [List.head?_cons, Option.some.injEq] at hfirst
      exact ⟨later, by rw [hfirst]⟩
  obtain ⟨hnot, hlater⟩ := List.nodup_cons.1 h.nodup
  refine h.step hadvance hlater ?_ ?_ ?_
  · simpa using hnot
  · intro j hj
    simp [hj]
  · rcases h.covered with ⟨j, t', hj⟩ | ⟨j, t', left', weights', hlast, hj, hreads⟩ | ⟨hnil, -⟩
    · exact covered_of_moved hj (by simp [hclient]) later
    · right
      cases later with
      | nil =>
          right
          have hji : i = j := by simpa using hlast
          rw [← hji, hclient] at hj
          obtain ⟨rfl, rfl, rfl⟩ := Phase.reading.inj hj
          refine ⟨rfl, ?_⟩
          rw [system_step, hadvance]
          show (c.system.selector.install priority weights).SettledAt priority
          rw [hreads.eq, Selector.install_current]
          exact Selector.settledAt_refreshGroup h.layout h.summed
      | cons k rest =>
          left
          have hlast' : (k :: rest).getLast? = some j := by
            rw [List.getLast?_cons_cons] at hlast
            exact hlast
          have hne : j ≠ i := by
            rintro rfl
            exact hnot (List.mem_of_getLast? hlast')
          refine ⟨j, t', left', weights', hlast', by rw [clients_step_of_ne hne, hj], ?_⟩
          rw [system_step, hadvance]
          exact hreads.install priority weights
    · exact nomatch hnil

theorem Tracked.announce (h : c.Tracked priority begun) {todo : List Feedback} {t : Transition ω}
    (hclient : c.clients i = ⟨todo, .announcing t⟩) : (c.step i).Tracked priority begun := by
  have hadvance : (c.clients i).advance c.system = (⟨todo, .idle⟩, c.system.announce t) := by
    rw [hclient]
    rfl
  obtain ⟨checker, hselector⟩ := System.selector_announce t c.system
  have hidle : i ∉ begun := h.not_mem_begun hclient nofun
  refine h.step hadvance h.nodup ?_ (fun _ _ => Iff.rfl) ?_
  · simp [hidle]
  · refine h.covered.spares h.layout ?_ (by simp [hclient]) (by simp [hclient])
    rw [system_step, hadvance, hselector]
    exact .idle priority _ _ checker _

theorem Tracked.run (h : c.Tracked priority begun) {schedule : List ι}
    (hinOrder : c.inOrder begun schedule = true) :
    ∃ begun', (c.run schedule).Tracked priority begun' := by
  induction schedule generalizing c begun with
  | nil => exact ⟨begun, h⟩
  | cons i rest ih =>
      rcases hclient : c.clients i with ⟨todo, phase⟩
      have hphase : (c.clients i).phase = phase := by rw [hclient]
      rw [inOrder, hphase] at hinOrder
      match phase, todo with
      | .idle, [] =>
          refine ih ?_ hinOrder
          rw [step_of_done hclient]
          exact h
      | .idle, f :: todo => exact ih (h.move hclient) hinOrder
      | .moved t, todo => exact ih (h.begin hclient) hinOrder
      | .reading t (place :: left) weights, todo => exact ih (h.read hclient) hinOrder
      | .reading t [] weights, todo =>
          obtain ⟨hfirst, hrest⟩ := Bool.and_eq_true_iff.1 hinOrder
          exact ih (h.install hclient (of_decide_eq_true hfirst)) hrest
      | .announcing t, todo => exact ih (h.announce hclient) hinOrder

omit [DecidableEq ι] [LawfulScalar ω] in
/-- When all reports are done, nobody is left to renew a snapshot, and nobody has to. -/
theorem Tracked.settled (h : c.Tracked priority begun) (hfinished : c.Finished) :
    c.system.selector.Settled := by
  have hown : c.system.selector.SettledAt priority := by
    rcases h.covered with ⟨i, t, hmoved⟩ | ⟨i, t, left, weights, -, hreading, -⟩ | ⟨-, hsettled⟩
    · rw [(hfinished i).2] at hmoved
      exact nomatch hmoved
    · rw [(hfinished i).2] at hreading
      exact nomatch hreading
    · exact hsettled
  intro p hp
  by_cases hpriority : p.priority = priority
  · exact hown p hp hpriority
  · exact h.elsewhere hpriority p hp rfl

end Crowd

section

variable [LawfulScalar ω] {b : Builder ω} {s : System ω} {priority : ℕ}
  {reports : ι → List Feedback}

theorem Builder.Reaches.grounded (h : b.Reaches s)
    (hgroup : ∀ i, ∀ f ∈ reports i, ∃ r, s.selector.find? f.name = some r ∧ r.priority = priority) :
    (Crowd.start s reports).Grounded priority where
  layout := h.layout
  summed := h.settled.summed
  within hr := ⟨h.bounded.within hr, h.bounded.nonneg hr⟩
  elsewhere _ p hp _ := h.settled p hp
  todo {i f} hf := by
    obtain ⟨r, hr, hpriority⟩ := hgroup i f hf
    obtain ⟨place, hentry⟩ := h.layout.find?_eq_some_iff_entry?.1 hr
    exact ⟨place, r, hentry, hpriority⟩
  transition ht := nomatch ht

theorem Builder.Reaches.tracked (h : b.Reaches s)
    (hgroup : ∀ i, ∀ f ∈ reports i, ∃ r, s.selector.find? f.name = some r ∧ r.priority = priority) :
    (Crowd.start s reports).Tracked priority [] where
  toGrounded := h.grounded hgroup
  nodup := List.nodup_nil
  reading := ⟨fun hi => absurd hi List.not_mem_nil, fun ⟨_, _, _, hreading⟩ => nomatch hreading⟩
  covered := .inr (.inr ⟨rfl, fun p hp _ => h.settled p hp⟩)

end

/-- Any number of clients report on resources of one group, and their reports overlap in any way.
When all are done, and the snapshots were installed in the order in which they were begun, every
snapshot says what the members weigh, and a resource that has come to weigh nothing is not selected.
In whatever order they were installed, the next report that nothing comes between leaves the weight
of its resource or puts the snapshot of the group right. -/
theorem snapshot_after_overlap [LawfulScalar ω] [DecidableEq ι] {b : Builder ω} {s : System ω}
    (h : b.Reaches s) {priority : ℕ} {reports : ι → List Feedback}
    (hgroup : ∀ i, ∀ f ∈ reports i, ∃ r, s.selector.find? f.name = some r ∧ r.priority = priority)
    {schedule : List ι} {c : Crowd ι ω} (hrun : (Crowd.start s reports).run schedule = c)
    (hfinished : c.Finished) :
    ((Crowd.start s reports).inOrder [] schedule = true →
      (∀ g ∈ c.system.selector.groups, g.Fresh) ∧
      ∀ name r host, c.system.selector.find? name = some r → r.current = 0 →
        (System.mk c.system.selector host).selectOne.1 ≠ some name) ∧
    ∀ (f : Feedback) (r : Resource ω), c.system.selector.find? f.name = some r →
      ∃ r', (c.system.step f.event).selector.find? f.name = some r' ∧ (r'.current = r.current ∨
        ∀ g ∈ (c.system.step f.event).selector.groups, g.priority = r.priority → g.Fresh) := by
  have hgrounded : c.Grounded priority := hrun ▸ (h.grounded hgroup).run schedule
  constructor
  · intro hinOrder
    obtain ⟨begun, htracked⟩ := (h.tracked hgroup).run hinOrder
    rw [hrun] at htracked
    have hsettled := htracked.settled hfinished
    constructor
    · intro g hg
      obtain ⟨p, hp, rfl⟩ := List.mem_map.1 hg
      exact (hsettled p hp).fresh
    · intro name r host hr hzero hselect
      obtain ⟨r', hr', hpos⟩ := System.positive_of_selectOne (s := ⟨c.system.selector, host⟩)
        ⟨hgrounded.layout, hsettled⟩ (fun _ hmem => hgrounded.within hmem) hselect
      obtain rfl : r = r' := Option.some.inj (hr.symm.trans hr')
      rw [hzero] at hpos
      exact LawfulScalar.lt_irrefl 0 hpos
  · intro f r hr
    exact System.current_or_fresh hgrounded.layout hgrounded.summed hr

/-- A selector with one group of two resources, selected by what its snapshot says. -/
def Builder.mates : Builder Float :=
  { Builder.pair with
    settings := Settings.default
    resources := [("a", .ofWeight 100), ("b", .ofWeight 50)] }

theorem Builder.mates_build : Builder.mates.build 0 { rng := ⟨0⟩ } =
    .ok (Builder.mates.begun 0 { rng := ⟨0⟩ }) := rfl

/-- One client reports a failed call to one of them, while another one forces the other down. -/
def Crowd.mates : Crowd (Fin 2) Float :=
  .start (Builder.mates.begun 0 { rng := ⟨0⟩ }) ![[.report .failure "b"], [.down "a"]]

/-- The two take turns, step by step. -/
theorem snapshot_after_overlap_mates :
    let c := Crowd.mates.run [0, 1, 0, 1, 0, 1, 0, 1, 0, 1, 0, 1]
    (∀ g ∈ c.system.selector.groups, g.Fresh) ∧
      (∀ host, (System.mk c.system.selector host).selectOne.1 ≠ some "a") ∧
      ∀ g ∈ (c.system.step (.call (.report .failure "b"))).selector.groups,
        g.priority = 0 → g.Fresh := by
  intro c
  have hknown : ∀ i, ∀ f ∈ (Crowd.mates.clients i).todo,
      (Crowd.mates.system.selector.find? f.name).map (·.priority) = some 0 := by decide +kernel
  obtain ⟨hfinished, hzero, hpriority, hlower⟩ :
      (∀ i, (c.clients i).todo = [] ∧ (c.clients i).phase = .idle) ∧
      (c.system.selector.find? "a").map (·.current) = some 0 ∧
      (c.system.selector.find? "b").map (fun r => (r.priority, r.current)) = some (0, 25) ∧
      ((c.system.step (.call (.report .failure "b"))).selector.find? "b").map (·.current) =
        some 12.5 := by
    decide +revert +kernel
  obtain ⟨hfresh, hnext⟩ := snapshot_after_overlap (.built Builder.mates_build)
    (fun i f hf => Option.map_eq_some_iff.1 (hknown i f hf)) (c := c) rfl hfinished
  obtain ⟨hfresh, hselected⟩ := hfresh (by decide +kernel)
  obtain ⟨r, hr, hcurrent⟩ := Option.map_eq_some_iff.1 hzero
  obtain ⟨q, hq, heq⟩ := Option.map_eq_some_iff.1 hpriority
  obtain ⟨q', hq', hmoved⟩ := hnext (.report .failure "b") q hq
  obtain ⟨hfirst, hbefore⟩ := Prod.mk.inj heq
  refine ⟨hfresh, fun host => hselected "a" r host hr hcurrent, ?_⟩
  rcases hmoved with hsame | hfresh'
  · have hafter : q'.current = 12.5 := by
      obtain ⟨t, ht, hcurrent'⟩ := Option.map_eq_some_iff.1 hlower
      rw [← hcurrent', ← Option.some.inj (ht.symm.trans hq')]
    rw [hafter, hbefore] at hsame
    exact absurd hsame (by decide +kernel)
  · exact fun g hg hg' => hfresh' g hg (hg'.trans hfirst.symm)

/-- The client that has read the weights before the other one moves its weight installs them after
the other one has installed what it has read. Both are done, and the resource that was forced down
is selected, before and after another failed call to it. -/
theorem stale_after_overlap : ∃ schedule, (Crowd.mates.run schedule).Finished ∧
    (Crowd.mates.run schedule).system.selector.groups.map (fun g => g.members.map (·.current)) =
      [[0, 25]] ∧
    (Crowd.mates.run schedule).system.selector.groups.map (·.snapshot.weights) = [[100, 25]] ∧
    (Crowd.mates.run schedule).system.selectOne.1 = some "a" ∧
    ((Crowd.mates.run schedule).system.step (.call (.report .failure "a"))).selectOne.1 =
      some "a" := by
  refine ⟨[0, 0, 0, 0, 1, 1, 1, 1, 1, 1, 0, 0], ?_, ?_, ?_, ?_, ?_⟩
  · unfold Crowd.Finished
    decide +kernel
  · decide +kernel
  · decide +kernel
  · decide +kernel
  · decide +kernel

end ResourceSelection
