import ResourceSelection.Proofs.Sparing
import ResourceSelection.Selector.Crowd

/-!
# A report step by step

What the single steps of a report do to a selector, and that they make up the report. The first one
moves the weight and spares all other groups; the snapshot that is installed is the one that a
renewal would give, if what was read still stands; and telling the listener and the checker is no
concern of any group.

A client that nothing comes between goes through the same steps, and they come to what the report
does when it is done at once (`Crowd.exists_run_report`). Everything that is known of single reports
is therefore known of a crowd in which clients do not overlap.
-/

namespace ResourceSelection

variable {ι ω : Type} [Scalar ω]

/-! ## The snapshot that is installed -/

namespace Group

theorem measureAs_current (members : List (Resource ω)) (totalMax : ω) (uniform : Bool)
    (aliasThreshold : Nat) :
    measureAs members (members.map (·.current)) totalMax uniform aliasThreshold =
      measure members totalMax uniform aliasThreshold := by
  have hsame : List.zipWith (fun (m : Resource ω) weight => { m with current := weight }) members
      (members.map (·.current)) = members := by
    rw [List.zipWith_map_right, List.zipWith_self]
    exact List.map_id' members
  rw [measureAs, hsame]

end Group

namespace Selector

variable {s : Selector ω} {priority : Nat}

theorem pools_install (h : s.Layout) (priority : Nat) (weights : List ω) :
    (s.install priority weights).pools = s.pools.map fun p =>
      if p.priority = priority then weighPool s.states weights p else p := by
  rw [← modify_findIdx? h.ascending]
  unfold install
  cases s.pools.findIdx? fun p => p.priority = priority with
  | none => rfl
  | some index => rfl

theorem states_install (s : Selector ω) (priority : Nat) (weights : List ω) :
    (s.install priority weights).states = s.states := by
  unfold install
  split
  · rfl
  · rfl

theorem frame_install (s : Selector ω) (priority : Nat) (weights : List ω) :
    s.Frame (s.install priority weights) := by
  unfold install
  split
  · next index _ =>
      exact { Frame.refl s with
        pools := map_modify_of_eq (weighPool s.states weights) _ (fun _ => rfl) index s.pools }
  · exact .refl s

theorem spares_install (h : s.Layout) {installed : Nat} (hne : installed ≠ priority)
    (weights : List ω) : s.Spares priority (s.install installed weights) :=
  spares_of_rewrite (f := weighPool s.states weights) (s.frame_install installed weights)
    (s.states_install installed weights) (fun _ => rfl) (pools_install h installed weights) hne

theorem weighPool_current (states : List (Resource ω)) (p : GroupOf Nat ω) :
    weighPool states ((statesAt states p.members).map (·.current)) p = refreshPool states p := by
  rw [weighPool, Group.measureAs_current]
  rfl

/-- Whoever has read what the members weigh now renews the snapshot. -/
theorem install_current (s : Selector ω) (priority : Nat) :
    s.install priority ((statesAt s.states (s.membersOf priority)).map (·.current)) =
      s.refreshGroup priority := by
  unfold install refreshGroup membersOf
  rw [List.find?_eq_bind_findIdx?_getElem?]
  cases s.pools.findIdx? fun p => p.priority = priority with
  | none => rfl
  | some index =>
      have hpools (weigh : GroupOf Nat ω → GroupOf Nat ω)
          (h : ∀ p, s.pools[index]? = some p → weigh p = refreshPool s.states p) :
          s.pools.modify index weigh = s.pools.modify index (refreshPool s.states) := by
        refine List.ext_getElem? fun i => ?_
        rw [List.getElem?_modify, List.getElem?_modify]
        by_cases heq : index = i
        · subst heq
          cases hp : s.pools[index]? with
          | none => rfl
          | some p => simp only [if_pos, Option.map_eq_map, Option.map_some, h p hp]
        · simp only [if_neg heq]
      simp only [Option.bind_some]
      rw [hpools]
      intro p hp
      rw [hp]
      exact weighPool_current s.states p

end Selector

/-! ## The steps of a report -/

theorem Resource.kept_finished (r : Resource ω) (tracks : Bool) : r.Kept (r.finished tracks) := by
  cases tracks with
  | false => exact .refl r
  | true => exact r.kept_release

namespace System

variable {s : System ω} {place : Nat} {r : Resource ω}

omit [Scalar ω] in
theorem selector_endCall (place : Nat) (s : System ω) : (s.endCall place).selector =
    s.selector.modifyAt place (Resource.finished s.selector.settings.tracksCalls) := by
  unfold endCall
  split
  · next htracks =>
      rw [htracks]
      rfl
  · next htracks =>
      have hid :
          Resource.finished s.selector.settings.tracksCalls = (id : Resource ω → Resource ω) :=
        funext fun r => if_neg htracks
      rw [hid, Selector.modifyAt, List.modify_id]

/-- The first step moves the weight of the resource that is reported on, as far as the transition
says that it is to be made known. -/
theorem moveWeight_cases [LawfulScalar ω] {f : Feedback}
    (hentry : s.selector.entry? f.name = some (place, r)) :
    ∃ (g : Resource ω → Resource ω) (counters : Counters), (∀ r, Resource.Kept r (g r)) ∧
      (s.moveWeight f).2.selector = { s.selector.modifyAt place g with counters := counters } ∧
      match (s.moveWeight f).1 with
      | none => (g r).current = r.current
      | some t => t.resource = r ∧ t.old = r.current ∧ t.new = (g r).current := by
  have hstate : s.selector.states[place]? = some r := Selector.states_of_entry? hentry
  let tracks := s.selector.settings.tracksCalls
  cases f with
  | report result name =>
      have hplace : (s.count result.count).selector.place? name = some place :=
        Selector.place?_of_entry? (s := s.selector) hentry
      have hknowing :
          (s.count result.count).knowing? name = some (place, s.count result.count) := by
        unfold knowing?
        rw [hplace]
      have hstate' : (s.count result.count).selector.states[place]? = some r := hstate
      unfold moveWeight
      simp only [hknowing, hstate', askPolicy_eq]
      cases (s.count result.count).selector.policy.onResult result r.context
        (s.count result.count).host.memory with
      | mk answer memory =>
          cases answer with
          | crashed =>
              refine ⟨id, result.count s.selector.counters, fun r => .refl r, ?_, rfl⟩
              rw [Selector.modifyAt, List.modify_id]
              rfl
          | done weight =>
              refine ⟨fun q => (q.propose weight).2.finished tracks,
                result.count s.selector.counters,
                fun q => (q.kept_propose weight).trans (Resource.kept_finished _ _),
                ?_, rfl, ?_, ?_⟩
              · simp only [selector_endCall]
                exact Selector.modifyAt_modifyAt
                  { s.selector with counters := result.count s.selector.counters } place
                  (fun q => (q.propose weight).2) (Resource.finished tracks)
              · exact congrArg (·.1) (r.propose_fst weight)
              · rw [Resource.current_finished]
                exact congrArg (·.2) (r.propose_fst weight)
  | down name =>
      have hentry' : (s.count fun c => { c with downs := c.downs + 1 }).selector.entry? name =
          some (place, r) := hentry
      unfold moveWeight
      simp only [hentry']
      refine ⟨fun q => q.forceDown.2.finished tracks,
        { s.selector.counters with downs := s.selector.counters.downs + 1 },
        fun q => (Resource.kept_forceDown q).trans (Resource.kept_finished _ _),
        ?_, trivial, rfl, ?_⟩
      · simp only [selector_endCall]
        exact Selector.modifyAt_modifyAt
          { s.selector with
            counters := { s.selector.counters with downs := s.selector.counters.downs + 1 } } place
          (fun q => q.forceDown.2) (Resource.finished tracks)
      · rw [Resource.current_finished]
        rfl

theorem selector_checkIfNeeded (r : Resource ω) (weight : ω) (s : System ω) : ∃ checker,
    (s.checkIfNeeded r weight).2.selector = { s.selector with checker := checker } := by
  obtain ⟨asked, heq | heq⟩ := s.checkIfNeeded_snd r weight
  · exact ⟨s.selector.checker, by rw [heq]; rfl⟩
  · rw [heq]
    unfold ensureChecker
    split
    · exact ⟨s.selector.checker, rfl⟩
    · exact ⟨_, rfl⟩

theorem selector_announce (t : Transition ω) (s : System ω) :
    ∃ checker, (s.announce t).selector = { s.selector with checker := checker } := by
  unfold announce
  split
  · exact selector_checkIfNeeded t.resource t.new s
  · split
    · next hnotify => exact ⟨s.selector.checker, by rw [selector_notify hnotify]⟩
    · next s' hnotify =>
        rw [← selector_notify hnotify]
        exact selector_checkIfNeeded t.resource t.new s'

end System

/-! ## Reports that nothing comes between -/

namespace Client

/-- The next step, of a client and the system that it is a client of. -/
def turn (p : Client ω × System ω) : Client ω × System ω := p.1.advance p.2

theorem turn_reading (todo : List Feedback) (t : Transition ω) (left : List Nat) (weights : List ω)
    (s : System ω) : turn^[left.length] (⟨todo, .reading t left weights⟩, s) =
      (⟨todo,
        .reading t [] (weights ++ (Selector.statesAt s.selector.states left).map (·.current))⟩,
       s) := by
  induction left generalizing weights with
  | nil => simp [Selector.statesAt]
  | cons place left ih =>
      rw [List.length_cons, Function.iterate_succ_apply]
      show turn^[left.length] (⟨todo, .reading t left (weights ++ _)⟩, s) = _
      rw [ih]
      cases hplace : s.selector.states[place]? with
      | none => simp [Selector.statesAt, hplace]
      | some r => simp [Selector.statesAt, hplace]

end Client

namespace System

/-- What makes a transition known at once is what makes it known step by step. -/
theorem applyChange_eq_announce (t : Transition ω) (s : System ω) :
    (s.applyChange t.resource t.old t.new t.cause).2 = announce t
      (if Scalar.same t.old t.new then s
        else { s with selector := s.selector.refreshGroup t.resource.priority }) := by
  unfold applyChange announce
  split
  · rfl
  · simp only
    generalize notify _ _ = told
    rcases told with ⟨_ | _, s'⟩
    · rfl
    · rfl

/-- A report is its first step, and then what makes the transition known. -/
theorem step_event (f : Feedback) (s : System ω) : s.step f.event =
    match s.moveWeight f with
    | (none, s') => s'
    | (some t, s') => (s'.applyChange t.resource t.old t.new t.cause).2 := by
  cases f with
  | report result name =>
      show (s.report result name).2 = _
      unfold report moveWeight
      simp only
      cases (s.count result.count).knowing? name with
      | none => rfl
      | some found =>
          obtain ⟨place, s'⟩ := found
          simp only
          cases s'.selector.states[place]? with
          | none => rfl
          | some r =>
              simp only
              rcases s'.askPolicy result r.context with ⟨_ | _, s''⟩
              · rfl
              · rfl
  | down name =>
      show (s.down name).2 = _
      unfold down moveWeight
      simp only
      cases (s.count fun c => { c with downs := c.downs + 1 }).selector.entry? name with
      | none => rfl
      | some found => rfl

end System

/-- A report that nothing comes between is the report as it is done at once. -/
theorem Client.exists_turn (f : Feedback) (rest : List Feedback) (s : System ω) :
    ∃ n, turn^[n] (⟨f :: rest, .idle⟩, s) = (⟨rest, .idle⟩, s.step f.event) := by
  have hfirst {phase : Phase ω} {s' : System ω}
      (hturn : turn (⟨f :: rest, .idle⟩, s) = (⟨rest, phase⟩, s')) (n : Nat) :
      turn^[n + 1] (⟨f :: rest, .idle⟩, s) = turn^[n] (⟨rest, phase⟩, s') := by
    rw [Function.iterate_succ_apply, hturn]
  rw [System.step_event]
  rcases hmove : s.moveWeight f with ⟨_ | t, s'⟩
  · refine ⟨1, hfirst ?_ 0⟩
    rw [turn, Client.advance]
    simp only [hmove]
  · simp only
    rw [System.applyChange_eq_announce]
    cases hsame : Scalar.same t.old t.new with
    | true =>
        have hmoved : turn (⟨f :: rest, .idle⟩, s) = (⟨rest, .announcing t⟩, s') := by
          rw [turn, Client.advance]
          simp only [hmove, hsame, if_true]
        exact ⟨2, (hfirst hmoved 1).trans rfl⟩
    | false =>
        have hmoved : turn (⟨f :: rest, .idle⟩, s) = (⟨rest, .moved t⟩, s') := by
          rw [turn, Client.advance]
          simp [hmove, hsame]
        let members := s'.selector.membersOf t.resource.priority
        have hbegun : turn^[2] (⟨f :: rest, .idle⟩, s) = (⟨rest, .reading t members []⟩, s') :=
          (hfirst hmoved 1).trans rfl
        refine ⟨2 + (members.length + 2), ?_⟩
        rw [Function.iterate_add_apply, Function.iterate_add_apply, hbegun, turn_reading,
          List.nil_append]
        show (_, System.announce t
          { s' with selector := s'.selector.install t.resource.priority _ }) = _
        rw [Selector.install_current]
        rfl

namespace Crowd

variable [DecidableEq ι] {c : Crowd ι ω} {i : ι}

theorem clients_step_self (c : Crowd ι ω) (i : ι) :
    (c.step i).clients i = ((c.clients i).advance c.system).1 :=
  Function.update_self _ _ _

theorem clients_step_of_ne {j : ι} (h : j ≠ i) (c : Crowd ι ω) :
    (c.step i).clients j = c.clients j :=
  Function.update_of_ne h _ _

theorem system_step (c : Crowd ι ω) (i : ι) :
    (c.step i).system = ((c.clients i).advance c.system).2 := rfl

theorem step_of_done (hclient : c.clients i = ⟨[], .idle⟩) : c.step i = c := by
  have hadvance : (c.clients i).advance c.system = (c.clients i, c.system) := by
    rw [hclient]
    rfl
  rw [step, hadvance]
  simp only [Function.update_eq_self]

theorem run_replicate (c : Crowd ι ω) (i : ι) (n : ℕ) : c.run (List.replicate n i) =
    ⟨(Client.turn^[n] (c.clients i, c.system)).2,
      Function.update c.clients i (Client.turn^[n] (c.clients i, c.system)).1⟩ := by
  induction n generalizing c with
  | zero => simp [run]
  | succ n ih =>
      show (c.step i).run (List.replicate n i) = _
      rw [ih, clients_step_self, system_step, Function.iterate_succ_apply]
      have hclients : (c.step i).clients =
          Function.update c.clients i ((c.clients i).advance c.system).1 := rfl
      rw [hclients, Function.update_idem]
      rfl

/-- A client that is left alone reports as in a system of its own. -/
theorem exists_run_report (c : Crowd ι ω) {i : ι} {f : Feedback} {rest : List Feedback}
    (hclient : c.clients i = ⟨f :: rest, .idle⟩) : ∃ n, c.run (List.replicate n i) =
      ⟨c.system.step f.event, Function.update c.clients i ⟨rest, .idle⟩⟩ := by
  obtain ⟨n, hn⟩ := Client.exists_turn f rest c.system
  refine ⟨n, ?_⟩
  rw [run_replicate, hclient, hn]

end Crowd

end ResourceSelection
