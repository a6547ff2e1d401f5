import ResourceSelection.Proofs.Effects

/-!
# Calls in flight

A selection that answers with a resource puts one more call in flight there, and a report on the
resource takes one back. Where callers count by hand, selections and reports do not, and acquiring
and releasing do. Either way the count of a resource can be told from the events alone: it is the
running sum of what they put out and took back, held between zero and the limit.

`outstanding_step` says what one event adds, and the run is an induction. Without the bounds the sum
is a difference: if no report comes before its selection and no more calls are in flight than can be
told apart, the bounds never hold anything back.
-/

namespace ResourceSelection

variable {ω : Type}

/-- What an event is to the calls in flight of a resource. -/
inductive Flight where
  | out
  | back
deriving DecidableEq

/-- The count of calls in flight afterwards. -/
def Flight.move (n : Nat) : Flight → Nat
  | out => min (n + 1) Resource.inFlightLimit
  | back => n - 1

theorem Flight.foldl_move_ite (flight : Flight) (n : Nat) (p : Prop) [Decidable p] :
    (if p then [flight] else []).foldl move n = if p then move n flight else n := by
  split
  · rfl
  · rfl

variable [Scalar ω]

namespace System

/-- Whether the policy answers to a report, if it is asked at all. -/
def takes (result : CallResult) (name : String) (s : System ω) : Bool :=
  match s.selector.find? name with
  | some r => (s.selector.policy.onResult result r.context s.host.memory).1.answer?.isSome
  | none => true

/-- The selections that answer with a name and the reports on it. A report on which the policy
crashes is none. -/
def reported (name : String) (e : Event ω) (s : System ω) : List Flight :=
  match e with
  | .call (.select exclude) => if (s.selectWith exclude).1 = some name then [.out] else []
  | .call (.report result other) => if other = name ∧ s.takes result name then [.back] else []
  | .call (.down other) => if other = name then [.back] else []
  | _ => []

omit [Scalar ω] in
/-- The calls that are counted by hand for a registered name. -/
def byHand (name : String) (e : Event ω) (s : System ω) : List Flight :=
  match e with
  | .call (.acquire other) =>
    if other = name ∧ (s.selector.find? name).isSome then [.out] else []
  | .call (.release other) =>
    if other = name ∧ (s.selector.find? name).isSome then [.back] else []
  | _ => []

/-- What the events of a run are, one after the other. -/
def traffic (mark : Event ω → System ω → List Flight) : List (Event ω) → System ω → List Flight
  | [], _ => []
  | e :: es, s => mark e s ++ traffic mark es (s.step e)

omit [Scalar ω] in
/-- The calls in flight of a name, none if it is not registered. -/
def outstanding (name : String) (s : System ω) : Nat :=
  ((s.selector.find? name).bind (·.inFlight)).getD 0

theorem traffic_concat (mark : Event ω → System ω → List Flight) (es : List (Event ω)) (e : Event ω)
    (s : System ω) : traffic mark (es ++ [e]) s = traffic mark es s ++ mark e (s.run es) := by
  induction es generalizing s with
  | nil => simp [traffic, run]
  | cons first rest ih =>
      show mark first s ++ traffic mark (rest ++ [e]) (s.step first) = _
      rw [ih, ← List.append_assoc]
      rfl

end System

/-! ## Checks -/

namespace Selector

/-- The selectors agree on the names and on the calls in flight of each resource. -/
structure SameCalls (s t : Selector ω) : Prop where
  registry : t.registry = s.registry
  calls : t.states.map (·.inFlight) = s.states.map (·.inFlight)

namespace SameCalls

variable {s t u : Selector ω}

omit [Scalar ω] in
theorem refl (s : Selector ω) : s.SameCalls s := ⟨rfl, rfl⟩

omit [Scalar ω] in
theorem trans (h : s.SameCalls t) (h' : t.SameCalls u) : s.SameCalls u :=
  ⟨h'.registry.trans h.registry, h'.calls.trans h.calls⟩

omit [Scalar ω] in
theorem find? (h : s.SameCalls t) (name : String) :
    (t.find? name).map (·.inFlight) = (s.find? name).map (·.inFlight) := by
  have hread (s : Selector ω) : (s.find? name).map (·.inFlight) =
      (s.place? name).bind fun place => (s.states.map (·.inFlight))[place]? := by
    unfold Selector.find? entry?
    cases s.place? name with
    | none => rfl
    | some place => simp [Option.map_map, Function.comp_def]
  rw [hread, hread, h.calls]
  unfold place?
  rw [h.registry]

end SameCalls

end Selector

omit [Scalar ω] in
theorem System.Calm.sameCalls {s t : System ω} (h : s.Calm t) : s.selector.SameCalls t.selector :=
  ⟨h.registry, by rw [h.states]⟩

theorem Resource.inFlight_propose (r : Resource ω) (weight : ω) :
    (r.propose weight).2.inFlight = r.inFlight := by
  simp only [propose]
  split
  · rfl
  · rfl

namespace System

open Selector (SameCalls)

theorem sameCalls_checkResource (probe : Probe ω) (name : String) (s : System ω) :
    s.selector.SameCalls (s.checkResource probe name).2.selector := by
  obtain ⟨asked, heq | ⟨place, r, -, heq⟩⟩ := s.checkResource_snd probe name
  · rw [heq]
    exact .refl _
  · rw [heq]
    unfold probeResource
    simp only
    split
    · next s' hproposal =>
        obtain ⟨counters, hs'⟩ := changes_of_proposalFor hproposal
        rw [hs']
        exact ⟨rfl, rfl⟩
    · next weight s' hproposal =>
        obtain ⟨counters, hs'⟩ := changes_of_proposalFor hproposal
        have hidle : s.selector.SameCalls s'.selector := by
          rw [hs']
          exact ⟨rfl, rfl⟩
        have hmoved : s'.selector.SameCalls (s'.propose place r weight).2.selector :=
          ⟨rfl, map_modify_of_eq _ _ (fun q => q.inFlight_propose weight) place _⟩
        exact (hidle.trans hmoved).trans (calm_applyChange r _ _ .healthCheck _).sameCalls

theorem sameCalls_checkEach (probe : Probe ω) (order : List String) (s : System ω) :
    s.selector.SameCalls (s.checkEach probe order).2.selector := by
  induction order generalizing s with
  | nil => exact .refl _
  | cons name rest ih =>
      unfold checkEach
      exact (s.sameCalls_checkResource probe name).trans (ih _)

theorem sameCalls_checkIn (order : List String) (s : System ω) :
    s.selector.SameCalls (s.checkIn order).2.selector := by
  unfold checkIn
  split
  · exact .refl _
  · next probe _ => exact s.sameCalls_checkEach probe order

theorem sameCalls_tick (s : System ω) : s.selector.SameCalls s.tick.2.selector := by
  unfold tick
  refine ManualExecutor.tick_induct (P := fun t => s.selector.SameCalls t.selector) ?_
    s.host.executor s (.refl _)
  intro id x t ht
  unfold runCheck
  simp only
  split
  · exact ht.trans (sameCalls_checkIn _ { t with host := { t.host with executor := x } })
  · exact ht

end System

/-! ## Where calls are counted -/

/-- The calls in flight of every resource are counted if the settings say so. -/
def Selector.Counting (s : Selector ω) : Prop :=
  ∀ r ∈ s.states, r.inFlight.isSome = s.settings.countsCalls

namespace Builder.Reaches

variable [LawfulScalar ω] {b : Builder ω} {s : System ω}

theorem counting (h : b.Reaches s) : s.selector.Counting := by
  refine h.induct (P := Selector.Counting) ?_ ?_ ?_
  · intro id hvalid r hr
    obtain ⟨entry, -, rfl⟩ := mem_states_toSelector hr
    show Option.isSome (ite _ _ _) = b.settings.countsCalls
    cases b.settings.countsCalls <;> rfl
  · intro s name weight hnew hauto hs r hr
    rw [Selector.states_register, List.mem_append, List.mem_singleton] at hr
    rcases hr with hold | rfl
    · exact hs r hold
    · show Option.isSome (ite _ _ _) = s.settings.countsCalls
      cases s.settings.countsCalls <;> rfl
  · intro s t hc hs r hr
    obtain ⟨place, hplace⟩ := List.mem_iff_getElem?.1 hr
    obtain ⟨r', hr', hkept⟩ := hc.frame.kept hplace
    rw [hkept.countsCalls, hc.frame.settings]
    exact hs r' (List.mem_of_getElem? hr')

theorem exists_inFlight (h : b.Reaches s) (hcounts : s.selector.settings.countsCalls = true)
    {name : String} {r : Resource ω} (hr : s.selector.find? name = some r) :
    ∃ n, r.inFlight = some n := by
  have hsome := h.counting r (h.layout.mem_of_find? hr).1
  rw [hcounts] at hsome
  exact Option.isSome_iff_exists.1 hsome

end Builder.Reaches

/-! ## One event -/

namespace Resource

variable {r : Resource ω} {n : Nat}

omit [Scalar ω] in
theorem inFlight_acquire (hn : r.inFlight = some n) :
    r.acquire.2.inFlight = some (Flight.move n .out) := by
  show r.inFlight.map _ = _
  rw [hn]
  rfl

omit [Scalar ω] in
theorem inFlight_release (hn : r.inFlight = some n) :
    r.release.2.inFlight = some (Flight.move n .back) := by
  show r.inFlight.map _ = _
  rw [hn]
  rfl

omit [Scalar ω] in
theorem inFlight_finished (hn : r.inFlight = some n) (tracks : Bool) :
    (r.finished tracks).inFlight = some (if tracks then Flight.move n .back else n) := by
  cases tracks with
  | false => exact hn
  | true => exact inFlight_release hn

theorem inFlight_answered (hn : r.inFlight = some n) (answer : Outcome ω) (tracks : Bool) :
    (r.answered answer tracks).inFlight =
      some (if tracks ∧ answer.answer?.isSome then Flight.move n .back else n) := by
  cases answer with
  | crashed => simpa [answered, Outcome.answer?] using hn
  | done weight =>
      simpa [answered, Outcome.answer?] using
        inFlight_finished ((r.inFlight_propose weight).trans hn) tracks

end Resource

namespace System

omit [Scalar ω] in
theorem outstanding_of_find? {s : System ω} {name : String} {r : Resource ω} {n : Nat}
    (hr : s.selector.find? name = some r) (hn : r.inFlight = some n) : s.outstanding name = n := by
  unfold outstanding
  rw [hr, Option.bind_some, hn, Option.getD_some]

omit [Scalar ω] in
theorem outstanding_of_unknown {s : System ω} {name : String} (h : s.selector.find? name = none) :
    s.outstanding name = 0 := by
  unfold outstanding
  rw [h]
  rfl

omit [Scalar ω] in
theorem outstanding_congr {s t : System ω} {name : String}
    (h : (t.selector.find? name).map (·.inFlight) = (s.selector.find? name).map (·.inFlight)) :
    t.outstanding name = s.outstanding name := by
  have hread (s : System ω) : s.outstanding name =
      (((s.selector.find? name).map (·.inFlight)).getD none).getD 0 := by
    unfold outstanding
    cases s.selector.find? name with
    | none => rfl
    | some r => rfl
  rw [hread, hread, h]

omit [Scalar ω] in
theorem Calm.outstanding {s t : System ω} (h : s.Calm t) (name : String) :
    t.outstanding name = s.outstanding name :=
  outstanding_congr (by rw [h.find?])

end System

namespace Builder.Reaches

variable [LawfulScalar ω] {b : Builder ω} {s : System ω}

theorem outstanding_select (h : b.Reaches s) (hcounts : s.selector.settings.countsCalls = true)
    (exclude : Option (List String)) (name : String) :
    (s.selectWith exclude).2.outstanding name =
      if s.selector.settings.tracksCalls ∧ (s.selectWith exclude).1 = some name then
        Flight.move (s.outstanding name) .out
      else s.outstanding name := by
  have hready : s.selector.Ready := ⟨h.layout, h.settled⟩
  have hfind := System.find?_selectWith hready exclude name
  split
  · next hcounted =>
      obtain ⟨r, hr⟩ := System.exists_of_selectWith hready hcounted.2
      obtain ⟨n, hn⟩ := h.exists_inFlight hcounts hr
      rw [hr, Option.map_some, if_pos hcounted.symm] at hfind
      rw [System.outstanding_of_find? hr hn]
      exact System.outstanding_of_find? hfind (Resource.inFlight_acquire hn)
  · next hleft =>
      simp only [show ¬ _ from fun hcounted => hleft (And.symm hcounted), if_false] at hfind
      exact System.outstanding_congr (by rw [hfind, Option.map_id'])

/-- A report on a known name. -/
theorem outstanding_report_of_find? (h : b.Reaches s)
    (hcounts : s.selector.settings.countsCalls = true) (result : CallResult) {other : String}
    {r : Resource ω} (hr : s.selector.find? other = some r) (name : String) :
    (s.report result other).2.outstanding name =
      if s.selector.settings.tracksCalls ∧ other = name ∧ s.takes result name then
        Flight.move (s.outstanding name) .back
      else s.outstanding name := by
  have hfind := System.find?_report h.layout hr result name
  by_cases heq : other = name
  · subst heq
    obtain ⟨n, hn⟩ := h.exists_inFlight hcounts hr
    rw [if_pos rfl] at hfind
    rw [System.outstanding_of_find? hr hn,
      System.outstanding_of_find? hfind (Resource.inFlight_answered hn _ _)]
    simp only [System.takes, hr, true_and]
  · rw [if_neg (Ne.symm heq)] at hfind
    rw [if_neg fun hcounted => heq hcounted.2.1]
    exact System.outstanding_congr (by rw [hfind])

/-- A name that nobody knows has no calls in flight, before its registration and after it. -/
theorem outstanding_report_of_unknown (h : b.Reaches s)
    (hcounts : s.selector.settings.countsCalls = true) (result : CallResult) {other : String}
    (hnone : s.selector.find? other = none) (name : String) :
    (s.report result other).2.outstanding name =
      if other = name then 0 else s.outstanding name := by
  have hnew := h.layout.find?_eq_none_iff.1 hnone
  cases hauto : s.selector.settings.autoAddWeight with
  | none =>
      rw [(System.calm_report_of_unknown hnew hauto result).outstanding]
      split
      · next heq =>
          subst heq
          exact System.outstanding_of_unknown hnone
      · rfl
  | some weight =>
      rw [System.report_eq_register hnew hauto]
      have hfound (name : String) := Selector.find?_register h.layout weight hnew name
      have hfind := System.find?_report (s := s.register other weight)
        (h.layout.register weight hnew) ((hfound other).trans (if_pos rfl)) result name
      split
      · next heq =>
          subst heq
          rw [if_pos rfl] at hfind
          have hnewcomer : (s.selector.newcomer other weight).inFlight = some 0 := by
            show ite _ _ _ = _
            rw [hcounts]
            rfl
          rw [System.outstanding_of_find? hfind (Resource.inFlight_answered hnewcomer _ _)]
          split
          · rfl
          · rfl
      · next hne =>
          rw [if_neg (Ne.symm hne)] at hfind
          have hold := (hfound name).trans (if_neg (Ne.symm hne))
          exact System.outstanding_congr (by rw [hfind, ← hold]; rfl)

theorem outstanding_report (h : b.Reaches s) (hcounts : s.selector.settings.countsCalls = true)
    (result : CallResult) (other name : String) :
    (s.report result other).2.outstanding name =
      if s.selector.settings.tracksCalls ∧ other = name ∧ s.takes result name then
        Flight.move (s.outstanding name) .back
      else s.outstanding name := by
  cases hfind : s.selector.find? other with
  | some r => exact h.outstanding_report_of_find? hcounts result hfind name
  | none =>
      rw [h.outstanding_report_of_unknown hcounts result hfind]
      split
      · next heq =>
          subst heq
          rw [System.outstanding_of_unknown hfind]
          split
          · rfl
          · rfl
      · next hne => rw [if_neg fun hcounted => hne hcounted.2.1]

theorem outstanding_down (h : b.Reaches s) (hcounts : s.selector.settings.countsCalls = true)
    (other name : String) : (s.down other).2.outstanding name =
      if s.selector.settings.tracksCalls ∧ other = name then
        Flight.move (s.outstanding name) .back
      else s.outstanding name := by
  cases hr : s.selector.find? other with
  | some r =>
      have hfind := System.find?_down h.layout hr name
      by_cases heq : other = name
      · subst heq
        obtain ⟨n, hn⟩ := h.exists_inFlight hcounts hr
        rw [if_pos rfl] at hfind
        rw [System.outstanding_of_find? hr hn, System.outstanding_of_find? hfind
          (Resource.inFlight_finished (r := r.forceDown.2) hn _)]
        simp only [and_true]
      · rw [if_neg (Ne.symm heq)] at hfind
        rw [if_neg fun hcounted => heq hcounted.2]
        exact System.outstanding_congr (by rw [hfind])
  | none =>
      have hnone : s.selector.entry? other = none := Option.map_eq_none_iff.1 hr
      rw [(System.calm_down_of_unknown hnone).outstanding]
      split
      · next hcounted =>
          rw [← hcounted.2, System.outstanding_of_unknown hr]
          rfl
      · rfl

theorem outstanding_onState (h : b.Reaches s) (hcounts : s.selector.settings.countsCalls = true)
    {f : Resource ω → Bool × Resource ω} {flight : Flight}
    (hf : ∀ {r n}, r.inFlight = some n → (f r).2.inFlight = some (Flight.move n flight))
    (other name : String) : (s.onState other f).2.outstanding name =
      if other = name ∧ (s.selector.find? name).isSome then
        Flight.move (s.outstanding name) flight
      else s.outstanding name := by
  have hfind := System.find?_onState h.layout f other name
  cases hr : s.selector.find? name with
  | none =>
      rw [hr] at hfind
      rw [System.outstanding_of_unknown hr, System.outstanding_of_unknown hfind]
      simp
  | some r =>
      obtain ⟨n, hn⟩ := h.exists_inFlight hcounts hr
      rw [hr, Option.map_some] at hfind
      rw [System.outstanding_of_find? hr hn]
      by_cases heq : other = name
      · subst heq
        rw [if_pos rfl] at hfind
        simp [System.outstanding_of_find? hfind (hf hn)]
      · rw [if_neg (Ne.symm heq)] at hfind
        simp [heq, System.outstanding_of_find? hfind hn]

/-- The count after an event: what the event puts out and takes back, in the mode of the
selector. -/
theorem outstanding_step (h : b.Reaches s) (hcounts : s.selector.settings.countsCalls = true)
    (e : Event ω) (name : String) : (s.step e).outstanding name =
      ((if s.selector.settings.tracksCalls then s.reported name e else []) ++ s.byHand name e).foldl
        Flight.move (s.outstanding name) := by
  have hnothing : ((if s.selector.settings.tracksCalls then [] else []) ++ []).foldl Flight.move
      (s.outstanding name) = s.outstanding name := by
    rw [ite_self]
    rfl
  cases e with
  | call c =>
      cases c with
      | select exclude =>
          simp only [System.reported, System.byHand, List.append_nil, ← ite_and,
            Flight.foldl_move_ite]
          exact h.outstanding_select hcounts exclude name
      | report result other =>
          simp only [System.reported, System.byHand, List.append_nil, ← ite_and,
            Flight.foldl_move_ite]
          exact h.outstanding_report hcounts result other name
      | down other =>
          simp only [System.reported, System.byHand, List.append_nil, ← ite_and,
            Flight.foldl_move_ite]
          exact h.outstanding_down hcounts other name
      | check order =>
          refine (System.outstanding_congr ((s.sameCalls_checkIn order).find? name)).trans ?_
          exact hnothing.symm
      | acquire other =>
          simp only [System.reported, System.byHand, ite_self, List.nil_append,
            Flight.foldl_move_ite]
          exact h.outstanding_onState hcounts Resource.inFlight_acquire other name
      | release other =>
          simp only [System.reported, System.byHand, ite_self, List.nil_append,
            Flight.foldl_move_ite]
          exact h.outstanding_onState hcounts Resource.inFlight_release other name
      | close => exact (s.calm_close.outstanding name).trans hnothing.symm
  | tick => exact (System.outstanding_congr (s.sameCalls_tick.find? name)).trans hnothing.symm
  | others host => exact hnothing.symm

/-! ## Runs -/

/-- The count after a run is the running sum of what its events put out and took back. -/
theorem outstanding_run (h : b.Reaches s) (hcounts : s.selector.settings.countsCalls = true)
    {name : String} (mark : Event ω → System ω → List Flight) {es : List (Event ω)}
    (hmark : ∀ e ∈ es, ∀ t : System ω, t.selector.settings = s.selector.settings → mark e t =
      (if s.selector.settings.tracksCalls then t.reported name e else []) ++ t.byHand name e) :
    (s.run es).outstanding name =
      (System.traffic mark es s).foldl Flight.move (s.outstanding name) := by
  induction es generalizing s with
  | nil => rfl
  | cons e rest ih =>
      obtain ⟨hfirst, hrest⟩ := List.forall_mem_cons.1 hmark
      have hsettings := s.settings_step e
      have hstep := h.outstanding_step hcounts e name
      rw [← hfirst s rfl] at hstep
      have htail := ih (h.step e) (hsettings ▸ hcounts) fun e' he' t ht => by
        rw [hsettings] at ht ⊢
        exact hrest e' he' t ht
      show ((s.step e).run rest).outstanding name = _
      rw [htail, hstep, System.traffic, List.foldl_append]

end Builder.Reaches

namespace Builder

theorem outstanding_of_build {b : Builder ω} {id : Nat} {host : Host ω} {s : System ω}
    (h : b.build id host = .ok s) (name : String) : s.outstanding name = 0 := by
  unfold System.outstanding
  rw [find?_of_build h]
  cases b.resources.lookup name with
  | none => rfl
  | some d =>
      show (ite _ _ _ : Option Nat).getD 0 = 0
      split
      · rfl
      · rfl

end Builder

/-- No report comes before its selection, and no more calls are in flight than can be told apart. -/
def Paired (flights : List Flight) : Prop :=
  flights.count .back ≤ flights.count .out ∧
    flights.count .out ≤ flights.count .back + Resource.inFlightLimit

/-- Between two points at which selections and reports are paired, one of either moves the
difference. -/
theorem Paired.foldl_move {before more : List Flight} (hbefore : Paired before)
    (hafter : Paired (before ++ more)) (hmore : more = [] ∨ more = [.out] ∨ more = [.back]) :
    more.foldl Flight.move (before.count .out - before.count .back) =
      (before ++ more).count .out - (before ++ more).count .back := by
  obtain ⟨hback, hout⟩ := hbefore
  obtain ⟨hback', hout'⟩ := hafter
  rcases hmore with rfl | rfl | rfl
  · rw [List.append_nil]
    rfl
  · have hsame : [Flight.out].count .back = 0 := rfl
    have hone : [Flight.out].count .out = 1 := rfl
    rw [List.count_append, List.count_append, hsame, hone] at hout' ⊢
    rw [List.foldl_cons, List.foldl_nil, Flight.move, Nat.min_eq_left (by omega)]
    omega
  · have hsame : [Flight.back].count .out = 0 := rfl
    have hone : [Flight.back].count .back = 1 := rfl
    rw [List.count_append, List.count_append, hsame, hone, List.foldl_cons, List.foldl_nil,
      Flight.move]
    omega

theorem System.reported_cases (name : String) (e : Event ω) (s : System ω) :
    s.reported name e = [] ∨ s.reported name e = [.out] ∨ s.reported name e = [.back] := by
  unfold reported
  split
  · split <;> simp
  · split <;> simp
  · split <;> simp
  · simp

omit [Scalar ω] in
theorem System.byHand_of_not_mem {es : List (Event ω)}
    (h : ∀ other, .call (.acquire other) ∉ es ∧ .call (.release other) ∉ es) {e : Event ω}
    (he : e ∈ es) {name : String} {s : System ω} : s.byHand name e = [] := by
  unfold byHand
  split
  · next other => exact absurd he (h other).1
  · next other => exact absurd he (h other).2
  · rfl

/-- Where selections and reports are paired at every point, the running sum is a difference. -/
theorem System.foldl_reported {name : String} {s : System ω} {es : List (Event ω)}
    (h : ∀ es', es' <+: es → Paired (traffic (reported name) es' s)) :
    (traffic (reported name) es s).foldl Flight.move 0 =
      (traffic (reported name) es s).count .out - (traffic (reported name) es s).count .back := by
  -- from the end, since it is the beginnings of a run that are known to be paired
  induction es using List.reverseRecOn with
  | nil => rfl
  | append_singleton es e ih =>
      have hbefore := ih fun es' hes' => h es' (hes'.trans (List.prefix_append es [e]))
      have hpaired := h es (List.prefix_append es [e])
      have hpaired' := h (es ++ [e]) (List.prefix_refl _)
      rw [traffic_concat] at hpaired' ⊢
      rw [List.foldl_append, hbefore]
      exact hpaired.foldl_move hpaired' (reported_cases name e (s.run es))

/-- A declared resource and one that callers count by hand. -/
def Builder.byHand : Builder Float :=
  { Builder.pair with settings := { Builder.pair.settings with countsManually := true } }

/-- The count of every resource of every selector is accounted for: by its selections and reports
where these count, and by hand where callers do. No check changes it. -/
theorem inFlight_eq {b : Builder Float} {id : Nat} {host : Host Float} {s : System Float}
    (h : b.build id host = .ok s) (es : List (Event Float)) {name : String} {r : Resource Float}
    (hr : (s.run es).selector.find? name = some r) :
    (b.settings.tracksCalls = true →
      (∀ other, .call (.acquire other) ∉ es ∧ .call (.release other) ∉ es) →
      (∀ es', es' <+: es → Paired (System.traffic (System.reported name) es' s)) →
      r.inFlight = some ((System.traffic (System.reported name) es s).count .out -
        (System.traffic (System.reported name) es s).count .back)) ∧
    (b.settings.countsCalls = true → b.settings.countsManually = true →
      r.inFlight = some ((System.traffic (System.byHand name) es s).foldl Flight.move 0)) ∧
    (∀ order, (((s.run es).checkIn order).2.selector.find? name).map (·.inFlight) =
      some r.inFlight) ∧
    ((s.run es).tick.2.selector.find? name).map (·.inFlight) = some r.inFlight := by
  have hreaches : b.Reaches s := .built h
  have hsettings : s.selector.settings = b.settings := hreaches.bounded.settings
  have hrun : (s.run es).selector.settings = b.settings := (hreaches.run es).bounded.settings
  have hcounted (hcounts : b.settings.countsCalls = true) :
      r.inFlight = some ((s.run es).outstanding name) := by
    obtain ⟨n, hn⟩ := (hreaches.run es).exists_inFlight (hrun ▸ hcounts) hr
    rw [hn, System.outstanding_of_find? hr hn]
  refine ⟨fun htracks hhand hpaired => ?_, fun hcounts hmanual => ?_, fun order => ?_, ?_⟩
  · have hcounts : b.settings.countsCalls = true := (Bool.and_eq_true_iff.1 htracks).1
    rw [hcounted hcounts, hreaches.outstanding_run (hsettings ▸ hcounts)
      (System.reported name) fun e he t _ => ?_, b.outstanding_of_build h,
      System.foldl_reported hpaired]
    rw [hsettings, htracks, if_pos rfl, System.byHand_of_not_mem hhand he, List.append_nil]
  · have htracks : s.selector.settings.tracksCalls = false := by
      rw [hsettings]
      simp [Settings.tracksCalls, hmanual]
    rw [hcounted hcounts, hreaches.outstanding_run (hsettings ▸ hcounts)
      (System.byHand name) fun e _ t _ => ?_, b.outstanding_of_build h]
    simp [htracks]
  · rw [((s.run es).sameCalls_checkIn order).find?, hr, Option.map_some]
  · rw [(s.run es).sameCalls_tick.find?, hr, Option.map_some]

/-- A selection without the second resource answers with the first one. -/
theorem Builder.pair_selects {s : System Float} (h : Builder.pair.build 0 { rng := ⟨0⟩ } = .ok s) :
    (s.selectWith (some ["b"])).1 = some "a" := by
  have hreaches : Builder.pair.Reaches s := .built h
  have hstates := (calm_of_build h).states
  have hsettings : s.selector.settings = Builder.pair.settings := hreaches.bounded.settings
  rcases System.selectWith_cases ⟨hreaches.layout, hreaches.settled⟩ (some ["b"]) with
    ⟨place, r, -, hr, heligible, -, hpicked, -⟩ | ⟨-, hnone, -⟩
  · rw [hstates] at hr
    obtain ⟨entry, hentry, rfl⟩ := mem_states_toSelector (List.mem_of_getElem? hr)
    have hname : entry.1 ∉ ["b"] := heligible.1
    have hmem : entry.1 ∈ ["a", "b"] := List.mem_map_of_mem (f := (·.1)) hentry
    have heq : entry.1 = "a" := (List.mem_cons.1 hmem).resolve_right hname
    rw [hpicked]
    exact congrArg some heq
  · refine absurd ?_ (hnone (.ofDeclaration "a" (.ofWeight 100) true) ?_)
    · rw [hsettings]
      exact ⟨by simp [Resource.ofDeclaration], by decide +kernel⟩
    · rw [hstates]
      exact List.mem_cons_self

/-- One call out, and one that is counted by hand. -/
theorem inFlight_eq_pair :
    (∃ s r, Builder.pair.build 0 { rng := ⟨0⟩ } = .ok s ∧
      (s.run [.call (.select (some ["b"]))]).selector.find? "a" = some r ∧ r.inFlight = some 1) ∧
    ∃ s r, Builder.byHand.build 0 { rng := ⟨0⟩ } = .ok s ∧
      (s.run [.call (.acquire "a"), .call (.select none)]).selector.find? "a" = some r ∧
      r.inFlight = some 1 := by
  constructor
  · obtain ⟨s, hbuild⟩ := Builder.exists_build Builder.pair_valid (.of_none rfl) 0 { rng := ⟨0⟩ }
    obtain ⟨r, hr⟩ := ((Builder.Reaches.built hbuild).run
      [.call (.select (some ["b"]))]).exists_find? (by decide : "a" ∈ _)
    have htraffic : System.traffic (System.reported "a") [.call (.select (some ["b"]))] s =
        [.out] := by
      simp [System.traffic, System.reported, Builder.pair_selects hbuild]
    have heq := (inFlight_eq hbuild [.call (.select (some ["b"]))] hr).1 rfl (by simp) (by
      intro es' hes'
      rw [List.prefix_cons_iff] at hes'
      rcases hes' with rfl | ⟨rest, rfl, hrest⟩
      · exact ⟨Nat.le_refl 0, Nat.zero_le _⟩
      · rw [List.prefix_nil.1 hrest, htraffic]
        exact ⟨by decide, by decide⟩)
    rw [htraffic] at heq
    exact ⟨s, r, hbuild, hr, heq⟩
  · obtain ⟨s, hbuild⟩ := Builder.exists_build (b := Builder.byHand) rfl (.of_none rfl) 0 { rng := ⟨0⟩ }
    obtain ⟨r, hr⟩ := ((Builder.Reaches.built hbuild).run
      [.call (.acquire "a"), .call (.select none)]).exists_find? (by decide : "a" ∈ _)
    obtain ⟨r', hr'⟩ := (Builder.Reaches.built hbuild).exists_find? (by decide : "a" ∈ _)
    have heq := (inFlight_eq hbuild [.call (.acquire "a"), .call (.select none)] hr).2.1 rfl rfl
    simp [System.traffic, System.byHand, hr'] at heq
    exact ⟨s, r, hbuild, hr, heq⟩

end ResourceSelection
