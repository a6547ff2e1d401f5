import ResourceSelection.Proofs.InFlight
import ResourceSelection.Proofs.Judgement

/-!
# Calls in flight when the members change

A call may be selected on one selector and reported to the next, because every change of the
membership that is made puts a new selector in the place of the current one. The weights of the
resources go along, but the counts of calls in flight do not: on the new selector they start from
zero. So a count tells of the selections and reports since the last change, and of nothing before
it (`Manager.outstanding_run`).

As long as no change comes while a call is out, nothing is lost and the count is the number of calls
that have not been reported. Otherwise the calls that are out are forgotten, and the report of one
of them takes back a later call, if there is any.
-/

namespace ResourceSelection

variable {ω : Type} [Scalar ω]

/-- Whether the caller counts a call by hand. -/
def Call.ByHand : Call → Prop
  | .acquire _ => True
  | .release _ => True
  | _ => False

def ManagerEvent.ByHand : ManagerEvent ω → Prop
  | .call c => c.ByHand
  | .callOn _ c => c.ByHand
  | _ => False

namespace Manager

/-- The manager after some events, the first one first. -/
def run (es : List (ManagerEvent ω)) (m : Manager ω) : Manager ω := es.foldl (fun m e => m.step e) m

/-- Whether the event is a change of the membership, and one that can be made. -/
def makes (m : Manager ω) : ManagerEvent ω → Bool
  | .update add remove rank => (m.update add remove rank).isOk
  | .updateAll resources rank => (m.updateAll resources rank).isOk
  | _ => false

/-- The selections that answer with a name and the reports on it, as far as they reach the current
selector. -/
def flights (name : String) (e : ManagerEvent ω) (m : Manager ω) : List Flight :=
  match e with
  | .call c => m.system.reported name (.call c)
  | .callOn id c => if id = m.current.id then m.system.reported name (.call c) else []
  | _ => []

/-- The selections and reports of a run, one after the other. -/
def traffic (name : String) : List (ManagerEvent ω) → Manager ω → List Flight
  | [], _ => []
  | e :: es, m => m.flights name e ++ traffic name es (m.step e)

/-- The selections and reports that come after the last change of a run. Where none is made, those
from before the run count as well. -/
def sinceChange (name : String) :
    List (ManagerEvent ω) → Manager ω → List Flight → List Flight
  | [], _, before => before
  | e :: es, m, before =>
    sinceChange name es (m.step e) (if m.makes e then [] else before ++ m.flights name e)

theorem run_concat (es : List (ManagerEvent ω)) (e : ManagerEvent ω) (m : Manager ω) :
    m.run (es ++ [e]) = (m.run es).step e :=
  List.foldl_concat _ _ _ _

theorem traffic_concat (name : String) (es : List (ManagerEvent ω)) (e : ManagerEvent ω)
    (m : Manager ω) :
    m.traffic name (es ++ [e]) = m.traffic name es ++ (m.run es).flights name e := by
  induction es generalizing m with
  | nil => simp [traffic, run]
  | cons first rest ih =>
      show m.flights name first ++ (m.step first).traffic name (rest ++ [e]) = _
      rw [ih, ← List.append_assoc]
      rfl

theorem flights_cases (name : String) (e : ManagerEvent ω) (m : Manager ω) :
    m.flights name e = [] ∨ m.flights name e = [.out] ∨ m.flights name e = [.back] := by
  unfold flights
  split
  · exact m.system.reported_cases name _
  · split
    · exact m.system.reported_cases name _
    · exact .inl rfl
  · exact .inl rfl

theorem flights_of_makes {name : String} {e : ManagerEvent ω} {m : Manager ω}
    (h : m.makes e = true) : m.flights name e = [] := by
  cases e with
  | call c => exact nomatch h
  | callOn id c => exact nomatch h
  | _ => rfl

/-! ## One event -/

variable {m : Manager ω}

theorem template_step [LawfulScalar ω] (e : ManagerEvent ω) (m : Manager ω) :
    (m.step e).template = m.template := by
  have hattempt (add : Roster ω) (remove : List String) (rank : String → Nat) :
      (m.attempt (m.apply add remove rank)).template = m.template :=
    attempt_apply_induct (P := fun u => u.template = m.template) (fun _ => rfl) (fun _ => rfl) add
      remove rank
  cases e with
  | update add remove rank => exact hattempt _ _ _
  | updateAll resources rank => exact hattempt _ _ _
  | _ =>
      refine (m.moves_step rfl).induct (P := fun u => u.template = m.template) ?_ rfl
      rintro u v hmove htemplate
      cases hmove with
      | _ => exact htemplate

omit [Scalar ω] in
theorem outstanding_record_current (m : Manager ω) {s : System ω}
    (hid : s.selector.id = m.current.id) (name : String) :
    (m.record s).system.outstanding name = s.outstanding name := by
  unfold System.outstanding system record
  simp only [if_pos hid.symm]

omit [Scalar ω] in
theorem outstanding_record_of_ne (m : Manager ω) {s : System ω}
    (hid : m.current.id ≠ s.selector.id) (name : String) :
    (m.record s).system.outstanding name = m.system.outstanding name := by
  unfold System.outstanding system record
  simp only [if_neg hid]

/-- On a selector that has been built by a change no call is in flight. -/
theorem outstanding_of_apply {add : Roster ω} {remove : List String} {rank : String → Nat}
    {next : Manager ω} (h : m.apply add remove rank = .ok next) (name : String) :
    next.system.outstanding name = 0 := by
  unfold System.outstanding
  rw [show next.system.selector.find? name = _ from (changed_of_apply h).found name]
  cases Roster.get? _ name with
  | none => rfl
  | some d =>
      show (ite _ _ _ : Option Nat).getD 0 = 0
      split
      · rfl
      · rfl

section Counted

variable [LawfulScalar ω]

theorem Traced.settings (h : m.Traced) : m.current.settings = m.template.settings :=
  h.current.choose_spec.bounded.settings

theorem outstanding_call (h : m.Traced) (htracks : m.template.settings.tracksCalls = true)
    {c : Call} (hhand : ¬ c.ByHand) (name : String) :
    (m.record (m.system.call c)).system.outstanding name =
      (m.system.reported name (.call c)).foldl Flight.move (m.system.outstanding name) := by
  obtain ⟨previous, hcurrent⟩ := h.current
  have hsettings : m.system.selector.settings = m.template.settings := h.settings
  have hcounts : m.template.settings.countsCalls = true := (Bool.and_eq_true_iff.1 htracks).1
  have hnone : m.system.byHand name (.call c) = [] := by
    cases c with
    | acquire other => exact absurd trivial hhand
    | release other => exact absurd trivial hhand
    | _ => rfl
  have hstep := hcurrent.outstanding_step (hsettings ▸ hcounts) (.call c) name
  rw [hsettings, htracks, if_pos rfl, hnone, List.append_nil] at hstep
  exact (outstanding_record_current m (m.system.id_step (.call c)) name).trans hstep

theorem outstanding_callOn (h : m.Traced) (htracks : m.template.settings.tracksCalls = true)
    {c : Call} (hhand : ¬ c.ByHand) (id : Nat) (name : String) :
    (m.step (.callOn id c)).system.outstanding name =
      (m.flights name (.callOn id c)).foldl Flight.move (m.system.outstanding name) := by
  by_cases hid : id = m.current.id
  · subst hid
    have hstep : m.step (.callOn m.current.id c) = m.record (m.system.call c) := by
      unfold step onSnapshot
      simp only [snapshot?_current]
    rw [hstep, outstanding_call h htracks hhand, flights, if_pos rfl]
  · -- the selector of another number is recorded in its own place
    rw [flights, if_neg hid]
    unfold step onSnapshot
    simp only
    split
    · rfl
    · next s hs =>
        have hnumber := (s.id_step (.call c)).trans (snapshot?_eq_some hs).1
        exact outstanding_record_of_ne m (fun heq => hid (heq.trans hnumber).symm) name

theorem outstanding_runCheck (id : Nat) (x : ManualExecutor Nat) (name : String) (m : Manager ω) :
    (runCheck id (x, m)).2.2.system.outstanding name = m.system.outstanding name := by
  unfold runCheck
  simp only
  split
  · rfl
  · next s hs =>
      obtain ⟨hid, hcase⟩ := snapshot?_eq_some hs
      have hsame := System.id_step (.call (.check s.selector.allResources))
        ⟨s.selector, { s.host with executor := x }⟩
      obtain rfl | ⟨hne, -⟩ := hcase
      · refine (outstanding_record_current m hsame name).trans ?_
        exact System.outstanding_congr ((System.sameCalls_checkIn _ _).find? name)
      · exact outstanding_record_of_ne m (fun heq => hne (heq.trans (hsame.trans hid))) name

theorem outstanding_tick (m : Manager ω) (name : String) :
    m.tick.2.system.outstanding name = m.system.outstanding name :=
  ManualExecutor.tick_induct
    (P := fun t : Manager ω => t.system.outstanding name = m.system.outstanding name)
    (fun id x t ht => (outstanding_runCheck id x name t).trans ht) m.host.executor m rfl

/-- The count after an event: zero if it is a change, and otherwise what the event puts out and
takes back. -/
theorem outstanding_step (h : m.Traced) (htracks : m.template.settings.tracksCalls = true)
    {e : ManagerEvent ω} (hhand : ¬ e.ByHand) (name : String) :
    (m.step e).system.outstanding name =
      if m.makes e then 0
      else (m.flights name e).foldl Flight.move (m.system.outstanding name) := by
  have hattempt (add : Roster ω) (remove : List String) (rank : String → Nat) :
      (m.attempt (m.apply add remove rank)).system.outstanding name =
        if (m.apply add remove rank).isOk then 0 else m.system.outstanding name := by
    cases happly : m.apply add remove rank with
    | error fault => rfl
    | ok next => exact outstanding_of_apply happly name
  cases e with
  | call c => exact outstanding_call h htracks hhand name
  | callOn id c => exact outstanding_callOn h htracks hhand id name
  | update add remove rank => exact hattempt _ _ _
  | updateAll resources rank => exact hattempt _ _ _
  | tick => exact m.outstanding_tick name
  | close =>
      have hid : m.system.close.selector.id = m.current.id := m.system.id_step (.call .close)
      refine (outstanding_record_current { m with closed := true } hid name).trans ?_
      exact m.system.calm_close.outstanding name
  | others host => rfl

/-! ## Runs -/

theorem Traced.run (h : m.Traced) (es : List (ManagerEvent ω)) : (m.run es).Traced := by
  induction es generalizing m with
  | nil => exact h
  | cons e rest ih => exact ih (h.step e)

theorem template_run (es : List (ManagerEvent ω)) (m : Manager ω) :
    (m.run es).template = m.template := by
  induction es generalizing m with
  | nil => rfl
  | cons e rest ih => exact (ih (m.step e)).trans (m.template_step e)

theorem outstanding_run (h : m.Traced) (htracks : m.template.settings.tracksCalls = true)
    {es : List (ManagerEvent ω)} (hhand : ∀ e ∈ es, ¬ e.ByHand) {name : String}
    {before : List Flight} (hbefore : m.system.outstanding name = before.foldl Flight.move 0) :
    (m.run es).system.outstanding name = (m.sinceChange name es before).foldl Flight.move 0 := by
  induction es generalizing m before with
  | nil => exact hbefore
  | cons e rest ih =>
      obtain ⟨hfirst, hrest⟩ := List.forall_mem_cons.1 hhand
      refine ih (h.step e) ((m.template_step e) ▸ htracks) hrest ?_
      rw [outstanding_step h htracks hfirst, hbefore]
      split
      · rfl
      · rw [List.foldl_append]

/-- If no call is out whenever a change is made, the count is the number of calls that have not been
reported. -/
theorem outstanding_run_of_paired (h : m.Traced) (htracks : m.template.settings.tracksCalls = true)
    {name : String} (hnone : m.system.outstanding name = 0) {es : List (ManagerEvent ω)}
    (hhand : ∀ e ∈ es, ¬ e.ByHand) (hpaired : ∀ es', es' <+: es → Paired (m.traffic name es'))
    (hidle : ∀ es' e, es' ++ [e] <+: es → (m.run es').makes e = true →
      (m.traffic name es').count .out = (m.traffic name es').count .back) :
    (m.run es).system.outstanding name =
      (m.traffic name es).count .out - (m.traffic name es).count .back := by
  -- from the end, since it is the beginnings of a run that are known to be paired
  induction es using List.reverseRecOn with
  | nil => exact hnone
  | append_singleton es e ih =>
      have hpart := List.prefix_append es [e]
      have hbefore := ih (fun e' he' => hhand e' (hpart.subset he'))
        (fun es' hes' => hpaired es' (hes'.trans hpart))
        fun es' e' hes' => hidle es' e' (hes'.trans hpart)
      have hlast : ¬ e.ByHand := hhand e (List.mem_append_right es List.mem_cons_self)
      rw [run_concat, outstanding_step (h.run es) (m.template_run es ▸ htracks) hlast, hbefore,
        traffic_concat]
      split
      · next hmade =>
          have heven := hidle es e (List.prefix_refl _) hmade
          rw [flights_of_makes hmade, List.append_nil]
          omega
      · refine (hpaired es hpart).foldl_move ?_ (flights_cases name e (m.run es))
        rw [← traffic_concat]
        exact hpaired _ (List.prefix_refl _)

theorem Traced.inFlight_of_find? (h : m.Traced) (hcounts : m.template.settings.countsCalls = true)
    {name : String} {r : Resource ω} (hr : m.current.find? name = some r) :
    r.inFlight = some (m.system.outstanding name) := by
  obtain ⟨previous, hcurrent⟩ := h.current
  have hsettings : m.system.selector.settings = m.template.settings := h.settings
  obtain ⟨n, hn⟩ := hcurrent.exists_inFlight (hsettings ▸ hcounts) hr
  rw [hn, System.outstanding_of_find? (s := m.system) hr hn]

end Counted

end Manager

/-- The count of a resource tells of the selections and reports since the last change of the
membership. Where no call is out when a change is made, that is the number of calls which have not
been reported; but whatever is out, a change leaves nothing of it. -/
theorem inFlight_since_change {template : Builder Float}
    {resources : List (String × Declaration Float)} {grouping : Option (Grouping String)}
    {host : Host Float} {rank : String → Nat} {m : Manager Float}
    (hcreate : Manager.create template resources grouping host rank = .ok m)
    (htracks : template.settings.tracksCalls = true) (es : List (ManagerEvent Float))
    (hhand : ∀ e ∈ es, ¬ e.ByHand) {name : String} {r : Resource Float}
    (hr : (m.run es).current.find? name = some r) :
    r.inFlight = some ((m.sinceChange name es []).foldl Flight.move 0) ∧
    ((∀ es', es' <+: es → Paired (m.traffic name es')) →
      (∀ es' e, es' ++ [e] <+: es → (m.run es').makes e = true →
        (m.traffic name es').count .out = (m.traffic name es').count .back) →
      r.inFlight = some ((m.traffic name es).count .out - (m.traffic name es).count .back)) ∧
    (∀ e, (m.run es).makes e = true → ∀ r', ((m.run es).step e).current.find? name = some r' →
      r'.inFlight = some 0) := by
  have htraced := Manager.traced_of_create hcreate
  have hcreated := Manager.created_of_create hcreate
  have hsettings := hcreated.settings
  have hnone := Builder.outstanding_of_build hcreated.built name
  have hcounts : m.template.settings.countsCalls = true :=
    hsettings ▸ (Bool.and_eq_true_iff.1 htracks).1
  have hrun := htraced.run es
  have hfound := hrun.inFlight_of_find? ((m.template_run es) ▸ hcounts) hr
  refine ⟨?_, fun hpaired hidle => ?_, fun e hmade r' hr' => ?_⟩
  · have hbegin : m.system.outstanding name = ([] : List Flight).foldl Flight.move 0 := hnone
    rw [hfound, Manager.outstanding_run htraced (hsettings ▸ htracks) hhand hbegin]
  · rw [hfound, Manager.outstanding_run_of_paired htraced (hsettings ▸ htracks) hnone hhand
      hpaired hidle]
  · have htemplate := ((m.run es).template_step e).trans (m.template_run es)
    have hchange : ¬ e.ByHand := by
      cases e with
      | call c => exact nomatch hmade
      | callOn id c => exact nomatch hmade
      | _ => exact id
    rw [(hrun.step e).inFlight_of_find? (htemplate ▸ hcounts) hr', Manager.outstanding_step hrun
      ((m.template_run es) ▸ hsettings ▸ htracks) hchange, if_pos hmade]

/-- A single resource whose calls are counted. -/
def Builder.lone : Builder Float :=
  { (Builder.default : Builder Float) with
    settings := { (Settings.default : Settings Float) with countsCalls := true }
    resources := [("a", .ofWeight 100)] }

/-- The resource is selected, and while the call is out another one is added. -/
def ManagerEvent.handover : List (ManagerEvent Float) :=
  [.call (.select none), .update [("b", .ofWeight 100)] []]

section Lone

variable {m : Manager Float}

theorem Builder.lone_selects
    (hcreate : Manager.create Builder.lone [] none { rng := ⟨0⟩ } = .ok m) :
    (m.system.selectWith none).1 = some "a" := by
  obtain ⟨previous, hcurrent⟩ := (Manager.traced_of_create hcreate).current
  obtain ⟨hstates, hcounts⟩ : m.system.selector.states = [.ofDeclaration "a" (.ofWeight 100) true] ∧
      m.system.selector.settings.countsCalls = true := by
    cases hcreate
    exact ⟨rfl, rfl⟩
  rcases System.selectWith_cases ⟨hcurrent.layout, hcurrent.settled⟩ none with
    ⟨place, r, -, hr, -, -, hpicked, -⟩ | ⟨-, hnone, -⟩
  · rw [hstates] at hr
    rw [hpicked, List.mem_singleton.1 (List.mem_of_getElem? hr)]
    rfl
  · refine absurd ?_ (hnone (.ofDeclaration "a" (.ofWeight 100) true) ?_)
    · rw [hcounts]
      exact ⟨List.not_mem_nil, by decide +kernel⟩
    · rw [hstates]
      exact List.mem_cons_self

theorem ManagerEvent.handover_prefix {es : List (ManagerEvent Float)}
    (hes : es <+: ManagerEvent.handover) :
    es = [] ∨ es = [.call (.select none)] ∨ es = ManagerEvent.handover := by
  rcases List.prefix_cons_iff.1 hes with rfl | ⟨rest, rfl, hrest⟩
  · exact .inl rfl
  · rcases List.prefix_cons_iff.1 hrest with rfl | ⟨rest', rfl, hrest'⟩
    · exact .inr (.inl rfl)
    · rw [List.prefix_nil.1 hrest']
      exact .inr (.inr rfl)

theorem ManagerEvent.handover_automatic : ∀ e ∈ ManagerEvent.handover, ¬ e.ByHand := by
  simp [handover, ByHand, Call.ByHand]

theorem Builder.lone_makes (hcreate : Manager.create Builder.lone [] none { rng := ⟨0⟩ } = .ok m) :
    (m.run [.call (.select none)]).update [("b", .ofWeight 100)] [] =
      .ok (m.run ManagerEvent.handover) := by
  have htraced := (Manager.traced_of_create hcreate).run [.call (.select none)]
  have hanswers : (m.run [.call (.select none)]).template.Answers := by
    rw [m.template_run]
    cases hcreate
    exact .of_shipped rfl
  obtain ⟨next, hnext⟩ : ∃ next,
      (m.run [.call (.select none)]).update [("b", .ofWeight 100)] [] = .ok next := by
    have hadd := Roster.nodup_ofList [("b", Declaration.ofWeight (ω := Float) 100)]
    refine (htraced.exists_apply_iff hanswers hadd).2 ?_
    intro name d hd
    rw [Roster.get?_ofList] at hd
    have hdeclared : (if name = "b" then some (.ofWeight 100) else none) = some d := hd
    split at hdeclared
    · obtain rfl := Option.some.inj hdeclared
      unfold Manager.judged
      split
      · rfl
      · rfl
    · exact nomatch hdeclared
  have hrun : m.run ManagerEvent.handover = next := congrArg (Manager.attempt _) hnext
  rw [hrun, hnext]

theorem Builder.lone_stays (hcreate : Manager.create Builder.lone [] none { rng := ⟨0⟩ } = .ok m)
    {es : List (ManagerEvent Float)} (hes : es <+: ManagerEvent.handover) :
    ∃ r, (m.run es).current.find? "a" = some r := by
  have hroster : m.membership.roster.get? "a" = some (.ofWeight 100) := by
    cases hcreate
    rfl
  suffices (m.run es).membership.roster.get? "a" = some (.ofWeight 100) by
    obtain ⟨r, hr, -⟩ := ((Manager.traced_of_create hcreate).run es).exists_stands this
    exact ⟨r, hr⟩
  rcases ManagerEvent.handover_prefix hes with rfl | rfl | rfl
  · exact hroster
  · exact hroster
  · rw [(Manager.changed_of_apply (lone_makes hcreate)).membership, Membership.get?_update]
    exact hroster

theorem Builder.lone_traffic
    (hcreate : Manager.create Builder.lone [] none { rng := ⟨0⟩ } = .ok m) :
    m.traffic "a" [.call (.select none)] = [.out] ∧
      m.traffic "a" ManagerEvent.handover = [.out] := by
  have hout : m.system.reported "a" (.call (.select none)) = [.out] :=
    if_pos (lone_selects hcreate)
  simp [ManagerEvent.handover, Manager.traffic, Manager.flights, hout]

theorem Builder.lone_paired (hcreate : Manager.create Builder.lone [] none { rng := ⟨0⟩ } = .ok m)
    {es : List (ManagerEvent Float)} (hes : es <+: ManagerEvent.handover) :
    Paired (m.traffic "a" es) := by
  obtain ⟨hselected, hboth⟩ := lone_traffic hcreate
  rcases ManagerEvent.handover_prefix hes with rfl | rfl | rfl
  · exact ⟨Nat.le_refl 0, Nat.zero_le _⟩
  · rw [hselected]
    exact ⟨by decide, by decide⟩
  · rw [hboth]
    exact ⟨by decide, by decide⟩

end Lone

/-- The call is counted while it is out, and the change leaves nothing of it. -/
theorem inFlight_since_change_lone : ∃ (m : Manager Float) (r r' : Resource Float),
    Manager.create Builder.lone [] none { rng := ⟨0⟩ } = .ok m ∧
    (m.run [.call (.select none)]).current.find? "a" = some r ∧ r.inFlight = some 1 ∧
    (m.run ManagerEvent.handover).current.find? "a" = some r' ∧ r'.inFlight = some 0 := by
  obtain ⟨m, hcreate⟩ : ∃ m, Manager.create Builder.lone [] none { rng := ⟨0⟩ } = .ok m := ⟨_, rfl⟩
  have hpart : [ManagerEvent.call (.select none)] <+: ManagerEvent.handover :=
    List.prefix_append _ [ManagerEvent.update [("b", .ofWeight 100)] []]
  obtain ⟨r, hr⟩ := Builder.lone_stays hcreate hpart
  obtain ⟨r', hr'⟩ := Builder.lone_stays hcreate (List.prefix_refl _)
  have hmade := congrArg Except.isOk (Builder.lone_makes hcreate)
  obtain ⟨-, hcount, hforgotten⟩ := inFlight_since_change hcreate rfl [.call (.select none)]
    (fun e he => ManagerEvent.handover_automatic e (hpart.subset he)) hr
  refine ⟨m, r, r', hcreate, hr, ?_, hr', hforgotten (.update _ _) hmade r' hr'⟩
  rw [hcount (fun es' hes' => Builder.lone_paired hcreate (hes'.trans hpart)) ?_,
    (Builder.lone_traffic hcreate).1]
  · rfl
  · intro es' e hes' hmade
    have hlast := hes'.subset (List.mem_append_right es' List.mem_cons_self)
    obtain rfl := List.mem_singleton.1 hlast
    exact nomatch hmade

/-- Every selection is reported at most once and the resource stays all the time, and still its
count is not the number of its selections that have not been reported. -/
theorem unreported_forgotten : ∃ (m : Manager Float) (es : List (ManagerEvent Float)),
    Manager.create Builder.lone [] none { rng := ⟨0⟩ } = .ok m ∧
    Builder.lone.settings.tracksCalls = true ∧ (∀ e ∈ es, ¬ e.ByHand) ∧
    (∀ es', es' <+: es → Paired (m.traffic "a" es') ∧
      ∃ r, (m.run es').current.find? "a" = some r) ∧
    ∃ r, (m.run es).current.find? "a" = some r ∧
      r.inFlight ≠ some ((m.traffic "a" es).count .out - (m.traffic "a" es).count .back) := by
  obtain ⟨m, hcreate⟩ : ∃ m, Manager.create Builder.lone [] none { rng := ⟨0⟩ } = .ok m := ⟨_, rfl⟩
  obtain ⟨r, hr⟩ := Builder.lone_stays hcreate (List.prefix_refl _)
  refine ⟨m, ManagerEvent.handover, hcreate, rfl, ManagerEvent.handover_automatic, fun es' hes' =>
    ⟨Builder.lone_paired hcreate hes', Builder.lone_stays hcreate hes'⟩, r, hr, ?_⟩
  have htraced := Manager.traced_of_create hcreate
  have hsettings := (Manager.created_of_create hcreate).settings
  have hforgotten : (m.run ManagerEvent.handover).system.outstanding "a" = 0 :=
    Manager.outstanding_of_apply (Builder.lone_makes hcreate) "a"
  have hcounts : (m.run ManagerEvent.handover).template.settings.countsCalls = true := by
    rw [m.template_run, hsettings]
    rfl
  rw [(htraced.run _).inFlight_of_find? hcounts hr, hforgotten, (Builder.lone_traffic hcreate).2]
  decide

end ResourceSelection
