import ResourceSelection.Proofs.Dealings
import ResourceSelection.Proofs.Lifecycle

/-!
# What a listener is told

Whoever listens can keep a copy of every weight: the changes of a resource begin at the weight that
it was registered with, each one begins where the one before it ended, and the last one ends at the
weight that the resource has now. No change is kept back, told twice, or told as it was proposed and
not as it was made.

The record of the host is longer after an event than before it, and what has come on top is what the
event told (`System.told`). `System.Tells` says of two systems that the changes told in between
account for all weights. It has an identity and it composes, so it is enough to show it of one
dealing; passes and ticks follow. Others who use the host may put into its record what they like, and
what they put there is not told by this selector.

That the snapshot is renewed before the listener is called shows where a listener crashes at once:
the system that it leaves is the one that it was called on.
-/

namespace ResourceSelection

variable {ω : Type} [Scalar ω]

/-- Each change begins at the weight where the one before it ended. -/
def Chain : ω → List (WeightChange ω) → ω → Prop
  | first, [], last => first = last
  | first, change :: rest, last => change.oldWeight = first ∧ Chain change.newWeight rest last

omit [Scalar ω] in
theorem Chain.append {a b c : ω} {before after : List (WeightChange ω)} (h : Chain a before b)
    (h' : Chain b after c) : Chain a (before ++ after) c := by
  induction before generalizing a with
  | nil =>
      have hab : a = b := h
      exact hab ▸ h'
  | cons change rest ih => exact ⟨h.1, ih h.2⟩

namespace System

/-- The changes that the listener is told of in the course of an event, the first one first. -/
def told (e : Event ω) (s : System ω) : List (WeightChange ω) :=
  match e with
  | .others _ => []
  | e =>
    ((s.step e).host.events.take ((s.step e).host.events.length - s.host.events.length)).reverse

/-- The changes of one resource in the course of a run, the first one first. -/
def history (name : String) : List (Event ω) → System ω → List (WeightChange ω)
  | [], _ => []
  | e :: es, s => (s.told e).filter (·.resource = name) ++ history name es (s.step e)

/-! ## Accounts -/

/-- The listener was told of the changes in between, and they account for all weights. -/
structure Tells (s t : System ω) (changes : List (WeightChange ω)) : Prop where
  frame : s.selector.Frame t.selector
  listener : t.selector.listener = s.selector.listener
  events : t.host.events = changes.reverse ++ s.host.events
  known : ∀ c ∈ changes, s.selector.place? c.resource ≠ none
  weights {name : String} {r : Resource ω} : s.selector.find? name = some r →
    ∃ r', t.selector.find? name = some r' ∧
      Chain r.current (changes.filter (·.resource = name)) r'.current

namespace Tells

variable {s t u : System ω} {before after : List (WeightChange ω)}

theorem refl (s : System ω) : s.Tells s [] where
  frame := .refl s.selector
  listener := rfl
  events := rfl
  known := nofun
  weights hr := ⟨_, hr, rfl⟩

theorem trans (h : s.Tells t before) (h' : t.Tells u after) : s.Tells u (before ++ after) where
  frame := h.frame.trans h'.frame
  listener := h'.listener.trans h.listener
  events := by rw [h'.events, h.events, List.reverse_append, List.append_assoc]
  known := by
    intro c hc
    rcases List.mem_append.1 hc with hbefore | hafter
    · exact h.known c hbefore
    · rw [← h.frame.place?]
      exact h'.known c hafter
  weights := by
    intro name r hr
    obtain ⟨r', hr', hchain⟩ := h.weights hr
    obtain ⟨r'', hr'', hchain'⟩ := h'.weights hr'
    refine ⟨r'', hr'', ?_⟩
    rw [List.filter_append]
    exact hchain.append hchain'

/-- Where no weight changes nothing is told. -/
theorem quiet (hframe : s.selector.Frame t.selector)
    (hlistener : t.selector.listener = s.selector.listener)
    (hevents : t.host.events = s.host.events)
    (hweights : ∀ name r, s.selector.find? name = some r →
      ∃ r', t.selector.find? name = some r' ∧ r.current = r'.current) : s.Tells t [] where
  frame := hframe
  listener := hlistener
  events := hevents
  known := nofun
  weights hr := hweights _ _ hr

end Tells

variable [LawfulScalar ω] {s : System ω} {name : String}

/-! ## Dealings -/

theorem tells_deal_of_find? (h : s.selector.Layout) {l : Listener ω}
    (hl : s.selector.listener = some l) {r : Resource ω} (hr : s.selector.find? name = some r)
    (d : Dealing ω) : ∃ changes, s.Tells (s.deal d name).2 changes := by
  have hname : r.name = name := h.name_of_find? hr
  have hchanges := s.changes_deal d name
  rw [d.enrols_of_find? hr] at hchanges
  have hevents := events_deal h hr hl d
  have hfind := find?_deal h hr d
  cases hsame : Scalar.same r.current (d.after r s).current with
  | true =>
      rw [if_pos hsame] at hevents
      refine ⟨[], .quiet hchanges.frame (s.listener_deal d name) hevents fun other q hq => ?_⟩
      by_cases heq : other = name
      · subst heq
        obtain rfl : r = q := Option.some.inj (hr.symm.trans hq)
        exact ⟨_, (hfind other).trans (if_pos rfl), LawfulScalar.same_iff.1 hsame⟩
      · exact ⟨q, ((hfind other).trans (if_neg heq)).trans hq, rfl⟩
  | false =>
      rw [hsame, if_neg Bool.false_ne_true] at hevents
      refine ⟨[d.change r (d.after r s).current], hchanges.frame, s.listener_deal d name, hevents,
        ?_, fun {other q} hq => ?_⟩
      · intro c hc
        obtain rfl := List.mem_singleton.1 hc
        show s.selector.place? r.name ≠ none
        rw [hname]
        intro hnone
        rw [h.find?_eq_none_iff.2 hnone] at hr
        exact nomatch hr
      · have htold : (d.change r (d.after r s).current).resource = name := hname
        by_cases heq : other = name
        · subst heq
          obtain rfl : r = q := Option.some.inj (hr.symm.trans hq)
          refine ⟨_, (hfind other).trans (if_pos rfl), ?_⟩
          rw [List.filter_cons_of_pos (by simpa using htold)]
          exact ⟨rfl, rfl⟩
        · refine ⟨q, ((hfind other).trans (if_neg heq)).trans hq, ?_⟩
          rw [List.filter_cons_of_neg (by simpa [htold] using Ne.symm heq)]
          rfl

theorem tells_deal (h : s.selector.Layout) {l : Listener ω} (hl : s.selector.listener = some l)
    (d : Dealing ω) (name : String) :
    ∃ changes, (s.enrolled d name).Tells (s.deal d name).2 changes := by
  cases hfind : (d.enrols name s.selector).find? name with
  | none =>
      obtain ⟨henrols, f, hdeal⟩ := deal_of_unknown h d hfind
      unfold enrolled
      rw [henrols, hdeal]
      refine ⟨[], .quiet (s.changes_count f).frame rfl rfl fun other r hr => ⟨r, hr, rfl⟩⟩
  | some r =>
      rw [← deal_enrolled]
      exact tells_deal_of_find? (h.enrols d name) (d.listener_enrols name s.selector ▸ hl) hfind d

/-! ## Check passes -/

omit [LawfulScalar ω] in
theorem tells_on (x : ManualExecutor Nat) (s : System ω) : s.Tells (s.on x) [] :=
  .quiet (.refl _) rfl rfl fun _ r hr => ⟨r, hr, rfl⟩

theorem tells_checkEach (probe : Probe ω) (order : List String) (h : s.selector.Layout)
    {l : Listener ω} (hl : s.selector.listener = some l) :
    ∃ changes, s.Tells (s.checkEach probe order).2 changes := by
  induction order generalizing s with
  | nil => exact ⟨[], .refl s⟩
  | cons name rest ih =>
      obtain ⟨first, hfirst⟩ := tells_deal h hl (.probe probe) name
      obtain ⟨later, hlater⟩ := ih (h.frame hfirst.frame) (hfirst.listener.trans hl)
      exact ⟨first ++ later, hfirst.trans hlater⟩

theorem tells_checkIn (order : List String) (h : s.selector.Layout) {l : Listener ω}
    (hl : s.selector.listener = some l) : ∃ changes, s.Tells (s.checkIn order).2 changes := by
  unfold checkIn
  split
  · exact ⟨[], .refl s⟩
  · next probe _ => exact tells_checkEach probe order h hl

theorem tells_tick (h : s.selector.Layout) {l : Listener ω} (hl : s.selector.listener = some l) :
    ∃ changes, s.Tells s.tick.2 changes := by
  -- whoever's task it is, its run tells of all that it does to this selector
  have hrun (id : Nat) (x : ManualExecutor Nat) (t : System ω)
      (ht : ∃ changes, s.Tells t changes) : ∃ changes, s.Tells (runCheck id (x, t)).2.2 changes := by
    obtain ⟨before, hbefore⟩ := ht
    unfold runCheck
    simp only
    split
    · have hon : s.Tells (t.on x) (before ++ []) := hbefore.trans (tells_on x t)
      obtain ⟨after, hafter⟩ := tells_checkIn (s := t.on x) t.selector.allResources
        (h.frame hon.frame) (hon.listener.trans hl)
      exact ⟨_, hon.trans hafter⟩
    · exact ⟨before, hbefore⟩
  obtain ⟨changes, hticked⟩ := ManualExecutor.tick_induct hrun s.host.executor s ⟨[], .refl s⟩
  exact ⟨changes ++ [], hticked.trans (tells_on _ _)⟩

/-! ## Events -/

theorem tells_selectWith (h : s.selector.Ready) (exclude : Option (List String)) :
    s.Tells (s.selectWith exclude).2 [] := by
  obtain ⟨rng, hhost⟩ := s.host_selectWith exclude
  refine .quiet (s.changes_selectWith exclude).frame
    (s.tends_selectWith exclude).sameTerms.listener (by rw [hhost]) fun name r hr => ?_
  have hfind := find?_selectWith h exclude name
  rw [hr, Option.map_some] at hfind
  refine ⟨_, hfind, ?_⟩
  split
  · rfl
  · rfl

omit [LawfulScalar ω] in
theorem tells_onState (h : s.selector.Layout) {f : Resource ω → Bool × Resource ω}
    (kept : ∀ r, Resource.Kept r (f r).2) (same : ∀ r, (f r).2.current = r.current)
    (name : String) : s.Tells (s.onState name f).2 [] := by
  have hlistener : (s.onState name f).2.selector.listener = s.selector.listener := by
    unfold onState
    split
    · rfl
    · rfl
  refine .quiet (changes_onState kept same s).frame hlistener
    (congrArg Host.events (host_onState f name s)) fun other r hr => ?_
  have hfind := find?_onState h f name other
  rw [hr, Option.map_some] at hfind
  refine ⟨_, hfind, ?_⟩
  split
  · exact (same r).symm
  · rfl

omit [LawfulScalar ω] in
theorem tells_close (s : System ω) : s.Tells s.close [] := by
  have hclosed : s.close.selector.listener = s.selector.listener ∧
      s.close.host.events = s.host.events := by
    unfold close cancelChecker
    split
    · exact ⟨rfl, rfl⟩
    · split
      · exact ⟨rfl, rfl⟩
      · exact ⟨rfl, rfl⟩
  refine .quiet s.changes_close.frame hclosed.1 hclosed.2 fun name r hr => ⟨r, ?_, rfl⟩
  rw [s.calm_close.find?, hr]

/-- Every event tells of what it does, once a reported name has been enrolled. -/
theorem tells_step (h : s.selector.Ready) {l : Listener ω} (hl : s.selector.listener = some l)
    {e : Event ω} (hown : ∀ host, e ≠ .others host) :
    ∃ changes, (System.mk (e.enrols s.selector) s.host).Tells (s.step e) changes := by
  cases e with
  | others host => exact absurd rfl (hown host)
  | tick => exact tells_tick h.layout hl
  | call c =>
      cases c with
      | report result name => exact tells_deal h.layout hl (.report result) name
      | down name => exact tells_deal h.layout hl .down name
      | check order => exact tells_checkIn order h.layout hl
      | select exclude => exact ⟨[], tells_selectWith h exclude⟩
      | acquire name =>
          exact ⟨[], tells_onState h.layout Resource.kept_acquire (fun _ => rfl) name⟩
      | release name =>
          exact ⟨[], tells_onState h.layout Resource.kept_release (fun _ => rfl) name⟩
      | close => exact ⟨[], s.tells_close⟩

omit [LawfulScalar ω] in
theorem told_eq {e : Event ω} (hown : ∀ host, e ≠ .others host)
    {changes : List (WeightChange ω)}
    (h : (System.mk (e.enrols s.selector) s.host).Tells (s.step e) changes) :
    s.told e = changes := by
  have hevents : (s.step e).host.events = changes.reverse ++ s.host.events := h.events
  have htaken : ((s.step e).host.events.take
      ((s.step e).host.events.length - s.host.events.length)).reverse = changes := by
    rw [hevents, List.length_append, Nat.add_sub_cancel, List.take_left, List.reverse_reverse]
  unfold told
  split
  · next host => exact absurd rfl (hown host)
  · exact htaken

end System

/-! ## Runs -/

namespace Selector

/-- The resource under a name, or else the one that a report would register. -/
def entrant? (name : String) (s : Selector ω) : Option (Resource ω) :=
  (s.find? name).or (s.settings.autoAddWeight.map fun weight => s.newcomer name weight)

theorem entrant?_of_find? {s : Selector ω} {name : String} {r : Resource ω}
    (hr : s.find? name = some r) : s.entrant? name = some r := by
  unfold entrant?
  rw [hr]
  rfl

/-- Selectors with the same settings to which a name is unknown would register it alike. -/
theorem entrant?_congr {s t : Selector ω} {name : String} (hs : s.find? name = none)
    (ht : t.find? name = none) (hsettings : t.settings = s.settings) :
    t.entrant? name = s.entrant? name := by
  unfold entrant? newcomer
  rw [hs, ht, hsettings]

theorem Layout.enrolled {s : Selector ω} (h : s.Layout) (e : Event ω) : (e.enrols s).Layout := by
  rcases e.enrols_cases s with heq | ⟨name, weight, hnew, -, heq⟩
  · rw [heq]
    exact h
  · rw [heq]
    exact h.register weight hnew

/-- Whatever an event enrols was going to be. -/
theorem entrant?_enrols {s : Selector ω} (h : s.Layout) (e : Event ω) (name : String) :
    (e.enrols s).entrant? name = s.entrant? name := by
  rcases e.enrols_cases s with heq | ⟨other, weight, hnew, hauto, heq⟩
  · rw [heq]
  · rw [heq]
    have hfind := find?_register h weight hnew name
    by_cases hname : name = other
    · subst hname
      rw [if_pos rfl] at hfind
      rw [entrant?_of_find? hfind]
      unfold entrant?
      rw [h.find?_eq_none_iff.2 hnew, hauto]
      rfl
    · rw [if_neg hname] at hfind
      unfold entrant?
      rw [hfind]
      rfl

end Selector

namespace System

variable [LawfulScalar ω] {s : System ω}

theorem listener_step (h : s.selector.Ready) {l : Listener ω}
    (hl : s.selector.listener = some l) (e : Event ω) :
    (s.step e).selector.listener = some l := by
  by_cases hown : ∀ host, e ≠ .others host
  · obtain ⟨changes, htells⟩ := tells_step h hl hown
    refine htells.listener.trans (Eq.trans ?_ hl)
    show (e.enrols s.selector).listener = _
    rcases e.enrols_cases s.selector with heq | ⟨name, weight, -, -, heq⟩
    · rw [heq]
    · rw [heq]
      rfl
  · obtain ⟨host, rfl⟩ := not_forall_not.1 hown
    exact hl

theorem listener_run {b : Builder ω} (h : b.Reaches s) {l : Listener ω}
    (hl : s.selector.listener = some l) (es : List (Event ω)) :
    (s.run es).selector.listener = some l := by
  induction es generalizing s with
  | nil => exact hl
  | cons e rest ih => exact ih (h.step e) (listener_step ⟨h.layout, h.settled⟩ hl e)

/-- Nothing is told of a resource that is unknown even afterwards. -/
theorem told_of_unknown (h : s.selector.Ready) {l : Listener ω}
    (hl : s.selector.listener = some l) (e : Event ω) {name : String}
    (hnone : (s.step e).selector.place? name = none) :
    (s.told e).filter (·.resource = name) = [] := by
  by_cases hown : ∀ host, e ≠ .others host
  · obtain ⟨changes, htells⟩ := tells_step h hl hown
    rw [told_eq hown htells, List.filter_eq_nil_iff]
    intro c hc hname
    refine htells.known c hc ?_
    rw [← htells.frame.place?, of_decide_eq_true hname]
    exact hnone
  · obtain ⟨host, rfl⟩ := not_forall_not.1 hown
    rfl

/-- What an event tells of a resource leads from the weight before it to the weight after it, the
first weight being the one at which the resource is registered. -/
theorem chain_told (h : s.selector.Ready) {l : Listener ω} (hl : s.selector.listener = some l)
    (e : Event ω) {name : String} {r' : Resource ω}
    (hr' : (s.step e).selector.entrant? name = some r') :
    ∃ r, s.selector.entrant? name = some r ∧
      Chain r.current ((s.told e).filter (·.resource = name)) r'.current := by
  by_cases hown : ∀ host, e ≠ .others host
  · obtain ⟨changes, htells⟩ := tells_step h hl hown
    have henrolled := h.layout.enrolled e
    rw [← Selector.entrant?_enrols h.layout e]
    cases hfind : (e.enrols s.selector).find? name with
    | some r =>
        obtain ⟨q, hq, hchain⟩ := htells.weights hfind
        obtain rfl := Option.some.inj ((Selector.entrant?_of_find? hq).symm.trans hr')
        rw [told_eq hown htells]
        exact ⟨r, Selector.entrant?_of_find? hfind, hchain⟩
    | none =>
        have hunknown : (s.step e).selector.place? name = none :=
          (htells.frame.place? name).trans (henrolled.find?_eq_none_iff.1 hfind)
        have hnone : (s.step e).selector.find? name = none :=
          (henrolled.frame htells.frame).find?_eq_none_iff.2 hunknown
        rw [told_of_unknown h hl e hunknown,
          ← Selector.entrant?_congr hfind hnone htells.frame.settings]
        exact ⟨r', hr', rfl⟩
  · obtain ⟨host, rfl⟩ := not_forall_not.1 hown
    exact ⟨r', hr', rfl⟩

/-- So do the changes of a whole run. -/
theorem chain_history {b : Builder ω} (h : b.Reaches s) {l : Listener ω}
    (hl : s.selector.listener = some l) (es : List (Event ω)) {name : String} {r' : Resource ω}
    (hr' : (s.run es).selector.entrant? name = some r') :
    ∃ r, s.selector.entrant? name = some r ∧ Chain r.current (s.history name es) r'.current := by
  induction es generalizing s with
  | nil => exact ⟨r', hr', rfl⟩
  | cons e rest ih =>
      have hready : s.selector.Ready := ⟨h.layout, h.settled⟩
      obtain ⟨q, hq, hlater⟩ := ih (h.step e) (listener_step hready hl e) hr'
      obtain ⟨r, hr, hfirst⟩ := chain_told hready hl e hq
      exact ⟨r, hr, hfirst.append hlater⟩

theorem history_of_unknown {b : Builder ω} (h : b.Reaches s) {l : Listener ω}
    (hl : s.selector.listener = some l) (es : List (Event ω)) {name : String}
    (hnone : (s.run es).selector.find? name = none) : s.history name es = [] := by
  induction es generalizing s with
  | nil => rfl
  | cons e rest ih =>
      have hready : s.selector.Ready := ⟨h.layout, h.settled⟩
      have hunknown : (s.step e).selector.place? name = none := by
        by_contra hknown
        have hsome := (known_run rest (s.step e) name).2 (.inl (Option.isSome_iff_ne_none.2 hknown))
        rw [((h.step e).run rest).layout.find?_eq_none_iff.1 hnone] at hsome
        exact nomatch hsome
      show (s.told e).filter (·.resource = name) ++ (s.step e).history name rest = []
      rw [told_of_unknown hready hl e hunknown, ih (h.step e) (listener_step hready hl e) hnone]
      rfl

end System

theorem Builder.entrant?_of_build {b : Builder ω} {id : Nat} {host : Host ω} {s : System ω}
    [LawfulScalar ω] (h : b.build id host = .ok s) (name : String) :
    s.selector.entrant? name = (b.declarationOf? name).map fun d =>
      Resource.ofDeclaration name d b.settings.countsCalls := by
  have hsettings : s.selector.settings = b.settings := (Reaches.built h).bounded.settings
  unfold Selector.entrant? declarationOf? Selector.newcomer
  rw [find?_of_build h, hsettings]
  cases b.resources.lookup name with
  | some d => rfl
  | none =>
      cases b.settings.autoAddWeight with
      | some weight => rfl
      | none => rfl

/-! ## At the time of the call -/

/-- A listener that does not come back. -/
def Listener.crashing : Listener ω := ⟨fun _ _ => true⟩

namespace System

/-- The system with another listener. -/
def heardBy (l : Listener ω) (s : System ω) : System ω :=
  { s with selector := { s.selector with listener := some l } }

/-- The listener is called once, with the given change. Had it crashed there, the system would have
been left as it is at that time: all snapshots are fresh, and that of the group of the resource has
the weight that the listener is told of. -/
structure Calls (d : Dealing ω) (name : String) (c : WeightChange ω) (s : System ω) : Prop where
  told : (s.deal d name).2.host.events = c :: s.host.events
  stopped : ((s.heardBy .crashing).deal d name).1 = .crashed
  same : ((s.heardBy .crashing).deal d name).2.host.events = c :: s.host.events
  fresh : ∀ g ∈ ((s.heardBy .crashing).deal d name).2.selector.groups, g.Fresh
  shown : ∃ g ∈ ((s.heardBy .crashing).deal d name).2.selector.groups,
    g.snapshot.weights = g.members.map (·.current) ∧
      ∃ m ∈ g.members, m.name = name ∧ m.current = c.newWeight

variable [LawfulScalar ω] {s : System ω}

omit [LawfulScalar ω] in
/-- A resource is found in a group whose snapshot has its weight. -/
theorem exists_group {s : Selector ω} (h : s.Ready) {name : String} {r : Resource ω}
    (hr : s.find? name = some r) : ∃ g ∈ s.groups,
      g.snapshot.weights = g.members.map (·.current) ∧ r ∈ g.members := by
  obtain ⟨place, hplace, -⟩ := h.layout.find?_eq_some.1 hr
  obtain ⟨p, hp, hmem⟩ := h.layout.exists_pool (List.getElem?_eq_some_iff.1 hplace).1
  refine ⟨_, List.mem_map_of_mem hp, ?_, List.mem_filterMap.2 ⟨place, hmem, hplace⟩⟩
  rw [(h.settled p hp).fresh]
  rfl

/-- A listener that crashes whenever it is called crashes on a change of the weight. -/
theorem stopped_deal (h : s.selector.Layout) (hl : s.selector.listener = some .crashing)
    {name : String} {r : Resource ω} (hr : s.selector.find? name = some r) (d : Dealing ω)
    (hchanged : Scalar.same r.current (d.after r s).current = false) :
    (s.deal d name).1 = .crashed := by
  obtain ⟨place, hentry⟩ := h.find?_eq_some_iff_entry?.1 hr
  have hself : Scalar.same r.current r.current = true := LawfulScalar.same_iff.2 rfl
  unfold Dealing.after at hchanged
  split at hchanged
  · next hconcerns =>
      rw [deal_eq h hentry hconcerns]
      cases hanswer : (d.answer r s).1 with
      | crashed => rfl
      | done weight =>
          rw [hanswer] at hchanged
          have hlistener := (listener_judged d r s).trans hl
          exact congrArg Prod.fst (applyChange_of_change (s := (d.judged r s).modifyAt place _)
            hlistener hchanged d.cause)
  · rw [hself] at hchanged
    exact nomatch hchanged

theorem calls_deal (h : s.selector.Ready) {l : Listener ω} (hl : s.selector.listener = some l)
    {name : String} {r : Resource ω} (hr : s.selector.find? name = some r) (d : Dealing ω)
    (hchanged : Scalar.same r.current (d.after r s).current = false) :
    s.Calls d name (d.change r (d.after r s).current) := by
  -- what a dealing makes of a resource does not depend on who listens
  have hheard : (s.heardBy .crashing).selector.Layout :=
    h.layout.frame { Selector.Frame.refl s.selector with }
  have hr' : (s.heardBy .crashing).selector.find? name = some r := hr
  have hchanges := (s.heardBy .crashing).changes_deal d name
  rw [d.enrols_of_find? hr'] at hchanges
  have hready : ((s.heardBy .crashing).deal d name).2.selector.Ready :=
    ⟨hheard.frame hchanges.frame, hchanges.settled hheard h.settled⟩
  have htold := events_deal h.layout hr hl d
  have htold' := events_deal hheard hr' rfl d
  have hfound := find?_deal hheard hr' d name
  rw [if_pos rfl] at hfound
  obtain ⟨g, hg, hweights, hmem⟩ := exists_group hready hfound
  refine ⟨?_, stopped_deal hheard rfl hr' d hchanged, ?_, ?_, g, hg, hweights, _, hmem, ?_, rfl⟩
  · rw [htold, hchanged, if_neg Bool.false_ne_true]
  · refine htold'.trans (if_neg ?_)
    exact (Bool.eq_false_iff.1 hchanged)
  · intro g hg
    obtain ⟨p, hp, rfl⟩ := List.mem_map.1 hg
    exact (hready.settled p hp).fresh
  · exact (d.kept_after r _).name.trans (h.layout.name_of_find? hr)

omit [LawfulScalar ω] in
theorem ready_enrolled (h : s.selector.Ready) (d : Dealing ω) (name : String) :
    (s.enrolled d name).selector.Ready := by
  refine ⟨h.layout.enrols d name, ?_⟩
  show (d.enrols name s.selector).Settled
  rcases d.enrols_cases name s.selector with heq | ⟨weight, -, -, heq⟩
  · rw [heq]
    exact h.settled
  · rw [heq]
    exact h.settled.register h.layout name weight

omit [LawfulScalar ω] in
theorem heardBy_enrols (l : Listener ω) (d : Dealing ω) (name : String) (s : System ω) :
    (s.enrolled d name).heardBy l = (s.heardBy l).enrolled d name := by
  cases d with
  | down => rfl
  | probe p => rfl
  | report result =>
      have hplace : (s.heardBy l).selector.place? name = s.selector.place? name := rfl
      have hsettings : (s.heardBy l).selector.settings = s.selector.settings := rfl
      show (System.mk (s.selector.enrol name) s.host).heardBy l =
        { s.heardBy l with selector := (s.heardBy l).selector.enrol name }
      unfold Selector.enrol
      rw [hplace, hsettings]
      split
      · rfl
      · rfl

omit [LawfulScalar ω] in
theorem Calls.of_enrolled {d : Dealing ω} {name : String} {c : WeightChange ω}
    (h : (s.enrolled d name).Calls d name c) : s.Calls d name c := by
  obtain ⟨htold, hstopped, hsame, hfresh, hshown⟩ := h
  rw [heardBy_enrols, deal_enrolled] at hstopped hsame hfresh hshown
  rw [deal_enrolled] at htold
  exact ⟨htold, hstopped, hsame, hfresh, hshown⟩

end System

/-- The listener of a selector sees the exact history of its resources. In every run the changes
that it is told of a resource lead from the weight at which that resource was registered to the
weight that it has, and of a name that is not registered it is told nothing. Its record only ever
grows. What is done to one resource calls it once if the weight becomes another one, when the
snapshots are up to date, and not at all otherwise. -/
theorem listener_sees_history {b : Builder Float} {id : Nat} {host : Host Float} {s : System Float}
    (h : b.build id host = .ok s) (hlistens : b.listener.isSome = true) (es : List (Event Float)) :
    (∀ name r, (s.run es).selector.find? name = some r → ∃ d, b.declarationOf? name = some d ∧
      Chain (Resource.ofDeclaration name d b.settings.countsCalls).current (s.history name es)
        r.current) ∧
    (∀ name, (s.run es).selector.find? name = none → s.history name es = []) ∧
    (∀ e, (∀ host, e ≠ .others host) → ((s.run es).step e).host.events =
      ((s.run es).told e).reverse ++ (s.run es).host.events) ∧
    ∀ d name, ((d.enrols name (s.run es).selector).find? name = none →
        ((s.run es).deal d name).2.host.events = (s.run es).host.events) ∧
      ∀ r, (d.enrols name (s.run es).selector).find? name = some r →
        ∃ r', ((s.run es).deal d name).2.selector.find? name = some r' ∧
          (r'.current = r.current →
            ((s.run es).deal d name).2.host.events = (s.run es).host.events) ∧
          (r'.current ≠ r.current → (s.run es).Calls d name
            ⟨name, r.current, r'.current, r.maxWeight, r.minWeight, r.priority, d.cause⟩) := by
  have hreaches : b.Reaches s := .built h
  obtain ⟨l, hlistener⟩ := Option.isSome_iff_exists.1 hlistens
  have hl : s.selector.listener = some l := (Builder.terms_of_build h).listener.trans hlistener
  have hrun := hreaches.run es
  have hready : (s.run es).selector.Ready := ⟨hrun.layout, hrun.settled⟩
  have hl' : (s.run es).selector.listener = some l := System.listener_run hreaches hl es
  refine ⟨fun name r hr => ?_, fun name => System.history_of_unknown hreaches hl es,
    fun e hown => ?_, fun d name => ⟨fun hnone => ?_, fun r hr => ?_⟩⟩
  · obtain ⟨r', hr', hchain⟩ := System.chain_history hreaches hl es (Selector.entrant?_of_find? hr)
    rw [Builder.entrant?_of_build h, Option.map_eq_some_iff] at hr'
    obtain ⟨d, hd, rfl⟩ := hr'
    exact ⟨d, hd, hchain⟩
  · obtain ⟨changes, htells⟩ := System.tells_step hready hl' hown
    rw [System.told_eq hown htells]
    exact htells.events
  · obtain ⟨-, f, hdeal⟩ := System.deal_of_unknown hready.layout d hnone
    rw [hdeal]
    rfl
  · have henrolled := System.ready_enrolled hready d name
    have hheard := (d.listener_enrols name (s.run es).selector).trans hl'
    have hfound := System.find?_deal (s := (s.run es).enrolled d name) henrolled.layout hr d name
    have htold := System.events_deal (s := (s.run es).enrolled d name) henrolled.layout hr hheard d
    have hcalls := System.calls_deal (s := (s.run es).enrolled d name) henrolled hheard hr d
    rw [System.deal_enrolled, if_pos rfl] at hfound
    rw [System.deal_enrolled] at htold
    refine ⟨_, hfound, fun heq => ?_, fun hne => ?_⟩
    · exact htold.trans (if_pos (LawfulScalar.same_iff.2 heq.symm))
    · have hname : r.name = name := henrolled.layout.name_of_find? hr
      have hchanged := Bool.eq_false_iff.2 fun hsame => hne (LawfulScalar.same_iff.1 hsame).symm
      subst hname
      exact (hcalls hchanged).of_enrolled

/-- The pair of resources with a listener that comes back from every call. -/
def Builder.heard : Builder Float :=
  { Builder.pair with listener := some ⟨fun _ _ => false⟩ }

/-- A resource that has been forced down, and forced down again. -/
theorem listener_sees_history_pair :
    ∃ s r r', Builder.heard.build 0 { rng := ⟨0⟩ } = .ok s ∧
      s.selector.find? "a" = some r ∧ r.current = 100 ∧ r'.current = 0 ∧
      (s.run [.call (.down "a")]).selector.find? "a" = some r' ∧
      Chain 100 (s.history "a" [.call (.down "a")]) 0 ∧
      s.Calls .down "a" ⟨"a", 100, 0, 100, 0, 0, .down⟩ ∧
      ((s.run [.call (.down "a")]).call (.down "a")).host.events =
        (s.run [.call (.down "a")]).host.events := by
  obtain ⟨s, hbuild⟩ := Builder.exists_build (b := Builder.heard) rfl (.of_none rfl) 0 { rng := ⟨0⟩ }
  have hlayout := (Builder.Reaches.built hbuild).layout
  have hr : s.selector.find? "a" = some (.ofDeclaration "a" (.ofWeight 100) true) :=
    Builder.find?_of_build hbuild "a"
  have hfirst : (Resource.ofDeclaration "a" (.ofWeight (100 : Float)) true).current = 100 := by
    decide +kernel
  have hdown := System.find?_down hlayout hr "a"
  rw [if_pos rfl] at hdown
  generalize hr' : Resource.finished _ _ = r' at hdown
  have hlast : r'.current = 0 := by
    rw [← hr', Resource.current_finished]
    rfl
  obtain ⟨hchain, -, -, hagain⟩ := listener_sees_history hbuild rfl [.call (.down "a")]
  obtain ⟨-, -, -, hcalls⟩ := listener_sees_history hbuild rfl []
  refine ⟨s, _, r', hbuild, hr, hfirst, hlast, hdown, ?_, ?_, ?_⟩
  · obtain ⟨d, hd, hchain⟩ := hchain "a" r' hdown
    obtain rfl : Declaration.ofWeight 100 = d := Option.some.inj hd
    rw [hlast] at hchain
    exact hfirst ▸ hchain
  · obtain ⟨q, hq, -, hcall⟩ := (hcalls .down "a").2 _ hr
    obtain rfl : r' = q := Option.some.inj (hdown.symm.trans hq)
    rw [hlast, hfirst] at hcall
    exact hcall (by decide +kernel)
  · have hmin : r'.minWeight = 0 := by
      rw [← hr']
      cases s.selector.settings.tracksCalls with
      | false => rfl
      | true => rfl
    have hlayout' := ((Builder.Reaches.built hbuild).run [.call (.down "a")]).layout
    have hdown' := System.find?_down hlayout' hdown "a"
    obtain ⟨q, hq, hquiet, -⟩ := (hagain .down "a").2 r' hdown
    rw [if_pos rfl] at hdown'
    obtain rfl := Option.some.inj (hdown'.symm.trans hq)
    refine hquiet ?_
    rw [Resource.current_finished, hlast]
    exact hmin

end ResourceSelection
