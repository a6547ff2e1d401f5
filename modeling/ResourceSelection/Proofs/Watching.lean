import ResourceSelection.Proofs.Commuting
import ResourceSelection.Proofs.Records

/-!
# Watching one resource

What a policy does to a resource depends on its weight and bounds, on the streak that is kept of it
and on nothing else that other resources could have a part in. So a property of these three, of the
resource as it is registered, the streak and the record, can be shown of a whole run by looking at
single dealings with that resource (`Policy.Upholds`). Everything else that happens, to other
resources or without a dealing, leaves the three as they are (`Upheld.keeps`).

Before a name is registered there is no resource to speak of. A property says what it says then as
well, and registration must lead from there to the rest.

Properties that count the reports need one more step: from the property of one count a report leads
to that of the next (`Policy.Leads`, `Upheld.run_counting`).
-/

namespace ResourceSelection

variable {ω : Type} [Scalar ω]

/-! ## Under a policy -/

namespace Policy

/-- A dealing leads from one property of the resource, its streak and its record to another. -/
structure Leads (p : Policy ω) (d : Dealing ω)
    (I I' : Option (Resource ω) → Nat → List (Dealt ω) → Prop) : Prop where
  unknown {n : Nat} {past : List (Dealt ω)} : I none n past → I' none n past
  spared {s : System ω} {r : Resource ω} {n : Nat} {past : List (Dealt ω)} :
    d.concerns r s = false → I (some r) n past → I' (some r) n past
  deal {s : System ω} {r : Resource ω} {past : List (Dealt ω)} : s.selector.policy = p → r.Within →
    0 ≤ r.minWeight → d.concerns r s = true →
    I (some r) (s.host.memory.streaks.count r.name) past →
      I' (some (d.after r s)) ((d.answer r s).2.streaks.count r.name)
        (⟨d.result? r.name s.host, r.current, (d.after r s).current⟩ :: past)

/-- Whatever is done under the policy, the property goes on to hold. -/
structure Upholds (p : Policy ω) (I : Option (Resource ω) → Nat → List (Dealt ω) → Prop) :
    Prop where
  enrol {r : Resource ω} {n : Nat} {past : List (Dealt ω)} : r.Within → 0 ≤ r.minWeight →
    I none n past → I (some r) n past
  touch {r r' : Resource ω} {n : Nat} {past : List (Dealt ω)} : r.Kept r' →
    r'.current = r.current → I (some r) n past → I (some r') n past
  deal (d : Dealing ω) {s : System ω} {r : Resource ω} {past : List (Dealt ω)} :
    s.selector.policy = p → r.Within → 0 ≤ r.minWeight → d.concerns r s = true →
    I (some r) (s.host.memory.streaks.count r.name) past →
      I (some (d.after r s)) ((d.answer r s).2.streaks.count r.name)
        (⟨d.result? r.name s.host, r.current, (d.after r s).current⟩ :: past)

theorem Upholds.leads {p : Policy ω} {I : Option (Resource ω) → Nat → List (Dealt ω) → Prop}
    (hI : p.Upholds I) (d : Dealing ω) : p.Leads d I I where
  unknown h := h
  spared _ h := h
  deal := hI.deal d

end Policy

/-! ## Beside a run -/

/-- The property holds of a name, and the system is in a state to keep it. -/
structure Upheld (b : Builder ω) (p : Policy ω)
    (I : Option (Resource ω) → Nat → List (Dealt ω) → Prop) (name : String) (s : System ω)
    (past : List (Dealt ω)) : Prop where
  ready : s.selector.Ready
  bounded : s.selector.Bounded b
  policy : s.selector.policy = p
  holds : I (s.selector.find? name) (s.host.memory.streaks.count name) past

/-- Whenever others leave the host in another state, the streak of the resource is as it was. -/
def System.Undisturbed (name : String) : List (Event ω) → System ω → Prop
  | [], _ => True
  | e :: es, s =>
    (∀ host, e = .others host →
      host.memory.streaks.count name = s.host.memory.streaks.count name) ∧
    Undisturbed name es (s.step e)

/-- Whether a call of the given result is reported of a name. -/
def Event.isReport (result : CallResult) (name : String) : Event ω → Bool
  | .call (.report result' name') => result' = result && name' = name
  | _ => false

/-- A dealing with one resource is none with another. -/
theorem System.count_deal_of_ne {s : System ω} (h : s.selector.Layout) (d : Dealing ω)
    {name other : String} (hne : other ≠ name) :
    (s.deal d other).2.host.memory.streaks.count name = s.host.memory.streaks.count name := by
  cases hfind : (s.enrolled d other).selector.find? other with
  | none =>
      obtain ⟨-, f, hdeal⟩ := System.deal_of_unknown h d hfind
      rw [hdeal]
      rfl
  | some r =>
      have henrolled : (s.enrolled d other).selector.Layout := h.enrols d other
      have hname : r.name = other := henrolled.name_of_find? hfind
      have hmemory := System.memory_deal henrolled hfind d
      rw [System.deal_enrolled] at hmemory
      rw [hmemory]
      split
      · exact Dealing.count_answer_of_ne (hname ▸ hne.symm)
      · rfl

namespace Upheld

variable [LawfulScalar ω] {b : Builder ω} {p : Policy ω}
  {I I' : Option (Resource ω) → Nat → List (Dealt ω) → Prop} {name : String} {s t : System ω}
  {past : List (Dealt ω)}

omit [LawfulScalar ω] in
/-- Weights and streaks that stay are all that matters. -/
theorem frame (h : Upheld b p I name s past) (hI : p.Upholds I)
    (hchanges : s.selector.Changes t.selector)
    (hcount : t.host.memory.streaks.count name = s.host.memory.streaks.count name)
    {f : Resource ω → Resource ω}
    (hfind : t.selector.find? name = (s.selector.find? name).map f)
    (kept : ∀ r, Resource.Kept r (f r)) (same : ∀ r, (f r).current = r.current) :
    Upheld b p I name t past where
  ready := ⟨h.ready.layout.frame hchanges.frame, hchanges.settled h.ready.layout h.ready.settled⟩
  bounded := h.bounded.frame hchanges.frame
  policy := hchanges.frame.policy.trans h.policy
  holds := by
    have hholds := h.holds
    rw [hfind, hcount]
    cases hr : s.selector.find? name with
    | none =>
        rw [hr] at hholds
        exact hholds
    | some r =>
        rw [hr] at hholds
        exact hI.touch (kept r) (same r) hholds

/-- What a dealing finds when it is about to begin. -/
theorem enrolled (h : Upheld b p I name s past) (hI : p.Upholds I) (hvalid : b.validate = .ok ())
    (d : Dealing ω) (other : String) : Upheld b p I name (s.enrolled d other) past := by
  have hready := System.ready_enrolled h.ready d other
  rcases d.enrols_cases other s.selector with heq | ⟨weight, hnew, hauto, heq⟩
  · unfold System.enrolled
    rw [heq]
    exact h
  · have hbounded := h.bounded.register hvalid hnew hauto
    have hfind := Selector.find?_register h.ready.layout weight hnew name
    unfold System.enrolled at hready ⊢
    rw [heq] at hready ⊢
    refine ⟨hready, hbounded, h.policy, ?_⟩
    have hholds := h.holds
    show I ((s.selector.register other weight).find? name) _ past
    rw [hfind]
    split
    · next hname =>
        subst hname
        rw [h.ready.layout.find?_eq_none_iff.2 hnew] at hholds
        rw [if_pos rfl] at hfind
        obtain ⟨hmem, -⟩ := hready.layout.mem_of_find? hfind
        exact hI.enrol (hbounded.within hmem) (hbounded.nonneg hmem) hholds
    · exact hholds

theorem deal (h : Upheld b p I name s past) (hI : p.Upholds I) (hvalid : b.validate = .ok ())
    {d : Dealing ω} (hd : p.Leads d I I') :
    Upheld b p I' name (s.deal d name).2 (s.dealt d name past) := by
  have henrolled := h.enrolled hI hvalid d name
  cases hfind : (s.enrolled d name).selector.find? name with
  | none =>
      obtain ⟨henrols, f, hdeal⟩ := System.deal_of_unknown h.ready.layout d hfind
      rw [System.dealt_of_unknown hfind, hdeal]
      have hchanges := s.changes_count f
      have hholds := henrolled.holds
      rw [hfind] at hholds
      refine ⟨⟨h.ready.layout.frame hchanges.frame,
        hchanges.settled h.ready.layout h.ready.settled⟩, h.bounded.frame hchanges.frame, h.policy, ?_⟩
      rw [show (s.count f).selector.find? name = none from by
        rw [← hfind, System.enrolled, henrols]
        rfl]
      exact hd.unknown hholds
  | some r =>
      have hname : r.name = name := henrolled.ready.layout.name_of_find? hfind
      have hholds := henrolled.holds
      rw [hfind] at hholds
      rw [← System.deal_enrolled]
      cases hconcerns : d.concerns r (s.enrolled d name) with
      | false =>
          obtain ⟨place, hentry⟩ := henrolled.ready.layout.find?_eq_some_iff_entry?.1 hfind
          have hselector := System.selector_asked d r (s.enrolled d name)
          have hmemory := (System.calm_asked d r (s.enrolled d name)).memory
          rw [System.dealt_of_spared hfind hconcerns, System.deal_of_spared hentry hconcerns]
          refine ⟨hselector ▸ henrolled.ready, hselector ▸ henrolled.bounded,
            hselector ▸ henrolled.policy, ?_⟩
          rw [hselector, hmemory, hfind]
          exact hd.spared hconcerns hholds
      | true =>
          obtain ⟨hmem, -⟩ := henrolled.ready.layout.mem_of_find? hfind
          have hframe := (System.changes_deal_of_find? hfind d).frame
          have hfound := System.find?_deal henrolled.ready.layout hfind d name
          have hmemory := System.memory_deal henrolled.ready.layout hfind d
          rw [if_pos rfl] at hfound
          rw [if_pos hconcerns] at hmemory
          rw [System.dealt_eq h.ready.layout hfind hconcerns]
          refine ⟨System.ready_deal henrolled.ready hfind d, henrolled.bounded.frame hframe,
            hframe.policy.trans henrolled.policy, ?_⟩
          rw [hfound, hmemory]
          subst hname
          exact hd.deal henrolled.policy (henrolled.bounded.within hmem)
            (henrolled.bounded.nonneg hmem) hconcerns hholds

theorem other (h : Upheld b p I name s past) (hI : p.Upholds I) (hvalid : b.validate = .ok ())
    (d : Dealing ω) {other : String} (hne : other ≠ name) :
    Upheld b p I name (s.deal d other).2 past := by
  have henrolled := h.enrolled hI hvalid d other
  refine henrolled.frame hI (s.changes_deal d other) (System.count_deal_of_ne h.ready.layout d hne)
    (f := id) ?_ Resource.Kept.refl fun _ => rfl
  rw [Option.map_id_fun, id]
  cases hfind : (s.enrolled d other).selector.find? other with
  | none =>
      obtain ⟨henrols, f, hdeal⟩ := System.deal_of_unknown h.ready.layout d hfind
      rw [hdeal, System.enrolled, henrols]
      rfl
  | some r =>
      have hfound := System.find?_deal henrolled.ready.layout hfind d name
      rw [System.deal_enrolled, if_neg hne.symm] at hfound
      exact hfound

/-- What is true of single dealings with the resource is true of all that a selector does. -/
theorem keeps (hI : p.Upholds I) (hvalid : b.validate = .ok ()) :
    System.Keeps name (Upheld b p I name) where
  deal d h := h.deal hI hvalid (hI.leads d)
  other d _ hne h := h.other hI hvalid d hne
  on x h := ⟨h.ready, h.bounded, h.policy, h.holds⟩
  select {s _} exclude h := by
    obtain ⟨rng, hhost⟩ := s.host_selectWith exclude
    refine h.frame hI (s.changes_selectWith exclude) (by rw [hhost])
      (System.find?_selectWith h.ready exclude name) (fun r => ?_) fun r => ?_
    · split
      · exact r.kept_acquire
      · exact .refl r
    · split
      · rfl
      · rfl
  onState {s _ f} kept same other h := by
    refine h.frame hI (s.changes_onState kept same) (by rw [System.host_onState])
      (System.find?_onState h.ready.layout f other name) (fun r => ?_) fun r => ?_
    · split
      · exact kept r
      · exact .refl r
    · split
      · exact same r
      · rfl
  close {s _} h := by
    refine h.frame hI s.changes_close (by rw [s.calm_close.memory]) (f := id) ?_
      Resource.Kept.refl fun _ => rfl
    rw [Option.map_id_fun, id, s.calm_close.find?]

/-- Others may do what they like to the host if they leave the streak alone, or if the property does
not look at it. -/
theorem step (h : Upheld b p I name s past) (hI : p.Upholds I) (hvalid : b.validate = .ok ())
    {e : Event ω} (hothers : (∀ host, e = .others host →
      host.memory.streaks.count name = s.host.memory.streaks.count name) ∨
        ∀ r? n n' past, I r? n past → I r? n' past) :
    Upheld b p I name (s.step e) (s.recorded name e past) := by
  by_cases hown : ∀ host, e ≠ .others host
  · exact (keeps hI hvalid).step hown h
  · obtain ⟨host, rfl⟩ := not_forall_not.1 hown
    refine ⟨h.ready, h.bounded, h.policy, ?_⟩
    rcases hothers with hsame | hfree
    · show I _ (host.memory.streaks.count name) past
      rw [hsame host rfl]
      exact h.holds
    · exact hfree _ _ _ _ h.holds

theorem run (h : Upheld b p I name s past) (hI : p.Upholds I) (hvalid : b.validate = .ok ())
    {es : List (Event ω)}
    (hothers : s.Undisturbed name es ∨ ∀ r? n n' past, I r? n past → I r? n' past) :
    Upheld b p I name (s.run es) (s.record name es past) := by
  induction es generalizing s past with
  | nil => exact h
  | cons e rest ih =>
      exact ih (h.step hI hvalid (hothers.imp_left And.left)) (hothers.imp_left And.right)

/-- A property that changes with every report of a kind has changed as often as there were reports
of that kind. -/
theorem run_counting {I : Nat → Option (Resource ω) → Nat → List (Dealt ω) → Prop} {j : Nat}
    (h : Upheld b p (I j) name s past) (hI : ∀ j, p.Upholds (I j)) (hvalid : b.validate = .ok ())
    {result : CallResult} (hreport : ∀ j, p.Leads (.report result) (I j) (I (j + 1)))
    (hfree : ∀ j r? n n' past, I j r? n past → I j r? n' past) (es : List (Event ω)) :
    Upheld b p (I (j + es.countP (Event.isReport result name))) name (s.run es)
      (s.record name es past) := by
  induction es generalizing s past j with
  | nil => exact h
  | cons e rest ih =>
      rw [List.countP_cons]
      cases hcounted : Event.isReport result name e with
      | false => exact ih (h.step (hI j) hvalid (.inr (hfree j)))
      | true =>
          obtain rfl : e = .call (.report result name) := by
            unfold Event.isReport at hcounted
            split at hcounted
            · simp only [Bool.and_eq_true, decide_eq_true_eq] at hcounted
              rw [hcounted.1, hcounted.2]
            · exact nomatch hcounted
          have hstep : Upheld b p (I (j + 1)) name (s.step (.call (.report result name)))
              (s.recorded name (.call (.report result name)) past) := by
            rw [show s.recorded name (.call (.report result name)) past =
              s.dealt (.report result) name past from if_pos rfl]
            exact h.deal (hI j) hvalid (hreport j)
          rw [if_pos rfl, Nat.add_comm _ 1, ← Nat.add_assoc]
          exact ih hstep

end Upheld

/-- A property that holds of a name when the selector is built. -/
theorem Builder.upheld_of_build [LawfulScalar ω] {b : Builder ω} {id : Nat} {host : Host ω}
    {s : System ω} (h : b.build id host = .ok s)
    {I : Option (Resource ω) → Nat → List (Dealt ω) → Prop} (hI : s.selector.policy.Upholds I)
    {name : String} (hstart : I none (host.memory.streaks.count name) []) :
    Upheld b s.selector.policy I name s [] := by
  have hreaches : b.Reaches s := .built h
  refine ⟨hreaches.ready, hreaches.bounded, rfl, ?_⟩
  rw [(Builder.calm_of_build h).memory]
  cases hr : s.selector.find? name with
  | none => exact hstart
  | some r =>
      obtain ⟨hmem, -⟩ := hreaches.layout.mem_of_find? hr
      exact hI.enrol (hreaches.bounded.within hmem) (hreaches.bounded.nonneg hmem) hstart

end ResourceSelection
