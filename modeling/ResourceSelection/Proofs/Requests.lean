import ResourceSelection.Proofs.Judgement
import ResourceSelection.Proofs.Transparency

/-!
# What a request does to a manager

Selections, reports, changes and the end of checking are the plain requests. A change is made or
refused, and which of the two depends on the members, on the settings and on whether there is a timer
(`Manager.Accepts`). Any other plain request is a call on the current selector and leaves all else
alone. As far as weights go, little is left to look at: what a policy remembers is moved by reports
on registered resources only, and where unknown resources are not registered these are the members.
-/

namespace ResourceSelection

variable {ω : Type}

/-! ## Plain requests -/

def Call.isCheck : Call → Bool
  | .check _ => true
  | _ => false

/-- What is asked of a manager itself: selections, reports, changes, the end. -/
def Request.isPlain : Request ω → Bool
  | .call c => !c.isCheck
  | .change _ _ => true
  | .close => true
  | _ => false

namespace MembershipChange

/-- What is declared after the change. -/
def declares (f : Declarations ω) : MembershipChange ω → Declarations ω
  | .update add remove _ => (f.without remove).override add
  | .updateAll resources _ => Declarations.nothing.override resources

theorem declares_congr (c : MembershipChange ω) {f f' : Declarations ω} {other : String}
    (h : f' other = f other) : c.declares f' other = c.declares f other := by
  cases c with
  | update add remove rank =>
      have hwithout : f'.without remove other = f.without remove other := by
        unfold Declarations.without
        rw [h]
      exact (Declarations.override_apply _ add other).trans
        (hwithout ▸ (Declarations.override_apply _ add other).symm)
  | updateAll resources rank => rfl

end MembershipChange

variable [Scalar ω]

/-! ## What is remembered -/

/-- Whether successes in a row are counted. -/
def Rule.counts : Rule ω → Bool
  | .ratio rule => 1 < rule.recoverThreshold
  | .flat _ => false

theorem Policy.streaks_onResult {rule : Rule ω} (h : rule.counts = false) (result : CallResult)
    (c : Context ω) (m : PolicyMemory) :
    ((shipped rule).onResult result c m).2.streaks = m.streaks := by
  cases rule with
  | flat rule =>
      cases result with
      | success => rfl
      | failure => rfl
  | ratio rule =>
      have hle : rule.recoverThreshold ≤ 1 := Nat.le_of_not_lt (of_decide_eq_false h)
      have hend (name : String) : rule.endStreak name m.streaks = m.streaks := if_neg (by omega)
      have hgate (name : String) : rule.gate name m.streaks = (true, m.streaks) := if_pos hle
      cases result with
      | failure => exact hend c.resource
      | success =>
          show (rule.onSuccess c m.streaks).2 = m.streaks
          unfold RatioRule.onSuccess
          rw [hend, hgate]
          split
          · rfl
          · split
            · rfl
            · rfl

/-- Nothing but a report on a resource that it knows makes a system remember. -/
theorem System.memory_call_cases {s : System ω} (h : s.selector.Layout)
    (hauto : s.selector.settings.autoAddWeight = none) {c : Call} (hc : c.isCheck = false) :
    (s.call c).host.memory = s.host.memory ∨ ∃ result other r, c = .report result other ∧
      s.selector.find? other = some r ∧ (s.call c).host.memory =
        (s.selector.policy.onResult result r.context s.host.memory).2 := by
  cases c with
  | select exclude =>
      obtain ⟨rng, hhost⟩ := host_selectWith exclude s
      exact .inl (show (s.selectWith exclude).2.host.memory = _ by rw [hhost])
  | report result other =>
      cases hr : s.selector.find? other with
      | some r => exact .inr ⟨result, other, r, rfl, hr, memory_report h hr result⟩
      | none =>
          have hnew := h.find?_eq_none_iff.1 hr
          exact .inl (calm_report_of_unknown hnew hauto result).memory
  | down other => exact .inl (memory_down other s)
  | check order => exact nomatch hc
  | acquire other => exact .inl (congrArg Host.memory (host_onState _ other s))
  | release other => exact .inl (congrArg Host.memory (host_onState _ other s))
  | close => exact .inl s.calm_close.memory

/-! ## What counts of a resource -/

namespace System

variable {s : System ω} {name : String}

theorem standing_selectWith [LawfulScalar ω] (h : s.selector.Ready) (exclude : Option (List String))
    (name : String) : (s.selectWith exclude).2.standing name = s.standing name := by
  obtain ⟨rng, hhost⟩ := host_selectWith exclude s
  unfold standing
  rw [find?_selectWith h exclude name, hhost, Option.map_map]
  cases s.selector.find? name with
  | none => rfl
  | some r =>
      simp only [Option.map_some, Function.comp_apply, Option.some.injEq, Prod.mk.injEq, and_true]
      split
      · rfl
      · rfl

omit [Scalar ω] in
theorem standing_onState (h : s.selector.Layout) {f : Resource ω → Bool × Resource ω}
    (hf : ∀ r, (f r).2.current = r.current) (other name : String) :
    (s.onState other f).2.standing name = s.standing name := by
  unfold standing
  rw [find?_onState h f other name, host_onState, Option.map_map]
  cases s.selector.find? name with
  | none => rfl
  | some r =>
      simp only [Option.map_some, Function.comp_apply, Option.some.injEq, Prod.mk.injEq, and_true]
      split
      · exact hf r
      · rfl

end System

/-- The weight at which a member starts in the next selector. -/
theorem Membership.initialWeight_declarationOf (next : Membership ω) (previous : Selector ω)
    (name : String) (d : Declaration ω) :
    (next.declarationOf (some previous) name d).initialWeight =
      ((previous.statusOf name).map fun s => s.carry d).getD d.initialWeight := by
  cases hstatus : previous.statusOf name with
  | some s =>
      rw [next.declarationOf_carried hstatus, next.declarationOf_none]
      rfl
  | none =>
      rw [next.declarationOf_of_unknown hstatus, next.declarationOf_none]
      rfl

namespace Manager

variable {m m' : Manager ω} {name : String} {q : Request ω}

/-- The successes in a row that the policy counts for a name. -/
def streakOf (name : String) (m : Manager ω) : Nat := m.host.memory.streaks.count name

omit [Scalar ω] in
theorem standing_system (name : String) (m : Manager ω) :
    m.system.standing name = (m.weightOf name).map fun weight => (weight, m.streakOf name) := by
  unfold System.standing weightOf
  rw [Option.map_map]
  rfl

omit [Scalar ω] in
theorem eq_of_standing (h : m'.system.standing name = m.system.standing name) {r : Resource ω}
    (hr : m.current.find? name = some r) :
    m'.weightOf name = m.weightOf name ∧ m'.streakOf name = m.streakOf name := by
  rw [standing_system, standing_system, show m.weightOf name = some r.current by rw [weightOf, hr]; rfl,
    Option.map_some, Option.map_eq_some_iff] at h
  obtain ⟨weight, hweight, heq⟩ := h
  obtain ⟨rfl, hstreak⟩ := Prod.mk.inj heq
  rw [hweight, weightOf, hr]
  exact ⟨rfl, hstreak⟩

/-! ## Changes and their acceptance -/

/-- There is a timer if one is needed, and all that the change declares is accepted. -/
def Accepts (m : Manager ω) (timer : Bool) (c : MembershipChange ω) : Prop :=
  (m.template.needsTimer && !timer) = false ∧
    ∀ name d, Declarations.nothing.override c.entries name = some d →
      (m.judged name d).validate = .ok ()

theorem changed_declares {c : MembershipChange ω} (h : c.make m = .ok m') :
    ∃ next, m.Changed next m' ∧
      ∀ name, next.roster.get? name = c.declares m.membership.roster.get? name := by
  cases c with
  | update add remove rank =>
      refine ⟨_, changed_of_apply h, fun name => ?_⟩
      have hwithout : Declarations.without m.membership.roster.get? remove.eraseDups =
          Declarations.without m.membership.roster.get? remove := by
        funext other
        simp [Declarations.without]
      rw [m.membership.get?_update, hwithout]
      rfl
  | updateAll resources rank =>
      exact ⟨_, changed_of_apply h, congrFun (m.membership.get?_updateAll resources rank)⟩

theorem mem_of_mem_granted {qs : List (Request ω)} (h : q ∈ m.granted qs) : q ∈ qs := by
  induction qs generalizing m with
  | nil => exact h
  | cons first rest ih =>
      unfold granted at h
      split at h
      · exact List.mem_cons_of_mem first (ih h)
      · rcases List.mem_cons.1 h with rfl | hrest
        · exact List.mem_cons_self
        · exact List.mem_cons_of_mem first (ih hrest)

variable [LawfulScalar ω]

/-- Where the policy answers, a change is made or refused. -/
theorem Traced.reply_change_cases (h : m.Traced) (hanswers : m.template.Answers) (timer : Bool)
    (c : MembershipChange ω) :
    (m.Accepts timer c ∧ (m.reply (.change timer c)).1.isRefusal = false ∧
        c.make m = .ok (m.reply (.change timer c)).2) ∨
      (¬ m.Accepts timer c ∧ (m.reply (.change timer c)).1.isRefusal = true) := by
  have hjudged : (∃ next, c.make m = .ok next) ↔ ∀ name d,
      Declarations.nothing.override c.entries name = some d →
        (m.judged name d).validate = .ok () := by
    rw [← Roster.get?_ofList]
    cases c with
    | update add remove rank => exact h.exists_apply_iff hanswers (Roster.nodup_ofList add)
    | updateAll resources rank =>
        exact h.exists_apply_iff hanswers (Roster.nodup_ofList resources)
  have haccepts : m.Accepts timer c ↔
      (m.template.needsTimer && !timer) = false ∧ ∃ next, c.make m = .ok next := by
    rw [Accepts, hjudged]
  rw [haccepts]
  unfold reply
  cases htimer : m.template.needsTimer && !timer with
  | true =>
      obtain ⟨why, hrefused⟩ := InPlace.change_eq_error htimer c
      right
      simp [hrefused, Reply.isRefusal]
  | false =>
      have hchange := InPlace.change_eq htimer c
      cases hmake : c.make m with
      | ok next =>
          left
          simp [hchange, hmake, InPlace.outcome, Reply.isRefusal]
      | error failure =>
          right
          cases failure with
          | invalid fault =>
              simp [hchange, hmake, InPlace.outcome, BuildFailure.halt, Reply.isRefusal]
          | crashed asked => exact absurd hmake (MembershipChange.make_ne_crashed hanswers c asked)

/-! ## Members and the registered -/

theorem Traced.settings_current (h : m.Traced) : m.current.settings = m.template.settings := by
  obtain ⟨previous, hcurrent⟩ := h.current
  exact hcurrent.bounded.settings

theorem Traced.layout_current (h : m.Traced) : m.current.Layout := by
  obtain ⟨previous, hcurrent⟩ := h.current
  exact hcurrent.layout

/-- Where unknown resources are not registered, the members are. -/
theorem Traced.find?_eq_none_iff (h : m.Traced)
    (hauto : m.template.settings.autoAddWeight = none) :
    m.current.find? name = none ↔ m.membership.roster.get? name = none := by
  constructor
  · intro hnone
    by_contra hsome
    obtain ⟨d, hd⟩ := Option.ne_none_iff_exists'.1 hsome
    obtain ⟨r, hr, -⟩ := h.exists_stands hd
    exact Option.some_ne_none r (hr.symm.trans hnone)
  · intro hnone
    by_contra hsome
    obtain ⟨r, hr⟩ := Option.ne_none_iff_exists'.1 hsome
    obtain ⟨previous, hcurrent⟩ := h.current
    obtain ⟨place, hplace, hname⟩ := hcurrent.layout.find?_eq_some.1 hr
    obtain ⟨d, hd, -⟩ := hcurrent.bounded.meets (List.mem_of_getElem? hplace)
    have hlookup : (m.membership.builder m.template previous).resources.lookup name = _ :=
      m.membership.roster.lookup_entries (m.membership.declarationOf previous) name
    have hsettings : (m.membership.builder m.template previous).settings = m.template.settings :=
      rfl
    rw [Builder.declarationOf?, hname, hlookup, hnone, hsettings, hauto] at hd
    exact Option.some_ne_none d hd.symm

theorem judged_congr (h : m.Traced) (h' : m'.Traced)
    (hauto : m.template.settings.autoAddWeight = none) (htemplate : m'.template = m.template)
    (hroster : m'.membership.roster.get? name = m.membership.roster.get? name)
    (d : Declaration ω) : m'.judged name d = m.judged name d := by
  have hknown : (m'.current.statusOf name).isSome = (m.current.statusOf name).isSome := by
    have hnone : m'.current.find? name = none ↔ m.current.find? name = none := by
      rw [h.find?_eq_none_iff hauto, h'.find?_eq_none_iff (htemplate ▸ hauto), hroster]
    rw [Selector.statusOf, Selector.statusOf, Option.isSome_map, Option.isSome_map,
      Bool.eq_iff_iff, ← not_iff_not, Option.not_isSome_iff_eq_none, Option.not_isSome_iff_eq_none,
      hnone]
  unfold judged
  rw [hknown]

/-! ## One request, one manager -/

theorem system_reply_close (m : Manager ω) : (m.reply .close).2.system = m.system.call .close := by
  have hid : m.system.close.selector.id = m.current.id := m.system.id_step (.call .close)
  show System.mk (ite _ _ _) _ = _
  rw [if_pos hid.symm]
  rfl

omit [Scalar ω] [LawfulScalar ω] in
theorem isPlain_cases (hq : q.isPlain = true) :
    (∃ timer c, q = .change timer c) ∨ q = .close ∨ ∃ c, q = .call c ∧ c.isCheck = false := by
  cases q with
  | change timer c => exact .inl ⟨timer, c, rfl⟩
  | close => exact .inr (.inl rfl)
  | call c => exact .inr (.inr ⟨c, rfl, by simpa [Request.isPlain] using hq⟩)
  | callOn id c => exact nomatch hq
  | tick => exact nomatch hq
  | others host => exact nomatch hq

/-- Any other plain request is a call on the current selector. -/
theorem reply_cases (hq : q.isPlain = true) :
    (∃ timer c, q = .change timer c) ∨
      ∃ c : Call, c.isCheck = false ∧ (∀ timer c', q ≠ .change timer c') ∧ ∀ m : Manager ω,
        (m.reply q).2.system = m.system.call c ∧ (m.reply q).2.template = m.template ∧
        (m.reply q).2.membership = m.membership := by
  obtain hchange | rfl | ⟨c, rfl, hc⟩ := isPlain_cases hq
  · exact .inl hchange
  · exact .inr ⟨.close, rfl, nofun, fun m => ⟨m.system_reply_close, rfl, rfl⟩⟩
  · exact .inr ⟨c, hc, nofun, fun m => ⟨m.system_reply_call c, rfl, rfl⟩⟩

theorem template_reply (hq : q.isPlain = true) (m : Manager ω) :
    (m.reply q).2.template = m.template := by
  obtain ⟨timer, c, rfl⟩ | ⟨c, -, -, hcall⟩ := reply_cases hq
  · obtain ⟨asked, heq⟩ | hmade := m.reply_change timer c
    · rw [heq]
    · obtain ⟨next, hchanged, -⟩ := changed_declares hmade
      exact hchanged.template
  · exact (hcall m).2.1

theorem template_after {qs : List (Request ω)} (hqs : ∀ q ∈ qs, q.isPlain = true)
    (m : Manager ω) : (m.after qs).template = m.template := by
  induction qs generalizing m with
  | nil => rfl
  | cons q rest ih =>
      obtain ⟨hq, hrest⟩ := List.forall_mem_cons.1 hqs
      exact (ih hrest (m.reply q).2).trans (template_reply hq m)

theorem memory_reply_cases (h : m.Reachable) (hauto : m.template.settings.autoAddWeight = none)
    (hq : q.isPlain = true) : (m.reply q).2.host.memory = m.host.memory ∨
      ∃ result other r, m.current.find? other = some r ∧ (m.reply q).2.host.memory =
        (m.current.policy.onResult result r.context m.host.memory).2 := by
  obtain ⟨timer, c, rfl⟩ | ⟨c, hc, -, hcall⟩ := reply_cases hq
  · left
    obtain ⟨asked, heq⟩ | hmade := m.reply_change timer c
    · rw [heq]
    · obtain ⟨next, hchanged, -⟩ := changed_declares hmade
      exact hchanged.memory
  · have hsystem := (hcall m).1
    have hsettings : m.system.selector.settings.autoAddWeight = none :=
      (congrArg Settings.autoAddWeight h.traced.settings_current).trans hauto
    have hmemory : (m.reply q).2.host.memory = (m.system.call c).host.memory :=
      congrArg (fun s : System ω => s.host.memory) hsystem
    rw [hmemory]
    obtain hsame | ⟨result, other, r, -, hr, heq⟩ :=
      System.memory_call_cases (s := m.system) h.traced.layout_current hsettings hc
    · exact .inl hsame
    · exact .inr ⟨result, other, r, hr, heq⟩

/-- Nobody asks the policy about a name that is not a member. -/
theorem streakOf_reply (h : m.Reachable) (hauto : m.template.settings.autoAddWeight = none)
    (hnone : m.membership.roster.get? name = none) (hq : q.isPlain = true) :
    (m.reply q).2.streakOf name = m.streakOf name := by
  unfold streakOf
  obtain hsame | ⟨result, other, r, hr, heq⟩ := memory_reply_cases h hauto hq
  · rw [hsame]
  · have hother : r.context.resource = other := h.traced.layout_current.name_of_find? hr
    have hne : name ≠ r.context.resource := by
      rintro rfl
      rw [← hother, (h.traced.find?_eq_none_iff hauto).2 hnone] at hr
      exact nomatch hr
    rw [heq, Policy.count_onResult_of_ne _ _ _ _ hne]

theorem streakOf_reply_of_counts (h : m.Reachable)
    (hauto : m.template.settings.autoAddWeight = none) {rule : Rule ω}
    (hpolicy : m.template.policy = some (.shipped rule)) (hcounts : rule.counts = false)
    (hq : q.isPlain = true) : (m.reply q).2.streakOf name = m.streakOf name := by
  unfold streakOf
  obtain hsame | ⟨result, other, r, -, heq⟩ := memory_reply_cases h hauto hq
  · rw [hsame]
  · rw [heq, h.policy_current hpolicy, Policy.streaks_onResult hcounts]

theorem streakOf_after_of_counts (h : m.Reachable)
    (hauto : m.template.settings.autoAddWeight = none) {rule : Rule ω}
    (hpolicy : m.template.policy = some (.shipped rule)) (hcounts : rule.counts = false)
    {qs : List (Request ω)} (hqs : ∀ q ∈ qs, q.isPlain = true) :
    (m.after qs).streakOf name = m.streakOf name := by
  induction qs generalizing m with
  | nil => rfl
  | cons q rest ih =>
      obtain ⟨hq, hrest⟩ := List.forall_mem_cons.1 hqs
      have htemplate := template_reply hq m
      rw [← streakOf_reply_of_counts h hauto hpolicy hcounts hq]
      exact ih (h.reply q) (htemplate ▸ hauto) (htemplate ▸ hpolicy) hrest

/-- A call moves equal standings to equal standings. -/
theorem Keeps.standing_call {rule : Rule ω} {d : Declaration ω} (h : m.Keeps rule name d)
    (h' : m'.Keeps rule name d) (hstanding : m'.system.standing name = m.system.standing name)
    {c : Call} (hc : c.isCheck = false) :
    (m'.system.call c).standing name = (m.system.call c).standing name := by
  have hquiet (hkept : ∀ {m : Manager ω}, m.Keeps rule name d →
      (m.system.call c).standing name = m.system.standing name) :
      (m'.system.call c).standing name = (m.system.call c).standing name := by
    rw [hkept h, hkept h', hstanding]
  cases c with
  | report result other =>
      rw [← system_reply_call, ← system_reply_call]
      exact h.standing_feedback h' hstanding rfl
  | down other =>
      rw [← system_reply_call, ← system_reply_call]
      exact h.standing_feedback h' hstanding rfl
  | check order => exact nomatch hc
  | select exclude =>
      refine hquiet fun hm => ?_
      obtain ⟨previous, hcurrent⟩ := hm.reachable.traced.current
      exact System.standing_selectWith ⟨hcurrent.layout, hcurrent.settled⟩ exclude name
  | acquire other => exact hquiet fun hm => System.standing_onState hm.layout (fun _ => rfl) other name
  | release other => exact hquiet fun hm => System.standing_onState hm.layout (fun _ => rfl) other name
  | close => exact hquiet fun _ => (System.calm_close _).standing name

/-! ## Creation -/

omit [LawfulScalar ω] in
theorem template_of_create {b : Builder ω} {resources : List (String × Declaration ω)}
    {grouping : Option (Grouping String)} {host : Host ω} {rank : String → Nat}
    (h : create b resources grouping host rank = .ok m) : m.template = { b with
      resources := []
      policy := some (b.policy.getD (.shipped b.settings.rule)) } := by
  unfold create at h
  split at h
  · exact nomatch h
  · simp only at h
    split at h
    · exact nomatch h
    · cases h
      rfl

omit [LawfulScalar ω] in
/-- A manager can be created if all that is declared to it is accepted. -/
theorem exists_create_iff {b : Builder ω} {resources : List (String × Declaration ω)}
    {grouping : Option (Grouping String)} {host : Host ω} {rank : String → Nat}
    (hanswers : b.Answers) : (∃ m, create b resources grouping host rank = .ok m) ↔
      b.settings.validate = .ok () ∧ ∀ name d,
        Declarations.nothing.override (b.resources ++ resources) name = some d →
          d.validate = .ok () := by
  constructor
  · rintro ⟨m, hcreate⟩
    have hcreated := created_of_create hcreate
    obtain ⟨hsettings, hmembers⟩ := (Membership.validate_builder hcreated.nodup_names _ _).1
      (Builder.changes_of_build hcreated.built).1
    refine ⟨hcreated.settings ▸ hsettings, fun name d hd => ?_⟩
    rw [← m.membership.validate_declarationOf_none name]
    exact hmembers name d ((congrFun hcreated.get?_roster name).trans hd)
  · rintro ⟨hsettings, hdeclared⟩
    have hroster : (((Roster.ofList b.resources).putAll resources).arrange rank).get? =
        Declarations.nothing.override (b.resources ++ resources) := by
      rw [Roster.get?_arrange, Roster.get?_ofList_putAll]
    have hnodup := Roster.nodup_arrange
      (Roster.nodup_putAll (Roster.nodup_ofList b.resources) resources) rank
    unfold create
    rw [hsettings]
    simp only
    generalize ((Roster.ofList b.resources).putAll resources).arrange rank = roster at *
    generalize grouping.map (·.assignInitial roster.names) = grouping
    generalize htemplate : ({ b with resources := [], policy := _ } : Builder ω) = template
    have hvalid : ((Membership.mk roster grouping).builder template none).validate = .ok () := by
      refine (Membership.validate_builder hnodup _ _).2 ⟨htemplate ▸ hsettings, fun name d hd => ?_⟩
      rw [Membership.validate_declarationOf_none]
      exact hdeclared name d ((congrFun hroster name).symm.trans hd)
    have hanswers' : ((Membership.mk roster grouping).builder template none).Answers :=
      htemplate ▸ hanswers
    obtain ⟨s, hbuild⟩ := Builder.exists_build hvalid hanswers' 0 host
    unfold Membership.build
    rw [hbuild]
    exact ⟨_, rfl⟩

omit [LawfulScalar ω] in
theorem streakOf_of_create {b : Builder ω} {resources : List (String × Declaration ω)}
    {grouping : Option (Grouping String)} {host : Host ω} {rank : String → Nat}
    (h : create b resources grouping host rank = .ok m) (name : String) :
    m.streakOf name = host.memory.streaks.count name := by
  have hcalm := Builder.calm_of_build (created_of_create h).built
  exact congrArg (fun memory => memory.streaks.count name) hcalm.memory

end Manager

end ResourceSelection
