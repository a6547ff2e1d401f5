import ResourceSelection.Proofs.Requests

/-!
# Newcomers under a known name

A resource leaves, and later another one comes under its name. Next to nothing is left of the first
one by then: its weight and its calls in flight went with the selector that held them, and its
declaration with the roster. What is left is what the policy remembers. There is one policy for all
the selectors of a manager, it counts successes in a row by name, and only recovery and failure end
a row.

Two runs are compared, the run as it was and the run in which the name has been withheld from
everything that was declared. Up to the newcomer they agree on all the other members (`Agree`), so
that what is accepted in the one is accepted in the other. From the newcomer on they agree on its
weights as well, provided that the policy counts the same for the name (`Abreast`). In the second run
nobody has asked it about the name so far.
-/

namespace ResourceSelection

variable {ω : Type}

/-! ## Withholding a name -/

/-- The declarations of all other names. -/
def Declarations.withholding (name : String) (entries : List (String × Declaration ω)) :
    List (String × Declaration ω) :=
  entries.filter fun entry => entry.1 ≠ name

theorem Declarations.override_withholding (f : Declarations ω) (name : String)
    (entries : List (String × Declaration ω)) (other : String) :
    f.override (withholding name entries) other =
      if other = name then f other else f.override entries other := by
  induction entries generalizing f with
  | nil => exact (ite_self (f other)).symm
  | cons entry rest ih =>
      have hrest := ih f
      have hdeclared := ih (f.declare entry.1 entry.2)
      have hcons (entries : List (String × Declaration ω)) :
          f.override (entry :: entries) = (f.declare entry.1 entry.2).override entries := rfl
      by_cases hentry : entry.1 = name
      · have hwithheld : withholding name (entry :: rest) = withholding name rest := by
          simp [withholding, hentry]
        rw [hwithheld, hrest, hcons]
        by_cases hother : other = name
        · rw [if_pos hother, if_pos hother]
        · have hnot : ¬ other = entry.1 := hentry ▸ hother
          rw [if_neg hother, if_neg hother, override_apply, override_apply (f.declare _ _), declare,
            if_neg hnot]
      · have hkept : withholding name (entry :: rest) = entry :: withholding name rest := by
          simp [withholding, hentry]
        rw [hkept, hcons, hcons, hdeclared]
        by_cases hother : other = name
        · have hnot : ¬ other = entry.1 := fun heq => hentry (heq.symm.trans hother)
          rw [if_pos hother, if_pos hother, declare, if_neg hnot]
        · rw [if_neg hother, if_neg hother]

theorem Declarations.eq_some_of_withholding {name other : String}
    {entries : List (String × Declaration ω)} {d : Declaration ω}
    (h : nothing.override (withholding name entries) other = some d) :
    other ≠ name ∧ nothing.override entries other = some d := by
  rw [override_withholding] at h
  split at h
  · exact nomatch h
  · next hne => exact ⟨hne, h⟩

namespace MembershipChange

variable {f : Declarations ω} {name other : String}

/-- The change without a declaration of the name. -/
def withholding (name : String) : MembershipChange ω → MembershipChange ω
  | .update add remove rank => .update (Declarations.withholding name add) remove rank
  | .updateAll resources rank => .updateAll (Declarations.withholding name resources) rank

theorem entries_withholding (name : String) (c : MembershipChange ω) :
    (c.withholding name).entries = Declarations.withholding name c.entries := by
  cases c with
  | update add remove rank => rfl
  | updateAll resources rank => rfl

theorem declares_withholding_of_ne (c : MembershipChange ω) (hne : other ≠ name) :
    (c.withholding name).declares f other = c.declares f other := by
  cases c with
  | update add remove rank =>
      exact (Declarations.override_withholding _ name add other).trans (if_neg hne)
  | updateAll resources rank =>
      exact (Declarations.override_withholding _ name resources other).trans (if_neg hne)

theorem declares_withholding_self (c : MembershipChange ω) (h : f name = none) :
    (c.withholding name).declares f name = none := by
  cases c with
  | update add remove rank =>
      refine (Declarations.override_withholding _ name add name).trans ?_
      rw [if_pos rfl, Declarations.without, h, ite_self]
  | updateAll resources rank =>
      exact (Declarations.override_withholding _ name resources name).trans (if_pos rfl)

end MembershipChange

/-- The builder without a resource of the name. -/
def Builder.withholding (name : String) (b : Builder ω) : Builder ω :=
  { b with resources := Declarations.withholding name b.resources }

namespace Request

def withholding (name : String) : Request ω → Request ω
  | .change timer c => .change timer (c.withholding name)
  | q => q

theorem isPlain_withholding {name : String} (q : Request ω) :
    (q.withholding name).isPlain = q.isPlain := by
  cases q <;> rfl

theorem withholding_of_ne {q : Request ω} (h : ∀ timer c, q ≠ .change timer c) (name : String) :
    q.withholding name = q := by
  cases q with
  | change timer c => exact absurd rfl (h timer c)
  | _ => rfl

end Request

namespace Manager

/-- The manager, were its policy to count so many for a name. -/
def counting (name : String) (streak : Nat) (m : Manager ω) : Manager ω :=
  let memory := { m.host.memory with streaks := m.host.memory.streaks.set name streak }
  { m with host := { m.host with memory } }

variable [Scalar ω] {m m' n n' : Manager ω} {name : String} {q : Request ω} {timer : Bool}

/-! ## Up to the newcomer -/

/-- The manager has no member of the name, and registers nothing that is not a member. -/
structure Lacks (name : String) (m : Manager ω) : Prop where
  reachable : m.Reachable
  keepsOut : m.template.settings.autoAddWeight = none
  absent : m.membership.roster.get? name = none

/-- The managers have the same members, but for one name. -/
structure Agree (name : String) (m m' : Manager ω) : Prop where
  reachable : m.Reachable
  reachable' : m'.Reachable
  template : m'.template = m.template
  keepsOut : m.template.settings.autoAddWeight = none
  others {other : String} : other ≠ name →
    m'.membership.roster.get? other = m.membership.roster.get? other

/-- And the second one has no member of that name. -/
structure Apart (name : String) (m m' : Manager ω) : Prop extends Agree name m m' where
  lacks : m'.Lacks name

/-- And they have the same of that name, too, as far as its weights go. -/
structure Abreast (name : String) (m m' : Manager ω) : Prop extends Agree name m m' where
  member : m'.membership.roster.get? name = m.membership.roster.get? name
  weight : m'.weightOf name = m.weightOf name
  streak : m'.streakOf name = m.streakOf name

variable [LawfulScalar ω]

theorem Lacks.find?_eq_none (h : m.Lacks name) : m.current.find? name = none :=
  (h.reachable.traced.find?_eq_none_iff h.keepsOut).2 h.absent

theorem Lacks.weightOf_eq_none (h : m.Lacks name) : m.weightOf name = none := by
  rw [weightOf, h.find?_eq_none, Option.map_none]

theorem Lacks.reply (h : m.Lacks name) (hq : q.isPlain = true) :
    (m.reply (q.withholding name)).2.Lacks name := by
  have hreachable := h.reachable.reply (q.withholding name)
  obtain ⟨timer, c, rfl⟩ | ⟨c, -, hother, hcall⟩ := reply_cases hq
  · obtain ⟨asked, heq⟩ | hmade := m.reply_change timer (c.withholding name)
    · have hreply : (m.reply ((Request.change timer c).withholding name)).2 = _ := heq
      rw [hreply] at hreachable ⊢
      exact ⟨hreachable, h.keepsOut, h.absent⟩
    · obtain ⟨next, hchanged, hnext⟩ := changed_declares hmade
      refine ⟨hreachable, ?_, ?_⟩
      · exact (congrArg (·.settings.autoAddWeight) hchanged.template).trans h.keepsOut
      · refine (congrArg (·.roster.get? name) hchanged.membership).trans ?_
        exact (hnext name).trans (c.declares_withholding_self h.absent)
  · obtain ⟨-, htemplate, hmembership⟩ := hcall m
    rw [q.withholding_of_ne hother] at hreachable ⊢
    exact ⟨hreachable, htemplate ▸ h.keepsOut, hmembership ▸ h.absent⟩

theorem Lacks.after (h : m.Lacks name) {qs : List (Request ω)}
    (hqs : ∀ q ∈ qs, q.isPlain = true) :
    (m.after (qs.map (Request.withholding name))).Lacks name ∧
      (m.after (qs.map (Request.withholding name))).streakOf name = m.streakOf name := by
  induction qs generalizing m with
  | nil => exact ⟨h, rfl⟩
  | cons q rest ih =>
      obtain ⟨hq, hrest⟩ := List.forall_mem_cons.1 hqs
      have hplain : (q.withholding name).isPlain = true := (Request.isPlain_withholding q).trans hq
      obtain ⟨hlacks, hstreak⟩ := ih (h.reply hq) hrest
      exact ⟨hlacks, hstreak.trans (streakOf_reply h.reachable h.keepsOut h.absent hplain)⟩

namespace Agree

/-- What the one accepts the other accepts, if it knows the declared names as well. -/
theorem accepts (h : m.Agree name m') {c c' : MembershipChange ω}
    (hentries : ∀ other d, Declarations.nothing.override c'.entries other = some d →
      Declarations.nothing.override c.entries other = some d ∧
        m'.membership.roster.get? other = m.membership.roster.get? other)
    (haccepts : m.Accepts timer c) : m'.Accepts timer c' := by
  refine ⟨h.template ▸ haccepts.1, fun other d hd => ?_⟩
  obtain ⟨hdeclared, hroster⟩ := hentries other d hd
  rw [judged_congr h.reachable.traced h.reachable'.traced h.keepsOut h.template hroster]
  exact haccepts.2 other d hdeclared

omit [LawfulScalar ω] in
theorem symm (h : m.Agree name m') : m'.Agree name m :=
  ⟨h.reachable', h.reachable, h.template.symm, h.template ▸ h.keepsOut,
    fun hne => (h.others hne).symm⟩

omit [LawfulScalar ω] in
theorem called (h : m.Agree name m') {q : Request ω}
    (hcall : ∀ m : Manager ω, (m.reply q).2.template = m.template ∧
      (m.reply q).2.membership = m.membership) : (m.reply q).2.Agree name (m'.reply q).2 := by
  obtain ⟨htemplate, hmembership⟩ := hcall m
  obtain ⟨htemplate', hmembership'⟩ := hcall m'
  refine ⟨h.reachable.reply q, h.reachable'.reply q, ?_, ?_, ?_⟩
  · rw [htemplate, htemplate', h.template]
  · rw [htemplate, h.keepsOut]
  · intro other hne
    rw [hmembership, hmembership', h.others hne]

omit [LawfulScalar ω] in
theorem made (h : m.Agree name m') (hn : n.Reachable) (hn' : n'.Reachable)
    {c c' : MembershipChange ω} (hmake : c.make m = .ok n) (hmake' : c'.make m' = .ok n')
    (hdeclares : ∀ (f : Declarations ω) (other : String), other ≠ name →
      c'.declares f other = c.declares f other) : n.Agree name n' := by
  obtain ⟨next, hchanged, hnext⟩ := changed_declares hmake
  obtain ⟨next', hchanged', hnext'⟩ := changed_declares hmake'
  refine ⟨hn, hn', ?_, ?_, ?_⟩
  · rw [hchanged.template, hchanged'.template, h.template]
  · rw [hchanged.template, h.keepsOut]
  · intro other hne
    rw [hchanged.membership, hchanged'.membership, hnext, hnext']
    exact (hdeclares _ other hne).trans (c.declares_congr (h.others hne))

end Agree

/-- What is granted with the name is granted without it. -/
theorem Apart.reply (h : m.Apart name m') (hanswers : m.template.Answers) (hq : q.isPlain = true)
    (hgranted : (m.reply q).1.isRefusal = false) :
    (m.reply q).2.Apart name (m'.reply (q.withholding name)).2 := by
  refine ⟨?_, h.lacks.reply hq⟩
  obtain ⟨timer, c, rfl⟩ | ⟨c, -, hother, hcall⟩ := reply_cases hq
  · obtain ⟨haccepts, -, hmade⟩ | ⟨-, hrefused⟩ :=
      h.reachable.traced.reply_change_cases hanswers timer c
    · have haccepts' : m'.Accepts timer (c.withholding name) := by
        refine h.toAgree.accepts (fun other d hd => ?_) haccepts
        rw [c.entries_withholding] at hd
        obtain ⟨hne, hdeclared⟩ := Declarations.eq_some_of_withholding hd
        exact ⟨hdeclared, h.others hne⟩
      obtain ⟨-, -, hmade'⟩ | ⟨hnot, -⟩ :=
        h.reachable'.traced.reply_change_cases (h.template ▸ hanswers) timer (c.withholding name)
      · exact h.toAgree.made (h.reachable.reply _) (h.reachable'.reply _) hmade hmade'
          fun _ _ hne => c.declares_withholding_of_ne hne
      · exact absurd haccepts' hnot
    · exact nomatch hgranted.symm.trans hrefused
  · rw [q.withholding_of_ne hother]
    exact h.toAgree.called fun m => (hcall m).2

theorem Apart.after (h : m.Apart name m') (hanswers : m.template.Answers)
    {qs : List (Request ω)} (hqs : ∀ q ∈ qs, q.isPlain = true) :
    (m.after qs).Apart name (m'.after ((m.granted qs).map (Request.withholding name))) := by
  induction qs generalizing m m' with
  | nil => exact h
  | cons q rest ih =>
      obtain ⟨hq, hrest⟩ := List.forall_mem_cons.1 hqs
      unfold granted
      split
      · next hrefused =>
          have hsame := eq_of_isRefusal hrefused
          show ((m.reply q).2.after rest).Apart name _
          rw [hsame]
          exact ih h hanswers hrest
      · next hgranted =>
          have hgranted' : (m.reply q).1.isRefusal = false := Bool.not_eq_true _ ▸ hgranted
          exact ih (h.reply hanswers hq hgranted') (template_reply hq m ▸ hanswers) hrest

/-! ## From the newcomer on -/

namespace Abreast

variable {rule : Rule ω}

/-- The same is carried over in both. -/
theorem carry_statusOf (h : m.Abreast name m') (d : Declaration ω) :
    (m'.current.statusOf name).map (fun s => s.carry d) =
      (m.current.statusOf name).map fun s => s.carry d := by
  cases hmember : m.membership.roster.get? name with
  | none =>
      have hfind := (h.reachable.traced.find?_eq_none_iff h.keepsOut).2 hmember
      have hfind' := (h.reachable'.traced.find?_eq_none_iff (h.template ▸ h.keepsOut)).2
        (h.member.trans hmember)
      rw [Selector.statusOf, Selector.statusOf, hfind, hfind']
  | some declared =>
      obtain ⟨r, hr, hstands⟩ := h.reachable.traced.exists_stands hmember
      obtain ⟨r', hr', hstands'⟩ := h.reachable'.traced.exists_stands (h.member.trans hmember)
      have hcurrent := h.weight
      rw [weightOf, weightOf, hr, hr', Option.map_some, Option.map_some, Option.some.injEq]
        at hcurrent
      have hmax : r'.status.maxWeight = r.status.maxWeight :=
        hstands'.maxWeight.trans hstands.maxWeight.symm
      have hweight : r'.status.current = r.status.current := hcurrent
      rw [Selector.statusOf, Selector.statusOf, hr, hr']
      simp only [Option.map_some, Option.some.injEq]
      unfold Status.carry
      rw [hmax, hweight]

/-- A newcomer, or a member that stays, starts at the same weight in both. -/
theorem weightOf_changed (h : m.Abreast name m') {next next' : Membership ω}
    (hchanged : m.Changed next n) (hchanged' : m'.Changed next' n')
    (hroster : next'.roster.get? name = next.roster.get? name) :
    n'.weightOf name = n.weightOf name := by
  unfold weightOf
  rw [hchanged.found, hchanged'.found, hroster, Option.map_map, Option.map_map]
  cases next.roster.get? name with
  | none => rfl
  | some d =>
      simp only [Option.map_some, Function.comp_apply, Option.some.injEq]
      unfold Resource.ofDeclaration
      simp only [Membership.maxWeight_declarationOf, Membership.minWeight_declarationOf,
        Membership.initialWeight_declarationOf, h.carry_statusOf]

omit [LawfulScalar ω] in
theorem get?_eq (h : m.Abreast name m') (other : String) :
    m'.membership.roster.get? other = m.membership.roster.get? other := by
  by_cases heq : other = name
  · rw [heq, h.member]
  · exact h.others heq

/-- A change is made in both, or in neither. -/
theorem reply_change (h : m.Abreast name m') (hanswers : m.template.Answers) (timer : Bool)
    (c : MembershipChange ω) :
    (m.reply (.change timer c)).2.Abreast name (m'.reply (.change timer c)).2 := by
  have hcases := h.reachable'.traced.reply_change_cases (h.template ▸ hanswers) timer c
  obtain ⟨haccepts, -, hmade⟩ | ⟨hnot, hrefused⟩ :=
    h.reachable.traced.reply_change_cases hanswers timer c
  · have haccepts' := h.toAgree.accepts (fun other _ hd => ⟨hd, h.get?_eq other⟩) haccepts
    obtain ⟨-, -, hmade'⟩ | ⟨hnot, -⟩ := hcases
    · have hagree := h.toAgree.made (h.reachable.reply _) (h.reachable'.reply _) hmade hmade'
        fun _ _ _ => rfl
      obtain ⟨next, hchanged, hnext⟩ := changed_declares hmade
      obtain ⟨next', hchanged', hnext'⟩ := changed_declares hmade'
      have hmember : next'.roster.get? name = next.roster.get? name := by
        rw [hnext, hnext']
        exact c.declares_congr h.member
      refine ⟨hagree, ?_, h.weightOf_changed hchanged hchanged' hmember, ?_⟩
      · rw [hchanged.membership, hchanged'.membership, hmember]
      · rw [streakOf, streakOf, hchanged.memory, hchanged'.memory]
        exact h.streak
    · exact absurd haccepts' hnot
  · obtain ⟨haccepts', -⟩ | ⟨-, hrefused'⟩ := hcases
    · exact absurd (h.toAgree.symm.accepts (fun other _ hd => ⟨hd, (h.get?_eq other).symm⟩)
        haccepts') hnot
    · rw [eq_of_isRefusal hrefused, eq_of_isRefusal hrefused']
      exact h

theorem reply (h : m.Abreast name m') (hpolicy : m.template.policy = some (.shipped rule))
    (hq : q.isPlain = true) : (m.reply q).2.Abreast name (m'.reply q).2 := by
  obtain ⟨timer, c, rfl⟩ | ⟨c, hc, -, hcall⟩ := reply_cases hq
  · exact h.reply_change (.of_shipped hpolicy) timer c
  · have hagree := h.toAgree.called fun m => (hcall m).2
    obtain ⟨hsystem, -, hmembership⟩ := hcall m
    obtain ⟨hsystem', -, hmembership'⟩ := hcall m'
    have hmember : (m'.reply q).2.membership.roster.get? name =
        (m.reply q).2.membership.roster.get? name := by
      rw [hmembership, hmembership', h.member]
    cases hd : m.membership.roster.get? name with
    | none =>
        have hd' := h.member.trans hd
        have hlacks : (m.reply q).2.Lacks name :=
          ⟨hagree.reachable, hagree.keepsOut, hmembership ▸ hd⟩
        have hlacks' : (m'.reply q).2.Lacks name :=
          ⟨hagree.reachable', hagree.symm.keepsOut, hmembership' ▸ hd'⟩
        refine ⟨hagree, hmember, ?_, ?_⟩
        · rw [hlacks.weightOf_eq_none, hlacks'.weightOf_eq_none]
        · rw [streakOf_reply h.reachable h.keepsOut hd hq,
            streakOf_reply h.reachable' h.toAgree.symm.keepsOut hd' hq, h.streak]
    | some d =>
        have hkeeps : m.Keeps rule name d := ⟨h.reachable, hpolicy, hd⟩
        have hkeeps' : m'.Keeps rule name d :=
          ⟨h.reachable', h.template ▸ hpolicy, h.member.trans hd⟩
        have hbefore : m'.system.standing name = m.system.standing name := by
          rw [standing_system, standing_system, h.weight, h.streak]
        have hafter := hkeeps.standing_call hkeeps' hbefore hc
        rw [← hsystem, ← hsystem'] at hafter
        obtain ⟨r, hr, -⟩ := hagree.reachable.traced.exists_stands (hmembership ▸ hd)
        obtain ⟨hweight, hstreak⟩ := eq_of_standing hafter hr
        exact ⟨hagree, hmember, hweight, hstreak⟩

theorem after (h : m.Abreast name m') (hpolicy : m.template.policy = some (.shipped rule))
    {qs : List (Request ω)} (hqs : ∀ q ∈ qs, q.isPlain = true) :
    (m.after qs).Abreast name (m'.after qs) := by
  induction qs generalizing m m' with
  | nil => exact h
  | cons q rest ih =>
      obtain ⟨hq, hrest⟩ := List.forall_mem_cons.1 hqs
      exact ih (h.reply hpolicy hq) (by rw [template_reply hq, hpolicy]) hrest

end Abreast

/-- The name has the same weight in both managers from here on, whatever is asked of them. -/
def SameWeights (name : String) (m m' : Manager ω) : Prop :=
  ∀ later : List (Request ω), (∀ q ∈ later, q.isPlain = true) →
    (m'.after later).weightOf name = (m.after later).weightOf name

/-- Where neither has such a member yet, it is enough that the same is counted. -/
theorem Apart.sameWeights (h : m.Apart name m') {rule : Rule ω}
    (hpolicy : m.template.policy = some (.shipped rule))
    (hgone : m.membership.roster.get? name = none) (hstreak : m'.streakOf name = m.streakOf name) :
    m.SameWeights name m' := by
  intro later hlater
  have hlacks : m.Lacks name := ⟨h.reachable, h.keepsOut, hgone⟩
  have habreast : m.Abreast name m' := by
    refine ⟨h.toAgree, h.lacks.absent.trans hgone.symm, ?_, hstreak⟩
    rw [hlacks.weightOf_eq_none, h.lacks.weightOf_eq_none]
  exact (habreast.after hpolicy hlater).weight

omit [Scalar ω] [LawfulScalar ω] in
@[simp] theorem streakOf_counting (name : String) (streak : Nat) (m : Manager ω) :
    (m.counting name streak).streakOf name = streak :=
  Tally.count_set_self _ name streak

omit [LawfulScalar ω] in
theorem Apart.counting (h : m.Apart name m') (streak : Nat) :
    m.Apart name (m'.counting name streak) := by
  have hreachable : (m'.counting name streak).Reachable :=
    h.reachable'.step (.others (m'.counting name streak).host)
  exact ⟨⟨h.reachable, hreachable, h.template, h.keepsOut, h.others⟩,
    ⟨hreachable, h.lacks.keepsOut, h.lacks.absent⟩⟩

/-! ## The two runs -/

omit [LawfulScalar ω] in
/-- A manager that has been created can be created without a resource of a name. -/
theorem exists_create_withholding {b : Builder ω} {resources : List (String × Declaration ω)}
    {grouping : Option (Grouping String)} {host : Host ω} {rank : String → Nat}
    (h : create b resources grouping host rank = .ok m) (hanswers : b.Answers)
    (hauto : b.settings.autoAddWeight = none) (name : String) :
    ∃ m', create (b.withholding name) (Declarations.withholding name resources) grouping host rank =
      .ok m' ∧ m.Apart name m' := by
  have hwithheld : (b.withholding name).resources ++ Declarations.withholding name resources =
      Declarations.withholding name (b.resources ++ resources) :=
    (List.filter_append b.resources resources).symm
  obtain ⟨hsettings, hdeclared⟩ := (exists_create_iff hanswers).1 ⟨m, h⟩
  obtain ⟨m', h'⟩ : ∃ m', create (b.withholding name) (Declarations.withholding name resources)
      grouping host rank = .ok m' := by
    refine (exists_create_iff (b := b.withholding name) hanswers).2
      ⟨hsettings, fun other d hd => ?_⟩
    rw [hwithheld] at hd
    exact hdeclared other d (Declarations.eq_some_of_withholding hd).2
  have htemplate := template_of_create h
  have htemplate' := template_of_create h'
  have hkept : m.template.settings.autoAddWeight = none := by
    rw [htemplate]
    exact hauto
  have hget (other : String) : m'.membership.roster.get? other =
      if other = name then none else m.membership.roster.get? other := by
    rw [(created_of_create h).get?_roster, (created_of_create h').get?_roster, hwithheld,
      Declarations.override_withholding]
    rfl
  have hsame : m'.template = m.template := by
    rw [htemplate, htemplate']
    rfl
  exact ⟨m', h', ⟨.created h, .created h', hsame, hkept, fun hne => (hget _).trans (if_neg hne)⟩,
    ⟨.created h', hsame ▸ hkept, (hget name).trans (if_pos rfl)⟩⟩

end Manager

/-- A resource that comes under the name of one that has left has the weights that it would have had
no resource of that name been there before, had the policy then counted for the name what it counts
now. So it has the same weights as in that run if nothing was left to count, which is always so
under a rule that does not count successes in a row.

In that run the changes that were refused are not asked for. Without the name they might be made. -/
theorem newcomer_weights {b : Builder Float} {resources : List (String × Declaration Float)}
    {grouping : Option (Grouping String)} {host : Host Float} {rank : String → Nat}
    {m : Manager Float} (hcreate : Manager.create b resources grouping host rank = .ok m)
    {rule : Rule Float}
    (hpolicy : m.template.policy = some (.shipped rule))
    (hauto : b.settings.autoAddWeight = none) {name : String} {before : List (Request Float)}
    (hbefore : ∀ q ∈ before, q.isPlain = true)
    (hgone : (m.after before).membership.roster.get? name = none) :
    ∃ m', Manager.create (b.withholding name) (Declarations.withholding name resources) grouping
        host rank = .ok m' ∧
      let spared := (m.granted before).map (Request.withholding name)
      let left := m.after before
      (∀ k, (m'.after (spared.take k)).current.find? name = none) ∧
      left.Apart name (m'.after spared) ∧
      left.SameWeights name ((m'.after spared).counting name (left.streakOf name)) ∧
      (left.streakOf name = host.memory.streaks.count name →
        left.SameWeights name (m'.after spared)) ∧
      (rule.counts = false → left.streakOf name = host.memory.streaks.count name) := by
  have hanswers : m.template.Answers := .of_shipped hpolicy
  have hanswers' : b.Answers := by
    rw [Manager.template_of_create hcreate] at hanswers
    exact hanswers
  obtain ⟨m', hcreate', hapart⟩ :=
    Manager.exists_create_withholding hcreate hanswers' hauto name
  have hgranted : ∀ q ∈ m.granted before, q.isPlain = true :=
    fun q hq => hbefore q (Manager.mem_of_mem_granted hq)
  have hafter := hapart.after hanswers hbefore
  have hlacks := hapart.lacks.after hgranted
  have hleft : (m.after before).template.policy = some (.shipped rule) := by
    rw [Manager.template_after hbefore, hpolicy]
  refine ⟨m', hcreate', fun k => ?_, hafter, ?_, fun hstreak => ?_, fun hcounts => ?_⟩
  · rw [← List.map_take]
    refine (hapart.lacks.after fun q hq => hgranted q ?_).1.find?_eq_none
    exact List.mem_of_mem_take hq
  · exact (hafter.counting _).sameWeights hleft hgone (by simp)
  · refine hafter.sameWeights hleft hgone ?_
    rw [hlacks.2, hstreak, Manager.streakOf_of_create hcreate']
  · rw [← Manager.streakOf_of_create hcreate name]
    exact Manager.streakOf_after_of_counts hapart.reachable hapart.keepsOut hpolicy hcounts hbefore

/-- A builder whose rule asks for two successes in a row. -/
def Builder.wary : Builder Float :=
  { (Builder.default : Builder Float) with
    settings :=
      { Settings.default with rule := .ratio { RatioRule.default with recoverThreshold := 2 } } }

/-- A declaration that starts at its minimum. -/
def Declaration.fallen : Declaration Float := ⟨100, 0, 0, some 0⟩

/-- A first success, and the resource leaves. -/
def Request.departure : List (Request Float) :=
  [.call (.report .success "a"), .change true (.update [] ["a"])]

/-- The resource is back, and has a success. -/
def Request.comeback : List (Request Float) :=
  [.change true (.update [("a", .fallen)] []), .call (.report .success "a")]

theorem newcomer_weights_wary : ∃ m m' : Manager Float,
    Manager.create Builder.wary [("a", .fallen), ("b", .ofWeight 100)] none { rng := ⟨0⟩ } = .ok m ∧
    (m.after Request.departure).streakOf "a" = 1 ∧
    (m'.after Request.departure).current.find? "a" = none ∧
    (m.after Request.departure).SameWeights "a"
      ((m'.after Request.departure).counting "a" 1) := by
  obtain ⟨m, hcreate, hpolicy, hgone, hstreak, hgranted⟩ : ∃ m : Manager Float,
      Manager.create Builder.wary [("a", .fallen), ("b", .ofWeight 100)] none { rng := ⟨0⟩ } =
        .ok m ∧
      m.template.policy = some (.shipped Builder.wary.settings.rule) ∧
      (m.after Request.departure).membership.roster.get? "a" = none ∧
      (m.after Request.departure).streakOf "a" = 1 ∧
      m.granted Request.departure = Request.departure :=
    ⟨_, rfl, rfl, rfl, rfl, rfl⟩
  obtain ⟨m', hcreate', hnever, -, hsame, -⟩ :=
    newcomer_weights hcreate hpolicy rfl (by decide) hgone
  rw [hgranted] at hnever hsame
  rw [hstreak] at hsame
  exact ⟨m, m', hcreate, hstreak, hnever 2, hsame⟩

/-- The success before the resource left and the one after it came back make two in a row. -/
theorem streak_outlives_removal : ∃ m m' : Manager Float,
    Manager.create Builder.wary [("a", .fallen), ("b", .ofWeight 100)] none { rng := ⟨0⟩ } = .ok m ∧
    Manager.create (Builder.wary.withholding "a")
      (Declarations.withholding "a" [("a", .fallen), ("b", .ofWeight 100)]) none { rng := ⟨0⟩ } =
        .ok m' ∧
    (m.after Request.departure).membership.roster.get? "a" = none ∧
    ((m.after Request.departure).after Request.comeback).weightOf "a" = some 10 ∧
    ((m'.after ((m.granted Request.departure).map (Request.withholding "a"))).after
      Request.comeback).weightOf "a" = some 0 := by
  refine ⟨_, _, rfl, rfl, rfl, ?_, ?_⟩
  · decide +kernel
  · decide +kernel

end ResourceSelection
