import ResourceSelection.Proofs.Arithmetic
import ResourceSelection.Proofs.Commuting

/-!
# Check passes

A check pass deals with one resource after the other, in an order that nobody promises. What it does
to one of them is what a pass over that one alone would do: the resources before it leave it alone,
whether or not supplied code has crashed for them, and so do those after it (`view_checkEach`,
`count_checkEach`). Two orders of the same names differ by exchanges of neighbours, and an exchange of
neighbours is a matter of two dealings (`System.deal_comm`). A policy that crashes when it is asked
whether it wants a resource probed is, to a pass, one that does not want that: nothing but the
question has happened to the resource by then.

Under a shipped rule the resources that are probed are the failed ones, and what a pass counts are
their probes. That is read off the selector as the pass begins. It could not be read off later, since
a probe may end a failure, but then of its own resource only.
-/

namespace ResourceSelection

variable {ω : Type} [Scalar ω]

namespace System

variable {s t : System ω} {name : String} {p : Probe ω} {order order' : List String}

/-- Whether the policy wants a resource of that name probed. -/
def wants (s : System ω) (name : String) : Bool :=
  (s.selector.find? name).any fun r =>
    decide (s.selector.policy.needsCheck r.context (s.host.asked.count name) = .done true)

theorem wants_eq (h : s.selector.Layout) {r : Resource ω} (hr : s.selector.find? name = some r)
    (p : Probe ω) : s.wants name = (Dealing.probe p).concerns r s := by
  unfold wants
  rw [hr, ← h.name_of_find? hr]
  rfl

/-- A shipped rule wants the failed ones. -/
theorem wants_of_shipped {rule : Rule ω} (hpolicy : s.selector.policy = .shipped rule)
    (name : String) : s.wants name = (s.selector.find? name).any fun r => r.isFailed := by
  unfold wants
  rw [hpolicy]
  cases s.selector.find? name with
  | none => rfl
  | some r =>
      have hanswer : (Policy.shipped rule).needsCheck r.context (s.host.asked.count name) =
        .done r.isFailed := rfl
      simp [hanswer]

/-- All names of the list are known. -/
def Knows (order : List String) (s : System ω) : Prop :=
  ∀ name ∈ order, ∃ r, s.selector.find? name = some r

theorem checkEach_cons (p : Probe ω) (name : String) (rest : List String) (s : System ω) :
    s.checkEach p (name :: rest) =
      ((if (s.checkResource p name).1 = .done true then
          ((s.deal (.probe p) name).2.checkEach p rest).1 + 1
        else ((s.deal (.probe p) name).2.checkEach p rest).1),
        ((s.deal (.probe p) name).2.checkEach p rest).2) := rfl

variable [LawfulScalar ω]

/-- The outcome of a check, with whether it came to a probe. -/
theorem checkResource_fst (h : s.selector.Layout) {r : Resource ω}
    (hr : s.selector.find? name = some r) (p : Probe ω) :
    (s.checkResource p name).1 = (Dealing.probe p).ends r s := by
  obtain ⟨place, hentry⟩ := h.find?_eq_some_iff_entry?.1 hr
  have hends := (deal_spec h hr (.probe p)).1
  obtain ⟨hanswer, heq⟩ | ⟨hanswer, heq⟩ | ⟨hanswer, heq⟩ := checkResource_cases hentry p
  · have hspared : (Dealing.probe p).concerns r s = false :=
      decide_eq_false fun hwanted => nomatch hanswer.symm.trans hwanted
    rw [heq, Dealing.ends_of_spared hspared]
    exact hanswer.symm
  · have hspared : (Dealing.probe p).concerns r s = false :=
      decide_eq_false fun hwanted => nomatch hanswer.symm.trans hwanted
    rw [heq, Dealing.ends_of_spared hspared]
    exact hanswer.symm
  · -- both say that there was a probe, unless something crashed
    have hconcerns : (Dealing.probe p).concerns r s = true := decide_eq_true hanswer
    unfold deal Dealing.ends at hends
    unfold Dealing.ends
    simp only [heq, hconcerns, if_true, Outcome.map_unit] at hends ⊢
    rw [hends]
    split
    · cases (Dealing.probe p).needs r s with
      | done needed => rfl
      | crashed => rfl
    · rfl

omit [LawfulScalar ω] in
/-- A name that is known stays known. -/
theorem Knows.deal (hknown : s.Knows order) (h : s.selector.Layout) {r : Resource ω}
    (hr : s.selector.find? name = some r) (d : Dealing ω) : (s.deal d name).2.Knows order := by
  intro other hother
  rw [find?_deal h hr]
  split
  · exact ⟨_, rfl⟩
  · exact hknown other hother

omit [LawfulScalar ω] in
theorem Discreet.deal (hdiscreet : s.Discreet) (d : Dealing ω) (name : String) :
    (s.deal d name).2.Discreet := by
  intro l hl
  exact hdiscreet l ((listener_deal d name s).symm.trans hl)

/-! ## A pass, resource by resource -/

section

variable (p)

theorem view_checkEach (h : s.selector.Ready) (hdiscreet : s.Discreet) (hnodup : order.Nodup)
    (hknown : s.Knows order) (name : String) : (s.checkEach p order).2.view name =
      if name ∈ order then (s.deal (.probe p) name).2.view name else s.view name := by
  induction order generalizing s with
  | nil => rfl
  | cons first rest ih =>
      obtain ⟨hfirst, hrest⟩ := List.nodup_cons.1 hnodup
      obtain ⟨⟨r, hr⟩, hknown⟩ := List.forall_mem_cons.1 hknown
      have hready := ready_deal h hr (.probe p)
      rw [checkEach_cons, ih hready (hdiscreet.deal _ _) hrest (Knows.deal hknown h.layout hr _)]
      by_cases heq : name = first
      · subst heq
        rw [if_neg hfirst, if_pos List.mem_cons_self]
      · have hregards := regards_deal h.layout hr (.probe p) heq
        by_cases hmem : name ∈ rest
        · obtain ⟨q, hq⟩ := hknown name hmem
          rw [if_pos hmem, if_pos (List.mem_cons_of_mem first hmem),
            hregards.view_deal h.layout hready.layout hdiscreet hq]
        · rw [if_neg hmem, if_neg (by simp [heq, hmem]), hregards.view]

/-- A pass answers how many resources were probed without a crash. -/
theorem count_checkEach (h : s.selector.Ready) (hdiscreet : s.Discreet) (hnodup : order.Nodup)
    (hknown : s.Knows order) : (s.checkEach p order).1 =
      order.countP fun name => decide ((s.checkResource p name).1 = .done true) := by
  induction order generalizing s with
  | nil => rfl
  | cons first rest ih =>
      obtain ⟨hfirst, hrest⟩ := List.nodup_cons.1 hnodup
      obtain ⟨⟨r, hr⟩, hknown⟩ := List.forall_mem_cons.1 hknown
      have hready := ready_deal h hr (.probe p)
      have hsame : ∀ name ∈ rest, ((s.deal (.probe p) first).2.checkResource p name).1 =
          (s.checkResource p name).1 := by
        intro name hname
        obtain ⟨q, hq⟩ := hknown name hname
        have hne : name ≠ first := fun heq => hfirst (heq ▸ hname)
        have hregards := regards_deal h.layout hr (.probe p) hne
        have hqname := h.layout.name_of_find? hq
        subst hqname
        rw [checkResource_fst hready.layout (hregards.find?.trans hq) p,
          checkResource_fst h.layout hq p, Dealing.ends_congr hregards hdiscreet]
      have hcount : (rest.countP fun name =>
          decide (((s.deal (.probe p) first).2.checkResource p name).1 = .done true)) =
          rest.countP fun name => decide ((s.checkResource p name).1 = .done true) :=
        List.countP_congr fun name hname => by rw [hsame name hname]
      rw [checkEach_cons, List.countP_cons,
        ih hready (hdiscreet.deal _ _) hrest (Knows.deal hknown h.layout hr _), hcount]
      by_cases hdone : (s.checkResource p first).1 = .done true
      · simp [hdone]
      · simp [hdone]

/-- What it counts is told by the state in which it begins. -/
theorem counters_checkEach (h : s.selector.Ready) (hnodup : order.Nodup) (hknown : s.Knows order) :
    (s.checkEach p order).2.selector.counters =
      { s.selector.counters with
        probes := s.selector.counters.probes + .ofNat (order.countP s.wants)
        probeFailures := s.selector.counters.probeFailures + .ofNat (order.countP fun name =>
          s.wants name && !decide (0 < p.rateOf name s.host)) } := by
  induction order generalizing s with
  | nil => simp [checkEach]
  | cons first rest ih =>
      obtain ⟨hfirst, hrest⟩ := List.nodup_cons.1 hnodup
      obtain ⟨⟨r, hr⟩, hknown⟩ := List.forall_mem_cons.1 hknown
      have hready := ready_deal h hr (.probe p)
      have hregards : ∀ name ∈ rest, s.Regards name (s.deal (.probe p) first).2 := by
        intro name hname
        exact regards_deal h.layout hr (.probe p) fun heq => hfirst (heq ▸ hname)
      have hwants : ∀ name ∈ rest, (s.deal (.probe p) first).2.wants name = s.wants name := by
        intro name hname
        unfold wants
        rw [(hregards name hname).find?, (hregards name hname).policy,
          show (s.deal (.probe p) first).2.host.asked.count name = s.host.asked.count name from
            congrArg View.asked (hregards name hname).view]
      have hrate : ∀ name ∈ rest, p.rateOf name (s.deal (.probe p) first).2.host =
          p.rateOf name s.host := by
        intro name hname
        unfold Probe.rateOf
        rw [show (s.deal (.probe p) first).2.host.probed.count name = s.host.probed.count name from
          congrArg View.probed (hregards name hname).view]
      have hprobes : rest.countP (s.deal (.probe p) first).2.wants = rest.countP s.wants :=
        List.countP_congr fun name hname => by rw [hwants name hname]
      have hfailures : (rest.countP fun name => (s.deal (.probe p) first).2.wants name &&
          !decide (0 < p.rateOf name (s.deal (.probe p) first).2.host)) =
          rest.countP fun name => s.wants name && !decide (0 < p.rateOf name s.host) :=
        List.countP_congr fun name hname => by rw [hwants name hname, hrate name hname]
      have htally : (s.deal (.probe p) first).2.selector.counters =
          (Dealing.probe p).tally r s s.selector.counters := (deal_made h.layout hr _).counters
      rw [checkEach_cons, ih hready hrest (Knows.deal hknown h.layout hr _), hprobes, hfailures,
        htally, List.countP_cons, List.countP_cons]
      unfold Dealing.tally
      rw [wants_eq h.layout hr p, h.layout.name_of_find? hr]
      cases (Dealing.probe p).concerns r s with
      | false => simp
      | true =>
          by_cases hpos : 0 < p.rateOf first s.host
          · simp [hpos, UInt64.ofNat_add, UInt64.add_assoc, UInt64.add_comm]
          · simp [hpos, UInt64.ofNat_add, UInt64.add_assoc, UInt64.add_comm]

/-! ## Orders -/

/-- What cannot be told apart cannot be told apart after a pass. -/
theorem alike_checkEach (halike : s.Alike t) (h : s.selector.Ready) (hdiscreet : s.Discreet)
    (hknown : s.Knows order) : (s.checkEach p order).2.Alike (t.checkEach p order).2 := by
  induction order generalizing s t with
  | nil => exact halike
  | cons first rest ih =>
      obtain ⟨⟨r, hr⟩, hknown⟩ := List.forall_mem_cons.1 hknown
      have hdeal := (halike.deal h hdiscreet hr (.probe p)).2
      exact ih hdeal (ready_deal h hr (.probe p)) (hdiscreet.deal (.probe p) first)
        (Knows.deal hknown h.layout hr (.probe p))

/-- Orders differ by exchanges of neighbours, and neighbours commute. -/
theorem checkEach_perm (hperm : order.Perm order') (h : s.selector.Ready) (hdiscreet : s.Discreet)
    (hnodup : order.Nodup) (hknown : s.Knows order) :
    (s.checkEach p order).2.Alike (s.checkEach p order').2 := by
  induction hperm generalizing s with
  | nil => exact .refl s
  | cons first _ ih =>
      obtain ⟨-, hrest⟩ := List.nodup_cons.1 hnodup
      obtain ⟨⟨r, hr⟩, hknown⟩ := List.forall_mem_cons.1 hknown
      exact ih (ready_deal h hr (.probe p)) (hdiscreet.deal (.probe p) first) hrest
        (Knows.deal hknown h.layout hr (.probe p))
  | swap first second rest =>
      obtain ⟨hsecond, -⟩ := List.nodup_cons.1 hnodup
      have hne : second ≠ first := fun heq => hsecond (heq ▸ List.mem_cons_self)
      obtain ⟨⟨q, hq⟩, hknown⟩ := List.forall_mem_cons.1 hknown
      obtain ⟨⟨r, hr⟩, hknown⟩ := List.forall_mem_cons.1 hknown
      have hregards := regards_deal h.layout hq (.probe p) hne.symm
      have hready := ready_deal h hq (.probe p)
      have hr' := hregards.find?.trans hr
      obtain ⟨-, -, halike⟩ := deal_comm h hdiscreet hne hq hr (.probe p) (.probe p)
      exact alike_checkEach p halike (ready_deal hready hr' _) ((hdiscreet.deal _ _).deal _ _)
        (Knows.deal (Knows.deal hknown h.layout hq _) hready.layout hr' _)
  | trans hfirst _ ih ih' =>
      refine (ih h hdiscreet hnodup hknown).trans (ih' h hdiscreet (hfirst.nodup_iff.1 hnodup) ?_)
      exact fun name hname => hknown name (hfirst.mem_iff.2 hname)

end

/-! ## Shipped rules -/

omit [LawfulScalar ω] in
/-- Under a shipped rule the failed resources are to be probed. -/
theorem failedResources_eq (h : s.selector.Layout) {rule : Rule ω}
    (hpolicy : s.selector.policy = .shipped rule) :
    s.selector.failedResources = s.selector.allResources.filter s.wants := by
  have hwants (name : String) : s.wants name = (s.selector.statusOf name).any fun status =>
      status.current ≤ status.minWeight && decide (status.current < status.maxWeight) := by
    rw [wants_of_shipped hpolicy, Selector.statusOf]
    cases s.selector.find? name with
    | none => rfl
    | some r => rfl
  rw [show s.wants = _ from funext hwants]
  exact h.filter_resources fun _ => rfl

omit [LawfulScalar ω] in
theorem mem_failedResources (h : s.selector.Layout) {rule : Rule ω}
    (hpolicy : s.selector.policy = .shipped rule) :
    name ∈ s.selector.failedResources ↔ s.wants name = true := by
  rw [failedResources_eq h hpolicy, List.mem_filter, h.mem_allResources, Selector.statusOf,
    Option.isSome_map, and_iff_right_iff_imp]
  intro hwants
  unfold wants at hwants
  cases hr : s.selector.find? name with
  | none =>
      rw [hr] at hwants
      exact absurd hwants Bool.false_ne_true
  | some r => rfl

/-- A resource between its bounds has failed if its health is down. -/
theorem isFailed_iff {r : Resource ω} (hwithin : r.Within) :
    r.isFailed = true ↔ r.status.health = .down := by
  obtain ⟨-, hmax⟩ := hwithin
  have hlt : r.current < r.maxWeight ↔ ¬ r.maxWeight ≤ r.current := by
    constructor
    · intro hlt hle
      exact Scalar.not_lt_of_le hle hlt
    · intro hnot
      by_contra hge
      exact hnot (Scalar.le_of_not_lt (Scalar.isNaN_right hmax) (Scalar.isNaN_left hmax) hge)
  have hfailed : r.isFailed = true ↔ r.current ≤ r.minWeight ∧ r.current < r.maxWeight := by
    show (decide (r.current ≤ r.minWeight) && decide (r.current < r.maxWeight)) = true ↔ _
    rw [Bool.and_eq_true, decide_eq_true_iff, decide_eq_true_iff]
  rw [hfailed, hlt]
  unfold Status.health
  by_cases hhealthy : r.maxWeight ≤ r.current
  · simp [Resource.status, hhealthy]
  · by_cases hdown : r.current ≤ r.minWeight
    · simp [Resource.status, hhealthy, hdown]
    · simp [Resource.status, hhealthy, hdown]

omit [Scalar ω] [LawfulScalar ω] in
theorem knows_of_perm (h : s.selector.Layout) (horder : order.Perm s.selector.allResources) :
    s.Knows order := by
  intro name hname
  have hlisted := h.mem_allResources.1 (horder.mem_iff.1 hname)
  rw [Selector.statusOf, Option.isSome_map] at hlisted
  exact Option.isSome_iff_exists.1 hlisted

/-- A resource that has not failed is left alone by a pass, and one that has failed is probed
once. -/
theorem view_checkEach_shipped (p : Probe ω) (h : s.selector.Ready) (hdiscreet : s.Discreet)
    (hnodup : order.Nodup) (hknown : s.Knows order)
    (horder : order.Perm s.selector.allResources) {rule : Rule ω}
    (hpolicy : s.selector.policy = .shipped rule) (name : String) :
    (name ∉ s.selector.failedResources →
      ((s.checkEach p order).2.view name).resource = (s.view name).resource) ∧
      ((s.checkEach p order).2.view name).probed =
        (s.view name).probed + if name ∈ s.selector.failedResources then 1 else 0 := by
  rw [view_checkEach p h hdiscreet hnodup hknown]
  by_cases hmem : name ∈ order
  · obtain ⟨r, hr⟩ := hknown name hmem
    obtain ⟨place, hentry⟩ := h.layout.find?_eq_some_iff_entry?.1 hr
    have hfailed : name ∈ s.selector.failedResources ↔
        (Dealing.probe p).concerns r s = true := by
      rw [mem_failedResources h.layout hpolicy, wants_eq h.layout hr p]
    rw [if_pos hmem]
    cases hconcerns : (Dealing.probe p).concerns r s with
    | false =>
        have hnot : name ∉ s.selector.failedResources := by
          rw [hfailed, hconcerns]
          exact Bool.false_ne_true
        rw [deal_of_spared hentry hconcerns, if_neg hnot]
        exact ⟨fun _ => rfl, rfl⟩
    | true =>
        have hyes : name ∈ s.selector.failedResources := hfailed.2 hconcerns
        have hname := h.layout.name_of_find? hr
        subst hname
        refine ⟨fun hnot => absurd hyes hnot, ?_⟩
        rw [(deal_made h.layout hr _).view_self, if_pos hyes]
        exact congrArg _ (if_pos hconcerns)
  · have hnot : name ∉ s.selector.failedResources := by
      intro hfailed
      rw [failedResources_eq h.layout hpolicy] at hfailed
      exact hmem (horder.mem_iff.2 (List.mem_of_mem_filter hfailed))
    rw [if_neg hmem, if_neg hnot]
    exact ⟨fun _ => rfl, rfl⟩

end System

/-! ## Passes of reachable systems -/

/-- A shipped rule wants those resources probed that are down. -/
theorem System.wants_iff [LawfulScalar ω] {b : Builder ω} {s : System ω} (h : b.Reaches s)
    {rule : Rule ω} (hpolicy : s.selector.policy = .shipped rule) (name : String) :
    s.wants name = true ↔
      ∃ status, s.selector.statusOf name = some status ∧ status.health = .down := by
  rw [wants_of_shipped hpolicy, Selector.statusOf]
  cases hr : s.selector.find? name with
  | none => simp
  | some r =>
      have hwithin := h.bounded.within (h.layout.mem_of_find? hr).1
      simp [isFailed_iff hwithin]

theorem ProbeReply.rate_nonneg (reply : ProbeReply Float) : 0 ≤ reply.rate := by
  have hzero : (0 : Float) ≤ 0 := Scalar.le_refl LawfulScalar.isNaN_zero
  cases reply with
  | error => exact hzero
  | crash => exact hzero
  | answer a =>
      unfold rate
      simp only
      split
      · next hfinite =>
          unfold Scalar.clampUnit
          split
          · exact hzero
          · next hnonneg =>
              split
              · exact Binary64.zero_le_one
              · exact Scalar.le_of_not_lt LawfulScalar.isNaN_zero
                  (LawfulScalar.isNaN_of_isFinite hfinite) hnonneg
      · exact hzero

/-- A rate that is not positive is zero. -/
theorem ProbeReply.rate_beq_zero (reply : ProbeReply Float) :
    (reply.rate == 0) = !decide (0 < reply.rate) := by
  have hnonneg := reply.rate_nonneg
  by_cases hpos : 0 < reply.rate
  · have hnot : ¬ (reply.rate == 0) = true := by
      intro heq
      exact Scalar.not_lt_of_le (Binary64.beq_iff.1 heq).1 hpos
    simp [hpos, hnot]
  · have hle : reply.rate ≤ 0 :=
      Scalar.le_of_not_lt (Scalar.isNaN_right hnonneg) LawfulScalar.isNaN_zero hpos
    rw [Binary64.beq_iff.2 ⟨hle, hnonneg⟩]
    simp [hpos]

/-- What a pass under a shipped rule has done to a system. -/
structure System.Passed (p : Probe Float) (s t : System Float) : Prop where
  /-- Each failed resource was probed once, and no other one. -/
  probed (name : String) : t.host.probed.count name =
    s.host.probed.count name + if name ∈ s.selector.failedResources then 1 else 0
  /-- These are the resources that are down. -/
  down (name : String) : name ∈ s.selector.failedResources ↔
    ∃ status, s.selector.statusOf name = some status ∧ status.health = .down
  /-- The others are as they were. -/
  spared {name : String} : name ∉ s.selector.failedResources →
    t.selector.find? name = s.selector.find? name
  probes : t.selector.counters.probes =
    s.selector.counters.probes + .ofNat s.selector.failedResources.length
  probeFailures : t.selector.counters.probeFailures = s.selector.counters.probeFailures +
    .ofNat (s.selector.failedResources.countP fun name => p.rateOf name s.host == 0)

/-- A pass comes to the same in any order, and does to each resource what a pass over that resource
alone would do, whatever crashes for others. -/
theorem pass_in_any_order {b : Builder Float} {s : System Float} (h : b.Reaches s)
    (hlistener : ∀ l, b.listener = some l → l.Local) {order order' : List String}
    (horder : order.Perm s.selector.allResources)
    (horder' : order'.Perm s.selector.allResources) :
    (s.checkIn order).1 = (s.checkIn order').1 ∧
    (s.checkIn order).2.Alike (s.checkIn order').2 ∧
    (s.checkIn order).1 = (order.countP fun name => (s.checkIn [name]).1 = 1) ∧
    (∀ name ∈ order, (s.checkIn order).2.view name = (s.checkIn [name]).2.view name) ∧
    ∀ rule p, s.selector.policy = .shipped rule → s.selector.probe = some p →
      s.Passed p (s.checkIn order).2 := by
  have hready := h.ready
  have hdiscreet := h.discreet hlistener
  have hnodup := horder.nodup_iff.2 hready.layout.nodup_allResources
  have hknown := System.knows_of_perm hready.layout horder
  have hperm := horder.trans horder'.symm
  have hnodup' := hperm.nodup_iff.1 hnodup
  have hknown' := System.knows_of_perm hready.layout horder'
  unfold System.checkIn
  cases hprobe : s.selector.probe with
  | none => exact ⟨rfl, .refl s, by simp, fun name _ => rfl, nofun⟩
  | some p =>
      have hcount := System.count_checkEach p hready hdiscreet hnodup hknown
      refine ⟨?_, System.checkEach_perm p hperm hready hdiscreet hnodup hknown, ?_, ?_, ?_⟩
      · exact (hcount.trans (hperm.countP_eq _)).trans
          (System.count_checkEach p hready hdiscreet hnodup' hknown').symm
      · refine hcount.trans (List.countP_congr fun name _ => ?_)
        by_cases hdone : (s.checkResource p name).1 = .done true
        · simp [System.checkEach, hdone]
        · simp [System.checkEach, hdone]
      · intro name hname
        simp only
        rw [System.view_checkEach p hready hdiscreet hnodup hknown, if_pos hname]
        rfl
      · intro rule q hpolicy hq
        obtain rfl := Option.some.inj hq
        have hviews :=
          System.view_checkEach_shipped p hready hdiscreet hnodup hknown horder hpolicy
        have hcounters := System.counters_checkEach p hready hnodup hknown
        have hfailed := System.failedResources_eq hready.layout hpolicy
        refine ⟨fun name => (hviews name).2, fun name => ?_,
          fun hspared => (hviews _).1 hspared, ?_, ?_⟩
        · rw [System.mem_failedResources hready.layout hpolicy]
          exact System.wants_iff h hpolicy name
        · refine (congrArg Counters.probes hcounters).trans ?_
          simp only
          rw [hfailed, ← List.countP_eq_length_filter, horder.countP_eq]
        · refine (congrArg Counters.probeFailures hcounters).trans ?_
          simp only
          rw [hfailed, List.countP_filter, horder.countP_eq]
          refine congrArg (_ + UInt64.ofNat ·) (List.countP_congr fun name _ => ?_)
          unfold Probe.rateOf
          rw [ProbeReply.rate_beq_zero, Bool.and_comm]
          exact Iff.rfl

/-- Two resources that are down, and a listener that crashes whenever it is told of the first. -/
def Builder.fragile : Builder Float where
  settings := .default
  resources := [("a", ⟨100, 0, 0, some 0⟩), ("b", ⟨100, 0, 0, some 0⟩)]
  policy := none
  listener := some ⟨fun _ c => c.resource = "a"⟩
  probe := some ⟨fun _ _ => .answer 1⟩
  runsByHand := true

theorem pass_in_any_order_fragile : ∃ s p, Builder.fragile.Reaches s ∧
    (s.checkIn s.selector.allResources).2.Alike
      (s.checkIn s.selector.allResources.reverse).2 ∧
    "a" ∈ s.selector.failedResources ∧ "b" ∈ s.selector.allResources ∧
    (s.checkIn s.selector.allResources).2.view "b" = (s.checkIn ["b"]).2.view "b" ∧
    s.Passed p (s.checkIn s.selector.allResources).2 := by
  obtain ⟨s, hbuild⟩ :=
    Builder.exists_build (b := Builder.fragile) rfl (.of_none rfl) 0 { rng := ⟨0⟩ }
  have h := Builder.Reaches.built hbuild
  have hfind := Builder.find?_of_build hbuild
  have hlocal : ∀ l, Builder.fragile.listener = some l → l.Local := by
    intro l hl
    obtain rfl := Option.some.inj hl
    exact fun _ _ _ _ => rfl
  obtain ⟨hpolicy, -, hprobe⟩ := h.supplied
  obtain ⟨-, halike, -, halone, hpassed⟩ := pass_in_any_order h hlocal
    (List.Perm.refl s.selector.allResources) (List.reverse_perm s.selector.allResources)
  have hdone := hpassed _ _ hpolicy hprobe
  have hb : "b" ∈ s.selector.allResources := by
    rw [h.layout.mem_allResources, Selector.statusOf, hfind]
    rfl
  have ha : "a" ∈ s.selector.failedResources := by
    rw [hdone.down, Selector.statusOf, hfind]
    exact ⟨_, rfl, by decide +kernel⟩
  exact ⟨s, _, h, halike, ha, hb, halone "b" hb, hdone⟩

end ResourceSelection
