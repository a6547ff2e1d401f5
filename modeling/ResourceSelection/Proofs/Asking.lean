import ResourceSelection.Proofs.Ranking
import ResourceSelection.Selector.Build
import ResourceSelection.Selector.Check

/-!
# Asking whether a check is needed

A policy is asked whether a resource is to be probed in three places: when a selector is built, when
a weight has been moved, and when a check pass comes to the resource. A question changes nothing but
how often the policy was asked (`System.asking`). The answer may be a crash, if the policy is
supplied. One that never crashes on such a question is `Policy.Answers`.
-/

namespace ResourceSelection

variable {ω : Type} [Scalar ω]

/-- Whether the policy always says if a resource is to be probed. -/
def Policy.Answers (p : Policy ω) : Prop := ∀ c earlier, p.needsCheck c earlier ≠ .crashed

theorem Policy.answers_shipped (rule : Rule ω) : (shipped rule).Answers := nofun

namespace System

omit [Scalar ω] in
/-- The system once the policy was asked as often as told. -/
def asking (asked : Tally) (s : System ω) : System ω := { s with host := { s.host with asked } }

theorem askNeed_eq (r : Resource ω) (weight : ω) (s : System ω) :
    s.askNeed r weight =
      (s.selector.policy.needsCheck (r.contextAt weight) (s.host.asked.count r.name),
        s.asking (s.host.asked.bump r.name)) := rfl

/-- A question after a move is answered with a crash, with no, or with yes. -/
theorem checkIfNeeded_cases (r : Resource ω) (weight : ω) (s : System ω) :
    let answer := s.selector.policy.needsCheck (r.contextAt weight) (s.host.asked.count r.name)
    let t := s.asking (s.host.asked.bump r.name)
    (answer = .crashed ∧ s.checkIfNeeded r weight = (.crashed, t)) ∨
      (answer = .done false ∧ s.checkIfNeeded r weight = (.done (), t)) ∨
      (answer = .done true ∧ s.checkIfNeeded r weight = (.done (), t.ensureChecker)) := by
  unfold checkIfNeeded
  rw [askNeed_eq]
  cases s.selector.policy.needsCheck (r.contextAt weight) (s.host.asked.count r.name) with
  | crashed => exact .inl ⟨rfl, rfl⟩
  | done needed =>
      cases needed with
      | false => exact .inr (.inl ⟨rfl, rfl⟩)
      | true => exact .inr (.inr ⟨rfl, rfl⟩)

theorem checkIfNeeded_snd (r : Resource ω) (weight : ω) (s : System ω) : ∃ asked,
    (s.checkIfNeeded r weight).2 = s.asking asked ∨
      (s.checkIfNeeded r weight).2 = (s.asking asked).ensureChecker := by
  refine ⟨s.host.asked.bump r.name, ?_⟩
  obtain ⟨-, heq⟩ | ⟨-, heq⟩ | ⟨-, heq⟩ := s.checkIfNeeded_cases r weight
  · exact .inl (congrArg Prod.snd heq)
  · exact .inl (congrArg Prod.snd heq)
  · exact .inr (congrArg Prod.snd heq)

/-- So is a question in a check pass, and the resource is probed if the answer is yes. -/
theorem checkResource_cases {s : System ω} {name : String} {place : Nat} {r : Resource ω}
    (hentry : s.selector.entry? name = some (place, r)) (probe : Probe ω) :
    let answer := s.selector.policy.needsCheck r.context (s.host.asked.count r.name)
    let t := s.asking (s.host.asked.bump r.name)
    (answer = .crashed ∧ s.checkResource probe name = (.crashed, t)) ∨
      (answer = .done false ∧ s.checkResource probe name = (.done false, t)) ∨
      (answer = .done true ∧ s.checkResource probe name =
        ((t.probeResource probe name place r).1.map fun _ => true,
          (t.probeResource probe name place r).2)) := by
  have hanswer : s.selector.policy.needsCheck (r.contextAt r.current)
    (s.host.asked.count r.name) = s.selector.policy.needsCheck r.context _ := rfl
  unfold checkResource
  simp only [hentry]
  rw [askNeed_eq, hanswer]
  cases s.selector.policy.needsCheck r.context (s.host.asked.count r.name) with
  | crashed => exact .inl ⟨rfl, rfl⟩
  | done needed =>
      cases needed with
      | false => exact .inr (.inl ⟨rfl, rfl⟩)
      | true => exact .inr (.inr ⟨rfl, rfl⟩)

/-- A check pass asks about a resource, if it is there, and may go on to probe it. -/
theorem checkResource_snd (probe : Probe ω) (name : String) (s : System ω) : ∃ asked,
    (s.checkResource probe name).2 = s.asking asked ∨
      ∃ place r, s.selector.entry? name = some (place, r) ∧
        (s.checkResource probe name).2 = ((s.asking asked).probeResource probe name place r).2 := by
  cases hentry : s.selector.entry? name with
  | none =>
      unfold checkResource
      rw [hentry]
      exact ⟨s.host.asked, .inl rfl⟩
  | some entry =>
      refine ⟨s.host.asked.bump entry.2.name, ?_⟩
      obtain ⟨-, heq⟩ | ⟨-, heq⟩ | ⟨-, heq⟩ := checkResource_cases hentry probe
      · exact .inl (congrArg Prod.snd heq)
      · exact .inl (congrArg Prod.snd heq)
      · exact .inr ⟨entry.1, entry.2, rfl, congrArg Prod.snd heq⟩

end System

omit [Scalar ω] in
/-- All that is left of a selector that was not built is questions that were asked. -/
theorem BuildFailure.leave_eq (host : Host ω) (failure : BuildFailure ω) :
    ∃ asked, failure.leave host = { host with asked } := by
  cases failure with
  | invalid fault => exact ⟨host.asked, rfl⟩
  | crashed asked => exact ⟨asked, rfl⟩

/-- Questions in turn go on until one is answered with yes or with a crash. -/
theorem System.askAny_cases (rs : List (Resource ω)) (s : System ω) : ∃ asked,
    (s.askAny rs = (.crashed, s.asking asked) ∧
      ∃ r ∈ rs, ∃ earlier, s.selector.policy.needsCheck r.context earlier = .crashed) ∨
    s.askAny rs = (.done true, s.asking asked) ∨
    (s.askAny rs = (.done false, s.asking asked) ∧
      ∀ r ∈ rs, ∃ earlier, s.selector.policy.needsCheck r.context earlier = .done false) := by
  induction rs generalizing s with
  | nil => exact ⟨s.host.asked, .inr (.inr ⟨rfl, nofun⟩)⟩
  | cons r rest ih =>
      have hanswer : s.selector.policy.needsCheck (r.contextAt r.current)
        (s.host.asked.count r.name) = s.selector.policy.needsCheck r.context _ := rfl
      unfold askAny
      rw [askNeed_eq, hanswer]
      cases hdone : s.selector.policy.needsCheck r.context (s.host.asked.count r.name) with
      | crashed => exact ⟨_, .inl ⟨rfl, r, List.mem_cons_self, _, hdone⟩⟩
      | done needed =>
          cases needed with
          | true => exact ⟨_, .inr (.inl rfl)⟩
          | false =>
              obtain ⟨asked, ⟨heq, q, hq, hcrashed⟩ | heq | ⟨heq, hnone⟩⟩ :=
                ih (s.asking (s.host.asked.bump r.name))
              · exact ⟨asked, .inl ⟨heq, q, List.mem_cons_of_mem r hq, hcrashed⟩⟩
              · exact ⟨asked, .inr (.inl heq)⟩
              · exact ⟨asked, .inr (.inr ⟨heq, List.forall_mem_cons.2 ⟨⟨_, hdone⟩, hnone⟩⟩)⟩

namespace Builder

/-- Whether the policy always says if a resource is to be probed. -/
def Answers (b : Builder ω) : Prop := (b.policy.getD (.shipped b.settings.rule)).Answers

/-- So it is where no policy is supplied. -/
theorem Answers.of_none {b : Builder ω} (h : b.policy = none) : b.Answers := by
  unfold Answers
  rw [h]
  exact Policy.answers_shipped _

theorem Answers.of_shipped {b : Builder ω} {rule : Rule ω} (h : b.policy = some (.shipped rule)) :
    b.Answers := by
  unfold Answers
  rw [h]
  exact Policy.answers_shipped rule

variable {b : Builder ω} {id : Nat} {host : Host ω} {s : System ω}

theorem mem_askingOrder {r : Resource ω} :
    r ∈ b.askingOrder id ↔ r ∈ (b.toSelector id).states := (byRank_perm _ _).mem_iff

/-- Ranks can have the policy asked about the resources in any order. -/
theorem exists_askingOrder (h : ((b.toSelector id).states.map (·.name)).Nodup)
    {rs : List (Resource ω)} (hperm : rs.Perm (b.toSelector id).states) :
    ∃ rank, { b with rank := rank }.askingOrder id = rs := by
  obtain ⟨rank, heq⟩ := exists_byRank h hperm
  exact ⟨fun _ => rank, heq⟩

/-- The selector that is described, once the policy has been asked all that a build asks. -/
def begun (b : Builder ω) (id : Nat) (host : Host ω) : System ω :=
  (System.askAny (b.askingOrder id) ⟨b.toSelector id, host⟩).2

/-- What speaks against a builder is found before the policy is asked anything. -/
theorem exists_invalid_iff :
    (∃ fault, b.build id host = .error (.invalid fault)) ↔ b.validate ≠ .ok () := by
  unfold build
  cases b.validate with
  | error fault => exact ⟨nofun, fun _ => ⟨fault, rfl⟩⟩
  | ok =>
      simp only [ne_eq, not_true_eq_false, iff_false]
      rintro ⟨fault, hbuild⟩
      split at hbuild
      · cases hbuild
      · cases hbuild

/-- Once all is accepted, nothing but a crash of the policy is in the way of a selector. A check is
scheduled when a resource needs one from the start, and may be scheduled anyway. -/
theorem build_of_validate (h : b.validate = .ok ()) (id : Nat) (host : Host ω) : ∃ asked,
    b.begun id host = ⟨b.toSelector id, { host with asked }⟩ ∧
    ((b.build id host = .error (.crashed asked) ∧ ∃ r ∈ (b.toSelector id).states, ∃ earlier,
        (b.toSelector id).policy.needsCheck r.context earlier = .crashed) ∨
      b.build id host = .ok (b.begun id host).ensureChecker ∨
      (b.build id host = .ok (b.begun id host) ∧ ∀ r ∈ (b.toSelector id).states, ∃ earlier,
        (b.toSelector id).policy.needsCheck r.context earlier = .done false)) := by
  unfold build begun
  rw [h]
  obtain ⟨asked, ⟨heq, r, hr, hcrashed⟩ | heq | ⟨heq, hnone⟩⟩ :=
    System.askAny_cases (b.askingOrder id) ⟨b.toSelector id, host⟩
  · simp only [heq]
    exact ⟨asked, rfl, .inl ⟨rfl, r, mem_askingOrder.1 hr, hcrashed⟩⟩
  · simp only [heq, Bool.or_true]
    exact ⟨asked, rfl, .inr (.inl rfl)⟩
  · simp only [heq]
    refine ⟨asked, rfl, .inr ?_⟩
    cases b.settings.checksAtOnce with
    | true => exact .inl rfl
    | false => exact .inr ⟨rfl, fun r hr => hnone r (mem_askingOrder.2 hr)⟩

theorem build_cases (h : b.build id host = .ok s) : b.validate = .ok () ∧ ∃ asked,
    s = System.ensureChecker ⟨b.toSelector id, { host with asked }⟩ ∨
      s = ⟨b.toSelector id, { host with asked }⟩ ∧ ∀ r ∈ (b.toSelector id).states, ∃ earlier,
        (b.toSelector id).policy.needsCheck r.context earlier = .done false := by
  cases hvalid : b.validate with
  | error fault =>
      obtain ⟨fault, hrefused⟩ := exists_invalid_iff.2 (by rw [hvalid]; exact nofun)
      exact nomatch h.symm.trans hrefused
  | ok =>
      obtain ⟨asked, hbegun, ⟨hbuild, -⟩ | hbuild | ⟨hbuild, hnone⟩⟩ :=
        build_of_validate hvalid id host
      · exact nomatch h.symm.trans hbuild
      · rw [hbegun] at hbuild
        exact ⟨rfl, asked, .inl (Except.ok.inj (h.symm.trans hbuild))⟩
      · rw [hbegun] at hbuild
        exact ⟨rfl, asked, .inr ⟨Except.ok.inj (h.symm.trans hbuild), hnone⟩⟩

theorem build_ne_crashed (hanswers : b.Answers) (id : Nat) (host : Host ω) (asked : Tally) :
    b.build id host ≠ .error (.crashed asked) := by
  intro hcrashed
  cases hvalid : b.validate with
  | error fault =>
      obtain ⟨fault, hrefused⟩ := exists_invalid_iff.2 (by rw [hvalid]; exact nofun)
      exact nomatch hcrashed.symm.trans hrefused
  | ok =>
      obtain ⟨-, -, ⟨-, r, -, earlier, hcrash⟩ | hbuild | ⟨hbuild, -⟩⟩ :=
        build_of_validate hvalid id host
      · exact hanswers r.context earlier hcrash
      · exact nomatch hcrashed.symm.trans hbuild
      · exact nomatch hcrashed.symm.trans hbuild

theorem exists_build (h : b.validate = .ok ()) (hanswers : b.Answers) (id : Nat) (host : Host ω) :
    ∃ s, b.build id host = .ok s := by
  obtain ⟨-, -, ⟨-, r, -, earlier, hcrashed⟩ | hbuild | ⟨hbuild, -⟩⟩ :=
    build_of_validate h id host
  · exact absurd hcrashed (hanswers r.context earlier)
  · exact ⟨_, hbuild⟩
  · exact ⟨_, hbuild⟩

/-- Without a probe there is nothing to schedule. -/
theorem build_of_probe_eq_none (h : b.validate = .ok ()) (hanswers : b.Answers)
    (hprobe : b.probe = none) (id : Nat) (host : Host ω) :
    b.build id host = .ok (b.begun id host) := by
  obtain ⟨asked, hbegun, ⟨-, r, -, earlier, hcrashed⟩ | hbuild | ⟨hbuild, -⟩⟩ :=
    build_of_validate h id host
  · exact absurd hcrashed (hanswers r.context earlier)
  · have hidle : (b.begun id host).ensureChecker = b.begun id host := by
      unfold System.ensureChecker
      rw [hbegun, show (b.toSelector id).probe = none from hprobe]
      rfl
    rw [hbuild, hidle]
  · exact hbuild

end Builder

end ResourceSelection
