import ResourceSelection.Proofs.Executor
import ResourceSelection.Proofs.Managers
import ResourceSelection.Proofs.Tending

/-!
# The check that a selector has scheduled

A selector knows its scheduled check by a handle, and the executor knows the check by the number of
the selector. `System.Watched` says that the two agree: the executor has one live task of the
selector if the selector has a handle, and that task has that handle, and none otherwise. A closed
selector has no handle.

Steps keep this. What takes some care is a tick, because the check that is running has been taken
out of the executor, and may start a check itself. `System.Tends.behind` says that a step does the
same when tasks are put in front of all that it sees, so that the tasks in hand can be put back and
nothing else has to be known about them.
-/

namespace ResourceSelection

variable {ω : Type} [Scalar ω]

namespace System

/-- The system on another executor. -/
def on (s : System ω) (x : ManualExecutor Nat) : System ω :=
  { s with host := { s.host with executor := x } }

/-- The live tasks of the selector. -/
def liveTasks (s : System ω) : List (Handle × Nat) :=
  s.host.executor.live.filter fun entry => entry.2 = s.selector.id

/-- The selector and the executor agree on what is scheduled. -/
structure Watched (s : System ω) : Prop where
  handed : s.host.executor.Handed
  live : s.liveTasks = s.selector.checker.toList.map fun h => (h, s.selector.id)
  closed : s.selector.closed = true → s.selector.checker = none

namespace Watched

variable {s t : System ω}

omit [Scalar ω] in
theorem mem_live_iff (hs : s.Watched) {h : Handle} :
    (h, s.selector.id) ∈ s.host.executor.live ↔ s.selector.checker = some h := by
  have hmem : (h, s.selector.id) ∈ s.liveTasks ↔ (h, s.selector.id) ∈ s.host.executor.live := by
    simp [liveTasks]
  rw [← hmem, hs.live]
  simp

omit [Scalar ω] in
/-- A selector that has a handle is being checked. -/
theorem isChecking (hs : s.Watched) : s.isChecking = s.selector.checker.isSome := by
  unfold System.isChecking
  split
  · next h hchecker =>
      have hlive := ManualExecutor.mem_live.1 (hs.mem_live_iff.2 hchecker)
      rw [hlive.2, hchecker]
      rfl
  · next hchecker =>
      rw [hchecker]
      rfl

omit [Scalar ω] in
theorem length_liveTasks (hs : s.Watched) :
    s.liveTasks.length = if s.isChecking then 1 else 0 := by
  rw [hs.isChecking, hs.live]
  cases s.selector.checker with
  | none => rfl
  | some h => rfl

omit [Scalar ω] in
theorem of_sameChecker (hs : s.Watched) (same : s.SameChecker t) : t.Watched where
  handed := by
    rw [same.executor]
    exact hs.handed
  live := by
    unfold liveTasks
    rw [same.executor, same.id, same.checker]
    exact hs.live
  closed := by
    rw [same.closed, same.checker]
    exact hs.closed

end Watched

/-! ## Scheduling and cancelling -/

omit [Scalar ω] in
theorem sameTerms_ensureChecker (s : System ω) :
    s.selector.SameTerms s.ensureChecker.selector := by
  unfold ensureChecker
  split
  · exact .refl _
  · exact ⟨rfl, rfl, rfl, rfl, rfl⟩

omit [Scalar ω] in
/-- With a probe, an open selector has a handle once it has made sure of that. -/
theorem isSome_ensureChecker {s : System ω} (hprobe : s.selector.probe.isSome = true)
    (hopen : s.selector.closed = false) : s.ensureChecker.selector.checker.isSome = true := by
  unfold ensureChecker
  split
  · next hnothing =>
      have hchecking : s.isChecking = true := by
        simpa [hopen, Option.isNone_eq_false_iff.2 hprobe] using hnothing
      unfold isChecking at hchecking
      split at hchecking
      · next h hchecker =>
          rw [hchecker]
          rfl
      · exact nomatch hchecking
  · rfl

omit [Scalar ω] in
theorem Watched.ensureChecker {s : System ω} (hs : s.Watched) : s.ensureChecker.Watched := by
  unfold System.ensureChecker
  split
  · exact hs
  · next hmissing =>
      simp only [Bool.or_eq_true, not_or, Bool.not_eq_true] at hmissing
      have hnone : s.selector.checker = none := by
        rw [← Option.not_isSome_iff_eq_none, ← hs.isChecking, hmissing.1.2]
        exact Bool.false_ne_true
      have hlive : s.liveTasks = [] := by
        rw [hs.live, hnone]
        rfl
      refine ⟨hs.handed.schedule _, ?_, fun hclosed => ?_⟩
      · show List.filter _ (s.host.executor.schedule s.selector.id).2.live = _
        rw [ManualExecutor.live_schedule hs.handed, List.filter_append]
        show s.liveTasks ++ _ = _
        rw [hlive]
        simp [ManualExecutor.schedule]
      · rw [hmissing.2] at hclosed
        exact nomatch hclosed

omit [Scalar ω] in
theorem closed_close (s : System ω) : s.close.selector.closed = true := by
  unfold close cancelChecker
  split
  · next hclosed => exact hclosed
  · split
    · rfl
    · rfl

omit [Scalar ω] in
theorem Watched.close {s : System ω} (hs : s.Watched) : s.close.Watched := by
  unfold System.close cancelChecker
  split
  · exact hs
  · split
    · next h hchecker =>
        refine ⟨hs.handed.cancel h, ?_, fun _ => rfl⟩
        have hlive : s.liveTasks = [(h, s.selector.id)] := by
          rw [hs.live, show s.selector.checker = some h from hchecker]
          rfl
        show List.filter _ (s.host.executor.cancel h).live = []
        rw [ManualExecutor.live_cancel, List.filter_comm]
        show s.liveTasks.filter _ = []
        rw [hlive]
        simp
    · next hchecker => exact ⟨hs.handed, hs.live, fun _ => hchecker⟩

/-! ## Steps -/

namespace Tends

variable {s t : System ω}

/-- A step leaves the checker alone, or makes sure that there is one. -/
theorem cases_checker (h : s.Tends t) :
    s.SameChecker t ∨ ∃ u, s.SameChecker u ∧ t = u.ensureChecker := by
  cases h with
  | aside same => exact .inl same
  | @move u same place r weight =>
      obtain ⟨asked, heq | heq⟩ := checkIfNeeded_snd r weight u
      · rw [heq]
        exact .inl (same.trans (.asking u asked))
      · exact .inr ⟨_, same.trans (.asking u asked), heq⟩
  | crash same => exact .inl same

theorem sameTerms (h : s.Tends t) : s.selector.SameTerms t.selector := by
  rcases h.cases_checker with same | ⟨u, same, rfl⟩
  · exact same.toSameTerms
  · exact same.toSameTerms.trans u.sameTerms_ensureChecker

theorem watched (h : s.Tends t) (hs : s.Watched) : t.Watched := by
  rcases h.cases_checker with same | ⟨u, same, rfl⟩
  · exact hs.of_sameChecker same
  · exact (hs.of_sameChecker same).ensureChecker

end Tends

/-! ## Tasks in hand -/

/-- The system with tasks put in front of those that it sees. -/
def behind (entries : List (Handle × Nat)) (s : System ω) : System ω :=
  s.on (s.host.executor.withEarlier entries)

omit [Scalar ω] in
theorem ensureChecker_behind (entries : List (Handle × Nat)) (s : System ω) :
    s.ensureChecker.behind entries = (s.behind entries).ensureChecker := by
  have hcond : ((s.behind entries).selector.probe.isNone || (s.behind entries).isChecking ||
      (s.behind entries).selector.closed) =
      (s.selector.probe.isNone || s.isChecking || s.selector.closed) := rfl
  unfold ensureChecker
  rw [hcond]
  split
  · rfl
  · simp [behind, on, ManualExecutor.withEarlier, ManualExecutor.schedule]

omit [Scalar ω] in
theorem SameChecker.behind {s t : System ω} (same : s.SameChecker t)
    (entries : List (Handle × Nat)) : (s.behind entries).SameChecker (t.behind entries) where
  toSameTerms := same.toSameTerms
  checker := same.checker
  executor := congrArg (ManualExecutor.withEarlier · entries) same.executor

theorem checkIfNeeded_behind (entries : List (Handle × Nat)) (r : Resource ω) (weight : ω)
    (s : System ω) : (s.checkIfNeeded r weight).2.behind entries =
      ((s.behind entries).checkIfNeeded r weight).2 := by
  have hanswer : (s.behind entries).selector.policy.needsCheck (r.contextAt weight)
      ((s.behind entries).host.asked.count r.name) =
    s.selector.policy.needsCheck (r.contextAt weight) (s.host.asked.count r.name) := rfl
  unfold checkIfNeeded
  rw [askNeed_eq, askNeed_eq, hanswer]
  cases s.selector.policy.needsCheck (r.contextAt weight) (s.host.asked.count r.name) with
  | crashed => rfl
  | done needed =>
      cases needed with
      | false => rfl
      | true => exact ensureChecker_behind entries (s.asking (s.host.asked.bump r.name))

theorem Tends.behind {s t : System ω} (h : s.Tends t) (entries : List (Handle × Nat)) :
    (s.behind entries).Tends (t.behind entries) := by
  cases h with
  | aside same contexts => exact .aside (same.behind entries) contexts
  | @move u same place r weight others moved =>
      rw [checkIfNeeded_behind]
      exact .move (same.behind entries) place others moved
  | crash same crashed => exact .crash (same.behind entries) crashed

theorem Tended.behind {s t : System ω} (h : s.Tended t) (entries : List (Handle × Nat)) :
    (s.behind entries).Tended (t.behind entries) := by
  induction h with
  | refl => exact .refl _
  | tail _ hstep ih => exact ih.trans (hstep.behind entries).tended

theorem Tended.watched {s t : System ω} (h : s.Tended t) (hs : s.Watched) : t.Watched :=
  h.induct (fun hstep hs => hstep.watched hs) hs

theorem Tended.sameTerms {s t : System ω} (h : s.Tended t) : s.selector.SameTerms t.selector :=
  h.induct (P := fun u => s.selector.SameTerms u.selector)
    (fun hstep hu => hu.trans hstep.sameTerms) (.refl _)

/-! ## Ticks -/

theorem runCheck_of_ne {id : Nat} {s : System ω} (h : id ≠ s.selector.id)
    (x : ManualExecutor Nat) : runCheck id (x, s) = ((.stop, id), x, s) := by
  unfold runCheck
  exact if_neg h

theorem runCheck_self (s : System ω) (x : ManualExecutor Nat) :
    runCheck s.selector.id (x, s) = ((.again, s.selector.id),
      (s.on x).checkNow.2.host.executor, (s.on x).checkNow.2) := by
  unfold runCheck
  exact if_pos rfl

/-- The executor and the selector agree throughout a tick, once the tasks in hand are put back. -/
theorem survives_watched :
    ManualExecutor.Survives runCheck fun x (s : System ω) => (s.on x).Watched where
  skip hs hc :=
    ⟨hs.handed.drop, (congrArg (List.filter _) (ManualExecutor.live_drop hc)).symm.trans hs.live,
      hs.closed⟩
  again := by
    intro x x' s s' before after h task task' hs _ hrun
    rcases eq_or_ne task s.selector.id with rfl | hne
    · rw [runCheck_self] at hrun
      cases hrun
      exact ((tended_checkIn _ (s.on x)).behind _).watched hs
    · rw [runCheck_of_ne hne] at hrun
      cases hrun
  stop := by
    intro x x' s s' before after h task task' hs hc hrun
    rcases eq_or_ne task s.selector.id with rfl | hne
    · rw [runCheck_self] at hrun
      cases hrun
    · rw [runCheck_of_ne hne] at hrun
      cases hrun
      refine ⟨hs.handed.drop.cancel h, ?_, hs.closed⟩
      show List.filter _ ((x.cancel h).withEarlier (before ++ after)).live = _
      rw [ManualExecutor.live_cancel_dropped hs.handed,
        ← ManualExecutor.filter_live_drop (decide_eq_false hne)]
      exact hs.live

end System

end ResourceSelection
