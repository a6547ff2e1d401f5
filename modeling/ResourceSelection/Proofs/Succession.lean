import ResourceSelection.Proofs.Lifecycle

/-!
# Checks from one selector to the next

A manager goes through selectors, and each of them may be checked. All their checks are scheduled on
one executor, and a change of the membership builds the next selector, which may schedule a check at
once, before it closes the previous one. For a moment two checks are scheduled, and the moment ends
within the change.

`Manager.Guarded` is what holds between events: the executor and the current selector agree, nothing
but the check of the current selector is live, and the selectors before it are closed and have no
check. Selectors are told apart by their numbers, so it matters that a selector leaves the tasks of
all other numbers alone (`System.Minds`), and that the number of the next one has not been used.
-/

namespace ResourceSelection

variable {ω : Type} [Scalar ω]

/-! ## Minding one's own tasks -/

namespace ManualExecutor

namespace Spares

variable {id : Nat} {x y z : ManualExecutor Nat}

theorem refl (hx : x.Handed) (id : Nat) : x.Spares id x := ⟨hx, rfl, rfl⟩

theorem trans (h : x.Spares id y) (h' : y.Spares id z) : x.Spares id z :=
  ⟨h'.handed, h'.entries.trans h.entries, h'.live.trans h.live⟩

theorem mem_live (h : x.Spares id y) {entry : Handle × Nat} (hid : entry.2 = id) :
    entry ∈ y.live ↔ entry ∈ x.live := by
  have hmem := congrArg (entry ∈ ·) h.live
  simpa [hid] using hmem

theorem mem_entries (h : x.Spares id y) {entry : Handle × Nat} (hid : entry.2 = id) :
    entry ∈ y.entries ↔ entry ∈ x.entries := by
  have hmem := congrArg (entry ∈ ·) h.entries
  simpa [hid] using hmem

end Spares

end ManualExecutor

namespace System

/-- What one selector did to the executor concerns no task of another one. -/
def Minds (s t : System ω) : Prop :=
  ∀ id, id ≠ s.selector.id → s.host.executor.Spares id t.host.executor

variable {s t : System ω}

omit [Scalar ω] in
theorem Watched.spared (hs : s.Watched) {host : Host ω}
    (h : s.host.executor.Spares s.selector.id host.executor) :
    Watched ⟨s.selector, host⟩ :=
  ⟨h.handed, h.live.trans hs.live, hs.closed⟩

omit [Scalar ω] in
theorem minds_ensureChecker (hs : s.Watched) : s.Minds s.ensureChecker := by
  intro id hne
  have hcheck := hs.ensureChecker.handed
  unfold ensureChecker at hcheck ⊢
  split at hcheck
  · next hnothing =>
      rw [if_pos hnothing]
      exact .refl hs.handed id
  · next hmissing =>
      rw [if_neg hmissing]
      refine ⟨hcheck, ?_, ?_⟩
      · show List.filter _ (s.host.executor.entries ++ [_]) = _
        rw [List.filter_append]
        simp [Ne.symm hne]
      · show List.filter _ (s.host.executor.schedule s.selector.id).2.live = _
        rw [ManualExecutor.live_schedule hs.handed, List.filter_append]
        simp [Ne.symm hne]

omit [Scalar ω] in
theorem minds_close (hs : s.Watched) : s.Minds s.close := by
  intro id hne
  refine ⟨hs.close.handed, by rw [entries_close], ?_⟩
  unfold close cancelChecker
  split
  · rfl
  · split
    · next h hchecker =>
        show List.filter _ (s.host.executor.cancel h).live = _
        rw [ManualExecutor.live_cancel, List.filter_filter]
        refine List.filter_congr fun entry hentry => ?_
        -- a live task with the handle of the selector is one of the selector
        have howned (heq : entry.1 = h) : entry.2 = s.selector.id := by
          have hmine := (ManualExecutor.mem_live.1 (hs.mem_live_iff.2 hchecker)).1
          have hsame := List.inj_on_of_nodup_map hs.handed.nodup
            (ManualExecutor.mem_live.1 hentry).1 hmine heq
          rw [hsame]
        by_cases heq : entry.1 = h
        · simp [howned heq, Ne.symm hne]
        · simp [heq]
    · rfl

theorem Tends.minds (h : s.Tends t) (hs : s.Watched) : s.Minds t := by
  rcases h.cases_checker with same | ⟨u, same, rfl⟩
  · intro id _
    rw [same.executor]
    exact .refl hs.handed id
  · have hminds := minds_ensureChecker (hs.of_sameChecker same)
    intro id hne
    have hspares := hminds id (same.id ▸ hne)
    rwa [same.executor] at hspares

theorem Tended.minds (h : s.Tended t) (hs : s.Watched) : s.Minds t := by
  suffices t.Watched ∧ t.selector.id = s.selector.id ∧ s.Minds t from this.2.2
  refine h.induct (P := fun u => u.Watched ∧ u.selector.id = s.selector.id ∧ s.Minds u) ?_
    ⟨hs, rfl, fun id _ => .refl hs.handed id⟩
  rintro u v hstep ⟨hwatched, hid, hminds⟩
  refine ⟨hstep.watched hwatched, hstep.sameTerms.id.trans hid, fun id hne => ?_⟩
  exact (hminds id hne).trans (hstep.minds hwatched id (hid ▸ hne))

theorem minds_call (c : Call) (hs : s.Watched) : s.Minds (s.call c) := by
  by_cases hc : c = .close
  · subst hc
    exact minds_close hs
  · exact (tended_call hc s).minds hs

/-- A closed selector does nothing about its check. -/
theorem Tended.of_closed (h : s.Tended t) (hclosed : s.selector.closed = true) :
    t.selector.closed = true ∧ t.selector.checker = s.selector.checker ∧
      t.host.executor = s.host.executor := by
  refine h.induct (P := fun u => u.selector.closed = true ∧
    u.selector.checker = s.selector.checker ∧ u.host.executor = s.host.executor) ?_
    ⟨hclosed, rfl, rfl⟩
  rintro u v hstep ⟨hclosed, hchecker, hexecutor⟩
  have hstill := hstep.sameTerms.closed.trans hclosed
  rcases hstep.cases_checker with same | ⟨w, same, rfl⟩
  · exact ⟨hstill, same.checker.trans hchecker, same.executor.trans hexecutor⟩
  · have hnothing : w.ensureChecker = w := by
      unfold ensureChecker
      rw [same.closed, hclosed]
      simp
    rw [hnothing] at hstill ⊢
    exact ⟨hstill, same.checker.trans hchecker, same.executor.trans hexecutor⟩

theorem call_of_closed (c : Call) (hclosed : s.selector.closed = true) :
    (s.call c).selector.closed = true ∧ (s.call c).selector.checker = s.selector.checker ∧
      (s.call c).host.executor = s.host.executor := by
  by_cases hc : c = .close
  · subst hc
    have hnothing : s.close = s := by
      unfold close
      exact if_pos hclosed
    show s.close.selector.closed = true ∧ _ ∧ _
    rw [show s.call .close = s from hnothing, hnothing]
    exact ⟨hclosed, rfl, rfl⟩
  · exact (tended_call hc s).of_closed hclosed

end System

theorem Builder.spares_of_build {b : Builder ω} {id : Nat} {host : Host ω} {s : System ω}
    (h : b.build id host = .ok s) (hhanded : host.executor.Handed)
    (hnew : ∀ entry ∈ host.executor.entries, entry.2 ≠ id) (other : Nat) (hne : other ≠ id) :
    host.executor.Spares other s.host.executor := by
  obtain ⟨-, asked, rfl | ⟨rfl, -⟩⟩ := build_cases h
  · exact System.minds_ensureChecker (b.watched_toSelector hhanded hnew asked) other hne
  · exact .refl hhanded other

namespace Manager

def on (m : Manager ω) (x : ManualExecutor Nat) : Manager ω :=
  { m with host := { m.host with executor := x } }

/-- The manager with something else in the place of its current selector. -/
def withCurrent (m : Manager ω) (s : System ω) : Manager ω :=
  { m with current := s.selector, host := s.host }

omit [Scalar ω] in
/-- Where the current selector is the only one of its number, recording it replaces it. -/
theorem record_current {m : Manager ω} (hpast : ∀ t ∈ m.past, t.id ≠ m.current.id) {s : System ω}
    (hid : s.selector.id = m.current.id) : m.record s = m.withCurrent s := by
  have hsame : (m.past.map fun old => if old.id = s.selector.id then s.selector else old) =
      m.past :=
    (List.map_congr_left fun old hold => if_neg (hid ▸ hpast old hold)).trans (List.map_id m.past)
  show Manager.mk _ _ (ite _ _ _) (m.past.map _) _ _ = _
  rw [hsame, if_pos hid.symm]
  rfl

theorem runCheck_current (m : Manager ω) (x : ManualExecutor Nat) :
    runCheck m.current.id (x, m) = ((.again, m.current.id),
      (m.system.on x).checkNow.2.host.executor, m.record (m.system.on x).checkNow.2) := by
  unfold runCheck
  simp only [snapshot?_current]
  rfl

/-- Only the current selector is checked, and all the others are closed. -/
structure Guarded (m : Manager ω) : Prop where
  watched : m.system.Watched
  only {entry : Handle × Nat} : entry ∈ m.host.executor.live → entry.2 = m.current.id
  numbered {entry : Handle × Nat} : entry ∈ m.host.executor.entries → entry.2 ≤ m.current.id
  past {s : Selector ω} : s ∈ m.past → s.id < m.current.id ∧ s.closed = true ∧ s.checker = none
  closed : m.closed = true → m.current.closed = true

namespace Guarded

variable {m : Manager ω}

omit [Scalar ω] in
theorem liveTasks_eq (hm : m.Guarded) : m.system.liveTasks = m.host.executor.live :=
  List.filter_eq_self.2 fun _ hentry => decide_eq_true (hm.only hentry)

omit [Scalar ω] in
theorem past_ne (hm : m.Guarded) : ∀ t ∈ m.past, t.id ≠ m.current.id := fun _ ht =>
  Nat.ne_of_lt (hm.past ht).1

omit [Scalar ω] in
/-- The current selector is put to use and minds its own tasks. -/
theorem use (hm : m.Guarded) {s : System ω} (hid : s.selector.id = m.current.id)
    (hwatched : s.Watched) (hminds : m.system.Minds s)
    (hclosed : m.current.closed = true → s.selector.closed = true) :
    (m.withCurrent s).Guarded where
  watched := hwatched
  only := by
    intro entry hentry
    by_contra hne
    have hother : entry.2 ≠ m.current.id := fun heq => hne (heq.trans hid.symm)
    exact hother (hm.only (((hminds _ hother).mem_live rfl).1 hentry))
  numbered := by
    intro entry hentry
    show entry.2 ≤ s.selector.id
    rw [hid]
    by_cases heq : entry.2 = m.current.id
    · exact heq.le
    · exact hm.numbered (((hminds _ heq).mem_entries rfl).1 hentry)
  past hs := by
    obtain ⟨hlt, hrest⟩ := hm.past hs
    exact ⟨hid.symm ▸ hlt, hrest⟩
  closed h := hclosed (hm.closed h)

omit [Scalar ω] in
/-- An earlier selector is put to use, and does nothing about its check. -/
theorem use_past (hm : m.Guarded) {t : Selector ω} (ht : t ∈ m.past) {s : System ω}
    (hid : s.selector.id = t.id) (hclosed : s.selector.closed = true)
    (hchecker : s.selector.checker = none) (hexecutor : s.host.executor = m.host.executor) :
    (m.record s).Guarded := by
  obtain ⟨hlt, -, -⟩ := hm.past ht
  have hcurrent : (m.record s).current = m.current :=
    if_neg fun heq => Nat.ne_of_lt hlt (hid.symm.trans heq.symm)
  have hhost : (m.record s).host.executor = m.host.executor := hexecutor
  refine ⟨?_, ?_, ?_, ?_, ?_⟩
  · unfold system
    rw [hcurrent]
    refine hm.watched.spared ?_
    rw [hhost]
    exact .refl hm.watched.handed _
  · rw [hcurrent, hhost]
    exact hm.only
  · rw [hcurrent, hhost]
    exact hm.numbered
  · intro old' hold'
    obtain ⟨old, hold, rfl⟩ := List.mem_map.1 hold'
    rw [hcurrent]
    split
    · exact ⟨hid ▸ hlt, hclosed, hchecker⟩
    · exact hm.past hold
  · rw [hcurrent]
    exact hm.closed

variable [LawfulScalar ω]

theorem call (hm : m.Guarded) {id : Nat} {s : System ω} (hs : m.snapshot? id = some s) (c : Call) :
    (m.record (s.call c)).Guarded := by
  have hid : (s.call c).selector.id = s.selector.id := s.id_step (.call c)
  obtain ⟨-, rfl | ⟨-, t, ht, rfl⟩⟩ := snapshot?_eq_some hs
  · rw [record_current hm.past_ne hid]
    have hwatched := hm.watched.step (e := .call c) trivial
    refine hm.use hid hwatched (System.minds_call c hm.watched) fun hclosed => ?_
    exact (System.call_of_closed (s := m.system) c hclosed).1
  · obtain ⟨-, hclosed, hchecker⟩ := hm.past ht
    have hcalled := System.call_of_closed (s := ⟨t, m.host⟩) c hclosed
    exact hm.use_past ht hid hcalled.1 (hcalled.2.1.trans hchecker) hcalled.2.2

/-! ## Changes -/

omit [LawfulScalar ω] in
/-- The next selector is built, closed if the manager is, and then the one before it is closed. -/
theorem install (hm : m.Guarded) {next : Membership ω} {s : System ω}
    (hbuild : next.build m.template (some m.current) (m.current.id + 1) m.host = .ok s) :
    (m.install next s).Guarded := by
  have hunused : ∀ entry ∈ m.host.executor.entries, entry.2 ≠ m.current.id + 1 := fun entry h =>
    Nat.ne_of_lt (Nat.lt_succ_of_le (hm.numbered h))
  -- the next selector, as it is installed
  obtain ⟨s', hs', hwatched, hid, hclosed, hspares⟩ : ∃ s' : System ω,
      (if m.closed then s.close else s) = s' ∧ s'.Watched ∧ s'.selector.id = m.current.id + 1 ∧
      (m.closed = true → s'.selector.closed = true) ∧
      ∀ id, id ≠ m.current.id + 1 → m.host.executor.Spares id s'.host.executor := by
    have hwatched := Builder.watched_of_build hbuild hm.watched.handed hunused
    have hid : s.selector.id = m.current.id + 1 := (Builder.terms_of_build hbuild).id
    have hspares := Builder.spares_of_build hbuild hm.watched.handed hunused
    refine ⟨_, rfl, ?_⟩
    split
    · refine ⟨hwatched.close, s.sameTerms_close.1.trans hid, fun _ => s.closed_close, ?_⟩
      exact fun id hne => (hspares id hne).trans (System.minds_close hwatched id (hid ▸ hne))
    · next hopen => exact ⟨hwatched, hid, fun h => absurd h hopen, hspares⟩
  -- the one before it, as it is left
  have hold : System.Watched ⟨m.current, s'.host⟩ :=
    hm.watched.spared (hspares _ (Nat.ne_of_lt (Nat.lt_succ_self m.current.id)))
  have hminds := System.minds_close hold
  have hnothing := hold.close.closed (System.closed_close _)
  unfold Manager.install
  simp only [hs']
  refine ⟨?_, ?_, ?_, ?_, hclosed⟩
  · exact hwatched.spared (hminds _ (by rw [hid]; exact Nat.succ_ne_self _))
  · intro entry hentry
    by_contra hne
    have hne' : entry.2 ≠ m.current.id + 1 := fun heq => hne (heq.trans hid.symm)
    by_cases heq : entry.2 = m.current.id
    · have hmine : entry ∈ (System.close ⟨m.current, s'.host⟩).liveTasks :=
        List.mem_filter.2 ⟨hentry, decide_eq_true
          (heq.trans (System.sameTerms_close ⟨m.current, s'.host⟩).1.symm)⟩
      rw [hold.close.live, hnothing] at hmine
      exact nomatch hmine
    · have hbefore := ((hminds _ heq).mem_live rfl).1 hentry
      exact heq (hm.only (((hspares _ hne').mem_live rfl).1 hbefore))
  · intro entry hentry
    show entry.2 ≤ s'.selector.id
    rw [hid]
    by_cases heq : entry.2 = m.current.id + 1
    · exact heq.le
    · rw [System.entries_close] at hentry
      exact (hm.numbered (((hspares _ heq).mem_entries rfl).1 hentry)).trans (Nat.le_succ _)
  · intro old hmem
    show _ < s'.selector.id ∧ _
    rw [hid]
    rcases List.mem_cons.1 hmem with rfl | hpast
    · refine ⟨?_, System.closed_close _, hnothing⟩
      rw [(System.sameTerms_close ⟨m.current, s'.host⟩).1]
      exact Nat.lt_succ_self _
    · obtain ⟨hlt, hrest⟩ := hm.past hpast
      exact ⟨Nat.lt_succ_of_lt hlt, hrest⟩

omit [LawfulScalar ω] in
theorem apply (hm : m.Guarded) (add : Roster ω) (remove : List String) (rank : String → Nat) :
    (m.attempt (m.apply add remove rank)).Guarded := by
  refine attempt_apply_induct (P := Guarded) (fun asked => ?_) hm.install add remove rank
  have hwatched := hm.watched.of_sameChecker (.asking m.system asked)
  exact ⟨hwatched, hm.only, hm.numbered, hm.past, hm.closed⟩

/-! ## Ticks -/

omit [Scalar ω] [LawfulScalar ω] in
/-- A task that comes to its turn is the check of the current selector. -/
theorem eq_current {x : ManualExecutor Nat} {before after : List (Handle × Nat)} {h : Handle}
    {task : Nat} (hm : (m.on (x.withEarlier (before ++ (h, task) :: after))).Guarded)
    (hc : x.isCancelled h = false) : task = m.current.id := by
  have hlive : (h, task) ∈ (x.withEarlier (before ++ (h, task) :: after)).live :=
    ManualExecutor.mem_live.2 ⟨by simp [ManualExecutor.withEarlier], hc⟩
  exact hm.only hlive

omit [LawfulScalar ω] in
theorem survives : ManualExecutor.Survives runCheck fun x (m : Manager ω) =>
    (m.on x).Guarded := by
  constructor
  case skip =>
    intro x m before after h task hm hc
    refine ⟨System.survives_watched.skip (s := m.system) hm.watched hc, fun hentry => ?_,
      fun hentry => ?_, hm.past, hm.closed⟩
    · exact hm.only ((ManualExecutor.live_drop hc).symm ▸ hentry)
    · refine hm.numbered ?_
      simp only [Manager.on, ManualExecutor.withEarlier, List.mem_append, List.mem_cons]
        at hentry ⊢
      tauto
  case again =>
    intro x x' m m' before after h task task' hm hc hrun
    obtain rfl := hm.eq_current hc
    rw [runCheck_current] at hrun
    cases hrun
    have htended : (m.system.on x).Tended (m.system.on x).checkNow.2 :=
      System.tended_checkIn m.current.allResources (m.system.on x)
    have hbehind := htended.behind (before ++ (h, m.current.id) :: after)
    have hpast : ∀ t ∈ m.past, t.id ≠ m.current.id := hm.past_ne
    rw [record_current hpast htended.sameTerms.id]
    exact hm.use hbehind.sameTerms.id (hbehind.watched hm.watched) (hbehind.minds hm.watched)
      fun hclosed => hbehind.sameTerms.closed.trans hclosed
  case stop =>
    intro x x' m m' before after h task task' hm hc hrun
    obtain rfl := hm.eq_current hc
    rw [runCheck_current] at hrun
    cases hrun

omit [LawfulScalar ω] in
/-- Each task does for the manager what it does for the current selector. -/
theorem runAll_eq (rest before : List (Handle × Nat)) (x : ManualExecutor Nat) {m : Manager ω}
    (hm : (m.on (x.withEarlier (before ++ rest))).Guarded) :
    ManualExecutor.runAll runCheck rest (x, m) =
      let (kept, ran, x, s) := ManualExecutor.runAll System.runCheck rest (x, m.system)
      (kept, ran, x, m.withCurrent s) := by
  induction rest generalizing before x m with
  | nil => rfl
  | cons entry rest ih =>
      obtain ⟨h, task⟩ := entry
      unfold ManualExecutor.runAll
      cases hc : x.isCancelled h with
      | true => exact ih before x (survives.skip hm hc)
      | false =>
          obtain rfl := hm.eq_current hc
          have hnext := survives.again hm hc (runCheck_current m x)
          have hpast : ∀ t ∈ m.past, t.id ≠ m.current.id := hm.past_ne
          have hid : (m.system.on x).checkNow.2.selector.id = m.current.id :=
            (System.tended_checkIn m.current.allResources (m.system.on x)).sameTerms.id
          rw [runCheck_current, show System.runCheck m.current.id (x, m.system) = _ from
            System.runCheck_self m.system x]
          rw [record_current hpast hid] at hnext ⊢
          generalize (m.system.on x).checkNow.2 = s at hnext
          simp only [true_and, Bool.false_eq_true, if_false]
          cases hc' : s.host.executor.isCancelled h with
          | false =>
              rw [List.append_cons] at hnext
              simp only [Bool.not_false, if_true, ih _ _ hnext]
              rfl
          | true =>
              rw [ManualExecutor.cancel_of_isCancelled hc']
              simp only [Bool.not_true, Bool.false_eq_true, if_false,
                ih _ _ (survives.skip hnext hc')]
              rfl

omit [LawfulScalar ω] in
/-- A tick is one of the current selector, and concerns no earlier one that somebody may hold. -/
theorem tick_eq (hm : m.Guarded) : m.tick = (m.system.tick.1, m.withCurrent m.system.tick.2) := by
  have hhand : (m.on (({ m.host.executor with entries := [] } : ManualExecutor Nat).withEarlier
      ([] ++ m.host.executor.entries))).Guarded := by
    show (m.on { m.host.executor with entries := m.host.executor.entries ++ [] }).Guarded
    rw [List.append_nil]
    exact hm
  have hruns := runAll_eq m.host.executor.entries [] _ hhand
  unfold Manager.tick System.tick ManualExecutor.tick
  simp only [hruns]
  rfl

end Guarded

end Manager

/-! ## Runs -/

/-- Any event but one in which others use the executor. -/
def ManagerEvent.Spares (e : ManagerEvent ω) (m : Manager ω) : Prop :=
  match e with
  | .others host => host.executor = m.host.executor
  | _ => True

/-- What events make of a manager that has the executor for itself. -/
inductive Manager.Leads (m : Manager ω) : Manager ω → Prop
  | refl : m.Leads m
  | step {m' : Manager ω} (e : ManagerEvent ω) : m.Leads m' → e.Spares m' → m.Leads (m'.step e)

namespace Manager

variable {m m' : Manager ω}

/-- The numbers of all selectors so far, the current one first. -/
def numbers (m : Manager ω) : List Nat := (m.current :: m.past).map (·.id)

omit [Scalar ω] in
theorem numbers_record (m : Manager ω) (s : System ω) : (m.record s).numbers = m.numbers := by
  have hid (old : Selector ω) :
      (if old.id = s.selector.id then s.selector else old).id = old.id := by
    split
    · next heq => exact heq.symm
    · rfl
  unfold numbers record
  simp [hid]

omit [Scalar ω] in
theorem numbers_install (m : Manager ω) (next : Membership ω) (s : System ω) :
    (m.install next s).numbers = s.selector.id :: m.numbers := by
  unfold install numbers
  simp only [List.map_cons, (System.sameTerms_close _).1]
  split
  · rw [s.sameTerms_close.1]
  · rfl

theorem numbers_apply {add : Roster ω} {remove : List String} {rank : String → Nat}
    {next : Manager ω} (h : m.apply add remove rank = .ok next) :
    next.numbers = (m.current.id + 1) :: m.numbers := by
  obtain ⟨s, hbuild, rfl⟩ := apply_eq_ok h
  rw [numbers_install]
  exact congrArg (· :: _) (Builder.terms_of_build hbuild).id

/-- Nothing but a change of the membership adds a number, and no event takes one away. Neither is a
closed manager ever opened. -/
theorem step_keeps (e : ManagerEvent ω) (m : Manager ω) :
    m.numbers <:+ (m.step e).numbers ∧ (m.closed = true → (m.step e).closed = true) := by
  have hattempt (add : Roster ω) (remove : List String) (rank : String → Nat) :
      m.numbers <:+ (m.attempt (m.apply add remove rank)).numbers ∧
        (m.closed = true → (m.attempt (m.apply add remove rank)).closed = true) := by
    refine attempt_apply_induct (P := fun u => m.numbers <:+ u.numbers ∧
      (m.closed = true → u.closed = true)) (fun _ => ⟨List.suffix_refl _, id⟩) ?_ add remove rank
    refine fun _ => ⟨?_, id⟩
    rw [numbers_install]
    exact List.suffix_cons _ _
  have hquiet (he : e.isChange = false) :
      (m.step e).numbers = m.numbers ∧ (m.closed = true → (m.step e).closed = true) := by
    refine (m.moves_step he).induct
      (P := fun u => u.numbers = m.numbers ∧ (m.closed = true → u.closed = true)) ?_ ⟨rfl, id⟩
    rintro u v hmove ⟨hnumbers, hclosed⟩
    cases hmove with
    | host => exact ⟨hnumbers, hclosed⟩
    | shut => exact ⟨hnumbers, fun _ => rfl⟩
    | use hs e => exact ⟨(u.numbers_record _).trans hnumbers, hclosed⟩
  cases e with
  | update add remove rank => exact hattempt _ _ _
  | updateAll resources rank => exact hattempt _ _ _
  | _ =>
      obtain ⟨hnumbers, hclosed⟩ := hquiet rfl
      exact ⟨hnumbers ▸ List.suffix_refl _, hclosed⟩

theorem Leads.keeps (h : m.Leads m') :
    m.numbers <:+ m'.numbers ∧ (m.closed = true → m'.closed = true) := by
  induction h with
  | refl => exact ⟨List.suffix_refl _, id⟩
  | @step u e _ _ ih =>
      obtain ⟨hnumbers, hclosed⟩ := step_keeps e u
      exact ⟨ih.1.trans hnumbers, hclosed ∘ ih.2⟩

variable [LawfulScalar ω]

theorem Guarded.step (hm : m.Guarded) {e : ManagerEvent ω} (he : e.Spares m) :
    (m.step e).Guarded := by
  cases e with
  | call c => exact hm.call m.snapshot?_current c
  | callOn id c =>
      unfold Manager.step onSnapshot
      simp only
      split
      · exact hm
      · next s hs => exact hm.call hs c
  | update add remove rank => exact hm.apply _ _ _
  | updateAll resources rank => exact hm.apply _ _ _
  | tick => exact survives.tick (x := m.host.executor) (s := m) hm
  | close =>
      have hid : m.system.close.selector.id = m.current.id := m.system.sameTerms_close.1
      have hused := hm.use hid hm.watched.close (System.minds_close hm.watched)
        fun _ => m.system.closed_close
      have hpast : ∀ t ∈ ({ m with closed := true } : Manager ω).past, t.id ≠ m.current.id :=
        hm.past_ne
      show (record { m with closed := true } m.system.close).Guarded
      rw [record_current hpast hid]
      exact ⟨hused.watched, hused.only, hused.numbered, hused.past, fun _ => m.system.closed_close⟩
  | others host =>
      have hsame : host.executor = m.host.executor := he
      refine ⟨hm.watched.spared ?_, ?_, ?_, hm.past, hm.closed⟩
      · show m.host.executor.Spares _ host.executor
        rw [hsame]
        exact .refl hm.watched.handed _
      · show ∀ {entry}, entry ∈ host.executor.live → _
        rw [hsame]
        exact hm.only
      · show ∀ {entry}, entry ∈ host.executor.entries → _
        rw [hsame]
        exact hm.numbered

theorem Leads.guarded (h : m.Leads m') (hm : m.Guarded) : m'.Guarded := by
  induction h with
  | refl => exact hm
  | step e _ he ih => exact ih.step he

omit [LawfulScalar ω] in
/-- A manager that is the first to use its executor. -/
theorem guarded_of_create {template : Builder ω} {resources : List (String × Declaration ω)}
    {grouping : Option (Grouping String)} {host : Host ω} {rank : String → Nat} {m : Manager ω}
    (h : create template resources grouping host rank = .ok m)
    (hfresh : host.executor.entries = []) : m.Guarded := by
  have hcreated := created_of_create h
  have hhanded : host.executor.Handed := ⟨by simp [hfresh], by simp [hfresh]⟩
  have hnew : ∀ entry ∈ host.executor.entries, entry.2 ≠ 0 := by simp [hfresh]
  have hid : m.current.id = 0 := (Builder.terms_of_build hcreated.built).id
  have hspares := Builder.spares_of_build hcreated.built hhanded hnew
  -- there was nothing before, so all that there is now is of the number that has been built
  have hmine {entry : Handle × Nat} (hentry : entry ∈ m.host.executor.entries) :
      entry.2 = m.current.id := by
    by_contra hne
    have hbefore := ((hspares _ (hid ▸ hne)).mem_entries rfl).1 hentry
    rw [hfresh] at hbefore
    exact nomatch hbefore
  refine ⟨Builder.watched_of_build hcreated.built hhanded hnew, ?_, ?_, ?_, ?_⟩
  · exact fun hentry => hmine (ManualExecutor.mem_live.1 hentry).1
  · exact fun hentry => (hmine hentry).le
  · rw [hcreated.past]
    exact nofun
  · rw [hcreated.opened]
    exact nofun

end Manager

/-- Whatever happens to a manager that has its executor for itself, no check is live but that of its
current selector. The selectors before it are kept, closed and unchecked, and a tick is one of the
current selector alone. Once the manager is closed, all its selectors are, the later ones too, and
no check is live. -/
theorem checker_succession {template : Builder Float}
    {resources : List (String × Declaration Float)} {grouping : Option (Grouping String)}
    {host : Host Float} {rank : String → Nat} {m m' : Manager Float}
    (hcreate : Manager.create template resources grouping host rank = .ok m)
    (hfresh : host.executor.entries = []) (hleads : m.Leads m') :
    (m'.host.executor.live.length = (if m'.system.isChecking then 1 else 0) ∧
      ∀ entry ∈ m'.host.executor.live, entry.2 = m'.current.id) ∧
    (∀ add remove rank next, m'.apply add remove rank = .ok next →
      next.numbers = (m'.current.id + 1) :: m'.numbers) ∧
    (∀ m'', m'.Leads m'' → m'.numbers <:+ m''.numbers) ∧
    (∀ s ∈ m'.past, s.id ≠ m'.current.id ∧ s.closed = true ∧
      System.isChecking ⟨s, m'.host⟩ = false) ∧
    m'.tick = (m'.system.tick.1, m'.withCurrent m'.system.tick.2) ∧
    m'.close.closed = true ∧
    (m'.closed = true → ∀ m'', m'.Leads m'' →
      (∀ s ∈ m''.current :: m''.past, s.closed = true) ∧ m''.host.executor.live = []) := by
  have hm' := hleads.guarded (Manager.guarded_of_create hcreate hfresh)
  refine ⟨⟨?_, fun entry => hm'.only⟩, fun add remove rank next => Manager.numbers_apply,
    fun m'' h => h.keeps.1, ?_, hm'.tick_eq, rfl, ?_⟩
  · rw [← hm'.liveTasks_eq]
    exact hm'.watched.length_liveTasks
  · intro s hs
    obtain ⟨hlt, hclosed, hchecker⟩ := hm'.past hs
    refine ⟨Nat.ne_of_lt hlt, hclosed, ?_⟩
    unfold System.isChecking
    rw [show (System.mk s m'.host).selector.checker = none from hchecker]
  · intro hclosed m'' h
    have hm'' := h.guarded hm'
    have hcurrent := hm''.closed (h.keeps.2 hclosed)
    constructor
    · intro s hs
      rcases List.mem_cons.1 hs with rfl | hpast
      · exact hcurrent
      · exact (hm''.past hpast).2.1
    · rw [← hm''.liveTasks_eq, hm''.watched.live, hm''.watched.closed hcurrent]
      rfl

/-- The pair of resources with a probe, checked from the start. -/
def Builder.tended : Builder Float :=
  { Builder.probed with settings := { Builder.probed.settings with checksAtOnce := true } }

/-- The check of a selector ends when the next one takes over, and that one when the manager is
closed. -/
theorem checker_succession_tended : ∃ m next : Manager Float,
    Manager.create Builder.tended [("c", .ofWeight 5)] none { rng := ⟨0⟩ } = .ok m ∧
    m.update [("d", .ofWeight 7)] [] = .ok next ∧
    m.host.executor.live = [(0, 0)] ∧ next.host.executor.live = [(1, 1)] ∧
    next.numbers = [1, 0] ∧ (∀ s ∈ next.past, s.closed = true) ∧
    next.close.host.executor.live = [] := by
  obtain ⟨m, next, hcreate, hupdate, hbefore, hafter⟩ : ∃ m next : Manager Float,
      Manager.create Builder.tended [("c", .ofWeight 5)] none { rng := ⟨0⟩ } = .ok m ∧
      m.update [("d", .ofWeight 7)] [] = .ok next ∧
      m.host.executor.live = [(0, 0)] ∧ next.host.executor.live = [(1, 1)] :=
    ⟨_, _, rfl, rfl, rfl, rfl⟩
  have hnext : m.Leads next := by
    have hstep : m.Leads (m.attempt (m.update [("d", .ofWeight 7)] [])) :=
      .step (.update [("d", .ofWeight 7)] []) .refl trivial
    rwa [hupdate] at hstep
  obtain ⟨-, hnumbers, -⟩ := checker_succession hcreate rfl .refl
  obtain ⟨-, -, -, hpast, -⟩ := checker_succession hcreate rfl hnext
  have hclose : m.Leads next.close := .step .close hnext trivial
  obtain ⟨-, -, -, -, -, -, hclosed⟩ := checker_succession hcreate rfl hclose
  refine ⟨m, next, hcreate, hupdate, hbefore, hafter, ?_, fun s hs => (hpast s hs).2.1,
    (hclosed rfl _ .refl).2⟩
  cases hcreate
  exact hnumbers _ _ _ next hupdate

end ResourceSelection
