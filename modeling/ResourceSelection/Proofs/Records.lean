import ResourceSelection.Proofs.Dealings

/-!
# The record of a resource

What happens to a resource in a run, one dealing after the other: calls that are reported, probes
that are made, and the times that it is forced down, each with the weights before and after. The
record is kept beside the system and nothing reads it. Like the record of the host it has the latest
entry first.

Reports are events of their own. Probes are not: a check pass makes several and a tick makes several
passes, so the record has to be kept along the code of both. `System.runCheckOn` is the scheduled
check with a record in hand, and `tick_runCheckOn` says that the record does not disturb it. What is
claimed of systems and records together is then shown of single dealings (`Keeps`).
-/

namespace ResourceSelection

variable {ω : Type} [Scalar ω]

/-- How a dealing went for a resource. -/
structure Dealt (ω : Type) where
  /-- How the call went; there was none where the resource was forced down. -/
  result? : Option CallResult
  /-- The weight before. -/
  before : ω
  /-- The weight after. -/
  after : ω
deriving DecidableEq

namespace ManualExecutor

variable {τ σ γ : Type}

/-- Running tasks beside which something else is kept. -/
theorem runAll_beside {run : τ → ManualExecutor τ × σ → (Verdict × τ) × ManualExecutor τ × σ}
    {run' : τ → ManualExecutor τ × σ × γ → (Verdict × τ) × ManualExecutor τ × σ × γ}
    (h : ∀ task x s g, ∃ g', run' task (x, s, g) =
      ((run task (x, s)).1, (run task (x, s)).2.1, (run task (x, s)).2.2, g'))
    (entries : List (Handle × τ)) (x : ManualExecutor τ) (s : σ) (g : γ) :
    ∃ g', runAll run' entries (x, s, g) =
      ((runAll run entries (x, s)).1, (runAll run entries (x, s)).2.1,
        (runAll run entries (x, s)).2.2.1, (runAll run entries (x, s)).2.2.2, g') := by
  induction entries generalizing x s g with
  | nil => exact ⟨g, rfl⟩
  | cons entry rest ih =>
      obtain ⟨handle, task⟩ := entry
      obtain ⟨g₁, hrun⟩ := h task x s g
      unfold runAll
      rw [hrun]
      split
      · exact ih x s g
      · simp only
        split
        · obtain ⟨g₂, hrest⟩ := ih (run task (x, s)).2.1 (run task (x, s)).2.2 g₁
          rw [hrest]
          exact ⟨g₂, rfl⟩
        · obtain ⟨g₂, hrest⟩ := ih ((run task (x, s)).2.1.cancel handle) (run task (x, s)).2.2 g₁
          rw [hrest]
          exact ⟨g₂, rfl⟩

theorem tick_beside {run : τ → ManualExecutor τ × σ → (Verdict × τ) × ManualExecutor τ × σ}
    {run' : τ → ManualExecutor τ × σ × γ → (Verdict × τ) × ManualExecutor τ × σ × γ}
    (h : ∀ task x s g, ∃ g', run' task (x, s, g) =
      ((run task (x, s)).1, (run task (x, s)).2.1, (run task (x, s)).2.2, g'))
    (x : ManualExecutor τ) (s : σ) (g : γ) :
    (tick run' (x, s, g)).2.2.1 = (tick run (x, s)).2.2 := by
  obtain ⟨g', hall⟩ := runAll_beside h x.entries { x with entries := [] } s g
  unfold tick
  simp only [hall]

end ManualExecutor

namespace System

/-! ## Keeping a record -/

/-- The record after a dealing, if it came to anything. -/
def dealt (d : Dealing ω) (name : String) (s : System ω) (past : List (Dealt ω)) :
    List (Dealt ω) :=
  let t := s.enrolled d name
  match t.selector.find? name with
  | none => past
  | some r =>
    if d.concerns r t then
      let after := ((s.deal d name).2.selector.find? name).elim r.current (·.current)
      ⟨d.result? name s.host, r.current, after⟩ :: past
    else past

/-- The record after a list of resources has been checked. -/
def dealtEach (name : String) (probe : Probe ω) :
    List String → System ω → List (Dealt ω) → List (Dealt ω)
  | [], _, past => past
  | other :: rest, s, past =>
    dealtEach name probe rest (s.checkResource probe other).2
      (if other = name then s.dealt (.probe probe) name past else past)

/-- The record after a check pass. -/
def dealtIn (name : String) (order : List String) (s : System ω) (past : List (Dealt ω)) :
    List (Dealt ω) :=
  match s.selector.probe with
  | none => past
  | some probe => dealtEach name probe order s past

/-- What a scheduled check does, with a record in hand. -/
def runCheckOn (name : String) (id : Nat)
    (world : ManualExecutor Nat × System ω × List (Dealt ω)) :
    (Verdict × Nat) × ManualExecutor Nat × System ω × List (Dealt ω) :=
  let (x, s, past) := world
  let (answer, x', s') := runCheck id (x, s)
  let past :=
    if id = s.selector.id then (s.on x).dealtIn name s.selector.allResources past else past
  (answer, x', s', past)

/-- The record after an event. -/
def recorded (name : String) (e : Event ω) (s : System ω) (past : List (Dealt ω)) :
    List (Dealt ω) :=
  match e with
  | .call (.report result other) =>
    if other = name then s.dealt (.report result) name past else past
  | .call (.down other) => if other = name then s.dealt .down name past else past
  | .call (.check order) => s.dealtIn name order past
  | .tick => (ManualExecutor.tick (runCheckOn name) (s.host.executor, s, past)).2.2.2
  | _ => past

/-- The record after a run. -/
def record (name : String) : List (Event ω) → System ω → List (Dealt ω) → List (Dealt ω)
  | [], _, past => past
  | e :: es, s, past => record name es (s.step e) (s.recorded name e past)

/-- A tick does the same with a record in hand. -/
theorem tick_runCheckOn (name : String) (s : System ω) (past : List (Dealt ω)) :
    (ManualExecutor.tick (runCheckOn name) (s.host.executor, s, past)).2.2.1 =
      (ManualExecutor.tick runCheck (s.host.executor, s)).2.2 :=
  ManualExecutor.tick_beside (fun _ _ _ _ => ⟨_, rfl⟩) s.host.executor s past

variable {s : System ω} {name : String} {past : List (Dealt ω)} {r : Resource ω}

theorem dealt_of_unknown {d : Dealing ω}
    (hnone : (s.enrolled d name).selector.find? name = none) : s.dealt d name past = past := by
  unfold dealt
  simp only [hnone]

theorem dealt_of_spared {d : Dealing ω} (hr : (s.enrolled d name).selector.find? name = some r)
    (hspared : d.concerns r (s.enrolled d name) = false) :
    s.dealt d name past = past := by
  unfold dealt
  simp only [hr, hspared, Bool.false_eq_true, if_false]

/-- What goes on record is what becomes of the resource. -/
theorem dealt_eq (h : s.selector.Layout) {d : Dealing ω}
    (hr : (s.enrolled d name).selector.find? name = some r)
    (hconcerns : d.concerns r (s.enrolled d name) = true) :
    s.dealt d name past =
      ⟨d.result? name s.host, r.current, (d.after r (s.enrolled d name)).current⟩ :: past := by
  have hfind := find?_deal (s := s.enrolled d name) (h.enrols d name) hr d name
  rw [deal_enrolled, if_pos rfl] at hfind
  unfold dealt
  simp only [hr, hconcerns, if_true, hfind]
  rfl

/-! ## What dealings keep -/

/-- Every dealing, the record of it, and every call without a dealing, keep the property. -/
structure Keeps (name : String) (P : System ω → List (Dealt ω) → Prop) : Prop where
  deal {s : System ω} {past : List (Dealt ω)} (d : Dealing ω) :
    P s past → P (s.deal d name).2 (s.dealt d name past)
  other {s : System ω} {past : List (Dealt ω)} (d : Dealing ω) {other : String} :
    other ≠ name → P s past → P (s.deal d other).2 past
  on {s : System ω} {past : List (Dealt ω)} (x : ManualExecutor Nat) : P s past → P (s.on x) past
  select {s : System ω} {past : List (Dealt ω)} (exclude : Option (List String)) :
    P s past → P (s.selectWith exclude).2 past
  onState {s : System ω} {past : List (Dealt ω)} {f : Resource ω → Bool × Resource ω}
    (kept : ∀ r, Resource.Kept r (f r).2) (same : ∀ r, (f r).2.current = r.current)
    (other : String) : P s past → P (s.onState other f).2 past
  close {s : System ω} {past : List (Dealt ω)} : P s past → P s.close past

namespace Keeps

variable {P : System ω → List (Dealt ω) → Prop}

theorem checkEach (hP : Keeps name P) (probe : Probe ω) (order : List String) (h : P s past) :
    P (s.checkEach probe order).2 (dealtEach name probe order s past) := by
  induction order generalizing s past with
  | nil => exact h
  | cons other rest ih =>
      show P (System.checkEach probe rest (s.checkResource probe other).2).2
        (dealtEach name probe rest (s.checkResource probe other).2 (if other = name then _ else past))
      split
      · next heq =>
          subst heq
          exact ih (hP.deal (.probe probe) h)
      · next hne => exact ih (hP.other (.probe probe) hne h)

theorem checkIn (hP : Keeps name P) (order : List String) (h : P s past) :
    P (s.checkIn order).2 (s.dealtIn name order past) := by
  unfold System.checkIn dealtIn
  cases s.selector.probe with
  | none => exact h
  | some probe => exact hP.checkEach probe order h

theorem tick (hP : Keeps name P) (h : P s past) :
    P s.tick.2 (s.recorded name .tick past) := by
  have hrun (id : Nat) (x : ManualExecutor Nat) (w : System ω × List (Dealt ω)) (hw : P w.1 w.2) :
      P (runCheckOn name id (x, w)).2.2.1 (runCheckOn name id (x, w)).2.2.2 := by
    unfold runCheckOn runCheck
    simp only
    split
    · exact hP.checkIn _ (hP.on x hw)
    · exact hw
  have hticked := ManualExecutor.tick_induct (P := fun w : System ω × List (Dealt ω) => P w.1 w.2)
    hrun s.host.executor (s, past) h
  simp only [tick_runCheckOn] at hticked
  exact hP.on _ hticked

/-- Every event of the selector's own keeps the property. -/
theorem step (hP : Keeps name P) {e : Event ω} (hown : ∀ host, e ≠ .others host) (h : P s past) :
    P (s.step e) (s.recorded name e past) := by
  cases e with
  | others host => exact absurd rfl (hown host)
  | tick => exact hP.tick h
  | call c =>
      cases c with
      | select exclude => exact hP.select exclude h
      | check order => exact hP.checkIn order h
      | acquire other => exact hP.onState Resource.kept_acquire (fun _ => rfl) other h
      | release other => exact hP.onState Resource.kept_release (fun _ => rfl) other h
      | close => exact hP.close h
      | report result other =>
          show P (s.report result other).2 (if other = name then _ else past)
          split
          · next heq =>
              subst heq
              exact hP.deal (.report result) h
          · next hne => exact hP.other (.report result) hne h
      | down other =>
          show P (s.down other).2 (if other = name then _ else past)
          split
          · next heq =>
              subst heq
              exact hP.deal .down h
          · next hne => exact hP.other .down hne h

end Keeps

end System

end ResourceSelection
