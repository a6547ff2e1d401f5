import Mathlib.Data.List.Nodup
import ResourceSelection.Executor.Manual

/-!
# What a tick leaves scheduled

A tick takes the tasks out of the executor, runs them, and puts back those that go on. While one of
them runs the executor holds only what has been scheduled since the tick began, and nothing can be
said about all the tasks by looking at it. The view taken here is that of the executor with the
tasks put back that the tick still has in hand, `withEarlier`. A task that runs does not see those
tasks, and what it does to the executor it would have done to the whole one as well.

`Survives` says what this asks of an invariant: that it holds when a cancelled task is dropped, when
a task has run and goes on, and when a task has run and stops.
-/

namespace ResourceSelection.ManualExecutor

variable {τ σ : Type}

/-- Every scheduled task has a handle of its own, and the handle was given out. -/
structure Handed (x : ManualExecutor τ) : Prop where
  nodup : (x.entries.map (·.1)).Nodup
  given {entry : Handle × τ} : entry ∈ x.entries → entry.1 < x.cancelled.length

/-- The tasks that are scheduled and not cancelled. -/
def live (x : ManualExecutor τ) : List (Handle × τ) :=
  x.entries.filter fun entry => !x.isCancelled entry.1

/-- The executor with some tasks scheduled before all others. -/
def withEarlier (x : ManualExecutor τ) (entries : List (Handle × τ)) : ManualExecutor τ :=
  { x with entries := entries ++ x.entries }

theorem scheduled_eq_length_live (x : ManualExecutor τ) : x.scheduled = x.live.length :=
  List.countP_eq_length_filter

theorem mem_live {x : ManualExecutor τ} {entry : Handle × τ} :
    entry ∈ x.live ↔ entry ∈ x.entries ∧ x.isCancelled entry.1 = false := by
  simp [live, List.mem_filter]

theorem handed_default : ({} : ManualExecutor τ).Handed := ⟨List.nodup_nil, nofun⟩

/-! ## Cancelling -/

theorem isCancelled_cancel (x : ManualExecutor τ) (h k : Handle) :
    (x.cancel h).isCancelled k = (decide (k = h) || x.isCancelled k) := by
  unfold isCancelled cancel
  rw [List.getD_eq_getElem?_getD, List.getD_eq_getElem?_getD, List.getElem?_set]
  by_cases hk : k = h
  · subst hk
    by_cases hlt : k < x.cancelled.length
    · simp [hlt]
    · simp [hlt]
  · simp [hk, Ne.symm hk]

/-- A handle is cancelled only once. -/
theorem cancel_of_isCancelled {x : ManualExecutor τ} {h : Handle} (hc : x.isCancelled h = true) :
    x.cancel h = x := by
  unfold cancel
  congr 1
  refine List.ext_getElem? fun i => ?_
  rw [List.getElem?_set]
  split
  · next heq =>
      subst heq
      split
      · next hlt =>
          rw [isCancelled, List.getD_eq_getElem?_getD, List.getElem?_eq_getElem hlt] at hc
          rw [List.getElem?_eq_getElem hlt]
          exact congrArg some hc.symm
      · next hge => rw [List.getElem?_eq_none (Nat.le_of_not_lt hge)]
  · rfl

theorem live_cancel (x : ManualExecutor τ) (h : Handle) :
    (x.cancel h).live = x.live.filter fun entry => entry.1 ≠ h := by
  unfold live
  rw [List.filter_filter]
  refine List.filter_congr fun entry _ => ?_
  rw [isCancelled_cancel]
  simp

theorem Handed.cancel {x : ManualExecutor τ} (hx : x.Handed) (h : Handle) :
    (x.cancel h).Handed where
  nodup := hx.nodup
  given hentry := by
    rw [ManualExecutor.cancel, List.length_set]
    exact hx.given hentry

/-! ## Scheduling -/

theorem isCancelled_schedule (x : ManualExecutor τ) (task : τ) (k : Handle) :
    (x.schedule task).2.isCancelled k =
      (decide (k ≠ x.cancelled.length) && x.isCancelled k) := by
  unfold isCancelled schedule
  simp only
  rw [List.getD_eq_getElem?_getD, List.getD_eq_getElem?_getD]
  rcases Nat.lt_trichotomy k x.cancelled.length with hlt | rfl | hgt
  · rw [List.getElem?_append_left hlt]
    simp [Nat.ne_of_lt hlt]
  · simp
  · rw [List.getElem?_eq_none (by simp; omega), List.getElem?_eq_none (by omega)]
    simp [Nat.ne_of_gt hgt]

theorem live_schedule {x : ManualExecutor τ} (hx : x.Handed) (task : τ) :
    (x.schedule task).2.live = x.live ++ [(x.cancelled.length, task)] := by
  have hold : x.entries.filter (fun entry => !(x.schedule task).2.isCancelled entry.1) =
      x.live := by
    refine List.filter_congr fun entry hentry => ?_
    rw [isCancelled_schedule]
    simp [Nat.ne_of_lt (hx.given hentry)]
  unfold live
  show List.filter _ (x.entries ++ [(x.cancelled.length, task)]) = _
  rw [List.filter_append, hold, List.filter_cons_of_pos (by simp [isCancelled_schedule]),
    List.filter_nil]
  rfl

theorem Handed.schedule {x : ManualExecutor τ} (hx : x.Handed) (task : τ) :
    (x.schedule task).2.Handed where
  nodup := by
    show ((x.entries ++ [(x.cancelled.length, task)]).map (·.1)).Nodup
    rw [List.map_append, List.nodup_append']
    refine ⟨hx.nodup, List.nodup_singleton _, ?_⟩
    rintro h hh hnew
    obtain ⟨entry, hentry, rfl⟩ := List.mem_map.1 hh
    exact Nat.ne_of_lt (hx.given hentry) (List.mem_singleton.1 hnew)
  given := by
    intro entry hentry
    show entry.1 < (x.cancelled ++ [false]).length
    rw [List.length_append, List.length_singleton]
    rcases List.mem_append.1 hentry with hold | hnew
    · exact Nat.lt_succ_of_lt (hx.given hold)
    · rw [List.mem_singleton.1 hnew]
      exact Nat.lt_succ_self _

/-! ## Dropping a task -/

section Drop

variable {x : ManualExecutor τ} {before after : List (Handle × τ)} {h : Handle} {task : τ}

theorem Handed.drop (hx : (x.withEarlier (before ++ (h, task) :: after)).Handed) :
    (x.withEarlier (before ++ after)).Handed := by
  have hsub : (before ++ after ++ x.entries).Sublist
      (before ++ (h, task) :: after ++ x.entries) :=
    ((List.sublist_cons_self _ _).append_left before).append_right x.entries
  exact ⟨hx.nodup.sublist (hsub.map _), fun hentry => hx.given (hsub.subset hentry)⟩

theorem filter_drop {p : Handle × τ → Bool} (hp : p (h, task) = false) :
    (before ++ (h, task) :: after ++ x.entries).filter p =
      (before ++ after ++ x.entries).filter p := by
  simp [List.filter_append, hp]

/-- A task that is cancelled is not missed, and neither is one that nobody asks about. -/
theorem live_drop (hc : x.isCancelled h = true) :
    (x.withEarlier (before ++ (h, task) :: after)).live =
      (x.withEarlier (before ++ after)).live :=
  filter_drop (p := fun entry => !x.isCancelled entry.1) (by rw [hc]; rfl)

theorem filter_live_drop {p : Handle × τ → Bool} (hp : p (h, task) = false) :
    (x.withEarlier (before ++ (h, task) :: after)).live.filter p =
      (x.withEarlier (before ++ after)).live.filter p := by
  unfold live
  rw [List.filter_filter, List.filter_filter]
  exact filter_drop (p := fun entry => p entry && !x.isCancelled entry.1) (by rw [hp]; rfl)

/-- The handle of a dropped task belongs to no other one. -/
theorem live_cancel_dropped (hx : (x.withEarlier (before ++ (h, task) :: after)).Handed) :
    ((x.cancel h).withEarlier (before ++ after)).live = (x.withEarlier (before ++ after)).live := by
  show ((x.withEarlier (before ++ after)).cancel h).live = _
  rw [live_cancel, List.filter_eq_self]
  intro entry hentry
  have hmem : entry ∈ before ++ after ++ x.entries := (mem_live.1 hentry).1
  have hperm : (before ++ (h, task) :: after ++ x.entries).Perm
      ((h, task) :: (before ++ after ++ x.entries)) :=
    (List.perm_middle.append_right x.entries).trans (List.Perm.refl _)
  have hnodup := (hperm.map (·.1)).nodup hx.nodup
  rw [List.map_cons, List.nodup_cons] at hnodup
  exact decide_eq_true fun heq => hnodup.1 (List.mem_map.2 ⟨entry, hmem, heq⟩)

end Drop

/-! ## Ticks -/

/-- What survives every task of a tick, with the tasks in hand put back. -/
structure Survives (run : τ → ManualExecutor τ × σ → (Verdict × τ) × ManualExecutor τ × σ)
    (I : ManualExecutor τ → σ → Prop) : Prop where
  /-- A cancelled task is dropped. -/
  skip {x : ManualExecutor τ} {s : σ} {before after : List (Handle × τ)} {h : Handle} {task : τ} :
    I (x.withEarlier (before ++ (h, task) :: after)) s → x.isCancelled h = true →
      I (x.withEarlier (before ++ after)) s
  /-- A task runs and goes on. -/
  again {x x' : ManualExecutor τ} {s s' : σ} {before after : List (Handle × τ)} {h : Handle}
    {task task' : τ} :
    I (x.withEarlier (before ++ (h, task) :: after)) s → x.isCancelled h = false →
      run task (x, s) = ((.again, task'), x', s') →
      I (x'.withEarlier (before ++ (h, task') :: after)) s'
  /-- A task runs and stops. -/
  stop {x x' : ManualExecutor τ} {s s' : σ} {before after : List (Handle × τ)} {h : Handle}
    {task task' : τ} :
    I (x.withEarlier (before ++ (h, task) :: after)) s → x.isCancelled h = false →
      run task (x, s) = ((.stop, task'), x', s') →
      I ((x'.cancel h).withEarlier (before ++ after)) s'

namespace Survives

variable {run : τ → ManualExecutor τ × σ → (Verdict × τ) × ManualExecutor τ × σ}
  {I : ManualExecutor τ → σ → Prop}

theorem runAll (hI : Survives run I) (rest before : List (Handle × τ)) (x : ManualExecutor τ)
    (s : σ) (hs : I (x.withEarlier (before ++ rest)) s) :
    I ((ManualExecutor.runAll run rest (x, s)).2.2.1.withEarlier
        (before ++ (ManualExecutor.runAll run rest (x, s)).1))
      (ManualExecutor.runAll run rest (x, s)).2.2.2 := by
  induction rest generalizing before x s with
  | nil => exact hs
  | cons entry rest ih =>
      obtain ⟨h, task⟩ := entry
      unfold ManualExecutor.runAll
      split
      · next hc => exact ih before x s (hI.skip hs hc)
      · next hc =>
          rw [Bool.not_eq_true] at hc
          rcases hrun : run task (x, s) with ⟨⟨verdict, task'⟩, x', s'⟩
          simp only
          split
          · next hgoes =>
              obtain ⟨rfl, -⟩ := hgoes
              have hnext := hI.again hs hc hrun
              rw [List.append_cons] at hnext
              have htail := ih (before ++ [(h, task')]) x' s' hnext
              rwa [← List.append_cons] at htail
          · next hends =>
              refine ih before (x'.cancel h) s' ?_
              cases verdict with
              | stop => exact hI.stop hs hc hrun
              | again =>
                  -- it would go on, but its handle was cancelled while it ran
                  have hc' : x'.isCancelled h = true := by simpa using hends
                  rw [cancel_of_isCancelled hc']
                  exact hI.skip (hI.again hs hc hrun) hc'

/-- What survives every task survives the tick. -/
theorem tick (hI : Survives run I) {x : ManualExecutor τ} {s : σ} (hs : I x s) :
    I (ManualExecutor.tick run (x, s)).2.1 (ManualExecutor.tick run (x, s)).2.2 := by
  refine hI.runAll x.entries [] { x with entries := [] } s ?_
  show I { x with entries := x.entries ++ [] } s
  rwa [List.append_nil]

end Survives

end ResourceSelection.ManualExecutor
