import Mathlib.Order.Basic
import ResourceSelection.Executor.Loop

/-!
# Two executors come to rest alike

How often the body of a task runs, by the loop of a timer and by hand. Both executors are taken with
all the moves that other threads may make between theirs. All that is asked of the moves is when the
first cancellation comes: after a given number of runs were begun, so before the first run, during a
run, or in the pause after it.

The number of runs is the first one after which the task does not go on, `EndsWith`: it is cancelled
after them, or the last of them did not ask for another. For the loop this is carried by one
invariant over all moves. As long as another run can still be begun the task has gone on after all
runs so far, and once the flag is set it does not go on after the last one, whoever set the flag. A
run that is in progress when the loop is stopped counts: it was begun before.
-/

namespace ResourceSelection

variable {body : Nat → RunEnd} {point : Option Nat} {n r : Nat}

/-! ## The last run -/

/-- Whether a task that has run `n` times is to run again: it is not cancelled after `n` runs, and
the last one asked for another. -/
def GoesOn (body : Nat → RunEnd) (point : Option Nat) (n : Nat) : Prop :=
  point ≠ some n ∧ (n = 0 ∨ body n = .again)

/-- The task runs `r` times, up to and including the first run that stopped, crashed or was followed
by the cancellation. -/
structure EndsWith (body : Nat → RunEnd) (point : Option Nat) (r : Nat) : Prop where
  goesOn : ∀ n < r, GoesOn body point n
  ends : ¬ GoesOn body point r

theorem EndsWith.unique {r' : Nat} (h : EndsWith body point r) (h' : EndsWith body point r') :
    r = r' := by
  rcases Nat.lt_trichotomy r r' with hlt | heq | hgt
  · exact absurd (h'.goesOn r hlt) h.ends
  · exact heq
  · exact absurd (h.goesOn r' hgt) h'.ends

theorem EndsWith.cancelled (h : EndsWith body point r) (hlast : r = 0 ∨ body r = .again) :
    point = some r := by
  by_contra hne
  exact h.ends ⟨hne, hlast⟩

theorem not_goesOn_of_cancelled (h : point = some n) : ¬ GoesOn body point n := fun hgo => hgo.1 h

theorem not_goesOn_of_ended (hn : n ≠ 0) (h : body n ≠ .again) : ¬ GoesOn body point n :=
  fun hgo => hgo.2.elim hn h

namespace TimerTask

/-- From a pause after `n` runs the task goes through to the last run. -/
theorem rest?_eq_some (fuel n : Nat) (hn : n = 0 ∨ body n = .again) (hle : n ≤ r)
    (hfuel : r ≤ n + fuel) (hgo : ∀ k, n ≤ k → k < r → GoesOn body point k)
    (hends : ¬ GoesOn body point r) : ∃ itself, rest? body point n fuel = some ⟨r, itself⟩ := by
  induction fuel generalizing n with
  | zero =>
      obtain rfl : n = r := Nat.le_antisymm hle hfuel
      have hpoint : point = some n := by
        by_contra hne
        exact hends ⟨hne, hn⟩
      exact ⟨false, by rw [rest?, if_pos hpoint]⟩
  | succ fuel ih =>
      unfold rest?
      split
      · next hpoint =>
          obtain rfl : n = r :=
            Nat.le_antisymm hle (Nat.le_of_not_lt fun hlt => (hgo n (Nat.le_refl n) hlt).1 hpoint)
          exact ⟨false, rfl⟩
      · next hpoint =>
          have hlt : n < r := Nat.lt_of_le_of_ne hle fun heq => hends (heq ▸ ⟨hpoint, hn⟩)
          simp only
          rcases Nat.lt_or_eq_of_le hlt with hmore | rfl
          · have hagain : body (n + 1) = .again :=
              (hgo (n + 1) (Nat.le_succ n) hmore).2.resolve_left (Nat.succ_ne_zero n)
            simp only [hagain]
            exact ih (n + 1) (.inr hagain) hlt (by omega) fun k hk => hgo k (Nat.le_of_succ_le hk)
          · rcases hbody : body (n + 1) with _ | _ | _
            · exact ih (n + 1) (.inr hbody) (Nat.le_refl _) (by omega)
                fun k hk => hgo k (Nat.le_of_succ_le hk)
            · exact ⟨true, rfl⟩
            · exact ⟨true, rfl⟩

/-- Where a task comes to rest, it does not go on, and it went on until there. -/
theorem goesOn_of_rest? {fuel n : Nat} {itself : Bool} (hn : n = 0 ∨ body n = .again)
    (h : rest? body point n fuel = some ⟨r, itself⟩) :
    (∀ k, n ≤ k → k < r → GoesOn body point k) ∧ ¬ GoesOn body point r := by
  induction fuel generalizing n with
  | zero =>
      unfold rest? at h
      split at h
      · next hpoint =>
          cases h
          exact ⟨fun k hk hlt => absurd hk (Nat.not_le.2 hlt), not_goesOn_of_cancelled hpoint⟩
      · exact nomatch h
  | succ fuel ih =>
      unfold rest? at h
      split at h
      · next hpoint =>
          cases h
          exact ⟨fun k hk hlt => absurd hk (Nat.not_le.2 hlt), not_goesOn_of_cancelled hpoint⟩
      · next hpoint =>
          simp only at h
          rcases hbody : body (n + 1) with _ | _ | _ <;> rw [hbody] at h
          case again =>
            obtain ⟨hgo, hends⟩ := ih (.inr hbody) h
            refine ⟨fun k hk hlt => ?_, hends⟩
            rcases Nat.lt_or_eq_of_le hk with hmore | rfl
            · exact hgo k hmore hlt
            · exact ⟨hpoint, hn⟩
          all_goals
            cases h
            refine ⟨fun k hk hlt => ?_, not_goesOn_of_ended (Nat.succ_ne_zero n) (by simp [hbody])⟩
            obtain rfl : k = n := Nat.le_antisymm (Nat.le_of_lt_succ hlt) hk
            exact ⟨hpoint, hn⟩

theorem exists_rest?_iff :
    (∃ fuel itself, rest? body point 0 fuel = some ⟨r, itself⟩) ↔ EndsWith body point r := by
  constructor
  · rintro ⟨fuel, itself, h⟩
    obtain ⟨hgo, hends⟩ := goesOn_of_rest? (.inl rfl) h
    exact ⟨fun k => hgo k (Nat.zero_le k), hends⟩
  · intro h
    exact ⟨r, rest?_eq_some r 0 (.inl rfl) (Nat.zero_le r) (by omega)
      (fun k _ => h.goesOn k) h.ends⟩

end TimerTask

/-! ## The loop -/

namespace TimerLoop

/-- Whether a move keeps to the given time of the cancellation: nobody cancels at another time, and
no run is begun before somebody has. -/
def Timely (point : Option Nat) (s : TimerLoop) : Move → Prop
  | .look => s.cancelled = true ∨ point ≠ some s.begun
  | .cancel => point = some s.begun
  | _ => True

/-- The loop can come to be like this. -/
inductive Reaches (body : Nat → RunEnd) (point : Option Nat) : TimerLoop → Prop
  | start : Reaches body point {}
  | step {s s' : TimerLoop} {m : Move} :
    Reaches body point s → Timely point s m → s.step? body m = some s' → Reaches body point s'

/-- What the stage of the loop tells about the last run that was begun. -/
def StageOk (body : Nat → RunEnd) (point : Option Nat) (s : TimerLoop) : Prop :=
  match s.stage with
  | .pausing => s.hasBody = true ∧ (s.begun = 0 ∨ body s.begun = .again)
  | .deciding => s.hasBody = true ∧ (s.begun = 0 ∨ body s.begun = .again)
  | .awaiting => s.begun ≠ 0
  | .leaving => ¬ GoesOn body point s.begun
  | .gone => s.cancelled = true

structure Sound (body : Nat → RunEnd) (point : Option Nat) (s : TimerLoop) : Prop where
  goesOn : ∀ k < s.begun, GoesOn body point k
  cancelled : s.cancelled = true → ¬ GoesOn body point s.begun
  aborted : s.aborted = true → s.cancelled = true
  stage : StageOk body point s

variable {s s' : TimerLoop} {m : Move}

theorem sound_start : Sound body point {} :=
  ⟨nofun, nofun, nofun, rfl, .inl rfl⟩

theorem Sound.step (hs : Sound body point s) (htimely : Timely point s m)
    (hstep : s.step? body m = some s') : Sound body point s' := by
  obtain ⟨hgo, hcancelled, haborted, hstage⟩ := hs
  unfold StageOk at hstage
  cases m with
  | wake =>
      obtain ⟨hpausing, heq⟩ := Option.ite_none_right_eq_some.1 hstep
      cases heq
      rw [hpausing] at hstage
      exact ⟨hgo, hcancelled, haborted, hstage⟩
  | look =>
      obtain ⟨hdeciding, heq⟩ := Option.ite_none_right_eq_some.1 hstep
      rw [hdeciding] at hstage
      obtain ⟨hbody, hlast⟩ := hstage
      split at heq
      · next hfree =>
          cases heq
          have hflag : s.cancelled = false := by simpa [hbody] using hfree
          have hnow : GoesOn body point s.begun := ⟨htimely.resolve_left (by simp [hflag]), hlast⟩
          refine ⟨fun k hk => ?_, fun h => ?_, haborted, Nat.succ_ne_zero _⟩
          · rcases Nat.lt_succ_iff_lt_or_eq.1 hk with hlt | rfl
            · exact hgo k hlt
            · exact hnow
          · exact absurd (hflag.symm.trans h) Bool.false_ne_true
      · next hbusy =>
          cases heq
          have hflag : s.cancelled = true := by simpa [hbody] using hbusy
          exact ⟨hgo, hcancelled, haborted, hcancelled hflag⟩
  | run =>
      obtain ⟨-, heq⟩ := Option.ite_none_right_eq_some.1 hstep
      cases heq
      exact ⟨hgo, hcancelled, haborted, hstage⟩
  | resume =>
      obtain ⟨⟨hawaiting, hended⟩, heq⟩ := Option.ite_none_right_eq_some.1 hstep
      rw [hawaiting] at hstage
      rw [hended] at heq
      have hends (hlast : body s.begun ≠ .again) : ¬ GoesOn body point s.begun :=
        not_goesOn_of_ended hstage hlast
      cases hlast : body s.begun <;> rw [hlast] at heq hends <;> cases heq
      · exact ⟨hgo, hcancelled, haborted, rfl, .inr hlast⟩
      · exact ⟨hgo, hcancelled, haborted, hends nofun⟩
      · exact ⟨hgo, hcancelled, haborted, hends nofun⟩
  | leave =>
      obtain ⟨hleaving, heq⟩ := Option.ite_none_right_eq_some.1 hstep
      cases heq
      rw [hleaving] at hstage
      exact ⟨hgo, fun _ => hstage, fun _ => rfl, rfl⟩
  | halt =>
      obtain ⟨⟨hstopped, -⟩, heq⟩ := Option.ite_none_right_eq_some.1 hstep
      cases heq
      exact ⟨hgo, hcancelled, haborted, haborted hstopped⟩
  | cancel =>
      cases hstep
      refine ⟨hgo, fun _ => not_goesOn_of_cancelled htimely, fun _ => rfl, ?_⟩
      unfold StageOk
      revert hstage
      simp only
      cases s.stage <;> simp

theorem Reaches.sound (h : Reaches body point s) : Sound body point s := by
  induction h with
  | start => exact sound_start
  | step _ htimely hstep ih => exact ih.step htimely hstep

/-- A loop at rest has run the body to the last run, and its handle is cancelled. -/
theorem Reaches.endsWith (h : Reaches body point s) (hrest : s.Resting) :
    EndsWith body point s.ended ∧ s.cancelled = true := by
  have hs := h.sound
  have hflag : s.cancelled = true := by
    have hstage := hs.stage
    unfold StageOk at hstage
    rwa [hrest.1] at hstage
  exact ⟨hrest.2.symm ▸ ⟨hs.goesOn, hs.cancelled hflag⟩, hflag⟩

/-- At rest nothing moves any more, and a cancellation changes nothing. -/
theorem Resting.step_eq (hrest : s.Resting) (hflag : s.cancelled = true)
    (hstep : s.step? body m = some s') : s' = s := by
  obtain ⟨hgone, hended⟩ := hrest
  cases m with
  | cancel =>
      cases hstep
      cases s
      simp_all
  | run => exact absurd (Option.ite_none_right_eq_some.1 hstep).1 (by omega)
  | _ => simp [step?, hgone] at hstep

/-! ### Coming to rest -/

/-- The pause after `n` runs. -/
def paused (n : Nat) : TimerLoop := { begun := n, ended := n }

/-- Run `n` has taken place, and the loop has yet to see how it ended. -/
def awaited (n : Nat) : TimerLoop :=
  { stage := .awaiting, hasBody := false, begun := n, ended := n }

theorem Reaches.awaited (h : Reaches body point (paused n)) (hgo : point ≠ some n) :
    Reaches body point (awaited (n + 1)) := by
  have hdeciding := h.step (m := .wake) trivial rfl
  have hawaiting := hdeciding.step (m := .look) (.inr hgo) rfl
  have hfree : n < n + 1 := Nat.lt_succ_self n
  exact hawaiting.step (m := .run) trivial (if_pos hfree)

theorem reaches_paused (hgo : ∀ k < n, GoesOn body point k) (hlast : n = 0 ∨ body n = .again) :
    Reaches body point (paused n) := by
  induction n with
  | zero => exact .start
  | succ n ih =>
      have hn := hgo n (Nat.lt_succ_self n)
      have hawaited := (ih (fun k hk => hgo k (Nat.lt_succ_of_lt hk)) hn.2).awaited hn.1
      have hagain : body (n + 1) = .again := hlast.resolve_left (Nat.succ_ne_zero n)
      refine hawaited.step (m := .resume) trivial ?_
      simp [step?, TimerLoop.awaited, hagain, paused]

theorem exists_resting (h : EndsWith body point r) :
    ∃ s, Reaches body point s ∧ s.Resting ∧ s.ended = r := by
  by_cases hlast : r = 0 ∨ body r = .again
  · have hcancelled :=
      (reaches_paused h.goesOn hlast).step (m := .cancel) (h.cancelled hlast) rfl
    exact ⟨_, hcancelled.step (m := .halt) trivial rfl, ⟨rfl, rfl⟩, rfl⟩
  · obtain ⟨n, rfl⟩ : ∃ n, r = n + 1 := Nat.exists_eq_succ_of_ne_zero fun hzero => hlast (.inl hzero)
    have hn := h.goesOn n (Nat.lt_succ_self n)
    have hawaited := (reaches_paused (fun k hk => h.goesOn k (Nat.lt_succ_of_lt hk)) hn.2).awaited hn.1
    have hleaving : Reaches body point { awaited (n + 1) with stage := .leaving } := by
      refine hawaited.step (m := .resume) trivial ?_
      rcases hoc : body (n + 1) with _ | _ | _
      · exact absurd (.inr hoc) hlast
      · simp [step?, TimerLoop.awaited, hoc]
      · simp [step?, TimerLoop.awaited, hoc]
    exact ⟨_, hleaving.step (m := .leave) trivial rfl, ⟨rfl, rfl⟩, rfl⟩

end TimerLoop

/-! ## By hand -/

/-- The end of a run that does not crash. -/
def Verdict.runEnd : Verdict → RunEnd
  | .again => .again
  | .stop => .stop

namespace ManualExecutor

/-- One run of a task that is alone in its executor and says `verdict n` after run `n`; somebody may
cancel its handle while it runs. -/
def runOnce (verdict : Nat → Verdict) (during : Bool) :
    Unit → ManualExecutor Unit × Nat → (Verdict × Unit) × ManualExecutor Unit × Nat
  | (), (x, runs) => ((verdict (runs + 1), ()), if during then x.cancel 0 else x, runs + 1)

/-- The executor can come to be like this, by ticks and cancellations after the task was scheduled,
when the body has run so often. As before the cancellation keeps to its time: nobody cancels at
another time, and no run is begun before somebody has. -/
inductive Reaches (verdict : Nat → Verdict) (point : Option Nat) :
    ManualExecutor Unit → Nat → Prop
  | start : Reaches verdict point (schedule {} ()).2 0
  | cancel {x : ManualExecutor Unit} {runs : Nat} :
    Reaches verdict point x runs → point = some runs → Reaches verdict point (x.cancel 0) runs
  | tick {x : ManualExecutor Unit} {runs : Nat} (during : Bool) :
    Reaches verdict point x runs → (x.isCancelled 0 = true ∨ point ≠ some runs) →
      (during = true → point = some (runs + 1)) →
      Reaches verdict point (tick (runOnce verdict during) (x, runs)).2.1
        (tick (runOnce verdict during) (x, runs)).2.2

/-- The executor with its one task: waiting for the next tick, cancelled since the last one, and
dropped. -/
def waiting : ManualExecutor Unit := { entries := [(0, ())], cancelled := [false] }

def withdrawn : ManualExecutor Unit := { entries := [(0, ())], cancelled := [true] }

def dropped : ManualExecutor Unit := { entries := [], cancelled := [true] }

variable {verdict : Nat → Verdict} {during : Bool} {x : ManualExecutor Unit} {runs : Nat}

theorem tick_waiting_of_again (h : verdict (runs + 1) = .again) :
    tick (runOnce verdict false) (waiting, runs) = (1, waiting, runs + 1) := by
  simp [tick, runAll, runOnce, waiting, isCancelled, h]

theorem tick_waiting_of_not (h : ¬ (verdict (runs + 1) = .again ∧ during = false)) :
    tick (runOnce verdict during) (waiting, runs) = (1, dropped, runs + 1) := by
  cases during with
  | false =>
      have hstop : verdict (runs + 1) ≠ .again := fun hagain => h ⟨hagain, rfl⟩
      simp [tick, runAll, runOnce, waiting, isCancelled, cancel, dropped, hstop]
  | true => simp [tick, runAll, runOnce, waiting, isCancelled, cancel, dropped]

theorem again_iff (hbody : ∀ n, body n = (verdict n).runEnd) (n : Nat) :
    body n = .again ↔ verdict n = .again := by
  rw [hbody]
  cases verdict n <;> simp [Verdict.runEnd]

/-- The invariant of the executor: its task waits and is to go on, or is cancelled after its last
run. -/
structure Sound (body : Nat → RunEnd) (point : Option Nat) (x : ManualExecutor Unit)
    (runs : Nat) : Prop where
  goesOn : ∀ k < runs, GoesOn body point k
  now : x = waiting ∧ (runs = 0 ∨ body runs = .again) ∨
    (x = withdrawn ∨ x = dropped) ∧ ¬ GoesOn body point runs

theorem Sound.tick (hbody : ∀ n, body n = (verdict n).runEnd) (hx : Sound body point x runs)
    (hbefore : x.isCancelled 0 = true ∨ point ≠ some runs)
    (hduring : during = true → point = some (runs + 1)) :
    Sound body point (ManualExecutor.tick (runOnce verdict during) (x, runs)).2.1
      (ManualExecutor.tick (runOnce verdict during) (x, runs)).2.2 := by
  rcases hx.now with ⟨rfl, hlast⟩ | ⟨rfl | rfl, hends⟩
  · have hnow : GoesOn body point runs := ⟨hbefore.resolve_left (by decide), hlast⟩
    have hgo : ∀ k < runs + 1, GoesOn body point k := by
      intro k hk
      rcases Nat.lt_succ_iff_lt_or_eq.1 hk with hlt | rfl
      · exact hx.goesOn k hlt
      · exact hnow
    by_cases hagain : verdict (runs + 1) = .again ∧ during = false
    · obtain ⟨hagain, rfl⟩ := hagain
      rw [tick_waiting_of_again hagain]
      exact ⟨hgo, .inl ⟨rfl, .inr ((again_iff hbody _).2 hagain)⟩⟩
    · rw [tick_waiting_of_not hagain]
      refine ⟨hgo, .inr ⟨.inr rfl, fun hmore => hagain ⟨?_, ?_⟩⟩⟩
      · exact (again_iff hbody _).1 (hmore.2.resolve_left (Nat.succ_ne_zero runs))
      · exact Bool.eq_false_iff.2 fun hcancelled => hmore.1 (hduring hcancelled)
  · exact ⟨hx.goesOn, .inr ⟨.inr rfl, hends⟩⟩
  · exact ⟨hx.goesOn, .inr ⟨.inr rfl, hends⟩⟩

theorem Reaches.sound (hbody : ∀ n, body n = (verdict n).runEnd)
    (h : Reaches verdict point x runs) : Sound body point x runs := by
  induction h with
  | start => exact ⟨nofun, .inl ⟨rfl, .inl rfl⟩⟩
  | cancel _ hpoint ih =>
      have hends : ¬ GoesOn body point _ := not_goesOn_of_cancelled hpoint
      rcases ih.now with ⟨rfl, -⟩ | ⟨rfl | rfl, -⟩
      · exact ⟨ih.goesOn, .inr ⟨.inl rfl, hends⟩⟩
      · exact ⟨ih.goesOn, .inr ⟨.inl rfl, hends⟩⟩
      · exact ⟨ih.goesOn, .inr ⟨.inr rfl, hends⟩⟩
  | tick during _ hbefore hduring ih => exact ih.tick hbody hbefore hduring

/-- When nothing is scheduled the body has run to the last run, and the handle is cancelled. -/
theorem Reaches.endsWith (hbody : ∀ n, body n = (verdict n).runEnd)
    (h : Reaches verdict point x runs) (hrest : x.scheduled = 0) :
    EndsWith body point runs ∧ x.isCancelled 0 = true := by
  have hx := h.sound hbody
  rcases hx.now with ⟨rfl, -⟩ | ⟨rfl | rfl, hends⟩
  · exact nomatch hrest
  · exact ⟨⟨hx.goesOn, hends⟩, rfl⟩
  · exact ⟨⟨hx.goesOn, hends⟩, rfl⟩

theorem reaches_waiting (hbody : ∀ n, body n = (verdict n).runEnd)
    (hgo : ∀ k < runs, GoesOn body point k) (hlast : runs = 0 ∨ body runs = .again) :
    Reaches verdict point waiting runs := by
  induction runs with
  | zero => exact .start
  | succ runs ih =>
      have hnow := hgo runs (Nat.lt_succ_self runs)
      have hwaiting := ih (fun k hk => hgo k (Nat.lt_succ_of_lt hk)) hnow.2
      have hticked := hwaiting.tick false (.inr hnow.1) nofun
      have hagain := (again_iff hbody _).1 (hlast.resolve_left (Nat.succ_ne_zero runs))
      rwa [tick_waiting_of_again hagain] at hticked

theorem exists_resting (hbody : ∀ n, body n = (verdict n).runEnd)
    (h : EndsWith body point r) : ∃ x, Reaches verdict point x r ∧ x.scheduled = 0 := by
  by_cases hlast : r = 0 ∨ body r = .again
  · have hwaiting := reaches_waiting hbody h.goesOn hlast
    exact ⟨withdrawn, hwaiting.cancel (h.cancelled hlast), rfl⟩
  · obtain ⟨n, rfl⟩ : ∃ n, r = n + 1 := Nat.exists_eq_succ_of_ne_zero fun hzero => hlast (.inl hzero)
    have hn := h.goesOn n (Nat.lt_succ_self n)
    have hwaiting := reaches_waiting hbody (fun k hk => h.goesOn k (Nat.lt_succ_of_lt hk)) hn.2
    have hticked := hwaiting.tick false (.inr hn.1) nofun
    rw [tick_waiting_of_not fun hgo => hlast (.inr ((again_iff hbody _).2 hgo.1))] at hticked
    exact ⟨dropped, hticked, rfl⟩

end ManualExecutor

/-- However the runs of a task end and whenever it is cancelled, both executors run its body up to
and including the first run that stopped, crashed or was followed by the cancellation. A loop at
rest has its handle cancelled and never moves again. By hand, where no run may crash, the body has
run as often when nothing is scheduled any more, and the handle is as it is there. -/
theorem executors_agree (body : Nat → RunEnd) (point : Option Nat) :
    (∀ r, EndsWith body point r ↔
      ∃ fuel itself, TimerTask.rest? body point 0 fuel = some ⟨r, itself⟩) ∧
    (∀ r, EndsWith body point r ↔
      ∃ s, TimerLoop.Reaches body point s ∧ s.Resting ∧ s.ended = r) ∧
    (∀ s, TimerLoop.Reaches body point s → s.Resting →
      s.cancelled = true ∧ ∀ m s', s.step? body m = some s' → s' = s) ∧
    ∀ verdict : Nat → Verdict, (∀ n, body n = (verdict n).runEnd) →
      (∀ r, EndsWith body point r ↔
        ∃ x, ManualExecutor.Reaches verdict point x r ∧ x.scheduled = 0) ∧
      ∀ s x runs, TimerLoop.Reaches body point s → s.Resting →
        ManualExecutor.Reaches verdict point x runs → x.scheduled = 0 →
        runs = s.ended ∧ x.isCancelled 0 = s.cancelled := by
  refine ⟨fun r => TimerTask.exists_rest?_iff.symm, fun r => ⟨TimerLoop.exists_resting, ?_⟩,
    fun s hs hrest => ?_, fun verdict hbody => ⟨fun r => ?_, fun s x runs hs hrest hx hidle => ?_⟩⟩
  · rintro ⟨s, hs, hrest, rfl⟩
    exact (hs.endsWith hrest).1
  · have hflag := (hs.endsWith hrest).2
    exact ⟨hflag, fun m s' => hrest.step_eq hflag⟩
  · refine ⟨ManualExecutor.exists_resting hbody, ?_⟩
    rintro ⟨x, hx, hidle⟩
    exact (hx.endsWith hbody hidle).1
  · obtain ⟨hloop, hflag⟩ := hs.endsWith hrest
    obtain ⟨hhand, hcancelled⟩ := hx.endsWith hbody hidle
    exact ⟨hhand.unique hloop, hcancelled.trans hflag.symm⟩

end ResourceSelection
