import ResourceSelection.Proofs.Agenda
import ResourceSelection.Proofs.Executor

/-!
# An executor carries out the agenda

The executor keeps cancelled tasks until the next tick, and while it ticks it has the tasks in hand
and its list holds the newcomers only. `ManualExecutor.Represents` says which agenda an executor
stands for all the same: the tasks that are not cancelled, in order. During a tick it is asked of the
executor with the tasks in hand put back (`withEarlier`), and then a run does to both what it asks
for: a cancellation hits an entry in hand as well as one on the list, and a new task goes behind all
of them.

`represents_runAll` is the induction over the tasks in hand. Those that were cancelled before the tick
have a turn in it that comes to nothing, which the agenda does not know of (`Agenda.turns_filter`).
-/

namespace ResourceSelection.ManualExecutor

variable {τ σ : Type}

def perform (x : ManualExecutor τ) : Deed τ → ManualExecutor τ
  | .cancel h => x.cancel h
  | .schedule task => (x.schedule task).2

/-- A run of a task that conducts itself in the given way. -/
def runTask (conduct : Conduct τ σ) (task : τ) (world : ManualExecutor τ × σ) :
    (Verdict × τ) × ManualExecutor τ × σ :=
  let t := conduct task world.1.cancelled.length world.1.isCancelled world.2
  ((t.verdict, t.task), t.deeds.foldl perform world.1, t.world)

/-- Carries out an order; answers the new handle, or how many tasks ran. -/
def obey (conduct : Conduct τ σ) (world : ManualExecutor τ × σ) :
    Order τ → Option Nat × ManualExecutor τ × σ
  | .schedule task => (some (world.1.schedule task).1, (world.1.schedule task).2, world.2)
  | .cancel h => (none, world.1.cancel h, world.2)
  | .tick =>
    let (ran, world) := tick (runTask conduct) world
    (some ran, world)

def obeyAll (conduct : Conduct τ σ) : List (Order τ) → ManualExecutor τ × σ →
    List (Option Nat) × ManualExecutor τ × σ
  | [], world => ([], world)
  | order :: rest, world =>
    let (answer, world) := obey conduct world order
    let (answers, world) := obeyAll conduct rest world
    (answer :: answers, world)

/-- The agenda that an executor stands for. -/
structure Represents (x : ManualExecutor τ) (a : Agenda τ) : Prop where
  handed : x.Handed
  live : x.live = a.tasks
  given : x.cancelled.length = a.given
  gone (h : Handle) : x.isCancelled h = a.isGone h

/-- An entry, or another task in its place. -/
def replaced (h : Handle) (task : τ) (entry : Handle × τ) : Handle × τ :=
  if entry.1 = h then (h, task) else entry

theorem replaced_fst (h : Handle) (task : τ) (entry : Handle × τ) :
    (replaced h task entry).1 = entry.1 := by
  unfold replaced
  split
  · next heq => exact heq.symm
  · rfl

theorem map_replaced {h : Handle} {task : τ} {before after : List (Handle × τ)}
    (hnodup : ((before ++ (h, task) :: after).map (·.1)).Nodup) (task' : τ) :
    (before ++ (h, task) :: after).map (replaced h task') = before ++ (h, task') :: after := by
  rw [List.map_append, List.map_cons, List.nodup_append'] at hnodup
  obtain ⟨-, hafter, hapart⟩ := hnodup
  have hother {entries : List (Handle × τ)} (hnot : h ∉ entries.map (·.1)) :
      entries.map (replaced h task') = entries := by
    refine (List.map_congr_left fun entry hentry => if_neg fun heq => hnot ?_).trans
      (List.map_id entries)
    exact heq ▸ List.mem_map_of_mem hentry
  rw [List.map_append, List.map_cons, hother fun hmem => hapart hmem List.mem_cons_self,
    hother (List.nodup_cons.1 hafter).1]
  exact congrArg (before ++ · :: after) (if_pos rfl)

namespace Represents

variable {x : ManualExecutor τ} {a b : Agenda τ} {before rest : List (Handle × τ)} {h : Handle}
  {task : τ}

/-- What is noted makes no difference. -/
theorem congr (hx : x.Represents a) (htasks : b.tasks = a.tasks) (hgiven : b.given = a.given) :
    x.Represents b where
  handed := hx.handed
  live := hx.live.trans htasks.symm
  given := hx.given.trans hgiven.symm
  gone h := by
    rw [hx.gone]
    unfold Agenda.isGone Agenda.handles
    rw [htasks]

theorem drop (hx : x.Represents a) (h : Handle) : (x.cancel h).Represents (a.drop h) where
  handed := hx.handed.cancel h
  live := by
    rw [live_cancel, hx.live]
    rfl
  given := (List.length_set ..).trans hx.given
  gone k := by
    rw [isCancelled_cancel, hx.gone, Agenda.isGone_drop]

theorem cancel (hx : x.Represents a) (h : Handle) : (x.cancel h).Represents (a.cancel h) := by
  unfold Agenda.cancel
  split
  · exact (hx.drop h).congr rfl rfl
  · next hnew =>
      have hcancelled : x.isCancelled h = true := by
        unfold isCancelled
        rw [List.getD_eq_getElem?_getD,
          List.getElem?_eq_none (hx.given ▸ Nat.le_of_not_lt hnew), Option.getD_none]
      rw [cancel_of_isCancelled hcancelled]
      exact hx

theorem schedule (hx : x.Represents a) (task : τ) :
    (x.schedule task).2.Represents (a.schedule task) where
  handed := hx.handed.schedule task
  live := by
    rw [live_schedule hx.handed, hx.live, hx.given]
    rfl
  given := by
    show (x.cancelled ++ [false]).length = a.given + 1
    rw [List.length_append, hx.given]
    rfl
  gone k := by
    rw [isCancelled_schedule, hx.gone, hx.given, Agenda.isGone_schedule]

theorem perform (hx : x.Represents a) (deed : Deed τ) :
    (x.perform deed).Represents (a.perform deed) := by
  cases deed with
  | cancel h => exact hx.cancel h
  | schedule task => exact hx.schedule task

theorem performAll (hx : x.Represents a) (deeds : List (Deed τ)) :
    (deeds.foldl ManualExecutor.perform x).Represents (deeds.foldl Agenda.perform a) := by
  induction deeds generalizing x a with
  | nil => exact hx
  | cons deed rest ih => exact ih (hx.perform deed)

theorem skip (hx : (x.withEarlier (before ++ (h, task) :: rest)).Represents a)
    (hc : x.isCancelled h = true) : (x.withEarlier (before ++ rest)).Represents a :=
  ⟨hx.handed.drop, (live_drop hc).symm.trans hx.live, hx.given, hx.gone⟩

theorem put (hx : (x.withEarlier (before ++ (h, task) :: rest)).Represents a) (task' : τ) :
    (x.withEarlier (before ++ (h, task') :: rest)).Represents (a.put h task') := by
  have hentries : (x.withEarlier (before ++ (h, task') :: rest)).entries =
      (x.withEarlier (before ++ (h, task) :: rest)).entries.map (replaced h task') := by
    have hnodup := hx.handed.nodup
    unfold withEarlier at hnodup ⊢
    simp only [List.append_assoc, List.cons_append] at hnodup ⊢
    exact (map_replaced hnodup task').symm
  have hhandles : (x.withEarlier (before ++ (h, task') :: rest)).entries.map (·.1) =
      (x.withEarlier (before ++ (h, task) :: rest)).entries.map (·.1) := by
    rw [hentries, List.map_map]
    exact List.map_congr_left fun entry _ => replaced_fst h task' entry
  refine ⟨⟨?_, ?_⟩, ?_, hx.given, fun k => ?_⟩
  · exact hhandles ▸ hx.handed.nodup
  · intro entry hentry
    rw [hentries] at hentry
    obtain ⟨entry', hentry', rfl⟩ := List.mem_map.1 hentry
    rw [replaced_fst]
    exact hx.handed.given hentry'
  · have hlive := congrArg (List.map (replaced h task')) hx.live
    refine Eq.trans ?_ hlive
    unfold ManualExecutor.live
    rw [hentries, List.filter_map]
    refine congrArg (List.map _) (List.filter_congr fun entry _ => ?_)
    rw [Function.comp_apply, replaced_fst]
    rfl
  · refine (hx.gone k).trans ?_
    unfold Agenda.isGone
    rw [Agenda.handles_put]

theorem goes {t : Turn τ σ} (hx : (x.withEarlier (before ++ (h, task) :: rest)).Represents a)
    (hagain : t.verdict = .again) :
    (x.withEarlier (before ++ (h, t.task) :: rest)).Represents (a.conclude h t) := by
  unfold Agenda.conclude
  rw [hagain]
  exact hx.put t.task

theorem ends {t : Turn τ σ} (hx : (x.withEarlier (before ++ (h, task) :: rest)).Represents a)
    (hends : ¬ (t.verdict = .again ∧ (!x.isCancelled h) = true)) :
    ((x.cancel h).withEarlier (before ++ rest)).Represents (a.conclude h t) := by
  unfold Agenda.conclude
  cases hverdict : t.verdict with
  | again =>
      -- it would go on, but was cancelled meanwhile
      have hc : x.isCancelled h = true := by simpa [hverdict] using hends
      rw [cancel_of_isCancelled hc]
      exact (hx.put t.task).skip hc
  | stop =>
      have hdropped : ((x.cancel h).withEarlier (before ++ (h, task) :: rest)).Represents
          (a.drop h) := hx.drop h
      have hc : (x.cancel h).isCancelled h = true := by
        rw [isCancelled_cancel, decide_eq_true rfl, Bool.true_or]
      exact (hdropped.skip hc).congr rfl rfl

theorem lookup (hx : (x.withEarlier (before ++ (h, task) :: rest)).Represents a)
    (hc : x.isCancelled h = false) : a.tasks.lookup h = some task := by
  have hmem : (h, task) ∈ a.tasks := by
    rw [← hx.live]
    exact mem_live.2 ⟨by simp [withEarlier], hc⟩
  refine Agenda.lookup_of_mem ?_ hmem
  unfold Agenda.handles
  rw [← hx.live]
  exact hx.handed.nodup.sublist (List.filter_sublist.map _)

theorem lookup_none (hx : x.Represents a) (hc : x.isCancelled h = true) :
    a.tasks.lookup h = none := by
  rw [hx.gone] at hc
  exact Agenda.lookup_eq_none.2 (of_decide_eq_true hc)

end Represents

/-! ## A run, a tick -/

theorem perform_withEarlier (deed : Deed τ) (entries : List (Handle × τ)) (x : ManualExecutor τ) :
    (x.perform deed).withEarlier entries = (x.withEarlier entries).perform deed := by
  cases deed with
  | cancel h => rfl
  | schedule task => simp [perform, ManualExecutor.schedule, withEarlier]

theorem performAll_withEarlier (deeds : List (Deed τ)) (entries : List (Handle × τ))
    (x : ManualExecutor τ) : (deeds.foldl perform x).withEarlier entries =
      deeds.foldl perform (x.withEarlier entries) := by
  induction deeds generalizing x with
  | nil => rfl
  | cons deed rest ih =>
      rw [List.foldl_cons, List.foldl_cons, ih, perform_withEarlier]

/-- The tasks in hand have their turns, and the agenda has turned. -/
theorem represents_runAll (conduct : Conduct τ σ) (rest before : List (Handle × τ))
    {x : ManualExecutor τ} {a : Agenda τ} (hx : (x.withEarlier (before ++ rest)).Represents a)
    (s : σ) :
    (runAll (runTask conduct) rest (x, s)).2.1 =
        (Agenda.turns conduct (rest.map (·.1)) (a, s)).1 ∧
      (runAll (runTask conduct) rest (x, s)).2.2.2 =
        (Agenda.turns conduct (rest.map (·.1)) (a, s)).2.2 ∧
      ((runAll (runTask conduct) rest (x, s)).2.2.1.withEarlier
        (before ++ (runAll (runTask conduct) rest (x, s)).1)).Represents
          (Agenda.turns conduct (rest.map (·.1)) (a, s)).2.1 := by
  induction rest generalizing before x a s with
  | nil => exact ⟨rfl, rfl, hx⟩
  | cons entry rest ih =>
      obtain ⟨h, task⟩ := entry
      simp only [List.map_cons, Agenda.turns]
      unfold runAll
      cases hc : x.isCancelled h with
      | true =>
          rw [Agenda.turn_of_none conduct (hx.lookup_none hc), if_pos rfl, Nat.zero_add]
          exact ih before (hx.skip hc) s
      | false =>
          have hconduct : conduct task x.cancelled.length x.isCancelled s =
              conduct task a.given a.isGone s := by
            rw [show x.isCancelled = a.isGone from funext hx.gone,
              show x.cancelled.length = a.given from hx.given]
          rw [Agenda.turn_of_some conduct (hx.lookup hc)]
          simp only [runTask, hconduct, Bool.false_eq_true, if_false]
          generalize conduct task a.given a.isGone s = t
          -- what the run has asked for, it has asked of the executor and of the agenda
          have hdone : ((t.deeds.foldl perform x).withEarlier
              (before ++ (h, task) :: rest)).Represents
              (t.deeds.foldl Agenda.perform (a.note (.began h))) := by
            have hbegun : (x.withEarlier (before ++ (h, task) :: rest)).Represents
                (a.note (.began h)) := hx.congr rfl rfl
            rw [performAll_withEarlier]
            exact hbegun.performAll t.deeds
          generalize t.deeds.foldl perform x = x' at hdone
          generalize t.deeds.foldl Agenda.perform (a.note (.began h)) = b at hdone
          by_cases hgoes : t.verdict = .again ∧ (!x'.isCancelled h) = true
          · have hnext := hdone.goes hgoes.1
            rw [List.append_cons] at hnext
            obtain ⟨hran, hworld, hrep⟩ := ih (before ++ [(h, t.task)]) hnext t.world
            rw [← List.append_cons] at hrep
            rw [if_pos hgoes]
            exact ⟨by rw [hran, Nat.add_comm], hworld, hrep⟩
          · obtain ⟨hran, hworld, hrep⟩ := ih before (hdone.ends hgoes) t.world
            rw [if_neg hgoes]
            exact ⟨by rw [hran, Nat.add_comm], hworld, hrep⟩

/-- A tick of the executor is a tick of the agenda. -/
theorem represents_tick (conduct : Conduct τ σ) {x : ManualExecutor τ} {a : Agenda τ}
    (hx : x.Represents a) (ha : a.Sound) (s : σ) :
    (tick (runTask conduct) (x, s)).1 = (Agenda.tick conduct (a, s)).1 ∧
      (tick (runTask conduct) (x, s)).2.2 = (Agenda.tick conduct (a, s)).2.2 ∧
      (tick (runTask conduct) (x, s)).2.1.Represents (Agenda.tick conduct (a, s)).2.1 := by
  have htaken : ({ x with entries := [] } : ManualExecutor τ).withEarlier ([] ++ x.entries) = x := by
    simp [withEarlier]
  obtain ⟨hran, hworld, hrep⟩ := represents_runAll conduct x.entries [] (htaken ▸ hx) s
  -- the agenda has no turns for the tasks that were cancelled before
  have hturns : Agenda.turns conduct (x.entries.map (·.1)) (a, s) = Agenda.tick conduct (a, s) := by
    have hhandles : a.handles = (x.entries.map (·.1)).filter fun h => !x.isCancelled h := by
      unfold Agenda.handles
      rw [← hx.live, List.filter_map]
      rfl
    unfold Agenda.tick
    rw [hhandles]
    refine (Agenda.turns_filter conduct ha ?_ s).symm
    intro h hh hc
    obtain ⟨entry, hentry, rfl⟩ := List.mem_map.1 hh
    refine ⟨hx.given ▸ hx.handed.given hentry, ?_⟩
    have hgone : a.isGone entry.1 = true := by
      rw [← hx.gone]
      simpa using hc
    exact of_decide_eq_true hgone
  rw [hturns] at hran hworld hrep
  exact ⟨hran, hworld, hrep⟩

theorem represents_obey (conduct : Conduct τ σ) {x : ManualExecutor τ} {a : Agenda τ}
    (hx : x.Represents a) (ha : a.Sound) (order : Order τ) (s : σ) :
    (obey conduct (x, s) order).1 = (Agenda.obey conduct (a, s) order).1 ∧
      (obey conduct (x, s) order).2.2 = (Agenda.obey conduct (a, s) order).2.2 ∧
      (obey conduct (x, s) order).2.1.Represents (Agenda.obey conduct (a, s) order).2.1 := by
  cases order with
  | schedule task => exact ⟨congrArg some hx.given, rfl, hx.schedule task⟩
  | cancel h => exact ⟨rfl, rfl, hx.cancel h⟩
  | tick =>
      obtain ⟨hran, hworld, hrep⟩ := represents_tick conduct hx ha s
      exact ⟨congrArg some hran, hworld, hrep⟩

theorem represents_obeyAll (conduct : Conduct τ σ) {x : ManualExecutor τ} {a : Agenda τ}
    (hx : x.Represents a) (ha : a.Sound) (orders : List (Order τ)) (s : σ) :
    (obeyAll conduct orders (x, s)).1 = (Agenda.obeyAll conduct orders (a, s)).1 ∧
      (obeyAll conduct orders (x, s)).2.2 = (Agenda.obeyAll conduct orders (a, s)).2.2 ∧
      (obeyAll conduct orders (x, s)).2.1.Represents
        (Agenda.obeyAll conduct orders (a, s)).2.1 := by
  induction orders generalizing x a s with
  | nil => exact ⟨rfl, rfl, hx⟩
  | cons order rest ih =>
      obtain ⟨hanswer, hworld, hrep⟩ := represents_obey conduct hx ha order s
      have hsound := Agenda.sound_obey conduct ha order s
      simp only [obeyAll, Agenda.obeyAll]
      generalize obey conduct (x, s) order = step at hanswer hworld hrep ⊢
      generalize Agenda.obey conduct (a, s) order = step' at hanswer hworld hrep hsound ⊢
      obtain ⟨answer, x', s'⟩ := step
      obtain ⟨answer', a', s''⟩ := step'
      obtain rfl : answer = answer' := hanswer
      obtain rfl : s' = s'' := hworld
      obtain ⟨hanswers, hworlds, hreps⟩ := ih hrep hsound s'
      exact ⟨congrArg (answer :: ·) hanswers, hworlds, hreps⟩

theorem represents_default : ({} : ManualExecutor τ).Represents {} where
  handed := handed_default
  live := rfl
  given := rfl
  gone := fun _ => rfl

/-- The executor is where the agenda is, and what happens from here on is as the agenda tells it. -/
structure Follows (conduct : Conduct τ σ) (s : σ) (x : ManualExecutor τ) (a : Agenda τ) : Prop where
  live : x.live = a.tasks
  scheduled : x.scheduled = a.tasks.length
  /-- Tasks stand in the order in which their handles were given out. -/
  ascending : a.handles.Pairwise (· < ·)
  /-- A handle is cancelled when someone has cancelled it or its task has stopped. -/
  cancelled {h : Handle} : h < a.given →
    (x.isCancelled h = true ↔ .cancelled h ∈ a.log ∨ .stopped h ∈ a.log)
  /-- All others are on the agenda. -/
  standing {h : Handle} : h < a.given → (x.isCancelled h = false ↔ h ∈ a.handles)
  /-- Nobody begins after the end. -/
  final : a.log.Pairwise fun e e' => ∀ h, e.Ends h → e' ≠ .began h
  /-- The next tick runs tasks in order and once each, answers how many, and passes over those that
  were cancelled before their turn. -/
  tick : ∃ happened, (Agenda.tick conduct (a, s)).2.1.log = a.log ++ happened ∧
    (begun happened).Sublist a.handles ∧
    (ManualExecutor.tick (runTask conduct) (x, s)).1 = (begun happened).length ∧
    ∀ earlier h later, a.handles = earlier ++ h :: later → ∃ before, before <+: happened ∧
      (Agenda.turns conduct earlier (a, s)).2.1.log = a.log ++ before ∧
      (h ∈ begun happened ↔ .cancelled h ∉ before)
  /-- Then those that go on are still there, and those that came meanwhile are behind them. -/
  afterwards {h : Handle} : h ∈ (Agenda.tick conduct (a, s)).2.1.handles →
    h ∈ a.handles ∨ a.given ≤ h

theorem Represents.follows {x : ManualExecutor τ} {a : Agenda τ} (hx : x.Represents a)
    (ha : a.Sound) (conduct : Conduct τ σ) (s : σ) : x.Follows conduct s a where
  live := hx.live
  scheduled := (scheduled_eq_length_live x).trans (congrArg _ hx.live)
  ascending := ha.ascending
  cancelled hlt := by
    rw [hx.gone]
    unfold Agenda.isGone
    rw [decide_eq_true_iff, ha.gone hlt]
    simp only [not_forall, not_not]
    constructor
    · rintro ⟨_, he, rfl | rfl⟩
      · exact .inl he
      · exact .inr he
    · rintro (he | he)
      · exact ⟨_, he, .inl rfl⟩
      · exact ⟨_, he, .inr rfl⟩
  standing _ := by
    rw [hx.gone]
    unfold Agenda.isGone
    rw [decide_eq_false_iff_not, not_not]
  final := ha.final
  tick := by
    obtain ⟨happened, hticked, hturn⟩ := Agenda.tick_log conduct ha s
    obtain ⟨hran, -, -⟩ := represents_tick conduct hx ha s
    exact ⟨happened, hticked.log, hticked.inOrder, hran.trans hticked.ran, hturn⟩
  afterwards hmem := by
    obtain ⟨happened, hticked, -⟩ := Agenda.tick_log conduct ha s
    by_contra hnot
    rw [not_or, Nat.not_le] at hnot
    exact hticked.gone ha hnot.2 hnot.1 hmem

/-- An executor does what the agenda says, whatever its tasks do to it while they run. It gives the
same answers, leaves the world the same, and goes on in the same way. -/
theorem executor_refines_agenda (conduct : Conduct τ σ) (orders : List (Order τ)) (s : σ) :
    (obeyAll conduct orders ({}, s)).1 = (Agenda.obeyAll conduct orders ({}, s)).1 ∧
      (obeyAll conduct orders ({}, s)).2.2 = (Agenda.obeyAll conduct orders ({}, s)).2.2 ∧
      (obeyAll conduct orders ({}, s)).2.1.Follows conduct (obeyAll conduct orders ({}, s)).2.2
        (Agenda.obeyAll conduct orders ({}, s)).2.1 := by
  obtain ⟨hanswers, hworld, hrep⟩ :=
    represents_obeyAll conduct represents_default Agenda.sound_default orders s
  exact ⟨hanswers, hworld,
    hrep.follows (Agenda.sound_obeyAll conduct Agenda.sound_default orders s) conduct _⟩

end ResourceSelection.ManualExecutor
