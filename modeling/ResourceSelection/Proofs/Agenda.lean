import Mathlib.Data.List.Nodup
import ResourceSelection.Executor.Manual

/-!
# Recurring tasks as a list

What an executor of recurring tasks is meant to do can be said of one list: the tasks that are
scheduled and have neither been cancelled nor stopped, in the order in which they were scheduled. A
tick gives each of them its turn, as they stood when it began. A task that is no longer on the list
when its turn comes has none. Scheduling puts a task at the end of the list, cancelling takes it off,
and a run that stops takes it off as well.

There is nothing in hand here while a task runs, and no flag that outlives a task. `Agenda.log` says
what has happened, and all that is said of the past of a task is read off it. `Agenda.Sound` is what
every operation preserves: who is on the list is who was not cancelled and has not stopped, and
nobody who was taken off begins again. `Agenda.Turned` is what some turns have added.
-/

namespace ResourceSelection

variable {τ σ : Type}

/-- What a task may do to the executor while it runs. -/
inductive Deed (τ : Type) where
  | cancel (h : Handle)
  | schedule (task : τ)

/-- One run of a task. -/
structure Turn (τ σ : Type) where
  deeds : List (Deed τ)
  verdict : Verdict
  /-- What the task has become. -/
  task : τ
  /-- The rest of the world afterwards. -/
  world : σ

/-- How tasks run, given the number of handles that were given out, which handles are cancelled, and
the rest of the world. Handles are numbers in order, so a task that schedules others can tell
beforehand which handles it will get. -/
abbrev Conduct (τ σ : Type) := τ → Nat → (Handle → Bool) → σ → Turn τ σ

/-- What is asked of an executor between runs. -/
inductive Order (τ : Type) where
  | schedule (task : τ)
  | cancel (h : Handle)
  | tick

inductive Happening where
  | scheduled (h : Handle)
  | cancelled (h : Handle)
  /-- A run of the task begins. -/
  | began (h : Handle)
  /-- A run of the task ends, and is the last one. -/
  | stopped (h : Handle)
deriving DecidableEq

namespace Happening

/-- The task of the handle is taken off the list. -/
def Ends (h : Handle) (e : Happening) : Prop := e = cancelled h ∨ e = stopped h

@[simp] theorem ends_cancelled {h k : Handle} : (cancelled k).Ends h ↔ h = k := by
  simp [Ends, eq_comm]

@[simp] theorem ends_stopped {h k : Handle} : (stopped k).Ends h ↔ h = k := by
  simp [Ends, eq_comm]

@[simp] theorem not_ends_scheduled {h k : Handle} : ¬ (scheduled k).Ends h := by simp [Ends]

@[simp] theorem not_ends_began {h k : Handle} : ¬ (began k).Ends h := by simp [Ends]

end Happening

/-- The handles whose runs began, in order. -/
def begun (happened : List Happening) : List Handle :=
  happened.filterMap fun
    | .began h => some h
    | _ => none

structure Agenda (τ : Type) where
  /-- The tasks that go on, in order of scheduling. -/
  tasks : List (Handle × τ) := []
  /-- How many handles were given out. -/
  given : Nat := 0
  /-- What has happened, in order. -/
  log : List Happening := []

namespace Agenda

def handles (a : Agenda τ) : List Handle := a.tasks.map (·.1)

/-- Whether there is no task of that handle, or no longer. -/
def isGone (a : Agenda τ) (h : Handle) : Bool := decide (h ∉ a.handles)

def note (e : Happening) (a : Agenda τ) : Agenda τ := { a with log := a.log ++ [e] }

def drop (h : Handle) (a : Agenda τ) : Agenda τ :=
  { a with tasks := a.tasks.filter fun entry => entry.1 ≠ h }

/-- The agenda with another task in the place of one. -/
def put (h : Handle) (task : τ) (a : Agenda τ) : Agenda τ :=
  { a with tasks := a.tasks.map fun entry => if entry.1 = h then (h, task) else entry }

def schedule (task : τ) (a : Agenda τ) : Agenda τ :=
  note (.scheduled a.given) { a with tasks := a.tasks ++ [(a.given, task)], given := a.given + 1 }

/-- A handle that was not given out cannot be cancelled. -/
def cancel (h : Handle) (a : Agenda τ) : Agenda τ :=
  if h < a.given then (a.drop h).note (.cancelled h) else a

def perform (a : Agenda τ) : Deed τ → Agenda τ
  | .cancel h => a.cancel h
  | .schedule task => a.schedule task

/-- The end of a run. -/
def conclude (h : Handle) (turn : Turn τ σ) (a : Agenda τ) : Agenda τ :=
  match turn.verdict with
  | .again => a.put h turn.task
  | .stop => (a.drop h).note (.stopped h)

/-- The turn of a handle; answers how many tasks ran. -/
def turn (conduct : Conduct τ σ) (h : Handle) (world : Agenda τ × σ) : Nat × Agenda τ × σ :=
  let (a, s) := world
  match a.tasks.lookup h with
  | none => (0, a, s)
  | some task =>
    let t := conduct task a.given a.isGone s
    (1, (t.deeds.foldl perform (a.note (.began h))).conclude h t, t.world)

/-- The turns of some handles, one after the other. -/
def turns (conduct : Conduct τ σ) : List Handle → Agenda τ × σ → Nat × Agenda τ × σ
  | [], world => (0, world)
  | h :: rest, world =>
    let (ran, world) := turn conduct h world
    let (more, world) := turns conduct rest world
    (ran + more, world)

/-- Every task on the list has its turn. -/
def tick (conduct : Conduct τ σ) (world : Agenda τ × σ) : Nat × Agenda τ × σ :=
  turns conduct world.1.handles world

/-- Carries out an order; answers the new handle, or how many tasks ran. -/
def obey (conduct : Conduct τ σ) (world : Agenda τ × σ) :
    Order τ → Option Nat × Agenda τ × σ
  | .schedule task => (some world.1.given, world.1.schedule task, world.2)
  | .cancel h => (none, world.1.cancel h, world.2)
  | .tick =>
    let (ran, world) := tick conduct world
    (some ran, world)

def obeyAll (conduct : Conduct τ σ) : List (Order τ) → Agenda τ × σ →
    List (Option Nat) × Agenda τ × σ
  | [], world => ([], world)
  | order :: rest, world =>
    let (answer, world) := obey conduct world order
    let (answers, world) := obeyAll conduct rest world
    (answer :: answers, world)

/-! ## What every operation preserves -/

structure Sound (a : Agenda τ) : Prop where
  /-- Handles are numbered in order of scheduling. -/
  ascending : a.handles.Pairwise (· < ·)
  given {h : Handle} : h ∈ a.handles → h < a.given
  /-- Who is off the list was cancelled or has stopped. -/
  gone {h : Handle} : h < a.given → (h ∈ a.handles ↔ ∀ e ∈ a.log, ¬ e.Ends h)
  /-- Only handles that were given out end. -/
  ends {h : Handle} {e : Happening} : e ∈ a.log → e.Ends h → h < a.given
  /-- Nobody begins after the end. -/
  final : a.log.Pairwise fun e e' => ∀ h, e.Ends h → e' ≠ .began h

theorem sound_default : ({} : Agenda τ).Sound where
  ascending := .nil
  given := nofun
  gone := nofun
  ends := nofun
  final := .nil

theorem handles_drop (h : Handle) (a : Agenda τ) :
    (a.drop h).handles = a.handles.filter fun k => k ≠ h := by
  simp [handles, drop, List.filter_map, Function.comp_def]

theorem handles_put (h : Handle) (task : τ) (a : Agenda τ) : (a.put h task).handles = a.handles := by
  unfold handles put
  rw [List.map_map]
  refine List.map_congr_left fun entry _ => ?_
  simp only [Function.comp_apply]
  split
  · next heq => exact heq.symm
  · rfl

theorem handles_schedule (task : τ) (a : Agenda τ) :
    (a.schedule task).handles = a.handles ++ [a.given] := by
  simp [handles, schedule, note]

theorem isGone_drop (h k : Handle) (a : Agenda τ) :
    (a.drop h).isGone k = (decide (k = h) || a.isGone k) := by
  simp only [isGone, handles_drop, List.mem_filter, decide_eq_true_iff]
  by_cases hk : k = h
  · simp [hk]
  · simp [hk]

theorem isGone_schedule (task : τ) (k : Handle) (a : Agenda τ) :
    (a.schedule task).isGone k = (decide (k ≠ a.given) && a.isGone k) := by
  simp only [isGone, handles_schedule, List.mem_append, List.mem_singleton]
  by_cases hk : k = a.given
  · simp [hk]
  · simp [hk]

theorem lookup_eq_none {h : Handle} {a : Agenda τ} :
    a.tasks.lookup h = none ↔ h ∉ a.handles := by
  unfold handles
  rw [List.lookup_eq_none_iff, List.mem_map]
  constructor
  · rintro hnone ⟨entry, hentry, rfl⟩
    simpa using hnone entry hentry
  · intro hnot entry hentry
    simpa using fun heq => hnot ⟨entry, hentry, heq.symm⟩

theorem lookup_of_mem {h : Handle} {task : τ} {a : Agenda τ} (hnodup : a.handles.Nodup)
    (hmem : (h, task) ∈ a.tasks) : a.tasks.lookup h = some task := by
  obtain ⟨before, after, hsplit⟩ := List.append_of_mem hmem
  refine List.lookup_eq_some_iff.2 ⟨before, after, hsplit, ?_⟩
  intro entry hentry
  unfold handles at hnodup
  rw [hsplit, List.map_append, List.map_cons, List.nodup_append'] at hnodup
  have hne : entry.1 ≠ h := by
    rintro rfl
    exact hnodup.2.2 (List.mem_map_of_mem hentry) List.mem_cons_self
  simpa using Ne.symm hne

namespace Sound

variable {a b : Agenda τ} {e : Happening}

/-- What one happening makes of the list. -/
theorem noted (ha : a.Sound) (hlog : b.log = a.log ++ [e]) (hgiven : a.given ≤ b.given)
    (hascending : b.handles.Pairwise (· < ·)) (hbelow : ∀ h ∈ b.handles, h < b.given)
    (hhandles : ∀ h < b.given, h ∈ b.handles ↔ (h ∈ a.handles ∨ a.given ≤ h) ∧ ¬ e.Ends h)
    (hends : ∀ h, e.Ends h → h < a.given) (hbegan : ∀ h, e = .began h → h ∈ a.handles) :
    b.Sound where
  ascending := hascending
  given := hbelow _
  gone := by
    intro h hlt
    rw [hhandles h hlt, hlog]
    simp only [List.forall_mem_append, List.forall_mem_singleton]
    refine and_congr_left fun _ => ?_
    rcases Nat.lt_or_ge h a.given with hold | hnew
    · rw [← ha.gone hold, or_iff_left (Nat.not_le_of_lt hold)]
    · exact iff_of_true (.inr hnew) fun e he hend => Nat.not_lt_of_le hnew (ha.ends he hend)
  ends := by
    intro h e' he' hend
    rw [hlog, List.mem_append, List.mem_singleton] at he'
    rcases he' with hold | rfl
    · exact Nat.lt_of_lt_of_le (ha.ends hold hend) hgiven
    · exact Nat.lt_of_lt_of_le (hends h hend) hgiven
  final := by
    rw [hlog, List.pairwise_append]
    refine ⟨ha.final, List.pairwise_singleton _ _, ?_⟩
    intro e' he' e'' he'' h hend heq
    rw [List.mem_singleton] at he''
    subst he''
    have hmem := hbegan h heq
    exact (ha.gone (ha.given hmem)).1 hmem e' he' hend

theorem schedule (ha : a.Sound) (task : τ) : (a.schedule task).Sound := by
  refine ha.noted (e := .scheduled a.given) rfl (Nat.le_succ _) ?_ ?_ ?_ (by simp) nofun
  · rw [handles_schedule, List.pairwise_append]
    refine ⟨ha.ascending, List.pairwise_singleton _ _, ?_⟩
    intro h hh k hk
    rw [List.mem_singleton.1 hk]
    exact ha.given hh
  · intro h hh
    show h < a.given + 1
    rw [handles_schedule, List.mem_append, List.mem_singleton] at hh
    rcases hh with hold | rfl
    · exact Nat.lt_succ_of_lt (ha.given hold)
    · exact Nat.lt_succ_self _
  · intro h hlt
    have hle : h ≤ a.given := Nat.le_of_lt_succ hlt
    rw [handles_schedule, List.mem_append, List.mem_singleton]
    simp only [Happening.not_ends_scheduled, not_false_eq_true, and_true]
    refine or_congr_right ?_
    omega

theorem begin (ha : a.Sound) {h : Handle} (hh : h ∈ a.handles) : (a.note (.began h)).Sound := by
  refine ha.noted (e := .began h) rfl (Nat.le_refl _) ha.ascending (fun _ => ha.given) ?_ (by simp) ?_
  · intro k hlt
    have hlt : ¬ a.given ≤ k := Nat.not_le_of_lt hlt
    simp only [Happening.not_ends_began, not_false_eq_true, and_true, or_iff_left hlt]
    rfl
  · rintro k ⟨⟩
    exact hh

theorem strike (ha : a.Sound) {h : Handle} (hgiven : h < a.given) (he : ∀ k, e.Ends k ↔ k = h) :
    ((a.drop h).note e).Sound := by
  have hhandles : ((a.drop h).note e).handles = a.handles.filter fun k => k ≠ h := handles_drop h a
  refine ha.noted (e := e) rfl (Nat.le_refl _) ?_ ?_ ?_ ?_ ?_
  · rw [hhandles]
    exact ha.ascending.filter _
  · intro k hk
    rw [hhandles] at hk
    exact ha.given (List.mem_of_mem_filter hk)
  · intro k hlt
    have hlt : ¬ a.given ≤ k := Nat.not_le_of_lt hlt
    rw [hhandles, List.mem_filter, decide_eq_true_iff, or_iff_left hlt, he]
  · intro k hend
    rw [(he k).1 hend]
    exact hgiven
  · rintro k rfl
    exact absurd ((he h).2 rfl) Happening.not_ends_began

theorem cancel (ha : a.Sound) (h : Handle) : (a.cancel h).Sound := by
  unfold Agenda.cancel
  split
  · next hgiven => exact ha.strike hgiven fun _ => Happening.ends_cancelled
  · exact ha

theorem put (ha : a.Sound) (h : Handle) (task : τ) : (a.put h task).Sound := by
  have hhandles := handles_put h task a
  exact ⟨hhandles ▸ ha.ascending, fun hh => ha.given (hhandles ▸ hh),
    fun hlt => hhandles ▸ ha.gone hlt, ha.ends, ha.final⟩

end Sound

/-! ## What some turns have added -/

/-- The second agenda comes after the first: meanwhile some of the handles had their turns, and this
has happened. -/
structure Turned (turns : List Handle) (ran : Nat) (a b : Agenda τ) (happened : List Happening) :
    Prop where
  sound : b.Sound
  given : a.given ≤ b.given
  log : b.log = a.log ++ happened
  /-- Those that ran did so in the order of their turns, once each. -/
  inOrder : (begun happened).Sublist turns
  ran : ran = (begun happened).length
  stopped {h : Handle} : .stopped h ∈ happened → .began h ∈ happened

theorem mem_begun {h : Handle} {happened : List Happening} :
    h ∈ begun happened ↔ .began h ∈ happened := by
  unfold begun
  rw [List.mem_filterMap]
  constructor
  · rintro ⟨e, he, hbegan⟩
    cases e with
    | began k =>
        cases hbegan
        exact he
    | scheduled k => exact nomatch hbegan
    | cancelled k => exact nomatch hbegan
    | stopped k => exact nomatch hbegan
  · intro he
    exact ⟨_, he, rfl⟩

theorem begun_append (before after : List Happening) :
    begun (before ++ after) = begun before ++ begun after := List.filterMap_append

namespace Turned

variable {a b c : Agenda τ} {turns turns' : List Handle} {ran ran' : Nat}
  {happened happened' : List Happening} {h : Handle}

theorem refl (ha : a.Sound) (turns : List Handle) : Turned turns 0 a a [] where
  sound := ha
  given := Nat.le_refl _
  log := (List.append_nil _).symm
  inOrder := List.nil_sublist turns
  ran := rfl
  stopped := nofun

theorem trans (hab : Turned turns ran a b happened) (hbc : Turned turns' ran' b c happened') :
    Turned (turns ++ turns') (ran + ran') a c (happened ++ happened') where
  sound := hbc.sound
  given := Nat.le_trans hab.given hbc.given
  log := by rw [hbc.log, hab.log, List.append_assoc]
  inOrder := begun_append happened happened' ▸ hab.inOrder.append hbc.inOrder
  ran := by rw [begun_append, List.length_append, hab.ran, hbc.ran]
  stopped hstopped := by
    rcases List.mem_append.1 hstopped with hbefore | hafter
    · exact List.mem_append_left _ (hab.stopped hbefore)
    · exact List.mem_append_right _ (hbc.stopped hafter)

/-- A task that has not had its turn is still on the list, unless it was cancelled. -/
theorem mem_handles (hab : Turned turns ran a b happened) (ha : a.Sound) (hh : h ∈ a.handles)
    (hturn : h ∉ turns) : h ∈ b.handles ↔ .cancelled h ∉ happened := by
  have hgiven := Nat.lt_of_lt_of_le (ha.given hh) hab.given
  have hbefore := (ha.gone (ha.given hh)).1 hh
  rw [hab.sound.gone hgiven, hab.log]
  constructor
  · intro hnone hcancelled
    exact hnone _ (List.mem_append_right _ hcancelled) (.inl rfl)
  · intro hnot e he hend
    rcases List.mem_append.1 he with hold | hnew
    · exact hbefore e hold hend
    · rcases hend with rfl | rfl
      · exact hnot hnew
      · exact hturn (hab.inOrder.subset (mem_begun.2 (hab.stopped hnew)))

end Turned

section Turns

variable {a : Agenda τ} (conduct : Conduct τ σ)

theorem turned_perform (ha : a.Sound) (deed : Deed τ) :
    ∃ happened, Turned [] 0 a (a.perform deed) happened := by
  cases deed with
  | schedule task =>
      exact ⟨_, ha.schedule task, Nat.le_succ _, rfl, List.nil_sublist [], rfl, by simp⟩
  | cancel h =>
      by_cases hgiven : h < a.given
      · have heq : a.perform (.cancel h) = (a.drop h).note (.cancelled h) := if_pos hgiven
        rw [heq]
        exact ⟨_, ha.strike hgiven fun _ => Happening.ends_cancelled, Nat.le_refl _, rfl,
          List.nil_sublist [], rfl, by simp⟩
      · have heq : a.perform (.cancel h) = a := if_neg hgiven
        rw [heq]
        exact ⟨[], .refl ha []⟩

theorem turned_deeds (ha : a.Sound) (deeds : List (Deed τ)) :
    ∃ happened, Turned [] 0 a (deeds.foldl perform a) happened := by
  induction deeds generalizing a with
  | nil => exact ⟨[], .refl ha []⟩
  | cons deed rest ih =>
      obtain ⟨first, hfirst⟩ := turned_perform ha deed
      obtain ⟨second, hsecond⟩ := ih hfirst.sound
      exact ⟨first ++ second, hfirst.trans hsecond⟩

theorem turn_of_none {h : Handle} (hlookup : a.tasks.lookup h = none) (s : σ) :
    turn conduct h (a, s) = (0, a, s) := by
  simp only [turn, hlookup]

theorem turn_of_some {h : Handle} {task : τ} (hlookup : a.tasks.lookup h = some task) (s : σ) :
    turn conduct h (a, s) =
      (1, ((conduct task a.given a.isGone s).deeds.foldl perform (a.note (.began h))).conclude h
        (conduct task a.given a.isGone s), (conduct task a.given a.isGone s).world) := by
  simp only [turn, hlookup]

theorem turned_run (ha : a.Sound) {h : Handle} (hmem : h ∈ a.handles) (t : Turn τ σ) :
    ∃ happened, .began h ∈ happened ∧
      Turned [h] 1 a ((t.deeds.foldl perform (a.note (.began h))).conclude h t) happened := by
  have hbegin : Turned [h] 1 a (a.note (.began h)) [.began h] :=
    ⟨ha.begin hmem, Nat.le_refl _, rfl, List.Sublist.refl _, rfl, by simp⟩
  obtain ⟨happened, hdeeds⟩ := turned_deeds hbegin.sound t.deeds
  have hran := hbegin.trans hdeeds
  have hgiven := Nat.lt_of_lt_of_le (ha.given hmem) hran.given
  have hbegan : .began h ∈ [.began h] ++ happened := List.mem_cons_self
  generalize t.deeds.foldl perform (a.note (.began h)) = b at hran hgiven
  generalize [.began h] ++ happened = meanwhile at hran hbegan
  unfold conclude
  cases t.verdict with
  | again =>
      exact ⟨meanwhile, hbegan, hran.sound.put h t.task, hran.given, hran.log, hran.inOrder,
        hran.ran, hran.stopped⟩
  | stop =>
      have hsame : begun (meanwhile ++ [.stopped h]) = begun meanwhile := by
        rw [begun_append]
        exact List.append_nil _
      refine ⟨meanwhile ++ [.stopped h], List.mem_append_left _ hbegan,
        hran.sound.strike hgiven fun _ => Happening.ends_stopped, hran.given, ?_, ?_, ?_, ?_⟩
      · show b.log ++ [.stopped h] = _
        rw [hran.log, List.append_assoc]
      · rw [hsame]
        exact hran.inOrder
      · rw [hsame]
        exact hran.ran
      · intro k hk
        refine List.mem_append_left _ ?_
        rcases List.mem_append.1 hk with hold | hnew
        · exact hran.stopped hold
        · cases List.mem_singleton.1 hnew
          exact hbegan

/-- A task on the list has its turn, and nobody else. -/
theorem turned_turn (ha : a.Sound) (h : Handle) (s : σ) :
    ∃ happened, Turned [h] (turn conduct h (a, s)).1 a (turn conduct h (a, s)).2.1 happened ∧
      (.began h ∈ happened ↔ h ∈ a.handles) := by
  cases hlookup : a.tasks.lookup h with
  | none =>
      have hnot := lookup_eq_none.1 hlookup
      rw [turn_of_none conduct hlookup]
      exact ⟨[], .refl ha [h], by simp [hnot]⟩
  | some task =>
      have hmem : h ∈ a.handles := by
        by_contra hnot
        rw [lookup_eq_none.2 hnot] at hlookup
        exact nomatch hlookup
      obtain ⟨happened, hbegan, hturned⟩ := turned_run ha hmem (conduct task a.given a.isGone s)
      rw [turn_of_some conduct hlookup]
      exact ⟨happened, hturned, iff_of_true hbegan hmem⟩

theorem turned_turns (ha : a.Sound) (hs : List Handle) (s : σ) :
    ∃ happened, Turned hs (turns conduct hs (a, s)).1 a (turns conduct hs (a, s)).2.1 happened := by
  induction hs generalizing a s with
  | nil => exact ⟨[], .refl ha []⟩
  | cons h rest ih =>
      obtain ⟨first, hfirst, -⟩ := turned_turn conduct ha h s
      obtain ⟨second, hsecond⟩ := ih hfirst.sound (turn conduct h (a, s)).2.2
      exact ⟨first ++ second, hfirst.trans hsecond⟩

theorem Turned.gone {b : Agenda τ} {hs : List Handle} {ran : Nat} {happened : List Happening}
    (hab : Turned hs ran a b happened) (ha : a.Sound) {h : Handle} (hgiven : h < a.given)
    (hgone : h ∉ a.handles) : h ∉ b.handles := by
  rw [hab.sound.gone (Nat.lt_of_lt_of_le hgiven hab.given), hab.log]
  rw [ha.gone hgiven] at hgone
  exact fun hnone => hgone fun e he => hnone e (List.mem_append_left _ he)

/-- Turns of handles that are off the list can be left out. -/
theorem turns_filter (ha : a.Sound) {hs : List Handle} {p : Handle → Bool}
    (hp : ∀ h ∈ hs, p h = false → h < a.given ∧ h ∉ a.handles) (s : σ) :
    turns conduct (hs.filter p) (a, s) = turns conduct hs (a, s) := by
  induction hs generalizing a s with
  | nil => rfl
  | cons h rest ih =>
      obtain ⟨hfirst, hrest⟩ := List.forall_mem_cons.1 hp
      cases hph : p h with
      | false =>
          have hturn := turn_of_none conduct (lookup_eq_none.2 (hfirst hph).2) s
          rw [List.filter_cons_of_neg (by simp [hph]), ih ha hrest]
          simp only [turns, hturn, Nat.zero_add]
      | true =>
          obtain ⟨happened, hturned, -⟩ := turned_turn conduct ha h s
          have hgone : ∀ k ∈ rest, p k = false → k < (turn conduct h (a, s)).2.1.given ∧
              k ∉ (turn conduct h (a, s)).2.1.handles := by
            intro k hk hpk
            obtain ⟨hgiven, hnot⟩ := hrest k hk hpk
            exact ⟨Nat.lt_of_lt_of_le hgiven hturned.given, hturned.gone ha hgiven hnot⟩
          rw [List.filter_cons_of_pos hph]
          simp only [turns]
          rw [ih hturned.sound hgone]

theorem turns_append (earlier later : List Handle) (world : Agenda τ × σ) :
    turns conduct (earlier ++ later) world =
      ((turns conduct earlier world).1 +
        (turns conduct later (turns conduct earlier world).2).1,
        (turns conduct later (turns conduct earlier world).2).2) := by
  induction earlier generalizing world with
  | nil => simp [turns]
  | cons h rest ih => simp only [List.cons_append, turns, ih, Nat.add_assoc]

/-- A tick: those that run do so in order and once each, and a task runs if it was not cancelled when
its turn came. -/
theorem tick_log (ha : a.Sound) (s : σ) : ∃ happened,
    Turned a.handles (tick conduct (a, s)).1 a (tick conduct (a, s)).2.1 happened ∧
    ∀ earlier h later, a.handles = earlier ++ h :: later → ∃ before, before <+: happened ∧
      (turns conduct earlier (a, s)).2.1.log = a.log ++ before ∧
      (h ∈ begun happened ↔ .cancelled h ∉ before) := by
  obtain ⟨happened, hticked⟩ := turned_turns conduct ha a.handles s
  refine ⟨happened, hticked, ?_⟩
  intro earlier h later hsplit
  have hnodup : (earlier ++ h :: later).Nodup := hsplit ▸ ha.ascending.imp Nat.ne_of_lt
  obtain ⟨-, hlater, hapart⟩ := List.nodup_append'.1 hnodup
  have hnotearlier : h ∉ earlier := fun hmem => hapart hmem List.mem_cons_self
  have hnotlater : h ∉ later := (List.nodup_cons.1 hlater).1
  -- the tick as the turns before this one, this one, and those after it
  obtain ⟨before, hbefore⟩ := turned_turns conduct ha earlier s
  obtain ⟨during, hduring, hbegan⟩ :=
    turned_turn conduct hbefore.sound h (turns conduct earlier (a, s)).2.2
  obtain ⟨rest, hrest⟩ := turned_turns conduct hduring.sound later
    (turn conduct h (turns conduct earlier (a, s)).2).2.2
  have hlog : (tick conduct (a, s)).2.1.log = a.log ++ (before ++ (during ++ rest)) := by
    have hend : (tick conduct (a, s)).2 =
        (turns conduct later (turn conduct h (turns conduct earlier (a, s)).2).2).2 := by
      show (turns conduct a.handles (a, s)).2 = _
      rw [hsplit, turns_append]
      rfl
    rw [hend, hrest.log, hduring.log, hbefore.log, List.append_assoc, List.append_assoc]
  have heq : happened = before ++ (during ++ rest) :=
    List.append_cancel_left (hticked.log.symm.trans hlog)
  have hmem : h ∈ a.handles := hsplit ▸ List.mem_append_right _ List.mem_cons_self
  refine ⟨before, heq ▸ List.prefix_append _ _, hbefore.log, ?_⟩
  rw [← hbefore.mem_handles ha hmem hnotearlier, ← hbegan, mem_begun, heq, List.mem_append,
    List.mem_append]
  constructor
  · rintro (hfirst | hthis | hlast)
    · exact absurd (hbefore.inOrder.subset (mem_begun.2 hfirst)) hnotearlier
    · exact hthis
    · exact absurd (hrest.inOrder.subset (mem_begun.2 hlast)) hnotlater
  · exact fun hthis => .inr (.inl hthis)

theorem sound_obey (ha : a.Sound) (order : Order τ) (s : σ) :
    (obey conduct (a, s) order).2.1.Sound := by
  cases order with
  | schedule task => exact ha.schedule task
  | cancel h => exact ha.cancel h
  | tick =>
      obtain ⟨happened, hticked⟩ := turned_turns conduct ha a.handles s
      exact hticked.sound

theorem sound_obeyAll (ha : a.Sound) (orders : List (Order τ)) (s : σ) :
    (obeyAll conduct orders (a, s)).2.1.Sound := by
  induction orders generalizing a s with
  | nil => exact ha
  | cons order rest ih => exact ih (sound_obey conduct ha order s) _

end Turns

end Agenda

end ResourceSelection
