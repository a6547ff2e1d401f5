import ResourceSelection.Membership.Run
import ResourceSelection.Proofs.Acceptance

/-!
# A refused change leaves no trace

`Manager.apply` answers the manager after the change or says why there is none, and in the second
case there is nothing left to look at. To say that a refused change has done nothing one has to look
at the manager while the change is being made. Here the change is written out as steps that work on
the manager in place, in a monad in which whatever has been done before a refusal stays done: the
roster and the grouping are copied, the copies are changed name by name, which draws from the copied
generator, the declarations are carried over and checked one after the other, and only then is
anything put back, scheduled or closed.

That `Manager.apply` comes to the same is shown first (`InPlace.apply_eq`). The steps know one more
reason to refuse than it does: checks that run on the timer need one, and there may be none to have.
Whatever the reason, the manager is what it was, with its selectors, its roster, its grouping and
all that the selectors share.

So a refusal can be struck out of any sequence of requests. The replies to the others, and the
manager after each of them, stay as they are. A change that ends because the policy crashes is none
that is refused: the policy has been asked.
-/

namespace ResourceSelection

variable {ω : Type}

/-! ## A change step by step -/

/-- Why a change is not made. -/
inductive Refusal (ω : Type) where
  | build (fault : BuildFault ω)
  /-- There is no timer for the checks to run on. -/
  | noTimer

/-- Whether the checks are to run on the timer. -/
def Builder.needsTimer (b : Builder ω) : Bool := !b.runsByHand && b.probe.isSome

/-- What ends a change before it is made. -/
inductive Halt (ω : Type) where
  | refused (why : Refusal ω)
  /-- The policy crashed. -/
  | crashed

/-- What ends the steps of a change when no selector can be built. -/
def BuildFailure.halt : BuildFailure ω → Halt ω
  | invalid fault => .refused (.build fault)
  | crashed _ => .crashed

/-- Steps on a host. What has been done before a halt stays done. -/
abbrev OnHost (ω α : Type) := EStateM (Halt ω) (Host ω) α

/-- Steps on a manager. What has been done before a halt stays done. -/
abbrev InPlace (ω α : Type) := EStateM (Halt ω) (Manager ω) α

namespace OnHost

/-- Does something with a selector. -/
def put (f : System ω → System ω) (s : Selector ω) : OnHost ω (Selector ω) := do
  let t := f ⟨s, ← get⟩
  set t.host
  return t.selector

variable [Scalar ω]

/-- Asks the policy of a selector about resources in turn until one needs a check. -/
def askAny (s : Selector ω) : List (Resource ω) → OnHost ω Bool
  | [] => return false
  | r :: rest => do
    let (answer, t) := System.askNeed r r.current ⟨s, ← get⟩
    set t.host
    match answer with
    | .crashed => throw .crashed
    | .done true => return true
    | .done false => askAny s rest

/-- Schedules the checks of a new selector, if its settings or one of its resources ask for it. -/
def start (rank : String → Nat) (s : Selector ω) : OnHost ω (Selector ω) := do
  let needed ← askAny s (byRank (fun r => rank r.name) s.states)
  if s.settings.checksAtOnce || needed then put System.ensureChecker s else return s

end OnHost

namespace InPlace

/-- Steps on the host of the manager. -/
def onHost {α : Type} (f : OnHost ω α) : InPlace ω α := fun m =>
  match f m.host with
  | .ok a host => .ok a { m with host }
  | .error halt host => .error halt { m with host }

variable [Scalar ω]

def inspect (seen : List String) : List (String × Declaration ω) → InPlace ω Unit
  | [] => pure ()
  | (name, d) :: rest =>
    match d.validate with
    | .error fault => throw (.refused (.build (.bounds name fault)))
    | .ok () =>
      if seen.contains name then throw (.refused (.build (.registeredTwice name)))
      else inspect (name :: seen) rest

/-- Builds a selector, with a timer at hand or without. -/
def build (timer : Bool) (b : Builder ω) (id : Nat) : InPlace ω (Selector ω) := do
  match b.settings.validate with
  | .error fault => throw (.refused (.build (.settings fault)))
  | .ok () =>
    if b.needsTimer && !timer then throw (.refused .noTimer)
    inspect [] b.resources
    onHost (.start (b.rank id) (b.toSelector id))

omit [Scalar ω] in
/-- A copy of the membership in which some members are gone and others are added or redeclared. -/
def changedCopy (add : Roster ω) (remove : List String) : InPlace ω (Membership ω) := do
  let mut next := (← get).membership
  for name in remove do
    next := { next with roster := next.roster.erase name }
    next := { next with grouping := next.grouping.map fun g => (g.remove name).2 }
  for (name, d) in add.entries do
    next := { next with grouping := next.grouping.map fun g => (g.add name).2 }
    next := { next with roster := next.roster.put name d }
  return next

omit [Scalar ω] in
/-- Puts a membership and its selector in the place of the current ones. -/
def install (next : Membership ω) (s : Selector ω) : InPlace ω Unit := do
  modify fun m => { m with membership := next }
  let mut s := s
  if (← get).closed then
    s ← onHost (.put System.close s)
  let old := (← get).current
  modify fun m => { m with current := s }
  let old ← onHost (.put System.close old)
  modify fun m => { m with past := old :: m.past }

/-- Takes members out and adds or redeclares others. The new membership is gone through by rank. -/
def apply (timer : Bool) (add : Roster ω) (remove : List String) (rank : String → Nat) :
    InPlace ω Unit := do
  let next := (← changedCopy add remove).arrange rank
  let m ← get
  let s ← build timer (next.builder m.template (some m.current)) (m.current.id + 1)
  install next s

/-! ## What the steps come to -/

section

omit [Scalar ω]

variable {σ α β : Type} {first : EStateM (Halt ω) σ α} {m m' : σ}

theorem bind_ok {a : α} (h : first m = .ok a m') (rest : α → EStateM (Halt ω) σ β) :
    (first >>= rest) m = rest a m' := by
  show EStateM.bind first rest m = _
  unfold EStateM.bind
  rw [h]

theorem bind_error {halt : Halt ω} (h : first m = .error halt m')
    (rest : α → EStateM (Halt ω) σ β) : (first >>= rest) m = .error halt m' := by
  show EStateM.bind first rest m = _
  unfold EStateM.bind
  rw [h]

end

end InPlace

namespace OnHost

open InPlace (bind_ok bind_error)

variable [Scalar ω]

theorem askAny_eq (s : Selector ω) (rs : List (Resource ω)) (host : Host ω) :
    askAny s rs host = match System.askAny rs ⟨s, host⟩ with
      | (.crashed, t) => .error .crashed t.host
      | (.done needed, t) => .ok needed t.host := by
  induction rs generalizing host with
  | nil => rfl
  | cons r rest ih =>
      have hasked : askAny s (r :: rest) host =
          (match s.policy.needsCheck (r.contextAt r.current) (host.asked.count r.name) with
            | .crashed => throw .crashed
            | .done true => return true
            | .done false => askAny s rest : OnHost ω Bool)
            { host with asked := host.asked.bump r.name } := rfl
      rw [hasked, System.askAny, System.askNeed_eq]
      cases s.policy.needsCheck (r.contextAt r.current) (host.asked.count r.name) with
      | crashed => rfl
      | done needed =>
          cases needed with
          | true => rfl
          | false => exact ih { host with asked := host.asked.bump r.name }

omit [Scalar ω] in
/-- What a build comes to on a host. -/
def built (host : Host ω) :
    Except (BuildFailure ω) (System ω) → EStateM.Result (Halt ω) (Host ω) (Selector ω)
  | .ok s => .ok s.selector s.host
  | .error failure => .error failure.halt (failure.leave host)

theorem start_eq {b : Builder ω} (h : b.validate = .ok ()) (id : Nat) (host : Host ω) :
    start (b.rank id) (b.toSelector id) host = built host (b.build id host) := by
  have hasked := askAny_eq (b.toSelector id) (b.askingOrder id) host
  unfold Builder.build
  rw [h]
  obtain ⟨asked, hcases⟩ := System.askAny_cases (b.askingOrder id) ⟨b.toSelector id, host⟩
  have hdone (needed : Bool) (hok : askAny (b.toSelector id) (b.askingOrder id) host =
      .ok needed { host with asked }) :
      start (b.rank id) (b.toSelector id) host = built host (.ok
        (if b.settings.checksAtOnce || needed then
          System.ensureChecker ⟨b.toSelector id, { host with asked }⟩
        else ⟨b.toSelector id, { host with asked }⟩)) := by
    refine (bind_ok hok _).trans ?_
    have hchecks : (b.toSelector id).settings.checksAtOnce = b.settings.checksAtOnce := rfl
    simp only [hchecks]
    cases b.settings.checksAtOnce || needed with
    | true => rfl
    | false => rfl
  obtain ⟨heq, -⟩ | heq | ⟨heq, -⟩ := hcases
  · simp only [heq] at hasked ⊢
    exact bind_error hasked _
  · simp only [heq] at hasked ⊢
    exact hdone true hasked
  · simp only [heq] at hasked ⊢
    exact hdone false hasked

end OnHost

namespace InPlace

variable [Scalar ω]

theorem inspect_eq (seen : List String) (resources : List (String × Declaration ω)) (m : Manager ω) :
    inspect seen resources m = match Builder.validateResources seen resources with
      | .ok () => .ok () m
      | .error fault => .error (.refused (.build fault)) m := by
  induction resources generalizing seen with
  | nil => rfl
  | cons entry rest ih =>
      obtain ⟨name, d⟩ := entry
      unfold inspect Builder.validateResources
      cases d.validate with
      | error fault => rfl
      | ok =>
          by_cases hseen : seen.contains name
          · simp only [hseen, if_true]
            rfl
          · simp only [hseen]
            exact ih (name :: seen)

omit [Scalar ω] in
/-- What a build comes to on the host of a manager. -/
def built (m : Manager ω) :
    Except (BuildFailure ω) (System ω) → EStateM.Result (Halt ω) (Manager ω) (Selector ω)
  | .ok s => .ok s.selector { m with host := s.host }
  | .error failure => .error failure.halt { m with host := failure.leave m.host }

theorem build_eq {timer : Bool} {b : Builder ω} (htimer : (b.needsTimer && !timer) = false)
    (id : Nat) (m : Manager ω) : build timer b id m = built m (b.build id m.host) := by
  cases hsettings : b.settings.validate with
  | error fault =>
      unfold build Builder.build Builder.validate
      rw [hsettings]
      rfl
  | ok =>
      have hbuild : build timer b id m =
          (inspect [] b.resources >>= fun _ => onHost (.start (b.rank id) (b.toSelector id))) m := by
        unfold build
        simp only [hsettings, htimer, Bool.false_eq_true, if_false]
      have hvalidate : b.validate = Builder.validateResources [] b.resources := by
        unfold Builder.validate
        rw [hsettings]
      have hinspect := inspect_eq [] b.resources m
      rw [hbuild]
      cases hvalid : Builder.validateResources [] b.resources with
      | error fault =>
          rw [hvalid] at hinspect hvalidate
          unfold Builder.build
          rw [hvalidate]
          exact bind_error hinspect _
      | ok =>
          rw [hvalid] at hinspect hvalidate
          refine (bind_ok hinspect _).trans ?_
          unfold onHost
          rw [OnHost.start_eq hvalidate]
          cases b.build id m.host with
          | ok s => rfl
          | error failure => rfl

theorem build_eq_error {timer : Bool} {b : Builder ω} (htimer : (b.needsTimer && !timer) = true)
    (id : Nat) (m : Manager ω) : ∃ why, build timer b id m = .error (.refused why) m := by
  unfold build
  cases b.settings.validate with
  | error fault => exact ⟨_, rfl⟩
  | ok =>
      simp only [htimer, if_true]
      exact ⟨.noTimer, rfl⟩

omit [Scalar ω] in
theorem changedCopy_eq (add : Roster ω) (remove : List String) (m : Manager ω) :
    changedCopy add remove m = .ok ((m.membership.removeAll remove).addAll add.entries) m := by
  unfold changedCopy
  simp only [List.forIn_pure_yield_eq_foldl, pure_bind, bind_pure]
  rfl

omit [Scalar ω] in
theorem install_eq (next : Membership ω) (s : System ω) (m : Manager ω) :
    install next s.selector { m with host := s.host } = .ok () (m.install next s) := by
  unfold install Manager.install
  cases hclosed : m.closed with
  | false => rfl
  | true => rfl

/-- What a change in place comes to when there is a timer if one is needed. -/
def outcome (m : Manager ω) :
    Except (BuildFailure ω) (Manager ω) → EStateM.Result (Halt ω) (Manager ω) Unit
  | .ok next => .ok () next
  | .error failure => .error failure.halt { m with host := failure.leave m.host }

theorem apply_eq {timer : Bool} {m : Manager ω} (htimer : (m.template.needsTimer && !timer) = false)
    (add : Roster ω) (remove : List String) (rank : String → Nat) :
    apply timer add remove rank m = outcome m (m.apply add remove rank) := by
  unfold apply Manager.apply Membership.change
  refine (bind_ok (changedCopy_eq add remove m) _).trans ?_
  generalize ((m.membership.removeAll remove).addAll add.entries).arrange rank = next
  have hbuild := build_eq (b := next.builder m.template (some m.current)) htimer
    (m.current.id + 1) m
  simp only [Membership.build]
  cases hbuilt : (next.builder m.template (some m.current)).build (m.current.id + 1) m.host with
  | error failure =>
      rw [hbuilt] at hbuild
      exact bind_error hbuild _
  | ok s =>
      rw [hbuilt] at hbuild
      exact (bind_ok hbuild _).trans (install_eq next s m)

theorem apply_eq_error {timer : Bool} {m : Manager ω}
    (htimer : (m.template.needsTimer && !timer) = true) (add : Roster ω) (remove : List String)
    (rank : String → Nat) : ∃ why, apply timer add remove rank m = .error (.refused why) m := by
  have hbuilder : (((m.membership.change remove add.entries rank).builder m.template
      (some m.current)).needsTimer && !timer) = true := htimer
  obtain ⟨why, hbuild⟩ := build_eq_error hbuilder (m.current.id + 1) m
  exact ⟨why, (bind_ok (changedCopy_eq add remove m) _).trans (bind_error hbuild _)⟩

end InPlace

/-! ## Changes -/

/-- A change of the membership, with the ranks by which the members are listed. -/
inductive MembershipChange (ω : Type) where
  | update (add : List (String × Declaration ω)) (remove : List String)
    (rank : String → Nat := fun _ => 0)
  | updateAll (resources : List (String × Declaration ω)) (rank : String → Nat := fun _ => 0)

variable [Scalar ω]

namespace MembershipChange

def make (m : Manager ω) : MembershipChange ω → Except (BuildFailure ω) (Manager ω)
  | .update add remove rank => m.update add remove rank
  | .updateAll resources rank => m.updateAll resources rank

omit [Scalar ω] in
def event : MembershipChange ω → ManagerEvent ω
  | .update add remove rank => .update add remove rank
  | .updateAll resources rank => .updateAll resources rank

end MembershipChange

namespace InPlace

def change (timer : Bool) : MembershipChange ω → InPlace ω Unit
  | .update add remove rank => apply timer (Roster.ofList add) remove.eraseDups rank
  | .updateAll resources rank => do
    let next := Roster.ofList resources
    let m ← get
    apply timer next (m.membership.dropped next rank) rank

theorem change_eq {timer : Bool} {m : Manager ω} (htimer : (m.template.needsTimer && !timer) = false)
    (c : MembershipChange ω) : change timer c m = outcome m (c.make m) := by
  cases c with
  | update add remove rank => exact apply_eq htimer _ _ rank
  | updateAll resources rank => exact apply_eq htimer _ _ rank

theorem change_eq_error {timer : Bool} {m : Manager ω}
    (htimer : (m.template.needsTimer && !timer) = true) (c : MembershipChange ω) :
    ∃ why, change timer c m = .error (.refused why) m := by
  cases c with
  | update add remove rank => exact apply_eq_error htimer _ _ rank
  | updateAll resources rank => exact apply_eq_error htimer _ _ rank

/-- A change is refused, with the manager as it was, or the policy crashes when it is asked, or the
change is made. -/
theorem change_cases (timer : Bool) (c : MembershipChange ω) (m : Manager ω) :
    (∃ why, change timer c m = .error (.refused why) m) ∨
      (∃ asked, change timer c m = .error .crashed { m with host := { m.host with asked } }) ∨
      ∃ next, c.make m = .ok next ∧ change timer c m = .ok () next := by
  cases htimer : m.template.needsTimer && !timer with
  | false =>
      rw [change_eq htimer]
      cases c.make m with
      | ok next => exact .inr (.inr ⟨next, rfl, rfl⟩)
      | error failure =>
          cases failure with
          | invalid fault => exact .inl ⟨.build fault, rfl⟩
          | crashed asked => exact .inr (.inl ⟨asked, rfl⟩)
  | true => exact .inl (change_eq_error htimer c)

/-- A change that is refused has left the manager as it was. -/
theorem eq_of_change_eq_refused {timer : Bool} {m m' : Manager ω} {c : MembershipChange ω}
    {why : Refusal ω} (h : change timer c m = .error (.refused why) m') : m' = m := by
  obtain ⟨why', hrefused⟩ | ⟨asked, hcrashed⟩ | ⟨next, -, hmade⟩ := change_cases timer c m
  · rw [hrefused] at h
    cases h
    rfl
  · rw [hcrashed] at h
    exact nomatch h
  · rw [hmade] at h
    exact nomatch h

end InPlace

/-! ## Requests and replies -/

/-- What a call on a selector is answered. -/
inductive Answer where
  | selected (name : Option String)
  | reported (outcome : Outcome Unit)
  | probed (count : Nat)
  | counted (answer : Bool)
  | silence

/-- The answer to a call, and the system after it. -/
def System.answer (c : Call) (s : System ω) : Answer × System ω :=
  match c with
  | .select exclude => Prod.map .selected id (s.selectWith exclude)
  | .report result name => Prod.map .reported id (s.report result name)
  | .down name => Prod.map .reported id (s.down name)
  | .check order => Prod.map .probed id (s.checkIn order)
  | .acquire name => Prod.map .counted id (s.acquire name)
  | .release name => Prod.map .counted id (s.release name)
  | .close => (.silence, s.close)

theorem System.answer_snd (c : Call) (s : System ω) : (s.answer c).2 = s.call c := by
  cases c <;> rfl

/-- What is asked of a manager, or happens to it. -/
inductive Request (ω : Type) where
  | call (c : Call)
  /-- A call on the selector of a number, which somebody still holds. -/
  | callOn (id : Nat) (c : Call)
  /-- A change of the membership, when there is a timer to be had or not. -/
  | change (timer : Bool) (c : MembershipChange ω)
  | tick
  | close
  | others (host : Host ω)

namespace Request

omit [Scalar ω]

/-- The request as an event, which leaves open whether there is a timer. -/
def event : Request ω → ManagerEvent ω
  | .call c => .call c
  | .callOn id c => .callOn id c
  | .change _ c => c.event
  | .tick => .tick
  | .close => .close
  | .others host => .others host

/-- Whether there is a timer, if the request may need one. -/
def hasTimer : Request ω → Bool
  | .change timer _ => timer
  | _ => true

end Request

inductive Reply (ω : Type) where
  | answer (a : Answer)
  /-- There is no selector of that number. -/
  | gone
  | made
  | refused (why : Refusal ω)
  /-- The policy crashed in the course of a change. -/
  | crashed
  | ran (count : Nat)
  | silence

def Reply.isRefusal : Reply ω → Bool
  | .refused _ => true
  | _ => false

namespace Manager

/-- The reply to a request, and the manager after it. -/
def reply (r : Request ω) (m : Manager ω) : Reply ω × Manager ω :=
  match r with
  | .call c => Prod.map .answer id (m.onCurrent (System.answer c))
  | .callOn number c =>
    match m.onSnapshot number (System.answer c) with
    | (some a, m) => (.answer a, m)
    | (none, m) => (.gone, m)
  | .change timer c =>
    match InPlace.change timer c m with
    | .ok () m => (.made, m)
    | .error (.refused why) m => (.refused why, m)
    | .error .crashed m => (.crashed, m)
  | .tick => Prod.map .ran id m.tick
  | .close => (.silence, m.close)
  | .others host => (.silence, { m with host })

/-- The replies to some requests, one after the other, each with the manager after it. -/
def transcript : List (Request ω) → Manager ω → List (Reply ω × Manager ω)
  | [], _ => []
  | r :: rs, m => m.reply r :: transcript rs (m.reply r).2

/-- The requests that are not refused. -/
def granted : List (Request ω) → Manager ω → List (Request ω)
  | [], _ => []
  | r :: rs, m =>
    if (m.reply r).1.isRefusal then granted rs (m.reply r).2 else r :: granted rs (m.reply r).2

/-- With a timer at hand, what comes after a request is what comes after the event. -/
theorem reply_snd {r : Request ω} (h : r.hasTimer = true) (m : Manager ω) :
    (m.reply r).2 = m.step r.event := by
  cases r with
  | call c =>
      show m.record (m.system.answer c).2 = m.record (m.system.call c)
      rw [System.answer_snd]
  | callOn number c =>
      unfold reply step Request.event onSnapshot
      simp only
      cases m.snapshot? number with
      | none => rfl
      | some s =>
          show m.record (s.answer c).2 = m.record (s.call c)
          rw [System.answer_snd]
  | change timer c =>
      obtain rfl : timer = true := h
      have htimer : (m.template.needsTimer && !true) = false := by simp
      have hchange := InPlace.change_eq htimer c
      have hstep : m.step c.event = m.attempt (c.make m) := by cases c <;> rfl
      unfold reply Request.event
      rw [hstep]
      simp only [hchange]
      cases c.make m with
      | ok next => rfl
      | error failure =>
          cases failure with
          | invalid fault => rfl
          | crashed asked => rfl
  | tick => rfl
  | close => rfl
  | others host => rfl

theorem eq_of_isRefusal {m : Manager ω} {r : Request ω} (h : (m.reply r).1.isRefusal = true) :
    (m.reply r).2 = m := by
  cases r with
  | change timer c =>
      unfold reply at h ⊢
      simp only at h ⊢
      cases hchange : InPlace.change timer c m with
      | ok =>
          rw [hchange] at h
          exact nomatch h
      | error halt m' =>
          cases halt with
          | refused why => exact InPlace.eq_of_change_eq_refused hchange
          | crashed =>
              rw [hchange] at h
              exact nomatch h
  | callOn number c =>
      unfold reply at h
      simp only at h
      split at h
      · exact nomatch h
      · exact nomatch h
  | call c => exact nomatch h
  | tick => exact nomatch h
  | close => exact nomatch h
  | others host => exact nomatch h

/-- What is refused can be struck out. -/
theorem filter_transcript (rs : List (Request ω)) (m : Manager ω) :
    (m.transcript rs).filter (fun entry => !entry.1.isRefusal) = m.transcript (m.granted rs) := by
  induction rs generalizing m with
  | nil => rfl
  | cons r rest ih =>
      rw [transcript, granted]
      by_cases hrefused : (m.reply r).1.isRefusal = true
      · rw [List.filter_cons_of_neg (by simp [hrefused]), if_pos hrefused, eq_of_isRefusal hrefused]
        exact ih m
      · rw [List.filter_cons_of_pos (by simpa using hrefused), if_neg hrefused, transcript, ih]

end Manager

/-- A change that is refused leaves the manager as it was, and in every sequence of requests the
replies to the others, and the manager after each of them, are as if it had not been asked for. -/
theorem refused_without_trace (m : Manager Float) :
    (∀ c, InPlace.change true c m = InPlace.outcome m (c.make m)) ∧
    (∀ timer c why m', InPlace.change timer c m = .error (.refused why) m' → m' = m) ∧
    (∀ r : Request Float, r.hasTimer = true → (m.reply r).2 = m.step r.event) ∧
    ∀ rs, (m.transcript rs).filter (fun entry => !entry.1.isRefusal) =
      m.transcript (m.granted rs) := by
  refine ⟨fun c => InPlace.change_eq (by simp) c, ?_, fun r hr => m.reply_snd hr, ?_⟩
  · intro timer c why m' h
    exact InPlace.eq_of_change_eq_refused h
  · exact fun rs => m.filter_transcript rs

/-- So it is when one resource would leave and another one has a bound below zero. -/
theorem refused_without_trace_pair : ∃ (m m' : Manager Float) (why : Refusal Float),
    m.Reachable ∧
      InPlace.change true (.update [("b", .ofWeight (-1))] ["a"]) m = .error (.refused why) m' ∧
      m' = m ∧ (m.reply (.change true (.update [("b", .ofWeight (-1))] ["a"]))).2 =
        m.step (.update [("b", .ofWeight (-1))] ["a"]) := by
  obtain ⟨m, m', why, hcreate, hrefused⟩ : ∃ (m m' : Manager Float) (why : Refusal Float),
      Manager.create Builder.pair [("c", .ofWeight 5)] none { rng := ⟨0⟩ } = .ok m ∧
      InPlace.change true (.update [("b", .ofWeight (-1))] ["a"]) m = .error (.refused why) m' :=
    ⟨_, _, _, rfl, rfl⟩
  obtain ⟨-, hsame, hstep, -⟩ := refused_without_trace m
  exact ⟨m, m', why, .created hcreate, hrefused, hsame _ _ _ _ hrefused,
    hstep (.change true (.update [("b", .ofWeight (-1))] ["a"])) rfl⟩

end ResourceSelection
