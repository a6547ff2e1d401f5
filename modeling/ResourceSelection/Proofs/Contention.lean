import Mathlib.Algebra.BigOperators.Fin
import Mathlib.Tactic.Ring
import ResourceSelection.Proofs.Rational
import ResourceSelection.Proofs.Transparency
import ResourceSelection.Resource.Shared

/-!
# No update of a contended weight is lost

However the accesses of several parties to one resource are mixed, the outcome is one of carrying
out their calls one at a time, and so are all the answers.

An access either returns nothing and leaves the weight alone, or it returns the first call of its
party, and then call, answer and weight are those of the same call made at this moment with nothing
in between (`Party.access_cases`). That is plain of a swap. A call that would not move the weight
that it has just found takes effect as it finds it. And an exchange that succeeds has found the old
weight in place: it does not matter whether the weight was another one in between, since a
transition depends on the weight and not on its history. So the calls, written down in the order in
which they return, are the order that is asked for.

No call holds up another one: a party that is left alone returns from its first call within two
accesses, whatever the others were about to do.
-/

namespace ResourceSelection

variable {ι ω : Type} [Scalar ω]

/-! ## One access -/

/-- A proposal with the no-op left out: it would write the weight that is there. -/
theorem Resource.propose_eq [LawfulScalar ω] (r : Resource ω) (weight : ω) :
    r.propose weight =
      ((r.current, clampWeight weight r.current r.minWeight r.maxWeight),
        { r with current := clampWeight weight r.current r.minWeight r.maxWeight }) := by
  simp only [propose]
  split
  · next hsame => rw [LawfulScalar.same_iff.1 hsame]
  · rfl

namespace Party

variable [LawfulScalar ω] (p : Party ω) (r : Resource ω)

theorem find_cases (transition : Context ω → ω) :
    p.find r transition r.current = { p with held := some r.current } ∨
      (p.find r transition r.current, r) =
        (p.finish ((Motion.update transition).apply r).1,
         ((Motion.update transition).apply r).2) := by
  unfold find
  split
  · next hsame =>
      right
      have hstays :
          clampWeight (transition r.context) r.current r.minWeight r.maxWeight = r.current :=
        LawfulScalar.same_iff.1 hsame
      rw [Motion.apply, r.propose_eq, hstays]
  · exact .inl rfl

/-- The exchange succeeds if the weight held is the one that stands, and returns the call. -/
theorem access_of_held {transition : Context ω → ω} {rest : List (Motion ω)}
    (htodo : p.todo = .update transition :: rest) (hheld : p.held = some r.current) :
    p.access r false =
      (p.finish ((Motion.update transition).apply r).1,
       ((Motion.update transition).apply r).2) := by
  have hsame : Scalar.same r.current r.current = true := LawfulScalar.same_iff.2 rfl
  simp only [access, htodo, hheld, hsame, Bool.not_false, Bool.and_true, if_true]
  rw [Motion.apply, r.propose_eq]
  rfl

/-- An access of a party with calls to make finds the weight and leaves it alone, or it returns the
first call as if this was made now. -/
theorem access_cases (fails : Bool) :
    (p.todo = [] ∧ p.access r fails = (p, r)) ∨
      (∃ transition rest, p.todo = .update transition :: rest ∧
        p.access r fails = ({ p with held := some r.current }, r)) ∨
      ∃ m rest, p.todo = m :: rest ∧
        p.access r fails = (p.finish (m.apply r).1, (m.apply r).2) := by
  match htodo : p.todo with
  | [] =>
      left
      simp only [access, htodo, and_self]
  | .forceDown :: rest =>
      refine .inr (.inr ⟨.forceDown, rest, rfl, ?_⟩)
      simp only [access, htodo, Motion.apply]
  | .update transition :: rest =>
      right
      have hfind (haccess : p.access r fails = (p.find r transition r.current, r)) :
          p.access r fails = ({ p with held := some r.current }, r) ∨
            p.access r fails = (p.finish ((Motion.update transition).apply r).1,
              ((Motion.update transition).apply r).2) := by
        rw [haccess]
        rcases p.find_cases r transition with hfound | hreturned
        · exact .inl (by rw [hfound])
        · exact .inr hreturned
      suffices hcases : p.access r fails = ({ p with held := some r.current }, r) ∨
          p.access r fails = (p.finish ((Motion.update transition).apply r).1,
            ((Motion.update transition).apply r).2) from
        hcases.imp (fun hfound => ⟨transition, rest, rfl, by rw [hfound, htodo]⟩)
          fun hreturned => ⟨_, rest, rfl, hreturned⟩
      cases hheld : p.held with
      | none =>
          refine hfind ?_
          simp only [access, htodo, hheld]
      | some old =>
          by_cases hstands : (Scalar.same r.current old && !fails) = true
          · obtain ⟨hsame, hfails⟩ := Bool.and_eq_true_iff.1 hstands
            have hold : r.current = old := LawfulScalar.same_iff.1 hsame
            have hfails : fails = false := by simpa using hfails
            right
            rw [hfails]
            exact p.access_of_held r htodo (by rw [hheld, hold])
          · refine hfind ?_
            simp only [access, htodo, hheld]
            rw [if_neg hstands]

/-- A party that nothing comes between returns from its first call within two accesses, and the call
does what it does by itself. -/
theorem access_alone {m : Motion ω} {rest : List (Motion ω)} (htodo : p.todo = m :: rest) :
    p.access r false = (p.finish (m.apply r).1, (m.apply r).2) ∨
      p.access r false = ({ p with held := some r.current }, r) ∧
        access { p with held := some r.current } r false =
         (p.finish (m.apply r).1, (m.apply r).2) := by
  rcases p.access_cases r false with ⟨hnil, -⟩ | ⟨transition, rest', htodo', hfound⟩ |
    ⟨m', rest', htodo', hreturned⟩
  · exact absurd (htodo.symm.trans hnil) (List.cons_ne_nil m rest)
  · right
    have hm : m = .update transition := (List.cons.inj (htodo.symm.trans htodo')).1
    refine ⟨hfound, ?_⟩
    rw [hm]
    exact access_of_held { p with held := some r.current } r htodo' rfl
  · left
    have hm : m = m' := (List.cons.inj (htodo.symm.trans htodo')).1
    rw [hm]
    exact hreturned

end Party

/-! ## Who is owed what -/

/-- The entries of a list that are one party's, in their order. -/
def ofParty [DecidableEq ι] {α : Type} (i : ι) (entries : List (ι × α)) : List α :=
  (entries.filter fun entry => entry.1 = i).map (·.2)

section

variable [DecidableEq ι] {α : Type}

omit [Scalar ω] in
theorem ofParty_append (i : ι) (xs ys : List (ι × α)) :
    ofParty i (xs ++ ys) = ofParty i xs ++ ofParty i ys := by
  rw [ofParty, List.filter_append, List.map_append]
  rfl

theorem ofParty_self (i : ι) (x : α) : ofParty i [(i, x)] = [x] := by
  simp [ofParty]

theorem ofParty_of_ne {i j : ι} (h : j ≠ i) (x : α) : ofParty j [(i, x)] = [] := by
  simp [ofParty, h.symm]

end

theorem Resource.carryOut_append_singleton (r : Resource ω) (order : List (ι × Motion ω)) (i : ι)
    (m : Motion ω) : r.carryOut (order ++ [(i, m)]) =
      ((r.carryOut order).1 ++ [(i, (m.apply (r.carryOut order).2).1)],
        (m.apply (r.carryOut order).2).2) := by
  induction order generalizing r with
  | nil => rfl
  | cons entry rest ih =>
      simp only [List.cons_append, carryOut]
      rw [ih]

namespace Shared

variable [DecidableEq ι]

/-- The order accounts for all that has happened: carried out one at a time, its calls leave the
resource as it is and give the answers that were given, and each party has made those that it no
longer has to make. -/
structure Accounts (r : Resource ω) (calls : ι → List (Motion ω)) (s : Shared ι ω)
    (order : List (ι × Motion ω)) : Prop where
  resource : (r.carryOut order).2 = s.resource
  answers (i : ι) : ofParty i (r.carryOut order).1 = (s.parties i).answers
  calls (i : ι) : ofParty i order ++ (s.parties i).todo = calls i

variable {r : Resource ω} {calls : ι → List (Motion ω)} {s : Shared ι ω}
  {order : List (ι × Motion ω)}

theorem parties_step_self {i : ι} (s : Shared ι ω) (fails : Bool) :
    (s.step (i, fails)).parties i = ((s.parties i).access s.resource fails).1 :=
  Function.update_self _ _ _

theorem parties_step_of_ne {i j : ι} (h : j ≠ i) (s : Shared ι ω) (fails : Bool) :
    (s.step (i, fails)).parties j = s.parties j :=
  Function.update_of_ne h _ _

theorem accounts_start (r : Resource ω) (calls : ι → List (Motion ω)) :
    Accounts r calls (start r calls) [] where
  resource := rfl
  answers _ := rfl
  calls _ := rfl

/-- An access that returns nothing needs no account. -/
theorem Accounts.waits {i : ι} {fails : Bool} {held : Option ω} (h : Accounts r calls s order)
    (haccess : (s.parties i).access s.resource fails =
      ({ s.parties i with held := held }, s.resource)) :
    Accounts r calls (s.step (i, fails)) order := by
  have hparty (j : ι) : ((s.step (i, fails)).parties j).todo = (s.parties j).todo ∧
      ((s.step (i, fails)).parties j).answers = (s.parties j).answers := by
    by_cases hj : j = i
    · rw [hj, parties_step_self, haccess]
      exact ⟨rfl, rfl⟩
    · rw [parties_step_of_ne hj]
      exact ⟨rfl, rfl⟩
  refine ⟨?_, fun j => ?_, fun j => ?_⟩
  · rw [h.resource, step, haccess]
  · rw [h.answers j, (hparty j).2]
  · rw [(hparty j).1, h.calls j]

/-- A call that returns comes next in the order. -/
theorem Accounts.returns {i : ι} {fails : Bool} {m : Motion ω} {rest : List (Motion ω)}
    (h : Accounts r calls s order) (htodo : (s.parties i).todo = m :: rest)
    (haccess : (s.parties i).access s.resource fails =
      ((s.parties i).finish (m.apply s.resource).1, (m.apply s.resource).2)) :
    Accounts r calls (s.step (i, fails)) (order ++ [(i, m)]) := by
  refine ⟨?_, fun j => ?_, fun j => ?_⟩
  · rw [Resource.carryOut_append_singleton, h.resource, step, haccess]
  · rw [Resource.carryOut_append_singleton, h.resource, ofParty_append, h.answers j]
    by_cases hj : j = i
    · rw [hj, ofParty_self, parties_step_self, haccess]
      rfl
    · rw [ofParty_of_ne hj, parties_step_of_ne hj, List.append_nil]
  · rw [ofParty_append]
    by_cases hj : j = i
    · rw [hj, ofParty_self, parties_step_self, haccess, ← h.calls i, htodo, List.append_assoc]
      simp only [Party.finish, htodo, List.tail_cons, List.singleton_append]
    · rw [ofParty_of_ne hj, parties_step_of_ne hj, List.append_nil, h.calls j]

section

variable [LawfulScalar ω]

theorem Accounts.step (h : Accounts r calls s order) (turn : ι × Bool) :
    ∃ more, Accounts r calls (s.step turn) (order ++ more) := by
  obtain ⟨i, fails⟩ := turn
  rcases (s.parties i).access_cases s.resource fails with ⟨-, hidle⟩ | ⟨_, _, -, hfound⟩ |
    ⟨m, rest, htodo, hreturned⟩
  · refine ⟨[], ?_⟩
    rw [List.append_nil]
    exact h.waits hidle
  · refine ⟨[], ?_⟩
    rw [List.append_nil]
    exact h.waits hfound
  · exact ⟨[(i, m)], h.returns htodo hreturned⟩

theorem Accounts.run (h : Accounts r calls s order) (schedule : List (ι × Bool)) :
    ∃ more, Accounts r calls (s.run schedule) (order ++ more) := by
  induction schedule generalizing s order with
  | nil => exact ⟨[], by rwa [List.append_nil]⟩
  | cons turn rest ih =>
      obtain ⟨now, hnow⟩ := h.step turn
      obtain ⟨later, hlater⟩ := ih hnow
      refine ⟨now ++ later, ?_⟩
      rw [← List.append_assoc]
      exact hlater

/-- What has happened when all calls have returned is what happens when they are carried out one at
a time, in an order in which each party's calls stand as the party makes them. -/
theorem carryOut_of_finished (r : Resource ω) (calls : ι → List (Motion ω))
    {schedule : List (ι × Bool)} (hfinished : ((start r calls).run schedule).Finished) :
    ∃ order : List (ι × Motion ω), (∀ i, ofParty i order = calls i) ∧
      (r.carryOut order).2 = ((start r calls).run schedule).resource ∧
      ∀ i, ofParty i (r.carryOut order).1 = (((start r calls).run schedule).parties i).answers := by
  obtain ⟨order, h⟩ := (accounts_start r calls).run schedule
  refine ⟨order, fun i => ?_, h.resource, h.answers⟩
  have hcalls := h.calls i
  rwa [hfinished i, List.append_nil] at hcalls

end

/-! ## All calls can return -/

theorem run_append (s : Shared ι ω) (before after : List (ι × Bool)) :
    s.run (before ++ after) = (s.run before).run after :=
  List.foldl_append

section

variable [LawfulScalar ω]

/-- A party that is left alone returns from its first call, and disturbs nobody. -/
theorem exists_run_returning {i : ι} {m : Motion ω} {rest : List (Motion ω)}
    (htodo : (s.parties i).todo = m :: rest) : ∃ schedule,
      ((s.run schedule).parties i).todo = rest ∧
        ∀ j, j ≠ i → (s.run schedule).parties j = s.parties j := by
  have htail (answer : ω × ω) : ((s.parties i).finish answer).todo = rest := by
    rw [Party.finish, htodo, List.tail_cons]
  rcases (s.parties i).access_alone s.resource htodo with hfirst | ⟨hfirst, hsecond⟩
  · refine ⟨[(i, false)], ?_, fun j hj => parties_step_of_ne hj s false⟩
    show ((s.step (i, false)).parties i).todo = rest
    rw [parties_step_self, hfirst, htail]
  · refine ⟨[(i, false), (i, false)], ?_, fun j hj => ?_⟩
    · show (((s.step (i, false)).step (i, false)).parties i).todo = rest
      have hresource : (s.step (i, false)).resource = s.resource := by rw [step, hfirst]
      rw [parties_step_self, parties_step_self, hresource, hfirst, hsecond, htail]
    · exact (parties_step_of_ne hj _ false).trans (parties_step_of_ne hj s false)

theorem exists_run_idle (s : Shared ι ω) (i : ι) : ∃ schedule,
    ((s.run schedule).parties i).todo = [] ∧
      ∀ j, j ≠ i → (s.run schedule).parties j = s.parties j := by
  induction hlength : (s.parties i).todo.length generalizing s with
  | zero => exact ⟨[], List.length_eq_zero_iff.1 hlength, fun _ _ => rfl⟩
  | succ n ih =>
      obtain ⟨m, rest, htodo⟩ := List.exists_cons_of_length_eq_add_one hlength
      obtain ⟨first, hrest, hothers⟩ := exists_run_returning htodo
      have hshorter : ((s.run first).parties i).todo.length = n := by
        rw [hrest]
        rw [htodo, List.length_cons] at hlength
        omega
      obtain ⟨later, hnil, hothers'⟩ := ih (s.run first) hshorter
      refine ⟨first ++ later, ?_, fun j hj => ?_⟩
      · rw [run_append, hnil]
      · rw [run_append, hothers' j hj, hothers j hj]

/-- Whatever has happened so far, there is a way for all to finish. -/
theorem exists_run_finished [Finite ι] (s : Shared ι ω) :
    ∃ schedule, (s.run schedule).Finished := by
  have := Fintype.ofFinite ι
  suffices hsome :
      ∀ some : Finset ι, ∃ schedule, ∀ i ∈ some, ((s.run schedule).parties i).todo = [] by
    obtain ⟨schedule, hschedule⟩ := hsome Finset.univ
    exact ⟨schedule, fun i => hschedule i (Finset.mem_univ i)⟩
  intro some
  induction some using Finset.induction_on with
  | empty => exact ⟨[], fun i hi => absurd hi (Finset.notMem_empty i)⟩
  | insert i some _ ih =>
      obtain ⟨before, hbefore⟩ := ih
      obtain ⟨after, hnil, hothers⟩ := (s.run before).exists_run_idle i
      refine ⟨before ++ after, fun j hj => ?_⟩
      rw [run_append]
      by_cases hji : j = i
      · rw [hji, hnil]
      · rw [hothers j hji]
        exact hbefore j (Finset.mem_of_mem_insert_of_ne hj hji)

end

end Shared

/-! ## Additions without rounding -/

section

variable {lo hi v : ℚ}

/-- What the upper bound has cut off of a weight does not matter once something is added. -/
theorem clampWeight_add_clampWeight {x : ℚ} (hv : 0 ≤ v) (hx : lo ≤ x) (p q t : ℚ) :
    clampWeight (clampWeight x p lo hi + v) q lo hi = clampWeight (x + v) t lo hi := by
  simp only [clampWeight_rat]
  rw [max_eq_left hx, max_eq_left (by linarith : lo ≤ x + v)]
  rcases le_total x hi with hle | hge
  · rw [min_eq_left hle, max_eq_left (by linarith : lo ≤ x + v)]
  · rw [min_eq_right hge, min_eq_right (by linarith : hi ≤ x + v)]
    exact min_eq_right (le_max_of_le_left (by linarith))

/-- The call that adds to the weight. -/
def Motion.add (v : ℚ) : Motion ℚ := .update fun c => c.current + v

theorem Motion.apply_add (v : ℚ) (r : Resource ℚ) : ((Motion.add v).apply r).2 =
    { r with current := clampWeight (r.current + v) r.current r.minWeight r.maxWeight } := by
  rw [add, apply, Resource.propose_eq]
  rfl

theorem Resource.carryOut_add {r : Resource ℚ} (hwithin : r.Within) (hv : 0 ≤ v)
    (order : List (ι × Motion ℚ)) (h : ∀ entry ∈ order, entry.2 = .add v) :
    (r.carryOut order).2 =
      { r with
        current :=
          clampWeight (r.current + order.length * v) r.current r.minWeight r.maxWeight } := by
  induction order using List.reverseRecOn with
  | nil =>
      have hstays : clampWeight (r.current + ([] : List (ι × Motion ℚ)).length * v) r.current
          r.minWeight r.maxWeight = r.current := by
        rw [List.length_nil, Nat.cast_zero, zero_mul, add_zero, clampWeight_rat,
          max_eq_left hwithin.1, min_eq_left hwithin.2]
      rw [hstays]
      rfl
  | append_singleton before entry ih =>
      obtain ⟨i, m⟩ := entry
      have hm : m = .add v := h (i, m) (List.mem_append_right before List.mem_cons_self)
      have hbefore := ih fun entry hentry => h entry (List.mem_append_left _ hentry)
      have hlow : r.minWeight ≤ r.current + before.length * v :=
        le_add_of_le_of_nonneg hwithin.1 (mul_nonneg before.length.cast_nonneg hv)
      have hsum : r.current + before.length * v + v =
          r.current + (before ++ [(i, m)]).length * v := by
        rw [List.length_append, List.length_singleton, Nat.cast_add, Nat.cast_one]
        ring
      rw [carryOut_append_singleton, hm, hbefore]
      dsimp only
      rw [Motion.apply_add, ← hm, ← hsum, clampWeight_add_clampWeight hv hlow]

end

section

variable {α : Type}

theorem mem_ofParty [DecidableEq ι] {entry : ι × α} {entries : List (ι × α)} (h : entry ∈ entries) :
    entry.2 ∈ ofParty entry.1 entries :=
  List.mem_map_of_mem (List.mem_filter.2 ⟨h, decide_eq_true rfl⟩)

/-- Every entry is some party's. -/
theorem length_eq_sum_ofParty [DecidableEq ι] [Fintype ι] (entries : List (ι × α)) :
    entries.length = ∑ i, (ofParty i entries).length := by
  induction entries with
  | nil => simp [ofParty]
  | cons entry rest ih =>
      have hcons (i : ι) : (ofParty i (entry :: rest)).length =
          (if entry.1 = i then 1 else 0) + (ofParty i rest).length := by
        simp only [ofParty, List.filter_cons]
        split <;> split <;> simp_all [add_comm]
      simp only [hcons, Finset.sum_add_distrib, Finset.sum_ite_eq, Finset.mem_univ, if_true]
      rw [← ih, List.length_cons, add_comm]

end

/-- Each of some parties adds the same a number of times, and nothing of it is lost. -/
theorem Shared.current_of_additions {r : Resource ℚ} (hwithin : r.Within) {v : ℚ} (hv : 0 ≤ v)
    (k n : ℕ) {schedule : List (Fin k × Bool)}
    (hfinished : ((start r fun _ => List.replicate n (.add v)).run schedule).Finished) :
    ((start r fun _ => List.replicate n (.add v)).run schedule).resource.current =
      clampWeight (r.current + n * k * v) r.current r.minWeight r.maxWeight := by
  obtain ⟨order, hcalls, hresource, -⟩ := carryOut_of_finished r _ hfinished
  have hadd (entry : Fin k × Motion ℚ) (hentry : entry ∈ order) : entry.2 = .add v := by
    have hmem := mem_ofParty hentry
    rw [hcalls] at hmem
    exact List.eq_of_mem_replicate hmem
  have hlength : order.length = k * n := by
    rw [length_eq_sum_ofParty order]
    simp only [hcalls, List.length_replicate, Finset.sum_const, Finset.card_univ, Fintype.card_fin,
      smul_eq_mul]
  rw [← hresource, Resource.carryOut_add hwithin hv order hadd, hlength, Nat.cast_mul,
    mul_comm (k : ℚ)]

/-- Whoever shares a resource, whatever they ask of it and whichever way their accesses are mixed:
when all calls have returned, the weight and the answers are those of carrying out every call once,
one at a time, each party's in the order in which it made them. So parties that add the same to a
weight, without rounding, together add what each of them has added. -/
theorem no_update_is_lost :
    (∀ {ι ω : Type} [DecidableEq ι] [Scalar ω] [LawfulScalar ω] (r : Resource ω)
      (calls : ι → List (Motion ω)) (schedule : List (ι × Bool)),
      ((Shared.start r calls).run schedule).Finished →
        ∃ order : List (ι × Motion ω), (∀ i, ofParty i order = calls i) ∧
          (r.carryOut order).2 = ((Shared.start r calls).run schedule).resource ∧
          ∀ i, ofParty i (r.carryOut order).1 =
            (((Shared.start r calls).run schedule).parties i).answers) ∧
    ∀ (r : Resource ℚ) (v : ℚ) (k n : ℕ) (schedule : List (Fin k × Bool)), r.Within → 0 ≤ v →
      ((Shared.start r fun _ => List.replicate n (.add v)).run schedule).Finished →
        ((Shared.start r fun _ => List.replicate n (.add v)).run schedule).resource.current =
          clampWeight (r.current + n * k * v) r.current r.minWeight r.maxWeight :=
  ⟨fun r calls _ hfinished => Shared.carryOut_of_finished r calls hfinished,
    fun _ _ k n _ hwithin hv hfinished => Shared.current_of_additions hwithin hv k n hfinished⟩

/-- Two parties have loaded the weight before either exchanges it; the second finds it changed,
tries again, fails for no reason, and tries once more. -/
theorem no_update_is_lost_race :
    let r : Resource ℚ := .ofDeclaration "a" ⟨8, 0, 0, some 4⟩ false
    let calls : Fin 2 → List (Motion ℚ) :=
      ![[.update fun c => c.current / 2, .forceDown], [.update fun c => c.current / 4]]
    let race : List (Fin 2 × Bool) :=
      [(0, false), (1, false), (0, false), (1, false), (1, true), (1, false), (0, false)]
    (∃ order : List (Fin 2 × Motion ℚ), (∀ i, ofParty i order = calls i) ∧
      (r.carryOut order).2 = ((Shared.start r calls).run race).resource ∧
      ∀ i, ofParty i (r.carryOut order).1 = (((Shared.start r calls).run race).parties i).answers) ∧
    (((Shared.start r calls).run race).parties 0).answers = [(4, 2), (1 / 2, 0)] ∧
    (((Shared.start r calls).run race).parties 1).answers = [(2, 1 / 2)] ∧
    ((Shared.start r fun _ => List.replicate 1 (.add 1)).run race).resource.current = 6 := by
  intro r calls race
  obtain ⟨hfinished, hadded, hlow, hhigh, hsum, hfirst, hsecond⟩ :
      (∀ i, (((Shared.start r calls).run race).parties i).todo.isEmpty = true) ∧
      (∀ i, (((Shared.start r fun _ => List.replicate 1 (.add 1)).run race).parties
        i).todo.isEmpty = true) ∧
      r.minWeight ≤ r.current ∧ r.current ≤ r.maxWeight ∧
      clampWeight (r.current + (1 : ℕ) * (2 : ℕ) * 1) r.current r.minWeight r.maxWeight = 6 ∧
      (((Shared.start r calls).run race).parties 0).answers = [(4, 2), (1 / 2, 0)] ∧
      (((Shared.start r calls).run race).parties 1).answers = [(2, 1 / 2)] := by
    decide +revert +kernel
  have hnonneg : (0 : ℚ) ≤ 1 := by decide
  refine ⟨no_update_is_lost.1 r calls race fun i => List.isEmpty_iff.1 (hfinished i), hfirst,
    hsecond, ?_⟩
  rw [no_update_is_lost.2 r 1 2 1 race ⟨hlow, hhigh⟩ hnonneg fun i =>
    List.isEmpty_iff.1 (hadded i), hsum]

end ResourceSelection
