import ResourceSelection.Proofs.Freshness
import ResourceSelection.Proofs.Sampling

/-!
# Selections are sound and complete

A selection answers with a resource that is registered, not excluded and of positive weight, and it
answers whenever there is one. Within a group this is one fact about each of four ways to pick. Two
of them never look at a weight: the turns and the alias table rely on what the snapshot says about
maxima, and only a fresh snapshot says it of the members. Across groups it is a matter of trying
every group, from wherever the priority pick starts.

Nothing else comes of a selection. One counter grows, the turns of groups move on, and the picked
resource has one more call in flight where selections are counted.
-/

namespace ResourceSelection

variable {ω : Type} [Scalar ω]

namespace Resource

/-- The weight that a selection looks at. -/
def weightSeen (avoidBusy : Bool) (r : Resource ω) : ω :=
  if avoidBusy then r.selectionWeight else r.current

/-- Whether a selection may answer with the resource. -/
def Eligible (exclude : Option (List String)) (avoidBusy : Bool) (r : Resource ω) : Prop :=
  r.name ∉ exclude.getD [] ∧ 0 < r.weightSeen avoidBusy

/-- A share of a weight is positive only if the weight is. -/
theorem current_pos [LawfulScalar ω] {r : Resource ω} {avoidBusy : Bool}
    (h : 0 < r.weightSeen avoidBusy) (hcurrent : 0 ≤ r.current) : 0 < r.current := by
  unfold weightSeen selectionWeight at h
  split at h
  · split at h
    · exact (LawfulScalar.ne_zero_of_div h).resolve_right (Scalar.not_lt_of_le hcurrent)
    · exact h
  · exact h

end Resource

/-! ## One group -/

namespace Group

theorem Settled.weights {g : Group ω} (h : g.Settled) :
    g.snapshot.weights = g.members.map (·.current) := by
  rw [h.fresh]
  rfl

theorem Settled.table {g : Group ω} (h : g.Settled) {t : AliasTable Nat ω}
    (ht : g.snapshot.table = some t) :
    ∃ n, AliasTable.ofWeights? ((List.range n).zip (g.members.map (·.current))) = some t := by
  rw [h.fresh] at ht
  simp only [make, measure] at ht
  split at ht
  · exact ⟨_, ht⟩
  · exact nomatch ht

theorem getElem?_of_mem_zip_range {α : Type} {xs : List α} {n i : Nat} {x : α}
    (h : (i, x) ∈ (List.range n).zip xs) : xs[i]? = some x := by
  obtain ⟨j, hj⟩ := List.mem_iff_getElem?.1 h
  obtain ⟨hi, hx⟩ := List.getElem?_zip_eq_some.1 hj
  obtain ⟨hlt, heq⟩ := List.getElem?_eq_some_iff.1 hi
  rw [List.getElem_range] at heq
  obtain rfl : j = i := heq
  exact hx

variable [LawfulScalar ω] {g : Group ω}

theorem eq_of_sameMaxOf {members : List (Resource ω)} (h : sameMaxOf members = true)
    {q r : Resource ω} (hq : q ∈ members) (hr : r ∈ members) : q.maxWeight = r.maxWeight := by
  cases members with
  | nil => exact nomatch hq
  | cons first rest =>
      have hall {t : Resource ω} (ht : t ∈ first :: rest) : t.maxWeight = first.maxWeight :=
        LawfulScalar.same_iff.1 (List.all_eq_true.1 h t ht)
      rw [hall hq, hall hr]

/-- While the group takes turns, all members are at their maxima, and these are positive: their sum
is, and they are all the same. -/
theorem Settled.positive_of_roundRobin (h : g.Settled) (hturns : g.snapshot.roundRobin = true)
    {m : Resource ω} (hm : m ∈ g.members) : 0 < m.current := by
  rw [h.fresh] at hturns
  simp only [make, measure, Bool.and_eq_true, decide_eq_true_eq] at hturns
  obtain ⟨⟨hsame, hhealthy⟩, htotal⟩ := hturns
  obtain ⟨x, hx, hpos⟩ := Scalar.exists_pos_of_sum htotal
  obtain ⟨q, hq, rfl⟩ := List.mem_map.1 hx
  rw [eq_of_sameMaxOf hsame hq hm] at hpos
  exact Scalar.lt_of_lt_of_le hpos (of_decide_eq_true (List.all_eq_true.1 hhealthy m hm))

theorem Settled.members_ne_nil (h : g.Settled) (hturns : g.snapshot.roundRobin = true) :
    g.members ≠ [] := by
  rw [h.fresh] at hturns
  simp only [make, measure, Bool.and_eq_true, decide_eq_true_eq] at hturns
  obtain ⟨x, hx, -⟩ := Scalar.exists_pos_of_sum hturns.2
  obtain ⟨q, hq, -⟩ := List.mem_map.1 hx
  exact List.ne_nil_of_mem hq

omit [Scalar ω] [LawfulScalar ω] in
theorem getElem?_of_positive {f : Resource ω → ω} {i : Nat} {P : ω → Prop}
    (h : ∃ w, (g.members.map f)[i]? = some w ∧ P w) :
    ∃ m, g.members[i]? = some m ∧ P (f m) := by
  obtain ⟨w, hw, hP⟩ := h
  rw [List.getElem?_map] at hw
  obtain ⟨m, hm, rfl⟩ := Option.map_eq_some_iff.1 hw
  exact ⟨m, hm, hP⟩

omit [LawfulScalar ω] in
/-- A draw from the table of a settled group gives a member of positive weight. -/
theorem Settled.exists_sample (h : g.Settled) {t : AliasTable Nat ω}
    (ht : g.snapshot.table = some t) (rng : Rng) :
    ∃ i m, (t.sample rng).1 = some i ∧ g.members[i]? = some m ∧ 0 < m.current := by
  obtain ⟨n, hn⟩ := h.table ht
  obtain ⟨i, hi, hsample⟩ := (AliasTable.drawable_ofWeights? hn).exists_sample rng
  obtain ⟨w, hmem, hpos⟩ := AliasTable.positive_of_mem_items hn hi
  obtain ⟨m, hm, hcurrent⟩ := getElem?_of_positive ⟨w, getElem?_of_mem_zip_range hmem, hpos⟩
  exact ⟨i, m, hsample, hm, hcurrent⟩

/-- What the snapshot picks has a positive weight. -/
theorem Settled.positive_of_pickCached (h : g.Settled) {rng : Rng} {i : Nat}
    (hpick : (g.pickCached rng).1 = some i) : ∃ m, g.members[i]? = some m ∧ 0 < m.current := by
  unfold pickCached at hpick
  split at hpick
  · next hturns =>
      unfold takeTurn at hpick
      rw [if_neg (by simpa using h.members_ne_nil hturns)] at hpick
      obtain rfl := Option.some.inj hpick
      have hlt := Nat.mod_lt g.cursor.toNat (List.length_pos_iff.2 (h.members_ne_nil hturns))
      exact ⟨_, List.getElem?_eq_getElem hlt,
        h.positive_of_roundRobin hturns (List.getElem_mem hlt)⟩
  · split at hpick
    · next t ht =>
        obtain ⟨j, m, hsample, hm, hpos⟩ := h.exists_sample ht rng
        obtain rfl := Option.some.inj (hpick.symm.trans hsample)
        exact ⟨m, hm, hpos⟩
    · have hpositive := positive_of_pickWeighted hpick
      rw [h.weights] at hpositive
      exact getElem?_of_positive hpositive

/-- The snapshot picks nothing only where no weight is positive. -/
theorem Settled.not_positive_of_pickCached (h : g.Settled) {rng : Rng}
    (hpick : (g.pickCached rng).1 = none) {m : Resource ω} (hm : m ∈ g.members) :
    ¬ 0 < m.current := by
  unfold pickCached at hpick
  split at hpick
  · next hturns =>
      unfold takeTurn at hpick
      rw [if_neg (by simpa using h.members_ne_nil hturns)] at hpick
      exact nomatch hpick
  · split at hpick
    · next t ht =>
        obtain ⟨j, -, hsample, -⟩ := h.exists_sample ht rng
        rw [hsample] at hpick
        exact nomatch hpick
    · refine not_positive_of_pickWeighted hpick ?_
      rw [h.weights]
      exact List.mem_map_of_mem hm

/-- What the members pick is eligible. -/
theorem eligible_of_pickLive {exclude : List String} {avoidBusy : Bool} {rng : Rng} {i : Nat}
    (hpick : (g.pickLive exclude avoidBusy rng).1 = some i) :
    ∃ m, g.members[i]? = some m ∧ m.Eligible (some exclude) avoidBusy := by
  obtain ⟨m, hm, hpos⟩ := getElem?_of_positive (positive_of_pickWeighted hpick)
  refine ⟨m, hm, ?_⟩
  split at hpos
  · exact absurd hpos (LawfulScalar.lt_irrefl 0)
  · next hexclude => exact ⟨by simpa using hexclude, hpos⟩

omit [LawfulScalar ω] in
/-- The members pick nothing only where none is eligible. -/
theorem not_eligible_of_pickLive {exclude : List String} {avoidBusy : Bool} {rng : Rng}
    (hpick : (g.pickLive exclude avoidBusy rng).1 = none) {m : Resource ω} (hm : m ∈ g.members) :
    ¬ m.Eligible (some exclude) avoidBusy := by
  rintro ⟨hexclude, hpos⟩
  refine not_positive_of_pickWeighted hpick (List.mem_map_of_mem hm) ?_
  rw [if_neg (by simpa using hexclude)]
  exact hpos

theorem Settled.eligible_of_select (h : g.Settled) {exclude : Option (List String)}
    {avoidBusy : Bool} {rng : Rng} {i : Nat} (hpick : (g.select exclude avoidBusy rng).1 = some i) :
    ∃ m, g.members[i]? = some m ∧ m.Eligible exclude avoidBusy := by
  unfold select at hpick
  simp only at hpick
  split at hpick
  · next hcached =>
      simp only [Bool.and_eq_true, List.isEmpty_iff, Bool.not_eq_true'] at hcached
      obtain ⟨m, hm, hpos⟩ := h.positive_of_pickCached hpick
      refine ⟨m, hm, ?_, ?_⟩
      · rw [hcached.1]
        exact List.not_mem_nil
      · rw [Resource.weightSeen, hcached.2]
        exact hpos
  · exact eligible_of_pickLive hpick

theorem Settled.not_eligible_of_select (h : g.Settled) {exclude : Option (List String)}
    {avoidBusy : Bool} {rng : Rng} (hpick : (g.select exclude avoidBusy rng).1 = none)
    {m : Resource ω} (hm : m ∈ g.members) : ¬ m.Eligible exclude avoidBusy := by
  unfold select at hpick
  simp only at hpick
  split at hpick
  · next hcached =>
      simp only [Bool.and_eq_true, List.isEmpty_iff, Bool.not_eq_true'] at hcached
      rintro ⟨-, hpos⟩
      rw [Resource.weightSeen, hcached.2] at hpos
      exact h.not_positive_of_pickCached hpick hm hpos
  · exact not_eligible_of_pickLive hpick hm

end Group

/-! ## One group after the other -/

/-- A group but for its count of turns. -/
def GroupOf.still {μ : Type} (g : GroupOf μ ω) : GroupOf μ ω := { g with cursor := 0 }

namespace Selector

/-- The second selector is the first one after some turns. -/
structure Turned (s t : Selector ω) : Prop where
  rest : t = { s with pools := t.pools }
  pools : t.pools.map GroupOf.still = s.pools.map GroupOf.still

omit [Scalar ω] in
theorem Turned.refl (s : Selector ω) : s.Turned s := ⟨rfl, rfl⟩

omit [Scalar ω] in
theorem Turned.trans {s t u : Selector ω} (h : s.Turned t) (h' : t.Turned u) : s.Turned u where
  rest := by rw [h'.rest, h.rest]
  pools := h'.pools.trans h.pools

omit [Scalar ω] in
theorem turned_turnTo (s : Selector ω) (index : Nat) (cursor : UInt64) :
    s.Turned (s.turnTo index cursor) where
  rest := rfl
  pools := map_modify_of_eq (fun p => { p with cursor }) _ (fun _ => rfl) index s.pools

omit [Scalar ω] in
theorem Turned.states {s t : Selector ω} (h : s.Turned t) : t.states = s.states := by
  rw [h.rest]

omit [Scalar ω] in
theorem Turned.settings {s t : Selector ω} (h : s.Turned t) : t.settings = s.settings := by
  rw [h.rest]

omit [Scalar ω] in
theorem Turned.pool {s t : Selector ω} (h : s.Turned t) {index : Nat} {p : GroupOf Nat ω}
    (hp : s.pools[index]? = some p) : ∃ q, t.pools[index]? = some q ∧ q.members = p.members := by
  have hstill := congrArg (·[index]?) h.pools
  simp only [List.getElem?_map, hp, Option.map_some] at hstill
  obtain ⟨q, hq, heq⟩ := Option.map_eq_some_iff.1 hstill
  exact ⟨q, hq, congrArg (·.members) heq⟩

omit [Scalar ω] in
/-- Where all places lead to states, a place and its state stand at the same index. -/
theorem getElem?_statesAt {states : List (Resource ω)} {places : List Nat}
    (h : ∀ place ∈ places, ∃ r, states[place]? = some r) (i : Nat) :
    (statesAt states places)[i]? = (places[i]?).bind fun place => states[place]? := by
  unfold statesAt
  induction places generalizing i with
  | nil => rfl
  | cons place rest ih =>
      obtain ⟨r, hr⟩ := h place List.mem_cons_self
      rw [List.filterMap_cons_some hr]
      cases i with
      | zero => exact hr.symm
      | succ i => exact ih (fun place hplace => h place (List.mem_cons_of_mem _ hplace)) i

/-- What a selection relies on. -/
structure Ready (s : Selector ω) : Prop where
  layout : s.Layout
  settled : s.Settled

theorem Ready.turnTo {s : Selector ω} (h : s.Ready) (index : Nat) (cursor : UInt64) :
    (s.turnTo index cursor).Ready :=
  ⟨h.layout.frame (s.frame_turnTo index cursor), h.settled.turnTo index cursor⟩

end Selector

namespace System

open Selector

theorem turned_tryGroups (exclude : Option (List String)) (order : List Nat) (s : System ω) :
    s.selector.Turned (tryGroups exclude order s).2.selector := by
  induction order generalizing s with
  | nil => exact .refl _
  | cons index rest ih =>
      unfold tryGroups
      split
      · exact ih s
      · simp only
        split
        · exact s.selector.turned_turnTo index _
        · refine Turned.trans ?_ (ih _)
          exact s.selector.turned_turnTo index _

theorem turned_of_tryGroups {exclude : Option (List String)} {order : List Nat} {s s' : System ω}
    {picked : Option Nat} (h : tryGroups exclude order s = (picked, s')) :
    s.selector.Turned s'.selector := by
  have hturned := turned_tryGroups exclude order s
  rw [h] at hturned
  exact hturned

variable [LawfulScalar ω]

/-- What a group picks is the place of an eligible state. -/
theorem eligible_of_select {exclude : Option (List String)} {s : Selector ω} (h : s.Ready)
    {p : GroupOf Nat ω} (hp : p ∈ s.pools) {avoidBusy : Bool} {rng : Rng} {i : Nat}
    (hpick : ((groupOf s.states p).select exclude avoidBusy rng).1 = some i) :
    ∃ place r, p.members[i]? = some place ∧ s.states[place]? = some r ∧
      r.Eligible exclude avoidBusy := by
  obtain ⟨r, hr, heligible⟩ := (h.settled p hp).eligible_of_select hpick
  have hbind : (p.members[i]?).bind (fun place => s.states[place]?) = some r := by
    rw [← getElem?_statesAt fun place hplace => h.layout.state hp hplace]
    exact hr
  obtain ⟨place, hplace, hstate⟩ := Option.bind_eq_some_iff.1 hbind
  exact ⟨place, r, hplace, hstate, heligible⟩

/-- The state whose place the groups answer with is eligible. -/
theorem eligible_of_tryGroups {exclude : Option (List String)} {order : List Nat} {s : System ω}
    (h : s.selector.Ready) {place : Nat} (htry : (tryGroups exclude order s).1 = some place) :
    ∃ r, s.selector.states[place]? = some r ∧
      r.Eligible exclude s.selector.settings.countsCalls := by
  induction order generalizing s with
  | nil => exact nomatch htry
  | cons index rest ih =>
      unfold tryGroups at htry
      split at htry
      · exact ih h htry
      · next p hp =>
          simp only at htry
          split at htry
          · next picked hpicked =>
              obtain rfl := Option.some.inj htry
              obtain ⟨i, hi, hplace⟩ := Option.bind_eq_some_iff.1 hpicked
              obtain ⟨place, r, hplace', hr⟩ := eligible_of_select h (List.mem_of_getElem? hp) hi
              obtain rfl := Option.some.inj (hplace'.symm.trans hplace)
              exact ⟨r, hr⟩
          · exact ih (s := ⟨s.selector.turnTo index _, _⟩) (h.turnTo index _) htry

/-- When no group answers, no member of a group that was tried is eligible. -/
theorem not_eligible_of_tryGroups {exclude : Option (List String)} {order : List Nat} {s : System ω}
    (h : s.selector.Ready) (htry : (tryGroups exclude order s).1 = none) {index place : Nat}
    (hindex : index ∈ order) {p : GroupOf Nat ω} (hp : s.selector.pools[index]? = some p)
    (hplace : place ∈ p.members) {r : Resource ω} (hr : s.selector.states[place]? = some r) :
    ¬ r.Eligible exclude s.selector.settings.countsCalls := by
  induction order generalizing s p with
  | nil => exact absurd hindex List.not_mem_nil
  | cons first rest ih =>
      unfold tryGroups at htry
      split at htry
      · next hnone =>
          rcases List.mem_cons.1 hindex with rfl | hrest
          · rw [hp] at hnone
            exact absurd hnone (Option.some_ne_none p)
          · exact ih h htry hrest hp hplace hr
      · next q hq =>
          simp only at htry
          split at htry
          · exact absurd htry (Option.some_ne_none _)
          · next hpicked =>
              rcases List.mem_cons.1 hindex with rfl | hrest
              · obtain rfl := Option.some.inj (hq.symm.trans hp)
                have hmem := List.mem_of_getElem? hp
                have hmember := List.mem_filterMap.2 ⟨place, hplace, hr⟩
                cases hselect : ((groupOf s.selector.states q).select exclude
                    s.selector.settings.countsCalls s.host.rng).1 with
                | none => exact (h.settled q hmem).not_eligible_of_select hselect hmember
                | some i =>
                    obtain ⟨other, -, hother, -⟩ := eligible_of_select h hmem hselect
                    rw [hselect, Option.bind_some, hother] at hpicked
                    exact absurd hpicked (Option.some_ne_none _)
              · -- the turn that the group took shows in no member
                obtain ⟨p', hp', hmembers⟩ := (s.selector.turned_turnTo first _).pool hp
                exact ih (s := ⟨s.selector.turnTo first _, _⟩) (h.turnTo first _) htry hrest hp'
                  (hmembers ▸ hplace) hr

/-- Going around the end of the list, every index comes up. -/
theorem mem_around {start count index : Nat} (h : index < count) :
    index ∈ (List.range count).map fun offset => (start + offset) % count := by
  have hpos := Nat.zero_lt_of_lt h
  have hsplit := Nat.div_add_mod start count
  have hlt := Nat.mod_lt start hpos
  rw [List.mem_map]
  rcases Nat.lt_or_ge index (start % count) with hbefore | hafter
  · refine ⟨index + count - start % count, List.mem_range.2 (by omega), ?_⟩
    have hsum : start + (index + count - start % count) =
        index + count * (start / count + 1) := by
      rw [Nat.mul_succ]
      omega
    rw [hsum, Nat.add_mul_mod_self_left, Nat.mod_eq_of_lt h]
  · refine ⟨index - start % count, List.mem_range.2 (by omega), ?_⟩
    have hsum : start + (index - start % count) = index + count * (start / count) := by omega
    rw [hsum, Nat.add_mul_mod_self_left, Nat.mod_eq_of_lt h]

/-- A selection either finds an eligible state or there is none, and is counted in any case. -/
theorem selectWith_cases {s : System ω} (h : s.selector.Ready) (exclude : Option (List String)) :
    (∃ place r t, s.selector.states[place]? = some r ∧
      r.Eligible exclude s.selector.settings.countsCalls ∧ s.selector.Turned t ∧
      (s.selectWith exclude).1 = some r.name ∧
      (s.selectWith exclude).2.selector =
        { (if t.settings.tracksCalls then t.modifyAt place fun r => r.acquire.2 else t) with
          counters := { t.counters with selections := t.counters.selections + 1 } }) ∨
    (∃ t, (∀ r ∈ s.selector.states, ¬ r.Eligible exclude s.selector.settings.countsCalls) ∧
      s.selector.Turned t ∧ (s.selectWith exclude).1 = none ∧
      (s.selectWith exclude).2.selector =
        { t with counters := { t.counters with exhausted := t.counters.exhausted + 1 } }) := by
  unfold selectWith
  simp only
  generalize hstart : System.mk s.selector { s.host with rng := s.firstGroup.2 } = s₁
  have hsel : s.selector = s₁.selector := by rw [← hstart]
  rw [hsel] at h ⊢
  split
  · next place s' htry =>
      have hturned := turned_of_tryGroups htry
      obtain ⟨r, hr, heligible⟩ := eligible_of_tryGroups h (congrArg (·.1) htry)
      refine .inl ⟨place, r, s'.selector, hr, heligible, hturned, ?_, ?_⟩
      · rw [hturned.states, hr, Option.map_some]
      · split
        · rfl
        · rfl
  · next s' htry =>
      have hturned := turned_of_tryGroups htry
      refine .inr ⟨s'.selector, fun r hr => ?_, hturned, rfl, rfl⟩
      obtain ⟨place, hplace⟩ := List.mem_iff_getElem?.1 hr
      obtain ⟨p, hp, hmember⟩ := h.layout.exists_pool (List.getElem?_eq_some_iff.1 hplace).1
      obtain ⟨index, hindex⟩ := List.mem_iff_getElem?.1 hp
      exact not_eligible_of_tryGroups h (congrArg (·.1) htry)
        (mem_around (List.getElem?_eq_some_iff.1 hindex).1) hindex hmember hplace

end System

/-! ## What a selection leaves behind -/

namespace Selector

/-- What a selection promises: `picked` is the answer given by `s`, and `t` is what `s` becomes. -/
structure Selected (exclude : Option (List String)) (s : Selector ω) (picked : Option String)
    (t : Selector ω) : Prop where
  sound {name : String} : picked = some name →
    ∃ r, s.find? name = some r ∧ name ∉ exclude.getD [] ∧ 0 < r.current
  complete : picked = none ↔ ∀ name r, s.find? name = some r → name ∉ exclude.getD [] →
    ¬ 0 < r.weightSeen s.settings.countsCalls
  counted : t.counters =
    if picked.isSome then { s.counters with selections := s.counters.selections + 1 }
    else { s.counters with exhausted := s.counters.exhausted + 1 }
  turned : t.pools.map GroupOf.still = s.pools.map GroupOf.still
  kept (name : String) : t.find? name = (s.find? name).map fun r =>
    if picked = some name ∧ s.settings.tracksCalls = true then
      { r with inFlight := r.inFlight.map fun n => min (n + 1) Resource.inFlightLimit }
    else r
  rest : t = { s with states := t.states, pools := t.pools, counters := t.counters }

omit [Scalar ω] in
theorem Turned.find? {s t : Selector ω} (h : s.Turned t) (name : String) :
    t.find? name = s.find? name := by
  rw [h.rest]
  rfl

omit [Scalar ω] in
/-- A change to the state at a place shows under the name of that state only. -/
theorem Layout.find?_modifyAt {s : Selector ω} (h : s.Layout) {place : Nat} {r : Resource ω}
    (hr : s.states[place]? = some r) (f : Resource ω → Resource ω) (name : String) :
    (s.modifyAt place f).find? name =
      (s.find? name).map fun q => if r.name = name then f q else q := by
  have hplace : (s.modifyAt place f).place? name = s.place? name := rfl
  unfold Selector.find? entry?
  rw [hplace]
  cases hfound : s.place? name with
  | none => rfl
  | some i =>
      obtain ⟨q, hq, rfl⟩ := h.registered.1 hfound
      simp only [Option.bind_some, Selector.modifyAt, List.getElem?_modify, hq, Option.map_eq_map,
        Option.map_some]
      by_cases heq : place = i
      · subst heq
        obtain rfl := Option.some.inj (hr.symm.trans hq)
        rw [if_pos rfl, if_pos rfl]
      · rw [if_neg heq, if_neg fun hname => heq (h.place_unique hr hq hname)]

theorem selected_some {s t : Selector ω} (h : s.Layout) (hturned : s.Turned t)
    {exclude : Option (List String)} {place : Nat} {r : Resource ω}
    (hr : s.states[place]? = some r) (heligible : r.Eligible exclude s.settings.countsCalls)
    (hcurrent : 0 < r.current) :
    s.Selected exclude (some r.name)
      { (if t.settings.tracksCalls then t.modifyAt place fun r => r.acquire.2 else t) with
        counters := { t.counters with selections := t.counters.selections + 1 } } := by
  have hfind := h.find?_eq_some.2 ⟨place, hr, rfl⟩
  refine ⟨?sound, ?complete, ?counted, ?turned, ?kept, ?rest⟩
  case sound =>
    intro name hname
    obtain rfl := Option.some.inj hname
    exact ⟨r, hfind, heligible.1, hcurrent⟩
  case complete =>
    simp only [reduceCtorEq, false_iff]
    exact fun hall => hall r.name r hfind heligible.1 heligible.2
  case counted =>
    rw [hturned.rest]
    rfl
  case turned =>
    split
    · exact hturned.pools
    · exact hturned.pools
  case kept =>
    intro name
    split
    · next htracks =>
        rw [hturned.settings] at htracks
        rw [hturned.rest]
        refine (h.find?_modifyAt hr _ name).trans ?_
        simp only [Option.some.injEq, htracks, and_true, Resource.acquire]
    · next htracks =>
        rw [hturned.settings] at htracks
        simp only [htracks, Bool.false_eq_true, and_false, if_false]
        exact (hturned.find? name).trans Option.map_id'.symm
  case rest =>
    rw [hturned.rest]
    split
    · rfl
    · rfl

theorem selected_none {s t : Selector ω} (h : s.Layout) (hturned : s.Turned t)
    {exclude : Option (List String)}
    (hnone : ∀ r ∈ s.states, ¬ r.Eligible exclude s.settings.countsCalls) :
    s.Selected exclude none
      { t with counters := { t.counters with exhausted := t.counters.exhausted + 1 } } where
  sound hname := nomatch hname
  complete := by
    refine ⟨fun _ name r hfind hexclude hpos => ?_, fun _ => rfl⟩
    obtain ⟨place, hr, rfl⟩ := h.find?_eq_some.1 hfind
    exact hnone r (List.mem_of_getElem? hr) ⟨hexclude, hpos⟩
  counted := by
    rw [hturned.rest]
    rfl
  turned := hturned.pools
  kept name := by
    simp only [reduceCtorEq, false_and, if_false]
    exact (hturned.find? name).trans Option.map_id'.symm
  rest := by
    rw [hturned.rest]

end Selector

/-- A selection by any selector is sound and complete and changes nothing else, whatever its random
numbers are: others may leave the host in any state before it. -/
theorem selected_of_selectWith {b : Builder Float} {s : System Float} (h : b.Reaches s)
    (exclude : Option (List String)) (host : Host Float) :
    s.selector.Selected exclude ((System.mk s.selector host).selectWith exclude).1
      ((System.mk s.selector host).selectWith exclude).2.selector := by
  have hlayout := h.layout
  have hready : Selector.Ready (System.mk s.selector host).selector := ⟨hlayout, h.settled⟩
  rcases System.selectWith_cases hready exclude with
    ⟨place, r, t, hr, heligible, hturned, hpicked, hselector⟩ |
    ⟨t, hnone, hturned, hpicked, hselector⟩
  · have hmem := List.mem_of_getElem? hr
    have hcurrent := Scalar.le_trans (h.bounded.nonneg hmem) (h.bounded.within hmem).1
    rw [hpicked, hselector]
    exact Selector.selected_some hlayout hturned hr heligible
      (Resource.current_pos heligible.2 hcurrent)
  · rw [hpicked, hselector]
    exact Selector.selected_none hlayout hturned hnone

/-- So it is without the first resource, after a failed call to the second one. -/
theorem selected_of_selectWith_pair : ∃ s, Builder.pair.Reaches s ∧ ∀ host,
    s.selector.Selected (some ["a"]) ((System.mk s.selector host).selectWith (some ["a"])).1
      ((System.mk s.selector host).selectWith (some ["a"])).2.selector := by
  obtain ⟨s, hbuild⟩ := Builder.exists_build Builder.pair_valid (.of_none rfl) 0 { rng := ⟨0⟩ }
  have h := (Builder.Reaches.built hbuild).step (.call (.report .failure "b"))
  exact ⟨_, h, selected_of_selectWith h (some ["a"])⟩

end ResourceSelection
