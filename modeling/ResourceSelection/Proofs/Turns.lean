import Mathlib.Data.List.Rotate
import ResourceSelection.Proofs.Arithmetic
import ResourceSelection.Proofs.Cursors
import ResourceSelection.Proofs.Foresight
import ResourceSelection.Proofs.Sparing

/-!
# Turns go round

The members that a group picks in its turns, along a whole run. Between two of them anything may
happen that can happen to a selector: reports, checks, times in which the group is not whole and
picks by weight, selections with exclusions, selections that other groups answer. The turns pick the
members one after the other, and start over after the last one.

The count of turns outlives all of this, and the invariant is that the next turn picks the member
that the count says, of as many as the group has. It has to be said for one life of a group: a
newcomer makes its group anew, with one more member and no turns taken. And it has to be said before
the count starts over at the end of its word, for there the order is broken unless the members
divide the word.
-/

namespace ResourceSelection

/-! ## While a group takes turns -/

/-- While a group takes turns its members weigh all the same. -/
theorem Group.Settled.same_weight {g : Group Float} (h : g.Settled)
    (hturns : g.snapshot.roundRobin = true) (hwithin : ∀ m ∈ g.members, m.Within) :
    ∃ w, 0 < w ∧ ∀ m ∈ g.members, m.current = w := by
  obtain ⟨first, hfirst⟩ := List.exists_mem_of_ne_nil _ (h.members_ne_nil hturns)
  have hpos {m : Resource Float} (hm : m ∈ g.members) := h.positive_of_roundRobin hturns hm
  refine ⟨first.current, hpos hfirst, fun m hm => ?_⟩
  rw [h.fresh] at hturns
  simp only [make, measure, Bool.and_eq_true, decide_eq_true_eq] at hturns
  obtain ⟨⟨hsame, hhealthy⟩, -⟩ := hturns
  have hfull {m : Resource Float} (hm : m ∈ g.members) : m.current = m.maxWeight :=
    Binary64.eq_of_le (hwithin m hm).2 (of_decide_eq_true (List.all_eq_true.1 hhealthy m hm))
      (hpos hm)
  rw [hfull hm, hfull hfirst, eq_of_sameMaxOf hsame hm hfirst]

variable {ω : Type} [Scalar ω]

/-! ## The turns of a run -/

namespace System

/-- The member that the group of a priority picks in its turn, if that is how the event, a selection,
is answered. -/
def turn? (priority : Nat) (e : Event ω) (s : System ω) : Option String :=
  match e with
  | .call (.select exclude) =>
    (s.decider? exclude).bind fun p =>
      if p.priority = priority ∧ p.TakesTurn exclude s.selector.settings.countsCalls then
        (s.selectWith exclude).1
      else none
  | _ => none

/-- The members that the group of a priority picks in its turns, the first one first. -/
def turns (priority : Nat) : List (Event ω) → System ω → List String
  | [], _ => []
  | e :: rest, s => (s.turn? priority e).toList ++ turns priority rest (s.step e)

theorem turns_append (priority : Nat) (es es' : List (Event ω)) (s : System ω) :
    turns priority (es ++ es') s = turns priority es s ++ turns priority es' (s.run es) := by
  induction es generalizing s with
  | nil => rfl
  | cons e rest ih =>
      show (s.turn? priority e).toList ++ turns priority (rest ++ es') (s.step e) = _
      rw [ih, ← List.append_assoc]
      rfl

end System

/-! ## One event -/

namespace Selector

omit [Scalar ω] in
theorem Layout.index_unique {s : Selector ω} (h : s.Layout) {i j : Nat} {p q : GroupOf Nat ω}
    (hp : s.pools[i]? = some p) (hq : s.pools[j]? = some q) (heq : p.priority = q.priority) :
    i = j := by
  have hlt : i < (s.pools.map (·.priority)).length := by
    rw [List.length_map]
    exact (List.getElem?_eq_some_iff.1 hp).1
  refine (List.getElem?_inj hlt h.nodup_priorities).1 ?_
  rw [List.getElem?_map, List.getElem?_map, hp, hq, Option.map_some, Option.map_some, heq]

/-- The names of a group's members. -/
def namesOf (s : Selector ω) (p : GroupOf Nat ω) : List String :=
  (statesAt s.states p.members).map (·.name)

end Selector

namespace System

open Selector

variable {s : System ω} {p q : GroupOf Nat ω} {e : Event ω} {priority : Nat}

/-- The group after an event is the group before it. Its count has moved if it picked a member in its
turn, and then it is the member that the count said. -/
structure Follows (e : Event ω) (s : System ω) (p q : GroupOf Nat ω) : Prop where
  priority : p.priority = q.priority
  members : p.members = q.members
  unmoved : s.turn? p.priority e = none → q.cursor = p.cursor
  moved {name : String} : s.turn? p.priority e = some name → q.cursor = p.cursor + 1 ∧
    (s.selector.namesOf p)[p.cursor.toNat % p.members.length]? = some name

theorem follows_self (hidle : s.turn? p.priority e = none) : Follows e s p p := by
  refine ⟨rfl, rfl, fun _ => rfl, fun hmoved => ?_⟩
  rw [hidle] at hmoved
  exact nomatch hmoved

omit [Scalar ω] in
theorem getElem?_namesOf (h : s.selector.Layout) (hp : p ∈ s.selector.pools) (i : Nat) :
    (s.selector.namesOf p)[i]? =
      (p.members[i]?).bind fun place => (s.selector.states[place]?).map (·.name) := by
  unfold namesOf
  rw [List.getElem?_map, getElem?_statesAt fun place hplace => h.state hp hplace]
  cases p.members[i]? <;> rfl

theorem turn?_select {exclude : Option (List String)} (hp : s.decider? exclude = some p) :
    s.turn? priority (.call (.select exclude)) =
      if p.priority = priority ∧ p.TakesTurn exclude s.selector.settings.countsCalls then
        (s.selectWith exclude).1
      else none := by
  show (s.decider? exclude).bind _ = _
  rw [hp, Option.bind_some]

/-- A selection leaves all groups as they are, but for the one that takes its turn. -/
theorem follows_select (h : s.selector.Layout) {exclude : Option (List String)}
    (hq : q ∈ (s.selectWith exclude).2.selector.pools) :
    ∃ p ∈ s.selector.pools, Follows (.call (.select exclude)) s p q := by
  rcases decider?_cases h exclude with ⟨hnone, -, hpools⟩ |
    ⟨index, p, place, hsome, hp, hpicked, -, hturn⟩
  · rw [hpools] at hq
    refine ⟨q, hq, follows_self ?_⟩
    show (s.decider? exclude).bind _ = none
    rw [hnone, Option.bind_none]
  · have hmem := List.mem_of_getElem? hp
    by_cases htakes : p.TakesTurn exclude s.selector.settings.countsCalls
    · rw [if_pos htakes] at hturn
      obtain ⟨hplace, hpools⟩ := hturn
      rw [hpools] at hq
      obtain ⟨i, hi⟩ := List.mem_iff_getElem?.1 hq
      rw [turnTo, List.getElem?_modify] at hi
      obtain ⟨p', hp', rfl⟩ := Option.map_eq_some_iff.1 hi
      have hmem' := List.mem_of_getElem? hp'
      split
      · next heq =>
          subst heq
          obtain rfl : p = p' := Option.some.inj (hp.symm.trans hp')
          have hname := getElem?_namesOf h hmem (p.cursor.toNat % p.members.length)
          rw [hplace, Option.bind_some, ← hpicked] at hname
          have hturn : s.turn? p.priority (.call (.select exclude)) = (s.selectWith exclude).1 := by
            rw [turn?_select hsome, if_pos ⟨rfl, htakes⟩]
          refine ⟨p, hmem, rfl, rfl, fun hnone => ?_, fun hmoved => ⟨rfl, ?_⟩⟩
          · obtain ⟨r, hr⟩ := h.state hmem (List.mem_of_getElem? hplace)
            rw [hturn, hpicked, hr, Option.map_some] at hnone
            exact absurd hnone (Option.some_ne_none _)
          · rw [hname, ← hturn, hmoved]
      · next hne =>
          refine ⟨p', hmem', follows_self ?_⟩
          rw [turn?_select hsome, if_neg]
          rintro ⟨hpriority, -⟩
          exact hne (h.index_unique hp hp' hpriority)
    · rw [if_neg htakes] at hturn
      rw [hturn] at hq
      refine ⟨q, hq, follows_self ?_⟩
      rw [turn?_select hsome, if_neg fun hboth => htakes hboth.2]

theorem turn?_of_not_select (hother : ∀ exclude, e ≠ .call (.select exclude)) :
    s.turn? priority e = none := by
  unfold turn?
  split
  · next exclude => exact absurd rfl (hother exclude)
  · rfl

variable [LawfulScalar ω]

/-- A group after an event is one that a newcomer has just joined, or a group before the event. -/
theorem follows_step (h : s.selector.Layout) (e : Event ω)
    (hq : q ∈ (s.step e).selector.pools) :
    (q.cursor = 0 ∧ q.priority = 0 ∧
        q.members = s.selector.membersOf 0 ++ [s.selector.states.length]) ∨
      ∃ p ∈ s.selector.pools, Follows e s p q := by
  by_cases hselect : ∃ exclude, e = .call (.select exclude)
  · obtain ⟨exclude, rfl⟩ := hselect
    exact .inr (follows_select h hq)
  · have hother (exclude) (heq : e = .call (.select exclude)) : False := hselect ⟨exclude, heq⟩
    obtain ⟨p, hp, hfixed, hcursor⟩ :=
      exists_alike (s.step_changes e).frame.pools (cursors_step h hother) hq
    have hpriority : p.priority = q.priority := congrArg (·.1) hfixed
    have hmembers : p.members = q.members := congrArg (·.2.1) hfixed
    have hfollows : Follows e s p q := by
      refine ⟨hpriority, hmembers, fun _ => hcursor.symm, fun hmoved => ?_⟩
      rw [turn?_of_not_select hother] at hmoved
      exact nomatch hmoved
    rcases e.enrols_cases s.selector with heq | ⟨name, weight, -, -, heq⟩
    · rw [heq] at hp
      exact .inr ⟨p, hp, hfollows⟩
    · rw [heq] at hp
      rcases mem_pools_register.1 hp with ⟨hold, -⟩ | rfl
      · exact .inr ⟨p, hold, hfollows⟩
      · exact .inl ⟨hcursor.symm, hpriority.symm, hmembers.symm⟩

/-- Members stay, and newcomers stand behind them. -/
theorem membersOf_step (h : s.selector.Layout) (e : Event ω) (priority : Nat) :
    s.selector.membersOf priority <+: (s.step e).selector.membersOf priority := by
  rw [(s.step_changes e).frame.membersOf priority]
  rcases e.enrols_cases s.selector with heq | ⟨name, weight, hnew, -, heq⟩
  · rw [heq]
  · rw [heq]
    have hlayout := h.register weight hnew
    by_cases hzero : priority = 0
    · subst hzero
      have hjoined := hlayout.members_eq (mem_pools_register.2 (.inr rfl))
      exact ⟨[s.selector.states.length], hjoined⟩
    · cases hmembers : s.selector.membersOf priority with
      | nil => exact List.nil_prefix
      | cons place rest =>
          obtain ⟨p, hp, rfl, -⟩ := mem_membersOf (hmembers ▸ List.mem_cons_self)
          have hkept := hlayout.members_eq (mem_pools_register.2 (.inl ⟨hp, hzero⟩))
          rw [← hmembers, ← hkept, ← h.members_eq hp]

/-- The state at a place keeps its name. -/
theorem name_step {place : Nat} (hplace : place < s.selector.states.length) (e : Event ω) :
    ((s.step e).selector.states[place]?).map (·.name) =
      (s.selector.states[place]?).map (·.name) := by
  have henrols : (e.enrols s.selector).states[place]? = s.selector.states[place]? := by
    rcases e.enrols_cases s.selector with heq | ⟨name, weight, -, -, heq⟩
    · rw [heq]
    · rw [heq, states_register, List.getElem?_append_left hplace]
  have hstate := List.getElem?_eq_getElem hplace
  obtain ⟨r, hr, hkept⟩ := (s.step_changes e).frame.became (henrols.trans hstate)
  rw [hr, hstate, Option.map_some, Option.map_some, hkept.name]

theorem namesOf_step (h : s.selector.Layout) (hp : p ∈ s.selector.pools)
    (hmembers : p.members = q.members) (e : Event ω) :
    (s.step e).selector.namesOf q = s.selector.namesOf p := by
  unfold namesOf
  rw [map_statesAt, map_statesAt, ← hmembers]
  exact List.filterMap_congr fun place hplace => name_step (h.lt_length hp hplace) e

end System

/-! ## A run -/

/-- As many entries in a row as a list has, read around its end. -/
theorem take_drop_eq_rotate {α : Type} {xs ys : List α} {start i : Nat}
    (hxs : ∀ j < ys.length, xs[i + j]? = ys[(start + (i + j)) % ys.length]?) :
    (xs.drop i).take ys.length = ys.rotate (start + i) := by
  refine List.ext_getElem? fun j => ?_
  rcases Nat.lt_or_ge j ys.length with hlt | hge
  · rw [List.getElem?_take_of_lt hlt, List.getElem?_drop, hxs j hlt, List.getElem?_rotate hlt]
    congr 2
    omega
  · rw [List.getElem?_eq_none (by simp; omega), List.getElem?_eq_none (by simpa using hge)]

open Selector ResourceSelection.System

namespace Builder.Reaches

variable [LawfulScalar ω] {b : Builder ω} {s : System ω} {p : GroupOf Nat ω}

theorem membersOf_run (h : b.Reaches s) (es : List (Event ω)) (priority : Nat) :
    s.selector.membersOf priority <+: (s.run es).selector.membersOf priority := by
  induction es generalizing s with
  | nil => exact List.prefix_refl _
  | cons e rest ih => exact (membersOf_step h.layout e priority).trans (ih (h.step e))

/-- While no newcomer joins it, a group goes through a run. -/
theorem exists_follower (h : b.Reaches s) (hp : p ∈ s.selector.pools) (e : Event ω)
    (hmembers : (s.step e).selector.membersOf p.priority = p.members) :
    ∃ q ∈ (s.step e).selector.pools, Follows e s p q := by
  obtain ⟨place, hplace⟩ := List.exists_mem_of_ne_nil _ (h.layout.inhabited hp)
  obtain ⟨q, hq, hpriority, -⟩ := mem_membersOf (hmembers.symm ▸ hplace)
  refine ⟨q, hq, ?_⟩
  rcases follows_step h.layout e hq with ⟨-, hzero, hjoined⟩ | ⟨p', hp', hfollows⟩
  · have hsame := (h.step e).layout.members_eq hq
    rw [hpriority, hmembers, hjoined, h.layout.members_eq hp, ← hpriority, hzero] at hsame
    exact absurd (congrArg List.length hsame) (by simp)
  · obtain rfl : p' = p := h.layout.pool_unique hp' hp (hfollows.priority.trans hpriority)
    exact hfollows

/-- A group that has the same members after a run has had them all along. -/
theorem membersOf_first (h : b.Reaches s) (hp : p ∈ s.selector.pools) (e : Event ω)
    (rest : List (Event ω))
    (hmembers : (s.run (e :: rest)).selector.membersOf p.priority = p.members) :
    (s.step e).selector.membersOf p.priority = p.members := by
  have hfirst := membersOf_step h.layout e p.priority
  have hlast := (h.step e).membersOf_run rest p.priority
  rw [← h.layout.members_eq hp] at hfirst
  rw [show ((s.step e).run rest).selector.membersOf p.priority = p.members from hmembers] at hlast
  exact (hfirst.eq_of_length (Nat.le_antisymm hfirst.length_le hlast.length_le)).symm

/-- The turns of a group pick its members one after the other, from the one that its count says. -/
theorem getElem?_turns (h : b.Reaches s) (hp : p ∈ s.selector.pools) (es : List (Event ω))
    (hmembers : (s.run es).selector.membersOf p.priority = p.members)
    (hfits : p.cursor.toNat + (turns p.priority es s).length < 2 ^ 64) {j : Nat}
    (hj : j < (turns p.priority es s).length) :
    (turns p.priority es s)[j]? =
      (s.selector.namesOf p)[(p.cursor.toNat + j) % p.members.length]? := by
  induction es generalizing s p j with
  | nil => exact absurd hj (Nat.not_lt_zero j)
  | cons e rest ih =>
      obtain ⟨q, hq, hfollows⟩ := h.exists_follower hp e (h.membersOf_first hp e rest hmembers)
      have hnames := namesOf_step h.layout hp hfollows.members e
      rw [hfollows.priority, hfollows.members] at hmembers
      have htail := ih (h.step e) hq hmembers
      rw [hnames, ← hfollows.priority, ← hfollows.members] at htail
      unfold turns at hfits hj ⊢
      cases hturn : s.turn? p.priority e with
      | none =>
          rw [hturn] at hfits hj
          rw [hfollows.unmoved hturn] at htail
          exact htail hfits hj
      | some name =>
          obtain ⟨hcursor, hname⟩ := hfollows.moved hturn
          rw [hturn, Option.toList_some, List.singleton_append, List.length_cons] at hfits hj
          have hcount : q.cursor.toNat = p.cursor.toNat + 1 := by
            rw [hcursor, UInt64.toNat_add, UInt64.toNat_one, Nat.mod_eq_of_lt (by omega)]
          rw [hcount] at htail
          rw [Option.toList_some, List.singleton_append]
          cases j with
          | zero => exact hname.symm
          | succ j =>
              rw [List.getElem?_cons_succ, htail (by omega) (by omega)]
              congr 2
              omega

/-- As many turns in a row as a group has members pick each member once. -/
theorem perm_turns (h : b.Reaches s) (hp : p ∈ s.selector.pools) (es : List (Event ω))
    (hmembers : (s.run es).selector.membersOf p.priority = p.members)
    (hfits : p.cursor.toNat + (turns p.priority es s).length < 2 ^ 64) {i : Nat}
    (hi : i + p.members.length ≤ (turns p.priority es s).length) :
    (((turns p.priority es s).drop i).take p.members.length).Perm (s.selector.namesOf p) := by
  have hlength : (s.selector.namesOf p).length = p.members.length := by
    unfold namesOf
    rw [List.length_map]
    exact length_statesAt fun place hplace => h.layout.state hp hplace
  have hturn {j : Nat} (hj : j < (turns p.priority es s).length) :=
    h.getElem?_turns hp es hmembers hfits hj
  rw [← hlength] at hturn hi ⊢
  rw [take_drop_eq_rotate fun j hj => hturn (by omega)]
  exact List.rotate_perm _ _

/-- A count says no more than the turns that were taken, if it did not before. -/
theorem cursor_le (h : b.Reaches s) (taken : Nat → Nat)
    (hs : ∀ p ∈ s.selector.pools, p.cursor.toNat ≤ taken p.priority) (es : List (Event ω)) :
    ∀ q ∈ (s.run es).selector.pools,
      q.cursor.toNat ≤ taken q.priority + (turns q.priority es s).length := by
  induction es generalizing s taken with
  | nil => exact hs
  | cons e rest ih =>
      intro q hq
      have hstep : ∀ q ∈ (s.step e).selector.pools,
          q.cursor.toNat ≤ taken q.priority + (s.turn? q.priority e).toList.length := by
        intro q hq
        rcases follows_step h.layout e hq with ⟨hzero, -⟩ | ⟨p, hp, hfollows⟩
        · rw [hzero]
          exact Nat.zero_le _
        · have hle := hs p hp
          rw [← hfollows.priority]
          cases hturn : s.turn? p.priority e with
          | none =>
              rw [hfollows.unmoved hturn]
              exact hle
          | some name =>
              rw [(hfollows.moved hturn).1, UInt64.toNat_add, UInt64.toNat_one]
              exact (Nat.mod_le _ _).trans (Nat.add_le_add_right hle 1)
      have hrest := ih (h.step e) (fun priority => taken priority +
        (s.turn? priority e).toList.length) hstep q hq
      unfold turns
      rw [List.length_append, ← Nat.add_assoc]
      exact hrest

end Builder.Reaches

omit [Scalar ω] in
/-- A group has no two members of one name. -/
theorem Selector.Layout.nodup_namesOf {s : Selector ω} (h : s.Layout) {p : GroupOf Nat ω}
    (hp : p ∈ s.pools) : (s.namesOf p).Nodup := by
  have hnodup := h.placed.nodup_iff.2 List.nodup_range
  unfold Selector.namesOf
  rw [map_statesAt]
  refine List.Nodup.filterMap (fun i j name hi hj => ?_) ((List.nodup_flatMap.1 hnodup).1 p hp)
  obtain ⟨r, hr, rfl⟩ := Option.map_eq_some_iff.1 hi
  obtain ⟨r', hr', hname⟩ := Option.map_eq_some_iff.1 hj
  exact h.place_unique hr hr' hname.symm

/-- While a group takes turns all its members have the same positive weight. As long as no newcomer
joins it and its turns since the build fit into a word, any of its turns in a row that are as many
as its members pick each member once, whatever happens between them. -/
theorem turns_go_round {b : Builder Float} {id : Nat} {host : Host Float} {s : System Float}
    (hbuild : b.build id host = .ok s) (before after : List (Event Float)) {g : Group Float}
    (hg : g ∈ (s.run before).selector.groups) :
    (g.snapshot.roundRobin = true → ∃ w, 0 < w ∧ ∀ m ∈ g.members, m.current = w) ∧
      ((s.run (before ++ after)).selector.membersOf g.priority =
          (s.run before).selector.membersOf g.priority →
        (turns g.priority (before ++ after) s).length < 2 ^ 64 →
        (g.members.map (·.name)).Nodup ∧
          ∀ i, i + g.members.length ≤ (turns g.priority after (s.run before)).length →
            (((turns g.priority after (s.run before)).drop i).take g.members.length).Perm
              (g.members.map (·.name))) := by
  have hbuilt : b.Reaches s := .built hbuild
  have h := hbuilt.run before
  obtain ⟨p, hp, rfl⟩ := List.mem_map.1 hg
  refine ⟨fun hturns => ?_, fun hmembers hcount => ⟨h.layout.nodup_namesOf hp, fun i hi => ?_⟩⟩
  · refine (h.settled p hp).same_weight hturns fun m hm => ?_
    obtain ⟨place, -, hstate⟩ := List.mem_filterMap.1 hm
    exact h.bounded.within (List.mem_of_getElem? hstate)
  · have hcursor := hbuilt.cursor_le (fun _ => 0)
      (fun q hq => by rw [(Builder.unturned_of_build hbuild).cursor hq]; rfl) before p hp
    rw [turns_append, List.length_append] at hcount
    rw [show s.run (before ++ after) = (s.run before).run after from List.foldl_append] at hmembers
    have hsame : ((s.run before).run after).selector.membersOf p.priority = p.members :=
      hmembers.trans (h.layout.members_eq hp).symm
    have hlength : (groupOf (s.run before).selector.states p).members.length = p.members.length :=
      length_statesAt fun place hplace => h.layout.state hp hplace
    rw [hlength] at hi ⊢
    refine h.perm_turns hp after hsame ?_ hi
    rw [Nat.zero_add] at hcursor
    exact (Nat.add_le_add_right hcursor _).trans_lt hcount

/-- A selector with one group of two resources that weigh the same and change in large steps. -/
def Builder.twins : Builder Float :=
  { Builder.pair with
    settings := { Settings.default with rule := .flat ⟨50, 50⟩ }
    resources := [("a", .ofWeight 100), ("b", .ofWeight 100)] }

theorem Builder.twins_build : Builder.twins.build 0 { rng := ⟨0⟩ } =
    .ok (Builder.twins.begun 0 { rng := ⟨0⟩ }) := rfl

/-- One turn, a time in which the group is not whole and picks by weight and with an exclusion, and
two more turns once it is whole again. -/
def Event.uneasy : List (Event Float) :=
  [.call (.select none), .call (.report .failure "a"), .call (.select none),
    .call (.select (some ["b"])), .call (.report .success "a"), .call (.select none),
    .call (.select none)]

/-- The turns go on where they were. -/
theorem turns_go_round_twins :
    let s : System Float := Builder.twins.begun 0 { rng := ⟨0⟩ }
    turns 0 Event.uneasy s = ["a", "b", "a"] ∧
      (((turns 0 Event.uneasy s).drop 0).take 2).Perm ["a", "b"] ∧
      (((turns 0 Event.uneasy s).drop 1).take 2).Perm ["a", "b"] := by
  intro s
  have hturns : turns 0 Event.uneasy s = ["a", "b", "a"] := by decide +kernel
  obtain ⟨g, hg, hpriority, hnames⟩ : ∃ g ∈ s.selector.groups,
      g.priority = 0 ∧ g.members.map (·.name) = ["a", "b"] := by decide +kernel
  have hlength : g.members.length = 2 := by rw [← g.members.length_map (·.name), hnames]; rfl
  have hround := (turns_go_round Builder.twins_build [] Event.uneasy hg).2
  rw [hpriority, hnames, hlength] at hround
  have hmembers : (s.run Event.uneasy).selector.membersOf 0 = s.selector.membersOf 0 := by
    decide +kernel
  have hcount : (turns 0 Event.uneasy s).length = 3 := by rw [hturns]; rfl
  have hwindow := (hround hmembers (by rw [List.nil_append, hcount]; decide)).2
  exact ⟨hturns, hwindow 0 (by rw [show s.run [] = s from rfl, hcount]; decide),
    hwindow 1 (by rw [show s.run [] = s from rfl, hcount])⟩

end ResourceSelection
