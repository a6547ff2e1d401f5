import ResourceSelection.Proofs.Locality

/-!
# What moves a count of turns

A group's count of turns moves when the group answers a selection by taking its turn, and by one
then. For a selection this is `tryGroups_cases`: a group that has no answer leaves the selector as
it was, so the group that answers is asked in the state that the selection began with, and all that
the selection does to the groups is to move the count of this one, if it took its turn. For the
other events no frame can tell, since a change may move any count; but what they do to resources are
dealings, and a dealing moves none (`cursors_step`). A registration comes before it, and makes the
group of priority zero anew.
-/

namespace ResourceSelection

variable {ω : Type} [Scalar ω]

/-! ## One group -/

/-- Whether a group that is asked for a member takes its turn. -/
def GroupOf.TakesTurn {μ : Type} (g : GroupOf μ ω) (exclude : Option (List String))
    (avoidBusy : Bool) : Prop :=
  exclude.getD [] = [] ∧ avoidBusy = false ∧ g.snapshot.roundRobin = true

instance {μ : Type} (g : GroupOf μ ω) (exclude : Option (List String)) (avoidBusy : Bool) :
    Decidable (g.TakesTurn exclude avoidBusy) :=
  inferInstanceAs (Decidable (_ ∧ _ ∧ _))

namespace Group

variable {g : Group ω} {exclude : Option (List String)} {avoidBusy : Bool}

theorem select_of_takesTurn (h : g.TakesTurn exclude avoidBusy) (hmembers : g.members ≠ [])
    (rng : Rng) :
    g.select exclude avoidBusy rng =
      (some (g.cursor.toNat % g.members.length), { g with cursor := g.cursor + 1 }, rng) := by
  obtain ⟨hexclude, rfl, hturns⟩ := h
  unfold select pickCached takeTurn
  simp only [hexclude, hturns, List.isEmpty_nil, Bool.not_false, Bool.and_self, if_true,
    List.isEmpty_eq_false_iff.2 hmembers, Bool.false_eq_true, if_false]

theorem cursor_select_of_not (h : ¬ g.TakesTurn exclude avoidBusy) (rng : Rng) :
    (g.select exclude avoidBusy rng).2.1.cursor = g.cursor := by
  unfold select
  simp only
  split
  · next hcached =>
      obtain ⟨hempty, hfree⟩ := Bool.and_eq_true_iff.1 hcached
      unfold pickCached
      split
      · next hturns =>
          exact absurd ⟨List.isEmpty_iff.1 hempty, by simpa using hfree, hturns⟩ h
      · split
        · rfl
        · rfl
  · rfl

end Group

namespace Selector

variable {s : Selector ω} {index : Nat} {p : GroupOf Nat ω}

omit [Scalar ω] in
theorem length_statesAt {states : List (Resource ω)} {places : List Nat}
    (h : ∀ place ∈ places, ∃ r, states[place]? = some r) :
    (statesAt states places).length = places.length := by
  induction places with
  | nil => rfl
  | cons place rest ih =>
      obtain ⟨r, hr⟩ := h place List.mem_cons_self
      unfold statesAt at ih ⊢
      rw [List.filterMap_cons_some hr, List.length_cons, List.length_cons,
        ih fun place hplace => h place (List.mem_cons_of_mem _ hplace)]

omit [Scalar ω] in
/-- A count of turns that is set to what it is. -/
theorem turnTo_self (hp : s.pools[index]? = some p) : s.turnTo index p.cursor = s := by
  unfold turnTo
  have hpools : s.pools.modify index (fun q => { q with cursor := p.cursor }) = s.pools := by
    refine List.ext_getElem? fun i => ?_
    rw [List.getElem?_modify]
    split
    · next heq =>
        subst heq
        rw [hp]
        rfl
    · exact Option.map_id'
  rw [hpools]

omit [Scalar ω] in
/-- Groups that are alike in all but the snapshot. -/
theorem exists_alike {ps qs : List (GroupOf Nat ω)} {q : GroupOf Nat ω}
    (hfixed : qs.map GroupOf.fixed = ps.map GroupOf.fixed)
    (hcursors : qs.map (·.cursor) = ps.map (·.cursor)) (hq : q ∈ qs) :
    ∃ p ∈ ps, p.fixed = q.fixed ∧ p.cursor = q.cursor := by
  obtain ⟨i, hi⟩ := List.mem_iff_getElem?.1 hq
  have hfixed := congrArg (·[i]?) hfixed
  have hcursors := congrArg (·[i]?) hcursors
  simp only [List.getElem?_map, hi, Option.map_some] at hfixed hcursors
  obtain ⟨p, hp, hpq⟩ := Option.map_eq_some_iff.1 hfixed.symm
  rw [hp, Option.map_some] at hcursors
  exact ⟨p, List.mem_of_getElem? hp, hpq, (Option.some.inj hcursors).symm⟩

/-- A group of the selector that takes its turn has a member whose turn it is. -/
theorem Layout.select_of_takesTurn (h : s.Layout) (hp : p ∈ s.pools) {exclude : Option (List String)}
    {avoidBusy : Bool} (hturn : p.TakesTurn exclude avoidBusy) (rng : Rng) :
    (groupOf s.states p).select exclude avoidBusy rng =
        (some (p.cursor.toNat % p.members.length),
          { groupOf s.states p with cursor := p.cursor + 1 }, rng) ∧
      ∃ place, p.members[p.cursor.toNat % p.members.length]? = some place := by
  have hlength : (groupOf s.states p).members.length = p.members.length :=
    length_statesAt fun place hplace => h.state hp hplace
  have hpos : 0 < p.members.length := List.length_pos_iff.2 (h.inhabited hp)
  have hselect := Group.select_of_takesTurn (g := groupOf s.states p) hturn
    (List.length_pos_iff.1 (hlength.symm ▸ hpos)) rng
  rw [hlength] at hselect
  exact ⟨hselect, _, List.getElem?_eq_getElem (Nat.mod_lt _ hpos)⟩

end Selector

namespace System

variable {s : System ω} {exclude : Option (List String)}

/-- The group that answers when groups are tried in turn. -/
def answering? (exclude : Option (List String)) : List Nat → System ω → Option (GroupOf Nat ω)
  | [], _ => none
  | index :: rest, s =>
    match s.selector.pools[index]? with
    | none => answering? exclude rest s
    | some p =>
      let (picked, _, rng) := (Selector.groupOf s.selector.states p).select exclude
        s.selector.settings.countsCalls s.host.rng
      if (picked.bind fun member => p.members[member]?).isSome then some p
      else answering? exclude rest { s with host := { s.host with rng } }

section

variable {index : Nat} {p : GroupOf Nat ω} {picked : Option Nat} {g : Group ω} {rng : Rng}

/-- A group answers that is asked first and has an answer. -/
theorem tryGroups_of_answer (rest : List Nat) (hp : s.selector.pools[index]? = some p)
    (hselect : (Selector.groupOf s.selector.states p).select exclude
      s.selector.settings.countsCalls s.host.rng = (picked, g, rng)) {place : Nat}
    (hpicked : (picked.bind fun member => p.members[member]?) = some place) :
    tryGroups exclude (index :: rest) s =
        (some place, ⟨s.selector.turnTo index g.cursor, { s.host with rng }⟩) ∧
      answering? exclude (index :: rest) s = some p := by
  rw [tryGroups, answering?, hp]
  simp only [hselect, hpicked, Option.isSome_some, if_true, and_self]

/-- If it has none, the others are asked. -/
theorem tryGroups_of_no_answer (rest : List Nat) (hp : s.selector.pools[index]? = some p)
    (hselect : (Selector.groupOf s.selector.states p).select exclude
      s.selector.settings.countsCalls s.host.rng = (picked, g, rng))
    (hpicked : (picked.bind fun member => p.members[member]?) = none) :
    tryGroups exclude (index :: rest) s =
        tryGroups exclude rest ⟨s.selector.turnTo index g.cursor, { s.host with rng }⟩ ∧
      answering? exclude (index :: rest) s =
        answering? exclude rest ⟨s.selector, { s.host with rng }⟩ := by
  rw [tryGroups, answering?, hp]
  simp only [hselect, hpicked, Option.isSome_none, Bool.false_eq_true, if_false, and_self]

end

/-- Trying groups comes to nothing and changes no group, or one group answers. It answers as it was
in the beginning, by the member whose turn it is if it takes its turn, and nothing but the count of
its turns has moved then. -/
theorem tryGroups_cases (h : s.selector.Layout) (exclude : Option (List String))
    (order : List Nat) :
    (answering? exclude order s = none ∧ (tryGroups exclude order s).1 = none ∧
      (tryGroups exclude order s).2.selector = s.selector) ∨
    ∃ index p place, answering? exclude order s = some p ∧ s.selector.pools[index]? = some p ∧
      (tryGroups exclude order s).1 = some place ∧ place ∈ p.members ∧
      if p.TakesTurn exclude s.selector.settings.countsCalls then
        p.members[p.cursor.toNat % p.members.length]? = some place ∧
          (tryGroups exclude order s).2.selector = s.selector.turnTo index (p.cursor + 1)
      else (tryGroups exclude order s).2.selector = s.selector := by
  induction order generalizing s with
  | nil => exact .inl ⟨rfl, rfl, rfl⟩
  | cons index rest ih =>
      cases hp : s.selector.pools[index]? with
      | none =>
          unfold answering? tryGroups
          rw [hp]
          exact ih h
      | some p =>
          have hmem := List.mem_of_getElem? hp
          by_cases hturn : p.TakesTurn exclude s.selector.settings.countsCalls
          · obtain ⟨hselect, place, hplace⟩ := h.select_of_takesTurn hmem hturn s.host.rng
            obtain ⟨htry, hanswering⟩ :=
              tryGroups_of_answer rest hp hselect ((Option.bind_some ..).trans hplace)
            rw [htry, hanswering]
            refine .inr ⟨index, p, place, rfl, hp, rfl, List.mem_of_getElem? hplace, ?_⟩
            rw [if_pos hturn]
            exact ⟨hplace, rfl⟩
          · have hcursor := Group.cursor_select_of_not (g := Selector.groupOf s.selector.states p)
              hturn s.host.rng
            rcases hselect : (Selector.groupOf s.selector.states p).select exclude
              s.selector.settings.countsCalls s.host.rng with ⟨picked, g, rng⟩
            have hself : s.selector.turnTo index g.cursor = s.selector := by
              rw [hselect] at hcursor
              rw [show g.cursor = p.cursor from hcursor]
              exact Selector.turnTo_self hp
            cases hpicked : picked.bind fun member => p.members[member]? with
            | none =>
                obtain ⟨htry, hanswering⟩ := tryGroups_of_no_answer rest hp hselect hpicked
                rw [htry, hanswering, hself]
                exact ih (s := ⟨s.selector, { s.host with rng }⟩) h
            | some place =>
                obtain ⟨htry, hanswering⟩ := tryGroups_of_answer rest hp hselect hpicked
                obtain ⟨member, -, hplace⟩ := Option.bind_eq_some_iff.1 hpicked
                rw [htry, hanswering, hself]
                refine .inr ⟨index, p, place, rfl, hp, rfl, List.mem_of_getElem? hplace, ?_⟩
                rw [if_neg hturn]

/-- The group that answers a selection. -/
def decider? (exclude : Option (List String)) (s : System ω) : Option (GroupOf Nat ω) :=
  let count := s.selector.groupCount
  let (start, rng) := s.firstGroup
  answering? exclude ((List.range count).map fun offset => (start + offset) % count)
    { s with host := { s.host with rng } }

/-- So it is for a selection. -/
theorem decider?_cases (h : s.selector.Layout) (exclude : Option (List String)) :
    (s.decider? exclude = none ∧ (s.selectWith exclude).1 = none ∧
      (s.selectWith exclude).2.selector.pools = s.selector.pools) ∨
    ∃ index p place, s.decider? exclude = some p ∧ s.selector.pools[index]? = some p ∧
      (s.selectWith exclude).1 = (s.selector.states[place]?).map (·.name) ∧ place ∈ p.members ∧
      if p.TakesTurn exclude s.selector.settings.countsCalls then
        p.members[p.cursor.toNat % p.members.length]? = some place ∧
          (s.selectWith exclude).2.selector.pools =
            (s.selector.turnTo index (p.cursor + 1)).pools
      else (s.selectWith exclude).2.selector.pools = s.selector.pools := by
  unfold decider? selectWith
  simp only
  generalize horder : (List.range s.selector.groupCount).map _ = order
  rcases tryGroups_cases (s := ⟨s.selector, { s.host with rng := s.firstGroup.2 }⟩) h exclude order
    with ⟨hanswering, htry, hselector⟩ | ⟨index, p, place, hanswering, hp, htry, hplace, hturn⟩
  · refine .inl ⟨hanswering, ?_⟩
    split
    · next heq => rw [heq] at htry; exact nomatch htry
    · next s' heq =>
        rw [heq] at hselector
        exact ⟨rfl, congrArg (·.pools) hselector⟩
  · refine .inr ⟨index, p, place, hanswering, hp, ?_⟩
    have hstates := (turned_tryGroups exclude order
      ⟨s.selector, { s.host with rng := s.firstGroup.2 }⟩).states
    split
    · next place' s' heq =>
        rw [heq] at htry hturn hstates
        obtain rfl := Option.some.inj htry
        have hpools (c : Counters → Counters) : (System.count (if s'.selector.settings.tracksCalls
            then s'.modifyAt place' fun r => r.acquire.2 else s') c).selector.pools =
            s'.selector.pools := by
          split
          · rfl
          · rfl
        refine ⟨by rw [hstates], hplace, ?_⟩
        rw [hpools]
        by_cases htakes : p.TakesTurn exclude s.selector.settings.countsCalls
        · rw [if_pos htakes] at hturn ⊢
          exact ⟨hturn.1, congrArg (·.pools) hturn.2⟩
        · rw [if_neg htakes] at hturn ⊢
          exact congrArg (·.pools) hturn
    · next heq => rw [heq] at htry; exact nomatch htry

/-! ## Other events -/

variable [LawfulScalar ω]

omit [Scalar ω] [LawfulScalar ω] in
theorem pools_onState (f : Resource ω → Bool × Resource ω) (name : String) (s : System ω) :
    (s.onState name f).2.selector.pools = s.selector.pools := by
  unfold onState
  split
  · rfl
  · rfl

omit [Scalar ω] [LawfulScalar ω] in
theorem pools_close (s : System ω) : s.close.selector.pools = s.selector.pools := by
  unfold close cancelChecker
  split
  · rfl
  · split
    · rfl
    · rfl

/-- A dealing moves no count of turns, once the name has been enrolled. -/
theorem cursors_deal (h : s.selector.Layout) (d : Dealing ω) (name : String) :
    (s.deal d name).2.selector.pools.map (·.cursor) =
      (d.enrols name s.selector).pools.map (·.cursor) := by
  have hlayout := h.enrols d name
  cases hfind : (d.enrols name s.selector).find? name with
  | some r =>
      rw [← deal_enrolled]
      exact (deal_made (s := s.enrolled d name) hlayout hfind d).cursors
  | none =>
      obtain ⟨henrols, f, hdeal⟩ := deal_of_unknown h d hfind
      rw [henrols, hdeal]
      rfl

theorem cursors_checkEach (h : s.selector.Layout) (probe : Probe ω) (order : List String) :
    (s.checkEach probe order).2.selector.pools.map (·.cursor) =
      s.selector.pools.map (·.cursor) := by
  induction order generalizing s with
  | nil => rfl
  | cons name rest ih =>
      have hdeal := cursors_deal h (.probe probe) name
      have hlayout := h.frame (changes_deal (.probe probe) name s).frame
      exact (ih hlayout).trans hdeal

theorem cursors_checkIn (h : s.selector.Layout) (order : List String) :
    (s.checkIn order).2.selector.pools.map (·.cursor) = s.selector.pools.map (·.cursor) := by
  unfold checkIn
  split
  · rfl
  · next probe _ => exact cursors_checkEach h probe order

theorem cursors_tick (h : s.selector.Layout) :
    s.tick.2.selector.pools.map (·.cursor) = s.selector.pools.map (·.cursor) := by
  have hrun (id : Nat) (x : ManualExecutor Nat) (t : System ω) (ht : t.selector.Layout ∧
      t.selector.pools.map (·.cursor) = s.selector.pools.map (·.cursor)) :
      (runCheck id (x, t)).2.2.selector.Layout ∧
        (runCheck id (x, t)).2.2.selector.pools.map (·.cursor) =
          s.selector.pools.map (·.cursor) := by
    refine ⟨ht.1.frame (t.changes_runCheck id x).frame, ?_⟩
    unfold runCheck
    simp only
    split
    · exact (cursors_checkIn (s := ⟨t.selector, { t.host with executor := x }⟩) ht.1 _).trans ht.2
    · exact ht.2
  exact (ManualExecutor.tick_induct hrun s.host.executor s ⟨h, rfl⟩).2

/-- An event that is no selection moves no count of turns, once a reported name has been
enrolled. -/
theorem cursors_step (h : s.selector.Layout) {e : Event ω}
    (hselect : ∀ exclude, e ≠ .call (.select exclude)) :
    (s.step e).selector.pools.map (·.cursor) = (e.enrols s.selector).pools.map (·.cursor) := by
  cases e with
  | call c =>
      cases c with
      | select exclude => exact absurd rfl (hselect exclude)
      | report result name => exact cursors_deal h (.report result) name
      | down name => exact cursors_deal h .down name
      | check order => exact cursors_checkIn h order
      | acquire name => exact congrArg _ (pools_onState Resource.acquire name s)
      | release name => exact congrArg _ (pools_onState Resource.release name s)
      | close => exact congrArg _ (pools_close s)
  | tick => exact cursors_tick h
  | others host => rfl

end System

end ResourceSelection
