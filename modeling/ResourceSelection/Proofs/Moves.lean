import ResourceSelection.Membership.Run
import ResourceSelection.Proofs.Frame
import ResourceSelection.Proofs.Roster

/-!
# What a manager does, move by move

Whatever happens to a manager, apart from a change of its membership, comes down to three moves:
others use what the selectors share, one of the selectors is put to use and recorded in its own
place, or the manager remembers that it is closed. What each move preserves, every event preserves
that is no change (`Manager.moves_step`). A change that succeeds is the installation of a selector
that has been built (`Manager.apply_eq_ok`), and a manager starts with one (`Manager.Created`).
-/

namespace ResourceSelection

variable {ω : Type}

namespace Manager

/-! ## Looking a selector up -/

/-- The selector of a number is the current one if it can be. -/
theorem snapshot?_eq_some {m : Manager ω} {id : Nat} {s : System ω} (h : m.snapshot? id = some s) :
    s.selector.id = id ∧
      (s = m.system ∨ m.current.id ≠ id ∧ ∃ t ∈ m.past, s = ⟨t, m.host⟩) := by
  obtain ⟨t, ht, rfl⟩ := Option.map_eq_some_iff.1 h
  refine ⟨by simpa using List.find?_some ht, ?_⟩
  rw [List.find?_cons] at ht
  split at ht
  · obtain rfl := Option.some.inj ht
    exact .inl rfl
  · next hne => exact .inr ⟨by simpa using hne, t, List.mem_of_find?_eq_some ht, rfl⟩

theorem snapshot?_current (m : Manager ω) : m.snapshot? m.current.id = some m.system := by
  unfold snapshot?
  rw [List.find?_cons_of_pos (by simp)]
  rfl

theorem snapshot?_host (m : Manager ω) (host : Host ω) (id : Nat) :
    snapshot? { m with host } id = (m.snapshot? id).map fun s => { s with host } := by
  unfold snapshot?
  rw [Option.map_map]
  rfl

/-! ## Moves -/

variable [Scalar ω]

inductive Move : Manager ω → Manager ω → Prop
  /-- Others leave the host in another state. -/
  | host (m : Manager ω) (host : Host ω) : Move m { m with host }
  | shut (m : Manager ω) : Move m { m with closed := true }
  /-- One of the selectors is put to use. -/
  | use {m : Manager ω} {id : Nat} {s : System ω} (found : m.snapshot? id = some s) (e : Event ω) :
      Move m (m.record (s.step e))

def Moves : Manager ω → Manager ω → Prop := Relation.ReflTransGen Move

theorem Moves.refl (m : Manager ω) : m.Moves m := Relation.ReflTransGen.refl

theorem Moves.tail {m m' m'' : Manager ω} (h : m.Moves m') (h' : m'.Move m'') : m.Moves m'' :=
  Relation.ReflTransGen.tail h h'

theorem Move.moves {m m' : Manager ω} (h : m.Move m') : m.Moves m' := (Moves.refl m).tail h

/-- The current selector is the one that has been put to use, or is as before. -/
theorem current_record [LawfulScalar ω] {m : Manager ω} {id : Nat} {s : System ω}
    (hs : m.snapshot? id = some s) (e : Event ω) :
    s = m.system ∧ (m.record (s.step e)).current = (s.step e).selector ∨
      (m.record (s.step e)).current = m.current := by
  show _ ∨ ite _ _ _ = _
  split
  · next heq =>
      obtain ⟨hid, hsystem | ⟨hne, -⟩⟩ := snapshot?_eq_some hs
      · exact .inl ⟨hsystem, if_pos heq⟩
      -- an earlier selector is only looked for when the current one has another number
      · exact absurd (heq.trans ((s.id_step e).trans hid)) hne
  · exact .inr rfl

/-- What every move preserves, any number of them does. -/
theorem Moves.induct {P : Manager ω → Prop} (hP : ∀ {m m'}, Move m m' → P m → P m')
    {m m' : Manager ω} (h : m.Moves m') (hm : P m) : P m' := by
  induction h with
  | refl => exact hm
  | tail _ hmove ih => exact hP hmove ih

/-- A scheduled check puts its selector to use, on the executor as it is at that time. -/
theorem Moves.runCheck {m m' : Manager ω} (h : m.Moves m') (id : Nat) (x : ManualExecutor Nat) :
    m.Moves (Manager.runCheck id (x, m')).2.2 := by
  unfold Manager.runCheck
  simp only
  split
  · exact h
  · next s hs =>
      obtain ⟨t, -, rfl⟩ := Option.map_eq_some_iff.1 hs
      have hfound := m'.snapshot?_host { m'.host with executor := x } id
      rw [hs, Option.map_some] at hfound
      refine (h.tail (.host m' { m'.host with executor := x })).tail ?_
      exact .use hfound (.call (.check t.allResources))

theorem moves_tick (m : Manager ω) : m.Moves m.tick.2 :=
  (ManualExecutor.tick_induct (P := m.Moves) (fun id x _ h => h.runCheck id x) m.host.executor m
    (.refl m)).tail (.host _ _)

end Manager

/-- Whether the event changes the membership, or tries to. -/
def ManagerEvent.isChange : ManagerEvent ω → Bool
  | .update _ _ _ => true
  | .updateAll _ _ => true
  | _ => false

/-- Every other event is some moves. -/
theorem Manager.moves_step [Scalar ω] (m : Manager ω) {e : ManagerEvent ω}
    (h : e.isChange = false) : m.Moves (m.step e) := by
  cases e with
  | call c => exact (Move.use m.snapshot?_current (.call c)).moves
  | callOn id c =>
      unfold step onSnapshot
      simp only
      split
      · exact .refl m
      · next s hs => exact (Move.use hs (.call c)).moves
  | update add remove rank => exact nomatch h
  | updateAll resources rank => exact nomatch h
  | tick => exact m.moves_tick
  | close => exact (Move.shut m).moves.tail (.use (snapshot?_current _) (.call .close))
  | others host => exact (Move.host m host).moves

namespace Manager

variable [Scalar ω]

/-! ## Changes -/

theorem apply_eq_ok {m next : Manager ω} {add : Roster ω} {remove : List String}
    {rank : String → Nat} (h : m.apply add remove rank = .ok next) : ∃ s,
      (m.membership.change remove add.entries rank).build m.template (some m.current)
        (m.current.id + 1) m.host = .ok s ∧
      next = m.install (m.membership.change remove add.entries rank) s := by
  unfold apply at h
  simp only at h
  split at h
  · exact nomatch h
  · next s hbuild =>
      cases h
      exact ⟨s, hbuild, rfl⟩

/-- What holds of the manager whatever was asked, and after every installation, holds after a change,
made or not. -/
theorem attempt_apply_induct {P : Manager ω → Prop} {m : Manager ω}
    (hasked : ∀ asked, P { m with host := { m.host with asked } })
    (hinstall : ∀ {next : Membership ω} {s : System ω},
      next.build m.template (some m.current) (m.current.id + 1) m.host = .ok s →
        P (m.install next s)) (add : Roster ω) (remove : List String) (rank : String → Nat) :
    P (m.attempt (m.apply add remove rank)) := by
  cases happly : m.apply add remove rank with
  | error failure =>
      obtain ⟨asked, heq⟩ := failure.leave_eq m.host
      rw [attempt, heq]
      exact hasked asked
  | ok next =>
      obtain ⟨s, hbuild, rfl⟩ := apply_eq_ok happly
      exact hinstall hbuild

/-! ## The first selector -/

/-- What there is when a manager has been created. -/
structure Created (m : Manager ω) (template : Builder ω) (resources : List (String × Declaration ω))
    (grouping : Option (Grouping String)) (host : Host ω) (rank : String → Nat) : Prop where
  settings : m.template.settings = template.settings
  roster : m.membership.roster =
    ((Roster.ofList template.resources).putAll resources).arrange rank
  grouping : m.membership.grouping = grouping.map (·.assignInitial m.membership.roster.names)
  built : m.membership.build m.template none 0 host = .ok m.system
  past : m.past = []
  opened : m.closed = false

theorem created_of_create {template : Builder ω} {resources : List (String × Declaration ω)}
    {grouping : Option (Grouping String)} {host : Host ω} {rank : String → Nat} {m : Manager ω}
    (h : create template resources grouping host rank = .ok m) :
    m.Created template resources grouping host rank := by
  unfold create at h
  split at h
  · exact nomatch h
  · simp only at h
    split at h
    · exact nomatch h
    · next s hbuild =>
        cases h
        exact ⟨rfl, rfl, rfl, hbuild, rfl, rfl⟩

namespace Created

variable {m : Manager ω} {template : Builder ω} {resources : List (String × Declaration ω)}
  {grouping : Option (Grouping String)} {host : Host ω} {rank : String → Nat}

theorem get?_roster (h : m.Created template resources grouping host rank) :
    m.membership.roster.get? = Declarations.nothing.override (template.resources ++ resources) := by
  rw [h.roster, Roster.get?_arrange, Roster.get?_ofList_putAll]

theorem nodup_names (h : m.Created template resources grouping host rank) :
    m.membership.roster.names.Nodup := by
  rw [h.roster]
  exact Roster.nodup_arrange (Roster.nodup_putAll (Roster.nodup_ofList _) _) rank

end Created

end Manager

end ResourceSelection
