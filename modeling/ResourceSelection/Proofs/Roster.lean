import Mathlib.Data.List.Nodup
import ResourceSelection.Membership.Manager
import ResourceSelection.Proofs.Grouping.Filling
import ResourceSelection.Proofs.Ranking

/-!
# A roster is a finite map

A roster is a list, and nothing about a manager should depend on how it is ordered. What it means is
a partial function from names to declarations, and this file says what each operation does to that
function: a declaration overrides, a name that is dropped is undefined afterwards, and listing the
names by rank does nothing to it. By rank they can be listed in any order (`Roster.exists_arrange`).

The grouping has to follow every one of these steps. `Membership.Aligned` is what a membership keeps
meanwhile: no name is in the roster twice, and the grouping, if there is one, is in order and has
assigned the names of the roster and no others.
-/

namespace ResourceSelection

variable {ω : Type}

/-- What is declared of each name. -/
def Declarations (ω : Type) := String → Option (Declaration ω)

namespace Declarations

def nothing : Declarations ω := fun _ => none

/-- One more declaration, in place of any earlier one of that name. -/
def declare (f : Declarations ω) (name : String) (d : Declaration ω) : Declarations ω :=
  fun other => if other = name then some d else f other

/-- A list of declarations, made one after the other. -/
def override (f : Declarations ω) (entries : List (String × Declaration ω)) : Declarations ω :=
  entries.foldl (fun f entry => f.declare entry.1 entry.2) f

def without (f : Declarations ω) (names : List String) : Declarations ω :=
  fun name => if name ∈ names then none else f name

theorem override_apply (f : Declarations ω) (entries : List (String × Declaration ω))
    (name : String) : f.override entries name = (nothing.override entries name).or (f name) := by
  induction entries generalizing f with
  | nil => rfl
  | cons entry rest ih =>
      refine (ih (f.declare entry.1 entry.2)).trans ?_
      rw [show nothing.override (entry :: rest) name = _ from ih (declare nothing entry.1 entry.2),
        Option.or_assoc]
      congr 1
      unfold declare
      split <;> rfl

end Declarations

namespace Roster

variable {r : Roster ω}

/-! ## Looking up -/

theorem isSome_get? {name : String} : (r.get? name).isSome = true ↔ name ∈ r.names := by
  simp [get?, names]

theorem get?_eq_none_iff {name : String} : r.get? name = none ↔ name ∉ r.names := by
  rw [← isSome_get?, Bool.not_eq_true, Option.isSome_eq_false_iff, Option.isNone_iff_eq_none]

theorem get?_eq_some_iff (h : r.names.Nodup) {name : String} {d : Declaration ω} :
    r.get? name = some d ↔ (name, d) ∈ r.entries := by
  unfold get?
  rw [Option.map_eq_some_iff]
  constructor
  · rintro ⟨entry, hentry, rfl⟩
    obtain rfl : entry.1 = name := by simpa using List.find?_some hentry
    exact List.mem_of_find?_eq_some hentry
  · intro hmem
    obtain ⟨entry, hentry⟩ : ∃ entry, r.entries.find? (fun entry => entry.1 = name) = some entry := by
      rw [← Option.isSome_iff_exists, List.find?_isSome]
      exact ⟨_, hmem, decide_eq_true rfl⟩
    have hname : entry.1 = name := by simpa using List.find?_some hentry
    have heq := List.inj_on_of_nodup_map h (List.mem_of_find?_eq_some hentry) hmem hname
    exact ⟨entry, hentry, by rw [heq]⟩

/-! ## Changing -/

theorem get?_put (r : Roster ω) (name : String) (d : Declaration ω) :
    (r.put name d).get? = Declarations.declare r.get? name d := by
  funext other
  unfold put Declarations.declare
  by_cases hmem : name ∈ r.names
  · rw [if_pos (by simpa using hmem)]
    unfold get?
    simp only [List.find?_map]
    have hsame : (fun entry : String × Declaration ω => decide (entry.1 = other)) ∘
        (fun entry => if entry.1 = name then (name, d) else entry) =
        fun entry => decide (entry.1 = other) := by
      funext entry
      by_cases hentry : entry.1 = name
      · simp [hentry]
      · simp [hentry]
    rw [hsame]
    by_cases hother : other = name
    · -- the name is found where it was, with its new declaration
      subst hother
      obtain ⟨entry, hentry⟩ := Option.isSome_iff_exists.1 (isSome_get?.2 hmem)
      obtain ⟨found, hfound, -⟩ := Option.map_eq_some_iff.1 hentry
      have hname : found.1 = other := by simpa using List.find?_some hfound
      simp [hfound, hname]
    · rw [if_neg hother, Option.map_map]
      cases hfound : r.entries.find? fun entry => entry.1 = other with
      | none => rfl
      | some found =>
          have hname : found.1 = other := by simpa using List.find?_some hfound
          simp [hname, hother]
  · rw [if_neg (by simpa using hmem)]
    unfold get?
    rw [List.find?_append, Option.map_or]
    by_cases hother : other = name
    · subst hother
      rw [show (r.entries.find? fun entry => entry.1 = other).map (·.2) = none from
        get?_eq_none_iff.2 hmem]
      simp
    · simp [hother, Ne.symm hother]

theorem mem_names_put {name other : String} {d : Declaration ω} :
    other ∈ (r.put name d).names ↔ other ∈ r.names ∨ other = name := by
  rw [← isSome_get?, ← isSome_get?, get?_put]
  unfold Declarations.declare
  by_cases h : other = name
  · simp [h]
  · simp [h]

theorem nodup_put (h : r.names.Nodup) (name : String) (d : Declaration ω) :
    (r.put name d).names.Nodup := by
  unfold put
  by_cases hmem : name ∈ r.names
  · rw [if_pos (by simpa using hmem)]
    have hnames : (r.entries.map fun entry => if entry.1 = name then (name, d) else entry).map
        (·.1) = r.names := by
      rw [List.map_map]
      refine List.map_congr_left fun entry _ => ?_
      by_cases hentry : entry.1 = name
      · simp [hentry]
      · simp [hentry]
    show (List.map _ _).Nodup
    rw [hnames]
    exact h
  · rw [if_neg (by simpa using hmem)]
    unfold names
    rw [List.map_append, List.nodup_append]
    refine ⟨h, List.nodup_singleton _, fun other hother last hlast => ?_⟩
    obtain rfl : last = name := by simpa using hlast
    rintro rfl
    exact hmem hother

theorem get?_erase (r : Roster ω) (name : String) :
    (r.erase name).get? = Declarations.without r.get? [name] := by
  funext other
  unfold erase get? Declarations.without
  rw [find?_filter_ne]
  simp only [List.mem_singleton]
  split <;> rfl

theorem mem_names_erase {name other : String} :
    other ∈ (r.erase name).names ↔ other ∈ r.names ∧ other ≠ name := by
  rw [← isSome_get?, ← isSome_get?, get?_erase]
  unfold Declarations.without
  by_cases h : other = name
  · simp [h]
  · simp [h]

theorem nodup_erase (h : r.names.Nodup) (name : String) : (r.erase name).names.Nodup :=
  h.sublist (List.filter_sublist.map _)

theorem get?_putAll (r : Roster ω) (entries : List (String × Declaration ω)) :
    (r.putAll entries).get? = Declarations.override r.get? entries := by
  induction entries generalizing r with
  | nil => rfl
  | cons entry rest ih =>
      refine (ih (r.put entry.1 entry.2)).trans ?_
      rw [get?_put]
      rfl

theorem nodup_putAll (h : r.names.Nodup) (entries : List (String × Declaration ω)) :
    (r.putAll entries).names.Nodup := by
  induction entries generalizing r with
  | nil => exact h
  | cons entry rest ih => exact ih (nodup_put h entry.1 entry.2)

theorem get?_ofList (entries : List (String × Declaration ω)) :
    (ofList entries).get? = Declarations.nothing.override entries :=
  get?_putAll {} entries

theorem get?_ofList_putAll (first second : List (String × Declaration ω)) :
    ((ofList first).putAll second).get? = Declarations.nothing.override (first ++ second) := by
  rw [get?_putAll, get?_ofList, Declarations.override, Declarations.override, Declarations.override,
    List.foldl_append]

theorem nodup_ofList (entries : List (String × Declaration ω)) : (ofList entries).names.Nodup :=
  nodup_putAll (r := {}) List.nodup_nil entries

/-- Declaring the entries of a roster anew leads to that roster. -/
theorem override_entries (h : r.names.Nodup) : Declarations.nothing.override r.entries = r.get? := by
  obtain ⟨entries⟩ := r
  induction entries with
  | nil => rfl
  | cons entry rest ih =>
      obtain ⟨hnot, hrest⟩ := List.nodup_cons.1 h
      funext name
      refine (Declarations.override_apply (.declare .nothing entry.1 entry.2) rest name).trans ?_
      rw [show Declarations.nothing.override rest name = _ from congrFun (ih hrest) name]
      unfold Declarations.declare get?
      rw [List.find?_cons]
      by_cases hname : name = entry.1
      · subst hname
        rw [show (rest.find? fun e => e.1 = entry.1).map (·.2) = none from
          get?_eq_none_iff (r := ⟨rest⟩).2 hnot]
        simp
      · simp [hname, Ne.symm hname, Declarations.nothing]

/-! ## Listing by rank -/

theorem names_arrange_perm (rank : String → Nat) (r : Roster ω) :
    (r.arrange rank).names.Perm r.names :=
  (byRank_perm _ r.entries).map _

theorem nodup_arrange (h : r.names.Nodup) (rank : String → Nat) : (r.arrange rank).names.Nodup :=
  (r.names_arrange_perm rank).nodup_iff.2 h

theorem get?_arrange (rank : String → Nat) (r : Roster ω) : (r.arrange rank).get? = r.get? := by
  funext name
  refine congrArg (Option.map _) (find?_byRank ?_ r.entries)
  intro entry other hentry hother
  rw [of_decide_eq_true hentry, of_decide_eq_true hother]

/-- Ranks can have the members listed in any order. -/
theorem exists_arrange (h : r.names.Nodup) {entries : List (String × Declaration ω)}
    (hperm : entries.Perm r.entries) : ∃ rank, r.arrange rank = ⟨entries⟩ := by
  obtain ⟨rank, heq⟩ := exists_byRank h hperm
  exact ⟨rank, congrArg Roster.mk heq⟩

end Roster

/-! ## A membership and its grouping -/

namespace Membership

/-- The grouping has assigned the names of the roster. -/
structure Aligned (m : Membership ω) : Prop where
  nodup : m.roster.names.Nodup
  tidy {g : Grouping String} : m.grouping = some g → g.Tidy
  assigned {g : Grouping String} {name : String} :
    m.grouping = some g → ((g.priorityOf name).isSome = true ↔ name ∈ m.roster.names)

variable {m : Membership ω}

theorem Aligned.drop (h : m.Aligned) (name : String) :
    Aligned ⟨m.roster.erase name, m.grouping.map fun g => (g.remove name).2⟩ where
  nodup := Roster.nodup_erase h.nodup name
  tidy := by
    rintro g' hg'
    obtain ⟨g, hg, rfl⟩ := Option.map_eq_some_iff.1 hg'
    exact (h.tidy hg).remove name
  assigned := by
    rintro g' other hg'
    obtain ⟨g, hg, rfl⟩ := Option.map_eq_some_iff.1 hg'
    rw [(h.tidy hg).isSome_priorityOf_remove, h.assigned hg]
    exact Roster.mem_names_erase.symm

theorem Aligned.declare (h : m.Aligned) (name : String) (d : Declaration ω) :
    Aligned ⟨m.roster.put name d, m.grouping.map fun g => (g.add name).2⟩ where
  nodup := Roster.nodup_put h.nodup name d
  tidy := by
    rintro g' hg'
    obtain ⟨g, hg, rfl⟩ := Option.map_eq_some_iff.1 hg'
    exact (h.tidy hg).add name
  assigned := by
    rintro g' other hg'
    obtain ⟨g, hg, rfl⟩ := Option.map_eq_some_iff.1 hg'
    rw [Grouping.isSome_priorityOf_add, h.assigned hg]
    exact Roster.mem_names_put.symm

theorem Aligned.removeAll (h : m.Aligned) (names : List String) : (m.removeAll names).Aligned := by
  induction names generalizing m with
  | nil => exact h
  | cons name rest ih => exact ih (h.drop name)

theorem Aligned.addAll (h : m.Aligned) (entries : List (String × Declaration ω)) :
    (m.addAll entries).Aligned := by
  induction entries generalizing m with
  | nil => exact h
  | cons entry rest ih => exact ih (h.declare entry.1 entry.2)

theorem Aligned.change (h : m.Aligned) (remove : List String)
    (entries : List (String × Declaration ω)) (rank : String → Nat) :
    (m.change remove entries rank).Aligned := by
  have hchanged := (h.removeAll remove).addAll entries
  exact ⟨Roster.nodup_arrange hchanged.nodup rank, hchanged.tidy, fun hg =>
    (hchanged.assigned hg).trans (Roster.names_arrange_perm rank _).mem_iff.symm⟩

/-- A roster that a grouping without members is spread over. -/
theorem aligned_assignInitial {roster : Roster ω} (h : roster.names.Nodup)
    {cores : Option (List Nat)}
    (hnumbered : ∀ sizes, cores = some sizes → sizes.length ≤ Grouping.priorityLimit) (rng : Rng) :
    Aligned ⟨roster, cores.map fun sizes => (Grouping.empty sizes rng).assignInitial roster.names⟩
    where
  nodup := h
  tidy := by
    rintro g hg
    obtain ⟨sizes, hsizes, rfl⟩ := Option.map_eq_some_iff.1 hg
    exact (Grouping.tidy_empty (hnumbered sizes hsizes) rng).assignInitial h
  assigned := by
    rintro g name hg
    obtain ⟨sizes, -, rfl⟩ := Option.map_eq_some_iff.1 hg
    rw [Grouping.isSome_priorityOf_assignInitial]
    simp [Grouping.priorityOf, Grouping.empty]

theorem get?_removeAll (m : Membership ω) (names : List String) :
    (m.removeAll names).roster.get? = Declarations.without m.roster.get? names := by
  induction names generalizing m with
  | nil =>
      funext name
      simp [removeAll, Declarations.without]
  | cons name rest ih =>
      refine (ih _).trans ?_
      funext other
      rw [Roster.get?_erase]
      unfold Declarations.without
      by_cases hother : other = name
      · simp [hother]
      · simp [hother]

theorem roster_addAll (m : Membership ω) (entries : List (String × Declaration ω)) :
    (m.addAll entries).roster = m.roster.putAll entries := by
  induction entries generalizing m with
  | nil => rfl
  | cons entry rest ih => exact ih _

@[simp] theorem coreSizes_removeAll (m : Membership ω) (names : List String) :
    (m.removeAll names).grouping.map (·.coreSizes) = m.grouping.map (·.coreSizes) := by
  induction names generalizing m with
  | nil => rfl
  | cons name rest ih =>
      refine (ih _).trans ?_
      simp [Option.map_map, Function.comp_def]

@[simp] theorem coreSizes_addAll (m : Membership ω) (entries : List (String × Declaration ω)) :
    (m.addAll entries).grouping.map (·.coreSizes) = m.grouping.map (·.coreSizes) := by
  induction entries generalizing m with
  | nil => rfl
  | cons entry rest ih =>
      refine (ih _).trans ?_
      simp [Option.map_map, Function.comp_def]

theorem mem_dropped {m : Membership ω} {next : Roster ω} {rank : String → Nat} {name : String} :
    name ∈ m.dropped next rank ↔ name ∈ m.roster.names ∧ name ∉ next.names := by
  unfold dropped
  rw [List.mem_filter, (m.roster.names_arrange_perm rank).mem_iff]
  simp

theorem coreSizes_change (m : Membership ω) (remove : List String)
    (entries : List (String × Declaration ω)) (rank : String → Nat) :
    (m.change remove entries rank).grouping.map (·.coreSizes) = m.grouping.map (·.coreSizes) :=
  (coreSizes_addAll _ _).trans (coreSizes_removeAll _ _)

/-- What a change declares. -/
theorem get?_change (m : Membership ω) (remove : List String)
    (entries : List (String × Declaration ω)) (rank : String → Nat) :
    (m.change remove entries rank).roster.get? =
      (Declarations.without m.roster.get? remove).override entries := by
  unfold change arrange
  rw [Roster.get?_arrange, roster_addAll, Roster.get?_putAll, get?_removeAll]

/-- What an update declares. -/
theorem get?_update (m : Membership ω) (add : List (String × Declaration ω)) (remove : List String)
    (rank : String → Nat) : (m.change remove (Roster.ofList add).entries rank).roster.get? =
      (Declarations.without m.roster.get? remove).override add := by
  rw [get?_change]
  funext name
  rw [Declarations.override_apply, Declarations.override_apply _ add,
    Roster.override_entries (Roster.nodup_ofList add), Roster.get?_ofList]

end Membership

end ResourceSelection
