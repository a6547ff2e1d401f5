import ResourceSelection.Proofs.Exact
import ResourceSelection.Proofs.Freshness
import ResourceSelection.Proofs.Managers
import ResourceSelection.Selector.Selection

/-!
# The two ways to a weighted pick agree

A group picks from its snapshot when nothing is excluded and nobody is avoided, and from its members
otherwise. The second way reads every weight anew and sums them anew, and it pays for this on every
pick. It must not make a difference: where the exclusions concern nobody in the group and nobody is
busy, the same draw picks the same member.

That the weights of a snapshot are those of the members is `Selector.Settled`, and the total is the
same sum taken in the same order. What remains is the weight of a member without a call in flight,
which is its current weight over one.
-/

namespace ResourceSelection

variable {ω : Type} [Scalar ω]

/-- A resource without a call in flight counts with its whole weight. -/
theorem Resource.selectionWeight_of_idle {r : Resource Float} (h : r.inFlight.getD 0 = 0) :
    r.selectionWeight = r.current := by
  unfold selectionWeight
  split
  · next n hn =>
      have hone : (1 : Float) + instScalarFloat.toNatCast.natCast 0 = 1 := by rfl
      rw [hn, Option.getD_some] at h
      subst h
      exact (congrArg (r.current / ·) hone).trans (Binary64.div_one r.current)
  · rfl

namespace Group

/-- A pick from the members is a pick from their current weights, if none of them is excluded and
none is to be avoided. -/
theorem liveWeights_eq {g : Group ω} {exclude : List String} {avoidBusy : Bool}
    (hnames : ∀ m ∈ g.members, m.name ∉ exclude)
    (hidle : avoidBusy = true → ∀ m ∈ g.members, m.selectionWeight = m.current) :
    g.liveWeights exclude avoidBusy = g.members.map (·.current) := by
  unfold liveWeights
  refine List.map_congr_left fun m hm => ?_
  rw [if_neg (by simpa using hnames m hm)]
  split
  · next havoid => exact hidle havoid m hm
  · rfl

/-- A group that neither takes turns nor has a table picks from the current weights of its
members. -/
theorem pickCached_eq {g : Group ω} (h : g.Settled) (hturns : g.snapshot.roundRobin = false)
    (htable : g.snapshot.aliasEligible = false) (rng : Rng) :
    g.pickCached rng = (pickWeighted (g.members.map (·.current))
      (Scalar.sum (g.members.map (·.current))) (rng.unit ω).1, g, (rng.unit ω).2) := by
  have hfresh : g.snapshot = measure g.members _ _ _ := h.fresh
  have hnone : g.snapshot.table = none := by
    rw [hfresh] at htable ⊢
    exact if_neg (by simpa [measure] using htable)
  have hweights : g.snapshot.weights = g.members.map (·.current) := by
    rw [hfresh]
    rfl
  have htotal : g.snapshot.totalCurrent = Scalar.sum (g.members.map (·.current)) := by
    rw [hfresh]
    rfl
  unfold pickCached
  rw [hturns, hnone, hweights, htotal]
  rfl

/-- Both ways of picking take one draw and scan the same weights with it. -/
theorem select_eq {g : Group ω} (h : g.Settled) (hturns : g.snapshot.roundRobin = false)
    (htable : g.snapshot.aliasEligible = false) {exclude : Option (List String)} {avoidBusy : Bool}
    (hnames : ∀ m ∈ g.members, m.name ∉ exclude.getD [])
    (hidle : avoidBusy = true → ∀ m ∈ g.members, m.selectionWeight = m.current) (rng : Rng) :
    g.select exclude avoidBusy rng = (pickWeighted (g.members.map (·.current))
      (Scalar.sum (g.members.map (·.current))) (rng.unit ω).1, g, (rng.unit ω).2) := by
  unfold select
  simp only
  split
  · exact pickCached_eq h hturns htable rng
  · unfold pickLive
    rw [liveWeights_eq hnames hidle]

/-- An empty exclusion is none. -/
theorem select_nil (g : Group ω) (avoidBusy : Bool) (rng : Rng) :
    g.select (some []) avoidBusy rng = g.select none avoidBusy rng := rfl

end Group

namespace System

theorem tryGroups_nil (order : List Nat) (s : System ω) :
    tryGroups (some []) order s = tryGroups none order s := by
  induction order generalizing s with
  | nil => rfl
  | cons index rest ih =>
      unfold tryGroups
      split
      · exact ih s
      · simp only [Group.select_nil]
        split
        · rfl
        · exact ih _

/-- Excluding nobody is selecting. -/
theorem selectExcluding_nil (s : System ω) : s.selectExcluding [] = s.selectOne := by
  unfold selectExcluding selectOne selectWith
  simp only [tryGroups_nil]

end System

/-- In every selector, a group that neither takes turns nor has a table picks the same member with
the same draws from its snapshot and from its members, as long as nobody in it is excluded, and
nobody is busy where the busy are avoided. In any selector at all, an empty exclusion does what no
exclusion does. -/
theorem select_paths_agree {b : Builder Float} {s : System Float} (h : b.Reaches s) :
    (∀ g ∈ s.selector.groups, g.snapshot.roundRobin = false → g.snapshot.aliasEligible = false →
      ∀ exclude avoidBusy, (∀ m ∈ g.members, m.name ∉ exclude.getD []) →
        (avoidBusy = true → ∀ m ∈ g.members, m.inFlight.getD 0 = 0) →
        ∀ rng, g.select exclude avoidBusy rng = g.select none false rng) ∧
    (∀ (g : Group Float) avoidBusy rng,
      g.select (some []) avoidBusy rng = g.select none avoidBusy rng) ∧
    ∀ t : System Float, t.selectExcluding [] = t.selectOne := by
  refine ⟨fun g hg hturns htable exclude avoidBusy hnames hidle rng => ?_, Group.select_nil,
    System.selectExcluding_nil⟩
  obtain ⟨p, hp, rfl⟩ := List.mem_map.1 hg
  have hset := h.settled p hp
  have hlive := Group.select_eq hset hturns htable hnames
    (fun havoid m hm => Resource.selectionWeight_of_idle (hidle havoid m hm)) rng
  have hcached : Group.select _ none false rng = _ := Group.select_eq hset hturns htable
    (fun _ _ => List.not_mem_nil) (fun havoid => absurd havoid Bool.false_ne_true) rng
  exact hlive.trans hcached.symm

/-- A selector with one group of two resources of different sizes. -/
def Builder.uneven : Builder Float :=
  { Builder.pair with resources := [("a", .ofWeight 100), ("b", .ofWeight 50)] }

/-- Where calls are counted, excluding a name that the group does not have changes nothing. -/
theorem select_paths_agree_uneven : ∃ s g, Builder.uneven.Reaches s ∧ g ∈ s.selector.groups ∧
    g.members.map (·.name) = ["a", "b"] ∧
    g.snapshot.roundRobin = false ∧ g.snapshot.aliasEligible = false ∧
    ∀ rng, g.select (some ["c"]) true rng = g.select none false rng := by
  obtain ⟨s, hbuild⟩ := Builder.exists_build (b := Builder.uneven) rfl (.of_none rfl) 0 { rng := ⟨0⟩ }
  have hpriorities : Builder.priorities (Builder.uneven.toSelector 0).states = [0] := by
    decide +kernel
  have hgroups : s.selector.groups = [Group.make 0 (Builder.uneven.toSelector 0).states 10] := by
    cases hbuild
    show ((Builder.priorities (Builder.uneven.toSelector 0).states).map _).map _ = _
    rw [hpriorities]
    rfl
  refine ⟨s, _, .built hbuild, hgroups ▸ List.mem_cons_self, rfl, rfl, rfl, ?_⟩
  refine (select_paths_agree (.built hbuild)).1 _ (hgroups ▸ List.mem_cons_self) rfl rfl _ _ ?_ ?_
  · decide +kernel
  · decide +kernel

end ResourceSelection
