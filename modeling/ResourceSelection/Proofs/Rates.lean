import ResourceSelection.Proofs.Arithmetic
import ResourceSelection.Proofs.Selection

/-!
# Healthy rates and the first group

Groups in order of priority are only as good as their healthy rates. A rate is a quotient of two
sums of floats, and it is a number between zero and one because both sums are taken in the same
order: member by member the weight is at most the maximum, and sums and quotients keep that. A group
that has lost nothing has two equal sums and so the rate one; it is then the first one to be tried
if no group comes before it, and the factor is not below one.

All of this is lost where the weights of a group overflow. Both of its sums are infinite then, they
have no quotient, and a rate that is no number wins against nothing.
-/

namespace ResourceSelection

open Binary64

/-! ## The rate of one group -/

namespace Group

variable {g : Group Float}

/-- The members' weights are between zero and their maxima. -/
def Moderate (g : Group Float) : Prop :=
  ∀ m ∈ g.members, 0 ≤ m.current ∧ m.current ≤ m.maxWeight

theorem Settled.healthyRate_eq {ω : Type} [Scalar ω] {g : Group ω} (h : g.Settled) :
    g.snapshot.healthyRate =
      if 0 < Scalar.sum (g.members.map (·.maxWeight)) then
        Scalar.sum (g.members.map (·.current)) / Scalar.sum (g.members.map (·.maxWeight))
      else 0 := by
  rw [h.fresh]
  rfl

theorem Settled.healthyRate_mem_unit (h : g.Settled) (hmembers : g.Moderate)
    (hfinite : Scalar.isFinite (Scalar.sum (g.members.map (·.current))) = true) :
    0 ≤ g.snapshot.healthyRate ∧ g.snapshot.healthyRate ≤ 1 := by
  obtain ⟨hnonneg, hle⟩ := sum_le_sum hmembers
  rw [h.healthyRate_eq]
  split
  · next hpos => exact div_mem_unit hnonneg hle hpos hfinite
  · exact ⟨Scalar.le_refl rfl, zero_le_one⟩

theorem Settled.isNaN_healthyRate (h : g.Settled) (hmembers : g.Moderate)
    (hfinite : Scalar.isFinite (Scalar.sum (g.members.map (·.current))) = false) :
    Scalar.isNaN g.snapshot.healthyRate = true := by
  obtain ⟨hnonneg, hle⟩ := sum_le_sum hmembers
  have hpos := Scalar.lt_of_lt_of_le (pos_of_not_isFinite hnonneg hfinite) hle
  rw [h.healthyRate_eq.trans (if_pos hpos)]
  exact isNaN_div hnonneg hle hfinite

/-- A group without a member below its maximum has the rate one, if its capacity is a positive
number. -/
theorem Settled.healthyRate_eq_one (h : g.Settled) (hmembers : g.Moderate)
    (hfull : ∀ m ∈ g.members, m.maxWeight ≤ m.current) (hpos : ∃ m ∈ g.members, 0 < m.maxWeight)
    (hfinite : Scalar.isFinite (Scalar.sum (g.members.map (·.maxWeight))) = true) :
    g.snapshot.healthyRate = 1 := by
  obtain ⟨hnonneg, hle⟩ := sum_le_sum hmembers
  have hge := (sum_le_sum fun m hm =>
    ⟨Scalar.le_trans (hmembers m hm).1 (hmembers m hm).2, hfull m hm⟩).2
  obtain ⟨m, hm, hmax⟩ := hpos
  have htotal : 0 < Scalar.sum (g.members.map (·.maxWeight)) := by
    refine sum_pos (fun x hx => ?_) ⟨_, List.mem_map_of_mem hm, hmax⟩
    obtain ⟨q, hq, rfl⟩ := List.mem_map.1 hx
    exact Scalar.le_trans (hmembers q hq).1 (hmembers q hq).2
  rw [h.healthyRate_eq.trans (if_pos htotal)]
  exact div_eq_one hle hge (Scalar.lt_of_lt_of_le htotal hge) (isFinite_of_le hnonneg hle hfinite)

end Group

/-! ## The first group -/

/-- A score of one wins outright, and an infinite factor asks for less. -/
theorem pickPriority_one {γ : Type} (rates : List Float) {factor : Float} (hfactor : 1 ≤ factor)
    (draw : γ → Float × γ) (g : γ) : pickPriority (1 :: rates) factor draw g = (0, g) := by
  unfold pickPriority
  split
  · rfl
  · have hscore : (1 : Float) ≤ 1 * factor := (Binary64.one_mul factor).symm ▸ hfactor
    unfold walkPriorities
    exact if_pos hscore

namespace System

variable {s : System Float} {p : GroupOf Nat Float}

theorem firstGroup_of_full (hp : s.selector.pools[0]? = some p)
    (hrate : p.snapshot.healthyRate = 1) (hfactor : 1 ≤ s.selector.settings.priorityFactor) :
    s.firstGroup = (0, s.host.rng) := by
  obtain ⟨rest, hrest⟩ : ∃ rest, s.selector.pools = p :: rest := by
    cases hpools : s.selector.pools with
    | nil => simp [hpools] at hp
    | cons q rest =>
        rw [hpools] at hp
        exact ⟨rest, by rw [Option.some.inj hp]⟩
  unfold firstGroup
  simp only [hrest, List.map_cons, hrate]
  split
  · exact pickPriority_one _ hfactor _ _
  · rfl

/-- The group that is tried first answers, if one of its members can. -/
theorem selectOne_of_full (h : s.selector.Ready) (hp : s.selector.pools[0]? = some p)
    (hrate : p.snapshot.healthyRate = 1) (hfactor : 1 ≤ s.selector.settings.priorityFactor)
    {m : Resource Float} (hm : m ∈ (Selector.groupOf s.selector.states p).members)
    (hpos : 0 < m.weightSeen s.selector.settings.countsCalls) :
    ∃ m ∈ (Selector.groupOf s.selector.states p).members, s.selectOne.1 = some m.name := by
  have hmem := List.mem_of_getElem? hp
  obtain ⟨n, hn⟩ : ∃ n, s.selector.groupCount = n + 1 :=
    Nat.exists_eq_succ_of_ne_zero (List.length_pos_of_mem hmem).ne'
  cases hpick : ((Selector.groupOf s.selector.states p).select none
      s.selector.settings.countsCalls s.host.rng).1 with
  | none =>
      exact absurd ⟨List.not_mem_nil, hpos⟩ ((h.settled p hmem).not_eligible_of_select hpick hm)
  | some i =>
      obtain ⟨place, r, hplace, hr, -⟩ := eligible_of_select h hmem hpick
      refine ⟨r, List.mem_filterMap.2 ⟨place, List.mem_of_getElem? hplace, hr⟩, ?_⟩
      unfold selectOne selectWith
      simp only [firstGroup_of_full hp hrate hfactor, hn, List.range_succ_eq_map, List.map_cons]
      rw [Nat.zero_add, Nat.zero_mod]
      unfold tryGroups
      simp only [hp, hpick, Option.bind_some, hplace]
      exact congrArg (Option.map _) hr

end System

/-- No member is below its maximum, and one of the maxima is positive. -/
def Group.Full (g : Group Float) : Prop :=
  (∀ m ∈ g.members, m.maxWeight ≤ m.current) ∧ ∃ m ∈ g.members, 0 < m.maxWeight

theorem Builder.Reaches.moderate {b : Builder Float} {s : System Float} (h : b.Reaches s)
    {g : Group Float} (hg : g ∈ s.selector.groups) : g.Moderate := by
  obtain ⟨p, -, rfl⟩ := List.mem_map.1 hg
  intro m hm
  obtain ⟨place, -, hr⟩ := List.mem_filterMap.1 hm
  have hmem := List.mem_of_getElem? hr
  have hwithin := h.bounded.within hmem
  exact ⟨Scalar.le_trans (h.bounded.nonneg hmem) hwithin.1, hwithin.2⟩

theorem Selector.Layout.getElem?_zero {ω : Type} {s : Selector ω} (h : s.Layout)
    {p : GroupOf Nat ω} (hp : p ∈ s.pools) (hfirst : ∀ q ∈ s.pools, p.priority ≤ q.priority) :
    s.pools[0]? = some p := by
  have hascending := h.ascending
  cases hpools : s.pools with
  | nil => simp [hpools] at hp
  | cons q rest =>
      rw [hpools] at hp hfirst hascending
      rcases List.mem_cons.1 hp with rfl | hrest
      · rfl
      · have hlt := (List.pairwise_cons.1 hascending).1 p hrest
        have hle := hfirst q List.mem_cons_self
        omega

/-- As long as the weights of a group have a finite sum, its healthy rate is a number between zero
and one, and it is one where no member is below its maximum and some maximum is positive. If such a
group is the first one and the priority factor is one at least, every selection gives a member of
it, whatever the draws; where calls are counted, a member has to be left whose share of the weight
is not rounded to zero. A group whose weights have an infinite sum has no rate. -/
theorem priority_law {b : Builder Float} {s : System Float} (h : b.Reaches s) :
    (∀ g ∈ s.selector.groups,
      (Scalar.isFinite (Scalar.sum (g.members.map (·.current))) = true →
        0 ≤ g.snapshot.healthyRate ∧ g.snapshot.healthyRate ≤ 1) ∧
      (Scalar.isFinite (Scalar.sum (g.members.map (·.current))) = false →
        Scalar.isNaN g.snapshot.healthyRate = true) ∧
      (g.Full → Scalar.isFinite (Scalar.sum (g.members.map (·.maxWeight))) = true →
        g.snapshot.healthyRate = 1)) ∧
    ∀ g ∈ s.selector.groups, (∀ g' ∈ s.selector.groups, g.priority ≤ g'.priority) →
      g.Full → Scalar.isFinite (Scalar.sum (g.members.map (·.maxWeight))) = true →
      (s.selector.settings.countsCalls = true → ∃ m ∈ g.members, 0 < m.selectionWeight) →
      1 ≤ s.selector.settings.priorityFactor →
      ∀ host, ∃ m ∈ g.members, (System.mk s.selector host).selectOne.1 = some m.name := by
  refine ⟨fun g hg => ?_, fun g hg hfirst hfull hfinite hbusy hfactor host => ?_⟩
  · have hmoderate := h.moderate hg
    obtain ⟨p, hp, rfl⟩ := List.mem_map.1 hg
    have hset := h.settled p hp
    exact ⟨hset.healthyRate_mem_unit hmoderate, hset.isNaN_healthyRate hmoderate,
      fun hfull => hset.healthyRate_eq_one hmoderate hfull.1 hfull.2⟩
  · have hmoderate := h.moderate hg
    obtain ⟨p, hp, rfl⟩ := List.mem_map.1 hg
    have hrate := (h.settled p hp).healthyRate_eq_one hmoderate hfull.1 hfull.2 hfinite
    have hzero := h.layout.getElem?_zero hp fun q hq => hfirst _ (List.mem_map_of_mem hq)
    obtain ⟨m, hm, hpos⟩ : ∃ m ∈ (Selector.groupOf s.selector.states p).members,
        0 < m.weightSeen s.selector.settings.countsCalls := by
      unfold Resource.weightSeen
      rcases hcounts : s.selector.settings.countsCalls with _ | _
      · obtain ⟨m, hm, hmax⟩ := hfull.2
        exact ⟨m, hm, Scalar.lt_of_lt_of_le hmax (hfull.1 m hm)⟩
      · exact hbusy hcounts
    exact System.selectOne_of_full (s := ⟨s.selector, host⟩) ⟨h.layout, h.settled⟩ hzero hrate
      hfactor hm hpos

/-- The selector of a builder with its priorities sorted by hand. -/
theorem Builder.toSelector_eq {ω : Type} [Scalar ω] (b : Builder ω) (id : Nat)
    (priorities : List Nat)
    (h : ((b.toSelector id).states.map (·.priority)).eraseDups = priorities)
    (hsorted : priorities.Pairwise fun p q => decide (p ≤ q) = true) :
    b.toSelector id =
      { b.toSelector id with
        pools := priorities.map fun priority =>
          Selector.poolOf (b.toSelector id).states priority
            (placesOf (b.toSelector id).states priority) b.settings.aliasThreshold } := by
  have hpriorities : Builder.priorities (b.toSelector id).states = priorities := by
    rw [Builder.priorities, h]
    exact List.mergeSort_of_pairwise hsorted
  rw [← hpriorities]
  rfl

theorem Builder.begun_eq {ω : Type} [Scalar ω] (b : Builder ω) (id : Nat) (host : Host ω)
    (priorities : List Nat)
    (h : ((b.toSelector id).states.map (·.priority)).eraseDups = priorities)
    (hsorted : priorities.Pairwise fun p q => decide (p ≤ q) = true) :
    b.begun id host =
      (System.askAny (b.askingOrder id)
        ⟨{ b.toSelector id with
            pools := priorities.map fun priority =>
              Selector.poolOf (b.toSelector id).states priority
                (placesOf (b.toSelector id).states priority) b.settings.aliasThreshold },
          host⟩).2 := by
  rw [← b.toSelector_eq id priorities h hsorted]
  rfl

theorem Builder.groups_pair : (Builder.pair.toSelector 0).groups =
    [Group.make 0 [.ofDeclaration "a" (.ofWeight 100) true] 10,
      Group.make 1 [.ofDeclaration "b" ⟨50, 5, 1, none⟩ true] 10] := by
  rw [Builder.pair.toSelector_eq 0 [0, 1] rfl (by decide)]
  rfl

/-- Both groups are at their maxima, and the first one answers, even if it is busy. -/
theorem priority_law_pair : ∃ s g, Builder.pair.Reaches s ∧ g ∈ s.selector.groups ∧
    (∀ g' ∈ s.selector.groups, g.priority ≤ g'.priority) ∧ g.Full ∧
    g.members.map (·.name) = ["a"] ∧ g.snapshot.healthyRate = 1 ∧
    1 ≤ s.selector.settings.priorityFactor ∧ s.selector.settings.countsCalls = true ∧
    ∀ host, (System.mk s.selector host).selectOne.1 = some "a" := by
  obtain ⟨host, hbuild⟩ : ∃ host, Builder.pair.build 0 { rng := ⟨0⟩ } =
      .ok ⟨Builder.pair.toSelector 0, host⟩ := ⟨_, rfl⟩
  have h : Builder.pair.Reaches _ := .built hbuild
  have hmem : Group.make 0 [.ofDeclaration "a" (.ofWeight 100) true] 10 ∈
      (Builder.pair.toSelector 0).groups := Builder.groups_pair ▸ List.mem_cons_self
  have hfull :
      (Group.make 0 [.ofDeclaration "a" (Declaration.ofWeight (100 : Float)) true] 10).Full := by
    unfold Group.Full
    decide +kernel
  have hfactor : 1 ≤ (Builder.pair.toSelector 0).settings.priorityFactor := by decide +kernel
  obtain ⟨hrates, hselects⟩ := priority_law h
  refine ⟨_, _, h, hmem, fun _ _ => Nat.zero_le _, hfull, rfl,
    (hrates _ hmem).2.2 hfull (by decide +kernel), hfactor, rfl, fun host => ?_⟩
  obtain ⟨m, hm, hpicked⟩ := hselects _ hmem (fun _ _ => Nat.zero_le _) hfull (by decide +kernel)
    (fun _ => ⟨_, List.mem_cons_self, by decide +kernel⟩) hfactor host
  obtain rfl := List.mem_singleton.1 hm
  exact hpicked

/-- Two resources as large as a float can be, and one of a later priority. -/
def Builder.overflowing : Builder Float :=
  { Builder.pair with
    settings := Settings.default
    resources :=
      [("a", .ofWeight (Float.ofBits 0x7FEFFFFFFFFFFFFF)),
        ("b", .ofWeight (Float.ofBits 0x7FEFFFFFFFFFFFFF)), ("c", ⟨100, 0, 1, none⟩)] }

/-- The maxima of the first group are finite and their sum is not: every member is at its maximum,
the group has no rate, and a resource of the second group is selected. -/
theorem overflow_passes_over : ∃ s, Builder.overflowing.build 0 { rng := ⟨0⟩ } = .ok s ∧
    1 ≤ s.selector.settings.priorityFactor ∧
    (∃ g g', s.selector.groups = [g, g'] ∧ g.priority < g'.priority ∧ g.Full ∧
      g.members.map (·.name) = ["a", "b"] ∧ Scalar.isNaN g.snapshot.healthyRate = true) ∧
    s.selectOne.1 = some "c" := by
  have hselector := Builder.overflowing.toSelector_eq 0 [0, 1] rfl (by decide)
  refine ⟨⟨Builder.overflowing.toSelector 0, _⟩, rfl, by decide +kernel, ?_, ?_⟩
  · refine ⟨_, _, by rw [hselector]; rfl, by decide, ?_, rfl, ?_⟩
    · unfold Group.Full
      decide +kernel
    · decide +kernel
  · rw [hselector]
    decide +kernel

end ResourceSelection
