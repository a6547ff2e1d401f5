import Mathlib.Algebra.Order.Field.Basic
import Mathlib.Tactic.FieldSimp
import ResourceSelection.Proofs.Judgement
import ResourceSelection.Proofs.Requirements

/-!
# A carried weight keeps its share

Without rounding, a weight that is carried over is the same share of the new maximum as it was of
the old one, brought between the new bounds. There are four cases to carrying, and where there is a
maximum to have a share of they are one (`Status.carry_eq_share`). A resource without such a maximum
is at its maximum.

The rest is read off that formula. It grows with the weight, it gives the weight back where the
bounds are as before, and if the bounds on the way cut nothing off, carrying a weight twice is
carrying it once. The carried weight lies between the new bounds, so nothing happens to it when the
resource is registered with it.
-/

namespace ResourceSelection

namespace Status

/-- The bounds are not negative, and the weight lies between them. -/
structure InOrder (s : Status ℚ) : Prop where
  nonneg : 0 ≤ s.minWeight
  lower : s.minWeight ≤ s.current
  upper : s.current ≤ s.maxWeight

variable {s s' : Status ℚ} {d e : Declaration ℚ}

theorem InOrder.current_nonneg (h : s.InOrder) : 0 ≤ s.current := le_trans h.nonneg h.lower

theorem InOrder.full_of_not_pos (h : s.InOrder) (hzero : ¬ 0 < s.maxWeight) :
    s.maxWeight ≤ s.current :=
  le_trans (not_lt.1 hzero) h.current_nonneg

/-! ## The carried weight -/

theorem carry_of_full (hle : d.minWeight ≤ d.maxWeight) (hfull : s.maxWeight ≤ s.current) :
    s.carry d = d.maxWeight := by
  unfold carry
  rw [if_pos hfull, Scalar.smaller_rat, Scalar.larger_rat, max_eq_left hle, min_self]

/-- Below the maximum the weight keeps its share, and at the maximum it does so as well. -/
theorem carry_eq_share (hle : d.minWeight ≤ d.maxWeight) (hpos : 0 < s.maxWeight)
    (hupper : s.current ≤ s.maxWeight) :
    s.carry d = min (max (s.current * d.maxWeight / s.maxWeight) d.minWeight) d.maxWeight := by
  have hne : s.maxWeight ≠ 0 := hpos.ne'
  by_cases hfull : s.maxWeight ≤ s.current
  · have hcurrent : s.current = s.maxWeight := le_antisymm hupper hfull
    rw [carry_of_full hle hfull, hcurrent, mul_div_cancel_left₀ _ hne, max_eq_left hle, min_self]
  · unfold carry
    rw [if_neg hfull, Scalar.smaller_rat, Scalar.larger_rat]
    by_cases hsame : Scalar.same s.maxWeight d.maxWeight = true
    · have hmax : s.maxWeight = d.maxWeight := LawfulScalar.same_iff.1 hsame
      rw [if_pos hsame, ← hmax, mul_div_cancel_right₀ _ hne]
    · rw [if_neg hsame, if_pos hpos, div_mul_eq_mul_div]

theorem carry_within (s : Status ℚ) (hle : d.minWeight ≤ d.maxWeight) :
    d.minWeight ≤ s.carry d ∧ s.carry d ≤ d.maxWeight := by
  unfold carry
  rw [Scalar.smaller_rat]
  refine ⟨le_min ?_ hle, min_le_right _ _⟩
  rw [Scalar.larger_rat]
  exact le_max_right _ _

theorem carry_mono (hs : s.InOrder) (hle : d.minWeight ≤ d.maxWeight) (hnonneg : 0 ≤ d.maxWeight)
    (hmax : s'.maxWeight = s.maxWeight) (hcurrent : s.current ≤ s'.current)
    (hupper : s'.current ≤ s'.maxWeight) : s.carry d ≤ s'.carry d := by
  by_cases hpos : 0 < s.maxWeight
  · have hpos' : 0 < s'.maxWeight := hmax ▸ hpos
    have hshare : s.current * d.maxWeight / s.maxWeight ≤ s'.current * d.maxWeight / s'.maxWeight := by
      rw [hmax]
      exact div_le_div_of_nonneg_right (mul_le_mul_of_nonneg_right hcurrent hnonneg) hpos.le
    rw [carry_eq_share hle hpos hs.upper, carry_eq_share hle hpos' hupper]
    exact min_le_min_right _ (max_le_max_right _ hshare)
  · have hfull := hs.full_of_not_pos hpos
    have hfull' : s'.maxWeight ≤ s'.current := by
      rw [hmax]
      exact le_trans hfull hcurrent
    rw [carry_of_full hle hfull, carry_of_full hle hfull']

/-- Nothing happens to a weight whose bounds are as before. -/
theorem carry_of_same_bounds (hs : s.InOrder) (hmin : d.minWeight = s.minWeight)
    (hmax : d.maxWeight = s.maxWeight) : s.carry d = s.current := by
  have hle : d.minWeight ≤ d.maxWeight := by
    rw [hmin, hmax]
    exact le_trans hs.lower hs.upper
  by_cases hpos : 0 < s.maxWeight
  · rw [carry_eq_share hle hpos hs.upper, hmin, hmax, mul_div_cancel_right₀ _ hpos.ne',
      max_eq_left hs.lower, min_eq_left hs.upper]
  · have hfull := hs.full_of_not_pos hpos
    rw [carry_of_full hle hfull, hmax]
    exact le_antisymm hfull hs.upper

/-! ## The resource that is registered with it -/

theorem current_carried (s : Status ℚ) (hle : d.minWeight ≤ d.maxWeight) (name : String)
    (countsCalls : Bool) :
    (Resource.ofDeclaration name { d with initial := some (s.carry d) } countsCalls).current =
      s.carry d := by
  obtain ⟨hlower, hupper⟩ := s.carry_within hle
  show clampWeight (s.carry d) d.maxWeight d.minWeight d.maxWeight = s.carry d
  rw [clampWeight_rat, max_eq_left hlower, min_eq_left hupper]

/-- Carrying by way of bounds that cut nothing off is carrying at once. -/
theorem carry_carry (hs : s.InOrder) (hle : d.minWeight ≤ d.maxWeight) (hzero : e.minWeight = 0)
    (hpos : 0 < e.maxWeight) (name : String) (countsCalls : Bool) :
    (Resource.ofDeclaration name { e with initial := some (s.carry e) } countsCalls).status.carry d =
      s.carry d := by
  have hbounds : e.minWeight ≤ e.maxWeight := hzero ▸ hpos.le
  have hcurrent := s.current_carried hbounds name countsCalls
  generalize hr : Resource.ofDeclaration name { e with initial := some (s.carry e) } countsCalls = r
  rw [hr] at hcurrent
  have hmax : r.status.maxWeight = e.maxWeight := by rw [← hr]; rfl
  have hweight : r.status.current = s.carry e := hcurrent
  by_cases hshare : 0 < s.maxWeight
  · have hcarried : s.carry e = s.current * e.maxWeight / s.maxWeight := by
      have hlower : 0 ≤ s.current * e.maxWeight / s.maxWeight :=
        div_nonneg (mul_nonneg hs.current_nonneg hpos.le) hshare.le
      have hupper : s.current * e.maxWeight / s.maxWeight ≤ e.maxWeight := by
        rw [div_le_iff₀ hshare, mul_comm]
        exact mul_le_mul_of_nonneg_left hs.upper hpos.le
      rw [carry_eq_share hbounds hshare hs.upper, hzero, max_eq_left hlower, min_eq_left hupper]
    have hsame : s.carry e * d.maxWeight / e.maxWeight = s.current * d.maxWeight / s.maxWeight := by
      rw [hcarried]
      have hne : s.maxWeight ≠ 0 := hshare.ne'
      have hne' : e.maxWeight ≠ 0 := hpos.ne'
      field_simp
    have hupper : r.status.current ≤ r.status.maxWeight := by
      rw [hmax, hweight]
      exact (s.carry_within hbounds).2
    rw [carry_eq_share hle (hmax ▸ hpos) hupper, hmax, hweight, hsame,
      carry_eq_share hle hshare hs.upper]
  · have hfull := hs.full_of_not_pos hshare
    have hfull' : r.status.maxWeight ≤ r.status.current := by
      rw [hmax, hweight, carry_of_full hbounds hfull]
    rw [carry_of_full hle hfull, carry_of_full hle hfull']

end Status

/-! ## A member that stays -/

theorem Membership.carry_declarationOf (m : Membership ℚ) (s : Status ℚ) (name : String)
    (d : Declaration ℚ) : s.carry (m.declarationOf none name d) = s.carry d := by
  rw [declarationOf_none]
  rfl

/-- Bounds in order are all that a registered name needs to be declared anew. -/
theorem Membership.validate_survivor (m : Membership ℚ) {previous : Selector ℚ} {name : String}
    {s : Status ℚ} (h : previous.statusOf name = some s) {d : Declaration ℚ}
    (hnonneg : 0 ≤ d.minWeight) (hle : d.minWeight ≤ d.maxWeight) :
    (m.declarationOf (some previous) name d).validate = .ok () := by
  rw [m.declarationOf_carried h, Declaration.validate_carried, m.ordered_declarationOf,
    Declaration.ordered_iff]
  exact ⟨rfl, rfl, hnonneg, hle⟩

/-- A member that was registered starts at the weight carried over. -/
theorem Manager.Changed.exists_survivor {m m' : Manager ℚ} {next : Membership ℚ}
    (h : m.Changed next m') {name : String} {s : Status ℚ} {d : Declaration ℚ}
    (hs : m.current.statusOf name = some s) (hd : next.roster.get? name = some d)
    (hle : d.minWeight ≤ d.maxWeight) : ∃ r, m'.current.find? name = some r ∧
      r.minWeight = d.minWeight ∧ r.maxWeight = d.maxWeight ∧ r.current = s.carry d := by
  have hfound := h.found name
  rw [hd, Option.map_some, next.declarationOf_carried hs, next.carry_declarationOf] at hfound
  refine ⟨_, hfound, next.minWeight_declarationOf none name d,
    next.maxWeight_declarationOf none name d, ?_⟩
  rw [← next.carry_declarationOf s name d]
  refine s.current_carried ?_ name _
  rw [next.minWeight_declarationOf, next.maxWeight_declarationOf]
  exact hle

theorem MembershipChange.changed_of_make {m m' : Manager ℚ} {c : MembershipChange ℚ}
    (h : c.make m = .ok m') : ∃ next, m.Changed next m' := by
  cases c with
  | update add remove rank => exact ⟨_, Manager.changed_of_apply h⟩
  | updateAll resources rank => exact ⟨_, Manager.changed_of_apply h⟩

/-- Under new bounds in order a resource has the share of the maximum that it had, as far as the
bounds allow. A change of the membership never fails because of it, and registers it at that weight.
More weight before is no less weight after, the maximum goes to the maximum, nothing changes if the
bounds do not, and bounds in between that start at zero leave no trace. -/
theorem Status.carry_keeps_share {s : Status ℚ} (hs : s.InOrder) {d : Declaration ℚ}
    (hnonneg : 0 ≤ d.minWeight) (hle : d.minWeight ≤ d.maxWeight) :
    (d.minWeight ≤ s.carry d ∧ s.carry d ≤ d.maxWeight) ∧
    (∀ (m : Membership ℚ) (previous : Selector ℚ) (name : String),
      previous.statusOf name = some s →
        (m.declarationOf (some previous) name d).validate = .ok ()) ∧
    (∀ (m m' : Manager ℚ) (c : MembershipChange ℚ) (name : String), c.make m = .ok m' →
      m.current.statusOf name = some s → m'.membership.roster.get? name = some d →
        ∃ r, m'.current.find? name = some r ∧ r.minWeight = d.minWeight ∧
          r.maxWeight = d.maxWeight ∧ r.current = s.carry d) ∧
    (∀ weight, s.current ≤ weight → weight ≤ s.maxWeight →
      s.carry d ≤ ({ s with current := weight } : Status ℚ).carry d) ∧
    (s.current = s.maxWeight → s.carry d = d.maxWeight) ∧
    (d.minWeight = s.minWeight → d.maxWeight = s.maxWeight → s.carry d = s.current) ∧
    (s.current < s.maxWeight →
      s.carry d = min (max (s.current * d.maxWeight / s.maxWeight) d.minWeight) d.maxWeight) ∧
    ∀ e : Declaration ℚ, e.minWeight = 0 → 0 < e.maxWeight → ∀ (name : String) (countsCalls : Bool),
      (Resource.ofDeclaration name { e with initial := some (s.carry e) }
        countsCalls).status.carry d = s.carry d := by
  refine ⟨s.carry_within hle, fun m previous name h => m.validate_survivor h hnonneg hle, ?_, ?_,
    ?_, ?_, ?_, fun e => carry_carry hs hle⟩
  · intro m m' c name hmade hstatus hdeclared
    obtain ⟨next, hchanged⟩ := MembershipChange.changed_of_make hmade
    exact hchanged.exists_survivor hstatus (hchanged.membership ▸ hdeclared) hle
  · intro weight hcurrent hupper
    exact carry_mono hs hle (le_trans hnonneg hle) rfl hcurrent hupper
  · intro hfull
    exact carry_of_full hle hfull.ge
  · exact carry_of_same_bounds hs
  · intro hbelow
    exact carry_eq_share hle (lt_of_le_of_lt hs.current_nonneg hbelow) hs.upper

/-- Half of a hundred becomes half of forty, also by way of a maximum of seven. -/
theorem Status.carry_keeps_share_half :
    ∃ (s : Status ℚ) (d e : Declaration ℚ), s.InOrder ∧ s.carry d = 20 ∧
      (Resource.ofDeclaration "a" { e with initial := some (s.carry e) } false).status.carry d =
        s.carry d := by
  have hs : (⟨100, 10, 0, 50, none⟩ : Status ℚ).InOrder := ⟨by norm_num, by norm_num, by norm_num⟩
  obtain ⟨-, -, -, -, -, -, hshare, hvia⟩ := carry_keeps_share hs (d := ⟨40, 5, 0, none⟩)
    (by norm_num) (by norm_num)
  refine ⟨_, _, .ofWeight 7, hs, ?_, hvia _ rfl (show (0 : ℚ) < 7 by norm_num) "a" false⟩
  rw [hshare (by norm_num)]
  norm_num

end ResourceSelection
