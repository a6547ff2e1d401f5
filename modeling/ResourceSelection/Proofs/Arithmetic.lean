import ResourceSelection.Proofs.Rounding

/-!
# Sums, quotients and products of floats

What rates and scores rely on. A sum of numbers that are not below zero grows with its terms, also
where it overflows. A finite number divided by one that is not smaller is at most one: the exact
quotient is below one, its first bits are below one by at least one unit in the last place, and
rounding adds no more than that unit. The quotient of a finite positive number by an equal one is
one, two infinities have none, and a product with one is the other factor. No part of the difference
of a number and itself raises that number.
-/

namespace ResourceSelection.Binary64

open Float.Model (UnpackedFloat Format totalExponent)
open Float.Model.UnpackedFloat

variable {u : UnpackedFloat} {a b c d : Float}

/-! ## Quotients -/

/-- The quotient of a smaller value by a larger one, before rounding. -/
theorem divCore_of_lt {m n : ℕ} {e k : ℤ} (hm : 0 < m) (hn : 0 < n)
    (h : Format.binary64.targetExponent (totalExponent m e) = e)
    (h' : Format.binary64.targetExponent (totalExponent n k) = k)
    (hlt : e < k ∨ e = k ∧ m < n) :
    ∃ (q : ℕ) (t : ℤ) (acc : Accuracy), divCore .binary64 m e n k = (q, t, acc) ∧
      t ≤ -53 ∧ t ≤ Format.binary64.targetExponent (totalExponent q t) ∧ q < 2 ^ (-t).toNat := by
  rw [targetExponent_eq, totalExponent] at h h'
  have hlog : m.log2 ≤ n.log2 ∨ e < k := by
    rcases hlt with hlt | ⟨-, hlt⟩
    · exact .inr hlt
    · refine .inl ?_
      rw [Nat.log2_eq_log_two, Nat.log2_eq_log_two]
      exact Nat.log_mono_right hlt.le
  obtain ⟨t, ht⟩ : ∃ t, t = min (e - k)
    (Format.binary64.targetExponent (totalExponent m e - totalExponent n k)) := ⟨_, rfl⟩
  refine ⟨(m <<< (e - k - t).toNat) / n, t, accuracyOfFraction ((m <<< (e - k - t).toNat) % n) n,
    by rw [ht]; rfl, ?_, ?_, ?_⟩
  · rw [targetExponent_eq, totalExponent, totalExponent] at ht
    omega
  · rw [targetExponent_eq, totalExponent, totalExponent] at ht
    rw [targetExponent_eq, totalExponent, Nat.shiftLeft_eq]
    rcases le_or_gt t (-1074) with hleast | hnormal
    · omega
    · have hlong : 2 ^ 52 ≤ m * 2 ^ (e - k - t).toNat / n := by
        rw [Nat.le_div_iff_mul_le hn]
        calc 2 ^ 52 * n ≤ 2 ^ 52 * 2 ^ (n.log2 + 1) := Nat.mul_le_mul_left _ Nat.lt_log2_self.le
          _ = 2 ^ (52 + (n.log2 + 1)) := (pow_add 2 _ _).symm
          _ ≤ 2 ^ (m.log2 + (e - k - t).toNat) := Nat.pow_le_pow_right (by omega) (by omega)
          _ = 2 ^ m.log2 * 2 ^ (e - k - t).toNat := pow_add 2 _ _
          _ ≤ m * 2 ^ (e - k - t).toNat := Nat.mul_le_mul_right _ (Nat.log2_self_le hm.ne')
      have : 52 ≤ (m * 2 ^ (e - k - t).toNat / n).log2 :=
        (Nat.le_log2 ((Nat.two_pow_pos 52).trans_le hlong).ne').2 hlong
      omega
  · have hless : m < n * 2 ^ (k - e).toNat := by
      rcases hlt with hlt | ⟨rfl, hlt⟩
      · have hroom : m < 2 ^ 53 :=
          Nat.lt_log2_self.trans_le (Nat.pow_le_pow_right (by omega) (by omega))
        have hfull : 2 ^ 52 ≤ n := (Nat.le_log2 hn.ne').1 (by omega)
        have htwo : 2 ^ 1 ≤ 2 ^ (k - e).toNat := Nat.pow_le_pow_right (by omega) (by omega)
        exact hroom.trans_le (Nat.mul_le_mul hfull htwo)
      · simpa using hlt
    have hexponent : (-t).toNat = (k - e).toNat + (e - k - t).toNat := by
      have : t ≤ e - k := by omega
      omega
    rw [Nat.shiftLeft_eq, Nat.div_lt_iff_lt_mul hn, hexponent, pow_add, mul_comm _ n, ← mul_assoc]
    exact Nat.mul_lt_mul_of_pos_right hless (Nat.two_pow_pos _)

/-- The quotient of a value by itself is one. -/
theorem div_self_of_canonical {m : ℕ} {e : ℤ} (hm : 0 < m) :
    div .binary64 (.finite .positive m e hm) (.finite .positive m e hm) =
      .finite .positive (2 ^ 52) (-52) (Nat.two_pow_pos _) := by
  have hcore : divCore .binary64 m e m e = (2 ^ 52 * 2 ^ 1, (-52 : ℤ) - (1 : ℕ), .exact) := by
    have htarget : min (e - e) (Format.binary64.targetExponent
        (totalExponent m e - totalExponent m e)) = -53 := by
      rw [sub_self, sub_self, targetExponent_eq]
      norm_num
    have hamount : (e - e - -53).toNat = 53 := by omega
    unfold divCore
    simp only [htarget, hamount, Nat.shiftLeft_eq]
    rw [Nat.mul_div_cancel_left _ hm, Nat.mul_mod_right]
    rfl
  have hone : Format.binary64.targetExponent (totalExponent (2 ^ 52) (-52)) = -52 := by
    rw [targetExponent_eq, totalExponent, Nat.log2_two_pow]
    norm_num
  unfold div
  simp only [hcore]
  exact roundWithAccuracy_zeros (Nat.two_pow_pos _) hone _ 1

/-- The quotient of a smaller value by a larger one is rounded to one at most. -/
theorem magnitude_div_of_lt {m n : ℕ} {e k : ℤ} (hm : 0 < m) (hn : 0 < n)
    (h : Format.binary64.targetExponent (totalExponent m e) = e)
    (h' : Format.binary64.targetExponent (totalExponent n k) = k)
    (hlt : e < k ∨ e = k ∧ m < n) :
    isNonneg (div .binary64 (.finite .positive m e hm) (.finite .positive n k hn)) = true ∧
      Canonical .binary64 (div .binary64 (.finite .positive m e hm) (.finite .positive n k hn)) ∧
      magnitude (div .binary64 (.finite .positive m e hm) (.finite .positive n k hn)) ≤
        (quanta (2 ^ 52) (-52) : ℕ) := by
  obtain ⟨q, t, acc, hcore, ht, hle, hq⟩ := divCore_of_lt hm hn h h' hlt
  have hdiv : div .binary64 (.finite .positive m e hm) (.finite .positive n k hn) =
      roundWithAccuracy .binary64 .positive q t acc := by
    unfold div
    simp only [hcore]
    rfl
  rw [hdiv]
  generalize htarget : Format.binary64.targetExponent (totalExponent q t) = t' at hle
  rcases roundWithAccuracy_cases .positive acc htarget hle with
    ⟨-, hzero⟩ | ⟨m', j, hm', hsplit, hcanonical, hfinite⟩
  · rw [hzero]
    exact ⟨rfl, trivial, zero_le⟩
  · rw [hfinite]
    refine ⟨rfl, hcanonical, ?_⟩
    have hlog : q.log2 < (-t).toNat := by
      rcases Nat.eq_zero_or_pos q with rfl | hpos
      · rw [Nat.log2_zero]
        omega
      · exact (Nat.log2_lt hpos.ne').2 hq
    have hlow : t' ≤ -53 ∧ -1074 ≤ t' := by
      rw [targetExponent_eq, totalExponent] at htarget
      omega
    have hmantissa : mantissaAt q t acc t' ≤ 2 ^ (-t').toNat := by
      have hexponent : (-t).toNat = (t' - t).toNat + (-t').toNat := by omega
      rw [hexponent, pow_add] at hq
      have := Nat.div_lt_of_lt_mul hq
      have := (mantissaAt_bounds q t acc t').2
      omega
    rw [magnitude_finite, Nat.cast_withTop, Nat.cast_withTop, WithTop.coe_le_coe]
    have hexponent : (t' + j + 1074).toNat = j + (t' + 1074).toNat := by omega
    have hone : (-t').toNat + (t' + 1074).toNat = 52 + (-52 + 1074 : ℤ).toNat := by omega
    calc quanta m' (t' + j) = mantissaAt q t acc t' * 2 ^ (t' + 1074).toNat := by
          rw [quanta, hexponent, pow_add, ← mul_assoc, ← hsplit]
      _ ≤ 2 ^ (-t').toNat * 2 ^ (t' + 1074).toNat := Nat.mul_le_mul_right _ hmantissa
      _ = quanta (2 ^ 52) (-52) := by rw [← pow_add, hone, pow_add, quanta]

/-! ## Floats -/

/-- A number of quanta as it is packed. -/
def capped (x : WithTop ℕ) : WithTop ℕ := if (limit : WithTop ℕ) ≤ x then ⊤ else x

theorem capped_mono {x y : WithTop ℕ} (h : x ≤ y) : capped x ≤ capped y := by
  unfold capped
  by_cases hx : (limit : WithTop ℕ) ≤ x
  · rw [if_pos hx, if_pos (hx.trans h)]
  · rw [if_neg hx]
    split
    · exact le_top
    · exact h

theorem capped_top : capped ⊤ = ⊤ := if_pos le_top

theorem capped_of_lt {x : WithTop ℕ} (h : x < limit) : capped x = x := if_neg h.not_ge

theorem limit_pos : 0 < limit := quanta_pos (Nat.two_pow_pos 52) 972

theorem magnitude_unpack_pack (hu : isNonneg u = true) (hcu : Canonical .binary64 u) :
    isNonneg (unpack .binary64 (pack .binary64 u)) = true ∧
      magnitude (unpack .binary64 (pack .binary64 u)) = capped (magnitude u) := by
  rcases u with (_ | _) | _ | s | ⟨_ | _, m, e, hm⟩ <;> try cases hu
  case infinity.positive =>
    rw [show pack .binary64 (.infinity .positive) = packedInfinity .binary64 .positive from rfl,
      unpack_packedInfinity]
    exact ⟨rfl, capped_top.symm⟩
  case zero =>
    rw [show pack .binary64 (.zero s) = packedZero .binary64 s from rfl, unpack_packedZero]
    exact ⟨rfl, (capped_of_lt (WithTop.coe_lt_coe.2 limit_pos)).symm⟩
  case finite.positive =>
    have hlimit := limit_le_iff hm hcu
    rw [unpack_pack .positive hm hcu]
    split
    · next hlarge => exact ⟨rfl, (if_pos (WithTop.coe_le_coe.2 (hlimit.2 hlarge))).symm⟩
    · next hsmall =>
        have hlt : quanta m e < limit := not_le.1 fun hle => hsmall (hlimit.1 hle)
        exact ⟨rfl, (capped_of_lt (WithTop.coe_lt_coe.2 hlt)).symm⟩

theorem value_add (a b : Float) :
    value (a + b) = unpack .binary64 (pack .binary64 (add .binary64 (value a) (value b))) := rfl

theorem value_div (a b : Float) :
    value (a / b) = unpack .binary64 (pack .binary64 (div .binary64 (value a) (value b))) := rfl

theorem canonical_value (a : Float) : Canonical .binary64 (value a) :=
  canonical_unpack a.toModel.toBits.toBitVec

theorem zero_le_iff : 0 ≤ a ↔ isNonneg (value a) = true := by
  rw [le_iff, value_zero]
  rcases value a with (_ | _) | _ | _ | ⟨_ | _, m, e, _⟩ <;>
    simp [UnpackedFloat.isNaN, rank, isNonneg, Prod.Lex.toLex_lt_toLex]

theorem isNaN_of_isNonneg (hu : isNonneg u = true) : u.isNaN = false := by
  cases u <;> first | rfl | cases hu

theorem le_iff_magnitude (ha : 0 ≤ a) (hb : 0 ≤ b) :
    a ≤ b ↔ magnitude (value a) ≤ magnitude (value b) := by
  have ha := zero_le_iff.1 ha
  have hb := zero_le_iff.1 hb
  rw [le_iff, rank_lt_iff hb ha (canonical_value b) (canonical_value a), not_lt]
  simp [isNaN_of_isNonneg ha, isNaN_of_isNonneg hb]

theorem magnitude_value_add (ha : 0 ≤ a) (hb : 0 ≤ b) :
    0 ≤ a + b ∧ magnitude (value (a + b)) =
      capped ((magnitude (value a) + magnitude (value b)).map rounded) := by
  obtain ⟨hnonneg, hcanonical, hmagnitude⟩ := magnitude_add (zero_le_iff.1 ha) (zero_le_iff.1 hb)
    (canonical_value a) (canonical_value b)
  have hpacked := magnitude_unpack_pack hnonneg hcanonical
  rw [← value_add, hmagnitude] at hpacked
  exact ⟨zero_le_iff.2 hpacked.1, hpacked.2⟩

/-- A sum grows with its terms, whatever is rounded away and also where it overflows. -/
theorem add_le_add_of_nonneg (ha : 0 ≤ a) (hb : 0 ≤ b) (hac : a ≤ c) (hbd : b ≤ d) :
    a + b ≤ c + d := by
  have hc := Scalar.le_trans ha hac
  have hd := Scalar.le_trans hb hbd
  obtain ⟨hab, hleft⟩ := magnitude_value_add ha hb
  obtain ⟨hcd, hright⟩ := magnitude_value_add hc hd
  rw [le_iff_magnitude hab hcd, hleft, hright]
  refine capped_mono (Monotone.withTop_map (fun _ _ => rounded_mono) ?_)
  exact add_le_add ((le_iff_magnitude ha hc).1 hac) ((le_iff_magnitude hb hd).1 hbd)

theorem le_capped (x : WithTop ℕ) : x ≤ capped x := by
  unfold capped
  split
  · exact le_top
  · exact le_rfl

theorem le_add_right (ha : 0 ≤ a) (hb : 0 ≤ b) : a ≤ a + b := by
  obtain ⟨hsum, hmagnitude⟩ := magnitude_value_add ha hb
  rw [le_iff_magnitude ha hsum, hmagnitude]
  refine le_trans ?_ (le_capped _)
  calc magnitude (value a) = (magnitude (value a)).map rounded :=
        (map_rounded_magnitude (canonical_value a)).symm
    _ ≤ (magnitude (value a) + magnitude (value b)).map rounded :=
        Monotone.withTop_map (fun _ _ => rounded_mono) le_self_add

theorem le_add_left (ha : 0 ≤ a) (hb : 0 ≤ b) : b ≤ a + b := by
  obtain ⟨hsum, hmagnitude⟩ := magnitude_value_add ha hb
  rw [le_iff_magnitude hb hsum, hmagnitude]
  refine le_trans ?_ (le_capped _)
  calc magnitude (value b) = (magnitude (value b)).map rounded :=
        (map_rounded_magnitude (canonical_value b)).symm
    _ ≤ (magnitude (value a) + magnitude (value b)).map rounded :=
        Monotone.withTop_map (fun _ _ => rounded_mono) le_add_self

section

variable {α : Type} {xs : List α} {f g : α → Float}

/-- A sum grows with its terms. -/
theorem sum_le_sum (h : ∀ x ∈ xs, 0 ≤ f x ∧ f x ≤ g x) :
    0 ≤ Scalar.sum (xs.map f) ∧ Scalar.sum (xs.map f) ≤ Scalar.sum (xs.map g) := by
  suffices ∀ a b : Float, 0 ≤ a → a ≤ b → 0 ≤ (xs.map f).foldl (· + ·) a ∧
      (xs.map f).foldl (· + ·) a ≤ (xs.map g).foldl (· + ·) b from
    this 0 0 (Scalar.le_refl rfl) (Scalar.le_refl rfl)
  induction xs with
  | nil => exact fun a b ha hab => ⟨ha, hab⟩
  | cons x rest ih =>
      intro a b ha hab
      obtain ⟨hx, hle⟩ := h x List.mem_cons_self
      exact ih (fun y hy => h y (List.mem_cons_of_mem x hy)) _ _
        (magnitude_value_add ha hx).1 (add_le_add_of_nonneg ha hx hab hle)

theorem sum_pos {xs : List Float} (hnonneg : ∀ x ∈ xs, 0 ≤ x) (hpos : ∃ x ∈ xs, 0 < x) :
    0 < Scalar.sum xs := by
  suffices ∀ a : Float, 0 ≤ a → (0 < a ∨ ∃ x ∈ xs, 0 < x) → 0 < xs.foldl (· + ·) a from
    this 0 (Scalar.le_refl rfl) (.inr hpos)
  clear hpos
  induction xs with
  | nil =>
      rintro a - (ha | ⟨x, hx, -⟩)
      · exact ha
      · exact nomatch hx
  | cons x rest ih =>
      intro a ha hpos
      have hx := hnonneg x List.mem_cons_self
      refine ih (fun y hy => hnonneg y (List.mem_cons_of_mem x hy)) _ (magnitude_value_add ha hx).1 ?_
      rcases hpos with ha' | ⟨y, hy, hpos⟩
      · exact .inl (Scalar.lt_of_lt_of_le ha' (le_add_right ha hx))
      · rcases List.mem_cons.1 hy with rfl | hy
        · exact .inl (Scalar.lt_of_lt_of_le hpos (le_add_left ha hx))
        · exact .inr ⟨y, hy, hpos⟩

end

theorem value_one : value (1 : Float) = .finite .positive (2 ^ 52) (-52) (Nat.two_pow_pos 52) := rfl

theorem zero_le_one : (0 : Float) ≤ 1 := zero_le_iff.2 rfl

/-- The three sorts of values that are not below zero. -/
theorem value_cases (ha : 0 ≤ a) :
    (∃ s, value a = .zero s) ∨ (∃ m e hm, value a = .finite .positive m e hm) ∨
      value a = .infinity .positive := by
  have ha := zero_le_iff.1 ha
  rcases hv : value a with (_ | _) | _ | s | ⟨_ | _, m, e, hm⟩ <;> rw [hv] at ha <;>
    try cases ha
  · exact .inr (.inr rfl)
  · exact .inl ⟨s, rfl⟩
  · exact .inr (.inl ⟨m, e, hm, rfl⟩)

theorem not_isFinite_of_infinity {s : Sign} (h : value a = .infinity s) : a.isFinite = false := by
  show (value a).isFinite = false
  rw [h]
  rfl

/-- A positive number is finite or the infinity. -/
theorem value_cases_of_pos (ha : 0 < a) :
    (∃ m e hm, value a = .finite .positive m e hm) ∨ value a = .infinity .positive := by
  rcases value_cases (Scalar.le_of_lt ha) with ⟨s, hs⟩ | hrest
  · rw [zero_lt_iff, hs] at ha
    exact nomatch ha
  · exact hrest

theorem div_mem_unit_of {u : UnpackedFloat} (hdiv : div .binary64 (value a) (value b) = u)
    (hu : isNonneg u = true) (hcu : Canonical .binary64 u)
    (hle : magnitude u ≤ (quanta (2 ^ 52) (-52) : ℕ)) : 0 ≤ a / b ∧ a / b ≤ 1 := by
  obtain ⟨hnonneg, hmagnitude⟩ := magnitude_unpack_pack hu hcu
  rw [← hdiv, ← value_div] at hnonneg hmagnitude
  have hzero := zero_le_iff.2 hnonneg
  have hone : magnitude (value 1) = capped (magnitude (value 1)) :=
    (magnitude_unpack_pack (u := value 1) rfl (canonical_value 1)).2
  refine ⟨hzero, (le_iff_magnitude hzero zero_le_one).2 ?_⟩
  rw [hmagnitude, hone, hdiv]
  exact capped_mono hle

/-- A finite number divided by one that is not smaller is between zero and one. -/
theorem div_mem_unit (ha : 0 ≤ a) (hab : a ≤ b) (hb : 0 < b) (hfinite : a.isFinite = true) :
    0 ≤ a / b ∧ a / b ≤ 1 := by
  rcases value_cases ha with ⟨s, hs⟩ | ⟨m, e, hm, hs⟩ | hs
  · rcases value_cases_of_pos hb with ⟨n, k, hn, ht⟩ | ht
    · exact div_mem_unit_of (u := .zero (s / .positive)) (by rw [hs, ht]; rfl) rfl trivial zero_le
    · exact div_mem_unit_of (u := .zero (s / .positive)) (by rw [hs, ht]; rfl) rfl trivial zero_le
  · rcases value_cases_of_pos hb with ⟨n, k, hn, ht⟩ | ht
    · have hca : Canonical .binary64 (.finite .positive m e hm) := hs ▸ canonical_value a
      have hcb : Canonical .binary64 (.finite .positive n k hn) := ht ▸ canonical_value b
      have hle : ¬ quanta n k < quanta m e := by
        have h := (le_iff_magnitude ha (Scalar.le_of_lt hb)).1 hab
        rw [hs, ht] at h
        exact not_lt.2 (WithTop.coe_le_coe.1 h)
      rw [quanta_lt_iff hn hm hcb hca] at hle
      by_cases hlt : e < k ∨ e = k ∧ m < n
      · obtain ⟨hnonneg, hcanonical, hmagnitude⟩ := magnitude_div_of_lt hm hn hca hcb hlt
        exact div_mem_unit_of (by rw [hs, ht]) hnonneg hcanonical hmagnitude
      · obtain ⟨rfl, rfl⟩ : e = k ∧ m = n := by omega
        have hself := div_self_of_canonical (e := e) hm
        exact div_mem_unit_of (by rw [hs, ht, hself, value_one]) rfl (canonical_value 1) le_rfl
    · exact div_mem_unit_of (u := .zero .positive) (by rw [hs, ht]; rfl) rfl trivial zero_le
  · rw [not_isFinite_of_infinity hs] at hfinite
    exact nomatch hfinite

/-- Positive numbers that are equal have the same value: only zero has two. -/
theorem value_eq_of_le (hab : a ≤ b) (hba : b ≤ a) (ha : 0 < a) : value a = value b := by
  have hb := Scalar.lt_of_lt_of_le ha hab
  have hle := (le_iff_magnitude (Scalar.le_of_lt ha) (Scalar.le_of_lt hb)).1 hab
  have hge := (le_iff_magnitude (Scalar.le_of_lt hb) (Scalar.le_of_lt ha)).1 hba
  have hca := canonical_value a
  have hcb := canonical_value b
  rcases value_cases_of_pos ha with ⟨m, e, hm, hs⟩ | hs <;>
    rcases value_cases_of_pos hb with ⟨n, k, hn, ht⟩ | ht <;>
      rw [hs] at hca hle hge ⊢ <;> rw [ht] at hcb hle hge ⊢
  · have hle := (quanta_lt_iff hn hm hcb hca).not.1 (not_lt.2 (WithTop.coe_le_coe.1 hle))
    have hge := (quanta_lt_iff hm hn hca hcb).not.1 (not_lt.2 (WithTop.coe_le_coe.1 hge))
    obtain ⟨rfl, rfl⟩ : e = k ∧ m = n := by omega
    rfl
  · exact absurd (top_le_iff.1 hge) (WithTop.natCast_ne_top _)
  · exact absurd (top_le_iff.1 hle) (WithTop.natCast_ne_top _)

/-- So they are one number. -/
theorem eq_of_le (hab : a ≤ b) (hba : b ≤ a) (ha : 0 < a) : a = b := by
  have hvalue := value_eq_of_le hab hba ha
  have hpacked (c : Float) : pack .binary64 (value c) = c.toBits.toBitVec :=
    pack_unpack_of_valid c.toModel.valid
  refine Float.toBits_inj.1 (UInt64.toBitVec_inj.1 ?_)
  rw [← hpacked a, ← hpacked b, hvalue]

/-- The quotient of two equal numbers is one. -/
theorem div_eq_one (hab : a ≤ b) (hba : b ≤ a) (ha : 0 < a) (hfinite : a.isFinite = true) :
    a / b = 1 := by
  have hvalue : div .binary64 (value a) (value b) = value 1 := by
    rw [← value_eq_of_le hab hba ha]
    rcases value_cases_of_pos ha with ⟨m, e, hm, hs⟩ | hs
    · rw [hs, div_self_of_canonical hm, value_one]
    · rw [not_isFinite_of_infinity hs] at hfinite
      exact nomatch hfinite
  refine Float.toBits_inj.1 (UInt64.toBitVec_inj.1 ?_)
  show pack .binary64 (div .binary64 (value a) (value b)) = _
  rw [hvalue]
  exact pack_unpack_of_valid (1 : Float).toModel.valid

theorem unpack_pack_value (a : Float) : unpack .binary64 (pack .binary64 (value a)) = value a := by
  have hpacked : pack .binary64 (value a) = a.toModel.toBits.toBitVec :=
    pack_unpack_of_valid a.toModel.valid
  rw [hpacked]
  rfl

theorem value_largest : value (Float.ofBits 0x7FEFFFFFFFFFFFFF) =
    .finite .positive (2 ^ 53 - 1) 971 (by decide) := rfl

/-- No finite number is above the largest one. -/
theorem not_largest_lt (hfinite : a.isFinite = true) :
    ¬ Float.ofBits 0x7FEFFFFFFFFFFFFF < a := by
  intro hlt
  have hpos : 0 < a := LawfulScalar.lt_trans (zero_lt_iff.2 (by rw [value_largest]; rfl)) hlt
  rcases value_cases_of_pos hpos with ⟨m, e, hm, ha⟩ | ha
  · have hcanonical : Canonical .binary64 (.finite .positive m e hm) := ha ▸ canonical_value a
    -- an exponent beyond the largest one would have been packed as the infinity
    have hexponent : ¬ 972 ≤ e := by
      intro hlarge
      have hvalue := unpack_pack_value a
      rw [ha, unpack_pack .positive hm hcanonical, if_pos hlarge] at hvalue
      exact nomatch hvalue
    have heq : Format.binary64.targetExponent (totalExponent m e) = e := hcanonical
    rw [targetExponent_eq, totalExponent] at heq
    have hmantissa : m < 2 ^ 53 := (Nat.log2_lt hm.ne').1 (by omega)
    obtain ⟨-, -, hrank⟩ := lt_iff.1 hlt
    rw [value_largest, ha] at hrank
    simp only [rank, Prod.Lex.toLex_lt_toLex] at hrank
    omega
  · rw [not_isFinite_of_infinity ha] at hfinite
    exact absurd hfinite Bool.false_ne_true

theorem value_of_not_isFinite (ha : 0 ≤ a) (hfinite : a.isFinite = false) :
    value a = .infinity .positive := by
  have hfinite : (value a).isFinite = false := hfinite
  rcases value_cases ha with ⟨s, hs⟩ | ⟨m, e, hm, hs⟩ | hs
  · rw [hs] at hfinite
    exact nomatch hfinite
  · rw [hs] at hfinite
    exact nomatch hfinite
  · exact hs

/-- What is below a finite number is finite. -/
theorem isFinite_of_le (ha : 0 ≤ a) (hab : a ≤ b) (hfinite : b.isFinite = true) :
    a.isFinite = true := by
  rw [← Bool.not_eq_false]
  intro hinfinite
  have hle := (le_iff_magnitude ha (Scalar.le_trans ha hab)).1 hab
  rw [value_of_not_isFinite ha hinfinite] at hle
  rcases value_cases (Scalar.le_trans ha hab) with ⟨s, hs⟩ | ⟨m, e, hm, hs⟩ | hs
  · rw [hs] at hle
    exact absurd hle (not_le.2 (WithTop.coe_lt_top 0))
  · rw [hs] at hle
    exact absurd hle (not_le.2 (WithTop.coe_lt_top _))
  · rw [not_isFinite_of_infinity hs] at hfinite
    exact nomatch hfinite

theorem pos_of_not_isFinite (ha : 0 ≤ a) (hfinite : a.isFinite = false) : 0 < a := by
  rw [zero_lt_iff, value_of_not_isFinite ha hfinite]
  rfl

/-- Where the dividend is infinite, so is a divisor that is not smaller, and there is no quotient. -/
theorem isNaN_div (ha : 0 ≤ a) (hab : a ≤ b) (hfinite : a.isFinite = false) :
    (a / b).isNaN = true := by
  have hb : b.isFinite = false := by
    rw [← Bool.not_eq_true]
    intro hb
    rw [isFinite_of_le ha hab hb] at hfinite
    exact nomatch hfinite
  show (value (a / b)).isNaN = true
  rw [value_div, value_of_not_isFinite ha hfinite,
    value_of_not_isFinite (Scalar.le_trans ha hab) hb]
  rfl

/-- One times a number is that number. -/
theorem one_mul (a : Float) : 1 * a = a := by
  have hvalue : mul .binary64 (value 1) (value a) = value a := by
    have hca := canonical_value a
    have hsign (s : Sign) : Sign.positive * s = s := by cases s <;> rfl
    rw [value_one]
    generalize value a = u at hca
    rcases u with s | _ | s | ⟨s, m, e, hm⟩
    case infinity => exact congrArg UnpackedFloat.infinity (hsign s)
    case notANumber => rfl
    case zero => exact congrArg UnpackedFloat.zero (hsign s)
    case finite =>
      have hzeros := roundWithAccuracy_zeros hm hca s 52
      rw [sub_eq_neg_add] at hzeros
      unfold mul
      simp only [hsign, mul_comm (2 ^ 52) m]
      exact hzeros
  refine Float.toBits_inj.1 (UInt64.toBitVec_inj.1 ?_)
  show pack .binary64 (mul .binary64 (value 1) (value a)) = _
  rw [hvalue]
  exact pack_unpack_of_valid a.toModel.valid

/-! ## Nothing of a number -/

theorem value_sub (a b : Float) :
    value (a - b) = unpack .binary64 (pack .binary64 (sub .binary64 (value a) (value b))) := rfl

theorem value_mul (a b : Float) :
    value (a * b) = unpack .binary64 (pack .binary64 (mul .binary64 (value a) (value b))) := rfl

/-- The value is a zero, or no number. -/
def Null (u : UnpackedFloat) : Prop := u = .notANumber ∨ ∃ s, u = .zero s

theorem null_unpack_pack (hu : Null u) : Null (unpack .binary64 (pack .binary64 u)) := by
  rcases hu with rfl | ⟨s, rfl⟩
  · exact .inl rfl
  · exact .inr ⟨s, unpack_packedZero⟩

theorem null_sub_self (a : Float) : Null (value (a - a)) := by
  rw [value_sub]
  refine null_unpack_pack ?_
  rcases value a with s | _ | s | ⟨s, m, e, hm⟩
  case infinity => cases s <;> exact .inl rfl
  case notANumber => exact .inl rfl
  case zero => cases s <;> exact .inr ⟨_, rfl⟩
  case finite =>
    refine .inr ⟨.positive, ?_⟩
    unfold sub
    simp only [sub_self]
    rfl

theorem null_mul (ha : Null (value a)) (b : Float) : Null (value (a * b)) := by
  rw [value_mul]
  refine null_unpack_pack ?_
  rcases ha with ha | ⟨s, ha⟩ <;> rw [ha]
  · exact .inl rfl
  · rcases value b with _ | _ | _ | _
    case infinity => exact .inl rfl
    case notANumber => exact .inl rfl
    case zero => exact .inr ⟨_, rfl⟩
    case finite => exact .inr ⟨_, rfl⟩

/-- Adding nothing does not raise a number. -/
theorem not_lt_add_null (a : Float) (hb : Null (value b)) : ¬ a < a + b := by
  have hself : unpack .binary64 (pack .binary64 (value a)) = value a :=
    congrArg (unpack .binary64) (pack_unpack_of_valid a.toModel.valid)
  rw [lt_iff, value_add]
  rintro ⟨ha, hsum, hlt⟩
  rcases hb with hb | ⟨s, hb⟩ <;> rw [hb] at hsum hlt
  · have hnan : add .binary64 (value a) .notANumber = .notANumber := by
      cases value a <;> rfl
    rw [hnan] at hsum
    exact nomatch hsum
  · rcases hv : value a with t | _ | t | ⟨t, m, e, hm⟩ <;> rw [hv] at ha hself hlt
    case infinity => exact lt_irrefl _ (hself ▸ hlt)
    case notANumber => exact nomatch ha
    case zero =>
      have hzero : ∃ r, add .binary64 (.zero t) (.zero s) = .zero r := by
        cases t <;> cases s <;> exact ⟨_, rfl⟩
      obtain ⟨r, hr⟩ := hzero
      rw [hr, show pack .binary64 (.zero r) = packedZero .binary64 r from rfl,
        unpack_packedZero] at hlt
      exact lt_irrefl _ hlt
    case finite => exact lt_irrefl _ (hself ▸ hlt)

/-- A number is not raised by any part of its difference to itself. -/
theorem not_lt_add_sub_self_mul (a rate : Float) : ¬ a < a + (a - a) * rate :=
  not_lt_add_null a (null_mul (null_sub_self a) rate)

end ResourceSelection.Binary64
