import ResourceSelection.Proofs.Exact

/-!
# Rounding keeps the order

A positive float is a whole number of quanta, the quantum being the least positive float, and so is
the exact sum of two of them. Rounding therefore is a function on natural numbers: it keeps the
first 53 bits of a number, and what it does to the last of them depends on the bits that go. That
function is monotone. Between two numbers of equal length this is a matter of the bits that go; a
longer number has a power of two below it, which no shorter one is rounded across.

The rest carries this over to the values that floats unpack to. A canonical value is determined by
its number of quanta, its rank grows with that number, and the sum of two values that are not below
zero is their rounded number of quanta. Packing keeps a canonical value, or makes it infinite where
its exponent does not fit.
-/

namespace ResourceSelection.Binary64

open Float.Model (UnpackedFloat Format totalExponent)
open Float.Model.UnpackedFloat

/-! ## Shifting bits out -/

theorem repeat_add {α : Type} (f : α → α) (j k : ℕ) (x : α) :
    Nat.repeat f (j + k) x = Nat.repeat f k (Nat.repeat f j x) := by
  induction k with
  | zero => rfl
  | succ k ih => exact congrArg f ih

/-- The round bit and the sticky bit tell how twice the remainder compares with the last place. -/
theorem shiftRight_eq (n k : ℕ) :
    (⟨n, false, false⟩ : ExtendedMantissa) >>> k =
      ⟨n / 2 ^ k, decide (2 ^ k ≤ 2 * (n % 2 ^ k)),
        decide (n % 2 ^ k ≠ 0 ∧ 2 * (n % 2 ^ k) ≠ 2 ^ k)⟩ := by
  show Nat.repeat ExtendedMantissa.shiftRightOne k _ = _
  induction k with
  | zero => simp [Nat.repeat, Nat.mod_one]
  | succ k ih =>
      have hmod : n % 2 ^ (k + 1) = n % 2 ^ k + 2 ^ k * (n / 2 ^ k % 2) := Nat.mod_pow_succ
      have hdiv : n / 2 ^ (k + 1) = n / 2 ^ k / 2 := by rw [pow_succ, Nat.div_div_eq_div_mul]
      have hlt : n % 2 ^ k < 2 ^ k := Nat.mod_lt n (Nat.two_pow_pos k)
      rw [Nat.repeat, ih, ExtendedMantissa.shiftRightOne, hmod, hdiv, pow_succ']
      generalize n % 2 ^ k = r at hlt
      generalize n / 2 ^ k = q
      generalize 2 ^ k = p at hlt
      rw [ExtendedMantissa.mk.injEq, ← Bool.decide_or]
      refine ⟨rfl, ?_, ?_⟩
      · rcases Nat.mod_two_eq_zero_or_one q with hbit | hbit
        · simpa [hbit] using hlt
        · simp [hbit]
      · rw [decide_eq_decide]
        rcases Nat.mod_two_eq_zero_or_one q with hbit | hbit
        · rw [hbit]
          omega
        · rw [hbit]
          omega

/-- `n` rounded to a multiple of `2 ^ k`, as the factor. -/
def nearest (n k : ℕ) : ℕ := ((⟨n, false, false⟩ : ExtendedMantissa) >>> k).roundedMantissa

theorem nearest_eq (n k : ℕ) :
    nearest n k = n / 2 ^ k +
      if 2 * (n % 2 ^ k) < 2 ^ k then 0
      else if 2 * (n % 2 ^ k) = 2 ^ k then n / 2 ^ k % 2 else 1 := by
  have hpos := Nat.two_pow_pos k
  rw [nearest, shiftRight_eq]
  generalize n % 2 ^ k = r
  generalize n / 2 ^ k = q
  generalize 2 ^ k = p at hpos
  unfold ExtendedMantissa.roundedMantissa ExtendedMantissa.accuracy Accuracy.roundToNearestEven
  rcases Nat.lt_trichotomy (2 * r) p with hlt | heq | hgt
  · by_cases hr : r = 0 <;> simp [hlt, hr, Nat.not_le.2 hlt, hlt.ne, hpos.ne']
  · simp [← heq]
  · have hr : r ≠ 0 := by omega
    simp [hr, hgt.le, hgt.ne', Nat.not_lt.2 hgt.le]

theorem div_le_nearest (n k : ℕ) : n / 2 ^ k ≤ nearest n k := by
  rw [nearest_eq]
  exact Nat.le_add_right _ _

theorem nearest_le_div_add_one (n k : ℕ) : nearest n k ≤ n / 2 ^ k + 1 := by
  rw [nearest_eq]
  split
  · omega
  · split <;> omega

theorem nearest_mono {n n' : ℕ} (h : n ≤ n') (k : ℕ) : nearest n k ≤ nearest n' k := by
  rcases (Nat.div_le_div_right h : n / 2 ^ k ≤ n' / 2 ^ k).lt_or_eq with hlt | heq
  · have := nearest_le_div_add_one n k
    have := div_le_nearest n' k
    omega
  · have hrem : n % 2 ^ k ≤ n' % 2 ^ k := by
      have hn := Nat.div_add_mod n (2 ^ k)
      have hn' := Nat.div_add_mod n' (2 ^ k)
      rw [heq] at hn
      omega
    rw [nearest_eq, nearest_eq, heq]
    rcases Nat.lt_trichotomy (2 * (n % 2 ^ k)) (2 ^ k) with hlt | htie | hgt
    · rw [if_pos hlt]
      omega
    · rw [if_neg (by omega), if_pos htie, if_neg (by omega)]
      split <;> omega
    · rw [if_neg (by omega), if_neg (by omega), if_neg (by omega), if_neg (by omega)]

theorem nearest_zeros (m j k : ℕ) : nearest (m * 2 ^ j) (j + k) = nearest m k := by
  have hshift : (⟨m * 2 ^ j, false, false⟩ : ExtendedMantissa) >>> (j + k) =
      ((⟨m * 2 ^ j, false, false⟩ : ExtendedMantissa) >>> j) >>> k := repeat_add _ j k _
  rw [nearest, hshift, shiftRight_zeros, nearest]

theorem nearest_zero (m : ℕ) : nearest m 0 = m := rfl

/-! ## Rounding a number of quanta -/

/-- How many of the last bits of `n` quanta a float has no room for. -/
def spare (n : ℕ) : ℕ := n.log2 - 52

/-- The number of quanta to which `n` of them are rounded. -/
def rounded (n : ℕ) : ℕ := nearest n (spare n) * 2 ^ spare n

theorem nearest_spare_pos {n : ℕ} (hn : 0 < n) : 0 < nearest n (spare n) := by
  refine Nat.lt_of_lt_of_le ?_ (div_le_nearest n _)
  refine Nat.div_pos (le_trans ?_ (Nat.log2_self_le hn.ne')) (Nat.two_pow_pos _)
  exact Nat.pow_le_pow_right (by omega) (Nat.sub_le _ _)

theorem lt_two_pow_spare (n : ℕ) : n < 2 ^ (53 + spare n) := by
  refine Nat.lt_log2_self.trans_le (Nat.pow_le_pow_right (by omega) ?_)
  unfold spare
  omega

theorem two_pow_spare_le {n : ℕ} (h : 0 < spare n) : 2 ^ (52 + spare n) ≤ n := by
  unfold spare at h ⊢
  have hn : n ≠ 0 := by
    rintro rfl
    simp at h
  have hlog : 52 + (n.log2 - 52) = n.log2 := by omega
  rw [hlog]
  exact Nat.log2_self_le hn

theorem spare_mono {n n' : ℕ} (h : n ≤ n') : spare n ≤ spare n' := by
  unfold spare
  have : n.log2 ≤ n'.log2 := by
    rw [Nat.log2_eq_log_two, Nat.log2_eq_log_two]
    exact Nat.log_mono_right h
  omega

/-- Rounding stays below the next power of two, and so a longer number is rounded to a larger one. -/
theorem rounded_mono {n n' : ℕ} (h : n ≤ n') : rounded n ≤ rounded n' := by
  unfold rounded
  rcases (spare_mono h).eq_or_lt with heq | hlt
  · rw [← heq]
    exact Nat.mul_le_mul_right _ (nearest_mono h _)
  · have hupper : nearest n (spare n) ≤ 2 ^ 53 := by
      have := nearest_le_div_add_one n (spare n)
      have : n / 2 ^ spare n < 2 ^ 53 :=
        Nat.div_lt_of_lt_mul (by rw [← pow_add, Nat.add_comm]; exact lt_two_pow_spare n)
      omega
    have hlower : 2 ^ 52 ≤ nearest n' (spare n') := by
      refine le_trans ?_ (div_le_nearest n' _)
      rw [Nat.le_div_iff_mul_le (Nat.two_pow_pos _), ← pow_add]
      exact two_pow_spare_le (Nat.zero_lt_of_lt hlt)
    calc nearest n (spare n) * 2 ^ spare n ≤ 2 ^ 53 * 2 ^ spare n := Nat.mul_le_mul_right _ hupper
      _ = 2 ^ 52 * 2 ^ (spare n + 1) := by rw [← pow_add, ← pow_add]; congr 1; omega
      _ ≤ 2 ^ 52 * 2 ^ spare n' := Nat.mul_le_mul_left _ (Nat.pow_le_pow_right (by omega) hlt)
      _ ≤ nearest n' (spare n') * 2 ^ spare n' := Nat.mul_le_mul_right _ hlower

/-! ## What rounding answers -/

theorem targetExponent_eq (t : ℤ) : Format.binary64.targetExponent t = max (t - 53) (-1074) := rfl

theorem mantissa_shiftRight (em : ExtendedMantissa) (k : ℕ) :
    (em >>> k).mantissa = em.mantissa / 2 ^ k := by
  show (Nat.repeat ExtendedMantissa.shiftRightOne k em).mantissa = _
  induction k with
  | zero => simp [Nat.repeat]
  | succ k ih =>
      rw [Nat.repeat, ExtendedMantissa.shiftRightOne, ih, Nat.div_div_eq_div_mul, pow_succ]

theorem roundedMantissa_bounds (em : ExtendedMantissa) :
    em.mantissa ≤ em.roundedMantissa ∧ em.roundedMantissa ≤ em.mantissa + 1 := by
  rcases em with ⟨m, _ | _, _ | _⟩ <;>
    simp [ExtendedMantissa.roundedMantissa, ExtendedMantissa.accuracy, Accuracy.roundToNearestEven]
  omega

theorem mantissa_ofMantissaAndAccuracy (m : ℕ) (acc : Accuracy) :
    (ExtendedMantissa.ofMantissaAndAccuracy m acc).mantissa = m := by
  rcases acc with _ | (_ | _ | _) <;> rfl

/-- The mantissa that rounding to the exponent `t` makes of `m`. -/
def mantissaAt (m : ℕ) (e : ℤ) (acc : Accuracy) (t : ℤ) : ℕ :=
  (ExtendedMantissa.ofMantissaAndAccuracy m acc >>> (t - e).toNat).roundedMantissa

theorem mantissaAt_bounds (m : ℕ) (e : ℤ) (acc : Accuracy) (t : ℤ) :
    m / 2 ^ (t - e).toNat ≤ mantissaAt m e acc t ∧
      mantissaAt m e acc t ≤ m / 2 ^ (t - e).toNat + 1 := by
  have h := roundedMantissa_bounds
    (ExtendedMantissa.ofMantissaAndAccuracy m acc >>> (t - e).toNat)
  rwa [mantissa_shiftRight, mantissa_ofMantissaAndAccuracy] at h

/-- A mantissa that is rounded up to one bit too many ends in a zero, which is taken away. -/
theorem exists_canonical {n : ℕ} {t : ℤ} (hn : 0 < n) (ht : -1074 ≤ t) (hle : n ≤ 2 ^ 53)
    (hfull : 2 ^ 52 ≤ n ∨ t = -1074) :
    ∃ m j : ℕ, 0 < m ∧ n = m * 2 ^ j ∧
      Format.binary64.targetExponent (totalExponent m (t + j)) = t + j := by
  rcases hle.lt_or_eq with hlt | rfl
  · refine ⟨n, 0, hn, by simp, ?_⟩
    have hlog : n.log2 < 53 := (Nat.log2_lt hn.ne').2 hlt
    rw [targetExponent_eq, totalExponent]
    rcases hfull with hfull | rfl
    · have : 52 ≤ n.log2 := (Nat.le_log2 hn.ne').2 hfull
      omega
    · omega
  · refine ⟨2 ^ 52, 1, by norm_num, by norm_num, ?_⟩
    rw [targetExponent_eq, totalExponent, Nat.log2_two_pow]
    omega

theorem roundWithAccuracy_cases (s : Sign) {m : ℕ} {e : ℤ} (acc : Accuracy) {t : ℤ}
    (ht : Format.binary64.targetExponent (totalExponent m e) = t) (he : e ≤ t) :
    (mantissaAt m e acc t = 0 ∧ roundWithAccuracy .binary64 s m e acc = .zero s) ∨
    ∃ (m' j : ℕ) (hm : 0 < m'), mantissaAt m e acc t = m' * 2 ^ j ∧
      Format.binary64.targetExponent (totalExponent m' (t + j)) = t + j ∧
      roundWithAccuracy .binary64 s m e acc = .finite s m' (t + j) hm := by
  have hbounds := mantissaAt_bounds m e acc t
  have hfirst : shiftToTargetExponent .binary64 m e acc =
      (ExtendedMantissa.ofMantissaAndAccuracy m acc >>> (t - e).toNat, t) := by
    unfold shiftToTargetExponent shiftToExponent
    rw [ht]
    exact Prod.ext rfl (by simp; omega)
  have hmantissa : (ExtendedMantissa.ofMantissaAndAccuracy m acc >>> (t - e).toNat).roundedMantissa
      = mantissaAt m e acc t := rfl
  rw [targetExponent_eq, totalExponent] at ht
  rcases Nat.eq_zero_or_pos (mantissaAt m e acc t) with hzero | hpos
  · refine .inl ⟨hzero, ?_⟩
    have hsecond : (shiftToTargetExponent .binary64 0 t .exact).1.mantissa = 0 := by
      unfold shiftToTargetExponent shiftToExponent
      simp only [mantissa_shiftRight, mantissa_ofMantissaAndAccuracy, Nat.zero_div]
    unfold roundWithAccuracy
    simp only [hfirst, hmantissa, hzero]
    exact dif_pos hsecond
  · have hle : mantissaAt m e acc t ≤ 2 ^ 53 := by
      have hroom : m < 2 ^ ((t - e).toNat + 53) :=
        Nat.lt_log2_self.trans_le (Nat.pow_le_pow_right (by omega) (by omega))
      rw [pow_add] at hroom
      have := Nat.div_lt_of_lt_mul hroom
      omega
    have hfull : 2 ^ 52 ≤ mantissaAt m e acc t ∨ t = -1074 := by
      rcases eq_or_ne t (-1074) with hleast | hleast
      · exact .inr hleast
      · have hlog : m.log2 = 52 + (t - e).toNat := by omega
        have hm : m ≠ 0 := by
          rintro rfl
          rw [Nat.log2_zero] at hlog
          omega
        have hself := Nat.log2_self_le hm
        rw [hlog, pow_add] at hself
        exact .inl (((Nat.le_div_iff_mul_le (Nat.two_pow_pos _)).2 hself).trans hbounds.1)
    obtain ⟨m', j, hm', heq, hcanonical⟩ := exists_canonical hpos (by omega) hle hfull
    refine .inr ⟨m', j, hm', heq, hcanonical, ?_⟩
    have hsecond := shiftToTargetExponent_zeros hm' hcanonical j
    rw [add_sub_cancel_right, ← heq] at hsecond
    unfold roundWithAccuracy
    simp only [hfirst, hmantissa, hsecond]
    exact dif_neg hm'.ne'

/-! ## Magnitudes -/

/-- How many of the least positive floats a mantissa and an exponent come to. -/
def quanta (m : ℕ) (e : ℤ) : ℕ := m * 2 ^ (e + 1074).toNat

theorem log2_mul_two_pow {m : ℕ} (hm : 0 < m) (j : ℕ) : (m * 2 ^ j).log2 = m.log2 + j := by
  have h := totalExponent_zeros hm 0 j
  unfold totalExponent at h
  omega

theorem spare_quanta {m : ℕ} {e : ℤ} (hm : 0 < m) (he : -1074 ≤ e) :
    Format.binary64.targetExponent (totalExponent m e) = (spare (quanta m e) : ℤ) - 1074 := by
  rw [targetExponent_eq, totalExponent, spare, quanta, log2_mul_two_pow hm]
  omega

theorem rounded_quanta {m : ℕ} {e : ℤ} (hm : 0 < m)
    (hcanonical : Format.binary64.targetExponent (totalExponent m e) = e) :
    rounded (quanta m e) = quanta m e := by
  have he : -1074 ≤ e := by
    rw [targetExponent_eq] at hcanonical
    omega
  have hspare := spare_quanta hm he
  have hspare : spare (quanta m e) = (e + 1074).toNat := by omega
  rw [rounded, hspare, quanta]
  have := nearest_zeros m (e + 1074).toNat 0
  rw [Nat.add_zero, nearest_zero] at this
  rw [this]

/-- Rounding a number of quanta gives a canonical value of the rounded number. -/
theorem round_cases (s : Sign) {m : ℕ} {e : ℤ} (hm : 0 < m) (he : -1074 ≤ e) :
    ∃ (m' : ℕ) (e' : ℤ) (hm' : 0 < m'), UnpackedFloat.round .binary64 s m e = .finite s m' e' hm' ∧
      Format.binary64.targetExponent (totalExponent m' e') = e' ∧
      quanta m' e' = rounded (quanta m e) := by
  have hspare := spare_quanta hm he
  generalize ht : Format.binary64.targetExponent (totalExponent m e) = t at hspare
  -- a mantissa that is too short for its exponent is made longer first
  obtain ⟨d, hd⟩ : ∃ d : ℕ, d = (e - t).toNat := ⟨_, rfl⟩
  have hsame : totalExponent (m * 2 ^ d) (e - d) = totalExponent m e := totalExponent_zeros hm e d
  have hround : UnpackedFloat.round .binary64 s m e =
      roundWithAccuracy .binary64 s (m * 2 ^ d) (e - d) .exact := by
    unfold UnpackedFloat.round decreaseExponent
    simp only [ht, ← hd, Nat.shiftLeft_eq]
  have hmantissa : mantissaAt (m * 2 ^ d) (e - d) .exact t =
      nearest (quanta m e) (spare (quanta m e)) := by
    have hquanta : quanta m e = m * 2 ^ d * 2 ^ (e - d + 1074).toNat := by
      rw [quanta, mul_assoc, ← pow_add]
      congr 2
      omega
    have hshift : spare (quanta m e) = (e - d + 1074).toNat + (t - (e - d)).toNat := by omega
    rw [hshift, hquanta, nearest_zeros]
    rfl
  have hpos : 0 < quanta m e := Nat.mul_pos hm (Nat.two_pow_pos _)
  rw [hround]
  rcases roundWithAccuracy_cases s .exact (hsame ▸ ht) (show e - d ≤ t by omega) with
    ⟨hzero, -⟩ | ⟨m', j, hm', hsplit, hcanonical, hfinite⟩
  · rw [hmantissa] at hzero
    exact absurd hzero (nearest_spare_pos hpos).ne'
  · refine ⟨m', t + j, hm', hfinite, hcanonical, ?_⟩
    have hexponent : (t + j + 1074).toNat = j + spare (quanta m e) := by omega
    rw [rounded, ← hmantissa, hsplit, quanta, hexponent, pow_add, mul_assoc]

theorem quanta_pos {m : ℕ} (hm : 0 < m) (e : ℤ) : 0 < quanta m e :=
  Nat.mul_pos hm (Nat.two_pow_pos _)

theorem quanta_lt_of_lt {m m' : ℕ} {e e' : ℤ} (hm' : 0 < m')
    (h : Format.binary64.targetExponent (totalExponent m e) = e)
    (h' : Format.binary64.targetExponent (totalExponent m' e') = e') (hlt : e < e') :
    quanta m e < quanta m' e' := by
  rw [targetExponent_eq, totalExponent] at h h'
  have hroom : m < 2 ^ 53 :=
    Nat.lt_log2_self.trans_le (Nat.pow_le_pow_right (by omega) (by omega))
  have hfull : 2 ^ 52 ≤ m' := (Nat.le_log2 hm'.ne').1 (by omega)
  calc quanta m e < 2 ^ 53 * 2 ^ (e + 1074).toNat := Nat.mul_lt_mul_of_pos_right hroom (by positivity)
    _ = 2 ^ 52 * 2 ^ ((e + 1074).toNat + 1) := by rw [← pow_add, ← pow_add]; congr 1; omega
    _ ≤ 2 ^ 52 * 2 ^ (e' + 1074).toNat :=
        Nat.mul_le_mul_left _ (Nat.pow_le_pow_right (by omega) (by omega))
    _ ≤ quanta m' e' := Nat.mul_le_mul_right _ hfull

/-- The order of canonical values is that of the numbers of quanta. -/
theorem quanta_lt_iff {m m' : ℕ} {e e' : ℤ} (hm : 0 < m) (hm' : 0 < m')
    (h : Format.binary64.targetExponent (totalExponent m e) = e)
    (h' : Format.binary64.targetExponent (totalExponent m' e') = e') :
    quanta m e < quanta m' e' ↔ e < e' ∨ e = e' ∧ m < m' := by
  rcases lt_trichotomy e e' with hlt | rfl | hgt
  · simp [quanta_lt_of_lt hm' h h' hlt, hlt]
  · simp [quanta]
  · have := quanta_lt_of_lt hm h' h hgt
    constructor
    · intro hlt
      omega
    · rintro (hlt | ⟨rfl, -⟩)
      · omega
      · exact absurd hgt (lt_irrefl e)

/-- Whether a value is a number that is not below zero. -/
def isNonneg : UnpackedFloat → Bool
  | .infinity .positive => true
  | .finite .positive .. => true
  | .zero _ => true
  | _ => false

/-- How many quanta a value comes to, its sign aside. -/
def magnitude : UnpackedFloat → WithTop ℕ
  | .infinity _ => ⊤
  | .finite _ m e _ => quanta m e
  | _ => 0

variable {u v : UnpackedFloat}

theorem rank_lt_iff (hu : isNonneg u = true) (hv : isNonneg v = true)
    (hcu : Canonical .binary64 u) (hcv : Canonical .binary64 v) :
    rank u < rank v ↔ magnitude u < magnitude v := by
  rcases u with (_ | _) | _ | _ | ⟨_ | _, m, e, hm⟩ <;>
    rcases v with (_ | _) | _ | _ | ⟨_ | _, n, k, hn⟩ <;>
      simp [isNonneg] at hu hv
  case finite.positive.finite.positive =>
    rw [magnitude, magnitude, Nat.cast_withTop, Nat.cast_withTop, WithTop.coe_lt_coe,
      quanta_lt_iff hm hn hcu hcv]
    simp [rank, Prod.Lex.toLex_lt_toLex]
  all_goals
    simp [rank, magnitude, Prod.Lex.toLex_lt_toLex]
  exact quanta_pos hn k

/-! ## Sums -/

theorem magnitude_finite (s : Sign) (m : ℕ) (e : ℤ) (hm : 0 < m) :
    magnitude (.finite s m e hm) = ((quanta m e : ℕ) : WithTop ℕ) := rfl

theorem map_rounded_magnitude (hc : Canonical .binary64 u) :
    (magnitude u).map rounded = magnitude u := by
  rcases u with s | _ | s | ⟨s, m, e, hm⟩
  case finite => exact congrArg _ (rounded_quanta hm hc)
  all_goals rfl

/-- Two values that are written with the smaller of their exponents come to what they came to. -/
theorem quanta_decreaseExponent {m n : ℕ} {e k : ℤ} (he : -1074 ≤ e) (hk : -1074 ≤ k) :
    quanta ((decreaseExponent m e (min e k)).1 + (decreaseExponent n k (min e k)).1) (min e k) =
      quanta m e + quanta n k := by
  have hleft : (e + 1074).toNat = (e - min e k).toNat + (min e k + 1074).toNat := by omega
  have hright : (k + 1074).toNat = (k - min e k).toNat + (min e k + 1074).toNat := by omega
  simp only [quanta, decreaseExponent, Nat.shiftLeft_eq]
  rw [hleft, hright, pow_add, pow_add, ← mul_assoc, ← mul_assoc, add_mul]

theorem exponent_ge {s : Sign} {m : ℕ} {e : ℤ} {hm : 0 < m}
    (h : Canonical .binary64 (.finite s m e hm)) : -1074 ≤ e := by
  rw [Canonical, targetExponent_eq] at h
  omega

theorem normalize_natCast {z : ℕ} (hz : 0 < z) (e : ℤ) (s : Sign) :
    UnpackedFloat.normalize .binary64 z e s = UnpackedFloat.round .binary64 .positive z e := by
  have hgt : compare (z : ℤ) 0 = .gt := Int.compare_eq_gt.2 (by exact_mod_cast hz)
  unfold UnpackedFloat.normalize
  rw [hgt, Int.toNat_natCast]

/-- A sum of values that are not below zero is the rounded sum. -/
theorem magnitude_add (hu : isNonneg u = true) (hv : isNonneg v = true)
    (hcu : Canonical .binary64 u) (hcv : Canonical .binary64 v) :
    isNonneg (add .binary64 u v) = true ∧ Canonical .binary64 (add .binary64 u v) ∧
      magnitude (add .binary64 u v) = (magnitude u + magnitude v).map rounded := by
  rcases u with (_ | _) | _ | s | ⟨_ | _, m, e, hm⟩ <;>
    rcases v with (_ | _) | _ | s' | ⟨_ | _, n, k, hn⟩ <;> try cases hu <;> try cases hv
  case finite.positive.finite.positive =>
    have hpos : 0 < (decreaseExponent m e (min e k)).1 + (decreaseExponent n k (min e k)).1 := by
      have := (decreaseExponent n k (min e k)).1.zero_le
      rw [decreaseExponent, Nat.shiftLeft_eq]
      exact Nat.add_pos_left (Nat.mul_pos hm (Nat.two_pow_pos _)) _
    have hsum : add .binary64 (.finite .positive m e hm) (.finite .positive n k hn) =
        UnpackedFloat.round .binary64 .positive
          ((decreaseExponent m e (min e k)).1 + (decreaseExponent n k (min e k)).1) (min e k) := by
      rw [← normalize_natCast hpos _ .positive, Nat.cast_add]
      rfl
    have he := exponent_ge hcu
    have hk := exponent_ge hcv
    obtain ⟨m', e', hm', hround, hcanonical, hquanta⟩ :=
      round_cases .positive hpos (show -1074 ≤ min e k by omega)
    rw [hsum, hround]
    refine ⟨rfl, hcanonical, ?_⟩
    rw [magnitude_finite, hquanta, quanta_decreaseExponent he hk]
    rfl
  case zero.zero =>
    cases s <;> cases s' <;> exact ⟨rfl, trivial, rfl⟩
  case zero.finite.positive =>
    refine ⟨rfl, hcv, ?_⟩
    exact ((map_rounded_magnitude hcv).symm.trans (congrArg _ (zero_add _).symm))
  case finite.positive.zero =>
    refine ⟨rfl, hcu, ?_⟩
    exact ((map_rounded_magnitude hcu).symm.trans (congrArg _ (add_zero _).symm))
  all_goals exact ⟨rfl, trivial, rfl⟩

/-! ## Packing -/

/-- The quanta from which on a value has no place among the finite floats. -/
def limit : ℕ := quanta (2 ^ 52) 972

theorem limit_le_iff {m : ℕ} {e : ℤ} (hm : 0 < m)
    (h : Format.binary64.targetExponent (totalExponent m e) = e) :
    limit ≤ quanta m e ↔ 972 ≤ e := by
  have hlimit : Format.binary64.targetExponent (totalExponent (2 ^ 52) 972) = 972 := by
    rw [targetExponent_eq, totalExponent, Nat.log2_two_pow]
    norm_num
  rw [limit, ← not_lt, quanta_lt_iff hm (Nat.two_pow_pos 52) h hlimit]
  rw [targetExponent_eq, totalExponent] at h
  have hfull (he : 972 ≤ e) : 2 ^ 52 ≤ m := (Nat.le_log2 hm.ne').1 (by omega)
  constructor
  · intro hge
    omega
  · intro he
    have := hfull he
    omega

theorem unpack_normal (s : Sign) {e : BitVec 11} {m : BitVec 52} (hinf : e ≠ -1#11)
    (hzero : e ≠ 0#11) {m' : ℕ} {e' : ℤ} (hm : 0 < m') (hmantissa : 2 ^ 52 + m.toNat = m')
    (hexponent : (e.toNat : ℤ) - 1075 = e') :
    unpack .binary64 (packComponents .binary64 s e m) = .finite s m' e' hm := by
  subst hmantissa hexponent
  unfold unpack
  simp only [unpackMantissa_packComponents, unpackExponent_packComponents,
    unpackSign_packComponents, Sign.ofBitVec_toBitVec]
  rw [if_neg hinf, if_neg hzero]
  simp only [toNat_implicit_append]
  rfl

theorem unpack_subnormal (s : Sign) {m : BitVec 52} {m' : ℕ} (hm : 0 < m')
    (hmantissa : m.toNat = m') :
    unpack .binary64 (packComponents .binary64 s 0#11 m) = .finite s m' (-1074) hm := by
  subst hmantissa
  have hne : m ≠ 0#52 := by
    rintro rfl
    exact absurd hm (lt_irrefl 0)
  unfold unpack
  simp only [unpackMantissa_packComponents, unpackExponent_packComponents,
    unpackSign_packComponents, Sign.ofBitVec_toBitVec]
  rw [if_neg (by decide), if_pos trivial, dif_neg hne]
  rfl

theorem pack_finite (s : Sign) {m : ℕ} (e : ℤ) (hm : 0 < m) :
    pack .binary64 (.finite s m e hm) =
      if 2 ^ 11 ≤ (e + 1023 + 52).toNat + 1 then packedInfinity .binary64 s
      else if m.log2 + 1 = 53 then
        packComponents .binary64 s (BitVec.ofNat 11 (e + 1023 + 52).toNat) (BitVec.ofNat 52 m)
      else packComponents .binary64 s 0#11 (BitVec.ofNat 52 m) := rfl

theorem unpack_packedInfinity (s : Sign) :
    unpack .binary64 (packedInfinity .binary64 s) = .infinity s := by
  cases s <;> rfl

/-- A canonical value is packed as it is, or as the infinity where it has no place. -/
theorem unpack_pack {m : ℕ} {e : ℤ} (s : Sign) (hm : 0 < m)
    (h : Format.binary64.targetExponent (totalExponent m e) = e) :
    unpack .binary64 (pack .binary64 (.finite s m e hm)) =
      if 972 ≤ e then .infinity s else .finite s m e hm := by
  rw [targetExponent_eq, totalExponent] at h
  have hroom : m < 2 ^ 53 :=
    Nat.lt_log2_self.trans_le (Nat.pow_le_pow_right (by omega) (by omega))
  rw [pack_finite]
  rcases lt_or_ge e 972 with hsmall | hlarge
  · have hfits : ¬ 2 ^ 11 ≤ (e + 1023 + 52).toNat + 1 := by omega
    rw [if_neg hfits, if_neg hsmall.not_ge]
    rcases eq_or_ne (m.log2 + 1) 53 with hfull | hshort
    · rw [if_pos hfull]
      have hleast : 2 ^ 52 ≤ m := (Nat.le_log2 hm.ne').1 (by omega)
      have hbiased : (BitVec.ofNat 11 (e + 1023 + 52).toNat).toNat = (e + 1023 + 52).toNat := by
        rw [BitVec.toNat_ofNat]
        omega
      refine unpack_normal s ?_ ?_ hm ?_ ?_
      · intro heq
        have := congrArg BitVec.toNat heq
        rw [hbiased] at this
        change _ = 2047 at this
        omega
      · intro heq
        have := congrArg BitVec.toNat heq
        rw [hbiased] at this
        change _ = 0 at this
        omega
      · rw [BitVec.toNat_ofNat]
        omega
      · rw [hbiased]
        omega
    · rw [if_neg hshort]
      have hlog : m < 2 ^ 52 := (Nat.log2_lt hm.ne').1 (by omega)
      obtain rfl : e = -1074 := by omega
      refine unpack_subnormal s hm ?_
      rw [BitVec.toNat_ofNat]
      omega
  · have hover : 2 ^ 11 ≤ (e + 1023 + 52).toNat + 1 := by omega
    rw [if_pos hover, if_pos hlarge, unpack_packedInfinity]

end ResourceSelection.Binary64
