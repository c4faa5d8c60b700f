import JsonEdit.Proofs.Decimal.Rounding

/-!
# Scaling stays in range

`exists_scaled`: `m * 10 ^ e` is computed in rounded steps, and no step is too large for a float as
long as the number itself, enlarged by a few roundings, is below `2 ^ 1024`.
-/

namespace JsonEdit.Decimal

open Float.Model
open Float.Model.UnpackedFloat

/-! ## Natural numbers and powers of ten -/

/-- The exact way to `m * 10 ^ k`, with one rounding at its end. -/
theorem bounded_ofScientific {m k : Nat} (hm : 0 < m) (hk : k ≤ maxStep) :
    Bounded (m * 10 ^ k * growth) (UnpackedFloat.ofScientific Format.binary64 m k) := by
  have hmax : maxStep = 308 := rfl
  have hround : UnpackedFloat.ofScientific Format.binary64 m k =
      roundWithAccuracy Format.binary64 .positive ((m <<< 53) * 10 ^ k) (-53) .exact := by
    have hsmall : ¬ (k : Int) > 2 ^ Format.binary64.exponentBits := by
      show ¬ (k : Int) > 2 ^ 11
      omega
    have hlarge : ¬ (k : Int) < -((2 ^ Format.binary64.exponentBits : Int) + m.log2) := by
      show ¬ (k : Int) < -(2 ^ 11 + (m.log2 : Int))
      omega
    unfold UnpackedFloat.ofScientific
    rw [dif_neg hm.ne', if_neg hsmall, if_neg hlarge, if_pos (Int.natCast_nonneg k)]
    rfl
  have hpow : 0 < 10 ^ k := Nat.pow_pos (by decide)
  have hlog : 53 ≤ ((m <<< 53) * 10 ^ k).log2 := by
    rw [Nat.shiftLeft_eq]
    refine (Nat.le_log2 (by positivity)).2 ?_
    calc 2 ^ 53 = 1 * 2 ^ 53 * 1 := by norm_num
      _ ≤ m * 2 ^ 53 * 10 ^ k := by gcongr <;> omega
  rw [hround]
  refine (bounded_roundWithAccuracy (by omega) (by omega)).mono ?_
  have hvalue : (((m <<< 53) * 10 ^ k : Nat) : ℚ) * 2 ^ (-53 : Int) = m * 10 ^ k := by
    rw [Nat.shiftLeft_eq]
    push_cast
    rw [zpow_neg]
    field_simp
    norm_num
  rw [hvalue]

theorem bounded_round {m : Nat} (hm : 0 < m) (hlt : m < 2 ^ 53) :
    Bounded (m * growth) (UnpackedFloat.round Format.binary64 .positive m 0) := by
  obtain ⟨k, hk⟩ : ∃ k, m.log2 + k = 52 := by
    have := (Nat.log2_lt hm.ne').2 hlt
    exact ⟨52 - m.log2, by omega⟩
  have htarget : Format.binary64.targetExponent (totalExponent m 0) = -k := by
    show max ((m.log2 : Int) + 1 + 0 - 53) (-1022 - 52) = -k
    omega
  have hshift : decreaseExponent m 0 (-k) = (m <<< k, -(k : Int)) := by
    unfold decreaseExponent
    simp
  have hlog : 52 ≤ (m <<< k).log2 := by
    rw [Nat.shiftLeft_eq]
    refine (Nat.le_log2 (by positivity)).2 ?_
    rw [← hk, Nat.pow_add]
    exact Nat.mul_le_mul_right _ (Nat.log2_self_le hm.ne')
  unfold UnpackedFloat.round
  rw [htarget]
  dsimp only
  rw [hshift]
  refine (bounded_roundWithAccuracy hlog (by omega)).mono ?_
  have hvalue : ((m <<< k : Nat) : ℚ) * 2 ^ (-k : Int) = m := by
    rw [Nat.shiftLeft_eq, zpow_neg, zpow_natCast]
    push_cast
    field_simp
  rw [hvalue]

/-- Powers of ten up to this one are floats themselves. -/
def exactSteps : Nat := 22

/-- `u` is `10 ^ k`, digit for digit. -/
def isTenPower (k : Nat) : UnpackedFloat → Bool
  | .finite .positive m e _ =>
    2 ^ 52 ≤ m && m < 2 ^ 53 && -52 ≤ e && m * 2 ^ e.toNat = 10 ^ k * 2 ^ (-e).toNat
  | _ => false

theorem isTenPower_tenPower : ∀ k ≤ exactSteps, isTenPower k (tenPower k).toModel.unpack := by
  decide +kernel

theorem bounded_of_isTenPower {k : Nat} {u : UnpackedFloat} (h : isTenPower k u = true) :
    Bounded (10 ^ k) u := by
  rcases u with _ | _ | _ | ⟨_ | _, m, e, hpos⟩
  · cases h
  · cases h
  · cases h
  · cases h
  · unfold isTenPower at h
    simp only [Bool.and_eq_true, decide_eq_true_eq] at h
    obtain ⟨⟨⟨hlow, hhigh⟩, he⟩, hvalue⟩ := h
    refine .finite hpos hlow hhigh he (le_of_eq ?_)
    have hcast : (m : ℚ) * 2 ^ e.toNat = 10 ^ k * 2 ^ (-e).toNat := by exact_mod_cast hvalue
    rw [zpow_eq_div two_ne_zero, ← mul_div_assoc, hcast, mul_div_cancel_right₀ _ (by positivity)]

theorem pow_maxStep_lt : (10 : ℚ) ^ maxStep * growth < 2 ^ 1024 := by
  have hnat : 10 ^ maxStep * (2 ^ 52 + 1) < 2 ^ 1024 * 2 ^ 52 := by decide +kernel
  have hcast : (10 : ℚ) ^ maxStep * (2 ^ 52 + 1) < 2 ^ 1024 * 2 ^ 52 := by exact_mod_cast hnat
  have hgrowth : growth = (2 ^ 52 + 1) / 2 ^ 52 := by
    unfold growth
    norm_num
  rwa [hgrowth, ← mul_div_assoc, div_lt_iff₀ (by positivity)]

theorem isBounded_tenPower {k : Nat} (hk : k ≤ maxStep) :
    IsBounded (10 ^ k * growth) (tenPower k) := by
  by_cases hexact : k ≤ exactSteps
  · have hpow := bounded_of_isTenPower (isTenPower_tenPower k hexact)
    refine hpow.mono (le_mul_of_one_le_right (by positivity) one_le_growth)
  · have hmodel : tenPower k = .ofModel (Float.Model.pack
        (UnpackedFloat.ofScientific Format.binary64 1 k)) := by
      have hslow : ¬ (1 < 2 ^ 53 ∧ k ≤ 22) := fun h => hexact h.2
      unfold tenPower Float.ofScientific
      rw [dif_neg hslow]
      rfl
    rw [hmodel]
    have hbounded := bounded_ofScientific (m := 1) Nat.one_pos hk
    rw [Nat.cast_one, one_mul] at hbounded
    refine hbounded.isBounded ?_
    have hpow : (10 : ℚ) ^ k ≤ 10 ^ maxStep := pow_le_pow_right₀ (by norm_num) hk
    exact (mul_le_mul_of_nonneg_right hpow growth_nonneg).trans_lt pow_maxStep_lt

theorem isBounded_one :
    IsBounded 1 (getElem Float.exactlyRepresentablePowersOfTen 0 (by decide)) := by
  have hone : (getElem Float.exactlyRepresentablePowersOfTen 0 (by decide)).toModel.unpack =
      .finite .positive (2 ^ 52) (-52) (by decide) := rfl
  unfold IsBounded
  rw [hone]
  exact .finite _ (by decide) (by decide) (by decide) (by norm_num)

theorem mul_growth_le_two_pow {q : ℚ} {n : Nat} (h : q ≤ 2 ^ n) : q * growth ≤ 2 ^ (n + 1) := by
  have hgrowth : growth ≤ 2 := by
    unfold growth
    norm_num
  rw [pow_succ]
  exact mul_le_mul h hgrowth growth_nonneg (by positivity)

theorem two_pow_lt {n : Nat} (h : n < 1024) : (2 : ℚ) ^ n < 2 ^ 1024 :=
  pow_lt_pow_right₀ one_lt_two h

theorem isBounded_toFloat {m : Nat} (hm : 0 < m) (hlt : m < 2 ^ 53) :
    IsBounded (m * growth) m.toUInt64.toFloat := by
  have hmodel : m.toUInt64.toFloat = .ofModel (Float.Model.pack
      (UnpackedFloat.round Format.binary64 .positive m 0)) := by
    have hvalue : m.toUInt64.toNat = m := Nat.mod_eq_of_lt (by omega)
    have hsign : compare (m : Int) 0 = .gt := Int.compare_eq_gt.2 (by omega)
    show Float.ofModel (Float.Model.pack
      (UnpackedFloat.normalize Format.binary64 m.toUInt64.toNat 0 .positive)) = _
    unfold UnpackedFloat.normalize
    rw [hvalue, hsign]
    rfl
  have hcast : (m : ℚ) ≤ 2 ^ 53 := by exact_mod_cast hlt.le
  rw [hmodel]
  exact (bounded_round hm hlt).isBounded
    ((mul_growth_le_two_pow hcast).trans_lt (two_pow_lt (by norm_num)))

/-- Small numbers are converted and multiplied by one, large ones are scaled by the exact way. -/
theorem isBounded_floatOfNat {m : Nat} (hm : 0 < m) (hlt : m < 2 ^ 64) :
    IsBounded (m * growth * growth) (floatOfNat m) := by
  have hcast : (m : ℚ) ≤ 2 ^ 64 := by exact_mod_cast hlt.le
  have hgrown := mul_growth_le_two_pow hcast
  have hrange := (mul_growth_le_two_pow hgrown).trans_lt (two_pow_lt (by norm_num))
  by_cases hfast : m < 2 ^ 53
  · have hfloat : floatOfNat m =
        m.toUInt64.toFloat * getElem Float.exactlyRepresentablePowersOfTen 0 (by decide) := by
      unfold floatOfNat Float.ofScientific
      rw [dif_pos ⟨hfast, Nat.zero_le _⟩]
      rfl
    have hmul := (isBounded_toFloat hm hfast).mul isBounded_one (by rwa [mul_one])
    rw [mul_one] at hmul
    rwa [hfloat]
  · have hfloat : floatOfNat m = .ofModel (Float.Model.pack
        (UnpackedFloat.ofScientific Format.binary64 m (0 : Nat))) := by
      unfold floatOfNat Float.ofScientific
      rw [dif_neg fun h => hfast h.1]
      rfl
    have hbounded := bounded_ofScientific hm (Nat.zero_le maxStep)
    rw [pow_zero, mul_one] at hbounded
    rw [hfloat]
    have hnonneg : 0 ≤ m * growth := mul_nonneg (Nat.cast_nonneg m) growth_nonneg
    exact (hbounded.mono (le_mul_of_one_le_right hnonneg one_le_growth)).isBounded hrange

/-! ## Scaling -/

theorem isInf_floatOfNat_zero_mul {y : Float} {q : ℚ} (hy : IsBounded q y) :
    (floatOfNat 0 * y).isInf = false := by
  have hzero : (floatOfNat 0).toModel.unpack = .zero .positive := rfl
  have hmul : floatOfNat 0 * y = .ofModel (Float.Model.pack
      (UnpackedFloat.mul Format.binary64 (floatOfNat 0).toModel.unpack y.toModel.unpack)) := rfl
  rw [hmul, hzero]
  unfold IsBounded at hy
  generalize y.toModel.unpack = u at hy ⊢
  cases hy with
  | @finite n e hpos hlow hhigh he hq =>
    have hproduct : UnpackedFloat.mul Format.binary64 (.zero .positive)
        (.finite .positive n e hpos) = .zero .positive := rfl
    rw [hproduct]
    decide

theorem two_pow_lt_ten_pow {k : Nat} (hk : maxStep < k) : (2 : ℚ) ^ 1024 < 10 ^ k := by
  have hnat : 2 ^ 1024 < 10 ^ (maxStep + 1) := by decide +kernel
  have hcast : (2 : ℚ) ^ 1024 < 10 ^ (maxStep + 1) := by exact_mod_cast hnat
  exact hcast.trans_le (pow_le_pow_right₀ (by norm_num) hk)

/-- Nothing is too large to be scaled that stays below `2 ^ 1024` while it grows four times. -/
theorem exists_scaled {m : Nat} {e : Int} (hm : m < 2 ^ 64)
    (hrange : (m : ℚ) * 10 ^ e * growth ^ 4 < 2 ^ 1024) : ∃ x, scaled m e = some x := by
  rcases e with k | k
  · rw [scaled]
    by_cases hk : k ≤ maxStep
    · rw [if_pos hk]
      have hpow := isBounded_tenPower hk
      have hfinite : (floatOfNat m * tenPower k).isInf = false := by
        rcases Nat.eq_zero_or_pos m with rfl | hpos
        · exact isInf_floatOfNat_zero_mul hpow
        · refine ((isBounded_floatOfNat hpos hm).mul hpow ?_).isInf
          calc (m : ℚ) * growth * growth * (10 ^ k * growth) * growth
              = m * 10 ^ (Int.ofNat k) * growth ^ 4 := by
                rw [Int.ofNat_eq_natCast, zpow_natCast]
                ring
            _ < 2 ^ 1024 := hrange
      dsimp only
      rw [hfinite]
      exact ⟨_, rfl⟩
    · rw [if_neg hk]
      rcases Nat.eq_zero_or_pos m with rfl | hpos
      · exact ⟨_, rfl⟩
      · have hone : (1 : ℚ) ≤ m := by exact_mod_cast hpos
        have hgrowth : 1 ≤ growth ^ 4 := one_le_pow₀ one_le_growth
        have hlarge : (10 : ℚ) ^ k ≤ m * 10 ^ (Int.ofNat k) * growth ^ 4 := by
          rw [Int.ofNat_eq_natCast, zpow_natCast]
          calc (10 : ℚ) ^ k = 1 * 10 ^ k * 1 := by ring
            _ ≤ m * 10 ^ k * growth ^ 4 := by gcongr
        exact absurd ((two_pow_lt_ten_pow (by omega)).trans_le hlarge) hrange.not_gt
  · exact ⟨_, rfl⟩

end JsonEdit.Decimal
