import JsonEdit.Decimal.Scaled
import Mathlib.Algebra.Order.Field.Power
import Mathlib.Algebra.Order.Field.Rat
import Mathlib.Data.Rat.Cast.Order
import Mathlib.Tactic.FieldSimp
import Mathlib.Tactic.Linarith
import Mathlib.Tactic.NormNum
import Mathlib.Tactic.Positivity
import Mathlib.Tactic.Ring

/-!
# How far rounding may go

Floats of the logic are packed from a significand and an exponent, and every operation rounds its
exact result to 53 binary digits. `Bounded q u` says that `u` has these digits, is at least one and
at most `q`. Rounding enlarges a bound by the factor `growth` at most, and below `2 ^ 1024` packing
loses nothing.
-/

namespace JsonEdit.Decimal

open Float.Model
open Float.Model.UnpackedFloat

/-- The factor by which one rounding may enlarge a number that is at least one. -/
def growth : ℚ :=
  1 + 1 / 2 ^ 52

theorem one_le_growth : 1 ≤ growth := by
  unfold growth
  norm_num

theorem growth_nonneg : 0 ≤ growth :=
  zero_le_one.trans one_le_growth

/-- A positive float with all its 53 digits, at least one and at most `q`. -/
inductive Bounded (q : ℚ) : UnpackedFloat → Prop where
  | finite {m : Nat} {e : Int} (hpos : 0 < m) (hlow : 2 ^ 52 ≤ m) (hhigh : m < 2 ^ 53)
    (he : -52 ≤ e) (hq : (m : ℚ) * 2 ^ e ≤ q) : Bounded q (.finite .positive m e hpos)

theorem Bounded.mono {q r : ℚ} {u : UnpackedFloat} (h : Bounded q u) (hqr : q ≤ r) :
    Bounded r u := by
  cases h with
  | finite hpos hlow hhigh he hq => exact .finite hpos hlow hhigh he (hq.trans hqr)

/-! ## Shifting -/

theorem mantissa_shiftRight (em : ExtendedMantissa) (k : Nat) :
    (em >>> k).mantissa = em.mantissa / 2 ^ k := by
  induction k with
  | zero => exact (Nat.div_one _).symm
  | succ k ih =>
    show (em >>> k).mantissa / 2 = em.mantissa / 2 ^ (k + 1)
    rw [ih, Nat.div_div_eq_div_mul, ← Nat.pow_succ]

theorem roundedMantissa_bounds (em : ExtendedMantissa) :
    em.mantissa ≤ em.roundedMantissa ∧ em.roundedMantissa ≤ em.mantissa + 1 := by
  rcases em with ⟨m, round, sticky⟩
  have hmod : m % 2 < 2 := Nat.mod_lt m (by decide)
  cases round <;> cases sticky <;>
    simp only [ExtendedMantissa.roundedMantissa, ExtendedMantissa.accuracy,
      Accuracy.roundToNearestEven] <;> omega

theorem mantissa_ofMantissaAndAccuracy (m : Nat) (a : Accuracy) :
    (ExtendedMantissa.ofMantissaAndAccuracy m a).mantissa = m := by
  rcases a with _ | (_ | _ | _) <;> rfl

/-- A number of at least 53 digits that is not below one is cut to 53 digits. -/
theorem shiftToTargetExponent_eq {m : Nat} {e : Int} (a : Accuracy) (hm : 52 ≤ m.log2)
    (he : 0 ≤ m.log2 + e) :
    shiftToTargetExponent Format.binary64 m e a =
      (ExtendedMantissa.ofMantissaAndAccuracy m a >>> (m.log2 - 52), m.log2 + e - 52) := by
  have htarget : Format.binary64.targetExponent (totalExponent m e) = m.log2 + e - 52 := by
    show max (m.log2 + 1 + e - 53) (-1022 - 52) = m.log2 + e - 52
    omega
  have hshift : (Format.binary64.targetExponent (totalExponent m e) - e).toNat = m.log2 - 52 := by
    omega
  unfold shiftToTargetExponent shiftToExponent
  dsimp only
  rw [hshift]
  congr 1
  omega

theorem ne_zero_of_le_log2 {m n : Nat} (h : n + 1 ≤ m.log2) : m ≠ 0 := by
  rintro rfl
  simp at h

theorem cut_bounds {m : Nat} (hm : 52 ≤ m.log2) :
    2 ^ 52 ≤ m / 2 ^ (m.log2 - 52) ∧ m / 2 ^ (m.log2 - 52) < 2 ^ 53 := by
  have hpos : 0 < 2 ^ (m.log2 - 52) := Nat.two_pow_pos _
  constructor
  · rw [Nat.le_div_iff_mul_le hpos, ← Nat.pow_add, Nat.add_sub_cancel' hm]
    exact Nat.log2_self_le (ne_zero_of_le_log2 hm)
  · rw [Nat.div_lt_iff_lt_mul hpos, ← Nat.pow_add]
    have hexp : 53 + (m.log2 - 52) = m.log2 + 1 := by omega
    rw [hexp]
    exact Nat.lt_log2_self

/-! ## Rounding -/

theorem two_zpow_add (a b : Int) : (2 : ℚ) ^ (a + b) = 2 ^ a * 2 ^ b :=
  zpow_add₀ two_ne_zero a b

theorem zpow_eq_div {a : ℚ} (ha : a ≠ 0) (n : Int) : a ^ n = a ^ n.toNat / a ^ (-n).toNat := by
  have hsplit : n = (n.toNat : Int) - ((-n).toNat : Int) := by omega
  conv_lhs => rw [hsplit]
  rw [zpow_sub₀ ha, zpow_natCast, zpow_natCast]

theorem cut_mul_le (m k : Nat) (e : Int) : ((m / 2 ^ k : Nat) : ℚ) * 2 ^ (e + k) ≤ m * 2 ^ e := by
  have hnat : (m / 2 ^ k) * 2 ^ k ≤ m := Nat.div_mul_le_self m (2 ^ k)
  have hcut : ((m / 2 ^ k : Nat) : ℚ) * 2 ^ k ≤ m := by exact_mod_cast hnat
  rw [two_zpow_add, zpow_natCast]
  calc ((m / 2 ^ k : Nat) : ℚ) * (2 ^ e * 2 ^ k)
      = ((m / 2 ^ k : Nat) : ℚ) * 2 ^ k * 2 ^ e := by ring
    _ ≤ m * 2 ^ e := by gcongr

/-- One more in the last digit that is kept is not much, if there are 53 of them. -/
theorem rounded_mul_le {m r k : Nat} (e : Int) (hr : r ≤ m / 2 ^ k + 1) (hm : 2 ^ (52 + k) ≤ m) :
    (r : ℚ) * 2 ^ (e + k) ≤ m * 2 ^ e * growth := by
  have hround : (r : ℚ) ≤ (m / 2 ^ k : Nat) + 1 := by exact_mod_cast hr
  have hdigits : (2 : ℚ) ^ 52 * 2 ^ k ≤ m := by
    rw [← pow_add]
    exact_mod_cast hm
  have hlast : (2 : ℚ) ^ (e + k) ≤ m * 2 ^ e / 2 ^ 52 := by
    rw [le_div_iff₀ (by positivity), two_zpow_add, zpow_natCast]
    calc (2 : ℚ) ^ e * 2 ^ k * 2 ^ 52 = (2 : ℚ) ^ 52 * 2 ^ k * 2 ^ e := by ring
      _ ≤ (m : ℚ) * 2 ^ e := by gcongr
  calc (r : ℚ) * 2 ^ (e + k) ≤ ((m / 2 ^ k : Nat) + 1) * 2 ^ (e + k) := by gcongr
    _ = (m / 2 ^ k : Nat) * 2 ^ (e + k) + 2 ^ (e + k) := by ring
    _ ≤ m * 2 ^ e + m * 2 ^ e / 2 ^ 52 := add_le_add (cut_mul_le m k e) hlast
    _ = m * 2 ^ e * growth := by unfold growth; ring

theorem bounded_roundWithAccuracy {m : Nat} {e : Int} (hm : 52 ≤ m.log2) (he : 0 ≤ m.log2 + e) :
    Bounded (m * 2 ^ e * growth) (roundWithAccuracy Format.binary64 .positive m e .exact) := by
  obtain ⟨k, hk⟩ : ∃ k, m.log2 = 52 + k := ⟨m.log2 - 52, by omega⟩
  have hfirst : (m.log2 : Int) + e - 52 = e + k := by omega
  have hcut : 2 ^ 52 ≤ m / 2 ^ k ∧ m / 2 ^ k < 2 ^ 53 := by
    have := cut_bounds hm
    rwa [hk, Nat.add_sub_cancel_left] at this
  unfold roundWithAccuracy
  rw [shiftToTargetExponent_eq .exact hm he, hfirst, hk, Nat.add_sub_cancel_left]
  dsimp only
  have hround := roundedMantissa_bounds (ExtendedMantissa.ofMantissaAndAccuracy m .exact >>> k)
  rw [mantissa_shiftRight, mantissa_ofMantissaAndAccuracy] at hround
  generalize (ExtendedMantissa.ofMantissaAndAccuracy m .exact >>> k).roundedMantissa = r at hround ⊢
  -- rounding up may carry into a 54th digit, so the result is cut once more
  have hr : 52 ≤ r.log2 := (Nat.le_log2 (by omega)).2 (by omega)
  have hfinal := cut_bounds hr
  have hsecond : (r.log2 : Int) + (e + k) - 52 = e + k + (r.log2 - 52 : Nat) := by omega
  rw [shiftToTargetExponent_eq .exact hr (by omega), hsecond]
  dsimp only
  rw [mantissa_shiftRight, mantissa_ofMantissaAndAccuracy, dif_neg (by omega)]
  refine .finite _ hfinal.1 hfinal.2 (by omega) ?_
  have hdigits : 2 ^ (52 + k) ≤ m := hk ▸ Nat.log2_self_le (ne_zero_of_le_log2 hm)
  exact (cut_mul_le r _ _).trans (rounded_mul_le e hround.2 hdigits)

/-! ## Packing -/

theorem unpackSign_packComponents {f : Format} (s : Sign) (e : BitVec f.exponentBits)
    (m : BitVec f.mantissaBitsWithoutImplicit) :
    unpackSign (packComponents f s e m) = s.toBitVec := by
  show BitVec.cast _ (BitVec.extractLsb (f.mantissaBitsWithoutImplicit + f.exponentBits)
    (f.mantissaBitsWithoutImplicit + f.exponentBits) (packComponents f s e m)) = s.toBitVec
  ext i hi
  have hzero : i = 0 := by omega
  subst hzero
  simp [packComponents, BitVec.getLsbD_append, BitVec.getElem_append]

theorem ofBitVec_toBitVec (s : Sign) : Sign.ofBitVec s.toBitVec = s := by
  cases s <;> rfl

theorem finite_congr {s s' : Sign} {m m' : Nat} {e e' : Int} (hs : s = s') (hm : m = m')
    (he : e = e') (h : 0 < m) (h' : 0 < m') :
    UnpackedFloat.finite s m e h = .finite s' m' e' h' := by
  subst hs hm he
  rfl

theorem append_leading_pos {n : Nat} (m : BitVec n) : 0 < (1#1 ++ m).toNat := by
  simp

theorem unpack_packComponents {f : Format} (s : Sign) {e : BitVec f.exponentBits}
    (m : BitVec f.mantissaBitsWithoutImplicit) (hinfinite : e ≠ -1#_) (hsubnormal : e ≠ 0#_) :
    UnpackedFloat.unpack f (packComponents f s e m) = .finite s (1#1 ++ m).toNat
      ((e.toNat : Int) - (f.exponentBias + f.mantissaBitsWithoutImplicit))
      (append_leading_pos m) := by
  have he : unpackExponent (packComponents f s e m) = e := unpackExponent_packComponents
  have hm : unpackMantissa (packComponents f s e m) = m := unpackMantissa_packComponents
  unfold UnpackedFloat.unpack
  dsimp only
  rw [if_neg (he.trans_ne hinfinite), if_neg (he.trans_ne hsubnormal)]
  refine finite_congr ?_ ?_ ?_ _ _
  · rw [unpackSign_packComponents, ofBitVec_toBitVec]
  · rw [hm]
  · rw [he]

/-- The leading digit is not stored, since it is always one. -/
theorem toNat_append_leading {m : Nat} (hlow : 2 ^ 52 ≤ m) (hhigh : m < 2 ^ 53) :
    (1#1 ++ BitVec.ofNat 52 m).toNat = m := by
  have hone : (1#1).toNat = 1 := rfl
  have hrest : (BitVec.ofNat 52 m).toNat = m % 2 ^ 52 := BitVec.toNat_ofNat ..
  rw [BitVec.toNat_append, hone, hrest,
    ← Nat.shiftLeft_add_eq_or_of_lt (Nat.mod_lt _ (by decide)), Nat.shiftLeft_eq]
  omega

theorem Bounded.exponent_le {m : Nat} {e : Int} {q : ℚ} (hlow : 2 ^ 52 ≤ m)
    (hq : (m : ℚ) * 2 ^ e ≤ q) (hlt : q < 2 ^ 1024) : e ≤ 971 := by
  have hdigits : (2 : ℚ) ^ 52 ≤ m := by exact_mod_cast hlow
  have hpow : (2 : ℚ) ^ ((52 : Int) + e) < 2 ^ (1024 : Int) := by
    calc (2 : ℚ) ^ ((52 : Int) + e) = 2 ^ 52 * 2 ^ e := by rw [two_zpow_add]; rfl
      _ ≤ (m : ℚ) * 2 ^ e := by gcongr
      _ ≤ q := hq
      _ < 2 ^ (1024 : Int) := hlt
  have := (zpow_lt_zpow_iff_right₀ one_lt_two).1 hpow
  omega

theorem Bounded.unpack_pack {u : UnpackedFloat} {q : ℚ} (h : Bounded q u) (hq : q < 2 ^ 1024) :
    (Float.Model.pack u).unpack = u := by
  cases h with
  | @finite m e hpos hlow hhigh he hle =>
    have hmax : e ≤ 971 := exponent_le hlow hle hq
    have hlog : m.log2 + 1 = Format.binary64.mantissaBits := by
      have hlt := (Nat.log2_lt hpos.ne').2 hhigh
      have hle := (Nat.le_log2 hpos.ne').2 hlow
      show m.log2 + 1 = 53
      omega
    obtain ⟨b, hb⟩ : ∃ b : Nat, e + 1075 = b := ⟨(e + 1075).toNat, by omega⟩
    have hbias : (e + Format.binary64.exponentBias + Format.binary64.mantissaBitsWithoutImplicit)
        = b := by
      rw [← hb, add_assoc]
      rfl
    have hbits : (BitVec.ofNat 11 b).toNat = b := by
      rw [BitVec.toNat_ofNat, Nat.mod_eq_of_lt (by omega)]
    have hinfinite : BitVec.ofNat 11 b ≠ -1#11 := by
      intro h
      have htop : (-1#11).toNat = 2047 := by decide
      rw [h, htop] at hbits
      omega
    have hsubnormal : BitVec.ofNat 11 b ≠ 0#11 := by
      intro h
      have hbottom : (0#11).toNat = 0 := by decide
      rw [h, hbottom] at hbits
      omega
    have hpack : UnpackedFloat.pack Format.binary64 (.finite .positive m e hpos) =
        packComponents Format.binary64 .positive (BitVec.ofNat 11 b) (BitVec.ofNat 52 m) := by
      have hfits : ¬ 2 ^ Format.binary64.exponentBits ≤ (b : Int).toNat + 1 := by
        rw [Int.toNat_natCast]
        show ¬ 2 ^ 11 ≤ b + 1
        omega
      unfold UnpackedFloat.pack
      dsimp only
      rw [hbias, if_neg hfits, if_pos hlog]
      rfl
    show UnpackedFloat.unpack Format.binary64 (UnpackedFloat.pack Format.binary64 _) = _
    rw [hpack, unpack_packComponents _ _ hinfinite hsubnormal]
    refine finite_congr rfl ?_ ?_ _ _
    · exact toNat_append_leading hlow hhigh
    · have hexponent : ((BitVec.ofNat 11 b).toNat : Int) = b := congrArg Nat.cast hbits
      exact sub_eq_of_eq_add (hexponent.trans (hbias.symm.trans (add_assoc ..)))

/-! ## Operations -/

/-- A float with the bound `q`. -/
def IsBounded (q : ℚ) (x : Float) : Prop :=
  Bounded q x.toModel.unpack

theorem Bounded.isBounded {u : UnpackedFloat} {q : ℚ} (h : Bounded q u) (hq : q < 2 ^ 1024) :
    IsBounded q (.ofModel (Float.Model.pack u)) := by
  show Bounded q (Float.Model.pack u).unpack
  rwa [h.unpack_pack hq]

theorem IsBounded.isInf {x : Float} {q : ℚ} (h : IsBounded q x) : x.isInf = false := by
  show x.toModel.unpack.isInf = false
  unfold IsBounded at h
  generalize x.toModel.unpack = u at h
  cases h
  rfl

theorem IsBounded.mul {x y : Float} {q r : ℚ} (hx : IsBounded q x) (hy : IsBounded r y)
    (hqr : q * r * growth < 2 ^ 1024) : IsBounded (q * r * growth) (x * y) := by
  have hmul : x * y = .ofModel (Float.Model.pack
      (UnpackedFloat.mul Format.binary64 x.toModel.unpack y.toModel.unpack)) := rfl
  rw [hmul]
  refine Bounded.isBounded ?_ hqr
  unfold IsBounded at hx hy
  generalize x.toModel.unpack = u at hx ⊢
  generalize y.toModel.unpack = v at hy ⊢
  cases hx with
  | @finite m e hpos hlow hhigh he hq =>
    cases hy with
    | @finite n d hpos' hlow' hhigh' hd hr =>
      have hlog : 104 ≤ (m * n).log2 := by
        refine (Nat.le_log2 (Nat.mul_pos hpos hpos').ne').2 ?_
        calc 2 ^ 104 = 2 ^ 52 * 2 ^ 52 := by norm_num
          _ ≤ m * n := Nat.mul_le_mul hlow hlow'
      have hround : Bounded ((m * n : Nat) * 2 ^ (e + d) * growth)
          (roundWithAccuracy Format.binary64 .positive (m * n) (e + d) .exact) :=
        bounded_roundWithAccuracy (by omega) (by omega)
      refine hround.mono ?_
      have hproduct : ((m * n : Nat) : ℚ) * 2 ^ (e + d) = m * 2 ^ e * (n * 2 ^ d) := by
        rw [two_zpow_add, Nat.cast_mul]
        ring
      have hq0 : 0 ≤ q := le_trans (by positivity) hq
      have hgrowth := growth_nonneg
      rw [hproduct]
      gcongr

end JsonEdit.Decimal
