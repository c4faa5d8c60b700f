import JsonEdit.Proofs.Decimal.Scaled
import JsonEdit.Proofs.Json.Numeral

/-!
# Numbers that are not too large

`exists_toNumber`: a numeral denotes a number, if it stays below `2 ^ 1024` while it grows by the
roundings on the way. Digits that do not fit the significand only make it smaller.
-/

namespace JsonEdit

/-! ## What digits are worth -/

namespace Decimal

theorem value_append (ds es : List Char) : value (ds ++ es) = valueOnto (value ds) es :=
  List.foldl_append ..

theorem mul_pow_le_valueOnto (m : Nat) (ds : List Char) : m * 10 ^ ds.length ≤ valueOnto m ds := by
  induction ds generalizing m with
  | nil => exact Nat.le_of_eq (Nat.mul_one m)
  | cons d ds ih =>
    calc m * 10 ^ (ds.length + 1) = 10 * m * 10 ^ ds.length := by
          rw [Nat.pow_succ', Nat.mul_left_comm, Nat.mul_assoc]
      _ ≤ (10 * m + digitValue d) * 10 ^ ds.length := Nat.mul_le_mul_right _ (Nat.le_add_right ..)
      _ ≤ valueOnto m (d :: ds) := ih _

theorem valueOnto_lt {m : Nat} {ds : List Char} (hds : ∀ d ∈ ds, d.isDigit = true) :
    valueOnto m ds < (m + 1) * 10 ^ ds.length := by
  induction ds generalizing m with
  | nil => simp [valueOnto]
  | cons d ds ih =>
    have hd := digitValue_lt (hds d List.mem_cons_self)
    calc valueOnto m (d :: ds) < (10 * m + digitValue d + 1) * 10 ^ ds.length :=
          ih fun c hc => hds c (List.mem_cons_of_mem d hc)
      _ ≤ (m + 1) * 10 * 10 ^ ds.length := Nat.mul_le_mul_right _ (by omega)
      _ = (m + 1) * 10 ^ (ds.length + 1) := by rw [Nat.pow_succ', Nat.mul_assoc]

theorem value_lt {ds : List Char} (hds : ∀ d ∈ ds, d.isDigit = true) :
    value ds < 10 ^ ds.length := by
  have := valueOnto_lt (m := 0) hds
  rwa [Nat.zero_add, Nat.one_mul] at this

/-- What was read before a digit did not fit is worth no more than all digits together. -/
theorem absorb_mul_pow_le (limit m : Nat) (ds : List Char) :
    (absorb limit m ds).1 * 10 ^ (absorb limit m ds).2.length ≤ valueOnto m ds := by
  induction ds generalizing m with
  | nil => exact Nat.le_of_eq (Nat.mul_one m)
  | cons d ds ih =>
    rw [absorb]
    split
    · exact ih _
    · exact mul_pow_le_valueOnto m (d :: ds)

theorem length_absorb_snd_le (limit m : Nat) (ds : List Char) :
    (absorb limit m ds).2.length ≤ ds.length := by
  induction ds generalizing m with
  | nil => exact Nat.le_refl 0
  | cons d ds ih =>
    rw [absorb]
    split
    · exact Nat.le_succ_of_le (ih _)
    · exact Nat.le_refl _

end Decimal

namespace Json.Numeral

open Decimal (absorb growth value)

/-! ## What a numeral is worth -/

/-- The exponent of a numeral, zero if none is written. -/
def power (n : Numeral) : Int :=
  match n.exponent with
  | none => 0
  | some x => if x.negative then -value x.digits else value x.digits

/-- What the numeral writes, its sign left aside. -/
def magnitude (n : Numeral) : ℚ :=
  value (n.whole ++ n.fraction) * 10 ^ (n.power - n.fraction.length)

variable {n : Numeral}

theorem significand_lt : n.significand.1 < significandBound :=
  Decimal.absorb_fst_lt (Decimal.absorb_fst_lt (by decide) _) _

theorem significand_eq (hwhole : value n.whole < significandBound) :
    n.significand = ((absorb significandBound (value n.whole) n.fraction).1,
      ((absorb significandBound (value n.whole) n.fraction).2.length : Int) -
        n.fraction.length) := by
  have hlength := Decimal.length_absorb_snd_le significandBound (value n.whole) n.fraction
  unfold significand
  rw [absorb_whole hwhole]
  dsimp only
  rw [Prod.mk.injEq]
  refine ⟨rfl, ?_⟩
  rw [List.length_nil]
  omega

/-- Digits behind the point that do not fit are worth nothing. -/
theorem significand_le (hwhole : value n.whole < significandBound) :
    (n.significand.1 : ℚ) * 10 ^ (n.significand.2 + n.power) ≤ n.magnitude := by
  have hnat := Decimal.absorb_mul_pow_le significandBound (value n.whole) n.fraction
  rw [← Decimal.value_append] at hnat
  have hcast : ((absorb significandBound (value n.whole) n.fraction).1 : ℚ) *
      10 ^ (absorb significandBound (value n.whole) n.fraction).2.length ≤
        value (n.whole ++ n.fraction) := by exact_mod_cast hnat
  rw [significand_eq hwhole, magnitude]
  dsimp only
  rw [add_comm_sub, zpow_add₀ (by norm_num), zpow_natCast, ← mul_assoc]
  gcongr

theorem exists_fractionOf (hwhole : value n.whole < significandBound)
    (hrange : n.magnitude * growth ^ 4 < 2 ^ 1024) {e : Int} (he : e = n.significand.2 + n.power) :
    ∃ x, fractionOf n.negative n.significand.1 e = .ok x := by
  have hgrowth : 0 ≤ growth ^ 4 := pow_nonneg Decimal.growth_nonneg 4
  have hle := mul_le_mul_of_nonneg_right (significand_le hwhole) hgrowth
  rw [← he] at hle
  obtain ⟨x, hx⟩ := Decimal.exists_scaled significand_lt (hle.trans_lt hrange)
  unfold fractionOf
  rw [hx]
  exact ⟨_, rfl⟩

theorem exists_integer? (hwhole : value n.whole < significandBound) :
    ∃ x, n.integer? = some x := by
  unfold integer?
  rw [absorb_whole hwhole]
  dsimp only
  split
  · split
    · exact ⟨_, rfl⟩
    · exact ⟨_, rfl⟩
  · exact ⟨_, rfl⟩

theorem exists_toNumber (hwhole : value n.whole < significandBound)
    (hexp : ∀ x, n.exponent = some x → x.negative = false → value x.digits < exponentBound)
    (hrange : n.magnitude * growth ^ 4 < 2 ^ 1024) : ∃ x, n.toNumber = .ok x := by
  unfold toNumber
  dsimp only
  rcases hx : n.exponent with _ | x
  · have hpower : n.power = 0 := by rw [power, hx]
    dsimp only
    split
    · obtain ⟨number, hnumber⟩ := exists_integer? hwhole
      rw [hnumber]
      exact ⟨number, rfl⟩
    · exact exists_fractionOf hwhole hrange (by rw [hpower, add_zero])
  · dsimp only
    rcases habsorb : absorb exponentBound 0 x.digits with ⟨k, _ | ⟨d, unread⟩⟩
    · obtain ⟨rfl, -⟩ := (Decimal.absorb_eq_iff (by decide) x.digits).1 habsorb
      refine exists_fractionOf hwhole hrange ?_
      rw [power, hx]
      dsimp only
      split
      · exact sub_eq_add_neg _ _
      · rfl
    · dsimp only
      -- an exponent above the zero fits, so this one is below
      have hnegative : x.negative = true := by
        by_contra hpositive
        have hlt := hexp x hx (Bool.eq_false_iff.2 hpositive)
        have hfits : absorb exponentBound 0 x.digits = (value x.digits, []) :=
          (Decimal.absorb_eq_iff (by decide) x.digits).2 ⟨rfl, hlt⟩
        rw [habsorb] at hfits
        simp at hfits
      rw [if_pos (.inr hnegative)]
      exact ⟨_, rfl⟩

end Json.Numeral

end JsonEdit
