import JsonEdit.Decimal.Shortest
import JsonEdit.Proofs.Decimal.Rounding

/-!
# The shortest decimal lies near its float

`Binary.shortest_le_upper`: the decimal that is written for a float lies half a unit of the last
place above it, at most. So it is too large for a float only next to the largest one.
-/

namespace JsonEdit.Decimal

/-- The upper end of the reals that round to `x`. -/
def Binary.upper (x : Binary) : ℚ :=
  (x.significand + 1 / 2) * 2 ^ x.exponent

/-! ## Bits of a float -/

theorem toNat_exponentBits (bits : UInt64) :
    ((bits >>> 52) &&& 0x7FF).toNat = bits.toNat / 2 ^ 52 % 2 ^ 11 := by
  have hmask : (0x7FF : UInt64).toNat = 2 ^ 11 - 1 := rfl
  have hshift : (52 : UInt64).toNat % 64 = 52 := rfl
  rw [UInt64.toNat_and, UInt64.toNat_shiftRight, hmask, hshift, Nat.and_two_pow_sub_one_eq_mod,
    Nat.shiftRight_eq_div_pow]

theorem toNat_fractionBits (bits : UInt64) :
    (bits &&& 0xFFFFFFFFFFFFF).toNat = bits.toNat % 2 ^ 52 := by
  have hmask : (0xFFFFFFFFFFFFF : UInt64).toNat = 2 ^ 52 - 1 := rfl
  rw [UInt64.toNat_and, hmask, Nat.and_two_pow_sub_one_eq_mod]

theorem toNat_magnitudeBits (bits : UInt64) : (bits <<< 1).toNat = bits.toNat * 2 % 2 ^ 64 := by
  have hshift : (1 : UInt64).toNat % 64 = 1 := rfl
  rw [UInt64.toNat_shiftLeft, hshift, Nat.shiftLeft_eq]

/-- What the bits of a finite float other than zero can say. -/
structure Binary.Proper (x : Binary) : Prop where
  significand_pos : 0 < x.significand
  significand_lt : x.significand < 2 ^ 53
  exponent_le : x.exponent ≤ 971
  narrow : 2 ^ 52 < x.significand → x.narrow = false

theorem Binary.proper_ofBits {bits : UInt64} (hfinite : (bits >>> 52) &&& 0x7FF ≠ 0x7FF)
    (hzero : bits <<< 1 ≠ 0) : (ofBits bits).Proper := by
  have hexponent : bits.toNat / 2 ^ 52 % 2 ^ 11 ≠ 2047 := by
    intro h
    refine hfinite (UInt64.toNat_inj.1 ?_)
    rw [toNat_exponentBits, h]
    rfl
  have hmagnitude : bits.toNat * 2 % 2 ^ 64 ≠ 0 := by
    intro h
    refine hzero (UInt64.toNat_inj.1 ?_)
    rw [toNat_magnitudeBits, h]
    rfl
  have hpow : Nat.pow 2 52 = 2 ^ 52 := rfl
  unfold ofBits
  dsimp only
  rw [toNat_exponentBits, toNat_fractionBits, hpow]
  split
  · next he =>
    exact ⟨by dsimp only; omega, by dsimp only; omega, by dsimp only; omega, fun _ => rfl⟩
  · next he =>
    refine ⟨by dsimp only; omega, by dsimp only; omega, by dsimp only; omega, fun h => ?_⟩
    dsimp only at h ⊢
    rw [decide_eq_false (by omega), Bool.false_and]

/-! ## The interval -/

theorem Grid.bounds_of_holds {g : Grid} {c : Nat} (h : g.holds c = true) :
    g.low ≤ c * g.unit ∧ c * g.unit ≤ g.high := by
  unfold holds at h
  split at h
  · simpa only [Bool.and_eq_true, decide_eq_true_eq] using h
  · simp only [Bool.and_eq_true, decide_eq_true_eq] at h
    exact ⟨h.1.le, h.2.le⟩

theorem Grid.holds_of_pick? {g : Grid} {c : Nat} (h : g.pick? = some c) : g.holds c = true := by
  unfold pick? at h
  dsimp only at h
  split at h
  · next hbelow habove =>
    split at h
    · exact Option.some.inj h ▸ hbelow
    · exact Option.some.inj h ▸ habove
    · split at h
      · exact Option.some.inj h ▸ hbelow
      · exact Option.some.inj h ▸ habove
  · next hbelow habove => exact Option.some.inj h ▸ hbelow
  · next hbelow habove => exact Option.some.inj h ▸ habove
  · cases h

theorem Binary.shortest_cases (x : Binary) :
    x.shortest = x.exact ∨ (x.grid x.shortest.2).holds x.shortest.1 = true := by
  unfold shortest
  dsimp only
  rcases hfound : (List.range 24).map (fun (i : Nat) => x.coarsest - i) |>.findSome?
      fun k => (x.grid k).pick?.map fun c => (c, k) with _ | ⟨c, k⟩
  · exact .inl rfl
  · obtain ⟨k', -, hk⟩ := List.exists_of_findSome?_eq_some hfound
    obtain ⟨c', hc, hck⟩ := Option.map_eq_some_iff.1 hk
    cases hck
    exact .inr (Grid.holds_of_pick? hc)

theorem Binary.exact_pos {x : Binary} (hx : 0 < x.significand) : 0 < x.exact.1 := by
  unfold exact
  split
  · exact Nat.mul_pos hx (Nat.pow_pos (by decide))
  · exact Nat.mul_pos hx (Nat.pow_pos (by decide))

theorem Binary.shortest_pos {x : Binary} (hx : 0 < x.significand) : 0 < x.shortest.1 := by
  rcases x.shortest_cases with hexact | hholds
  · rw [hexact]
    exact exact_pos hx
  · have hlow : 0 < (x.grid x.shortest.2).low := by
      refine Nat.mul_pos ?_ (Nat.mul_pos (Nat.pow_pos (by decide)) (Nat.pow_pos (by decide)))
      split <;> omega
    exact Nat.pos_of_mul_pos_right (hlow.trans_le (Grid.bounds_of_holds hholds).1)

theorem Binary.le_upper_of_grid {x : Binary} {k : Int} {c : Nat}
    (h : c * (x.grid k).unit ≤ (x.grid k).high) : (c : ℚ) * 10 ^ k ≤ x.upper := by
  have hcast : (c : ℚ) * (2 ^ (-(x.exponent - 2)).toNat * 10 ^ k.toNat) ≤
      (4 * x.significand + 2) * (2 ^ (x.exponent - 2).toNat * 10 ^ (-k).toNat) := by
    exact_mod_cast h
  have hupper : x.upper = (4 * x.significand + 2) * 2 ^ (x.exponent - 2) := by
    unfold upper
    rw [zpow_sub₀ two_ne_zero]
    norm_num
    ring
  rw [hupper, zpow_eq_div two_ne_zero, zpow_eq_div (by norm_num : (10 : ℚ) ≠ 0), ← mul_div_assoc,
    ← mul_div_assoc, div_le_div_iff₀ (by positivity) (by positivity)]
  linarith

theorem Binary.exact_le_upper (x : Binary) : (x.exact.1 : ℚ) * 10 ^ x.exact.2 ≤ x.upper := by
  have hvalue : (x.exact.1 : ℚ) * 10 ^ x.exact.2 = x.significand * 2 ^ x.exponent := by
    unfold exact
    split
    · next he =>
      obtain ⟨n, hn⟩ := Int.eq_ofNat_of_zero_le he
      have hpow : ((Nat.pow 2 n : Nat) : ℚ) = 2 ^ n := Nat.cast_pow ..
      rw [hn, Int.toNat_natCast, Nat.cast_mul, hpow, zpow_natCast, zpow_zero, mul_one]
    · next he =>
      obtain ⟨n, hn⟩ : ∃ n : Nat, x.exponent = -n := ⟨(-x.exponent).toNat, by omega⟩
      have hpow : ((Nat.pow 5 n : Nat) : ℚ) = 5 ^ n := Nat.cast_pow ..
      have hten : (10 : ℚ) ^ n = 5 ^ n * 2 ^ n := by
        rw [← mul_pow]
        norm_num
      rw [hn, neg_neg, Int.toNat_natCast, Nat.cast_mul, hpow, zpow_neg, zpow_neg, zpow_natCast,
        zpow_natCast, hten]
      field_simp
  rw [hvalue, upper]
  gcongr
  norm_num

theorem Binary.shortest_le_upper (x : Binary) :
    (x.shortest.1 : ℚ) * 10 ^ x.shortest.2 ≤ x.upper := by
  rcases x.shortest_cases with hexact | hholds
  · rw [hexact]
    exact x.exact_le_upper
  · exact le_upper_of_grid (Grid.bounds_of_holds hholds).2

/-- Only the last floats below the largest one may be too large after some roundings. -/
theorem Binary.upper_mul_growth_lt {x : Binary} (hx : x.Proper)
    (hlast : x.exponent < 971 ∨ x.significand + 12 < 2 ^ 53) : x.upper * growth ^ 4 < 2 ^ 1024 := by
  have hupper : x.upper ≤ (2 ^ 53 - 25 / 2) * 2 ^ (971 : Int) := by
    unfold upper
    rcases hlast with he | hs
    · have hsignificand : (x.significand : ℚ) + 1 ≤ 2 ^ 53 := by exact_mod_cast hx.significand_lt
      have hpow : (2 : ℚ) ^ x.exponent ≤ 2 ^ (970 : Int) :=
        zpow_le_zpow_right₀ one_le_two (by omega)
      calc ((x.significand : ℚ) + 1 / 2) * 2 ^ x.exponent ≤ 2 ^ 53 * 2 ^ (970 : Int) := by
            exact mul_le_mul (by linarith) hpow (by positivity) (by positivity)
        _ = 2 ^ 52 * 2 ^ (971 : Int) := by
            rw [show (971 : Int) = 1 + 970 from rfl, two_zpow_add, zpow_one]
            ring
        _ ≤ (2 ^ 53 - 25 / 2) * 2 ^ (971 : Int) := by
            gcongr
            norm_num
    · have hsignificand : (x.significand : ℚ) + 13 ≤ 2 ^ 53 := by exact_mod_cast hs
      have hpow : (2 : ℚ) ^ x.exponent ≤ 2 ^ (971 : Int) :=
        zpow_le_zpow_right₀ one_le_two hx.exponent_le
      exact mul_le_mul (by linarith) hpow (by positivity) (by norm_num)
  have hgrowth : (2 ^ 53 - 25 / 2) * growth ^ 4 < 2 ^ 53 := by
    unfold growth
    norm_num
  calc x.upper * growth ^ 4 ≤ (2 ^ 53 - 25 / 2) * 2 ^ (971 : Int) * growth ^ 4 := by
        have := growth_nonneg
        gcongr
    _ = (2 ^ 53 - 25 / 2) * growth ^ 4 * 2 ^ (971 : Int) := by ring
    _ < 2 ^ 53 * 2 ^ (971 : Int) := by gcongr
    _ = 2 ^ 1024 := by
        rw [← zpow_natCast, ← zpow_natCast, ← two_zpow_add]
        norm_num

end JsonEdit.Decimal
