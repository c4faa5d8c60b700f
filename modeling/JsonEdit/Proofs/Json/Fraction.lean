import JsonEdit.Decimal.Layout
import JsonEdit.Proofs.Decimal.Shortest
import JsonEdit.Proofs.Json.Numeral
import JsonEdit.Proofs.Json.Range

/-!
# Every float is written as a number that can be read

* `Numeral.ofLayout` is the numeral that the layout of a decimal writes; its magnitude is the
  decimal (`writes_layout`, `magnitude_ofLayout`).
* `exists_number_of_writeFloat`: whatever float is written, its text is a numeral that denotes some
  number, or `null`. The number may miss the float it was written for.
-/

namespace JsonEdit.Json

open Decimal (Binary digits digitValue growth layout positional scientific value valueOnto
  writeFloat)

namespace Numeral

/-! ## Layouts as numerals -/

/-- The numeral of digits with a point, the last digit being worth `10 ^ k`. -/
def ofPositional (negative : Bool) (ds : List Char) (k : Int) : Numeral :=
  let leading := ds.length + k
  if 0 ≤ k then ⟨negative, ds ++ List.replicate k.toNat '0', ['0'], none⟩
  else if 0 < leading then ⟨negative, ds.take leading.toNat, ds.drop leading.toNat, none⟩
  else ⟨negative, ['0'], List.replicate (-leading).toNat '0' ++ ds, none⟩

/-- The numeral of digits with the exponent `x` of the first one. -/
def ofScientific (negative : Bool) (ds : List Char) (x : Int) : Numeral :=
  ⟨negative, ds.take 1, ds.drop 1, some ⟨x < 0, digits x.natAbs⟩⟩

/-- The numeral that the layout of `c * 10 ^ k` writes. -/
def ofLayout (negative : Bool) (c : Nat) (k : Int) : Numeral :=
  let ds := digits c
  let x := ds.length + k - 1
  if -5 ≤ x ∧ x ≤ 15 then ofPositional negative ds k else ofScientific negative ds x

variable {negative : Bool} {ds : List Char} {k x : Int}

theorem allDigits_replicate (n : Nat) : AllDigits (List.replicate n '0') := by
  intro d hd
  rw [List.eq_of_mem_replicate hd]
  rfl

theorem AllDigits.append {ds es : List Char} (hds : AllDigits ds) (hes : AllDigits es) :
    AllDigits (ds ++ es) :=
  List.forall_mem_append.2 ⟨hds, hes⟩

/-- Digits of which the first one is not a zero. -/
def Leads (ds : List Char) : Prop :=
  ∃ d es, ds = d :: es ∧ d ≠ '0' ∧ d.isDigit = true ∧ AllDigits es

theorem leads_digits {c : Nat} (hc : 0 < c) : Leads (digits c) := by
  have hall : AllDigits (digits c) := fun d hd => Decimal.isDigit_of_mem_digits hd
  have hhead := Decimal.head_digits_ne_zero hc
  rcases hd : digits c with _ | ⟨d, es⟩
  · exact absurd hd (Decimal.digits_ne_nil c)
  · rw [hd] at hall hhead
    obtain ⟨hdigit, hes⟩ := List.forall_mem_cons.1 hall
    exact ⟨d, es, rfl, fun h => hhead (h ▸ rfl), hdigit, hes⟩

theorem Leads.allDigits (h : Leads ds) : AllDigits ds := by
  obtain ⟨d, es, rfl, -, hd, hes⟩ := h
  exact List.forall_mem_cons.2 ⟨hd, hes⟩

theorem Leads.append {es : List Char} (h : Leads ds) (hes : AllDigits es) : Leads (ds ++ es) := by
  obtain ⟨d, ds, rfl, h0, hd, hds⟩ := h
  exact ⟨d, ds ++ es, rfl, h0, hd, hds.append hes⟩

theorem Leads.take {n : Nat} (h : Leads ds) (hn : 0 < n) : Leads (ds.take n) := by
  obtain ⟨d, es, rfl, h0, hd, hes⟩ := h
  obtain ⟨n, rfl⟩ := Nat.exists_eq_succ_of_ne_zero hn.ne'
  exact ⟨d, es.take n, rfl, h0, hd, fun c hc => hes c (List.mem_of_mem_take hc)⟩

theorem Leads.writesWhole (h : Leads ds) : WritesWhole ds := by
  obtain ⟨d, es, rfl, h0, hd, hes⟩ := h
  exact .digits h0 hd hes

theorem writes_positional (h : Leads ds) (k : Int) :
    Writes ((if negative then ['-'] else []) ++ positional ds k) (ofPositional negative ds k) := by
  unfold positional ofPositional
  dsimp only
  by_cases hk : 0 ≤ k
  · rw [if_pos hk, if_pos hk]
    refine ⟨['.', '0'], [], ?_, (h.append (allDigits_replicate _)).writesWhole,
      .digits (List.cons_ne_nil _ _) (allDigits_replicate 1), .absent⟩
    simp only [List.append_assoc, List.append_nil]
  rw [if_neg hk, if_neg hk]
  by_cases hleading : 0 < ds.length + k
  · rw [if_pos hleading, if_pos hleading]
    refine ⟨'.' :: ds.drop (ds.length + k).toNat, [], ?_, (h.take (by omega)).writesWhole,
      .digits ?_ (fun d hd => h.allDigits d (List.mem_of_mem_drop hd)), .absent⟩
    · simp only [List.append_nil]
    · rw [Ne, List.drop_eq_nil_iff]
      omega
  · rw [if_neg hleading, if_neg hleading]
    refine ⟨'.' :: (List.replicate (-(ds.length + k)).toNat '0' ++ ds), [], ?_, .zero,
      .digits ?_ ((allDigits_replicate _).append h.allDigits), .absent⟩
    · simp only [List.append_nil, List.cons_append, List.nil_append]
    · obtain ⟨d, es, rfl, -⟩ := h
      exact List.append_ne_nil_of_right_ne_nil _ (List.cons_ne_nil d es)

theorem writesFraction_drop_one (h : AllDigits ds) :
    WritesFraction ((if ds.length ≤ 1 then [] else ['.']) ++ ds.drop 1) (ds.drop 1) := by
  by_cases hlength : ds.length ≤ 1
  · rw [if_pos hlength, List.drop_of_length_le hlength]
    exact .absent
  · rw [if_neg hlength, List.singleton_append]
    refine .digits ?_ fun d hd => h d (List.mem_of_mem_drop hd)
    rw [Ne, List.drop_eq_nil_iff]
    exact hlength

theorem writesExponent_mark (x : Int) :
    WritesExponent ((if 0 ≤ x then ['e', '+'] else ['e', '-']) ++ digits x.natAbs)
      (some ⟨x < 0, digits x.natAbs⟩) := by
  have hne := Decimal.digits_ne_nil x.natAbs
  have hall : AllDigits (digits x.natAbs) := fun d hd => Decimal.isDigit_of_mem_digits hd
  by_cases hx : 0 ≤ x
  · rw [if_pos hx, decide_eq_false (by omega)]
    exact .digits (.inl rfl) .plus hne hall
  · rw [if_neg hx, decide_eq_true (by omega)]
    exact .digits (.inl rfl) .minus hne hall

theorem writes_scientific (h : Leads ds) (x : Int) :
    Writes ((if negative then ['-'] else []) ++ scientific ds x) (ofScientific negative ds x) := by
  refine ⟨_, _, ?_, (h.take Nat.one_pos).writesWhole, writesFraction_drop_one h.allDigits,
    writesExponent_mark x⟩
  simp only [scientific, ofScientific, List.append_assoc]
  rfl

theorem writes_layout {c : Nat} (hc : 0 < c) (k : Int) :
    Writes ((if negative then ['-'] else []) ++ layout c k) (ofLayout negative c k) := by
  unfold layout ofLayout
  dsimp only
  by_cases hx : -5 ≤ (digits c).length + k - 1 ∧ (digits c).length + k - 1 ≤ 15
  · rw [if_pos hx, if_pos hx]
    exact writes_positional (leads_digits hc) k
  · rw [if_neg hx, if_neg hx]
    exact writes_scientific (leads_digits hc) _

/-! ## What a layout is worth -/

theorem valueOnto_zeros (m n : Nat) : valueOnto m (List.replicate n '0') = m * 10 ^ n := by
  induction n generalizing m with
  | zero => exact (Nat.mul_one m).symm
  | succ n ih =>
    have hzero : digitValue '0' = 0 := rfl
    show valueOnto (10 * m + digitValue '0') (List.replicate n '0') = _
    rw [ih, hzero, Nat.add_zero, Nat.pow_succ', Nat.mul_left_comm, Nat.mul_assoc]

theorem magnitude_of_point {n : Numeral} (h : n.exponent = none) :
    n.magnitude = value (n.whole ++ n.fraction) * 10 ^ (-n.fraction.length : Int) := by
  rw [magnitude, power, h, zero_sub]

theorem magnitude_ofPositional (negative : Bool) (ds : List Char) (k : Int) :
    (ofPositional negative ds k).magnitude = value ds * 10 ^ k := by
  unfold ofPositional
  dsimp only
  by_cases hk : 0 ≤ k
  · obtain ⟨n, rfl⟩ := Int.eq_ofNat_of_zero_le hk
    have hvalue : value (ds ++ List.replicate n '0' ++ ['0']) = value ds * 10 ^ n * 10 := by
      have hlast := valueOnto_zeros (value ds * 10 ^ n) 1
      rw [pow_one] at hlast
      rw [Decimal.value_append, Decimal.value_append, valueOnto_zeros]
      exact hlast
    rw [if_pos hk, magnitude_of_point rfl, Int.toNat_natCast, hvalue, List.length_singleton,
      Nat.cast_one, zpow_neg_one, zpow_natCast, Nat.cast_mul, Nat.cast_mul, Nat.cast_pow]
    push_cast
    field_simp
  rw [if_neg hk]
  by_cases hleading : 0 < ds.length + k
  · have hlength : (-((ds.drop (ds.length + k).toNat).length : Int)) = k := by
      rw [List.length_drop]
      omega
    rw [if_pos hleading, magnitude_of_point rfl, List.take_append_drop, hlength]
  · have hlength : (-((List.replicate (-(ds.length + k)).toNat '0' ++ ds).length : Int)) = k := by
      rw [List.length_append, List.length_replicate]
      omega
    have hvalue : value (['0'] ++ (List.replicate (-(ds.length + k)).toNat '0' ++ ds)) =
        value ds := by
      have hzeros := valueOnto_zeros 0 (-(ds.length + k)).toNat
      rw [Nat.zero_mul] at hzeros
      rw [← List.append_assoc, Decimal.value_append, Decimal.value_append]
      show valueOnto (valueOnto 0 _) ds = _
      rw [hzeros]
      rfl
    rw [if_neg hleading, magnitude_of_point rfl, hlength, hvalue]

theorem magnitude_ofScientific (negative : Bool) {ds : List Char} (hne : ds ≠ []) (x : Int) :
    (ofScientific negative ds x).magnitude = value ds * 10 ^ (x - (ds.length - 1)) := by
  have hlength : 0 < ds.length := List.length_pos_of_ne_nil hne
  have hpower : (ofScientific negative ds x).power = x := by
    unfold power ofScientific
    dsimp only
    rw [Decimal.value_digits]
    by_cases hx : x < 0
    · rw [if_pos (decide_eq_true hx)]
      omega
    · rw [decide_eq_false hx, if_neg Bool.false_ne_true]
      omega
  rw [magnitude, hpower]
  unfold ofScientific
  dsimp only
  rw [List.take_append_drop, List.length_drop]
  congr 2
  omega

theorem magnitude_ofLayout (negative : Bool) (c : Nat) (k : Int) :
    (ofLayout negative c k).magnitude = c * 10 ^ k := by
  unfold ofLayout
  dsimp only
  split
  · rw [magnitude_ofPositional, Decimal.value_digits]
  · rw [magnitude_ofScientific negative (Decimal.digits_ne_nil c), Decimal.value_digits]
    congr 2
    omega

/-! ## Layouts are read -/

theorem value_lt_significandBound {ds : List Char} (hds : AllDigits ds) (hlength : ds.length ≤ 16) :
    value ds < significandBound :=
  calc value ds < 10 ^ ds.length := Decimal.value_lt hds
    _ ≤ 10 ^ 16 := Nat.pow_le_pow_right (by decide) hlength
    _ < significandBound := by decide

theorem whole_ofLayout_lt {c : Nat} (hc : 0 < c) (k : Int) :
    value (ofLayout negative c k).whole < significandBound := by
  have hall := (leads_digits hc).allDigits
  unfold ofLayout
  dsimp only
  by_cases hx : -5 ≤ (digits c).length + k - 1 ∧ (digits c).length + k - 1 ≤ 15
  · rw [if_pos hx]
    unfold ofPositional
    dsimp only
    by_cases hk : 0 ≤ k
    · rw [if_pos hk]
      refine value_lt_significandBound (hall.append (allDigits_replicate _)) ?_
      rw [List.length_append, List.length_replicate]
      omega
    rw [if_neg hk]
    by_cases hleading : 0 < (digits c).length + k
    · rw [if_pos hleading]
      refine value_lt_significandBound (fun d hd => hall d (List.mem_of_mem_take hd)) ?_
      rw [List.length_take]
      omega
    · rw [if_neg hleading]
      show value ['0'] < significandBound
      decide
  · rw [if_neg hx]
    refine value_lt_significandBound (fun d hd => hall d (List.mem_of_mem_take hd)) ?_
    show ((digits c).take 1).length ≤ 16
    rw [List.length_take]
    omega

theorem one_le_digitValue {d : Char} (h0 : d ≠ '0') (hd : d.isDigit = true) :
    1 ≤ digitValue d := by
  simp only [Char.isDigit, Bool.and_eq_true, decide_eq_true_eq] at hd
  have hlow : 48 ≤ d.toNat := hd.1
  have hzero : '0'.toNat = 48 := rfl
  have hne : d.toNat ≠ 48 := fun h => h0 (Char.toNat_inj.1 (h.trans hzero.symm))
  unfold digitValue
  omega

theorem pow_le_of_leads {ds : List Char} (h : Leads ds) : 10 ^ (ds.length - 1) ≤ value ds := by
  obtain ⟨d, es, rfl, h0, hd, -⟩ := h
  have hfirst : value (d :: es) = valueOnto (digitValue d) es := by
    have happend := Decimal.value_append [d] es
    rwa [List.singleton_append, show value [d] = digitValue d from Nat.zero_add _] at happend
  calc 10 ^ es.length = 1 * 10 ^ es.length := (Nat.one_mul _).symm
    _ ≤ digitValue d * 10 ^ es.length := Nat.mul_le_mul_right _ (one_le_digitValue h0 hd)
    _ ≤ valueOnto (digitValue d) es := Decimal.mul_pow_le_valueOnto _ es
    _ = value (d :: es) := hfirst.symm

theorem leading_le {c : Nat} (hc : 0 < c) {k : Int}
    (hrange : (c : ℚ) * 10 ^ k * growth ^ 4 < 2 ^ 1024) : (digits c).length + k - 1 ≤ 308 := by
  by_contra hlarge
  obtain ⟨n, hn⟩ : ∃ n : Nat, (digits c).length + k - 1 = n :=
    ⟨_, (Int.toNat_of_nonneg (by omega)).symm⟩
  have hlength : 0 < (digits c).length := List.length_pos_of_ne_nil (Decimal.digits_ne_nil c)
  have hdigits : (10 : ℚ) ^ ((digits c).length - 1) ≤ c := by
    have hnat := pow_le_of_leads (leads_digits hc)
    rw [Decimal.value_digits] at hnat
    exact_mod_cast hnat
  have hsplit : (n : Int) = ((digits c).length - 1 : Nat) + k := by omega
  have hlower : (10 : ℚ) ^ n ≤ c * 10 ^ k * growth ^ 4 := by
    calc (10 : ℚ) ^ n = 10 ^ ((digits c).length - 1) * 10 ^ k * 1 := by
          rw [← zpow_natCast, hsplit, zpow_add₀ (by norm_num), zpow_natCast, mul_one]
      _ ≤ c * 10 ^ k * growth ^ 4 := by
          gcongr
          exact one_le_pow₀ Decimal.one_le_growth
  have hmax : Decimal.maxStep = 308 := rfl
  exact absurd hrange ((Decimal.two_pow_lt_ten_pow (by omega)).trans_le hlower).not_gt

theorem exponent_ofPositional (negative : Bool) (ds : List Char) (k : Int) :
    (ofPositional negative ds k).exponent = none := by
  unfold ofPositional
  dsimp only
  split
  · rfl
  · split <;> rfl

theorem exists_toNumber_ofLayout {c : Nat} (hc : 0 < c) {k : Int}
    (hrange : (c : ℚ) * 10 ^ k * growth ^ 4 < 2 ^ 1024) :
    ∃ x, (ofLayout negative c k).toNumber = .ok x := by
  refine exists_toNumber (whole_ofLayout_lt hc k) (fun x hx hpositive => ?_) ?_
  · have hleading := leading_le hc hrange
    have hbound : exponentBound = 2 ^ 31 := rfl
    unfold ofLayout at hx
    dsimp only at hx
    split at hx
    · rw [exponent_ofPositional] at hx
      cases hx
    · obtain rfl := Option.some.inj hx
      rw [decide_eq_false_iff_not] at hpositive
      rw [Decimal.value_digits]
      omega
  · rwa [magnitude_ofLayout]

theorem isOk_toNumber_largest : ∀ (negative : Bool), ∀ i < 12,
    (ofLayout negative (Binary.shortest ⟨2 ^ 53 - 1 - i, 971, false⟩).1
      (Binary.shortest ⟨2 ^ 53 - 1 - i, 971, false⟩).2).toNumber.isOk = true := by
  decide +kernel

theorem exists_toNumber_shortest (negative : Bool) {x : Binary} (hx : x.Proper) :
    ∃ y, (ofLayout negative x.shortest.1 x.shortest.2).toNumber = .ok y := by
  by_cases hlast : x.exponent < 971 ∨ x.significand + 12 < 2 ^ 53
  · refine exists_toNumber_ofLayout (Binary.shortest_pos hx.significand_pos) ?_
    have hgrowth : 0 ≤ growth ^ 4 := pow_nonneg Decimal.growth_nonneg 4
    exact (mul_le_mul_of_nonneg_right x.shortest_le_upper hgrowth).trans_lt
      (Binary.upper_mul_growth_lt hx hlast)
  -- the largest floats, too close to `2 ^ 1024` for a general bound, are looked at one by one
  · obtain ⟨significand, exponent, narrow⟩ := x
    obtain ⟨hpos, hlt, hle, hnarrow⟩ := hx
    dsimp only at *
    obtain ⟨i, hi, rfl⟩ : ∃ i < 12, significand = 2 ^ 53 - 1 - i :=
      ⟨2 ^ 53 - 1 - significand, by omega, by omega⟩
    obtain rfl : exponent = 971 := by omega
    obtain rfl : narrow = false := hnarrow (by omega)
    have hok := isOk_toNumber_largest negative i hi
    rcases hy : (ofLayout negative (Binary.shortest ⟨2 ^ 53 - 1 - i, 971, false⟩).1
      (Binary.shortest ⟨2 ^ 53 - 1 - i, 971, false⟩).2).toNumber with c | y
    · rw [hy] at hok
      cases hok
    · exact ⟨y, rfl⟩

theorem exists_toNumber_zero (negative : Bool) :
    ∃ y, toNumber ⟨negative, ['0'], ['0'], none⟩ = .ok y := by
  refine exists_toNumber (by show value ['0'] < significandBound; decide)
    (fun _ h _ => by cases h) ?_
  rw [magnitude_of_point rfl]
  have hvalue : value ['0', '0'] = 0 := rfl
  show (value ['0', '0'] : ℚ) * _ * _ < _
  rw [hvalue, Nat.cast_zero, zero_mul, zero_mul]
  positivity

end Numeral

/-! ## Floats -/

theorem exists_number_of_writeFloat (x : Float) :
    writeFloat x = ['n', 'u', 'l', 'l'] ∨
      ∃ n y, Numeral.Writes (writeFloat x) n ∧ n.toNumber = .ok y := by
  unfold writeFloat
  dsimp only
  by_cases hfinite : (x.toBits >>> 52) &&& 0x7FF = 0x7FF
  · rw [if_pos hfinite]
    exact .inl rfl
  right
  rw [if_neg hfinite]
  have hsign : (if x.toBits >>> 63 = 1 then ['-'] else []) =
      if decide (x.toBits >>> 63 = 1) then ['-'] else [] := by simp only [decide_eq_true_eq]
  rw [hsign]
  by_cases hzero : x.toBits <<< 1 = 0
  · rw [if_pos hzero]
    obtain ⟨y, hy⟩ := Numeral.exists_toNumber_zero (decide (x.toBits >>> 63 = 1))
    refine ⟨⟨decide (x.toBits >>> 63 = 1), ['0'], ['0'], none⟩, y, ⟨['.', '0'], [], ?_, .zero,
      .digits (List.cons_ne_nil _ _) (Numeral.allDigits_replicate 1), .absent⟩, hy⟩
    rw [List.append_nil]
    rfl
  · rw [if_neg hzero]
    have hx := Binary.proper_ofBits hfinite hzero
    obtain ⟨y, hy⟩ := Numeral.exists_toNumber_shortest (decide (x.toBits >>> 63 = 1)) hx
    exact ⟨_, y, Numeral.writes_layout (Binary.shortest_pos hx.significand_pos) _, hy⟩

end JsonEdit.Json
