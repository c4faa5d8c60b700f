import JsonEdit.Proofs.Json.Scalar

/-!
# Integers of a JSON text

* `WritesInteger w n`: the text `w` is digits that do not start with a superfluous zero, with a
  minus before them or not, and `n` is their value.
* `writesScalar_integer_iff`: just these texts are read as integers, if the value fits 64 bits with
  a sign or without one. Only a zero with a minus is read as something else, the fraction `-0.0`.
-/

namespace JsonEdit.Json

open Decimal (value)
open Numeral (AllDigits WritesWhole)

variable {w ds : List Char} {n : Numeral} {i : Int}

/-! ## Written integers -/

/-- The text `w` is `-?(0|[1-9][0-9]*)` and its value is `n`. -/
inductive WritesInteger : List Char → Int → Prop where
  | plain {ds : List Char} (hds : WritesWhole ds) : WritesInteger ds (value ds)
  | minus {ds : List Char} (hds : WritesWhole ds) : WritesInteger ('-' :: ds) (-(value ds : Int))

namespace Numeral

theorem WritesWhole.allDigits (h : WritesWhole ds) : AllDigits ds := by
  cases h with
  | zero => simp [AllDigits]
  | digits h0 hd hds => exact List.forall_mem_cons.2 ⟨hd, hds⟩

theorem WritesWhole.ne_nil (h : WritesWhole ds) : ds ≠ [] := by
  obtain ⟨d, es, rfl, -⟩ := h.head?
  exact List.cons_ne_nil d es

theorem WritesWhole.value_pos (h : WritesWhole ds) (hzero : ds ≠ ['0']) : 0 < value ds := by
  cases h with
  | zero => exact absurd rfl hzero
  | digits h0 hd hds =>
    have hleads : Leads _ := ⟨_, _, rfl, h0, hd, hds⟩
    exact lt_of_lt_of_le (Nat.pow_pos (by decide)) (pow_le_of_leads hleads)

theorem writesWhole_or_leading_zero (hne : ds ≠ []) (hds : AllDigits ds) :
    WritesWhole ds ∨ ∃ d es, ds = '0' :: d :: es := by
  obtain ⟨c, es, rfl⟩ := List.exists_cons_of_ne_nil hne
  obtain ⟨hc, hes⟩ := List.forall_mem_cons.1 hds
  by_cases hzero : c = '0'
  · subst hzero
    cases es with
    | nil => exact .inl .zero
    | cons d es => exact .inr ⟨d, es, rfl⟩
  · exact .inl (.digits hzero hc hes)

theorem WritesWhole.not_leading_zero {d : Char} : ¬ WritesWhole ('0' :: d :: ds) := by
  intro h
  cases h with
  | digits h0 => exact h0 rfl

theorem Writes.unique {m : Numeral} (hn : n.Writes w) (hm : m.Writes w) : n = m := by
  obtain ⟨h₁, e₁⟩ := read_append .endInValue hn endsNumber_nil
  obtain ⟨h₂, e₂⟩ := read_append .endInValue hm endsNumber_nil
  rw [e₁] at e₂
  exact congrArg Prod.fst (Except.ok.inj e₂)

theorem Writes.fraction_eq_nil (hw : n.Writes w) (hpoint : '.' ∉ w) : n.fraction = [] := by
  obtain ⟨f, e, rfl, -, hf, -⟩ := hw
  generalize n.fraction = fraction at hf
  cases hf with
  | absent => rfl
  | digits => exact absurd (by simp) hpoint

theorem Writes.exponent_eq_none (hw : n.Writes w) (he : 'e' ∉ w) (hE : 'E' ∉ w) :
    n.exponent = none := by
  obtain ⟨f, e, rfl, -, -, hexponent⟩ := hw
  generalize n.exponent = exponent at hexponent
  cases hexponent with
  | absent => rfl
  | digits hm =>
    rcases hm with rfl | rfl
    · exact absurd (by simp) he
    · exact absurd (by simp) hE

theorem Writes.writesInteger (hw : n.Writes w) (hfraction : n.fraction = [])
    (hexponent : n.exponent = none) : WritesInteger w n.signedWhole := by
  obtain ⟨f, e, rfl, hwhole, hf, he⟩ := hw
  rw [hfraction] at hf
  rw [hexponent] at he
  obtain rfl : f = [] := by
    cases hf with
    | absent => rfl
    | digits hne => exact absurd rfl hne
  cases he with
  | absent =>
    unfold signedWhole
    rw [List.append_nil, List.append_nil]
    split
    · exact .minus hwhole
    · exact .plain hwhole

end Numeral

/-! ## Reading -/

theorem writes_minusZero : Numeral.Writes ['-', '0'] ⟨true, ['0'], [], none⟩ :=
  ⟨[], [], rfl, .zero, .absent, .absent⟩

theorem writesScalar_minusZero : WritesScalar ['-', '0'] (.number (.fraction (-0.0))) :=
  .number writes_minusZero rfl

theorem WritesInteger.writesScalar (hw : WritesInteger w i) (hminus : w ≠ ['-', '0'])
    (hlow : -2 ^ 63 ≤ i) (hhigh : i < 2 ^ 64) : WritesScalar w (.number (.integer i)) := by
  cases hw with
  | plain hds =>
    have hwrites : Numeral.Writes w ⟨false, w, [], none⟩ :=
      ⟨[], [], by simp, hds, .absent, .absent⟩
    refine .number hwrites (Numeral.toNumber_eq_integer_iff.2 ⟨rfl, rfl, ?_⟩)
    exact Numeral.integer?_eq_integer_iff.2 ⟨rfl, hlow, hhigh, nofun⟩
  | @minus ds hds =>
    have hwrites : Numeral.Writes ('-' :: ds) ⟨true, ds, [], none⟩ :=
      ⟨[], [], by simp, hds, .absent, .absent⟩
    have hpos := hds.value_pos fun h => hminus (congrArg ('-' :: ·) h)
    refine .number hwrites (Numeral.toNumber_eq_integer_iff.2 ⟨rfl, rfl, ?_⟩)
    exact Numeral.integer?_eq_integer_iff.2 ⟨rfl, hlow, hhigh, fun _ => by omega⟩

theorem writesScalar_integer_iff :
    WritesScalar w (.number (.integer i)) ↔
      WritesInteger w i ∧ w ≠ ['-', '0'] ∧ -2 ^ 63 ≤ i ∧ i < 2 ^ 64 := by
  constructor
  · intro h
    generalize hv : Value.number (.integer i) = v at h
    cases h with
    | word hc =>
      subst hv
      rcases value_of_word? hc with hv | ⟨b, hv⟩ <;> cases hv
    | string => cases hv
    | @number w n x hw hx =>
      cases hv
      obtain ⟨hfraction, hexponent, hi⟩ := Numeral.toNumber_eq_integer_iff.1 hx
      obtain ⟨rfl, hlow, hhigh, hminus⟩ := Numeral.integer?_eq_integer_iff.1 hi
      refine ⟨hw.writesInteger hfraction hexponent, ?_, hlow, hhigh⟩
      rintro rfl
      obtain rfl := hw.unique writes_minusZero
      exact hminus rfl rfl
  · rintro ⟨hw, hminus, hlow, hhigh⟩
    exact hw.writesScalar hminus hlow hhigh

theorem WritesInteger.exists_writesScalar (hw : WritesInteger w i) (hlow : -2 ^ 63 ≤ i)
    (hhigh : i < 2 ^ 64) : ∃ v, WritesScalar w v := by
  by_cases hminus : w = ['-', '0']
  · exact ⟨_, hminus ▸ writesScalar_minusZero⟩
  · exact ⟨_, hw.writesScalar hminus hlow hhigh⟩

end JsonEdit.Json
