import JsonEdit.Proofs.Infer.Integer

/-!
# Free texts of decimal shape

* `IsDecimal s`: the text `s` is digits with a point before, between or behind them or without one,
  with a sign before them or not and an exponent behind them or not.
* No reader of numbers takes a text of another shape: `isDecimal_of_decimal?` and
  `SpellsInteger.isDecimal` say so for free texts, `Json.Numeral.Writes.isDecimal` for JSON.
* What no decimal has: characters of another kind (`IsDecimal.not_mem`), a second point
  (`IsDecimal.count_point`), a sign further on without an exponent
  (`IsDecimal.ne_sign_of_mem_tail`).
-/

namespace JsonEdit

open Decimal (run)
open Json (Numeral)
open Json.Numeral (AllDigits WritesExponent WritesSign run_eq)

/-- Digits with a point before, between or behind them, or without one. -/
inductive Mantissa : List Char → Prop where
  | whole {ds : List Char} (hne : ds ≠ []) (hds : AllDigits ds) : Mantissa ds
  | point {ds fs : List Char} (hne : ds ≠ []) (hds : AllDigits ds) (hfs : AllDigits fs) :
    Mantissa (ds ++ '.' :: fs)
  | fraction {fs : List Char} (hne : fs ≠ []) (hfs : AllDigits fs) : Mantissa ('.' :: fs)

/-- The text is `[+-]?([0-9]+(\.[0-9]*)?|\.[0-9]+)([eE][+-]?[0-9]+)?`. -/
inductive IsDecimal : List Char → Prop where
  | parts {sign m e : List Char} {negative : Bool} {x : Option Json.Exponent}
    (hsign : WritesSign sign negative) (hm : Mantissa m) (he : WritesExponent e x) :
    IsDecimal (sign ++ (m ++ e))

variable {s ds : List Char} {c : Char}

theorem mantissa_of_point {fs : List Char} (hds : AllDigits ds) (hfs : AllDigits fs)
    (hne : ¬ (ds = [] ∧ fs = [])) : Mantissa (ds ++ '.' :: fs) := by
  by_cases hnil : ds = []
  · subst hnil
    exact .fraction (fun h => hne ⟨rfl, h⟩) hfs
  · exact .point hnil hds hfs

/-! ## Numbers are decimals -/

theorem isDecimal_of_mantissa {sign m : List Char} {negative : Bool}
    (hsign : WritesSign sign negative) (hm : Mantissa m) : IsDecimal (sign ++ m) := by
  have h := IsDecimal.parts hsign hm .absent
  rwa [List.append_nil] at h

theorem Infer.SpellsInteger.isDecimal {n : Int} (h : SpellsInteger s n) : IsDecimal s := by
  cases h with
  | plain hne hds => exact isDecimal_of_mantissa .absent (.whole hne hds)
  | plus hne hds => exact isDecimal_of_mantissa .plus (.whole hne hds)
  | minus hne hds => exact isDecimal_of_mantissa .minus (.whole hne hds)

theorem Json.Numeral.Writes.isDecimal {n : Numeral} (hw : n.Writes s) : IsDecimal s := by
  obtain ⟨f, e, rfl, hwhole, hf, he⟩ := hw
  have hm : Mantissa (n.whole ++ f) := by
    generalize n.fraction = fraction at hf
    cases hf with
    | absent =>
      rw [List.append_nil]
      exact .whole hwhole.ne_nil hwhole.allDigits
    | digits hne hfs => exact .point hwhole.ne_nil hwhole.allDigits hfs
  rw [← List.append_assoc n.whole f e]
  split
  · exact .parts .minus hm he
  · exact .parts .absent hm he

namespace Infer

theorem exists_writesSign (s : List Char) :
    ∃ sign, s = sign ++ (splitSign s).2 ∧ WritesSign sign (splitSign s).1 := by
  unfold splitSign
  split
  · exact ⟨['-'], rfl, .minus⟩
  · exact ⟨['+'], rfl, .plus⟩
  · exact ⟨[], rfl, .absent⟩

theorem exists_writesExponent_of_exponent? {e : Int} (h : exponent? s = some e) :
    ∃ x, WritesExponent s x := by
  cases s with
  | nil => exact ⟨none, .absent⟩
  | cons c s =>
    obtain ⟨sign, hs, hsign⟩ := exists_writesSign s
    rw [exponent?, Option.ite_none_right_eq_some] at h
    obtain ⟨hmark, h⟩ := h
    dsimp only at h
    rw [Option.ite_none_right_eq_some] at h
    obtain ⟨⟨hne, hds⟩, -⟩ := h
    rw [hs]
    exact ⟨_, .digits hmark hsign hne (List.all_eq_true.1 hds)⟩

theorem isDecimal_of_decimal? {x : Float} (h : decimal? s = some x) : IsDecimal s := by
  obtain ⟨sign, hs, hsign⟩ := exists_writesSign s
  obtain ⟨ht, hwhole⟩ := run_eq (splitSign s).2
  rw [hs, ht]
  unfold decimal? at h
  dsimp only at h
  split at h
  · next r r' hr =>
    obtain ⟨hr', hfraction⟩ := run_eq r'
    rw [Option.ite_none_left_eq_some] at h
    obtain ⟨hne, h⟩ := h
    simp only [bind, Option.bind_eq_some_iff] at h
    obtain ⟨e, he, -⟩ := h
    obtain ⟨y, hy⟩ := exists_writesExponent_of_exponent? he
    rw [hr, hr', ← List.cons_append, ← List.append_assoc (run (splitSign s).2).1]
    exact .parts hsign (mantissa_of_point hwhole hfraction hne) hy
  · rw [Option.ite_none_left_eq_some] at h
    obtain ⟨hne, h⟩ := h
    simp only [bind, Option.bind_eq_some_iff] at h
    obtain ⟨e, he, -⟩ := h
    obtain ⟨y, hy⟩ := exists_writesExponent_of_exponent? he
    exact .parts hsign (.whole (fun hnil => hne ⟨hnil, rfl⟩) hwhole) hy

end Infer

/-! ## What no decimal has -/

theorem Json.Numeral.AllDigits.not_mem (hds : AllDigits ds) (hc : c.isDigit = false) :
    c ∉ ds := by
  intro hmem
  rw [hds c hmem] at hc
  cases hc

theorem mem_writesSign {sign : List Char} {negative : Bool} (hsign : WritesSign sign negative)
    (hc : c ∈ sign) : c = '+' ∨ c = '-' := by
  cases hsign with
  | absent => cases hc
  | plus => exact .inl (List.mem_singleton.1 hc)
  | minus => exact .inr (List.mem_singleton.1 hc)

theorem Mantissa.mem (hm : Mantissa s) (hc : c ∈ s) : c.isDigit = true ∨ c = '.' := by
  cases hm with
  | whole hne hds => exact .inl (hds c hc)
  | point hne hds hfs =>
    rcases List.mem_append.1 hc with hc | hc
    · exact .inl (hds c hc)
    · rcases List.mem_cons.1 hc with hc | hc
      · exact .inr hc
      · exact .inl (hfs c hc)
  | fraction hne hfs =>
    rcases List.mem_cons.1 hc with hc | hc
    · exact .inr hc
    · exact .inl (hfs c hc)

theorem mem_writesExponent {x : Option Json.Exponent} (he : WritesExponent s x) (hc : c ∈ s) :
    c.isDigit = true ∨ c ∈ ['+', '-', 'e', 'E'] := by
  cases he with
  | absent => cases hc
  | digits hmark hsign hne hds =>
    rcases List.mem_cons.1 hc with rfl | hc
    · exact .inr (by rcases hmark with rfl | rfl <;> simp)
    · rcases List.mem_append.1 hc with hc | hc
      · exact .inr (by rcases mem_writesSign hsign hc with rfl | rfl <;> simp)
      · exact .inl (hds c hc)

theorem IsDecimal.not_mem (h : IsDecimal s) (hdigit : c.isDigit = false)
    (hc : c ∉ ['+', '-', '.', 'e', 'E']) : c ∉ s := by
  simp only [List.mem_cons, List.not_mem_nil, or_false, not_or] at hc
  obtain ⟨hplus, hminus, hpoint, hsmall, hlarge⟩ := hc
  cases h with
  | parts hsign hm he =>
    rw [List.mem_append, List.mem_append]
    rintro (hmem | hmem | hmem)
    · exact (mem_writesSign hsign hmem).elim hplus hminus
    · rcases hm.mem hmem with hd | hd
      · exact absurd hd (Bool.eq_false_iff.1 hdigit)
      · exact hpoint hd
    · rcases mem_writesExponent he hmem with hd | hd
      · exact absurd hd (Bool.eq_false_iff.1 hdigit)
      · simp [hplus, hminus, hsmall, hlarge] at hd

theorem Mantissa.count_point (hm : Mantissa s) : s.count '.' ≤ 1 := by
  have hdigits : ∀ {ds}, AllDigits ds → ds.count '.' = 0 :=
    fun hds => List.count_eq_zero.2 (hds.not_mem (by decide))
  cases hm with
  | whole hne hds => rw [hdigits hds]; omega
  | point hne hds hfs => rw [List.count_append, List.count_cons_self, hdigits hds, hdigits hfs]
  | fraction hne hfs => rw [List.count_cons_self, hdigits hfs]

theorem IsDecimal.count_point (h : IsDecimal s) : s.count '.' ≤ 1 := by
  cases h with
  | parts hsign hm he =>
    have hsign' := List.count_eq_zero.2 fun hmem =>
      absurd (mem_writesSign hsign (c := '.') hmem) (by decide)
    have he' := List.count_eq_zero.2 fun hmem =>
      absurd (mem_writesExponent he (c := '.') hmem) (by decide)
    rw [List.count_append, List.count_append, hsign', he']
    have := hm.count_point
    omega

theorem IsDecimal.ne_sign_of_mem_tail (h : IsDecimal s) (hsmall : 'e' ∉ s) (hlarge : 'E' ∉ s)
    (hc : c ∈ s.tail) : c ≠ '+' ∧ c ≠ '-' := by
  have hmantissa : ∀ {m}, Mantissa m → c ∈ m → c ≠ '+' ∧ c ≠ '-' := by
    intro m hm hmem
    constructor <;> rintro rfl <;> exact absurd (hm.mem hmem) (by decide)
  cases h with
  | parts hsign hm he =>
    cases he with
    | digits hmark =>
      rcases hmark with rfl | rfl
      · exact absurd (by simp) hsmall
      · exact absurd (by simp) hlarge
    | absent =>
      rw [List.append_nil] at hc
      cases hsign with
      | absent => exact hmantissa hm (List.mem_of_mem_tail hc)
      | plus => exact hmantissa hm hc
      | minus => exact hmantissa hm hc

end JsonEdit
