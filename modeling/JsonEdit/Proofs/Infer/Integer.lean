import JsonEdit.Proofs.Infer.Word
import JsonEdit.Proofs.Json.Integer

/-!
# Free texts that stand for integers

* `SpellsInteger s n`: the text `s` is digits, leading zeros or not, with a sign before them or not,
  and `n` is their value.
* Main statement: a text stands for an integer just when it is an integer of a JSON text that fits
  64 bits with a sign or without one, with blanks around it, or another spelling of an integer that
  fits 64 bits with a sign, with nothing around it. So every spelling of such an integer stands for
  it, a zero with a minus alone excepted.
-/

namespace JsonEdit

open Decimal (value)
open Json (AllBlank Blankless Padded WritesInteger WritesScalar isBlank_iff)
open Json.Numeral (AllDigits)

variable {s ds : List Char} {text : String} {n m : Int} {v : Value}

namespace Infer

/-! ## Spelled integers -/

/-- The text `s` is `[+-]?[0-9]+` and its value is `n`. -/
inductive SpellsInteger : List Char → Int → Prop where
  | plain {ds : List Char} (hne : ds ≠ []) (hds : AllDigits ds) : SpellsInteger ds (value ds)
  | plus {ds : List Char} (hne : ds ≠ []) (hds : AllDigits ds) :
    SpellsInteger ('+' :: ds) (value ds)
  | minus {ds : List Char} (hne : ds ≠ []) (hds : AllDigits ds) :
    SpellsInteger ('-' :: ds) (-(value ds : Int))

theorem splitSign_of_allDigits (hds : AllDigits ds) : splitSign ds = (false, ds) := by
  unfold splitSign
  split
  · exact absurd (hds '-' List.mem_cons_self) (by decide)
  · exact absurd (hds '+' List.mem_cons_self) (by decide)
  · rfl

theorem spellsInteger_iff :
    SpellsInteger s n ↔ (splitSign s).2 ≠ [] ∧ AllDigits (splitSign s).2 ∧
      n = if (splitSign s).1 then -(value (splitSign s).2 : Int) else value (splitSign s).2 := by
  constructor
  · intro h
    cases h with
    | plain hne hds =>
      rw [splitSign_of_allDigits hds]
      exact ⟨hne, hds, rfl⟩
    | plus hne hds => exact ⟨hne, hds, rfl⟩
    | minus hne hds => exact ⟨hne, hds, rfl⟩
  · unfold splitSign
    split
    · rintro ⟨hne, hds, rfl⟩
      exact .minus hne hds
    · rintro ⟨hne, hds, rfl⟩
      exact .plus hne hds
    · rintro ⟨hne, hds, rfl⟩
      exact .plain hne hds

theorem SpellsInteger.unique (h : SpellsInteger s n) (h' : SpellsInteger s m) : n = m := by
  obtain ⟨-, -, rfl⟩ := spellsInteger_iff.1 h
  obtain ⟨-, -, rfl⟩ := spellsInteger_iff.1 h'
  rfl

theorem integer?_eq_some_iff :
    integer? s = some n ↔ SpellsInteger s n ∧ -2 ^ 63 ≤ n ∧ n < 2 ^ 63 := by
  have hall : (splitSign s).2.all Char.isDigit = true ↔ AllDigits (splitSign s).2 :=
    List.all_eq_true
  rw [spellsInteger_iff]
  unfold integer?
  dsimp only
  rw [Option.ite_none_right_eq_some, Option.ite_none_right_eq_some, Option.some.injEq, hall]
  constructor
  · rintro ⟨⟨hne, hds⟩, hrange, rfl⟩
    exact ⟨⟨hne, hds, rfl⟩, hrange⟩
  · rintro ⟨⟨hne, hds, rfl⟩, hrange⟩
    exact ⟨⟨hne, hds⟩, hrange, rfl⟩

theorem SpellsInteger.not_mem (h : SpellsInteger s n) {c : Char}
    (hc : c.isDigit = false ∧ c ≠ '+' ∧ c ≠ '-') : c ∉ s := by
  have hnot : ∀ {ds}, AllDigits ds → c ∉ ds := by
    intro ds hds hmem
    rw [hds c hmem] at hc
    exact Bool.noConfusion hc.1
  cases h with
  | plain hne hds => exact hnot hds
  | plus hne hds => exact List.not_mem_cons_of_ne_of_not_mem hc.2.1 (hnot hds)
  | minus hne hds => exact List.not_mem_cons_of_ne_of_not_mem hc.2.2 (hnot hds)

theorem SpellsInteger.blankless (h : SpellsInteger s n) : Blankless s := by
  intro c hc
  rw [Bool.eq_false_iff, Ne, isBlank_iff]
  rintro (rfl | rfl | rfl | rfl)
  all_goals exact h.not_mem (by decide) hc

theorem SpellsInteger.word?_eq_none (h : SpellsInteger s n) : word? s = none := by
  rw [Option.eq_none_iff_forall_ne_some]
  intro v hv
  obtain ⟨word, hword, hs⟩ := inferWord?_eq_some_iff.1 hv
  cases hword
  all_goals
    cases hs with
    | cons hc hrest =>
      rcases hc with rfl | rfl
      all_goals exact h.not_mem (by decide) List.mem_cons_self

theorem spellsInteger_of_writesInteger (h : WritesInteger s n) :
    SpellsInteger s n := by
  cases h with
  | plain hds => exact .plain hds.ne_nil hds.allDigits
  | minus hds => exact .minus hds.ne_nil hds.allDigits

/-! ## Integers of a JSON text -/

/-- What is no integer of a JSON text has a plus or a superfluous zero in front. -/
theorem SpellsInteger.not_writesInteger_iff (h : SpellsInteger s n) :
    (∀ m, ¬ WritesInteger s m) ↔
      (∃ ds, s = '+' :: ds) ∨ ∃ d ds, s = '0' :: d :: ds ∨ s = '-' :: '0' :: d :: ds := by
  constructor
  · intro hnot
    cases h with
    | plain hne hds =>
      rcases Json.Numeral.writesWhole_or_leading_zero hne hds with hw | ⟨d, es, rfl⟩
      · exact absurd (.plain hw) (hnot _)
      · exact .inr ⟨d, es, .inl rfl⟩
    | plus => exact .inl ⟨_, rfl⟩
    | minus hne hds =>
      rcases Json.Numeral.writesWhole_or_leading_zero hne hds with hw | ⟨d, es, rfl⟩
      · exact absurd (.minus hw) (hnot _)
      · exact .inr ⟨d, es, .inr rfl⟩
  · intro hfront m hm
    cases hm with
    | plain hw =>
      obtain ⟨c, es, rfl, hc⟩ := hw.head?
      rcases hfront with ⟨ds, hs⟩ | ⟨d, ds, hs | hs⟩ <;> obtain ⟨rfl, rfl⟩ := List.cons.inj hs
      · exact absurd hc (by decide)
      · exact hw.not_leading_zero
      · exact absurd hc (by decide)
    | minus hw =>
      rcases hfront with ⟨ds, hs⟩ | ⟨d, ds, hs | hs⟩ <;> obtain ⟨hsign, rfl⟩ := List.cons.inj hs
      · exact absurd hsign (by decide)
      · exact absurd hsign (by decide)
      · exact hw.not_leading_zero

theorem SpellsInteger.writesInteger (h : SpellsInteger text.toList n)
    (hread : readDocument text = .ok v) : WritesInteger text.toList n := by
  have hwrites : WritesScalar text.toList v :=
    Json.writesScalar_of_readDocument hread h.blankless (h.not_mem (by decide))
      (h.not_mem (by decide))
  generalize text.toList = s at h hwrites
  cases hwrites with
  | word hc =>
    have hword := h.word?_eq_none
    rw [inferWord?_eq_some_iff.2 ⟨_, isWord_of_word? hc, (isWord_of_word? hc).isCaseVariant_self⟩]
      at hword
    cases hword
  | number hw =>
    have hs := hw.writesInteger (hw.fraction_eq_nil (h.not_mem (by decide)))
      (hw.exponent_eq_none (h.not_mem (by decide)) (h.not_mem (by decide)))
    rwa [h.unique (spellsInteger_of_writesInteger hs)]
  | string => exact absurd List.mem_cons_self (h.not_mem (by decide))

/-- An integer of a JSON text that is no document does not fit 64 bits. -/
theorem NotJson.not_writesInteger (hjson : NotJson text) (h : SpellsInteger text.toList n)
    (hlow : -2 ^ 63 ≤ n) (hhigh : n < 2 ^ 63) : ¬ WritesInteger text.toList m := by
  intro hm
  obtain rfl := h.unique (spellsInteger_of_writesInteger hm)
  obtain ⟨v, hv⟩ := hm.exists_writesScalar hlow (by omega)
  exact hjson v (hv.readDocument (.refl _))

end Infer

open Infer

/-! ## Free texts -/

theorem infer_eq_integer_iff :
    infer text = .number (.integer n) ↔
      (∃ w, Padded w text.toList ∧ WritesInteger w n ∧ w ≠ ['-', '0'] ∧ -2 ^ 63 ≤ n ∧
        n ≤ 2 ^ 64 - 1) ∨
      SpellsInteger text.toList n ∧ (∀ m, ¬ WritesInteger text.toList m) ∧ -2 ^ 63 ≤ n ∧
        n ≤ 2 ^ 63 - 1 := by
  rw [infer_eq_iff]
  constructor
  · intro h
    generalize hv : Value.number (.integer n) = v at h
    cases h with
    | json hread =>
      subst hv
      obtain ⟨w, hpadded, hw⟩ :=
        (Json.readDocument_eq_ok_iff_padded (by simp [Value.kind]) (by simp [Value.kind])).1 hread
      obtain ⟨hinteger, hminus, hlow, hhigh⟩ := Json.writesScalar_integer_iff.1 hw
      exact .inl ⟨w, hpadded, hinteger, hminus, hlow, Int.le_sub_one_of_lt hhigh⟩
    | word hjson hword =>
      obtain ⟨word, hword, -⟩ := inferWord?_eq_some_iff.1 hword
      cases hword <;> cases hv
    | integer hjson hword hinteger =>
      cases hv
      obtain ⟨hspells, hlow, hhigh⟩ := integer?_eq_some_iff.1 hinteger
      exact .inr ⟨hspells, fun m => hjson.not_writesInteger hspells hlow hhigh, hlow,
        Int.le_sub_one_of_lt hhigh⟩
    | decimal => cases hv
    | verbatim => cases hv
  · rintro (⟨w, hpadded, hw, hminus, hlow, hhigh⟩ | ⟨hspells, hnot, hlow, hhigh⟩)
    · exact .json ((hw.writesScalar hminus hlow (Int.lt_of_le_sub_one hhigh)).readDocument hpadded)
    · refine .integer (fun v hread => hnot n (hspells.writesInteger hread)) hspells.word?_eq_none ?_
      exact integer?_eq_some_iff.2 ⟨hspells, hlow, Int.lt_of_le_sub_one hhigh⟩

theorem infer_minusZero (h : Padded ['-', '0'] text.toList) :
    infer text = .number (.fraction (-0.0)) :=
  infer_of_readDocument (Json.writesScalar_minusZero.readDocument h)

theorem infer_of_spellsInteger (h : SpellsInteger text.toList n) (hlow : -2 ^ 63 ≤ n)
    (hhigh : n ≤ 2 ^ 63 - 1) (hminus : text.toList ≠ ['-', '0']) :
    infer text = .number (.integer n) := by
  rw [infer_eq_integer_iff]
  by_cases hinteger : ∃ m, WritesInteger text.toList m
  · obtain ⟨m, hm⟩ := hinteger
    obtain rfl := h.unique (spellsInteger_of_writesInteger hm)
    exact .inl ⟨text.toList, .refl _, hm, hminus, hlow, by omega⟩
  · exact .inr ⟨h, not_exists.1 hinteger, hlow, hhigh⟩

/-- A text stands for an integer just when it is an integer of a JSON text that fits 64 bits with a
sign or without one, with blanks around it, or another spelling of an integer that fits 64 bits with
a sign, with nothing around it. Other spellings are those with a plus or a superfluous zero. Every
spelling of an integer that fits with a sign stands for it, only a zero with a minus stands for the
fraction `-0.0`, also with blanks around it. -/
theorem infer_integer_exactly (text : String) :
    (∀ n, infer text = .number (.integer n) ↔
      (∃ w, Padded w text.toList ∧ WritesInteger w n ∧ w ≠ ['-', '0'] ∧ -2 ^ 63 ≤ n ∧
        n ≤ 2 ^ 64 - 1) ∨
      SpellsInteger text.toList n ∧ (∀ m, ¬ WritesInteger text.toList m) ∧ -2 ^ 63 ≤ n ∧
        n ≤ 2 ^ 63 - 1) ∧
    (∀ n, SpellsInteger text.toList n →
      ((∀ m, ¬ WritesInteger text.toList m) ↔ (∃ ds, text.toList = '+' :: ds) ∨
        ∃ d ds, text.toList = '0' :: d :: ds ∨ text.toList = '-' :: '0' :: d :: ds)) ∧
    (∀ n, SpellsInteger text.toList n → -2 ^ 63 ≤ n → n ≤ 2 ^ 63 - 1 →
      (infer text = .number (.integer n) ↔ text.toList ≠ ['-', '0'])) ∧
    (Padded ['-', '0'] text.toList → infer text = .number (.fraction (-0.0))) := by
  refine ⟨fun n => infer_eq_integer_iff, fun n h => h.not_writesInteger_iff,
    fun n h hlow hhigh => ⟨fun hinfer htext => ?_, ?_⟩, infer_minusZero⟩
  · rw [infer_minusZero (htext ▸ .refl _)] at hinfer
    cases hinfer
  · exact infer_of_spellsInteger h hlow hhigh

theorem infer_leastInteger_leading_zero :
    SpellsInteger "-09223372036854775808".toList (-2 ^ 63) ∧
      infer "-09223372036854775808" = .number (.integer (-2 ^ 63)) ∧
      infer " -0\n" = .number (.fraction (-0.0)) := by
  obtain ⟨-, -, hspelled, -⟩ := infer_integer_exactly "-09223372036854775808"
  obtain ⟨-, -, -, hzero⟩ := infer_integer_exactly " -0\n"
  have h : SpellsInteger "-09223372036854775808".toList (-2 ^ 63) := by
    show SpellsInteger ('-' :: "09223372036854775808".toList)
      (-(value "09223372036854775808".toList : Int))
    exact .minus (by decide) (by simp [AllDigits])
  exact ⟨h, (hspelled _ h (by decide) (by decide)).2 (by decide),
    hzero ⟨[' '], ['\n'], by decide, by simp [Json.Spaces], by simp [Json.Spaces]⟩⟩

end JsonEdit
