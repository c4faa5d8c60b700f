import JsonEdit.Proofs.Infer.Rules
import JsonEdit.Proofs.Json.Scalar
import Mathlib

/-!
# Free texts that stand for true, false or null

* `IsCaseVariant word s`: the text `s` is the word with any of its letters as capitals.
* Main statement: a text stands for true, false or null just when it is the word of this value in
  small letters with blanks around it, or a case variant of the word with nothing around it.
-/

namespace JsonEdit

open Json (Blankless Padded WritesScalar isBlank_iff)

/-! ## Case variants -/

/-- The text `s` is the word with any of its letters as capitals. -/
def IsCaseVariant (word s : List Char) : Prop :=
  List.Forall₂ (fun c d => d = c ∨ d = c.toUpper) word s

theorem toLower_eq_iff {c d : Char} (hc : c.isLower = true) :
    d.toLower = c ↔ d = c ∨ d = c.toUpper := by
  have hself : c.toLower = c := Char.toLower_eq_of_not_isUpper (Char.not_isUpper_of_isLower hc)
  constructor
  · rintro rfl
    by_cases hd : d.isUpper = true
    · refine .inr ?_
      rw [Char.toUpper_toLower_eq_toUpper,
        Char.toUpper_eq_of_not_isLower (Char.not_isLower_of_isUpper hd)]
    · exact .inl (Char.toLower_eq_of_not_isUpper hd).symm
  · rintro (rfl | rfl)
    · exact hself
    · rw [Char.toLower_toUpper_eq_toLower, hself]

/-- Outside ASCII there are no letters. -/
theorem isLower_toLower_of_le {d : Char} (hd : 128 ≤ d.toNat) : d.toLower.isLower = false := by
  have hval : 128 ≤ d.val := hd
  rw [Char.isLower_toLower_eq_isAlpha, Bool.eq_false_iff, Char.isAlpha, Ne, Bool.or_eq_true]
  rintro (hupper | hlower)
  · simp only [Char.isUpper, decide_eq_true_eq] at hupper
    have hle : d.val ≤ 90 := hupper.2
    exact absurd (UInt32.le_trans hval hle) (by decide)
  · simp only [Char.isLower, Bool.and_eq_true, decide_eq_true_eq] at hlower
    have hle : d.val ≤ 122 := hlower.2
    exact absurd (UInt32.le_trans hval hle) (by decide)

variable {word s : List Char} {v : Value} {text : String}

theorem map_toLower_eq_iff (hword : ∀ c ∈ word, c.isLower = true) :
    s.map Char.toLower = word ↔ IsCaseVariant word s := by
  unfold IsCaseVariant
  induction word generalizing s with
  | nil => simp
  | cons c word ih =>
    obtain ⟨hc, hrest⟩ := List.forall_mem_cons.1 hword
    cases s with
    | nil => simp
    | cons d s =>
      rw [List.map_cons, List.cons.injEq, List.forall₂_cons, toLower_eq_iff hc, ih hrest]

/-! ## Words and their values -/

/-- The word in small letters that stands for the value. -/
inductive IsWord : List Char → Value → Prop where
  | ofTrue : IsWord ['t', 'r', 'u', 'e'] (.boolean true)
  | ofFalse : IsWord ['f', 'a', 'l', 's', 'e'] (.boolean false)
  | ofNull : IsWord ['n', 'u', 'l', 'l'] .null

namespace IsWord

theorem isLower (h : IsWord word v) : ∀ c ∈ word, c.isLower = true := by
  cases h <;> simp

theorem unique {w : Value} (h : IsWord word v) (h' : IsWord word w) : v = w := by
  cases h <;> cases h' <;> rfl

theorem word_unique {other : List Char} (h : IsWord word v) (h' : IsWord other v) :
    word = other := by
  cases h <;> cases h' <;> rfl

theorem not_container (h : IsWord word v) : v.kind ≠ .array ∧ v.kind ≠ .object := by
  cases h <;> decide

theorem writesScalar (h : IsWord word v) : WritesScalar word v := by
  cases h <;> exact .word rfl

theorem map_toLower (h : IsWord word v) : word.map Char.toLower = word := by
  cases h <;> rfl

theorem not_mem_of_isCaseVariant (h : IsWord word v) (hs : IsCaseVariant word s) {d : Char}
    (hd : d.toLower.isLower = false) : d ∉ s := by
  intro hmem
  have hlower := h.isLower d.toLower
  rw [← (map_toLower_eq_iff h.isLower).2 hs, hd] at hlower
  exact absurd (hlower (List.mem_map_of_mem hmem)) Bool.false_ne_true

theorem blankless_of_isCaseVariant (h : IsWord word v) (hs : IsCaseVariant word s) :
    Blankless s := by
  intro c hc
  rw [Bool.eq_false_iff, Ne, isBlank_iff]
  have hnot : ∀ d : Char, d.toLower.isLower = false → c ≠ d := by
    rintro d hd rfl
    exact h.not_mem_of_isCaseVariant hs hd hc
  rintro (hblank | hblank | hblank | hblank)
  all_goals exact hnot _ (by decide) hblank

theorem isCaseVariant_self (h : IsWord word v) : IsCaseVariant word word :=
  (map_toLower_eq_iff h.isLower).1 h.map_toLower

theorem startsNumber_of_isCaseVariant {c : Char} (h : IsWord word v)
    (hs : IsCaseVariant word (c :: s)) : Json.startsNumber c = false := by
  cases h
  all_goals
    obtain ⟨rfl | rfl, -⟩ := List.forall₂_cons.1 hs
    all_goals decide

end IsWord

theorem isWord_of_word? {c : Char} {letters : List Char}
    (h : Json.word? c = some (letters, v)) : IsWord (c :: letters) v := by
  unfold Json.word? at h
  split at h
  · cases h
    exact .ofNull
  · cases h
    exact .ofTrue
  · cases h
    exact .ofFalse
  · cases h

theorem inferWord?_eq_some_iff :
    Infer.word? s = some v ↔ ∃ word, IsWord word v ∧ IsCaseVariant word s := by
  have hlower : Infer.word? s = some v ↔ IsWord (s.map Char.toLower) v := by
    unfold Infer.word?
    dsimp only
    generalize s.map Char.toLower = lower
    constructor
    · intro h
      split at h
      · next heq => exact heq ▸ Option.some.inj h ▸ .ofTrue
      · split at h
        · next heq => exact heq ▸ Option.some.inj h ▸ .ofFalse
        · split at h
          · next heq => exact heq ▸ Option.some.inj h ▸ .ofNull
          · cases h
    · intro h
      cases h <;> rfl
  rw [hlower]
  constructor
  · intro h
    exact ⟨_, h, (map_toLower_eq_iff h.isLower).1 rfl⟩
  · rintro ⟨word, h, hs⟩
    rw [(map_toLower_eq_iff h.isLower).2 hs]
    exact h

/-! ## Reading -/

theorem IsWord.of_writesScalar {other : List Char} (h : IsWord word v)
    (hw : WritesScalar other v) : word = other := by
  cases hw with
  | word hc => exact h.word_unique (isWord_of_word? hc)
  | number => cases h
  | string => cases h

theorem IsWord.eq_of_readDocument {w : Value} (h : IsWord word v)
    (hs : IsCaseVariant word text.toList) (hread : readDocument text = .ok w) : v = w := by
  have hwrites : WritesScalar text.toList w :=
    Json.writesScalar_of_readDocument hread (h.blankless_of_isCaseVariant hs)
      (h.not_mem_of_isCaseVariant hs (by decide)) (h.not_mem_of_isCaseVariant hs (by decide))
  generalize text.toList = s at hs hwrites
  cases hwrites with
  | word hc =>
    have hsame := isWord_of_word? hc
    rw [← hsame.map_toLower, (map_toLower_eq_iff h.isLower).2 hs] at hsame
    exact h.unique hsame
  | number hw =>
    obtain ⟨c, t, rfl, hc⟩ := hw.head?
    rw [h.startsNumber_of_isCaseVariant hs] at hc
    cases hc
  | string hq => exact absurd List.mem_cons_self (h.not_mem_of_isCaseVariant hs (by decide))

theorem IsWord.infer_eq_iff (h : IsWord word v) :
    infer text = v ↔ Padded word text.toList ∨ IsCaseVariant word text.toList := by
  rw [JsonEdit.infer_eq_iff]
  constructor
  · intro hstands
    cases hstands with
    | json hread =>
      obtain ⟨w, hpadded, hw⟩ :=
        (Json.readDocument_eq_ok_iff_padded h.not_container.1 h.not_container.2).1 hread
      obtain rfl := h.of_writesScalar hw
      exact .inl hpadded
    | word hjson hword =>
      obtain ⟨other, hother, hs⟩ := inferWord?_eq_some_iff.1 hword
      obtain rfl := h.word_unique hother
      exact .inr hs
    | integer => cases h
    | decimal => cases h
    | verbatim => cases h
  · rintro (hpadded | hs)
    · exact .json (h.writesScalar.readDocument hpadded)
    · by_cases hread : ∃ w, readDocument text = .ok w
      · obtain ⟨w, hw⟩ := hread
        obtain rfl := h.eq_of_readDocument hs hw
        exact .json hw
      · exact .word (not_exists.1 hread) (inferWord?_eq_some_iff.2 ⟨word, h, hs⟩)

/-- A case variant with blanks around it is no word, unless it is in small letters. -/
theorem IsWord.infer_ne_of_padded {other : List Char} {w : Value} (h : IsWord word v)
    (hs : IsCaseVariant word s) (hcase : s ≠ word) (hpadded : Padded s text.toList)
    (hblank : text.toList ≠ s) (hother : IsWord other w) : infer text ≠ w := by
  intro hinfer
  have hbare := h.blankless_of_isCaseVariant hs
  rcases hother.infer_eq_iff.1 hinfer with hsmall | hvariant
  · have hword := hother.blankless_of_isCaseVariant hother.isCaseVariant_self
    obtain rfl : s = other := (hpadded.filter_eq hbare).symm.trans (hsmall.filter_eq hword)
    exact hcase (hother.map_toLower.symm.trans ((map_toLower_eq_iff h.isLower).2 hs))
  · exact hblank (hpadded.eq_of_blankless (hother.blankless_of_isCaseVariant hvariant))

theorem IsWord.infer_ne_of_mem {c : Char} (h : IsWord word v) (hc : c ∈ text.toList)
    (hlarge : 128 ≤ c.toNat) : infer text ≠ v := by
  intro hinfer
  have hlower := isLower_toLower_of_le hlarge
  rcases h.infer_eq_iff.1 hinfer with ⟨bs, cs, htext, hb, hcs⟩ | hs
  · have hblank : ∀ d, d = ' ' ∨ d = '\t' ∨ d = '\n' ∨ d = '\r' → d.toNat < 128 := by
      rintro d (rfl | rfl | rfl | rfl) <;> decide
    rw [htext, List.mem_append, List.mem_append] at hc
    rcases hc with hc | hc | hc
    · exact absurd (hblank c (hb c hc)) (Nat.not_lt.2 hlarge)
    · exact h.not_mem_of_isCaseVariant h.isCaseVariant_self hlower hc
    · exact absurd (hblank c (hcs c hc)) (Nat.not_lt.2 hlarge)
  · exact h.not_mem_of_isCaseVariant hs hlower hc

/-- A text stands for true, false or null just when it is the word in small letters with blanks
around it, or the word in any mix of cases with nothing around it. So a word with a capital and
blanks around it stands for none of the three, and neither does a text with a character outside
ASCII. -/
theorem infer_eq_boolean_or_null_iff (text : String) :
    (infer text = .boolean true ↔ Padded ['t', 'r', 'u', 'e'] text.toList ∨
      IsCaseVariant ['t', 'r', 'u', 'e'] text.toList) ∧
    (infer text = .boolean false ↔ Padded ['f', 'a', 'l', 's', 'e'] text.toList ∨
      IsCaseVariant ['f', 'a', 'l', 's', 'e'] text.toList) ∧
    (infer text = .null ↔ Padded ['n', 'u', 'l', 'l'] text.toList ∨
      IsCaseVariant ['n', 'u', 'l', 'l'] text.toList) ∧
    (∀ word v s, IsWord word v → IsCaseVariant word s → s ≠ word → Padded s text.toList →
      text.toList ≠ s → (∀ b, infer text ≠ .boolean b) ∧ infer text ≠ .null) ∧
    ((∃ c ∈ text.toList, 128 ≤ c.toNat) → (∀ b, infer text ≠ .boolean b) ∧ infer text ≠ .null) := by
  refine ⟨IsWord.ofTrue.infer_eq_iff, IsWord.ofFalse.infer_eq_iff, IsWord.ofNull.infer_eq_iff,
    fun word v s h hs hcase hpadded hblank => ?_, fun ⟨c, hc, hlarge⟩ => ?_⟩
  · refine ⟨fun b => ?_, h.infer_ne_of_padded hs hcase hpadded hblank .ofNull⟩
    cases b with
    | true => exact h.infer_ne_of_padded hs hcase hpadded hblank .ofTrue
    | false => exact h.infer_ne_of_padded hs hcase hpadded hblank .ofFalse
  · refine ⟨fun b => ?_, IsWord.ofNull.infer_ne_of_mem hc hlarge⟩
    cases b with
    | true => exact IsWord.ofTrue.infer_ne_of_mem hc hlarge
    | false => exact IsWord.ofFalse.infer_ne_of_mem hc hlarge

theorem infer_padded_word_with_capital :
    infer "nULL" = .null ∧ infer " True\n" ≠ .boolean true := by
  obtain ⟨-, -, hnull, -⟩ := infer_eq_boolean_or_null_iff "nULL"
  obtain ⟨-, -, -, hpadded, -⟩ := infer_eq_boolean_or_null_iff " True\n"
  have hcapital : IsCaseVariant ['t', 'r', 'u', 'e'] ['T', 'r', 'u', 'e'] := by
    simp [IsCaseVariant]
  refine ⟨hnull.2 (.inr (by simp [IsCaseVariant])), ?_⟩
  exact (hpadded _ _ _ .ofTrue hcapital (by decide)
    ⟨[' '], ['\n'], by decide, by simp [Json.Spaces], by simp [Json.Spaces]⟩ (by decide)).1 true

end JsonEdit
