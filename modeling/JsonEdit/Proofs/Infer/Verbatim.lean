import JsonEdit.Proofs.Infer.Decimal
import JsonEdit.Proofs.Json.Literal

/-!
# Free texts that stand for themselves

* `Bare s`: the text `s` holds no blank, no quote and no bracket that opens a container.
* `Lookalike s`: the text `s` looks like a number to a reader, but is none: infinities, hexadecimal
  numbers, digits in groups, dates and versions.
* Main statement: what is no document, no case variant of a word and no decimal stands for itself,
  and among such texts are all lookalikes. A text that stands for another string is a literal of
  this string with blanks around it.
-/

namespace JsonEdit

open Infer (NotJson)
open Json (Blankless IsHex Padded WritesString isBlank_iff)
open Json.Numeral (AllDigits WritesSign)

variable {s : List Char} {c : Char} {text : String}

/-- The text `s` is no case variant of a word. -/
def NoWord (s : List Char) : Prop :=
  ∀ word v, IsWord word v → ¬ IsCaseVariant word s

/-- Nothing in the text `s` is blank, a quote, or opens a container. -/
def Bare (s : List Char) : Prop :=
  Blankless s ∧ '"' ∉ s ∧ '[' ∉ s ∧ '\x7b' ∉ s

/-- The names of floats that are no numbers. -/
def specials : List (List Char) :=
  [['i', 'n', 'f'], ['i', 'n', 'f', 'i', 'n', 'i', 't', 'y'], ['n', 'a', 'n']]

/-- Texts that look like numbers and are none. -/
inductive Lookalike : List Char → Prop where
  | special {sign word s : List Char} {negative : Bool} (hsign : WritesSign sign negative)
    (hword : word ∈ specials) (hs : IsCaseVariant word s) : Lookalike (sign ++ s)
  | hex {sign ds : List Char} {negative : Bool} {mark : Char} (hsign : WritesSign sign negative)
    (hmark : mark = 'x' ∨ mark = 'X') (hds : ∀ d ∈ ds, IsHex d) :
    Lookalike (sign ++ '0' :: mark :: ds)
  | grouped {sign ds rest : List Char} {negative : Bool} {mark : Char}
    (hsign : WritesSign sign negative) (hds : AllDigits ds) (hmark : mark = '_' ∨ mark = ',')
    (hrest : ∀ c ∈ rest, c.isDigit = true ∨ c = mark ∨ c = '.') :
    Lookalike (sign ++ (ds ++ mark :: rest))
  | date {ys ms ds : List Char} (hne : ys ≠ []) (hys : AllDigits ys) (hms : AllDigits ms)
    (hds : AllDigits ds) : Lookalike (ys ++ '-' :: (ms ++ '-' :: ds))
  | version {ds es rest : List Char} (hds : AllDigits ds) (hes : AllDigits es)
    (hrest : ∀ c ∈ rest, c.isDigit = true ∨ c = '.') :
    Lookalike (ds ++ '.' :: (es ++ '.' :: rest))

/-! ## The last rule -/

theorem NoWord.word?_eq_none (h : NoWord s) : Infer.word? s = none := by
  rw [Option.eq_none_iff_forall_ne_some]
  intro v hv
  obtain ⟨word, hword, hs⟩ := inferWord?_eq_some_iff.1 hv
  exact h word v hword hs

theorem infer_verbatim (hjson : NotJson text) (hword : NoWord text.toList)
    (hdecimal : ¬ IsDecimal text.toList) : infer text = .string text := by
  have hinteger : Infer.integer? text.toList = none := by
    rw [Option.eq_none_iff_forall_ne_some]
    intro n hn
    exact hdecimal (Infer.integer?_eq_some_iff.1 hn).1.isDecimal
  have hfraction : Infer.decimal? text.toList = none := by
    rw [Option.eq_none_iff_forall_ne_some]
    intro x hx
    exact hdecimal (Infer.isDecimal_of_decimal? hx)
  exact infer_of_standsFor (.verbatim hjson hword.word?_eq_none hinteger hfraction)

theorem Bare.notJson (h : Bare text.toList) (hword : NoWord text.toList)
    (hdecimal : ¬ IsDecimal text.toList) : NotJson text := by
  obtain ⟨hblank, hquote, hlist, hobject⟩ := h
  intro v hread
  have hwrites := Json.writesScalar_of_readDocument hread hblank hlist hobject
  generalize text.toList = s at hword hdecimal hquote hwrites
  cases hwrites with
  | word hc =>
    have hsame := isWord_of_word? hc
    exact hword _ _ hsame hsame.isCaseVariant_self
  | number hw => exact hdecimal hw.isDecimal
  | string => exact hquote List.mem_cons_self

theorem infer_eq_string_and_ne_iff {r : String} :
    infer text = .string r ∧ r ≠ text ↔ ∃ w, Padded w text.toList ∧ WritesString w r := by
  rw [← Json.readDocument_eq_string_iff, infer_eq_iff]
  constructor
  · rintro ⟨hstands, hne⟩
    cases hstands with
    | json hread => exact hread
    | word hjson hword =>
      obtain ⟨word, hword, -⟩ := inferWord?_eq_some_iff.1 hword
      cases hword
    | verbatim => exact absurd rfl hne
  · intro hread
    refine ⟨.json hread, ?_⟩
    rintro rfl
    -- a literal is longer than what it denotes
    obtain ⟨w, ⟨bs, cs, htext, -, -⟩, hw⟩ := Json.readDocument_eq_string_iff.1 hread
    have hlt := hw.length_lt
    have hlength := congrArg List.length htext
    simp only [List.length_append] at hlength
    omega

/-! ## Lookalikes -/

theorem isLower_of_specials {word : List Char} (hword : word ∈ specials) :
    ∀ c ∈ word, c.isLower = true := by
  simp only [specials, List.mem_cons, List.not_mem_nil, or_false] at hword
  rcases hword with rfl | rfl | rfl <;> simp

theorem map_toLower_of_specials {word : List Char} (hword : word ∈ specials)
    (hs : IsCaseVariant word s) : s.map Char.toLower = word :=
  (map_toLower_eq_iff (isLower_of_specials hword)).2 hs

theorem isAlpha_of_specials {word : List Char} (hword : word ∈ specials)
    (hs : IsCaseVariant word s) (hc : c ∈ s) : c.isAlpha = true := by
  have hmem : c.toLower ∈ word := map_toLower_of_specials hword hs ▸ List.mem_map_of_mem hc
  rw [← Char.isLower_toLower_eq_isAlpha]
  exact isLower_of_specials hword _ hmem

theorem exists_mem_of_specials {word : List Char} (hword : word ∈ specials)
    (hs : IsCaseVariant word s) : 'n' ∈ s ∨ 'N' ∈ s := by
  have hn : ∀ word ∈ specials, 'n' ∈ word := by decide
  have hmem := hn word hword
  rw [← map_toLower_of_specials hword hs, List.mem_map] at hmem
  obtain ⟨c, hc, hcn⟩ := hmem
  rcases (toLower_eq_iff (by decide)).1 hcn with rfl | rfl
  · exact .inl hc
  · exact .inr hc

theorem isAlphanum_of_isHex (hc : IsHex c) : c.isAlphanum = true := by
  obtain ⟨n, hn⟩ := Json.isHex_iff.1 hc
  obtain ⟨hlt, hdigit⟩ := Json.hexValue?_eq_some_iff.1 hn
  have all : ∀ n < 16, n.digitChar.isAlphanum = true ∧ n.digitChar.toUpper.isAlphanum = true := by
    decide
  rcases hdigit with rfl | rfl
  · exact (all n hlt).1
  · exact (all n hlt).2

namespace Lookalike

theorem mem (h : Lookalike s) (hc : c ∈ s) :
    c.isAlphanum = true ∨ c ∈ ['+', '-', '.', ',', '_'] := by
  have hdigit : c.isDigit = true → c.isAlphanum = true := by
    intro hd
    rw [Char.isAlphanum, hd, Bool.or_true]
  have hsigned : ∀ {sign negative}, WritesSign sign negative → c ∈ sign →
      c ∈ ['+', '-', '.', ',', '_'] := by
    intro sign negative hsign hmem
    rcases mem_writesSign hsign hmem with rfl | rfl <;> simp
  cases h with
  | special hsign hword hs =>
    rcases List.mem_append.1 hc with hc | hc
    · exact .inr (hsigned hsign hc)
    · refine .inl ?_
      rw [Char.isAlphanum, isAlpha_of_specials hword hs hc, Bool.true_or]
  | hex hsign hmark hds =>
    rcases List.mem_append.1 hc with hc | hc
    · exact .inr (hsigned hsign hc)
    rcases List.mem_cons.1 hc with rfl | hc
    · exact .inl (by decide)
    rcases List.mem_cons.1 hc with rfl | hc
    · exact .inl (by rcases hmark with rfl | rfl <;> decide)
    · exact .inl (isAlphanum_of_isHex (hds c hc))
  | grouped hsign hds hmark hrest =>
    have hmarked : ∀ {d}, d = '_' ∨ d = ',' → d ∈ ['+', '-', '.', ',', '_'] := by
      rintro d (rfl | rfl) <;> simp
    rcases List.mem_append.1 hc with hc | hc
    · exact .inr (hsigned hsign hc)
    rcases List.mem_append.1 hc with hc | hc
    · exact .inl (hdigit (hds c hc))
    rcases List.mem_cons.1 hc with rfl | hc
    · exact .inr (hmarked hmark)
    rcases hrest c hc with hc | rfl | rfl
    · exact .inl (hdigit hc)
    · exact .inr (hmarked hmark)
    · exact .inr (by simp)
  | date hne hys hms hds =>
    simp only [List.mem_append, List.mem_cons] at hc
    rcases hc with hc | rfl | hc | rfl | hc
    · exact .inl (hdigit (hys c hc))
    · exact .inr (by simp)
    · exact .inl (hdigit (hms c hc))
    · exact .inr (by simp)
    · exact .inl (hdigit (hds c hc))
  | version hds hes hrest =>
    simp only [List.mem_append, List.mem_cons] at hc
    rcases hc with hc | rfl | hc | rfl | hc
    · exact .inl (hdigit (hds c hc))
    · exact .inr (by simp)
    · exact .inl (hdigit (hes c hc))
    · exact .inr (by simp)
    · rcases hrest c hc with hc | rfl
      · exact .inl (hdigit hc)
      · exact .inr (by simp)

theorem not_mem (h : Lookalike s) (halphanum : c.isAlphanum = false)
    (hc : c ∉ ['+', '-', '.', ',', '_']) : c ∉ s := by
  intro hmem
  rcases h.mem hmem with hd | hd
  · rw [halphanum] at hd
    cases hd
  · exact hc hd

theorem bare (h : Lookalike s) : Bare s := by
  refine ⟨fun c hc => ?_, h.not_mem (by decide) (by decide), h.not_mem (by decide) (by decide),
    h.not_mem (by decide) (by decide)⟩
  rw [Bool.eq_false_iff, Ne, isBlank_iff]
  rintro (rfl | rfl | rfl | rfl)
  all_goals exact h.not_mem (by decide) (by decide) hc

theorem noWord (h : Lookalike s) : NoWord s := by
  intro word v hword hs
  have hnot : ∀ d : Char, d.toLower.isLower = false → d ∉ s :=
    fun d hd => hword.not_mem_of_isCaseVariant hs hd
  cases h with
  | special hsign hspecial hs' =>
    cases hsign with
    | absent =>
      have hsame := (map_toLower_eq_iff hword.isLower).2 hs
      rw [List.nil_append, map_toLower_of_specials hspecial hs'] at hsame
      subst hsame
      cases hword <;> exact absurd hspecial (by decide)
    | plus => exact hnot '+' (by decide) (by simp)
    | minus => exact hnot '-' (by decide) (by simp)
  | hex => exact hnot '0' (by decide) (by simp)
  | grouped hsign hds hmark =>
    rcases hmark with rfl | rfl
    · exact hnot '_' (by decide) (by simp)
    · exact hnot ',' (by decide) (by simp)
  | date => exact hnot '-' (by decide) (by simp)
  | version => exact hnot '.' (by decide) (by simp)

theorem not_isDecimal (h : Lookalike s) : ¬ IsDecimal s := by
  intro hdecimal
  have hnot : ∀ d : Char, d.isDigit = false → d ∉ ['+', '-', '.', 'e', 'E'] → d ∉ s :=
    fun d hd hlist => hdecimal.not_mem hd hlist
  cases h with
  | special hsign hword hs =>
    rcases exists_mem_of_specials hword hs with hn | hn
    · exact hnot 'n' (by decide) (by decide) (List.mem_append_right _ hn)
    · exact hnot 'N' (by decide) (by decide) (List.mem_append_right _ hn)
  | hex hsign hmark hds =>
    rcases hmark with rfl | rfl
    · exact hnot 'x' (by decide) (by decide) (by simp)
    · exact hnot 'X' (by decide) (by decide) (by simp)
  | grouped hsign hds hmark =>
    rcases hmark with rfl | rfl
    · exact hnot '_' (by decide) (by decide) (by simp)
    · exact hnot ',' (by decide) (by decide) (by simp)
  | @date ys ms ds hne hys hms hds =>
    -- there is no exponent, so the minus behind the year has no place
    have hletter : ∀ d : Char, d.isDigit = false → d ≠ '-' →
        d ∉ ys ++ '-' :: (ms ++ '-' :: ds) := by
      intro d hd hminus
      simp [hys.not_mem hd, hms.not_mem hd, hds.not_mem hd, hminus]
    obtain ⟨y, es, rfl⟩ := List.exists_cons_of_ne_nil hne
    have hsign := hdecimal.ne_sign_of_mem_tail (c := '-') (hletter 'e' (by decide) (by decide))
      (hletter 'E' (by decide) (by decide)) (by simp)
    exact hsign.2 rfl
  | version =>
    have hcount := hdecimal.count_point
    simp only [List.count_append, List.count_cons_self] at hcount
    omega

end Lookalike

/-- A text that is no document, no case variant of a word and no decimal stands for itself. A bare
text is no document unless it is a word or a decimal, so all lookalikes stand for themselves. A text
stands for a string other than itself just when it is a literal of this string with blanks around
it. -/
theorem infer_verbatim_and_infer_literal (text : String) :
    (NotJson text → NoWord text.toList → ¬ IsDecimal text.toList → infer text = .string text) ∧
    (Bare text.toList → NoWord text.toList → ¬ IsDecimal text.toList → NotJson text) ∧
    (Lookalike text.toList → NotJson text ∧ NoWord text.toList ∧ ¬ IsDecimal text.toList ∧
      infer text = .string text) ∧
    ∀ r, infer text = .string r ∧ r ≠ text ↔
      ∃ w, Padded w text.toList ∧ WritesString w r := by
  refine ⟨infer_verbatim, Bare.notJson, fun h => ?_, fun r => infer_eq_string_and_ne_iff⟩
  have hjson := h.bare.notJson h.noWord h.not_isDecimal
  exact ⟨hjson, h.noWord, h.not_isDecimal, infer_verbatim hjson h.noWord h.not_isDecimal⟩

theorem infer_verbatim_quotation :
    infer "say \"hi\"" = .string "say \"hi\"" ∧ infer "-Infinity" = .string "-Infinity" ∧
      infer " \"\\u0041\\n\" " = .string "A\n" := by
  obtain ⟨hverbatim, -⟩ := infer_verbatim_and_infer_literal "say \"hi\""
  obtain ⟨-, -, hlookalike, -⟩ := infer_verbatim_and_infer_literal "-Infinity"
  obtain ⟨-, -, -, hliteral⟩ := infer_verbatim_and_infer_literal " \"\\u0041\\n\" "
  have hjson : NotJson "say \"hi\"" := by
    have hread : Json.readValue [] "say \"hi\"".toList =
        .error (.reading .noValue "say \"hi\"".toList) := by
      rw [Json.readValue]
      rfl
    exact Infer.notJson_of_read (congrArg (Except.mapError _) hread)
  have hword : NoWord "say \"hi\"".toList := fun word v h hs =>
    h.not_mem_of_isCaseVariant hs (d := ' ') (by decide) (by decide)
  have hdecimal : ¬ IsDecimal "say \"hi\"".toList := fun h =>
    h.not_mem (c := 's') (by decide) (by decide) (by decide)
  have hinfinity : Lookalike ("-".toList ++ "Infinity".toList) :=
    .special .minus (List.mem_cons_of_mem _ List.mem_cons_self) (by simp [IsCaseVariant])
  have hunit : Json.WritesUnit ['0', '0', '4', '1'] 'A'.toNat := Json.unit?_eq_some_iff.1 rfl
  have hletter : Json.WritesChar ['\\', 'n'] '\n' := .letter (by decide)
  have hchars : Json.WritesChars "\\u0041\\n".toList "A\n".toList :=
    .cons (.unit hunit) (.cons hletter .nil)
  refine ⟨hverbatim hjson hword hdecimal, (hlookalike hinfinity).2.2.2, ((hliteral _).2 ?_).1⟩
  exact ⟨_, ⟨[' '], [' '], by decide, by simp [Json.Spaces], by simp [Json.Spaces]⟩,
    .quoted hchars⟩

end JsonEdit
