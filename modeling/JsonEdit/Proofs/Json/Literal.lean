import JsonEdit.Proofs.Json.Scalar

/-!
# String literals and what they denote

* `WritesChar w c`: between quotes, the text `w` writes the character `c`. There are four ways: the
  character itself, a letter behind a backslash, four hexadecimal digits behind `\u`, and two such
  units for a character beyond 16 bits.
* `WritesString w s`: the text `w` is a literal, with its quotes, that denotes the string `s`.
* Main statement: `readDocument_eq_string_iff`, a text is read as a string just when it is a literal
  of this string with blanks around it.
-/

namespace JsonEdit.Json

/-! ## Literals -/

/-- The hexadecimal digit `c`, small or capital, is worth `n`. -/
def HexDigit (c : Char) (n : Nat) : Prop :=
  n < 16 ∧ (c = n.digitChar ∨ c = n.digitChar.toUpper)

/-- Four hexadecimal digits and the 16-bit unit that they write. -/
inductive WritesUnit : List Char → Nat → Prop where
  | digits {a b c d : Char} {i j k l : Nat} (ha : HexDigit a i) (hb : HexDigit b j)
    (hc : HexDigit c k) (hd : HexDigit d l) :
    WritesUnit [a, b, c, d] (16 ^ 3 * i + 16 ^ 2 * j + 16 * k + l)

/-- The letters that may stand behind a backslash, and the characters that they stand for. -/
def letters : List (Char × Char) :=
  [('"', '"'), ('\\', '\\'), ('/', '/'), ('b', '\x08'), ('f', '\x0c'), ('n', '\n'), ('r', '\r'),
    ('t', '\t')]

/-- One character of a string literal, as it is written between the quotes. -/
inductive WritesChar : List Char → Char → Prop where
  | plain {c : Char} (hc : 0x20 ≤ c.toNat) (hquote : c ≠ '"') (hslash : c ≠ '\\') : WritesChar [c] c
  | letter {l c : Char} (hl : (l, c) ∈ letters) : WritesChar ['\\', l] c
  | unit {u : List Char} {c : Char} (hu : WritesUnit u c.toNat) : WritesChar ('\\' :: 'u' :: u) c
  | pair {u v : List Char} {high low : Nat} {c : Char} (hu : WritesUnit u high)
    (hv : WritesUnit v low) (hhigh : 0xD800 ≤ high ∧ high < 0xDC00)
    (hlow : 0xDC00 ≤ low ∧ low < 0xE000)
    (hc : c.toNat = 0x10000 + 0x400 * (high - 0xD800) + (low - 0xDC00)) :
    WritesChar ('\\' :: 'u' :: (u ++ '\\' :: 'u' :: v)) c

/-- What stands between the quotes, and the characters that it writes. -/
inductive WritesChars : List Char → List Char → Prop where
  | nil : WritesChars [] []
  | cons {w v : List Char} {c : Char} {s : List Char} (hw : WritesChar w c) (hv : WritesChars v s) :
    WritesChars (w ++ v) (c :: s)

/-- The text `w` is a string literal that denotes `s`. -/
inductive WritesString : List Char → String → Prop where
  | quoted {w : List Char} {s : String} (hw : WritesChars w s.toList) :
    WritesString ('"' :: (w ++ ['"'])) s

variable {s r u v w : List Char} {c l : Char} {n : Nat} {text : String}

/-! ## Digits, units and letters -/

/-- Digits that stand in a row, `a` first, with the values from `k` on. -/
theorem hexDigit_of_row {a : Char} {m k : Nat}
    (row : ∀ i < m, HexDigit (Char.ofNat (a.toNat + i)) (i + k)) (hlow : a ≤ c)
    (hhigh : c.toNat < a.toNat + m) : HexDigit c (c.toNat - a.toNat + k) := by
  have hle : a.toNat ≤ c.toNat := hlow
  have hdigit := row (c.toNat - a.toNat) (by omega)
  rwa [Nat.add_sub_cancel' hle, Char.ofNat_toNat] at hdigit

theorem hexValue?_eq_some_iff : hexValue? c = some n ↔ HexDigit c n := by
  constructor
  · have hdecimal : ∀ i < 10, HexDigit (Char.ofNat ('0'.toNat + i)) (i + 0) := by
      unfold HexDigit; decide
    have hsmall : ∀ i < 6, HexDigit (Char.ofNat ('a'.toNat + i)) (i + 10) := by
      unfold HexDigit; decide
    have hlarge : ∀ i < 6, HexDigit (Char.ofNat ('A'.toNat + i)) (i + 10) := by
      unfold HexDigit; decide
    unfold hexValue?
    split
    · next hc =>
      rintro ⟨⟩
      exact hexDigit_of_row hdecimal hc.1 (Nat.lt_succ_of_le hc.2)
    split
    · next hc =>
      rintro ⟨⟩
      exact hexDigit_of_row hsmall hc.1 (Nat.lt_succ_of_le hc.2)
    split
    · next hc =>
      rintro ⟨⟩
      exact hexDigit_of_row hlarge hc.1 (Nat.lt_succ_of_le hc.2)
    · rintro ⟨⟩
  · rintro ⟨hn, hc⟩
    have all : ∀ n < 16,
        hexValue? n.digitChar = some n ∧ hexValue? n.digitChar.toUpper = some n := by decide
    rcases hc with rfl | rfl
    · exact (all n hn).1
    · exact (all n hn).2

theorem unit?_eq_some_iff {a b c d : Char} :
    unit? a b c d = some n ↔ WritesUnit [a, b, c, d] n := by
  constructor
  · intro h
    simp only [unit?, bind, Option.bind_eq_some_iff, pure, Option.some.injEq] at h
    obtain ⟨i, ha, j, hb, k, hc, l, hd, rfl⟩ := h
    have hvalue :
        ((i * 16 + j) * 16 + k) * 16 + l = 16 ^ 3 * i + 16 ^ 2 * j + 16 * k + l := by omega
    rw [hvalue]
    exact .digits (hexValue?_eq_some_iff.1 ha) (hexValue?_eq_some_iff.1 hb)
      (hexValue?_eq_some_iff.1 hc) (hexValue?_eq_some_iff.1 hd)
  · rintro ⟨ha, hb, hc, hd⟩
    simp only [unit?, hexValue?_eq_some_iff.2 ha, hexValue?_eq_some_iff.2 hb,
      hexValue?_eq_some_iff.2 hc, hexValue?_eq_some_iff.2 hd, bind, Option.bind_some, pure,
      Option.some.injEq]
    omega

theorem charOf?_eq_some_iff : charOf? l = some c ↔ (l, c) ∈ letters := by
  unfold charOf? letters
  split <;> simp_all [eq_comm]

/-! ## Steps inside a literal -/

/-- One step inside a literal: a character, or a unit that may be half of one. -/
inductive WritesPiece : List Char → Piece → Prop where
  | plain {c : Char} (hc : 0x20 ≤ c.toNat) (hquote : c ≠ '"') (hslash : c ≠ '\\') :
    WritesPiece [c] (.char c)
  | letter {l c : Char} (hl : (l, c) ∈ letters) : WritesPiece ['\\', l] (.char c)
  | unit {u : List Char} {n : Nat} (hu : WritesUnit u n) : WritesPiece ('\\' :: 'u' :: u) (.unit n)

theorem WritesPiece.takes {p : Piece} (hw : WritesPiece w p) : Takes piece w p := by
  intro t
  cases hw with
  | @plain c hc hquote hslash =>
    have hcontrol : isControl c = false := by simpa [isControl] using hc
    exact ⟨by simp, by simp [piece, hquote, hslash, hcontrol]⟩
  | @letter l c hl =>
    have hchar := charOf?_eq_some_iff.2 hl
    have hu : l ≠ 'u' := by
      rintro rfl
      cases hchar
    refine ⟨?_, by simp [piece, readEscape, hu, hchar]⟩
    simp only [List.length_append, List.length_cons]
    omega
  | unit hu =>
    cases hu with
    | digits ha hb hc hd =>
      have hunit := unit?_eq_some_iff.2 (.digits ha hb hc hd)
      refine ⟨?_, by simp [piece, readEscape, readUnit, hunit]⟩
      simp only [List.length_append, List.length_cons]
      omega

theorem StringChar.exists_writesPiece (hw : StringChar w) : ∃ p, WritesPiece w p := by
  cases hw with
  | plain hc hquote hslash => exact ⟨_, .plain hc hquote hslash⟩
  | letter hl =>
    obtain ⟨c, hc⟩ := exists_charOf?_iff.2 hl
    exact ⟨_, .letter (charOf?_eq_some_iff.1 hc)⟩
  | unit ha hb hc hd =>
    obtain ⟨n, hn⟩ := exists_unit?_iff.2 ⟨ha, hb, hc, hd⟩
    exact ⟨_, .unit (unit?_eq_some_iff.1 hn)⟩

theorem writesPiece_of_piece {p : Piece} {h : r.length < s.length}
    (hs : piece s = .ok (p, ⟨r, h⟩)) (hp : p.IsText) : ∃ w, s = w ++ r ∧ WritesPiece w p := by
  rcases cases_of_piece hs with ⟨rfl, -⟩ | ⟨rfl, -⟩ | ⟨-, w, rfl, hw⟩
  · exact hp.elim
  · exact hp.elim
  · obtain ⟨q, hq⟩ := hw.exists_writesPiece
    obtain ⟨h', e⟩ := hq.takes r
    rw [e] at hs
    obtain rfl : q = p := congrArg Prod.fst (Except.ok.inj hs)
    exact ⟨w, rfl, hq⟩

theorem WritesUnit.lt (hu : WritesUnit u n) : n < 0x10000 := by
  cases hu with
  | digits ha hb hc hd =>
    have := ha.1
    have := hb.1
    have := hc.1
    have := hd.1
    omega

theorem WritesPiece.writesChar (hw : WritesPiece w (.char c)) : WritesChar w c := by
  cases hw with
  | plain hc hquote hslash => exact .plain hc hquote hslash
  | letter hl => exact .letter hl

theorem isHighSurrogate_iff : isHighSurrogate n = true ↔ 0xD800 ≤ n ∧ n < 0xDC00 := by
  simp [isHighSurrogate]

theorem isLowSurrogate_iff : isLowSurrogate n = true ↔ 0xDC00 ≤ n ∧ n < 0xE000 := by
  simp [isLowSurrogate]

theorem toNat_pairChar {high low : Nat} (hhigh : 0xD800 ≤ high ∧ high < 0xDC00)
    (hlow : 0xDC00 ≤ low ∧ low < 0xE000) :
    (pairChar high low).toNat = 0x10000 + 0x400 * (high - 0xD800) + (low - 0xDC00) := by
  have hcode : (high - 0xD800) * 0x400 + (low - 0xDC00) + 0x10000 =
      0x10000 + 0x400 * (high - 0xD800) + (low - 0xDC00) := by omega
  rw [pairChar, hcode, Char.ofNat, dif_pos (.inr (by omega))]
  rfl

theorem toNat_ofNat_unit (hu : WritesUnit u n) (hhigh : ¬ isHighSurrogate n = true)
    (hlow : ¬ isLowSurrogate n = true) : (Char.ofNat n).toNat = n := by
  have hlt := hu.lt
  rw [isHighSurrogate_iff] at hhigh
  rw [isLowSurrogate_iff] at hlow
  rw [Char.ofNat, dif_pos (by omega)]
  rfl

theorem WritesUnit.takes_readLowSurrogate (hv : WritesUnit v n)
    (hn : 0xDC00 ≤ n ∧ n < 0xE000) : Takes readLowSurrogate ('\\' :: 'u' :: v) n := by
  cases hv with
  | digits ha hb hc hd =>
    exact Json.takes_readLowSurrogate (unit?_eq_some_iff.2 (.digits ha hb hc hd))
      (isLowSurrogate_iff.2 hn)

theorem exists_writesUnit_of_readLowSurrogate {h : r.length < s.length}
    (hs : readLowSurrogate s = .ok (n, ⟨r, h⟩)) :
    ∃ v, s = '\\' :: 'u' :: (v ++ r) ∧ WritesUnit v n ∧ 0xDC00 ≤ n ∧ n < 0xE000 := by
  obtain ⟨a, b, c, d, rfl, hunit, hlow⟩ := exists_unit?_of_readLowSurrogate hs
  exact ⟨[a, b, c, d], rfl, unit?_eq_some_iff.1 hunit, isLowSurrogate_iff.1 hlow⟩

/-! ## Whole literals -/

theorem WritesChar.readsChar (hw : WritesChar w c) (r : List Char) : ReadsChar (w ++ r) c r := by
  cases hw with
  | plain hc hquote hslash =>
    obtain ⟨h, e⟩ := (WritesPiece.plain hc hquote hslash).takes r
    exact .char e
  | letter hl =>
    obtain ⟨h, e⟩ := (WritesPiece.letter hl).takes r
    exact .char e
  | unit hu =>
    obtain ⟨h, e⟩ := (WritesPiece.unit hu).takes r
    -- no character is a surrogate
    have hvalid : c.toNat < 0xD800 ∨ 0xDFFF < c.toNat ∧ c.toNat < 0x110000 := c.valid
    have hlow : ¬ isLowSurrogate c.toNat = true := by rw [isLowSurrogate_iff]; omega
    have hhigh : ¬ isHighSurrogate c.toNat = true := by rw [isHighSurrogate_iff]; omega
    simpa only [Char.ofNat_toNat] using ReadsChar.unit e hlow hhigh
  | @pair u v high low c hu hv hhigh hlow hc =>
    have htext : '\\' :: 'u' :: (u ++ '\\' :: 'u' :: v) ++ r =
        '\\' :: 'u' :: u ++ ('\\' :: 'u' :: v ++ r) := by simp
    rw [htext]
    obtain ⟨h, e⟩ := (WritesPiece.unit hu).takes ('\\' :: 'u' :: v ++ r)
    obtain ⟨h', e'⟩ := hv.takes_readLowSurrogate hlow r
    have hnotLow : ¬ isLowSurrogate high = true := by rw [isLowSurrogate_iff]; omega
    have hpair : pairChar high low = c := by
      have hcode : (high - 0xD800) * 0x400 + (low - 0xDC00) + 0x10000 = c.toNat := by omega
      rw [pairChar, hcode, Char.ofNat_toNat]
    rw [← hpair]
    exact .pair e hnotLow (isHighSurrogate_iff.2 hhigh) e'

theorem exists_writesChar_of_readsChar (hc : ReadsChar s c r) :
    ∃ w, s = w ++ r ∧ WritesChar w c := by
  cases hc with
  | char hp =>
    obtain ⟨w, rfl, hw⟩ := writesPiece_of_piece hp trivial
    exact ⟨w, rfl, hw.writesChar⟩
  | unit hp hlow hhigh =>
    obtain ⟨w, rfl, hw⟩ := writesPiece_of_piece hp trivial
    cases hw with
    | unit hu =>
      rw [← toNat_ofNat_unit hu hhigh hlow] at hu
      exact ⟨_, rfl, .unit hu⟩
  | pair hp hlow hhigh hl =>
    obtain ⟨w, rfl, hw⟩ := writesPiece_of_piece hp trivial
    cases hw with
    | unit hu =>
      obtain ⟨v, rfl, hv, hlow'⟩ := exists_writesUnit_of_readLowSurrogate hl
      have hpair := WritesChar.pair hu hv (isHighSurrogate_iff.1 hhigh) hlow'
        (toNat_pairChar (isHighSurrogate_iff.1 hhigh) hlow')
      exact ⟨_, by simp, hpair⟩

theorem WritesChars.readQuotedOnto {m : Nat} (hw : WritesChars w s) (acc r : List Char)
    (bound : (w ++ '"' :: r).length ≤ m) :
    ∃ h, readQuotedOnto acc (w ++ '"' :: r) bound =
      .ok (String.ofList (acc.reverse ++ s), ⟨r, h⟩) := by
  induction hw generalizing acc with
  | nil =>
    rw [List.nil_append] at bound
    refine ⟨bound, ?_⟩
    show Json.readQuotedOnto acc ('"' :: r) bound = _
    rw [Json.readQuotedOnto]
    simp [piece]
  | @cons w v c s hw hv ih =>
    have htext : w ++ v ++ '"' :: r = w ++ (v ++ '"' :: r) := List.append_assoc ..
    simp only [htext] at bound ⊢
    obtain ⟨h₁, e₁⟩ := (hw.readsChar (v ++ '"' :: r)).readQuotedOnto_eq acc bound
    obtain ⟨h₂, e₂⟩ := ih (c :: acc) h₁
    refine ⟨h₂, ?_⟩
    rw [e₁, e₂]
    simp

theorem exists_writesChars_of_readQuotedOnto {m : Nat} {acc s r : List Char} {text : String}
    {bound : s.length ≤ m} {h : r.length < m}
    (hs : readQuotedOnto acc s bound = .ok (text, ⟨r, h⟩)) :
    ∃ w cs, s = w ++ '"' :: r ∧ WritesChars w cs ∧ text.toList = acc.reverse ++ cs := by
  -- the induction is on what is left of the text, as the reader's is
  rcases readQuotedOnto_cases hs with ⟨h₁, hp, rfl⟩ | ⟨c, r₁, h₁, hc, hrest⟩
  · rcases cases_of_piece hp with ⟨-, rfl⟩ | ⟨hcontrol, -⟩ | ⟨htext, -⟩
    · exact ⟨[], [], rfl, .nil, by simp⟩
    · cases hcontrol
    · exact htext.elim
  · have hlt := hc.length_lt
    obtain ⟨v, cs, rfl, hv, htext⟩ := exists_writesChars_of_readQuotedOnto hrest
    obtain ⟨w, rfl, hw⟩ := exists_writesChar_of_readsChar hc
    exact ⟨w ++ v, c :: cs, by simp, .cons hw hv, by simp [htext]⟩
termination_by s.length

theorem takes_readQuoted_iff :
    Takes readQuoted w text ↔ ∃ v, w = v ++ ['"'] ∧ WritesChars v text.toList := by
  constructor
  · intro hw
    obtain ⟨h, e⟩ := hw []
    obtain ⟨v, cs, hv, hchars, htext⟩ := exists_writesChars_of_readQuotedOnto e
    rw [List.append_nil] at hv
    rw [List.reverse_nil, List.nil_append] at htext
    exact ⟨v, hv, htext ▸ hchars⟩
  · rintro ⟨v, rfl, hv⟩ t
    rw [List.append_assoc]
    obtain ⟨h, e⟩ := hv.readQuotedOnto [] t (Nat.le_refl _)
    refine ⟨h, ?_⟩
    rw [readQuoted]
    simpa using e

theorem writesScalar_string_iff : WritesScalar w (.string text) ↔ WritesString w text := by
  constructor
  · intro h
    generalize hv : Value.string text = v at h
    cases h with
    | word hc =>
      subst hv
      rcases value_of_word? hc with hv | ⟨b, hv⟩ <;> cases hv
    | number => cases hv
    | string hq =>
      cases hv
      obtain ⟨v, rfl, hchars⟩ := takes_readQuoted_iff.1 hq
      exact .quoted hchars
  · rintro ⟨hw⟩
    exact .string (takes_readQuoted_iff.2 ⟨_, rfl, hw⟩)

theorem readDocument_eq_string_iff {text s : String} :
    readDocument text = .ok (.string s) ↔ ∃ w, Padded w text.toList ∧ WritesString w s := by
  rw [readDocument_eq_ok_iff_padded (by simp [Value.kind]) (by simp [Value.kind])]
  simp only [writesScalar_string_iff]

/-! ## Lengths -/

theorem WritesChar.ne_nil (hw : WritesChar w c) : w ≠ [] := by
  cases hw <;> exact List.cons_ne_nil _ _

theorem WritesString.length_lt {s : String} (hw : WritesString w s) :
    s.toList.length < w.length := by
  have hle : ∀ {v cs}, WritesChars v cs → cs.length ≤ v.length := by
    intro v cs h
    induction h with
    | nil => exact Nat.le_refl _
    | cons hw hv ih =>
      have hpos := List.length_pos_of_ne_nil hw.ne_nil
      simp only [List.length_append, List.length_cons]
      omega
  cases hw with
  | quoted hv =>
    have := hle hv
    simp only [List.length_append, List.length_cons]
    omega

end JsonEdit.Json
