import JsonEdit.Proofs.Json.Grammar
import JsonEdit.Proofs.Json.Range
import JsonEdit.Proofs.Json.Taken

/-!
# Faults inside a text

* `f.Inside s`: the fault `f` was seen in the text `s`, behind its first byte if it has one. What is
  seen in the end of a text is seen in the text (`Fault.Inside.mono`).
* A word, a quoted string and a number that cannot be read give a fault inside the text
  (`inside_of_readWord`, `inside_of_readQuoted`, `inside_of_readNumber`); what was read of them
  before leaves an end of it (`suffix_of_piece` and so on).
* Only where a string is passed over may a fault be seen before the first byte behind the quote
  (`unread_le_of_skipQuoted`), which is still behind the quote.
-/

namespace JsonEdit

namespace Json

variable {f : Fault} {r s : List Char}

/-! ## Inside a text -/

namespace Fault

/-- The fault was seen in `s`, when the first byte of `s`, if there is one, had been read. -/
def Inside (f : Fault) (s : List Char) : Prop :=
  f.unread ≤ byteCount s - 1

theorem Inside.mono (hf : f.Inside r) (h : r <:+ s) : f.Inside s :=
  hf.trans (Nat.sub_le_sub_right (byteCount_le_of_suffix h) 1)

theorem Inside.cons (hf : f.Inside s) (c : Char) : f.Inside (c :: s) :=
  hf.mono (List.suffix_cons c s)

theorem Inside.unread_le (hf : f.Inside s) : f.unread ≤ byteCount s :=
  hf.trans (Nat.sub_le _ 1)

theorem inside_atEnd (cause : Cause) (s : List Char) : (atEnd cause).Inside s :=
  Nat.zero_le _

theorem inside_reading (cause : Cause) (s : List Char) : (reading cause s).Inside s :=
  Nat.le_refl _

theorem inside_cons_of_le {c : Char} (h : f.unread ≤ byteCount s) : f.Inside (c :: s) := by
  have := c.utf8Size_pos
  rw [Inside, byteCount_cons]
  omega

theorem inside_before (cause : Cause) (h : r <:+ s) (hlt : r.length < s.length) :
    (before cause r).Inside s := by
  obtain ⟨_ | ⟨c, w⟩, rfl⟩ := h
  · exact absurd hlt (Nat.lt_irrefl _)
  · exact inside_cons_of_le (byteCount_le_of_suffix (List.suffix_append w r))

end Fault

open Fault

/-! ## Blanks and words -/

theorem suffix_of_next? {c : Char} {h : r.length < s.length} (hs : next? s = some (c, ⟨r, h⟩)) :
    c :: r <:+ s := by
  obtain ⟨bs, rfl, -⟩ := exists_blank_of_next? hs
  exact List.suffix_append bs (c :: r)

theorem suffix_tail_of_next? {c : Char} {h : r.length < s.length}
    (hs : next? s = some (c, ⟨r, h⟩)) : r <:+ s :=
  (List.suffix_cons c r).trans (suffix_of_next? hs)

theorem inside_reading_of_next? {cause : Cause} {c : Char} {h : r.length < s.length}
    (hs : next? s = some (c, ⟨r, h⟩)) : (reading cause (c :: r)).Inside s :=
  (inside_reading cause (c :: r)).mono (suffix_of_next? hs)

theorem inside_of_readWord {word : List Char} (h : readWord word s = .error f) : f.Inside s := by
  induction word generalizing s with
  | nil => simp [readWord] at h
  | cons w word ih =>
    rcases s with _ | ⟨c, r⟩
    · cases h
      exact inside_atEnd _ _
    · rw [readWord] at h
      split at h
      · split at h
        · next g hg =>
          cases h
          exact (ih hg).cons c
        · simp at h
      · cases h
        exact inside_reading _ _

/-! ## Quoted strings -/

theorem suffix_of_piece {p : Piece} {h : r.length < s.length} (hs : piece s = .ok (p, ⟨r, h⟩)) :
    r <:+ s := by
  obtain ⟨w, rfl, -⟩ := takes_of_piece hs
  exact List.suffix_append w r

theorem inside_of_readUnit (h : readUnit s = .error f) : f.Inside s := by
  -- four bytes are passed over at once, and there may be fewer than four characters to them
  have hfour : (⟨.badEscape, byteCount s - 4⟩ : Fault).Inside s :=
    Nat.sub_le_sub_left (by decide) _
  unfold readUnit at h
  split at h
  · split at h
    · simp at h
    · cases h
      exact hfour
  · split at h
    · cases h
      exact inside_atEnd _ _
    · cases h
      exact hfour

theorem suffix_of_readUnit {n : Nat} {h : r.length < s.length}
    (hs : readUnit s = .ok (n, ⟨r, h⟩)) : r <:+ s := by
  obtain ⟨a, b, c, d, rfl, -⟩ := exists_unit?_of_readUnit hs
  exact List.suffix_append [a, b, c, d] r

theorem inside_of_readEscape (h : readEscape s = .error f) : f.Inside s := by
  unfold readEscape at h
  split at h
  · cases h
    exact inside_atEnd _ _
  next e r =>
  split at h
  · split at h
    · next g hg =>
      cases h
      exact (inside_of_readUnit hg).cons e
    · simp at h
  · split at h
    · simp at h
    · cases h
      exact inside_reading _ _

theorem inside_of_piece (h : piece s = .error f) : f.Inside s := by
  unfold piece at h
  split at h
  · cases h
    exact inside_atEnd _ _
  next c r =>
  split at h
  · simp at h
  split at h
  · split at h
    · next g hg =>
      cases h
      exact (inside_of_readEscape hg).cons c
    · simp at h
  split at h
  · simp at h
  · simp at h

theorem inside_of_readLowSurrogate (h : readLowSurrogate s = .error f) : f.Inside s := by
  unfold readLowSurrogate at h
  split at h
  · cases h
    exact inside_atEnd _ _
  next c r =>
  split at h
  swap
  · cases h
    exact inside_reading _ _
  split at h
  · cases h
    exact inside_atEnd _ _
  next e r =>
  split at h
  swap
  · cases h
    exact (inside_reading _ _).cons c
  split at h
  · next g hg =>
    cases h
    exact ((inside_of_readUnit hg).cons e).cons c
  next n t ht hn =>
  split at h
  · simp at h
  · cases h
    exact ((inside_before _ (suffix_of_readUnit hn) ht).cons e).cons c

theorem suffix_of_readLowSurrogate {n : Nat} {h : r.length < s.length}
    (hs : readLowSurrogate s = .ok (n, ⟨r, h⟩)) : r <:+ s := by
  obtain ⟨w, rfl, -⟩ := takes_of_readLowSurrogate hs
  exact List.suffix_append w r

theorem inside_of_readQuotedOnto {n : Nat} {acc s : List Char} {bound : s.length ≤ n}
    (h : readQuotedOnto acc s bound = .error f) : f.Inside s := by
  revert h
  fun_cases readQuotedOnto acc s bound with
  | case1 g hg =>
    rintro ⟨⟩
    exact inside_of_piece hg
  | case2 => simp
  | case3 c r hr hs => exact fun h => (inside_of_readQuotedOnto h).mono (suffix_of_piece hs)
  | case4 r hr hs =>
    rintro ⟨⟩
    exact inside_before _ (suffix_of_piece hs) hr
  | case5 u r hr hs =>
    rintro ⟨⟩
    exact inside_before _ (suffix_of_piece hs) hr
  | case6 u r hr hs hlow hhigh g hg =>
    rintro ⟨⟩
    exact (inside_of_readLowSurrogate hg).mono (suffix_of_piece hs)
  | case7 u r hr hs hlow hhigh l r' hr' hl =>
    exact fun h => (inside_of_readQuotedOnto h).mono
      ((suffix_of_readLowSurrogate hl).trans (suffix_of_piece hs))
  | case8 u r hr hs => exact fun h => (inside_of_readQuotedOnto h).mono (suffix_of_piece hs)
termination_by s.length

theorem inside_of_readQuoted (h : readQuoted s = .error f) : f.Inside s :=
  inside_of_readQuotedOnto h

/-- The checker tells a control character before it is read, so its fault may be seen at the very
start of the text behind a quote. -/
theorem unread_le_of_skipQuotedWithin {n : Nat} {s : List Char} {bound : s.length ≤ n}
    (h : skipQuotedWithin s bound = .error f) : f.unread ≤ byteCount s := by
  revert h
  fun_cases skipQuotedWithin s bound with
  | case1 g hg =>
    rintro ⟨⟩
    exact (inside_of_piece hg).unread_le
  | case2 => simp
  | case3 =>
    rintro ⟨⟩
    exact Nat.le_refl _
  | case4 c r hr hs =>
    exact fun h => (unread_le_of_skipQuotedWithin h).trans
      (byteCount_le_of_suffix (suffix_of_piece hs))
  | case5 u r hr hs =>
    exact fun h => (unread_le_of_skipQuotedWithin h).trans
      (byteCount_le_of_suffix (suffix_of_piece hs))
termination_by s.length

theorem unread_le_of_skipQuoted (h : skipQuoted s = .error f) : f.unread ≤ byteCount s :=
  unread_le_of_skipQuotedWithin h

theorem suffix_of_readQuoted {text : String} {h : r.length < s.length}
    (hs : readQuoted s = .ok (text, ⟨r, h⟩)) : r <:+ s := by
  obtain ⟨w, rfl, -⟩ := takes_of_readQuoted hs
  exact List.suffix_append w r

theorem suffix_of_skipQuoted {h : r.length < s.length} (hs : skipQuoted s = .ok ⟨r, h⟩) :
    r <:+ s := by
  obtain ⟨w, rfl, -⟩ := exists_stringChars_of_skipQuoted hs
  exact (List.suffix_cons '"' r).trans (List.suffix_append w ('"' :: r))

/-! ## Numbers -/

namespace Numeral

variable {cut : Cause}

theorem inside_of_readWhole (h : readWhole cut s = .error f) : f.Inside s := by
  unfold readWhole at h
  split at h
  · cases h
    exact inside_atEnd _ _
  next d r =>
  split at h
  · split at h
    · cases h
      exact (inside_reading _ r).cons d
    · simp at h
  split at h
  · simp at h
  · cases h
    exact inside_reading _ _

theorem inside_of_readDigits (h : readDigits cut s = .error f) : f.Inside s := by
  unfold readDigits at h
  split at h
  · cases h
    exact inside_atEnd _ _
  split at h
  · simp at h
  · cases h
    exact inside_reading _ _

theorem inside_of_readFraction (h : readFraction cut s = .error f) : f.Inside s := by
  unfold readFraction at h
  split at h
  · simp at h
  next c r =>
  split at h
  · split at h
    · next g hg =>
      cases h
      exact (inside_of_readDigits hg).cons c
    · simp at h
  · simp at h

theorem inside_of_readExponent (h : readExponent cut s = .error f) : f.Inside s := by
  unfold readExponent at h
  split at h
  · simp at h
  next c r =>
  split at h
  · split at h
    next negative r₁ h₁ hsign =>
    split at h
    · next g hg =>
      cases h
      obtain ⟨sign, rfl, -⟩ := writesSign_of_readSign hsign
      exact ((inside_of_readDigits hg).mono (List.suffix_append sign r₁)).cons c
    · simp at h
  · simp at h

theorem inside_of_readUnsigned {negative : Bool} (h : readUnsigned cut negative s = .error f) :
    f.Inside s := by
  unfold readUnsigned at h
  split at h
  · next g hg =>
    cases h
    exact inside_of_readWhole hg
  next whole r₁ h₁ hwhole =>
  obtain ⟨rfl, -⟩ := writesWhole_of_readWhole hwhole
  split at h
  · next g hg =>
    cases h
    exact (inside_of_readFraction hg).mono (List.suffix_append whole r₁)
  next fraction r₂ h₂ hfraction =>
  obtain ⟨w, rfl, -⟩ := writesFraction_of_readFraction hfraction
  split at h
  · next g hg =>
    cases h
    exact (inside_of_readExponent hg).mono
      ((List.suffix_append w r₂).trans (List.suffix_append whole (w ++ r₂)))
  · simp at h

theorem inside_of_read (h : Numeral.read cut s = .error f) : f.Inside s := by
  unfold Numeral.read at h
  split at h
  · cases h
    exact inside_atEnd _ _
  next c r =>
  split at h
  · split at h
    · next g hg =>
      cases h
      exact (inside_of_readUnsigned hg).cons c
    · simp at h
  · exact inside_of_readUnsigned h

theorem eq_zero_of_fractionOf {negative : Bool} {m k : Nat} {e : Int}
    (h : fractionOf negative m e = .error k) : k = 0 := by
  unfold fractionOf at h
  split at h
  · simp at h
  · cases h
    rfl

/-- A number that is too large is known to be so when all of it is read, or at a digit of its
exponent. -/
theorem eq_zero_or_lt_of_toNumber {n : Numeral} {k : Nat} (h : n.toNumber = .error k) :
    k = 0 ∨ ∃ x, n.exponent = some x ∧ k < x.digits.length := by
  unfold toNumber at h
  dsimp only at h
  split at h
  · next x hexponent =>
    split at h
    · exact .inl (eq_zero_of_fractionOf h)
    · next m d unread hdigits =>
      split at h
      · simp at h
      · cases h
        have hle := Decimal.length_absorb_snd_le exponentBound 0 x.digits
        rw [hdigits, List.length_cons] at hle
        exact .inr ⟨x, hexponent, hle⟩
  · split at h
    · split at h
      · simp at h
      · exact .inl (eq_zero_of_fractionOf h)
    · exact .inl (eq_zero_of_fractionOf h)

theorem Writes.lt_length_of_toNumber {n : Numeral} {w : List Char} {k : Nat} (hw : n.Writes w)
    (h : n.toNumber = .error k) : k < w.length := by
  obtain ⟨c, t, hcons, -⟩ := hw.head?
  obtain ⟨v, e, hsplit, -, -, he⟩ := hw
  rcases eq_zero_or_lt_of_toNumber h with rfl | ⟨x, hx, hlt⟩
  · rw [hcons, List.length_cons]
    exact Nat.succ_pos _
  · rw [hx] at he
    have hdigits : x.digits.length ≤ e.length := by
      cases he
      simp only [List.length_cons, List.length_append]
      omega
    rw [hsplit]
    simp only [List.length_append]
    omega

end Numeral

theorem inside_of_readNumber (h : readNumber s = .error f) : f.Inside s := by
  unfold readNumber at h
  split at h
  · next g hg =>
    cases h
    exact Numeral.inside_of_read hg
  next n r hr hn =>
  split at h
  · simp at h
  · next k hk =>
    cases h
    -- the digits of the exponent that were unread are all in `w`
    obtain ⟨w, rfl, hw⟩ := Numeral.writes_of_read hn
    have hlt := hw.lt_length_of_toNumber hk
    have hle := length_le_byteCount w
    rw [Inside, byteCount_append]
    dsimp only
    omega

end Json

end JsonEdit
