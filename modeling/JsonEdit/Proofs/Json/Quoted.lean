import JsonEdit.Json.Quoted

/-!
# Quoted strings read back

* `ReadsChar s c r`: what one step of the reader does inside a quoted string. A string that is read
  is at its end, or it is read one step and then on from there (`readQuotedOnto_cases`).
* `readQuoted_escape`: what `escape` writes between two quotes is read as the string it was made
  from, whatever stands behind the closing quote.
-/

namespace JsonEdit.Json

/-! ## One character -/

theorem charOf?_of_letterOf? {c l : Char} (h : letterOf? c = some l) :
    charOf? l = some c ∧ l ≠ 'u' := by
  unfold letterOf? at h
  split at h <;> first | (cases h; decide) | cases h

theorem ne_of_letterOf?_eq_none {c : Char} (h : letterOf? c = none) : c ≠ '"' ∧ c ≠ '\\' := by
  constructor <;> rintro rfl <;> cases h

theorem hexValue?_hexDigit {n : Nat} (h : n < 16) : hexValue? (hexDigit n) = some n := by
  have all : ∀ n, n < 16 → hexValue? (hexDigit n) = some n := by decide
  exact all n h

theorem unit?_hexDigit {n : Nat} (h : n < 0x20) :
    unit? '0' '0' (hexDigit (n / 16)) (hexDigit (n % 16)) = some n := by
  have hhigh : hexValue? (hexDigit (n / 16)) = some (n / 16) := hexValue?_hexDigit (by omega)
  have hlow : hexValue? (hexDigit (n % 16)) = some (n % 16) := hexValue?_hexDigit (by omega)
  have hzero : hexValue? '0' = some 0 := by decide
  simp only [unit?, hhigh, hlow, hzero, bind, Option.bind_some, pure, Option.some.injEq]
  omega

theorem piece_escapeChar (c : Char) (r : List Char) :
    (∃ h, piece (escapeChar c ++ r) = .ok (.char c, ⟨r, h⟩)) ∨
      c.toNat < 0x20 ∧ ∃ h, piece (escapeChar c ++ r) = .ok (.unit c.toNat, ⟨r, h⟩) := by
  unfold escapeChar
  rcases hl : letterOf? c with _ | l
  · obtain ⟨hquote, hslash⟩ := ne_of_letterOf?_eq_none hl
    by_cases hc : isControl c
    · have hlt : c.toNat < 0x20 := by simpa [isControl] using hc
      have hunit := unit?_hexDigit hlt
      rw [if_pos hc]
      refine .inr ⟨hlt, by simp; omega, ?_⟩
      simp [piece, readEscape, readUnit, hunit]
    · rw [if_neg hc]
      refine .inl ⟨by simp, ?_⟩
      simp [piece, hquote, hslash, hc]
  · obtain ⟨hchar, hu⟩ := charOf?_of_letterOf? hl
    refine .inl ⟨by simp only [List.length_append, List.length_cons]; omega, ?_⟩
    simp [piece, readEscape, hchar, hu]

/-! ## One step of the reader -/

/-- Inside a quoted string, the character `c` is read off `s`, and `r` is left: a piece may be this
character, or a unit that is one by itself, or the first of two units. -/
inductive ReadsChar (s : List Char) : Char → List Char → Prop where
  | char {c : Char} {r : List Char} {h : r.length < s.length}
    (hp : piece s = .ok (.char c, ⟨r, h⟩)) : ReadsChar s c r
  | unit {u : Nat} {r : List Char} {h : r.length < s.length}
    (hp : piece s = .ok (.unit u, ⟨r, h⟩)) (hlow : ¬ isLowSurrogate u = true)
    (hhigh : ¬ isHighSurrogate u = true) : ReadsChar s (Char.ofNat u) r
  | pair {u l : Nat} {r t : List Char} {h : r.length < s.length} {h' : t.length < r.length}
    (hp : piece s = .ok (.unit u, ⟨r, h⟩)) (hlow : ¬ isLowSurrogate u = true)
    (hhigh : isHighSurrogate u = true) (hl : readLowSurrogate r = .ok (l, ⟨t, h'⟩)) :
    ReadsChar s (pairChar u l) t

theorem ReadsChar.length_lt {s r : List Char} {c : Char} (hc : ReadsChar s c r) :
    r.length < s.length := by
  cases hc with
  | @char c r h hp => exact h
  | @unit u r h hp hlow hhigh => exact h
  | @pair u l r t h h' hp hlow hhigh hl => exact Nat.lt_trans h' h

theorem ReadsChar.readQuotedOnto_eq {n : Nat} {s r : List Char} {c : Char} (hc : ReadsChar s c r)
    (acc : List Char) (bound : s.length ≤ n) :
    ∃ h, readQuotedOnto acc s bound = readQuotedOnto (c :: acc) r h := by
  have hlt := hc.length_lt
  refine ⟨by omega, ?_⟩
  rw [readQuotedOnto]
  cases hc with
  | char hp => rw [hp]
  | unit hp hlow hhigh =>
    rw [hp]
    dsimp only
    rw [if_neg hlow, if_neg hhigh]
  | pair hp hlow hhigh hl =>
    rw [hp]
    dsimp only
    rw [if_neg hlow, if_pos hhigh, hl]

/-- A quoted string that is read ends here, or one character of it is read and then the rest. -/
theorem readQuotedOnto_cases {n : Nat} {acc s r : List Char} {text : String} {bound : s.length ≤ n}
    {h : r.length < n} (hs : readQuotedOnto acc s bound = .ok (text, ⟨r, h⟩)) :
    (∃ h', piece s = .ok (.close, ⟨r, h'⟩) ∧ String.ofList acc.reverse = text) ∨
      ∃ c r', ∃ h' : r'.length ≤ n,
        ReadsChar s c r' ∧ readQuotedOnto (c :: acc) r' h' = .ok (text, ⟨r, h⟩) := by
  rw [readQuotedOnto] at hs
  rcases hp : piece s with f | ⟨_ | c | u | _, r₁, h₁⟩
  · rw [hp] at hs
    simp at hs
  · rw [hp] at hs
    obtain ⟨rfl, rfl⟩ : String.ofList acc.reverse = text ∧ r₁ = r := by simpa using hs
    exact .inl ⟨h₁, rfl, rfl⟩
  · rw [hp] at hs
    exact .inr ⟨c, r₁, _, .char hp, hs⟩
  · rw [hp] at hs
    dsimp only at hs
    split at hs
    · simp at hs
    next hlow =>
    split at hs
    · next hhigh =>
      split at hs
      · simp at hs
      next l r₂ h₂ hl => exact .inr ⟨_, r₂, _, .pair hp hlow hhigh hl, hs⟩
    · next hhigh => exact .inr ⟨_, r₁, _, .unit hp hlow hhigh, hs⟩
  · rw [hp] at hs
    simp at hs

/-! ## Whole strings -/

theorem readsChar_escapeChar (c : Char) (r : List Char) : ReadsChar (escapeChar c ++ r) c r := by
  rcases piece_escapeChar c r with ⟨h, e⟩ | ⟨hlt, h, e⟩
  · exact .char e
  · have hlow : ¬ isLowSurrogate c.toNat = true := by simp [isLowSurrogate]; omega
    have hhigh : ¬ isHighSurrogate c.toNat = true := by simp [isHighSurrogate]; omega
    simpa only [Char.ofNat_toNat] using ReadsChar.unit e hlow hhigh

theorem readQuotedOnto_escape {n : Nat} (acc s r : List Char)
    (bound : (escape s ++ '"' :: r).length ≤ n) :
    ∃ h, readQuotedOnto acc (escape s ++ '"' :: r) bound =
      .ok (String.ofList (acc.reverse ++ s), ⟨r, h⟩) := by
  induction s generalizing acc with
  | nil =>
    have hnil : escape [] ++ '"' :: r = '"' :: r := rfl
    simp only [hnil] at bound ⊢
    refine ⟨bound, ?_⟩
    rw [readQuotedOnto]
    simp [piece]
  | cons c s ih =>
    have hcons : escape (c :: s) ++ '"' :: r = escapeChar c ++ (escape s ++ '"' :: r) := by
      simp [escape]
    simp only [hcons] at bound ⊢
    obtain ⟨h, e⟩ := (readsChar_escapeChar c (escape s ++ '"' :: r)).readQuotedOnto_eq acc bound
    obtain ⟨h', e'⟩ := ih (c :: acc) h
    refine ⟨h', ?_⟩
    rw [e, e']
    simp

theorem readQuoted_escape (s : String) (r : List Char) :
    ∃ h, readQuoted (escape s.toList ++ '"' :: r) = .ok (s, ⟨r, h⟩) := by
  obtain ⟨h, e⟩ := readQuotedOnto_escape [] s.toList r (Nat.le_refl _)
  refine ⟨h, ?_⟩
  rw [readQuoted, e]
  simp

end JsonEdit.Json
