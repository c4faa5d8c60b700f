import JsonEdit.Json.Quoted
import Mathlib.Tactic.Tauto

/-!
# Characters of strings as they are written

* `Takes f w a`: the reader `f` takes the text `w` off and gives `a`, whatever follows.
* `StringChar w`: the text `w` writes one character between quotes, as itself or behind a backslash.
* A step inside a string ends it, meets a control character, or takes such a text off
  (`cases_of_piece`); every such text is taken off by a step (`StringChar.takes`).
-/

namespace JsonEdit.Json

/-- The reader `f` takes `w` off a text and gives `a`, whatever follows `w`. -/
def Takes {α : Type} (f : (s : List Char) → Except Fault (α × Rest s)) (w : List Char) (a : α) :
    Prop :=
  ∀ t, ∃ h, f (w ++ t) = .ok (a, ⟨t, h⟩)

/-! ## Written characters -/

def IsHex (c : Char) : Prop :=
  ('0' ≤ c ∧ c ≤ '9') ∨ ('a' ≤ c ∧ c ≤ 'f') ∨ ('A' ≤ c ∧ c ≤ 'F')

/-- One character of a string, as it is written between the quotes. -/
inductive StringChar : List Char → Prop where
  | plain {c : Char} (hc : 0x20 ≤ c.toNat) (hquote : c ≠ '"') (hslash : c ≠ '\\') : StringChar [c]
  | letter {c : Char} (hc : c ∈ ['"', '\\', '/', 'b', 'f', 'n', 'r', 't']) : StringChar ['\\', c]
  | unit {a b c d : Char} (ha : IsHex a) (hb : IsHex b) (hc : IsHex c) (hd : IsHex d) :
    StringChar ['\\', 'u', a, b, c, d]

variable {s r : List Char}

theorem isHex_iff {c : Char} : IsHex c ↔ ∃ n, hexValue? c = some n := by
  unfold IsHex hexValue?
  split
  · simp [*]
  split
  · simp [*]
  split
  · simp [*]
  · simp [*]

theorem exists_unit?_iff {a b c d : Char} :
    (∃ n, unit? a b c d = some n) ↔ IsHex a ∧ IsHex b ∧ IsHex c ∧ IsHex d := by
  simp only [isHex_iff, unit?]
  rcases hexValue? a with _ | a
  · simp
  rcases hexValue? b with _ | b
  · simp
  rcases hexValue? c with _ | c
  · simp
  rcases hexValue? d with _ | d
  · simp
  · simp

theorem exists_charOf?_iff {c : Char} :
    (∃ d, charOf? c = some d) ↔ c ∈ ['"', '\\', '/', 'b', 'f', 'n', 'r', 't'] := by
  simp only [List.mem_cons, List.not_mem_nil, or_false]
  unfold charOf?
  split
  case h_9 =>
    simp only [reduceCtorEq, exists_false, false_iff]
    tauto
  all_goals simp

/-- A step inside a string that neither ends it nor breaks it. -/
def Piece.IsText : Piece → Prop
  | .char _ | .unit _ => True
  | .close | .control => False

theorem StringChar.takes {w : List Char} (hw : StringChar w) :
    ∃ p : Piece, p.IsText ∧ Takes piece w p := by
  cases hw with
  | @plain c hc hquote hslash =>
    have hcontrol : isControl c = false := by simpa [isControl] using hc
    exact ⟨.char c, trivial, fun t => ⟨by simp, by simp [piece, hquote, hslash, hcontrol]⟩⟩
  | @letter c hc =>
    obtain ⟨d, hd⟩ := exists_charOf?_iff.2 hc
    have hu : c ≠ 'u' := by
      rintro rfl
      exact absurd hc (by decide)
    refine ⟨.char d, trivial, fun t => ⟨?_, by simp [piece, readEscape, hu, hd]⟩⟩
    simp only [List.length_append, List.length_cons]
    omega
  | unit ha hb hc hd =>
    obtain ⟨n, hn⟩ := exists_unit?_iff.2 ⟨ha, hb, hc, hd⟩
    refine ⟨.unit n, trivial, fun t => ⟨?_, by simp [piece, readEscape, readUnit, hn]⟩⟩
    simp only [List.length_append, List.length_cons]
    omega

theorem exists_unit?_of_readUnit {n : Nat} {h : r.length < s.length}
    (hs : readUnit s = .ok (n, ⟨r, h⟩)) :
    ∃ a b c d, s = a :: b :: c :: d :: r ∧ unit? a b c d = some n := by
  unfold readUnit at hs
  split at hs
  · next a b c d r₁ =>
    split at hs
    · next m hm =>
      obtain ⟨rfl, rfl⟩ : m = n ∧ r₁ = r := by simpa using hs
      exact ⟨a, b, c, d, rfl, hm⟩
    · simp at hs
  · split at hs <;> simp at hs

theorem stringChar_of_readEscape {p : Piece} {h : r.length < s.length}
    (hs : readEscape s = .ok (p, ⟨r, h⟩)) :
    p.IsText ∧ ∃ w, s = w ++ r ∧ StringChar ('\\' :: w) := by
  unfold readEscape at hs
  split at hs
  · simp at hs
  next e r₁ =>
  split at hs
  · next he =>
    subst he
    split at hs
    · simp at hs
    next n r₂ h₂ hn =>
    obtain ⟨rfl, rfl⟩ : .unit n = p ∧ r₂ = r := by simpa using hs
    obtain ⟨a, b, c, d, rfl, hunit⟩ := exists_unit?_of_readUnit hn
    obtain ⟨ha, hb, hc, hd⟩ := exists_unit?_iff.1 ⟨n, hunit⟩
    exact ⟨trivial, ['u', a, b, c, d], rfl, .unit ha hb hc hd⟩
  · split at hs
    · next c hc =>
      obtain ⟨rfl, rfl⟩ : .char c = p ∧ r₁ = r := by simpa using hs
      exact ⟨trivial, [e], rfl, .letter (exists_charOf?_iff.1 ⟨c, hc⟩)⟩
    · simp at hs

theorem cases_of_piece {p : Piece} {h : r.length < s.length} (hs : piece s = .ok (p, ⟨r, h⟩)) :
    (p = .close ∧ s = '"' :: r) ∨
      (p = .control ∧ ∃ c, s = c :: r ∧ Takes piece [c] .control) ∨
      p.IsText ∧ ∃ w, s = w ++ r ∧ StringChar w := by
  unfold piece at hs
  split at hs
  · simp at hs
  next c r₁ =>
  split at hs
  · next hc =>
    obtain ⟨rfl, rfl⟩ : .close = p ∧ r₁ = r := by simpa using hs
    exact .inl ⟨rfl, by rw [hc]⟩
  next hquote =>
  split at hs
  · next hc =>
    subst hc
    split at hs
    · simp at hs
    next q r₂ h₂ hq =>
    obtain ⟨rfl, rfl⟩ : q = p ∧ r₂ = r := by simpa using hs
    obtain ⟨hp, w, rfl, hw⟩ := stringChar_of_readEscape hq
    exact .inr (.inr ⟨hp, '\\' :: w, rfl, hw⟩)
  next hslash =>
  split at hs
  · next hc =>
    obtain ⟨rfl, rfl⟩ : .control = p ∧ r₁ = r := by simpa using hs
    refine .inr (.inl ⟨rfl, c, rfl, fun t => ⟨by simp, ?_⟩⟩)
    simp [piece, hquote, hslash, hc]
  · next hc =>
    obtain ⟨rfl, rfl⟩ : .char c = p ∧ r₁ = r := by simpa using hs
    exact .inr (.inr ⟨trivial, [c], rfl, .plain (by simpa [isControl] using hc) hquote hslash⟩)

theorem takes_of_piece {p : Piece} {h : r.length < s.length} (hs : piece s = .ok (p, ⟨r, h⟩)) :
    ∃ w, s = w ++ r ∧ Takes piece w p := by
  rcases cases_of_piece hs with ⟨rfl, rfl⟩ | ⟨rfl, c, rfl, hc⟩ | ⟨-, w, rfl, hw⟩
  · exact ⟨['"'], rfl, fun t => ⟨by simp, by simp [piece]⟩⟩
  · exact ⟨[c], rfl, hc⟩
  · obtain ⟨q, -, htakes⟩ := hw.takes
    obtain ⟨h', e⟩ := htakes r
    obtain rfl : q = p := by
      rw [e] at hs
      exact congrArg Prod.fst (Except.ok.inj hs)
    exact ⟨w, rfl, htakes⟩

end JsonEdit.Json
