import JsonEdit.Json.Checker
import JsonEdit.Proofs.Json.Taken

/-!
# The grammar of JSON

* `Derives x w`: the grammar derives the text `w` from the symbol `x`. It is stated about texts
  alone and knows nothing of the reader or the checker. A text that is one JSON value with blanks
  around it is an `element`.
* The rest of the module compares the parts that have no parts of their own: what the checker skips
  as a string (`skipQuotedWithin_append`, `exists_stringChars_of_skipQuotedWithin`), takes as the
  beginning of a value (`checkOpening_append`, `exists_isOpening_of_checkOpening`) or as a key with
  its colon (`checkKey_append`, `exists_isKey_of_checkKey`) is what the grammar derives there.
-/

namespace JsonEdit.Json

/-! ## Derivations -/

/-- Space, tab, line feed and carriage return, any number of them. -/
def Spaces (s : List Char) : Prop :=
  ∀ c ∈ s, c = ' ' ∨ c = '\t' ∨ c = '\n' ∨ c = '\r'

inductive StringChars : List Char → Prop where
  | nil : StringChars []
  | cons {w s : List Char} (hw : StringChar w) (hs : StringChars s) : StringChars (w ++ s)

def IsString (s : List Char) : Prop :=
  ∃ w, s = '"' :: (w ++ ['"']) ∧ StringChars w

/-- A string and a colon, with blanks around the string. -/
def IsKey (s : List Char) : Prop :=
  ∃ bs w bs', s = bs ++ (w ++ (bs' ++ [':'])) ∧ Spaces bs ∧ IsString w ∧ Spaces bs'

/-- A value that is not a container. -/
inductive IsScalar : List Char → Prop where
  | null : IsScalar ['n', 'u', 'l', 'l']
  | true : IsScalar ['t', 'r', 'u', 'e']
  | false : IsScalar ['f', 'a', 'l', 's', 'e']
  | number {w : List Char} {n : Numeral} (hw : n.Writes w) : IsScalar w
  | string {w : List Char} (hw : IsString w) : IsScalar w

/-- What the grammar has rules for. -/
inductive Symbol where
  | value
  /-- A value with blanks around it. -/
  | element
  /-- One element or more, with commas between them. -/
  | items
  | member
  /-- One member or more, with commas between them. -/
  | members

/-- The text `w` is derived from the symbol. -/
inductive Derives : Symbol → List Char → Prop where
  | scalar {w : List Char} (hw : IsScalar w) : Derives .value w
  | emptyArray {bs : List Char} (hb : Spaces bs) : Derives .value ('[' :: (bs ++ [']']))
  | array {w : List Char} (hw : Derives .items w) : Derives .value ('[' :: (w ++ [']']))
  | emptyObject {bs : List Char} (hb : Spaces bs) : Derives .value ('\x7b' :: (bs ++ ['\x7d']))
  | object {w : List Char} (hw : Derives .members w) : Derives .value ('\x7b' :: (w ++ ['\x7d']))
  | element {bs w bs' : List Char} (hb : Spaces bs) (hw : Derives .value w) (hb' : Spaces bs') :
    Derives .element (bs ++ (w ++ bs'))
  | lastItem {w : List Char} (hw : Derives .element w) : Derives .items w
  | moreItems {w ws : List Char} (hw : Derives .element w) (hws : Derives .items ws) :
    Derives .items (w ++ ',' :: ws)
  | member {k w : List Char} (hk : IsKey k) (hw : Derives .element w) : Derives .member (k ++ w)
  | lastMember {w : List Char} (hw : Derives .member w) : Derives .members w
  | moreMembers {w ws : List Char} (hw : Derives .member w) (hws : Derives .members ws) :
    Derives .members (w ++ ',' :: ws)

variable {s r : List Char}

/-! ## Blanks -/

theorem isBlank_iff {c : Char} : isBlank c = true ↔ c = ' ' ∨ c = '\t' ∨ c = '\n' ∨ c = '\r' := by
  simp only [isBlank, Bool.or_eq_true, decide_eq_true_eq]
  tauto

theorem spaces_iff_allBlank : Spaces s ↔ AllBlank s :=
  forall₂_congr fun _ _ => isBlank_iff.symm

/-! ## Strings -/

theorem skipQuotedWithin_of_isText {n : Nat} {p : Piece} {h : r.length < s.length}
    (hs : piece s = .ok (p, ⟨r, h⟩)) (hp : p.IsText) (bound : s.length ≤ n) :
    skipQuotedWithin s bound = skipQuotedWithin r (by omega) := by
  rw [skipQuotedWithin, hs]
  cases p with
  | char c => rfl
  | unit u => rfl
  | close => exact hp.elim
  | control => exact hp.elim

theorem skipQuotedWithin_append {w : List Char} (hw : StringChars w) {n : Nat} (r : List Char)
    (bound : (w ++ '"' :: r).length ≤ n) :
    ∃ h, skipQuotedWithin (w ++ '"' :: r) bound = .ok ⟨r, h⟩ := by
  induction hw with
  | nil =>
    refine ⟨bound, ?_⟩
    rw [skipQuotedWithin]
    simp [piece]
  | @cons w s hw hs ih =>
    obtain ⟨p, hp, htakes⟩ := hw.takes
    obtain ⟨h₁, e₁⟩ := htakes (s ++ '"' :: r)
    have htext : w ++ s ++ '"' :: r = w ++ (s ++ '"' :: r) := List.append_assoc ..
    simp only [htext] at bound ⊢
    rw [skipQuotedWithin_of_isText e₁ hp]
    exact ih (by omega)

theorem exists_stringChars_of_skipQuotedWithin {n : Nat} {s r : List Char} {bound : s.length ≤ n}
    {h : r.length < n} (hs : skipQuotedWithin s bound = .ok ⟨r, h⟩) :
    ∃ w, s = w ++ '"' :: r ∧ StringChars w := by
  rcases hp : piece s with f | ⟨p, r₁, h₁⟩
  · rw [skipQuotedWithin, hp] at hs
    simp at hs
  rcases cases_of_piece hp with ⟨rfl, rfl⟩ | ⟨rfl, -⟩ | ⟨htext, w, rfl, hw⟩
  · rw [skipQuotedWithin, hp] at hs
    obtain rfl : r₁ = r := by simpa using hs
    exact ⟨[], rfl, .nil⟩
  · rw [skipQuotedWithin, hp] at hs
    simp at hs
  · rw [skipQuotedWithin_of_isText hp htext] at hs
    obtain ⟨s', rfl, hs'⟩ := exists_stringChars_of_skipQuotedWithin hs
    exact ⟨w ++ s', (List.append_assoc ..).symm, .cons hw hs'⟩
termination_by s.length

theorem skipQuoted_append {w : List Char} (hw : StringChars w) (r : List Char) :
    ∃ h, skipQuoted (w ++ '"' :: r) = .ok ⟨r, h⟩ :=
  skipQuotedWithin_append hw r (Nat.le_refl _)

theorem exists_stringChars_of_skipQuoted {h : r.length < s.length}
    (hs : skipQuoted s = .ok ⟨r, h⟩) : ∃ w, s = w ++ '"' :: r ∧ StringChars w :=
  exists_stringChars_of_skipQuotedWithin hs

/-! ## The beginning of a value -/

/-- The text `w` is how a value begins that the checker then takes for `o`. -/
inductive IsOpening : Opening Unit → List Char → Prop where
  | scalar {w : List Char} (hw : IsScalar w) : IsOpening (.scalar ()) w
  | list : IsOpening .list ['[']
  | object : IsOpening .object ['\x7b']

theorem checkOpening_word {bs letters : List Char} {c : Char} {v : Value} (hb : AllBlank bs)
    (hc : word? c = some (letters, v)) (r : List Char) :
    ∃ h, checkOpening (bs ++ (c :: letters ++ r)) = .ok (.scalar (), ⟨r, h⟩) := by
  obtain ⟨hblank, hquote, hlist, hobject⟩ := not_blank_of_word? hc
  obtain ⟨h₁, e₁⟩ := next?_append hb hblank (letters ++ r)
  obtain ⟨h₂, e₂⟩ := readWord_append letters r
  rw [List.cons_append]
  refine ⟨by omega, ?_⟩
  unfold checkOpening
  rw [e₁]
  dsimp only
  rw [if_neg hquote, if_neg hlist, if_neg hobject, hc]
  dsimp only
  rw [e₂]

theorem checkOpening_number {bs w : List Char} {n : Numeral} (hb : AllBlank bs) (hw : n.Writes w)
    (hr : Numeral.EndsNumber r) :
    ∃ h, checkOpening (bs ++ (w ++ r)) = .ok (.scalar (), ⟨r, h⟩) := by
  obtain ⟨c, t, rfl, hc⟩ := hw.head?
  obtain ⟨hword, hquote, hlist, hobject⟩ := word?_of_startsNumber hc
  obtain ⟨h₁, e₁⟩ := next?_append hb (not_blank_of_startsNumber hc).1 (t ++ r)
  obtain ⟨h₂, e₂⟩ : ∃ h, Numeral.read .badNumber (c :: (t ++ r)) = .ok (n, ⟨r, h⟩) :=
    Numeral.read_append .badNumber hw hr
  rw [List.cons_append]
  refine ⟨lt_length_of_lt_cons h₁ h₂, ?_⟩
  unfold checkOpening
  rw [e₁]
  dsimp only
  rw [if_neg hquote, if_neg hlist, if_neg hobject, hword]
  dsimp only
  rw [if_pos hc, e₂]

theorem checkOpening_string {bs w : List Char} (hb : AllBlank bs) (hw : IsString w)
    (r : List Char) : ∃ h, checkOpening (bs ++ (w ++ r)) = .ok (.scalar (), ⟨r, h⟩) := by
  obtain ⟨w, rfl, hw⟩ := hw
  have htext : '"' :: (w ++ ['"']) ++ r = '"' :: (w ++ '"' :: r) := by simp
  rw [htext]
  obtain ⟨h₁, e₁⟩ := next?_append (c := '"') hb rfl (w ++ '"' :: r)
  obtain ⟨h₂, e₂⟩ := skipQuoted_append hw r
  refine ⟨by omega, ?_⟩
  unfold checkOpening
  rw [e₁]
  dsimp only
  rw [if_pos rfl, e₂]

/-- A number has to be followed by something that does not go on with it. -/
theorem checkOpening_append {o : Opening Unit} {bs w : List Char} (hb : AllBlank bs)
    (hw : IsOpening o w) (hr : o = .scalar () → Numeral.EndsNumber r) :
    ∃ h, checkOpening (bs ++ (w ++ r)) = .ok (o, ⟨r, h⟩) := by
  cases hw with
  | scalar hw =>
    cases hw with
    | null => exact checkOpening_word (c := 'n') hb rfl r
    | true => exact checkOpening_word (c := 't') hb rfl r
    | false => exact checkOpening_word (c := 'f') hb rfl r
    | number hw => exact checkOpening_number hb hw (hr rfl)
    | string hw => exact checkOpening_string hb hw r
  | list =>
    obtain ⟨h, e⟩ := next?_append (c := '[') hb rfl r
    rw [List.singleton_append]
    refine ⟨h, ?_⟩
    unfold checkOpening
    rw [e]
    rfl
  | object =>
    obtain ⟨h, e⟩ := next?_append (c := '\x7b') hb rfl r
    rw [List.singleton_append]
    refine ⟨h, ?_⟩
    unfold checkOpening
    rw [e]
    rfl

theorem isScalar_of_word? {letters : List Char} {c : Char} {v : Value}
    (hc : word? c = some (letters, v)) : IsScalar (c :: letters) := by
  unfold word? at hc
  split at hc
  · cases hc
    exact .null
  · cases hc
    exact .true
  · cases hc
    exact .false
  · cases hc

theorem exists_isOpening_of_checkOpening {o : Opening Unit} {h : r.length < s.length}
    (hs : checkOpening s = .ok (o, ⟨r, h⟩)) :
    ∃ bs w, s = bs ++ (w ++ r) ∧ AllBlank bs ∧ IsOpening o w := by
  revert hs
  fun_cases checkOpening s with
  | case3 r₁ hr₁ r₂ hr₂ hq hnext =>
    intro hs
    obtain ⟨rfl, rfl⟩ : .scalar () = o ∧ r₂ = r := by simpa using hs
    obtain ⟨bs, rfl, hb, -⟩ := exists_blank_of_next? hnext
    obtain ⟨w, rfl, hw⟩ := exists_stringChars_of_skipQuoted hq
    exact ⟨bs, '"' :: (w ++ ['"']), by simp, hb, .scalar (.string ⟨w, rfl, hw⟩)⟩
  | case4 r₁ hr₁ hnext =>
    intro hs
    obtain ⟨rfl, rfl⟩ : .list = o ∧ r₁ = r := by simpa using hs
    obtain ⟨bs, rfl, hb, -⟩ := exists_blank_of_next? hnext
    exact ⟨bs, ['['], rfl, hb, .list⟩
  | case5 r₁ hr₁ hnext =>
    intro hs
    obtain ⟨rfl, rfl⟩ : .object = o ∧ r₁ = r := by simpa using hs
    obtain ⟨bs, rfl, hb, -⟩ := exists_blank_of_next? hnext
    exact ⟨bs, ['\x7b'], rfl, hb, .object⟩
  | case7 c r₁ hr₁ hnext hquote hlist hobject letters v hword r₂ hr₂ hr =>
    intro hs
    obtain ⟨rfl, rfl⟩ : .scalar () = o ∧ r₂ = r := by simpa using hs
    obtain ⟨bs, rfl, hb, -⟩ := exists_blank_of_next? hnext
    obtain rfl := eq_append_of_readWord hr
    exact ⟨bs, c :: letters, rfl, hb, .scalar (isScalar_of_word? hword)⟩
  | case9 c r₁ hr₁ hnext hquote hlist hobject hword hc n r₂ hr₂ hn =>
    intro hs
    obtain ⟨rfl, rfl⟩ : .scalar () = o ∧ r₂ = r := by simpa using hs
    obtain ⟨bs, rfl, hb, -⟩ := exists_blank_of_next? hnext
    obtain ⟨w, hw, hwrites⟩ := Numeral.writes_of_read hn
    exact ⟨bs, w, by rw [hw], hb, .scalar (.number hwrites)⟩
  | _ => simp

/-! ## Keys -/

theorem checkKey_append {k : List Char} (hk : IsKey k) (r : List Char) :
    ∃ h, checkKey (k ++ r) = .ok ⟨r, h⟩ := by
  obtain ⟨bs, _, bs', rfl, hb, ⟨w, rfl, hw⟩, hb'⟩ := hk
  have htext : bs ++ ('"' :: (w ++ ['"']) ++ (bs' ++ [':'])) ++ r =
      bs ++ '"' :: (w ++ '"' :: (bs' ++ ':' :: r)) := by simp
  rw [htext]
  obtain ⟨h₁, e₁⟩ :=
    next?_append (c := '"') (spaces_iff_allBlank.1 hb) rfl (w ++ '"' :: (bs' ++ ':' :: r))
  obtain ⟨h₂, e₂⟩ := skipQuoted_append hw (bs' ++ ':' :: r)
  obtain ⟨h₃, e₃⟩ := next?_append (c := ':') (spaces_iff_allBlank.1 hb') rfl r
  refine ⟨by omega, ?_⟩
  unfold checkKey
  rw [e₁]
  dsimp only
  rw [if_pos rfl, e₂]
  dsimp only
  rw [readColon_of e₃]

theorem exists_isKey_of_checkKey {h : r.length < s.length} (hs : checkKey s = .ok ⟨r, h⟩) :
    ∃ k, s = k ++ r ∧ IsKey k := by
  unfold checkKey at hs
  split at hs
  · simp at hs
  next c r₁ h₁ hnext =>
  split at hs
  swap
  · simp at hs
  next hc =>
  subst hc
  split at hs
  · simp at hs
  next r₂ h₂ hq =>
  split at hs
  · simp at hs
  next r₃ h₃ hcolon =>
  obtain rfl : r₃ = r := by simpa using hs
  obtain ⟨bs, rfl, hb, -⟩ := exists_blank_of_next? hnext
  obtain ⟨w, rfl, hw⟩ := exists_stringChars_of_skipQuoted hq
  obtain ⟨bs', rfl, hb'⟩ := exists_blank_of_readColon hcolon
  exact ⟨bs ++ ('"' :: (w ++ ['"']) ++ (bs' ++ [':'])), by simp, bs, _, bs', rfl,
    spaces_iff_allBlank.2 hb, ⟨w, rfl, hw⟩, spaces_iff_allBlank.2 hb'⟩

end JsonEdit.Json
