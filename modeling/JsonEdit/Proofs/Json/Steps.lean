import JsonEdit.Json.Reader
import JsonEdit.Proofs.Json.Blank

/-!
# The reader, one step at a time

What the reader does once the next character that is not a blank is known: one statement for each
kind of value that may begin, and one for each character that may follow a complete value inside a
container. Nothing else needs to open the reader's definition.
-/

namespace JsonEdit.Json

variable {stack : List Frame} {s r t : List Char} {v : Value}

/-! ## Where a value is due -/

theorem readValue_scalar {h : r.length < s.length} (hs : readOpening s = .ok (.scalar v, ⟨r, h⟩)) :
    readValue stack s = goOn stack v r := by
  rw [readValue, hs]

theorem readOpening_string {text : String} {h : r.length < s.length} {h' : t.length < r.length}
    (hs : next? s = some ('"', ⟨r, h⟩)) (hq : readQuoted r = .ok (text, ⟨t, h'⟩)) :
    readOpening s = .ok (.scalar (.string text), ⟨t, lt_length_of_lt h h'⟩) := by
  unfold readOpening
  rw [hs]
  dsimp only
  rw [if_pos rfl, hq]

theorem readValue_string {text : String} {h : r.length < s.length} {h' : t.length < r.length}
    (hs : next? s = some ('"', ⟨r, h⟩)) (hq : readQuoted r = .ok (text, ⟨t, h'⟩)) :
    readValue stack s = goOn stack (.string text) t :=
  readValue_scalar (readOpening_string hs hq)

theorem readWord_append (word r : List Char) : ∃ h, readWord word (word ++ r) = .ok ⟨r, h⟩ := by
  induction word with
  | nil => exact ⟨Nat.le_refl _, rfl⟩
  | cons c word ih =>
    obtain ⟨h, e⟩ := ih
    refine ⟨Nat.le_succ_of_le h, ?_⟩
    simp only [List.cons_append, readWord, if_true, e]

theorem not_blank_of_word? {letters : List Char} {c : Char} (hc : word? c = some (letters, v)) :
    isBlank c = false ∧ c ≠ '"' ∧ c ≠ '[' ∧ c ≠ '\x7b' := by
  unfold word? at hc
  split at hc
  case h_4 => cases hc
  all_goals decide

theorem readOpening_word {c : Char} {letters : List Char} {h : (letters ++ r).length < s.length}
    (hs : next? s = some (c, ⟨letters ++ r, h⟩)) (hc : word? c = some (letters, v)) :
    ∃ h, readOpening s = .ok (.scalar v, ⟨r, h⟩) := by
  obtain ⟨h', e⟩ := readWord_append letters r
  obtain ⟨-, hquote, hlist, hobject⟩ := not_blank_of_word? hc
  refine ⟨by omega, ?_⟩
  unfold readOpening
  rw [hs]
  dsimp only
  rw [if_neg hquote, if_neg hlist, if_neg hobject, hc]
  dsimp only
  rw [e]

theorem readValue_word {c : Char} {letters : List Char} {h : (letters ++ r).length < s.length}
    (hs : next? s = some (c, ⟨letters ++ r, h⟩)) (hc : word? c = some (letters, v)) :
    readValue stack s = goOn stack v r := by
  obtain ⟨h', e⟩ := readOpening_word hs hc
  exact readValue_scalar e

theorem word?_of_startsNumber {c : Char} (hc : startsNumber c = true) :
    word? c = none ∧ c ≠ '"' ∧ c ≠ '[' ∧ c ≠ '\x7b' := by
  have hne : ∀ d, startsNumber d = false → c ≠ d := by
    rintro d hd rfl
    rw [hc] at hd
    simp at hd
  refine ⟨?_, hne _ (by decide), hne _ (by decide), hne _ (by decide)⟩
  unfold word?
  split
  · exact absurd rfl (hne 'n' (by decide))
  · exact absurd rfl (hne 't' (by decide))
  · exact absurd rfl (hne 'f' (by decide))
  · rfl

theorem readOpening_number {c : Char} {x : Number} {h : r.length < s.length}
    {h' : t.length < (c :: r).length} (hs : next? s = some (c, ⟨r, h⟩))
    (hc : startsNumber c = true) (hx : readNumber (c :: r) = .ok (x, ⟨t, h'⟩)) :
    readOpening s = .ok (.scalar (.number x), ⟨t, lt_length_of_lt_cons h h'⟩) := by
  obtain ⟨hword, hquote, hlist, hobject⟩ := word?_of_startsNumber hc
  unfold readOpening
  rw [hs]
  dsimp only
  rw [if_neg hquote, if_neg hlist, if_neg hobject, hword]
  dsimp only
  rw [if_pos hc, hx]

theorem value_of_word? {c : Char} {letters : List Char} (h : word? c = some (letters, v)) :
    v = .null ∨ ∃ b, v = .boolean b := by
  unfold word? at h
  split at h
  · cases h
    exact .inl rfl
  · cases h
    exact .inr ⟨true, rfl⟩
  · cases h
    exact .inr ⟨false, rfl⟩
  · cases h

theorem scalar_of_readOpening {h : r.length < s.length}
    (hread : readOpening s = .ok (.scalar v, ⟨r, h⟩)) :
    (v = .null ∨ ∃ b, v = .boolean b) ∨ (∃ text, v = .string text) ∨
      ∃ (x : Number) (t : List Char) (h' : r.length < t.length),
        readNumber t = .ok (x, ⟨r, h'⟩) ∧ v = .number x := by
  revert hread
  fun_cases readOpening s with
  | case3 r' hr' text t ht hq hs =>
    intro hread
    obtain ⟨rfl, -⟩ : .string text = v ∧ t = r := by simpa using hread
    exact .inr (.inl ⟨text, rfl⟩)
  | case7 c r' hr' hs hquote hlist hobject letters w hw t ht hword =>
    intro hread
    obtain ⟨rfl, -⟩ : w = v ∧ t = r := by simpa using hread
    exact .inl (value_of_word? hw)
  | case9 c r' hr' hs hquote hlist hobject hw hc x t ht hx =>
    intro hread
    obtain ⟨rfl, rfl⟩ : .number x = v ∧ t = r := by simpa using hread
    exact .inr (.inr ⟨x, c :: r', ht, hx, rfl⟩)
  | _ => simp

theorem readOpening_bracket {h : r.length < s.length} (hs : next? s = some ('[', ⟨r, h⟩)) :
    readOpening s = .ok (.list, ⟨r, h⟩) := by
  unfold readOpening
  rw [hs]
  rfl

theorem readOpening_brace {h : r.length < s.length} (hs : next? s = some ('\x7b', ⟨r, h⟩)) :
    readOpening s = .ok (.object, ⟨r, h⟩) := by
  unfold readOpening
  rw [hs]
  rfl

theorem readValue_tooDeep {c : Char} {h : r.length < s.length} (hs : next? s = some (c, ⟨r, h⟩))
    (hc : c = '[' ∨ c = '\x7b') (hstack : ¬ stack.length < maxOpen) :
    readValue stack s = .error (.before .tooDeep r) := by
  rw [readValue]
  rcases hc with rfl | rfl
  · rw [readOpening_bracket hs]
    dsimp only
    rw [if_neg hstack]
  · rw [readOpening_brace hs]
    dsimp only
    rw [if_neg hstack]

theorem readValue_emptyList {h : r.length < s.length} {h' : t.length < r.length}
    (hs : next? s = some ('[', ⟨r, h⟩)) (hstack : stack.length < maxOpen)
    (hr : next? r = some (']', ⟨t, h'⟩)) : readValue stack s = goOn stack (.array []) t := by
  rw [readValue, readOpening_bracket hs]
  dsimp only
  rw [if_pos hstack, hr]
  dsimp only
  rw [if_pos rfl]

theorem readValue_list {c : Char} {h : r.length < s.length} {h' : t.length < r.length}
    (hs : next? s = some ('[', ⟨r, h⟩)) (hstack : stack.length < maxOpen)
    (hr : next? r = some (c, ⟨t, h'⟩)) (hc : c ≠ ']') :
    readValue stack s = readValue (.items [] :: stack) r := by
  rw [readValue, readOpening_bracket hs]
  dsimp only
  rw [if_pos hstack, hr]
  dsimp only
  rw [if_neg hc]

theorem readValue_emptyObject {h : r.length < s.length} {h' : t.length < r.length}
    (hs : next? s = some ('\x7b', ⟨r, h⟩)) (hstack : stack.length < maxOpen)
    (hr : next? r = some ('\x7d', ⟨t, h'⟩)) : readValue stack s = goOn stack (.object []) t := by
  rw [readValue, readOpening_brace hs]
  dsimp only
  rw [if_pos hstack, hr]
  dsimp only
  rw [if_pos rfl]

theorem readValue_object {key : String} {u : List Char} {h : r.length < s.length}
    {h' : t.length < r.length} {h'' : u.length < t.length} (hs : next? s = some ('\x7b', ⟨r, h⟩))
    (hstack : stack.length < maxOpen) (hr : next? r = some ('"', ⟨t, h'⟩))
    (hk : readKey t = .ok (key, ⟨u, h''⟩)) :
    readValue stack s = readValue (.members [] key :: stack) u := by
  rw [readValue, readOpening_brace hs]
  dsimp only
  rw [if_pos hstack, hr]
  dsimp only
  rw [if_neg (by decide), if_pos rfl, hk]

theorem readColon_of {h : r.length < s.length} (hs : next? s = some (':', ⟨r, h⟩)) :
    readColon s = .ok ⟨r, h⟩ := by
  unfold readColon
  rw [hs]
  rfl

theorem readKey_of {key : String} {u : List Char} {h : t.length < s.length}
    {h' : u.length < t.length} (hq : readQuoted s = .ok (key, ⟨t, h⟩))
    (ht : next? t = some (':', ⟨u, h'⟩)) : ∃ h, readKey s = .ok (key, ⟨u, h⟩) := by
  refine ⟨by omega, ?_⟩
  unfold readKey
  rw [hq]
  dsimp only
  rw [readColon_of ht]

/-! ## Behind a complete value -/

theorem goOn_end (hs : AllBlank s) : goOn [] v s = .ok v := by
  rw [goOn, next?_eq_none_iff.2 hs]

theorem goOn_closeList {done : List Value} {h : r.length < s.length}
    (hs : next? s = some (']', ⟨r, h⟩)) :
    goOn (.items done :: stack) v s = goOn stack (.array (v :: done).reverse) r := by
  rw [goOn, hs]
  dsimp only
  rw [if_pos rfl]

theorem goOn_nextItem {done : List Value} {c : Char} {h : r.length < s.length}
    {h' : t.length < r.length} (hs : next? s = some (',', ⟨r, h⟩))
    (hr : next? r = some (c, ⟨t, h'⟩)) (hc : c ≠ ']') :
    goOn (.items done :: stack) v s = readValue (.items (v :: done) :: stack) r := by
  rw [goOn, hs]
  dsimp only
  rw [if_neg (by decide), if_pos rfl, hr]
  dsimp only
  rw [if_neg hc]

theorem goOn_closeObject {done : List (String × Value)} {key : String} {h : r.length < s.length}
    (hs : next? s = some ('\x7d', ⟨r, h⟩)) :
    goOn (.members done key :: stack) v s =
      goOn stack (.object (Members.put key v done)) r := by
  rw [goOn, hs]
  dsimp only
  rw [if_pos rfl]

theorem goOn_nextMember {done : List (String × Value)} {key key' : String} {u : List Char}
    {h : r.length < s.length} {h' : t.length < r.length} {h'' : u.length < t.length}
    (hs : next? s = some (',', ⟨r, h⟩)) (hr : next? r = some ('"', ⟨t, h'⟩))
    (hk : readKey t = .ok (key', ⟨u, h''⟩)) :
    goOn (.members done key :: stack) v s =
      readValue (.members (Members.put key v done) key' :: stack) u := by
  rw [goOn, hs]
  dsimp only
  rw [if_neg (by decide), if_pos rfl, hr]
  dsimp only
  rw [if_pos rfl, hk]

end JsonEdit.Json
