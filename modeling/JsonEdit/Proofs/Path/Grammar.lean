import JsonEdit.Path
import JsonEdit.Proofs.Outcome
import JsonEdit.Proofs.Text.Pieces
import Mathlib.Algebra.Group.Nat.Defs
import Mathlib.Data.List.Forall2
import Mathlib.Data.List.TakeWhile

/-!
# The grammar of paths

* `Path.IsName` and `Path.IsIndex` say what may stand in a piece, `Segment.Writes` what a whole
  piece looks like and which segment it stands for.
* `readPiece_eq_ok_iff`: a piece is read as a segment just when it writes it.
* Main statement: a text is a path just when all its pieces between dots write segments, and the
  path then has these segments in order and keeps the text.
-/

namespace JsonEdit

namespace Path

/-- Characters that may stand as a name in a path. -/
structure IsName (name : List Char) : Prop where
  ne_nil : name ≠ []
  plain : ∀ c ∈ name, c ≠ '.' ∧ c ≠ '[' ∧ c ≠ ']'

/-- Digits of the index `i`, with leading zeros or not. -/
structure IsIndex (ds : List Char) (i : Nat) : Prop where
  ne_nil : ds ≠ []
  digits : ∀ d ∈ ds, d.isDigit = true
  value : Decimal.value ds = i
  bound : i < 2 ^ 64

end Path

/-- A piece of a path and the segment that it stands for. -/
inductive Segment.Writes : List Char → Segment → Prop where
  | name {name : List Char} (h : Path.IsName name) :
    Writes name ⟨String.ofList name, none⟩
  | element {name ds : List Char} {i : Nat} (h : Path.IsName name) (hi : Path.IsIndex ds i) :
    Writes (name ++ '[' :: (ds ++ [']'])) ⟨String.ofList name, some i⟩

namespace Path

/-! ## Cutting at a character -/

section

variable {c : Char} {s r : List Char}

theorem takeWhile_ne_of_not_mem (h : c ∉ s) :
    s.takeWhile (· ≠ c) = s ∧ s.dropWhile (· ≠ c) = [] := by
  have hall : ∀ d ∈ s, decide (d ≠ c) = true := by
    intro d hd
    exact decide_eq_true fun e => h (e ▸ hd)
  exact ⟨List.takeWhile_eq_self_iff.2 hall, List.dropWhile_eq_nil_iff.2 hall⟩

theorem takeWhile_ne_append (h : c ∉ s) (r : List Char) :
    (s ++ c :: r).takeWhile (· ≠ c) = s ∧ (s ++ c :: r).dropWhile (· ≠ c) = c :: r := by
  have hall : ∀ d ∈ s, decide (d ≠ c) = true := by
    intro d hd
    exact decide_eq_true fun e => h (e ▸ hd)
  constructor
  · rw [List.takeWhile_append_of_pos hall]
    simp
  · rw [List.dropWhile_append_of_pos hall]
    simp

theorem not_mem_takeWhile_ne (c : Char) (s : List Char) : c ∉ s.takeWhile (· ≠ c) := by
  intro h
  simpa using List.mem_takeWhile_imp h

theorem eq_of_dropWhile_ne_nil (h : s.dropWhile (· ≠ c) = []) : s.takeWhile (· ≠ c) = s := by
  have := List.takeWhile_append_dropWhile (p := (· ≠ c)) (l := s)
  rwa [h, List.append_nil] at this

theorem eq_of_dropWhile_ne_cons {d : Char} (h : s.dropWhile (· ≠ c) = d :: r) :
    d = c ∧ s = s.takeWhile (· ≠ c) ++ c :: r := by
  have hd : d = c := by
    have hne : s.dropWhile (· ≠ c) ≠ [] := by
      rw [h]
      exact List.cons_ne_nil d r
    have := List.head_dropWhile_not (· ≠ c) hne
    simp only [h, List.head_cons, decide_eq_false_iff_not, ne_eq, not_not] at this
    exact this
  refine ⟨hd, ?_⟩
  have := List.takeWhile_append_dropWhile (p := (· ≠ c)) (l := s)
  rw [h, hd] at this
  exact this.symm

end

/-! ## One piece -/

theorem readIndex_eq_ok_iff {ds : List Char} {i : Nat} :
    readIndex ds = .ok i ↔ IsIndex ds i := by
  have hbound : indexBound = 2 ^ 64 := rfl
  unfold readIndex
  constructor
  · intro h
    split at h
    · simp at h
    next hne =>
    split at h
    · next hall =>
      split at h
      · next hlt =>
        obtain rfl := Except.ok.inj h
        exact ⟨hne, List.all_eq_true.1 hall, rfl, hbound ▸ hlt⟩
      · simp at h
    · simp at h
  · rintro ⟨hne, hall, rfl, hlt⟩
    rw [if_neg hne, if_pos (List.all_eq_true.2 hall), if_pos (hbound ▸ hlt)]

theorem IsIndex.not_mem {ds : List Char} {i : Nat} (h : IsIndex ds i) : ']' ∉ ds :=
  fun hmem => absurd (h.digits _ hmem) (by decide)

theorem readBracket_eq_ok_iff {s : List Char} {i : Nat} :
    readBracket s = .ok i ↔ ∃ ds, s = ds ++ [']'] ∧ IsIndex ds i := by
  unfold readBracket
  constructor
  · intro h
    split at h
    · simp at h
    · simp at h
    · simp at h
    · next c hc =>
      obtain ⟨-, hs⟩ := eq_of_dropWhile_ne_cons hc
      exact ⟨_, hs, readIndex_eq_ok_iff.1 h⟩
  · rintro ⟨ds, rfl, hi⟩
    obtain ⟨htake, hdrop⟩ := takeWhile_ne_append hi.not_mem []
    rw [hdrop, htake]
    exact readIndex_eq_ok_iff.2 hi

theorem IsName.not_mem {name : List Char} (h : IsName name) :
    '.' ∉ name ∧ '[' ∉ name ∧ ']' ∉ name :=
  ⟨fun hmem => (h.plain _ hmem).1 rfl, fun hmem => (h.plain _ hmem).2.1 rfl,
    fun hmem => (h.plain _ hmem).2.2 rfl⟩

theorem isName_of_not_mem {name : List Char} (hne : name ≠ []) (hdot : '.' ∉ name)
    (hopen : '[' ∉ name) (hclose : ']' ∉ name) : IsName name := by
  refine ⟨hne, fun c hc => ⟨?_, ?_, ?_⟩⟩
  · rintro rfl
    exact hdot hc
  · rintro rfl
    exact hopen hc
  · rintro rfl
    exact hclose hc

theorem IsIndex.isName {ds : List Char} {i : Nat} (h : IsIndex ds i) : IsName ds := by
  have hdigit : ∀ c ∈ ds, ∀ d : Char, d.isDigit = false → c ≠ d := by
    rintro c hc d hd rfl
    rw [h.digits c hc] at hd
    cases hd
  exact ⟨h.ne_nil, fun c hc => ⟨hdigit c hc '.' rfl, hdigit c hc '[' rfl, hdigit c hc ']' rfl⟩⟩

theorem readPiece_of_writes {w : List Char} {s : Segment} (h : s.Writes w) :
    readPiece w = .ok s := by
  cases h with
  | name h =>
    obtain ⟨-, hopen, hclose⟩ := h.not_mem
    obtain ⟨htake, hdrop⟩ := takeWhile_ne_of_not_mem hopen
    unfold readPiece
    dsimp only
    rw [htake, hdrop, if_neg h.ne_nil, if_neg hclose]
    rfl
  | @element name ds i h hi =>
    obtain ⟨-, hopen, hclose⟩ := h.not_mem
    obtain ⟨htake, hdrop⟩ := takeWhile_ne_append hopen (ds ++ [']'])
    unfold readPiece
    dsimp only
    rw [htake, hdrop, if_neg h.ne_nil, if_neg hclose]
    dsimp only
    rw [readBracket_eq_ok_iff.2 ⟨ds, rfl, hi⟩]
    rfl

theorem writes_of_readPiece {w : List Char} {s : Segment} (hdot : '.' ∉ w)
    (h : readPiece w = .ok s) : Segment.Writes w s := by
  unfold readPiece at h
  dsimp only at h
  split at h
  · simp at h
  next hne =>
  split at h
  · simp at h
  next hclose =>
  have hname : IsName (w.takeWhile (· ≠ '[')) :=
    isName_of_not_mem hne (fun hmem => hdot ((List.takeWhile_sublist _).subset hmem))
      (not_mem_takeWhile_ne '[' w) hclose
  split at h
  · next hnil =>
    obtain rfl := Except.ok.inj h
    rw [eq_of_dropWhile_ne_nil hnil] at hname ⊢
    exact .name hname
  · next c r hcons =>
    obtain ⟨i, hr, rfl⟩ := map_eq_ok_iff.1 h
    obtain ⟨ds, rfl, hi⟩ := readBracket_eq_ok_iff.1 hr
    obtain ⟨-, hw⟩ := eq_of_dropWhile_ne_cons hcons
    have hwrites := Segment.Writes.element hname hi
    rwa [← hw] at hwrites

theorem readPiece_eq_ok_iff {w : List Char} {s : Segment} (hdot : '.' ∉ w) :
    readPiece w = .ok s ↔ Segment.Writes w s :=
  ⟨writes_of_readPiece hdot, readPiece_of_writes⟩

/-! ## All pieces -/

/-- Cutting at a separator, told by the library's function for it. -/
theorem splitOn_eq_pieces (separator : Char) (s : List Char) :
    s.splitOn separator = (pieces separator s).1 ++ [(pieces separator s).2] := by
  rw [List.splitOn_eq_splitOnP]
  induction s with
  | nil => rfl
  | cons c s ih =>
    rw [List.splitOnP_cons_eq_if_modifyHead, ih, pieces_cons, consPiece]
    by_cases hc : c = separator
    · simp [hc]
    · rw [if_neg (by simpa using hc), if_neg hc]
      rcases (pieces separator s).1 with _ | ⟨p, ps⟩ <;> rfl

theorem readPieces_eq_ok_iff {n : Nat} {ws : List (List Char)} {ss : List Segment} :
    readPieces n ws = .ok ss ↔ List.Forall₂ (fun w s => readPiece w = .ok s) ws ss := by
  induction ws generalizing n ss with
  | nil =>
    rw [readPieces, List.forall₂_nil_left_iff, Except.ok.injEq]
    exact eq_comm
  | cons w ws ih =>
    rw [readPieces, List.forall₂_cons_left_iff]
    rcases hw : readPiece w with flaw | s
    · simp
    · simp only [map_eq_ok_iff, ih, Except.ok.injEq]
      constructor
      · rintro ⟨rest, hrest, rfl⟩
        exact ⟨s, rest, rfl, hrest, rfl⟩
      · rintro ⟨_, rest, rfl, hrest, rfl⟩
        exact ⟨rest, hrest, rfl⟩

theorem forall₂_writes_iff {ws : List (List Char)} {ss : List Segment}
    (hdot : ∀ w ∈ ws, '.' ∉ w) :
    List.Forall₂ (fun w s => readPiece w = .ok s) ws ss ↔ List.Forall₂ Segment.Writes ws ss := by
  induction ws generalizing ss with
  | nil => rw [List.forall₂_nil_left_iff, List.forall₂_nil_left_iff]
  | cons w ws ih =>
    obtain ⟨hw, hws⟩ := List.forall_mem_cons.1 hdot
    rw [List.forall₂_cons_left_iff, List.forall₂_cons_left_iff]
    simp only [readPiece_eq_ok_iff hw, ih hws]

theorem forall₂_concat_iff {α β : Type} {R : α → β → Prop} {xs : List α} {ys : List β} {x : α}
    {y : β} : List.Forall₂ R (xs ++ [x]) (ys ++ [y]) ↔ List.Forall₂ R xs ys ∧ R x y := by
  rw [← List.forall₂_reverse_iff, List.reverse_concat, List.reverse_concat, List.forall₂_cons,
    List.forall₂_reverse_iff]
  exact and_comm

theorem exists_forall₂_iff {α β : Type} {R : α → β → Prop} {xs : List α} :
    (∃ ys, List.Forall₂ R xs ys) ↔ ∀ x ∈ xs, ∃ y, R x y := by
  induction xs with
  | nil => simp
  | cons x xs ih =>
    rw [List.forall_mem_cons, ← ih]
    constructor
    · rintro ⟨ys, h⟩
      cases h with
      | cons hy hys => exact ⟨⟨_, hy⟩, _, hys⟩
    · rintro ⟨⟨y, hy⟩, ys, hys⟩
      exact ⟨y :: ys, .cons hy hys⟩

theorem not_writes_nil {s : Segment} : ¬ Segment.Writes [] s := by
  intro h
  generalize hw : ([] : List Char) = w at h
  cases h with
  | name h => exact h.ne_nil hw.symm
  | element h hi => simp at hw

theorem parse_eq_ok_iff_of_ne_nil {text : String} {p : Path} (hne : text ≠ "") :
    parse text = .ok p ↔
      p.text = text ∧ readPieces 0 (pieces '.' text.toList).1 = .ok p.leading ∧
        readPiece (pieces '.' text.toList).2 = .ok p.last := by
  obtain ⟨ptext, pleading, plast⟩ := p
  unfold parse
  rw [if_neg hne]
  dsimp only
  rcases readPieces 0 (pieces '.' text.toList).1 with e | leading
  · simp
  · rcases readPiece (pieces '.' text.toList).2 with flaw | last
    · simp
    · simp [eq_comm]

theorem parse_eq_ok_iff {text : String} {p : Path} :
    parse text = .ok p ↔
      p.text = text ∧ List.Forall₂ Segment.Writes (text.toList.splitOn '.') p.segments := by
  by_cases hne : text = ""
  · subst hne
    constructor
    · intro h
      simp [parse] at h
    · rintro ⟨-, h⟩
      rw [show ("" : String).toList.splitOn '.' = [] ++ [[]] from rfl, Path.segments,
        forall₂_concat_iff] at h
      exact absurd h.2 not_writes_nil
  · obtain ⟨hleading, hlast⟩ := not_mem_of_mem_pieces '.' text.toList
    rw [parse_eq_ok_iff_of_ne_nil hne, readPieces_eq_ok_iff, forall₂_writes_iff hleading,
      readPiece_eq_ok_iff hlast, splitOn_eq_pieces, Path.segments, forall₂_concat_iff]

/-! ## Writing a path -/

end Path

namespace Segment

variable {w : List Char} {s : Segment}

/-- The segment can be written in a path. -/
structure IsWritable (s : Segment) : Prop where
  name : Path.IsName s.name.toList
  index : ∀ i ∈ s.index, i < 2 ^ 64

theorem Writes.isWritable (h : Writes w s) : s.IsWritable := by
  cases h with
  | name h => exact ⟨by rwa [String.toList_ofList], by simp⟩
  | element h hi => exact ⟨by rwa [String.toList_ofList], by simpa using hi.bound⟩

theorem Writes.dot_not_mem (h : Writes w s) : '.' ∉ w := by
  cases h with
  | name h => exact h.not_mem.1
  | @element name ds i h hi =>
    have hds : '.' ∉ ds := fun hmem => absurd (hi.digits _ hmem) (by decide)
    simp [h.not_mem.1, hds]

theorem isIndex_digits {i : Nat} (h : i < 2 ^ 64) : Path.IsIndex (Decimal.digits i) i where
  ne_nil := Decimal.digits_ne_nil i
  digits _ hd := Decimal.isDigit_of_mem_digits hd
  value := Decimal.value_digits i
  bound := h

theorem IsWritable.writes_display (h : s.IsWritable) : Writes s.display.toList s := by
  obtain ⟨name, index⟩ := s
  rcases index with _ | i
  · have hwrites := Writes.name h.name
    rwa [String.ofList_toList] at hwrites
  · have hwrites := Writes.element h.name (isIndex_digits (h.index i rfl))
    rw [String.ofList_toList] at hwrites
    simpa [display, Decimal.numeral] using hwrites

end Segment

namespace Path

/-- The path that segments make. -/
def ofSegments (leading : List Segment) (last : Segment) : Path where
  text := String.ofList (join '.' (leading.map fun s => s.display.toList) last.display.toList)
  leading := leading
  last := last

theorem forall₂_writes_display {ss : List Segment} (h : ∀ s ∈ ss, s.IsWritable) :
    List.Forall₂ Segment.Writes (ss.map fun s => s.display.toList) ss := by
  rw [List.forall₂_map_left_iff, List.forall₂_same]
  exact fun s hs => (h s hs).writes_display

theorem parse_ofSegments {leading : List Segment} {last : Segment}
    (hleading : ∀ s ∈ leading, s.IsWritable) (hlast : last.IsWritable) :
    parse (ofSegments leading last).text = .ok (ofSegments leading last) := by
  have hdot : ∀ w ∈ leading.map fun s => s.display.toList, '.' ∉ w := by
    intro w hw
    obtain ⟨s, hs, rfl⟩ := List.mem_map.1 hw
    exact (hleading s hs).writes_display.dot_not_mem
  refine parse_eq_ok_iff.2 ⟨rfl, ?_⟩
  rw [ofSegments, String.toList_ofList, splitOn_eq_pieces,
    pieces_join hdot hlast.writes_display.dot_not_mem, Path.segments, forall₂_concat_iff]
  exact ⟨forall₂_writes_display hleading, hlast.writes_display⟩

theorem isWritable_of_parse {text : String} {p : Path} (h : parse text = .ok p) :
    ∀ s ∈ p.segments, s.IsWritable := by
  intro s hs
  obtain ⟨w, hw⟩ := exists_forall₂_iff.1 ⟨_, (parse_eq_ok_iff.1 h).2.flip⟩ s hs
  exact Segment.Writes.isWritable hw

/-! ## All texts -/

theorem length_segments (p : Path) : p.segments.length = p.size := by
  simp [segments, size]

theorem exists_parse_of_forall₂_writes {text : String} {ss : List Segment}
    (h : List.Forall₂ Segment.Writes (text.toList.splitOn '.') ss) :
    ∃ p, parse text = .ok p ∧ p.segments = ss := by
  rcases List.eq_nil_or_concat ss with rfl | ⟨leading, last, rfl⟩
  · rw [List.forall₂_nil_right_iff] at h
    have := length_splitOn '.' text.toList
    rw [h, List.length_nil] at this
    omega
  · rw [List.concat_eq_append] at h ⊢
    exact ⟨⟨text, leading, last⟩, parse_eq_ok_iff.2 ⟨rfl, h⟩, rfl⟩

theorem exists_parse_of_forall_writes {text : String}
    (h : ∀ w ∈ text.toList.splitOn '.', ∃ s, Segment.Writes w s) : ∃ p, parse text = .ok p := by
  obtain ⟨ss, hss⟩ := exists_forall₂_iff.2 h
  obtain ⟨p, hp, -⟩ := exists_parse_of_forall₂_writes hss
  exact ⟨p, hp⟩

/-- A text is a path just when each of its pieces between dots is a name, or a name with an index
in brackets. The path has one segment for each piece, in order, the last one for the last piece,
and is shown as it was written. -/
theorem parse_isPath_iff (text : String) :
    ((∃ p, parse text = .ok p) ↔ ∀ w ∈ text.toList.splitOn '.', ∃ s, Segment.Writes w s) ∧
    ∀ p, parse text = .ok p ↔
      List.Forall₂ Segment.Writes (text.toList.splitOn '.') p.segments ∧
        p.size = text.toList.count '.' + 1 ∧
        (∃ w, (text.toList.splitOn '.').getLast? = some w ∧ Segment.Writes w p.last) ∧
        p.text = text ∧ p.display = text := by
  refine ⟨⟨?_, exists_parse_of_forall_writes⟩, fun p => ⟨fun h => ?_, fun h => ?_⟩⟩
  · rintro ⟨p, hp⟩
    exact exists_forall₂_iff.1 ⟨p.segments, (parse_eq_ok_iff.1 hp).2⟩
  · obtain ⟨htext, hpieces⟩ := parse_eq_ok_iff.1 h
    have hsize : p.size = text.toList.count '.' + 1 := by
      rw [← length_splitOn, ← length_segments, hpieces.length_eq]
    refine ⟨hpieces, hsize, ?_, htext, htext⟩
    rw [splitOn_eq_pieces, Path.segments, forall₂_concat_iff] at hpieces
    exact ⟨_, by rw [splitOn_eq_pieces, List.getLast?_concat], hpieces.2⟩
  · obtain ⟨hpieces, -, -, htext, -⟩ := h
    exact parse_eq_ok_iff.2 ⟨htext, hpieces⟩

example : parse "limits[007].3" =
    .ok ⟨"limits[007].3", [.element "limits" 7], .key "3"⟩ := by
  decide

end Path

end JsonEdit
