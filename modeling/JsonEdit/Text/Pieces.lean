/-!
# Texts in pieces

* `pieces` cuts a text at a separator into the pieces that stand before a separator and the last
  one. Pieces may be empty; there is always a last one.
* `join` puts a text together again. Main statements: `join_pieces`, `pieces_join`.
-/

namespace JsonEdit

/-- One more character in front of a text in pieces. -/
def consPiece (separator c : Char) (ps : List (List Char) × List Char) :
    List (List Char) × List Char :=
  if c = separator then ([] :: ps.1, ps.2)
  else
    match ps.1 with
    | [] => ([], c :: ps.2)
    | p :: rest => ((c :: p) :: rest, ps.2)

/-- The pieces of a text: all but the last, and the last one. -/
def pieces (separator : Char) (s : List Char) : List (List Char) × List Char :=
  s.foldr (consPiece separator) ([], [])

/-- Pieces with a separator behind each of them, then the last one. -/
def join (separator : Char) (leading : List (List Char)) (last : List Char) : List Char :=
  leading.foldr (fun p s => p ++ separator :: s) last

@[simp] theorem pieces_nil (separator : Char) : pieces separator [] = ([], []) := rfl

@[simp] theorem pieces_cons (separator c : Char) (s : List Char) :
    pieces separator (c :: s) = consPiece separator c (pieces separator s) := rfl

theorem join_pieces (separator : Char) (s : List Char) :
    join separator (pieces separator s).1 (pieces separator s).2 = s := by
  induction s with
  | nil => rfl
  | cons c s ih =>
    rw [pieces_cons, consPiece]
    split
    · next h => simpa [join, h] using ih
    · split
      · next h => simpa [h, join] using ih
      · next h => simpa [h, join] using ih

theorem join_append (separator : Char) (leading : List (List Char)) (s t : List Char) :
    join separator leading (s ++ t) = join separator leading s ++ t := by
  induction leading with
  | nil => rfl
  | cons p ps ih => simpa [join] using ih

theorem join_nil_eq (separator : Char) {leading : List (List Char)} (h : leading ≠ []) :
    ∃ s, join separator leading [] = s ++ [separator] := by
  induction leading with
  | nil => exact absurd rfl h
  | cons p ps ih =>
    by_cases hps : ps = []
    · exact ⟨p, by simp [join, hps]⟩
    · obtain ⟨s, hs⟩ := ih hps
      exact ⟨p ++ separator :: s, by simpa [join] using hs⟩

theorem pieces_append {separator : Char} {p : List Char} (h : separator ∉ p) (s : List Char) :
    pieces separator (p ++ separator :: s) =
      (p :: (pieces separator s).1, (pieces separator s).2) := by
  induction p with
  | nil => simp [consPiece]
  | cons c p ih =>
    simp only [List.mem_cons, not_or] at h
    have hc : ¬ c = separator := fun e => h.1 e.symm
    rw [List.cons_append, pieces_cons, ih h.2, consPiece, if_neg hc]

theorem pieces_of_not_mem {separator : Char} {s : List Char} (h : separator ∉ s) :
    pieces separator s = ([], s) := by
  induction s with
  | nil => rfl
  | cons c s ih =>
    simp only [List.mem_cons, not_or] at h
    have hc : ¬ c = separator := fun e => h.1 e.symm
    rw [pieces_cons, ih h.2, consPiece, if_neg hc]

theorem pieces_join {separator : Char} {leading : List (List Char)} {last : List Char}
    (h : ∀ p ∈ leading, separator ∉ p) (hlast : separator ∉ last) :
    pieces separator (join separator leading last) = (leading, last) := by
  induction leading with
  | nil => exact pieces_of_not_mem hlast
  | cons p ps ih =>
    have := ih fun q hq => h q (by simp [hq])
    rw [show join separator (p :: ps) last = p ++ separator :: join separator ps last from rfl,
      pieces_append (h p (by simp)), this]

theorem not_mem_of_mem_pieces (separator : Char) (s : List Char) :
    (∀ p ∈ (pieces separator s).1, separator ∉ p) ∧ separator ∉ (pieces separator s).2 := by
  induction s with
  | nil => simp
  | cons c s ih =>
    obtain ⟨h1, h2⟩ := ih
    rw [pieces_cons, consPiece]
    split
    · exact ⟨by simpa using h1, h2⟩
    · next hc =>
      have hc' : ¬ separator = c := fun e => hc e.symm
      split
      · simp [hc', h2]
      · next h => rw [h] at h1; simp_all

end JsonEdit
