import JsonEdit.Proofs.Path.Grammar

/-!
# One path behind another

* `Path.append p q`: the path `p`, a dot, and the path `q`.
* `map_segments_parse`: what is read of a text, its segments or why it is rejected, is what is read
  of its pieces one after another. The pieces of two texts with a dot between them are those of the
  first one and those of the second one.
* Main statements: `parse_append` for two paths, `parse_append_of_error` and
  `parse_append_error` where the first text, or only the second one, is no path.
-/

namespace JsonEdit.Path

/-- The segments of `p`, then those of `q`. -/
def append (p q : Path) : Path where
  text := p.text ++ "." ++ q.text
  leading := p.segments ++ q.leading
  last := q.last

theorem segments_append (p q : Path) : (p.append q).segments = p.segments ++ q.segments := by
  simp only [append, segments, List.append_assoc]

/-- The same rejection `n` pieces further on. -/
def Rejection.behind (n : Nat) (r : Rejection) : Rejection :=
  { r with position := r.position.map (n + ·) }

theorem Rejection.behind_zero (r : Rejection) : r.behind 0 = r := by
  simp [behind]

/-! ## Pieces one after another -/

section

variable {n : Nat} {ws ws' : List (List Char)} {ss : List Segment} {r : Rejection}

theorem readPieces_append (n : Nat) (ws ws' : List (List Char)) :
    readPieces n (ws ++ ws') =
      (readPieces n ws).bind fun ss => (readPieces (n + ws.length) ws').map (ss ++ ·) := by
  induction ws generalizing n with
  | nil =>
    show readPieces n ws' = (readPieces n ws').map fun ss => ss
    cases readPieces n ws' <;> rfl
  | cons w ws ih =>
    have hlength : n + 1 + ws.length = n + (w :: ws).length := by
      rw [List.length_cons]
      omega
    rw [List.cons_append, readPieces, readPieces]
    rcases readPiece w with flaw | s
    · rfl
    · dsimp only
      rw [ih, hlength]
      rcases readPieces (n + 1) ws with e | ss
      · rfl
      · show Except.map _ (Except.map _ _) = Except.map _ _
        cases readPieces (n + (w :: ws).length) ws' <;> rfl

theorem readPieces_behind (k n : Nat) (ws : List (List Char)) :
    readPieces (k + n) ws = (readPieces n ws).mapError (Rejection.behind k) := by
  induction ws generalizing n with
  | nil => rfl
  | cons w ws ih =>
    rw [readPieces, readPieces]
    rcases readPiece w with flaw | s
    · rfl
    · dsimp only
      rw [Nat.add_assoc, ih]
      cases readPieces (n + 1) ws <;> rfl

theorem exists_position_of_readPieces (h : readPieces n ws = .error r) :
    ∃ k, r.position = some k := by
  induction ws generalizing n with
  | nil => simp [readPieces] at h
  | cons w ws ih =>
    rw [readPieces] at h
    split at h
    · obtain rfl := Except.error.inj h
      exact ⟨n, rfl⟩
    · exact ih (map_eq_error_iff.1 h)

theorem length_of_readPieces (h : readPieces n ws = .ok ss) : ss.length = ws.length :=
  (readPieces_eq_ok_iff.1 h).length_eq.symm

end

theorem map_segments_parse {text : String} (hne : text ≠ "") :
    (parse text).map segments = readPieces 0 (text.toList.splitOn '.') := by
  rw [splitOn_eq_pieces, readPieces_append, parse, if_neg hne]
  dsimp only
  rcases hleading : readPieces 0 (pieces '.' text.toList).1 with e | leading
  · rfl
  · show _ = (readPieces _ _).map _
    rw [readPieces, ← length_of_readPieces hleading, Nat.zero_add]
    cases readPiece (pieces '.' text.toList).2 <;> rfl

theorem text_of_parse {text : String} {p : Path} (h : parse text = .ok p) : p.text = text :=
  (parse_eq_ok_iff.1 h).1

variable {a b : String} {p q : Path} {r : Rejection}

theorem append_ne_empty (a b : String) : a ++ "." ++ b ≠ "" := by
  intro h
  have := congrArg String.toList h
  simp at this

theorem splitOn_append (a b : String) :
    (a ++ "." ++ b).toList.splitOn '.' = a.toList.splitOn '.' ++ b.toList.splitOn '.' := by
  have htext : (a ++ "." ++ b).toList = a.toList ++ '.' :: b.toList := by simp
  rw [htext, List.splitOn_eq_splitOnP, List.splitOnP_append_cons _ _ (by simp)]
  rfl

theorem parse_append (hp : parse a = .ok p) (hq : parse b = .ok q) :
    parse (a ++ "." ++ b) = .ok (p.append q) := by
  obtain ⟨hatext, ha⟩ := parse_eq_ok_iff.1 hp
  obtain ⟨hbtext, hb⟩ := parse_eq_ok_iff.1 hq
  refine parse_eq_ok_iff.2 ⟨by rw [append, hatext, hbtext], ?_⟩
  rw [splitOn_append, segments_append]
  exact List.rel_append ha hb

theorem parse_append_of_error (ha : a ≠ "") (h : parse a = .error r) :
    (∃ k, r.position = some k) ∧ parse (a ++ "." ++ b) = .error r := by
  have hpieces := map_segments_parse ha
  rw [h] at hpieces
  refine ⟨exists_position_of_readPieces hpieces.symm, ?_⟩
  rw [← map_eq_error_iff (f := segments), map_segments_parse (append_ne_empty a b), splitOn_append,
    readPieces_append, ← hpieces]
  rfl

/-- Where the second text is no path, the position is counted on behind the first one. -/
theorem parse_append_error (hp : parse a = .ok p) (hb : b ≠ "") (h : parse b = .error r) :
    (∃ k, r.position = some k) ∧ parse (a ++ "." ++ b) = .error (r.behind p.size) := by
  have ha : a ≠ "" := by
    rintro rfl
    simp [parse] at hp
  have hpieces := map_segments_parse hb
  have hsegments := map_segments_parse ha
  rw [h] at hpieces
  rw [hp] at hsegments
  have hlength : 0 + (a.toList.splitOn '.').length = p.size + 0 := by
    rw [← length_of_readPieces hsegments.symm, length_segments, Nat.zero_add, Nat.add_zero]
  refine ⟨exists_position_of_readPieces hpieces.symm, ?_⟩
  rw [← map_eq_error_iff (f := segments), map_segments_parse (append_ne_empty a b), splitOn_append,
    readPieces_append, ← hsegments, hlength, readPieces_behind, ← hpieces]
  rfl

end JsonEdit.Path
