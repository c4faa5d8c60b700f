import JsonEdit.Edit.Document
import JsonEdit.Proofs.Path.Append

/-!
# Why a text is no path

* `Path.HasFlaw`: what is wrong with a piece, told by reading the piece alone.
* `Path.RejectedFor`: the text is empty, or one of its pieces is the first that writes no segment.
* Main statement: a text is rejected for its first piece that writes no segment, with the place and
  the flaw of this piece, whatever stands behind it.
-/

namespace JsonEdit

namespace Path

/-- An empty piece has no name; every other piece has the flaw for which it is rejected alone. -/
inductive HasFlaw : List Char → Flaw → Prop where
  | empty : HasFlaw [] .noName
  | alone {w : List Char} {flaw : Flaw} (hne : w ≠ [])
    (hparse : parse (String.ofList w) = .error ⟨some 0, flaw⟩) : HasFlaw w flaw

/-- Why the text is no path. -/
inductive RejectedFor (text : String) : Rejection → Prop where
  | noText (htext : text = "") : RejectedFor text ⟨none, .noText⟩
  | piece {before after : List (List Char)} {w : List Char} {flaw : Flaw} (htext : text ≠ "")
    (hpieces : text.toList.splitOn '.' = before ++ w :: after)
    (hbefore : ∀ u ∈ before, ∃ s, Segment.Writes u s) (hw : ∀ s, ¬ Segment.Writes w s)
    (hflaw : HasFlaw w flaw) : RejectedFor text ⟨some before.length, flaw⟩

variable {text : String} {w : List Char} {ws : List (List Char)} {flaw : Flaw} {n : Nat}
  {r : Rejection}

/-! ## The first piece that is not read -/

theorem readPieces_eq_error_iff :
    readPieces n ws = .error r ↔ ∃ before w after flaw, ws = before ++ w :: after ∧
      (∀ u ∈ before, ∃ s, readPiece u = .ok s) ∧ readPiece w = .error flaw ∧
        r = ⟨some (n + before.length), flaw⟩ := by
  induction ws generalizing n with
  | nil => simp [readPieces]
  | cons w ws ih =>
    rw [readPieces]
    rcases hw : readPiece w with flaw | s
    · simp only [Except.error.injEq]
      constructor
      · rintro rfl
        exact ⟨[], w, ws, flaw, rfl, List.forall_mem_nil _, hw, rfl⟩
      · rintro ⟨before, w', after, flaw', hws, hbefore, hw', rfl⟩
        rcases before with _ | ⟨u, before⟩
        · obtain ⟨rfl, rfl⟩ := List.cons.inj hws
          rw [hw, Except.error.injEq] at hw'
          rw [hw', List.length_nil, Nat.add_zero]
        · obtain ⟨rfl, rfl⟩ := List.cons.inj hws
          obtain ⟨s, hs⟩ := hbefore w List.mem_cons_self
          rw [hw] at hs
          cases hs
    · simp only [map_eq_error_iff, ih]
      constructor
      · rintro ⟨before, w', after, flaw, rfl, hbefore, hw', rfl⟩
        refine ⟨w :: before, w', after, flaw, rfl, ?_, hw', ?_⟩
        · exact List.forall_mem_cons.2 ⟨⟨s, hw⟩, hbefore⟩
        · rw [List.length_cons, Nat.add_right_comm, Nat.add_assoc]
      · rintro ⟨before, w', after, flaw, hws, hbefore, hw', rfl⟩
        rcases before with _ | ⟨u, before⟩
        · obtain ⟨rfl, rfl⟩ := List.cons.inj hws
          rw [hw] at hw'
          cases hw'
        · obtain ⟨rfl, rfl⟩ := List.cons.inj hws
          refine ⟨before, w', after, flaw, rfl, (List.forall_mem_cons.1 hbefore).2, hw', ?_⟩
          rw [List.length_cons, Nat.add_right_comm, Nat.add_assoc]

/-- A piece alone is read as it is read in its text. -/
theorem parse_ofList (hne : w ≠ []) (hdot : '.' ∉ w) :
    parse (String.ofList w) = .error ⟨some 0, flaw⟩ ↔ readPiece w = .error flaw := by
  have htext : String.ofList w ≠ "" := by simpa using hne
  rw [← map_eq_error_iff (f := segments), map_segments_parse htext, String.toList_ofList,
    splitOn_eq_pieces, pieces_of_not_mem hdot, List.nil_append, readPieces]
  rcases readPiece w with flaw' | s
  · simp
  · simp [readPieces, Except.map]

theorem hasFlaw_iff (hdot : '.' ∉ w) : HasFlaw w flaw ↔ readPiece w = .error flaw := by
  constructor
  · intro h
    cases h with
    | empty => rfl
    | alone hne hparse => exact (parse_ofList hne hdot).1 hparse
  · intro h
    by_cases hne : w = []
    · subst hne
      obtain rfl := Except.error.inj h
      exact .empty
    · exact .alone hne ((parse_ofList hne hdot).2 h)

theorem HasFlaw.not_writes (h : HasFlaw w flaw) (hdot : '.' ∉ w) (s : Segment) :
    ¬ Segment.Writes w s := by
  intro hs
  rw [hasFlaw_iff hdot, readPiece_of_writes hs] at h
  cases h

theorem dot_not_mem_of_mem_splitOn {s w : List Char} (h : w ∈ s.splitOn '.') : '.' ∉ w := by
  obtain ⟨hleading, hlast⟩ := not_mem_of_mem_pieces '.' s
  rw [splitOn_eq_pieces, List.mem_append, List.mem_singleton] at h
  rcases h with h | rfl
  · exact hleading w h
  · exact hlast

theorem parse_eq_error_iff : parse text = .error r ↔ RejectedFor text r := by
  by_cases htext : text = ""
  · subst htext
    have hparse : parse "" = .error ⟨none, .noText⟩ := rfl
    rw [hparse, Except.error.injEq]
    constructor
    · rintro rfl
      exact .noText rfl
    · intro h
      cases h with
      | noText => rfl
      | piece hne => exact absurd rfl hne
  · rw [← map_eq_error_iff (f := segments), map_segments_parse htext, readPieces_eq_error_iff]
    constructor
    · rintro ⟨before, w, after, flaw, hpieces, hbefore, hw, rfl⟩
      have hdot : ∀ u ∈ before ++ w :: after, '.' ∉ u := fun u hu =>
        dot_not_mem_of_mem_splitOn (hpieces ▸ hu)
      have hflaw : HasFlaw w flaw := (hasFlaw_iff (hdot w (by simp))).2 hw
      rw [Nat.zero_add]
      refine .piece htext hpieces (fun u hu => ?_) (hflaw.not_writes (hdot w (by simp))) hflaw
      obtain ⟨s, hs⟩ := hbefore u hu
      exact ⟨s, writes_of_readPiece (hdot u (by simp [hu])) hs⟩
    · intro h
      cases h with
      | noText hempty => exact absurd hempty htext
      | @piece before after w flaw _ hpieces hbefore hw hflaw =>
        have hdot : '.' ∉ w := dot_not_mem_of_mem_splitOn (s := text.toList) (by simp [hpieces])
        refine ⟨before, w, after, flaw, hpieces, fun u hu => ?_, (hasFlaw_iff hdot).1 hflaw, ?_⟩
        · obtain ⟨s, hs⟩ := hbefore u hu
          exact ⟨s, readPiece_of_writes hs⟩
        · rw [Nat.zero_add]

end Path

/-! ## Errors -/

variable {text : String} {e : EditError}

theorem readPath_eq_error_iff :
    readPath text = .error e ↔ ∃ r, Path.RejectedFor text r ∧ e = .rejected text r := by
  rw [readPath, mapError_eq_error_iff]
  simp only [Path.parse_eq_error_iff, eq_comm (b := e)]

/-- A text that is no path is rejected for its first piece that writes no segment, whatever stands
behind it. The error quotes the text and tells the place of the piece, or no place just when the
text is empty. The reason is the one for which the piece is rejected alone; an empty piece has no
name. -/
theorem readPath_rejects_first_flaw (text : String) (e : EditError) :
    (readPath text = .error e ↔ ∃ r, Path.RejectedFor text r ∧ e = .rejected text r) ∧
    (readPath text = .error e →
      e.category = .invalidPath ∧ e.path? = some text ∧ (e.segment? = none ↔ text = "") ∧
      (text ≠ "" → ∃ before w after flaw, text.toList.splitOn '.' = before ++ w :: after ∧
        (∀ u ∈ before, ∃ s, Segment.Writes u s) ∧ (∀ s, ¬ Segment.Writes w s) ∧
        e.segment? = some before.length ∧
        e.message = "invalid path '" ++ text ++ "': " ++ flaw.reason ∧
        (w = [] → flaw.reason = "empty segment name") ∧
        (w ≠ [] → readPath (String.ofList w) =
          .error (.rejected (String.ofList w) ⟨some 0, flaw⟩)))) := by
  refine ⟨readPath_eq_error_iff, fun h => ?_⟩
  obtain ⟨r, hr, rfl⟩ := readPath_eq_error_iff.1 h
  cases hr with
  | noText htext => exact ⟨rfl, rfl, iff_of_true rfl htext, fun hne => absurd htext hne⟩
  | @piece before after w flaw htext hpieces hbefore hw hflaw =>
    refine ⟨rfl, rfl, iff_of_false (Option.some_ne_none _) htext, fun _ => ?_⟩
    refine ⟨before, w, after, flaw, hpieces, hbefore, hw, rfl, rfl, ?_, fun hne => ?_⟩
    · rintro rfl
      cases hflaw with
      | empty => rfl
      | alone hne => exact absurd rfl hne
    · cases hflaw with
      | empty => exact absurd rfl hne
      | alone _ hparse => exact mapError_eq_error_iff.2 ⟨_, hparse, rfl⟩

theorem readPath_rejects_stray_bracket :
    readPath "ok[01].a]b[.x[." = .error (.rejected "ok[01].a]b[.x[." ⟨some 1, .strayClose⟩) ∧
      ∃ before w after, "ok[01].a]b[.x[.".toList.splitOn '.' = before ++ w :: after ∧
        (∀ s, ¬ Segment.Writes w s) ∧ before.length = 1 := by
  have hread : readPath "ok[01].a]b[.x[." =
      .error (.rejected "ok[01].a]b[.x[." ⟨some 1, .strayClose⟩) := by decide
  obtain ⟨-, -, -, hpiece⟩ := (readPath_rejects_first_flaw _ _).2 hread
  obtain ⟨before, w, after, flaw, hpieces, -, hw, hplace, -⟩ := hpiece (by decide)
  exact ⟨hread, before, w, after, hpieces, hw, (Option.some.inj hplace).symm⟩

end JsonEdit
