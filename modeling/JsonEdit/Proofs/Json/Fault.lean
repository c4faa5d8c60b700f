import JsonEdit.Edit.Document
import JsonEdit.Proofs.Json.Inside
import JsonEdit.Proofs.Outcome
import JsonEdit.Proofs.Text.Position

/-!
# Where a text is at fault

* Wherever the reader or the checker stops, it reports a fault inside the text that was left to it
  (`inside_of_readValue`, `inside_of_checkValue`), as each of its steps leaves an end of the text.
* `m.Places f text`: the line and the column that `m` tells are those of the place where `f` was
  seen in the text.
* Main statement: the error of a text that cannot be read, or is not accepted, tells the line and
  the column of an offset that this text has.
-/

namespace JsonEdit

namespace Json

variable {f : Fault} {r s : List Char}

open Fault

/-! ## The beginning of a value, and keys -/

theorem suffix_of_readOpening {o : Opening Value} {h : r.length < s.length}
    (hs : readOpening s = .ok (o, ⟨r, h⟩)) : r <:+ s := by
  obtain ⟨w, rfl, -⟩ := exists_readOpening_append hs
  exact List.suffix_append w r

theorem suffix_of_checkOpening {o : Opening Unit} {h : r.length < s.length}
    (hs : checkOpening s = .ok (o, ⟨r, h⟩)) : r <:+ s := by
  obtain ⟨bs, w, rfl, -⟩ := exists_isOpening_of_checkOpening hs
  exact (List.suffix_append w r).trans (List.suffix_append bs (w ++ r))

theorem suffix_of_readKey {key : String} {h : r.length < s.length}
    (hs : readKey s = .ok (key, ⟨r, h⟩)) : r <:+ s := by
  obtain ⟨w, rfl, -⟩ := takes_of_readKey hs
  exact List.suffix_append w r

theorem suffix_of_checkKey {h : r.length < s.length} (hs : checkKey s = .ok ⟨r, h⟩) :
    r <:+ s := by
  obtain ⟨k, rfl, -⟩ := exists_isKey_of_checkKey hs
  exact List.suffix_append k r

theorem inside_of_readOpening (h : readOpening s = .error f) : f.Inside s := by
  revert h
  fun_cases readOpening s with
  | case1 =>
    rintro ⟨⟩
    exact inside_atEnd _ _
  | case2 r hr g hg hs =>
    rintro ⟨⟩
    exact (inside_of_readQuoted hg).mono (suffix_tail_of_next? hs)
  | case6 c r hr hs hquote hlist hobject letters v hw g hg =>
    rintro ⟨⟩
    exact (inside_of_readWord hg).mono (suffix_tail_of_next? hs)
  | case8 c r hr hs hquote hlist hobject hw hc g hg =>
    rintro ⟨⟩
    exact (inside_of_readNumber hg).mono (suffix_of_next? hs)
  | case10 c r hr hs =>
    rintro ⟨⟩
    exact inside_reading_of_next? hs
  | _ => simp

theorem inside_of_checkOpening (h : checkOpening s = .error f) : f.Inside s := by
  revert h
  fun_cases checkOpening s with
  | case1 =>
    rintro ⟨⟩
    exact inside_atEnd _ _
  | case2 r hr g hg hs =>
    rintro ⟨⟩
    exact (inside_cons_of_le (unread_le_of_skipQuoted hg)).mono (suffix_of_next? hs)
  | case6 c r hr hs hquote hlist hobject letters v hw g hg =>
    rintro ⟨⟩
    exact (inside_of_readWord hg).mono (suffix_tail_of_next? hs)
  | case8 c r hr hs hquote hlist hobject hw hc g hg =>
    rintro ⟨⟩
    exact (Numeral.inside_of_read hg).mono (suffix_of_next? hs)
  | case10 c r hr hs =>
    rintro ⟨⟩
    exact inside_reading_of_next? hs
  | _ => simp

theorem inside_of_readColon (h : readColon s = .error f) : f.Inside s := by
  unfold readColon at h
  split at h
  · cases h
    exact inside_atEnd _ _
  next c r hr hs =>
  split at h
  · simp at h
  · cases h
    exact inside_reading_of_next? hs

theorem inside_of_readKey (h : readKey s = .error f) : f.Inside s := by
  unfold readKey at h
  split at h
  · next g hg =>
    cases h
    exact inside_of_readQuoted hg
  next key r hr hq =>
  split at h
  · next g hg =>
    cases h
    exact (inside_of_readColon hg).mono (suffix_of_readQuoted hq)
  · simp at h

theorem inside_of_checkKey (h : checkKey s = .error f) : f.Inside s := by
  unfold checkKey at h
  split at h
  · cases h
    exact inside_atEnd _ _
  next c r hr hs =>
  split at h
  swap
  · cases h
    exact inside_reading_of_next? hs
  split at h
  · next g hg =>
    cases h
    exact (inside_cons_of_le (unread_le_of_skipQuoted hg)).mono (suffix_of_next? hs)
  next r' hr' hq =>
  split at h
  · next g hg =>
    cases h
    exact (inside_of_readColon hg).mono ((suffix_of_skipQuoted hq).trans (suffix_tail_of_next? hs))
  · simp at h

/-! ## Whole texts -/

mutual

theorem inside_of_readValue {stack : List Frame} (s : List Char)
    (h : readValue stack s = .error f) : f.Inside s := by
  revert h
  fun_cases readValue stack s with
  | case1 g hg =>
    rintro ⟨⟩
    exact inside_of_readOpening hg
  | case2 v r hr hs => exact fun h => (inside_of_goOn r h).mono (suffix_of_readOpening hs)
  | case3 =>
    rintro ⟨⟩
    exact inside_atEnd _ _
  | case4 r hr hs hopen r' hr' hclose =>
    exact fun h => (inside_of_goOn r' h).mono
      ((suffix_tail_of_next? hclose).trans (suffix_of_readOpening hs))
  | case5 r hr hs => exact fun h => (inside_of_readValue r h).mono (suffix_of_readOpening hs)
  | case6 r hr hs =>
    rintro ⟨⟩
    exact inside_before _ (suffix_of_readOpening hs) hr
  | case7 =>
    rintro ⟨⟩
    exact inside_atEnd _ _
  | case8 r hr hs hopen r' hr' hclose =>
    exact fun h => (inside_of_goOn r' h).mono
      ((suffix_tail_of_next? hclose).trans (suffix_of_readOpening hs))
  | case9 r hr hs hopen r' hr' g hg hnext =>
    rintro ⟨⟩
    exact (inside_of_readKey hg).mono
      ((suffix_tail_of_next? hnext).trans (suffix_of_readOpening hs))
  | case10 r hr hs hopen r' hr' key r'' hr'' hkey hnext =>
    exact fun h => (inside_of_readValue r'' h).mono
      ((suffix_of_readKey hkey).trans
        ((suffix_tail_of_next? hnext).trans (suffix_of_readOpening hs)))
  | case11 r hr hs hopen c r' hr' hnext =>
    rintro ⟨⟩
    exact (inside_reading_of_next? hnext).mono (suffix_of_readOpening hs)
  | case12 r hr hs =>
    rintro ⟨⟩
    exact inside_before _ (suffix_of_readOpening hs) hr
termination_by s.length

theorem inside_of_goOn {stack : List Frame} {v : Value} (s : List Char)
    (h : goOn stack v s = .error f) : f.Inside s := by
  revert h
  fun_cases goOn stack v s with
  | case1 => simp
  | case2 c r hr hs =>
    rintro ⟨⟩
    exact inside_reading_of_next? hs
  | case4 done stack r hr hs =>
    exact fun h => (inside_of_goOn r h).mono (suffix_tail_of_next? hs)
  | case6 done stack r hr r' hr' hs hne hnext =>
    rintro ⟨⟩
    exact (inside_reading_of_next? hnext).mono (suffix_tail_of_next? hs)
  | case7 done stack r hr c r' hr' hnext hc hs =>
    exact fun h => (inside_of_readValue r h).mono (suffix_tail_of_next? hs)
  | case8 done stack c r hr hs =>
    rintro ⟨⟩
    exact inside_reading_of_next? hs
  | case10 done key stack r hr hs =>
    exact fun h => (inside_of_goOn r h).mono (suffix_tail_of_next? hs)
  | case12 done key stack r hr r' hr' g hg hs hne hnext =>
    rintro ⟨⟩
    exact (inside_of_readKey hg).mono
      ((suffix_tail_of_next? hnext).trans (suffix_tail_of_next? hs))
  | case13 done key stack r hr r' hr' key' r'' hr'' hkey hs hc hnext =>
    exact fun h => (inside_of_readValue r'' h).mono
      ((suffix_of_readKey hkey).trans
        ((suffix_tail_of_next? hnext).trans (suffix_tail_of_next? hs)))
  | case14 done key stack r hr r' hr' hs hne hnext =>
    rintro ⟨⟩
    exact (inside_reading_of_next? hnext).mono (suffix_tail_of_next? hs)
  | case15 done key stack r hr c r' hr' hnext hquote hbrace hs =>
    rintro ⟨⟩
    exact (inside_reading_of_next? hnext).mono (suffix_tail_of_next? hs)
  | case16 done key stack c r hr hs =>
    rintro ⟨⟩
    exact inside_reading_of_next? hs
  -- the text ends where a container is open
  | _ =>
    rintro ⟨⟩
    exact inside_atEnd _ _
termination_by s.length

end

mutual

theorem inside_of_checkValue {stack : List Bracket} (s : List Char)
    (h : checkValue stack s = .error f) : f.Inside s := by
  revert h
  fun_cases checkValue stack s with
  | case1 g hg =>
    rintro ⟨⟩
    exact inside_of_checkOpening hg
  | case2 r hr hs => exact fun h => (inside_of_checkOn r h).mono (suffix_of_checkOpening hs)
  | case3 =>
    rintro ⟨⟩
    exact inside_atEnd _ _
  | case4 r hr hs r' hr' hclose =>
    exact fun h => (inside_of_checkOn r' h).mono
      ((suffix_tail_of_next? hclose).trans (suffix_of_checkOpening hs))
  | case5 r hr hs => exact fun h => (inside_of_checkValue r h).mono (suffix_of_checkOpening hs)
  | case6 =>
    rintro ⟨⟩
    exact inside_atEnd _ _
  | case7 r hr hs r' hr' hclose =>
    exact fun h => (inside_of_checkOn r' h).mono
      ((suffix_tail_of_next? hclose).trans (suffix_of_checkOpening hs))
  | case8 r hr hs c r' hr' hnext hc g hg =>
    rintro ⟨⟩
    exact (inside_of_checkKey hg).mono (suffix_of_checkOpening hs)
  | case9 r hr hs c r' hr' hnext hc r'' hr'' hkey =>
    exact fun h => (inside_of_checkValue r'' h).mono
      ((suffix_of_checkKey hkey).trans (suffix_of_checkOpening hs))
termination_by s.length

theorem inside_of_checkOn {stack : List Bracket} (s : List Char)
    (h : checkOn stack s = .error f) : f.Inside s := by
  revert h
  fun_cases checkOn stack s with
  | case1 => simp
  | case2 c r hr hs =>
    rintro ⟨⟩
    exact inside_reading_of_next? hs
  | case3 =>
    rintro ⟨⟩
    exact inside_atEnd _ _
  | case4 stack r hr hs => exact fun h => (inside_of_checkOn r h).mono (suffix_tail_of_next? hs)
  | case5 stack r hr hs => exact fun h => (inside_of_checkValue r h).mono (suffix_tail_of_next? hs)
  | case6 stack c r hr hs =>
    rintro ⟨⟩
    exact inside_reading_of_next? hs
  | case7 =>
    rintro ⟨⟩
    exact inside_atEnd _ _
  | case8 stack r hr hs => exact fun h => (inside_of_checkOn r h).mono (suffix_tail_of_next? hs)
  | case9 stack r hr g hg hs =>
    rintro ⟨⟩
    exact (inside_of_checkKey hg).mono (suffix_tail_of_next? hs)
  | case10 stack r hr r' hr' hkey hs =>
    exact fun h => (inside_of_checkValue r' h).mono
      ((suffix_of_checkKey hkey).trans (suffix_tail_of_next? hs))
  | case11 stack c r hr hs =>
    rintro ⟨⟩
    exact inside_reading_of_next? hs
termination_by s.length

end

/-! ## Places in the text -/

/-- The report `m` tells where the fault `f` was seen in the text. The bytes that had been read and
those that had not make up the text, and only in an empty text had none been read. -/
structure Malformed.Places (m : Malformed) (f : Fault) (text : String) : Prop where
  cause_eq : m.cause = f.cause
  exists_offset : ∃ i, i + f.unread = text.utf8ByteSize ∧ (i = 0 → text = "") ∧
    m.position.IsBehind text i
  isOnLine : m.position.IsOnLine text

theorem places_malformed {text : String} (hf : f.Inside text.toList) :
    (f.malformed text).Places f text := by
  have hunread := hf.unread_le
  have hsize := utf8ByteSize_eq text
  have hbehind : (f.malformed text).position.IsBehind text (byteCount text.toList - f.unread) :=
    Position.isBehind_ofOffset (by omega)
  refine ⟨rfl, ⟨_, by omega, fun hzero => ?_, hbehind⟩, hbehind.isOnLine⟩
  have hlength := length_le_byteCount text.toList
  have hinside : f.unread ≤ byteCount text.toList - 1 := hf
  exact String.toList_eq_nil_iff.1 (List.eq_nil_of_length_eq_zero (by omega))

end Json

/-- Where a text cannot be read, and where it is not accepted, the error tells the line and the
column of an offset of this text. -/
theorem malformed_places_offset (text : String) :
    (∀ e, readDocument text = .error e →
      ∃ m f, e = .malformed m ∧ Json.readValue [] text.toList = .error f ∧ m.Places f text) ∧
    ∀ e, checkDocument text = .error e →
      ∃ m f, e = .malformed m ∧ Json.checkValue [] text.toList = .error f ∧ m.Places f text := by
  simp only [readDocument, Json.read, checkDocument, Json.check, mapError_eq_error_iff]
  constructor
  · rintro e ⟨m, ⟨f, hf, rfl⟩, rfl⟩
    exact ⟨_, f, rfl, hf, Json.places_malformed (Json.inside_of_readValue _ hf)⟩
  · rintro e ⟨m, ⟨f, hf, rfl⟩, rfl⟩
    exact ⟨_, f, rfl, hf, Json.places_malformed (Json.inside_of_checkValue _ hf)⟩

theorem next?_accented : ∃ h, Json.next? ['\n', 'é'] = some ('é', ⟨[], h⟩) :=
  have hblank : Json.AllBlank ['\n'] := by simp [Json.AllBlank, Json.isBlank]
  Json.next?_append hblank rfl []

theorem readValue_accented :
    Json.readValue [] ['[', '\n', 'é'] = .error (.reading .noValue ['é']) := by
  obtain ⟨h, hopen⟩ := Json.next?_cons (c := '[') rfl ['\n', 'é']
  obtain ⟨h', hnext⟩ := next?_accented
  rw [Json.readValue_list hopen (by decide) hnext (by decide), Json.readValue, Json.readOpening,
    hnext]
  rfl

theorem checkValue_accented :
    Json.checkValue [] ['[', '\n', 'é'] = .error (.reading .noValue ['é']) := by
  obtain ⟨h, hopen⟩ : ∃ h, Json.checkOpening ['[', '\n', 'é'] = .ok (.list, ⟨['\n', 'é'], h⟩) :=
    Json.checkOpening_append (List.forall_mem_nil _) .list nofun
  obtain ⟨h', hnext⟩ := next?_accented
  rw [Json.checkValue, hopen]
  dsimp only
  rw [hnext]
  dsimp only
  rw [if_neg (by decide), Json.checkValue, Json.checkOpening, hnext]
  rfl

/-- The offset may be in the middle of a character: the second line of this text has two bytes. -/
theorem malformed_places_offset_in_character :
    ∃ m : Json.Malformed, m.position = ⟨2, 1⟩ ∧
      readDocument "[\né" = .error (.malformed m) ∧
      checkDocument "[\né" = .error (.malformed m) ∧
      ∃ f g, m.Places f "[\né" ∧ m.Places g "[\né" := by
  have hread : readDocument "[\né" =
      .error (.malformed ((Json.Fault.reading .noValue ['é']).malformed "[\né")) :=
    mapError_eq_error_iff.2 ⟨_, mapError_eq_error_iff.2 ⟨_, readValue_accented, rfl⟩, rfl⟩
  have hcheck : checkDocument "[\né" =
      .error (.malformed ((Json.Fault.reading .noValue ['é']).malformed "[\né")) :=
    mapError_eq_error_iff.2 ⟨_, mapError_eq_error_iff.2 ⟨_, checkValue_accented, rfl⟩, rfl⟩
  refine ⟨_, by decide, hread, hcheck, ?_⟩
  obtain ⟨_, f, ⟨⟩, -, hf⟩ := (malformed_places_offset "[\né").1 _ hread
  obtain ⟨_, g, ⟨⟩, -, hg⟩ := (malformed_places_offset "[\né").2 _ hcheck
  exact ⟨f, g, hf, hg⟩

end JsonEdit
