import JsonEdit.Proofs.Json.Excerpt
import JsonEdit.Proofs.Json.Grammar

/-!
# Values that are no containers

* `Padded w s`: the text `s` is `w` with blanks around it.
* `readDocument_eq_ok_iff_padded`: a text is read as a value that is no container just when it is a
  text that writes the value, with blanks around it.
* `writesScalar_of_readDocument`: a text without blanks and brackets is read as nothing else.
-/

namespace JsonEdit.Json

variable {s w bs cs : List Char} {v : Value} {text : String}

/-! ## Blanks around a text -/

/-- The text `s` is `w` with spaces, tabs, line feeds and carriage returns around it. -/
def Padded (w s : List Char) : Prop :=
  ∃ bs cs, s = bs ++ (w ++ cs) ∧ Spaces bs ∧ Spaces cs

/-- No blank anywhere. -/
def Blankless (s : List Char) : Prop :=
  ∀ c ∈ s, isBlank c = false

theorem Padded.refl (w : List Char) : Padded w w :=
  ⟨[], [], by simp, List.forall_mem_nil _, List.forall_mem_nil _⟩

theorem filter_not_blank (hb : AllBlank bs) : bs.filter (!isBlank ·) = [] := by
  rw [List.filter_eq_nil_iff]
  intro c hc
  simp [hb c hc]

theorem Blankless.filter_eq (hs : Blankless s) : s.filter (!isBlank ·) = s := by
  rw [List.filter_eq_self]
  intro c hc
  simp [hs c hc]

theorem Padded.filter_eq (h : Padded w s) (hw : Blankless w) : s.filter (!isBlank ·) = w := by
  obtain ⟨bs, cs, rfl, hb, hc⟩ := h
  rw [List.filter_append, List.filter_append, filter_not_blank (spaces_iff_allBlank.1 hb),
    filter_not_blank (spaces_iff_allBlank.1 hc), hw.filter_eq, List.nil_append, List.append_nil]

theorem Padded.eq_of_blankless (h : Padded w s) (hs : Blankless s) : s = w := by
  have hw : Blankless w := by
    obtain ⟨bs, cs, rfl, -, -⟩ := h
    intro c hc
    exact hs c (List.mem_append_right _ (List.mem_append_left _ hc))
  rw [← h.filter_eq hw, hs.filter_eq]

/-! ## Reading -/

theorem WritesScalar.readDocument (hw : WritesScalar w v) (h : Padded w text.toList) :
    readDocument text = .ok v := by
  obtain ⟨bs, cs, htext, hb, hc⟩ := h
  rw [readDocument_eq_ok_iff, htext]
  exact hw.readValue (spaces_iff_allBlank.1 hb) (spaces_iff_allBlank.1 hc)

theorem readDocument_eq_ok_iff_padded (hlist : v.kind ≠ .array) (hobject : v.kind ≠ .object) :
    readDocument text = .ok v ↔ ∃ w, Padded w text.toList ∧ WritesScalar w v := by
  constructor
  · intro h
    rcases cases_of_readValue (readDocument_eq_ok_iff.1 h) with
      ⟨bs, w, cs, htext, hb, hw, hc⟩ | ⟨hkind, -⟩ | ⟨hkind, -⟩
    · exact ⟨w, ⟨bs, cs, htext, spaces_iff_allBlank.2 hb, spaces_iff_allBlank.2 hc⟩, hw⟩
    · exact absurd hkind hlist
    · exact absurd hkind hobject
  · rintro ⟨w, htext, hw⟩
    exact hw.readDocument htext

/-- Where nothing opens a container and nothing is blank, the whole text writes what is read. -/
theorem writesScalar_of_readDocument (h : readDocument text = .ok v)
    (hblank : Blankless text.toList) (hlist : '[' ∉ text.toList) (hobject : '\x7b' ∉ text.toList) :
    WritesScalar text.toList v := by
  rcases cases_of_readValue (readDocument_eq_ok_iff.1 h) with
    ⟨bs, w, cs, htext, hb, hw, hc⟩ | ⟨-, hmem⟩ | ⟨-, hmem⟩
  · have hpadded : Padded w text.toList :=
      ⟨bs, cs, htext, spaces_iff_allBlank.2 hb, spaces_iff_allBlank.2 hc⟩
    rw [hpadded.eq_of_blankless hblank]
    exact hw
  · exact absurd hmem hlist
  · exact absurd hmem hobject

end JsonEdit.Json
