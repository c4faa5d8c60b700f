import JsonEdit.Command.Folder
import Mathlib.Data.List.Infix

/-!
# Names and places of files

* `d.Denotes name p`: in the folder `d`, `name` stands for a file at the place `p`, which need not
  be there. Loading and saving are told by this (`load_eq_ok_iff`, `save_eq_ok_iff`).
* `d.IsUpdate p content d'`: the file at `p` is written and nothing else happens.
* A file is only saved in a folder that is there, so saving makes no new folder, and every name
  stands for the place it stood for (`denotes_iff_of_save`). What is saved is loaded again
  (`load_of_save`).
-/

namespace JsonEdit.Command.Folder

variable {d d' : Folder} {name : String} {p q : Place} {content : ByteArray}

/-! ## Folders -/

theorem isFolder_iff :
    d.isFolder p = true ↔ p = [] ∨ ∃ q ∈ Members.keys d.files, p <+: q ∧ p ≠ q := by
  simp [isFolder, Members.keys]

theorem isFolder_above (hqp : q <+: p) (h : d.isFolder p = true) : d.isFolder q = true := by
  rw [isFolder_iff] at h ⊢
  rcases h with rfl | ⟨r, hr, hpr, hne⟩
  · exact .inl (List.prefix_nil.1 hqp)
  · refine .inr ⟨r, hr, hqp.trans hpr, ?_⟩
    rintro rfl
    exact hne (hpr.eq_of_length_le hqp.length_le)

theorem isFolder_of_enter {parts : List (List Char)} (h : d.enter p parts = .ok q)
    (hp : d.isFolder p = true) : d.isFolder q = true := by
  induction parts generalizing p with
  | nil =>
    obtain rfl : p = q := Except.ok.inj h
    exact hp
  | cons part parts ih =>
    rw [enter] at h
    rcases hstep : step p part with _ | r
    · rw [hstep] at h
      cases h
    · rw [hstep] at h
      dsimp only at h
      split at h
      · next hr => exact ih h hr
      · split at h <;> cases h

theorem step_cases {part : List Char} (h : step p part = some q) (hp : d.isFolder p = true) :
    d.isFolder q = true ∨ ∃ own, q = p ++ [own] := by
  unfold step at h
  split at h
  · obtain rfl : p = q := Option.some.inj h
    exact .inl hp
  · split at h
    · split at h
      · cases h
      · obtain rfl : p.dropLast = q := Option.some.inj h
        exact .inl (isFolder_above (List.dropLast_prefix p) hp)
    · obtain rfl : p ++ [String.ofList part] = q := Option.some.inj h
      exact .inr ⟨_, rfl⟩

theorem locate_cases (h : d.locate name = .ok p) :
    d.isFolder p = true ∨ ∃ r own, p = r ++ [own] ∧ d.isFolder r = true := by
  unfold locate at h
  dsimp only at h
  split at h
  · cases h
  split at h
  · cases h
  split at h
  · cases h
  next r hr =>
  have hfolder : d.isFolder r = true := isFolder_of_enter hr (by simp [isFolder])
  split at h
  · cases h
  next q hq =>
  obtain rfl : q = p := Except.ok.inj h
  rcases step_cases hq hfolder with hq | ⟨own, rfl⟩
  · exact .inl hq
  · exact .inr ⟨r, own, rfl, hfolder⟩

/-! ## Files -/

/-- In the folder `d`, `name` stands for a file at the place `p`. -/
structure Denotes (d : Folder) (name : String) (p : Place) : Prop where
  locate : d.locate name = .ok p
  not_folder : d.isFolder p = false
  no_slash : asksForFolder name = false

theorem Denotes.unique (h : d.Denotes name p) (h' : d.Denotes name q) : p = q :=
  Except.ok.inj (h.locate.symm.trans h'.locate)

theorem load_eq_ok_iff :
    d.load name = .ok content ↔ ∃ p, d.Denotes name p ∧ Members.find? p d.files = some content := by
  constructor
  · intro h
    unfold load at h
    split at h
    · cases h
    next p hp =>
    split at h
    · cases h
    next hfolder =>
    split at h
    · cases h
    next c hc =>
    split at h
    · cases h
    next hslash =>
    obtain rfl : c = content := Except.ok.inj h
    exact ⟨p, ⟨hp, by simpa using hfolder, by simpa using hslash⟩, hc⟩
  · rintro ⟨p, hp, hc⟩
    unfold load
    rw [hp.locate]
    dsimp only
    rw [hp.not_folder, if_neg Bool.false_ne_true, hc]
    dsimp only
    rw [hp.no_slash, if_neg Bool.false_ne_true]

theorem save_eq_ok_iff :
    d.save name content = .ok d' ↔
      ∃ p, d.Denotes name p ∧ fits p = true ∧ d' = ⟨Members.put p content d.files⟩ := by
  constructor
  · intro h
    unfold save at h
    split at h
    · cases h
    next p hp =>
    split at h
    · cases h
    next hplain =>
    rw [not_or] at hplain
    split at h
    · next hfits =>
      obtain rfl : ⟨Members.put p content d.files⟩ = d' := Except.ok.inj h
      exact ⟨p, ⟨hp, by simpa using hplain.2, by simpa using hplain.1⟩, hfits, rfl⟩
    · cases h
  · rintro ⟨p, hp, hfits, rfl⟩
    unfold save
    rw [hp.locate]
    dsimp only
    rw [hp.no_slash, hp.not_folder, if_neg (by simp), if_pos hfits]

/-- A file can be saved under this name. -/
def Writable (d : Folder) (name : String) : Prop :=
  ∃ p, d.Denotes name p ∧ fits p = true

theorem Writable.exists_save (h : d.Writable name) (content : ByteArray) :
    ∃ d', d.save name content = .ok d' := by
  obtain ⟨p, hp, hfits⟩ := h
  exact ⟨_, save_eq_ok_iff.2 ⟨p, hp, hfits, rfl⟩⟩

theorem find?_of_holds (h : d.holds name = false) (hp : d.Denotes name p) :
    Members.find? p d.files = none := by
  rcases hfind : Members.find? p d.files with _ | content
  · rfl
  · have hload : d.load name = .ok content := load_eq_ok_iff.2 ⟨p, hp, hfind⟩
    rw [holds, hload] at h
    cases h

/-! ## Saving -/

/-- The file at `p` is written, and all other files are as they were. -/
structure IsUpdate (d : Folder) (p : Place) (content : ByteArray) (d' : Folder) : Prop where
  stored : Members.find? p d'.files = some content
  beside : ∀ q, q ≠ p → Members.find? q d'.files = Members.find? q d.files

theorem isUpdate_put (d : Folder) (p : Place) (content : ByteArray) :
    d.IsUpdate p content ⟨Members.put p content d.files⟩ where
  stored := by rw [Members.find?_put, if_pos rfl]
  beside q hq := by rw [Members.find?_put, if_neg hq]

/-- A file in a folder that is there makes no new folder. -/
theorem Denotes.isFolder_put (h : d.Denotes name p) (content : ByteArray) (q : Place) :
    isFolder ⟨Members.put p content d.files⟩ q = d.isFolder q := by
  rw [Bool.eq_iff_iff, isFolder_iff, isFolder_iff, Members.keys_put]
  split
  · rfl
  -- a new file lies in a folder, so what lies above it was a folder before
  have habove : q <+: p → q ≠ p → q = [] ∨ ∃ r ∈ Members.keys d.files, q <+: r ∧ q ≠ r := by
    intro hqp hne
    rcases locate_cases h.locate with hfolder | ⟨r, own, rfl, hr⟩
    · rw [h.not_folder] at hfolder
      cases hfolder
    · rcases List.prefix_concat_iff.1 hqp with rfl | hqr
      · exact absurd rfl hne
      · exact isFolder_iff.1 (isFolder_above hqr hr)
  constructor
  · rintro (rfl | ⟨r, hr, hqr, hne⟩)
    · exact .inl rfl
    · rcases List.mem_append.1 hr with hr | hr
      · exact .inr ⟨r, hr, hqr, hne⟩
      · obtain rfl : r = p := List.mem_singleton.1 hr
        exact habove hqr hne
  · rintro (rfl | ⟨r, hr, hqr, hne⟩)
    · exact .inl rfl
    · exact .inr ⟨r, List.mem_append_left _ hr, hqr, hne⟩

/-- The way a name leads depends on the folders alone. -/
theorem enter_of_isFolder_eq (hd : ∀ q, d'.isFolder q = d.isFolder q) {parts : List (List Char)}
    (h : d.enter p parts = .ok q) : d'.enter p parts = .ok q := by
  induction parts generalizing p with
  | nil => exact h
  | cons part parts ih =>
    rw [enter] at h ⊢
    rcases hstep : step p part with _ | r
    · rw [hstep] at h
      cases h
    · rw [hstep] at h
      dsimp only at h ⊢
      rw [hd]
      split at h
      · next hr =>
        rw [if_pos hr]
        exact ih h
      · split at h <;> cases h

theorem locate_of_isFolder_eq (hd : ∀ q, d'.isFolder q = d.isFolder q)
    (h : d.locate name = .ok p) : d'.locate name = .ok p := by
  unfold locate at h ⊢
  dsimp only at h ⊢
  split at h
  · cases h
  next hlength =>
  split at h
  · cases h
  next hown =>
  split at h
  · cases h
  next r hr =>
  rw [if_neg hlength, if_neg hown, enter_of_isFolder_eq hd hr]
  exact h

theorem Denotes.of_isFolder_eq (hd : ∀ q, d'.isFolder q = d.isFolder q) (h : d.Denotes name p) :
    d'.Denotes name p where
  locate := locate_of_isFolder_eq hd h.locate
  not_folder := (hd p).trans h.not_folder
  no_slash := h.no_slash

theorem isUpdate_of_save (h : d.save name content = .ok d') :
    ∃ p, d.Denotes name p ∧ fits p = true ∧ d.IsUpdate p content d' := by
  obtain ⟨p, hp, hfits, rfl⟩ := save_eq_ok_iff.1 h
  exact ⟨p, hp, hfits, isUpdate_put d p content⟩

theorem denotes_iff_of_save {other : String} (h : d.save name content = .ok d') :
    d'.Denotes other q ↔ d.Denotes other q := by
  obtain ⟨p, hp, -, rfl⟩ := save_eq_ok_iff.1 h
  have hfolder := hp.isFolder_put content
  exact ⟨fun hq => hq.of_isFolder_eq fun r => (hfolder r).symm, fun hq => hq.of_isFolder_eq hfolder⟩

theorem load_of_save (h : d.save name content = .ok d') : d'.load name = .ok content := by
  obtain ⟨p, hp, -, hd⟩ := isUpdate_of_save h
  exact load_eq_ok_iff.2 ⟨p, (denotes_iff_of_save h).2 hp, hd.stored⟩

end JsonEdit.Command.Folder
