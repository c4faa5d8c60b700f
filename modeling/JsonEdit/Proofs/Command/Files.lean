import JsonEdit.Proofs.Command.Line

/-!
# What a run does to the files

* A run that fails leaves all files as they were and prints nothing. One without a target leaves
  the files as they were, too.
* A run that ends well writes its target and nothing else. With a backup it adds one more file, a
  copy of the document's file.
* One kind of run is an exception (`LeavesBackup`): a backup may also be asked for on the way to
  another file than the document's. It is made before the other file is looked at, and stays behind
  if that file cannot be written.

The files are those of a `Folder`: none lies outside of the place where the command runs, so an
absolute name is the name of no file here.
-/

namespace JsonEdit.Command

variable {d d' : Folder} {time text : String} {p q : Place}

/-! ## Steps of a plan -/

/-- A copy of the file `source` has been added at `q`, the place of a backup, where there was no
file. -/
structure Folder.GainsBackup (d : Folder) (time source : String) (q : Place) (d' : Folder) :
    Prop where
  place : d.Denotes (backupName time source) q
  new : Members.find? q d.files = none
  copy : ∃ content, d.load source = .ok content ∧ d.IsUpdate q content d'

theorem Action.perform_write_eq_ok_iff {file : String} :
    (Action.write file text).perform d = .ok d' ↔ d.save file text.toUTF8 = .ok d' :=
  mapError_eq_ok_iff

theorem Action.perform_backUp_eq_ok_iff {file backup : String} :
    (Action.backUp file backup).perform d = .ok d' ↔
      d.holds backup = false ∧
        ∃ content, d.load file = .ok content ∧ d.save backup content = .ok d' := by
  unfold perform
  dsimp only
  rcases hholds : d.holds backup with _ | _
  · rcases hload : d.load file with fault | content
    · simp
    · dsimp only
      rw [if_neg Bool.false_ne_true, mapError_eq_ok_iff]
      simp
  · simp

namespace Task

variable {t : Task}

theorem copied_cases (h : t.copied time d = .ok d') :
    (t.guarded? = none ∧ d' = d) ∨
      ∃ source q, t.guarded? = some source ∧ d.GainsBackup time source q d' ∧
        ∀ name p, d'.Denotes name p ↔ d.Denotes name p := by
  unfold copied at h
  split at h
  · next hguarded =>
    obtain rfl : d = d' := Except.ok.inj h
    exact .inl ⟨hguarded, rfl⟩
  · next source hguarded =>
    obtain ⟨hholds, content, hload, hsave⟩ := Action.perform_backUp_eq_ok_iff.1 h
    obtain ⟨q, hq, -, hupdate⟩ := Folder.isUpdate_of_save hsave
    exact .inr ⟨source, q, hguarded,
      ⟨hq, Folder.find?_of_holds hholds hq, content, hload, hupdate⟩,
      fun name p => Folder.denotes_iff_of_save hsave⟩

theorem written_cases (h : t.written text d = .ok d') :
    (t.target? = none ∧ d' = d) ∨
      ∃ file p, t.target? = some file ∧ d.Denotes file p ∧ d.IsUpdate p text.toUTF8 d' := by
  unfold written at h
  split at h
  · next htarget =>
    obtain rfl : d = d' := Except.ok.inj h
    exact .inl ⟨htarget, rfl⟩
  · next file htarget =>
    obtain ⟨p, hp, -, hupdate⟩ := Folder.isUpdate_of_save (Action.perform_write_eq_ok_iff.1 h)
    exact .inr ⟨file, p, htarget, hp, hupdate⟩

theorem exists_written {file : String} (text : String) (htarget : t.target? = some file)
    (h : d.Writable file) : ∃ d', t.written text d = .ok d' := by
  unfold written
  rw [htarget]
  obtain ⟨d', hd'⟩ := h.exists_save text.toUTF8
  exact ⟨d', Action.perform_write_eq_ok_iff.2 hd'⟩

end Task

theorem Line.copied_cases {l : Line} {t : Task} (ht : l.task = .ok t)
    (h : t.copied time d = .ok d') :
    (l.copies = false ∧ d' = d) ∨
      l.copies = true ∧ ∃ source q, l.inner.value? .input = some source ∧
        d.GainsBackup time source q d' ∧ ∀ name p, d'.Denotes name p ↔ d.Denotes name p := by
  obtain ⟨-, -, hguarded, hboth⟩ := task_eq_ok ht
  rcases hcopies : l.copies with _ | _
  · rcases Task.copied_cases h with ⟨-, hd⟩ | ⟨source, q, hsource, -⟩
    · exact .inl ⟨rfl, hd⟩
    · rw [hsource, hcopies] at hguarded
      cases hguarded
  · rw [hcopies, if_pos rfl] at hguarded
    rcases Task.copied_cases h with ⟨hnone, -⟩ | ⟨source, q, hsource, hgains, hdenotes⟩
    · have hsome := (hboth hcopies).1
      rw [← hguarded, hnone] at hsome
      cases hsome
    · exact .inr ⟨rfl, source, q, hguarded.symm.trans hsource, hgains, hdenotes⟩

/-! ## Runs -/

/-- The file that a command line asks to write. -/
def target? (words : List String) : Option String :=
  match Line.read .nothing words with
  | .ok l => l.target?
  | .error _ => none

/-- Nothing has a longer name than a file may have. -/
def Folder.NamesFit (d : Folder) : Prop :=
  ∀ p ∈ Members.keys d.files, fits p = true

/-- The command line `l` asks for `text` in the file at the place `p`. -/
structure Asks (words : List String) (s : Surroundings) (file : String) (l : Line) (text : String)
    (p : Place) : Prop where
  read : Line.read .nothing words = .ok l
  target : l.target? = some file
  result : ∃ t document, l.task = .ok t ∧ s.document (l.inner.value? .input) = .ok document ∧
    t.result document = .ok text
  place : s.folder.Denotes file p

/-- The text that is asked for is in its file, and nothing else has happened but the backup that is
asked for. -/
inductive WritesTarget (words : List String) (s : Surroundings) (file : String) (d : Folder) :
    Prop where
  | alone {l : Line} {text : String} {p : Place} (h : Asks words s file l text p)
    (hcopies : l.copies = false) (hd : s.folder.IsUpdate p text.toUTF8 d)
  | behindBackup {l : Line} {text : String} {p q : Place} {source : String} {d₁ : Folder}
    (h : Asks words s file l text p) (hcopies : l.copies = true)
    (hsource : l.inner.value? .input = some source)
    (hbackup : s.folder.GainsBackup s.time source q d₁) (hd : d₁.IsUpdate p text.toUTF8 d)
    (hplace : l.inner.has .inPlace = true → q ≠ p)

/-- Nothing has happened but the backup that is asked for, on the way to another file than the
document's, which cannot be written. -/
inductive LeavesBackup (words : List String) (s : Surroundings) (d : Folder) : Prop where
  | mk {l : Line} {q : Place} {source file : String} {content : ByteArray} {fault : FileFault}
    (hread : Line.read .nothing words = .ok l) (hcopies : l.copies = true)
    (hplace : l.inner.has .inPlace = false) (hsource : l.inner.value? .input = some source)
    (hbackup : s.folder.GainsBackup s.time source q d) (htarget : l.target? = some file)
    (hfault : d.save file content = .error fault)

variable {words : List String} {l : Line} {t : Task} {s : Surroundings} {document : String}

theorem exists_denotes_of_document {file : String} (h : s.document (some file) = .ok document) :
    ∃ p, s.folder.Denotes file p ∧ p ∈ Members.keys s.folder.files := by
  unfold Surroundings.document at h
  dsimp only at h
  rcases hload : s.folder.load file with fault | content
  · rw [hload] at h
    cases h
  · obtain ⟨p, hp, hfind⟩ := Folder.load_eq_ok_iff.1 hload
    exact ⟨p, hp, Members.mem_keys_of_find? hfind⟩

theorem unchanged_or_leavesBackup {f : Failure} (hfits : s.folder.NamesFit)
    (hl : Line.read .nothing words = .ok l) (ht : l.task = .ok t)
    (hdocument : s.document (l.inner.value? .input) = .ok document)
    (hcopied : t.copied s.time s.folder = .ok d) (hwritten : t.written text d = .error f) :
    d = s.folder ∨ LeavesBackup words s d := by
  rcases Line.copied_cases ht hcopied with
    ⟨-, hd⟩ | ⟨hcopies, source, q, hsource, hgains, hdenotes⟩
  · exact .inl hd
  obtain ⟨-, htarget, -, -⟩ := Line.task_eq_ok ht
  have hplace : l.inner.has .inPlace = false := by
    -- in place, the document was read from the file that is to be written
    rw [← Bool.not_eq_true]
    intro hplace
    rw [hsource] at hdocument
    obtain ⟨p, hp, hmem⟩ := exists_denotes_of_document hdocument
    have hfile : t.target? = some source :=
      (htarget.trans (Line.target?_of_inPlace hcopies hplace)).trans hsource
    obtain ⟨d', hd'⟩ :=
      Task.exists_written text hfile ⟨p, (hdenotes source p).2 hp, hfits p hmem⟩
    rw [hd'] at hwritten
    cases hwritten
  unfold Task.written at hwritten
  rcases hfile : t.target? with _ | file
  · rw [hfile] at hwritten
    cases hwritten
  · rw [hfile] at hwritten
    obtain ⟨fault, hsave, -⟩ := mapError_eq_error_iff.1 hwritten
    exact .inr ⟨hl, hcopies, hplace, hsource, hgains, htarget.symm.trans hfile, hsave⟩

theorem writesTarget_of_done {file : String} (hl : Line.read .nothing words = .ok l)
    (ht : l.task = .ok t) (hdocument : s.document (l.inner.value? .input) = .ok document)
    (hresult : t.result document = .ok text) (hcopied : t.copied s.time s.folder = .ok d)
    (hwritten : t.written text d = .ok d') (hfile : t.target? = some file) :
    WritesTarget words s file d' := by
  rcases Task.written_cases hwritten with ⟨hnone, -⟩ | ⟨file', p, hfile', hp, hupdate⟩
  · rw [hfile] at hnone
    cases hnone
  obtain rfl : file = file' := Option.some.inj (hfile.symm.trans hfile')
  obtain ⟨-, htarget, -, -⟩ := Line.task_eq_ok ht
  have hasks (hp : s.folder.Denotes file p) : Asks words s file l text p :=
    ⟨hl, htarget.symm.trans hfile, ⟨t, document, ht, hdocument, hresult⟩, hp⟩
  rcases Line.copied_cases ht hcopied with
    ⟨hcopies, rfl⟩ | ⟨hcopies, source, q, hsource, hgains, hdenotes⟩
  · exact .alone (hasks hp) hcopies hupdate
  · refine .behindBackup (hasks ((hdenotes file p).1 hp)) hcopies hsource hgains hupdate
      fun hplace => ?_
    -- in place the target was there before, the backup was not
    obtain rfl : source = file := Option.some.inj
      (hsource.symm.trans ((Line.target?_of_inPlace hcopies hplace).symm.trans
        (htarget.symm.trans hfile)))
    rw [hsource] at hdocument
    obtain ⟨r, hr, hmem⟩ := exists_denotes_of_document hdocument
    rintro rfl
    obtain rfl := hr.unique ((hdenotes source q).1 hp)
    exact Members.find?_eq_none_iff.1 hgains.new hmem

/-- Where nothing is written, nothing is copied. -/
theorem unchanged_of_done (ht : l.task = .ok t) (hcopied : t.copied s.time s.folder = .ok d)
    (hwritten : t.written text d = .ok d') (hnone : t.target? = none) : d' = s.folder := by
  obtain ⟨-, htarget, -, hboth⟩ := Line.task_eq_ok ht
  rcases Task.written_cases hwritten with ⟨-, rfl⟩ | ⟨file, p, hfile, -⟩
  · rcases Line.copied_cases ht hcopied with ⟨-, hd⟩ | ⟨hcopies, -⟩
    · exact hd
    · have hsome := (hboth hcopies).2
      rw [← htarget, hnone] at hsome
      cases hsome
  · rw [hnone] at hfile
    cases hfile

/-- What a run does to the files, whatever the command line, standard input and the files are.
A run that fails changes none and prints nothing, unless it leaves a backup behind as described
above. A run that ends well writes its target, and makes the backup that was asked for. Files are
below the place of the run, and names that lead elsewhere stand for none of them. -/
theorem run_writesTarget_or_unchanged (words : List String) (s : Surroundings)
    (hfits : s.folder.NamesFit) :
    ((run words s).report.code ≠ 0 →
      ((run words s).report.code = 1 → (run words s).report.output = "") ∧
      ((run words s).folder = s.folder ∨ LeavesBackup words s (run words s).folder)) ∧
    ((run words s).report.code = 0 →
      (target? words = none → (run words s).folder = s.folder) ∧
      ∀ file, target? words = some file → WritesTarget words s file (run words s).folder) := by
  unfold run
  rcases harguments : Invocation.ofArguments words with halt | i
  · dsimp only
    rcases Invocation.ofArguments_eq_error harguments with ⟨h, hread⟩ | ⟨m, rfl⟩
    · have hnone : target? words = none := by rw [target?, hread]
      rw [hnone]
      refine ⟨fun _ => ⟨fun hcode => ?_, .inl rfl⟩, fun _ => ⟨fun _ => rfl, nofun⟩⟩
      rcases halt with _ | _ | m <;> cases hcode
    · exact ⟨fun _ => ⟨nofun, .inl rfl⟩, nofun⟩
  dsimp only
  obtain ⟨l, hl, ht⟩ := Invocation.ofArguments_eq_ok harguments
  obtain ⟨hsource, htarget, -, -⟩ := Line.task_eq_ok ht
  rcases hdocument : s.document i.task.source with f | document
  · rw [Invocation.run_unread hdocument]
    exact ⟨fun _ => ⟨fun _ => rfl, .inl rfl⟩, nofun⟩
  rcases hresult : i.task.result document with e | text
  · rw [Invocation.run_refused hdocument hresult]
    exact ⟨fun _ => ⟨fun _ => rfl, .inl rfl⟩, nofun⟩
  rcases hcopied : i.task.copied s.time s.folder with f | d₁
  · obtain ⟨hcode, houtput, hfolder⟩ := Invocation.run_uncopied hdocument hresult hcopied
    rw [hcode, houtput, hfolder]
    exact ⟨fun _ => ⟨fun _ => rfl, .inl rfl⟩, nofun⟩
  have hdocument' : s.document (l.inner.value? .input) = .ok document := hsource ▸ hdocument
  rcases hwritten : i.task.written text d₁ with f | d₂
  · obtain ⟨hcode, houtput, hfolder⟩ := Invocation.run_unwritten hdocument hresult hcopied hwritten
    rw [hcode, houtput, hfolder]
    exact ⟨fun _ => ⟨fun _ => rfl,
      unchanged_or_leavesBackup hfits hl ht hdocument' hcopied hwritten⟩, nofun⟩
  · obtain ⟨hcode, houtput, hfolder⟩ := Invocation.run_done hdocument hresult hcopied hwritten
    have hwords : target? words = i.task.target? := by rw [target?, hl, htarget]
    rw [hcode, houtput, hfolder, hwords]
    exact ⟨fun h => absurd rfl h, fun _ => ⟨unchanged_of_done ht hcopied hwritten,
      fun file => writesTarget_of_done hl ht hdocument' hresult hcopied hwritten⟩⟩

/-- One document and nothing on standard input. -/
def oneDocument : Surroundings :=
  ⟨ByteArray.empty, ⟨[(["a.json"], "\x7b\"a\":null\x7d".toUTF8)]⟩, "20240101_000000"⟩

theorem run_writesTarget_inPlace :
    oneDocument.folder.NamesFit ∧
      WritesTarget ["set", "-i", "a.json", "--in-place", "--backup", "a", "true"] oneDocument
        "a.json"
        (run ["set", "-i", "a.json", "--in-place", "--backup", "a", "true"]
          oneDocument).folder := by
  have hfits : oneDocument.folder.NamesFit := by
    unfold Folder.NamesFit
    decide
  obtain ⟨-, hdone⟩ := run_writesTarget_or_unchanged
    ["set", "-i", "a.json", "--in-place", "--backup", "a", "true"] oneDocument hfits
  exact ⟨hfits, (hdone (by decide +kernel)).2 "a.json" (by decide)⟩

/-- A backup for an edit that goes to another file, in a folder that is not there: the command fails
and the backup stays behind. -/
theorem run_leaves_backup :
    (run ["set", "--backup", "-i", "a.json", "-o", "missing/o.json", "a", "true"]
      oneDocument).report.code = 1 ∧
    Members.keys (run ["set", "--backup", "-i", "a.json", "-o", "missing/o.json", "a", "true"]
      oneDocument).folder.files = [["a.json"], ["a.backup.20240101_000000.json"]] ∧
    Members.keys oneDocument.folder.files = [["a.json"]] := by
  decide +kernel

end JsonEdit.Command
