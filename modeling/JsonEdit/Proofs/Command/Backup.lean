import JsonEdit.Proofs.Command.Ends
import Mathlib.Data.List.TakeWhile

/-!
# Backups

* `CutsName name stem ext`: a file's own name is cut in front of its last dot, unless this is its
  first character (`cutsName_splitExtension`). A backup has the time put in at the cut
  (`NamesBackup`).
* A name stands for a file in the folder that the parts in front of its last slash lead to
  (`Denotes.exists_folder`). The name of a backup leads to the same folder (`namesBackup`).
* An edit in place adds just one file, the backup. Its content is what the document's file held
  before. Dry runs and edits that fail add none (`run_backs_up`).

The name of a backup is made of the document's name whatever this is (`backupName`). Where the two
lead is said of a `Folder`, in which an absolute name, or one that climbs out of the place where the
command runs, stands for no file.
-/

namespace JsonEdit.Command

/-! ## Extensions -/

/-- A file's own name as a stem and an extension, which is what stands behind the last dot together
with that dot. A dot in front begins no extension. -/
inductive CutsName (name : List Char) : List Char → List Char → Prop where
  | whole (h : '.' ∉ name.tail) : CutsName name name []
  | atDot {stem ext : List Char} (hname : name = stem ++ '.' :: ext) (hstem : stem ≠ [])
    (hext : '.' ∉ ext) : CutsName name stem ('.' :: ext)

theorem CutsName.append_eq {name stem ext : List Char} (h : CutsName name stem ext) :
    stem ++ ext = name := by
  cases h with
  | whole => rw [List.append_nil]
  | atDot hname => exact hname.symm

theorem eq_of_join_eq {separator : Char} {leading : List (List Char)}
    (h : join separator leading [] = [separator]) : leading = [[]] := by
  rcases leading with _ | ⟨p, ps⟩
  · cases h
  · have hlength := congrArg List.length h
    simp only [join, List.foldr_cons, List.length_append, List.length_cons, List.length_nil]
      at hlength
    obtain rfl : p = [] := List.eq_nil_of_length_eq_zero (by omega)
    rcases ps with _ | ⟨q, qs⟩
    · rfl
    · simp only [List.foldr_cons, List.length_append, List.length_cons] at hlength
      omega

theorem cutsName_splitExtension (name : List Char) :
    CutsName name (splitExtension name).1 (splitExtension name).2 := by
  have hjoin := join_pieces '.' name
  obtain ⟨-, hlast⟩ := not_mem_of_mem_pieces '.' name
  unfold splitExtension
  split
  · next last hpieces =>
    rw [hpieces] at hjoin hlast
    obtain rfl : last = name := hjoin
    exact .whole fun h => hlast (List.mem_of_mem_tail h)
  · next last hpieces =>
    rw [hpieces] at hjoin hlast
    obtain rfl : '.' :: last = name := hjoin
    exact .whole hlast
  · next leading last hnil hone hpieces =>
    rw [hpieces] at hjoin hlast
    have hleading : leading ≠ [] := hnil
    obtain ⟨stem, hstem⟩ := join_nil_eq '.' hleading
    rw [← List.nil_append last, join_append, hstem] at hjoin
    dsimp only
    rw [hstem, List.dropLast_concat]
    refine .atDot (by rw [← hjoin, List.append_assoc, List.singleton_append]) ?_ hlast
    rintro rfl
    exact hone (eq_of_join_eq hstem)

/-- `q` is in the folder of `p`, and its own name is that of `p` with `.backup.` and a time put in
front of the extension. -/
inductive NamesBackup (time : String) : Place → Place → Prop where
  | mk (folder : Place) {name stem ext : List Char} (h : CutsName name stem ext) :
    NamesBackup time (folder ++ [String.ofList name])
      (folder ++ [String.ofList (stem ++ ".backup.".toList ++ time.toList ++ ext)])

/-! ## Folders of a name -/

variable {d d' : Folder} {p q r : Place} {file time : String}

namespace Folder

theorem enter_append {front back : List (List Char)} (h : d.enter p (front ++ back) = .ok r) :
    ∃ q, d.enter p front = .ok q ∧ d.enter q back = .ok r := by
  induction front generalizing p with
  | nil => exact ⟨p, rfl, h⟩
  | cons part front ih =>
    rw [List.cons_append, enter] at h
    rw [enter]
    rcases hstep : step p part with _ | p'
    · rw [hstep] at h
      cases h
    rw [hstep] at h
    dsimp only at h ⊢
    split at h
    · next hfolder =>
      rw [if_pos hfolder]
      exact ih h
    · split at h <;> cases h

theorem enter_isHere {parts : List (List Char)} (hparts : ∀ part ∈ parts, isHere part = true)
    (h : d.enter p parts = .ok q) : q = p := by
  induction parts with
  | nil => exact (Except.ok.inj h).symm
  | cons part parts ih =>
    have hstep : step p part = some p := by
      rw [step, if_pos (by simpa [isHere] using hparts part List.mem_cons_self)]
    rw [enter, hstep] at h
    dsimp only at h
    split at h
    · exact ih (fun part hpart => hparts part (List.mem_cons_of_mem _ hpart)) h
    · split at h <;> cases h

theorem enter_trimFolders {parts : List (List Char)} (h : d.enter p parts = .ok q) :
    d.enter p (trimFolders parts) = .ok q := by
  rcases parts with _ | ⟨part, parts⟩
  · exact h
  have hparts : parts =
      (parts.reverse.dropWhile isHere).reverse ++ (parts.reverse.takeWhile isHere).reverse := by
    rw [← List.reverse_append, List.takeWhile_append_dropWhile, List.reverse_reverse]
  rw [hparts, ← List.cons_append] at h
  obtain ⟨r, hr, hback⟩ := enter_append h
  obtain rfl : q = r := enter_isHere
    (fun part hpart => List.mem_takeWhile_imp (List.mem_reverse.1 hpart)) hback
  exact hr

theorem dropWhile_slash (h : asksForFolder file = false) :
    (file.toList.reverse.dropWhile (· = '/')).reverse = file.toList := by
  rw [asksForFolder, decide_eq_false_iff_not, ← List.head?_reverse] at h
  rw [List.reverse_eq_iff]
  rcases hchars : file.toList.reverse with _ | ⟨c, cs⟩
  · rfl
  · rw [hchars, List.head?_cons, Option.some.injEq] at h
    rw [List.dropWhile_cons_of_neg (by simpa using h)]

/-- A file is in the folder that the parts in front of the last slash of its name lead to, and what
stands behind that slash is its own name. -/
theorem Denotes.exists_folder (h : d.Denotes file p) :
    ∃ folder, d.enter [] (pieces '/' file.toList).1 = .ok folder ∧
      p = folder ++ [String.ofList (pieces '/' file.toList).2] := by
  have hlocate := h.locate
  unfold Folder.locate at hlocate
  rw [dropWhile_slash h.no_slash] at hlocate
  dsimp only at hlocate
  split at hlocate
  · cases hlocate
  split at hlocate
  · cases hlocate
  split at hlocate
  · cases hlocate
  next folder hfolder =>
  split at hlocate
  · cases hlocate
  next q hstep =>
  obtain rfl : q = p := Except.ok.inj hlocate
  refine ⟨folder, hfolder, ?_⟩
  have hroot : d.isFolder [] = true := by simp [isFolder]
  have hisFolder : d.isFolder folder = true := isFolder_of_enter hfolder hroot
  have hplain : ∀ r, r <+: folder → q ≠ r := by
    rintro r hr rfl
    have := isFolder_above hr hisFolder
    rw [h.not_folder] at this
    cases this
  unfold step at hstep
  split at hstep
  · exact absurd (Option.some.inj hstep).symm (hplain folder List.prefix_rfl)
  · split at hstep
    · split at hstep
      · cases hstep
      · exact absurd (Option.some.inj hstep).symm (hplain _ (List.dropLast_prefix folder))
    · exact (Option.some.inj hstep).symm

end Folder

/-! ## Names of backups -/

theorem mem_of_mem_trimFolders {parts : List (List Char)} {part : List Char}
    (h : part ∈ trimFolders parts) : part ∈ parts := by
  rcases parts with _ | ⟨first, parts⟩
  · exact h
  rcases List.mem_cons.1 h with rfl | h
  · exact List.mem_cons_self
  · exact List.mem_cons_of_mem _
      (List.mem_reverse.1 ((List.dropWhile_suffix _).mem (List.mem_reverse.1 h)))

theorem pieces_backupName (htime : '/' ∉ time.toList) (file : String) :
    pieces '/' (backupName time file).toList =
      (trimFolders (pieces '/' file.toList).1, markBackup time (pieces '/' file.toList).2) := by
  obtain ⟨hfolders, hname⟩ := not_mem_of_mem_pieces '/' file.toList
  rw [← (cutsName_splitExtension (pieces '/' file.toList).2).append_eq, List.mem_append,
    not_or] at hname
  have hmark : '/' ∉ ".backup.".toList := by decide
  rw [backupName]
  dsimp only
  rw [String.toList_ofList]
  refine pieces_join (fun part hpart => hfolders part (mem_of_mem_trimFolders hpart)) ?_
  rw [markBackup]
  simp only [List.mem_append, not_or]
  exact ⟨⟨⟨hname.1, hmark⟩, htime⟩, hname.2⟩

theorem namesBackup (htime : '/' ∉ time.toList) (hp : d.Denotes file p)
    (hq : d.Denotes (backupName time file) q) : NamesBackup time p q := by
  obtain ⟨folder, hfolder, rfl⟩ := hp.exists_folder
  obtain ⟨folder', hfolder', rfl⟩ := hq.exists_folder
  rw [pieces_backupName htime] at hfolder' ⊢
  obtain rfl : folder = folder' :=
    Except.ok.inj ((Folder.enter_trimFolders hfolder).symm.trans hfolder')
  exact .mk folder (cutsName_splitExtension _)

/-! ## Runs -/

/-- One file is added at `q`. It is a copy of what was at `p`, and all files at other places are as
they were. -/
structure AddsCopy (d : Folder) (p q : Place) (d' : Folder) : Prop where
  new : q ∉ Members.keys d.files
  places : Members.keys d'.files = Members.keys d.files ++ [q]
  copy : ∃ content, Members.find? p d.files = some content ∧
    Members.find? q d'.files = some content
  beside : ∀ r, r ≠ p → r ≠ q → Members.find? r d'.files = Members.find? r d.files

theorem addsCopy_put_put {content text : ByteArray} (hp : Members.find? p d.files = some content)
    (hq : q ∉ Members.keys d.files) :
    AddsCopy d p q ⟨Members.put p text (Members.put q content d.files)⟩ := by
  have hmem : p ∈ Members.keys d.files := Members.mem_keys_of_find? hp
  have hne : q ≠ p := fun h => hq (h ▸ hmem)
  refine ⟨hq, ?_, ⟨content, hp, ?_⟩, fun r hrp hrq => ?_⟩
  · rw [Members.keys_put, Members.keys_put, if_neg hq, if_pos (List.mem_append_left _ hmem)]
  · rw [Members.find?_put, if_neg hne, Members.find?_put, if_pos rfl]
  · rw [Members.find?_put, if_neg hrp, Members.find?_put, if_neg hrq]

variable {words : List String} {l : Line} {t : Task} {s : Surroundings}

theorem Task.Succeeds.addsCopy {output : String} {trace : List Entry} (htime : '/' ∉ s.time.toList)
    (h : t.Succeeds s output trace d') (hguarded : t.guarded? = some file)
    (htarget : t.target? = some file) :
    ∃ p q, s.folder.Denotes file p ∧ NamesBackup s.time p q ∧ AddsCopy s.folder p q d' := by
  obtain @⟨document, text, d, _, -, -, hcopied, hwritten⟩ := h
  rw [Task.copied, hguarded] at hcopied
  rw [Task.written, htarget] at hwritten
  obtain ⟨hholds, content, hload, hsave⟩ := Action.perform_backUp_eq_ok_iff.1 hcopied
  obtain ⟨p, hp, hfind⟩ := Folder.load_eq_ok_iff.1 hload
  obtain ⟨q, hq, -, hd⟩ := Folder.save_eq_ok_iff.1 hsave
  obtain ⟨p', hp', -, hd'⟩ := Folder.save_eq_ok_iff.1 (Action.perform_write_eq_ok_iff.1 hwritten)
  obtain rfl : p = p' := hp.unique ((Folder.denotes_iff_of_save hsave).1 hp')
  subst hd hd'
  exact ⟨p, q, hp, namesBackup htime hp hq,
    addsCopy_put_put hfind (Members.find?_eq_none_iff.1 (Folder.find?_of_holds hholds hq))⟩

theorem folder_of_dryRun (hl : Line.read .nothing words = .ok l) (hverb : l.verb = .set)
    (hdry : l.inner.has .dryRun = true) (s : Surroundings) : (run words s).folder = s.folder := by
  rcases run_cases hl s with ⟨t, ht, hrun⟩ | ⟨m, hrun⟩
  swap
  · rw [hrun]
  obtain ⟨-, htarget, -, -⟩ := Line.task_eq_ok ht
  have hnone : t.target? = none := by rw [htarget, Line.target?, hverb, hdry]; rfl
  rw [hrun]
  rcases t.fails_or_succeeds s with ⟨f, trace, d, h⟩ | ⟨output, trace, d, h⟩
  · rw [Invocation.run_of_fails (i := ⟨t, _, _⟩) h]
    cases h with
    | unwritten _ _ _ hf =>
      rw [Task.written, hnone] at hf
      cases hf
    | _ => rfl
  · rw [Invocation.run_of_succeeds (i := ⟨t, _, _⟩) h]
    cases h with
    | done _ _ hd hd' => exact unchanged_of_done ht hd hd' hnone

theorem folder_of_unread {f : Failure} (hl : Line.read .nothing words = .ok l)
    (h : s.document (l.inner.value? .input) = .error f) : (run words s).folder = s.folder := by
  rcases run_cases hl s with ⟨t, ht, hrun⟩ | ⟨m, hrun⟩
  · obtain ⟨hsource, -, -, -⟩ := Line.task_eq_ok ht
    rw [hrun, Invocation.run_of_fails (i := ⟨t, _, _⟩) (.unread (hsource ▸ h))]
  · rw [hrun]

theorem folder_of_refused {path value document : String} {e : EditError}
    (hl : Line.read .nothing words = .ok l) (hverb : l.verb = .set)
    (hwords : l.inner.words = [path, value])
    (hdocument : s.document (l.inner.value? .input) = .ok document)
    (he : editDocument document path value = .error e) : (run words s).folder = s.folder := by
  rcases run_cases hl s with ⟨t, ht, hrun⟩ | ⟨m, hrun⟩
  swap
  · rw [hrun]
  obtain ⟨hsource, -, -, -⟩ := Line.task_eq_ok ht
  have hresult : t.result document = .error e := by
    rw [Line.task, hverb, hwords] at ht
    obtain ⟨r, -, rfl⟩ := map_eq_ok_iff.1 ht
    exact he
  rw [hrun, Invocation.run_of_fails (i := ⟨t, _, _⟩) (.refused (hsource ▸ hdocument) hresult)]

/-- An edit in place with a backup that ends well adds just one file. It is beside the document's
file, has its name with `.backup.` and the time in front of the extension, and holds what the
document's file held before. A dry run, or an edit whose document cannot be read, or that fails,
leaves all files as they were. The files are those below the place of the run. -/
theorem run_backs_up :
    (∀ (words : List String) (l : Line) (s : Surroundings) (file : String),
      Line.read .nothing words = .ok l → l.verb = .set → l.inner.has .inPlace = true →
      l.inner.has .backup = true → l.inner.has .dryRun = false →
      l.inner.value? .input = some file → '/' ∉ s.time.toList →
      (run words s).report.code = 0 →
      ∃ p q, s.folder.Denotes file p ∧ NamesBackup s.time p q ∧
        AddsCopy s.folder p q (run words s).folder) ∧
    (∀ (words : List String) (l : Line) (s : Surroundings),
      Line.read .nothing words = .ok l → l.verb = .set → l.inner.has .dryRun = true →
      (run words s).folder = s.folder) ∧
    (∀ (words : List String) (l : Line) (s : Surroundings) (f : Failure),
      Line.read .nothing words = .ok l → s.document (l.inner.value? .input) = .error f →
      (run words s).folder = s.folder) ∧
    ∀ (words : List String) (l : Line) (s : Surroundings) (path value document : String)
      (e : EditError),
      Line.read .nothing words = .ok l → l.verb = .set → l.inner.words = [path, value] →
      s.document (l.inner.value? .input) = .ok document →
      editDocument document path value = .error e → (run words s).folder = s.folder := by
  refine ⟨fun words l s file hl hverb hplace hbackup hdry hfile htime hcode => ?_,
    fun words l s hl hverb hdry => folder_of_dryRun hl hverb hdry s,
    fun words l s f hl hf => folder_of_unread hl hf,
    fun words l s path value document e hl hverb hwords hdocument he =>
      folder_of_refused hl hverb hwords hdocument he⟩
  rcases run_cases hl s with ⟨t, ht, hrun⟩ | ⟨m, hrun⟩
  swap
  · rw [hrun] at hcode
    cases hcode
  obtain ⟨-, htarget, hguarded, -⟩ := Line.task_eq_ok ht
  have hcopies : l.copies = true := by simp [Line.copies, hverb, hbackup, hdry]
  rw [Line.target?_of_inPlace hcopies hplace, hfile] at htarget
  rw [hcopies, if_pos rfl, hfile] at hguarded
  rw [hrun] at hcode ⊢
  obtain ⟨output, trace, d, h⟩ := Invocation.exists_succeeds_of_code hcode
  rw [Invocation.run_of_succeeds (i := ⟨t, _, _⟩) h]
  exact h.addsCopy htime hguarded htarget

/-- One document in a folder, its name with two dots. -/
def nestedDocument : Surroundings :=
  ⟨ByteArray.empty, ⟨[(["conf", "x.y.json"], "\x7b\"a\":null\x7d".toUTF8)]⟩, "20240101_000000"⟩

theorem run_backs_up_nestedDocument :
    (∃ p q, nestedDocument.folder.Denotes "conf/x.y.json" p ∧
      NamesBackup nestedDocument.time p q ∧
      AddsCopy nestedDocument.folder p q
        (run ["set", "-i", "conf/x.y.json", "--in-place", "--backup", "a", "true"]
          nestedDocument).folder) ∧
    Members.keys (run ["set", "-i", "conf/x.y.json", "--in-place", "--backup", "a", "true"]
      nestedDocument).folder.files =
        [["conf", "x.y.json"], ["conf", "x.y.backup.20240101_000000.json"]] ∧
    (run ["set", "-i", "conf/x.y.json", "--in-place", "--backup", "--dry-run", "a", "true"]
      nestedDocument).folder = nestedDocument.folder ∧
    (run ["set", "-i", "x.json", "--in-place", "--backup", "a", "true"]
      nestedDocument).folder = nestedDocument.folder ∧
    (run ["set", "-i", "conf/x.y.json", "--in-place", "--backup", "a.b", "true"]
      nestedDocument).folder = nestedDocument.folder := by
  obtain ⟨hdone, hdry, hunread, hrefused⟩ := run_backs_up
  have hedit : editDocument "\x7b\"a\":null\x7d" "a.b" "true" =
      .error (.mismatch "a.b" 1 .container .null) := by decide +kernel
  refine ⟨?_, by decide +kernel, hdry _ _ nestedDocument rfl rfl rfl,
    hunread _ _ nestedDocument _ rfl rfl, ?_⟩
  · exact hdone _ _ nestedDocument "conf/x.y.json" rfl rfl rfl rfl rfl rfl (by decide)
      (by decide +kernel)
  · exact hrefused _ _ nestedDocument "a.b" "true" _ _ rfl rfl rfl rfl hedit

end JsonEdit.Command
