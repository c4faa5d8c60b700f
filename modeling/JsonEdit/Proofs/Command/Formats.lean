import JsonEdit.Proofs.Command.Added
import JsonEdit.Proofs.Edit.Failure
import JsonEdit.Proofs.Json.Lines

/-!
# Errors in two formats

* The object that tells a failure to programs is printed on one line, and is read back as it is
  whatever characters the path, the value and the names of files have
  (`Failure.readDocument_printLine`).
* Its members `kind`, `path` and `segment` tell the error of the edit, if it was the edit that
  failed, and are null otherwise (`Tells`).
* Both formats tell the same message behind the same notices (`run_tells_same`). There are no
  notices, unless a backup was made on the way to a file that could not be written.

Why a file cannot be used is what a `Folder` says of its name. An absolute name, or one that climbs
out of the place where the command runs, is the name of no file there.
-/

namespace JsonEdit

/-! ## Writable members -/

namespace Value

theorem every_writable_scalar {v : Value} (ho : v.kind ≠ .object) (ha : v.kind ≠ .array)
    (hi : v.IntegerFits) (hf : v.FractionSurvives) : v.Every Writable :=
  every_writable (every_regular_scalar ho ha hi) ((every_scalar ho ha).2 hf)

theorem every_writable_null : null.Every Writable :=
  every_writable_scalar (by simp [kind]) (by simp [kind]) trivial trivial

theorem every_writable_string (s : String) : (string s).Every Writable :=
  every_writable_scalar (by simp [kind]) (by simp [kind]) trivial trivial

theorem every_writable_natural {n : Nat} (hn : n < 2 ^ 64) :
    (number (.integer n)).Every Writable :=
  every_writable_scalar (by simp [kind]) (by simp [kind]) ⟨by omega, by omega⟩ trivial

end Value

namespace Command

theorem every_writable_orNull {α : Type} {g : α → Value} {x : Option α}
    (h : ∀ a, x = some a → (g a).Every Value.Writable) : (orNull g x).Every Value.Writable := by
  rcases x with _ | a
  · exact Value.every_writable_null
  · exact h a rfl

variable {t : Task} {s : Surroundings} {f : Failure} {trace : List Entry} {d : Folder}
  {document time text : String} {e : EditError} {l : Line}

/-! ## The object of a failure -/

namespace Failure

/-- The place of the segment at fault, if there is one, is among the numbers of a document. -/
def SegmentFits (f : Failure) : Prop :=
  ∀ n, f.edit?.bind EditError.segment? = some n → n < 2 ^ 64

theorem every_writable_toValue (h : f.SegmentFits) : f.toValue.Every Value.Writable := by
  have hkeys : ["kind", "path", "segment", "message"].Nodup := by decide
  refine Value.every_object_of_mem ⟨⟨hkeys, trivial⟩, trivial⟩ ?_
  simp only [List.forall_mem_cons]
  exact ⟨every_writable_orNull fun e _ => Value.every_writable_string _,
    every_writable_orNull fun path _ => Value.every_writable_string path,
    every_writable_orNull fun n hn => Value.every_writable_natural (h n hn),
    Value.every_writable_string f.message, List.forall_mem_nil _⟩

theorem nesting_orNull {α : Type} {g : α → Value} (h : ∀ a, (g a).nesting = 0) (x : Option α) :
    (orNull g x).nesting = 0 := by
  rcases x with _ | a
  · rfl
  · exact h a

theorem readDocument_printLine (h : f.SegmentFits) :
    readDocument (Json.printLine f.toValue) = .ok f.toValue := by
  refine JsonEdit.readDocument_printLine (every_writable_toValue h) ?_
  have hnesting : f.toValue.nesting = 1 := by
    simp only [toValue, Value.nesting, Value.membersNesting]
    rw [nesting_orNull fun _ => rfl, nesting_orNull fun _ => rfl, nesting_orNull fun _ => rfl]
    rfl
  rw [hnesting]
  decide

theorem newline_not_mem_printLine (f : Failure) : '\n' ∉ (Json.printLine f.toValue).toList :=
  (Json.noControl_printLine f.toValue).newline_not_mem

/-! ## Where a failure is from -/

theorem edit?_of_document {source : Option String} (h : s.document source = .error f) :
    f.edit? = none := by
  have hdecode : ∀ file bytes, decode file bytes = .error f → f.edit? = none := by
    intro file bytes h
    unfold decode at h
    split at h
    · cases h
    · obtain rfl := Except.error.inj h
      rfl
  unfold Surroundings.document at h
  split at h
  · exact hdecode _ _ h
  · split at h
    · obtain rfl := Except.error.inj h
      rfl
    · exact hdecode _ _ h

theorem edit?_of_perform {a : Action} (h : a.perform d = .error f) : f.edit? = none := by
  cases a with
  | backUp file backup =>
    unfold Action.perform at h
    dsimp only at h
    split at h
    · obtain rfl := Except.error.inj h
      rfl
    · split at h
      · obtain rfl := Except.error.inj h
        rfl
      · obtain ⟨fault, -, rfl⟩ := mapError_eq_error_iff.1 h
        rfl
  | write file text =>
    obtain ⟨fault, -, rfl⟩ := mapError_eq_error_iff.1 h
    rfl
  | print text => cases h
  | notify notice => cases h

theorem edit?_of_copied (h : t.copied time d = .error f) : f.edit? = none := by
  unfold Task.copied at h
  split at h
  · cases h
  · exact edit?_of_perform h

theorem edit?_of_written (h : t.written text d = .error f) : f.edit? = none := by
  unfold Task.written at h
  split at h
  · cases h
  · exact edit?_of_perform h

end Failure

/-- What the members `kind`, `path` and `segment` have to tell: the error that the library gives for
the document, or nothing if it gives none. -/
inductive Tells (t : Task) (s : Surroundings) : Value → Value → Value → Prop where
  | edit {document : String} {e : EditError} (h : s.document t.source = .ok document)
    (he : t.result document = .error e) :
    Tells t s (.string e.category.name) (orNull .string e.path?)
      (orNull (fun (n : Nat) => .number (.integer n)) e.segment?)
  | outside (h : ∀ document e, s.document t.source = .ok document → t.result document ≠ .error e) :
    Tells t s .null .null .null

theorem Tells.of_edit? (hf : f.edit? = none)
    (h : ∀ document e, s.document t.source = .ok document → t.result document ≠ .error e) :
    Tells t s (orNull (fun e => .string e.category.name) f.edit?)
      (orNull .string (f.edit?.bind EditError.path?))
      (orNull (fun (n : Nat) => .number (.integer n)) (f.edit?.bind EditError.segment?)) := by
  rw [hf]
  exact .outside h

namespace Task.Fails

theorem tells (h : t.Fails s f trace d) :
    Tells t s (orNull (fun e => .string e.category.name) f.edit?)
      (orNull .string (f.edit?.bind EditError.path?))
      (orNull (fun (n : Nat) => .number (.integer n)) (f.edit?.bind EditError.segment?)) := by
  have hresult : ∀ {document text : String}, s.document t.source = .ok document →
      t.result document = .ok text →
      ∀ document e, s.document t.source = .ok document → t.result document ≠ .error e := by
    intro document text h htext document' e h' he
    obtain rfl : document = document' := Except.ok.inj (h.symm.trans h')
    rw [htext] at he
    cases he
  cases h with
  | unread h =>
    refine .of_edit? (Failure.edit?_of_document h) fun document e h' => ?_
    rw [h] at h'
    cases h'
  | refused h he => exact .edit h he
  | uncopied h htext hf => exact .of_edit? (Failure.edit?_of_copied hf) (hresult h htext)
  | unwritten h htext _ hf => exact .of_edit? (Failure.edit?_of_written hf) (hresult h htext)

/-- Before a failure, notices are told of a backup and of nothing else. Such a backup has been made
on the way to another file than the document's. -/
theorem notices {words : List String} (h : t.Fails s f trace d)
    (hl : Line.read .nothing words = .ok l) (ht : l.task = .ok t) :
    told (fun _ => false) trace = "" ∨
      ∃ source q, s.folder.GainsBackup s.time source q d ∧
        told (fun _ => false) trace =
          "Backup created: " ++ backupName s.time source ++ "\n" ∧
        (s.folder.NamesFit → LeavesBackup words s d) := by
  cases h with
  | unread h => exact .inl rfl
  | refused h he => exact .inl (told_events _)
  | uncopied h htext hf => exact .inl (told_events _)
  | unwritten h htext hd hf =>
    rw [told_append, Task.entries, told_events, String.empty_append, Task.backUps]
    rcases Task.copied_cases hd with ⟨hguarded, -⟩ | ⟨source, q, hguarded, hgains, -⟩
    · rw [hguarded]
      exact .inl rfl
    · rw [hguarded]
      refine .inr ⟨source, q, hgains, rfl, fun hfits => ?_⟩
      obtain ⟨hsource, -, -, -⟩ := Line.task_eq_ok ht
      refine (unchanged_or_leavesBackup hfits hl ht (hsource ▸ h) hd hf).resolve_left ?_
      -- the backup is there now, and was not
      rintro rfl
      obtain ⟨content, -, hupdate⟩ := hgains.copy
      have hstored := hupdate.stored
      rw [hgains.new] at hstored
      cases hstored

/-- The place of a segment is among the numbers of a document if the path is no longer than that. -/
theorem segmentFits (h : t.Fails s f trace d)
    (hpath : ∀ path value r dryRun, t = .set path value r dryRun → path.length < 2 ^ 64) :
    f.SegmentFits := by
  have hnone : ∀ {f : Failure}, f.edit? = none → f.SegmentFits := by
    intro f hf n hn
    rw [hf] at hn
    cases hn
  cases h with
  | unread h => exact hnone (Failure.edit?_of_document h)
  | uncopied _ _ hf => exact hnone (Failure.edit?_of_copied hf)
  | unwritten _ _ _ hf => exact hnone (Failure.edit?_of_written hf)
  | @refused document e h he =>
    intro n (hn : e.segment? = some n)
    cases t with
    | set path value r dryRun =>
      have hfailure : JsonEdit.Failure document path e := editDocument_eq_error_iff_failure.1 he
      exact (hfailure.segment?_le hn).trans_lt (hpath path value r dryRun rfl)
    | format source target =>
      obtain ⟨m, -, rfl⟩ := mapError_eq_error_iff.1 (map_eq_error_iff.1 he)
      cases hn
    | validate source =>
      obtain ⟨m, -, rfl⟩ := mapError_eq_error_iff.1 (map_eq_error_iff.1 he)
      cases hn

end Task.Fails

/-! ## Both formats -/

theorem Line.words_of_task {path value : String} {r : Route} {dryRun : Bool}
    (h : l.task = .ok (.set path value r dryRun)) : l.inner.words = [path, value] := by
  unfold task at h
  rcases hverb : l.verb
  · rw [hverb] at h
    dsimp only at h
    split at h
    · next path' value' hwords =>
      obtain ⟨r', -, heq⟩ := map_eq_ok_iff.1 h
      obtain ⟨rfl, rfl, -, -⟩ := Task.set.inj heq
      exact hwords
    · cases h
  all_goals
    rw [hverb] at h
    cases Except.ok.inj h

theorem Invocation.errors_failed {i : Invocation} {output : String} {log : Option String}
    (hquiet : ∀ e, .event e ∈ trace → (filterFor i.verbose log).admits e = false) :
    (i.failed output trace f).errors log = told (fun _ => false) trace ++ f.report i.format := by
  rw [Report.errors_eq]
  show told (filterFor i.verbose log).admits (trace ++ [.line (f.report i.format)]) = _
  rw [told_append, told_line, told_congr hquiet]

theorem run_with_format {before after words : List String} {m : Format} (ho : Open before)
    (hs : Spells .errorFormat m.name words) (hl : Line.read .nothing (before ++ after) = .ok l)
    (hn : ¬ l.Notes .errorFormat) (s : Surroundings) :
    run (before ++ (words ++ after)) s =
      match l.task with
      | .error misuse => ⟨(Halt.misuse misuse).report, s.folder⟩
      | .ok t => Invocation.run ⟨t, l.verbose, m⟩ s := by
  obtain ⟨l', hl', hp⟩ := Line.exists_read_added ho hs hl hn
  obtain ⟨hverbose, hformat⟩ := hp.format_eq hn
  rw [run, Invocation.ofArguments, hl']
  dsimp only
  rw [hp.task_eq (.inr rfl), hverbose, hformat]
  rcases l.task with misuse | t <;> rfl

/-- Two outcomes of a task that failed, in the two formats: they differ in how the error is written
on standard error, and in nothing else. Both tell the same message; behind it are one line and the
object that is read from this line. -/
structure TellSame (t : Task) (s : Surroundings) (log : Option String) (notices : String)
    (o o' : Outcome) : Prop where
  code : o'.report.code = o.report.code
  output : o'.report.output = o.report.output
  folder : o'.folder = o.folder
  errors : ∃ message line kind path segment,
    o.report.errors log = notices ++ ("Error: " ++ message ++ "\n") ∧
    o'.report.errors log = notices ++ (line ++ "\n") ∧ '\n' ∉ line.toList ∧
    readDocument line = .ok (.object
      [("kind", kind), ("path", path), ("segment", segment), ("message", .string message)]) ∧
    Tells t s kind path segment

/-- An error tells the same in both formats: a message, and as an object on one line, with the kind,
the path and the segment of the library's error. Notices before it tell of a backup that was made on
the way to a file that could not be written; otherwise there are none. The files are those of a
`Folder`. -/
theorem run_tells_same (before after words words' : List String) (l : Line) (s : Surroundings)
    (log : Option String) (ho : Open before) (hl : Line.read .nothing (before ++ after) = .ok l)
    (hn : ¬ l.Notes .errorFormat) (hlength : ∀ word ∈ l.inner.words, word.length < 2 ^ 64)
    (htext : Spells .errorFormat "text" words) (hjson : Spells .errorFormat "json" words')
    (hcode : (run (before ++ (words ++ after)) s).report.code = 1)
    (hquiet : ∀ e, .event e ∈ (run (before ++ (words ++ after)) s).report.trace →
      (filterFor l.verbose log).admits e = false) :
    ∃ t notices, l.task = .ok t ∧
      TellSame t s log notices (run (before ++ (words ++ after)) s)
        (run (before ++ (words' ++ after)) s) ∧
      (notices = "" ∨
        ∃ source q, s.folder.GainsBackup s.time source q
            (run (before ++ (words ++ after)) s).folder ∧
          notices = "Backup created: " ++ backupName s.time source ++ "\n" ∧
          (s.folder.NamesFit →
            LeavesBackup (before ++ after) s (run (before ++ (words ++ after)) s).folder)) := by
  rw [run_with_format (m := .text) ho htext hl hn s] at hcode hquiet ⊢
  rw [run_with_format (m := .json) ho hjson hl hn s]
  rcases ht : l.task with misuse | t
  · rw [ht] at hcode
    cases hcode
  rw [ht] at hcode hquiet
  dsimp only at hcode hquiet ⊢
  obtain ⟨f, trace, d, hfails⟩ := Invocation.exists_fails_of_code hcode
  have hsegment : f.SegmentFits := hfails.segmentFits fun path value r dryRun h => by
    subst h
    exact hlength path (by rw [Line.words_of_task ht]; exact List.mem_cons_self)
  rw [Invocation.run_of_fails (i := ⟨t, l.verbose, .text⟩) hfails] at hquiet ⊢
  rw [Invocation.run_of_fails (i := ⟨t, l.verbose, .json⟩) hfails]
  have hquiet' : ∀ e, .event e ∈ trace → (filterFor l.verbose log).admits e = false := fun e he =>
    hquiet e (List.mem_append_left _ he)
  refine ⟨t, told (fun _ => false) trace, rfl, ⟨rfl, rfl, rfl, ?_⟩, hfails.notices hl ht⟩
  exact ⟨f.message, Json.printLine f.toValue, _, _, _, Invocation.errors_failed hquiet',
    Invocation.errors_failed hquiet', f.newline_not_mem_printLine,
    Failure.readDocument_printLine hsegment, hfails.tells⟩

theorem run_tells_same_lineFeed :
    (∃ t notices, TellSame t oneDocument none notices
      (run ["--error-format=text", "set", "-i", "a.json", "x\ny\".z", "1"] oneDocument)
      (run ["--error-format", "json", "set", "-i", "a.json", "x\ny\".z", "1"] oneDocument)) ∧
    (run ["--error-format", "json", "set", "-i", "a.json", "x\ny\".z", "1"]
      oneDocument).report.errors none =
        "\x7b\"kind\":\"path_not_found\",\"path\":\"x\\ny\\\".z\",\"segment\":0,\"message\":" ++
          "\"Failed to update 'x\\ny\\\".z': path segment 'x\\ny\\\"' not found in " ++
          "'x\\ny\\\".z'\"\x7d\n" := by
  obtain ⟨t, notices, -, hsame, -⟩ := run_tells_same []
    ["set", "-i", "a.json", "x\ny\".z", "1"] ["--error-format=text"] ["--error-format", "json"] _
    oneDocument none (.front List.not_mem_nil (List.forall_mem_nil _) rfl rfl) rfl (by decide)
    (by decide) (.attached .text) (.apart .json) (by decide +kernel) (fun e _ => admits_standard e)
  exact ⟨⟨t, notices, hsame⟩, by decide +kernel⟩

/-- With a backup made before, neither format has the error alone. -/
theorem run_tells_backup_before_error :
    (run ["--error-format", "text", "set", "--backup", "-i", "a.json", "-o", "missing/o.json", "a",
      "true"] oneDocument).report.code = 1 ∧
    (run ["--error-format", "text", "set", "--backup", "-i", "a.json", "-o", "missing/o.json", "a",
      "true"] oneDocument).report.errors none =
        "Backup created: a.backup.20240101_000000.json\n" ++
          "Error: Failed to write file: missing/o.json: No such file or directory (os error 2)\n" ∧
    (run ["--error-format", "json", "set", "--backup", "-i", "a.json", "-o", "missing/o.json", "a",
      "true"] oneDocument).report.errors none =
        "Backup created: a.backup.20240101_000000.json\n" ++
          "\x7b\"kind\":null,\"path\":null,\"segment\":null,\"message\":\"Failed to write " ++
          "file: missing/o.json: No such file or directory (os error 2)\"\x7d\n" := by
  decide +kernel

end Command

end JsonEdit
