import JsonEdit.Proofs.Command.Files

/-!
# Ways of running a command

* A document comes from standard input or from a file, and the text that is made of it goes to
  standard output or to a file, with or without a backup. `s.Ready l D` says that the files are as
  the flags need them and that the document is `D`.
* Whatever the way is, the command does what the library does with the document: it ends well if and
  only if the library gives a text, and then exactly that text is printed or stored
  (`Delivers`); otherwise it tells the library's error and changes nothing (`Refuses`).
* `exists_read_setWords`: every way can be asked for on a command line, with any names of files.

That the files are as the flags need them (`Ready`) is said of a `Folder`, so their names are not
absolute and do not climb out of the place where the command runs.
-/

namespace JsonEdit.Command

variable {l : Line} {t : Task} {s : Surroundings} {D text : String}

/-- The document `D` is where the flags say, and the files that they ask for can be written. -/
structure Surroundings.Ready (s : Surroundings) (l : Line) (D : String) : Prop where
  input : l.inner.value? .input = none → s.input = D.toUTF8
  file : ∀ file, l.inner.value? .input = some file → s.folder.load file = .ok D.toUTF8
  target : ∀ file, l.target? = some file → s.folder.Writable file
  backup : l.copies = true → ∀ file, l.inner.value? .input = some file →
    s.folder.holds (backupName s.time file) = false ∧
      s.folder.Writable (backupName s.time file)

/-- A command that ended well: the text was printed and no file was touched, or it is what the
target holds now. -/
def Delivers (s : Surroundings) (target : Option String) (text : String) (o : Outcome) : Prop :=
  o.report.code = 0 ∧
    match target with
    | none => o.report.output = text ∧ o.folder = s.folder
    | some file => o.report.output = "" ∧ o.folder.load file = .ok text.toUTF8

/-- A command that failed: it tells why in one line behind the events of its log, and neither
printed anything nor touched any file. -/
def Refuses (s : Surroundings) (line : String) (o : Outcome) : Prop :=
  o.report.code = 1 ∧ o.report.output = "" ∧ o.folder = s.folder ∧
    ∃ events : List Event, o.report.trace = events.map .event ++ [.line line]

theorem fromUTF8?_toUTF8 (text : String) : String.fromUTF8? text.toUTF8 = some text := by
  unfold String.fromUTF8?
  exact dif_pos text.isValidUTF8

theorem Surroundings.Ready.document (h : s.Ready l D) :
    s.document (l.inner.value? .input) = .ok D := by
  unfold Surroundings.document decode
  rcases hfile : l.inner.value? .input with _ | file
  · dsimp only
    rw [h.input hfile, fromUTF8?_toUTF8]
  · dsimp only
    rw [h.file file hfile]
    dsimp only
    rw [fromUTF8?_toUTF8]

theorem Surroundings.Ready.exists_copied (h : s.Ready l D) (ht : l.task = .ok t) :
    ∃ d, t.copied s.time s.folder = .ok d := by
  obtain ⟨-, -, hguarded, hboth⟩ := Line.task_eq_ok ht
  unfold Task.copied
  rw [hguarded]
  rcases hcopies : l.copies with _ | _
  · exact ⟨s.folder, rfl⟩
  · obtain ⟨source, hsource⟩ := Option.isSome_iff_exists.1 (hboth hcopies).1
    obtain ⟨hholds, hwritable⟩ := h.backup hcopies source hsource
    obtain ⟨d, hd⟩ := hwritable.exists_save D.toUTF8
    rw [if_pos rfl, hsource]
    exact ⟨d, Action.perform_backUp_eq_ok_iff.2 ⟨hholds, D.toUTF8, h.file source hsource, hd⟩⟩

theorem Task.writable_of_copied {d : Folder} {file : String} (hd : t.copied s.time s.folder = .ok d)
    (h : s.folder.Writable file) : d.Writable file := by
  obtain ⟨p, hp, hfits⟩ := h
  rcases copied_cases hd with ⟨-, rfl⟩ | ⟨source, q, -, -, hdenotes⟩
  · exact ⟨p, hp, hfits⟩
  · exact ⟨p, (hdenotes file p).2 hp, hfits⟩

theorem Surroundings.Ready.delivers (h : s.Ready l D) (ht : l.task = .ok t)
    (htext : t.result D = .ok text) (verbose : Bool) (format : Format) :
    Delivers s l.target? text (Invocation.run ⟨t, verbose, format⟩ s) := by
  obtain ⟨hsource, htarget, -, hboth⟩ := Line.task_eq_ok ht
  have hdocument : s.document t.source = .ok D := hsource ▸ h.document
  obtain ⟨d, hd⟩ := h.exists_copied ht
  rw [← htarget]
  rcases hfile : t.target? with _ | file
  · have hd' : t.written text d = .ok d := by rw [Task.written, hfile]
    obtain ⟨hcode, houtput, hfolder⟩ :=
      Invocation.run_done (i := ⟨t, verbose, format⟩) hdocument htext hd hd'
    rw [if_pos hfile] at houtput
    exact ⟨hcode, houtput, hfolder.trans (unchanged_of_done ht hd hd' hfile)⟩
  · have hwritable : d.Writable file :=
      Task.writable_of_copied hd (h.target file (htarget.symm.trans hfile))
    obtain ⟨d', hd'⟩ := Task.exists_written text hfile hwritable
    obtain ⟨hcode, houtput, hfolder⟩ :=
      Invocation.run_done (i := ⟨t, verbose, format⟩) hdocument htext hd hd'
    rw [if_neg (by simp [hfile])] at houtput
    refine ⟨hcode, houtput, ?_⟩
    rw [hfolder]
    rw [Task.written, hfile] at hd'
    exact Folder.load_of_save (Action.perform_write_eq_ok_iff.1 hd')

theorem Surroundings.Ready.refuses {e : EditError} (h : s.Ready l D) (ht : l.task = .ok t)
    (he : t.result D = .error e) (verbose : Bool) (format : Format) :
    Refuses s ((Failure.edit t.attempt e).report format)
      (Invocation.run ⟨t, verbose, format⟩ s) := by
  obtain ⟨hsource, -, -, -⟩ := Line.task_eq_ok ht
  have hdocument : s.document t.source = .ok D := hsource ▸ h.document
  rw [Invocation.run_refused (i := ⟨t, verbose, format⟩) hdocument he]
  exact ⟨rfl, rfl, rfl, _, rfl⟩

/-! ## Command lines -/

/-- The command does what the library did: it delivers the text `x`, or tells the error `x`. -/
structure Answers (s : Surroundings) (target : Option String) (x : Except EditError String)
    (attempt : Attempt) (format : Format) (o : Outcome) : Prop where
  code_eq_zero_iff : o.report.code = 0 ↔ ∃ text, x = .ok text
  delivers : ∀ text, x = .ok text → Delivers s target text o
  refuses : ∀ e, x = .error e → Refuses s ((Failure.edit attempt e).report format) o

theorem run_of_read {words : List String} (hl : Line.read .nothing words = .ok l)
    (ht : l.task = .ok t) (s : Surroundings) :
    run words s = Invocation.run ⟨t, l.verbose, l.format⟩ s := by
  rw [run, Invocation.ofArguments, hl]
  dsimp only
  rw [ht]

theorem Surroundings.Ready.answers {words : List String} (h : s.Ready l D)
    (hl : Line.read .nothing words = .ok l) (ht : l.task = .ok t) :
    Answers s l.target? (t.result D) t.attempt l.format (run words s) := by
  rw [run_of_read hl ht s]
  have hdelivers := fun text (htext : t.result D = .ok text) =>
    h.delivers ht htext l.verbose l.format
  have hrefuses := fun e (he : t.result D = .error e) => h.refuses ht he l.verbose l.format
  refine ⟨?_, hdelivers, hrefuses⟩
  rcases hresult : t.result D with e | text
  · rw [(hrefuses e hresult).1]
    simp
  · rw [(hdelivers text hresult).1]
    simp

/-- Whatever way a command is run, it gives the library's answer. The path and the value stand
behind two dashes and may be any texts. The files that are named lie below the place of the run, as
`Ready` has them in a `Folder`. -/
theorem run_answers :
    (∀ (words : List String) (l : Line) (r : Route) (s : Surroundings) (D P V : String),
      Line.read .nothing words = .ok l → "--" ∉ words → l.verb = .set → l.inner.words = [] →
      Line.route l.inner = .ok r → s.Ready l D →
      Answers s l.target? (editDocument D P V) (.update P) l.format
        (run (words ++ ["--", P, V]) s)) ∧
    (∀ (words : List String) (l : Line) (s : Surroundings) (D : String),
      Line.read .nothing words = .ok l → l.verb = .format → s.Ready l D →
      Answers s l.target? (canonical D) .reformat l.format (run words s)) ∧
    ∀ (words : List String) (l : Line) (s : Surroundings) (D : String),
      Line.read .nothing words = .ok l → l.verb = .validate → s.Ready l D →
      ((run words s).report.code = 0 ↔ checkDocument D = .ok ()) := by
  refine ⟨fun words l r s D P V hl hdashes hverb hwords hr h => ?_,
    fun words l s D hl hverb h => ?_, fun words l s D hl hverb h => ?_⟩
  · have hread := Line.read_append hdashes hl hverb hwords P V
    have htask : (l.withWords P V).task = .ok (.set P V r (l.inner.has .dryRun)) := by
      have hverb' : (l.withWords P V).verb = .set := hverb
      have hroute : Line.route (l.withWords P V).inner = .ok r := hr
      rw [Line.task, hverb']
      dsimp only [Line.withWords] at hroute ⊢
      rw [hroute]
      rfl
    have hready : s.Ready (l.withWords P V) D := ⟨h.input, h.file, h.target, h.backup⟩
    exact hready.answers hread htask
  · have htask : l.task = .ok (.format (l.inner.value? .input) (l.inner.value? .output)) := by
      rw [Line.task, hverb]
    exact h.answers hl htask
  · have htask : l.task = .ok (.validate (l.inner.value? .input)) := by
      rw [Line.task, hverb]
    rw [(h.answers hl htask).code_eq_zero_iff, Task.result]
    rcases checkDocument D with e | _ <;> simp [Except.map]

theorem ready_oneDocument (verb : Verb) :
    oneDocument.Ready ⟨.nothing, verb, ⟨[], [(.input, "a.json")], [], none⟩⟩
      "\x7b\"a\":null\x7d" := by
  refine ⟨nofun, fun file hfile => ?_, fun file hfile => ?_, fun hcopies => ?_⟩
  · obtain rfl : "a.json" = file := Option.some.inj hfile
    rfl
  · cases verb <;> cases hfile
  · cases verb <;> cases hcopies

theorem ready_oneDocument_inPlace :
    oneDocument.Ready ⟨.nothing, .set, ⟨[.inPlace, .backup], [(.input, "a.json")], [], none⟩⟩
      "\x7b\"a\":null\x7d" := by
  have hbackup : oneDocument.folder.Denotes (backupName oneDocument.time "a.json")
      ["a.backup.20240101_000000.json"] := ⟨by decide, by decide, by decide⟩
  refine ⟨nofun, fun file hfile => ?_, fun file hfile => ?_, fun _ file hfile => ?_⟩
  · obtain rfl : "a.json" = file := Option.some.inj hfile
    rfl
  · obtain rfl : "a.json" = file := Option.some.inj hfile
    exact ⟨["a.json"], ⟨by decide, by decide, by decide⟩, by decide⟩
  · obtain rfl : "a.json" = file := Option.some.inj hfile
    exact ⟨by decide, _, hbackup, by decide⟩

theorem run_answers_oneDocument :
    (run ["set", "-i", "a.json", "--in-place", "--backup", "--", "a", "-"]
      oneDocument).folder.load "a.json" = .ok "\x7b\n  \"a\": \"-\"\n\x7d".toUTF8 ∧
    (run ["fmt", "-i", "a.json"] oneDocument).report.output = "\x7b\n  \"a\": null\n\x7d" ∧
    (run ["validate", "-i", "a.json"] oneDocument).report.code = 0 := by
  obtain ⟨hset, hformat, hvalidate⟩ := run_answers
  have hedit : editDocument "\x7b\"a\":null\x7d" "a" "-" =
      .ok "\x7b\n  \"a\": \"-\"\n\x7d" := by decide +kernel
  have hcanonical : canonical "\x7b\"a\":null\x7d" = .ok "\x7b\n  \"a\": null\n\x7d" := by
    decide +kernel
  have hcheck : checkDocument "\x7b\"a\":null\x7d" = .ok () := by decide +kernel
  refine ⟨?_, ?_, ?_⟩
  · exact ((hset ["set", "-i", "a.json", "--in-place", "--backup"] _ _ oneDocument _ "a" "-" rfl
      (by decide) rfl rfl rfl ready_oneDocument_inPlace).delivers _ hedit).2.2
  · exact ((hformat ["fmt", "-i", "a.json"] _ oneDocument _ rfl rfl
      (ready_oneDocument .format)).delivers _ hcanonical).2.1
  · exact (hvalidate ["validate", "-i", "a.json"] _ oneDocument _ rfl rfl
      (ready_oneDocument .validate)).2 hcheck

/-! ## Flags in words -/

/-- Where the text of an edit goes. -/
inductive Sink where
  | output
  | dryRun
  | file (name : String)
  | inPlace (backup : Bool)

/-- The flag for the file that a document comes from. -/
def inputWords : Option String → List String
  | none => []
  | some file => ["--" ++ Flag.input.long ++ "=" ++ file]

namespace Sink

def words : Sink → List String
  | output => []
  | dryRun => ["--dry-run"]
  | file name => ["--" ++ Flag.output.long ++ "=" ++ name]
  | inPlace false => ["--in-place"]
  | inPlace true => ["--in-place", "--backup"]

def isInPlace : Sink → Bool
  | inPlace _ => true
  | _ => false

/-- The document's own file is copied before. -/
def copies : Sink → Bool
  | inPlace backup => backup
  | _ => false

/-- The file that is written. -/
def target? (source : Option String) : Sink → Option String
  | file name => some name
  | inPlace _ => source
  | _ => none

/-- What the words for a source and a sink give. -/
def given (source : Option String) : Sink → Given
  | output => ⟨[], (source.map (Flag.input, ·)).toList, [], none⟩
  | dryRun => ⟨[.dryRun], (source.map (Flag.input, ·)).toList, [], none⟩
  | file name => ⟨[], (source.map (Flag.input, ·)).toList ++ [(.output, name)], [], none⟩
  | inPlace false => ⟨[.inPlace], (source.map (Flag.input, ·)).toList, [], none⟩
  | inPlace true => ⟨[.inPlace, .backup], (source.map (Flag.input, ·)).toList, [], none⟩

end Sink

theorem Given.add_attached {g : Given} {f : Flag} (hf : f = .input ∨ f = .output) (v : String) :
    g.add (.behind .set) ("--" ++ f.long ++ "=" ++ v) = g.addFlag f (some v) := by
  have htext : ("--" ++ f.long ++ "=" ++ v).toList =
      '-' :: '-' :: ((f.long ++ "=").toList ++ v.toList) := by
    rw [String.toList_append, String.append_assoc, String.toList_append]
    rfl
  have hsplit : splitLong ((f.long ++ "=").toList ++ v.toList) = (f.long, some v) := by
    have hv : String.ofList v.toList = v := String.ofList_toList
    rcases hf with rfl | rfl
    · exact congrArg (fun w => ("input", some w)) hv
    · exact congrArg (fun w => ("output", some w)) hv
  unfold add
  rw [htext]
  show addLong _ _ _ _ = _
  unfold addLong
  rw [hsplit]
  rcases hf with rfl | rfl <;> rfl

theorem attached_ne_dashes (f : Flag) (v : String) : "--" ++ f.long ++ "=" ++ v ≠ "--" := by
  intro h
  have hlength := congrArg String.length h
  simp only [String.length_append] at hlength
  have hone : "=".length = 1 := rfl
  omega

theorem addAll_inputWords (source : Option String) (words : List String) :
    Given.nothing.addAll (.behind .set) (inputWords source ++ words) =
      Given.addAll (.behind .set) ⟨[], (source.map (Flag.input, ·)).toList, [], none⟩ words := by
  rcases source with _ | file
  · rfl
  · show Given.addAll _ _ (("--" ++ Flag.input.long ++ "=" ++ file) :: words) = _
    rw [Given.addAll_cons (attached_ne_dashes .input file), Given.add_attached (.inl rfl)]
    rfl

theorem Sink.addAll_words (source : Option String) (sink : Sink) :
    Given.addAll (.behind .set) ⟨[], (source.map (Flag.input, ·)).toList, [], none⟩ sink.words =
      .ok (sink.given source) := by
  rcases source with _ | file <;> rcases sink with _ | _ | name | _ | _
  case none.file | some.file =>
    rw [words, Given.addAll_cons (attached_ne_dashes .output name), Given.add_attached (.inr rfl)]
    rfl
  all_goals rfl

theorem exists_read_setWords (source : Option String) (sink : Sink)
    (h : sink.isInPlace = true → source.isSome = true) :
    ∃ l r, Line.read .nothing ("set" :: (inputWords source ++ sink.words)) = .ok l ∧
      l.verb = .set ∧ l.inner.words = [] ∧ Line.route l.inner = .ok r ∧
      l.inner.value? .input = source ∧ l.target? = sink.target? source ∧
      l.copies = sink.copies := by
  have hread : Line.read .nothing ("set" :: (inputWords source ++ sink.words)) =
      .ok ⟨.nothing, .set, sink.given source⟩ := by
    rw [Line.read_verb rfl rfl, addAll_inputWords, sink.addAll_words]
    rfl
  rcases source with _ | file <;> rcases sink with _ | _ | name | _ | _
  case none.inPlace.false | none.inPlace.true => cases h rfl
  all_goals exact ⟨_, _, hread, rfl, rfl, rfl, rfl, rfl, rfl⟩

end JsonEdit.Command
