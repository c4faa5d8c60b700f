import JsonEdit.Proofs.Command.Ways

/-!
# How a run ends

* `t.Fails s f trace d`: in the surroundings `s` the task `t` ends with the failure `f`. By then
  `trace` has been told, and the files are `d`. There is a case for each step that can fail.
* `t.Succeeds s output trace d`: the task is done to its end and prints `output`.
* A task ends in just one of these ways (`fails_or_succeeds`), and its report follows from the way
  (`run_of_fails`, `run_of_succeeds`). Neither hangs on the format of errors, nor on how much of the
  log is to be shown.
-/

namespace JsonEdit.Command

/-- How a task fails, what is told up to then, and the files that are left. -/
inductive Task.Fails (t : Task) (s : Surroundings) : Failure → List Entry → Folder → Prop where
  | unread {f : Failure} (h : s.document t.source = .error f) : Fails t s f [] s.folder
  | refused {document : String} {e : EditError} (h : s.document t.source = .ok document)
    (he : t.result document = .error e) :
    Fails t s (.edit t.attempt e) (t.entries document) s.folder
  | uncopied {document text : String} {f : Failure} (h : s.document t.source = .ok document)
    (htext : t.result document = .ok text) (hf : t.copied s.time s.folder = .error f) :
    Fails t s f (t.entries document) s.folder
  | unwritten {document text : String} {f : Failure} {d : Folder}
    (h : s.document t.source = .ok document) (htext : t.result document = .ok text)
    (hd : t.copied s.time s.folder = .ok d) (hf : t.written text d = .error f) :
    Fails t s f (t.entries document ++ (t.backUps s.time).flatMap Action.entries) d

/-- What a task that is done to its end prints and tells, and the files that are left. -/
inductive Task.Succeeds (t : Task) (s : Surroundings) : String → List Entry → Folder → Prop where
  | done {document text : String} {d d' : Folder} (h : s.document t.source = .ok document)
    (htext : t.result document = .ok text) (hd : t.copied s.time s.folder = .ok d)
    (hd' : t.written text d = .ok d') :
    Succeeds t s (if t.target? = none then text else "")
      (t.entries document ++ (t.plan s.time text).flatMap Action.entries) d'

variable {words : List String} {l : Line} {t : Task} {i : Invocation} {s : Surroundings}
  {f : Failure} {output : String} {trace : List Entry} {d : Folder}

/-! ## Tasks -/

theorem Task.fails_or_succeeds (t : Task) (s : Surroundings) :
    (∃ f trace d, t.Fails s f trace d) ∨ ∃ output trace d, t.Succeeds s output trace d := by
  rcases h : s.document t.source with f | document
  · exact .inl ⟨_, _, _, .unread h⟩
  rcases htext : t.result document with e | text
  · exact .inl ⟨_, _, _, .refused h htext⟩
  rcases hd : t.copied s.time s.folder with f | d
  · exact .inl ⟨_, _, _, .uncopied h htext hd⟩
  rcases hd' : t.written text d with f | d'
  · exact .inl ⟨_, _, _, .unwritten h htext hd hd'⟩
  · exact .inr ⟨_, _, _, .done h htext hd hd'⟩

theorem Invocation.run_of_fails (h : i.task.Fails s f trace d) :
    i.run s = ⟨i.failed "" trace f, d⟩ := by
  cases h with
  | unread h => exact run_unread h
  | refused h he => exact run_refused h he
  | uncopied h htext hf =>
    rw [run_of_result h htext, Task.performAll_plan, hf]
    dsimp only [finished]
    rw [List.flatMap_nil, List.append_nil]
    rfl
  | unwritten h htext hd hf =>
    rw [run_of_result h htext, Task.performAll_plan, hd]
    dsimp only
    rw [hf]
    dsimp only [finished]
    rw [Task.output_backUps]

theorem Invocation.run_of_succeeds (h : i.task.Succeeds s output trace d) :
    i.run s = ⟨⟨0, output, trace, i.verbose⟩, d⟩ := by
  cases h with
  | done h htext hd hd' =>
    rw [run_of_result h htext, Task.performAll_plan, hd]
    dsimp only
    rw [hd']
    dsimp only [finished]
    rw [Task.output_plan]

theorem Invocation.exists_fails_of_code (h : (i.run s).report.code = 1) :
    ∃ f trace d, i.task.Fails s f trace d := by
  rcases i.task.fails_or_succeeds s with hfails | ⟨output, trace, d, hdone⟩
  · exact hfails
  · rw [run_of_succeeds hdone] at h
    cases h

theorem Invocation.exists_succeeds_of_code (h : (i.run s).report.code = 0) :
    ∃ output trace d, i.task.Succeeds s output trace d := by
  rcases i.task.fails_or_succeeds s with ⟨f, trace, d, hfails⟩ | hdone
  · rw [run_of_fails hfails] at h
    cases h
  · exact hdone

/-! ## What is told -/

/-- A part of a trace, where an event is shown if `p` holds. -/
def Entry.shown (p : Event → Bool) : Entry → String
  | event e => if p e then e.line else ""
  | line text => text

/-- The text of a trace with the events for which `p` holds. -/
def told (p : Event → Bool) (trace : List Entry) : String :=
  String.join (trace.map (Entry.shown p))

theorem Report.errors_eq (r : Report) (log : Option String) :
    r.errors log = told (filterFor r.verbose log).admits r.trace := by
  have hrender : Entry.render (filterFor r.verbose log) =
      Entry.shown (filterFor r.verbose log).admits := by
    funext entry
    cases entry <;> rfl
  rw [errors, hrender, told]

theorem told_append (p : Event → Bool) (trace trace' : List Entry) :
    told p (trace ++ trace') = told p trace ++ told p trace' := by
  rw [told, List.map_append, String.join_append]
  rfl

theorem told_line (p : Event → Bool) (text : String) : told p [.line text] = text := by
  show "" ++ text = text
  rw [String.empty_append]

theorem told_congr {p q : Event → Bool} (h : ∀ e, .event e ∈ trace → p e = q e) :
    told p trace = told q trace := by
  rw [told, told, List.map_congr_left fun entry hentry => ?_]
  cases entry with
  | line text => rfl
  | event e => rw [Entry.shown, Entry.shown, h e hentry]

theorem told_events (events : List Event) : told (fun _ => false) (events.map .event) = "" := by
  induction events with
  | nil => rfl
  | cons e events ih =>
    rw [List.map_cons, ← List.singleton_append, told_append, ih]
    rfl

theorem admits_standard (e : Event) : Filter.standard.admits e = false := by
  cases e <;> rfl

theorem run_cases (hl : Line.read .nothing words = .ok l) (s : Surroundings) :
    (∃ t, l.task = .ok t ∧ run words s = Invocation.run ⟨t, l.verbose, l.format⟩ s) ∨
      ∃ m, run words s = ⟨(Halt.misuse m).report, s.folder⟩ := by
  rcases ht : l.task with m | t
  · refine .inr ⟨m, ?_⟩
    rw [run, Invocation.ofArguments, hl]
    dsimp only
    rw [ht]
  · exact .inl ⟨t, rfl, run_of_read hl ht s⟩

end JsonEdit.Command
