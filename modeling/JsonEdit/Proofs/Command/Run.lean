import JsonEdit.Command.Run
import JsonEdit.Proofs.Command.Folder
import JsonEdit.Proofs.Outcome

/-!
# What a run does

* A task makes a text of its document (`Task.result`), and has a target if the text is written to a
  file. It may also have a file copied before (`Task.guarded?`).
* The plan of a task is done in two steps that can fail, the copy (`Task.copied`) and the text
  (`Task.written`). `performAll_plan` tells where the plan stops and what was done by then.
* Only a run that is done to its end has the exit code zero (`Invocation.run_done`). All others
  print nothing, and only one that stops behind the copy leaves other files than it found.
-/

namespace JsonEdit.Command

/-! ## Tasks -/

/-- The file that a route leads to. -/
def Route.target? : Route → Option String
  | through _ target => target
  | guarded _ target => some target

/-- The file that is copied before another one is written. -/
def Route.guarded? : Route → Option String
  | through .. => none
  | guarded source _ => some source

namespace Task

/-- The text that a task makes of a document. -/
def result (document : String) : Task → Except EditError String
  | set path value .. => editDocument document path value
  | format .. => canonical document
  | validate source =>
    (checkDocument document).map fun _ => "✓ " ++ documentName source ++ " is valid JSON\n"

/-- The file that the text is written to. Without one, the text is printed. -/
def target? : Task → Option String
  | set _ _ route dryRun => if dryRun then none else route.target?
  | format _ target => target
  | validate _ => none

/-- The file that is copied before the text is written. -/
def guarded? : Task → Option String
  | set _ _ route dryRun => if dryRun then none else route.guarded?
  | _ => none

def backUps (time : String) (t : Task) : List Action :=
  match t.guarded? with
  | some source => [.backUp source (backupName time source)]
  | none => []

/-- What is told once the text is written. -/
def notices : Task → List Action
  | set path _ route dryRun =>
    match (if dryRun then none else route.target?) with
    | some file => [updated path file]
    | none => []
  | _ => []

def plan (time text : String) (t : Task) : List Action :=
  t.backUps time ++ (deliver text t.target? ++ t.notices)

theorem actions_eq (time document : String) (t : Task) :
    t.actions time document = (t.result document).map (t.plan time · ) := by
  rcases t with ⟨path, value, route, dryRun⟩ | ⟨source, target⟩ | source
  · unfold actions result plan backUps notices target? guarded?
    rcases dryRun with _ | _
    · rcases route with ⟨source, _ | file⟩ | ⟨source, file⟩ <;> rfl
    · rfl
  · unfold actions result plan backUps notices target? guarded?
    dsimp only
    rcases canonical document with e | text
    · rfl
    · exact congrArg Except.ok (List.append_nil _).symm
  · unfold actions result
    dsimp only
    rcases checkDocument document with e | _ <;> rfl

/-! ## Doing a plan -/

variable {time text : String} {d d' : Folder}

/-- The files behind the copy, if one is asked for. -/
def copied (time : String) (t : Task) (d : Folder) : Except Failure Folder :=
  match t.guarded? with
  | none => .ok d
  | some source => (Action.backUp source (backupName time source)).perform d

/-- The files once the text is written, if it is written to a file. -/
def written (text : String) (t : Task) (d : Folder) : Except Failure Folder :=
  match t.target? with
  | none => .ok d
  | some file => (Action.write file text).perform d

theorem performAll_notices (d : Folder) (t : Task) :
    performAll d t.notices = ⟨d, t.notices, none⟩ := by
  unfold notices
  split
  · split <;> rfl
  · rfl

theorem performAll_deliver (d : Folder) (text : String) (t : Task) :
    performAll d (deliver text t.target? ++ t.notices) =
      match t.written text d with
      | .error f => ⟨d, [], some f⟩
      | .ok d' => ⟨d', deliver text t.target? ++ t.notices, none⟩ := by
  unfold written deliver
  rcases t.target? with _ | file
  · show performAll d (.print text :: t.notices) = _
    rw [performAll, Action.perform]
    dsimp only
    rw [performAll_notices]
    rfl
  · show performAll d (.write file text :: t.notices) = _
    rw [performAll]
    dsimp only
    rcases (Action.write file text).perform d with f | d'
    · rfl
    · dsimp only
      rw [performAll_notices]
      rfl

/-- A plan stops at the copy, or behind it at the text, or is done to its end. -/
theorem performAll_plan (d : Folder) (time text : String) (t : Task) :
    performAll d (t.plan time text) =
      match t.copied time d with
      | .error f => ⟨d, [], some f⟩
      | .ok d₁ =>
        match t.written text d₁ with
        | .error f => ⟨d₁, t.backUps time, some f⟩
        | .ok d₂ => ⟨d₂, t.plan time text, none⟩ := by
  unfold plan copied backUps
  rcases t.guarded? with _ | source
  · dsimp only
    rw [List.nil_append, performAll_deliver]
  · dsimp only
    rw [List.singleton_append, performAll]
    rcases (Action.backUp source (backupName time source)).perform d with f | d₁
    · rfl
    · dsimp only
      rw [performAll_deliver]
      rcases t.written text d₁ with f | d₂ <;> rfl

/-! ## Output -/

theorem output_backUps (time : String) (t : Task) :
    String.join ((t.backUps time).map Action.output) = "" := by
  unfold backUps
  split <;> rfl

theorem output_plan (time text : String) (t : Task) :
    String.join ((t.plan time text).map Action.output) =
      if t.target? = none then text else "" := by
  have hnotices : t.notices.map Action.output = [] ∨ t.notices.map Action.output = [""] := by
    unfold notices
    split
    · split
      · exact .inr rfl
      · exact .inl rfl
    · exact .inl rfl
  unfold plan
  rw [List.map_append, List.map_append, String.join_append, output_backUps]
  rcases t.target? with _ | file
  · rcases hnotices with h | h <;> simp [h, deliver, Action.output, String.join]
  · rcases hnotices with h | h <;> simp [h, deliver, Action.output, String.join]

end Task

/-! ## Ends of a run -/

namespace Invocation

variable {i : Invocation} {s : Surroundings} {document text : String} {d d' : Folder}

theorem run_unread {f : Failure} (h : s.document i.task.source = .error f) :
    i.run s = ⟨i.unread f, s.folder⟩ := by
  rw [run, h]

theorem run_refused {e : EditError} (h : s.document i.task.source = .ok document)
    (he : i.task.result document = .error e) : i.run s = ⟨i.refused document e, s.folder⟩ := by
  rw [run, h]
  dsimp only
  rw [Task.actions_eq, he]
  rfl

theorem run_of_result (h : s.document i.task.source = .ok document)
    (htext : i.task.result document = .ok text) :
    i.run s =
      ⟨i.finished document (performAll s.folder (i.task.plan s.time text)).done
        (performAll s.folder (i.task.plan s.time text)).failure,
      (performAll s.folder (i.task.plan s.time text)).folder⟩ := by
  rw [run, h]
  dsimp only
  rw [Task.actions_eq, htext]
  rfl

theorem run_uncopied {f : Failure} (h : s.document i.task.source = .ok document)
    (htext : i.task.result document = .ok text) (hd : i.task.copied s.time s.folder = .error f) :
    (i.run s).report.code = 1 ∧ (i.run s).report.output = "" ∧ (i.run s).folder = s.folder := by
  rw [run_of_result h htext, Task.performAll_plan, hd]
  exact ⟨rfl, rfl, rfl⟩

theorem run_unwritten {f : Failure} (h : s.document i.task.source = .ok document)
    (htext : i.task.result document = .ok text) (hd : i.task.copied s.time s.folder = .ok d)
    (hf : i.task.written text d = .error f) :
    (i.run s).report.code = 1 ∧ (i.run s).report.output = "" ∧ (i.run s).folder = d := by
  rw [run_of_result h htext, Task.performAll_plan, hd]
  dsimp only
  rw [hf]
  exact ⟨rfl, Task.output_backUps s.time i.task, rfl⟩

theorem run_done (h : s.document i.task.source = .ok document)
    (htext : i.task.result document = .ok text) (hd : i.task.copied s.time s.folder = .ok d)
    (hd' : i.task.written text d = .ok d') :
    (i.run s).report.code = 0 ∧
      (i.run s).report.output = (if i.task.target? = none then text else "") ∧
      (i.run s).folder = d' := by
  rw [run_of_result h htext, Task.performAll_plan, hd]
  dsimp only
  rw [hd']
  exact ⟨rfl, Task.output_plan s.time text i.task, rfl⟩

end Invocation

end JsonEdit.Command
