import JsonEdit.Command.Report

/-!
# Running a command

`run` is the whole program as a function of its surroundings: the words of the command line, what
standard input holds, the files, and the time. It gives the report and the files as they are
afterwards.

The files are those of a `Folder`, with its restrictions: no folder is empty, and names that begin
with a slash or climb out of the place where the command runs stand for no file. The text that is
asked for by `--help` is not modelled (`helpText`), nor is `help` as the name of a command.
-/

namespace JsonEdit.Command

/-- What a command finds when it starts. -/
structure Surroundings where
  input : ByteArray
  /-- All files there are; a `Folder` has neither empty folders nor anything above it. -/
  folder : Folder
  /-- The time as it stands in the names of backups. -/
  time : String

/-! ## Reading the document -/

/-- Documents are text; `file` is where the bytes are from. -/
def decode (file : Option String) (bytes : ByteArray) : Except Failure String :=
  match String.fromUTF8? bytes with
  | some text => .ok text
  | none => .error (.unreadable file .notText)

def Surroundings.document (s : Surroundings) : Option String → Except Failure String
  | none => decode none s.input
  | some file =>
    match s.folder.load file with
    | .error _ => .error (.noFile file)
    | .ok bytes => decode (some file) bytes

/-! ## Doing a plan -/

/-- The files once an action is done. -/
def Action.perform (d : Folder) : Action → Except Failure Folder
  | backUp file backup =>
    if d.holds backup then .error (.backupExists backup)
    else
      match d.load file with
      | .error fault => .error (.notBackedUp file backup fault)
      | .ok content => (d.save backup content).mapError (.notBackedUp file backup)
  | write file text => (d.save file text.toUTF8).mapError (.unwritable file)
  | print _ => .ok d
  | notify _ => .ok d

/-- How far a plan was done, and what stopped it. -/
structure Progress where
  folder : Folder
  done : List Action
  failure : Option Failure

def performAll (d : Folder) : List Action → Progress
  | [] => ⟨d, [], none⟩
  | a :: rest =>
    match a.perform d with
    | .error f => ⟨d, [], some f⟩
    | .ok d =>
      let p := performAll d rest
      ⟨p.folder, a :: p.done, p.failure⟩

/-! ## Running -/

structure Outcome where
  report : Report
  folder : Folder

def Invocation.run (i : Invocation) (s : Surroundings) : Outcome :=
  match s.document i.task.source with
  | .error f => ⟨i.unread f, s.folder⟩
  | .ok document =>
    match i.task.actions s.time document with
    | .error e => ⟨i.refused document e, s.folder⟩
    | .ok actions =>
      let p := performAll s.folder actions
      ⟨i.finished document p.done p.failure, p.folder⟩

/-- The program. Files are found only below the place where it runs, by names that stay there. -/
def run (words : List String) (s : Surroundings) : Outcome :=
  match Invocation.ofArguments words with
  | .error h => ⟨h.report, s.folder⟩
  | .ok i => i.run s

end JsonEdit.Command
