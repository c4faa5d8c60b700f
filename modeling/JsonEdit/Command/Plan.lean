import JsonEdit.Command.Arguments
import JsonEdit.Command.Backup
import JsonEdit.Command.Log
import JsonEdit.Edit.Document

/-!
# What a command does

* A task turns the document that it was given into a plan, a list of actions. Whether there is a
  plan and what it writes depends on the document alone and not on any file.
* The actions of a plan are meant to be done one after the other until one fails.
-/

namespace JsonEdit.Command

inductive Action where
  | backUp (file backup : String)
  | write (file text : String)
  /-- Prints a text to standard output. -/
  | print (text : String)
  | notify (notice : String)
  deriving DecidableEq, Repr

/-- What an action prints. -/
def Action.output : Action → String
  | print text => text
  | _ => ""

/-! ## Plans -/

/-- Leaves a text in a file, or prints it. -/
def deliver (text : String) : Option String → List Action
  | some file => [.write file text]
  | none => [.print text]

def updated (path file : String) : Action :=
  .notify ("Updated '" ++ path ++ "' in " ++ file)

/-- Takes an edited document along its route. -/
def Route.actions (time path text : String) : Route → List Action
  | through _ none => [.print text]
  | through _ (some file) => [.write file text, updated path file]
  | guarded source file =>
    [.backUp source (backupName time source), .write file text, updated path file]

/-- What an edit tells: the container once it is found, then the kind of the value. -/
def editEvents (document path value : String) : List Event :=
  match findTarget document path with
  | .error _ => []
  | .ok (_, target) =>
    [.targetFound target.path.display target.parent.kind, .valueInferred (infer value).kind]

/-- The name of a document in messages. -/
def documentName (source : Option String) : String :=
  source.getD "<stdin>"

namespace Task

def source : Task → Option String
  | set _ _ route _ => route.source
  | format source _ => source
  | validate source => source

/-- The attempt that a task makes with its document. -/
def attempt : Task → Attempt
  | set path .. => .update path
  | format .. => .reformat
  | validate source => .check (documentName source)

/-- The actions of a task for a document. -/
def actions (time document : String) : Task → Except EditError (List Action)
  | set path value route dryRun =>
    (editDocument document path value).map fun text =>
      if dryRun then [.print text] else route.actions time path text
  | format _ target => (canonical document).map (deliver · target)
  | validate source =>
    (checkDocument document).map fun _ =>
      [.print ("✓ " ++ documentName source ++ " is valid JSON\n")]

/-- What a task tells about its work on a document. -/
def events (document : String) : Task → List Event
  | set path value _ dryRun =>
    editEvents document path value ++
      if dryRun && (editDocument document path value).toBool then [.dryRun path] else []
  | _ => []

end Task

end JsonEdit.Command
