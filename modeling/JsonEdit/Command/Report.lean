import JsonEdit.Command.Plan

/-!
# What a command reports

* A `Report` is what a command prints, with its exit code. The log is kept apart from the rest until
  `errors` writes standard error, so only that text depends on the filter.
* A command ends in one of three ways: its document is not to be had, there is no plan for it, or
  the plan was done up to some action.
* Where nothing is run, the exit code and the text of `--version` are exact. The texts of `--help`,
  one for the program and one for each command, and those of misused lines are left out: `helpText`
  and `Misuse.message` stand for them. So is the command `help`, whose line is misused here.
-/

namespace JsonEdit.Command

/-- A part of what is told on standard error. -/
inductive Entry where
  | event (e : Event)
  | line (text : String)
  deriving DecidableEq, Repr

structure Report where
  code : Nat
  output : String
  trace : List Entry
  /-- The command was asked to tell all about its work. -/
  verbose : Bool
  deriving DecidableEq, Repr

/-- What is told of an action once it is done. -/
def Action.entries : Action → List Entry
  | backUp _ backup =>
    [.event (.backupWritten backup), .line ("Backup created: " ++ backup ++ "\n")]
  | write file text => [.event (.fileWritten file text.utf8ByteSize)]
  | print _ => []
  | notify notice => [.line (notice ++ "\n")]

/-- What is told of a document and of the work on it. -/
def Task.entries (document : String) (t : Task) : List Entry :=
  let read :=
    match t.source with
    | none => Event.inputRead document.utf8ByteSize
    | some file => .fileRead file document.utf8ByteSize
  (read :: t.events document).map .event

/-! ## Ends of a command -/

namespace Invocation

/-- A failure ends a command with code one. -/
def failed (i : Invocation) (output : String) (trace : List Entry) (f : Failure) : Report :=
  ⟨1, output, trace ++ [.line (f.report i.format)], i.verbose⟩

/-- There is no document. -/
def unread (i : Invocation) (f : Failure) : Report :=
  i.failed "" [] f

/-- There is no plan for the document. -/
def refused (i : Invocation) (document : String) (e : EditError) : Report :=
  i.failed "" (i.task.entries document) (.edit i.task.attempt e)

/-- Some actions were done, all of the plan if nothing failed. -/
def finished (i : Invocation) (document : String) (done : List Action) (failure : Option Failure) :
    Report :=
  let output := String.join (done.map Action.output)
  let trace := i.task.entries document ++ done.flatMap Action.entries
  match failure with
  | some f => i.failed output trace f
  | none => ⟨0, output, trace, i.verbose⟩

end Invocation

def versionText : String := "confpatch 0.1.0\n"

/-- Stands for the text of `--help`. That text is not modelled: it has other words, and is not the
same behind each command. -/
def helpText : String :=
  "Update values in JSON configuration files by path\n\n" ++
    "confpatch set PATH VALUE [-i FILE] [-o FILE | --in-place] [--backup] [--dry-run]\n" ++
    "confpatch fmt [-i FILE] [-o FILE]\n" ++
    "confpatch validate [-i FILE]\n\n" ++
    "Everywhere: -v, --verbose; --error-format text|json; -h, --help. Also: -V, --version.\n"

/-- What is reported where nothing is run; a misused command line ends with code two. Of help and
misuse only the exit code and the stream that is written to are modelled, not the text. -/
def Halt.report : Halt → Report
  | help => ⟨0, helpText, [], false⟩
  | version => ⟨0, versionText, [], false⟩
  | misuse m => ⟨2, "", [.line ("error: " ++ m.message ++ "\n")], false⟩

/-! ## Standard error -/

def Entry.render (filter : Filter) : Entry → String
  | event e => if filter.admits e then e.line else ""
  | line text => text

/-- The filter in force, `log` being the one that was asked for. -/
def filterFor (verbose : Bool) (log : Option String) : Filter :=
  if verbose then .verbose
  else
    match log with
    | some text => .parse text
    | none => .standard

/-- The text on standard error. -/
def Report.errors (r : Report) (log : Option String) : String :=
  String.join (r.trace.map (Entry.render (filterFor r.verbose log)))

end JsonEdit.Command
