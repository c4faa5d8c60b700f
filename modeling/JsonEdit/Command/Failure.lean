import JsonEdit.Command.Folder
import JsonEdit.Edit.Error
import JsonEdit.Json.Printer

/-!
# Why a command fails

* A `Failure` is told as a chain of texts, from what was tried to why it did not work.
* `report` writes it for people or, as a JSON object on one line, for programs.
-/

namespace JsonEdit.Command

/-- What was tried when an edit failed. -/
inductive Attempt where
  | update (path : String)
  | reformat
  | check (document : String)
  deriving DecidableEq, Repr

def Attempt.text : Attempt → String
  | .update path => "Failed to update '" ++ path ++ "'"
  | .reformat => "Failed to reformat JSON document"
  | .check document => "✗ " ++ document ++ " has JSON syntax errors"

inductive Failure where
  | noFile (file : String)
  /-- A document, from a file or from standard input, is not text. -/
  | unreadable (file : Option String) (fault : FileFault)
  | edit (attempt : Attempt) (e : EditError)
  | backupExists (backup : String)
  | notBackedUp (file backup : String) (fault : FileFault)
  | unwritable (file : String) (fault : FileFault)
  deriving DecidableEq, Repr

namespace Failure

/-- What an edit error tells; why a document is malformed is told once more by itself. -/
def editChain (e : EditError) : List String :=
  match e with
  | .malformed m => [e.message, m.message]
  | e => [e.message]

def chain : Failure → List String
  | noFile file => ["Config file not found: " ++ file]
  | unreadable none fault => ["Failed to read from stdin", fault.message]
  | unreadable (some file) fault => ["Failed to read file: " ++ file, fault.message]
  | edit attempt e => attempt.text :: editChain e
  | backupExists backup => ["Backup already exists: " ++ backup]
  | notBackedUp file backup fault =>
    ["Failed to back up " ++ file ++ " to " ++ backup, fault.message]
  | unwritable file fault => ["Failed to write file: " ++ file, fault.message]

def message (f : Failure) : String :=
  ": ".intercalate f.chain

def edit? : Failure → Option EditError
  | edit _ e => some e
  | _ => none

end Failure

/-! ## Reports -/

inductive Format where
  | text
  | json
  deriving DecidableEq, Repr

/-- A value, or null where there is none. -/
def orNull {α : Type} (f : α → Value) (x : Option α) : Value :=
  (x.map f).getD .null

/-- A failure as a JSON object. Kind, path and segment are those of the edit, if it was an edit that
failed. -/
def Failure.toValue (f : Failure) : Value :=
  .object
    [("kind", orNull (fun e => .string e.category.name) f.edit?),
      ("path", orNull .string (f.edit?.bind EditError.path?)),
      ("segment", orNull (fun (n : Nat) => .number (.integer n)) (f.edit?.bind EditError.segment?)),
      ("message", .string f.message)]

def Failure.report (f : Failure) : Format → String
  | .text => "Error: " ++ f.message ++ "\n"
  | .json => Json.printLine f.toValue ++ "\n"

end JsonEdit.Command
