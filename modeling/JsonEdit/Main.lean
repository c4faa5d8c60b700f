import JsonEdit.Command.Run
import Std.Time

/-!
# The program

Reads what a command needs, has its plan made, does the actions of the plan and prints the report.
-/

namespace JsonEdit.Command

/-- A stream to its end. -/
partial def readAll (s : IO.FS.Stream) (read : ByteArray) : IO ByteArray := do
  let bytes ← s.read 65536
  if bytes.isEmpty then return read else readAll s (read ++ bytes)

/-- Why an operation on a file did not succeed. -/
def faultOf : IO.Error → FileFault
  | .noFileOrDirectory .. => .missing
  | .inappropriateType _ 20 _ => .notFolder
  | .inappropriateType _ 21 _ => .isFolder
  | .invalidArgument _ 36 _ => .nameTooLong
  | e => .other (toString e)

def loadDocument (file : Option String) : IO (Except Failure String) := do
  match file with
  | none => return decode none (← readAll (← IO.getStdin) ByteArray.empty)
  | some name =>
    try
      return decode file (← IO.FS.readBinFile name)
    catch
      | .noFileOrDirectory .. => return .error (.noFile name)
      | .inappropriateType .. => return .error (.noFile name)
      | .invalidArgument .. => return .error (.noFile name)
      | e => return .error (.unreadable file (faultOf e))

/-- Does an action, or tells why it cannot be done. -/
def perform (a : Action) : IO (Option Failure) := do
  match a with
  | .backUp file backup =>
    try
      let content ← IO.FS.readBinFile file
      let handle ← IO.FS.Handle.mk backup .writeNew
      handle.write content
      return none
    catch
      | .alreadyExists .. => return some (.backupExists backup)
      | e => return some (.notBackedUp file backup (faultOf e))
  | .write file text =>
    try
      IO.FS.writeFile file text
      return none
    catch e => return some (.unwritable file (faultOf e))
  | .print _ => return none
  | .notify _ => return none

/-- Does the actions of a plan until one fails. -/
def performEach : List Action → IO (List Action × Option Failure)
  | [] => return ([], none)
  | a :: rest => do
    match ← perform a with
    | some f => return ([], some f)
    | none =>
      let (done, failure) ← performEach rest
      return (a :: done, failure)

def currentTime : IO String := do
  return (← Std.Time.PlainDateTime.now).format "uuuuMMdd'_'HHmmss"

def execute (i : Invocation) : IO Report := do
  match ← loadDocument i.task.source with
  | .error f => return i.unread f
  | .ok document =>
    match i.task.actions (← currentTime) document with
    | .error e => return i.refused document e
    | .ok actions =>
      let (done, failure) ← performEach actions
      return i.finished document done failure

def program (words : List String) : IO UInt32 := do
  let report ←
    match Invocation.ofArguments words with
    | .error h => pure h.report
    | .ok i => execute i
  IO.print report.output
  IO.eprint (report.errors (← IO.getEnv "CONFPATCH_LOG"))
  return UInt32.ofNat report.code

end JsonEdit.Command

def main (words : List String) : IO UInt32 :=
  JsonEdit.Command.program words
