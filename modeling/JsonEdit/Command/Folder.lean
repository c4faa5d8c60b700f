import JsonEdit.Members
import JsonEdit.Text.Pieces

/-!
# Files

* A `Folder` holds files by their place: the folders that lead there from where the command runs,
  and the file's own name last. Folders are there as long as files are in them.
* `load` and `save` find a file by its written name, such as `conf/app.json`.

What is left out. A `Folder` is a closed world of plain files, all of which can be read and written.
It has no empty folder besides the place where the command runs, and nothing is above that place: a
name that begins with a slash, or that climbs out by `..`, stands for no file, and none can be saved
under it. So what is proved of runs is proved for files that are named from where the command runs.
There are no links between files, no permissions and no devices.
-/

namespace JsonEdit.Command

abbrev Place := List String

/-- Why a file cannot be used. -/
inductive FileFault where
  | missing
  | notFolder
  | isFolder
  | nameTooLong
  | notText
  /-- Any other reason, in words. -/
  | other (reason : String)
  deriving DecidableEq, Repr

def FileFault.message : FileFault → String
  | .missing => "No such file or directory (os error 2)"
  | .notFolder => "Not a directory (os error 20)"
  | .isFolder => "Is a directory (os error 21)"
  | .nameTooLong => "File name too long (os error 36)"
  | .notText => "stream did not contain valid UTF-8"
  | .other reason => reason

/-- The files below the place where a command runs. Every other folder has a file somewhere in it,
and nothing lies above. -/
structure Folder where
  files : List (Place × ByteArray)

namespace Folder

/-- A place with something behind it is a folder, and so is the place where the command runs. -/
def isFolder (d : Folder) (p : Place) : Bool :=
  p = [] || d.files.any fun f => p.isPrefixOf f.1 && p ≠ f.1

/-! ## Names -/

/-- Where one part of a name leads. Nothing is known above the place where the command runs. -/
def step (p : Place) (part : List Char) : Option Place :=
  if part = [] ∨ part = ['.'] then some p
  else if part = ['.', '.'] then if p = [] then none else some p.dropLast
  else some (p ++ [String.ofList part])

/-- Nothing has a name of more than 255 bytes. -/
def fits (p : Place) : Bool :=
  p.getLast?.all (·.utf8ByteSize ≤ 255)

/-- Why there is nothing at a place. -/
def absence (p : Place) : FileFault :=
  if fits p then .missing else .nameTooLong

/-- The folder that parts of a name lead to. -/
def enter (d : Folder) (p : Place) : List (List Char) → Except FileFault Place
  | [] => .ok p
  | part :: rest =>
    match step p part with
    | none => .error .missing
    | some q =>
      if d.isFolder q then enter d q rest
      else if (Members.find? q d.files).isSome then .error .notFolder
      else .error (absence q)

/-- Only a folder can have a slash at the end of its name. -/
def asksForFolder (name : String) : Bool :=
  name.toList.getLast? = some '/'

/-- The place that a name stands for, whatever slashes are at its end. A name with a slash in front
stands for none. -/
def locate (d : Folder) (name : String) : Except FileFault Place :=
  let own := (name.toList.reverse.dropWhile (· = '/')).reverse
  if 4096 ≤ name.utf8ByteSize then .error .nameTooLong
  else if own = [] ∨ own.head? = some '/' then .error .missing
  else
    let (folders, last) := pieces '/' own
    match d.enter [] folders with
    | .error f => .error f
    | .ok p =>
      match step p last with
      | none => .error .isFolder
      | some q => .ok q

/-! ## Contents -/

def load (d : Folder) (name : String) : Except FileFault ByteArray :=
  match d.locate name with
  | .error f => .error f
  | .ok p =>
    if d.isFolder p then .error .isFolder
    else
      match Members.find? p d.files with
      | none => .error (absence p)
      | some content => if asksForFolder name then .error .notFolder else .ok content

/-- A file is replaced, or added to a folder that is there. -/
def save (d : Folder) (name : String) (content : ByteArray) : Except FileFault Folder :=
  match d.locate name with
  | .error f => .error f
  | .ok p =>
    if asksForFolder name ∨ d.isFolder p then .error .isFolder
    else if fits p then .ok ⟨Members.put p content d.files⟩
    else .error .nameTooLong

/-- Something has this name. -/
def holds (d : Folder) (name : String) : Bool :=
  match d.load name with
  | .ok _ => true
  | .error f => f = .isFolder

end Folder

end JsonEdit.Command
