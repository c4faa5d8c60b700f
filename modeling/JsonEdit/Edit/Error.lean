import JsonEdit.Json.Fault
import JsonEdit.Path
import JsonEdit.Value

/-!
# Why an edit fails

* An `EditError` names the cause; errors about a path quote the path as it was given and, where one
  segment is at fault, its place counted from zero.
* `message` is the wording, `Category.name` the word by which programs tell errors apart.
-/

namespace JsonEdit

/-- What a segment needed to meet. -/
inductive Expectation where
  | object
  | array
  | container
  deriving DecidableEq, Repr

def Expectation.name : Expectation → String
  | .object => "object"
  | .array => "array"
  | .container => "object or array"

/-- Why a last segment does not fit the value it would be applied to. -/
inductive Misfit where
  | notAnIndex (name : String)
  | notApplicable (segment : Segment) (found : Kind)
  deriving DecidableEq, Repr

def Misfit.reason : Misfit → String
  | .notAnIndex name => "'" ++ name ++ "' is not an array index"
  | .notApplicable segment found => "cannot apply '" ++ segment.display ++ "' to " ++ found.name

inductive EditError where
  /-- The document is not JSON. -/
  | malformed (m : Json.Malformed)
  /-- The path cannot be read. -/
  | rejected (path : String) (r : Path.Rejection)
  /-- The last segment cannot be applied to what the others lead to. -/
  | unfit (path : String) (segment : Nat) (m : Misfit)
  /-- A segment names a member that is not there. -/
  | notFound (path : String) (segment : Nat) (name : String)
  /-- A segment meets a value of the wrong kind. -/
  | mismatch (path : String) (segment : Nat) (expected : Expectation) (found : Kind)
  /-- An index is not below the length of its array. -/
  | outOfRange (path : String) (segment : Nat) (index : Nat) (length : Nat)
  /-- The edited document cannot be written. -/
  | unwritable (text : String)
  deriving DecidableEq, Repr

open Decimal (numeral)

namespace EditError

inductive Category where
  | parse
  | invalidPath
  | pathNotFound
  | typeMismatch
  | indexOutOfRange
  | serialize
  deriving DecidableEq, Repr

def Category.name : Category → String
  | .parse => "parse"
  | .invalidPath => "invalid_path"
  | .pathNotFound => "path_not_found"
  | .typeMismatch => "type_mismatch"
  | .indexOutOfRange => "index_out_of_range"
  | .serialize => "serialize"

def category : EditError → Category
  | malformed _ => .parse
  | rejected .. => .invalidPath
  | unfit .. => .invalidPath
  | notFound .. => .pathNotFound
  | mismatch .. => .typeMismatch
  | outOfRange .. => .indexOutOfRange
  | unwritable _ => .serialize

/-- The path that the error is about. -/
def path? : EditError → Option String
  | malformed _ => none
  | rejected path _ => some path
  | unfit path .. => some path
  | notFound path .. => some path
  | mismatch path .. => some path
  | outOfRange path .. => some path
  | unwritable _ => none

/-- The place of the segment at fault. -/
def segment? : EditError → Option Nat
  | malformed _ => none
  | rejected _ r => r.position
  | unfit _ n _ => some n
  | notFound _ n _ => some n
  | mismatch _ n _ _ => some n
  | outOfRange _ n _ _ => some n
  | unwritable _ => none

def message : EditError → String
  | malformed m => "JSON parse error: " ++ m.message
  | rejected path r => "invalid path '" ++ path ++ "': " ++ r.flaw.reason
  | unfit path _ m => "invalid path '" ++ path ++ "': " ++ m.reason
  | notFound path _ name => "path segment '" ++ name ++ "' not found in '" ++ path ++ "'"
  | mismatch path n expected found =>
    "type mismatch at segment " ++ numeral n ++ " of '" ++ path ++ "': expected " ++
      expected.name ++ ", found " ++ found.name
  | outOfRange path n index length =>
    "index " ++ numeral index ++ " out of range (len: " ++ numeral length ++ ") at segment " ++
      numeral n ++ " of '" ++ path ++ "'"
  | unwritable text => "JSON serialization error: " ++ text

end EditError

end JsonEdit
