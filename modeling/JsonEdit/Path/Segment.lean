import JsonEdit.Decimal.Digits

/-!
# Segments of a path

* A segment names a member of an object and may go on to an element of the array found there:
  `name` or `name[index]`.
* `Path.readPiece` reads one piece of a path, what stands between two dots. A `Flaw` says
  what is wrong with a piece or with a path.
-/

namespace JsonEdit

structure Segment where
  name : String
  index : Option Nat
  deriving DecidableEq, Repr

/-- Array indices are below this bound. -/
def indexBound : Nat := Nat.pow 2 64

namespace Segment

def key (name : String) : Segment := ⟨name, none⟩

def element (name : String) (index : Nat) : Segment := ⟨name, some index⟩

/-- The written form of a segment, its index without leading zeros. -/
def display (s : Segment) : String :=
  match s.index with
  | none => s.name
  | some i => s.name ++ "[" ++ Decimal.numeral i ++ "]"

end Segment

namespace Path

/-- What is wrong with a path, or with one of its pieces. -/
inductive Flaw where
  | noText
  | noName
  | strayClose
  | noClose
  | severalIndices
  | afterIndex (rest : String)
  | noIndex
  | indexNotNumeral (digits : String)
  | indexTooLarge (digits : String)
  deriving DecidableEq, Repr

def Flaw.reason : Flaw → String
  | .noText => "path must not be empty"
  | .noName => "empty segment name"
  | .strayClose => "unbalanced ']'"
  | .noClose => "missing closing ']'"
  | .severalIndices => "multiple bracket groups in one segment are not supported"
  | .afterIndex rest => "unexpected '" ++ rest ++ "' after ']'"
  | .noIndex => "empty array index"
  | .indexNotNumeral digits => "array index '" ++ digits ++ "' is not a non-negative integer"
  | .indexTooLarge digits => "array index '" ++ digits ++ "' is too large"

/-- The index between two brackets. -/
def readIndex (ds : List Char) : Except Flaw Nat :=
  if ds = [] then .error .noIndex
  else if ds.all Char.isDigit then
    if Decimal.value ds < indexBound then .ok (Decimal.value ds)
    else .error (.indexTooLarge (String.ofList ds))
  else .error (.indexNotNumeral (String.ofList ds))

/-- What stands behind the first opening bracket: an index, its closing bracket, and nothing else.
-/
def readBracket (s : List Char) : Except Flaw Nat :=
  match s.dropWhile (· ≠ ']') with
  | [] => .error .noClose
  | _ :: '[' :: _ => .error .severalIndices
  | _ :: c :: r => .error (.afterIndex (String.ofList (c :: r)))
  | [_] => readIndex (s.takeWhile (· ≠ ']'))

/-- The segment that a piece writes. -/
def readPiece (piece : List Char) : Except Flaw Segment :=
  let name := piece.takeWhile (· ≠ '[')
  if name = [] then .error .noName
  else if ']' ∈ name then .error .strayClose
  else
    match piece.dropWhile (· ≠ '[') with
    | [] => .ok (.key (String.ofList name))
    | _ :: r => (readBracket r).map (.element (String.ofList name))

end Path

end JsonEdit
