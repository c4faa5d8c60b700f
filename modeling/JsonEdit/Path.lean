import JsonEdit.Path.Segment
import JsonEdit.Text.Pieces

/-!
# Paths

* A path such as `a.b[2].c` is a list of segments, at least one, and keeps the text it was read
  from. All segments but the last lead to a container; the last one says where to store in it.
* `Path.parse` reports the first piece that is not a segment.
-/

namespace JsonEdit

structure Path where
  /-- The text that the path was read from. -/
  text : String
  leading : List Segment
  last : Segment
  deriving DecidableEq, Repr

namespace Path

def segments (p : Path) : List Segment :=
  p.leading ++ [p.last]

/-- A path is shown as it was written. -/
def display (p : Path) : String :=
  p.text

/-- The number of segments, never zero. -/
def size (p : Path) : Nat :=
  p.leading.length + 1

/-- The place of the last segment, counted from zero. -/
def lastPosition (p : Path) : Nat :=
  p.leading.length

/-- A path that cannot be read: which piece is wrong, if a piece is, and how. -/
structure Rejection where
  position : Option Nat
  flaw : Flaw
  deriving DecidableEq, Repr

/-- The segments that pieces write, the first of which stands at `position`. -/
def readPieces (position : Nat) : List (List Char) → Except Rejection (List Segment)
  | [] => .ok []
  | p :: ps =>
    match readPiece p with
    | .error flaw => .error ⟨some position, flaw⟩
    | .ok segment => (readPieces (position + 1) ps).map (segment :: ·)

def parse (text : String) : Except Rejection Path :=
  if text = "" then .error ⟨none, .noText⟩
  else
    let (leading, last) := pieces '.' text.toList
    match readPieces 0 leading with
    | .error e => .error e
    | .ok leading =>
      match readPiece last with
      | .error flaw => .error ⟨some leading.length, flaw⟩
      | .ok last => .ok ⟨text, leading, last⟩

end Path

end JsonEdit
