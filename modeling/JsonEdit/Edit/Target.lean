import JsonEdit.Edit.Error
import JsonEdit.Location

/-!
# Following a path and storing at its end

* `Target.find` follows all segments of a path but the last and finds the container to store in;
  nothing is created on the way.
* `Target.assign` is that container with a value stored at the last segment. Members of objects are
  replaced or added, elements of arrays only replaced.
* `Value.set` does both and puts the new container back where the old one was.
-/

namespace JsonEdit

/-- The container that a path leads to, and where it lies. -/
structure Target where
  path : Path
  location : Location
  parent : Value

/-- Element `i` of an array. -/
def elementAt (path : String) (position : Nat) (vs : List Value) (i : Nat) :
    Except EditError Value :=
  match vs[i]? with
  | some v => .ok v
  | none => .error (.outOfRange path position i vs.length)

/-- The steps of one segment from a value, and the value that they lead to. -/
def descend (path : String) (position : Nat) (segment : Segment) (v : Value) :
    Except EditError (Location × Value) :=
  match v with
  | .object ms =>
    match Members.find? segment.name ms, segment.index with
    | none, _ => .error (.notFound path position segment.name)
    | some child, none => .ok ([.key segment.name], child)
    | some (.array vs), some i =>
      (elementAt path position vs i).map fun w => ([.key segment.name, .index i], w)
    | some child, some _ => .error (.mismatch path position .array child.kind)
  | v => .error (.mismatch path position .object v.kind)

/-- The steps of several segments, the first of which stands at `position`. -/
def descendAll (path : String) (position : Nat) : List Segment → Value →
    Except EditError (Location × Value)
  | [], v => .ok ([], v)
  | s :: ss, v =>
    match descend path position s v with
    | .error e => .error e
    | .ok (steps, w) =>
      (descendAll path (position + 1) ss w).map fun (l, u) => (steps ++ l, u)

/-- Reads a plain name as an array index: digits, with a plus before them or not. -/
def nameIndex? (name : String) : Option Nat :=
  let ds :=
    match name.toList with
    | '+' :: ds => ds
    | ds => ds
  if ds ≠ [] ∧ ds.all Char.isDigit ∧ Decimal.value ds < indexBound then some (Decimal.value ds)
  else none

namespace Target

def find (root : Value) (path : Path) : Except EditError Target :=
  match descendAll path.text 0 path.leading root with
  | .error e => .error e
  | .ok (location, parent) =>
    match parent.kind with
    | .object => .ok ⟨path, location, parent⟩
    | .array => .ok ⟨path, location, parent⟩
    | found => .error (.mismatch path.text path.lastPosition .container found)

/-- The items of an array with the one at `i` replaced. -/
def replaceElement (path : Path) (vs : List Value) (i : Nat) (v : Value) :
    Except EditError (List Value) :=
  (elementAt path.text path.lastPosition vs i).map fun _ => vs.set i v

/-- The parent with `v` stored at the last segment. -/
def assign (t : Target) (v : Value) : Except EditError Value :=
  let last := t.path.last
  let position := t.path.lastPosition
  match t.parent, last.index with
  | .object ms, none => .ok (.object (Members.put last.name v ms))
  | .object ms, some i =>
    match Members.find? last.name ms with
    | none => .error (.notFound t.path.text position last.name)
    | some (.array vs) =>
      (replaceElement t.path vs i v).map fun vs' =>
        .object (Members.put last.name (.array vs') ms)
    | some child => .error (.mismatch t.path.text position .array child.kind)
  | .array vs, none =>
    match nameIndex? last.name with
    | none => .error (.unfit t.path.text position (.notAnIndex last.name))
    | some i => (replaceElement t.path vs i v).map .array
  | parent, _ => .error (.unfit t.path.text position (.notApplicable last parent.kind))

end Target

/-- The document with `v` stored at the end of a path. -/
def Value.set (root : Value) (path : Path) (v : Value) : Except EditError Value :=
  match Target.find root path with
  | .error e => .error e
  | .ok t => (t.assign v).map (root.put t.location)

end JsonEdit
