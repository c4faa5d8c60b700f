import JsonEdit.Json.Reader

/-!
# Checking a text without reading it

* The checker follows the same text as the reader but builds nothing, so it needs no bound on the
  containers that are open and asks neither for the size of a number nor for paired surrogates.
* `checkValue` stands where a value is due, `checkOn` behind a complete value.
-/

namespace JsonEdit.Json

/-- The beginning of a value, blanks before it included. -/
def checkOpening (s : List Char) : Except Fault (Opening Unit × Rest s) :=
  match next? s with
  | none => .error (.atEnd .endInValue)
  | some (c, ⟨r, h⟩) =>
    if c = '"' then
      match skipQuoted r with
      | .error f => .error f
      | .ok ⟨r', h'⟩ => .ok (.scalar (), ⟨r', lt_length_of_lt h h'⟩)
    else if c = '[' then .ok (.list, ⟨r, h⟩)
    else if c = '\x7b' then .ok (.object, ⟨r, h⟩)
    else
      match word? c with
      | some (letters, _) =>
        match readWord letters r with
        | .error f => .error f
        | .ok ⟨r', h'⟩ => .ok (.scalar (), ⟨r', lt_length_of_le h h'⟩)
      | none =>
        if startsNumber c then
          match Numeral.read .badNumber (c :: r) with
          | .error f => .error f
          | .ok (_, ⟨r', h'⟩) => .ok (.scalar (), ⟨r', lt_length_of_lt_cons h h'⟩)
        else .error (.reading .noValue (c :: r))

/-- A key and the colon after it, blanks before both included. -/
def checkKey (s : List Char) : Except Fault (Rest s) :=
  match next? s with
  | none => .error (.atEnd .endInObject)
  | some (c, ⟨r, h⟩) =>
    if c = '"' then
      match skipQuoted r with
      | .error f => .error f
      | .ok ⟨r', h'⟩ =>
        match readColon r' with
        | .error f => .error f
        | .ok ⟨r'', h''⟩ => .ok ⟨r'', by omega⟩
    else .error (.reading .noKey (c :: r))

/-- A container that is open. -/
inductive Bracket where
  | list
  | object
  deriving DecidableEq, Repr

mutual

/-- Goes on where a value is due. -/
def checkValue (stack : List Bracket) (s : List Char) : Except Fault Unit :=
  match checkOpening s with
  | .error f => .error f
  | .ok (.scalar (), ⟨r, _⟩) => checkOn stack r
  | .ok (.list, ⟨r, _⟩) =>
    match next? r with
    | none => .error (.atEnd .endInList)
    | some (c, ⟨r', _⟩) => if c = ']' then checkOn stack r' else checkValue (.list :: stack) r
  | .ok (.object, ⟨r, _⟩) =>
    match next? r with
    | none => .error (.atEnd .endInObject)
    | some (c, ⟨r', _⟩) =>
      if c = '\x7d' then checkOn stack r'
      else
        match checkKey r with
        | .error f => .error f
        | .ok ⟨r'', _⟩ => checkValue (.object :: stack) r''
termination_by s.length

/-- Goes on behind a complete value. -/
def checkOn (stack : List Bracket) (s : List Char) : Except Fault Unit :=
  match stack with
  | [] =>
    match next? s with
    | none => .ok ()
    | some (c, ⟨r, _⟩) => .error (.reading .trailingText (c :: r))
  | .list :: stack =>
    match next? s with
    | none => .error (.atEnd .endInList)
    | some (c, ⟨r, _⟩) =>
      if c = ']' then checkOn stack r
      else if c = ',' then checkValue (.list :: stack) r
      else .error (.reading .listNotContinued (c :: r))
  | .object :: stack =>
    match next? s with
    | none => .error (.atEnd .endInObject)
    | some (c, ⟨r, _⟩) =>
      if c = '\x7d' then checkOn stack r
      else if c = ',' then
        match checkKey r with
        | .error f => .error f
        | .ok ⟨r', _⟩ => checkValue (.object :: stack) r'
      else .error (.reading .objectNotContinued (c :: r))
termination_by s.length

end

/-- Accepts a text that is one JSON value with nothing but blanks around it. -/
def check (text : String) : Except Malformed Unit :=
  (checkValue [] text.toList).mapError (Fault.malformed text)

end JsonEdit.Json
