import JsonEdit.Json.Numeral
import JsonEdit.Json.Quoted
import JsonEdit.Members

/-!
# Reading a document

* The reader goes through the text once and keeps a stack of the containers that are open, each with
  what it holds so far. `readValue` stands where a value is due, `goOn` behind a complete value.
* At most `maxOpen` containers may be open at a time.
* A repeated key keeps its first place and takes its last value.
-/

namespace JsonEdit.Json

/-- How many containers may be open at a time. -/
def maxOpen : Nat := 127

/-- The letters of a word, which all have to be there. -/
def readWord (word : List Char) (s : List Char) :
    Except Fault { r : List Char // r.length ≤ s.length } :=
  match word, s with
  | [], s => .ok ⟨s, le_length_self s⟩
  | _ :: _, [] => .error (.atEnd .endInValue)
  | w :: ws, c :: r =>
    if c = w then
      match readWord ws r with
      | .error f => .error f
      | .ok ⟨r', h⟩ => .ok ⟨r', le_length_cons c h⟩
    else .error (.reading .badWord (c :: r))

/-- How a value begins: it is complete, or a container has been opened. -/
inductive Opening (α : Type) where
  | scalar (v : α)
  | list
  | object

/-- A word that stands for a value. The first letter tells which one it is. -/
def word? : Char → Option (List Char × Value)
  | 'n' => some (['u', 'l', 'l'], .null)
  | 't' => some (['r', 'u', 'e'], .boolean true)
  | 'f' => some (['a', 'l', 's', 'e'], .boolean false)
  | _ => none

def startsNumber (c : Char) : Bool :=
  c = '-' || c.isDigit

/-- The number at the start of a text. -/
def readNumber (s : List Char) : Except Fault (Number × Rest s) :=
  match Numeral.read .endInValue s with
  | .error f => .error f
  | .ok (n, ⟨r, h⟩) =>
    match n.toNumber with
    | .ok number => .ok (number, ⟨r, h⟩)
    | .error digits => .error ⟨.outOfRange, digits + byteCount r⟩

/-- The beginning of a value, blanks before it included. -/
def readOpening (s : List Char) : Except Fault (Opening Value × Rest s) :=
  match next? s with
  | none => .error (.atEnd .endInValue)
  | some (c, ⟨r, h⟩) =>
    if c = '"' then
      match readQuoted r with
      | .error f => .error f
      | .ok (text, ⟨r', h'⟩) => .ok (.scalar (.string text), ⟨r', lt_length_of_lt h h'⟩)
    else if c = '[' then .ok (.list, ⟨r, h⟩)
    else if c = '\x7b' then .ok (.object, ⟨r, h⟩)
    else
      match word? c with
      | some (letters, v) =>
        match readWord letters r with
        | .error f => .error f
        | .ok ⟨r', h'⟩ => .ok (.scalar v, ⟨r', lt_length_of_le h h'⟩)
      | none =>
        if startsNumber c then
          match readNumber (c :: r) with
          | .error f => .error f
          | .ok (number, ⟨r', h'⟩) =>
            .ok (.scalar (.number number), ⟨r', lt_length_of_lt_cons h h'⟩)
        else .error (.reading .noValue (c :: r))

/-- A colon behind a key, blanks before it included. -/
def readColon (s : List Char) : Except Fault (Rest s) :=
  match next? s with
  | none => .error (.atEnd .endInObject)
  | some (c, ⟨r, h⟩) => if c = ':' then .ok ⟨r, h⟩ else .error (.reading .noColon (c :: r))

/-- A key behind its opening quote, and the colon after it. -/
def readKey (s : List Char) : Except Fault (String × Rest s) :=
  match readQuoted s with
  | .error f => .error f
  | .ok (key, ⟨r, h⟩) =>
    match readColon r with
    | .error f => .error f
    | .ok ⟨r', h'⟩ => .ok (key, ⟨r', by omega⟩)

/-- An open container, with what it holds so far. -/
inductive Frame where
  /-- An array; the last item comes first. -/
  | items (done : List Value)
  /-- An object that waits for the value of `key`. -/
  | members (done : List (String × Value)) (key : String)

mutual

/-- Reads on where a value is due. -/
def readValue (stack : List Frame) (s : List Char) : Except Fault Value :=
  match readOpening s with
  | .error f => .error f
  | .ok (.scalar v, ⟨r, _⟩) => goOn stack v r
  | .ok (.list, ⟨r, _⟩) =>
    if stack.length < maxOpen then
      match next? r with
      | none => .error (.atEnd .endInList)
      | some (c, ⟨r', _⟩) =>
        if c = ']' then goOn stack (.array []) r' else readValue (.items [] :: stack) r
    else .error (.before .tooDeep r)
  | .ok (.object, ⟨r, _⟩) =>
    if stack.length < maxOpen then
      match next? r with
      | none => .error (.atEnd .endInObject)
      | some (c, ⟨r', _⟩) =>
        if c = '\x7d' then goOn stack (.object []) r'
        else if c = '"' then
          match readKey r' with
          | .error f => .error f
          | .ok (key, ⟨r'', _⟩) => readValue (.members [] key :: stack) r''
        else .error (.reading .noKey (c :: r'))
    else .error (.before .tooDeep r)
termination_by s.length

/-- Reads on behind the complete value `v`. -/
def goOn (stack : List Frame) (v : Value) (s : List Char) : Except Fault Value :=
  match stack with
  | [] =>
    match next? s with
    | none => .ok v
    | some (c, ⟨r, _⟩) => .error (.reading .trailingText (c :: r))
  | .items done :: stack =>
    match next? s with
    | none => .error (.atEnd .endInList)
    | some (c, ⟨r, _⟩) =>
      if c = ']' then goOn stack (.array (v :: done).reverse) r
      else if c = ',' then
        match next? r with
        | none => .error (.atEnd .endInValue)
        | some (d, ⟨r', _⟩) =>
          if d = ']' then .error (.reading .trailingComma (d :: r'))
          else readValue (.items (v :: done) :: stack) r
      else .error (.reading .listNotContinued (c :: r))
  | .members done key :: stack =>
    match next? s with
    | none => .error (.atEnd .endInObject)
    | some (c, ⟨r, _⟩) =>
      if c = '\x7d' then goOn stack (.object (Members.put key v done)) r
      else if c = ',' then
        match next? r with
        | none => .error (.atEnd .endInValue)
        | some (d, ⟨r', _⟩) =>
          if d = '"' then
            match readKey r' with
            | .error f => .error f
            | .ok (next, ⟨r'', _⟩) =>
              readValue (.members (Members.put key v done) next :: stack) r''
          else if d = '\x7d' then .error (.reading .trailingComma (d :: r'))
          else .error (.reading .noKey (d :: r'))
      else .error (.reading .objectNotContinued (c :: r))
termination_by s.length

end

/-- The document that a text holds, with nothing but blanks around it. -/
def read (text : String) : Except Malformed Value :=
  (readValue [] text.toList).mapError (Fault.malformed text)

end JsonEdit.Json
