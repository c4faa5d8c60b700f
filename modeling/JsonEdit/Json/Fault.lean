import JsonEdit.Decimal.Digits
import JsonEdit.Text.Position

/-!
# Why a text is not JSON

* A `Cause` is what is wrong, a `Fault` adds where: how many bytes of the text were still unread.
  Counting from the end keeps a fault the same whatever was read before.
* A `Malformed` text is a fault with its line and column.
-/

namespace JsonEdit.Json

inductive Cause where
  | endInValue
  | endInList
  | endInObject
  | endInString
  | badWord
  | noValue
  | badNumber
  | outOfRange
  | badEscape
  | loneSurrogate
  | cutSurrogate
  | controlCharacter
  | listNotContinued
  | objectNotContinued
  | noKey
  | noColon
  | trailingComma
  | trailingText
  | tooDeep
  deriving DecidableEq, Repr

def Cause.message : Cause → String
  | .endInValue => "EOF while parsing a value"
  | .endInList => "EOF while parsing a list"
  | .endInObject => "EOF while parsing an object"
  | .endInString => "EOF while parsing a string"
  | .badWord => "expected ident"
  | .noValue => "expected value"
  | .badNumber => "invalid number"
  | .outOfRange => "number out of range"
  | .badEscape => "invalid escape"
  | .loneSurrogate => "lone leading surrogate in hex escape"
  | .cutSurrogate => "unexpected end of hex escape"
  | .controlCharacter => "control character (\\u0000-\\u001F) found while parsing a string"
  | .listNotContinued => "expected `,` or `]`"
  | .objectNotContinued => "expected `,` or `\x7d`"
  | .noKey => "key must be a string"
  | .noColon => "expected `:`"
  | .trailingComma => "trailing comma"
  | .trailingText => "trailing characters"
  | .tooDeep => "recursion limit exceeded"

structure Fault where
  cause : Cause
  /-- The number of bytes that were still unread. -/
  unread : Nat
  deriving DecidableEq, Repr

namespace Fault

/-- A fault seen when the first byte of `s`, if there is one, had just been read. -/
def reading (cause : Cause) (s : List Char) : Fault :=
  ⟨cause, byteCount s - 1⟩

/-- A fault seen with all of `s` unread. -/
def before (cause : Cause) (s : List Char) : Fault :=
  ⟨cause, byteCount s⟩

/-- A fault seen at the end of the text. -/
def atEnd (cause : Cause) : Fault :=
  ⟨cause, 0⟩

end Fault

/-- A text that is not JSON: what is wrong with it and where. -/
structure Malformed where
  cause : Cause
  position : Position
  deriving DecidableEq, Repr

def Malformed.message (m : Malformed) : String :=
  m.cause.message ++ " at line " ++ Decimal.numeral m.position.line ++ " column " ++
    Decimal.numeral m.position.column

/-- The place of a fault in its text. -/
def Fault.malformed (text : String) (f : Fault) : Malformed :=
  ⟨f.cause, Position.ofOffset text (byteCount text.toList - f.unread)⟩

/-! ## What is left of a text -/

/-- What is left of `s` once at least one character was read. -/
abbrev Rest (s : List Char) := { r : List Char // r.length < s.length }

section

variable {s r t : List Char}

theorem le_length_self (s : List Char) : s.length ≤ s.length :=
  Nat.le_refl _

theorem lt_length_cons (c : Char) (h : t.length < r.length) : t.length < (c :: r).length :=
  Nat.lt_succ_of_lt h

theorem le_length_cons (c : Char) (h : t.length ≤ r.length) : t.length ≤ (c :: r).length :=
  Nat.le_succ_of_le h

theorem lt_length_of_lt (h : r.length < s.length) (h' : t.length < r.length) :
    t.length < s.length :=
  Nat.lt_trans h' h

theorem lt_length_of_le (h : r.length < s.length) (h' : t.length ≤ r.length) :
    t.length < s.length :=
  Nat.lt_of_le_of_lt h' h

theorem lt_length_of_lt_cons {c : Char} (h : r.length < s.length)
    (h' : t.length < (c :: r).length) : t.length < s.length :=
  lt_length_of_le h (Nat.le_of_lt_succ h')

end

/-! ## Blanks -/

/-- Space, tab, line feed and carriage return may stand between the parts of a text. -/
def isBlank (c : Char) : Bool :=
  c = ' ' || c = '\n' || c = '\t' || c = '\r'

/-- The first character that is not a blank, and what follows it. -/
def next? (s : List Char) : Option (Char × Rest s) :=
  match h : s.dropWhile isBlank with
  | [] => none
  | c :: r => some (c, ⟨r, by
      have := (List.dropWhile_sublist isBlank (l := s)).length_le
      rw [h, List.length_cons] at this
      omega⟩)

end JsonEdit.Json
