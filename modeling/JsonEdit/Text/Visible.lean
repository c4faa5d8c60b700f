import JsonEdit.Text.CharClass

/-!
# Names that show what they are

* A log line quotes names so that two names never look alike: a character that does not show by
  itself, or that changes the look of its neighbours, is written as its number.
-/

namespace JsonEdit

/-- A character that changes the look of the one before it. -/
def isJoined (c : Char) : Bool :=
  CharClass.graphemeExtend.holds c.toNat && !CharClass.soundMarks.holds c.toNat

/-- A character that nobody sees, or sees only on another one. -/
def isHidden (c : Char) : Bool :=
  CharClass.notGraphic.holds c.toNat || isJoined c || CharClass.defaultIgnorable.holds c.toNat

/-- The number of a character in hexadecimal digits. -/
def hexNumeral (n : Nat) : List Char :=
  Nat.toDigits 16 n

/-- One character of a quoted name. -/
def visibleChar (c : Char) : List Char :=
  if c = '"' then ['\\', '"']
  else if c = '\\' then ['\\', '\\']
  else if c = '\n' then ['\\', 'n']
  else if c = '\r' then ['\\', 'r']
  else if c = '\t' then ['\\', 't']
  else if c.toNat = 0 then ['\\', '0']
  else if isHidden c then ['\\', 'u', '\x7b'] ++ hexNumeral c.toNat ++ ['\x7d']
  else [c]

/-- A name between quotes. -/
def quoteName (name : String) : String :=
  String.ofList ('"' :: name.toList.flatMap visibleChar ++ ['"'])

end JsonEdit
