import JsonEdit.Decimal.Layout
import JsonEdit.Json.Quoted
import JsonEdit.Value

/-!
# Writing a document

* A `Style` says how the parts of a container are set apart; `indented` puts every part on a line of
  its own, `compact` keeps a document on one line.
* Empty containers are written without a break in either style.
-/

namespace JsonEdit.Json

/-- How the parts of a container are set apart. -/
structure Style where
  /-- What is written before a part at this depth, and before the bracket that closes it. -/
  gap : Nat → List Char
  /-- What is written between a key and its value. -/
  colon : List Char

/-- Two blanks a level, one part a line. -/
def indented : Style where
  gap depth := '\n' :: List.replicate (2 * depth) ' '
  colon := [':', ' ']

/-- Everything on one line. -/
def compact : Style where
  gap _ := []
  colon := [':']

def writeNumber : Number → List Char
  | .integer n => Decimal.signed n
  | .fraction x => Decimal.writeFloat x

mutual

/-- A value that stands at this depth. -/
def write (style : Style) (depth : Nat) : Value → List Char
  | .null => ['n', 'u', 'l', 'l']
  | .boolean true => ['t', 'r', 'u', 'e']
  | .boolean false => ['f', 'a', 'l', 's', 'e']
  | .number n => writeNumber n
  | .string s => quote s
  | .array [] => ['[', ']']
  | .array (v :: vs) =>
    '[' :: style.gap (depth + 1) ++ write style (depth + 1) v ++
      writeItems style (depth + 1) vs ++ style.gap depth ++ [']']
  | .object [] => ['\x7b', '\x7d']
  | .object ((k, v) :: ms) =>
    '\x7b' :: style.gap (depth + 1) ++ quote k ++ style.colon ++ write style (depth + 1) v ++
      writeMembers style (depth + 1) ms ++ style.gap depth ++ ['\x7d']

/-- The items after the first, each behind its comma. -/
def writeItems (style : Style) (depth : Nat) : List Value → List Char
  | [] => []
  | v :: vs => ',' :: style.gap depth ++ write style depth v ++ writeItems style depth vs

/-- The members after the first, each behind its comma. -/
def writeMembers (style : Style) (depth : Nat) : List (String × Value) → List Char
  | [] => []
  | (k, v) :: ms =>
    ',' :: style.gap depth ++ quote k ++ style.colon ++ write style depth v ++
      writeMembers style depth ms

end

/-- The canonical text of a document, without a line feed at its end. -/
def print (v : Value) : String :=
  String.ofList (write indented 0 v)

/-- A document on one line. -/
def printLine (v : Value) : String :=
  String.ofList (write compact 0 v)

end JsonEdit.Json
