/-!
# Document values

* A number is an integer or a fraction, and the two are never mixed up: `3` and `3.0` differ.
* Objects keep their members in order of arrival.
* `Kind` names what a value is without what it holds; error messages speak of kinds.
-/

namespace JsonEdit

/-- Signed integers of 64 bits lie below this bound and not below its negative. -/
def signedBound : Nat := Nat.pow 2 63

inductive Number where
  | integer (n : Int)
  | fraction (x : Float)

/-- A document, or a part of one. -/
inductive Value where
  | null
  | boolean (b : Bool)
  | number (n : Number)
  | string (s : String)
  | array (items : List Value)
  | object (members : List (String × Value))

instance : Inhabited Value := ⟨.null⟩

inductive Kind where
  | null
  | boolean
  | number
  | string
  | array
  | object
  deriving DecidableEq, Repr

def Kind.name : Kind → String
  | .null => "null"
  | .boolean => "boolean"
  | .number => "number"
  | .string => "string"
  | .array => "array"
  | .object => "object"

def Value.kind : Value → Kind
  | .null => .null
  | .boolean _ => .boolean
  | .number _ => .number
  | .string _ => .string
  | .array _ => .array
  | .object _ => .object

theorem Value.kind_eq_object_iff {v : Value} : v.kind = .object ↔ ∃ ms, v = .object ms := by
  cases v <;> simp [kind]

theorem Value.kind_eq_array_iff {v : Value} : v.kind = .array ↔ ∃ vs, v = .array vs := by
  cases v <;> simp [kind]

end JsonEdit
