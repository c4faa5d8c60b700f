import JsonEdit.Decimal.Scaled
import JsonEdit.Json.Reader

/-!
# Values from free text

The first of these rules that fits gives the value of a text:

1. the text is JSON;
2. it is `true`, `false` or `null` in any mix of cases;
3. it is an integer of 64 bits, with a sign and leading zeros if it likes;
4. it is a decimal that is not too large for a float;
5. it stands for itself.
-/

namespace JsonEdit.Infer

/-- A word in any mix of ASCII cases. -/
def word? (s : List Char) : Option Value :=
  let lower := s.map Char.toLower
  if lower = ['t', 'r', 'u', 'e'] then some (.boolean true)
  else if lower = ['f', 'a', 'l', 's', 'e'] then some (.boolean false)
  else if lower = ['n', 'u', 'l', 'l'] then some .null
  else none

/-- A sign in front of a text; a minus is told. -/
def splitSign : List Char → Bool × List Char
  | '-' :: s => (true, s)
  | '+' :: s => (false, s)
  | s => (false, s)

def integer? (s : List Char) : Option Int :=
  let (negative, ds) := splitSign s
  if ds ≠ [] ∧ ds.all Char.isDigit then
    let n : Int := if negative then -(Decimal.value ds : Int) else Decimal.value ds
    if -(signedBound : Int) ≤ n ∧ n < signedBound then some n else none
  else none

/-- Exponents stop growing once they have reached this size, far beyond the range of a float. -/
def exponentCap : Nat := Nat.pow 2 16

def cappedExponent (ds : List Char) : Nat :=
  ds.foldl (fun n d => if n < exponentCap then 10 * n + Decimal.digitValue d else n) 0

/-- The exponent at the end of a decimal, zero if none is written. -/
def exponent? : List Char → Option Int
  | [] => some 0
  | c :: s =>
    if c = 'e' ∨ c = 'E' then
      let (negative, ds) := splitSign s
      if ds ≠ [] ∧ ds.all Char.isDigit then
        some (if negative then -(cappedExponent ds : Int) else cappedExponent ds)
      else none
    else none

/-- A decimal: digits with a point before, between or behind them, and an exponent. -/
def decimal? (s : List Char) : Option Float :=
  let (negative, s) := splitSign s
  let (whole, r) := Decimal.run s
  let (fraction, r) :=
    match r with
    | '.' :: r => Decimal.run r
    | r => ([], r)
  if whole = [] ∧ fraction = [] then none
  else do
    let e ← exponent? r
    let x ← Decimal.nearest (whole ++ fraction) (e - fraction.length)
    return if negative then -x else x

end Infer

/-- The value that a free text stands for. -/
def infer (text : String) : Value :=
  match Json.read text with
  | .ok v => v
  | .error _ =>
    match Infer.word? text.toList with
    | some v => v
    | none =>
      match Infer.integer? text.toList with
      | some n => .number (.integer n)
      | none =>
        match Infer.decimal? text.toList with
        | some x => .number (.fraction x)
        | none => .string text

end JsonEdit
