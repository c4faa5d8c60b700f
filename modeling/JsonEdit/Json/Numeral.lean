import JsonEdit.Decimal.Scaled
import JsonEdit.Json.Fault
import JsonEdit.Value

/-!
# Numbers of a JSON text

* A `Numeral` is a number as it is written; `Numeral.read` takes one off a text.
* `Numeral.toNumber` is what it denotes: an integer where no point and no exponent is written and
  the value fits, otherwise a fraction.
* Only the first digits that fit 64 bits count; the others shift the exponent or are dropped.
-/

namespace JsonEdit.Json

open Decimal (absorb run value)

/-- The exponent of a number as it is written. -/
structure Exponent where
  negative : Bool
  digits : List Char

/-- A number as it is written. An empty fraction stands for none. -/
structure Numeral where
  negative : Bool
  whole : List Char
  fraction : List Char
  exponent : Option Exponent

namespace Numeral

/-! ## Reading

`cut` is the cause to report where the text ends inside a number. -/

/-- The digits before the point: a zero alone, or digits that start with another one. -/
def readWhole (cut : Cause) (s : List Char) : Except Fault (List Char × Rest s) :=
  match s with
  | [] => .error (.atEnd cut)
  | d :: r =>
    if d = '0' then
      if r.head?.any Char.isDigit then .error (.reading .badNumber r)
      else .ok (['0'], ⟨r, Nat.lt_succ_self _⟩)
    else if d.isDigit then
      .ok (d :: (run r).1, ⟨(run r).2, Nat.lt_succ_of_le (Decimal.length_run_snd r)⟩)
    else .error (.reading .badNumber (d :: r))

/-- At least one digit. -/
def readDigits (cut : Cause) (s : List Char) : Except Fault (List Char × Rest s) :=
  match s with
  | [] => .error (.atEnd cut)
  | d :: r =>
    if d.isDigit then
      .ok (d :: (run r).1, ⟨(run r).2, Nat.lt_succ_of_le (Decimal.length_run_snd r)⟩)
    else .error (.reading .badNumber (d :: r))

/-- A point and at least one digit, or nothing. -/
def readFraction (cut : Cause) (s : List Char) :
    Except Fault (List Char × { r : List Char // r.length ≤ s.length }) :=
  match s with
  | [] => .ok ([], ⟨[], Nat.le_refl _⟩)
  | c :: r =>
    if c = '.' then
      match readDigits cut r with
      | .error f => .error f
      | .ok (ds, ⟨r', h⟩) => .ok (ds, ⟨r', by rw [List.length_cons]; omega⟩)
    else .ok ([], ⟨c :: r, Nat.le_refl _⟩)

/-- A sign, or nothing; a minus is told. -/
def readSign (s : List Char) : Bool × { r : List Char // r.length ≤ s.length } :=
  match s with
  | [] => (false, ⟨[], Nat.le_refl _⟩)
  | c :: r =>
    if c = '-' then (true, ⟨r, Nat.le_succ _⟩)
    else if c = '+' then (false, ⟨r, Nat.le_succ _⟩)
    else (false, ⟨c :: r, Nat.le_refl _⟩)

/-- `e` or `E`, a sign or nothing, and at least one digit; or nothing at all. -/
def readExponent (cut : Cause) (s : List Char) :
    Except Fault (Option Exponent × { r : List Char // r.length ≤ s.length }) :=
  match s with
  | [] => .ok (none, ⟨[], Nat.le_refl _⟩)
  | c :: r =>
    if c = 'e' ∨ c = 'E' then
      match readSign r with
      | (negative, ⟨r₁, h₁⟩) =>
        match readDigits cut r₁ with
        | .error f => .error f
        | .ok (ds, ⟨r₂, h₂⟩) =>
          .ok (some ⟨negative, ds⟩, ⟨r₂, by rw [List.length_cons]; omega⟩)
    else .ok (none, ⟨c :: r, Nat.le_refl _⟩)

/-- The number behind its minus, if it has one. -/
def readUnsigned (cut : Cause) (negative : Bool) (s : List Char) :
    Except Fault (Numeral × Rest s) :=
  match readWhole cut s with
  | .error f => .error f
  | .ok (whole, ⟨r₁, h₁⟩) =>
    match readFraction cut r₁ with
    | .error f => .error f
    | .ok (fraction, ⟨r₂, h₂⟩) =>
      match readExponent cut r₂ with
      | .error f => .error f
      | .ok (exponent, ⟨r₃, h₃⟩) => .ok (⟨negative, whole, fraction, exponent⟩, ⟨r₃, by omega⟩)

def read (cut : Cause) (s : List Char) : Except Fault (Numeral × Rest s) :=
  match s with
  | [] => .error (.atEnd cut)
  | c :: r =>
    if c = '-' then
      match readUnsigned cut true r with
      | .error f => .error f
      | .ok (n, ⟨r', h⟩) => .ok (n, ⟨r', lt_length_cons c h⟩)
    else readUnsigned cut false (c :: r)

/-! ## Meaning -/

/-- Significands are below this bound. -/
def significandBound : Nat := Nat.pow 2 64

/-- Written exponents that are worth this much or more are not computed with. -/
def exponentBound : Nat := Nat.pow 2 31

/-- A significand and the power of ten that goes with it. Digits before the point that do not fit
are worth a power of ten each; digits behind the point that do not fit are worth nothing. -/
def significand (n : Numeral) : Nat × Int :=
  let (m, dropped) := absorb significandBound 0 n.whole
  let (m', ignored) := absorb significandBound m n.fraction
  (m', dropped.length - (n.fraction.length - ignored.length : Nat))

def withSign (negative : Bool) (x : Float) : Float :=
  if negative then -x else x

/-- The number of an integer literal, if its digits fit. Zero with a minus is not an integer. -/
def integer? (n : Numeral) : Option Number :=
  match absorb significandBound 0 n.whole with
  | (m, []) =>
    if n.negative then
      if 0 < m ∧ m ≤ signedBound then some (.integer (-m))
      else some (.fraction (-Decimal.floatOfNat m))
    else some (.integer m)
  | _ => none

/-- The fraction `m * 10 ^ e` with its sign; where it is too large this is known once all of the
number is read. -/
def fractionOf (negative : Bool) (m : Nat) (e : Int) : Except Nat Number :=
  match Decimal.scaled m e with
  | some x => .ok (.fraction (withSign negative x))
  | none => .error 0

/-- What a numeral denotes. One that is too large gives the number of its digits that were unread
when this was known. -/
def toNumber (n : Numeral) : Except Nat Number :=
  let (m, e) := n.significand
  match n.exponent with
  | some x =>
    match absorb exponentBound 0 x.digits with
    | (k, []) => fractionOf n.negative m (if x.negative then e - k else e + k)
    | (_, _ :: unread) =>
      if m = 0 ∨ x.negative then .ok (.fraction (withSign n.negative (Decimal.floatOfNat 0)))
      else .error unread.length
  | none =>
    if n.fraction = [] then
      match n.integer? with
      | some number => .ok number
      | none => fractionOf n.negative m e
    else fractionOf n.negative m e

end Numeral

end JsonEdit.Json
