import JsonEdit.Decimal.Digits

/-!
# Floats from a significand and a power of ten

Two ways to read `m * 10 ^ e`:

* `scaled` multiplies or divides the float of `m` by a float power of ten, in steps of at most
  `10 ^ 308`. Each step rounds, so the result may miss the nearest float.
* `nearest` rounds once.
-/

namespace JsonEdit.Decimal

/-- The float nearest to a natural number. -/
def floatOfNat (m : Nat) : Float :=
  Float.ofScientific m false 0

/-- The float nearest to `10 ^ k`. -/
def tenPower (k : Nat) : Float :=
  Float.ofScientific 1 false k

/-- The largest power of ten that is a float. -/
def maxStep : Nat := 308

/-- `x` divided by `10 ^ k`, the largest step first. -/
def shrink (x : Float) (k : Nat) : Float :=
  if k ≤ maxStep then x / tenPower k
  else if x == 0 then x
  else shrink (x / tenPower maxStep) (k - maxStep)
termination_by k
decreasing_by
  have : maxStep = 308 := rfl
  omega

/-- `m * 10 ^ e` in rounded steps; `none` where it is too large for a float. -/
def scaled (m : Nat) : Int → Option Float
  | .ofNat k =>
    if k ≤ maxStep then
      let x := floatOfNat m * tenPower k
      if x.isInf then none else some x
    else if m = 0 then some (floatOfNat m)
    else none
  | .negSucc k => some (shrink (floatOfNat m) (k + 1))

/-- The float nearest to the number that the digits `ds` write, times `10 ^ e`; `none` where it is
too large for a float. A number of `n` digits lies between `10 ^ (n - 1)` and `10 ^ n`, which
settles all exponents far from zero. -/
def nearest (ds : List Char) (e : Int) : Option Float :=
  let counted := ds.dropWhile (· = '0')
  let magnitude := e + counted.length
  if counted = [] ∨ magnitude < -330 then some (floatOfNat 0)
  else if 330 < magnitude then none
  else
    let x := Float.ofScientific (value counted) (e < 0) e.natAbs
    if x.isInf then none else some x

end JsonEdit.Decimal
