import JsonEdit.Decimal.Digits

/-!
# The shortest decimal of a float

* A finite float stands for all reals that round to it. Among the decimals in that interval those
  with the fewest digits are shortest, and of these the nearest to the float is taken; an exact
  tie goes to the even one.
* `shortest` tries the grids `10 ^ k` from the coarsest down. On each grid only the two points next
  to the float matter: the first grid that has one of them in the interval wins.
* All comparisons are between natural numbers.
-/

namespace JsonEdit.Decimal

/-- A positive float, `significand * 2 ^ exponent`. -/
structure Binary where
  significand : Nat
  exponent : Int
  /-- The float below is only half as far away as the float above. -/
  narrow : Bool

/-- The magnitude of a finite float with these bits. -/
def Binary.ofBits (bits : UInt64) : Binary :=
  let e := ((bits >>> 52) &&& 0x7FF).toNat
  let f := (bits &&& 0xFFFFFFFFFFFFF).toNat
  if e = 0 then ⟨f, -1074, false⟩ else ⟨Nat.pow 2 52 + f, e - 1075, f = 0 && 1 < e⟩

/-- The interval of a float as seen from a grid: the point `c` of the grid lies at `c * unit`, the
float at `middle`, and the reals that round to it from `low` to `high`. -/
structure Grid where
  unit : Nat
  low : Nat
  middle : Nat
  high : Nat
  /-- The ends of the interval belong to it. -/
  closed : Bool

/-- The grid `10 ^ k`. Quarters of the float's last place keep the ends of the interval whole. -/
def Binary.grid (x : Binary) (k : Int) : Grid :=
  let quarter := x.exponent - 2
  let scale := Nat.pow 2 quarter.toNat * Nat.pow 10 (-k).toNat
  { unit := Nat.pow 2 (-quarter).toNat * Nat.pow 10 k.toNat
    low := (4 * x.significand - if x.narrow then 1 else 2) * scale
    middle := 4 * x.significand * scale
    high := (4 * x.significand + 2) * scale
    closed := x.significand % 2 = 0 }

namespace Grid

/-- The point `c` lies among the reals that round to the float. -/
def holds (g : Grid) (c : Nat) : Bool :=
  if g.closed then g.low ≤ c * g.unit && c * g.unit ≤ g.high
  else g.low < c * g.unit && c * g.unit < g.high

/-- The point of the grid nearest to the float, if a point lies in the interval. -/
def pick? (g : Grid) : Option Nat :=
  let below := g.middle / g.unit
  match g.holds below, g.holds (below + 1) with
  | true, true =>
    match compare (2 * g.middle) ((2 * below + 1) * g.unit) with
    | .lt => some below
    | .gt => some (below + 1)
    | .eq => some (if below % 2 = 0 then below else below + 1)
  | true, false => some below
  | false, true => some (below + 1)
  | false, false => none

end Grid

/-- No decimal in the interval of `x` lies on a grid coarser than this one. -/
def Binary.coarsest (x : Binary) : Int :=
  (x.significand.log2 + x.exponent + 1) * 30103 / 100000 + 2

/-- The value of `x` itself, digit for digit. -/
def Binary.exact (x : Binary) : Nat × Int :=
  if 0 ≤ x.exponent then (x.significand * Nat.pow 2 x.exponent.toNat, 0)
  else (x.significand * Nat.pow 5 (-x.exponent).toNat, x.exponent)

/-- Digits `c` and exponent `k` of the shortest decimal `c * 10 ^ k`. -/
def Binary.shortest (x : Binary) : Nat × Int :=
  let grids := (List.range 24).map fun (i : Nat) => x.coarsest - i
  let found := grids.findSome? fun k => (x.grid k).pick?.map fun c => (c, k)
  found.getD x.exact

end JsonEdit.Decimal
