import JsonEdit.Decimal.Shortest

/-!
# Fractions as text

A fraction is written with its shortest decimal: positionally while the exponent of its first digit
is from `-5` to `15`, otherwise with one digit before the point and a signed exponent. The text
always shows a point or an exponent, so it never reads as an integer.
-/

namespace JsonEdit.Decimal

/-- Digits with the point set after the place worth `10 ^ 0`, the last digit being worth `10 ^ k`.
-/
def positional (ds : List Char) (k : Int) : List Char :=
  let leading := ds.length + k
  if 0 ≤ k then ds ++ List.replicate k.toNat '0' ++ ['.', '0']
  else if 0 < leading then ds.take leading.toNat ++ '.' :: ds.drop leading.toNat
  else '0' :: '.' :: List.replicate (-leading).toNat '0' ++ ds

/-- One digit, the others after a point, and the exponent `x` of the first digit. -/
def scientific (ds : List Char) (x : Int) : List Char :=
  let mark := if 0 ≤ x then ['e', '+'] else ['e', '-']
  let point := if ds.length ≤ 1 then [] else ['.']
  ds.take 1 ++ point ++ ds.drop 1 ++ mark ++ digits x.natAbs

/-- The decimal `c * 10 ^ k`. -/
def layout (c : Nat) (k : Int) : List Char :=
  let ds := digits c
  let x := ds.length + k - 1
  if -5 ≤ x ∧ x ≤ 15 then positional ds k else scientific ds x

/-- The text of a float, `null` for one that is not finite. The sign of zero is kept. -/
def writeFloat (x : Float) : List Char :=
  let bits := x.toBits
  let sign := if bits >>> 63 = 1 then ['-'] else []
  if (bits >>> 52) &&& 0x7FF = 0x7FF then ['n', 'u', 'l', 'l']
  else if bits <<< 1 = 0 then sign ++ ['0', '.', '0']
  else
    let (c, k) := (Binary.ofBits bits).shortest
    sign ++ layout c k

end JsonEdit.Decimal
