import DualSyntax.Decimal.Shortest

/-!
# Whole parts and remainders of doubles

All three operations are exact: they work on the integers `m` and `q` of a double `m * 2 ^ q`.
-/

namespace DualSyntax.Double

/-- The double without its fraction; it keeps its sign. -/
def truncate (x : Float) : Float := if x < 0.0 then x.ceil else x.floor

/-- Whether the sign bit of a double is set. -/
def isNegative (x : Float) : Bool := x.toBits >>> 63 == 1

/-- The whole part of the magnitude `m * 2 ^ q`. -/
def wholePart (b : Binary) : Nat := b.m * Nat.pow 2 b.q.toNat / Nat.pow 2 (-b.q).toNat

/-- The whole part of a double, kept between two bounds; a double that is no number gives zero. -/
def toInteger (least greatest : Int) (x : Float) : Int :=
  if x.isNaN then 0
  else if x.isInf then if isNegative x then least else greatest
  else
    let n : Int := wholePart (Binary.ofBits x.toBits)
    max least (min greatest (if isNegative x then -n else n))

/-- The remainder of the magnitudes, in units of the smaller of their two last places. -/
def remainderParts (a b : Binary) : Nat × Int :=
  let q := min a.q b.q
  ((a.m * Nat.pow 2 (a.q - q).toNat) % (b.m * Nat.pow 2 (b.q - q).toNat), q)

/-- The remainder of a division whose quotient is cut to a whole number; it has the sign of the
dividend. -/
def remainder (x y : Float) : Float :=
  if x.isNaN || y.isNaN || x.isInf || y == 0.0 then 0.0 / 0.0
  else if y.isInf then x
  else
    let (r, q) := remainderParts (Binary.ofBits x.toBits) (Binary.ofBits y.toBits)
    let magnitude := (Float.ofNat r).scaleB q
    if isNegative x then -magnitude else magnitude

end DualSyntax.Double
