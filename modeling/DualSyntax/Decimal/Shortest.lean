/-!
# The fewest decimal digits that identify a binary number

A finite double is `m * 2^q`.  The reals that round to it form an interval, and `shortest` picks, of
the decimals in that interval with the fewest digits, the one nearest to the number; of two that
are equally near it takes the larger.  All comparisons are exact.
-/

namespace DualSyntax

/-- The number `digits * 10 ^ exp`. -/
structure Decimal where
  digits : Nat
  exp : Int
deriving DecidableEq, Repr, Inhabited

/-- A finite non-negative double, `m * 2 ^ q`. -/
structure Binary where
  m : Nat
  q : Int
  /-- The gap to the next smaller double is half the gap to the next larger one. -/
  narrowBelow : Bool
deriving DecidableEq, Repr

namespace Binary

/-- The magnitude of a finite double, from its bits. -/
def ofBits (b : UInt64) : Binary :=
  let e := ((b >>> 52) &&& 0x7FF).toNat
  let f := (b &&& 0xFFFFFFFFFFFFF).toNat
  if e = 0 then ⟨f, -1074, false⟩ else ⟨Nat.pow 2 52 + f, (e : Int) - 1075, f == 0 && 1 < e⟩

/-- Compares `a * 10 ^ i` with `n * 2 ^ j`. -/
def compareScaled (a : Nat) (i : Int) (n : Nat) (j : Int) : Ordering :=
  compare (a * Nat.pow 10 i.toNat * Nat.pow 2 (-j).toNat)
    (n * Nat.pow 2 j.toNat * Nat.pow 10 (-i).toNat)

/-- Whether a decimal lies among the reals that round to `x`.  The ends of that interval belong to
it when `m` is even. -/
def readsBack (x : Binary) (d : Decimal) : Bool :=
  let lo := if x.narrowBelow then 4 * x.m - 1 else 4 * x.m - 2
  let hi := 4 * x.m + 2
  let closed := x.m % 2 == 0
  let below := compareScaled d.digits d.exp lo (x.q - 2)
  let above := compareScaled d.digits d.exp hi (x.q - 2)
  (below == .gt || (closed && below == .eq)) && (above == .lt || (closed && above == .eq))

def decimalLength (n : Nat) : Nat := (Nat.toDigits 10 n).length

/-- The least `k` with `x < 10 ^ k`, for a positive `x`. -/
def scale (x : Binary) : Int :=
  let num := x.m * Nat.pow 2 x.q.toNat
  let den := Nat.pow 2 (-x.q).toNat
  if den ≤ num then decimalLength (num / den)
  else 1 - (decimalLength ((den - 1) / num) : Int)

/-- The multiple of `10 ^ e` at or below `x`, as a number of steps. -/
def floorOn (x : Binary) (e : Int) : Nat :=
  x.m * Nat.pow 2 x.q.toNat * Nat.pow 10 (-e).toNat /
    (Nat.pow 2 (-x.q).toNat * Nat.pow 10 e.toNat)

/-- The neighbour of `x` on the grid of step `10 ^ e` that reads back and is nearest to `x`. -/
def nearestOn? (x : Binary) (e : Int) : Option Decimal :=
  let lo : Decimal := ⟨x.floorOn e, e⟩
  let hi : Decimal := ⟨x.floorOn e + 1, e⟩
  match x.readsBack lo, x.readsBack hi with
  | true, true =>
    -- twice `x` lies below the sum of its neighbours exactly when the lower one is nearer
    if compareScaled (lo.digits + hi.digits) e (2 * x.m) x.q == .gt then some lo else some hi
  | true, false => some lo
  | false, true => some hi
  | false, false => none

/-- The exact value of `x` as a decimal. -/
def exact (x : Binary) : Decimal :=
  if 0 ≤ x.q then ⟨x.m * Nat.pow 2 x.q.toNat, 0⟩ else ⟨x.m * Nat.pow 5 (-x.q).toNat, x.q⟩

end Binary

/-- Moves trailing zeros of the digits into the exponent, at most `fuel` of them. -/
def Decimal.strip : Nat → Decimal → Decimal
  | 0, d => d
  | fuel + 1, d =>
    if d.digits ≠ 0 ∧ d.digits % 10 = 0 then Decimal.strip fuel ⟨d.digits / 10, d.exp + 1⟩ else d

/-- The decimal with the fewest digits that reads back as `x`, nearest to `x` among those. -/
def Binary.shortest (x : Binary) : Decimal :=
  if x.m = 0 then ⟨0, 0⟩
  else
    let k := x.scale
    let found := (List.range 17).findSome? fun n => x.nearestOn? (k - (n + 1 : Nat))
    let d := found.getD x.exact
    d.strip (Binary.decimalLength d.digits)

end DualSyntax
