import DualSyntax.Decimal.Shortest

/-!
# Writing real numbers

Two ways to lay out the shortest digits of a double: the positional form, and the marked form whose
text always shows that the number is real.
-/

namespace DualSyntax

/-- The decisions of a way to write real numbers. -/
structure RealNotation where
  /-- Whole numbers end in `.0`. -/
  pointZero : Bool
  /-- The exponents of the leading digit that are written positionally, from the first up to but
  not including the second; all of them if absent. -/
  positional : Option (Int × Int)
deriving DecidableEq, Repr

namespace RealNotation

/-- Digits in their places, whatever the size of the number. -/
def plain : RealNotation := ⟨false, none⟩

/-- Positional from `10^-4` up to `10^16`, otherwise with an exponent; never read as an integer. -/
def marked : RealNotation := ⟨true, some (-4, 16)⟩

def positionalText (pointZero : Bool) (d : Decimal) : List Char :=
  let ds := Nat.toDigits 10 d.digits
  let point := (ds.length : Int) + d.exp
  if 0 ≤ d.exp then
    ds ++ List.replicate d.exp.toNat '0' ++ (if pointZero then ['.', '0'] else [])
  else if 0 < point then
    ds.take point.toNat ++ '.' :: ds.drop point.toNat
  else
    '0' :: '.' :: (List.replicate (-point).toNat '0' ++ ds)

/-- A decimal as its leading digit, the other digits after a point, and the exponent. -/
def exponentText (d : Decimal) : List Char :=
  let ds := Nat.toDigits 10 d.digits
  let e := (ds.length : Int) - 1 + d.exp
  let fraction := if ds.length = 1 then [] else '.' :: ds.drop 1
  ds.take 1 ++ fraction ++ 'e' :: (toString e).toList

def decimalText (f : RealNotation) (d : Decimal) : List Char :=
  let e := ((Nat.toDigits 10 d.digits).length : Int) - 1 + d.exp
  match f.positional with
  | none => positionalText f.pointZero d
  | some (lo, hi) =>
    if d.digits = 0 ∨ (lo ≤ e ∧ e < hi) then positionalText f.pointZero d else exponentText d

/-- The text of a double: the shortest digits that read back, with a sign if the sign bit is set. -/
def text (f : RealNotation) (x : Float) : String :=
  if x.isNaN then "NaN"
  else
    let bits := x.toBits
    let negative := bits >>> 63 == 1
    let body :=
      if x.isInf then ['i', 'n', 'f'] else f.decimalText (Binary.ofBits bits).shortest
    String.ofList (if negative then '-' :: body else body)

end RealNotation

end DualSyntax
