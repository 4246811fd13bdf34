/-!
# Reading real numbers

Decimal numerals with an optional sign, point and exponent, and the names of the values that are no
numbers; the result is the nearest double.
-/

namespace DualSyntax.Reading

def isDigit (c : Char) : Bool := '0' ≤ c && c ≤ '9'

/-- The value of a digit in base 16 or less. -/
def digitValue (c : Char) : Nat :=
  if isDigit c then c.toNat - '0'.toNat
  else if 'a' ≤ c ∧ c ≤ 'f' then c.toNat - 'a'.toNat + 10
  else if 'A' ≤ c ∧ c ≤ 'F' then c.toNat - 'A'.toNat + 10
  else 0

/-- The value of a list of digits in a base, most significant first. -/
def ofDigits (base : Nat) (ds : List Char) : Nat :=
  ds.foldl (fun n c => n * base + digitValue c) 0

/-- The double nearest to `m * 10 ^ e`.  Beyond the range of doubles the answer is known without
computing the power. -/
def nearest (m : Nat) (e : Int) : Float :=
  let size := (Nat.toDigits 10 m).length + e
  if m = 0 ∨ size < -400 then 0.0
  else if 400 < size then 1.0 / 0.0
  else Float.ofScientific m (e < 0) e.natAbs

/-- Reads the part of a numeral after its mantissa: nothing, or an exponent. -/
def exponent? : List Char → Option Int
  | [] => some 0
  | c :: cs =>
    if c = 'e' ∨ c = 'E' then
      let (negative, ds) := match cs with
        | '+' :: ds => (false, ds)
        | '-' :: ds => (true, ds)
        | ds => (false, ds)
      if ds.isEmpty || !ds.all isDigit then none
      else
        let n : Int := ofDigits 10 ds
        some (if negative then -n else n)
    else none

/-- Reads an unsigned numeral: digits with an optional point, at least one digit, and an optional
exponent. -/
def unsigned? (cs : List Char) : Option Float :=
  let whole := cs.takeWhile isDigit
  let rest := cs.dropWhile isDigit
  let (fraction, rest) := match rest with
    | '.' :: r => (r.takeWhile isDigit, r.dropWhile isDigit)
    | r => ([], r)
  if whole.isEmpty && fraction.isEmpty then none
  else (exponent? rest).map fun e => nearest (ofDigits 10 (whole ++ fraction)) (e - fraction.length)

/-- Reads a real number: a numeral, `inf`, `infinity` or `nan` in any case, after an optional
sign. -/
def real? (s : String) : Option Float :=
  let (negative, body) := match s.toList with
    | '+' :: cs => (false, cs)
    | '-' :: cs => (true, cs)
    | cs => (false, cs)
  let name := String.ofList (body.map Char.toLower)
  let value :=
    if name == "inf" || name == "infinity" then some (1.0 / 0.0)
    else if name == "nan" then some (0.0 / 0.0)
    else unsigned? body
  value.map fun x => if negative then -x else x

/-- Reads a natural number below `limit` in a base; there is none for an empty list of digits. -/
def below? (limit base : Nat) (ds : List Char) : Option Nat :=
  if ds.isEmpty then none
  else
    let n := ofDigits base ds
    if n < limit then some n else none

end DualSyntax.Reading
