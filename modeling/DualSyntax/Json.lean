import DualSyntax.Decimal.Reading

/-!
# JSON

Reading and writing of JSON texts.  The reader is strict: no comments, no trailing commas, no
control characters in strings, no unpaired surrogates, and nothing after the value.  Values may be
nested to a fixed depth.
-/

namespace DualSyntax

/-- A JSON value.  Numbers keep their spelling, objects the order of their members. -/
inductive Json where
  | null
  | bool (b : Bool)
  | number (spelling : String)
  | string (s : String)
  | array (items : List Json)
  | object (members : List (String × Json))
deriving Inhabited

namespace Json

def ofNat (n : Nat) : Json := .number (toString n)

def ofString? (s : Option String) : Json := s.elim .null .string

def ofOption (j : Option Json) : Json := j.getD .null

def get? (j : Json) (name : String) : Option Json :=
  match j with
  | object members => (members.reverse.find? (·.1 == name)).map (·.2)
  | _ => none

def asString? : Json → Option String
  | string s => some s
  | _ => none

def asBool? : Json → Option Bool
  | bool b => some b
  | _ => none

def asArray? : Json → Option (List Json)
  | array items => some items
  | _ => none

/-- The value of a number without sign, point and exponent that fits into 64 bits. -/
def asNat? : Json → Option Nat
  | number s =>
    let cs := s.toList
    if cs.all Reading.isDigit then Reading.below? (Nat.pow 2 64) 10 cs else none
  | _ => none

/-- The value of a number without point and exponent that fits into 64 bits with or without a
sign. -/
def asInt? : Json → Option Int
  | number s =>
    match s.toList with
    | '-' :: ds =>
      if ds.all Reading.isDigit then
        (Reading.below? (Nat.pow 2 63 + 1) 10 ds).map fun n => -(n : Int)
      else none
    | ds =>
      if ds.all Reading.isDigit then (Reading.below? (Nat.pow 2 64) 10 ds).map fun n => (n : Int)
      else none
  | _ => none

/-! ## Reading -/

def isBlank (c : Char) : Bool := c == ' ' || c == '\n' || c == '\t' || c == '\r'

/-- A text without the blanks at its start. -/
def skipBlanks (cs : List Char) : List Char := cs.dropWhile isBlank

/-- The value of four hexadecimal digits. -/
def hex4? (a b c d : Char) : Option Nat :=
  let isHex (x : Char) : Bool :=
    Reading.isDigit x || ('a' ≤ x && x ≤ 'f') || ('A' ≤ x && x ≤ 'F')
  if [a, b, c, d].all isHex then some (Reading.ofDigits 16 [a, b, c, d]) else none

def escaped? : Char → Option Char
  | '"' => some '"'
  | '\\' => some '\\'
  | '/' => some '/'
  | 'b' => some '\x08'
  | 'f' => some '\x0c'
  | 'n' => some '\n'
  | 'r' => some '\r'
  | 't' => some '\t'
  | _ => none

/-- Reads a string after its opening quote; the answer is its text, latest character first, and
the rest. -/
def readString (fuel : Nat) (acc : List Char) (cs : List Char) :
    Option (List Char × List Char) :=
  match fuel, cs with
  | 0, _ | _, [] => none
  | _ + 1, '"' :: rest => some (acc, rest)
  | fuel + 1, '\\' :: 'u' :: a :: b :: c :: d :: rest => do
    let n ← hex4? a b c d
    if 0xD800 ≤ n ∧ n < 0xDC00 then
      match rest with
      | '\\' :: 'u' :: a :: b :: c :: d :: rest =>
        let m ← hex4? a b c d
        if 0xDC00 ≤ m ∧ m < 0xE000 then
          let code := 0x10000 + (n - 0xD800) * 0x400 + (m - 0xDC00)
          readString fuel (Char.ofNat code :: acc) rest
        else none
      | _ => none
    else if 0xDC00 ≤ n ∧ n < 0xE000 then none
    else readString fuel (Char.ofNat n :: acc) rest
  | fuel + 1, '\\' :: c :: rest => do
    let x ← escaped? c
    readString fuel (x :: acc) rest
  | fuel + 1, c :: rest => if c.toNat < 0x20 then none else readString fuel (c :: acc) rest

def digits (cs : List Char) : List Char × List Char :=
  (cs.takeWhile Reading.isDigit, cs.dropWhile Reading.isDigit)

/-- The fraction of a number, if there is one; a point needs a digit after it. -/
def readFraction : List Char → Option (List Char × List Char)
  | '.' :: cs =>
    match digits cs with
    | ([], _) => none
    | (ds, rest) => some ('.' :: ds, rest)
  | cs => some ([], cs)

/-- The exponent of a number, if there is one; the mark needs a digit after it. -/
def readExponent : List Char → Option (List Char × List Char)
  | c :: cs =>
    if c = 'e' ∨ c = 'E' then
      let (sign, cs) := match cs with
        | '+' :: cs => (['+'], cs)
        | '-' :: cs => (['-'], cs)
        | cs => ([], cs)
      match digits cs with
      | ([], _) => none
      | (ds, rest) => some (c :: sign ++ ds, rest)
    else some ([], c :: cs)
  | [] => some ([], [])

/-- The spelling of the number at the head of a text; a leading zero stands alone. -/
def numeral (cs : List Char) : Option (List Char × List Char) := do
  let (sign, cs) := match cs with
    | '-' :: cs => (['-'], cs)
    | cs => ([], cs)
  let (whole, rest) ← match digits cs with
    | ([], _) => none
    | (['0'], rest) => some (['0'], rest)
    | ('0' :: _, _) => none
    | found => some found
  let (fraction, rest) ← readFraction rest
  let (exponent, rest) ← readExponent rest
  return (sign ++ whole ++ fraction ++ exponent, rest)

/-- Reads a number, whose value must be finite. -/
def readNumber (cs : List Char) : Option (Json × List Char) := do
  let (cs, rest) ← numeral cs
  let spelling := String.ofList cs
  let x ← Reading.real? spelling
  if x.isInf then none else some (.number spelling, rest)

/-- The members of a list: values with commas between them up to the closing character.  The first
reader reads one of them. -/
def readItems {α : Type} (close : Char) (item : List Char → Option (α × List Char)) :
    Nat → List α → List Char → Option (List α × List Char)
  | 0, _, _ => none
  | fuel + 1, acc, cs => do
    let (x, rest) ← item (skipBlanks cs)
    match skipBlanks rest with
    | c :: rest =>
      if c = ',' then readItems close item fuel (x :: acc) rest
      else if c = close then some ((x :: acc).reverse, rest)
      else none
    | [] => none

/-- Reads a list that may be empty after its opening character. -/
def readList {α : Type} (close : Char) (item : List Char → Option (α × List Char))
    (cs : List Char) : Option (List α × List Char) :=
  match skipBlanks cs with
  | c :: rest => if c = close then some ([], rest) else readItems close item cs.length [] cs
  | [] => none

def readWord (word : String) (value : Json) (cs : List Char) : Option (Json × List Char) :=
  if word.toList.isPrefixOf cs then some (value, cs.drop word.length) else none

def readMember (value : List Char → Option (Json × List Char)) :
    List Char → Option ((String × Json) × List Char)
  | '"' :: cs => do
    let (name, rest) ← readString (cs.length + 1) [] cs
    match skipBlanks rest with
    | ':' :: rest =>
      let (v, rest) ← value (skipBlanks rest)
      some ((String.ofList name.reverse, v), rest)
    | _ => none
  | _ => none

/-- Reads a value nested to at most the given depth. -/
def readValue : Nat → List Char → Option (Json × List Char)
  | depth, cs =>
    match cs with
    | 'n' :: _ => readWord "null" .null cs
    | 't' :: _ => readWord "true" (.bool true) cs
    | 'f' :: _ => readWord "false" (.bool false) cs
    | '"' :: rest =>
      (readString (rest.length + 1) [] rest).map fun (s, rest) =>
        (.string (String.ofList s.reverse), rest)
    | '[' :: rest =>
      match depth with
      | 0 => none
      | depth + 1 =>
        (readList ']' (readValue depth) rest).map fun (items, rest) => (.array items, rest)
    | '\x7b' :: rest =>
      match depth with
      | 0 => none
      | depth + 1 =>
        (readList '\x7d' (readMember (readValue depth)) rest).map fun (members, rest) =>
          (.object members, rest)
    | cs => readNumber cs

/-- The greatest depth of a text that is read. -/
def depthLimit : Nat := 127

def parse? (s : String) : Option Json := do
  let (value, rest) ← readValue depthLimit (skipBlanks s.toList)
  if (skipBlanks rest).isEmpty then some value else none

/-! ## Writing -/

def writeChar (c : Char) : String :=
  if c = '"' then "\\\""
  else if c = '\\' then "\\\\"
  else if c = '\n' then "\\n"
  else if c = '\r' then "\\r"
  else if c = '\t' then "\\t"
  else if c.toNat < 0x20 then
    let digit (n : Nat) : Char := "0123456789abcdef".toList.getD n '0'
    "\\u00" ++ String.ofList [digit (c.toNat / 16), digit (c.toNat % 16)]
  else c.toString

def writeString (s : String) : String :=
  s.foldl (fun acc c => acc ++ writeChar c) "\"" ++ "\""

mutual

/-- The text of a value, without blanks, added to a text. -/
def write (acc : String) : Json → String
  | null => acc ++ "null"
  | bool b => acc ++ toString b
  | number s => acc ++ s
  | string s => acc ++ writeString s
  | array items => writeItems (acc.push '[') true items |>.push ']'
  | object members => writeMembers (acc.push '\x7b') true members |>.push '\x7d'

def writeItems (acc : String) (isFirst : Bool) : List Json → String
  | [] => acc
  | j :: js => writeItems (write (if isFirst then acc else acc.push ',') j) false js

def writeMembers (acc : String) (isFirst : Bool) : List (String × Json) → String
  | [] => acc
  | (name, j) :: js =>
    let acc := (if isFirst then acc else acc.push ',') ++ writeString name
    writeMembers (write (acc.push ':') j) false js

end

def text (j : Json) : String := write "" j

end Json

end DualSyntax
