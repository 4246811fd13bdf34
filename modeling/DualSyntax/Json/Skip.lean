import DualSyntax.Json

/-!
# Skipping JSON values

A reader that wants only some members of an object skips the values of the others.  A skipped value
must be well formed, but what it denotes does not matter: a number may be beyond all bounds, an
escape may stand for half a character, and lists may be nested to any depth, because only their
closing brackets are remembered.
-/

namespace DualSyntax.Json

def skipString : List Char → Option (List Char)
  | [] => none
  | '"' :: rest => some rest
  | '\\' :: 'u' :: a :: b :: c :: d :: rest =>
    if (hex4? a b c d).isSome then skipString rest else none
  | '\\' :: c :: rest => if (escaped? c).isSome then skipString rest else none
  | c :: rest => if c.toNat < 0x20 then none else skipString rest

/-- Skips the name of a member and the colon after it. -/
def skipName (cs : List Char) : Option (List Char) := do
  match skipBlanks cs with
  | '"' :: rest =>
    match skipBlanks (← skipString rest) with
    | ':' :: rest => some rest
    | _ => none
  | _ => none

/-- Skips a value that is no list. -/
def skipScalar (cs : List Char) : Option (List Char) :=
  match cs with
  | 'n' :: _ => (readWord "null" .null cs).map (·.2)
  | 't' :: _ => (readWord "true" .null cs).map (·.2)
  | 'f' :: _ => (readWord "false" .null cs).map (·.2)
  | '"' :: rest => skipString rest
  | cs => (numeral cs).map (·.2)

/-- The closing bracket that belongs to an opening one. -/
def closing? : Char → Option Char
  | '[' => some ']'
  | '\x7b' => some '\x7d'
  | _ => none

/-- Goes to the next value of the list that ends with a bracket: members have names. -/
def enter (close : Char) (cs : List Char) : Option (List Char) :=
  if close = '\x7d' then skipName cs else some cs

/-- Goes on after a value.  The lists that end there are closed, up to one that goes on with a
comma; the answer is what is still open, innermost first, and the rest. -/
def closeLists : List Char → List Char → Option (List Char × List Char)
  | [], cs => some ([], cs)
  | close :: pending, cs =>
    match skipBlanks cs with
    | c :: rest =>
      if c = ',' then (enter close rest).map fun rest => (close :: pending, rest)
      else if c = close then closeLists pending rest
      else none
    | [] => none

/-- Skips values until the brackets that are still pending, innermost first, are closed. -/
def skipPending : Nat → List Char → List Char → Option (List Char)
  | 0, _, _ => none
  | fuel + 1, pending, cs => do
    let next (pending rest : List Char) : Option (List Char) := do
      match ← closeLists pending rest with
      | ([], rest) => some rest
      | (pending, rest) => skipPending fuel pending rest
    match skipBlanks cs with
    | [] => none
    | c :: rest =>
      match closing? c with
      | none => next pending (← skipScalar (c :: rest))
      | some close =>
        match skipBlanks rest with
        | d :: after =>
          if d = close then next pending after
          else skipPending fuel (close :: pending) (← enter close rest)
        | [] => none

/-- Skips one value.  Every round takes at least one character. -/
def skipValue (cs : List Char) : Option (List Char) := skipPending (cs.length + 1) [] cs

/-- Reads the member of an object; the value of one that is not wanted is skipped. -/
def readWanted (wanted : String → Bool) :
    List Char → Option (Option (String × Json) × List Char)
  | '"' :: cs => do
    let (name, rest) ← readString (cs.length + 1) [] cs
    let name := String.ofList name.reverse
    match skipBlanks rest with
    | ':' :: rest =>
      if wanted name then
        let (v, rest) ← readValue depthLimit (skipBlanks rest)
        some (some (name, v), rest)
      else
        (skipValue rest).map fun rest => (none, rest)
    | _ => none
  | _ => none

/-- Reads a JSON text of which, if it is an object, only the wanted members matter. -/
def parseWanted? (wanted : String → Bool) (s : String) : Option Json :=
  match skipBlanks s.toList with
  | '\x7b' :: cs => do
    let (members, rest) ← readList '\x7d' (readWanted wanted) cs
    if (skipBlanks rest).isEmpty then some (.object members.reduceOption) else none
  | _ => parse? s

end DualSyntax.Json
