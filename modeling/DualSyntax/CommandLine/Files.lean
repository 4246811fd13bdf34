/-!
# Paths and files

A path is a row of parts with slashes between them.  It is followed part by part: a part that is
empty or a single dot stays where it is, two dots go up, and any other part goes down into the
directory that has been reached.
-/

namespace DualSyntax.CommandLine

def pathParts (path : String) : List String :=
  (path.splitOn "/").filter fun part => part != "" && part != "."

/-- The last part of a path, unless that is a place relative to another. -/
def fileName? (path : String) : Option String := (pathParts path).getLast?.filter (· != "..")

/-- The extension of a path: what follows after the last dot of its last part, if something stands
in front of that dot. -/
def extension? (path : String) : Option String := do
  let name := (← fileName? path).toList
  let extension := (name.reverse.takeWhile (· != '.')).reverse
  if name.length ≤ extension.length + 1 then none else return String.ofList extension

/-- Reads a file: its text, or the reason why it cannot be read. -/
abbrev Reader := String → Except String String

/-- Where a walk along a path has come to: `outside` levels above the directory of the files, or in
it at the place that the parts name. -/
structure Whereabouts where
  outside : Nat := 0
  parts : List String := []
deriving DecidableEq, Repr, Inhabited

inductive Entry where
  | directory
  | file (text : String)
  | nothing
deriving DecidableEq, Repr, Inhabited

inductive ReadFault where
  | missing | notDirectory | isDirectory | nameTooLong | zeroByte
deriving DecidableEq, Repr, Inhabited

def ReadFault.message : ReadFault → String
  | missing => "No such file or directory (os error 2)"
  | notDirectory => "Not a directory (os error 20)"
  | isDirectory => "Is a directory (os error 21)"
  | nameTooLong => "File name too long (os error 36)"
  | zeroByte => "file name contained an unexpected NUL byte"

/-- The greatest number of bytes of a part of a path. -/
def greatestPart : Nat := 255

/-- The greatest number of bytes of a path. -/
def greatestPath : Nat := 4095

/-- What stands at a place of a directory that holds just the given files; of several files at one
place the last counts.  Above the directory there are only the directories that lead to it. -/
def entryAt (files : List (String × String)) (w : Whereabouts) : Entry :=
  if 0 < w.outside then if w.parts.isEmpty then .directory else .nothing
  else
    match files.reverse.find? fun file => pathParts file.1 == w.parts with
    | some file => .file file.2
    | none =>
      if w.parts.isEmpty || files.any fun file => w.parts.isPrefixOf (pathParts file.1) then
        .directory
      else .nothing

/-- Goes along the parts of a path, each of which leads out of a directory. -/
def walkPath (files : List (String × String)) :
    List String → Whereabouts → Except ReadFault Whereabouts
  | [], w => .ok w
  | part :: rest, w =>
    match entryAt files w with
    | .nothing => .error .missing
    | .file _ => .error .notDirectory
    | .directory =>
      if part = "" ∨ part = "." then walkPath files rest w
      else if part = ".." then
        walkPath files rest <|
          if w.parts.isEmpty then { w with outside := w.outside + 1 }
          else { w with parts := w.parts.dropLast }
      else if greatestPart < part.utf8ByteSize then .error .nameTooLong
      else walkPath files rest { w with parts := w.parts ++ [part] }

/-- Reads a file of a directory that holds just the given files. -/
def readFrom (files : List (String × String)) (path : String) : Except ReadFault String := do
  if path.toList.contains '\x00' then throw .zeroByte
  if path.isEmpty then throw .missing
  if greatestPath < path.utf8ByteSize then throw .nameTooLong
  let start : Whereabouts := if path.toList.head? = some '/' then { outside := 1 } else {}
  match entryAt files (← walkPath files (path.splitOn "/") start) with
  | .file text => return text
  | .directory => throw .isDirectory
  | .nothing => throw .missing

def readAmong (files : List (String × String)) : Reader := fun path =>
  (readFrom files path).mapError ReadFault.message

end DualSyntax.CommandLine
