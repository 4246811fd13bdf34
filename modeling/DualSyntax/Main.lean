import DualSyntax.CommandLine

/-!
# The program

Reads the files that a command names, runs it and prints what it has to say.
-/

open DualSyntax

def readFailure : IO.Error → String
  | .userError _ => "stream did not contain valid UTF-8"
  | .noFileOrDirectory _ code reason | .permissionDenied (some _) code reason
  | .inappropriateType (some _) code reason => reason ++ " (os error " ++ toString code ++ ")"
  | e => toString e

/-- The text of a file, or the reason why it cannot be read. -/
def readText (path : String) : IO (Except String String) := do
  match ← (IO.FS.readFile path).toBaseIO with
  | .ok text => return .ok text
  | .error e => return .error (readFailure e)

def usage : String :=
  "usage: parse FILE [--syntax cs|vb]\n" ++
  "       convert FILE --to cs|vb [--syntax cs|vb] [--style FILE]\n" ++
  "       tokens FILE [--syntax cs|vb]\n"

def main (arguments : List String) : IO UInt32 := do
  match CommandLine.command? arguments with
  | none =>
    IO.eprint usage
    return 2
  | some command =>
    let texts ← (CommandLine.files command).mapM fun path => do
      return (path, ← readText path)
    let read (path : String) : Except String String :=
      (texts.lookup path).getD (.error "not read")
    match CommandLine.run? read command with
    | none =>
      IO.eprint "error: a report does not fit the text\n"
      return 101
    | some outcome =>
      IO.print outcome.output
      IO.eprint outcome.errors
      return if outcome.failed then 1 else 0
