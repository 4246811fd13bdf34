import DualSyntax.CommandLine.Files
import DualSyntax.Parsing
import DualSyntax.Writing

/-!
# Command line

The commands that a user can give, how they are read from arguments, and what they print.  Reading
files is left to an argument, so that a run is a function of the command and of the files.
-/

namespace DualSyntax

inductive Command where
  /-- Prints the outline of the tree of a file. -/
  | parse (file : String) (language : Option Language)
  /-- Prints a file in a language, in the style that another file describes. -/
  | convert (file : String) (language : Option Language) (target : Language)
      (style : Option String)
  /-- Prints the tokens of a file. -/
  | tokens (file : String) (language : Option Language)
deriving DecidableEq, Repr, Inhabited

structure Outcome where
  failed : Bool := false
  output : String := ""
  errors : String := ""
deriving DecidableEq, Repr, Inhabited

/-- The outcome of a run that stops at an error. -/
def Outcome.ofError (message : String) : Outcome :=
  { failed := true, errors := "error: " ++ message ++ "\n" }

namespace CommandLine

/-! ## Arguments -/

/-- Arguments told apart: those that stand for themselves, and options with their values. -/
structure Arguments where
  positional : List String := []
  options : List (String × String) := []
deriving DecidableEq, Repr, Inhabited

/-- Whether an argument is a value: a dash alone is one, what else starts with a dash is not. -/
def isValue (argument : String) : Bool :=
  argument == "-" || argument.toList.head? != some '-'

/-- An option with the value that is written behind an equals sign. -/
def option? (argument : String) : Option (String × Option String) :=
  match argument.toList with
  | '-' :: '-' :: cs =>
    let name := String.ofList (cs.takeWhile (· != '='))
    match cs.dropWhile (· != '=') with
    | [] => some (name, none)
    | _ :: value => some (name, some (String.ofList value))
  | _ => none

/-- Tells arguments apart.  An option takes the next argument if no value is written behind it, and
after two dashes all arguments stand for themselves. -/
def arguments? (known : List String) : List String → Option Arguments
  | [] => some {}
  | argument :: rest =>
    if argument == "--" then some { positional := rest }
    else if isValue argument then do
      let others ← arguments? known rest
      return { others with positional := argument :: others.positional }
    else
      match option? argument, rest with
      | some (name, some value), rest =>
        if known.contains name then do
          let others ← arguments? known rest
          return { others with options := (name, value) :: others.options }
        else none
      | some (name, none), value :: rest =>
        if known.contains name && isValue value then do
          let others ← arguments? known rest
          return { others with options := (name, value) :: others.options }
        else none
      | _, _ => none

/-- The language that an option names; a language that is none is an error. -/
def language? (a : Arguments) (name : String) : Option (Option Language) :=
  match a.options.lookup name with
  | none => some none
  | some "cs" => some (some .csharp)
  | some "vb" => some (some .visualBasic)
  | some _ => none

/-- The file and the arguments of a command with one file, each of whose options is given at most
once. -/
def withFile? (known : List String) (arguments : List String) : Option (String × Arguments) := do
  let a ← arguments? known arguments
  let names := a.options.map (·.1)
  match a.positional with
  | [file] => if names.eraseDups.length == names.length then some (file, a) else none
  | _ => none

def command? : List String → Option Command
  | "parse" :: rest => do
    let (file, a) ← withFile? ["syntax"] rest
    return .parse file (← language? a "syntax")
  | "convert" :: rest => do
    let (file, a) ← withFile? ["to", "syntax", "style"] rest
    let language ← language? a "syntax"
    let target ← (← language? a "to")
    return .convert file language target (a.options.lookup "style")
  | "tokens" :: rest => do
    let (file, a) ← withFile? ["syntax"] rest
    return .tokens file (← language? a "syntax")
  | _ => none

/-! ## Files -/

/-- A failure before anything is parsed. -/
inductive Refusal where
  | unreadable (path reason : String)
  | unknownLanguage (path : String)
  | invalidStyle (path : String)
deriving DecidableEq, Repr, Inhabited

def Refusal.message : Refusal → String
  | unreadable path reason => "can't read `" ++ path ++ "`: " ++ reason
  | unknownLanguage path =>
    "can't tell the surface syntax of `" ++ path ++ "`; pass `--syntax cs|vb`"
  | invalidStyle path => "invalid style file `" ++ path ++ "`"

def contents (read : Reader) (path : String) : Except Refusal String :=
  (read path).mapError (.unreadable path)

/-- The language and the text of a source file.  The language is told by the extension unless it is
given. -/
def load (read : Reader) (path : String) (language : Option Language) :
    Except Refusal (Language × List Char) := do
  match language.or ((extension? path).bind Language.ofExtension?) with
  | none => throw (.unknownLanguage path)
  | some l => return (l, (← contents read path).toList)

/-- The style that a file describes; the usual one if there is no file. -/
def loadStyle (read : Reader) : Option String → Except Refusal Style
  | none => return {}
  | some path => do
    match Style.ofText? (← contents read path) with
    | some style => return style
    | none => throw (.invalidStyle path)

/-! ## Runs -/

/-- The texts of reports, each followed by an empty line.  There is none if a report has no
window. -/
def reports? (path : String) (src : List Char) (rs : List Report) : Option String := do
  let texts ← rs.mapM (·.render? false path src (.ofText src))
  return String.join (texts.map (· ++ "\n"))

/-- Runs what follows after parsing a file: its diagnostics are printed first. -/
def parsing? (path : String) (l : Language) (src : List Char) (next : Parsed → Option Outcome) :
    Option Outcome :=
  match DualSyntax.parse l .compilationUnit src with
  | .ok parsed => do
    let printed ← reports? path src (parsed.diagnostics.map Diagnostic.report)
    let outcome ← next parsed
    return { outcome with output := printed ++ outcome.output }
  | .error (.lexical fault) => do
    return { failed := true, output := ← reports? path src [fault.report] }
  | .error (.rejected diagnostics) => do
    return { failed := true, output := ← reports? path src (diagnostics.map Diagnostic.report) }
  | .error e => some (.ofError e.message)

def tokenLine (t : Token) : String :=
  t.kind.name ++ " " ++ toString t.span ++ " " ++ Text.quoted t.text ++ "\n"

def outcome? (read : Reader) : Command → Except Refusal (Option Outcome)
  | .parse file language => do
    let (l, src) ← load read file language
    return parsing? file l src fun p => some { output := p.forest.outline p.root ++ "\n" }
  | .convert file language target style => do
    let (l, src) ← load read file language
    let style ← loadStyle read style
    return parsing? file l src fun p =>
      match write target p.forest p.root style with
      | .ok o => some { output := o.text }
      | .error e => if e.isRefusal then some (.ofError e.message) else none
  | .tokens file language => do
    let (l, src) ← load read file language
    match Source.ofText l src with
    | .ok source =>
      return some { output := String.join (source.stream.tokens.toList.map tokenLine) }
    | .error (.lexical fault) =>
      return (reports? file src [fault.report]).map fun s => { failed := true, output := s }
    | .error e => return some (.ofError e.message)

/-- Runs a command.  There is no outcome if a report has no window or a text has no bounds. -/
def run? (read : Reader) (c : Command) : Option Outcome :=
  match outcome? read c with
  | .ok o => o
  | .error refusal => some (.ofError refusal.message)

def files : Command → List String
  | .parse file _ | .tokens file _ => [file]
  | .convert file _ _ style => file :: style.toList

end CommandLine

end DualSyntax
