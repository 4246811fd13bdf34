import DualSyntax.Language.Words
import DualSyntax.Output

/-!
# Layout

What the writers of both languages share.  A writer turns a node into steps of output; pieces of
text are put together with `++`, and a piece may fail if the language has no words for it.
-/

namespace DualSyntax

inductive WriteError where
  /-- The language has no words for a kind of node. -/
  | unsupported (language : Language) (kind : String)
  /-- A node lacks a child that its text needs. -/
  | missingChild (kind : String) (title : Title)
  /-- A bound next to an integer does not fit into 64 bits. -/
  | overflow
  /-- A level of indentation is too long. -/
  | tooWide
  /-- The links of the nodes form a cycle. -/
  | tooDeep
deriving DecidableEq, Repr, Inhabited

def WriteError.message : WriteError → String
  | unsupported l kind => "`" ++ kind ++ "` has no " ++ l.name ++ " spelling"
  | missingChild kind title => "`" ++ kind ++ "` has no " ++ title.name ++ " child"
  | overflow => "a bound does not fit into 64 bits"
  | tooWide => "the indentation is too long"
  | tooDeep => "the tree is too deep"

/-- Whether an error says that the tree has no text, not that the text has no bounds. -/
def WriteError.isRefusal : WriteError → Bool
  | unsupported .. | missingChild .. => true
  | overflow | tooWide | tooDeep => false

namespace Writing

/-- What a writer knows. -/
structure Page where
  language : Language
  forest : Forest
  style : Style
  /-- Whether the text stands in the header of a statement, where statements are not ended. -/
  inHeader : Bool := false
deriving Inhabited

end Writing

abbrev Writing := ReaderT Writing.Page (Except WriteError)

/-- The steps that write something. -/
abbrev Written := Writing (List OutputStep)

instance : Append Written where
  append a b := do return (← a) ++ (← b)

namespace Writing

def nothing : Written := pure []

def step (s : OutputStep) : Written := pure [s]

def put (s : String) : Written := step (.text s)

/-- A space, unless the line is empty or ends with one. -/
def space : Written := step .space

def newLine : Written := step .newLine

/-- A text whose lines are indented by one more level. -/
def indented (body : Written) : Written := step .indent ++ body ++ step .unindent

def inOrder : List Written → Written
  | [] => nothing
  | w :: ws => w ++ inOrder ws

def separatedBy (separator : Written) : List Written → Written
  | [] => nothing
  | [w] => w
  | w :: ws => w ++ separator ++ separatedBy separator ws

def onlyIf (b : Bool) (body : Written) : Written := if b then body else nothing

def marked (n : NodeId) (body : Written) : Written := step (.start n) ++ body ++ step (.stop n)

def header (body : Written) : Written := withReader ({ · with inHeader := true }) body

def forest : Writing Forest := return (← read).forest

/-- The child under a title, which the text cannot do without. -/
def required (n : NodeId) (t : Title) : Writing NodeId := do
  let f ← forest
  match f.child? n t with
  | some c => return c
  | none => throw (.missingChild (f.kind n).name t)

def unsupported {α : Type} (n : NodeId) : Writing α := do
  let page ← read
  throw (.unsupported page.language (page.forest.kind n).name)

/-- The lines of a comment with the marks of a language.  A comment over several lines becomes one
comment for each where the language has no other. -/
def commentLines : Language → CommentKind → String → List String
  | .csharp, .line, s => ["//" ++ s]
  | .csharp, .doc, s => ["///" ++ s]
  | .csharp, .block, s => ["/*" ++ s ++ "*/"]
  | .visualBasic, .line, s => ["'" ++ s]
  | .visualBasic, .doc, s => ["'''" ++ s]
  | .visualBasic, .block, s =>
    (Text.lines s.toList).map fun l => "' " ++ String.ofList (Text.trim l)

def comment (kind : CommentKind) (s : String) : Written := do
  separatedBy newLine ((commentLines (← read).language kind s).map put)

/-- The comments and blank lines under a title, each on a line of its own. -/
def trivia (t : Title) (n : NodeId) : Written := do
  let f ← forest
  inOrder <| (f.children n t).map fun c =>
    match f.kind c with
    | .comment kind s => comment kind s ++ newLine
    | .blankLine => newLine
    | _ => nothing

def leadingTrivia : NodeId → Written := trivia .leadingTrivia

/-- The comments and blank lines in front of the end of a node. -/
def trailingTrivia : NodeId → Written := trivia .trailingTrivia

/-- The value of an integer literal, whatever parentheses stand around it. -/
def integerUpTo (f : Forest) : Nat → NodeId → Option Nat
  | 0, _ => none
  | fuel + 1, n =>
    match f.kind n with
    | .primitiveExpression ⟨.integer value _, _⟩ => some value
    | .parenthesizedExpression => do integerUpTo f fuel (← f.child? n .expression)
    | _ => none

/-- The value of an integer literal, whatever parentheses stand around it. -/
def integer? (f : Forest) (n : NodeId) : Option Nat := integerUpTo f (f.size + 1) n

def successor (n : Nat) : Written :=
  if n + 1 < Nat.pow 2 64 then put (toString (n + 1)) else throw .overflow

variable (node : NodeId → Written)

def commaSeparated (ns : List NodeId) : Written :=
  separatedBy (put "," ++ space) (ns.map node)

def commaSeparatedAt (n : NodeId) (t : Title) : Written := do
  commaSeparated node ((← forest).children n t)

/-- Nodes on lines of their own, each after its comments. -/
def onLines (ns : List NodeId) : Written :=
  inOrder (ns.map fun n => leadingTrivia n ++ node n ++ newLine)

def ifChild (n : NodeId) (t : Title) (before : Written) : Written := do
  match (← forest).child? n t with
  | some c => before ++ node c
  | none => nothing

def childOr (n : NodeId) (t : Title) (word : String) : Written := do
  match (← forest).child? n t with
  | some c => node c
  | none => put word

end Writing

end DualSyntax
