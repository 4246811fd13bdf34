import DualSyntax.Text.Blank

/-!
# The two languages

Every program is written in one of two surface languages, a subset of C# or a subset of VB, and
both share one tree.
-/

namespace DualSyntax

inductive Language where
  | csharp
  | visualBasic
deriving DecidableEq, Repr, Inhabited

namespace Language

def name : Language → String
  | csharp => "C#"
  | visualBasic => "VB"

def tag : Language → String
  | csharp => "CSharp"
  | visualBasic => "VisualBasic"

/-- The conventional file extension; it also identifies the language on the command line. -/
def extension : Language → String
  | csharp => "cs"
  | visualBasic => "vb"

def ofId? : String → Option Language
  | "cs" => some csharp
  | "vb" => some visualBasic
  | _ => none

/-- The language of a file extension in any case. -/
def ofExtension? (s : String) : Option Language := ofId? s.toLower

/-- Whether names that differ only in case are different names. -/
def caseSensitive : Language → Bool
  | csharp => true
  | visualBasic => false

def sameName (l : Language) (a b : String) : Bool :=
  if l.caseSensitive then a == b else Text.sameIgnoringCase a b

/-- The form of a word under which the word tables list it. -/
def normalize (l : Language) (s : String) : String := if l.caseSensitive then s else s.toLower

end Language

end DualSyntax
