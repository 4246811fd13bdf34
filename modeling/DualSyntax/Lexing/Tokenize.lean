import DualSyntax.Lexing.CSharp
import DualSyntax.Lexing.VisualBasic
import DualSyntax.Token.Stream

/-!
# From text to tokens

The text is cut into lexemes from left to right.  Trivia is collected until a token comes, which
takes it along; the end marker takes what is left.
-/

namespace DualSyntax.Lexing

/-- What stands in front of the remaining text. -/
structure Context where
  /-- The offset of the remaining text. -/
  offset : Nat := 0
  /-- The character in front of it. -/
  before : Option Char := none
  /-- The kind of the last token. -/
  last : Option TokenKind := none
  /-- The trivia since the last token, latest first. -/
  pending : List Trivia := []

def triviaAt (l : Language) (cx : Context) (cs : List Char) : Found :=
  match l with
  | .csharp => CSharp.trivia cs
  | .visualBasic => .ok (VisualBasic.trivia cx.before cx.last cs)

/-- The token at the head of a text that does not begin with trivia. -/
def tokenAt (l : Language) (cs : List Char) : Found :=
  match l with
  | .csharp => CSharp.token cs
  | .visualBasic => VisualBasic.token cs

/-- The lexeme at the head of a text that is not empty, and whether it is trivia. -/
def next (l : Language) (cx : Context) (cs : List Char) : Except LexFault (Bool × Lexeme) := do
  match ← triviaAt l cx cs with
  | some found => return (true, found)
  | none => return (false, (← tokenAt l cs).getD unknown)

/-- The context after a piece of text. -/
def Context.pass (cx : Context) (text : List Char) : Context :=
  { cx with offset := cx.offset + Text.byteLength text, before := text.getLast?.or cx.before }

/-- The tokens of a text in its context.  Every lexeme takes at least one character, so as many
steps as there are characters suffice. -/
def tokensFrom (l : Language) : Nat → Context → List Char → Except LexFault (List Token)
  | 0, cx, _ | _, cx, [] =>
    .ok [{ kind := .eof, span := .emptyAt cx.offset, text := "", leading := cx.pending.reverse }]
  | fuel + 1, cx, c :: cs =>
    match next l cx (c :: cs) with
    | .error fault => .error (fault.shift cx.offset)
    | .ok (isTrivia, found) =>
      let text := (c :: cs).take found.length
      let rest := (c :: cs).drop found.length
      let after := cx.pass text
      let span : Span := ⟨cx.offset, after.offset⟩
      if isTrivia then
        let piece : Trivia := ⟨found.kind, span, String.ofList text⟩
        tokensFrom l fuel { after with pending := piece :: cx.pending } rest
      else
        let token : Token :=
          { kind := found.kind, span, text := String.ofList text, value := found.value,
            leading := cx.pending.reverse }
        (tokensFrom l fuel { after with last := some found.kind, pending := [] } rest).map
          (token :: ·)

end DualSyntax.Lexing

namespace DualSyntax

def tokenize (l : Language) (src : List Char) : Except LexFault TokenStream :=
  (Lexing.tokensFrom l src.length {} src).map .ofTokens

end DualSyntax
