import DualSyntax.Lexing.Lexeme

/-!
# Lexemes of C#

Line breaks are trivia.  Strings have backslash escapes; a string after `@` is verbatim, and `@`
before a word makes it a name.
-/

namespace DualSyntax.Lexing.CSharp

/-- The symbols, longer ones first. -/
def symbols : List (String × TokenKind) :=
  [("<<=", .ltLtEq), (">>=", .gtGtEq), ("??", .questionQuestion), ("?.", .questionDot),
   ("++", .plusPlus), ("--", .minusMinus), ("->", .arrow), ("=>", .fatArrow), ("==", .eqEq),
   ("!=", .bangEq), ("<=", .ltEq), (">=", .gtEq), ("&&", .ampAmp), ("||", .pipePipe),
   ("<<", .ltLt), (">>", .gtGt), ("+=", .plusEq), ("-=", .minusEq), ("*=", .starEq),
   ("/=", .slashEq), ("%=", .percentEq), ("^=", .caretEq), ("&=", .ampEq), ("|=", .pipeEq),
   ("(", .lParen), (")", .rParen), ("\x7b", .lBrace), ("\x7d", .rBrace), ("[", .lBracket),
   ("]", .rBracket), (";", .semicolon), (",", .comma), (".", .dot), (":", .colon),
   ("?", .question), ("+", .plus), ("-", .minus), ("*", .star), ("/", .slash), ("%", .percent),
   ("^", .caret), ("&", .amp), ("|", .pipe), ("~", .tilde), ("!", .bang), ("=", .eq),
   ("<", .lt), (">", .gt)]

/-- The suffix of a number, in any case. -/
def suffix? (s : String) : Option NumberSuffix :=
  match s.toLower with
  | "" => some .none
  | "u" => some .uinteger
  | "l" => some .long
  | "ul" | "lu" => some .ulong
  | "f" => some .float
  | "d" => some .double
  | "m" => some .decimal
  | _ => none

/-- Space, tab, carriage return and form feed. -/
def isBlank (c : Char) : Bool := c == ' ' || c == '\t' || c == '\r' || c == '\x0c'

/-- A line break: a line feed, or a carriage return and a line feed. -/
def lineBreak : List Char → Option Lexeme
  | '\n' :: _ => some ⟨.newLine, 1, none⟩
  | '\r' :: '\n' :: _ => some ⟨.newLine, 2, none⟩
  | _ => none

/-- A comment to the end of the line; exactly three slashes make it a documentation comment. -/
def lineComment (cs : List Char) : Option Lexeme :=
  if "//".toList.isPrefixOf cs then
    let isDoc := "///".toList.isPrefixOf cs && !"////".toList.isPrefixOf cs
    some ⟨if isDoc then .docComment else .lineComment, lineLength cs, none⟩
  else none

/-- The number of characters up to and including the end of a block comment. -/
def blockCommentLength (o : Nat) : List Char → Except LexFault Nat
  | [] => .error ⟨.unterminatedComment, ⟨0, o⟩⟩
  | '*' :: '/' :: _ => .ok 2
  | c :: cs => (blockCommentLength (o + c.utf8Size) cs).map (· + 1)

/-- A comment between `/*` and the next `*/`. -/
def blockComment : List Char → Found
  | '/' :: '*' :: cs => do
    let n ← blockCommentLength 2 cs
    return some ⟨.blockComment, n + 2, none⟩
  | _ => .ok none

def trivia (cs : List Char) : Found :=
  match (lineBreak cs).or ((blanks isBlank cs).or (lineComment cs)) with
  | some found => .ok (some found)
  | none => blockComment cs

/-- A number, hexadecimal after `0x`. -/
def number (cs : List Char) : Found :=
  if startsIgnoringCase "0x" cs then .ok (some (hexadecimal 2 suffix? cs)) else decimal suffix? cs

/-- A string after `@`, where a doubled quote stands for one and line breaks are allowed. -/
def verbatimString : List Char → Found
  | '@' :: '"' :: cs => do
    let (value, n) ← doubledQuoteBody true 2 cs
    return some ⟨.stringLiteral, n + 2, some (.string (String.ofList value))⟩
  | _ => .ok none

/-- The character that a simple escape stands for. -/
def simpleEscape? : Char → Option Char
  | 'n' => some '\n'
  | 'r' => some '\r'
  | 't' => some '\t'
  | '0' => some '\x00'
  | 'a' => some '\x07'
  | 'b' => some '\x08'
  | 'v' => some '\x0b'
  | 'f' => some '\x0c'
  | '\\' => some '\\'
  | '\x27' => some '\x27'
  | '"' => some '"'
  | _ => none

/-- The character with a hexadecimal code, if there is one.  The code may have a plus sign. -/
def codedChar? (code : List Char) : Option Char :=
  let digits := match code with
    | '+' :: ds => ds
    | ds => ds
  if !digits.isEmpty && digits.all isHexDigit then
    let n := Reading.ofDigits 16 digits
    if n.isValidChar then some (Char.ofNat n) else none
  else none

/-- The text between quotes with its escapes decoded, and the number of characters up to and
including the closing quote.  `o` is the offset of the text from the start of the literal. -/
def escapedBody (quote : Char) (o : Nat) : List Char → Except LexFault (List Char × Nat)
  | [] => .error ⟨.unterminatedString, ⟨0, o⟩⟩
  | '\\' :: 'u' :: cs =>
    match cs with
    | a :: b :: c :: d :: rest =>
      match codedChar? [a, b, c, d] with
      | some x => (escapedBody quote (o + 6) rest).map fun (value, n) => (x :: value, n + 6)
      | none =>
        .error ⟨.invalidEscape, ⟨o, o + 2 + (if (Text.takeBytes? 4 cs).isSome then 4 else 0)⟩⟩
    | _ => .error ⟨.invalidEscape, ⟨o, o + 2 + (if (Text.takeBytes? 4 cs).isSome then 4 else 0)⟩⟩
  | '\\' :: c :: cs =>
    match simpleEscape? c with
    | some x => (escapedBody quote (o + 2) cs).map fun (value, n) => (x :: value, n + 2)
    | none => .error ⟨.invalidEscape, ⟨o, o + 2⟩⟩
  | ['\\'] => .error ⟨.invalidEscape, ⟨o, o + 2⟩⟩
  | c :: cs =>
    if c = quote then .ok ([], 1)
    else if c = '\n' then .error ⟨.unterminatedString, ⟨0, o⟩⟩
    else (escapedBody quote (o + c.utf8Size) cs).map fun (value, n) => (c :: value, n + 1)

def string : List Char → Found
  | '"' :: cs => do
    let (value, n) ← escapedBody '"' 1 cs
    return some ⟨.stringLiteral, n + 1, some (.string (String.ofList value))⟩
  | _ => .ok none

def character : List Char → Found
  | '\x27' :: cs => do
    let (value, n) ← escapedBody '\x27' 1 cs
    charLexeme value ('\x27' :: cs.take n)
  | _ => .ok none

/-- A name after `@`, which may be a reserved word. -/
def escapedName : List Char → Found
  | '@' :: cs =>
    .ok (if headIs isNameStart cs then some ⟨.identifier, 1 + runLength isNameBody cs, none⟩
      else none)
  | _ => .ok none

def token (cs : List Char) : Found :=
  firstOf cs [number, verbatimString, string, character, escapedName, word .csharp, symbol symbols]

end DualSyntax.Lexing.CSharp
