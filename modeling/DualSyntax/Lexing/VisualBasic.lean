import DualSyntax.Lexing.Lexeme

/-!
# Lexemes of VB

Line breaks end statements, so most of them are tokens.  A line break that cannot end a statement
is trivia: one at the start of the text, after a token that must go on, before a closing bracket or
after an explicit continuation mark.
-/

namespace DualSyntax.Lexing.VisualBasic

/-- The symbols, longer ones first. -/
def symbols : List (String × TokenKind) :=
  [("<<=", .ltLtEq), (">>=", .gtGtEq), ("<>", .ltGt), ("<=", .ltEq), (">=", .gtEq),
   ("<<", .ltLt), (">>", .gtGt), ("+=", .plusEq), ("-=", .minusEq), ("*=", .starEq),
   ("/=", .slashEq), ("\\=", .backslashEq), ("^=", .caretEq), ("&=", .ampEq),
   ("?.", .questionDot), ("(", .lParen), (")", .rParen), ("\x7b", .lBrace), ("\x7d", .rBrace),
   (",", .comma), (".", .dot), (":", .colon), ("?", .question), ("+", .plus), ("-", .minus),
   ("*", .star), ("/", .slash), ("\\", .backslash), ("^", .caret), ("&", .amp), ("=", .eq),
   ("<", .lt), (">", .gt), ("!", .bang)]

/-- The suffix of a number, in any case. -/
def suffix? (s : String) : Option NumberSuffix :=
  match s.toLower with
  | "" => some .none
  | "s" => some .short
  | "us" => some .ushort
  | "i" => some .integer
  | "ui" => some .uinteger
  | "l" => some .long
  | "ul" => some .ulong
  | "f" => some .float
  | "r" => some .double
  | "d" => some .decimal
  | _ => none

/-- Tokens after which the statement goes on in the next line. -/
def continuesLine : TokenKind → Bool
  | .comma | .lParen | .lBrace | .dot | .eq | .ltGt | .lt | .gt | .ltEq | .gtEq | .plus | .minus
  | .star | .slash | .backslash | .caret | .amp | .ltLt | .gtGt | .plusEq | .minusEq | .starEq
  | .slashEq | .backslashEq | .caretEq | .ampEq | .ltLtEq | .gtGtEq | .kwAnd | .kwAndAlso | .kwOr
  | .kwOrElse | .kwXor | .kwMod | .kwIs | .kwIsNot | .colon | .newLine => true
  | _ => false

def isBlank (c : Char) : Bool := c == ' ' || c == '\t' || c == '\r'

/-- A continuation mark: an underscore after a blank, with nothing but blanks after it on its
line.  It takes the line break along. -/
def continuation (before : Option Char) : List Char → Option Lexeme
  | '_' :: cs =>
    let n := runLength isBlank cs
    match before, cs.drop n with
    | some b, rest =>
      if b = ' ' ∨ b = '\t' then
        match rest with
        | [] => some ⟨.lineContinuation, 1 + n, none⟩
        | '\n' :: _ => some ⟨.lineContinuation, 2 + n, none⟩
        | _ => none
      else none
    | none, _ => none
  | _ => none

/-- A comment to the end of the line, after `'` or the word `Rem`. -/
def comment (cs : List Char) : Option Lexeme :=
  if "'".toList.isPrefixOf cs then
    some ⟨if "'''".toList.isPrefixOf cs then .docComment else .lineComment, lineLength cs, none⟩
  else if startsIgnoringCase "rem" cs && !headIs isNameBody (cs.drop 3) then
    some ⟨.lineComment, lineLength cs, none⟩
  else none

def closesBracket (cs : List Char) : Bool :=
  headIs (fun c => c == ')' || c == '\x7d') (cs.dropWhile Text.isAsciiBlank)

/-- A line break that does not end a statement. -/
def innerLineBreak (last : Option TokenKind) (cs : List Char) : Option Lexeme :=
  if headIs (· == '\n') cs && (last.all continuesLine || closesBracket cs) then
    some ⟨.newLine, 1, none⟩
  else none

/-- A piece of trivia after the character `before` and the token `last`. -/
def trivia (before : Option Char) (last : Option TokenKind) (cs : List Char) : Option Lexeme :=
  (blanks isBlank cs).or <| (continuation before cs).or <| (comment cs).or <|
    innerLineBreak last cs

/-- A line break that ends a statement. -/
def lineBreak (cs : List Char) : Found :=
  .ok (if headIs (· == '\n') cs then some ⟨.newLine, 1, none⟩ else none)

/-- A number, hexadecimal after `&H`. -/
def number (cs : List Char) : Found :=
  if startsIgnoringCase "&h" cs && headIs isHexDigit (cs.drop 2) then
    .ok (some (hexadecimal 2 suffix? cs))
  else decimal suffix? cs

/-- A string, where a doubled quote stands for one, or a character if `c` follows. -/
def string : List Char → Found
  | '"' :: cs => do
    let (value, n) ← doubledQuoteBody false 1 cs
    let rest := cs.drop n
    if headIs (fun c => c == 'c' || c == 'C') rest && !headIs isNameBody (rest.drop 1) then
      charLexeme value ('"' :: cs.take (n + 1))
    else return some ⟨.stringLiteral, n + 1, some (.string (String.ofList value))⟩
  | _ => .ok none

/-- A name in brackets, which may be a reserved word; without the closing bracket it is an error
token. -/
def escapedName : List Char → Found
  | '[' :: cs =>
    if headIs isNameStart cs then
      let n := runLength isNameBody cs
      .ok (some (if headIs (· == ']') (cs.drop n) then ⟨.identifier, n + 2, none⟩
        else ⟨.error, n + 1, none⟩))
    else .ok none
  | _ => .ok none

def token (cs : List Char) : Found :=
  firstOf cs [lineBreak, number, string, escapedName, word .visualBasic, symbol symbols]

end DualSyntax.Lexing.VisualBasic
