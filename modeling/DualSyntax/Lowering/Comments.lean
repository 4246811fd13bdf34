import DualSyntax.Lowering.Draft

/-!
# Comments and blank lines

Comments in front of statements and members stay in the tree, and so does a blank line in front of
them, so that a program keeps its layout.
-/

namespace DualSyntax

def Text.stripStart? (start text : List Char) : Option (List Char) :=
  if start.isPrefixOf text then some (text.drop start.length) else none

/-- The words of a comment without its marks. -/
def commentBody : CommentKind → List Char → List Char
  | .doc, text =>
    ((Text.stripStart? "///".toList text).or (Text.stripStart? "'''".toList text)).getD text
  | .block, text =>
    match Text.stripStart? "/*".toList text with
    | some rest =>
      if "*/".toList.isSuffixOf rest then rest.take (rest.length - 2) else text
    | none => text
  | .line, text =>
    match Text.stripStart? "//".toList text with
    | some rest => rest
    | none =>
      match text with
      | '\x27' :: rest => rest
      | _ => if (text.take 3).map Char.toLower = "rem".toList then text.drop 3 else text

def commentKind? : TokenKind → Option CommentKind
  | .lineComment => some .line
  | .docComment => some .doc
  | .blockComment => some .block
  | _ => none

/-- The node of a comment: its words, without the white space at the end unless it is a block. -/
def commentNode (kind : CommentKind) (text : String) : NodeKind :=
  let body := commentBody kind text.toList
  .comment kind (String.ofList (if kind = .block then body else Text.trimEnd body))

namespace Lower

/-- The nodes of the comments in a run of trivia, with a blank line before a comment where the
source has one.  `breaks` line breaks went before, and from `threshold` on they make a blank line.
The answer also says how many line breaks are left at the end and what their threshold is. -/
def commentNodes (breaks threshold : Nat) : List Trivia → Lower (List NodeId × Nat × Nat)
  | [] => return ([], breaks, threshold)
  | t :: ts => do
    match commentKind? t.kind with
    | some kind =>
      let blank ← if threshold ≤ breaks then pure [← allocate .blankLine t.span] else pure []
      let comment ← allocate (commentNode kind t.text) t.span
      let (more, rest) ← commentNodes 0 2 ts
      return (blank ++ comment :: more, rest)
    | none => commentNodes (if t.kind = .newLine then breaks + 1 else breaks) threshold ts

/-- How many line breaks in front of the first comment make a blank line.  In VB the line break
that ends the previous statement is a token and does not count. -/
def firstThreshold : Language → Nat
  | .csharp => 2
  | .visualBasic => 1

/-- Attaches the comments in front of a match, and a blank line after the last of them, to its
node. -/
def attachLeading {δ : Type} (owner : NodeId) (raw : RawTree δ) : Lower Unit := do
  let source ← read
  let (nodes, breaks, threshold) ←
    commentNodes 0 (firstThreshold source.language) (raw.leadingTrivia source.stream)
  let blank ← if threshold ≤ breaks
    then pure [← allocate .blankLine (.emptyAt (raw.span source.stream).start)] else pure []
  for n in nodes ++ blank do push owner .leadingTrivia n

def attachTrailing (owner : NodeId) (trivia : List Trivia) : Lower Unit := do
  let (nodes, _, _) ← commentNodes 0 (firstThreshold (← read).language) trivia
  for n in nodes do push owner .trailingTrivia n

end Lower

end DualSyntax
