import DualSyntax.Grammar.Basic
import DualSyntax.Token.Stream

/-!
# Raw trees

What a grammar matched: a node for every definition, a leaf for every token with the trivia in
front of it.  A node also knows the token indices between which it stands, because a node that
matched nothing has no leaf to tell its place.
-/

namespace DualSyntax

inductive RawTree (δ : Type) where
  | leaf (token : Token)
  /-- A match of a definition (of none for the whole text) from token `first` up to token `last`,
  the latter excluded. -/
  | node (form : Option δ) (first last : Nat) (children : List (RawTree δ))
deriving Inhabited

namespace RawTree

variable {δ : Type}

def children : RawTree δ → List (RawTree δ)
  | leaf _ => []
  | node _ _ _ cs => cs

def token? : RawTree δ → Option Token
  | leaf t => some t
  | node .. => none

def childTokens (t : RawTree δ) : List Token := t.children.filterMap token?

def isForm [BEq δ] (d : δ) : RawTree δ → Bool
  | node (some e) .. => d == e
  | _ => false

def formName (g : Grammar δ) : RawTree δ → String
  | node (some d) .. => g.name d
  | _ => "ROOT"

mutual

def tokens : RawTree δ → List Token
  | leaf t => [t]
  | node _ _ _ cs => tokensOf cs

def tokensOf : List (RawTree δ) → List Token
  | [] => []
  | t :: ts => tokens t ++ tokensOf ts

end

mutual

def height : RawTree δ → Nat
  | leaf _ => 1
  | node _ _ _ cs => heightOf cs + 1

def heightOf : List (RawTree δ) → Nat
  | [] => 0
  | t :: ts => max (height t) (heightOf ts)

end

def text (t : RawTree δ) : String :=
  String.join (t.tokens.flatMap fun t => t.leading.map (·.text) ++ [t.text])

/-- The span from the first to the last token; a node without tokens stands right after the token
before it. -/
def span (s : TokenStream) : RawTree δ → Span
  | leaf t => t.span
  | node _ first last _ =>
    if first < last then
      ((s.get? first).elim (.emptyAt 0) (·.span)).cover
        ((s.get? (last - 1)).elim (.emptyAt 0) (·.span))
    else .emptyAt (s.endBefore first)

def leadingTrivia (s : TokenStream) : RawTree δ → List Trivia
  | leaf t => t.leading
  | node _ first last _ => if first < last then s.leadingTrivia first else []

/-- The trivia between the end of a node and the next token. -/
def triviaAfter (s : TokenStream) : RawTree δ → List Trivia
  | leaf _ => []
  | node _ _ last _ => s.leadingTrivia last

/-- The children at even and at odd places. -/
def alternate : List (RawTree δ) → List (RawTree δ) × List (RawTree δ)
  | [] => ([], [])
  | t :: ts => let (xs, ys) := alternate ts; (t :: ys, xs)

/-- The elements and the separators of a match of a list definition. -/
def listItems (g : Grammar δ) (t : RawTree δ) : List (RawTree δ) × List (RawTree δ) :=
  match t with
  | node (some d) _ _ cs =>
    if (g.rule d).any Rule.isSeparated then alternate cs else (cs, [])
  | t => (t.children, [])

mutual

/-- The nodes of a tree, parents before children. -/
def nodes : RawTree δ → List (RawTree δ)
  | leaf _ => []
  | node f i j cs => node f i j cs :: nodesOf cs

def nodesOf : List (RawTree δ) → List (RawTree δ)
  | [] => []
  | t :: ts => nodes t ++ nodesOf ts

end

def indent (depth : Nat) : String := String.ofList (List.replicate (2 * depth) ' ')

mutual

def outline (g : Grammar δ) (depth : Nat) : RawTree δ → String
  | leaf t => indent depth ++ t.kind.name ++ " " ++ Text.quoted t.text ++ "\n"
  | node f _ _ cs => indent depth ++ f.elim "ROOT" g.name ++ "\n" ++ outlineOf g (depth + 1) cs

def outlineOf (g : Grammar δ) (depth : Nat) : List (RawTree δ) → String
  | [] => ""
  | t :: ts => outline g depth t ++ outlineOf g depth ts

end

end RawTree

end DualSyntax
