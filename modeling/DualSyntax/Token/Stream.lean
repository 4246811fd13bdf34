import DualSyntax.Token.Kind
import DualSyntax.Token.Value
import DualSyntax.Text.Position

/-!
# Tokens and token streams

Trivia (blanks, comments, line breaks) is kept out of the tokens of a stream, in a list of its own that
says in front of which token each piece stands.  Since every piece stands in front of some token, the
end marker at the latest, writing each token after its trivia gives back the source.
-/

namespace DualSyntax

/-- A piece of source text that carries no meaning for the grammar. -/
structure Trivia where
  kind : TokenKind
  span : Span
  text : String
deriving DecidableEq, Inhabited

structure Token where
  kind : TokenKind
  span : Span
  text : String
  /-- What the literal denotes, for literals and the two boolean words. -/
  value : Option LiteralValue := none
  /-- The trivia between the previous token and this one, in source order. -/
  leading : List Trivia := []
deriving Inhabited

/-- The tokens of a source text, the last of which is the end marker, and beside them the trivia. -/
structure TokenStream where
  tokens : Array Token
  /-- Each piece of trivia with the index of the token that it stands in front of. -/
  trivia : List (Nat × Trivia) := []
deriving Inhabited

/-- Where the entries that satisfy a condition end, in a list in which all of them come first. -/
def partitionPoint {α : Type} (p : α → Bool) (xs : List α) : Nat := xs.findIdx (!p ·)

namespace TokenStream

/-- The trivia that was read in front of each token, with the index that the token gets. -/
def triviaFrom : Nat → List Token → List (Nat × Trivia)
  | _, [] => []
  | i, t :: ts => t.leading.map (i, ·) ++ triviaFrom (i + 1) ts

/-- The stream of tokens that have been read one after the other. -/
def ofTokens (ts : List Token) : TokenStream := ⟨ts.toArray, triviaFrom 0 ts⟩

def size (s : TokenStream) : Nat := s.tokens.size

def get? (s : TokenStream) (i : Nat) : Option Token := s.tokens[i]?

/-- The trivia in front of the token at an index: the part of the list of trivia between the smaller
indices and the greater ones. -/
def leadingTrivia (s : TokenStream) (i : Nat) : List Trivia :=
  let lo := partitionPoint (·.1 < i) s.trivia
  let hi := partitionPoint (·.1 ≤ i) s.trivia
  ((s.trivia.take hi).drop lo).map (·.2)

/-- What the pieces of a stream give in order, the trivia in front of each token before the token. -/
def inOrder {α : Type} (s : TokenStream) (f : Trivia → α) (g : Token → α) : List α :=
  (List.range s.size).flatMap fun i => (s.leadingTrivia i).map f ++ (s.get? i).toList.map g

def text (s : TokenStream) : String := String.join (s.inOrder (·.text) (·.text))

/-- The offset at which the tokens before index `i` end. -/
def endBefore (s : TokenStream) : Nat → Nat
  | 0 => 0
  | i + 1 => (s.get? i).elim 0 (·.span.stop)

end TokenStream

end DualSyntax
