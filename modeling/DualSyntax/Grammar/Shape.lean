import DualSyntax.Node.Kind
import DualSyntax.Node.Title

/-!
# Shapes

A shape says how the match of a definition becomes a node of the tree.  Most shapes build one node
and read the children of the match part by part: a token that is kept under a title, a nested match
that becomes a child, a list whose elements become children.  The shapes that work otherwise have
names of their own.
-/

namespace DualSyntax

/-- A step in reading the children of a match into a node. -/
inductive Part (δ : Type) where
  /-- A token of this kind, kept under a title. -/
  | keep (k : TokenKind) (t : Title)
  /-- A token of this kind if it is there, kept under a title. -/
  | keepMaybe (k : TokenKind) (t : Title)
  /-- The next token, whatever it is, kept under a title. -/
  | keepAny (t : Title)
  /-- A token of this kind, kept under a title; the comments in front of it belong to the node. -/
  | close (k : TokenKind) (t : Title)
  /-- A token of this kind that leaves no trace. -/
  | drop (k : TokenKind)
  /-- A token of this kind, if it is there, that leaves no trace. -/
  | dropMaybe (k : TokenKind)
  /-- The next token, whatever it is; it leaves no trace. -/
  | dropAny
  /-- A token of this kind, if it is there, that is reported as needless. -/
  | needless (k : TokenKind)
  /-- The next match, a child under a title. -/
  | node (t : Title)
  /-- The next match if there is one, a child under a title. -/
  | nodeMaybe (t : Title)
  /-- The next match if it is of this definition, a child under a title. -/
  | formMaybe (d : δ) (t : Title)
  /-- The matches that follow, children under a title. -/
  | nodes (t : Title)
  /-- The matches of this definition that follow, children under a title. -/
  | forms (d : δ) (t : Title)
  /-- All children of the match itself, tokens included, children under a title. -/
  | everything (t : Title)
  /-- The elements of the match itself, which is a list, children under a title. -/
  | elements (t : Title)
  /-- The elements of the next match, which is a list, children under a title. -/
  | list (t : Title)
  /-- The next match, a child under a title; an empty statement there is suspicious. -/
  | body (t : Title)
  /-- The next match, a child under a title unless it is the word for the empty type. -/
  | resultType (t : Title)
  /-- A built-in object type at the token of this kind, if the token is there and no child hangs
  under the title. -/
  | objectDefault (k : TokenKind) (t : Title)
  /-- If a token of this kind is there: the token, kept under a title or not, and then more. -/
  | given (k : TokenKind) (kept : Option Title) (parts : List (Part δ))
  /-- If the next match is of this definition, its children are read into the same node. -/
  | within (d : δ) (parts : List (Part δ))
  /-- The matches of this definition that follow are read into the same node. -/
  | withinAll (d : δ) (parts : List (Part δ))
  /-- The modifiers in the next match. -/
  | modifiers
  /-- The modifiers among the tokens of the match itself. -/
  | ownModifiers
  /-- A modifier spelled by a token of this kind, if it is there. -/
  | modifierMaybe (k : TokenKind)
  /-- The modifiers in the next match without those that say which accessors a property has. -/
  | propertyModifiers
  /-- The accessors that a property has without spelling them out, placed at the token of this
  kind. -/
  | impliedAccessors (k : TokenKind)
  /-- The matches of this definition that follow, accessors of a property. -/
  | accessors (d : δ)
  /-- The matches that follow, members of a type; constructors without a name take the name of
  the type, which is the match of this definition among the children. -/
  | typeMembers (name : δ)
  /-- The next match if there is one: a declaration of this definition, or else a list of
  expressions that become statements. -/
  | headerItems (declaration : δ) (t : Title)
  /-- The variables declared by the next match; the definitions are those of array suffixes, of
  type clauses and of clauses that create an object. -/
  | declarators (suffix asType asNew : δ)
  /-- The comments between the match and the next token. -/
  | commentsAfter

/-- How a match becomes a node. -/
inductive Shape (δ : Type) where
  /-- The node of the only child. -/
  | forward
  /-- A name. -/
  | identifier
  /-- A literal. -/
  | literal
  /-- A built-in type. -/
  | knownType
  /-- A new node over the whole match. -/
  | build (kind : NodeKind) (parts : List (Part δ))
  /-- A new node over the whole match that is made after its first operands; each of them hangs
  under a title, and tokens that leave no trace stand in front of it. -/
  | join (kind : NodeKind) (operands : List (List TokenKind × Title)) (parts : List (Part δ))
  /-- The node of the first child, with more parts. -/
  | extend (parts : List (Part δ))
  /-- A chain of binary operators, grouped from the left or from the right. -/
  | chain (operator? : TokenKind → Option BinaryOperator) (rightward : Bool)
  /-- A dotted name as a type. -/
  | qualifiedType
  /-- A type with pointer stars and array ranks after it. -/
  | rankedType
  /-- An expression with member accesses, calls, indexings and increments after it. -/
  | suffixed
  /-- An expression with comparisons and type tests after it. -/
  | comparisons (operator? : TokenKind → Option BinaryOperator)
  /-- An array creation with sizes; ranks after the sizes belong to the element type.  The sizes
  have the given meaning, or else they are upper bounds wherever they are spelled. -/
  | sizedArray (rank : δ) (bounds : Option ArrayBounds)
  /-- An array creation whose initializer gives the size. -/
  | listedArray
  /-- A block `If` with its `ElseIf` and `Else` parts. -/
  | ifBlock (elseIf elsePart : δ)
  /-- A `Do` loop with its condition before or after the body. -/
  | doLoop
  /-- A case of a `Select` with its labels. -/
  | caseBlock
  /-- An assignment that is a statement of its own. -/
  | assignment (operator? : TokenKind → Option AssignmentOperator)
  /-- A parameter whose name may have an array rank. -/
  | rankedParameter (passing : ParameterModifier) (rank clause : δ)
  /-- A match that this kind of node should not have. -/
  | refused (expected : String)

namespace Shape

/-- A node that is built when there is anything but a single child to forward to. -/
def forwardOr {δ : Type} (tokens : List TokenKind) (s : Shape δ) : Shape δ :=
  if tokens.isEmpty then forward else s

end Shape

end DualSyntax
