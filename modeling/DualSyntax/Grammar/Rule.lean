import DualSyntax.Token.Kind

/-!
# Grammar rules

A rule says what a definition matches.  Rules refer to definitions by a type `δ` of names, so that
they may refer to each other freely.  Choices are ordered: the first alternative that matches wins.
-/

namespace DualSyntax

/-- What a definition matches. -/
inductive Rule (δ : Type) where
  /-- Matches nothing and always succeeds. -/
  | empty
  /-- Matches one token of a kind. -/
  | token (k : TokenKind)
  /-- Matches what another definition matches. -/
  | ref (d : δ)
  | sequence (rules : List (Rule δ))
  | choice (rules : List (Rule δ))
  | optional (rule : Rule δ)
  /-- Matches elements with separators between them, at least `least` elements; `trailing` allows
  a separator after the last one. -/
  | list (element : Rule δ) (separator : Option (Rule δ)) (least : Nat) (trailing : Bool)
  /-- Succeeds without matching anything where the rule does not match. -/
  | notAhead (rule : Rule δ)
deriving Inhabited, BEq

namespace Rule

variable {δ : Type}

def oneOf (kinds : List TokenKind) : Rule δ := choice (kinds.map token)

def star (r : Rule δ) : Rule δ := list r none 0 false

def plus (r : Rule δ) : Rule δ := list r none 1 false

/-- Any number of matches with separators between them. -/
def sepBy (r separator : Rule δ) : Rule δ := list r (some separator) 0 false

def sepBy1 (r separator : Rule δ) : Rule δ := list r (some separator) 1 false

/-- A list that allows a separator after its last element; other rules stay as they are. -/
def allowTrailing : Rule δ → Rule δ
  | list r separator least _ => list r separator least true
  | r => r

/-- Succeeds without matching anything where the rule matches. -/
def ahead (r : Rule δ) : Rule δ := notAhead (notAhead r)

/-- One rule and then another; a sequence is made longer. -/
def andThen : Rule δ → Rule δ → Rule δ
  | sequence rs, r => sequence (rs ++ [r])
  | r, s => sequence [r, s]

/-- One rule or else another; a choice gets one more alternative. -/
def orElse : Rule δ → Rule δ → Rule δ
  | choice rs, r => choice (rs ++ [r])
  | r, s => choice [r, s]

def isSeparated : Rule δ → Bool
  | list _ separator _ _ => separator.isSome
  | _ => false

mutual

/-- The size of a rule: how many rules it is made of. -/
def size : Rule δ → Nat
  | empty | token _ | ref _ => 1
  | sequence rs | choice rs => 1 + sizeAll rs
  | optional r | notAhead r => 1 + size r
  | list r separator _ _ => 1 + size r + sizeOption separator

def sizeAll : List (Rule δ) → Nat
  | [] => 1
  | r :: rs => 1 + size r + sizeAll rs

def sizeOption : Option (Rule δ) → Nat
  | none => 0
  | some r => size r

end

end Rule

end DualSyntax
