import DualSyntax.Grammar.Chart

/-!
# Packrat matching

The rules of a grammar are run over a token stream from left to right with ordered choice.  The
answer of a definition at a position is remembered, so backtracking costs nothing twice.  A
definition that asks for itself at the position where it is still being matched fails there.

The matcher notes the furthest position at which a token was refused and what was wanted there;
what a lookahead tries does not count.
-/

namespace DualSyntax.Packrat

variable {δ : Type} [BEq δ]

/-- What the matcher remembers. -/
structure Memory (δ : Type) where
  /-- What is known of the definitions so far. -/
  chart : Chart δ := {}
  /-- The furthest position at which a token was refused. -/
  furthest : Nat := 0
  /-- The token kinds wanted there, in the order in which they were tried. -/
  wanted : List TokenKind := []

abbrev Match (δ : Type) := Option (List (RawTree δ) × Nat)

/-- A run of the matcher; it may run out of fuel. -/
abbrev Run (δ : Type) := StateT (Memory δ) Option

/-- Notes that a token kind was refused at a position. -/
def Memory.refuse (m : Memory δ) (pos : Nat) (k : TokenKind) : Memory δ :=
  let m := if m.furthest < pos then { m with furthest := pos, wanted := [] } else m
  if pos = m.furthest ∧ !m.wanted.contains k then { m with wanted := m.wanted ++ [k] } else m

/-- Notes what is known of a definition at a position. -/
def Memory.note (m : Memory δ) (d : δ) (pos : Nat) (status : Status δ) : Memory δ :=
  { m with chart := m.chart.set d pos status }

/-- What the matcher is asked to match. -/
inductive Goal (δ : Type) where
  | rule (r : Rule δ)
  | definition (d : δ)
  /-- All rules one after the other. -/
  | all (rs : List (Rule δ))
  /-- The first rule that matches. -/
  | first (rs : List (Rule δ))
  /-- The rest of a list that has `count` elements already. -/
  | more (element : Rule δ) (separator : Option (Rule δ)) (least : Nat) (trailing : Bool)
    (count : Nat)

/-- Matches one token.  A refusal is noted unless the run is silent, as lookaheads are. -/
def matchToken (s : TokenStream) (silent : Bool) (k : TokenKind) (pos : Nat) : Run δ (Match δ) := do
  match s.get? pos with
  | none => return none
  | some t =>
    if t.kind = k then return some ([.leaf t], pos + 1)
    else
      if !silent then modify (·.refuse pos k)
      return none

/-- The end of a list with `count` elements. -/
def endOfList (least count : Nat) (trees : List (RawTree δ)) (pos : Nat) : Match δ :=
  if count < least then none else some (trees, pos)

/-- Puts trees in front of a match. -/
def after (trees : List (RawTree δ)) (m : Match δ) : Match δ :=
  m.map fun (more, pos) => (trees ++ more, pos)

/-- What stands between two elements of a list. -/
def between (separator : Option (Rule δ)) : Rule δ := separator.getD .empty

/-- The answer of a definition whose rule matched or failed at a position. -/
def asNode (d : δ) (pos : Nat) (found : Match δ) : Option (RawTree δ × Nat) :=
  found.map fun (trees, p) => (RawTree.node (some d) pos p trees, p)

/-- The answer of a definition as a match. -/
def recalled (answer : Option (RawTree δ × Nat)) : Match δ := answer.map fun (tree, p) => ([tree], p)

/-- Runs the matcher on a goal at a position.  The first number bounds the depth of the run; a
silent run notes no refusals. -/
def run (g : Grammar δ) (s : TokenStream) : Nat → Bool → Goal δ → Nat → Run δ (Match δ)
  | 0, _, _, _ => fun _ => none
  | fuel + 1, silent, .rule r, pos =>
    match r with
    | .empty => return some ([], pos)
    | .token k => matchToken s silent k pos
    | .ref d => run g s fuel silent (.definition d) pos
    | .sequence rs => run g s fuel silent (.all rs) pos
    | .choice rs => run g s fuel silent (.first rs) pos
    | .optional r => do
      let found ← run g s fuel silent (.rule r) pos
      return some (found.getD ([], pos))
    | .list element separator least trailing => do
      match ← run g s fuel silent (.rule element) pos with
      | none => return if least = 0 then some ([], pos) else none
      | some (trees, p) =>
        return after trees (← run g s fuel silent (.more element separator least trailing 1) p)
    | .notAhead r => do
      let found ← run g s fuel true (.rule r) pos
      return if found.isSome then none else some ([], pos)
  | fuel + 1, silent, .all rs, pos =>
    match rs with
    | [] => return some ([], pos)
    | r :: rs => do
      match ← run g s fuel silent (.rule r) pos with
      | none => return none
      | some (trees, p) => return after trees (← run g s fuel silent (.all rs) p)
  | fuel + 1, silent, .first rs, pos =>
    match rs with
    | [] => return none
    | r :: rs => do
      match ← run g s fuel silent (.rule r) pos with
      | some found => return some found
      | none => run g s fuel silent (.first rs) pos
  | fuel + 1, silent, .more element separator least trailing count, pos => do
    match ← run g s fuel silent (.rule (between separator)) pos with
    | none => return endOfList least count [] pos
    | some (separators, p) =>
      match ← run g s fuel silent (.rule element) p with
      | none =>
        return if separator.isSome && trailing then endOfList least count separators p
          else endOfList least count [] pos
      | some (trees, q) =>
        if pos < q then
          return after (separators ++ trees)
            (← run g s fuel silent (.more element separator least trailing (count + 1)) q)
        else return endOfList least count [] pos
  | fuel + 1, silent, .definition d, pos => do
    match (← get).chart.get? d pos with
    | some (.answered answer) => return recalled answer
    | some .matching => return none
    | none =>
      modify (·.note d pos .matching)
      let found ← match g.rule d with
        | none => pure none
        | some r => run g s fuel silent (.rule r) pos
      let answer := asNode d pos found
      modify (·.note d pos (.answered answer))
      return recalled answer

/-- Enough fuel for any run: a definition is never active twice at one position, and between two
definitions a run goes no deeper than a rule is large and the text is long. -/
def enoughFuel (g : Grammar δ) (s : TokenStream) : Nat :=
  (g.definitions.length * (s.size + 1) + 2) * ((g.greatestRule + 2) * (s.size + 4))

/-- Where a parse failed and which token kinds would have been accepted there. -/
structure Failure where
  position : Nat
  expected : List TokenKind
deriving DecidableEq, Repr, Inhabited

inductive Outcome (δ : Type) where
  | parsed (tree : RawTree δ)
  | failed (failure : Failure)
  /-- The matcher ran out of fuel. -/
  | exhausted
deriving Inhabited

/-- Parses the whole token stream as a definition.  The tree of the text has the match of the
definition and the end marker as its children. -/
def parse (g : Grammar δ) (root : δ) (s : TokenStream) : Outcome δ :=
  match run g s (enoughFuel g s) false (.definition root) 0 {} with
  | none => .exhausted
  | some (found, m) =>
    let last := s.size - 1
    match found with
    | none => .failed ⟨m.furthest, m.wanted⟩
    | some (trees, p) =>
      if p = last then
        .parsed (.node none 0 s.size (trees ++ (s.get? last).toList.map .leaf))
      else
        let m := if m.furthest < p then { m with furthest := p, wanted := [] } else m
        .failed ⟨m.furthest, if p = m.furthest then m.wanted ++ [.eof] else m.wanted⟩

end DualSyntax.Packrat
