import DualSyntax.Lowering.Shapes

/-!
# Nested matches

A grammar with a definition for each level of operators nests a match for every level around an
operand, and most of them add nothing to it.  `lowerUpTo_single` says that such a match becomes the
node of its only child, and `lowerUpTo_nest` goes down a whole ladder of them at once.
-/

namespace DualSyntax

namespace Lower

variable {α β : Type}

/-- A step that succeeds, and what follows. -/
theorem bind_ok {x : Lower α} {source : Source} {draft draft' : Draft} {a : α}
    (h : x source draft = .ok (a, draft')) (f : α → Lower β) :
    (x >>= f) source draft = f a source draft' := by
  change (x source draft >>= fun r => f r.1 source r.2) = f a source draft'
  rw [h]
  rfl

end Lower

namespace RawTree

variable {δ : Type}

/-- Matches of definitions, each of which is the only child of the one before. -/
def nest (ds : List δ) (first last : Nat) (t : RawTree δ) : RawTree δ :=
  ds.foldr (fun d t => .node (some d) first last [t]) t

theorem nest_cons (d : δ) (ds : List δ) (first last : Nat) (t : RawTree δ) :
    nest (d :: ds) first last t = .node (some d) first last [nest ds first last t] := rfl

theorem nest_tokens (ds : List δ) (first last : Nat) (t : RawTree δ) :
    (nest ds first last t).tokens = t.tokens := by
  induction ds with
  | nil => rfl
  | cons d ds ih => rw [nest_cons, tokens, tokensOf, tokensOf, ih, List.append_nil]

theorem nest_height (ds : List δ) (first last : Nat) (t : RawTree δ) :
    (nest ds first last t).height = t.height + ds.length := by
  induction ds with
  | nil => rfl
  | cons d ds ih =>
      rw [nest_cons, height, heightOf, heightOf, ih, List.length_cons]
      omega

end RawTree

/-- The shapes by which a match with a single child becomes the node of that child. -/
def Shape.passes {δ : Type} : Shape δ → Bool
  | forward | chain .. | rankedType | suffixed | comparisons _ => true
  | _ => false

/-- Whether a match of a definition with a single child adds nothing to it. -/
def Grammar.passes {δ : Type} (g : Grammar δ) (d : δ) : Bool :=
  (g.shape d []).passes && !g.keepsTrivia d

namespace Lowering

variable {δ : Type} {g : Grammar δ} {d : δ}

theorem listItems_single (g : Grammar δ) (d : δ) (i j : Nat) (t : RawTree δ) :
    (RawTree.node (some d) i j [t]).listItems g = ([t], []) := by
  simp only [RawTree.listItems, RawTree.alternate]
  split <;> rfl

theorem cursor_single (g : Grammar δ) (d : δ) (i j : Nat) (form : Option δ) (i' j' : Nat)
    (cs : List (RawTree δ)) :
    (cursor g (.node (some d) i j [.node form i' j' cs])).node =
      pure (.node form i' j' cs, ⟨g.name d, []⟩) := rfl

theorem map_spanOf (t : RawTree δ) (n : NodeId) : (fun _ => n) <$> spanOf t = pure n := rfl

variable [BEq δ]

theorem shaped_single (recur : Recur δ) {s : Shape δ} (h : s.passes = true) (i j : Nat)
    (form : Option δ) (i' j' : Nat) (cs : List (RawTree δ)) :
    shaped g recur (.node (some d) i j [.node form i' j' cs]) s =
      recur (.node form i' j' cs) := by
  cases s with
  | forward => rfl
  | chain operator? rightward =>
      simp only [shaped, chain, listItems_single]
      cases rightward with
      | true => simp [child, chainRight, map_spanOf]
      | false => simp [child, chainLeft, map_spanOf]
  | rankedType => simp [shaped, cursor_single, wrapType, map_spanOf]
  | suffixed => simp [shaped, cursor_single, applySuffixes, map_spanOf]
  | comparisons operator? => simp [shaped, cursor_single, applyComparisons, map_spanOf]
  | _ => cases h

section Reading

variable {recur : Recur δ} {owner : NodeId} {raw : RawTree δ} {form : String}
  {rest : List (RawTree δ)} {title : Title} {parts : List (Part δ)} {source : Source}
  {draft draft' draft'' : Draft}

theorem readParts_keep {t : Token} {k : TokenKind} (hk : t.kind = k)
    (h : Lower.setToken owner title t source draft = .ok ((), draft')) :
    readParts g recur owner raw ⟨form, .leaf t :: rest⟩ (.keep k title :: parts) source draft =
      readParts g recur owner raw ⟨form, rest⟩ parts source draft' := by
  have hpart : readPart g recur owner raw ⟨form, .leaf t :: rest⟩ (.keep k title) = (do
      Lower.setToken owner title t
      return ⟨form, rest⟩) := by
    simp [readPart, Cursor.token, Cursor.eat, Cursor.eatAny, hk]
  rw [readParts, hpart]
  exact Lower.bind_ok (Lower.bind_ok h _) _

theorem readParts_node {t : RawTree δ} {n : NodeId} (ht : t.token? = none)
    (hrecur : recur t source draft = .ok (n, draft'))
    (h : Lower.set owner title n source draft' = .ok ((), draft'')) :
    readParts g recur owner raw ⟨form, t :: rest⟩ (.node title :: parts) source draft =
      readParts g recur owner raw ⟨form, rest⟩ parts source draft'' := by
  have hpart : readPart g recur owner raw ⟨form, t :: rest⟩ (.node title) = (do
      let n ← recur t
      Lower.set owner title n
      return ⟨form, rest⟩) := by
    cases t with
    | leaf t => cases ht
    | node => simp [readPart, Cursor.node, Cursor.eatNode]
  rw [readParts, hpart]
  refine Lower.bind_ok ?_ _
  exact (Lower.bind_ok hrecur _).trans (Lower.bind_ok h _)

theorem build_ok {c c' : Cursor δ} {kind : NodeKind}
    (h : readParts g recur draft.forest.size raw c parts source
      ⟨(draft.forest.allocate kind (source.lines.textRange (raw.span source.stream))).2,
        draft.diagnostics⟩ = .ok (c', draft')) :
    build g recur raw c kind parts source draft = .ok (draft.forest.size, draft') := by
  have hspan : spanOf raw source draft = .ok (raw.span source.stream, draft) := rfl
  have hallocate : Lower.allocate kind (raw.span source.stream) source draft =
      .ok (draft.forest.size,
        ⟨(draft.forest.allocate kind (source.lines.textRange (raw.span source.stream))).2,
          draft.diagnostics⟩) := rfl
  rw [build, Lower.bind_ok hspan, Lower.bind_ok hallocate, Lower.bind_ok h]
  rfl

end Reading

/-- Without comments to attach, a match becomes the node that its shape says. -/
theorem lowerUpTo_node (htrivia : g.keepsTrivia d = false) (fuel i j : Nat)
    (cs : List (RawTree δ)) :
    lowerUpTo g (fuel + 1) (.node (some d) i j cs) =
      shaped g (lowerUpTo g fuel) (.node (some d) i j cs)
        (g.shape d ((RawTree.node (some d) i j cs).childTokens.map (·.kind))) := by
  simp only [lowerUpTo, htrivia]
  simp

/-- A match that adds nothing to its only child becomes the node of that child. -/
theorem lowerUpTo_single (h : g.passes d = true) (fuel i j : Nat) (form : Option δ)
    (i' j' : Nat) (cs : List (RawTree δ)) :
    lowerUpTo g (fuel + 1) (.node (some d) i j [.node form i' j' cs]) =
      lowerUpTo g fuel (.node form i' j' cs) := by
  have htokens : (RawTree.node (some d) i j [.node form i' j' cs]).childTokens = [] := rfl
  rw [Grammar.passes, Bool.and_eq_true, Bool.not_eq_true'] at h
  obtain ⟨hshape, htrivia⟩ := h
  rw [lowerUpTo_node htrivia, htokens, List.map_nil, shaped_single _ hshape]

/-- A ladder of matches that add nothing becomes the node of the match at its foot. -/
theorem lowerUpTo_nest {ds : List δ} (fuel : Nat) {total : Nat} (h : ds.all g.passes = true)
    (htotal : total = fuel + ds.length) (i j : Nat) (form : Option δ) (i' j' : Nat)
    (cs : List (RawTree δ)) :
    lowerUpTo g total (.nest ds i j (.node form i' j' cs)) =
      lowerUpTo g fuel (.node form i' j' cs) := by
  subst htotal
  induction ds with
  | nil => rfl
  | cons d ds ih =>
      rw [List.all_cons, Bool.and_eq_true] at h
      obtain ⟨hd, hds⟩ := h
      rw [← ih hds]
      cases ds with
      | nil => exact lowerUpTo_single hd fuel i j form i' j' cs
      | cons e es => exact lowerUpTo_single hd _ i j (some e) i j _

theorem lowerUpTo_wholeText {fuel i j n : Nat} {inner : RawTree δ} {last : Token}
    {source : Source} {draft draft' : Draft} (hinner : inner.token? = none)
    (h : lowerUpTo g fuel inner source draft = .ok (n, draft'))
    (hkind : (draft'.forest.kind n == .compilationUnit) = false) :
    lowerUpTo g (fuel + 1) (.node none i j [inner, .leaf last]) source draft =
      .ok (n, draft') := by
  have hfind : [inner, .leaf last].find? (·.token?.isNone) = some inner := by simp [hinner]
  have hinspect : Lower.inspect (·.kind n == .compilationUnit) source draft' =
      .ok (false, draft') := by
    rw [← hkind]
    rfl
  simp only [lowerUpTo, wholeText, RawTree.children, hfind]
  rw [Lower.bind_ok h, Lower.bind_ok hinspect]
  rfl

end Lowering

end DualSyntax
