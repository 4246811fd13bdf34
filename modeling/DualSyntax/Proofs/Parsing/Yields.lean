import DualSyntax.Proofs.Lowering.Giving
import DualSyntax.Proofs.Lowering.Nested
import DualSyntax.Proofs.Packrat.LeftCalls
import DualSyntax.Proofs.Packrat.Matching

/-!
# Definitions that yield trees

`Yields` says that a definition matches the tokens between two positions and that the match becomes a
node which reads as a tree.  Lists of operands with operators between them, and operands with
suffixes, are followed from element to element: `ChainLeft`, `ChainRight` and `Suffixes` say which
tree has been built so far, wherever the list may end.

A text is parsed into a tree if the definition for it yields the tree up to the end marker.
-/

namespace DualSyntax

section Definitions

open Packrat Lowering

variable {δ : Type} [BEq δ] {g : Grammar δ} {source : Source} {d e : δ} {p q r : Nat} {t t' : Tree}
  {tk : Token} {op : BinaryOperator}

/-- A definition matches between two positions, and the match becomes a node that reads as a
tree. -/
def Yields (g : Grammar δ) (source : Source) (d : δ) (p q : Nat) (t : Tree) : Prop :=
  ∃ raw, Evaluates g source.stream (.definition d) p (some ([raw], q)) ∧ Lowers g source raw t

/-- A definition that adds nothing to the match of another one. -/
theorem Yields.through (h : Yields g source e p q t) {rule : Rule δ} (hrule : g.rule d = some rule)
    (hthrough : ∀ raw, Evaluates g source.stream (.definition e) p (some ([raw], q)) →
      Evaluates g source.stream (.rule rule) p (some ([raw], q)))
    (hpasses : g.passes d = true) : Yields g source d p q t := by
  obtain ⟨raw, hraw, hlowers⟩ := h
  exact ⟨_, (hthrough raw hraw).node hrule, hlowers.single hpasses p q⟩

/-! ## Operators between operands -/

structure OperatorAt (g : Grammar δ) (source : Source) (sep : Rule δ)
    (operator? : TokenKind → Option BinaryOperator) (q : Nat) (op : BinaryOperator) (tk : Token) :
    Prop where
  found : Evaluates g source.stream (.rule sep) q (some ([.leaf tk], q + 1))
  spells : operator? tk.kind = some op

def ChainLeft (g : Grammar δ) (source : Source) (e : δ) (sep : Rule δ)
    (operator? : TokenKind → Option BinaryOperator) (p q : Nat) (t : Tree) : Prop :=
  ∃ first p₁ pairs, Evaluates g source.stream (.definition e) p (some ([first], p₁)) ∧
    Row g source.stream (.ref e) (some sep) p₁ (pairs.flatMap pairTrees) q ∧
    Builds g source (fun recur => Lowering.chainLeft g recur operator?) pairTrees first pairs t

def ChainRight (g : Grammar δ) (source : Source) (e : δ) (sep : Rule δ)
    (operator? : TokenKind → Option BinaryOperator) (p q : Nat) (t : Tree) : Prop :=
  ∃ first p₁ rest pairs last, Evaluates g source.stream (.definition e) p (some ([first], p₁)) ∧
    Row g source.stream (.ref e) (some sep) p₁ rest q ∧ first :: rest = chainedBack pairs last ∧
    Builds g source (fun recur => Lowering.chainRight g recur operator?) pairTrees last
      pairs.reverse t

section Operators

variable {sep : Rule δ} {operator? : TokenKind → Option BinaryOperator}

theorem Yields.chainLeft (h : Yields g source e p q t) (sep : Rule δ)
    (operator? : TokenKind → Option BinaryOperator) :
    ChainLeft g source e sep operator? p q t := by
  obtain ⟨raw, hraw, hlowers⟩ := h
  exact ⟨raw, q, [], hraw, .nil, .nil hlowers⟩

theorem Yields.chainRight (h : Yields g source e p q t) (sep : Rule δ)
    (operator? : TokenKind → Option BinaryOperator) :
    ChainRight g source e sep operator? p q t := by
  obtain ⟨raw, hraw, hlowers⟩ := h
  exact ⟨raw, q, [], [], raw, hraw, .nil, rfl, .nil hlowers⟩

/-- One more operand behind a chain that is grouped from the left. -/
theorem ChainLeft.snoc (h : ChainLeft g source e sep operator? p q t)
    (hop : OperatorAt g source sep operator? q op tk) (hright : Yields g source e (q + 1) r t')
    (hlt : q < r) :
    ChainLeft g source e sep operator? p r
      (.node (.binaryOperatorExpression op) [(.left, t), (.right, t')]) := by
  obtain ⟨first, p₁, pairs, hfirst, hrow, hbuilds⟩ := h
  obtain ⟨raw, hraw, hlowers⟩ := hright
  refine ⟨first, p₁, pairs ++ [(.leaf tk, raw)], hfirst, ?_, hbuilds.snoc ?_⟩
  · rw [List.flatMap_append, List.flatMap_singleton]
    exact hrow.snoc hop.found (.ref hraw) hlt
  · intro recur bound hrecur hheight
    have hle : raw.height ≤ bound := hheight raw (by simp [pairTrees])
    exact rounds_chainLeft (hrecur.child hle hlowers) hop.spells

/-- One more operand in front of a chain that is grouped from the right. -/
theorem ChainRight.cons (hleft : Yields g source e p q t')
    (hop : OperatorAt g source sep operator? q op tk)
    (h : ChainRight g source e sep operator? (q + 1) r t) (hlt : ∀ raw p₁,
      Evaluates g source.stream (.definition e) (q + 1) (some ([raw], p₁)) → q < p₁) :
    ChainRight g source e sep operator? p r
      (.node (.binaryOperatorExpression op) [(.left, t'), (.right, t)]) := by
  obtain ⟨first, p₁, rest, pairs, last, hfirst, hrow, hchained, hbuilds⟩ := h
  obtain ⟨raw, hraw, hlowers⟩ := hleft
  refine ⟨raw, q, .leaf tk :: first :: rest, (.leaf tk, raw) :: pairs, last, hraw, ?_, ?_, ?_⟩
  · exact .cons hop.found (.ref hfirst) (hlt first p₁ hfirst) hrow
  · rw [hchained]
    rfl
  · rw [List.reverse_cons]
    refine hbuilds.snoc fun recur bound hrecur hheight => ?_
    have hle : raw.height ≤ bound := hheight raw (by simp [pairTrees])
    exact rounds_chainRight (hrecur.child hle hlowers) hop.spells

/-- A chain at whose end no further operand is found. -/
theorem ChainLeft.close (h : ChainLeft g source e sep operator? p q t)
    (hrule : g.rule d = some ((Rule.ref e).sepBy1 sep)) (htrivia : g.keepsTrivia d = false)
    (hshape : ∀ ks, g.shape d ks = .chain operator? false)
    (hend : RowEnds g source.stream (.ref e) (some sep) q) : Yields g source d p q t := by
  obtain ⟨first, p₁, pairs, hfirst, hrow, hbuilds⟩ := h
  have hlist := hrow.list (.ref hfirst) hend (Nat.le_refl 1)
  refine ⟨_, hlist.node hrule, Lowers.chainLeft hbuilds htrivia hshape ?_ p q⟩
  rw [hrule]
  rfl

theorem ChainRight.close (h : ChainRight g source e sep operator? p q t)
    (hrule : g.rule d = some ((Rule.ref e).sepBy1 sep)) (htrivia : g.keepsTrivia d = false)
    (hshape : ∀ ks, g.shape d ks = .chain operator? true)
    (hend : RowEnds g source.stream (.ref e) (some sep) q) : Yields g source d p q t := by
  obtain ⟨first, p₁, rest, pairs, last, hfirst, hrow, hchained, hbuilds⟩ := h
  have hlist := hrow.list (.ref hfirst) hend (Nat.le_refl 1)
  rw [List.singleton_append, hchained] at hlist
  refine ⟨_, hlist.node hrule, Lowers.chainRight hbuilds htrivia hshape ?_ p q⟩
  rw [hrule]
  rfl

end Operators

/-! ## Suffixes -/

/-- A way to apply suffixes to a node. -/
abbrev Application (δ : Type) := Recur δ → List (RawTree δ) → NodeId → Span → Lower NodeId

/-- A match with suffixes after it, each applied to what stands in front of it. -/
def Suffixes (g : Grammar δ) (source : Source) (first item : δ) (F : Application δ) (p q : Nat)
    (t : Tree) : Prop :=
  ∃ raw p₁ items, Evaluates g source.stream (.definition first) p (some ([raw], p₁)) ∧
    Row g source.stream (.ref item) none p₁ items q ∧ (∀ c ∈ items, c.token? = none) ∧
    Builds g source F itemTree raw items t

section Suffixed

variable {item : δ} {F : Application δ}

theorem Yields.suffixes (h : Yields g source e p q t) (item : δ) (F : Application δ) :
    Suffixes g source e item F p q t := by
  obtain ⟨raw, hraw, hlowers⟩ := h
  exact ⟨raw, q, [], hraw, .nil, by simp, .nil hlowers⟩

theorem Suffixes.snoc (h : Suffixes g source e item F p q t) {cs : List (RawTree δ)}
    (hitem : Evaluates g source.stream (.definition item) q
      (some ([.node (some item) q r cs], r))) (hlt : q < r)
    (hround : ∀ recur bound, Faithful g source recur bound → RawTree.heightOf cs ≤ bound →
      Rounds source (F recur) (.node (some item) q r cs) t t') :
    Suffixes g source e item F p r t' := by
  obtain ⟨raw, p₁, items, hraw, hrow, hitems, hbuilds⟩ := h
  refine ⟨raw, p₁, items ++ [.node (some item) q r cs], hraw, ?_, ?_, hbuilds.snoc ?_⟩
  · exact hrow.snoc .empty (.ref hitem) hlt
  · intro c hc
    rcases List.mem_append.mp hc with hc | hc
    · exact hitems c hc
    · rw [List.mem_singleton.mp hc]
      rfl
  · intro recur bound hrecur hheight
    have hle := hheight _ List.mem_cons_self
    rw [RawTree.height] at hle
    exact hround recur bound hrecur (Nat.le_of_succ_le hle)

/-- The match of a definition whose rule is another one with suffixes after it. -/
theorem Suffixes.close (h : Suffixes g source e item F p q t)
    (hrule : g.rule d = some (.sequence [.ref e, (Rule.ref item).star]))
    (hend : Evaluates g source.stream (.definition item) q none)
    (hlowers : ∀ first items, Builds g source F itemTree first items t →
      (∀ c ∈ items, c.token? = none) → Lowers g source (.node (some d) p q (first :: items)) t) :
    Yields g source d p q t := by
  obtain ⟨raw, p₁, items, hraw, hrow, hitems, hbuilds⟩ := h
  have hall : Evaluates g source.stream (.rule (.sequence [.ref e, (Rule.ref item).star])) p
      (some ([raw] ++ (items ++ []), q)) :=
    .sequence (.allStep (.ref hraw) (.allStep (hrow.star (.ref hend)) .allNil))
  rw [List.append_nil, List.singleton_append] at hall
  exact ⟨_, hall.node hrule, hlowers raw items hbuilds hitems⟩

end Suffixed

end Definitions

/-! ## Whole texts -/

section WholeTexts

open Packrat Lowering

/-- Without left recursion a stream is parsed if its root definition takes everything in front of the
end marker. -/
theorem Packrat.parse_of_evaluates {δ : Type} [BEq δ] [LawfulBEq δ] {g : Grammar δ}
    {s : TokenStream} {root : δ} {trees : List (RawTree δ)} (hfree : ¬ LeftRecursive g s)
    (h : Evaluates g s (.definition root) 0 (some (trees, s.size - 1))) :
    parse g root s = .parsed (wholeTree s trees) := by
  obtain ⟨found, m, hrun⟩ := run_enoughFuel g s root
  obtain rfl := (evaluates_of_run hfree hrun).unique h
  rw [parse, hrun]
  exact if_pos rfl

/-- A text that yields a tree other than that of a compilation unit is parsed into it, without any
diagnostics. -/
theorem parse_of_yields {l : Language} {fragment : Fragment} {src : List Char} {s : TokenStream}
    {last : Token} {t : Tree} (hs : tokenize l src = .ok s)
    (hlast : s.get? (s.size - 1) = some last)
    (h : Yields l.grammar ⟨l, s, .ofText src⟩ (l.root fragment) 0 (s.size - 1) t)
    (hkind : t.kind.agrees .compilationUnit = false) :
    ∃ parsed, parse l fragment src = .ok parsed ∧ parsed.diagnostics = [] ∧
      parsed.forest.Reads (· < parsed.forest.size) parsed.root t := by
  obtain ⟨raw, hraw, hlowers⟩ := h
  let source : Source := ⟨l, s, .ofText src⟩
  have hsource : Source.ofText l src = .ok source := by rw [Source.ofText, hs]
  have hmatch : source.matchBy l.grammar (l.root fragment) = .ok (wholeTree s [raw]) := by
    rw [Source.matchBy, parse_of_evaluates (l.not_leftRecursive s) hraw]
  have hwhole : wholeTree s [raw] = .node none 0 s.size [raw, .leaf last] := by
    rw [wholeTree, hlast]
    rfl
  have hheight : raw.height ≤ RawTree.heightOf [raw, .leaf last] :=
    height_le_of_mem List.mem_cons_self
  obtain ⟨n, f, hn, hmade⟩ := hlowers.gives _ hheight {} #[]
  have hunit : (f.kind n == .compilationUnit) = false := by
    cases heq : f.kind n with
    | compilationUnit =>
        cases hmade.reads with
        | node _ hagrees =>
            rw [heq, hkind] at hagrees
            cases hagrees
        | parenthesized _ hparens =>
            rw [heq] at hparens
            cases hparens
    | _ => rfl
  have hlower : (wholeTree s [raw]).lower l.grammar source = .ok (n, ⟨f, #[]⟩) := by
    rw [hwhole]
    exact lowerUpTo_wholeText hlowers.isNode hn hunit
  refine ⟨⟨f, n, []⟩, ?_, rfl, hmade.reads.mono fun _ hm => hm.2⟩
  have hparsed : parseRaw l fragment src = .ok (source, wholeTree s [raw]) := by
    simp only [parseRaw, hsource, bind, Except.bind, hmatch]
    rfl
  simp only [parse, hparsed, bind, Except.bind, hlower]
  rfl

end WholeTexts

end DualSyntax
