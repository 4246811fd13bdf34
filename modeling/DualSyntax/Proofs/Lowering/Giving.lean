import DualSyntax.Proofs.Lowering.Chaining
import DualSyntax.Proofs.Lowering.Made

/-!
# Matches that become trees

`Lowers` says that a raw tree becomes a node that reads as a tree, whatever forest it is made in.
There is one lemma for each shape; what stands below a match is taken from the matches below it.
-/

namespace DualSyntax.Lowering

open Forest

variable {δ : Type} {source : Source} {t : Tree}

theorem height_le_of_mem {c : RawTree δ} {cs : List (RawTree δ)} (h : c ∈ cs) :
    c.height ≤ RawTree.heightOf cs := by
  induction cs with
  | nil => cases h
  | cons x xs ih =>
      rw [RawTree.heightOf]
      rcases List.mem_cons.mp h with rfl | h
      · exact Nat.le_max_left _ _
      · exact Nat.le_trans (ih h) (Nat.le_max_right _ _)

section Chains

variable {g : Grammar δ} {recur : Recur δ} {raw : RawTree δ} {t' : Tree} {tk : Token}
  {operator? : TokenKind → Option BinaryOperator} {op : BinaryOperator}

theorem rounds_chainLeft (hraw : Gives source (child recur raw) t')
    (hop : operator? tk.kind = some op) :
    Rounds source (chainLeft g recur operator?) (.leaf tk, raw) t
      (.node (.binaryOperatorExpression op) [(.left, t), (.right, t')]) := by
  intro f f' ds n span hn
  obtain ⟨m, f₁, hm, hmade⟩ := hraw f' ds
  obtain ⟨k, f₂, hk, hover⟩ := made_binaryNode ((MadeAll.single hn).snoc hmade) hop
    (span.cover (raw.span source.stream)) source ds
  refine ⟨k, f₂, span.cover (raw.span source.stream), hover, fun more => ?_⟩
  have hspan : spanOf raw source ⟨f₁, ds⟩ = .ok (raw.span source.stream, ⟨f₁, ds⟩) := rfl
  have htoken : operatorToken g (.leaf tk) source ⟨f₁, ds⟩ = .ok (tk, ⟨f₁, ds⟩) := rfl
  rw [chainLeft, Lower.bind_ok hm, Lower.bind_ok hspan, Lower.bind_ok htoken, Lower.bind_ok hk]

theorem rounds_chainRight (hraw : Gives source (child recur raw) t')
    (hop : operator? tk.kind = some op) :
    Rounds source (chainRight g recur operator?) (.leaf tk, raw) t
      (.node (.binaryOperatorExpression op) [(.left, t'), (.right, t)]) := by
  intro f f' ds n span hn
  obtain ⟨m, f₁, hm, hmade⟩ := hraw f' ds
  obtain ⟨k, f₂, hk, hover⟩ := made_binaryNode
    (((MadeAll.single hn).snoc hmade).perm (.swap _ _ _)) hop
    (span.cover (raw.span source.stream)) source ds
  refine ⟨k, f₂, span.cover (raw.span source.stream), hover, fun more => ?_⟩
  have hspan : spanOf raw source ⟨f₁, ds⟩ = .ok (raw.span source.stream, ⟨f₁, ds⟩) := rfl
  have htoken : operatorToken g (.leaf tk) source ⟨f₁, ds⟩ = .ok (tk, ⟨f₁, ds⟩) := rfl
  rw [chainRight, Lower.bind_ok hm, Lower.bind_ok hspan, Lower.bind_ok htoken, Lower.bind_ok hk]

def pairTrees (p : RawTree δ × RawTree δ) : List (RawTree δ) := [p.1, p.2]

/-- The children of a chain: an operand, and pairs of an operator and the operand after it. -/
def chained (first : RawTree δ) (pairs : List (RawTree δ × RawTree δ)) : List (RawTree δ) :=
  first :: pairs.flatMap pairTrees

/-- The children of a chain: pairs of an operator and the operand before it, and an operand. -/
def chainedBack (pairs : List (RawTree δ × RawTree δ)) (last : RawTree δ) : List (RawTree δ) :=
  (pairs.flatMap fun p => [p.2, p.1]) ++ [last]

theorem alternate_chained (first : RawTree δ) (pairs : List (RawTree δ × RawTree δ)) :
    RawTree.alternate (chained first pairs) = (first :: pairs.map (·.2), pairs.map (·.1)) := by
  induction pairs generalizing first with
  | nil => rfl
  | cons p pairs ih =>
      have hchained : chained first (p :: pairs) = first :: p.1 :: chained p.2 pairs := rfl
      rw [hchained, RawTree.alternate, RawTree.alternate, ih]
      rfl

theorem alternate_chainedBack (pairs : List (RawTree δ × RawTree δ)) (last : RawTree δ) :
    RawTree.alternate (chainedBack pairs last) = (pairs.map (·.2) ++ [last], pairs.map (·.1)) := by
  induction pairs with
  | nil => rfl
  | cons p pairs ih =>
      have hchained : chainedBack (p :: pairs) last = p.2 :: p.1 :: chainedBack pairs last := rfl
      rw [hchained, RawTree.alternate, RawTree.alternate, ih]
      rfl

end Chains

def itemTree (item : RawTree δ) : List (RawTree δ) := [item]

theorem cursor_row (g : Grammar δ) (d : δ) (i j : Nat) {cs : List (RawTree δ)}
    (hcs : ∀ c ∈ cs, c.token? = none) :
    cursor g (.node (some d) i j cs) = ⟨g.name d, cs⟩ := by
  have hfilter : cs.filter (fun c => !(c.token?.any fun t => g.terminators.contains t.kind)) = cs := by
    rw [List.filter_eq_self]
    intro c hc
    rw [hcs c hc]
    rfl
  simp only [cursor, RawTree.formName, RawTree.children, hfilter]

theorem node_row {form : String} {first : RawTree δ} {items : List (RawTree δ)}
    (hfirst : first.token? = none) :
    (Cursor.mk form (first :: items)).node = pure (first, ⟨form, items⟩) := by
  cases first with
  | leaf tk => cases hfirst
  | node => rfl

section Comparisons

variable {g : Grammar δ} {recur : Recur δ} {raw : RawTree δ} {tk : Token} {form : String}
  {rest : List (RawTree δ)} {t' : Tree}

theorem rounds_comparison {operand : RawTree δ} {operator? : TokenKind → Option BinaryOperator}
    {op : BinaryOperator} (hcursor : cursor g raw = ⟨form, .leaf tk :: operand :: rest⟩)
    (hnode : operand.token? = none) (hop : operator? tk.kind = some op) (his : tk.kind ≠ .kwIs)
    (has : tk.kind ≠ .kwAs) (hgives : Gives source (recur operand) t') :
    Rounds source (applyComparisons g recur operator?) raw t
      (.node (.binaryOperatorExpression op) [(.left, t), (.right, t')]) := by
  intro f f' ds n span hn
  let span' := span.cover (raw.span source.stream)
  obtain ⟨m, f₁, hm, hmade⟩ := hgives f' ds
  obtain ⟨k, f₂, hk, hover⟩ := made_binaryNode ((MadeAll.single hn).snoc hmade) hop span' source ds
  refine ⟨k, f₂, span', hover, fun more => ?_⟩
  have hspan : spanOf raw source ⟨f', ds⟩ = .ok (raw.span source.stream, ⟨f', ds⟩) := rfl
  have htoken : (cursor g raw).anyToken = pure (tk, ⟨form, operand :: rest⟩) := by rw [hcursor]; rfl
  have hround : applyComparisons g recur operator? (raw :: more) n span = (do
      let s ← spanOf raw
      let m ← recur operand
      let k ← binaryNode operator? n tk m (span.cover s)
      applyComparisons g recur operator? more k (span.cover s)) := by
    rw [applyComparisons]
    refine bind_congr fun s => ?_
    rw [htoken, pure_bind]
    dsimp only
    rw [node_row hnode, pure_bind]
    refine bind_congr fun m => ?_
    split
    · next hkind => exact absurd hkind his
    · next hkind => exact absurd hkind has
    · rw [if_neg (by simp [hop])]
  rw [hround, Lower.bind_ok hspan, Lower.bind_ok hm, Lower.bind_ok hk]

theorem rounds_typeTest {operand : RawTree δ} {operator? : TokenKind → Option BinaryOperator}
    (converts : Bool) (hcursor : cursor g raw = ⟨form, .leaf tk :: operand :: rest⟩)
    (hnode : operand.token? = none) (hkind : tk.kind = if converts then .kwAs else .kwIs)
    (hgives : Gives source (recur operand) t') :
    Rounds source (applyComparisons g recur operator?) raw t
      (.node (if converts then .asExpression else .typeTestExpression)
        [(.expression, t), (.type, t')]) := by
  intro f f' ds n span hn
  let span' := span.cover (raw.span source.stream)
  obtain ⟨m, f₁, hm, hmade⟩ := hgives f' ds
  have hspan : spanOf raw source ⟨f', ds⟩ = .ok (raw.span source.stream, ⟨f', ds⟩) := rfl
  have htoken : (cursor g raw).anyToken = pure (tk, ⟨form, operand :: rest⟩) := by rw [hcursor]; rfl
  have hover (kind : NodeKind) (hbare : kind ≠ .parenthesizedExpression)
      (hagrees : kind.agrees kind = true) :=
    made_over ((MadeAll.single hn).snoc hmade) tk span' source ds
      (rfl : Title.expression.isLexical = false) (rfl : Title.keyword.isLexical = true)
      (rfl : Title.type.isLexical = false) (by decide) hbare hagrees
  cases converts with
  | true =>
      obtain ⟨k, f₂, hk, hover⟩ := hover .asExpression (by simp) rfl
      refine ⟨k, f₂, span', hover, fun more => ?_⟩
      rw [applyComparisons, Lower.bind_ok hspan, htoken, pure_bind]
      dsimp only
      rw [node_row hnode, pure_bind, Lower.bind_ok hm, hkind]
      exact Lower.bind_ok hk _
  | false =>
      obtain ⟨k, f₂, hk, hover⟩ := hover .typeTestExpression (by simp) rfl
      refine ⟨k, f₂, span', hover, fun more => ?_⟩
      rw [applyComparisons, Lower.bind_ok hspan, htoken, pure_bind]
      dsimp only
      rw [node_row hnode, pure_bind, Lower.bind_ok hm, hkind]
      exact Lower.bind_ok hk _

end Comparisons

variable [BEq δ] {g : Grammar δ} {recur : Recur δ} {bound : Nat} {raw : RawTree δ} {d : δ}
  {i j : Nat} {cs : List (RawTree δ)}

/-- A match that becomes a node which reads as a tree. -/
structure Lowers (g : Grammar δ) (source : Source) (raw : RawTree δ) (t : Tree) : Prop where
  isNode : raw.token? = none
  gives : ∀ fuel, raw.height ≤ fuel → Gives source (lowerUpTo g fuel raw) t

/-- A way to make the nodes of matches up to a height. -/
def Faithful (g : Grammar δ) (source : Source) (recur : Recur δ) (bound : Nat) : Prop :=
  ∀ raw t, raw.height ≤ bound → Lowers g source raw t → Gives source (recur raw) t

theorem faithful_lowerUpTo (g : Grammar δ) (source : Source) (fuel : Nat) :
    Faithful g source (lowerUpTo g fuel) fuel :=
  fun _ _ hheight h => h.gives fuel hheight

theorem Faithful.mono {bound' : Nat} (h : Faithful g source recur bound) (hle : bound' ≤ bound) :
    Faithful g source recur bound' :=
  fun raw t hheight => h raw t (Nat.le_trans hheight hle)

theorem Faithful.child (h : Faithful g source recur bound) (hheight : raw.height ≤ bound)
    (hraw : Lowers g source raw t) : Gives source (child recur raw) t := by
  cases raw with
  | leaf tk => cases hraw.isNode
  | node => exact h _ _ hheight hraw

theorem Faithful.children {raws : List (RawTree δ)} {ts : List Tree}
    (h : Faithful g source recur bound) (hraws : List.Forall₂ (Lowers g source) raws ts)
    (hheight : ∀ raw ∈ raws, raw.height ≤ bound) :
    List.Forall₂ (fun el t => Gives source (Lowering.child recur el) t) raws ts := by
  induction hraws with
  | nil => exact .nil
  | cons hraw _ ih =>
      exact .cons (h.child (hheight _ List.mem_cons_self) hraw)
        (ih fun raw hraw => hheight raw (List.mem_cons_of_mem _ hraw))

/-- A match becomes what its shape makes of it. -/
theorem Lowers.of_shaped (htrivia : g.keepsTrivia d = false)
    (h : ∀ recur, Faithful g source recur (RawTree.heightOf cs) →
      Gives source (shaped g recur (.node (some d) i j cs)
        (g.shape d ((RawTree.node (some d) i j cs).childTokens.map (·.kind)))) t) :
    Lowers g source (.node (some d) i j cs) t := by
  refine ⟨rfl, fun fuel hfuel => ?_⟩
  rw [RawTree.height] at hfuel
  obtain ⟨fuel, rfl⟩ : ∃ k, fuel = k + 1 := ⟨fuel - 1, by omega⟩
  rw [lowerUpTo_node htrivia]
  exact h _ ((faithful_lowerUpTo g source fuel).mono (by omega))

/-- A match that adds nothing to its only child becomes what that becomes. -/
theorem Lowers.single (h : Lowers g source raw t) (hpasses : g.passes d = true) (i j : Nat) :
    Lowers g source (.node (some d) i j [raw]) t := by
  cases raw with
  | leaf tk => cases h.isNode
  | node form i' j' cs =>
      refine ⟨rfl, fun fuel hfuel => ?_⟩
      rw [RawTree.height, RawTree.heightOf, RawTree.heightOf] at hfuel
      obtain ⟨fuel, rfl⟩ : ∃ k, fuel = k + 1 := ⟨fuel - 1, by omega⟩
      rw [lowerUpTo_single hpasses]
      exact h.gives fuel (by omega)

/-! ## Names and literals -/

theorem Lowers.identifier {tk : Token} (htrivia : g.keepsTrivia d = false)
    (hshape : g.shape d [tk.kind] = .identifier) (hends : tk.kind ∉ g.terminators) (i j : Nat) :
    Lowers g source (.node (some d) i j [.leaf tk])
      (.node (.identifier (source.language.unescape tk.text)) []) := by
  refine .of_shaped htrivia fun recur _ => ?_
  have hkinds : (RawTree.node (some d) i j [.leaf tk]).childTokens.map (·.kind) = [tk.kind] := rfl
  have hcursor : (cursor g (.node (some d) i j [.leaf tk])).anyToken =
      pure (tk, ⟨(RawTree.node (some d) i j [.leaf tk]).formName g, []⟩) := by
    simp [cursor, Cursor.anyToken, RawTree.children, RawTree.token?, hends]
  rw [hkinds, hshape]
  simp only [shaped, hcursor, pure_bind]
  exact gives_allocate (NodeKind.identifier_agrees _) (by simp) tk.span

theorem Lowers.literal {tk : Token} {value : LiteralValue} (htrivia : g.keepsTrivia d = false)
    (hshape : g.shape d [tk.kind] = .literal) (hvalue : Lower.literalValue? tk = some value)
    (hrefl : (value == value) = true) (i j : Nat) :
    Lowers g source (.node (some d) i j [.leaf tk])
      (.node (.primitiveExpression ⟨value, none⟩) []) := by
  refine .of_shaped htrivia fun recur _ => ?_
  have hkinds : (RawTree.node (some d) i j [.leaf tk]).childTokens.map (·.kind) = [tk.kind] := rfl
  have hfirst : (RawTree.node (some d) i j [.leaf tk]).childTokens.head? = some tk := rfl
  rw [hkinds, hshape]
  simp only [shaped, hfirst, Lower.literal, hvalue]
  exact gives_allocate (by simpa [NodeKind.agrees] using hrefl) (by simp) tk.span

/-! ## Reading parts -/

/-- Reading parts of a match into a node that has some titles and subtrees gives it, in the end, the
subtrees `parts'`. -/
def Completes (g : Grammar δ) (recur : Recur δ) (source : Source) (raw : RawTree δ) (c : Cursor δ)
    (ps : List (Part δ)) (titles : List Title) (parts parts' : List (Title × Tree)) : Prop :=
  ∀ f f' n kind ds, Site f f' n kind titles parts [] → ∃ c' f'' titles',
    readParts g recur n raw c ps source ⟨f', ds⟩ = .ok (c', ⟨f'', ds⟩) ∧
      Site f f'' n kind titles' parts' []

section Parts

variable {titles : List Title} {parts parts' : List (Title × Tree)} {title : Title} {form : String}
  {rest : List (RawTree δ)} {ps : List (Part δ)} {tk : Token} {owner : RawTree δ} {c : Cursor δ}

theorem Completes.nil : Completes g recur source owner c [] titles parts parts :=
  fun _ f' _ _ _ hsite => ⟨c, f', titles, rfl, hsite⟩

theorem Completes.keep {k : TokenKind} (hk : tk.kind = k) (htitle : title.isLexical = true)
    (hnew : title ∉ titles)
    (h : Completes g recur source owner ⟨form, rest⟩ ps (titles ++ [title]) parts parts') :
    Completes g recur source owner ⟨form, .leaf tk :: rest⟩ (.keep k title :: ps) titles parts
      parts' := by
  intro f f' n kind ds hsite
  obtain ⟨f₁, hset, hsite⟩ := hsite.setToken source ds tk htitle hnew
  rw [readParts_keep hk hset]
  exact h f f₁ n kind ds hsite

theorem Completes.keepAny (htitle : title.isLexical = true) (hnew : title ∉ titles)
    (h : Completes g recur source owner ⟨form, rest⟩ ps (titles ++ [title]) parts parts') :
    Completes g recur source owner ⟨form, .leaf tk :: rest⟩ (.keepAny title :: ps) titles parts
      parts' := by
  intro f f' n kind ds hsite
  obtain ⟨f₁, hset, hsite⟩ := hsite.setToken source ds tk htitle hnew
  have hpart : readPart g recur n owner ⟨form, .leaf tk :: rest⟩ (.keepAny title) = (do
      Lower.setToken n title tk
      return ⟨form, rest⟩) := by
    simp [readPart, Cursor.anyToken]
  have hread : readParts g recur n owner ⟨form, .leaf tk :: rest⟩ (.keepAny title :: ps) source
      ⟨f', ds⟩ = readParts g recur n owner ⟨form, rest⟩ ps source ⟨f₁, ds⟩ := by
    rw [readParts, hpart]
    exact Lower.bind_ok (Lower.bind_ok hset _) _
  rw [hread]
  exact h f f₁ n kind ds hsite

theorem Completes.node (hraw : raw.token? = none) (hgives : Gives source (recur raw) t)
    (htitle : title.isLexical = false) (hnew : title ∉ titles)
    (h : Completes g recur source owner ⟨form, rest⟩ ps (titles ++ [title]) (parts ++ [(title, t)])
      parts') :
    Completes g recur source owner ⟨form, raw :: rest⟩ (.node title :: ps) titles parts parts' := by
  intro f f' n kind ds hsite
  obtain ⟨m, f₁, hm, hmade⟩ := hgives f' ds
  obtain ⟨f₂, hset, hsite⟩ := (hsite.make hmade).set source ds hnew
  rw [readParts_node hraw hm hset]
  refine h f f₂ n kind ds ?_
  simpa [htitle] using hsite

theorem Completes.list {ts : List Tree} (hraw : raw.token? = none)
    (hgives : List.Forall₂ (fun el t => Gives source (child recur el) t) (raw.listItems g).1 ts)
    (htitle : title.isLexical = false)
    (h : Completes g recur source owner ⟨form, rest⟩ ps (titles ++ ts.map fun _ => title)
      (parts ++ ts.map (title, ·)) parts') :
    Completes g recur source owner ⟨form, raw :: rest⟩ (.list title :: ps) titles parts parts' := by
  intro f f' n kind ds hsite
  obtain ⟨made, f₁, hmap, rfl, hmade⟩ := site_mapM (child recur) hgives ds hsite
  rw [List.nil_append] at hmade
  obtain ⟨f₂, hpush, hsite⟩ := site_pushAll source ds hmade htitle
  have hpart : readPart g recur n owner ⟨form, raw :: rest⟩ (.list title) = (do
      pushAll n title (← elements g recur raw)
      return ⟨form, rest⟩) := by
    cases raw with
    | leaf tk => cases hraw
    | node => simp [readPart, Cursor.node, Cursor.eatNode]
  have hread : readParts g recur n owner ⟨form, raw :: rest⟩ (.list title :: ps) source ⟨f', ds⟩ =
      readParts g recur n owner ⟨form, rest⟩ ps source ⟨f₂, ds⟩ := by
    rw [readParts, hpart]
    refine Lower.bind_ok ?_ _
    rw [elements, Lower.bind_ok hmap, Lower.bind_ok hpush]
    rfl
  rw [hread]
  refine h f f₂ n kind ds ?_
  simpa [Function.comp_def] using hsite

variable {kind kind' : NodeKind}

theorem Completes.gives (h : Completes g recur source raw c ps [] [] parts)
    (hagrees : kind'.agrees kind = true) (hbare : kind ≠ .parenthesizedExpression) :
    Gives source (build g recur raw c kind ps) (.node kind' parts) := by
  intro f ds
  obtain ⟨c', f', titles, hparts, hsite⟩ :=
    h f _ f.size kind ds (Site.start (.nil (.refl f)) kind _)
  exact ⟨f.size, f', build_ok hparts, hsite.finish hagrees hbare⟩

theorem Completes.parenthesized (h : Completes g recur source raw c ps [] [] [(.expression, t)]) :
    Gives source (build g recur raw c .parenthesizedExpression ps) t := by
  intro f ds
  obtain ⟨c', f', titles, hparts, hsite⟩ :=
    h f _ f.size .parenthesizedExpression ds (Site.start (.nil (.refl f)) _ _)
  exact ⟨f.size, f', build_ok hparts, hsite.parenthesized⟩

end Parts

/-! ## Flat matches that become nested nodes -/

/-- A first match and items after it, out of which rounds make a root that reads as a tree. -/
structure Builds {ι : Type} (g : Grammar δ) (source : Source)
    (F : Recur δ → List ι → NodeId → Span → Lower NodeId) (chunk : ι → List (RawTree δ))
    (first : RawTree δ) (items : List ι) (t : Tree) : Prop where
  isNode : first.token? = none
  folds : ∀ recur bound, Faithful g source recur bound →
    (∀ c ∈ first :: items.flatMap chunk, c.height ≤ bound) →
      Folds source (F recur) (recur first) (first.span source.stream) items t

section Flat

variable {ι : Type} {F : Recur δ → List ι → NodeId → Span → Lower NodeId}
  {chunk : ι → List (RawTree δ)} {first : RawTree δ} {items : List ι} {y : ι} {t' : Tree}

theorem Builds.nil (h : Lowers g source first t) : Builds g source F chunk first [] t :=
  ⟨h.isNode, fun _ _ hrecur hheight =>
    .nil (hrecur first t (hheight first List.mem_cons_self) h) _ _⟩

theorem Builds.snoc (h : Builds g source F chunk first items t)
    (hround : ∀ recur bound, Faithful g source recur bound → (∀ c ∈ chunk y, c.height ≤ bound) →
      Rounds source (F recur) y t t') : Builds g source F chunk first (items ++ [y]) t' := by
  refine ⟨h.isNode, fun recur bound hrecur hheight => ?_⟩
  rw [List.flatMap_append, List.flatMap_singleton] at hheight
  refine (h.folds recur bound hrecur fun c hc => hheight c ?_).snoc
    (hround recur bound hrecur fun c hc => hheight c ?_)
  · rw [← List.cons_append]
    exact List.mem_append_left _ hc
  · exact List.mem_cons_of_mem _ (List.mem_append_right _ hc)

theorem Builds.gives (h : Builds g source F chunk first items t)
    (hend : ∀ n span, F recur [] n span = pure n)
    (hrecur : Faithful g source recur bound)
    (hheight : ∀ c ∈ first :: items.flatMap chunk, c.height ≤ bound) :
    Gives source (recur first >>= fun n => F recur items n (first.span source.stream)) t :=
  (h.folds recur bound hrecur hheight).gives hend

end Flat

section Operators

variable {operator? : TokenKind → Option BinaryOperator} {first last : RawTree δ}
  {pairs : List (RawTree δ × RawTree δ)}

theorem Lowers.chainLeft
    (h : Builds g source (fun recur => Lowering.chainLeft g recur operator?) pairTrees first pairs t)
    (htrivia : g.keepsTrivia d = false) (hshape : ∀ ks, g.shape d ks = .chain operator? false)
    (hrule : (g.rule d).any Rule.isSeparated = true) (i j : Nat) :
    Lowers g source (.node (some d) i j (chained first pairs)) t := by
  refine .of_shaped htrivia fun recur hrecur => ?_
  have hitems : (RawTree.node (some d) i j (chained first pairs)).listItems g =
      (first :: pairs.map (·.2), pairs.map (·.1)) := by
    simp only [RawTree.listItems, hrule, if_true, alternate_chained]
  have hzip : (pairs.map (·.1)).zip (pairs.map (·.2)) = pairs :=
    (List.zip_of_prod rfl rfl).symm
  have hchild : Lowering.child recur first = recur first := by
    cases first with
    | leaf tk => cases h.isNode
    | node => rfl
  rw [hshape]
  simp only [shaped, chain, hitems, Bool.false_eq_true, if_false, hchild, hzip]
  exact h.gives (fun _ _ => rfl) hrecur fun c hc => height_le_of_mem hc

theorem Lowers.chainRight
    (h : Builds g source (fun recur => Lowering.chainRight g recur operator?) pairTrees last
      pairs.reverse t)
    (htrivia : g.keepsTrivia d = false) (hshape : ∀ ks, g.shape d ks = .chain operator? true)
    (hrule : (g.rule d).any Rule.isSeparated = true) (i j : Nat) :
    Lowers g source (.node (some d) i j (chainedBack pairs last)) t := by
  refine .of_shaped htrivia fun recur hrecur => ?_
  have hitems : (RawTree.node (some d) i j (chainedBack pairs last)).listItems g =
      (pairs.map (·.2) ++ [last], pairs.map (·.1)) := by
    simp only [RawTree.listItems, hrule, if_true, alternate_chainedBack]
  have hzip : (pairs.map (·.1)).zip (pairs.map (·.2)) = pairs :=
    (List.zip_of_prod rfl rfl).symm
  have hchild : Lowering.child recur last = recur last := by
    cases last with
    | leaf tk => cases h.isNode
    | node => rfl
  rw [hshape]
  simp only [shaped, chain, hitems, if_true, List.getLast?_concat, List.dropLast_concat, hchild,
    hzip]
  refine h.gives (fun _ _ => rfl) hrecur fun c hc => height_le_of_mem ?_
  simp only [List.mem_cons, List.mem_flatMap, List.mem_reverse, pairTrees, chainedBack,
    List.mem_append] at hc ⊢
  rcases hc with rfl | ⟨p, hp, hc⟩
  · exact .inr (.inl rfl)
  · exact .inl ⟨p, hp, by simpa [or_comm] using hc⟩

end Operators

/-! ## Suffixes and comparisons -/

section Rows

variable {items : List (RawTree δ)} {first : RawTree δ}

theorem Lowers.suffixed
    (h : Builds g source (fun recur => applySuffixes g recur) itemTree first items t)
    (hitems : ∀ c ∈ items, c.token? = none) (htrivia : g.keepsTrivia d = false)
    (hshape : ∀ ks, g.shape d ks = .suffixed) (i j : Nat) :
    Lowers g source (.node (some d) i j (first :: items)) t := by
  refine .of_shaped htrivia fun recur hrecur => ?_
  have hcs : ∀ c ∈ first :: items, c.token? = none := by
    intro c hc
    rcases List.mem_cons.mp hc with rfl | hc
    · exact h.isNode
    · exact hitems c hc
  rw [hshape]
  simp only [shaped, cursor_row g d i j hcs, node_row h.isNode, pure_bind]
  refine h.gives (fun _ _ => rfl) hrecur fun c hc => height_le_of_mem ?_
  simpa [itemTree] using hc

theorem Lowers.comparisons {operator? : TokenKind → Option BinaryOperator}
    (h : Builds g source (fun recur => applyComparisons g recur operator?) itemTree first items t)
    (hitems : ∀ c ∈ items, c.token? = none) (htrivia : g.keepsTrivia d = false)
    (hshape : ∀ ks, g.shape d ks = .comparisons operator?) (i j : Nat) :
    Lowers g source (.node (some d) i j (first :: items)) t := by
  refine .of_shaped htrivia fun recur hrecur => ?_
  have hcs : ∀ c ∈ first :: items, c.token? = none := by
    intro c hc
    rcases List.mem_cons.mp hc with rfl | hc
    · exact h.isNode
    · exact hitems c hc
  rw [hshape]
  simp only [shaped, cursor_row g d i j hcs, node_row h.isNode, pure_bind]
  refine h.gives (fun _ _ => rfl) hrecur fun c hc => height_le_of_mem ?_
  simpa [itemTree] using hc

variable {tk : Token} {form : String} {rest : List (RawTree δ)}

/-- A suffix makes a node around what it is applied to. -/
theorem rounds_suffix {kind : NodeKind} {title place : Title} {ps : List (Part δ)}
    {parts : List (Title × Tree)}
    (hcursor : cursor g raw = ⟨form, .leaf tk :: rest⟩)
    (hplan : Survey.suffixPlan? tk.kind = some (kind, title, place, ps))
    (htitle : title.isLexical = false) (hplace : place.isLexical = true)
    (hagrees : kind.agrees kind = true) (hbare : kind ≠ .parenthesizedExpression)
    (hread : Completes g recur source raw ⟨form, rest⟩ ps [title, place] [(title, t)] parts) :
    Rounds source (applySuffixes g recur) raw t (.node kind parts) := by
  intro f f' ds n span hn
  have htoken : (cursor g raw).anyToken = pure (tk, ⟨form, rest⟩) := by rw [hcursor]; rfl
  let span' := span.cover (raw.span source.stream)
  obtain ⟨f₁, hset, hsite⟩ := (Site.start (.single hn) kind (source.lines.textRange span')).set
    source ds (List.not_mem_nil : title ∉ [])
  rw [htitle] at hsite
  have hnew : place ∉ [title] := by
    intro hmem
    rw [List.mem_singleton.mp hmem, htitle] at hplace
    cases hplace
  obtain ⟨f₂, hkeep, hsite⟩ := hsite.setToken source ds tk hplace hnew
  obtain ⟨c, f₃, titles, hparts, hsite⟩ := hread f f₂ _ kind ds hsite
  refine ⟨f'.size, f₃, span', hsite.finish hagrees hbare, fun more => ?_⟩
  have hspan : spanOf raw source ⟨f', ds⟩ = .ok (raw.span source.stream, ⟨f', ds⟩) := rfl
  have hallocate : Lower.allocate kind span' source ⟨f', ds⟩ =
      .ok (f'.size, ⟨(f'.allocate kind (source.lines.textRange span')).2, ds⟩) := rfl
  rw [applySuffixes, Lower.bind_ok hspan]
  refine Lower.bind_ok ?_ _
  rw [Setting.applySuffix_eq htoken hplan, Lower.bind_ok hallocate, Lower.bind_ok hset,
    Lower.bind_ok hkeep, Lower.bind_ok hparts]
  rfl

end Rows

/-! ## Other shapes -/

/-- A node that is made after its first operand. -/
theorem gives_join {first : RawTree δ} {rest : List (RawTree δ)} {form : String} {kind : NodeKind}
    {title : Title} {parts : List (Title × Tree)} {ps : List (Part δ)}
    (hcursor : cursor g raw = ⟨form, first :: rest⟩) (hnode : first.token? = none)
    (hgives : Gives source (recur first) t) (htitle : title.isLexical = false)
    (hagrees : kind.agrees kind = true) (hbare : kind ≠ .parenthesizedExpression)
    (hread : Completes g recur source raw ⟨form, rest⟩ ps [title] [(title, t)] parts) :
    Gives source (join g recur raw kind [([], title)] ps) (.node kind parts) := by
  intro f ds
  obtain ⟨m, f₁, hm, hmade⟩ := hgives f ds
  let range := source.lines.textRange (raw.span source.stream)
  obtain ⟨f₂, hset, hsite⟩ := (Site.start (.single hmade) kind range).set source ds
    (List.not_mem_nil : title ∉ [])
  rw [htitle] at hsite
  obtain ⟨c, f₃, titles, hparts, hsite⟩ := hread f f₂ _ kind ds hsite
  refine ⟨f₁.size, f₃, ?_, hsite.finish hagrees hbare⟩
  have hoperands : readOperands recur (cursor g raw) [([], title)] source ⟨f, ds⟩ =
      .ok (([(title, m)], ⟨form, rest⟩), ⟨f₁, ds⟩) := by
    rw [hcursor, readOperands, List.foldlM_nil, pure_bind, node_row hnode, pure_bind]
    dsimp only
    rw [Lower.bind_ok hm]
    rfl
  have hspan : spanOf raw source ⟨f₁, ds⟩ = .ok (raw.span source.stream, ⟨f₁, ds⟩) := rfl
  have hallocate : Lower.allocate kind (raw.span source.stream) source ⟨f₁, ds⟩ =
      .ok (f₁.size, ⟨(f₁.allocate kind range).2, ds⟩) := rfl
  have hloop : (forIn [(title, m)] PUnit.unit fun (p : Title × NodeId) _ => do
      Lower.set f₁.size p.1 p.2
      pure (ForInStep.yield PUnit.unit)) source ⟨(f₁.allocate kind range).2, ds⟩ =
        .ok (PUnit.unit, ⟨f₂, ds⟩) := by
    rw [Lower.forIn_eq_forM]
    exact Lower.bind_ok hset _
  rw [join, Lower.bind_ok hoperands]
  dsimp only
  rw [Lower.bind_ok hspan, Lower.bind_ok hallocate]
  refine (Lower.bind_ok hloop _).trans ?_
  rw [Lower.bind_ok hparts]
  rfl

theorem Lowers.typeName (h : Lowers g source raw t) (htrivia : g.keepsTrivia d = false)
    (hshape : ∀ ks, g.shape d ks = .qualifiedType) (i j : Nat) :
    Lowers g source (.node (some d) i j [raw]) (.node .simpleType [(.identifier, t)]) := by
  refine .of_shaped htrivia fun recur hrecur => ?_
  rw [hshape, shaped, qualifiedType, listItems_single]
  dsimp only
  intro f ds
  have hheight : raw.height ≤ RawTree.heightOf [raw] := height_le_of_mem List.mem_cons_self
  obtain ⟨m, f₁, hm, hmade⟩ := hrecur.child hheight h f ds
  let range := source.lines.textRange (raw.span source.stream)
  obtain ⟨f₂, hset, hsite⟩ := (Site.start (.single hmade) .simpleType range).set source ds
    (List.not_mem_nil : Title.identifier ∉ [])
  refine ⟨f₁.size, f₂, ?_, hsite.finish rfl (by simp)⟩
  have hspan : spanOf raw source ⟨f₁, ds⟩ = .ok (raw.span source.stream, ⟨f₁, ds⟩) := rfl
  have hallocate : Lower.allocate .simpleType (raw.span source.stream) source ⟨f₁, ds⟩ =
      .ok (f₁.size, ⟨(f₁.allocate .simpleType range).2, ds⟩) := rfl
  rw [Lower.bind_ok hm, Lower.bind_ok hspan, Lower.bind_ok hallocate, Lower.bind_ok hset]
  rfl

end DualSyntax.Lowering
