import DualSyntax.Lowering.Shapes
import DualSyntax.Proofs.Mirroring.Drafts
import DualSyntax.Proofs.Packrat.Kinds

/-!
# Alike raw trees and their parts

Raw trees of the same words are alike, and the parts of a match are read alike from both.
-/

namespace DualSyntax

/-!
## Raw trees of the same words

Two raw trees are alike if they have the same skeleton and alike tokens in the same places.  What
lowering asks of a raw tree (its height, its list items, the kinds of its tokens, how many dimensions
it spells) has the same answer for both, and a cursor over one finds what a cursor over the other
finds.
-/

section RawTrees

open Forest

variable {δ : Type}

/-- Lists whose elements are related one by one, less those that do not meet a condition on which
related elements agree. -/
theorem forall₂_filter {α β : Type} {R : α → β → Prop} {p : α → Bool} {q : β → Bool}
    (hpq : ∀ a b, R a b → p a = q b) {as : List α} {bs : List β} (h : List.Forall₂ R as bs) :
    List.Forall₂ R (as.filter p) (bs.filter q) := by
  induction h with
  | nil => exact .nil
  | @cons a b _ _ hab _ ih =>
      rw [List.filter_cons, List.filter_cons, hpq a b hab]
      split
      · exact .cons hab ih
      · exact ih

namespace RawTree

/-- Raw trees that differ in the trivia and the places of their tokens only. -/
inductive Alike : RawTree δ → RawTree δ → Prop
  | leaf {t t' : Token} (h : t.Alike t') : Alike (.leaf t) (.leaf t')
  | node (form : Option δ) (first last : Nat) {cs cs' : List (RawTree δ)}
      (h : List.Forall₂ Alike cs cs') : Alike (.node form first last cs) (.node form first last cs')

mutual

/-- Trees of the same skeleton are alike if their tokens are, also where more tokens follow. -/
theorem alike_of_skeleton {rest rest' : List Token} :
    (t t' : RawTree δ) → t.skeleton = t'.skeleton →
      List.Forall₂ Token.Alike (t.tokens ++ rest) (t'.tokens ++ rest') →
      t.Alike t' ∧ List.Forall₂ Token.Alike rest rest'
  | leaf _, leaf _, _, .cons h hrest => ⟨.leaf h, hrest⟩
  | node _ _ _ cs, node _ _ _ cs', hskeleton, htokens => by
      simp only [skeleton, Skeleton.node.injEq] at hskeleton
      obtain ⟨rfl, rfl, rfl, hcs⟩ := hskeleton
      obtain ⟨hchildren, hrest⟩ := alike_of_skeletons cs cs' hcs htokens
      exact ⟨.node _ _ _ hchildren, hrest⟩
  | leaf _, node .., hskeleton, _ | node .., leaf _, hskeleton, _ => by cases hskeleton

theorem alike_of_skeletons {rest rest' : List Token} :
    (ts ts' : List (RawTree δ)) → skeletons ts = skeletons ts' →
      List.Forall₂ Token.Alike (tokensOf ts ++ rest) (tokensOf ts' ++ rest') →
      List.Forall₂ Alike ts ts' ∧ List.Forall₂ Token.Alike rest rest'
  | [], [], _, h => ⟨.nil, h⟩
  | t :: ts, t' :: ts', hskeleton, htokens => by
      simp only [skeletons, List.cons.injEq] at hskeleton
      rw [tokensOf, tokensOf, List.append_assoc, List.append_assoc] at htokens
      obtain ⟨hhead, htail⟩ := alike_of_skeleton t t' hskeleton.1 htokens
      obtain ⟨hrest, hmore⟩ := alike_of_skeletons ts ts' hskeleton.2 htail
      exact ⟨.cons hhead hrest, hmore⟩
  | [], _ :: _, hskeleton, _ | _ :: _, [], hskeleton, _ => by cases hskeleton

end

mutual

/-- What holds of alike tokens, and of alike matches if it holds of their children, holds of alike
trees. -/
theorem Alike.induct {P : RawTree δ → RawTree δ → Prop}
    (hleaf : ∀ t t', Token.Alike t t' → P (.leaf t) (.leaf t'))
    (hnode : ∀ form i j cs cs', List.Forall₂ Alike cs cs' → List.Forall₂ P cs cs' →
      P (.node form i j cs) (.node form i j cs')) :
    (t t' : RawTree δ) → t.Alike t' → P t t'
  | .leaf _, _, h => by
      cases h with
      | leaf htoken => exact hleaf _ _ htoken
  | .node form i j cs, _, h => by
      cases h with
      | node _ _ _ hcs => exact hnode form i j cs _ hcs (Alike.inducts hleaf hnode cs _ hcs)

theorem Alike.inducts {P : RawTree δ → RawTree δ → Prop}
    (hleaf : ∀ t t', Token.Alike t t' → P (.leaf t) (.leaf t'))
    (hnode : ∀ form i j cs cs', List.Forall₂ Alike cs cs' → List.Forall₂ P cs cs' →
      P (.node form i j cs) (.node form i j cs')) :
    (ts ts' : List (RawTree δ)) → List.Forall₂ Alike ts ts' → List.Forall₂ P ts ts'
  | [], _, h => by
      cases h with
      | nil => exact .nil
  | t :: ts, _, h => by
      cases h with
      | cons ht hts =>
          exact .cons (Alike.induct hleaf hnode t _ ht) (Alike.inducts hleaf hnode ts _ hts)

end

/-! ### What lowering asks of a tree -/

namespace Alike

variable {t t' : RawTree δ}

theorem height (h : t.Alike t') : t.height = t'.height := by
  refine Alike.induct (P := fun t t' => t.height = t'.height) (fun _ _ _ => rfl) ?_ t t' h
  rintro form i j cs cs' - hcs
  rw [RawTree.height, RawTree.height]
  congr 1
  induction hcs with
  | nil => rfl
  | cons hheight _ ih => rw [heightOf, heightOf, hheight, ih]

theorem tokens (h : t.Alike t') : List.Forall₂ Token.Alike t.tokens t'.tokens := by
  refine Alike.induct (P := fun t t' => List.Forall₂ Token.Alike t.tokens t'.tokens)
    (fun _ _ htoken => .cons htoken .nil) ?_ t t' h
  rintro form i j cs cs' - hcs
  rw [RawTree.tokens, RawTree.tokens]
  induction hcs with
  | nil => exact .nil
  | cons htokens _ ih =>
      rw [tokensOf, tokensOf]
      exact List.rel_append htokens ih

theorem nodes (h : t.Alike t') : List.Forall₂ Alike t.nodes t'.nodes := by
  refine Alike.induct (P := fun t t' => List.Forall₂ Alike t.nodes t'.nodes)
    (fun _ _ _ => .nil) ?_ t t' h
  intro form i j cs cs' halike hcs
  rw [RawTree.nodes, RawTree.nodes]
  refine .cons (.node form i j halike) ?_
  clear halike
  induction hcs with
  | nil => exact .nil
  | cons hnodes _ ih =>
      rw [nodesOf, nodesOf]
      exact List.rel_append hnodes ih

theorem children (h : t.Alike t') : List.Forall₂ Alike t.children t'.children := by
  cases h with
  | leaf => exact .nil
  | node form i j hcs => exact hcs

theorem token? (h : t.Alike t') : Option.Rel Token.Alike t.token? t'.token? := by
  cases h with
  | leaf htoken => exact .some htoken
  | node => exact .none

theorem token?_isNone (h : t.Alike t') : t.token?.isNone = t'.token?.isNone := by
  cases h <;> rfl

theorem isForm [BEq δ] (h : t.Alike t') (d : δ) : t.isForm d = t'.isForm d := by
  cases h with
  | leaf => rfl
  | node form i j hcs => cases form <;> rfl

theorem formName (h : t.Alike t') (g : Grammar δ) : t.formName g = t'.formName g := by
  cases h with
  | leaf => rfl
  | node form i j hcs => cases form <;> rfl

theorem childTokens (h : t.Alike t') : List.Forall₂ Token.Alike t.childTokens t'.childTokens := by
  unfold RawTree.childTokens
  have hcs := h.children
  generalize t.children = cs at hcs
  generalize t'.children = cs' at hcs
  induction hcs with
  | nil => exact .nil
  | cons hc _ ih =>
      cases hc with
      | leaf htoken => exact .cons htoken ih
      | node => exact ih

theorem childKinds (h : t.Alike t') :
    t.childTokens.map (·.kind) = t'.childTokens.map (·.kind) := by
  have htokens := h.childTokens
  generalize t.childTokens = ts at htokens
  generalize t'.childTokens = ts' at htokens
  induction htokens with
  | nil => rfl
  | cons htoken _ ih => rw [List.map_cons, List.map_cons, htoken.kind, ih]

theorem alternate {ts ts' : List (RawTree δ)} (h : List.Forall₂ Alike ts ts') :
    List.Forall₂ Alike (RawTree.alternate ts).1 (RawTree.alternate ts').1 ∧
      List.Forall₂ Alike (RawTree.alternate ts).2 (RawTree.alternate ts').2 := by
  induction h with
  | nil => exact ⟨.nil, .nil⟩
  | cons ht _ ih => exact ⟨.cons ht ih.2, ih.1⟩

theorem listItems (h : t.Alike t') (g : Grammar δ) :
    List.Forall₂ Alike (t.listItems g).1 (t'.listItems g).1 ∧
      List.Forall₂ Alike (t.listItems g).2 (t'.listItems g).2 := by
  cases h with
  | leaf => exact ⟨.nil, .nil⟩
  | node form i j hcs =>
      cases form with
      | none => exact ⟨hcs, .nil⟩
      | some d =>
          simp only [RawTree.listItems]
          split
          · exact alternate hcs
          · exact ⟨hcs, .nil⟩

end Alike

end RawTree

namespace Lowering

open RawTree

variable {t t' : RawTree δ}

theorem commasIn_alike (h : t.Alike t') (g : Grammar δ) : commasIn g t = commasIn g t' := by
  cases h with
  | leaf htoken => simp only [commasIn, htoken.kind]
  | node form i j hcs =>
      have hitems := ((Alike.node form i j hcs).listItems g).2
      simp only [commasIn, hitems.length_eq]

theorem rankOf_alike (h : t.Alike t') (g : Grammar δ) : rankOf g t = rankOf g t' := by
  unfold rankOf
  have hcs := h.children
  generalize t.children = cs at hcs
  generalize t'.children = cs' at hcs
  generalize 1 = n
  induction hcs generalizing n with
  | nil => rfl
  | cons hc _ ih => rw [List.foldl_cons, List.foldl_cons, commasIn_alike hc, ih]

theorem isEmptyStatement_alike (h : t.Alike t') (g : Grammar δ) :
    isEmptyStatement g t = isEmptyStatement g t' := by
  unfold isEmptyStatement
  have hcs := h.children
  generalize t.children = cs at hcs
  generalize t'.children = cs' at hcs
  cases hcs with
  | nil => rfl
  | cons hc hrest =>
      cases hrest with
      | nil => simp only [hc.token?_isNone, hc.formName]
      | cons => rfl

theorem isVoid_alike (h : t.Alike t') : isVoid t = isVoid t' := by
  unfold isVoid
  have htokens := h.tokens
  generalize t.tokens = ts at htokens
  generalize t'.tokens = ts' at htokens
  cases htokens with
  | nil => rfl
  | cons htoken hrest =>
      cases hrest with
      | nil => simp only [htoken.kind]
      | cons => rfl

end Lowering

end RawTrees

/-!
## Reading parts in two runs

The parts of a match are read in the same way from two raw trees that are alike.
-/

namespace Part

variable {δ : Type}

mutual

/-- Parts that read words only, and that keep nothing under a title for comments. -/
def isPlain : Part δ → Bool
  | .keep _ t | .keepMaybe _ t | .keepAny t | .close _ t | .node t | .nodeMaybe t | .formMaybe _ t
  | .nodes t | .forms _ t | .everything t | .list t | .body t | .resultType t | .headerItems _ t =>
    !t.isTrivia
  | .drop _ | .dropMaybe _ | .dropAny | .needless _ | .modifiers | .modifierMaybe _ | .accessors _ => true
  | .given _ kept parts => kept.all (!·.isTrivia) && arePlain parts
  | _ => false

def arePlain : List (Part δ) → Bool
  | [] => true
  | p :: ps => isPlain p && arePlain ps

end

end Part

namespace Lowering

open Forest Lower RawTree

variable {δ : Type} {source source' : Source} {ρ : Pairing} {α : Type}

/-! ### Cursors -/

def Cursor.Alike (c c' : Cursor δ) : Prop := List.Forall₂ RawTree.Alike c.rest c'.rest

/-- What two cursors took, with what they left: related things, or nothing. -/
inductive TookBoth (R : α → α → Prop) : Option α × Cursor δ → Option α × Cursor δ → Prop
  | some {a a' : α} {c c' : Cursor δ} (ha : R a a') (hc : c.Alike c') : TookBoth R (some a, c) (some a', c')
  | none {c c' : Cursor δ} (hc : c.Alike c') : TookBoth R (none, c) (none, c')

abbrev TokenThen (_ : Pairing) (p p' : Token × Cursor δ) : Prop := p.1.Alike p'.1 ∧ p.2.Alike p'.2

abbrev NodeThen (_ : Pairing) (p p' : RawTree δ × Cursor δ) : Prop :=
  p.1.Alike p'.1 ∧ p.2.Alike p'.2

theorem cursor_alike {raw raw' : RawTree δ} (h : raw.Alike raw') (g : Grammar δ) :
    (cursor g raw).Alike (cursor g raw') := by
  refine forall₂_filter (fun t t' ht => ?_) h.children
  cases ht with
  | leaf htoken => simp [token?, htoken.kind]
  | node => rfl

namespace Cursor.Alike

variable {c c' : Cursor δ}

theorem eatAny (h : c.Alike c') (kinds : List TokenKind) :
    TookBoth Token.Alike (c.eatAny kinds) (c'.eatAny kinds) := by
  obtain ⟨form, rest⟩ := c
  obtain ⟨form', rest'⟩ := c'
  cases h with
  | nil => exact .none .nil
  | cons ht hrest =>
      cases ht with
      | node form i j hcs => exact .none (.cons (.node form i j hcs) hrest)
      | leaf htoken =>
          simp only [Cursor.eatAny, htoken.kind]
          split
          · exact .some htoken hrest
          · exact .none (.cons (.leaf htoken) hrest)

theorem eat (h : c.Alike c') (k : TokenKind) : TookBoth Token.Alike (c.eat k) (c'.eat k) := h.eatAny [k]

theorem eatNode (h : c.Alike c') : TookBoth RawTree.Alike c.eatNode c'.eatNode := by
  obtain ⟨form, rest⟩ := c
  obtain ⟨form', rest'⟩ := c'
  cases h with
  | nil => exact .none .nil
  | cons ht hrest =>
      cases ht with
      | node form i j hcs => exact .some (.node form i j hcs) hrest
      | leaf htoken => exact .none (.cons (.leaf htoken) hrest)

theorem eatForm [BEq δ] (h : c.Alike c') (d : δ) :
    TookBoth RawTree.Alike (c.eatForm d) (c'.eatForm d) := by
  obtain ⟨form, rest⟩ := c
  obtain ⟨form', rest'⟩ := c'
  cases h with
  | nil => exact .none .nil
  | cons ht hrest =>
      simp only [Cursor.eatForm, ht.isForm]
      split
      · exact .some ht hrest
      · exact .none (.cons ht hrest)

theorem takeNodes [BEq δ] (h : c.Alike c') (d : Option δ) :
    List.Forall₂ RawTree.Alike (c.takeNodes d).1 (c'.takeNodes d).1 ∧
      (c.takeNodes d).2.Alike (c'.takeNodes d).2 := by
  obtain ⟨form, rest⟩ := c
  obtain ⟨form', rest'⟩ := c'
  unfold Cursor.takeNodes Cursor.Alike
  dsimp only [Cursor.Alike] at h ⊢
  induction h with
  | nil => exact ⟨.nil, .nil⟩
  | @cons t t' _ _ ht hrest ih =>
      have hwanted : (t.token?.isNone && d.all fun d => t.isForm d) =
          (t'.token?.isNone && d.all fun d => t'.isForm d) := by
        simp only [ht.token?_isNone, ht.isForm]
      rw [List.takeWhile_cons, List.takeWhile_cons, List.dropWhile_cons, List.dropWhile_cons, hwanted]
      split
      · exact ⟨.cons ht ih.1, ih.2⟩
      · exact ⟨.nil, .cons ht hrest⟩

theorem token (h : c.Alike c') (k : TokenKind) :
    Mirrors source source' TokenThen ρ (c.token k) (c'.token k) := by
  have heat := h.eat k
  unfold Cursor.token
  revert heat
  generalize c.eat k = r
  generalize c'.eat k = r'
  rintro (⟨htk, hc⟩ | _)
  · exact .pure ⟨htk, hc⟩
  · exact .throw_left _ _

theorem anyToken (h : c.Alike c') :
    Mirrors source source' TokenThen ρ c.anyToken c'.anyToken := by
  obtain ⟨form, rest⟩ := c
  obtain ⟨form', rest'⟩ := c'
  cases h with
  | nil => exact .throw_left _ _
  | cons ht hrest =>
      cases ht with
      | node form i j hcs => exact .throw_left _ _
      | leaf htoken => exact .pure ⟨htoken, hrest⟩

theorem node (h : c.Alike c') : Mirrors source source' NodeThen ρ c.node c'.node := by
  have heat := h.eatNode
  unfold Cursor.node
  revert heat
  generalize c.eatNode = r
  generalize c'.eatNode = r'
  rintro (⟨ht, hc⟩ | _)
  · exact .pure ⟨ht, hc⟩
  · exact .throw_left _ _

end Cursor.Alike

/-! ### Nodes of nested matches -/

/-- Ways to make the nodes of nested matches that do the same to trees that are alike. -/
def RecurMirrors (source source' : Source) (recur recur' : Recur δ) : Prop :=
  ∀ ρ raw raw', raw.Alike raw' → MirrorsNode source source' ρ (recur raw) (recur' raw')

section Nested

variable {recur recur' : Recur δ} {raw raw' : RawTree δ} {owner owner' : NodeId} {t : Title}

theorem mirrors_spanOf (raw raw' : RawTree δ) :
    MirrorsStep source source' ρ (spanOf raw) (spanOf raw') :=
  .read fun _ => .pure trivial

theorem mirrors_child (hrecur : RecurMirrors source source' recur recur') (h : raw.Alike raw') :
    MirrorsNode source source' ρ (child recur raw) (child recur' raw') := by
  cases h with
  | leaf htoken => exact mirrors_token htoken
  | node form i j hcs => exact hrecur ρ _ _ (.node form i j hcs)

theorem mirrors_elements (hrecur : RecurMirrors source source' recur recur') (h : raw.Alike raw')
    (g : Grammar δ) :
    Mirrors source source' List.Forall₂ ρ (elements g recur raw) (elements g recur' raw') :=
  mirrors_mapM (h.listItems g).1 fun _ _ _ _ ht => mirrors_child hrecur ht

theorem mirrors_pushAll {ns ns' : List NodeId} (ho : ρ owner owner') (ht : t.isTrivia = false)
    (hns : List.Forall₂ ρ ns ns') :
    MirrorsStep source source' ρ (pushAll owner t ns) (pushAll owner' t ns') :=
  mirrors_forM hns fun _ hρ _ _ hn => mirrors_push (hρ _ _ ho) ht (hρ _ _ hn)

theorem mirrors_arrayOf {element element' : NodeId} (he : ρ element element') {rank rank' : RawTree δ}
    (hrank : rank.Alike rank') (g : Grammar δ) (span span' : Span) :
    MirrorsNode source source' ρ (arrayOf g element rank span) (arrayOf g element' rank' span') := by
  unfold arrayOf
  rw [rankOf_alike hrank]
  refine (mirrors_allocate (.of_not_isLiteral rfl) _ _).bind fun ρ₁ hρ₁ n n' hn => ?_
  refine (mirrors_set hn rfl (hρ₁ _ _ he)).bind fun ρ₂ hρ₂ _ _ _ => ?_
  exact .pure (hρ₂ _ _ hn)

theorem mirrors_setAccessor {n n' : NodeId} (ho : ρ owner owner') (hn : ρ n n') :
    MirrorsStep source source' ρ (setAccessor owner n) (setAccessor owner' n') := by
  refine (mirrors_inspect (R := fun _ => Eq) fun f g h => h.kind n n' hn).bind ?_
  rintro ρ' hρ kind _ rfl
  split
  · exact mirrors_set (hρ _ _ ho) rfl (hρ _ _ hn)
  · exact mirrors_set (hρ _ _ ho) rfl (hρ _ _ hn)

theorem mirrors_addModifiers (drop : Modifier → Bool) (ho : ρ owner owner') (h : raw.Alike raw') :
    MirrorsStep source source' ρ (addModifiers drop owner raw) (addModifiers drop owner' raw') := by
  refine (mirrors_foldlM (R := fun _ _ => True) h.childTokens trivial ?_).imp fun _ _ _ _ h => h
  intro ρ₁ hρ₁ dropped dropped' _ tk tk' htk
  refine (mirrors_modifier htk).bind fun ρ₂ hρ₂ n n' hn => ?_
  refine (mirrors_inspect (R := fun _ => Eq) fun f g h => h.kind n n' hn).bind ?_
  rintro ρ₃ hρ₃ kind _ rfl
  split
  · split
    · exact .pure trivial
    · refine (mirrors_push ?_ rfl (hρ₃ _ _ hn)).bind fun _ _ _ _ _ => .pure trivial
      exact hρ₃ _ _ (hρ₂ _ _ (hρ₁ _ _ ho))
  · exact .pure trivial

theorem mirrors_expressionStatements (hrecur : RecurMirrors source source' recur recur')
    (h : raw.Alike raw') (g : Grammar δ) :
    Mirrors source source' List.Forall₂ ρ (expressionStatements g recur raw)
      (expressionStatements g recur' raw') := by
  refine mirrors_mapM (h.listItems g).1 fun _ _ el el' hel => ?_
  refine (mirrors_child hrecur hel).bind fun ρ₁ hρ₁ e e' he => ?_
  refine (mirrors_spanOf el el').bind fun ρ₂ hρ₂ span span' _ => ?_
  refine (mirrors_allocate (.of_not_isLiteral rfl) _ _).bind fun ρ₃ hρ₃ n n' hn => ?_
  refine (mirrors_set hn rfl (hρ₃ _ _ (hρ₂ _ _ he))).bind fun ρ₄ hρ₄ _ _ _ => ?_
  exact .pure (hρ₄ _ _ hn)

end Nested

/-! ### Parts -/

section Parts

variable {g : Grammar δ} {recur recur' : Recur δ} {owner owner' : NodeId} {raw raw' : RawTree δ}
  {c c' : Cursor δ} {t : Title}

/-- A step that leaves cursors over trees that are alike. -/
abbrev MirrorsCursor (source source' : Source) (ρ : Pairing) (x y : Lower (Cursor δ)) : Prop :=
  Mirrors source source' (fun _ c c' => c.Alike c') ρ x y

theorem mirrors_then {x y : Lower Unit} (hx : MirrorsStep source source' ρ x y) (hc : c.Alike c') :
    MirrorsCursor source source' ρ (do x; return c) (do y; return c') :=
  hx.bind fun _ _ _ _ _ => .pure hc

theorem mirrors_setNested (hrecur : RecurMirrors source source' recur recur') (ho : ρ owner owner')
    (ht : t.isTrivia = false) (h : raw.Alike raw') (hc : c.Alike c') :
    MirrorsCursor source source' ρ (do Lower.set owner t (← recur raw); return c)
      (do Lower.set owner' t (← recur' raw'); return c') :=
  (hrecur ρ _ _ h).bind fun _ hρ _ _ hn => mirrors_then (mirrors_set (hρ _ _ ho) ht hn) hc

theorem mirrors_pushNested (ho : ρ owner owner') (ht : t.isTrivia = false)
    {make make' : RawTree δ → Lower NodeId} (hmake : RecurMirrors source source' make make')
    {ts ts' : List (RawTree δ)} (hts : List.Forall₂ Alike ts ts') (hc : c.Alike c') :
    MirrorsCursor source source' ρ
      (do
        for u in ts do Lower.push owner t (← make u)
        return c)
      (do
        for u in ts' do Lower.push owner' t (← make' u)
        return c') := by
  simp only [← bind_assoc]
  refine mirrors_then (mirrors_forIn hts fun ρ₁ hρ₁ u u' hu => ?_) hc
  refine (hmake ρ₁ _ _ hu).bind fun ρ₂ hρ₂ n n' hn => ?_
  exact mirrors_push (hρ₂ _ _ (hρ₁ _ _ ho)) ht hn

variable [BEq δ]

mutual

/-- A part is read in the same way from trees that are alike. -/
theorem mirrors_readPart (hrecur : RecurMirrors source source' recur recur')
    (hraw : raw.Alike raw') : ∀ (p : Part δ) {ρ : Pairing} {c c' : Cursor δ}, p.isPlain = true →
    ρ owner owner' → c.Alike c' →
    MirrorsCursor source source' ρ (readPart g recur owner raw c p)
      (readPart g recur' owner' raw' c' p)
  | .keep k t, ρ, c, c', hp, ho, hc => by
      rw [Part.isPlain, Bool.not_eq_true'] at hp
      rw [readPart, readPart]
      refine (hc.token k).bind fun ρ₁ hρ₁ r r' hr => ?_
      exact mirrors_then (mirrors_setToken (hρ₁ _ _ ho) hp hr.1) hr.2
  | .keepMaybe k t, ρ, c, c', hp, ho, hc => by
      rw [Part.isPlain, Bool.not_eq_true'] at hp
      rw [readPart, readPart]
      match c.eat k, c'.eat k, hc.eat k with
      | _, _, .some htk hc => exact mirrors_then (mirrors_setToken ho hp htk) hc
      | _, _, .none hc => exact .pure hc
  | .keepAny t, ρ, c, c', hp, ho, hc => by
      rw [Part.isPlain, Bool.not_eq_true'] at hp
      rw [readPart, readPart]
      refine hc.anyToken.bind fun ρ₁ hρ₁ r r' hr => ?_
      exact mirrors_then (mirrors_setToken (hρ₁ _ _ ho) hp hr.1) hr.2
  | .close k t, ρ, c, c', hp, ho, hc => by
      rw [Part.isPlain, Bool.not_eq_true'] at hp
      rw [readPart, readPart]
      refine (hc.token k).bind fun ρ₁ hρ₁ r r' hr => ?_
      refine (mirrors_attachTrailing (hρ₁ _ _ ho) _ _).bind fun ρ₂ hρ₂ _ _ _ => ?_
      exact mirrors_then (mirrors_setToken (hρ₂ _ _ (hρ₁ _ _ ho)) hp hr.1) hr.2
  | .drop k, ρ, c, c', hp, ho, hc => by
      rw [readPart, readPart]
      exact (hc.token k).bind fun ρ₁ hρ₁ r r' hr => .pure hr.2
  | .dropMaybe k, ρ, c, c', hp, ho, hc => by
      rw [readPart, readPart]
      match c.eat k, c'.eat k, hc.eat k with
      | _, _, .some _ hc => exact .pure hc
      | _, _, .none hc => exact .pure hc
  | .dropAny, ρ, c, c', hp, ho, hc => by
      rw [readPart, readPart]
      exact hc.anyToken.bind fun ρ₁ hρ₁ r r' hr => .pure hr.2
  | .needless k, ρ, c, c', hp, ho, hc => by
      rw [readPart, readPart]
      match c.eat k, c'.eat k, hc.eat k with
      | _, _, .some _ hc => exact mirrors_then (mirrors_report _ _ _) hc
      | _, _, .none hc => exact .pure hc
  | .node t, ρ, c, c', hp, ho, hc => by
      rw [Part.isPlain, Bool.not_eq_true'] at hp
      rw [readPart, readPart]
      refine hc.node.bind fun ρ₁ hρ₁ r r' hr => ?_
      exact mirrors_setNested hrecur (hρ₁ _ _ ho) hp hr.1 hr.2
  | .nodeMaybe t, ρ, c, c', hp, ho, hc => by
      rw [Part.isPlain, Bool.not_eq_true'] at hp
      rw [readPart, readPart]
      match c.eatNode, c'.eatNode, hc.eatNode with
      | _, _, .some h hc => exact mirrors_setNested hrecur ho hp h hc
      | _, _, .none hc => exact .pure hc
  | .formMaybe d t, ρ, c, c', hp, ho, hc => by
      rw [Part.isPlain, Bool.not_eq_true'] at hp
      rw [readPart, readPart]
      match c.eatForm d, c'.eatForm d, hc.eatForm d with
      | _, _, .some h hc => exact mirrors_setNested hrecur ho hp h hc
      | _, _, .none hc => exact .pure hc
  | .nodes t, ρ, c, c', hp, ho, hc => by
      rw [Part.isPlain, Bool.not_eq_true'] at hp
      rw [readPart, readPart]
      obtain ⟨hfound, hrest⟩ := hc.takeNodes none
      exact mirrors_pushNested ho hp hrecur hfound hrest
  | .forms d t, ρ, c, c', hp, ho, hc => by
      rw [Part.isPlain, Bool.not_eq_true'] at hp
      rw [readPart, readPart]
      obtain ⟨hfound, hrest⟩ := hc.takeNodes (some d)
      exact mirrors_pushNested ho hp hrecur hfound hrest
  | .everything t, ρ, c, c', hp, ho, hc => by
      rw [Part.isPlain, Bool.not_eq_true'] at hp
      rw [readPart, readPart]
      refine mirrors_pushNested ho hp ?_ hraw.children .nil
      exact fun _ _ _ h => mirrors_child hrecur h
  | .list t, ρ, c, c', hp, ho, hc => by
      rw [Part.isPlain, Bool.not_eq_true'] at hp
      rw [readPart, readPart]
      refine hc.node.bind fun ρ₁ hρ₁ r r' hr => ?_
      refine (mirrors_elements hrecur hr.1 g).bind fun ρ₂ hρ₂ ns ns' hns => ?_
      exact mirrors_then (mirrors_pushAll (hρ₂ _ _ (hρ₁ _ _ ho)) hp hns) hr.2
  | .body t, ρ, c, c', hp, ho, hc => by
      rw [Part.isPlain, Bool.not_eq_true'] at hp
      rw [readPart, readPart]
      refine hc.node.bind fun ρ₁ hρ₁ r r' hr => ?_
      dsimp only
      rw [isEmptyStatement_alike hr.1]
      split
      · refine (mirrors_spanOf _ _).bind fun ρ₂ hρ₂ _ _ _ => ?_
        refine (mirrors_report _ _ _).bind fun ρ₃ hρ₃ _ _ _ => ?_
        exact mirrors_setNested hrecur (hρ₃ _ _ (hρ₂ _ _ (hρ₁ _ _ ho))) hp hr.1 hr.2
      · exact mirrors_setNested hrecur (hρ₁ _ _ ho) hp hr.1 hr.2
  | .resultType t, ρ, c, c', hp, ho, hc => by
      rw [Part.isPlain, Bool.not_eq_true'] at hp
      rw [readPart, readPart]
      refine hc.node.bind fun ρ₁ hρ₁ r r' hr => ?_
      dsimp only
      rw [isVoid_alike hr.1]
      split
      · exact mirrors_setNested hrecur (hρ₁ _ _ ho) hp hr.1 hr.2
      · exact .pure hr.2
  | .given k kept parts, ρ, c, c', hp, ho, hc => by
      rw [Part.isPlain, Bool.and_eq_true] at hp
      rw [readPart, readPart]
      match c.eat k, c'.eat k, hc.eat k with
      | _, _, .some htk hc =>
          cases kept with
          | none => exact mirrors_readParts hrecur hraw parts hp.2 ho hc
          | some t =>
              have ht : t.isTrivia = false := by simpa using hp.1
              refine (mirrors_setToken ho ht htk).bind fun ρ₁ hρ₁ _ _ _ => ?_
              exact mirrors_readParts hrecur hraw parts hp.2 (hρ₁ _ _ ho) hc
      | _, _, .none hc => exact .pure hc
  | .modifiers, ρ, c, c', hp, ho, hc => by
      rw [readPart, readPart]
      refine hc.node.bind fun ρ₁ hρ₁ r r' hr => ?_
      refine (mirrors_addModifiers _ (hρ₁ _ _ ho) hr.1).bind fun _ _ _ _ _ => ?_
      exact .pure hr.2
  | .modifierMaybe k, ρ, c, c', hp, ho, hc => by
      rw [readPart, readPart]
      match c.eat k, c'.eat k, hc.eat k with
      | _, _, .some htk hc =>
          refine (mirrors_modifier htk).bind fun ρ₁ hρ₁ n n' hn => ?_
          exact mirrors_then (mirrors_push (hρ₁ _ _ ho) rfl hn) hc
      | _, _, .none hc => exact .pure hc
  | .accessors d, ρ, c, c', hp, ho, hc => by
      rw [readPart, readPart]
      obtain ⟨hfound, hrest⟩ := hc.takeNodes (some d)
      simp only [← bind_assoc]
      refine mirrors_then (mirrors_forIn hfound fun ρ₁ hρ₁ u u' hu => ?_) hrest
      refine (hrecur ρ₁ _ _ hu).bind fun ρ₂ hρ₂ n n' hn => ?_
      exact mirrors_setAccessor (hρ₂ _ _ (hρ₁ _ _ ho)) hn
  | .headerItems d t, ρ, c, c', hp, ho, hc => by
      rw [Part.isPlain, Bool.not_eq_true'] at hp
      rw [readPart, readPart]
      match c.eatNode, c'.eatNode, hc.eatNode with
      | _, _, .some h hc =>
          dsimp only
          rw [h.isForm]
          split
          · refine (hrecur ρ _ _ h).bind fun ρ₁ hρ₁ n n' hn => ?_
            exact mirrors_then (mirrors_push (hρ₁ _ _ ho) hp hn) hc
          · refine (mirrors_expressionStatements hrecur h g).bind fun ρ₁ hρ₁ ns ns' hns => ?_
            exact mirrors_then (mirrors_pushAll (hρ₁ _ _ ho) hp hns) hc
      | _, _, .none hc => exact .pure hc
  | .elements _, _, _, _, hp, _, _ | .objectDefault .., _, _, _, hp, _, _
  | .within .., _, _, _, hp, _, _ | .withinAll .., _, _, _, hp, _, _
  | .ownModifiers, _, _, _, hp, _, _ | .propertyModifiers, _, _, _, hp, _, _
  | .impliedAccessors _, _, _, _, hp, _, _ | .typeMembers _, _, _, _, hp, _, _
  | .declarators .., _, _, _, hp, _, _ | .commentsAfter, _, _, _, hp, _, _ => by cases hp

theorem mirrors_readParts (hrecur : RecurMirrors source source' recur recur')
    (hraw : raw.Alike raw') : ∀ (ps : List (Part δ)) {ρ : Pairing} {c c' : Cursor δ},
    Part.arePlain ps = true → ρ owner owner' → c.Alike c' →
    MirrorsCursor source source' ρ (readParts g recur owner raw c ps)
      (readParts g recur' owner' raw' c' ps)
  | [], ρ, c, c', _, _, hc => by
      rw [readParts, readParts]
      exact .pure hc
  | p :: ps, ρ, c, c', hps, ho, hc => by
      rw [Part.arePlain, Bool.and_eq_true] at hps
      rw [readParts, readParts]
      refine (mirrors_readPart hrecur hraw p hps.1 ho hc).bind fun ρ₁ hρ₁ c₁ c₁' hc₁ => ?_
      exact mirrors_readParts hrecur hraw ps hps.2 (hρ₁ _ _ ho) hc₁

end

end Parts

end Lowering

end DualSyntax
