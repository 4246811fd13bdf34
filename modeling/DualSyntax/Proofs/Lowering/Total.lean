import DualSyntax.CSharp.Shapes
import DualSyntax.Parsing
import DualSyntax.Proofs.Lexing.Lossless
import DualSyntax.Proofs.Lexing.Meaning
import DualSyntax.Proofs.Lowering.Agreement
import DualSyntax.Proofs.Packrat.Conforming
import DualSyntax.VisualBasic.Shapes

/-!
# Lowering is total up to two refusals

Every match of a grammar becomes a node but for one form of each language, which lowering refuses by
name; hence whatever text is parsed becomes a tree, or is refused.
-/

/-!
## Lowering C#

Every match of the C# grammar becomes a node, but for an array creation with an initializer after a
type that is not spelled as an array of one dimension.
-/

namespace DualSyntax.CSharp

open Forest Lower Lowering

/-- Definitions whose matches become nodes.  Matches of the others are opened where they stand. -/
def lowered : Form → Bool
  | .argumentList | .variableInitializerList | .arrayDimensions | .trailingRankSpecifier
  | .rankSpecifier | .postfixSuffix | .relationalTail | .variableDeclaratorList
  | .statementExpressionList | .modifiers | .parameterList | .enumMemberList
  | .baseTypeList => false
  | _ => true

/-- Definitions whose matches hold no expressions. -/
def harmless : Form → Bool
  | .type | .identifier | .primitiveType | .typeName | .nonArrayType | .rankSpecifier
  | .trailingRankSpecifier | .modifiers => true
  | _ => false

def isVectorRank : RawTree Form → Bool
  | .node (some .rankSpecifier) i j cs => rankOf grammar (.node (some .rankSpecifier) i j cs) == 1
  | _ => false

def spellsVector (type : RawTree Form) : Bool := type.children.getLast?.any isVectorRank

/-- Whether a match is an array creation with an initializer after a type that is not an array of
one dimension. -/
def isRefused : RawTree Form → Bool
  | .node (some .arrayCreationInitialized) _ _ cs =>
    !cs.any fun t => t.isForm .type && spellsVector t
  | _ => false

def showsType : RawTree Form → Forest → Forest → NodeId → Prop
  | .node (some .type) i j cs, f, f', n =>
    Setting.ShowsRank (spellsVector (.node (some .type) i j cs) = true) f f' n
  | .node (some .nonArrayType) .., _, f', n | .node (some .primitiveType) .., _, f', n
  | .node (some .typeName) .., _, f', n => (f'.kind n == .arrayType 1) = false
  | _, _, _, _ => True

/-! ### Shapes that depend on the tokens -/

section Checks

variable (check : Shape Form → Bool) (tokens : List TokenKind)

theorem forwardOr_check {s : Shape Form} (hforward : check .forward = true) (hs : check s = true) :
    check (s.forwardOr tokens) = true := by
  unfold Shape.forwardOr
  split
  · exact hforward
  · exact hs

theorem signShape_check
    (hsign : ∀ op, check (.build (.unaryOperatorExpression op)
      [.keepAny .operatorToken, .node .expression]) = true)
    (hrefused : ∀ what, check (.refused what) = true) : check (signShape tokens) = true := by
  unfold signShape
  split
  · exact hsign _
  · exact hrefused _

theorem assignmentShape_check
    (hassignment : ∀ op, check (.join (.assignmentExpression op) [([], .left)]
      [.keepAny .operatorToken, .node .value]) = true)
    (hrefused : ∀ what, check (.refused what) = true) : check (assignmentShape tokens) = true := by
  unfold assignmentShape
  split
  · exact hassignment _
  · exact hrefused _

end Checks

def survey : Survey Form where
  grammar := grammar
  lowered := lowered
  refusable d := d == .arrayCreationInitialized
  harmless := harmless
  modifiers := modifierWords
  literals := literalTokens
  shows := showsType

/-- Definitions whose shape depends on the tokens of the match in more than the kind of the node. -/
def varies : Form → Bool
  | .argument | .prefixUnaryExpression | .conditionalExpression | .assignmentExpression => true
  | _ => false

/-! ### The check of all definitions -/

theorem fits_shape {d : Form} (hd : varies d = false) (r : Rule Form) (tokens : List TokenKind) :
    survey.fits d r (shape d tokens) = survey.fits d r (shape d []) := by
  cases d <;> first | rfl | cases hd

/-- Every definition whose matches become nodes fits its shape. -/
theorem agrees {d : Form} (hlowered : lowered d = true) (hd : survey.refusable d = false) :
    survey.Agrees d := by
  have hall : Form.all.all (fun d => !lowered d || survey.refusable d ||
      if varies d then survey.fitsWords d (rule d) else survey.fits d (rule d) (shape d [])) =
        true := by
    decide
  have hfits := List.all_eq_true.mp hall d (Form.mem_all d)
  rw [hlowered, hd, Bool.not_true, Bool.false_or, Bool.false_or] at hfits
  intro r hr
  cases hr
  cases hvaries : varies d with
  | true =>
      rw [hvaries, if_pos rfl] at hfits
      exact .inl hfits
  | false =>
      rw [hvaries, if_neg Bool.false_ne_true] at hfits
      exact .inr fun tokens => (fits_shape hvaries (rule d) tokens).trans hfits

theorem checked : Checked survey isRefused where
  productive := by
    have hall : Form.all.all (fun d => ((rule d).erase grammar.terminators).productive) = true := by
      decide
    intro d r hr
    cases hr
    exact List.all_eq_true.mp hall d (Form.mem_all d)
  refused := by
    intro d i j cs hd
    cases d <;> first | rfl | cases hd
  spares := by
    have hall : Form.all.all survey.sparesAll = true := by decide
    exact fun d => List.all_eq_true.mp hall d (Form.mem_all d)
  trivia := by
    intro d i j cs hd f f' n
    cases d <;> first | exact trivial | cases hd

/-! ### Types -/

variable {source : Source} {e : LowerError} {ready clean : RawTree Form → Prop}
  {recur : Recur Form} {draft : Draft} {d : Form} {i j : Nat} {cs : List (RawTree Form)}

theorem spells_of_opened (hready : Opened grammar ready (.node (some d) i j cs)) :
    Rule.Spells [rule d] (cs.map RawTree.symbol) := by
  cases hready.conforms with
  | node hrule hspells _ =>
      cases hrule
      exact hspells

theorem rest_cursor : (cursor grammar (.node (some d) i j cs)).rest = cs := by
  have hkeep : ∀ c : RawTree Form,
      (!(c.token?.any fun t => grammar.terminators.contains t.kind)) = true := by
    intro c
    cases c <;> rfl
  simp only [cursor, RawTree.children, List.filter_eq_self]
  exact fun c _ => hkeep c

theorem parts_of_type (hs : Setting survey source e ready clean recur) {first : RawTree Form}
    {rest : List (RawTree Form)}
    (hready : Opened grammar ready (.node (some .type) i j (first :: rest))) :
    first.symbol.isForm .nonArrayType = true ∧
      ∀ t ∈ rest, (t.symbol.isToken || t.symbol.isForm .rankSpecifier) = true := by
  have hopening : (survey.opening .type).Foresees
      (cursor grammar (.node (some .type) i j (first :: rest))).rest := hs.opening hready
  rw [rest_cursor] at hopening
  obtain ⟨t, ts, hcs, ht⟩ := hopening.of_must (p := (·.isForm .nonArrayType)) (by decide)
  cases hcs
  refine ⟨ht, (hopening.past ht).every (p := fun a => a.isToken || a.isForm .rankSpecifier) ?_⟩
  decide

/-- The node of a type is an array of one dimension exactly if the type is spelled as one. -/
theorem does_type (hs : Setting survey source e ready clean recur)
    (hready : Opened grammar ready (.node (some .type) i j cs)) :
    Does source e (clean (.node (some .type) i j cs))
      (shaped grammar recur (.node (some .type) i j cs) .rankedType) draft fun n draft' =>
        Fresh draft.forest draft'.forest n ∧
          showsType (.node (some .type) i j cs) draft.forest draft'.forest n := by
  obtain ⟨first, rest, hrest, -, hdoes⟩ :=
    hs.does_rankedType hready rfl (hs.opening hready) (by decide) draft
  obtain rfl : cs = first :: rest := rest_cursor.symm.trans hrest
  obtain ⟨hfirst, hranks⟩ := parts_of_type hs hready
  obtain ⟨i', j', cs', rfl⟩ := exists_of_isForm hfirst
  refine hdoes.imp fun n draft' hmade => ⟨hmade.1, ?_⟩
  obtain ⟨-, hnone, hlast⟩ := hmade
  have hspells : spellsVector (.node (some .type) i j
      (.node (some .nonArrayType) i' j' cs' :: rest)) = rest.getLast?.any isVectorRank := by
    rw [spellsVector, RawTree.children, List.getLast?_cons]
    cases rest.getLast? <;> rfl
  rw [showsType, hspells]
  cases hrank : rest.getLast? with
  | none =>
      refine ⟨fun h => (Bool.false_ne_true h).elim, fun _ => ?_⟩
      exact hnone (List.getLast?_eq_none_iff.mp hrank)
  | some last =>
      have houtermost := hlast last hrank
      cases last with
      | leaf tk =>
          have hkind : draft'.forest.kind n = .pointerType := houtermost
          refine ⟨fun h => (Bool.false_ne_true h).elim, fun _ => ?_⟩
          rw [hkind]
          rfl
      | node form i'' j'' cs'' =>
          have hform : (RawTree.node form i'' j'' cs'').symbol.isForm .rankSpecifier = true :=
            hranks _ (List.mem_of_getLast? hrank)
          obtain ⟨i₁, j₁, cs₁, heq⟩ := exists_of_isForm hform
          cases heq
          obtain ⟨hkind, helement⟩ := houtermost
          refine ⟨fun h => ⟨?_, helement⟩, fun h => ?_⟩
          · rw [hkind]
            exact congrArg _ (eq_of_beq h)
          · rw [hkind]
            exact Bool.eq_false_iff.mpr h

/-- The node of a type without ranks is no array. -/
theorem does_plainType (hs : Setting survey source e ready clean recur)
    (hready : Opened grammar ready (.node (some d) i j cs))
    (hd : d = .nonArrayType ∨ d = .primitiveType ∨ d = .typeName) (tokens : List TokenKind) :
    Does source e (clean (.node (some d) i j cs))
      (shaped grammar recur (.node (some d) i j cs) (shape d tokens)) draft fun n draft' =>
        Fresh draft.forest draft'.forest n ∧ (draft'.forest.kind n == .arrayType 1) = false := by
  have hspells := spells_of_opened hready
  rcases hd with rfl | rfl | rfl
  · have hform : (rule .nonArrayType).every
        (·.isFormOf fun d => d == .primitiveType || d == .typeName) = true := by decide
    obtain ⟨c, rfl, hc⟩ := Setting.exists_single (by decide) hform hspells
    obtain ⟨d, i', j', cs', rfl, hd⟩ := exists_of_isFormOf hc
    rcases Bool.or_eq_true _ _ ▸ hd with h | h <;>
      cases eq_of_beq h <;>
      exact hs.does_forward hready rfl rfl
  · refine (hs.does_knownType rfl (by decide) hspells).imp fun n draft' hmade => ?_
    obtain ⟨hn, k, hk⟩ := hmade
    rw [hk]
    exact ⟨hn, rfl⟩
  · refine (hs.does_qualifiedType (by decide) hready).imp fun n draft' hmade => ?_
    obtain ⟨hn, hk | hk⟩ := hmade
    · rw [hk]
      exact ⟨hn, rfl⟩
    · rw [hk]
      exact ⟨hn, rfl⟩

/-! ### Array creations -/

theorem parts_of_arrayCreation
    (hready : Opened grammar ready (.node (some .arrayCreationInitialized) i j cs)) :
    ∃ kw type init, cs = [.leaf kw, type, init] ∧ type.symbol = .node (some .type) ∧
      init.symbol = .node (some .arrayInitializer) := by
  have hword := (spells_of_opened hready).mem_words (by decide)
  have hwords : Rule.wordsAll [rule .arrayCreationInitialized] =
      [[.token .kwNew, .node (some .type), .node (some .arrayInitializer)]] := by decide
  rw [hwords, List.mem_singleton] at hword
  obtain ⟨t, ts, rfl, ht, hword⟩ := List.map_eq_cons_iff.mp hword
  obtain ⟨type, ts, rfl, htype, hword⟩ := List.map_eq_cons_iff.mp hword
  obtain ⟨init, rfl, hinit⟩ := List.map_eq_singleton_iff.mp hword
  obtain ⟨kw, rfl⟩ := exists_leaf (t := t) (by rw [ht]; rfl)
  exact ⟨kw, type, init, rfl, htype, hinit⟩

/-- An array creation with an initializer is refused unless its type is an array of one
dimension. -/
theorem makes_arrayCreation
    (hs : Setting survey source e ready (Clean isRefused) recur)
    (hready : Opened grammar ready (.node (some .arrayCreationInitialized) i j cs))
    (he : e = .unexpectedShape "ArrayCreationInitialized" "array type of rank 1") :
    Makes source e (Clean isRefused (.node (some .arrayCreationInitialized) i j cs))
      (shaped grammar recur (.node (some .arrayCreationInitialized) i j cs) .listedArray) draft := by
  refine hs.makes_listedArray hready (hs.opening hready) (· == .type) (by decide)
    (fun t => spellsVector t = true) ?_ ?_ ?_ he
  · intro d hd
    cases eq_of_beq hd
    rfl
  · intro t f f' n ht hshows
    obtain ⟨d, i', j', cs', rfl, hd⟩ := exists_of_isFormOf ht
    cases eq_of_beq hd
    exact hshows
  · intro t ht htype
    obtain ⟨kw, type, init, rfl, htype', hinit⟩ := parts_of_arrayCreation hready
    have hinit' : init.isForm .type = false := by rw [Cursor.isForm_eq, hinit]; rfl
    have hform : type.isForm .type = true := by rw [Cursor.isForm_eq, htype']; rfl
    obtain rfl : t = type := by
      rcases List.mem_cons.mp ht with rfl | ht
      · cases htype
      rcases List.mem_cons.mp ht with rfl | ht
      · rfl
      · cases List.mem_singleton.mp ht
        rw [hinit] at htype
        cases htype
    have hkw : (RawTree.leaf kw : RawTree Form).isForm .type = false := rfl
    have hany : [RawTree.leaf kw, t, init].any (fun t => t.isForm .type && spellsVector t) =
        spellsVector t := by
      rw [List.any_cons, List.any_cons, List.any_cons, hkw, hform, hinit']
      simp
    rw [clean_node_iff, isRefused, hany, Bool.not_eq_false']

/-! ### All matches -/

/-- A match becomes a node unless it holds a refused one. -/
theorem does_shaped (hs : Setting survey source e ready (Clean isRefused) recur)
    (he : e = .unexpectedShape "ArrayCreationInitialized" "array type of rank 1")
    (hd : lowered d = true) (hready : Opened grammar ready (.node (some d) i j cs)) (draft : Draft) :
    Does source e (Clean isRefused (.node (some d) i j cs))
      (shaped grammar recur (.node (some d) i j cs)
        (shape d ((RawTree.node (some d) i j cs).childTokens.map (·.kind)))) draft
      fun n draft' => Fresh draft.forest draft'.forest n ∧
        showsType (.node (some d) i j cs) draft.forest draft'.forest n := by
  -- the node of any other definition shows nothing
  have hmade : survey.refusable d = false → Makes source e _ _ draft :=
    fun hrefusable => hs.makes_agreed hready hrefusable (agrees hd hrefusable)
  cases d
  case type => exact does_type hs hready
  case nonArrayType => exact does_plainType hs hready (by simp) _
  case primitiveType => exact does_plainType hs hready (by simp) _
  case typeName => exact does_plainType hs hready (by simp) _
  case arrayCreationInitialized =>
    exact (makes_arrayCreation hs hready he).imp fun _ _ hn => ⟨hn, trivial⟩
  all_goals exact (hmade rfl).imp fun _ _ hn => ⟨hn, trivial⟩

end DualSyntax.CSharp

/-!
## Lowering VB

Every match of the VB grammar becomes a node, but for a `Do` block with a condition at both ends.
-/

namespace DualSyntax.VisualBasic

open Forest Lower Lowering

/-- Definitions whose matches become nodes.  Matches of the others are opened where they stand. -/
def lowered : Form → Bool
  | .argumentList | .variableInitializerList | .arrayDimensions | .trailingRankSpecifier
  | .rankSpecifier | .postfixSuffix | .variableDeclaratorList | .modifiers | .parameterList
  | .typeList | .arrayNameSuffix | .asClause | .asNewClause | .variableDeclarator | .elseIfPart
  | .elsePart | .loopVariableType | .finallyPart | .caseValueList | .returnType | .parameterRank
  | .parameterClause | .methodBody | .emptyParameterClause | .inheritsOrImplements => false
  | _ => true

/-- Definitions whose matches hold no statements. -/
def harmless : Form → Bool
  | .statement | .statements | .ifBlock | .singleLineIf | .elseIfPart | .elsePart | .whileBlock
  | .doLoopBlock | .forEachBlock | .forNextBlock | .catchPart | .finallyPart | .tryBlock
  | .caseBlock | .selectBlock | .usingBlock | .syncLockBlock | .methodBody | .methodDeclaration
  | .constructorDeclaration | .accessorBlock | .propertyDeclaration | .typeDeclaration
  | .typeMember | .namespaceDeclaration | .namespaceMember | .compilationUnit => false
  | _ => true

/-- Whether a match is a `Do` block with a condition at both ends. -/
def isRefused : RawTree Form → Bool
  | .node (some .doLoopBlock) i j cs => 1 < loopConditions (.node (some .doLoopBlock) i j cs)
  | _ => false

def survey : Survey Form where
  grammar := grammar
  lowered := lowered
  refusable d := d == .doLoopBlock
  harmless := harmless
  modifiers := modifierWords
  literals := literalTokens
  shows _ _ _ _ := True

/-- Definitions whose shape depends on the tokens of the match in more than the kind of the node. -/
def varies : Form → Bool
  | .ifOperator | .negation | .logicalNot | .caseComparisonClause => true
  | _ => false

theorem fits_shape {d : Form} (hd : varies d = false) (r : Rule Form) (tokens : List TokenKind) :
    survey.fits d r (shape d tokens) = survey.fits d r (shape d []) := by
  cases d <;> first | rfl | cases hd

/-- Every definition whose matches become nodes fits its shape. -/
theorem agrees {d : Form} (hlowered : lowered d = true) (hd : survey.refusable d = false) :
    survey.Agrees d := by
  have hall : Form.all.all (fun d => !lowered d || survey.refusable d ||
      if varies d then survey.fitsWords d (rule d) else survey.fits d (rule d) (shape d [])) =
        true := by
    decide
  have hfits := List.all_eq_true.mp hall d (Form.mem_all d)
  rw [hlowered, hd, Bool.not_true, Bool.false_or, Bool.false_or] at hfits
  intro r hr
  cases hr
  cases hvaries : varies d with
  | true =>
      rw [hvaries, if_pos rfl] at hfits
      exact .inl hfits
  | false =>
      rw [hvaries, if_neg Bool.false_ne_true] at hfits
      exact .inr fun tokens => (fits_shape hvaries (rule d) tokens).trans hfits

theorem checked : Checked survey isRefused where
  productive := by
    have hall : Form.all.all (fun d => ((rule d).erase grammar.terminators).productive) = true := by
      decide
    intro d r hr
    cases hr
    exact List.all_eq_true.mp hall d (Form.mem_all d)
  refused := by
    intro d i j cs hd
    cases d <;> first | rfl | cases hd
  spares := by
    have hall : Form.all.all survey.sparesAll = true := by decide
    exact fun d => List.all_eq_true.mp hall d (Form.mem_all d)
  trivia := fun _ _ _ _ => trivial

variable {source : Source} {e : LowerError} {ready : RawTree Form → Prop} {recur : Recur Form}
  {d : Form} {i j : Nat} {cs : List (RawTree Form)}

/-- A match becomes a node unless it holds a refused one. -/
theorem does_shaped (hs : Setting survey source e ready (Clean isRefused) recur)
    (he : e = .unexpectedShape "DoLoopBlock" "a single loop condition")
    (hd : lowered d = true) (hready : Opened grammar ready (.node (some d) i j cs)) (draft : Draft) :
    Does source e (Clean isRefused (.node (some d) i j cs))
      (shaped grammar recur (.node (some d) i j cs)
        (shape d ((RawTree.node (some d) i j cs).childTokens.map (·.kind)))) draft
      fun n draft' => Fresh draft.forest draft'.forest n ∧ True := by
  suffices hmade : Makes source e (Clean isRefused (.node (some d) i j cs))
      (shaped grammar recur (.node (some d) i j cs)
        (shape d ((RawTree.node (some d) i j cs).childTokens.map (·.kind)))) draft from
    hmade.imp fun _ _ hn => ⟨hn, trivial⟩
  by_cases hdo : d = .doLoopBlock
  · subst hdo
    refine hs.makes_doLoop hready (hs.opening hready) (by decide) (by decide) ?_ he
    rw [clean_node_iff, isRefused, decide_eq_false_iff_not, Nat.not_lt]
  · have hrefusable : survey.refusable d = false := beq_eq_false_iff_ne.mpr hdo
    exact hs.makes_agreed hready hrefusable (agrees hd hrefusable)

end DualSyntax.VisualBasic

/-!
## Lowering is total up to two refusals

Whatever text is matched, its raw tree becomes a tree of nodes unless it holds a match that its
language refuses, and then lowering says so.
-/

namespace DualSyntax

open Lower Lowering

namespace Language

/-- Whether lowering refuses a match: in C# an array creation with an initializer after a type that is
not an array of one dimension, in VB a `Do` block with a condition at both ends. -/
def refuses : (l : Language) → RawTree l.Form → Bool
  | csharp => CSharp.isRefused
  | visualBasic => VisualBasic.isRefused

def refusal : Language → LowerError
  | csharp => .unexpectedShape "ArrayCreationInitialized" "array type of rank 1"
  | visualBasic => .unexpectedShape "DoLoopBlock" "a single loop condition"

def survey : (l : Language) → Survey l.Form
  | csharp => CSharp.survey
  | visualBasic => VisualBasic.survey

theorem grammar_survey (l : Language) : l.survey.grammar = l.grammar := by
  cases l <;> rfl

/-- Matches of any height become nodes, unless they hold a match that the language refuses. -/
theorem setting (l : Language) (source : Source) (fuel : Nat) :
    Setting l.survey source l.refusal (Ready l.survey source fuel) (Clean l.refuses)
      (lowerUpTo l.survey.grammar fuel) := by
  cases l with
  | csharp => exact setting_lowerUpTo CSharp.checked (fun _ hs => CSharp.does_shaped hs rfl) fuel
  | visualBasic =>
      exact setting_lowerUpTo VisualBasic.checked (fun _ hs => VisualBasic.does_shaped hs rfl) fuel

end Language

/-- The tree that parsing gives is a match, which may be lowered, and the end marker. -/
theorem ready_of_parsed {δ : Type} [DecidableEq δ] {s : Survey δ} {source : Source} {root : δ}
    {tree : RawTree δ} (hparse : Packrat.parse s.grammar root source.stream = .parsed tree)
    (hmodifier : ∀ tk ∈ tree.tokens, s.modifiers.contains tk.kind = true →
      (source.language.modifier? tk.text).isSome = true)
    (hliteral : ∀ tk ∈ tree.tokens, s.literals.contains tk.kind = true →
      (literalValue? tk).isSome = true) :
    ∃ (inner : RawTree δ) (last : List Token),
      tree = .node none 0 source.stream.size (inner :: last.map .leaf) ∧
      inner.symbol = .node (some root) ∧
      Ready s source (RawTree.heightOf (inner :: last.map .leaf)) inner ∧ inner.tokens ⊆ tree.tokens := by
  obtain ⟨inner, rfl, hinner, hconforms⟩ := Packrat.parse_conforms hparse
  have htokens := RawTree.tokens_subset_tokensOf (List.mem_cons_self (a := inner)
    (l := (source.stream.get? (source.stream.size - 1)).toList.map RawTree.leaf))
  exact ⟨inner, _, rfl, hinner, ⟨hconforms, RawTree.height_le_heightOf List.mem_cons_self,
    fun tk htk => hmodifier tk (htokens htk), fun tk htk => hliteral tk (htokens htk)⟩, htokens⟩

/-- The tree that parsing gives becomes a node exactly if it holds no refused match. -/
theorem does_lower_parsed {δ : Type} [DecidableEq δ] {s : Survey δ} {source : Source}
    {e : LowerError} {refused : RawTree δ → Bool}
    (hs : ∀ fuel, Setting s source e (Ready s source fuel) (Clean refused)
      (lowerUpTo s.grammar fuel))
    {root : δ} {tree : RawTree δ} (hparse : Packrat.parse s.grammar root source.stream = .parsed tree)
    (hroot : s.lowered root = true) (hrefused : ∀ i j cs, refused (.node none i j cs) = false)
    (hmodifier : ∀ tk ∈ tree.tokens, s.modifiers.contains tk.kind = true →
      (source.language.modifier? tk.text).isSome = true)
    (hliteral : ∀ tk ∈ tree.tokens, s.literals.contains tk.kind = true →
      (literalValue? tk).isSome = true) :
    Does source e (Clean refused tree) (lowerUpTo s.grammar tree.height tree) {}
      fun _ _ => True := by
  obtain ⟨inner, last, rfl, hinner, hready, -⟩ := ready_of_parsed hparse hmodifier hliteral
  have hclean : Clean refused inner ↔
      Clean refused (.node none 0 source.stream.size (inner :: last.map .leaf)) := by
    have hleaves : ∀ u ∈ RawTree.nodesOf (last.map (RawTree.leaf (δ := δ))), False := by
      intro u hu
      obtain ⟨c, hc, hu⟩ := RawTree.mem_nodesOf.mp hu
      obtain ⟨tk, -, rfl⟩ := List.mem_map.mp hc
      cases hu
    simp only [Clean, RawTree.nodes, RawTree.nodesOf, List.mem_cons, List.mem_append,
      forall_eq_or_imp, hrefused, true_and]
    exact ⟨fun h u hu => hu.elim (h u) fun hu => (hleaves u hu).elim, fun h u hu => h u (.inl hu)⟩
  exact (does_wholeText (hs _) hready hinner hroot).iff hclean

theorem exists_of_parseRaw {l : Language} {fragment : Fragment} {src : List Char} {source : Source}
    {raw : RawTree l.Form} (h : parseRaw l fragment src = .ok (source, raw)) :
    tokenize l src = .ok source.stream ∧ source.language = l ∧
      Packrat.parse l.grammar (l.root fragment) source.stream = .parsed raw := by
  unfold parseRaw Source.ofText at h
  cases hstream : tokenize l src with
  | error fault => simp [hstream, bind, Except.bind] at h
  | ok stream =>
      simp only [hstream, bind, Except.bind, Source.matchBy] at h
      cases hparse : Packrat.parse l.grammar (l.root fragment) stream with
      | failed failure => simp [hparse] at h
      | exhausted => simp [hparse] at h
      | parsed tree =>
          simp only [hparse, pure, Except.pure, Except.ok.injEq, Prod.mk.injEq] at h
          obtain ⟨rfl, rfl⟩ := h
          exact ⟨rfl, rfl, hparse⟩

/-- What a successful parse went through. -/
theorem exists_of_parse {l : Language} {fragment : Fragment} {src : List Char} {p : Parsed}
    (h : parse l fragment src = .ok p) :
    ∃ source raw draft, parseRaw l fragment src = .ok (source, raw) ∧
      raw.lower l.grammar source = .ok (p.root, draft) ∧ p.forest = draft.forest ∧
      p.diagnostics = draft.diagnostics.toList ∧
      draft.diagnostics.toList.any Diagnostic.isError = false := by
  unfold parse at h
  cases hraw : parseRaw l fragment src with
  | error e =>
      rw [hraw] at h
      cases h
  | ok pair =>
      obtain ⟨source, raw⟩ := pair
      rw [hraw] at h
      dsimp only [bind, Except.bind] at h
      cases hlower : raw.lower l.grammar source with
      | error e =>
          rw [hlower] at h
          cases h
      | ok made =>
          obtain ⟨root, draft⟩ := made
          rw [hlower] at h
          dsimp only at h
          split at h
          · cases h
          · next herror =>
              cases h
              exact ⟨source, raw, draft, rfl, hlower, rfl, rfl, by simpa using herror⟩

theorem literalValue_isSome {l : Language} {t : Token} (ht : t.Meant l) {literals : List TokenKind}
    (hliterals : literals.all (fun k => valueKinds.contains k || k == .kwNull || k == .kwNothing) =
      true) (hkind : literals.contains t.kind = true) : (literalValue? t).isSome = true := by
  have hk := List.all_eq_true.mp hliterals t.kind (List.contains_iff_mem.mp hkind)
  rw [Bool.or_eq_true, Bool.or_eq_true, beq_iff_eq, beq_iff_eq] at hk
  unfold literalValue?
  split
  · rfl
  · rfl
  case h_3 hnull hnothing =>
    rcases hk with (hvalue | hk) | hk
    · exact ht.value hvalue
    · exact (hnull hk).elim
    · exact (hnothing hk).elim

/-- In a parsed text, every word for a modifier spells one, and every literal has a value. -/
theorem meant_of_parseRaw {l : Language} {fragment : Fragment} {src : List Char} {source : Source}
    {raw : RawTree l.Form} (h : parseRaw l fragment src = .ok (source, raw)) :
    ∀ tk ∈ raw.tokens,
      (l.survey.modifiers.contains tk.kind = true → (source.language.modifier? tk.text).isSome = true) ∧
        (l.survey.literals.contains tk.kind = true → (literalValue? tk).isSome = true) := by
  obtain ⟨hstream, hlanguage, hparse⟩ := exists_of_parseRaw h
  obtain ⟨init, last, -, hlast, -⟩ := tokenize_spec hstream
  rw [Packrat.parse_tokens hlast hparse, hlanguage]
  intro tk htk
  have hmeant := tokenize_meant hstream tk htk
  constructor
  · intro hkind
    refine hmeant.modifier ?_
    cases l <;> exact hkind
  · refine literalValue_isSome hmeant ?_
    cases l <;> decide

/-- The matches in a parsed text may be lowered. -/
theorem ready_of_parseRaw {l : Language} {fragment : Fragment} {src : List Char} {source : Source}
    {raw t : RawTree l.Form} {d : l.Form} {fuel : Nat}
    (h : parseRaw l fragment src = .ok (source, raw)) (ht : t ∈ raw.nodes)
    (hsymbol : t.symbol = .node (some d)) (hfuel : t.height ≤ fuel) : Ready l.survey source fuel t := by
  obtain ⟨-, -, hparse⟩ := exists_of_parseRaw h
  have hmeant := meant_of_parseRaw h
  obtain ⟨inner, rfl, -, hconforms⟩ := Packrat.parse_conforms hparse
  rw [RawTree.nodes, List.mem_cons, RawTree.mem_nodesOf] at ht
  rcases ht with rfl | ⟨c, hc, ht⟩
  · cases hsymbol
  · rcases List.mem_cons.mp hc with rfl | hleaf
    · obtain ⟨hthis, hsub⟩ := conforms_of_mem_nodes hconforms ht
      have hall := List.Subset.trans hsub (RawTree.tokens_subset_tokensOf hc)
      rw [← l.grammar_survey] at hthis
      exact ⟨hthis, hfuel, fun tk htk => (hmeant tk (hall htk)).1, fun tk htk => (hmeant tk (hall htk)).2⟩
    · obtain ⟨tk, -, rfl⟩ := List.mem_map.mp hleaf
      cases ht

/-- The tree of a text becomes a node exactly if it holds no match that the language refuses. -/
theorem does_lower {l : Language} {fragment : Fragment} {src : List Char} {source : Source}
    {raw : RawTree l.Form} (h : parseRaw l fragment src = .ok (source, raw)) :
    Does source l.refusal (Clean l.refuses raw) (lowerUpTo l.grammar raw.height raw) {}
      fun _ _ => True := by
  obtain ⟨-, -, hparse⟩ := exists_of_parseRaw h
  have hmeant := meant_of_parseRaw h
  cases l with
  | csharp =>
      exact does_lower_parsed (Language.csharp.setting source) hparse (by cases fragment <;> rfl)
        (fun _ _ _ => rfl) (fun tk htk => (hmeant tk htk).1) fun tk htk => (hmeant tk htk).2
  | visualBasic =>
      exact does_lower_parsed (Language.visualBasic.setting source) hparse
        (by cases fragment <;> rfl) (fun _ _ _ => rfl) (fun tk htk => (hmeant tk htk).1)
        fun tk htk => (hmeant tk htk).2

/-- Grammar and lowering agree: the tree of any text becomes a tree of nodes, unless it holds a match
that its language refuses; then lowering fails with the error that says so. -/
theorem lower_total_or_refused {l : Language} {fragment : Fragment} {src : List Char}
    {source : Source} {raw : RawTree l.Form} (h : parseRaw l fragment src = .ok (source, raw)) :
    if raw.nodes.any l.refuses then raw.lower l.grammar source = .error l.refusal
    else ∃ root draft, raw.lower l.grammar source = .ok (root, draft) := by
  obtain ⟨hsucceeds, hfails⟩ := does_lower h
  have hclean : Clean l.refuses raw ↔ ¬ raw.nodes.any l.refuses = true := by
    simp [Clean]
  split
  case isTrue hany => exact hfails fun hc => hclean.mp hc hany
  case isFalse hnone =>
    obtain ⟨root, draft, hok, -⟩ := hsucceeds (hclean.mpr hnone)
    exact ⟨root, draft, hok⟩

/-- A text that is found to be parsed has a source and a tree. -/
theorem exists_parseRaw {l : Language} {fragment : Fragment} {src : List Char}
    {p : Source × RawTree l.Form → Bool} (h : (parseRaw l fragment src).toOption.any p = true) :
    ∃ source raw, parseRaw l fragment src = .ok (source, raw) ∧ p (source, raw) = true := by
  cases hraw : parseRaw l fragment src with
  | error e =>
      rw [hraw] at h
      cases h
  | ok pair =>
      rw [hraw] at h
      exact ⟨pair.1, pair.2, rfl, h⟩

/-- A text that is found to be parsed has a forest. -/
theorem exists_parse {l : Language} {fragment : Fragment} {src : List Char} {p : Parsed → Bool}
    (h : (parse l fragment src).toOption.any p = true) :
    ∃ parsed, parse l fragment src = .ok parsed ∧ p parsed = true := by
  cases hparse : parse l fragment src with
  | error e =>
      rw [hparse] at h
      cases h
  | ok parsed =>
      rw [hparse] at h
      exact ⟨parsed, rfl, h⟩

/-- A creation with a rank of two dimensions and one of an array of arrays, and a loop with two
conditions. -/
theorem lower_total_or_refused_arrays_loops :
    (∃ source raw, parseRaw .csharp .expression "new int[,] \x7b 1 \x7d".toList = .ok (source, raw) ∧
      raw.lower Language.csharp.grammar source =
        .error (.unexpectedShape "ArrayCreationInitialized" "array type of rank 1")) ∧
    (∃ source raw root draft,
      parseRaw .csharp .expression "new int[][] \x7b \x7d".toList = .ok (source, raw) ∧
      raw.lower Language.csharp.grammar source = .ok (root, draft)) ∧
    ∃ source raw,
      parseRaw .visualBasic .statement "Do While 1\nLoop Until 1".toList = .ok (source, raw) ∧
      raw.lower Language.visualBasic.grammar source =
        .error (.unexpectedShape "DoLoopBlock" "a single loop condition") := by
  refine ⟨?_, ?_, ?_⟩
  · have hparsed : (parseRaw .csharp .expression "new int[,] \x7b 1 \x7d".toList).toOption.any
        (·.2.nodes.any Language.csharp.refuses) = true := by decide +kernel
    obtain ⟨source, raw, h, hany⟩ := exists_parseRaw hparsed
    have htotal := lower_total_or_refused h
    rw [if_pos hany] at htotal
    exact ⟨source, raw, h, htotal⟩
  · have hparsed : (parseRaw .csharp .expression "new int[][] \x7b \x7d".toList).toOption.any
        (!·.2.nodes.any Language.csharp.refuses) = true := by decide +kernel
    obtain ⟨source, raw, h, hnone⟩ := exists_parseRaw hparsed
    have htotal := lower_total_or_refused h
    rw [if_neg (by simpa using hnone)] at htotal
    obtain ⟨root, draft, hok⟩ := htotal
    exact ⟨source, raw, root, draft, h, hok⟩
  · have hparsed : (parseRaw .visualBasic .statement "Do While 1\nLoop Until 1".toList).toOption.any
        (·.2.nodes.any Language.visualBasic.refuses) = true := by decide +kernel
    obtain ⟨source, raw, h, hany⟩ := exists_parseRaw hparsed
    have htotal := lower_total_or_refused h
    rw [if_pos hany] at htotal
    exact ⟨source, raw, h, htotal⟩

end DualSyntax
