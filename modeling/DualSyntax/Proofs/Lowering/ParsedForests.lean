import DualSyntax.Proofs.Lexing.LiteralTexts
import DualSyntax.Proofs.Lowering.ParsedNamespaces
import DualSyntax.Proofs.Lowering.SuitedParts

/-!
# The forests of parsed texts

Every shape puts nodes where they suit, in both languages every definition does, and so the tree of whatever
text is parsed is built in order.
-/

/-!
## Shapes that put nodes where they suit

For every shape there is a condition on the rule of the match.  If it holds, the shape puts nodes only
where they suit and makes a node of a sort that the definition is known for.
-/

namespace DualSyntax.Lowering

open Forest Lower

variable {δ : Type}

namespace Sorting

variable (s : Sorting δ)

/-- Whether the matches of one definition become nodes of the sorts that those of another become. -/
def within (d f : δ) : Bool := s.yields f != [] && (s.yields f).all (s.yields d).contains

/-- Whether matches are an operator or a type test and a plain match. -/
def isTail (d : δ) : Bool :=
  (s.opening d).must (·.isToken) && ((s.opening d).past (·.isToken)).must (·.isFormOf s.isPlain)

/-- Whether something plain comes first and then only matches of some forms. -/
def isRow (p : δ → Bool) (o : Outlook δ) : Bool :=
  o.must (·.isFormOf s.isPlain) && (o.past (·.isFormOf s.isPlain)).every (·.isFormOf p)

/-- The outlook behind the condition of a loop, if one stands there. -/
def afterCondition (o : Outlook δ) : Option (Outlook δ) := do
  let inner ← (o.past (·.isAny Survey.conditionWords)).take (·.isFormOf s.isPlain)
  return inner ++ o.without (·.isAny Survey.conditionWords)

def operandsAfter : List (List TokenKind × Title) → Outlook δ → Option (Outlook δ)
  | [], o => some o
  | (tokens, t) :: rest, o =>
    if t.welcomes [.other] then do
      let o ← tokens.foldlM (fun o k => o.take (·.isAny [k])) o
      operandsAfter rest (← o.take (·.isFormOf s.isPlain))
    else none

variable [DecidableEq δ]

/-- Whether matches are suffixes that put plain nodes where they suit. -/
def isSuffix (d : δ) : Bool :=
  (s.opening d).all fun
    | some (.token k, _) => (Survey.suffixPlan? k).any fun (_, _, _, parts) =>
      (s.partsAfter d parts ((s.opening d).past (·.isAny [k]))).isSome
    | _ => false

/-- Whether a kind of node lacks nothing once parts have been read. -/
def furnishes (kind : NodeKind) (parts : List (Part δ)) : Bool :=
  kind.isPlain || kind.declaresVariables && parts.any Part.declares

/-- The outlook after the children of an array creation with sizes. -/
def afterSized (rank : δ) (o : Outlook δ) : Option (Outlook δ) := do
  let o ← o.take (·.isAny [.kwNew])
  let o ← o.take (·.isFormOf s.isPlain)
  let o ← o.take (·.isToken)
  let o ← o.take (·.isFormOf (s.fills .arguments))
  let o ← o.take (·.isToken)
  let o ← o.takeAll (·.isForm rank) (·.isForm rank)
  o.takeOnly (·.isNode) (·.isFormOf s.isPlain)

def afterIf (elseIf elsePart d : δ) (o : Outlook δ) : Option (Outlook δ) := do
  let _ ← s.partsAfter elseIf (Survey.branch .kwElseIf) (s.opening elseIf)
  let other ← (s.opening elsePart).take (·.isAny [.kwElse])
  let _ ← other.take (·.isFormOf (s.goes .falseStatement))
  let o ← s.partsAfter d (Survey.branch .kwIf) o
  let o ← o.takeAll (·.isForm elseIf) (·.isForm elseIf)
  s.partsAfter d [.keep .kwEnd .endKeyword] (o.takeMaybe (·.isForm elsePart))

def afterLoop (o : Outlook δ) : Option (Outlook δ) := do
  let o ← o.take (·.isAny [.kwDo])
  let o ← s.afterCondition o
  let o ← o.take (·.isFormOf (s.goes .embeddedStatement))
  let o ← o.take (·.isAny [.kwLoop])
  s.afterCondition o

def afterCase (o : Outlook δ) : Option (Outlook δ) := do
  let o ← o.take (·.isAny [.kwCase])
  let values ← (o.without (·.isAny [.kwElse])).take (·.isFormOf (s.lists s.isPlain))
  (o.past (·.isAny [.kwElse]) ++ values).take (·.isFormOf (s.fillsWhole .statements))

def afterAssignment (o : Outlook δ) : Option (Outlook δ) := do
  let o ← o.take (·.isFormOf s.isPlain)
  let o ← o.take (·.isToken)
  o.take (·.isFormOf s.isPlain)

def afterRanked (rank clause d : δ) (o : Outlook δ) : Option (Outlook δ) := do
  let o ← o.takeAll (·.isToken) (·.isToken)
  let o ← o.take (·.isFormOf s.isPlain)
  s.partsAfter d [.given .eq (some .assign) [.node .defaultExpression]]
    ((o.takeMaybe (·.isForm rank)).takeMaybe (·.isForm clause))

/-- Whether a shape puts the nodes of whatever a rule spells where they suit. -/
def suitsShape (d : δ) (r : Rule δ) : Shape δ → Bool
  | .forward => r.unit && r.every (·.isFormOf (s.within d))
  | .identifier => s.isPlain d && Survey.fitsToken (s.names.contains ·) r
  | .literal => s.isPlain d && Survey.fitsToken (s.literals.contains ·) r
  | .knownType => s.isPlain d
  | .build kind parts => (s.yields d).contains kind.sort && furnishes kind parts &&
    (s.partsAfter d parts (s.openingBy r)).isSome
  | .join kind operands parts => s.isPlain d && kind.isPlain && kind.sort == .other &&
    ((s.operandsAfter operands (s.openingBy r)).bind (s.partsAfter d parts)).isSome
  | .extend parts =>
    (((s.openingBy r).take (·.isFormOf (s.within d))).bind (s.partsAfter d parts)).isSome
  | .chain _ _ | .qualifiedType => s.isPlain d && s.lists s.isPlain d
  | .rankedType => s.isPlain d && (s.openingBy r).must (·.isFormOf s.isPlain)
  | .suffixed => s.isPlain d && s.isRow s.isSuffix (s.openingBy r)
  | .comparisons _ => s.isPlain d && s.isRow s.isTail (s.openingBy r)
  | .sizedArray rank _ => s.isPlain d && (s.afterSized rank (s.openingBy r)).isSome
  | .listedArray => s.isPlain d && (((s.openingBy r).take (·.isAny [.kwNew])).bind fun o =>
    (o.take (·.isFormOf s.isPlain)).bind (·.take (·.isFormOf s.isPlain))).isSome
  | .ifBlock elseIf elsePart =>
    s.isPlain d && (s.afterIf elseIf elsePart d (s.openingBy r)).isSome
  | .doLoop => s.isPlain d && (s.afterLoop (s.openingBy r)).isSome
  | .caseBlock => s.isPlain d && (s.afterCase (s.openingBy r)).isSome
  | .assignment _ => s.isPlain d && (s.afterAssignment (s.openingBy r)).isSome
  | .rankedParameter _ rank clause => s.isPlain d && s.plainly.spellsClause clause &&
    s.plainly.harmless clause && (s.afterRanked rank clause d (s.openingBy r)).isSome
  | .refused _ => true

/-- Whether each word of a rule suits the shape that its tokens select. -/
def suitsWords (d : δ) (r : Rule δ) : Bool :=
  r.finite && r.words.all fun w =>
    ((Rule.ofWord w).erase s.grammar.terminators).productive &&
      s.suitsShape d (.ofWord w) (s.grammar.shape d (w.filterMap Symbol.kind?))

end Sorting

variable {s : Sorting δ} {source : Source} {e : LowerError} {T clean : RawTree δ → Prop}
  {recur : Recur δ} {d : Draft} {n : NodeId} {t : RawTree δ} {f : δ} {i j : Nat}
  {cs : List (RawTree δ)} {c : Cursor δ} {o o' : Outlook δ} {kind : NodeKind} {sorts : List NodeSort}

/-! ### Plain nodes over plain nodes -/

theorem suits_over (kind : NodeKind) (hkind : kind.isPlain = true) (hn : d.forest.Sorts [.other] n)
    {t : Title} (ht : t.welcomes [.other] = true) (span : Span) :
    SuitsNode source d [kind.sort] (do
      let m ← Lower.allocate kind span
      Lower.set m t n
      return m) :=
  (suits_make kind hkind span).bind fun _ _ h₁ hm => (suits_set (hn.later h₁) ht).andThen
    fun _ _ h₂ => .pure (Forest.Sorts.later hm h₂)

theorem suits_between (kind : NodeKind) (hkind : kind.isPlain = true) {left right : NodeId}
    (hleft : d.forest.Sorts [.other] left) (hright : d.forest.Sorts [.other] right)
    {first kept last : Title} (hfirst : first.welcomes [.other] = true) (hkept : kept.isLexical = true)
    (hlast : last.welcomes [.other] = true) (tk : Token) (span : Span) :
    SuitsNode source d [kind.sort] (do
      let n ← Lower.allocate kind span
      Lower.set n first left
      Lower.setToken n kept tk
      Lower.set n last right
      return n) := by
  refine (suits_make kind hkind span).bind fun n d₁ h₁ hn => ?_
  refine (suits_set (hleft.later h₁) hfirst).andThen fun _ d₂ h₂ => ?_
  refine (suits_setToken hkept tk).andThen fun _ d₃ h₃ => ?_
  refine (suits_set (hright.later (h₁.trans (h₂.trans h₃))) hlast).andThen fun _ d₄ h₄ => .pure ?_
  exact Forest.Sorts.later hn (h₂.trans (h₃.trans h₄))

theorem suits_binaryNode (operator? : TokenKind → Option BinaryOperator) {left right : NodeId}
    (hleft : d.forest.Sorts [.other] left) (hright : d.forest.Sorts [.other] right) (tk : Token)
    (span : Span) : SuitsNode source d [.other] (binaryNode operator? left tk right span) := by
  unfold binaryNode
  split
  · exact .throw _
  · next op _ => exact suits_between (.binaryOperatorExpression op) rfl hleft hright rfl rfl rfl tk span

abbrev PlainIn (s : Sorting δ) (T : RawTree δ → Prop) (t : RawTree δ) : Prop :=
  T t ∧ t.symbol.isFormOf s.isPlain = true

namespace Obeys

variable (hs : Obeys s source e T clean recur)

include hs

theorem plainChild (ht : PlainIn s T t) (d : Draft) : SuitsNode source d [.other] (child recur t) := by
  rw [child_of_isFormOf ht.2]
  exact hs.plain ht.1 ht.2 d

/-! ### Operators -/

omit hs in
theorem suits_operatorToken (g : Grammar δ) (raw : RawTree δ) :
    SuitsStep source d (operatorToken g raw) := by
  unfold operatorToken
  split
  · exact .pure trivial
  · split
    · exact .pure trivial
    · exact .throw _

theorem suits_chainLeft (operator? : TokenKind → Option BinaryOperator)
    {links : List (RawTree δ × RawTree δ)} (hlinks : ∀ p ∈ links, PlainIn s T p.2) {left : NodeId}
    (hleft : d.forest.Sorts [.other] left) (span : Span) :
    SuitsNode source d [.other] (chainLeft s.grammar recur operator? links left span) := by
  induction links generalizing left span d with
  | nil => exact .pure hleft
  | cons link links ih =>
      rw [List.forall_mem_cons] at hlinks
      refine (hs.plainChild hlinks.1 d).bind fun right d₁ h₁ hright => .read ?_
      refine (suits_operatorToken _ _).andThen fun tk d₂ h₂ => ?_
      refine (suits_binaryNode operator? (hleft.later (h₁.trans h₂)) (Forest.Sorts.later hright h₂) tk _).bind
        fun n d₃ _ hn => ih hlinks.2 hn _

theorem suits_chainRight (operator? : TokenKind → Option BinaryOperator)
    {links : List (RawTree δ × RawTree δ)} (hlinks : ∀ p ∈ links, PlainIn s T p.2) {right : NodeId}
    (hright : d.forest.Sorts [.other] right) (span : Span) :
    SuitsNode source d [.other] (chainRight s.grammar recur operator? links right span) := by
  induction links generalizing right span d with
  | nil => exact .pure hright
  | cons link links ih =>
      rw [List.forall_mem_cons] at hlinks
      refine (hs.plainChild hlinks.1 d).bind fun left d₁ h₁ hleft => .read ?_
      refine (suits_operatorToken _ _).andThen fun tk d₂ h₂ => ?_
      refine (suits_binaryNode operator? (Forest.Sorts.later hleft h₂) (hright.later (h₁.trans h₂)) tk _).bind
        fun n d₃ _ hn => ih hlinks.2 hn _

theorem suits_chain (hf : s.lists s.isPlain f = true) (ht : Opened s.grammar T (.node (some f) i j cs))
    (operator? : TokenKind → Option BinaryOperator) (rightward : Bool) (d : Draft) :
    SuitsNode source d [.other] (chain s.grammar recur operator? rightward (.node (some f) i j cs)) := by
  have hitems := items hf ht
  unfold chain
  generalize (RawTree.node (some f) i j cs).listItems s.grammar = items at hitems
  obtain ⟨operands, separators⟩ := items
  dsimp only at hitems ⊢
  split
  · split
    · exact .throw _
    · next last hlast =>
        refine (hs.plainChild (hitems last (List.mem_of_getLast? hlast)) d).bind fun n d₁ _ hn => .read ?_
        refine hs.suits_chainRight operator? (fun p hp => ?_) hn _
        exact hitems p.2 (List.mem_of_mem_dropLast (List.of_mem_zip (List.mem_reverse.mp hp)).2)
  · split
    · exact .throw _
    · next first rest =>
        rw [List.forall_mem_cons] at hitems
        refine (hs.plainChild hitems.1 d).bind fun n d₁ _ hn => .read ?_
        exact hs.suits_chainLeft operator? (fun p hp => hitems.2 p.2 (List.of_mem_zip hp).2) hn _

theorem suits_applyComparisons (operator? : TokenKind → Option BinaryOperator) {ts : List (RawTree δ)}
    (hts : ∀ t ∈ ts, T t ∧ t.symbol.isFormOf s.isTail = true) (hn : d.forest.Sorts [.other] n)
    (span : Span) :
    SuitsNode source d [.other] (applyComparisons s.grammar recur operator? ts n span) := by
  induction ts generalizing n span d with
  | nil => exact .pure hn
  | cons t ts ih =>
      rw [List.forall_mem_cons] at hts
      obtain ⟨⟨ht, hform⟩, hts⟩ := hts
      obtain ⟨f, i, j, cs, rfl, hf⟩ := exists_of_isFormOf hform
      rw [Sorting.isTail, Bool.and_eq_true] at hf
      obtain ⟨tk, c, htoken, hc⟩ :=
        (hs.sees_opening ht).anyToken (Outlook.take_eq_some.mpr ⟨hf.1, rfl⟩)
      obtain ⟨u, c', hnode, hu, hplain, -⟩ := hc.form (Outlook.take_eq_some.mpr ⟨hf.2, rfl⟩)
      refine .read ?_
      rw [htoken, pure_bind]
      dsimp only
      rw [hnode, pure_bind]
      refine (hs.plain hu hplain d).bind fun operand d₁ h₁ hoperand => ?_
      have hleft := hn.later h₁
      split
      · exact (suits_between .typeTestExpression rfl hleft hoperand rfl rfl rfl tk _).bind
          fun m d₂ _ hm => ih hts hm _
      · exact (suits_between .asExpression rfl hleft hoperand rfl rfl rfl tk _).bind
          fun m d₂ _ hm => ih hts hm _
      · split
        · exact .throw _
        · exact (suits_binaryNode operator? hleft hoperand tk _).bind fun m d₂ _ hm => ih hts hm _

/-! ### Types -/

theorem suits_qualify {ts : List (RawTree δ)} (hts : ∀ t ∈ ts, PlainIn s T t)
    (hn : d.forest.Sorts [.other] n) (span : Span) :
    SuitsNode source d [.other] (qualify recur ts n span) := by
  induction ts generalizing n span d with
  | nil => exact .pure hn
  | cons t ts ih =>
      rw [List.forall_mem_cons] at hts
      refine (hs.plainChild hts.1 d).bind fun name d₁ h₁ hname => .read ?_
      refine (suits_make .memberType rfl _).bind fun m d₂ h₂ hm => ?_
      refine (suits_set (hn.later (h₁.trans h₂)) rfl).andThen fun _ d₃ h₃ => ?_
      refine (suits_set (Forest.Sorts.later hname (h₂.trans h₃)) rfl).andThen fun _ d₄ h₄ => ?_
      exact ih hts.2 (Forest.Sorts.later hm (h₃.trans h₄)) _

theorem suits_qualifiedType (hf : s.lists s.isPlain f = true) (ht : Opened s.grammar T (.node (some f) i j cs))
    (d : Draft) : SuitsNode source d [.other] (qualifiedType s.grammar recur (.node (some f) i j cs)) := by
  have hitems := items hf ht
  unfold qualifiedType
  split
  · exact .throw _
  · next first rest hlist =>
      rw [hlist, List.forall_mem_cons] at hitems
      refine (hs.plainChild hitems.1 d).bind fun name d₁ h₁ hname => .read ?_
      refine (suits_make .simpleType rfl _).bind fun m d₂ h₂ hm => ?_
      refine (suits_set (Forest.Sorts.later hname h₂) rfl).andThen fun _ d₃ h₃ => ?_
      exact hs.suits_qualify hitems.2 (Forest.Sorts.later hm h₃) _

omit hs in
theorem suits_wrapType (g : Grammar δ) (ts : List (RawTree δ)) (hn : d.forest.Sorts [.other] n)
    (span : Span) : SuitsNode source d [.other] (wrapType g ts n span) := by
  induction ts generalizing n span d with
  | nil => exact .pure hn
  | cons t ts ih =>
      refine .read ?_
      cases t with
      | leaf tk =>
          refine (suits_make .pointerType rfl _).bind fun m d₁ h₁ hm => ?_
          exact (suits_set (hn.later h₁) rfl).andThen fun _ d₂ h₂ => ih (Forest.Sorts.later hm h₂) _
      | node => exact (suits_arrayOf hn _ _).bind fun m d₁ _ hm => ih hm _

omit hs in
theorem suits_wrapRanks (g : Grammar δ) (ts : List (RawTree δ)) (hn : d.forest.Sorts [.other] n) :
    SuitsNode source d [.other] (wrapRanks g ts n) := by
  induction ts generalizing n d with
  | nil => exact .pure hn
  | cons t ts ih => exact .read ((suits_arrayOf hn t _).bind fun m d₁ _ hm => ih hm)

/-- The element of an array type that was read is a plain node, since it stands under the title of
types. -/
theorem suits_listedArray (hc : Sees T o (cursor s.grammar (.node (some f) i j cs)))
    (ho' : ((o.take (·.isAny [.kwNew])).bind fun o =>
      (o.take (·.isFormOf s.isPlain)).bind (·.take (·.isFormOf s.isPlain))) = some o') (d : Draft) :
    SuitsNode source d [.other] (listedArray s.grammar recur (.node (some f) i j cs)) := by
  obtain ⟨o₁, ho₁, ho'⟩ := Option.bind_eq_some_iff.mp ho'
  obtain ⟨o₂, ho₂, ho'⟩ := Option.bind_eq_some_iff.mp ho'
  obtain ⟨kw, c₁, htoken, hc₁⟩ := hc.token ho₁
  obtain ⟨type, c₂, hnode, htype, hplain, hc₂⟩ := hc₁.form ho₂
  obtain ⟨init, c₃, hnode', hinit, hplain', -⟩ := hc₂.form ho'
  refine .read ((suits_make (.arrayCreateExpression .length) rfl _).bind fun n d₁ _ hn => ?_)
  rw [htoken, pure_bind]
  refine (suits_setToken rfl kw).andThen fun _ d₂ h₂ => ?_
  dsimp only
  rw [hnode, pure_bind]
  refine (hs.plain htype hplain d₂).bind fun m d₃ h₃ hm => .inspect fun hd₃ => ?_
  split
  · exact .throw _
  · next element helement =>
      split at helement
      case isFalse => cases helement
      have hmem := mem_children_of_child? helement
      have hsuits := hd₃.suits hmem
      have hdetach : SuitsStep source d₃ (Lower.detach element) := by
        rintro _ d' hd ⟨⟩
        obtain ⟨hdetached, hfurthers⟩ := hd.detach hsuits (by decide)
        exact ⟨hdetached, hfurthers, trivial⟩
      have hsort : d₃.forest.Sorts [.other] element := by
        refine ⟨lt_size_of_parent (hd₃.links.parent_of_mem_children hmem), ?_⟩
        rw [NodeKind.suits_eq_takes] at hsuits
        revert hsuits
        cases (d₃.forest.kind element).sort <;> simp [Title.takes] <;> decide
      refine hdetach.andThen fun _ d₄ h₄ => (suits_set (hsort.later h₄) rfl).andThen fun _ d₅ h₅ => ?_
      rw [hnode', pure_bind]
      refine (hs.plain hinit hplain' d₅).setThen rfl fun d₆ h₆ => .pure ?_
      exact Forest.Sorts.later hn (h₂.trans (h₃.trans (h₄.trans (h₅.trans h₆))))

/-! ### Statements -/

theorem suits_caseLabel (ht : PlainIn s T t) (d : Draft) :
    SuitsNode source d [.other] (caseLabel recur t) := by
  refine (hs.plainChild ht d).bind fun value d₁ _ hvalue => .inspect fun _ => ?_
  split
  · exact .pure hvalue
  · exact .pure hvalue
  · exact .read (suits_over .caseLabel rfl hvalue rfl _)

theorem suits_assignmentStatement (hc : Sees T o (cursor s.grammar (.node (some f) i j cs)))
    (ho' : s.afterAssignment o = some o') (operator? : TokenKind → Option AssignmentOperator)
    (d : Draft) : SuitsNode source d [.other]
      (assignmentStatement s.grammar recur operator? (.node (some f) i j cs)) := by
  obtain ⟨o₁, ho₁, ho'⟩ := Option.bind_eq_some_iff.mp ho'
  obtain ⟨o₂, ho₂, ho'⟩ := Option.bind_eq_some_iff.mp ho'
  obtain ⟨target, c₁, hnode, htarget, hplain, hc₁⟩ := hc.form ho₁
  obtain ⟨tk, c₂, htoken, hc₂⟩ := hc₁.anyToken ho₂
  obtain ⟨value, c₃, hnode', hvalue, hplain', -⟩ := hc₂.form ho'
  refine .read ((suits_make .expressionStatement rfl _).bind fun statement d₁ _ hstatement => ?_)
  rw [hnode, pure_bind]
  refine (hs.plain htarget hplain d₁).bind fun left d₂ h₂ hleft => ?_
  dsimp only
  rw [htoken, pure_bind]
  dsimp only
  split
  · exact .throw _
  · next op _ =>
      refine (suits_make (.assignmentExpression op) rfl _).bind fun n d₃ h₃ hn => ?_
      refine (suits_set (Forest.Sorts.later hleft h₃) rfl).andThen fun _ d₄ h₄ => ?_
      refine (suits_setToken rfl tk).andThen fun _ d₅ h₅ => ?_
      rw [hnode', pure_bind]
      refine (hs.plain hvalue hplain' d₅).setThen rfl fun d₆ h₆ => ?_
      have hfurthers := h₄.trans (h₅.trans h₆)
      refine (suits_set (Forest.Sorts.later hn hfurthers) rfl).andThen fun _ d₇ h₇ => .pure ?_
      exact Forest.Sorts.later hstatement (h₂.trans (h₃.trans (hfurthers.trans h₇)))

omit hs in
theorem exists_loopCondition (hc : Sees T o c) (ho' : s.afterCondition o = some o') :
    ∃ r c', loopCondition c = pure (r, c') ∧ (∀ p ∈ r, PlainIn s T p.2) ∧ Sees T o' c' := by
  obtain ⟨inner, hinner, ho'⟩ := Option.bind_eq_some_iff.mp ho'
  cases ho'
  unfold loopCondition
  rcases hc.eatAny [.kwWhile, .kwUntil] with ⟨tk, c₁, heat, hc₁⟩ | ⟨heat, hc₁⟩
  · obtain ⟨u, c₂, hnode, hu, hplain, hc₂⟩ := hc₁.form hinner
    rw [heat]
    dsimp only
    rw [hnode, pure_bind]
    refine ⟨_, c₂, rfl, ?_, hc₂.mono (List.subset_append_left _ _)⟩
    rintro p ⟨⟩
    exact ⟨hu, hplain⟩
  · rw [heat]
    exact ⟨none, c, rfl, nofun, hc₁.mono (List.subset_append_right _ _)⟩

theorem suits_doLoop (hc : Sees T o (cursor s.grammar (.node (some f) i j cs)))
    (ho' : s.afterLoop o = some o') (d : Draft) :
    SuitsNode source d [.other] (doLoop s.grammar recur (.node (some f) i j cs)) := by
  obtain ⟨o₁, ho₁, ho'⟩ := Option.bind_eq_some_iff.mp ho'
  obtain ⟨o₂, ho₂, ho'⟩ := Option.bind_eq_some_iff.mp ho'
  obtain ⟨o₃, ho₃, ho'⟩ := Option.bind_eq_some_iff.mp ho'
  obtain ⟨o₄, ho₄, ho'⟩ := Option.bind_eq_some_iff.mp ho'
  obtain ⟨kw, c₁, htoken, hc₁⟩ := hc.token ho₁
  obtain ⟨before, c₂, hbefore, hbeforePlain, hc₂⟩ := exists_loopCondition hc₁ ho₂
  obtain ⟨body, c₃, hnode, hbody, hgoes, hc₃⟩ := hc₂.form ho₃
  obtain ⟨loop, c₄, htoken', hc₄⟩ := hc₃.token ho₄
  obtain ⟨behind, c₅, hbehind, hbehindPlain, -⟩ := exists_loopCondition hc₄ ho'
  rw [doLoop, htoken, pure_bind]
  dsimp only
  rw [hbefore, pure_bind]
  dsimp only
  rw [hnode, pure_bind]
  dsimp only
  rw [htoken', pure_bind]
  dsimp only
  rw [hbehind, pure_bind]
  have hfinish {n : NodeId} {d₁ : Draft} (hn : d₁.forest.Sorts [.other] n) :
      SuitsNode source d₁ [.other] (do
        Lower.set n .embeddedStatement (← recur body)
        return n) :=
    hs.setThen hbody hgoes fun _ h₂ => .pure (hn.later h₂)
  have hmake (kind : NodeKind) (hkind : kind.isPlain = true) (hsort : kind.sort = .other)
      (condition : RawTree δ) (hcondition : PlainIn s T condition) : SuitsNode source d [.other] (do
        let n ← Lower.allocate kind (← spanOf (.node (some f) i j cs))
        Lower.setToken n .keyword kw
        Lower.set n .condition (← recur condition)
        Lower.set n .embeddedStatement (← recur body)
        return n) := by
    refine .read ((suits_make kind hkind _).bind fun n d₁ _ hn => ?_)
    rw [hsort] at hn
    refine (suits_setToken rfl kw).andThen fun _ d₂ h₂ => ?_
    refine (hs.plain hcondition.1 hcondition.2 d₂).setThen rfl fun d₃ h₃ => ?_
    exact hfinish (Forest.Sorts.later hn (h₂.trans h₃))
  cases before with
  | some condition =>
      cases behind with
      | some _ => exact .throw _
      | none => exact hmake _ rfl rfl condition.2 (hbeforePlain condition rfl)
  | none =>
      cases behind with
      | some condition => exact hmake _ rfl rfl condition.2 (hbehindPlain condition rfl)
      | none =>
          refine .read ((suits_make (.doLoopStatement .none false) rfl _).bind fun n d₁ _ hn => ?_)
          exact (suits_setToken rfl kw).andThen fun _ d₂ h₂ => hfinish (Forest.Sorts.later hn h₂)

theorem suits_caseBlock (hc : Sees T o (cursor s.grammar (.node (some f) i j cs)))
    (ho' : s.afterCase o = some o') (d : Draft) :
    SuitsNode source d [.other] (caseBlock s.grammar recur (.node (some f) i j cs)) := by
  obtain ⟨o₁, ho₁, ho'⟩ := Option.bind_eq_some_iff.mp ho'
  obtain ⟨values, hvalues, ho'⟩ := Option.bind_eq_some_iff.mp ho'
  obtain ⟨kw, c₁, htoken, hc₁⟩ := hc.token ho₁
  refine .read ((suits_make .switchSection rfl _).bind fun n d₁ _ hn => ?_)
  rw [htoken, pure_bind]
  dsimp only
  have hrest {c : Cursor δ} (hc : Sees T (o₁.past (·.isAny [.kwElse]) ++ values) c) {d₂ : Draft}
      (h₂ : d₁.forest.Furthers d₂.forest) : SuitsNode source d₂ [.other] (do
        for t in (← c.node).1.children do Lower.push n .statements (← child recur t)
        return n) := by
    obtain ⟨u, c', hnode, hu, hform, -⟩ := hc.form ho'
    obtain ⟨f', i', j', cs', rfl, hfills⟩ := exists_of_isFormOf hform
    rw [hnode, pure_bind]
    exact hs.pushChildrenThen hfills (hs.setting.opened hu) fun d₃ h₃ =>
      .pure (Forest.Sorts.later hn (h₂.trans h₃))
  rcases hc₁.eatAny [.kwElse] with ⟨tk, c₂, heat, hc₂⟩ | ⟨heat, hc₂⟩
  · rw [Cursor.eat, heat]
    refine (suits_make .caseLabel rfl _).bind fun label d₂ h₂ hlabel => ?_
    refine (suits_setToken rfl kw).andThen fun _ d₃ h₃ => ?_
    refine (suits_push (Forest.Sorts.later hlabel h₃) rfl).andThen fun _ d₄ h₄ => ?_
    exact hrest (hc₂.mono (List.subset_append_left _ _)) (h₂.trans (h₃.trans h₄))
  · obtain ⟨u, c₃, hnode, hu, hform, hc₃⟩ := hc₂.form hvalues
    obtain ⟨f', i', j', cs', rfl, hlists⟩ := exists_of_isFormOf hform
    rw [Cursor.eat, heat]
    dsimp only
    rw [hnode, pure_bind]
    refine (Suits.forIn fun clause hclause d₂ _ => ?_).andThen fun _ d₂ h₂ =>
      hrest (hc₃.mono (List.subset_append_right _ _)) h₂
    exact (hs.suits_caseLabel (items hlists (hs.setting.opened hu) clause hclause) d₂).pushThen rfl
      fun _ _ => .pure trivial

/-! ### Nodes with parts -/

variable [DecidableEq δ] {parts : List (Part δ)}

theorem suits_build (ht : Opened s.grammar T (.node (some f) i j cs)) (hc : Sees T o c)
    (hparts : s.partsAfter f parts o = some o') (hkind : Sorting.furnishes kind parts = true)
    (d : Draft) :
    SuitsNode source d [kind.sort] (build s.grammar recur (.node (some f) i j cs) c kind parts) := by
  rw [Sorting.furnishes, Bool.or_eq_true] at hkind
  rcases hkind with hplain | hdeclares
  · refine .read ((suits_make kind hplain _).bind fun n d₁ _ hn => ?_)
    exact (suits_readParts hs parts hparts ht hc).step.andThen fun _ _ h₂ =>
      .pure (Forest.Sorts.later hn h₂)
  · -- the node lacks its variables until its parts have been read
    rw [Bool.and_eq_true] at hdeclares
    intro n d' hd hrun
    obtain ⟨_, _, ⟨⟩, hrun⟩ := exists_of_bind hrun
    obtain ⟨_, d₁, ⟨⟩, hrun⟩ := exists_of_bind hrun
    obtain ⟨c', d₂, hread, ⟨⟩⟩ := exists_of_bind hrun
    obtain ⟨hd', hfurthers, -, hvariables⟩ :=
      suits_readParts hs parts hparts ht hc (hd.allocate _ _) hread
    have hsorts := (sorts_allocate d.forest kind (source.lines.textRange _)).later hfurthers
    have hkind := (hfurthers.kind _ (sorts_allocate d.forest kind _).lt).trans
      (kind_allocate d.forest kind _)
    refine ⟨hd', .of_allocate hfurthers ⟨fun _ => hvariables hdeclares.2, ?_⟩, hsorts⟩
    rw [hkind]
    exact NodeKind.isNeat_of_declares hdeclares.1

omit [DecidableEq δ] in
theorem suits_readOperands {operands : List (List TokenKind × Title)} (hc : Sees T o c)
    (ho' : s.operandsAfter operands o = some o') (d : Draft) :
    Suits source d (fun r f => (∀ p ∈ r.1, p.1.welcomes [.other] = true ∧ f.Sorts [.other] p.2) ∧
      Sees T o' r.2) (readOperands recur c operands) := by
  induction operands generalizing o c d with
  | nil =>
      cases ho'
      exact .pure ⟨nofun, hc⟩
  | cons operand operands ih =>
      obtain ⟨tokens, t⟩ := operand
      rw [Sorting.operandsAfter, Option.ite_none_right_eq_some] at ho'
      obtain ⟨hwelcomes, ho'⟩ := ho'
      obtain ⟨o₁, ho₁, ho'⟩ := Option.bind_eq_some_iff.mp ho'
      obtain ⟨o₂, ho₂, ho'⟩ := Option.bind_eq_some_iff.mp ho'
      obtain ⟨c₁, htokens, hc₁⟩ := hc.tokens ho₁
      obtain ⟨u, c₂, hnode, hu, hplain, hc₂⟩ := hc₁.form ho₂
      rw [readOperands, htokens, pure_bind, hnode, pure_bind]
      refine (hs.plain hu hplain d).bind fun n d₁ _ hn => ?_
      refine (ih hc₂ ho' d₁).bind fun r d₂ h₂ hr => .pure ⟨?_, hr.2⟩
      exact List.forall_mem_cons.mpr ⟨⟨hwelcomes, Forest.Sorts.later hn h₂⟩, hr.1⟩

theorem suits_join {operands : List (List TokenKind × Title)} (ht : Opened s.grammar T (.node (some f) i j cs))
    (hc : Sees T o (cursor s.grammar (.node (some f) i j cs)))
    (hparts : (s.operandsAfter operands o).bind (s.partsAfter f parts) = some o')
    (hkind : kind.isPlain = true) (d : Draft) :
    SuitsNode source d [kind.sort]
      (join s.grammar recur (.node (some f) i j cs) kind operands parts) := by
  obtain ⟨o₁, ho₁, hparts⟩ := Option.bind_eq_some_iff.mp hparts
  refine (hs.suits_readOperands hc ho₁ d).bind fun made d₁ _ hmade => .read ?_
  refine (suits_make kind hkind _).bind fun n d₂ h₂ hn => ?_
  refine (Suits.forIn fun p hp d₃ h₃ => ?_).andThen fun _ d₃ h₃ => ?_
  · obtain ⟨hwelcomes, hsorts⟩ := hmade.1 p hp
    exact (suits_set (hsorts.later (h₂.trans h₃)) hwelcomes).andThen fun _ _ _ => .pure trivial
  · exact (suits_readParts hs parts hparts ht hmade.2).step.andThen fun _ d₄ h₄ =>
      .pure (Forest.Sorts.later hn (h₃.trans h₄))

theorem suits_applySuffix {target : NodeId} (htarget : d.forest.Sorts [.other] target)
    (ht : T (.node (some f) i j cs)) (hf : s.isSuffix f = true) (span : Span) :
    SuitsNode source d [.other]
      (applySuffix s.grammar recur target (.node (some f) i j cs) span) := by
  have hopening := hs.sees_opening ht
  have hmust : (s.opening f).must (·.isToken) = true := by
    refine List.all_eq_true.mpr fun x hx => ?_
    have hx := List.all_eq_true.mp hf x hx
    rcases x with _ | ⟨_ | _, k⟩
    · cases hx
    · rfl
    · cases hx
  obtain ⟨tk, c, htoken, htook⟩ := Cursor.anyToken_must hopening.foresees hmust
  have hplan : ((Survey.suffixPlan? tk.kind).any fun (_, _, _, parts) =>
      (s.partsAfter f parts ((s.opening f).past (·.isAny [tk.kind]))).isSome) = true := by
    have hforesees := hopening.foresees
    rw [htook.rest] at hforesees
    obtain ⟨k, hmem, -⟩ := hforesees
    exact List.all_eq_true.mp hf _ hmem
  have hc : Sees T ((s.opening f).past (·.isAny [tk.kind])) c := by
    have hforesees := hopening.foresees
    rw [htook.rest] at hforesees
    exact ⟨hforesees.past (by simp [RawTree.symbol, Symbol.isAny]),
      (hopening.took htook).2.inside⟩
  rw [applySuffix, htoken, pure_bind]
  -- a node over the target that keeps the token and then reads parts
  have hkeep (kind : NodeKind) (hkind : kind.isPlain = true) (hsort : kind.sort = .other)
      {title kept : Title} (htitle : title.welcomes [.other] = true) (hkept : kept.isLexical = true)
      {next : NodeId → Lower NodeId} (hnext : ∀ n (d₁ : Draft), d₁.forest.Sorts [.other] n →
        SuitsNode source d₁ [.other] (next n)) : SuitsNode source d [.other] (do
          let n ← Lower.allocate kind span
          Lower.set n title target
          Lower.setToken n kept tk
          next n) := by
    refine (suits_make kind hkind span).bind fun n d₁ h₁ hn => ?_
    rw [hsort] at hn
    refine (suits_set (htarget.later h₁) htitle).andThen fun _ d₂ h₂ => ?_
    exact (suits_setToken hkept tk).andThen fun _ d₃ h₃ => hnext n d₃ (Forest.Sorts.later hn (h₂.trans h₃))
  have hread {parts : List (Part δ)}
      (hparts : (s.partsAfter f parts ((s.opening f).past (·.isAny [tk.kind]))).isSome = true)
      (n : NodeId) (d₁ : Draft) (hn : d₁.forest.Sorts [.other] n) : SuitsNode source d₁ [.other] (do
        let _ ← readParts s.grammar recur n (.node (some f) i j cs) c parts
        return n) := by
    obtain ⟨o', ho'⟩ := Option.isSome_iff_exists.mp hparts
    exact (suits_readParts hs parts ho' (hs.setting.opened ht) hc).step.andThen fun _ d₂ h₂ =>
      .pure (hn.later h₂)
  dsimp only
  simp only [bind_assoc, pure_bind]
  split
  · next hkind => exact hkeep _ rfl rfl rfl rfl (hread (by simpa [hkind, Survey.suffixPlan?] using hplan))
  · next hkind => exact hkeep _ rfl rfl rfl rfl (hread (by simpa [hkind, Survey.suffixPlan?] using hplan))
  · next hkind => exact hkeep _ rfl rfl rfl rfl (hread (by simpa [hkind, Survey.suffixPlan?] using hplan))
  · next hkind => exact hkeep _ rfl rfl rfl rfl (hread (by simpa [hkind, Survey.suffixPlan?] using hplan))
  · exact hkeep _ rfl rfl rfl rfl fun n _ hn => .pure hn
  · exact hkeep _ rfl rfl rfl rfl fun n _ hn => .pure hn
  · exact .throw _

theorem suits_applySuffixes {ts : List (RawTree δ)}
    (hts : ∀ t ∈ ts, T t ∧ t.symbol.isFormOf s.isSuffix = true) (hn : d.forest.Sorts [.other] n)
    (span : Span) : SuitsNode source d [.other] (applySuffixes s.grammar recur ts n span) := by
  induction ts generalizing n span d with
  | nil => exact .pure hn
  | cons t ts ih =>
      rw [List.forall_mem_cons] at hts
      obtain ⟨⟨ht, hform⟩, hts⟩ := hts
      obtain ⟨f, i, j, cs, rfl, hf⟩ := exists_of_isFormOf hform
      exact .read ((hs.suits_applySuffix hn ht hf _).bind fun m d₁ _ hm => ih hts hm _)

/-- What an array creation gets once its node is made: its sizes, its type and its elements. -/
theorem suits_sizedRest (rank : δ) {c : Cursor δ} {init : Option (RawTree δ)} {rest : Cursor δ}
    (heat : (c.takeNodes (some rank)).2.eatNode = (init, rest))
    (hinit : ∀ t ∈ init, T t ∧ t.symbol.isFormOf s.isPlain = true) {arguments : List NodeId}
    {type n : NodeId} (harguments : GoUnder .arguments arguments d.forest)
    (htype : d.forest.Sorts [.other] type) (hn : d.forest.Sorts [.other] n) :
    SuitsNode source d [.other] (do
      pushAll n .arguments arguments
      Lower.set n .type (← wrapRanks s.grammar (c.takeNodes (some rank)).1 type)
      if let (some init, _) := (c.takeNodes (some rank)).2.eatNode then
        Lower.set n .initializer (← recur init)
      return n) := by
  refine (suits_pushAll harguments).andThen fun _ d₁ h₁ => ?_
  refine (suits_wrapRanks _ _ (Forest.Sorts.later htype h₁)).setThen rfl fun d₂ h₂ => ?_
  rw [heat]
  cases init with
  | none => exact .pure (hn.later (h₁.trans h₂))
  | some init =>
      obtain ⟨hinit, hplain⟩ := hinit init rfl
      exact (hs.plain hinit hplain d₂).setThen rfl fun d₃ h₃ =>
        .pure (hn.later (h₁.trans (h₂.trans h₃)))

theorem suits_sizedArray (rank : δ) (bounds : Option ArrayBounds)
    (hc : Sees T o (cursor s.grammar (.node (some f) i j cs)))
    (ho' : s.afterSized rank o = some o') (d : Draft) :
    SuitsNode source d [.other]
      (sizedArray s.grammar recur rank bounds (.node (some f) i j cs)) := by
  obtain ⟨o₁, ho₁, ho'⟩ := Option.bind_eq_some_iff.mp ho'
  obtain ⟨o₂, ho₂, ho'⟩ := Option.bind_eq_some_iff.mp ho'
  obtain ⟨o₃, ho₃, ho'⟩ := Option.bind_eq_some_iff.mp ho'
  obtain ⟨o₄, ho₄, ho'⟩ := Option.bind_eq_some_iff.mp ho'
  obtain ⟨o₅, ho₅, ho'⟩ := Option.bind_eq_some_iff.mp ho'
  obtain ⟨o₆, ho₆, ho'⟩ := Option.bind_eq_some_iff.mp ho'
  obtain ⟨kw, c₁, htoken, hc₁⟩ := hc.token ho₁
  obtain ⟨element, c₂, hnode, helement, hplain, hc₂⟩ := hc₁.form ho₂
  obtain ⟨tk, c₃, htoken', hc₃⟩ := hc₂.anyToken ho₃
  obtain ⟨sizes, c₄, hnode', hsizes, hfills, hc₄⟩ := hc₃.form ho₄
  obtain ⟨tk', c₅, htoken'', hc₅⟩ := hc₄.anyToken ho₅
  obtain ⟨-, hc₆⟩ := hc₅.forms ho₆
  obtain ⟨init, c₇, heat, hinit, -⟩ := hc₆.nodeMaybe ho'
  obtain ⟨f', i', j', cs', rfl, hfills⟩ := exists_of_isFormOf hfills
  have hfills : s.lists (s.goes .arguments) f' = true := hfills
  have hmake (bounds : ArrayBounds) (d₁ : Draft) : SuitsNode source d₁ [.other] (do
      let n ← Lower.allocate (.arrayCreateExpression bounds) (← spanOf (.node (some f) i j cs))
      Lower.setToken n .keyword kw
      return n) :=
    .read ((suits_make (.arrayCreateExpression bounds) rfl _).bind fun n d₂ _ hn =>
      (suits_setToken rfl kw).andThen fun _ d₃ h₃ => .pure (Forest.Sorts.later hn h₃))
  have hearly : Suits source d (SortsMaybe [.other]) (bounds.mapM fun bounds => do
      let n ← Lower.allocate (.arrayCreateExpression bounds) (← spanOf (.node (some f) i j cs))
      Lower.setToken n .keyword kw
      return n) := by
    cases bounds with
    | none => exact .pure sortsMaybe_none
    | some bounds => exact (hmake bounds d).bind fun n d₁ _ hn => .pure (sortsMaybe_some hn)
  rw [sizedArray, htoken, pure_bind]
  refine hearly.bind fun early d₁ _ hearly => ?_
  rw [hnode, pure_bind]
  refine (hs.plain helement hplain d₁).bind fun type d₂ h₂ htype => ?_
  dsimp only
  rw [htoken', pure_bind]
  dsimp only
  rw [hnode', pure_bind]
  refine (hs.suits_elements hfills hsizes).bind fun arguments d₃ h₃ harguments => ?_
  dsimp only
  rw [htoken'', pure_bind]
  have hrest {n : NodeId} {d₄ : Draft} (h₄ : d₃.forest.Furthers d₄.forest)
      (hn : d₄.forest.Sorts [.other] n) :=
    hs.suits_sizedRest rank heat hinit (harguments.later h₄)
      (Forest.Sorts.later htype (h₃.trans h₄)) hn
  cases early with
  | some n => exact hrest (.refl _) ((hearly n rfl).later (h₂.trans h₃))
  | none => exact (hmake _ d₃).bind fun n d₄ h₄ hn => hrest h₄ hn

/-! ### `If` blocks -/

theorem suits_elseIfs {elseIf : δ}
    (hbranch : s.partsAfter elseIf (Survey.branch .kwElseIf) (s.opening elseIf) = some o')
    {ts : List (RawTree δ)} (hts : ∀ t ∈ ts, T t ∧ t.symbol.isForm elseIf = true)
    {tail : Option NodeId} (htail : GoUnder .falseStatement tail.toList d.forest) :
    Suits source d (fun r => GoUnder .falseStatement r.toList) (elseIfs s.grammar recur ts tail) := by
  induction ts generalizing tail d with
  | nil => exact .pure htail
  | cons t ts ih =>
      rw [List.forall_mem_cons] at hts
      obtain ⟨i, j, cs, rfl⟩ := exists_of_isForm hts.1.2
      refine (hs.suits_build (hs.setting.opened hts.1.1) (hs.sees_opening hts.1.1) hbranch
        (show Sorting.furnishes .ifElseStatement _ = true from rfl) d).bind
        fun n d₁ h₁ hn => ?_
      cases tail with
      | none => exact ih hts.2 (goUnder_singleton rfl hn)
      | some m =>
          obtain ⟨sorts, hwelcomes, hsorts⟩ := htail m (List.mem_singleton_self m)
          refine (suits_set (hsorts.later h₁) hwelcomes).andThen fun _ d₂ h₂ => ?_
          exact ih hts.2 (goUnder_singleton rfl (Forest.Sorts.later hn h₂))

/-- What an `If` block gets behind its first branch and what stands in its `Else`. -/
theorem suits_ifRest {elseIf : δ} (ht : Opened s.grammar T (.node (some f) i j cs))
    (hbranch : s.partsAfter elseIf (Survey.branch .kwElseIf) (s.opening elseIf) = some o')
    {ts : List (RawTree δ)} (hts : ∀ t ∈ ts, T t ∧ t.symbol.isForm elseIf = true) {c : Cursor δ}
    (hc : Sees T o c) {last : Outlook δ}
    (hlast : s.partsAfter f [.keep .kwEnd .endKeyword] o = some last) {n : NodeId}
    (hn : d.forest.Sorts [.other] n) {tail : Option NodeId}
    (htail : GoUnder .falseStatement tail.toList d.forest) : SuitsNode source d [.other] (do
      if let some tail ← elseIfs s.grammar recur ts.reverse tail then
        Lower.set n .falseStatement tail
      let _ ← readParts s.grammar recur n (.node (some f) i j cs) c [.keep .kwEnd .endKeyword]
      return n) := by
  refine (hs.suits_elseIfs hbranch (fun t ht => hts t (List.mem_reverse.mp ht)) htail).bind
    fun tail d₁ h₁ htail => ?_
  have hend {d₂ : Draft} (h₂ : d₁.forest.Furthers d₂.forest) : SuitsNode source d₂ [.other] (do
      let _ ← readParts s.grammar recur n (.node (some f) i j cs) c [.keep .kwEnd .endKeyword]
      return n) :=
    (suits_readParts hs _ hlast ht hc).step.andThen fun _ d₃ h₃ =>
      .pure (Forest.Sorts.later hn (h₁.trans (h₂.trans h₃)))
  cases tail with
  | none => exact hend (.refl _)
  | some m =>
      obtain ⟨sorts, hwelcomes, hsorts⟩ := htail m (List.mem_singleton_self m)
      exact (suits_set hsorts hwelcomes).andThen fun _ d₂ h₂ => hend h₂

theorem suits_ifBlock {elseIf elsePart : δ} (ht : Opened s.grammar T (.node (some f) i j cs))
    (hc : Sees T o (cursor s.grammar (.node (some f) i j cs)))
    (ho' : s.afterIf elseIf elsePart f o = some o') (d : Draft) :
    SuitsNode source d [.other]
      (ifBlock s.grammar recur elseIf elsePart (.node (some f) i j cs)) := by
  obtain ⟨o₁, hbranch, ho'⟩ := Option.bind_eq_some_iff.mp ho'
  obtain ⟨o₂, hkeyword, ho'⟩ := Option.bind_eq_some_iff.mp ho'
  obtain ⟨o₃, hother, ho'⟩ := Option.bind_eq_some_iff.mp ho'
  obtain ⟨o₄, hfirst, ho'⟩ := Option.bind_eq_some_iff.mp ho'
  obtain ⟨o₅, hparts, hlast⟩ := Option.bind_eq_some_iff.mp ho'
  refine .read ((suits_make .ifElseStatement rfl _).bind fun n d₁ _ hn => ?_)
  refine (suits_readParts hs _ hfirst ht hc).bind fun c₁ d₂ h₂ hread => ?_
  obtain ⟨hc₁, -⟩ := hread
  obtain ⟨helseIfs, hc₂⟩ := hc₁.forms hparts
  obtain ⟨found, c₃, heat, hfound, hc₃⟩ := hc₂.eatForm elsePart
  have hclose {tail : Option NodeId} {d₃ : Draft} (h₃ : d₂.forest.Furthers d₃.forest)
      (htail : GoUnder .falseStatement tail.toList d₃.forest) :=
    hs.suits_ifRest ht hbranch helseIfs hc₃ hlast (Forest.Sorts.later hn (h₂.trans h₃)) htail
  dsimp only
  rw [heat]
  cases found with
  | none => exact hclose (.refl _) nofun
  | some part =>
      obtain ⟨hpart, hform⟩ := hfound part rfl
      obtain ⟨i', j', cs', rfl⟩ := exists_of_isForm hform
      obtain ⟨tk, c₄, htoken, hc₄⟩ := (hs.sees_opening hpart).token hkeyword
      obtain ⟨u, c₅, hnode, hu, hgoes, -⟩ := hc₄.form hother
      dsimp only
      rw [htoken, pure_bind]
      dsimp only
      rw [hnode, pure_bind]
      obtain ⟨sorts, hwelcomes, hmakes⟩ := hs.goes hu hgoes d₂
      exact hmakes.bind fun m d₃ h₃ hm => hclose h₃ (goUnder_singleton hwelcomes hm)

/-! ### Parameters with a rank -/

theorem suits_rankedParameter {rank clause : δ} (ht : Opened s.grammar T (.node (some f) i j cs))
    (hc : Sees T o (cursor s.grammar (.node (some f) i j cs)))
    (hspells : s.plainly.spellsClause clause = true) (hharmless : s.plainly.harmless clause = true)
    (ho' : s.afterRanked rank clause f o = some o') (passing : ParameterModifier) (d : Draft) :
    SuitsNode source d [.other]
      (rankedParameter s.grammar recur passing rank clause (.node (some f) i j cs)) := by
  obtain ⟨o₁, ho₁, ho'⟩ := Option.bind_eq_some_iff.mp ho'
  obtain ⟨o₂, ho₂, ho'⟩ := Option.bind_eq_some_iff.mp ho'
  have hskip : (fun t : RawTree δ => t.token?.isSome) = fun t => t.symbol.isToken := by
    funext t
    cases t <;> rfl
  have hc₁ : Sees T o₁ { cursor s.grammar (.node (some f) i j cs) with
      rest := (cursor s.grammar (.node (some f) i j cs)).rest.dropWhile (·.token?.isSome) } := by
    rw [hskip]
    exact ⟨(hc.foresees.takeAll ho₁).2, fun t ht => hc.inside t ((List.dropWhile_sublist _).subset ht)⟩
  obtain ⟨name, c₂, hnode, hname, hplain, hc₂⟩ := hc₁.form ho₂
  obtain ⟨ranked, c₃, heat, -, hc₃⟩ := hc₂.eatForm rank
  obtain ⟨claused, c₄, heat', hclaused, hc₄⟩ := hc₃.eatForm clause
  refine .read ((suits_make (.parameterDeclaration passing) rfl _).bind fun n d₁ _ hn => ?_)
  dsimp only
  rw [hnode, pure_bind]
  refine (hs.plain hname hplain d₁).setThen rfl fun d₂ h₂ => ?_
  dsimp only
  rw [heat]
  dsimp only
  rw [heat']
  have hfinish {d₃ : Draft} (h₃ : d₂.forest.Furthers d₃.forest) : SuitsNode source d₃ [.other] (do
      let _ ← readParts s.grammar recur n (.node (some f) i j cs) c₄
        [.given .eq (some .assign) [.node .defaultExpression]]
      return n) :=
    (suits_readParts hs _ ho' ht hc₄).step.andThen fun _ d₄ h₄ =>
      .pure (Forest.Sorts.later hn (h₂.trans (h₃.trans h₄)))
  cases claused with
  | none => exact hfinish (.refl _)
  | some clauseRaw =>
      obtain ⟨hT, hform⟩ := hclaused clauseRaw rfl
      obtain ⟨i', j', cs', rfl⟩ := exists_of_isForm hform
      have hfine : Setting.Clause s.plainly T clean (.node (some clause) i' j' cs') :=
        ⟨⟨hT, hs.plainly.clean_of_spares hT hharmless⟩, clause, i', j', cs', rfl, hspells⟩
      refine (hs.suits_clauseType hfine d₂).bind fun type d₃ h₃ htype => ?_
      cases ranked with
      | none => exact (suits_set htype rfl).andThen fun _ d₄ h₄ => hfinish (h₃.trans h₄)
      | some r =>
          refine .read ((suits_arrayOf htype r _).setThen rfl fun d₄ h₄ => ?_)
          exact hfinish (h₃.trans h₄)

/-! ### All shapes -/

omit [DecidableEq δ] hs in
theorem exists_row {p : δ → Bool} (hc : Sees T o c) (ho : s.isRow p o = true) :
    ∃ t c', c.node = pure (t, c') ∧ PlainIn s T t ∧
      ∀ u ∈ c'.rest, T u ∧ u.symbol.isFormOf p = true := by
  rw [Sorting.isRow, Bool.and_eq_true] at ho
  obtain ⟨t, c', hnode, ht, hplain, hc'⟩ := hc.form (Outlook.take_eq_some.mpr ⟨ho.1, rfl⟩)
  exact ⟨t, c', hnode, ⟨ht, hplain⟩, fun u hu => ⟨hc'.inside u hu, hc'.foresees.every ho.2 u hu⟩⟩

omit [DecidableEq δ] in
theorem within (ht : T t) (hform : t.symbol.isFormOf (s.within f) = true) (d : Draft) :
    SuitsNode source d (s.yields f) (recur t) := by
  obtain ⟨g, i, j, cs, rfl, hg⟩ := exists_of_isFormOf hform
  rw [Sorting.within, Bool.and_eq_true, bne_iff_ne] at hg
  refine (hs.makes ht hg.1 d).imp fun n f hn => hn.mono fun sort hsort => ?_
  exact List.contains_iff_mem.mp (List.all_eq_true.mp hg.2 sort hsort)

variable {r : Rule δ}

/-- A shape puts the nodes of whatever the rule spells where they suit. -/
theorem suits_shaped (ht : Opened s.grammar T (.node (some f) i j cs))
    (hr : (r.erase s.grammar.terminators).productive = true)
    (hspells : Rule.Spells [r] (cs.map RawTree.symbol)) (d : Draft) :
    ∀ shape : Shape δ, s.suitsShape f r shape = true →
      SuitsNode source d (s.yields f) (shaped s.grammar recur (.node (some f) i j cs) shape) := by
  have hc : Sees T (s.openingBy r) (cursor s.grammar (.node (some f) i j cs)) :=
    ⟨Setting.foresees_openingBy hr hspells, fun _ hu => ht.child (mem_children_of_mem_cursor hu)⟩
  have hother (hplain : s.isPlain f = true) : s.yields f = [.other] := beq_iff_eq.mp hplain
  intro shape hshape
  cases shape with
  | forward =>
      rw [Sorting.suitsShape, Bool.and_eq_true] at hshape
      obtain ⟨c, rfl, hform⟩ := Setting.exists_single hshape.1 hshape.2 hspells
      have hforward : shaped s.grammar recur (.node (some f) i j [c]) .forward = recur c :=
        child_of_isFormOf hform
      rw [hforward]
      exact hs.within (ht.child (List.mem_singleton_self c)) hform d
  | identifier =>
      rw [Sorting.suitsShape, Bool.and_eq_true] at hshape
      obtain ⟨tk, rfl, hname⟩ := Setting.exists_leaf_of_fitsToken hshape.2 hspells
      have hneat := hs.name (ht.child (List.mem_singleton_self _)) hname
      rw [hother hshape.1]
      intro n d' hd hrun
      obtain ⟨r, d₁, hread, hmake⟩ := exists_of_bind hrun
      obtain ⟨hmem, rfl⟩ := mem_of_anyToken hread
      cases List.mem_singleton.mp (mem_children_of_mem_cursor hmem)
      exact suits_identifier hneat hd hmake
  | literal =>
      rw [Sorting.suitsShape, Bool.and_eq_true] at hshape
      obtain ⟨tk, rfl, hliteral⟩ := Setting.exists_leaf_of_fitsToken hshape.2 hspells
      rw [hother hshape.1]
      exact suits_literal (hs.literal (ht.child (List.mem_singleton_self _)) hliteral)
  | knownType =>
      rw [hother hshape, shaped]
      split
      · exact .throw _
      · split
        · next known _ => exact suits_make (.primitiveType known) rfl _
        · exact .throw _
  | build kind parts =>
      simp only [Sorting.suitsShape, Bool.and_eq_true] at hshape
      obtain ⟨o', ho'⟩ := Option.isSome_iff_exists.mp hshape.2
      refine (hs.suits_build ht hc ho' hshape.1.2 d).imp fun n f hn => hn.mono fun sort hsort => ?_
      rw [List.mem_singleton.mp hsort]
      exact List.contains_iff_mem.mp hshape.1.1
  | join kind operands parts =>
      simp only [Sorting.suitsShape, Bool.and_eq_true, beq_iff_eq] at hshape
      obtain ⟨o', ho'⟩ := Option.isSome_iff_exists.mp hshape.2
      rw [hother hshape.1.1.1, ← hshape.1.2]
      exact hs.suits_join ht hc ho' hshape.1.1.2 d
  | extend parts =>
      obtain ⟨o', ho'⟩ := Option.isSome_iff_exists.mp hshape
      obtain ⟨o₁, ho₁, ho'⟩ := Option.bind_eq_some_iff.mp ho'
      obtain ⟨first, c₁, hnode, hfirst, hform, hc₁⟩ := hc.form ho₁
      rw [shaped, hnode, pure_bind]
      refine (hs.within hfirst hform d).bind fun n d₁ _ hn => ?_
      exact (suits_readParts hs parts ho' ht hc₁).step.andThen fun _ _ h₂ =>
        .pure (Forest.Sorts.later hn h₂)
  | chain operator? rightward =>
      rw [Sorting.suitsShape, Bool.and_eq_true] at hshape
      rw [hother hshape.1]
      exact hs.suits_chain hshape.2 ht operator? rightward d
  | qualifiedType =>
      rw [Sorting.suitsShape, Bool.and_eq_true] at hshape
      rw [hother hshape.1]
      exact hs.suits_qualifiedType hshape.2 ht d
  | rankedType =>
      rw [Sorting.suitsShape, Bool.and_eq_true] at hshape
      obtain ⟨first, c₁, hnode, hfirst, hform, -⟩ := hc.form (Outlook.take_eq_some.mpr ⟨hshape.2, rfl⟩)
      rw [hother hshape.1, shaped, hnode, pure_bind]
      exact (hs.plain hfirst hform d).bind fun n d₁ _ hn => .read (suits_wrapType _ _ hn _)
  | suffixed =>
      rw [Sorting.suitsShape, Bool.and_eq_true] at hshape
      obtain ⟨first, c₁, hnode, hfirst, hrest⟩ := exists_row hc hshape.2
      rw [hother hshape.1, shaped, hnode, pure_bind]
      exact (hs.plain hfirst.1 hfirst.2 d).bind fun n d₁ _ hn => .read (hs.suits_applySuffixes hrest hn _)
  | comparisons operator? =>
      rw [Sorting.suitsShape, Bool.and_eq_true] at hshape
      obtain ⟨first, c₁, hnode, hfirst, hrest⟩ := exists_row hc hshape.2
      rw [hother hshape.1, shaped, hnode, pure_bind]
      exact (hs.plain hfirst.1 hfirst.2 d).bind fun n d₁ _ hn =>
        .read (hs.suits_applyComparisons operator? hrest hn _)
  | sizedArray rank bounds =>
      rw [Sorting.suitsShape, Bool.and_eq_true] at hshape
      obtain ⟨o', ho'⟩ := Option.isSome_iff_exists.mp hshape.2
      rw [hother hshape.1]
      exact hs.suits_sizedArray rank bounds hc ho' d
  | listedArray =>
      rw [Sorting.suitsShape, Bool.and_eq_true] at hshape
      obtain ⟨o', ho'⟩ := Option.isSome_iff_exists.mp hshape.2
      rw [hother hshape.1]
      exact hs.suits_listedArray hc ho' d
  | ifBlock elseIf elsePart =>
      rw [Sorting.suitsShape, Bool.and_eq_true] at hshape
      obtain ⟨o', ho'⟩ := Option.isSome_iff_exists.mp hshape.2
      rw [hother hshape.1]
      exact hs.suits_ifBlock ht hc ho' d
  | doLoop =>
      rw [Sorting.suitsShape, Bool.and_eq_true] at hshape
      obtain ⟨o', ho'⟩ := Option.isSome_iff_exists.mp hshape.2
      rw [hother hshape.1]
      exact hs.suits_doLoop hc ho' d
  | caseBlock =>
      rw [Sorting.suitsShape, Bool.and_eq_true] at hshape
      obtain ⟨o', ho'⟩ := Option.isSome_iff_exists.mp hshape.2
      rw [hother hshape.1]
      exact hs.suits_caseBlock hc ho' d
  | assignment operator? =>
      rw [Sorting.suitsShape, Bool.and_eq_true] at hshape
      obtain ⟨o', ho'⟩ := Option.isSome_iff_exists.mp hshape.2
      rw [hother hshape.1]
      exact hs.suits_assignmentStatement hc ho' operator? d
  | rankedParameter passing rank clause =>
      simp only [Sorting.suitsShape, Bool.and_eq_true] at hshape
      obtain ⟨o', ho'⟩ := Option.isSome_iff_exists.mp hshape.2
      rw [hother hshape.1.1.1]
      exact hs.suits_rankedParameter ht hc hshape.1.1.2 hshape.1.2 ho' passing d
  | refused expected => exact .throw _

end Obeys

/-! ### Whole trees -/

variable [DecidableEq δ] {fuel : Nat} {refused : RawTree δ → Bool}

/-- A definition suits if its shape puts nodes where they suit, whichever tokens its matches have. -/
def Sorting.SuitsAll (s : Sorting δ) (f : δ) : Prop :=
  ∀ r, s.grammar.rule f = some r →
    s.suitsWords f r = true ∨ ∀ tokens, s.suitsShape f r (s.grammar.shape f tokens) = true

omit [DecidableEq δ] in
/-- A tree whose names have no spaces and whose literals end with a character that can be seen. -/
def IsNeat (s : Sorting δ) (source : Source) (t : RawTree δ) : Prop :=
  ∀ tk ∈ t.tokens,
    (s.names.contains tk.kind = true → ' ' ∉ (source.language.unescape tk.text).toList) ∧
    (s.literals.contains tk.kind = true → Text.EndsSolid tk.text.toList)

omit [DecidableEq δ] in
theorem IsNeat.child (h : IsNeat s source t) {c : RawTree δ} (hc : c ∈ t.children) :
    IsNeat s source c := by
  cases t with
  | leaf => cases hc
  | node => exact fun tk htk => h tk (RawTree.tokens_subset_tokensOf hc htk)

omit [DecidableEq δ] in
/-- A setting for the trees with another property that their children have too. -/
theorem Setting.restrict {g : Survey δ} {ready U : RawTree δ → Prop}
    (hs : Setting g source e ready clean recur)
    (hU : ∀ {t c : RawTree δ}, U t → c ∈ t.children → U c) :
    Setting g source e (fun t => ready t ∧ U t) clean recur :=
  { hs with
    conforms := fun h => hs.conforms h.1
    child := fun h hc => ⟨hs.child h.1 hc, hU h.2 hc⟩
    modifier := fun h => hs.modifier h.1
    literal := fun h => hs.literal h.1
    does := fun h => hs.does h.1
    clean_of_spares := fun h => hs.clean_of_spares h.1 }

structure Sorting.Sound (s : Sorting δ) : Prop where
  lowered : ∀ {f}, s.yields f ≠ [] → s.lowered f = true
  suits : ∀ {f}, s.yields f ≠ [] → s.SuitsAll f

/-- A match of a definition that suits puts nodes where they suit. -/
theorem Obeys.suits_agreed (hs : Obeys s source e T clean recur)
    (ht : Opened s.grammar T (.node (some f) i j cs)) (hf : s.SuitsAll f) (d : Draft) :
    SuitsNode source d (s.yields f) (shaped s.grammar recur (.node (some f) i j cs)
      (s.grammar.shape f ((RawTree.node (some f) i j cs).childTokens.map (·.kind)))) := by
  cases ht.conforms with
  | @node _ _ _ _ r hrule hspells _ =>
      rcases hf r hrule with hwords | hsteady
      · rw [Sorting.suitsWords, Bool.and_eq_true, List.all_eq_true] at hwords
        have hword : cs.map RawTree.symbol ∈ r.words := by
          have hfinite : Rule.finiteAll [r] = true := by rw [Rule.finiteAll, hwords.1]; rfl
          simpa [Rule.wordsAll] using hspells.mem_words hfinite
        have hw := hwords.2 _ hword
        rw [Bool.and_eq_true] at hw
        rw [RawTree.childTokens_kinds]
        exact hs.suits_shaped ht hw.1 hspells.ofWord d _ hw.2
      · exact hs.suits_shaped ht (hs.setting.productive f r hrule) hspells d _ (hsteady _)

/-- Matches of any height become nodes of the sorts that are known of them. -/
theorem obeys_lowerUpTo (hsound : s.Sound)
    (hs : ∀ fuel, Setting s.toSurvey source e (Ready s.toSurvey source fuel) clean
      (lowerUpTo s.grammar fuel)) (fuel : Nat) :
    Obeys s source e (fun t => Ready s.toSurvey source fuel t ∧ IsNeat s source t) clean
      (lowerUpTo s.grammar fuel) := by
  induction fuel with
  | zero =>
      refine ⟨(hs 0).restrict (fun h hc => h.child hc), hsound.lowered, fun ht _ _ => ?_,
        fun ht h => (ht.2 _ (List.mem_singleton_self _)).1 h,
        fun ht h => (ht.2 _ (List.mem_singleton_self _)).2 h⟩
      have hheight := ht.1.height
      simp [RawTree.height] at hheight
  | succ fuel ih =>
      refine ⟨(hs (fuel + 1)).restrict (fun h hc => h.child hc), hsound.lowered, fun {f i j cs} ht hf d => ?_,
        fun ht h => (ht.2 _ (List.mem_singleton_self _)).1 h,
        fun ht h => (ht.2 _ (List.mem_singleton_self _)).2 h⟩
      have hopened : Opened s.grammar (fun t => Ready s.toSurvey source fuel t ∧ IsNeat s source t)
          (.node (some f) i j cs) :=
        ⟨ht.1.conforms, fun hc => ⟨ht.1.child hc, ht.2.child hc⟩⟩
      refine (ih.suits_agreed hopened (hsound.suits hf) d).bind fun n d₁ _ hn => ?_
      split
      · exact (suits_attachLeading n _).andThen fun _ _ h₂ => .pure (Forest.Sorts.later hn h₂)
      · exact .pure hn

/-- The node of a whole text is of a sort that is known of the definition of the text. -/
theorem suits_wholeText {root : δ} {inner : RawTree δ} {rest : List (RawTree δ)}
    (hs : Obeys s source e (fun t => Ready s.toSurvey source fuel t ∧ IsNeat s source t) clean
      (lowerUpTo s.grammar fuel))
    (hinner : Ready s.toSurvey source fuel inner ∧ IsNeat s source inner)
    (hroot : inner.symbol = .node (some root)) (hyields : s.yields root ≠ []) :
    SuitsNode source d (s.yields root) (lowerUpTo s.grammar (fuel + 1) (.node none i j (inner :: rest))) := by
  obtain ⟨f, i', j', cs, rfl, hf⟩ := exists_of_isFormOf (p := (· == root)) (t := inner) (by
    rw [hroot]
    exact beq_self_eq_true root)
  rw [← eq_of_beq hf] at hyields ⊢
  have hfind : (RawTree.node none i j (.node (some f) i' j' cs :: rest)).children.find?
      (·.token?.isNone) = some (.node (some f) i' j' cs) := rfl
  rw [lowerUpTo, wholeText, hfind]
  refine (hs.makes hinner hyields d).bind fun n d₁ _ hn => .inspect fun _ => ?_
  split
  · split
    · exact (suits_attachTrailing n _).andThen fun _ _ h₂ => .pure (Forest.Sorts.later hn h₂)
    · exact .pure hn
  · exact .pure hn

end DualSyntax.Lowering

/-!
## The forests of parsed texts

In both languages every definition suits, so the tree of whatever text is parsed is regular, if all of its
names show something.
-/

/-!
### Trees of whole texts

What is known of the forest that lowering makes of a parsed tree, for any grammar whose definitions suit.
-/

namespace DualSyntax.Lowering

open Forest Lower

variable {δ : Type} [DecidableEq δ] {s : Sorting δ} {source : Source} {e : LowerError}
  {clean : RawTree δ → Prop} {fuel i j : Nat} {d d' : Draft} {n : NodeId}

theorem Sorting.suitsAll {varies : δ → Bool} {f : δ}
    (hrule : ∀ r, s.grammar.rule f = some r → (if varies f then s.suitsWords f r
      else s.suitsShape f r (s.grammar.shape f [])) = true)
    (hsteady : varies f = false → ∀ r tokens,
      s.suitsShape f r (s.grammar.shape f tokens) = s.suitsShape f r (s.grammar.shape f [])) :
    s.SuitsAll f := by
  intro r hr
  have hsuits := hrule r hr
  cases hvaries : varies f with
  | true =>
      rw [hvaries, if_pos rfl] at hsuits
      exact .inl hsuits
  | false =>
      rw [hvaries, if_neg Bool.false_ne_true] at hsuits
      exact .inr fun tokens => (hsteady hvaries r tokens).trans hsuits

theorem isRoot_wholeText {root : δ} {inner : RawTree δ} {rest : List (RawTree δ)}
    (hs : Setting s.toSurvey source e (Ready s.toSurvey source fuel) clean (lowerUpTo s.grammar fuel))
    (hinner : Ready s.toSurvey source fuel inner) (hroot : inner.symbol = .node (some root))
    (hlowered : s.lowered root = true)
    (hrun : lowerUpTo s.grammar (fuel + 1) (.node none i j (inner :: rest)) source d = .ok (n, d')) :
    d'.forest.IsRoot n := by
  have hform : inner.symbol.isFormOf s.lowered = true := by rw [hroot]; exact hlowered
  obtain ⟨f, i', j', cs, rfl, -⟩ := exists_of_isFormOf hform
  have hfind : (RawTree.node none i j (.node (some f) i' j' cs :: rest)).children.find?
      (·.token?.isNone) = some (.node (some f) i' j' cs) := rfl
  rw [lowerUpTo, wholeText, hfind] at hrun
  obtain ⟨m, d₁, hmade, hfinish⟩ := exists_of_bind hrun
  have hfresh := (hs.makes hinner hform d).of_run hmade
  obtain ⟨_, _, ⟨⟩, hfinish⟩ := exists_of_bind hfinish
  dsimp only at hfinish
  split at hfinish
  · generalize (RawTree.childTokens _).getLast? = last at hfinish
    cases last with
    | some last =>
        obtain ⟨_, d₂, hcomments, ⟨⟩⟩ := exists_of_bind hfinish
        have hgrows := (Setting.steps_attachTrailing (e := e) _ hfresh.root).of_run hcomments
        exact (hfresh.then_grows hgrows).root
    | none =>
        cases hfinish
        exact hfresh.root
  · cases hfinish
    exact hfresh.root

/-- What is known of a forest that was made in order from nothing, with its root. -/
structure Built (f : Forest) (n : NodeId) (sorts : List NodeSort) : Prop where
  suited : f.Suited
  furthers : Furthers {} f
  root : f.parent n = none
  sort : (f.kind n).sort ∈ sorts

/-- The tree of a parsed text becomes a forest in order. -/
theorem built_lowered (hsound : s.Sound)
    (hs : ∀ fuel, Setting s.toSurvey source e (Ready s.toSurvey source fuel) clean
      (lowerUpTo s.grammar fuel))
    {root : δ} {tree : RawTree δ} (hparse : Packrat.parse s.grammar root source.stream = .parsed tree)
    (hroot : s.yields root ≠ [])
    (hmodifier : ∀ tk ∈ tree.tokens, s.modifiers.contains tk.kind = true →
      (source.language.modifier? tk.text).isSome = true)
    (hliteral : ∀ tk ∈ tree.tokens, s.literals.contains tk.kind = true →
      (literalValue? tk).isSome = true)
    (hneat : IsNeat s source tree)
    (hrun : lowerUpTo s.grammar tree.height tree source {} = .ok (n, d)) :
    Built d.forest n (s.yields root) := by
  obtain ⟨inner, last, rfl, hinner, hready, htokens⟩ := ready_of_parsed hparse hmodifier hliteral
  have hinnerNeat : IsNeat s source inner := fun tk htk => hneat tk (htokens htk)
  obtain ⟨hsuited, hfurthers, hsorts⟩ := suits_wholeText (obeys_lowerUpTo hsound hs _)
    ⟨hready, hinnerNeat⟩ hinner hroot .empty hrun
  exact ⟨hsuited, hfurthers,
    (isRoot_wholeText (hs _) hready hinner (hsound.lowered hroot) hrun).parent, hsorts.mem⟩

end DualSyntax.Lowering

/-!
### The grammars

Every definition of either grammar suits.
-/

namespace DualSyntax

open Forest Lower Lowering

namespace CSharp

def yields (d : Form) : List NodeSort :=
  if !lowered d then [] else
    match d with
    | .block => [.block]
    | .emptyStatement => [.empty]
    | .statement => [.block, .empty, .other]
    | .accessor => [.accessor]
    | .variableDeclarator => [.declarator]
    | .usingDirective => [.directive]
    | .compilationUnit => [.unit]
    | _ => [.other]

/-- What is known of the nodes that matches become. -/
def sorting : Sorting Form := { survey with yields, names := nameTokens }

theorem suits_shape {d : Form} (hd : varies d = false) (r : Rule Form) (tokens : List TokenKind) :
    sorting.suitsShape d r (shape d tokens) = sorting.suitsShape d r (shape d []) := by
  cases d <;> first | rfl | cases hd

theorem lowered_of_yields {d : Form} (h : yields d ≠ []) : lowered d = true := by
  by_contra hd
  rw [Bool.not_eq_true] at hd
  simp [yields, hd] at h

theorem sound : sorting.Sound where
  lowered := lowered_of_yields
  suits := by
    have hall : Form.all.all (fun d => !lowered d ||
        if varies d then sorting.suitsWords d (rule d)
        else sorting.suitsShape d (rule d) (shape d [])) = true := by
      decide +kernel
    intro d hd
    refine Sorting.suitsAll (fun r hr => ?_) suits_shape
    cases hr
    have hsuits := List.all_eq_true.mp hall d (Form.mem_all d)
    rwa [lowered_of_yields hd, Bool.not_true, Bool.false_or] at hsuits

end CSharp

namespace VisualBasic

def yields (d : Form) : List NodeSort :=
  if !lowered d then [] else
    match d with
    | .statements => [.block]
    | .accessorBlock => [.accessor]
    | .importsStatement => [.directive]
    | .compilationUnit => [.unit]
    | _ => [.other]

/-- What is known of the nodes that matches become. -/
def sorting : Sorting Form := { survey with yields, names := nameTokens }

theorem suits_shape {d : Form} (hd : varies d = false) (r : Rule Form) (tokens : List TokenKind) :
    sorting.suitsShape d r (shape d tokens) = sorting.suitsShape d r (shape d []) := by
  cases d
  case castExpression =>
    have hkind (parts : List (Part Form)) :
        sorting.suitsShape .castExpression r (.build (castKind tokens) parts) =
          sorting.suitsShape .castExpression r (.build (castKind []) parts) := by
      unfold castKind
      split <;> rfl
    exact hkind _
  all_goals first | rfl | cases hd

theorem lowered_of_yields {d : Form} (h : yields d ≠ []) : lowered d = true := by
  by_contra hd
  rw [Bool.not_eq_true] at hd
  simp [yields, hd] at h

theorem sound : sorting.Sound where
  lowered := lowered_of_yields
  suits := by
    have hall : Form.all.all (fun d => !lowered d ||
        if varies d then sorting.suitsWords d (rule d)
        else sorting.suitsShape d (rule d) (shape d [])) = true := by
      decide +kernel
    intro d hd
    refine Sorting.suitsAll (fun r hr => ?_) suits_shape
    cases hr
    have hsuits := List.all_eq_true.mp hall d (Form.mem_all d)
    rwa [lowered_of_yields hd, Bool.not_true, Bool.false_or] at hsuits

end VisualBasic

/-! #### Texts -/

/-- The forest of a text, whatever text it is. -/
theorem built_of_parse {l : Language} {fragment : Fragment} {src : List Char} {parsed : Parsed}
    (h : parse l fragment src = .ok parsed) :
    Built parsed.forest parsed.root [.unit, .accessor, .directive, .block, .empty, .other] := by
  obtain ⟨source, raw, draft, hraw, hlower, hforest, -⟩ := exists_of_parse h
  rw [hforest]
  obtain ⟨hstream, hlanguage, hparse⟩ := exists_of_parseRaw hraw
  obtain ⟨init, last, -, hlast, -⟩ := tokenize_spec hstream
  have hmeant := meant_of_parseRaw hraw
  have hwords := isWord_of_tokenize hstream
  have hliterals := tokenize_literals hstream
  rw [← Packrat.parse_tokens hlast hparse] at hwords hliterals
  have hspaceless (tk : Token) (htk : tk ∈ raw.tokens) (hkind : tk.kind ∈ l.nameTokens) :
      ' ' ∉ (source.language.unescape tk.text).toList := by
    rw [hlanguage]
    exact fun hmem => Bool.false_ne_true ((hwords tk htk hkind).2 ' ' hmem)
  cases l with
  | csharp =>
      have hneat : IsNeat CSharp.sorting source raw := by
        have hsub : CSharp.literalTokens ⊆ Lexing.literalKinds := by decide
        exact fun tk htk => ⟨fun hkind => hspaceless tk htk (List.contains_iff_mem.mp hkind), fun hkind =>
          hliterals tk htk (List.contains_iff_mem.mpr (hsub (List.contains_iff_mem.mp hkind)))⟩
      have hbuilt := built_lowered CSharp.sound (Language.csharp.setting source) hparse
        (by cases fragment <;> nofun) (fun tk htk => (hmeant tk htk).1) (fun tk htk => (hmeant tk htk).2)
        hneat hlower
      have hsub : CSharp.sorting.yields (Language.csharp.root fragment) ⊆
          [.unit, .accessor, .directive, .block, .empty, .other] := by
        cases fragment <;> decide
      exact ⟨hbuilt.suited, hbuilt.furthers, hbuilt.root, hsub hbuilt.sort⟩
  | visualBasic =>
      have hneat : IsNeat VisualBasic.sorting source raw := by
        have hsub : VisualBasic.literalTokens ⊆ Lexing.literalKinds := by decide
        exact fun tk htk => ⟨fun hkind => hspaceless tk htk (List.contains_iff_mem.mp hkind), fun hkind =>
          hliterals tk htk (List.contains_iff_mem.mpr (hsub (List.contains_iff_mem.mp hkind)))⟩
      have hbuilt := built_lowered VisualBasic.sound (Language.visualBasic.setting source) hparse
        (by cases fragment <;> nofun) (fun tk htk => (hmeant tk htk).1) (fun tk htk => (hmeant tk htk).2)
        hneat hlower
      have hsub : VisualBasic.sorting.yields (Language.visualBasic.root fragment) ⊆
          [.unit, .accessor, .directive, .block, .empty, .other] := by
        cases fragment <;> decide
      exact ⟨hbuilt.suited, hbuilt.furthers, hbuilt.root, hsub hbuilt.sort⟩

end DualSyntax
