import DualSyntax.CSharp.Writer
import DualSyntax.Proofs.Writing.LaidOut

/-!
# Layout of C#

The writer of C# lays out every node.
-/

/-!
## Layout of C#

Each writer of C# lays out what it writes of a node, and writes only nodes that may be written with it.
There is one lemma for each writer, and at last one for all kinds of nodes.
-/

namespace DualSyntax.CSharp

open Forest Writing
open Output (IsPiece)

variable {f : Forest} {style : Style} {n c : NodeId} {t : Title}

/-! ### Names, types and expressions -/

section Pieces

variable {m : (⟨.csharp, f, style⟩ : Sheet).Scope} {p : Bool}

theorem lays_name {name : String} (h : Text.IsVisible name.toList) :
    Lays m true fun _ => writeName name := by
  refine .put ?_
  split
  · rw [String.toList_append]
    exact isPiece_append h _
  · exact isPiece_append h []

theorem lays_parenthesized (h : m.may c) : Lays m true fun node => writeParenthesized node c :=
  .left (.left (.put (by decide)) (.node h)) (.put (by decide))

theorem lays_operand (h : m.may c) (least : Nat) :
    Lays m true fun node => writeOperand node c least := by
  refine .forest ?_
  split
  · exact lays_parenthesized h
  · exact .node h

/-- A sign, with a blank if it would run into the next one. -/
theorem lays_sign (op : UnaryOperator) (glued : Bool) :
    Lays m true fun _ => put (unaryText op) ++ onlyIf glued (put " ") := by
  cases glued with
  | true =>
      apply Lays.pair
      · cases op <;> decide
      · cases op <;> decide
  | false => exact .left (.put (unaryText_isPiece op)) .nothing

theorem lays_rank (rank : Nat) : Lays m true fun _ => writeRank rank :=
  .left (.left (.put (by decide)) .commas) (.put (by decide))

theorem lays_lengthOf (h : m.may c) : Lays m true fun node => writeLengthOf node c := by
  refine .forest ?_
  split
  · exact .successor
  · exact .left (lays_operand h _) (.put (by decide))

end Pieces

section Expressions

variable (hf : f.Regular) (style)

theorem lays_binary {op : BinaryOperator} (hk : f.kind n = .binaryOperatorExpression op) :
    Lays (scope .csharp hf style n) true fun node => writeBinary node n op := by
  refine .required fun left hleft => .required fun right hright => ?_
  have hleft := may_child? .csharp hf style hk rfl hleft
  have hright := may_child? .csharp hf style hk rfl hright
  split
  · exact .left (.left (.left (.left (.put (by decide)) (.node hleft)) (.put (by decide)))
      (.node hright)) (.put (by decide))
  · exact .left (.left (.left (.left (lays_operand hleft _) .space) (.put (binaryText_isPiece _)))
      .space) (lays_operand hright _)

theorem lays_unary {op : UnaryOperator} (hk : f.kind n = .unaryOperatorExpression op) :
    Lays (scope .csharp hf style n) true fun node => writeUnary node n op := by
  refine .required fun operand hoperand => ?_
  have hoperand := may_child? .csharp hf style hk rfl hoperand
  split
  · exact .left (lays_operand hoperand _) (.put (unaryText_isPiece op))
  · exact .forest (.left (lays_sign op _) (lays_operand hoperand _))

theorem lays_assignment {op : AssignmentOperator} (hk : f.kind n = .assignmentExpression op) :
    Lays (scope .csharp hf style n) true fun node => writeAssignment node n op := by
  refine .required fun left hleft => .required fun value hvalue => ?_
  have hleft := may_child? .csharp hf style hk rfl hleft
  have hvalue := may_child? .csharp hf style hk rfl hvalue
  refine .left (q := true) (.left (lays_operand hleft _) .space) ?_
  split
  · next sign hsign =>
      exact .left (.left (.put (assignmentText_isPiece hsign)) .space) (lays_operand hvalue _)
  · exact .left (.left (.left (.left (.put (by decide)) (.node hleft)) (.put (by decide)))
      (.node hvalue)) (.put (by decide))

theorem lays_cast {cast : CastStyle} (hk : f.kind n = .castExpression cast) :
    Lays (scope .csharp hf style n) true fun node => writeCast node n := by
  refine .required fun type htype => .required fun operand hoperand => .forest ?_
  exact .left (lays_parenthesized (may_child? .csharp hf style hk rfl htype))
    (lays_operand (may_child? .csharp hf style hk rfl hoperand) _)

theorem lays_arrayCreation {bounds : ArrayBounds} (hk : f.kind n = .arrayCreateExpression bounds) :
    Lays (scope .csharp hf style n) true fun node => writeArrayCreation node n bounds := by
  refine .forest (.required fun type htype => ?_)
  have htype := mem_children_of_child? htype
  have hunder : f.Under (Language.csharp.paths hf) n type := .child hf.links (hf.parent htype)
  refine .left (q := false) (.left (q := true) (.left (.put (by decide)) .space) ?_) ?_
  · split
    · next hempty =>
        exact .left (.node (may_type hk hunder htype fun _ => ⟨rfl, List.isEmpty_iff.mp hempty⟩))
          (.put (by decide))
    · next hsizes =>
        have hne : f.children n .arguments ≠ [] := fun h => hsizes (List.isEmpty_iff.mpr h)
        have harguments := may_children .csharp hf style hk (t := .arguments) rfl
        refine .bind (elementType_page _ _ _) fun r hr => ?_
        have helement : May .csharp hf n r.1 :=
          may_of_elementType hk (fun _ => hne) rfl hunder htype (.inl rfl) hr
        refine .left (.left (.left (.left (.node helement) (.put (by decide))) (.separatedBy _
          (.put (by decide)) (fun c hc => ?_) (p := false) (by simp))) (.put (by decide)))
          (.inOrder (p := true) (q := false) (fun rank _ => writeRank rank) (fun _ _ => lays_rank _) (by simp))
        cases bounds with
        | length => exact .node (harguments c hc)
        | upperBound => exact lays_lengthOf (harguments c hc)
  · split
    · exact .nothing
    · next elements helements =>
        split
        · exact .nothing
        · exact .append .space (.node (may_child? .csharp hf style hk rfl helements))

theorem lays_call {k : NodeKind} (hk : f.kind n = k) (htarget : k.shows .csharp .target = true)
    (harguments : k.shows .csharp .arguments = true) {«open» close : String}
    (hopen : IsPiece «open».toList) (hclose : IsPiece close.toList) :
    Lays (scope .csharp hf style n) true fun node => writeCall node n «open» close := by
  refine .required fun target h => ?_
  exact .left (.left (.left (lays_operand (may_child? .csharp hf style hk htarget h) _) (.put hopen))
    (.commaSeparatedAt (may_children .csharp hf style hk harguments))) (.put hclose)

theorem lays_qualified (hk : f.kind n = .memberType) :
    Lays (scope .csharp hf style n) true fun node => writeQualified node n := by
  refine .required fun target htarget => .required fun name hname => ?_
  exact .left (.left (.node (may_child? .csharp hf style hk rfl htarget)) (.put (by decide)))
    (.node (may_child? .csharp hf style hk rfl hname))

theorem lays_member {nullConditional : Bool}
    (hk : f.kind n = .memberReferenceExpression nullConditional) :
    Lays (scope .csharp hf style n) true fun node => writeMember node n nullConditional := by
  refine .required fun target htarget => .required fun name hname => ?_
  refine .left (.left (lays_operand (may_child? .csharp hf style hk rfl htarget) _) (.put ?_))
    (.node (may_child? .csharp hf style hk rfl hname))
  cases nullConditional <;> decide

theorem lays_conditional (hk : f.kind n = .conditionalExpression) :
    Lays (scope .csharp hf style n) true fun node => writeConditional node n := by
  refine .required fun condition hcondition => .required fun yes hyes => .required fun no hno => ?_
  exact .left (.left (.left (.left (lays_operand (may_child? .csharp hf style hk rfl hcondition) _)
    (.put (by decide))) (lays_operand (may_child? .csharp hf style hk rfl hyes) _))
    (.put (by decide))) (lays_operand (may_child? .csharp hf style hk rfl hno) _)

theorem lays_typeTest {k : NodeKind} (hk : f.kind n = k) (hexpression : k.shows .csharp .expression = true)
    (htype : k.shows .csharp .type = true) {word : String} (hword : IsPiece word.toList) :
    Lays (scope .csharp hf style n) true fun node => writeTypeTest node n word := by
  refine .required fun operand hoperand => .required fun type h => ?_
  exact .left (.left (.left (.left (lays_operand (may_child? .csharp hf style hk hexpression hoperand) _)
    .space) (.put hword)) .space) (.node (may_child? .csharp hf style hk htype h))

theorem lays_elements (hk : f.kind n = .arrayInitializerExpression) :
    Lays (scope .csharp hf style n) true fun node => writeElements node n := by
  refine .forest ?_
  dsimp only
  split
  · exact .put (by decide)
  · exact .left (.left (.put (by decide)) (.commaSeparated (p := false)
      (may_children .csharp hf style hk rfl) (by simp))) (.put (by decide))

theorem lays_objectCreation (hk : f.kind n = .objectCreateExpression) :
    Lays (scope .csharp hf style n) true fun node => writeObjectCreation node n := by
  refine .required fun type htype => ?_
  exact .left (.left (.left (.left (.left (.put (by decide)) .space)
    (.node (may_child? .csharp hf style hk rfl htype))) (.put (by decide)))
    (.commaSeparatedAt (may_children .csharp hf style hk rfl))) (.put (by decide))

end Expressions

/-! ### Statements -/

section Pieces

variable {m : (⟨.csharp, f, style⟩ : Sheet).Scope} {mark : NodeId → Prop} {p q : Bool}
  {w body : (NodeId → Written) → Written}

theorem exists_gap (s : Sheet) (place : BracePlace) : ∃ gap : Written,
    LaysAll s (fun _ => False) false (fun _ => gap) ∧
      openBrace place = gap ++ put "\x7b" ++ newLine ++ step .indent := by
  cases place with
  | endOfLine => exact ⟨space, .space, rfl⟩
  | nextLine => exact ⟨newLine, .newLine, rfl⟩

theorem laysAll_braced (h : LaysAll ⟨.csharp, f, style⟩ mark p body) (place : BracePlace) :
    LaysAll ⟨.csharp, f, style⟩ mark true fun node =>
      openBrace place ++ body node ++ trailingTrivia n ++ closeBrace := by
  obtain ⟨gap, hgap, hplace⟩ := exists_gap ⟨.csharp, f, style⟩ place
  have heq : ∀ node, openBrace place ++ body node ++ trailingTrivia n ++ closeBrace =
      gap ++ put "\x7b" ++ newLine ++ indented (body node ++ trailingTrivia n) ++ put "\x7d" := by
    intro node
    simp only [hplace, closeBrace, indented, written_append_assoc]
  have hinner := (h.before (.trivia (n := n) (t := .trailingTrivia))).indented
  have hbrace : IsPiece "\x7b".toList := by decide
  have hbrace' : IsPiece "\x7d".toList := by decide
  have hopen := (hgap.after (.put hbrace)).after .newLine
  have hall := (hopen.after hinner).before (.put hbrace')
  simp only [heq]
  rwa [Bool.or_true] at hall

theorem lays_braced (hw : Lays m p w) (hbody : Lays m q body) (place : BracePlace) :
    Lays m true fun node =>
      w node ++ openBrace place ++ body node ++ trailingTrivia n ++ closeBrace := by
  obtain ⟨mark, hmay, hlays⟩ := hbody
  have hbraced : Lays m true fun node =>
      openBrace place ++ body node ++ trailingTrivia n ++ closeBrace :=
    ⟨mark, hmay, laysAll_braced hlays place⟩
  have hall := hw.right hbraced
  simpa only [← written_append_assoc] using hall

theorem lays_endStatement : Lays m false fun _ => endStatement :=
  .of_none (.inHeader (.of_steps (fun _ _ => rfl) (fun _ => .nothing) (by simp))
    (.weaken (.put (by decide))))

theorem lays_continuation (c : NodeId) : Lays m false fun _ => continuation c := by
  refine .read (fun _ _ => rfl) ?_
  split
  · exact .space
  · exact .newLine

theorem lays_embedded (h : m.may c) : Lays m true fun node => writeEmbedded node c := by
  refine .forest ?_
  split
  · exact .node h
  · exact .right .newLine (.indented (.right .trivia (.node h)))

theorem lays_head {word : String} (hword : IsPiece word.toList) (hw : Lays m p w) :
    Lays m true fun node => writeHead word (w node) :=
  .left (.left (.left (.put hword) (.put (by decide))) hw) (.put (by decide))

theorem lays_loopCondition {condition : Option NodeId} {isUntil : Bool}
    (h : ∀ c ∈ condition, m.may c) :
    Lays m true fun node => writeLoopCondition node condition isUntil := by
  cases condition with
  | none => exact .put (by decide)
  | some c =>
      have hc := h c rfl
      unfold writeLoopCondition
      dsimp only
      split
      · exact .left (.put (by decide)) (lays_operand hc _)
      · exact .node hc

end Pieces

section Statements

variable (hf : f.Regular) (style)

include hf in
theorem laysAll_block {b : NodeId} (hb : f.kind b = .blockStatement) (place : BracePlace) :
    LaysAll ⟨.csharp, f, style⟩ (· = b) true fun node => writeBlock node b place := by
  have hprints : ∀ c ∈ f.children b .statements, Sheet.Prints ⟨.csharp, f, style⟩ c := fun c hc =>
    NodeKind.prints_of_shown (hf.suits hc) rfl
  refine .bind (a := f) (fun _ => rfl) (.marked (laysAll_braced (.onLines hprints) place) ?_)
  exact fun holds hknows c => (hknows.block rfl b hb c).symm

theorem lays_block {k : NodeKind} (hk : f.kind n = k) (hshows : k.shows .csharp t = true)
    (ht : t.holdsBlocks = true) {b : NodeId} (hb : f.child? n t = some b) (place : BracePlace) :
    Lays (scope .csharp hf style n) true fun node => writeBlock node b place :=
  .of_one (laysAll_block style hf (NodeKind.block_of_suits (hf.suits (mem_children_of_child? hb)) ht) place)
    (may_child? .csharp hf style hk hshows hb)

theorem lays_statementBlock {k : NodeKind} (hk : f.kind n = k) (hshows : k.shows .csharp t = true)
    (ht : t.holdsBlocks = true) {b : NodeId} (hb : f.child? n t = some b) :
    Lays (scope .csharp hf style n) true fun node => writeStatementBlock node b :=
  .read (fun _ _ => rfl) (lays_block style hf hk hshows ht hb _)

theorem lays_if (hk : f.kind n = .ifElseStatement) :
    Lays (scope .csharp hf style n) true fun node => writeIf node n := by
  refine .forest (.required fun condition hcondition => .required fun yes hyes => ?_)
  have hcondition := may_child? .csharp hf style hk rfl hcondition
  have hyes := may_child? .csharp hf style hk rfl hyes
  refine .left (q := false) (.left (lays_head (by decide) (.node hcondition)) (lays_embedded hyes)) ?_
  split
  · exact .nothing
  · next no hno =>
      have hno := may_child? .csharp hf style hk rfl hno
      refine .append (q := true) (.append (lays_continuation yes) (.put (by decide))) ?_
      split
      · exact .right .space (.node hno)
      · exact lays_embedded hno

theorem lays_while (hk : f.kind n = .whileStatement) :
    Lays (scope .csharp hf style n) true fun node => writeWhile node n := by
  refine .required fun condition hcondition => .required fun body hbody => ?_
  exact .left (lays_head (by decide) (.node (may_child? .csharp hf style hk rfl hcondition)))
    (lays_embedded (may_child? .csharp hf style hk rfl hbody))

theorem lays_doLoop {test : LoopTest} {isUntil : Bool}
    (hk : f.kind n = .doLoopStatement test isUntil) :
    Lays (scope .csharp hf style n) true fun node => writeDoLoop node n test isUntil := by
  refine .required fun body hbody => .forest ?_
  have hbody := lays_embedded (may_child? .csharp hf style hk rfl hbody)
  have hcondition : Lays (scope .csharp hf style n) true fun node =>
      writeLoopCondition node (f.child? n .condition) isUntil :=
    lays_loopCondition fun c hc => may_child? .csharp hf style hk rfl hc
  have hwhile : Lays (scope .csharp hf style n) true fun node =>
      writeHead "while" (writeLoopCondition node (f.child? n .condition) isUntil) ++
        writeEmbedded node body :=
    .left (lays_head (by decide) hcondition) hbody
  cases test with
  | post =>
      exact .left (.left (.left (.left (.left (.left (.put (by decide)) hbody)
        (lays_continuation body)) (.put (by decide))) (.put (by decide))) hcondition)
        (.put (by decide))
  | pre => exact hwhile
  | none => exact hwhile

theorem lays_for (hk : f.kind n = .forStatement) :
    Lays (scope .csharp hf style n) true fun node => writeFor node n := by
  refine .forest (.required fun body hbody => ?_)
  have hbody := may_child? .csharp hf style hk rfl hbody
  refine .left (lays_head (p := true) (by decide) (.header ?_)) (lays_embedded hbody)
  refine .left (q := false) (.left (.left (q := false) (.right (p := false) ?_ (.put (by decide))) ?_)
    (.put (by decide))) ?_
  · exact .commaSeparatedAt (may_children .csharp hf style hk rfl)
  · exact .ifChild .space fun _ hc => may_child? .csharp hf style hk rfl hc
  · exact .onlyIf fun _ => .append .space
      (.commaSeparated (p := false) (may_children .csharp hf style hk rfl) (by simp))

theorem lays_foreach (hk : f.kind n = .foreachStatement) :
    Lays (scope .csharp hf style n) true fun node => writeForeach node n := by
  refine .required fun name hname => .required fun collection hcollection =>
    .required fun body hbody => ?_
  have hname := may_child? .csharp hf style hk rfl hname
  have hcollection := may_child? .csharp hf style hk rfl hcollection
  have htype : Lays (scope .csharp hf style n) true fun node => childOr node n .type "var" :=
    .childOr (by decide) fun c hc => may_child? .csharp hf style hk rfl hc
  refine .left (lays_head (p := true) (by decide) ?_)
    (lays_embedded (may_child? .csharp hf style hk rfl hbody))
  exact .left (.left (.spaced (.left (.left htype .space) (.node hname)) (by decide) (by decide))
    .space) (.node hcollection)

/-- The amount of a negative step is written with its loop. -/
theorem may_amount (hk : f.kind n = .forNextStatement) {step amount : NodeId}
    (hstep : step ∈ f.children n .step) (hminus : f.kind step = .unaryOperatorExpression .minus)
    (hamount : amount ∈ f.children step .expression) : May .csharp hf n amount := by
  have hunder : f.Under (Language.csharp.paths hf) n amount :=
    (Forest.Under.child hf.links (hf.parent hstep)).step (.minus hminus hstep) (hf.parent hamount)
  refine .under hunder hamount rfl (fun hthrough => ?_) fun haside => ?_
  · cases hthrough with
    | minus _ hmem => cases (hf.unique hamount hmem).2
    | ranks _ hranks =>
        obtain ⟨-, -, z, hz, -⟩ := hranks
        cases (hf.unique hamount hz).2
  · rw [Language.paths_aside] at haside
    have hkind := (Language.putsAside_csharp.mp haside).1
    rw [hk] at hkind
    cases hkind

theorem may_step (hk : f.kind n = .forNextStatement) {step : NodeId} (hstep : step ∈ f.children n .step)
    (hminus : f.kind step ≠ .unaryOperatorExpression .minus) : May .csharp hf n step := by
  refine .under (.child hf.links (hf.parent hstep)) hstep rfl (fun hthrough => ?_) fun haside => ?_
  · cases hthrough with
    | minus hkind => exact hminus hkind
    | ranks _ hranks =>
        obtain ⟨-, -, z, hz, -⟩ := hranks
        cases (hf.unique hstep hz).2
  · rw [Language.paths_aside] at haside
    have hkind := (Language.putsAside_csharp.mp haside).1
    rw [hk] at hkind
    cases hkind

theorem lays_forNext (hk : f.kind n = .forNextStatement) :
    Lays (scope .csharp hf style n) true fun node => writeForNext node n := by
  refine .forest (.required fun name hname => .required fun start hstart =>
    .required fun limit hlimit => .required fun body hbody => ?_)
  have hname := may_child? .csharp hf style hk rfl hname
  have hstart := may_child? .csharp hf style hk rfl hstart
  have hlimit := may_child? .csharp hf style hk rfl hlimit
  have hbody := may_child? .csharp hf style hk rfl hbody
  have hloop {compare : String} (hcompare : IsPiece compare.toList) {p : Bool}
      {type step : (NodeId → Written) → Written} (htype : Lays (scope .csharp hf style n) p type)
      (hstep : Lays (scope .csharp hf style n) true step) :
      Lays (scope .csharp hf style n) true fun node =>
        writeHead "for" (type node ++ node name ++ put " = " ++ node start ++ put "; " ++ node name ++
          put compare ++ writeOperand node limit (relationalLevel + 1) ++ put "; " ++ node name ++
          step node) ++ writeEmbedded node body := by
    have hleft := Lays.left (.right htype (.node hname)) (.word " = " (by decide))
    have hright := Lays.left (.left (.left hleft (.node hstart)) (.word "; " (by decide)))
      (.node hname)
    have hbounds := Lays.left (.left hright (.put hcompare)) (lays_operand hlimit (relationalLevel + 1))
    have hall := Lays.left (.left (.left hbounds (.word "; " (by decide))) (.node hname)) hstep
    exact .left (lays_head (by decide) hall) (lays_embedded hbody)
  have htype (type : NodeId) (h : f.child? n .type = some type) :
      Lays (scope .csharp hf style n) false fun node => node type ++ space :=
    .append (.node (may_child? .csharp hf style hk rfl h)) .space
  dsimp only
  cases hstep : f.child? n .step with
  | none =>
      refine hloop (p := false) (by decide) ?_ (.put (by decide))
      split
      · next type h => exact htype type h
      · exact .nothing
  | some step =>
      have hstep := mem_children_of_child? hstep
      dsimp only
      split
      · next hminus =>
          simp only [pure_bind]
          refine .required fun amount hamount => ?_
          have hamount := may_amount hf hk hstep hminus (mem_children_of_child? hamount)
          refine hloop (p := false) (by decide) ?_ (.left (.put (by decide)) (lays_operand hamount _))
          split
          · next type h => exact htype type h
          · exact .nothing
      · next hminus =>
          have hstep := may_step hf hk hstep hminus
          refine hloop (p := false) (by decide) ?_ (.left (.put (by decide)) (lays_operand hstep _))
          split
          · next type h => exact htype type h
          · exact .nothing

theorem lays_keyword {k : NodeKind} (hk : f.kind n = k) (hshows : k.shows .csharp .expression = true)
    {word : String} (hword : IsPiece word.toList) :
    Lays (scope .csharp hf style n) true fun node => writeKeywordStatement node n word :=
  .left (.left (.put hword) (.ifChild .space fun _ hc => may_child? .csharp hf style hk hshows hc))
    lays_endStatement

theorem lays_exit {exit : ExitKind} : Lays (scope .csharp hf style n) true fun _ => writeExit n exit := by
  refine .forest ?_
  split
  · next word hword =>
      refine .left (.put ?_) lays_endStatement
      unfold exitWord? at hword
      split at hword <;> cases hword <;> decide
  · exact .unsupported n

theorem lays_clauses (hk : f.kind n = .tryCatchStatement) {clauses : List NodeId} (previous : NodeId)
    (h : ∀ c ∈ clauses, (scope .csharp hf style n).may c) :
    Lays (scope .csharp hf style n) false fun node =>
      writeClauses node f (f.child? n .finallyBlock) previous clauses := by
  induction clauses generalizing previous with
  | nil =>
      unfold writeClauses
      split
      · exact .nothing
      · next block hblock =>
          exact .append (.append (lays_continuation previous) (.put (by decide)))
            (lays_statementBlock style hf hk rfl rfl hblock)
  | cons clause clauses ih =>
      rw [List.forall_mem_cons] at h
      exact .append (.append (lays_continuation previous) (.node h.1)) (ih _ h.2)

theorem lays_try (hk : f.kind n = .tryCatchStatement) :
    Lays (scope .csharp hf style n) true fun node => writeTry node n := by
  refine .forest (.required fun block hblock => ?_)
  exact .left (.left (.put (by decide)) (lays_statementBlock style hf hk rfl rfl hblock))
    (lays_clauses style hf hk block (may_children .csharp hf style hk rfl))

theorem lays_catch (hk : f.kind n = .catchClause) :
    Lays (scope .csharp hf style n) true fun node => writeCatch node n := by
  refine .required fun body hbody => .forest ?_
  refine .left (.left (q := false) (.put (by decide)) ?_) (lays_statementBlock style hf hk rfl rfl hbody)
  split
  · exact .nothing
  · next type htype =>
      refine .append (.append (.append (.put (by decide)) (.node ?_)) (.ifChild .space fun c hc => ?_))
        (.put (by decide))
      · exact may_child? .csharp hf style hk rfl htype
      · exact may_child? .csharp hf style hk rfl hc

theorem lays_switch (hk : f.kind n = .switchStatement) :
    Lays (scope .csharp hf style n) true fun node => writeSwitch node n := by
  refine .read (fun _ _ => rfl) (.required fun expression hexpression => ?_)
  have hexpression := may_child? .csharp hf style hk rfl hexpression
  have hsections := may_children .csharp hf style hk (t := .switchSections) rfl
  refine lays_braced (lays_head (by decide) (.node hexpression)) (q := false) ?_ _
  exact .inOrder (p := true) (fun c node => leadingTrivia c ++ node c)
    (fun c hc => .right .trivia (.node (hsections c hc))) (by simp)

theorem lays_section (hk : f.kind n = .switchSection) :
    Lays (scope .csharp hf style n) true fun node => writeSection node n := by
  refine .forest ?_
  have hlabels := may_children .csharp hf style hk (t := .caseLabels) rfl
  have hstatements := may_children .csharp hf style hk (t := .statements) rfl
  refine .right (p := false) (.inOrder (p := true) (fun c node => node c ++ newLine)
    (fun c hc => .left (.node (hlabels c hc)) .newLine) (by simp)) (.indented ?_)
  by_cases hne : f.children n .statements = []
  · rw [hne]
    exact .right (p := false) .nothing (.left (.left (.put (by decide)) (.put (by decide))) .newLine)
  · refine .left (.onLines hstatements fun _ => hne) (q := false) (.onlyIf (p := true) fun _ => ?_)
    exact .left (.left (.put (by decide)) (.put (by decide))) .newLine

theorem lays_caseLabel (hk : f.kind n = .caseLabel) :
    Lays (scope .csharp hf style n) true fun node => writeCaseLabel node n := by
  refine .forest (.right (p := true) ?_ (.put (by decide)))
  split
  · next e he =>
      exact .left (.left (.put (by decide)) .space) (.node (may_child? .csharp hf style hk rfl he))
  · exact .put (by decide)

theorem lays_headerStatement {k : NodeKind} (hk : f.kind n = k) (hshows : k.shows .csharp t = true)
    (hbody : k.shows .csharp .embeddedStatement = true) {word : String} (hword : IsPiece word.toList) :
    Lays (scope .csharp hf style n) true fun node => writeHeaderStatement node n word t := by
  refine .required fun head hhead => .required fun body h => ?_
  exact .left (lays_head hword (.header (.node (may_child? .csharp hf style hk hshows hhead))))
    (lays_embedded (may_child? .csharp hf style hk hbody h))

theorem lays_fixed (hk : f.kind n = .fixedStatement) :
    Lays (scope .csharp hf style n) true fun node => writeFixed node n := by
  refine .required fun type htype => .required fun body hbody => ?_
  refine .left (lays_head (p := true) (by decide) ?_)
    (lays_embedded (may_child? .csharp hf style hk rfl hbody))
  exact .left (.left (.node (may_child? .csharp hf style hk rfl htype)) .space)
    (.commaSeparatedAt (may_children .csharp hf style hk rfl))

theorem lays_expressionStatement (hk : f.kind n = .expressionStatement) :
    Lays (scope .csharp hf style n) true fun node => writeExpressionStatement node n := by
  refine .required fun expression h => ?_
  exact .left (.node (may_child? .csharp hf style hk rfl h)) lays_endStatement

end Statements

end DualSyntax.CSharp

/-!
## Layout of declarations and of all nodes in C#

Declarations are written with the nodes below them.  Only the type of a variable of its own stands in
front of the variable, where its declaration is.
-/

namespace DualSyntax.CSharp

open Forest Writing
open Output (IsPiece)

variable {f : Forest} {style : Style} {n c : NodeId} {t : Title}

section DeclaredTypes

theorem mem_of_shared {type : NodeId} {isField : Bool} (h : declaredType f n isField = .shared type) :
    type ∈ f.children n .type ∨ ∃ v ∈ f.children n .declarators, type ∈ f.children v .type := by
  unfold declaredType at h
  split at h
  · next _ htype =>
      cases h
      exact .inl (mem_children_of_child? htype)
  · dsimp only at h
    split at h
    · cases h
    · split at h
      · next _ first rest htypes =>
          split at h
          · cases h
            cases hdeclared : f.children n .declarators with
            | nil =>
                rw [hdeclared] at htypes
                cases htypes
            | cons v vs =>
                rw [hdeclared] at htypes
                exact .inr ⟨v, List.mem_cons_self, mem_children_of_child? (List.cons.inj htypes).1⟩
          · cases h
      · cases h

theorem isPiece_of_word {word : String} {isField : Bool} (h : declaredType f n isField = .word word) :
    IsPiece word.toList := by
  unfold declaredType at h
  split at h
  · cases h
  · dsimp only at h
    split at h
    · cases h
      split <;> decide
    · split at h
      · split at h <;> cases h
      · cases h

end DeclaredTypes

section Declarations

variable (hf : f.Regular) (style)

theorem may_variableType (hk : (f.kind n).declaresVariables = true) {v : NodeId}
    (hv : v ∈ f.children n .declarators) (hc : c ∈ f.children v .type) : May .csharp hf n c := by
  have hkind : f.kind v = .variableDeclarator := NodeKind.variable_of_suits (hf.suits hv)
  have hnot {k : NodeKind} (hkn : f.kind n = k) (hk' : k.declaresVariables = false) : False := by
    rw [hkn, hk'] at hk
    cases hk
  refine ⟨NodeKind.prints_of_shown (hf.suits hc) rfl, .inl ⟨⟨?_, .inr fun y hy => ?_, ?_, ?_⟩, ?_⟩⟩
  · exact .head (hf.parent hc) (.single (hf.parent hv))
  · rcases between_of_parent (hf.parent hc) hy with rfl | hy
    · exact Language.putsAside_csharp.mpr ⟨hkind, hc⟩
    · exact (not_between_of_parent hf.links (hf.parent hv) hy).elim
  · intro hthrough
    cases hthrough with
    | minus _ hmem => cases (hf.unique hc hmem).2
    | ranks _ hranks =>
        obtain ⟨⟨_, hn⟩, -⟩ := hranks
        exact hnot hn rfl
  · intro haside
    rw [Language.paths_aside] at haside
    exact hnot (Language.putsAside_csharp.mp haside).1 rfl
  · intro role hrole
    have hsuits := hf.suits hc
    rw [hrole] at hsuits
    cases hsuits

theorem lays_modifiers : Lays (scope .csharp hf style n) false fun node => writeModifiers node n := by
  have hmodifiers := may_children .csharp hf style (n := n) rfl (NodeKind.shows_modifiers _)
  refine .forest (.append (p := false) ?_ (.onlyIf (p := true) fun _ => .left (.put (by decide)) .space))
  refine .inOrder (p := true) (fun c node => node c ++ space) (fun c hc => ?_) (by simp)
  exact .left (.node (hmodifiers c (List.mem_of_mem_filter hc))) .space

theorem lays_declaration {k : NodeKind} (hk : f.kind n = k) (hdeclares : k.declaresVariables = true)
    (htype : k.shows .csharp .type = true) (hdeclarators : k.shows .csharp .declarators = true)
    (isField : Bool) :
    Lays (scope .csharp hf style n) true fun node => writeDeclaration node n isField := by
  subst hk
  have hdeclared := may_children .csharp hf style rfl hdeclarators
  have hmodifiers := lays_modifiers style hf (n := n)
  refine .forest ?_
  dsimp only
  split
  · next type hshared =>
      have hmay : May .csharp hf n type := by
        rcases mem_of_shared hshared with hmem | ⟨v, hv, hmem⟩
        · exact .child hmem htype
        · exact may_variableType hf hdeclares hv hmem
      exact .left (.left (.left (.right hmodifiers (.node hmay)) .space)
        (.commaSeparated (p := false) hdeclared (by simp))) lays_endStatement
  · next word hword =>
      exact .left (.left (.left (.right hmodifiers (.put (isPiece_of_word hword))) .space)
        (.commaSeparated (p := false) hdeclared (by simp))) lays_endStatement
  · refine .unlessInHeader n ?_
    refine .separatedBy _ .newLine (fun v hv => ?_) fun _ => hf.declares hdeclares
    refine .left (.right (p := false) (.append (p := false) (.append (q := true) hmodifiers ?_) .space)
      (.node (hdeclared v hv))) lays_endStatement
    split
    · next type h => exact .node (may_variableType hf hdeclares hv (mem_children_of_child? h))
    · refine .put ?_
      split <;> decide

theorem lays_declarator (hk : f.kind n = .variableDeclarator) :
    Lays (scope .csharp hf style n) true fun node => writeDeclarator node n := by
  refine .required fun name hname => .forest ?_
  refine .left (q := false) (.node (may_child? .csharp hf style hk rfl hname)) ?_
  split
  · next value hvalue =>
      exact .append (.put (by decide)) (lays_operand (may_child? .csharp hf style hk rfl hvalue) _)
  · exact .nothing

omit hf in
theorem lays_enumMembers {m : (⟨.csharp, f, style⟩ : Sheet).Scope} {ms : List NodeId}
    (h : ∀ c ∈ ms, m.may c) : Lays m false fun node => writeEnumMembers node ms := by
  induction ms with
  | nil => exact .nothing
  | cons c ms ih =>
      rw [List.forall_mem_cons] at h
      cases ms with
      | nil => exact .append (.right .trivia (.node h.1)) .newLine
      | cons d ms =>
          exact .append (.left (.left (.right .trivia (.node h.1)) (.put (by decide))) .newLine) (ih h.2)

theorem lays_typeDeclaration {variant : TypeVariant} (hk : f.kind n = .typeDeclaration variant) :
    Lays (scope .csharp hf style n) true fun node => writeTypeDeclaration node n variant := by
  refine .read (fun _ _ => rfl) (.required fun name hname => ?_)
  have hname := may_child? .csharp hf style hk rfl hname
  have hbases := may_children .csharp hf style hk (t := .baseTypes) rfl
  have hmembers := may_children .csharp hf style hk (t := .members) rfl
  dsimp only
  refine lays_braced (p := true) (q := false) (.left (.left (.left (.right (lays_modifiers style hf) ?_)
    .space) (.node hname)) (.onlyIf (p := true) fun _ => ?_)) ?_ _
  · cases variant
    case moduleType =>
      exact .right (.onlyIf (p := true) fun _ => .left (.put (by decide)) .space) (.put (by decide))
    all_goals exact .put (by decide)
  · exact .left (.put (by decide)) (.commaSeparated (p := false) hbases (by simp))
  · split
    · exact lays_enumMembers style hmembers
    · exact .onLines hmembers (by simp)

theorem lays_parameters {k : NodeKind} (hk : f.kind n = k) (hshows : k.shows .csharp .parameters = true) :
    Lays (scope .csharp hf style n) true fun node => writeParameters node n :=
  .left (.left (.put (by decide)) (.commaSeparatedAt (may_children .csharp hf style hk hshows)))
    (.put (by decide))

theorem lays_body {k : NodeKind} (hk : f.kind n = k) (hshows : k.shows .csharp .body = true)
    (place : BracePlace) :
    Lays (scope .csharp hf style n) true fun node => writeBody node n place := by
  refine .forest ?_
  split
  · next body hbody => exact lays_block style hf hk hshows rfl hbody place
  · exact .put (by decide)

theorem lays_method (hk : f.kind n = .methodDeclaration) :
    Lays (scope .csharp hf style n) true fun node => writeMethod node n := by
  refine .required fun name hname => .read (fun _ _ => rfl) ?_
  have htype : Lays (scope .csharp hf style n) true fun node => childOr node n .type "void" :=
    .childOr (by decide) fun _ hc => may_child? .csharp hf style hk rfl hc
  exact .left (.left (.left (.left (.right (lays_modifiers style hf) htype) .space)
    (.node (may_child? .csharp hf style hk rfl hname))) (lays_parameters style hf hk rfl))
    (lays_body style hf hk rfl _)

theorem lays_constructor (hk : f.kind n = .constructorDeclaration) :
    Lays (scope .csharp hf style n) true fun node => writeConstructor node n := by
  refine .read (fun _ _ => rfl) ?_
  refine .left (.left (.left (.right (lays_modifiers style hf) ?_)
    (lays_parameters style hf hk rfl)) (.ifChild .space fun _ hc => ?_)) (q := true)
    (.required fun body hbody => ?_)
  · split
    · next name hname => exact .node (may_child? .csharp hf style hk rfl hname)
    · split
      · next owner howner =>
          obtain ⟨p, -, hp⟩ := Option.bind_eq_some_iff.mp howner
          exact lays_name (hf.nameOf? hp)
      · exact .unsupported n
  · exact may_child? .csharp hf style hk rfl hc
  · exact lays_block style hf hk rfl rfl hbody _

theorem lays_property (hk : f.kind n = .propertyDeclaration) :
    Lays (scope .csharp hf style n) true fun node => writeProperty node n := by
  refine .read (fun _ _ => rfl) (.required fun name hname => ?_)
  have haccessors : ∀ c ∈ [Title.getter, Title.setter].filterMap fun t => f.child? n t,
      (scope .csharp hf style n).may c := by
    intro c hc
    obtain ⟨t, ht, hc⟩ := List.mem_filterMap.mp hc
    rcases List.mem_pair.mp ht with rfl | rfl
    · exact may_child? .csharp hf style hk rfl hc
    · exact may_child? .csharp hf style hk rfl hc
  have htype : Lays (scope .csharp hf style n) true fun node => childOr node n .type "object" :=
    .childOr (by decide) fun _ hc => may_child? .csharp hf style hk rfl hc
  have hhead : Lays (scope .csharp hf style n) true fun node =>
      writeModifiers node n ++ childOr node n .type "object" ++ space ++ node name :=
    .left (.left (.right (lays_modifiers style hf) htype) .space)
      (.node (may_child? .csharp hf style hk rfl hname))
  dsimp only
  split
  · refine .left hhead (.left (.left (.put (by decide)) (q := false) ?_) (.put (by decide)))
    exact .inOrder (p := true) (fun c node => space ++ node c)
      (fun c hc => .right .space (.node (haccessors c hc))) (by simp)
  · have hall := lays_braced (n := n) hhead (.onLines haccessors (p := false) (by simp))
      style.propertyBrace
    simp only [written_append_assoc] at hall ⊢
    exact hall

theorem lays_accessor {role : AccessorKind} (hk : f.kind n = .accessor role) :
    Lays (scope .csharp hf style n) true fun node => writeAccessor node n role := by
  refine .read (fun _ _ => rfl) (.left (.right (lays_modifiers style hf) ?_) (lays_body style hf hk rfl _))
  cases role <;> exact .put (by decide)

theorem lays_parameter {passing : ParameterModifier} (hk : f.kind n = .parameterDeclaration passing) :
    Lays (scope .csharp hf style n) true fun node => writeParameter node n passing := by
  refine .required fun name hname => ?_
  have htype : Lays (scope .csharp hf style n) true fun node => childOr node n .type "object" :=
    .childOr (by decide) fun _ hc => may_child? .csharp hf style hk rfl hc
  refine .left (.left (.left (.right (p := false) ?_ htype) .space)
    (.node (may_child? .csharp hf style hk rfl hname))) (.ifChild (.put (by decide)) fun _ hc =>
      may_child? .csharp hf style hk rfl hc)
  cases passing with
  | none => exact .nothing
  | ref => exact .weaken (.put (by decide))
  | out => exact .weaken (.put (by decide))
  | params => exact .weaken (.put (by decide))

theorem lays_enumMember (hk : f.kind n = .enumMemberDeclaration) :
    Lays (scope .csharp hf style n) true fun node => writeEnumMember node n := by
  refine .required fun name hname => ?_
  exact .left (.node (may_child? .csharp hf style hk rfl hname)) (.ifChild (.put (by decide)) fun _ hc =>
    may_child? .csharp hf style hk rfl hc)

theorem lays_event (hk : f.kind n = .eventDeclaration) :
    Lays (scope .csharp hf style n) true fun node => writeEvent node n := by
  refine .required fun type htype => .required fun name hname => ?_
  exact .left (.left (.left (.left (.left (.right (lays_modifiers style hf) (.put (by decide))) .space)
    (.node (may_child? .csharp hf style hk rfl htype))) .space)
    (.node (may_child? .csharp hf style hk rfl hname))) (.put (by decide))

theorem lays_namespace (hk : f.kind n = .namespaceDeclaration) :
    Lays (scope .csharp hf style n) true fun node => writeNamespace node n := by
  refine .read (fun _ _ => rfl) (.required fun name hname => ?_)
  have hmembers := may_children .csharp hf style hk (t := .members) rfl
  exact lays_braced (.left (.left (.put (by decide)) .space)
    (.node (may_child? .csharp hf style hk rfl hname))) (.onLines hmembers (p := false) (by simp)) _

theorem lays_chain {chain : ChainKind} (hk : f.kind n = .constructorInitializer chain) :
    Lays (scope .csharp hf style n) true fun node => writeChain node n chain := by
  refine .left (.left (.left (.left (.put (by decide)) (q := true) ?_) (.put (by decide)))
    (.commaSeparatedAt (may_children .csharp hf style hk rfl))) (.put (by decide))
  cases chain <;> exact .put (by decide)

end Declarations

/-! ### All nodes -/

variable (hf : f.Regular) (style)

theorem lays_only {k : NodeKind} (hk : f.kind n = k) (hshows : k.shows .csharp t = true) :
    Lays (scope .csharp hf style n) true fun node => (do node (← required n t) : Written) :=
  .required fun _ hc => .node (may_child? .csharp hf style hk hshows hc)

/-- Every node but a block lays out what is written of it, of nodes that may be written with it. -/
theorem lays_kind (hprints : (f.kind n).printsIn .csharp = true ∨ f.kind n = .compilationUnit)
    (hblock : f.kind n ≠ .blockStatement) :
    Lays (scope .csharp hf style n) ((f.kind n).printsIn .csharp) fun node => writeKind node n := by
  refine .forest ?_
  dsimp only
  cases hk : f.kind n with
  | token _ _ | comment _ _ | blankLine =>
      rw [hk] at hprints
      rcases hprints with h | h <;> cases h
  | identifier name => exact lays_name (hf.name hk)
  | modifier =>
      dsimp only
      split
      · next word hword => exact .put (modifierText_isPiece hword)
      · exact .unsupported n
  | primitiveType type => exact .put (csharpWord_isPiece type)
  | simpleType | identifierExpression => exact lays_only style hf hk rfl
  | memberType => exact lays_qualified style hf hk
  | arrayType rank =>
      refine .required fun type htype => ?_
      exact .left (.node (may_child? .csharp hf style hk rfl htype)) (lays_rank rank)
  | pointerType =>
      refine .required fun type htype => ?_
      exact .left (.node (may_child? .csharp hf style hk rfl htype)) (.put (by decide))
  | primitiveExpression literal => exact .put (hf.literal_isPiece hk literalText_solid)
  | memberReferenceExpression nullConditional => exact lays_member style hf hk
  | invocationExpression => exact lays_call style hf hk rfl rfl (by decide) (by decide)
  | indexerExpression => exact lays_call style hf hk rfl rfl (by decide) (by decide)
  | binaryOperatorExpression op => exact lays_binary style hf hk
  | unaryOperatorExpression op => exact lays_unary style hf hk
  | assignmentExpression op => exact lays_assignment style hf hk
  | parenthesizedExpression =>
      refine .required fun inner hinner => ?_
      exact lays_parenthesized (may_child? .csharp hf style hk rfl hinner)
  | conditionalExpression => exact lays_conditional style hf hk
  | castExpression => exact lays_cast style hf hk
  | asExpression => exact lays_typeTest style hf hk rfl rfl (by decide)
  | typeTestExpression => exact lays_typeTest style hf hk rfl rfl (by decide)
  | typeOfExpression =>
      refine .required fun type htype => ?_
      exact .left (.put (by decide)) (lays_parenthesized (may_child? .csharp hf style hk rfl htype))
  | typeReferenceExpression => exact lays_only style hf hk rfl
  | thisReferenceExpression => exact .put (by decide)
  | baseReferenceExpression => exact .put (by decide)
  | objectCreateExpression => exact lays_objectCreation style hf hk
  | arrayCreateExpression bounds => exact lays_arrayCreation style hf hk
  | arrayInitializerExpression => exact lays_elements style hf hk
  | directionExpression direction =>
      refine .required fun expression h => ?_
      refine .left (.left (.put ?_) .space) (.node (may_child? .csharp hf style hk rfl h))
      cases direction <;> decide
  | blockStatement => exact (hblock hk).elim
  | expressionStatement => exact lays_expressionStatement style hf hk
  | variableDeclarationStatement => exact lays_declaration style hf hk rfl rfl rfl false
  | variableDeclarator => exact lays_declarator style hf hk
  | ifElseStatement => exact lays_if style hf hk
  | whileStatement => exact lays_while style hf hk
  | doLoopStatement test isUntil => exact lays_doLoop style hf hk
  | forStatement => exact lays_for style hf hk
  | foreachStatement => exact lays_foreach style hf hk
  | returnStatement | throwStatement | breakStatement | continueStatement =>
      exact lays_keyword style hf hk rfl (by decide)
  | tryCatchStatement => exact lays_try style hf hk
  | catchClause => exact lays_catch style hf hk
  | switchStatement => exact lays_switch style hf hk
  | switchSection => exact lays_section style hf hk
  | caseLabel => exact lays_caseLabel style hf hk
  | usingStatement => exact lays_headerStatement style hf hk rfl rfl (by decide)
  | lockStatement => exact lays_headerStatement style hf hk rfl rfl (by decide)
  | emptyStatement => exact .put (by decide)
  | compilationUnit =>
      refine .forest (.append (p := false) ?_ .trivia)
      exact .onLines (may_children .csharp hf style hk rfl) (by simp)
  | usingDeclaration =>
      refine .required fun imported h => ?_
      exact .left (.left (.left (.put (by decide)) .space)
        (.node (may_child? .csharp hf style hk rfl h))) (.put (by decide))
  | namespaceDeclaration => exact lays_namespace style hf hk
  | typeDeclaration variant => exact lays_typeDeclaration style hf hk
  | fieldDeclaration => exact lays_declaration style hf hk rfl rfl rfl true
  | methodDeclaration => exact lays_method style hf hk
  | constructorDeclaration => exact lays_constructor style hf hk
  | constructorInitializer chain => exact lays_chain style hf hk
  | propertyDeclaration => exact lays_property style hf hk
  | accessor role => exact lays_accessor style hf hk
  | eventDeclaration => exact lays_event style hf hk
  | parameterDeclaration passing => exact lays_parameter style hf hk
  | enumMemberDeclaration => exact lays_enumMember style hf hk
  | fixedStatement => exact lays_fixed style hf hk
  | exitStatement exit => exact lays_exit style hf
  | forNextStatement => exact lays_forNext style hf hk
  | caseRange => exact .unsupported n
  | caseComparison op => exact .unsupported n

end DualSyntax.CSharp
