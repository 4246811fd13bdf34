import DualSyntax.CSharp.Writer
import DualSyntax.Proofs.Expression.CSharpPieces
import DualSyntax.Proofs.Writing.Printed

/-!
# Writing operator expressions in C#

The writer prints an expression in its pieces.
-/

namespace DualSyntax

namespace Forest

/-- The only subtree under a title is held by the first child there. -/
theorem Holds.child {f : Forest} {n : NodeId} {t x : Tree} (h : f.Holds n t) (title : Title)
    (htitle : title.isLexical = false) (hx : title.select t.parts = [x]) :
    ∃ c, f.child? n title = some c ∧ f.Holds c x := by
  have hchildren := h.children title htitle
  rw [hx, List.forall₂_cons_right_iff] at hchildren
  obtain ⟨c, cs, hc, -, hcs⟩ := hchildren
  refine ⟨c, ?_, hc⟩
  have hhead : f.child? n title = (f.children n title).head? := by
    rw [child?, Forest.children, List.head?_map, List.head?_filter]
  rw [hhead, hcs, List.head?_cons]

end Forest

namespace Lexing

theorem IsWord.getLast {w : List Char} (h : IsWord w) : ∃ c, w.getLast? = some c ∧ c ≠ ' ' := by
  obtain ⟨c, hc⟩ : ∃ c, w.getLast? = some c := ⟨_, List.getLast?_eq_some_getLast h.ne_nil⟩
  refine ⟨c, hc, ?_⟩
  rintro rfl
  have hbody := h.2 ' ' (List.mem_of_getLast? hc)
  exact absurd hbody (by decide)

end Lexing

namespace Writing

variable {page : Page} {n : NodeId} {title : Title} {c : NodeId}

theorem Writes.required {pre post : Prop} {cs : List Char} {k : NodeId → Written}
    (hc : page.forest.child? n title = some c) (h : Writes page pre (k c) cs post) :
    Writes page pre (Writing.required n title >>= k) cs post :=
  .bind (required_ok hc) h

end Writing

namespace CSharp

open Writing Lexing

variable {page : Page} {node : NodeId → Written} {n : NodeId} {least : Nat} {e : Expression}

theorem nameSign_text (l : Language) (word : String) :
    (l.nameSign word).text = (l.spelling word).toList := by
  unfold Language.nameSign Language.spelling
  split <;> rfl

theorem writes_name {word : String} (h : IsWord word.toList) :
    WritesOut page (writeName word) (Language.csharp.nameSign word).text := by
  rw [nameSign_text]
  obtain ⟨c, hc, hne⟩ := h.getLast
  have hlast : (Language.csharp.spelling word).toList.getLast? = some c := by
    unfold Language.spelling
    split
    · simp [Language.escaped, List.getLast?_cons, hc]
    · exact hc
  exact Writes.put hlast hne

theorem writes_identifier {word : String} {fuel : Nat} (h : IsWord word.toList)
    (hn : page.forest.Holds n (.node (.identifier word) [])) :
    WritesOut page (writeUpTo (fuel + 1) n) (Language.csharp.nameSign word).text := by
  refine Writes.marked ?_ n
  refine .bind forest_ok ?_
  rw [hn.kind]
  exact writes_name h

theorem getLast?_quoted (q : Char) (cs : List Char) : (q :: (cs ++ [q])).getLast? = some q := by
  simp [List.getLast?_cons]

theorem literalText_getLast {value : LiteralValue} (h : hasLiteral value = true) :
    ∃ c, (literalText value).toList.getLast? = some c ∧ c ≠ ' ' := by
  cases value with
  | null => exact ⟨'l', rfl, by decide⟩
  | boolean b => cases b <;> exact ⟨'e', rfl, by decide⟩
  | integer k suffix =>
      obtain ⟨c, hc⟩ : ∃ c, (toString k ++ suffixText suffix).toList.getLast? = some c :=
        ⟨_, List.getLast?_eq_some_getLast (by simp [Nat.toList_repr, Nat.toDigits_ne_nil])⟩
      refine ⟨c, hc, ?_⟩
      rintro rfl
      have hmem := List.mem_of_getLast? hc
      rw [String.toList_append, List.mem_append] at hmem
      rcases hmem with hdigit | hletter
      · have h := Nat.isDigit_of_mem_toDigits (by decide) (by decide)
          (Nat.toList_repr (n := k) ▸ hdigit)
        exact absurd h (by decide)
      · revert hletter
        cases suffix <;> decide
  | real => cases h
  | string s =>
      exact ⟨'"', by rw [literalText, String.toList_ofList, getLast?_quoted], by decide⟩
  | char c =>
      exact ⟨'\x27', by rw [literalText, String.toList_ofList, getLast?_quoted], by decide⟩

theorem writes_operand (least : Nat) (hn : page.forest.Holds n e.tree)
    (h : WritesOut page (node n) (Piece.textOf (pieces e))) :
    WritesOut page (writeOperand node n least) (Piece.textOf (operand least e)) := by
  refine .bind forest_ok ?_
  rw [hn.kind, Expression.tree_kind, operand, guarded, levelOf]
  split
  · have hopen : WritesOut page (put "(") "(".toList := .put rfl (by decide)
    have hclose : WritesOut page (put ")") ")".toList := .put rfl (by decide)
    simpa [inParentheses, mark, Piece.text, writeParenthesized] using
      (hopen.andThen h).andThen hclose
  · exact h

section Nodes

variable {target inner left right value condition yes no : Expression} {word : String}

/-- A writer that prints each node that holds an expression in the pieces of the expression. -/
def PrintsNodes (page : Page) (node : NodeId → Written) (e : Expression) : Prop :=
  ∀ m, page.forest.Holds m e.tree → WritesOut page (node m) (Piece.textOf (pieces e))

/-- A writer that prints each node that holds a name as the sign of the name. -/
def PrintsName (page : Page) (node : NodeId → Written) (word : String) : Prop :=
  ∀ m, page.forest.Holds m (.node (.identifier word) []) →
    WritesOut page (node m) (Language.csharp.nameSign word).text

/-- A word or sign between two operands. -/
theorem writes_infixed {w w' : Written} {cs ds : List Char} {s : String} {c : Char}
    (hs : s.toList.getLast? = some c) (hc : c ≠ ' ') (h : WritesOut page w cs)
    (h' : WritesOut page w' ds) :
    WritesOut page (w ++ space ++ put s ++ space ++ w') (cs ++ ' ' :: (s.toList ++ ' ' :: ds)) := by
  simpa using (h.spaced.andThen (.put hs hc)).spaced.andThen h'

theorem writes_member {nullConditional : Bool}
    (hn : page.forest.Holds n (Expression.member nullConditional target word).tree)
    (ih : PrintsNodes page node target) (hname : PrintsName page node word) :
    WritesOut page (writeMember node n nullConditional)
      (Piece.textOf (pieces (.member nullConditional target word))) := by
  obtain ⟨t, ht, htarget⟩ := hn.child .target rfl rfl
  obtain ⟨i, hi, hident⟩ := hn.child .identifier rfl rfl
  refine .required ht (.required hi ?_)
  have hdot : WritesOut page (put (if nullConditional then "?." else "."))
      (if nullConditional then "?." else ".").toList := by
    cases nullConditional <;> exact .put rfl (by decide)
  have hall := ((writes_operand primaryLevel htarget (ih t htarget)).andThen hdot).andThen
    (hname i hident)
  cases nullConditional <;>
    simpa [pieces, operand, mark, Piece.text, List.append_assoc] using hall

theorem writes_commaSeparated {ms : List NodeId} {args : List Expression}
    (h : List.Forall₂ (fun m a => WritesOut page (node m) (Piece.textOf (pieces a))) ms args) :
    Writes page False (commaSeparated node ms)
      (Piece.textOf (Piece.commaSeparated (allPieces args))) False := by
  rw [allPieces_eq_map]
  induction h with
  | nil => exact .nothing
  | @cons m a ms args hm hrest ih =>
      cases hrest with
      | nil => exact hm.weaken id False.elim
      | @cons m' a' ms args hm' hrest =>
          have hcomma : WritesOut page (put ",") ",".toList := .put rfl (by decide)
          have hall := (hm.andThen hcomma.spaced).andThen ih
          simpa [commaSeparated, separatedBy, Piece.commaSeparated, Piece.text,
            List.append_assoc] using hall

theorem select_arguments (args : List Expression) :
    Title.arguments.select ((Expression.trees args).map (Title.arguments, ·)) = args.map (·.tree) := by
  rw [Expression.trees_eq_map, Title.select]
  induction args with
  | nil => rfl
  | cons a args ih => simpa using ih

theorem writes_application (node : NodeId → Written) {indexed : Bool} {args : List Expression}
    (hn : page.forest.Holds n (Expression.application indexed target args).tree)
    (ih : PrintsNodes page node target) (iha : ∀ a ∈ args, PrintsNodes page node a) :
    WritesOut page (if indexed then writeCall node n "[" "]" else writeCall node n "(" ")")
      (Piece.textOf (pieces (.application indexed target args))) := by
  have htargets : Title.target.select (Expression.application indexed target args).tree.parts =
      [target.tree] := by
    simp [Title.select, Expression.tree, Tree.parts, Expression.trees_eq_map]
  have hargs : Title.arguments.select (Expression.application indexed target args).tree.parts =
      args.map (·.tree) := by
    rw [← select_arguments]
    rfl
  obtain ⟨t, ht, htarget⟩ := hn.child .target rfl htargets
  have hchildren := hn.children .arguments rfl
  rw [hargs, List.forall₂_map_right_iff] at hchildren
  have hlist : List.Forall₂ (fun m a => WritesOut page (node m) (Piece.textOf (pieces a)))
      (page.forest.children n .arguments) args := by
    obtain ⟨hlength, hzip⟩ := List.forall₂_iff_zip.mp hchildren
    refine List.forall₂_iff_zip.mpr ⟨hlength, fun {m a} hma => ?_⟩
    exact iha a (List.of_mem_zip hma).2 m (hzip hma)
  have hall (before after : String) {c : Char} (hafter : after.toList.getLast? = some c)
      (hc : c ≠ ' ') :
      WritesOut page (writeCall node n before after) (Piece.textOf (operand primaryLevel target) ++
        before.toList ++ Piece.textOf (Piece.commaSeparated (allPieces args)) ++ after.toList) := by
    refine .required ht ?_
    have hcommas : Writes page False (commaSeparatedAt node n .arguments)
        (Piece.textOf (Piece.commaSeparated (allPieces args))) False :=
      .bind forest_ok (writes_commaSeparated hlist)
    exact (((writes_operand primaryLevel htarget (ih t htarget)).andThen (.anyPut before)).andThen
      hcommas).andThen (.put hafter hc)
  cases indexed with
  | true =>
      simpa [pieces, operand, mark, Piece.text, List.append_assoc] using
        hall "[" "]" (c := ']') rfl (by decide)
  | false =>
      simpa [pieces, operand, mark, Piece.text, List.append_assoc] using
        hall "(" ")" (c := ')') rfl (by decide)

theorem writes_unary {op : UnaryOperator} (hn : page.forest.Holds n (Expression.unary op inner).tree)
    (ih : PrintsNodes page node inner) :
    WritesOut page (writeUnary node n op) (Piece.textOf (pieces (.unary op inner))) := by
  obtain ⟨c, hc, hinner⟩ := hn.child .expression rfl rfl
  refine .required hc ?_
  obtain ⟨last, hlast, hne⟩ : ∃ c, (unaryText op).toList.getLast? = some c ∧ c ≠ ' ' := by
    cases op <;> exact ⟨_, rfl, by decide⟩
  cases hsuffix : op.isSuffix with
  | true =>
      have hall := (writes_operand primaryLevel hinner (ih c hinner)).andThen
        (.put hlast hne)
      simpa [pieces, operand, hsuffix, mark, Piece.text] using hall
  | false =>
      have hsign : WritesOut page (put (unaryText op)) (unaryText op).toList := .put hlast hne
      have hblank : Writes page False (onlyIf (gluesTo op inner) (put " "))
          (if gluesTo op inner then [' '] else []) False := by
        cases gluesTo op inner with
        | true => exact .anyPut " "
        | false => exact .nothing
      have hall : WritesOut page (put (unaryText op) ++ onlyIf (gluesTo op inner) (put " ") ++
          writeOperand node c unaryLevel) (Piece.textOf (pieces (.unary op inner))) := by
        have hall := (hsign.andThen hblank).andThen
          (writes_operand unaryLevel hinner (ih c hinner))
        rw [pieces, hsuffix]
        cases hglue : gluesTo op inner <;>
          simpa [hglue, operand, mark, Piece.text, List.append_assoc] using hall
      simp only [Bool.false_eq_true, if_false]
      refine .bind forest_ok ?_
      rw [hinner.kind, Expression.tree_kind]
      -- only an operator is asked whether its sign would run into the outer one
      cases inner with
      | application indexed => cases indexed <;> exact hall
      | typeTest converts => cases converts <;> exact hall
      | _ => exact hall

theorem binaryText_getLast (op : BinaryOperator) :
    ∃ c, (binaryText op).toList.getLast? = some c ∧ c ≠ ' ' := by
  cases op <;> exact ⟨_, rfl, by decide⟩

theorem writes_binary {op : BinaryOperator} (hop : hasBinary op = true)
    (hn : page.forest.Holds n (Expression.binary op left right).tree)
    (ihl : PrintsNodes page node left) (ihr : PrintsNodes page node right) :
    WritesOut page (writeBinary node n op) (Piece.textOf (pieces (.binary op left right))) := by
  obtain ⟨l, hl, hleft⟩ := hn.child .left rfl rfl
  obtain ⟨r, hr, hright⟩ := hn.child .right rfl rfl
  refine .required hl (.required hr ?_)
  obtain ⟨c, hc, hne⟩ := binaryText_getLast op
  have hall := writes_infixed hc hne
    (writes_operand (operandLevels op).1 hleft (ihl l hleft))
    (writes_operand (operandLevels op).2 hright (ihr r hright))
  have htext : Piece.textOf (pieces (.binary op left right)) =
      Piece.textOf (operand (operandLevels op).1 left) ++
        ' ' :: ((binaryText op).toList ++
          ' ' :: Piece.textOf (operand (operandLevels op).2 right)) := by
    simp [pieces, operand, mark, Piece.text]
  rw [htext]
  cases op with
  | power => cases hop
  | _ => exact hall

theorem writes_assignment {op : AssignmentOperator} (hop : hasAssignment op = true)
    (hn : page.forest.Holds n (Expression.assignment op left value).tree)
    (ihl : PrintsNodes page node left) (ihv : PrintsNodes page node value) :
    WritesOut page (writeAssignment node n op)
      (Piece.textOf (pieces (.assignment op left value))) := by
  obtain ⟨l, hl, hleft⟩ := hn.child .left rfl rfl
  obtain ⟨v, hv, hvalue⟩ := hn.child .value rfl rfl
  refine .required hl (.required hv ?_)
  obtain ⟨sign, c, hsign, hc, hne⟩ : ∃ sign c, assignmentText? op = some sign ∧
      sign.toList.getLast? = some c ∧ c ≠ ' ' := by
    cases op with
    | power => cases hop
    | _ => exact ⟨_, _, rfl, rfl, by decide⟩
  have hall := (writes_operand unaryLevel hleft (ihl l hleft)).spaced.andThen
    ((Writes.put hc hne).spaced.andThen
      (writes_operand assignmentLevel hvalue (ihv v hvalue)))
  simpa [pieces, operand, mark, Piece.text, hsign, List.append_assoc] using hall

theorem writes_conditional
    (hn : page.forest.Holds n (Expression.conditional condition yes no).tree)
    (ihc : PrintsNodes page node condition) (ihy : PrintsNodes page node yes)
    (ihn : PrintsNodes page node no) :
    WritesOut page (writeConditional node n)
      (Piece.textOf (pieces (.conditional condition yes no))) := by
  obtain ⟨c, hc, hcondition⟩ := hn.child .condition rfl rfl
  obtain ⟨y, hy, hyes⟩ := hn.child .trueExpression rfl rfl
  obtain ⟨z, hz, hno⟩ := hn.child .falseExpression rfl rfl
  refine .required hc (.required hy (.required hz ?_))
  have hall := ((((writes_operand coalescingLevel hcondition (ihc c hcondition)).andThen
    (.anyPut " ? ")).andThen (writes_operand assignmentLevel hyes (ihy y hyes))).andThen
    (.anyPut " : ")).andThen (writes_operand assignmentLevel hno (ihn z hno))
  simpa [pieces, operand, mark, Piece.text, List.append_assoc] using hall

theorem writes_typeTest (node : NodeId → Written) {converts : Bool} {type : String}
    (hn : page.forest.Holds n (Expression.typeTest converts inner type).tree)
    (ih : PrintsNodes page node inner)
    (htype : ∀ m, page.forest.Holds m (Expression.named .simpleType type) →
      WritesOut page (node m) (Language.csharp.nameSign type).text) :
    WritesOut page (if converts then writeTypeTest node n "as" else writeTypeTest node n "is")
      (Piece.textOf (pieces (.typeTest converts inner type))) := by
  obtain ⟨c, hc, hinner⟩ := hn.child .expression rfl rfl
  obtain ⟨t, ht, htree⟩ := hn.child .type rfl rfl
  have hall (word : String) {x : Char} (hx : word.toList.getLast? = some x) (hne : x ≠ ' ') :
      WritesOut page (writeTypeTest node n word) (Piece.textOf (operand relationalLevel inner) ++
        ' ' :: (word.toList ++ ' ' :: (Language.csharp.nameSign type).text)) := by
    refine .required hc (.required ht ?_)
    exact writes_infixed hx hne (writes_operand relationalLevel hinner (ih c hinner)) (htype t htree)
  cases converts with
  | true =>
      simpa [pieces, operand, mark, Piece.text] using
        hall "as" rfl (by decide)
  | false =>
      simpa [pieces, operand, mark, Piece.text] using
        hall "is" rfl (by decide)

end Nodes

/-- A node that has a name below it and nothing else to write. -/
theorem writes_named {kind : NodeKind} {word : String} {fuel : Nat} (h : IsWord word.toList)
    (hkind : kind = .identifierExpression ∨ kind = .simpleType)
    (hn : page.forest.Holds n (Expression.named kind word)) :
    WritesOut page (writeUpTo (fuel + 2) n) (Language.csharp.nameSign word).text := by
  obtain ⟨i, hi, hident⟩ := hn.child .identifier rfl rfl
  refine Writes.marked (.bind forest_ok ?_) n
  rw [hn.kind]
  rcases hkind with rfl | rfl <;> exact .required hi (writes_identifier h hident)

/-- The writer prints an expression in its pieces, given enough depth. -/
theorem writes_pieces (h : Spellable e) {fuel : Nat} (hfuel : e.depth ≤ fuel) :
    PrintsNodes page (writeUpTo fuel) e := by
  -- what is below the root is written with one step less, and a name takes a single step
  have hsplit : ∀ {fuel : Nat} {e : Expression}, e.depth ≤ fuel → ∃ k, fuel = k + 2 := by
    intro fuel e hle
    have htwo := e.two_le_depth
    exact ⟨fuel - 2, by omega⟩
  induction h generalizing fuel with
  | name hword =>
      intro m hm
      obtain ⟨k, rfl⟩ := hsplit hfuel
      simpa [pieces, Piece.text] using writes_named hword (.inl rfl) hm
  | @literal value hvalue =>
      intro m hm
      obtain ⟨k, rfl⟩ := hsplit hfuel
      have htext : Piece.textOf (pieces (.literal value)) = (literalText value).toList := by
        simp [pieces, Piece.text, literalSign]
      obtain ⟨c, hc, hne⟩ := literalText_getLast hvalue
      refine Writes.marked (.bind forest_ok ?_) m
      rw [hm.kind, htext]
      exact .put hc hne
  | this =>
      intro m hm
      obtain ⟨k, rfl⟩ := hsplit hfuel
      refine Writes.marked (.bind forest_ok ?_) m
      rw [hm.kind]
      exact Writes.put (s := "this") rfl (by decide)
  | base =>
      intro m hm
      obtain ⟨k, rfl⟩ := hsplit hfuel
      refine Writes.marked (.bind forest_ok ?_) m
      rw [hm.kind]
      exact Writes.put (s := "base") rfl (by decide)
  | member _ hword ih =>
      intro m hm
      obtain ⟨k, rfl⟩ := hsplit hfuel
      simp only [Expression.depth] at hfuel
      refine Writes.marked (.bind forest_ok ?_) m
      rw [hm.kind]
      exact writes_member hm (ih (by omega)) fun i hi => writes_identifier hword hi
  | @application indexed target args _ _ ih iha =>
      intro m hm
      obtain ⟨k, rfl⟩ := hsplit hfuel
      simp only [Expression.depth] at hfuel
      have hall := writes_application (writeUpTo (k + 1)) hm (ih (by omega)) fun a ha =>
        iha a ha (by have hle := Expression.depth_le_depthOf ha; omega)
      refine Writes.marked (.bind forest_ok ?_) m
      rw [hm.kind]
      cases indexed <;> exact hall
  | unary _ ih =>
      intro m hm
      obtain ⟨k, rfl⟩ := hsplit hfuel
      simp only [Expression.depth] at hfuel
      refine Writes.marked (.bind forest_ok ?_) m
      rw [hm.kind]
      exact writes_unary hm (ih (by omega))
  | binary hop _ _ ihl ihr =>
      intro m hm
      obtain ⟨k, rfl⟩ := hsplit hfuel
      simp only [Expression.depth] at hfuel
      refine Writes.marked (.bind forest_ok ?_) m
      rw [hm.kind]
      exact writes_binary hop hm (ihl (by omega)) (ihr (by omega))
  | assignment hop _ _ ihl ihv =>
      intro m hm
      obtain ⟨k, rfl⟩ := hsplit hfuel
      simp only [Expression.depth] at hfuel
      refine Writes.marked (.bind forest_ok ?_) m
      rw [hm.kind]
      exact writes_assignment hop hm (ihl (by omega)) (ihv (by omega))
  | conditional _ _ _ ihc ihy ihn =>
      intro m hm
      obtain ⟨k, rfl⟩ := hsplit hfuel
      simp only [Expression.depth] at hfuel
      refine Writes.marked (.bind forest_ok ?_) m
      rw [hm.kind]
      exact writes_conditional hm (ihc (by omega)) (ihy (by omega)) (ihn (by omega))
  | @typeTest converts inner type _ htype ih =>
      intro m hm
      obtain ⟨k, rfl⟩ := hsplit hfuel
      simp only [Expression.depth] at hfuel
      have hinner := inner.two_le_depth
      obtain ⟨k, rfl⟩ : ∃ j, k = j + 1 := ⟨k - 1, by omega⟩
      have hall := writes_typeTest (writeUpTo (k + 2)) hm (ih (by omega)) fun t ht =>
        writes_named htype (.inr rfl) ht
      refine Writes.marked (.bind forest_ok ?_) m
      rw [hm.kind]
      cases converts <;> exact hall

end CSharp

end DualSyntax
