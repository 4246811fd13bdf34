import DualSyntax.Proofs.Lowering.Tellings
import DualSyntax.Proofs.Lowering.Total

/-!
# Warnings are exact

C# warns of an empty statement right under the condition of an `if` or a `while`, and of a semicolon
after the braces of a declaration.  What a match is warned of by itself is read off its children
(`warningsOf`); lowering goes through the matches in which there may be anything to warn of in the order
of the text, so a parsed text comes with just these warnings, in this order.
-/

namespace DualSyntax

/-- A match of a single token begins where the token does. -/
theorem RawTree.Placed.start_span {δ : Type} {s : TokenStream} {t : RawTree δ} {tk : Token}
    (ht : t.Placed s) (htokens : t.tokens = [tk]) : (t.span s).start = tk.span.start := by
  cases ht with
  | leaf tk' =>
      cases htokens
      rfl
  | @node form i j cs hsize hslice hcs =>
      rw [← RawTree.tokens.eq_2 form i j, htokens, TokenStream.slice] at hslice
      have hlength : 1 = min (j - i) (s.size - i) := by
        simpa [TokenStream.size] using congrArg List.length hslice
      obtain rfl : j = i + 1 := by
        have := hsize (by omega)
        omega
      have hget : s.get? i = some tk := by
        have hhead := congrArg List.head? hslice
        simpa [List.head?_take, List.head?_drop, TokenStream.get?] using hhead.symm
      rw [span, if_pos (Nat.lt_succ_self i), Nat.add_sub_cancel, hget]
      exact Nat.min_self _

namespace CSharp

open Lower Lowering

/-! ## What a match is warned of -/

def emptyBody? (t : RawTree Form) : Option (RawTree Form) :=
  (t.children.find? (·.isForm .statement)).filter (·.children.any (·.isForm .emptyStatement))

def lastSemicolon? (t : RawTree Form) : Option Token :=
  (t.children.getLast?.bind RawTree.token?).filter (·.kind == .semicolon)

/-- The warnings about a match itself. -/
def warningsOf (source : Source) (t : RawTree Form) : List Diagnostic :=
  match t with
  | .node (some .ifStatement) .. | .node (some .whileStatement) .. =>
    (emptyBody? t).toList.map fun body =>
      source.diagnosticAt (body.span source.stream) .emptyStatement
  | .node (some .typeDeclaration) .. | .node (some .enumDeclaration) ..
  | .node (some .namespaceDeclaration) .. =>
    (lastSemicolon? t).toList.map fun tk => source.diagnosticAt tk.span .redundantSemicolon
  | _ => []

/-- Definitions in whose matches there is nothing to warn of, however deep. -/
def silent : Form → Bool
  | .statement | .block | .ifStatement | .whileStatement | .doStatement | .forStatement
  | .foreachStatement | .tryStatement | .catchClause | .switchStatement | .switchSection
  | .usingStatement | .lockStatement | .fixedStatement | .methodDeclaration
  | .constructorDeclaration | .accessor | .propertyDeclaration | .enumDeclaration
  | .typeDeclaration | .typeMember | .namespaceDeclaration | .namespaceMember
  | .compilationUnit => false
  | _ => true

def telling : Survey Form :=
  { survey with lowered := fun _ => true, refusable := (!silent ·), harmless := silent }

/-- The same where only matches without warnings become nodes. -/
def tellingNothing : Survey Form := { telling with lowered := silent }

theorem nests_silent {d : Form} (hd : silent d = true) : telling.nests silent d = true := by
  have hall : Form.all.all (fun d => !silent d || telling.nests silent d) = true := by decide
  have hnests := List.all_eq_true.mp hall d (Form.mem_all d)
  rwa [hd, Bool.not_true, Bool.false_or] at hnests

theorem isQuiet_shape {d : Form} (hd : silent d = true) (tokens : List TokenKind) :
    (shape d tokens).isQuiet = true := by
  cases d
  case argument => exact forwardOr_check Shape.isQuiet tokens rfl rfl
  case conditionalExpression => exact forwardOr_check Shape.isQuiet tokens rfl rfl
  case prefixUnaryExpression => exact signShape_check Shape.isQuiet tokens (fun _ => rfl) fun _ => rfl
  case assignmentExpression =>
    exact assignmentShape_check Shape.isQuiet tokens (fun _ => rfl) fun _ => rfl
  all_goals first | rfl | cases hd

/-- A match of the grammar at its place in the text. -/
structure Stands (s : TokenStream) (t : RawTree Form) : Prop where
  conforms : Conforms grammar t
  placed : t.Placed s

theorem Stands.child {s : TokenStream} {t c : RawTree Form} (ht : Stands s t) (hc : c ∈ t.children) :
    Stands s c := by
  obtain ⟨hconforms, hplaced⟩ := ht
  cases hconforms with
  | leaf => cases hc
  | node _ _ hcs =>
      cases hplaced with
      | node _ _ hplaced => exact ⟨hcs c hc, hplaced c hc⟩

/-! ## Matches without warnings of their own -/

variable {source : Source} {recur : Recur Form} {d : Form} {i j : Nat} {cs : List (RawTree Form)}
  {parts : List (Part Form)} {kind : NodeKind}

abbrev Warner (source : Source) (recur : Recur Form) : Prop :=
  Teller telling source (warningsOf source) (Stands source.stream) recur

/-- A step that tells of the warnings of a match. -/
abbrev Warns (source : Source) (t : RawTree Form) (x : Lower NodeId) : Prop :=
  Tells source (fun _ ds => Told (warningsOf source) [t] ds) x

theorem foresees_opening (s : Survey Form) (hs : s.grammar = grammar)
    (ht : Conforms grammar (.node (some d) i j cs)) : (s.opening d).Foresees cs := by
  have h := s.foresees_opening (hs ▸ checked.productive) (hs ▸ ht)
  rwa [hs, rest_cursor] at h

theorem warns_silent (hs : Warner source recur) (ht : Stands source.stream (.node (some d) i j cs))
    (hd : silent d = true) (tokens : List TokenKind) : Warns source (.node (some d) i j cs)
      (shaped grammar recur (.node (some d) i j cs) (shape d tokens)) := by
  have hmatches : Matches grammar silent (.node (some d) i j cs) := ⟨ht.conforms, hd⟩
  refine .of_quiet (fun ds => adds_shaped (hs.quiet ds) hmatches (Shape.makes_true _)
    (.inl (isQuiet_shape hd tokens))) fun _ _ => hs.told_harmless ?_
  exact List.forall_mem_singleton.mpr hmatches

theorem warns_forward (hs : Warner source recur) (ht : Stands source.stream (.node (some d) i j cs))
    (hown : warningsOf source (.node (some d) i j cs) = []) :
    Warns source (.node (some d) i j cs) (shaped grammar recur (.node (some d) i j cs) .forward) := by
  simp only [shaped, RawTree.children]
  split
  · next only =>
      have honly := ht.child (c := only) (by simp [RawTree.children])
      exact (hs.tells_child honly).imp fun _ _ hds => .node hown hds
  · exact .throw _

/-- A node whose parts take all children as they come. -/
theorem warns_build (hs : Warner source recur) (ht : Stands source.stream (.node (some d) i j cs))
    (hown : warningsOf source (.node (some d) i j cs) = []) (hparts : Part.takeInOrder parts = true)
    (hafter : (telling.partsAfter d parts (telling.opening d)).any (·.every telling.spares) = true) :
    Warns source (.node (some d) i j cs)
      (shaped grammar recur (.node (some d) i j cs) (.build kind parts)) := by
  obtain ⟨o, ho, hspares⟩ := (Option.any_eq_true _ _).mp hafter
  have hrest : (cursor grammar (.node (some d) i j cs)).rest = cs := rest_cursor
  refine tells_build fun owner => (hs.tells_readParts owner parts hparts ho ?_ ?_).imp ?_
  · rw [hrest]
    exact foresees_opening telling rfl ht.conforms
  · rw [hrest]
    exact fun t hc => ht.child hc
  · rintro c ds ⟨taken, hpassed⟩
    obtain rfl : cs = taken ++ c.rest := hrest.symm.trans hpassed.rest
    have hleft : Told (warningsOf source) c.rest [] := hs.told_of_spares
      (fun t hc => ht.child (by simp [RawTree.children, hc]))
      (hpassed.foresees.every hspares)
    exact .node hown (by simpa using hpassed.told.append hleft)

/-- A node below which all children are put. -/
theorem warns_everything (hs : Warner source recur)
    (ht : Stands source.stream (.node (some d) i j cs))
    (hown : warningsOf source (.node (some d) i j cs) = []) (title : Title) :
    Warns source (.node (some d) i j cs)
      (shaped grammar recur (.node (some d) i j cs) (.build kind [.everything title])) := by
  refine tells_build fun owner => ?_
  rw [readParts]
  refine (hs.tells_everything ht title).then_quiet (S := fun _ => True) (fun _ _ => ?_)
    fun _ _ _ hds _ => .node hown hds
  rw [readParts]
  exact .pure trivial

/-! ## Statements under conditions -/

theorem exists_of_statement (ht : Conforms grammar (.node (some .statement) i j cs)) :
    ∃ d i' j' cs', cs = [.node (some d) i' j' cs'] := by
  cases ht with
  | node hrule hspells hcs =>
      cases hrule
      have hform : (rule .statement).every (·.isFormOf fun _ => true) = true := by decide
      obtain ⟨c, rfl, hc⟩ := Setting.exists_single (by decide) hform hspells
      obtain ⟨d, i', j', cs', rfl, -⟩ := exists_of_isFormOf hc
      exact ⟨d, i', j', cs', rfl⟩

theorem exists_of_emptyStatement (ht : Conforms grammar (.node (some .emptyStatement) i j cs)) :
    ∃ tk, cs = [.leaf tk] := by
  cases ht with
  | node hrule hspells hcs =>
      cases hrule
      have htoken : (rule .emptyStatement).every (·.isToken) = true := by decide
      obtain ⟨c, rfl, hc⟩ := Setting.exists_single (by decide) htoken hspells
      obtain ⟨tk, rfl⟩ := exists_leaf hc
      exact ⟨tk, rfl⟩

theorem isEmptyStatement_eq (ht : Conforms grammar (.node (some .statement) i j cs)) :
    isEmptyStatement grammar (.node (some .statement) i j cs) =
      cs.any (·.isForm .emptyStatement) := by
  obtain ⟨d, i', j', cs', rfl⟩ := exists_of_statement ht
  have hname : (d.name == "EmptyStatement") = (Form.emptyStatement == d) := by
    cases d <;> decide
  show (true && d.name == "EmptyStatement") = (Form.emptyStatement == d || false)
  rw [hname, Bool.true_and, Bool.or_false]

theorem emptyStatement_spec (ht : Conforms grammar (.node (some .statement) i j cs))
    (hempty : cs.any (·.isForm .emptyStatement) = true) :
    ∃ tk, (RawTree.node (some .statement) i j cs).tokens = [tk] ∧
      Told (warningsOf source) [.node (some .statement) i j cs] [] := by
  obtain ⟨d, i', j', cs', rfl⟩ := exists_of_statement ht
  obtain rfl : d = .emptyStatement := by
    rw [List.any_cons, List.any_nil, Bool.or_false] at hempty
    exact (eq_of_beq hempty).symm
  cases ht with
  | node _ _ hcs =>
      obtain ⟨tk, rfl⟩ := exists_of_emptyStatement (hcs _ (List.mem_singleton_self _))
      refine ⟨tk, by simp [RawTree.tokens, RawTree.tokensOf], .node rfl (.node rfl (.leaf tk))⟩

theorem emptyBody?_eq {form : Option Form} {n : RawTree Form} (hn : n.isForm .statement = true)
    (hfront : ∀ t ∈ cs, t.isForm .statement = false) (rest : List (RawTree Form)) :
    emptyBody? (.node form i j (cs ++ [n] ++ rest)) =
      if n.children.any (·.isForm .emptyStatement) then some n else none := by
  have hnone : cs.find? (·.isForm .statement) = none :=
    List.find?_eq_none.mpr fun t ht => by simp [hfront t ht]
  rw [emptyBody?, RawTree.children, List.append_assoc, List.find?_append, hnone, Option.none_or,
    List.singleton_append, List.find?_cons_of_pos hn, Option.filter_some]

theorem tells_body (hs : Warner source recur) {n raw : RawTree Form} {owner : NodeId}
    {c : Cursor Form} {rest : List (RawTree Form)} (hn : Stands source.stream n)
    (hcons : c.rest = n :: rest) (hform : n.symbol.isNode = true) (title : Title) :
    Tells source (fun r ds => r = { c with rest } ∧ ∃ es, Told (warningsOf source) [n] es ∧
        ds = (if isEmptyStatement grammar n then
          [source.diagnosticAt (n.span source.stream) .emptyStatement] else []) ++ es)
      (readPart grammar recur owner raw c (.body title)) := by
  have hput : Tells source (fun r ds => r = { c with rest } ∧ Told (warningsOf source) [n] ds) (do
      Lower.set owner title (← recur n)
      return { c with rest }) :=
    tells_put (hs.tells hn) (fun _ _ => adds_set trivial title trivial) _
  rw [readPart, Cursor.node_node hcons hform, pure_bind]
  dsimp only
  split
  · refine (tells_spanOf n).bind ?_
    rintro _ _ ⟨rfl, rfl⟩
    refine (Tells.report _ _).bind ?_
    rintro _ _ rfl
    exact hput.imp fun r es hes => ⟨hes.1, es, hes.2, rfl⟩
  · exact hput.imp fun r es hes => ⟨hes.1, es, hes.2, rfl⟩

/-- Whether the parts of a definition in front of a statement take nothing that is warned of, and those
behind it take the rest. -/
def guards (d : Form) (front back : List (Part Form)) : Bool :=
  ((tellingNothing.partsAfter d front (tellingNothing.opening d)).bind
    (·.take (·.isForm .statement))).any fun o =>
      (telling.partsAfter d back o).any (·.every telling.spares)

theorem not_statement {t : RawTree Form}
    (ht : (tellingNothing.admits t.symbol || tellingNothing.spares t.symbol) = true) :
    t.isForm .statement = false := by
  match t with
  | .leaf _ => rfl
  | .node none .. => cases ht
  | .node (some d) .. => cases d <;> first | rfl | cases ht

theorem warns_guarded (hs : Warner source recur) (ht : Stands source.stream (.node (some d) i j cs))
    (front : List (Part Form)) (title : Title) (back : List (Part Form))
    (hown : warningsOf source (.node (some d) i j cs) =
      (emptyBody? (.node (some d) i j cs)).toList.map fun body =>
        source.diagnosticAt (body.span source.stream) .emptyStatement)
    (hfront : Part.takeInOrder front = true) (hback : Part.takeInOrder back = true)
    (hguards : guards d front back = true) :
    Warns source (.node (some d) i j cs) (shaped grammar recur (.node (some d) i j cs)
      (.build kind (front ++ .body title :: back))) := by
  obtain ⟨o₂, ho₂, hguards⟩ := (Option.any_eq_true _ _).mp hguards
  obtain ⟨o₁, ho₁, ho₂⟩ := Option.bind_eq_some_iff.mp ho₂
  obtain ⟨hmust, rfl⟩ := Outlook.take_eq_some.mp ho₂
  obtain ⟨o₃, ho₃, hspares⟩ := (Option.any_eq_true _ _).mp hguards
  have hs' : Teller tellingNothing source (warningsOf source) (Stands source.stream) recur :=
    { hs with }
  have hrest : (cursor grammar (.node (some d) i j cs)).rest = cs := rest_cursor
  have hstands : ∀ t ∈ cs, Stands source.stream t := fun t hc => ht.child hc
  refine tells_build fun owner => ?_
  rw [readParts_append]
  refine (hs'.tells_readParts owner front hfront ho₁ ?_ ?_).bind ?_
  · rw [hrest]
    exact foresees_opening tellingNothing rfl ht.conforms
  · rwa [hrest]
  rintro c₁ ds₁ ⟨taken, hpassed⟩
  obtain ⟨n, rest, hcons, htook⟩ := Cursor.took_of_must hpassed.foresees hmust
  obtain rfl : cs = taken ++ n :: rest := by rw [← hrest, hpassed.rest, hcons]
  rw [readParts]
  have hn := hstands n (by simp)
  refine (tells_body hs hn hcons (isNode_of_isForm _ htook.holds) title).bind ?_
  rintro _ ds₂ ⟨rfl, es, hes, rfl⟩
  refine (hs.tells_readParts owner back hback ho₃ htook.foresees fun t hc => hstands t ?_).imp ?_
  · simp only [] at hc
    simp [hc]
  rintro c₃ ds₃ ⟨more, hmore⟩
  obtain rfl : rest = more ++ c₃.rest := hmore.rest
  have hleft : Told (warningsOf source) c₃.rest [] :=
    hs.told_of_spares (fun t hc => hstands t (by simp [hc])) (hmore.foresees.every hspares)
  have hbehind : Told (warningsOf source) (more ++ c₃.rest) ds₃ := by
    simpa using hmore.told.append hleft
  have hform : n.isForm .statement = true := by rw [Cursor.isForm_eq, htook.holds]
  obtain ⟨i', j', cs', rfl⟩ := exists_of_isForm htook.holds
  rw [List.append_cons] at hown ⊢
  rw [emptyBody?_eq hform (fun t ht => not_statement (hpassed.known t ht)), RawTree.children] at hown
  rw [isEmptyStatement_eq hn.conforms]
  split at hown
  · next hempty =>
      obtain ⟨tk, htokens, hsilent⟩ := emptyStatement_spec hn.conforms hempty
      rw [if_pos hempty, hes.eq_nil hsilent, List.append_nil, List.singleton_append]
      exact .around hown hpassed.told hsilent hbehind
        (by simp [RawTree.tokensOf, htokens, Source.diagnosticAt, hn.placed.start_span htokens])
  · next hfull =>
      rw [if_neg hfull, List.nil_append]
      exact .node hown (by simpa using hpassed.told.append (hes.append hbehind))

/-! ## Declarations in braces -/

/-- Whether the parts of a definition in front of its closing brace take the children up to there, and at
most a semicolon comes after the brace. -/
def closes (d : Form) (front : List (Part Form)) : Bool :=
  ((telling.partsAfter d front (telling.opening d)).bind (·.take (·.isAny [.rBrace]))).any fun o =>
    (o.takeMaybe (·.isAny [.semicolon])).ends

theorem warns_closed (hs : Warner source recur) (ht : Stands source.stream (.node (some d) i j cs))
    (front : List (Part Form))
    (hown : warningsOf source (.node (some d) i j cs) =
      (lastSemicolon? (.node (some d) i j cs)).toList.map fun tk =>
        source.diagnosticAt tk.span .redundantSemicolon)
    (hfront : Part.takeInOrder front = true) (hcloses : closes d front = true) :
    Warns source (.node (some d) i j cs) (shaped grammar recur (.node (some d) i j cs)
      (.build kind (front ++ closing))) := by
  obtain ⟨o₂, ho₂, hends⟩ := (Option.any_eq_true _ _).mp hcloses
  obtain ⟨o₁, ho₁, ho₂⟩ := Option.bind_eq_some_iff.mp ho₂
  obtain ⟨hmust, rfl⟩ := Outlook.take_eq_some.mp ho₂
  have hrest : (cursor grammar (.node (some d) i j cs)).rest = cs := rest_cursor
  refine tells_build fun owner => ?_
  rw [readParts_append]
  refine (hs.tells_readParts owner front hfront ho₁ ?_ ?_).bind ?_
  · rw [hrest]
    exact foresees_opening telling rfl ht.conforms
  · rw [hrest]
    exact fun t hc => ht.child hc
  rintro c₁ ds₁ ⟨taken, hpassed⟩
  obtain ⟨brace, c₂, htoken, htook⟩ := Cursor.token_must hpassed.foresees hmust
  have hbrace : brace.kind = .rBrace := by simpa [RawTree.symbol, Symbol.isAny] using htook.holds
  have hcs : cs = taken ++ .leaf brace :: c₂.rest := by rw [← hrest, hpassed.rest, htook.rest]
  have hfrontTold : Told (warningsOf source) (taken ++ [.leaf brace]) ds₁ := by
    simpa using hpassed.told.append (.leaf brace)
  have hclose (c : Cursor Form) : Tells source (fun r ds => r = c ∧ ds = []) (do
      attachTrailing owner brace.leading
      setToken owner .rightBrace brace
      return c) :=
    .of_quiet (P := (· = c)) (fun _ => (adds_attachTrailing trivial _).andThen fun _ =>
      (adds_setToken trivial _ brace).andThen fun _ => .pure rfl) fun _ hr => ⟨hr, rfl⟩
  rw [closing, readParts, readPart, htoken, pure_bind]
  refine (hclose c₂).bind ?_
  rintro c₂ _ ⟨rfl, rfl⟩
  rw [readParts, readPart]
  have hone := htook.foresees
  rcases Cursor.eat_or .semicolon hone with ⟨tk, c₃, heat, hsemicolon⟩ | ⟨heat, hwithout⟩ <;> rw [heat]
  · have hnil : c₃.rest = [] :=
      (hsemicolon.foresees.mono (List.subset_append_left _ _)).ends hends
    have hkind : tk.kind = .semicolon := by
      simpa [RawTree.symbol, Symbol.isAny] using hsemicolon.holds
    obtain rfl : cs = taken ++ [.leaf brace] ++ [.leaf tk] ++ [] := by
      rw [hcs, hsemicolon.rest, hnil]
      simp
    have hlast : lastSemicolon? (.node (some d) i j (taken ++ [.leaf brace] ++ [.leaf tk] ++ [])) =
        some tk := by
      simp [lastSemicolon?, RawTree.children, RawTree.token?, hkind]
    rw [hlast] at hown
    simp only [bind_assoc, pure_bind]
    refine (Tells.report _ _).bind ?_
    rintro _ _ rfl
    rw [readParts]
    exact .pure (.around hown hfrontTold (.leaf tk) .nil
      (by simp [RawTree.tokensOf, RawTree.tokens, Source.diagnosticAt]))
  · have hnil : c₂.rest = [] := (hwithout.mono (List.subset_append_right _ _)).ends hends
    obtain rfl : cs = taken ++ [.leaf brace] := by rw [hcs, hnil]
    have hlast : lastSemicolon? (.node (some d) i j (taken ++ [.leaf brace])) = none := by
      simp [lastSemicolon?, RawTree.children, RawTree.token?, hbrace]
    rw [hlast] at hown
    rw [pure_bind, readParts]
    exact .pure (by simpa using hfrontTold.node hown)

/-! ## All matches -/

def warned : Form → Bool
  | .ifStatement | .whileStatement | .enumDeclaration | .typeDeclaration | .namespaceDeclaration => true
  | _ => false

/-- Whether the match of a definition is told of child by child. -/
def readsInOrder (d : Form) : Shape Form → Bool
  | .forward | .build _ [.everything _] => true
  | .build _ parts => Part.takeInOrder parts &&
      (telling.partsAfter d parts (telling.opening d)).any (·.every telling.spares)
  | _ => false

theorem readsInOrder_shape (hsilent : silent d = false) (hwarned : warned d = false)
    (tokens : List TokenKind) : readsInOrder d (shape d tokens) = true := by
  have hall : Form.all.all (fun d => silent d || warned d || readsInOrder d (shape d [])) = true := by
    decide
  have hd := List.all_eq_true.mp hall d (Form.mem_all d)
  rw [hsilent, hwarned, Bool.false_or, Bool.false_or] at hd
  rw [← hd]
  cases d <;> first
    | (cases hsilent; done)
    | (cases hwarned; done)
    | rfl

theorem warningsOf_eq_nil (hwarned : warned d = false) :
    warningsOf source (.node (some d) i j cs) = [] := by
  cases d <;> first
    | (cases hwarned; done)
    | rfl

theorem warns_readsInOrder (hs : Warner source recur)
    (ht : Stands source.stream (.node (some d) i j cs))
    (hown : warningsOf source (.node (some d) i j cs) = []) {shape : Shape Form}
    (hshape : readsInOrder d shape = true) :
    Warns source (.node (some d) i j cs) (shaped grammar recur (.node (some d) i j cs) shape) := by
  unfold readsInOrder at hshape
  split at hshape
  · exact warns_forward hs ht hown
  · exact warns_everything hs ht hown _
  · rw [Bool.and_eq_true] at hshape
    exact warns_build hs ht hown hshape.1 hshape.2
  · cases hshape

theorem warns_warned (hs : Warner source recur) (ht : Stands source.stream (.node (some d) i j cs))
    (hd : warned d = true) (tokens : List TokenKind) : Warns source (.node (some d) i j cs)
      (shaped grammar recur (.node (some d) i j cs) (shape d tokens)) := by
  cases d
  case ifStatement =>
    have hshape : shape .ifStatement tokens = .build .ifElseStatement
        ([.keep .kwIf .keyword, .keep .lParen .leftParenthesis, .node .condition,
          .keep .rParen .rightParenthesis] ++
          .body .trueStatement :: [.given .kwElse none [.node .falseStatement]]) := rfl
    rw [hshape]
    exact warns_guarded hs ht _ _ _ rfl rfl rfl (by decide)
  case whileStatement =>
    have hshape : shape .whileStatement tokens = .build .whileStatement
        ([.keep .kwWhile .keyword, .drop .lParen, .node .condition, .drop .rParen] ++
          .body .embeddedStatement :: []) := rfl
    rw [hshape]
    exact warns_guarded hs ht _ _ _ rfl rfl rfl (by decide)
  case enumDeclaration => exact warns_closed hs ht _ rfl rfl (by decide)
  case typeDeclaration => exact warns_closed hs ht _ rfl rfl (by decide)
  case namespaceDeclaration => exact warns_closed hs ht _ rfl rfl (by decide)
  all_goals cases hd

theorem warns_shaped (hs : Warner source recur) (ht : Stands source.stream (.node (some d) i j cs))
    (tokens : List TokenKind) : Warns source (.node (some d) i j cs)
      (shaped grammar recur (.node (some d) i j cs) (shape d tokens)) := by
  cases hsilent : silent d with
  | true => exact warns_silent hs ht hsilent tokens
  | false =>
      cases hwarned : warned d with
      | true => exact warns_warned hs ht hwarned tokens
      | false =>
          exact warns_readsInOrder hs ht (warningsOf_eq_nil hwarned)
            (readsInOrder_shape hsilent hwarned tokens)

theorem inward_lowerUpTo (ds : Array Diagnostic) (fuel : Nat) :
    Inward (keeping ds) (lowerUpTo grammar fuel) (Matches grammar silent) := by
  have haccepts : Accepts grammar (keeping ds) (Matches grammar silent) :=
    ⟨fun ht hc => Matches.child (s := telling) nests_silent ht hc, fun _ _ => Shape.makes_true _,
      fun ht tokens => .inl (isQuiet_shape ht.symbol tokens)⟩
  exact ⟨haccepts.child, fun ht => adds_lowerUpTo haccepts fuel ht⟩

theorem warningsOf_harmless {t : RawTree Form} (ht : Matches grammar silent t) :
    warningsOf source t = [] := by
  match t with
  | .leaf _ => rfl
  | .node none .. => rfl
  | .node (some d) .. =>
      have hd : silent d = true := ht.symbol
      exact warningsOf_eq_nil (by cases d <;> first | rfl | cases hd)

theorem warner_of_tells {fuel : Nat}
    (h : ∀ {t}, Stands source.stream t → Warns source t (lowerUpTo grammar fuel t)) :
    Warner source (lowerUpTo grammar fuel) where
  conforms ht := ht.conforms
  child ht hc := ht.child hc
  tells := h
  quiet ds := inward_lowerUpTo ds fuel
  own_harmless := warningsOf_harmless
  harmless hd := by simpa [telling] using hd

/-- Lowering tells of the warnings of every match. -/
theorem warner_lowerUpTo (source : Source) (fuel : Nat) : Warner source (lowerUpTo grammar fuel) := by
  induction fuel with
  | zero => exact warner_of_tells fun _ => .throw _
  | succ fuel ih =>
      refine warner_of_tells fun {t} ht => ?_
      match t with
      | .leaf tk => exact .of_quiet (fun _ => adds_token tk) fun _ _ => .leaf tk
      | .node none .. => cases ht.conforms
      | .node (some d) i j cs =>
          refine (warns_shaped ih ht _).then_quiet (S := fun _ => True) (fun n _ => ?_)
            fun _ _ _ hds _ => hds
          split
          · exact (adds_attachLeading trivial _).andThen fun _ => .pure trivial
          · exact .pure trivial

/-! ## Whole texts -/

theorem warns_wholeText (hs : Warner source recur) {inner : RawTree Form}
    (hinner : Stands source.stream inner) (hnode : inner.symbol.isNode = true) (last : List Token) :
    Warns source (.node none i j (inner :: last.map .leaf))
      (wholeText recur (.node none i j (inner :: last.map .leaf))) := by
  have hfind : (inner :: last.map .leaf).find? (·.token?.isNone) = some inner := by
    cases inner with
    | leaf => cases hnode
    | node => rfl
  have hlast : Told (warningsOf source) (last.map RawTree.leaf) [] := by
    refine .silent fun u hu => ?_
    obtain ⟨c, hc, hu⟩ := RawTree.mem_nodesOf.mp hu
    obtain ⟨tk, -, rfl⟩ := List.mem_map.mp hc
    cases hu
  rw [wholeText, RawTree.children, hfind]
  refine (hs.tells hinner).then_quiet (S := fun _ => True) (fun n _ => ?_) fun _ _ _ hds _ =>
    .node rfl (by simpa using hds.append hlast)
  refine Maintains.look.andThen fun isUnit => ?_
  split
  · split
    · exact (adds_attachTrailing trivial _).andThen fun _ => .pure trivial
    · exact .pure trivial
  · exact .pure trivial

/-- The warnings of a text are those of the matches in its tree. -/
theorem told_of_lower {root : Form} {raw : RawTree Form} {n : NodeId} {draft : Draft}
    (hparse : Packrat.parse grammar root source.stream = .parsed raw)
    (h : raw.lower grammar source = .ok (n, draft)) :
    Told (warningsOf source) [raw] draft.diagnostics.toList := by
  obtain ⟨inner, rfl, hinner, hconforms⟩ := Packrat.parse_conforms hparse
  have hplaced := Packrat.parse_placed hparse inner List.mem_cons_self
  obtain ⟨ds, hds, htold⟩ :=
    warns_wholeText (warner_lowerUpTo source _) ⟨hconforms, hplaced⟩ (by rw [hinner]; rfl) _ h
  simpa [hds] using htold

end CSharp

/-- The warnings of a C# text are exact: those of each match in its raw tree, none of them missing and
none twice, and they come in the order in which they begin in the text. -/
theorem warnings_exact {fragment : Fragment} {src : List Char} {parsed : Parsed}
    (h : parse .csharp fragment src = .ok parsed) :
    ∃ source raw, parseRaw .csharp fragment src = .ok (source, raw) ∧
      parsed.diagnostics.Perm (raw.nodes.flatMap (CSharp.warningsOf source)) ∧
      parsed.diagnostics.Pairwise (·.span.start < ·.span.start) := by
  obtain ⟨source, raw, draft, hraw, hlower, -, hdiagnostics, -⟩ := exists_of_parse h
  obtain ⟨hstream, -, hparse⟩ := exists_of_parseRaw hraw
  obtain ⟨init, last, -, hlast, -⟩ := tokenize_spec hstream
  have htold : Told (CSharp.warningsOf source) [raw] parsed.diagnostics :=
    hdiagnostics ▸ CSharp.told_of_lower hparse hlower
  refine ⟨source, raw, hraw, ?_, ?_⟩
  · simpa [RawTree.nodesOf] using htold.perm
  · have htokens : RawTree.tokensOf [raw] = source.stream.tokens.toList := by
      rw [RawTree.tokensOf, RawTree.tokensOf, List.append_nil]
      exact Packrat.parse_tokens hlast hparse
    have hstarts := htold.starts
    rw [htokens] at hstarts
    have hincreasing := List.pairwise_map.mpr (tokenize_increasing hstream)
    exact List.pairwise_map.mp (hincreasing.sublist hstarts)

/-- An empty statement under each of two conditions, one inside the other statement. -/
theorem warnings_exact_nested : ∃ parsed,
    parse .csharp .statement "if (a) ; else while (b) ;".toList = .ok parsed ∧
      parsed.diagnostics.map (fun d => (d.issue, d.span)) =
        [(.emptyStatement, ⟨7, 8⟩), (.emptyStatement, ⟨24, 25⟩)] ∧
      ∃ source raw,
        parseRaw .csharp .statement "if (a) ; else while (b) ;".toList = .ok (source, raw) ∧
        parsed.diagnostics.Perm (raw.nodes.flatMap (CSharp.warningsOf source)) ∧
        parsed.diagnostics.Pairwise (·.span.start < ·.span.start) := by
  have hparsed :
      (parse .csharp .statement "if (a) ; else while (b) ;".toList).toOption.any
        (fun p => p.diagnostics.map (fun d => (d.issue, d.span)) ==
          [(.emptyStatement, ⟨7, 8⟩), (.emptyStatement, ⟨24, 25⟩)]) = true := by
    decide +kernel
  obtain ⟨parsed, h, hdiagnostics⟩ := exists_parse hparsed
  exact ⟨parsed, h, eq_of_beq hdiagnostics, warnings_exact h⟩

end DualSyntax
