import DualSyntax.Proofs.Lowering.Arrays

/-!
# Blocks

The shapes of `If`, `Do` and `Case` blocks, of assignments that are statements and of parameters with
a rank.  A `Do` block with a condition at both ends is refused.
-/

namespace DualSyntax.Lowering

open Forest Lower

variable {δ : Type}

namespace Survey

variable (s : Survey δ)

section Blocks

variable [DecidableEq δ]

def branch (k : TokenKind) : List (Part δ) :=
  [.keep k .keyword, .node .condition, .dropMaybe .kwThen, .node .trueStatement]

/-- Whether the matches of a definition are `ElseIf` parts. -/
def isElseIf (d : δ) : Bool :=
  !s.refusable d && s.leaves (s.partsAfter d (branch .kwElseIf) (s.opening d))

/-- Whether the matches of a definition are `Else` parts. -/
def isElse (d : δ) : Bool :=
  !s.refusable d && s.leaves (do
    let o ← (s.opening d).take (·.isAny [.kwElse])
    o.take (·.isFormOf s.lowered))

/-- Whether the children of a match of `d` are those of an `If` block. -/
def isIfBlock (elseIf elsePart d : δ) (o : Outlook δ) : Bool :=
  s.isElseIf elseIf && s.isElse elsePart && s.leaves (do
    let o ← s.partsAfter d (branch .kwIf) o
    let o ← o.takeAll (·.isForm elseIf) (·.isForm elseIf)
    s.partsAfter d [.keep .kwEnd .endKeyword] (o.takeMaybe (·.isForm elsePart)))

end Blocks

def conditionWords : List TokenKind := [.kwWhile, .kwUntil]

/-- The outlook behind the condition of a loop, if one stands there. -/
def pastCondition (o : Outlook δ) : Option (Outlook δ) := do
  let inner ← (o.past (·.isAny conditionWords)).take (·.isFormOf s.lowered)
  return inner ++ o.without (·.isAny conditionWords)

/-- Whether the children of a match are those of a `Do` block. -/
def isDoLoop (o : Outlook δ) : Bool :=
  (do
    let o ← o.take (·.isAny [.kwDo])
    let o ← s.pastCondition o
    let o ← o.take (·.isFormOf s.lowered)
    let o ← o.take (·.isAny [.kwLoop])
    s.pastCondition o).any Outlook.ends

/-- Whether the matches of a definition are children that may become nodes. -/
def isBody (d : δ) : Bool := !s.refusable d && (s.grammar.rule d).any (·.every s.admits)

/-- Whether the children of a match are those of a case. -/
def isCase (o : Outlook δ) : Bool :=
  s.leaves (do
    let o ← o.take (·.isAny [.kwCase])
    let values ← (o.without (·.isAny [.kwElse])).take (·.isFormOf s.isList)
    (o.past (·.isAny [.kwElse]) ++ values).take (·.isFormOf s.isBody))

/-- Whether the children of a match are those of an assignment. -/
def isAssignment (operator? : TokenKind → Option AssignmentOperator) (o : Outlook δ) : Bool :=
  s.leaves (do
    let o ← o.take (·.isFormOf s.lowered)
    let o ← o.take fun
      | .token k => (operator? k).isSome
      | .node _ => false
    o.take (·.isFormOf s.lowered))

/-- Whether the children of a match of `d` are those of a parameter with a rank. -/
def isRankedParameter [DecidableEq δ] (rank clause d : δ) (o : Outlook δ) : Bool :=
  s.harmless rank && s.harmless clause && s.spellsClause clause && s.leaves (do
    let o ← o.takeAll (·.isToken) (·.isToken)
    let o ← o.take (·.isFormOf s.lowered)
    s.partsAfter d [.given .eq (some .assign) [.node .defaultExpression]]
      ((o.takeMaybe (·.isForm rank)).takeMaybe (·.isForm clause)))

end Survey

def loopConditions (raw : RawTree δ) : Nat :=
  raw.children.countP (·.symbol.isAny Survey.conditionWords)

namespace Setting

variable {s : Survey δ} {source : Source} {e : LowerError} {ready clean : RawTree δ → Prop}
  {recur : Recur δ} {draft : Draft} {f : Forest} {d : δ} {i j : Nat}
  {cs : List (RawTree δ)} {o o' : Outlook δ} {c : Cursor δ} {raw t : RawTree δ} {n : NodeId}

/-! ## `If` blocks -/

section Ifs

variable [DecidableEq δ] {elseIf elsePart : δ}

/-- What is left of an `If` block once it is known what stands in its `ElseIf` and `Else` parts. -/
def closeIf (g : Grammar δ) (recur : Recur δ) (n : NodeId) (raw : RawTree δ) (c : Cursor δ)
    (tail : Option NodeId) : Lower NodeId := do
  if let some tail := tail then set n .falseStatement tail
  let _ ← readParts g recur n raw c [.keep .kwEnd .endKeyword]
  return n

theorem does_closeIf (hs : Setting s source e ready clean recur)
    (hready : Opened s.grammar ready (.node (some d) i j cs)) (hd : s.refusable d = false)
    (hend : s.leaves (s.partsAfter d [.keep .kwEnd .endKeyword] o) = true)
    (hc : Reached s.grammar clean (.node (some d) i j cs) o c) {f₁ : Forest}
    (hn : Fresh f f₁ n) {tail : Option NodeId} (htail : FreshMaybe f₁ draft.forest tail) :
    Does source e (clean (.node (some d) i j cs))
      (closeIf s.grammar recur n (.node (some d) i j cs) c tail) draft
      fun n draft' => Fresh f draft'.forest n := by
  have hfinish : ∀ draft₁ : Draft, Grows f₁ draft₁.forest →
      Does source e (clean (.node (some d) i j cs)) (do
        let _ ← readParts s.grammar recur n (.node (some d) i j cs) c [.keep .kwEnd .endKeyword]
        return n) draft₁ fun n draft' => Fresh f draft'.forest n := by
    intro draft₁ hgrows
    have hn := hn.then_grows hgrows
    exact (hs.steps_readParts hend hready hd hc hn.root).finish
      fun _ _ hgrows => .pure (hn.then_grows hgrows)
  cases tail with
  | none => exact hfinish draft htail.grows
  | some m =>
      refine Does.andThen ((attaches_set source n .falseStatement).does_fresh hn.root
        (htail.fresh m rfl)) fun _ draft₁ hgrows => ?_
      exact hfinish draft₁ hgrows

theorem does_elseIfs (hs : Setting s source e ready clean recur) (helseIf : s.isElseIf elseIf = true)
    (ts : List (RawTree δ)) (hts : ∀ t ∈ ts, ready t ∧ t.symbol.isForm elseIf = true)
    {tail : Option NodeId} (htail : FreshMaybe f draft.forest tail) :
    Does source e (∀ t ∈ ts, clean t) (elseIfs s.grammar recur ts tail) draft fun r draft' =>
      FreshMaybe f draft'.forest r := by
  induction ts generalizing draft tail with
  | nil => exact (Does.pure htail).given (by simp)
  | cons t ts ih =>
      rw [List.forall_mem_cons] at hts ⊢
      obtain ⟨i, j, cs, rfl⟩ := exists_of_isForm hts.1.2
      have hopened := hs.opened hts.1.1
      have hfits := helseIf
      rw [Survey.isElseIf, Bool.and_eq_true, Bool.not_eq_true'] at hfits
      have hbuild : Makes source e _ _ draft :=
        hs.makes_build hopened hfits.1 (hs.opening hopened) hfits.2 .ifElseStatement
      refine Does.bind hbuild fun _ n draft₁ hmade => ?_
      have hn := hmade.after_grows htail.grows
      cases tail with
      | none => exact ih hts.2 (.some hn)
      | some m =>
          have hm := htail.fresh m rfl
          obtain ⟨draft₂, hset, hn₂, -⟩ := (attaches_set source n .falseStatement).fresh hn
            (hm.root.of_grows hmade.grows) hm.new (hmade.ne hm.root).symm
          exact .after hset (ih hts.2 (.some hn₂))

theorem does_else (hs : Setting s source e ready clean recur) (helse : s.isElse elsePart = true)
    (ht : ready t) (hform : t.symbol.isForm elsePart = true) :
    Does source e (clean t) (do
      let (_, c) ← (cursor s.grammar t).token .kwElse
      return some (← recur (← c.node).1)) draft fun r draft' =>
        FreshMaybe draft.forest draft'.forest r := by
  obtain ⟨i, j, cs, rfl⟩ := exists_of_isForm hform
  rw [Survey.isElse, Bool.and_eq_true, Bool.not_eq_true'] at helse
  obtain ⟨o₂, hafter, hspares⟩ := (Option.any_eq_true _ _).mp helse.2
  obtain ⟨o₁, ho₁, hafter⟩ := Option.bind_eq_some_iff.mp hafter
  obtain ⟨hmust₁, rfl⟩ := Outlook.take_eq_some.mp ho₁
  obtain ⟨hmust₂, rfl⟩ := Outlook.take_eq_some.mp hafter
  have hopened := hs.opened ht
  obtain ⟨tk, c₁, htoken, hc₁⟩ := (Reached.start (hs.opening hopened)).token hs hmust₁
  obtain ⟨u, c₂, hnode, hu, hform, hclean, hc₂⟩ := hc₁.node hs hopened hmust₂
  rw [htoken, pure_bind]
  dsimp only
  rw [hnode, pure_bind]
  refine (hs.makes hu hform draft).part hclean fun hclean n draft₁ hn => ?_
  exact (Does.pure (.some hn)).given ((hc₂ hclean).finish hs helse.1 hopened hspares)

theorem makes_ifBlock (hs : Setting s source e ready clean recur)
    (hready : Opened s.grammar ready (.node (some d) i j cs)) (hd : s.refusable d = false)
    (hopening : o.Foresees (cursor s.grammar (.node (some d) i j cs)).rest)
    (ho : s.isIfBlock elseIf elsePart d o = true) :
    Makes source e (clean (.node (some d) i j cs))
      (shaped s.grammar recur (.node (some d) i j cs) (.ifBlock elseIf elsePart)) draft := by
  rw [Survey.isIfBlock, Bool.and_eq_true, Bool.and_eq_true] at ho
  obtain ⟨⟨helseIf, helse⟩, hfits⟩ := ho
  obtain ⟨o₃, hafter, hspares⟩ := (Option.any_eq_true _ _).mp hfits
  obtain ⟨o₁, ho₁, hafter⟩ := Option.bind_eq_some_iff.mp hafter
  obtain ⟨o₂, ho₂, hafter⟩ := Option.bind_eq_some_iff.mp hafter
  have hend : s.leaves (s.partsAfter d [.keep .kwEnd .endKeyword]
      (o₂.takeMaybe (·.isForm elsePart))) = true :=
    (Option.any_eq_true _ _).mpr ⟨o₃, hafter, hspares⟩
  let n := draft.forest.size
  have hn := fresh_allocate draft.forest .ifElseStatement
    (source.lines.textRange ((RawTree.node (some d) i j cs).span source.stream))
  obtain ⟨ok, c₁, hok, hreached, hdoes⟩ :=
    hs.exists_readParts ho₁ hready (.start hopening) n
  refine .after rfl (.after rfl ?_)
  refine (hdoes _ hn.root).part hok fun hok c' draft₁ hc' => ?_
  obtain ⟨rfl, hgrows⟩ := hc'
  have hc₁ := hreached hok
  have hn := hn.then_grows hgrows
  rw [Cursor.takeNodes_some]
  dsimp only
  have hparts : ∀ t ∈ c'.rest.takeWhile (·.symbol.isForm elseIf),
      t ∈ (RawTree.node (some d) i j cs).children ∧ ready t ∧ t.symbol.isForm elseIf = true := by
    intro t ht
    have hmem := hc₁.mem_children t ((List.takeWhile_sublist _).subset ht)
    exact ⟨hmem, hready.child hmem, List.all_eq_true.mp List.all_takeWhile t ht⟩
  -- what is left once the tail is known: the `ElseIf` parts around it, and the end of the block
  have hrest : ∀ (tail : Option NodeId) (c₂ : Cursor δ) (draft₂ : Draft),
      FreshMaybe draft₁.forest draft₂.forest tail →
      ((∀ t ∈ c'.rest.takeWhile (·.symbol.isForm elseIf), clean t) →
        Reached s.grammar clean (.node (some d) i j cs) (o₂.takeMaybe (·.isForm elsePart)) c₂) →
      Does source e (clean (.node (some d) i j cs)) (do
        closeIf s.grammar recur n (.node (some d) i j cs) c₂
          (← elseIfs s.grammar recur (c'.rest.takeWhile (·.symbol.isForm elseIf)).reverse tail))
        draft₂ fun n draft' => Fresh draft.forest draft'.forest n := by
    intro tail c₂ draft₂ htail hc₂
    have helseIfs := hs.does_elseIfs helseIf (c'.rest.takeWhile (·.symbol.isForm elseIf)).reverse
      (fun t ht => (hparts t (List.mem_reverse.mp ht)).2) htail
    refine helseIfs.part (fun h t ht => hs.clean_child h (hparts t (List.mem_reverse.mp ht)).1)
      fun hclean r draft₃ hr => ?_
    exact hs.does_closeIf hready hd hend (hc₂ fun t ht => hclean t (List.mem_reverse.mpr ht)) hn hr
  have hforesees := (hc₁.foresees.takeAll ho₂).2
  rcases Cursor.eatForm_or (c := { c' with rest := c'.rest.dropWhile (·.symbol.isForm elseIf) })
    elsePart hforesees with ⟨part, c₂, heat, htook⟩ | ⟨heat, hwithout⟩
  · rw [heat]
    have hmem := hc₁.mem_children part ((List.dropWhile_sublist _).subset htook.mem)
    have hpart : Does source e (clean part) _ draft₁ _ :=
      hs.does_else helse (hready.child hmem) htook.holds
    have hall := hpart.part (fun h => hs.clean_child h hmem) fun hclean tail draft₂ htail =>
      hrest tail c₂ draft₂ htail fun hparts =>
        ((hc₁.takeAll ho₂ hparts).took htook hclean).mono (List.subset_append_left _ _)
    simp only [bind_assoc, pure_bind] at hall ⊢
    exact hall
  · rw [heat]
    refine hrest none _ draft₁ .none fun hparts => ?_
    exact (hc₁.takeAll ho₂ hparts).narrow (hwithout.mono (List.subset_append_right _ _))

end Ifs

/-! ## `Do` blocks -/

inductive Condition (s : Survey δ) : Option (Bool × RawTree δ) → List (RawTree δ) → Prop
  | absent : Condition s none []
  | present {tk : Token} {t : RawTree δ} (b : Bool)
      (hword : Survey.conditionWords.contains tk.kind = true)
      (hform : t.symbol.isFormOf s.lowered = true) : Condition s (some (b, t)) [.leaf tk, t]

theorem exists_loopCondition (ho' : s.pastCondition o = some o') (hc : o.Foresees c.rest) :
    ∃ found part c', loopCondition c = pure (found, c') ∧ c.rest = part ++ c'.rest ∧
      Condition s found part ∧ o'.Foresees c'.rest := by
  obtain ⟨inner, hinner, ho'⟩ := Option.bind_eq_some_iff.mp ho'
  cases ho'
  obtain ⟨hmust, rfl⟩ := Outlook.take_eq_some.mp hinner
  rcases Cursor.eatAny_or Survey.conditionWords hc with ⟨tk, c₁, heat, htook⟩ | ⟨heat, hwithout⟩
  · obtain ⟨t, rest, hrest, htook'⟩ := Cursor.took_of_must htook.foresees hmust
    have hread : loopCondition c = pure (some (tk.kind == .kwUntil, t), { c₁ with rest }) := by
      have heat' : c.eatAny [.kwWhile, .kwUntil] = (some tk, c₁) := heat
      rw [loopCondition, heat']
      dsimp only
      rw [Cursor.node_node hrest (isNode_of_isFormOf _ htook'.holds), pure_bind]
    refine ⟨_, [.leaf tk, t], _, hread, ?_, .present _ htook.holds htook'.holds, ?_⟩
    · rw [htook.rest, hrest]
      rfl
    · exact htook'.foresees.mono (List.subset_append_left _ _)
  · have heat' : c.eatAny [.kwWhile, .kwUntil] = (none, c) := heat
    refine ⟨none, [], c, ?_, rfl, .absent, hwithout.mono (List.subset_append_right _ _)⟩
    rw [loopCondition, heat']

theorem Condition.countP {found : Option (Bool × RawTree δ)} {part : List (RawTree δ)}
    (h : Condition s found part) :
    part.countP (·.symbol.isAny Survey.conditionWords) = if found.isSome then 1 else 0 := by
  cases h with
  | absent => rfl
  | @present tk t b hword hform =>
      rw [List.contains_iff_mem] at hword
      cases t with
      | leaf => cases hform
      | node => simp [hword, RawTree.symbol, Symbol.isAny]

theorem loopConditions_eq (hterminators : ∀ k ∈ s.grammar.terminators,
    Survey.conditionWords.contains k = false) (raw : RawTree δ) :
    loopConditions raw =
      (cursor s.grammar raw).rest.countP (·.symbol.isAny Survey.conditionWords) := by
  rw [loopConditions, cursor, List.countP_filter]
  refine List.countP_congr fun c _ => ?_
  cases c with
  | node => simp [RawTree.symbol, Symbol.isAny]
  | leaf t =>
      by_cases ht : t.kind ∈ s.grammar.terminators
      · have hword : t.kind ∉ Survey.conditionWords := by simpa using hterminators t.kind ht
        simp [RawTree.symbol, Symbol.isAny, RawTree.token?, hword]
      · simp [RawTree.token?, ht]

theorem does_loop (hs : Setting s source e ready clean recur) (kind : NodeKind) (span : Span)
    (kw : Token) (condition : Option (RawTree δ)) {body : RawTree δ}
    (hcondition : ∀ t ∈ condition, ready t ∧ t.symbol.isFormOf s.lowered = true)
    (hbody : ready body ∧ body.symbol.isFormOf s.lowered = true) :
    Makes source e ((∀ t ∈ condition, clean t) ∧ clean body) (do
      let n ← allocate kind span
      setToken n .keyword kw
      if let some condition := condition then set n .condition (← recur condition)
      set n .embeddedStatement (← recur body)
      return n) draft := by
  refine (makes_allocate kind span).andThen fun n draft₁ hn => ?_
  refine (steps_setToken .keyword kw hn.root).andThen fun _ draft₂ hgrows => ?_
  have hn := hn.then_grows hgrows
  have hrest : ∀ draft₃ : Draft, Fresh draft.forest draft₃.forest n →
      Does source e (clean body) (recur body >>= fun m => set n .embeddedStatement m >>= fun _ =>
        pure n) draft₃ fun n draft' => Fresh draft.forest draft'.forest n := by
    intro draft₃ hn
    exact Makes.attachFinish (hs.makes hbody.1 hbody.2 draft₃)
      (attaches_set source n .embeddedStatement) hn.root fun _ hgrows => .pure (hn.then_grows hgrows)
  cases condition with
  | none => exact (hrest draft₂ hn).iff (by simp)
  | some t =>
      obtain ⟨ht, hform⟩ := hcondition t rfl
      have hboth : clean t ∧ clean body ↔ (∀ u ∈ some t, clean u) ∧ clean body := by simp
      refine Does.iff ?_ hboth
      exact Makes.attachThen (hs.makes ht hform draft₂) (attaches_set source n .condition) hn.root
        fun draft₃ hgrows => hrest draft₃ (hn.then_grows hgrows)

/-- A `Do` block is refused if it has two conditions. -/
theorem makes_doLoop [DecidableEq δ] (hs : Setting s source e ready clean recur)
    (hready : Opened s.grammar ready (.node (some d) i j cs))
    (hopening : o.Foresees (cursor s.grammar (.node (some d) i j cs)).rest)
    (ho : s.isDoLoop o = true)
    (hterminators : ∀ k ∈ s.grammar.terminators, Survey.conditionWords.contains k = false)
    (hwhole : clean (.node (some d) i j cs) ↔
      loopConditions (.node (some d) i j cs) ≤ 1 ∧ ∀ c ∈ cs, clean c)
    (he : e = .unexpectedShape (s.grammar.name d) "a single loop condition") :
    Makes source e (clean (.node (some d) i j cs))
      (shaped s.grammar recur (.node (some d) i j cs) .doLoop) draft := by
  obtain ⟨o₅, hafter, hends⟩ := (Option.any_eq_true _ _).mp ho
  obtain ⟨o₁, ho₁, hafter⟩ := Option.bind_eq_some_iff.mp hafter
  obtain ⟨o₂, ho₂, hafter⟩ := Option.bind_eq_some_iff.mp hafter
  obtain ⟨o₃, ho₃, hafter⟩ := Option.bind_eq_some_iff.mp hafter
  obtain ⟨o₄, ho₄, ho₅⟩ := Option.bind_eq_some_iff.mp hafter
  obtain ⟨hmust₁, rfl⟩ := Outlook.take_eq_some.mp ho₁
  obtain ⟨hmust₃, rfl⟩ := Outlook.take_eq_some.mp ho₃
  obtain ⟨hmust₄, rfl⟩ := Outlook.take_eq_some.mp ho₄
  obtain ⟨kw, c₁, htoken₁, htook₁⟩ := Cursor.token_must hopening hmust₁
  obtain ⟨before, part₁, c₂, hbefore, hrest₂, hcond₁, hc₂⟩ := exists_loopCondition ho₂ htook₁.foresees
  obtain ⟨body, rest₃, hrest₃, htook₃⟩ := Cursor.took_of_must hc₂ hmust₃
  obtain ⟨lp, c₄, htoken₄, htook₄⟩ := Cursor.token_must htook₃.foresees hmust₄
  obtain ⟨behind, part₂, c₅, hbehind, hrest₅, hcond₂, hc₅⟩ := exists_loopCondition ho₅ htook₄.foresees
  -- all children, in order
  have hall : (cursor s.grammar (.node (some d) i j cs)).rest =
      .leaf kw :: (part₁ ++ body :: .leaf lp :: part₂) := by
    have hrest₄ : rest₃ = .leaf lp :: c₄.rest := htook₄.rest
    rw [htook₁.rest, hrest₂, hrest₃, hrest₄, hrest₅, hc₅.ends hends, List.append_nil]
  have hcount : loopConditions (.node (some d) i j cs) =
      (if before.isSome then 1 else 0) + if behind.isSome then 1 else 0 := by
    have hkw : (RawTree.leaf kw : RawTree δ).symbol.isAny Survey.conditionWords = false := by
      have hkind : kw.kind = .kwDo := by simpa [RawTree.symbol, Symbol.isAny] using htook₁.holds
      simp [RawTree.symbol, Symbol.isAny, hkind, Survey.conditionWords]
    have hlp : (RawTree.leaf lp : RawTree δ).symbol.isAny Survey.conditionWords = false := by
      have hkind : lp.kind = .kwLoop := by simpa [RawTree.symbol, Symbol.isAny] using htook₄.holds
      simp [RawTree.symbol, Symbol.isAny, hkind, Survey.conditionWords]
    have hbody : body.symbol.isAny Survey.conditionWords = false := by
      obtain ⟨d', i', j', cs', rfl, -⟩ := exists_of_isFormOf htook₃.holds
      rfl
    rw [loopConditions_eq hterminators, hall]
    simp [List.countP_append, hkw, hlp, hbody, hcond₁.countP, hcond₂.countP]
  have hchildren : (∀ c ∈ cs, clean c) ↔
      (∀ t ∈ part₁, clean t) ∧ clean body ∧ ∀ t ∈ part₂, clean t := by
    have hrest : (∀ c ∈ cs, clean c) ↔
        ∀ t ∈ (cursor s.grammar (.node (some d) i j cs)).rest, clean t :=
      ⟨fun h t ht => h t (mem_children_of_mem_cursor ht),
        fun h => hs.clean_children (t := .node (some d) i j cs) h⟩
    rw [hrest, hall]
    simp [or_imp, forall_and, hs.clean_leaf]
  have hmem : ∀ t ∈ (cursor s.grammar (.node (some d) i j cs)).rest, ready t :=
    fun t ht => hready.child (mem_children_of_mem_cursor ht)
  rw [hall] at hmem
  have hbody : ready body ∧ body.symbol.isFormOf s.lowered = true :=
    ⟨hmem body (by simp), htook₃.holds⟩
  rw [hcount, hchildren] at hwhole
  rw [shaped, doLoop, htoken₁, pure_bind]
  dsimp only
  rw [hbefore, pure_bind]
  dsimp only
  rw [Cursor.node_node hrest₃ (isNode_of_isFormOf _ htook₃.holds), pure_bind]
  dsimp only
  rw [htoken₄, pure_bind]
  dsimp only
  rw [hbehind, pure_bind]
  dsimp only
  refine Does.iff ?_ hwhole.symm
  cases hcond₁ with
  | absent =>
      cases hcond₂ with
      | absent =>
          refine .after rfl ((hs.does_loop _ _ kw none (by simp) hbody).iff ?_)
          simp
      | @present tk t negated hword hform =>
          refine .after rfl ((hs.does_loop _ _ kw (some t) ?_ hbody).iff ?_)
          · simpa using ⟨hmem t (by simp), hform⟩
          · simp [hs.clean_leaf, and_comm]
  | @present tk t negated hword hform =>
      cases hcond₂ with
      | absent =>
          refine .after rfl ((hs.does_loop _ _ kw (some t) ?_ hbody).iff ?_)
          · simpa using ⟨hmem t (by simp), hform⟩
          · simp [hs.clean_leaf]
      | present =>
          subst he
          exact .throw (by simp)

/-! ## Cases -/

theorem makes_caseLabel (hs : Setting s source e ready clean recur) (ht : ready t)
    (hadmits : s.admits t.symbol = true) :
    Makes source e (clean t) (caseLabel recur t) draft := by
  refine (hs.makes_child ht hadmits).finish fun value draft₁ hvalue => .after (inspect_ok _) ?_
  split
  · exact .pure hvalue
  · exact .pure hvalue
  · exact .after rfl ((does_wrap source e hvalue _ _ _).imp fun _ _ h => h.fresh)

/-- Each of some matches becomes a node below an owner. -/
theorem steps_attachAll {make : RawTree δ → Lower NodeId} {ts : List (RawTree δ)} {owner : NodeId}
    (hmake : ∀ t ∈ ts, ∀ draft, Makes source e (clean t) (make t) draft) (title : Title)
    (ho : draft.forest.IsRoot owner) :
    Steps source e (∀ t ∈ ts, clean t) (forIn ts PUnit.unit fun t _ => do
      push owner title (← make t)
      pure (ForInStep.yield PUnit.unit)) draft :=
  steps_forIn (fun t ht draft ho => Makes.attachFinish (hmake t ht draft)
    (attaches_push source owner title) ho fun _ hgrows => .pure ⟨rfl, hgrows⟩) ho

theorem makes_caseBlock [DecidableEq δ] (hs : Setting s source e ready clean recur)
    (hready : Opened s.grammar ready (.node (some d) i j cs)) (hd : s.refusable d = false)
    (hopening : o.Foresees (cursor s.grammar (.node (some d) i j cs)).rest)
    (ho : s.isCase o = true) :
    Makes source e (clean (.node (some d) i j cs))
      (shaped s.grammar recur (.node (some d) i j cs) .caseBlock) draft := by
  obtain ⟨o₃, hafter, hspares⟩ := (Option.any_eq_true _ _).mp ho
  obtain ⟨o₁, ho₁, hafter⟩ := Option.bind_eq_some_iff.mp hafter
  obtain ⟨values, hvalues, hafter⟩ := Option.bind_eq_some_iff.mp hafter
  obtain ⟨hmust₁, hpast₁⟩ := Outlook.take_eq_some.mp ho₁
  obtain ⟨hmust₂, hpast₂⟩ := Outlook.take_eq_some.mp hvalues
  obtain ⟨hmust₃, rfl⟩ := Outlook.take_eq_some.mp hafter
  obtain ⟨kw, c₁, htoken, hc₁⟩ := (Reached.start hopening).token hs hmust₁
  rw [hpast₁] at hc₁
  refine .after rfl ((makes_allocate _ _).andThen fun n draft₁ hn => ?_)
  rw [htoken, pure_bind]
  -- the statements, once the labels are there
  have hrest : ∀ (c₂ : Cursor δ) (draft₂ : Draft), Fresh draft.forest draft₂.forest n →
      Reached s.grammar clean (.node (some d) i j cs) (o₁.past (·.isAny [.kwElse]) ++ values) c₂ →
      Does source e (clean (.node (some d) i j cs)) (do
        for u in (← c₂.node).1.children do push n .statements (← Lowering.child recur u)
        return n) draft₂ fun n draft' => Fresh draft.forest draft'.forest n := by
    intro c₂ draft₂ hn hc₂
    obtain ⟨body, c₃, hnode, hbody, hform, hclean, hc₃⟩ := hc₂.node hs hready hmust₃
    obtain ⟨d', i', j', cs', rfl, hd'⟩ := exists_of_isFormOf hform
    rw [Survey.isBody, Bool.and_eq_true, Bool.not_eq_true'] at hd'
    rw [hnode, pure_bind]
    refine ((steps_attachAll (fun u hu draft => ?_) .statements hn.root).iff
      (hs.clean_iff_children hd'.1)).part hclean fun hclean _ draft₃ hgrows => ?_
    · exact hs.makes_child (hs.child hbody hu) (every_child ⟨hs.opened hbody, rfl⟩ hd'.2 u hu)
    · exact (Does.pure (hn.then_grows hgrows)).given ((hc₃ hclean).finish hs hd hready hspares)
  dsimp only
  rcases Cursor.eat_or .kwElse hc₁.foresees with ⟨tk, c₂, heat, htook⟩ | ⟨heat, hwithout⟩
  · rw [heat]
    dsimp only
    refine (makes_allocate _ _).andThen fun label draft₂ hlabel => ?_
    refine (steps_setToken .keyword kw hlabel.root).andThen fun _ draft₃ hgrows => ?_
    have hlabel := hlabel.then_grows hgrows
    refine ((attaches_push source n .caseLabels).does_fresh hn.root hlabel).andThen
      fun _ draft₄ hgrows => ?_
    refine hrest c₂ draft₄ (hn.then_grows hgrows) ?_
    exact (hc₁.took htook (hs.clean_leaf tk)).mono (List.subset_append_left _ _)
  · rw [heat]
    dsimp only
    obtain ⟨list, c₂, hnode, hlist, hform, hclean, hc₂⟩ := (hc₁.narrow hwithout).node hs hready hmust₂
    obtain ⟨d', i', j', cs', rfl, hd'⟩ := exists_of_isFormOf hform
    rw [hpast₂] at hc₂
    rw [hnode, pure_bind]
    have hopened := hs.opened hlist
    refine ((steps_attachAll (fun u hu draft => ?_) .caseLabels hn.root).iff
      (hs.clean_items hd' hopened)).part hclean fun hclean _ draft₂ hgrows => ?_
    · exact hs.makes_caseLabel (hopened.child (mem_children_of_mem_items hu))
        ((items_of_isList hd' hopened).1 u hu)
    · exact hrest c₂ draft₂ (hn.then_grows hgrows)
        ((hc₂ hclean).mono (List.subset_append_right _ _))

/-! ## Assignments and parameters -/

theorem makes_assignment [DecidableEq δ] (hs : Setting s source e ready clean recur)
    (hready : Opened s.grammar ready (.node (some d) i j cs)) (hd : s.refusable d = false)
    (hopening : o.Foresees (cursor s.grammar (.node (some d) i j cs)).rest)
    {operator? : TokenKind → Option AssignmentOperator} (ho : s.isAssignment operator? o = true) :
    Makes source e (clean (.node (some d) i j cs))
      (shaped s.grammar recur (.node (some d) i j cs) (.assignment operator?)) draft := by
  obtain ⟨o₃, hafter, hspares⟩ := (Option.any_eq_true _ _).mp ho
  obtain ⟨o₁, ho₁, hafter⟩ := Option.bind_eq_some_iff.mp hafter
  obtain ⟨o₂, ho₂, hafter⟩ := Option.bind_eq_some_iff.mp hafter
  obtain ⟨hmust₁, rfl⟩ := Outlook.take_eq_some.mp ho₁
  obtain ⟨hmust₂, rfl⟩ := Outlook.take_eq_some.mp ho₂
  obtain ⟨hmust₃, rfl⟩ := Outlook.take_eq_some.mp hafter
  obtain ⟨target, c₁, hnode, htarget, hform, hclean, hc₁⟩ :=
    (Reached.start hopening).node hs hready hmust₁
  refine .after rfl ((makes_allocate _ _).andThen fun statement draft₁ hstatement => ?_)
  rw [hnode, pure_bind]
  dsimp only
  refine (hs.makes htarget hform draft₁).part hclean fun hclean left draft₂ hleft => ?_
  have hc₁ := hc₁ hclean
  obtain ⟨t, rest, hrest, htook⟩ := Cursor.took_of_must hc₁.foresees hmust₂
  cases t with
  | node => cases htook.holds
  | leaf tk =>
      obtain ⟨op, hop⟩ := Option.isSome_iff_exists.mp htook.holds
      obtain ⟨value, c₃, hnode, hvalue, hform, hclean, hc₃⟩ :=
        (hc₁.took htook (hs.clean_leaf tk)).node hs hready hmust₃
      rw [Cursor.anyToken_leaf hrest, pure_bind]
      dsimp only
      rw [hop]
      dsimp only
      have hwrap : Does source e True (do
          let n ← allocate (.assignmentExpression op)
            ((RawTree.node (some d) i j cs).span source.stream)
          set n .left left
          return n) draft₂ fun n draft' => Wraps draft₁.forest draft₂.forest draft'.forest
            (.assignmentExpression op) .left left n := does_wrap source e hleft _ _ _
      have hrest : ∀ n draft₃, Wraps draft₁.forest draft₂.forest draft₃.forest
          (.assignmentExpression op) .left left n →
          Does source e (clean (.node (some d) i j cs)) (do
            setToken n .operatorToken tk
            set n .value (← recur (← ({ c₁ with rest } : Cursor δ).node).1)
            set statement .expression n
            return statement) draft₃ fun n draft' => Fresh draft.forest draft'.forest n := by
        intro n draft₃ hn
        refine (steps_setToken .operatorToken tk hn.fresh.root).andThen fun _ draft₄ hgrows => ?_
        have hn := hn.fresh.then_grows hgrows
        rw [hnode, pure_bind]
        refine (hs.makes hvalue hform draft₄).part hclean fun hclean m draft₅ hm => ?_
        obtain ⟨draft₆, hset, hn₆, -⟩ := (attaches_set source n .value).fresh
          (hn.then_grows hm.grows) hm.root (Nat.le_trans hn.grows.size_le hm.new) (hm.ne hn.root)
        refine .after hset ?_
        refine ((attaches_set source statement .expression).does_fresh hstatement.root hn₆).andThen
          fun _ draft₇ hgrows => ?_
        exact (Does.pure (hstatement.then_grows hgrows)).given
          ((hc₃ hclean).finish hs hd hready hspares)
      simpa only [bind_assoc, pure_bind] using hwrap.andThen hrest

/-- A match of a harmless definition, if one stands there. -/
theorem Reached.eatForm [DecidableEq δ] (hs : Setting s source e ready clean recur)
    (hraw : Opened s.grammar ready raw) (h : Reached s.grammar clean raw o c)
    (hd : s.harmless d = true) :
    Reached s.grammar clean raw (o.takeMaybe (·.isForm d)) (c.eatForm d).2 ∧
      ∀ t ∈ (c.eatForm d).1, Fine ready clean t ∧ t.symbol.isForm d = true := by
  rcases Cursor.eatForm_or d h.foresees with ⟨t, c', heat, htook⟩ | ⟨heat, hwithout⟩
  · have ht : ready t := hraw.child (h.mem_children t htook.mem)
    have hform : t.symbol.isForm d = true := htook.holds
    obtain ⟨i, j, cs, rfl⟩ := exists_of_isForm hform
    have hclean := hs.clean_of_spares ht hd
    rw [heat]
    refine ⟨(h.took htook hclean).mono (List.subset_append_left _ _), fun u hu => ?_⟩
    cases hu
    exact ⟨⟨ht, hclean⟩, hform⟩
  · rw [heat]
    exact ⟨(h.narrow hwithout).mono (List.subset_append_right _ _), fun u hu => nomatch hu⟩

theorem makes_rankedParameter [DecidableEq δ] (hs : Setting s source e ready clean recur)
    (hready : Opened s.grammar ready (.node (some d) i j cs)) (hd : s.refusable d = false)
    (hopening : o.Foresees (cursor s.grammar (.node (some d) i j cs)).rest) {rank clause : δ}
    (ho : s.isRankedParameter rank clause d o = true) (passing : ParameterModifier) :
    Makes source e (clean (.node (some d) i j cs))
      (shaped s.grammar recur (.node (some d) i j cs) (.rankedParameter passing rank clause))
      draft := by
  simp only [Survey.isRankedParameter, Bool.and_eq_true] at ho
  obtain ⟨⟨⟨hrank, hclause⟩, hspells⟩, hfits⟩ := ho
  obtain ⟨o₃, hafter, hspares⟩ := (Option.any_eq_true _ _).mp hfits
  obtain ⟨o₁, ho₁, hafter⟩ := Option.bind_eq_some_iff.mp hafter
  obtain ⟨o₂, ho₂, hafter⟩ := Option.bind_eq_some_iff.mp hafter
  obtain ⟨hmust₂, rfl⟩ := Outlook.take_eq_some.mp ho₂
  have hfits : s.leaves (s.partsAfter d _ _) = true := (Option.any_eq_true _ _).mpr ⟨o₃, hafter, hspares⟩
  have hwords : ∀ t ∈ (cursor s.grammar (.node (some d) i j cs)).rest.takeWhile (·.symbol.isToken),
      clean t := by
    intro t ht
    have htoken : t.symbol.isToken = true := List.all_eq_true.mp List.all_takeWhile t ht
    obtain ⟨tk, rfl⟩ := exists_leaf htoken
    exact hs.clean_leaf tk
  have hskip : (fun t : RawTree δ => t.token?.isSome) = fun t => t.symbol.isToken := by
    funext t
    cases t <;> rfl
  have hc₁ := (Reached.start hopening).takeAll ho₁ hwords
  obtain ⟨name, c₂, hnode, hname, hform, hclean, hc₂⟩ := hc₁.node hs hready hmust₂
  refine .after rfl ((makes_allocate _ _).andThen fun n draft₁ hn => ?_)
  dsimp only
  rw [hskip, hnode, pure_bind]
  dsimp only
  refine (hs.makes hname hform draft₁).part hclean fun hclean m draft₂ hm => ?_
  refine ((attaches_set source n .identifier).does_fresh hn.root hm).andThen fun _ draft₃ hgrows => ?_
  have hn := hn.then_grows hgrows
  obtain ⟨hc₃, hranked⟩ := (hc₂ hclean).eatForm hs hready hrank
  obtain ⟨hc₄, hclaused⟩ := hc₃.eatForm hs hready hclause
  have hfinish : ∀ draft₄ : Draft, Grows draft₃.forest draft₄.forest →
      Does source e (clean (.node (some d) i j cs)) (do
        let _ ← readParts s.grammar recur n (.node (some d) i j cs)
          ((c₂.eatForm rank).2.eatForm clause).2 [.given .eq (some .assign) [.node .defaultExpression]]
        return n) draft₄ fun n draft' => Fresh draft.forest draft'.forest n := by
    intro draft₄ hgrows
    have hn := hn.then_grows hgrows
    exact (hs.steps_readParts hfits hready hd hc₄ hn.root).finish fun _ _ hgrows =>
      .pure (hn.then_grows hgrows)
  split
  case h_2 => exact hfinish draft₃ (.refl _ _)
  case h_1 found hfound =>
    obtain ⟨hfine, hform⟩ := hclaused _ hfound
    obtain ⟨i', j', cs', rfl⟩ := exists_of_isForm hform
    refine (hs.makes_clauseType hfine hspells).andThen fun type draft₄ htype => ?_
    split
    · refine .after rfl ((makes_arrayOf htype _ _).andThen fun array draft₅ harray => ?_)
      exact ((attaches_set source n .type).does_fresh hn.root harray).andThen fun _ draft₆ => hfinish draft₆
    · exact ((attaches_set source n .type).does_fresh hn.root htype).andThen fun _ draft₅ => hfinish draft₅

end Setting

end DualSyntax.Lowering
