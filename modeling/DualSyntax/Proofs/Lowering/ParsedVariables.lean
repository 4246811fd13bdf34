import DualSyntax.Proofs.Lowering.DeclaredVariables
import DualSyntax.Proofs.Lowering.ParsedNamespaces

/-!
# Variables of parsed texts

A VB list of declarators always becomes the variables of its declaration, in order.  Each of them has
the type of the clause that serves it, as its own or as that of the declaration.
-/

namespace DualSyntax

open Forest Lower Lowering

/-! ## Effective types -/

namespace Forest

def effectiveType? (f : Forest) (owner n : NodeId) : Option NodeId :=
  (f.child? n .type).or (f.child? owner .type)

def HoldsEffective (f : Forest) (owner n : NodeId) : Option Tree → Prop
  | none => f.effectiveType? owner n = none
  | some t => ∃ m, f.effectiveType? owner n = some m ∧ f.Holds m t

variable {f : Forest} {owner n : NodeId} {own shared : Option Tree}

theorem child?_none (h : f.HoldsType n none) : f.child? n .type = none := by
  have hnone : f.children n .type = [] := h
  rw [child?_eq_head?, hnone, List.head?_nil]

theorem holdsEffective (hown : f.HoldsType n own) (hshared : f.HoldsType owner shared) :
    f.HoldsEffective owner n (own.or shared) := by
  cases own with
  | some t =>
      obtain ⟨m, hm, hholds⟩ := hown
      exact ⟨m, by rw [effectiveType?, child?_eq_head?, hm]; rfl, hholds⟩
  | none =>
      have heffective : f.effectiveType? owner n = f.child? owner .type := by
        rw [effectiveType?, child?_none hown, Option.none_or]
      cases shared with
      | none => exact heffective.trans (child?_none hshared)
      | some t =>
          obtain ⟨m, hm, hholds⟩ := hshared
          exact ⟨m, by rw [heffective, child?_eq_head?, hm]; rfl, hholds⟩

end Forest

namespace Lowering

variable {δ : Type} {g : Grammar δ} {tree : RawTree δ → Tree} {ds : List (Declarator δ)} {i : Nat}
  {f : Forest} {owner : NodeId} {nameOf : Declarator δ → String}

theorem ownType_or_sharedType {p : Declarator δ × Option (Nat × RawTree δ)}
    (hp : (ds.zip (clausesFrom 0 ds))[i]? = some p) :
    (ownType g tree (sharesType ds (clausesFrom 0 ds)) p).or
      (sharedType g tree (sharesType ds (clausesFrom 0 ds)) (ds.zip (clausesFrom 0 ds))) =
        p.2.map fun found => p.1.typeTree g (tree found.2) := by
  cases hshared : sharesType ds (clausesFrom 0 ds) with
  | false => simp [ownType, sharedType]
  | true =>
      obtain ⟨hone, hsame⟩ := of_sharesType hshared
      obtain ⟨hd, hclause⟩ := List.getElem?_zip_eq_some.mp hp
      have hi : i < ds.length := (List.getElem?_eq_some_iff.mp hd).1
      obtain ⟨first, rest, hds⟩ := List.exists_cons_of_length_pos (Nat.zero_lt_of_lt hi)
      have hfirst : (clausesFrom 0 ds)[0]? = some p.2 := (hsame i hi).symm.trans hclause
      have hhead : (ds.zip (clausesFrom 0 ds)).head? = some (first, p.2) := by
        rw [List.head?_eq_getElem?, List.getElem?_zip_eq_some]
        exact ⟨by rw [hds, List.getElem?_cons_zero], hfirst⟩
      have htree (t : Tree) : first.typeTree g t = p.1.typeTree g t := by
        rcases hone with hone | hnone
        · have hzero : i = 0 := by omega
          rw [hzero, hds, List.getElem?_cons_zero, Option.some_inj] at hd
          rw [hd]
        · have hfirst := hnone first (by simp [hds])
          have hthis := hnone p.1 (List.mem_of_getElem? hd)
          rw [Declarator.typeTree, Declarator.typeTree, hfirst, hthis]
      simp [ownType, sharedType, hhead, htree]

theorem DeclaresAll.holdsEffective (h : DeclaresAll g f owner tree nameOf ds) {n : NodeId}
    {p : Declarator δ × Option (Nat × RawTree δ)}
    (hn : (f.children owner .declarators)[i]? = some n)
    (hp : (ds.zip (clausesFrom 0 ds))[i]? = some p) :
    f.HoldsEffective owner n (p.2.map fun found => p.1.typeTree g (tree found.2)) := by
  obtain ⟨hlength, heach⟩ := List.forall₂_iff_get.mp h.each
  obtain ⟨hi, rfl⟩ := List.getElem?_eq_some_iff.mp hn
  obtain ⟨hi', rfl⟩ := List.getElem?_eq_some_iff.mp hp
  rw [← ownType_or_sharedType hp]
  exact Forest.holdsEffective (heach i hi hi').type h.type

end Lowering

namespace VisualBasic

def declaratorForms : DeclaratorForms Form := ⟨.arrayNameSuffix, .asClause, .asNewClause⟩

/-- The parts of a declarator, by what stands among its children. -/
def partsOf (raw : RawTree Form) : Declarator Form where
  raw
  name := (raw.children.find? (·.isForm .identifier)).getD raw
  suffix := raw.children.find? (·.isForm .arrayNameSuffix)
  clause := raw.children.find? fun c => c.isForm .asClause || c.isForm .asNewClause
  assign := raw.childTokens.find? (·.kind == .eq)
  initializer := raw.children.find? (·.isForm .declaratorInitializer)

theorem symbol_eq_token {t : RawTree Form} {k : TokenKind} : t.symbol = .token k ↔
    ∃ tk : Token, tk.kind = k ∧ t = .leaf tk := by
  cases t with
  | leaf tk => simp [RawTree.symbol]
  | node => simp [RawTree.symbol]

theorem symbol_eq_node {t : RawTree Form} {d : Form} : t.symbol = .node (some d) ↔
    ∃ i j cs, t = .node (some d) i j cs := by
  cases t with
  | leaf tk => simp [RawTree.symbol]
  | node form i j cs => simp [RawTree.symbol]

/-- What stands in a declarator: its name, and maybe a suffix, a clause and an initializer. -/
structure DeclaratorChildren (cs : List (RawTree Form)) (name : RawTree Form)
    (suffix clause : Option (RawTree Form)) (value : List (RawTree Form)) : Prop where
  children : cs = name :: (suffix.toList ++ clause.toList ++ value)
  name : name.symbol = .node (some .identifier)
  suffix : ∀ t ∈ suffix, t.symbol = .node (some .arrayNameSuffix)
  clause : ∀ t ∈ clause, t.symbol = .node (some .asClause) ∨ t.symbol = .node (some .asNewClause)
  value : value = [] ∨ ∃ tk init, tk.kind = .eq ∧ init.symbol = .node (some .declaratorInitializer) ∧
    value = [.leaf tk, init]

theorem exists_optional {ts : List (RawTree Form)} {ws : List (Symbol Form)}
    (h : ts.map RawTree.symbol ∈ [] :: ws.map fun a => [a]) :
    ∃ o : Option (RawTree Form), ts = o.toList ∧ ∀ t ∈ o, t.symbol ∈ ws := by
  rcases List.mem_cons.mp h with hnil | h
  · exact ⟨none, List.map_eq_nil_iff.mp hnil, by simp⟩
  · obtain ⟨a, ha, heq⟩ := List.mem_map.mp h
    obtain ⟨t, rest, rfl, rfl, hrest⟩ := List.map_eq_cons_iff.mp heq.symm
    rw [List.map_eq_nil_iff.mp hrest]
    exact ⟨some t, rfl, by simpa using ha⟩

theorem exists_children {i j : Nat} {cs : List (RawTree Form)}
    (h : Conforms grammar (.node (some .variableDeclarator) i j cs)) :
    ∃ name suffix clause value, DeclaratorChildren cs name suffix clause value := by
  cases h with
  | node hrule hspells _ =>
      cases hrule
      have hword := hspells.mem_words (by decide)
      have hall : Rule.wordsAll [rule .variableDeclarator] =
          ([] :: [Symbol.node (some .arrayNameSuffix)].map fun a => [a]).flatMap fun s =>
            ([] :: [Symbol.node (some .asNewClause), .node (some .asClause)].map fun a => [a]).flatMap
              fun c => [[], [.token .eq, .node (some .declaratorInitializer)]].map fun v =>
                .node (some .identifier) :: (s ++ c ++ v) := by rfl
      rw [hall] at hword
      obtain ⟨s, hs, hword⟩ := List.mem_flatMap.mp hword
      obtain ⟨c, hc, hword⟩ := List.mem_flatMap.mp hword
      obtain ⟨v, hv, hword⟩ := List.mem_map.mp hword
      obtain ⟨name, rest, rfl, hname, hrest⟩ := List.map_eq_cons_iff.mp hword.symm
      obtain ⟨front, value, rfl, hfront, hvalue⟩ := List.map_eq_append_iff.mp hrest
      obtain ⟨ss, cs, rfl, hss, hcs⟩ := List.map_eq_append_iff.mp hfront
      obtain ⟨suffix, rfl, hsuffix⟩ := exists_optional (hss ▸ hs)
      obtain ⟨clause, rfl, hclause⟩ := exists_optional (hcs ▸ hc)
      refine ⟨name, suffix, clause, value, rfl, hname, by simpa using hsuffix, ?_, ?_⟩
      · intro t ht
        have hmem := hclause t ht
        simp only [List.mem_cons, List.not_mem_nil, or_false] at hmem
        exact hmem.symm
      · simp only [List.mem_cons, List.not_mem_nil, or_false] at hv
        rcases hv with rfl | rfl
        · exact .inl (List.map_eq_nil_iff.mp hvalue)
        · obtain ⟨eq, rest, rfl, heq, htail⟩ := List.map_eq_cons_iff.mp hvalue
          obtain ⟨init, rest, rfl, hinit, hnil⟩ := List.map_eq_cons_iff.mp htail
          obtain ⟨tk, hk, rfl⟩ := symbol_eq_token.mp heq
          rw [List.map_eq_nil_iff.mp hnil]
          exact .inr ⟨tk, init, hk, hinit, rfl⟩

theorem none_or_node {o : Option (RawTree Form)} {d : Form}
    (h : ∀ t ∈ o, t.symbol = .node (some d)) :
    o = none ∨ ∃ i j cs, o = some (.node (some d) i j cs) := by
  cases o with
  | none => exact .inl rfl
  | some t =>
      obtain ⟨i, j, cs, rfl⟩ := symbol_eq_node.mp (h t rfl)
      exact .inr ⟨i, j, cs, rfl⟩

theorem readDeclarator_eq {i j : Nat} {cs : List (RawTree Form)} {name : RawTree Form}
    {suffix clause : Option (RawTree Form)} {value : List (RawTree Form)}
    (h : DeclaratorChildren cs name suffix clause value) :
    readDeclarator grammar declaratorForms (.node (some .variableDeclarator) i j cs) =
      pure (partsOf (.node (some .variableDeclarator) i j cs)) := by
  obtain ⟨rfl, hname, hsuffix, hclause, hvalue⟩ := h
  obtain ⟨i₁, j₁, cs₁, rfl⟩ := symbol_eq_node.mp hname
  have hclause : clause = none ∨ (∃ i j cs, clause = some (.node (some .asClause) i j cs)) ∨
      ∃ i j cs, clause = some (.node (some .asNewClause) i j cs) := by
    cases clause with
    | none => exact .inl rfl
    | some t => exact .inr ((hclause t rfl).imp (fun h => by simpa using symbol_eq_node.mp h)
        fun h => by simpa using symbol_eq_node.mp h)
  have hvalue : value = [] ∨ ∃ span text literal leading i j cs,
      value = [.leaf ⟨.eq, span, text, literal, leading⟩, .node (some .declaratorInitializer) i j cs] := by
    rcases hvalue with rfl | ⟨⟨k, span, text, literal, leading⟩, init, rfl, hinit, rfl⟩
    · exact .inl rfl
    · obtain ⟨i, j, cs, rfl⟩ := symbol_eq_node.mp hinit
      exact .inr ⟨_, _, _, _, i, j, cs, rfl⟩
  -- all symbols are known, so the cursor goes from child to child by computation
  rcases none_or_node hsuffix with rfl | ⟨i₂, j₂, cs₂, rfl⟩ <;>
    rcases hclause with rfl | ⟨i₃, j₃, cs₃, rfl⟩ | ⟨i₃, j₃, cs₃, rfl⟩ <;>
    rcases hvalue with rfl | ⟨span, text, literal, leading, i₄, j₄, cs₄, rfl⟩ <;>
    rfl

theorem alternate_eq_filter {P p q : Symbol Form → Bool} {ts : List (RawTree Form)}
    (h : Rule.Alternates p q (ts.map RawTree.symbol)) (hp : ∀ a, p a = true → P a = true)
    (hq : ∀ a, q a = true → P a = false) :
    RawTree.alternate ts = (ts.filter (P ·.symbol), ts.filter (!P ·.symbol)) := by
  induction ts generalizing P p q with
  | nil => rfl
  | cons t ts ih =>
      obtain ⟨ht, hrest⟩ := h
      have hflip := ih (P := fun a => !P a) hrest (fun a ha => by rw [hq a ha]; rfl)
        fun a ha => by rw [hp a ha]; rfl
      rw [RawTree.alternate, hflip]
      simp [hp _ ht]

/-- The elements of a list of declarators are the declarators among its children. -/
theorem declarators_eq {i j : Nat} {cs : List (RawTree Form)}
    (h : Conforms grammar (.node (some .variableDeclaratorList) i j cs)) :
    ((RawTree.node (some .variableDeclaratorList) i j cs).listItems grammar).1.filter
      (·.token?.isNone) = cs.filter (·.isForm .variableDeclarator) := by
  cases h with
  | node hrule hspells _ =>
      cases hrule
      have halt := hspells.alternates rfl rfl (p := (·.isForm .variableDeclarator))
        (q := (·.isToken)) (by rfl) rfl
      have hboth := alternate_eq_filter (P := (·.isForm .variableDeclarator)) halt (fun _ h => h)
        fun a ha => by cases a with
          | token k => rfl
          | node => cases ha
      have hitems : ((RawTree.node (some .variableDeclaratorList) i j cs).listItems grammar).1 =
          (RawTree.alternate cs).1 := rfl
      rw [hitems, hboth, List.filter_filter]
      refine List.filter_congr fun t _ => ?_
      cases t with
      | leaf => rfl
      | node => exact (Bool.true_and _).trans (Cursor.isForm_eq ..).symm

/-! ## Types and names -/

def isTypeForm : Form → Bool
  | .type | .nonArrayType | .primitiveType | .typeName | .identifier | .rankSpecifier => true
  | _ => false

theorem spellTypes : SpellTypes survey isTypeForm where
  shape {d} hd tokens := by cases d <;> first | rfl | cases hd
  nests {d} hd := by cases d <;> first | rfl | cases hd
  bare {d} hd := by cases d <;> first | rfl | cases hd

variable {source : Source} {e : LowerError} {fuel : Nat}

theorem spellsClauses : survey.spellsClause declaratorForms.asType = true ∧
    survey.spellsClause declaratorForms.asNew = true := by
  decide

section Clauses

variable {ready clean : RawTree Form → Prop} {recur : Recur Form} {draft : Draft} {t : RawTree Form}

theorem exists_clause (hsymbol : t.symbol = .node (some .asClause) ∨ t.symbol = .node (some .asNewClause)) :
    ∃ d i j cs, t = .node (some d) i j cs ∧ (d = .asClause ∨ d = .asNewClause) := by
  rcases hsymbol with hsymbol | hsymbol
  · obtain ⟨i, j, cs, rfl⟩ := symbol_eq_node.mp hsymbol
    exact ⟨_, i, j, cs, rfl, .inl rfl⟩
  · obtain ⟨i, j, cs, rfl⟩ := symbol_eq_node.mp hsymbol
    exact ⟨_, i, j, cs, rfl, .inr rfl⟩

theorem makes_clause (hs : Setting survey source e ready clean recur) (ht : Setting.Fine ready clean t)
    (hsymbol : t.symbol = .node (some .asClause) ∨ t.symbol = .node (some .asNewClause)) :
    Makes source e True (clauseType survey.grammar recur t) draft := by
  obtain ⟨d, i, j, cs, rfl, rfl | rfl⟩ := exists_clause hsymbol
  · exact hs.makes_clauseType ht spellsClauses.1
  · exact hs.makes_clauseType ht spellsClauses.2

theorem exists_clauseTree (hs : Setting survey source e ready clean recur) (ht : Setting.Fine ready clean t)
    (hsymbol : t.symbol = .node (some .asClause) ∨ t.symbol = .node (some .asNewClause)) :
    ∃ tree, MakesTree source (clauseType survey.grammar (lowerUpTo grammar fuel) t) tree := by
  obtain ⟨d, i, j, cs, rfl, hd⟩ := exists_clause hsymbol
  have hmust : (survey.opening d).must (·.isAny [.kwAs]) = true ∧
      (((survey.opening d).past (·.isAny [.kwAs])).takeMaybe (·.isAny [.kwNew])).must
        (·.isFormOf isTypeForm) = true := by
    rcases hd with rfl | rfl <;> decide
  obtain ⟨tk, c, htoken, htook⟩ := Cursor.token_must (hs.opening (hs.opened ht.ready)) hmust.1
  obtain ⟨-, hfine⟩ := Setting.fine_took (hs.fine_cursor ht) htook
  obtain ⟨u, rest, hrest, hform⟩ :=
    Cursor.took_of_must (Cursor.foresees_eat .kwNew htook.foresees) hmust.2
  have hu := hfine u (Cursor.eat_subset _ _ u (by rw [hrest]; exact List.mem_cons_self ..))
  have hmatches : Matches grammar isTypeForm u :=
    ⟨hs.conforms hu.ready, by rw [hform.holds, Bool.or_true]⟩
  have hnode := isNode_of_isFormOf _ hform.holds
  have htree : ∃ tree, MakesTree source (child (lowerUpTo grammar fuel) u) tree :=
    exists_tree spellTypes fuel hmatches
  have hchild : child (lowerUpTo grammar fuel) u = lowerUpTo grammar fuel u := by
    cases u with
    | leaf => cases hnode
    | node => rfl
  rw [clauseType, htoken, pure_bind]
  dsimp only
  rw [Cursor.node_node hrest hnode, pure_bind]
  exact hchild ▸ htree

end Clauses

def spelledName (source : Source) (raw : RawTree Form) : String :=
  source.language.unescape ((raw.childTokens.map (·.text)).headD "")

theorem makesTree_identifier {t : RawTree Form} (ht : Conforms grammar t)
    (hsymbol : t.symbol = .node (some .identifier)) :
    MakesTree source (lowerUpTo grammar fuel t) (.node (.identifier (spelledName source t)) []) := by
  obtain ⟨i, j, cs, rfl⟩ := symbol_eq_node.mp hsymbol
  intro d d' n hd hrun
  cases fuel with
  | zero => cases hrun
  | succ fuel =>
      obtain ⟨m, d₁, hmade, ⟨⟩⟩ := exists_of_bind hrun
      cases ht with
      | node hrule hspells _ =>
          cases hrule
          obtain ⟨tk, rfl, -⟩ :=
            Setting.exists_leaf_of_fitsToken (p := fun _ => true) (by rfl) hspells
          obtain ⟨⟨tk', cur⟩, d₂, htoken, hword⟩ := exists_of_bind hmade
          obtain ⟨hmem, rfl⟩ := mem_of_anyToken htoken
          cases List.mem_singleton.mp (mem_children_of_mem_cursor hmem)
          exact makesTree_allocate rfl tk'.span hd hword

/-! ## Lists of declarators -/

/-- Wherever the type of a clause is read, it becomes a new root that holds a tree. -/
def SpellsType (source : Source) (fuel : Nat) (clause : RawTree Form) (t : Tree) : Prop :=
  ∀ d : Draft, d.forest.WellLinked → ∃ n d',
    clauseType grammar (lowerUpTo grammar fuel) clause source d = .ok (n, d') ∧
      Held d.forest d'.forest n t

/-- A declaration over the variables of a list of declarators. -/
structure DeclaresVariables (source : Source) (fuel : Nat) (f : Forest) (owner : NodeId)
    (ds : List (Declarator Form)) : Prop where
  /-- Every declarator becomes a variable with its name, in order. -/
  inOrder : List.Forall₂ (fun n d => f.kind n = .variableDeclarator ∧
    f.nameOf? n = some (spelledName source d.name)) (f.children owner .declarators) ds
  /-- The type is that of the clause which serves the declarator, an array of it after a suffix. -/
  served : ∀ {i j : Nat} {n : NodeId} {d : Declarator Form} {clause : RawTree Form},
    (f.children owner .declarators)[i]? = some n → ds[i]? = some d → Serves ds i j clause →
      ∃ t m, SpellsType source fuel clause t ∧ f.effectiveType? owner n = some m ∧
        f.Holds m (d.typeTree grammar t)
  /-- A variable that no clause serves has no type. -/
  unserved : ∀ {i : Nat} {n : NodeId}, (f.children owner .declarators)[i]? = some n →
    (∀ j clause, ¬ Serves ds i j clause) → f.effectiveType? owner n = none
  /-- A declaration has a type itself only if all its variables have that type. -/
  shared : f.child? owner .type ≠ none →
    (ds.length = 1 ∨ (∃ j clause, ∀ i < ds.length, Serves ds i j clause) ∧
      ∀ d ∈ ds, d.suffix = none) ∧
    ∀ n ∈ f.children owner .declarators, f.child? n .type = none

theorem declaresVariables {f : Forest} {owner : NodeId} {tree : RawTree Form → Tree}
    {ds : List (Declarator Form)} (h : DeclaresAll grammar f owner tree (spelledName source ·.name) ds)
    (hspells : ∀ d ∈ ds, ∀ clause ∈ d.clause, SpellsType source fuel clause (tree clause)) :
    DeclaresVariables source fuel f owner ds where
  inOrder := by
    obtain ⟨hlength, heach⟩ := List.forall₂_iff_get.mp h.each
    have hsame : (ds.zip (clausesFrom 0 ds)).length = ds.length := by simp
    refine List.forall₂_iff_get.mpr ⟨hlength.trans hsame, fun i hi hi' => ?_⟩
    have hvariable := heach i hi (hlength ▸ hi)
    refine ⟨hvariable.kind, hvariable.name.trans ?_⟩
    simp
  served {i j n d clause} hn hd hserves := by
    have hclause := clausesFrom_eq_some.mpr ⟨j, (Nat.zero_add j).symm, hserves⟩
    have hzip : (ds.zip (clausesFrom 0 ds))[i]? = some (d, some (j, clause)) :=
      List.getElem?_zip_eq_some.mpr ⟨hd, hclause⟩
    obtain ⟨m, hm, hholds⟩ := h.holdsEffective hn hzip
    obtain ⟨e, he, hfound⟩ := Option.bind_eq_some_iff.mp hserves.found
    exact ⟨tree clause, m, hspells e (List.mem_of_getElem? he) clause hfound, hm, hholds⟩
  unserved {i n} hn hnone := by
    obtain ⟨hi, -⟩ := List.getElem?_eq_some_iff.mp hn
    obtain ⟨hlength, -⟩ := List.forall₂_iff_get.mp h.each
    rw [hlength] at hi
    have heffective := h.holdsEffective hn (List.getElem?_eq_getElem hi)
    have hzip := List.getElem?_zip_eq_some.mp (List.getElem?_eq_getElem hi)
    cases hfound : (ds.zip (clausesFrom 0 ds))[i].2 with
    | none => rwa [hfound] at heffective
    | some found =>
        rw [hfound] at hzip
        obtain ⟨j, -, hserves⟩ := clausesFrom_eq_some.mp hzip.2
        exact absurd hserves (hnone j found.2)
  shared htype := by
    cases hshared : sharesType ds (clausesFrom 0 ds) with
    | false =>
        refine absurd (child?_none ?_) htype
        simpa [sharedType, hshared] using h.type
    | true =>
        obtain ⟨hone, hsame⟩ := of_sharesType hshared
        refine ⟨?_, fun n hn => ?_⟩
        · by_cases hlength : ds.length = 1
          · exact .inl hlength
          have hplain := hone.resolve_left hlength
          obtain ⟨t, hsome⟩ := Option.ne_none_iff_exists'.mp fun hnone =>
            htype (child?_none (hnone ▸ h.type))
          simp only [sharedType, hshared, if_true] at hsome
          obtain ⟨p, hp, hsome⟩ := Option.bind_eq_some_iff.mp hsome
          obtain ⟨⟨j, clause⟩, hfound, -⟩ := Option.map_eq_some_iff.mp hsome
          rw [List.head?_eq_getElem?, List.getElem?_zip_eq_some, hfound] at hp
          have hfirst := hp.2
          refine .inr ⟨⟨j, clause, fun i hi => ?_⟩, hplain⟩
          obtain ⟨j', hj, hserves⟩ := clausesFrom_eq_some.mp ((hsame i hi).trans hfirst)
          rwa [hj, Nat.zero_add]
        · obtain ⟨i, hi, rfl⟩ := List.getElem_of_mem hn
          obtain ⟨hlength, heach⟩ := List.forall₂_iff_get.mp h.each
          have htype := (heach i hi (hlength ▸ hi)).type
          simp only [ownType, hshared] at htype
          exact child?_none htype

theorem declarator_of_mem {i j : Nat} {cs : List (RawTree Form)} {x : Declarator Form}
    (h : Conforms grammar (.node (some .variableDeclaratorList) i j cs))
    (hx : x ∈ (cs.filter (·.isForm .variableDeclarator)).map partsOf) :
    x.name.symbol = .node (some .identifier) ∧ x.In (Matches grammar namespaceForms.isInner) := by
  obtain ⟨t, ht, rfl⟩ := List.mem_map.mp hx
  obtain ⟨ht, hform⟩ := List.mem_filter.mp ht
  rw [Cursor.isForm_eq] at hform
  obtain ⟨i', j', cs', rfl⟩ := exists_of_isForm hform
  have hraw : Matches grammar namespaceForms.isInner (.node (some .variableDeclarator) i' j' cs') :=
    .of_nests h (declares.seals.nests rfl) ht
  have hchild (c : RawTree Form) (hc : c ∈ cs') : Matches grammar namespaceForms.isInner c :=
    .of_nests hraw.conforms (declares.seals.nests rfl) hc
  obtain ⟨name, suffix, clause, value, hchildren⟩ := exists_children hraw.conforms
  have hfirst : (partsOf (.node (some .variableDeclarator) i' j' cs')).name = name := by
    have hname : name.isForm Form.identifier = true := by
      rw [Cursor.isForm_eq, hchildren.name]
      rfl
    simp [partsOf, RawTree.children, hchildren.children, hname]
  refine ⟨hfirst ▸ hchildren.name, ?_, ?_, ?_, ?_⟩
  · exact hfirst ▸ hchild name (by simp [hchildren.children])
  · exact fun c hc => hchild c (List.mem_of_find?_eq_some hc)
  · exact fun c hc => hchild c (List.mem_of_find?_eq_some hc)
  · exact fun c hc => hchild c (List.mem_of_find?_eq_some hc)

theorem mapM_readDeclarator {i j : Nat} {cs : List (RawTree Form)}
    (h : Conforms grammar (.node (some .variableDeclaratorList) i j cs)) :
    (((RawTree.node (some .variableDeclaratorList) i j cs).listItems grammar).1.filter
      (·.token?.isNone)).mapM (readDeclarator grammar declaratorForms) =
        pure ((cs.filter (·.isForm .variableDeclarator)).map partsOf) := by
  rw [declarators_eq h]
  have hread : ∀ t ∈ cs.filter (·.isForm .variableDeclarator),
      readDeclarator grammar declaratorForms t = pure (partsOf t) := by
    intro t ht
    obtain ⟨ht, hform⟩ := List.mem_filter.mp ht
    rw [Cursor.isForm_eq] at hform
    obtain ⟨i', j', cs', rfl⟩ := exists_of_isForm hform
    have hraw : Matches grammar namespaceForms.isInner (.node (some .variableDeclarator) i' j' cs') :=
      .of_nests h (declares.seals.nests rfl) ht
    obtain ⟨name, suffix, clause, value, hchildren⟩ := exists_children hraw.conforms
    exact readDeclarator_eq hchildren
  generalize cs.filter (·.isForm .variableDeclarator) = ts at hread
  induction ts with
  | nil => rfl
  | cons t ts ih =>
      rw [List.forall_mem_cons] at hread
      rw [List.mapM_cons, hread.1, pure_bind, ih hread.2, pure_bind, List.map_cons]

theorem inward_lowerUpTo (f : Forest) :
    Inward (.gains f) (lowerUpTo grammar fuel) (Matches grammar namespaceForms.isInner) where
  child ht hc := ht.child declares.seals.nests hc
  adds ht := adds_lowerUpTo (declares.seals.accepts f) fuel ht

abbrev MayBeLowered (source : Source) (fuel : Nat) : RawTree Form → Prop :=
  Setting.Fine (Ready survey source fuel) (Clean isRefused)

theorem exists_clauseTrees (source : Source) (fuel : Nat) : ∃ tree : RawTree Form → Tree,
    ∀ t, MayBeLowered source fuel t →
      t.symbol = .node (some .asClause) ∨ t.symbol = .node (some .asNewClause) →
        MakesTree source (clauseType grammar (lowerUpTo grammar fuel) t) (tree t) := by
  have htrees (t : RawTree Form) : ∃ tree, MayBeLowered source fuel t →
      t.symbol = .node (some .asClause) ∨ t.symbol = .node (some .asNewClause) →
        MakesTree source (clauseType grammar (lowerUpTo grammar fuel) t) tree := by
    by_cases h : MayBeLowered source fuel t ∧
        (t.symbol = .node (some .asClause) ∨ t.symbol = .node (some .asNewClause))
    · obtain ⟨tree, htree⟩ := exists_clauseTree (Language.visualBasic.setting source fuel) h.1 h.2
      exact ⟨tree, fun _ _ => htree⟩
    · exact ⟨.node .blankLine [], fun hfine hsymbol => (h ⟨hfine, hsymbol⟩).elim⟩
  exact Classical.skolem.mp htrees

section Lists

variable {i j : Nat} {cs : List (RawTree Form)} {tree : RawTree Form → Tree}

theorem served_of_mem (h : Conforms grammar (.node (some .variableDeclaratorList) i j cs))
    (hdeclared : ∀ x ∈ (cs.filter (·.isForm .variableDeclarator)).map partsOf,
      Setting.Declared survey (Ready survey source fuel) (Clean isRefused) declaratorForms x)
    (htree : ∀ t, MayBeLowered source fuel t →
      t.symbol = .node (some .asClause) ∨ t.symbol = .node (some .asNewClause) →
        MakesTree source (clauseType grammar (lowerUpTo grammar fuel) t) (tree t))
    {x : Declarator Form} {found : Option (Nat × RawTree Form)}
    (hx : x ∈ (cs.filter (·.isForm .variableDeclarator)).map partsOf)
    (hfound : found ∈ clausesFrom 0 ((cs.filter (·.isForm .variableDeclarator)).map partsOf)) :
    Served survey source (Ready survey source fuel) (Clean isRefused)
      (Matches grammar namespaceForms.isInner) (lowerUpTo grammar fuel) declaratorForms tree x
      (found.map (·.2)) (spelledName source x.name) := by
  obtain ⟨hname, hin⟩ := declarator_of_mem h hx
  refine ⟨hdeclared x hx, hin, fun t ht => ?_, ?_⟩
  · have hclause := Setting.clause_of_mem spellsClauses hdeclared hfound t ht
    obtain ⟨pair, rfl, rfl⟩ := Option.map_eq_some_iff.mp ht
    obtain ⟨y, hy, hown⟩ := mem_clausesFrom hfound
    obtain ⟨hfine, hsymbol⟩ := (hdeclared y hy).clause pair.2 hown
    have hinside := clausesFrom_in (fun y hy => (declarator_of_mem h hy).2) _ hfound pair rfl
    exact ⟨hclause, hinside, htree pair.2 hfine hsymbol⟩
  · exact makesTree_identifier (hdeclared x hx).name.1.ready.conforms hname

/-- Any list of declarators in a parsed text becomes the variables of its declaration. -/
theorem exists_declaredVariables {fragment : Fragment} {src : List Char} {raw : RawTree Form}
    {d : Draft} {owner : NodeId}
    (hraw : parseRaw .visualBasic fragment src = .ok (source, raw))
    (hlist : .node (some .variableDeclaratorList) i j cs ∈ raw.nodes)
    (hfuel : (RawTree.node (some Form.variableDeclaratorList) i j cs).height ≤ fuel)
    (hd : d.forest.WellLinked) (ho : d.forest.IsRoot owner)
    (htype : d.forest.children owner .type = [])
    (hnone : d.forest.children owner .declarators = []) :
    ∃ d', addDeclarators grammar (lowerUpTo grammar fuel) declaratorForms owner
        (.node (some .variableDeclaratorList) i j cs) source d = .ok ((), d') ∧
      DeclaresVariables source fuel d'.forest owner
        ((cs.filter (·.isForm .variableDeclarator)).map partsOf) := by
  have hs := Language.visualBasic.setting source fuel
  have hready : Ready survey source fuel _ := ready_of_parseRaw hraw hlist rfl hfuel
  have hfine : MayBeLowered source fuel (.node (some .variableDeclaratorList) i j cs) :=
    ⟨hready, checked.clean_of_spares hready.conforms rfl⟩
  have hforms : survey.declares declaratorForms .variableDeclaratorList = true := by decide
  obtain ⟨⟨⟩, d', hrun, -⟩ := (hs.steps_addDeclarators hforms hfine ho).succeeds trivial
  have hread := mapM_readDeclarator hready.conforms
  obtain ⟨xs, hxs, hdeclared, -⟩ := hs.exists_mapM_readDeclarator hforms hfine
  obtain rfl : xs = (cs.filter (·.isForm .variableDeclarator)).map partsOf := by
    have hsame := congrFun (congrFun (hxs.symm.trans hread) source) d
    cases hsame
    rfl
  obtain ⟨tree, htree⟩ := exists_clauseTrees source fuel
  have hall : DeclaresAll grammar d'.forest owner tree (spelledName source ·.name)
      ((cs.filter (·.isForm .variableDeclarator)).map partsOf) := by
    refine declaresAll_of_run hs inward_lowerUpTo (by decide) hread (fun p hp => ?_) hd ho htype
      hnone hrun
    obtain ⟨hx, hfound⟩ := List.of_mem_zip (show (p.1, p.2) ∈ _ from hp)
    exact served_of_mem hready.conforms hdeclared htree hx hfound
  refine ⟨d', hrun, declaresVariables hall fun x hx clause hclause d₁ hd₁ => ?_⟩
  obtain ⟨hfine, hsymbol⟩ := (hdeclared x hx).clause clause hclause
  have hmakes : Makes source _ True _ d₁ := makes_clause hs hfine hsymbol
  obtain ⟨n, d₂, hmade, -⟩ := hmakes.succeeds trivial
  exact ⟨n, d₂, hmade, htree clause hfine hsymbol hd₁ hmade⟩

/-- Two variables that share a clause, and one with a suffix and a clause of its own. -/
theorem exists_declaredVariables_mixed : ∃ source raw i j cs,
    parseRaw .visualBasic .statement "Dim a, b As T, c(2) As U".toList = .ok (source, raw) ∧
    .node (some .variableDeclaratorList) i j cs ∈ raw.nodes ∧
    ∃ d', addDeclarators grammar (lowerUpTo grammar (RawTree.height
        (.node (some Form.variableDeclaratorList) i j cs))) declaratorForms 0
        (.node (some .variableDeclaratorList) i j cs) source
        { forest := (Forest.allocate {} .variableDeclarationStatement default).2 } = .ok ((), d') ∧
      DeclaresVariables source (RawTree.height (.node (some Form.variableDeclaratorList) i j cs))
        d'.forest 0 ((cs.filter (·.isForm .variableDeclarator)).map partsOf) := by
  have hparsed : (parseRaw .visualBasic .statement "Dim a, b As T, c(2) As U".toList).toOption.any
      (·.2.nodes.any (·.isForm Form.variableDeclaratorList)) = true := by decide +kernel
  obtain ⟨source, raw, hraw, hany⟩ := exists_parseRaw hparsed
  obtain ⟨t, ht, hform⟩ := List.any_eq_true.mp hany
  rw [Cursor.isForm_eq] at hform
  obtain ⟨i, j, cs, rfl⟩ := exists_of_isForm hform
  refine ⟨source, raw, i, j, cs, hraw, ht, exists_declaredVariables hraw ht (Nat.le_refl _) ?_ ?_ rfl rfl⟩
  · exact Forest.WellLinked.empty.allocate _ _
  · exact isRoot_allocate _ _ _

end Lists

end VisualBasic

end DualSyntax
