import DualSyntax.Proofs.Lowering.Namespaces
import DualSyntax.Proofs.Lowering.Total
import DualSyntax.Proofs.Parsing.Formatting
import DualSyntax.Proofs.RoundTrip.Names

/-!
# Namespaces of a parsed text

What a match of a namespace becomes, and hence what the namespaces of a parsed text are.
-/

/-!
## Grammars with namespaces

A grammar declares namespaces by a few definitions; all others are sealed and add inner nodes.  Then every
node that lowering makes is in its place: by induction on the depth of the tree, with one case for the
sealed definitions, one for members and one for namespaces.
-/

namespace DualSyntax.Lowering

open Forest Lower Semantics

variable {δ : Type} [DecidableEq δ]

structure NamespaceForms (δ : Type) where
  unit : δ
  namespaceForm : δ
  member : δ
  name : δ
  identifier : δ
  /-- The tokens that are taken as names. -/
  words : List TokenKind
  /-- The parts of a namespace after its name. -/
  body : List (Part δ)

/-- Whether a definition is none of those below which namespaces may be declared. -/
def NamespaceForms.isInner (forms : NamespaceForms δ) (d : δ) : Bool :=
  d != forms.unit && d != forms.namespaceForm && d != forms.member

/-- Whether matches of a definition become nodes below a compilation unit. -/
def Survey.isBelow (s : Survey δ) (forms : NamespaceForms δ) (d : δ) : Bool :=
  d != forms.unit && s.lowered d

structure Survey.Declares (s : Survey δ) (forms : NamespaceForms δ) : Prop where
  seals : s.Seals forms.isInner
  unitShape : ∀ tokens, s.grammar.shape forms.unit tokens =
    .build .compilationUnit [.everything .members]
  namespaceShape : ∀ tokens, s.grammar.shape forms.namespaceForm tokens =
    .build .namespaceDeclaration (.keep .kwNamespace .keyword :: .node .fullName :: forms.body)
  memberShape : ∀ tokens, s.grammar.shape forms.member tokens = .forward
  nameShape : ∀ tokens, s.grammar.shape forms.name tokens = .qualifiedType
  identifierShape : ∀ tokens, s.grammar.shape forms.identifier tokens = .identifier
  body : forms.body.all isFurnishing = true
  /-- A namespace begins with a word and its name. -/
  opens : (s.opening forms.namespaceForm).must (·.isAny [.kwNamespace]) = true
  opensName : ((s.opening forms.namespaceForm).past (·.isAny [.kwNamespace])).must
    (·.isForm forms.name) = true
  nests : ∀ d ∈ [forms.unit, forms.namespaceForm, forms.member], s.nests (s.isBelow forms) d = true
  names : s.grammar.rule forms.name = some ((Rule.ref forms.identifier).sepBy1 (.token .dot))
  words : (s.grammar.rule forms.identifier).any (fun r => r.unit && r.every (·.isAny forms.words)) = true
  inner : (forms.isInner forms.name && s.lowered forms.name) = true
  bare : (s.grammar.keepsTrivia forms.name || s.grammar.keepsTrivia forms.identifier) = false

variable {s : Survey δ} {forms : NamespaceForms δ} {source : Source} {e : LowerError}
  {refused : RawTree δ → Bool} {fuel : Nat} {k : NodeKind} {t : RawTree δ} {d d' : Draft}
  {n c : NodeId} {x : Lower NodeId}

/-! ### Matches -/

omit [DecidableEq δ] in
/-- A match whose tokens for names mean names. -/
structure Legible (s : Survey δ) (forms : NamespaceForms δ) (source : Source) (fuel : Nat)
    (t : RawTree δ) : Prop where
  ready : Ready s source fuel t
  names : ∀ tk ∈ t.tokens, forms.words.contains tk.kind = true →
    IsName (source.language.unescape tk.text)

omit [DecidableEq δ] in
theorem Legible.child (h : Legible s forms source (fuel + 1) t) {c : RawTree δ}
    (hc : c ∈ t.children) : Legible s forms source fuel c := by
  refine ⟨h.ready.child hc, fun tk htk => h.names tk ?_⟩
  cases t with
  | leaf => cases hc
  | node => exact RawTree.tokens_subset_tokensOf hc htk

/-- All matches of smaller heights become nodes. -/
abbrev LowersAll (s : Survey δ) (source : Source) (e : LowerError) (refused : RawTree δ → Bool) : Prop :=
  ∀ fuel, Setting s source e (Ready s source fuel) (Clean refused) (lowerUpTo s.grammar fuel)

/-- A step that makes a new root and adds inner nodes only. -/
theorem places_of_adds {ok : Prop} (hadds : ∀ f, (Upkeep.gains f).AddsNode x)
    (hmakes : ∀ draft, Makes source e ok x draft) : Places source k x := by
  intro d d' c hd hrun
  have hgains := (hadds d.forest (.refl hd) hrun).1
  have hfresh := (hmakes d).of_run hrun
  exact ⟨⟨.of_inner hgains, hfresh.root, hfresh.new⟩,
    fits_of_inner (hgains.new c hfresh.new hfresh.root.lt)⟩

theorem places_inner (hd : s.Declares forms) (hs : LowersAll s source e refused)
    (ht : Ready s source fuel t)
    (hform : t.symbol.isFormOf (fun d => forms.isInner d && s.lowered d) = true) :
    Places source k (lowerUpTo s.grammar fuel t) := by
  obtain ⟨d, i, j, cs, rfl, hboth⟩ := exists_of_isFormOf hform
  rw [Bool.and_eq_true] at hboth
  exact places_of_adds (fun f => adds_lowerUpTo (hd.seals.accepts f) fuel ⟨ht.conforms, hboth.1⟩)
    fun draft => (hs fuel).makes ht hboth.2 draft

/-! ### Names -/

theorem exists_word (hd : s.Declares forms) (ht : Legible s forms source fuel t)
    (hform : t.symbol.isForm forms.identifier = true) :
    ∃ tk i j, t = .node (some forms.identifier) i j [.leaf tk] ∧
      IsName (source.language.unescape tk.text) := by
  obtain ⟨i, j, cs, rfl⟩ := exists_of_isForm hform
  cases ht.ready.conforms with
  | node hrule hspells _ =>
      have hwords := hd.words
      rw [hrule, Option.any_some, Bool.and_eq_true] at hwords
      obtain ⟨c, rfl, hc⟩ := Setting.exists_single hwords.1 hwords.2 hspells
      obtain ⟨tk, rfl, hk⟩ := leaf_of_isAny hc
      refine ⟨tk, i, j, rfl, ht.names tk ?_ hk⟩
      simp [RawTree.tokens, RawTree.tokensOf]

omit [DecidableEq δ] in
/-- A token that was taken was the next child. -/
theorem mem_of_anyToken {cur : Cursor δ} {r : Token × Cursor δ}
    (hrun : cur.anyToken source d = .ok (r, d')) : .leaf r.1 ∈ cur.rest ∧ d' = d := by
  obtain ⟨form, rest⟩ := cur
  match rest with
  | .leaf tk :: rest =>
      cases hrun
      exact ⟨List.mem_cons_self, rfl⟩
  | .node .. :: rest => cases hrun
  | [] => cases hrun

theorem makesName_identifier (hd : s.Declares forms) (ht : Legible s forms source fuel t)
    (hform : t.symbol.isForm forms.identifier = true) :
    ∃ name, IsName name ∧ MakesName source (child (lowerUpTo s.grammar fuel) t) name := by
  obtain ⟨tk, i, j, rfl, hname⟩ := exists_word hd ht hform
  refine ⟨source.language.unescape tk.text, hname, fun d d' c hrun => ?_⟩
  have hbare := (Bool.or_eq_false_iff.mp hd.bare).2
  change lowerUpTo s.grammar fuel _ source d = _ at hrun
  cases fuel with
  | zero => cases hrun
  | succ fuel =>
      rw [lowerUpTo, hd.identifierShape, shaped] at hrun
      obtain ⟨m, d₁, hmade, hrun⟩ := exists_of_bind hrun
      rw [hbare, if_neg Bool.false_ne_true] at hrun
      cases hrun
      obtain ⟨⟨tk', cur⟩, d₂, htoken, hword⟩ := exists_of_bind hmade
      obtain ⟨hmem, rfl⟩ := mem_of_anyToken htoken
      cases List.mem_singleton.mp (mem_children_of_mem_cursor hmem)
      cases hword
      exact ⟨_, rfl, rfl⟩

theorem items_of_name (hd : s.Declares forms) (ht : Conforms s.grammar t)
    (hform : t.symbol.isForm forms.name = true) :
    ∀ u ∈ (t.listItems s.grammar).1, u.symbol.isForm forms.identifier = true := by
  obtain ⟨i, j, cs, rfl⟩ := exists_of_isForm hform
  cases ht with
  | node hrule hspells _ =>
      cases hd.names.symm.trans hrule
      have halternates := hspells.alternates rfl rfl (p := (·.isForm forms.identifier))
        (q := fun _ => true) (by simp [Rule.every, Symbol.isForm]) rfl
      rw [RawTree.listItems, hrule]
      exact (Setting.alternate_of_alternates halternates).1

theorem places_name (hd : s.Declares forms) (hs : LowersAll s source e refused)
    (ht : Legible s forms source fuel t) (hform : t.symbol.isForm forms.name = true)
    (hforest : d.forest.WellLinked) (hrun : lowerUpTo s.grammar fuel t source d = .ok (c, d')) :
    (PlacesRoot d.forest d'.forest c ∧ Making.Fits d'.forest k c) ∧
      ∃ name, dottedName? d'.forest c = some name ∧ IsName name := by
  have hitems := items_of_name hd ht.ready.conforms hform
  obtain ⟨i, j, cs, rfl⟩ := exists_of_isForm hform
  refine ⟨places_inner hd hs ht.ready hd.inner hforest hrun, ?_⟩
  have hbare := (Bool.or_eq_false_iff.mp hd.bare).1
  cases fuel with
  | zero => cases hrun
  | succ fuel =>
      rw [lowerUpTo, hd.nameShape, shaped] at hrun
      obtain ⟨m, d₁, hmade, hrun⟩ := exists_of_bind hrun
      rw [hbare, if_neg Bool.false_ne_true] at hrun
      cases hrun
      have hnames (u : RawTree δ)
          (hu : u ∈ ((RawTree.node (some forms.name) i j cs).listItems s.grammar).1) :=
        makesName_identifier hd (ht.child (Setting.mem_children_of_mem_items hu)) (hitems u hu)
      cases hall : ((RawTree.node (some forms.name) i j cs).listItems s.grammar).1 with
      | nil =>
          rw [qualifiedType, hall] at hmade
          cases hmade
      | cons first ts =>
          rw [hall, List.forall_mem_cons] at hnames
          obtain ⟨⟨name, ⟨ch, hch, hdot⟩, hfirst⟩, hts⟩ := hnames
          obtain ⟨rest, hrest⟩ := dottedName?_qualifiedType hall hfirst
            (fun u hu => (hts u hu).imp fun _ h => h.2) hforest hmade
          refine ⟨_, hrest, ch, ?_, hdot⟩
          rw [String.toList_append, List.head?_append, hch]
          rfl

/-! ### Nodes with their comments -/

omit [DecidableEq δ] in
/-- What furnishes a new root leaves it one of the same kind. -/
theorem placesRoot_furnished {f : Forest} {y : Lower Unit} {u : Unit} (h : PlacesRoot f d.forest n)
    (hy : ∀ k, Furnishes source f n k true (fun _ => True) y) (hrun : y source d = .ok (u, d')) :
    PlacesRoot f d'.forest n ∧ d'.forest.kind n = d.forest.kind n := by
  have hmade := (hy _ ⟨rfl, .of_placesRoot h rfl⟩ hrun).1.2
  exact ⟨hmade.placesRoot, hmade.kind⟩

/-- The node of a match is the one that its shape makes, with the comments in front of it. -/
theorem exists_shaped {form : δ} {i j : Nat} {cs : List (RawTree δ)}
    (hrun : lowerUpTo s.grammar (fuel + 1) (.node (some form) i j cs) source d = .ok (n, d')) :
    ∃ d₁, shaped s.grammar (lowerUpTo s.grammar fuel) (.node (some form) i j cs)
      (s.grammar.shape form ((RawTree.node (some form) i j cs).childTokens.map (·.kind))) source d =
        .ok (n, d₁) ∧ ∀ f, PlacesRoot f d₁.forest n →
          PlacesRoot f d'.forest n ∧ d'.forest.kind n = d₁.forest.kind n := by
  rw [lowerUpTo] at hrun
  obtain ⟨m, d₁, hmade, hrun⟩ := exists_of_bind hrun
  dsimp only at hrun
  split at hrun
  · obtain ⟨_, d₂, hcomments, ⟨⟩⟩ := exists_of_bind hrun
    exact ⟨_, hmade, fun f h => placesRoot_furnished h (fun _ => furnishes_attachLeading _) hcomments⟩
  · cases hrun
    exact ⟨_, hmade, fun f h => ⟨h, rfl⟩⟩

/-- A new node is one that is being made. -/
theorem making_of_build {g : Grammar δ} {recur : Recur δ} {raw : RawTree δ} {cur : Cursor δ}
    (isNamed : Bool) (hd : d.forest.WellLinked) (hk : isNamed = true → k ≠ .namespaceDeclaration)
    {parts : List (Part δ)} (hrun : build g recur raw cur k parts source d = .ok (n, d')) :
    ∃ (d₁ : Draft) (r : Cursor δ), Making d.forest n k isNamed d₁.forest ∧
      readParts g recur n raw cur parts source d₁ = .ok (r, d') := by
  obtain ⟨span, d₁, hspan, hrun⟩ := exists_of_bind hrun
  cases hspan
  obtain ⟨m, d₂, hnew, hrun⟩ := exists_of_bind hrun
  cases hnew
  obtain ⟨r, d₃, hparts, hrun⟩ := exists_of_bind hrun
  cases hrun
  exact ⟨_, r, .start hd hk _, hparts⟩

/-! ### Namespaces -/

/-- A namespace that is being made gets its name. -/
theorem making_setName {f : Forest} (hd : s.Declares forms) (hs : LowersAll s source e refused)
    (ht : Legible s forms source fuel t) (hform : t.symbol.isForm forms.name = true)
    (h : Making f n k false d.forest) {d₁ : Draft}
    (hmade : lowerUpTo s.grammar fuel t source d = .ok (c, d₁)) {u : Unit}
    (hset : Lower.set n .fullName c source d₁ = .ok (u, d')) : Making f n k true d'.forest := by
  obtain ⟨⟨hplaced, hfits⟩, name, hname, hisName⟩ :=
    places_name (k := k) hd hs ht hform h.gains.linked hmade
  obtain ⟨g, hg, rfl⟩ := exists_of_edit hset
  obtain ⟨⟨old, g⟩, hset', rfl⟩ := Option.map_eq_some_iff.mp hg
  exact (h.grow hplaced.grows).setName hplaced.root (Nat.le_trans h.gains.size_le hplaced.new)
    (h.ne_of_placesRoot hplaced) hfits hname hisName hset'

variable {i j : Nat} {cs : List (RawTree δ)}

theorem placesRoot_namespace (hd : s.Declares forms) (hs : LowersAll s source e refused)
    (ht : Legible s forms source (fuel + 1) (.node (some forms.namespaceForm) i j cs))
    (hcs : ∀ c ∈ cs, PlacesChild source .namespaceDeclaration (lowerUpTo s.grammar fuel) c)
    (hforest : d.forest.WellLinked)
    (hrun : lowerUpTo s.grammar (fuel + 1) (.node (some forms.namespaceForm) i j cs) source d =
      .ok (n, d')) :
    PlacesRoot d.forest d'.forest n ∧ d'.forest.kind n = .namespaceDeclaration := by
  obtain ⟨d₁, hmade, hcomments⟩ := exists_shaped hrun
  suffices h : Making d.forest n .namespaceDeclaration true d₁.forest by
    obtain ⟨hplaced, hkind⟩ := hcomments _ h.placesRoot
    exact ⟨hplaced, hkind.trans h.kind⟩
  rw [hd.namespaceShape, shaped] at hmade
  obtain ⟨d₂, r, hmaking, hparts⟩ := making_of_build false hforest (by simp) hmade
  -- the word and the name are the first two children
  have hopening := (hs fuel).opening ht.ready.opened
  obtain ⟨tk, cur, htoken, htook⟩ := Cursor.token_must hopening hd.opens
  obtain ⟨u, rest, hrest, htook'⟩ := Cursor.took_of_must htook.foresees hd.opensName
  have hcursor (c : RawTree δ) (hc : c ∈ u :: rest) : c ∈ cs := by
    rw [← hrest] at hc
    exact mem_children_of_mem_cursor (htook.rest ▸ List.mem_cons_of_mem _ hc)
  have hafter : Cursor.In (PlacesChild source .namespaceDeclaration (lowerUpTo s.grammar fuel))
      { cur with rest } :=
    fun c hc => hcs c (hcursor c (List.mem_cons_of_mem _ hc))
  rw [readParts, readPart, htoken, pure_bind] at hparts
  obtain ⟨_, _, hkeep, hparts⟩ := exists_of_bind hparts
  obtain ⟨_, d₃, hset, ⟨⟩⟩ := exists_of_bind hkeep
  have hkept := (furnishes_setToken rfl tk ⟨rfl, hmaking⟩ hset).1.2
  rw [readParts, readPart, Cursor.node_node hrest (isNode_of_isForm _ htook'.holds), pure_bind] at hparts
  obtain ⟨_, _, hput, hparts⟩ := exists_of_bind hparts
  obtain ⟨m, d₄, hname, hput⟩ := exists_of_bind hput
  obtain ⟨_, d₅, hset, ⟨⟩⟩ := exists_of_bind hput
  have hnamed := making_setName hd hs (ht.child (hcursor u List.mem_cons_self)) htook'.holds hkept hname hset
  exact (furnishes_readParts hcs hd.body hafter ⟨rfl, hnamed⟩ hparts).1.2

/-! ### Trees -/

/-- Matches of a limited height become new roots that may be put below a namespace or a compilation
unit. -/
def PlacesBelow (s : Survey δ) (forms : NamespaceForms δ) (source : Source) (fuel : Nat) : Prop :=
  ∀ ⦃k t⦄, k.isHost = true → Legible s forms source fuel t →
    t.symbol.isFormOf (s.isBelow forms) = true → Places source k (lowerUpTo s.grammar fuel t)

theorem placesChild_of_nests (hd : s.Declares forms) (hbelow : PlacesBelow s forms source fuel)
    {form : δ} (hform : form ∈ [forms.unit, forms.namespaceForm, forms.member])
    (ht : Legible s forms source (fuel + 1) (.node (some form) i j cs)) (hk : k.isHost = true) :
    ∀ c ∈ cs, PlacesChild source k (lowerUpTo s.grammar fuel) c := by
  intro c hc
  have hsymbol := (Matches.of_nests ht.ready.conforms (hd.nests form hform) hc).symbol
  match c with
  | .leaf tk => exact places_token tk
  | .node f i' j' cs' =>
      rw [Bool.or_eq_true] at hsymbol
      exact hbelow hk (ht.child hc) (hsymbol.resolve_left (by simp [RawTree.symbol, Symbol.isToken]))

theorem places_forward {g : Grammar δ} {recur : Recur δ} {form : δ}
    (hcs : ∀ c ∈ cs, PlacesChild source k recur c) :
    Places source k (shaped g recur (.node (some form) i j cs) .forward) := by
  intro d d' c hforest hrun
  match cs with
  | [only] =>
      rw [shaped] at hrun
      exact hcs only List.mem_cons_self hforest hrun
  | [] => cases hrun
  | _ :: _ :: _ => cases hrun

/-- By induction on the height: namespaces and members are made of what is smaller, all else is sealed. -/
theorem placesBelow (hd : s.Declares forms) (hs : LowersAll s source e refused) :
    PlacesBelow s forms source fuel := by
  induction fuel with
  | zero =>
      rintro k t - - - d d' c - ⟨⟩
  | succ fuel ih =>
      intro k t hk ht hform
      obtain ⟨form, i, j, cs, rfl, hbelow⟩ := exists_of_isFormOf hform
      rw [Survey.isBelow, Bool.and_eq_true, bne_iff_ne] at hbelow
      by_cases hspace : form = forms.namespaceForm
      · subst hspace
        intro d d' n hforest hrun
        have hcs := placesChild_of_nests hd ih (by simp) ht (k := .namespaceDeclaration) rfl
        obtain ⟨hplaced, hkind⟩ := placesRoot_namespace hd hs ht hcs hforest hrun
        exact ⟨hplaced, fun _ => ⟨hkind, hk⟩⟩
      by_cases hmember : form = forms.member
      · subst hmember
        intro d d' n hforest hrun
        have hcs := placesChild_of_nests hd ih (by simp) ht hk
        obtain ⟨d₁, hmade, hcomments⟩ := exists_shaped hrun
        obtain ⟨hplaced, hfits⟩ := places_forward hcs hforest (hd.memberShape _ ▸ hmade)
        obtain ⟨hplaced', hkind⟩ := hcomments _ hplaced
        refine ⟨hplaced', ?_⟩
        rw [Making.Fits, hkind]
        exact hfits
      · apply places_inner hd hs ht.ready
        simp [RawTree.symbol, Symbol.isFormOf, NamespaceForms.isInner, hbelow, hspace, hmember]

theorem placesRoot_unit (hd : s.Declares forms) (hs : LowersAll s source e refused)
    (ht : Legible s forms source (fuel + 1) (.node (some forms.unit) i j cs))
    (hforest : d.forest.WellLinked)
    (hrun : lowerUpTo s.grammar (fuel + 1) (.node (some forms.unit) i j cs) source d = .ok (n, d')) :
    PlacesRoot d.forest d'.forest n ∧ d'.forest.kind n = .compilationUnit := by
  have hcs := placesChild_of_nests hd (placesBelow hd hs) (by simp) ht (k := .compilationUnit) rfl
  obtain ⟨d₁, hmade, hcomments⟩ := exists_shaped hrun
  rw [hd.unitShape, shaped] at hmade
  obtain ⟨d₂, r, hmaking, hparts⟩ := making_of_build true hforest (by simp) hmade
  have hin : (cursor s.grammar (.node (some forms.unit) i j cs)).In
      (PlacesChild source .compilationUnit (lowerUpTo s.grammar fuel)) :=
    fun c hc => hcs c (mem_children_of_mem_cursor hc)
  have hparted : [Part.everything (δ := δ) .members].all isFurnishing = true := rfl
  have hdone := (furnishes_readParts hcs hparted hin ⟨rfl, hmaking⟩ hparts).1.2
  obtain ⟨hplaced, hkind⟩ := hcomments _ hdone.placesRoot
  exact ⟨hplaced, hkind.trans hdone.kind⟩

theorem placesRoot_wholeText (hd : s.Declares forms) (hs : LowersAll s source e refused)
    {inner : RawTree δ} {rest : List (RawTree δ)} (ht : Legible s forms source fuel inner)
    (hroot : inner.symbol = .node (some forms.unit)) (hforest : d.forest.WellLinked)
    (hrun : lowerUpTo s.grammar (fuel + 1) (.node none i j (inner :: rest)) source d = .ok (n, d')) :
    PlacesRoot d.forest d'.forest n ∧ d'.forest.kind n = .compilationUnit := by
  obtain ⟨i', j', cs, rfl⟩ := exists_of_isForm (d := forms.unit) (decide_eq_true hroot)
  have hfind : (RawTree.node none i j (.node (some forms.unit) i' j' cs :: rest)).children.find?
      (·.token?.isNone) = some (.node (some forms.unit) i' j' cs) := rfl
  rw [lowerUpTo, wholeText, hfind] at hrun
  obtain ⟨m, d₁, hmade, hfinish⟩ := exists_of_bind hrun
  have hunit : PlacesRoot d.forest d₁.forest m ∧ d₁.forest.kind m = .compilationUnit := by
    cases fuel with
    | zero => cases hmade
    | succ fuel => exact placesRoot_unit hd hs ht hforest hmade
  obtain ⟨_, _, ⟨⟩, hfinish⟩ := exists_of_bind hfinish
  dsimp only at hfinish
  split at hfinish
  · generalize (RawTree.childTokens _).getLast? = last at hfinish
    cases last with
    | some last =>
        obtain ⟨_, d₂, hcomments, ⟨⟩⟩ := exists_of_bind hfinish
        obtain ⟨hplaced, hkind⟩ :=
          placesRoot_furnished hunit.1 (fun _ => furnishes_attachTrailing _) hcomments
        exact ⟨hplaced, hkind.trans hunit.2⟩
    | none =>
        cases hfinish
        exact hunit
  · cases hfinish
    exact hunit

end DualSyntax.Lowering

/-!
## Namespaces of parsed texts

The grammars of both languages declare their namespaces by the same few definitions.  So in the forest of
any text that is parsed as a compilation unit, all nodes are in their places.
-/

namespace DualSyntax

open Forest Lower Lowering Semantics

theorem isName_of_isWord {s : String} (h : Lexing.IsWord s.toList) : IsName s := by
  obtain ⟨hstart, -⟩ := h
  cases hs : s.toList with
  | nil =>
      rw [hs] at hstart
      cases hstart
  | cons c cs =>
      rw [hs] at hstart
      have hc : Lexing.isNameStart c = true := by simpa [Lexing.headIs] using hstart
      exact ⟨c, by simp [hs], Lexing.ne_of_isNameStart hc rfl⟩

/-! ### The grammars -/

namespace CSharp

def namespaceForms : NamespaceForms Form where
  unit := .compilationUnit
  namespaceForm := .namespaceDeclaration
  member := .namespaceMember
  name := .typeName
  identifier := .identifier
  words := nameTokens
  body := [.keep .lBrace .leftBrace, .nodes .members] ++ closing

theorem shape_isInner {d : Form} (hd : namespaceForms.isInner d = true) (tokens : List TokenKind) :
    (shape d tokens).isInner = true := by
  cases d
  case argument => exact forwardOr_check Shape.isInner tokens rfl rfl
  case conditionalExpression => exact forwardOr_check Shape.isInner tokens rfl rfl
  case prefixUnaryExpression => exact signShape_check Shape.isInner tokens (fun _ => rfl) fun _ => rfl
  case assignmentExpression =>
    exact assignmentShape_check Shape.isInner tokens (fun _ => rfl) fun _ => rfl
  all_goals first | rfl | cases hd

theorem declares : survey.Declares namespaceForms where
  seals := by
    have hall : Form.all.all (fun d => !namespaceForms.isInner d ||
        survey.nests namespaceForms.isInner d) = true := by
      decide
    refine ⟨shape_isInner, fun {d} hd => ?_⟩
    simpa [hd] using List.all_eq_true.mp hall d (Form.mem_all d)
  unitShape _ := rfl
  namespaceShape _ := rfl
  memberShape _ := rfl
  nameShape _ := rfl
  identifierShape _ := rfl
  body := rfl
  opens := by decide
  opensName := by decide
  nests := by decide
  names := rfl
  words := by decide
  inner := rfl
  bare := rfl

end CSharp

namespace VisualBasic

def namespaceForms : NamespaceForms Form where
  unit := .compilationUnit
  namespaceForm := .namespaceDeclaration
  member := .namespaceMember
  name := .typeName
  identifier := .identifier
  words := nameTokens
  body := [.nodes .members, closingLine]

theorem castKind_isHost (tokens : List TokenKind) : (castKind tokens).isHost = false := by
  unfold castKind
  split <;> rfl

theorem signShape_isInner (tokens : List TokenKind) : (signShape tokens).isInner = true := by
  unfold signShape
  dsimp only
  split <;> rfl

theorem caseComparisonShape_isInner (tokens : List TokenKind) :
    (caseComparisonShape tokens).isInner = true := by
  unfold caseComparisonShape
  split <;> rfl

theorem ifOperatorShape_isInner (tokens : List TokenKind) :
    (ifOperatorShape tokens).isInner = true := by
  unfold ifOperatorShape
  split <;> rfl

theorem shape_isInner {d : Form} (hd : namespaceForms.isInner d = true) (tokens : List TokenKind) :
    (shape d tokens).isInner = true := by
  cases d
  case castExpression => exact congrArg (!·) (castKind_isHost tokens)
  case ifOperator => exact ifOperatorShape_isInner tokens
  case negation => exact signShape_isInner tokens
  case logicalNot => exact signShape_isInner tokens
  case caseComparisonClause => exact caseComparisonShape_isInner tokens
  all_goals first | rfl | cases hd

theorem declares : survey.Declares namespaceForms where
  seals := by
    have hall : Form.all.all (fun d => !namespaceForms.isInner d ||
        survey.nests namespaceForms.isInner d) = true := by
      decide
    refine ⟨shape_isInner, fun {d} hd => ?_⟩
    simpa [hd] using List.all_eq_true.mp hall d (Form.mem_all d)
  unitShape _ := rfl
  namespaceShape _ := rfl
  memberShape _ := rfl
  nameShape _ := rfl
  identifierShape _ := rfl
  body := rfl
  opens := by decide
  opensName := by decide
  nests := by decide
  names := rfl
  words := by decide
  inner := rfl
  bare := rfl

end VisualBasic

/-! ### Texts -/

/-- A forest below a root that is a compilation unit, with all nodes in their places. -/
structure Forest.IsUnit (f : Forest) (root : NodeId) : Prop where
  linked : f.WellLinked
  isRoot : f.IsRoot root
  kind : f.kind root = .compilationUnit
  placed : ∀ n, InPlace f n

theorem isUnit_of_placesRoot {f : Forest} {n : NodeId} (h : PlacesRoot {} f n)
    (hkind : f.kind n = .compilationUnit) : f.IsUnit n where
  linked := h.grows.gains.linked
  isRoot := h.root
  kind := hkind
  placed m := h.grows.placed m (Nat.zero_le m)

theorem isUnit_lowered {δ : Type} [DecidableEq δ] {s : Survey δ} {forms : NamespaceForms δ}
    {source : Source} {e : LowerError} {refused : RawTree δ → Bool} (hd : s.Declares forms)
    (hs : LowersAll s source e refused) {tree : RawTree δ}
    (hparse : Packrat.parse s.grammar forms.unit source.stream = .parsed tree)
    (hmodifier : ∀ tk ∈ tree.tokens, s.modifiers.contains tk.kind = true →
      (source.language.modifier? tk.text).isSome = true)
    (hliteral : ∀ tk ∈ tree.tokens, s.literals.contains tk.kind = true →
      (literalValue? tk).isSome = true)
    (hnames : ∀ tk ∈ tree.tokens, forms.words.contains tk.kind = true →
      IsName (source.language.unescape tk.text))
    {n : NodeId} {draft : Draft}
    (hrun : lowerUpTo s.grammar tree.height tree source {} = .ok (n, draft)) :
    draft.forest.IsUnit n := by
  obtain ⟨inner, last, rfl, hinner, hready, htokens⟩ := ready_of_parsed hparse hmodifier hliteral
  have hlegible : Legible s forms source (RawTree.heightOf (inner :: last.map .leaf)) inner :=
    ⟨hready, fun tk htk => hnames tk (htokens htk)⟩
  obtain ⟨hplaced, hkind⟩ := placesRoot_wholeText hd hs hlegible hinner Forest.WellLinked.empty hrun
  exact isUnit_of_placesRoot hplaced hkind

/-- The forest of a compilation unit, whatever its text. -/
theorem isUnit_of_parse {l : Language} {src : List Char} {parsed : Parsed}
    (h : parse l .compilationUnit src = .ok parsed) : parsed.forest.IsUnit parsed.root := by
  obtain ⟨source, raw, draft, hraw, hlower, hforest, -⟩ := exists_of_parse h
  rw [hforest]
  obtain ⟨hstream, hlanguage, hparse⟩ := exists_of_parseRaw hraw
  obtain ⟨init, last, -, hlast, -⟩ := tokenize_spec hstream
  have hmeant := meant_of_parseRaw hraw
  have hwords := isWord_of_tokenize hstream
  rw [← Packrat.parse_tokens hlast hparse] at hwords
  have hnames (tk : Token) (htk : tk ∈ raw.tokens) (hkind : tk.kind ∈ l.nameTokens) :
      IsName (source.language.unescape tk.text) :=
    hlanguage ▸ isName_of_isWord (hwords tk htk hkind)
  cases l with
  | csharp =>
      exact isUnit_lowered CSharp.declares (Language.csharp.setting source) hparse
        (fun tk htk => (hmeant tk htk).1) (fun tk htk => (hmeant tk htk).2)
        (fun tk htk hkind => hnames tk htk (List.contains_iff_mem.mp hkind)) hlower
  | visualBasic =>
      exact isUnit_lowered VisualBasic.declares (Language.visualBasic.setting source) hparse
        (fun tk htk => (hmeant tk htk).1) (fun tk htk => (hmeant tk htk).2)
        (fun tk htk hkind => hnames tk htk (List.contains_iff_mem.mp hkind)) hlower

end DualSyntax
