import DualSyntax.Proofs.Lowering.ParsedNamespaces
import DualSyntax.Proofs.Semantics.DeclaredNames
import DualSyntax.Proofs.Semantics.Ensuring

/-!
# Scopes of namespaces

The scopes at a node of a parsed text end with those of the namespace declarations around it and of the
compilation unit.  The declarations stand inside of each other, so by induction from the outermost inwards
their scopes are those of the dotted prefixes of the full name.
-/

namespace DualSyntax.Semantics

open Forest

variable {w : World} {f : Forest} {root n d : NodeId} {name : String} {active : List (Aspect × NodeId)}

/-! ## Namespaces that exist -/

/-- Whether a name is that of a namespace: the global one, that of the built-in types, a declared one, or
one in front of a dot in the name of a declared one. -/
def World.HasNamespace (w : World) (root : NodeId) (name : String) : Prop :=
  name = "" ∨ w.sameName name systemName = true ∨
    ∃ decl ∈ w.forest.descendants root, w.forest.kind decl = .namespaceDeclaration ∧
      ∃ full, namespaceName? w.forest decl = some full ∧
        (w.sameName full name = true ∨
          ∃ p rest, full = p ++ "." ++ rest ∧ w.sameName p name = true)

theorem isOuterName_iff {outer full : String} : isOuterName w outer full = true ↔
    ∃ p rest, full = p ++ "." ++ rest ∧ w.sameName p outer = true := by
  simp only [isOuterName, Bool.and_eq_true, beq_iff_eq]
  constructor
  · rintro ⟨hsame, hdot⟩
    cases hdrop : full.toList.drop outer.length with
    | nil =>
        rw [hdrop] at hdot
        cases hdot
    | cons c cs =>
        rw [hdrop, List.head?_cons, Option.some.injEq] at hdot
        refine ⟨_, String.ofList cs, eq_append_dot_iff.mpr ?_, hsame⟩
        rw [String.toList_ofList, String.toList_ofList, ← hdot, ← hdrop, List.take_append_drop]
  · rintro ⟨p, rest, hfull, hsame⟩
    have hlength := length_of_key_eq (World.sameName_eq_true_iff.mp hsame)
    rw [← String.length_toList] at hlength
    rw [eq_append_dot_iff.mp hfull, ← hlength, List.take_left, List.drop_left, String.ofList_toList]
    exact ⟨hsame, rfl⟩

def World.declaredNamespaces (w : World) (root : NodeId) : List (NodeId × String) :=
  ((w.forest.descendants root).filter fun n =>
    w.forest.kind n matches .namespaceDeclaration).filterMap fun n =>
      (namespaceName? w.forest n).map (n, ·)

theorem matches_namespaceDeclaration {k : NodeKind} :
    (k matches .namespaceDeclaration) = true ↔ k = .namespaceDeclaration := by
  cases k <;> simp

theorem mem_declaredNamespaces_iff {full : String} : (d, full) ∈ w.declaredNamespaces root ↔
    d ∈ w.forest.descendants root ∧ w.forest.kind d = .namespaceDeclaration ∧
      namespaceName? w.forest d = some full := by
  simp only [World.declaredNamespaces, List.mem_filterMap, List.mem_filter,
    matches_namespaceDeclaration, Option.map_eq_some_iff, Prod.mk.injEq]
  constructor
  · rintro ⟨n, hn, s, hs, rfl, rfl⟩
    exact ⟨hn.1, hn.2, hs⟩
  · rintro ⟨hmem, hkind, hname⟩
    exact ⟨d, ⟨hmem, hkind⟩, full, hname, rfl, rfl⟩

theorem collectNamespace?_eq (h : name.isEmpty = false) : collectNamespace? w root name =
    if (w.declaredNamespaces root).any (fun d => w.sameName d.2 name || isOuterName w name d.2) ||
        w.sameName name systemName then
      some ⟨lastPart name, name, root,
        ((w.declaredNamespaces root).filter fun d => w.sameName d.2 name).map (·.1)⟩
    else none := by
  have hempty (named : List (NodeId × String)) :
      ((named.filter fun d => w.sameName d.2 name).map (·.1)).isEmpty =
        !named.any fun d => w.sameName d.2 name := by
    rw [List.isEmpty_map, Bool.eq_iff_iff]
    simp
  have hany (named : List (NodeId × String)) :
      named.any (fun d => w.sameName d.2 name || isOuterName w name d.2) =
        (named.any (fun d => w.sameName d.2 name) || named.any fun d => isOuterName w name d.2) := by
    induction named with
    | nil => rfl
    | cons d named ih => simp only [List.any_cons, ih, Bool.or_assoc, Bool.or_left_comm]
  rw [collectNamespace?, if_neg (by simp [h])]
  dsimp only
  rw [hempty, hany, World.declaredNamespaces]
  generalize List.any _ (fun d : NodeId × String => w.sameName d.2 name) = isDeclared
  generalize List.any _ (fun d : NodeId × String => isOuterName w name d.2) = isOuter
  cases isDeclared <;> cases isOuter <;> cases w.sameName name systemName <;> rfl

theorem fullName_of_collectNamespace? {found : NamespaceDef}
    (h : collectNamespace? w root name = some found) : found.fullName = name := by
  cases hempty : name.isEmpty with
  | true =>
      rw [collectNamespace?, if_pos hempty, Option.some.injEq] at h
      rw [← h, String.isEmpty_iff.mp hempty]
  | false =>
      rw [collectNamespace?_eq hempty, Option.ite_none_right_eq_some] at h
      cases h.2
      rfl

/-- A namespace exists exactly under the names of namespaces. -/
theorem isSome_collectNamespace?_iff :
    (collectNamespace? w root name).isSome = true ↔ w.HasNamespace root name := by
  cases hempty : name.isEmpty with
  | true =>
      have hname : name = "" := String.isEmpty_iff.mp hempty
      simp [collectNamespace?, World.HasNamespace, hname]
  | false =>
      have hname : name ≠ "" := fun hname => by simp [hname] at hempty
      rw [collectNamespace?_eq hempty, Option.isSome_ite, Bool.or_eq_true, List.any_eq_true,
        World.HasNamespace]
      simp only [hname, false_or, Bool.or_eq_true, isOuterName_iff, Prod.exists,
        mem_declaredNamespaces_iff]
      constructor
      · rintro (⟨decl, full, ⟨hmem, hkind, hfull⟩, hsame⟩ | hsystem)
        · exact .inr ⟨decl, hmem, hkind, full, hfull, hsame⟩
        · exact .inl hsystem
      · rintro (hsystem | ⟨decl, hmem, hkind, full, hfull, hsame⟩)
        · exact .inr hsystem
        · exact .inl ⟨decl, full, ⟨hmem, hkind, hfull⟩, hsame⟩

theorem ensures_namespaceNamed? (root : NodeId) (name : String) :
    Ensures w active (namespaceNamed? root name) fun found =>
      ∃ spelled, w.key spelled = w.key name ∧ found = collectNamespace? w root spelled := by
  intro m found m' hm hactive hrun
  have hread : ∀ {α : Type} {next : World → Ask α}, (MonadReader.read >>= next) w m = next w w m := rfl
  have hget : ∀ {α : Type} {next : Memory → Ask α}, (MonadState.get >>= next) w m = next m w m := rfl
  rw [namespaceNamed?, hread, hget] at hrun
  cases hs : m.spellings.find? fun s => s.root == root && s.key == w.key name with
  | some s =>
      rw [hs] at hrun
      cases hrun
      exact ⟨⟨s.name, hm.found hs, rfl⟩, hm, hactive⟩
  | none =>
      rw [hs] at hrun
      cases hrun
      exact ⟨⟨name, rfl, rfl⟩, hm.cons root name, hactive⟩

theorem ensures_isSome_namespaceNamed? (root : NodeId) (name : String) :
    Ensures w active (namespaceNamed? root name) fun found =>
      found.isSome = true ↔ w.HasNamespace root name := by
  refine (ensures_namespaceNamed? root name).mono fun found hfound => ?_
  obtain ⟨spelled, hkey, rfl⟩ := hfound
  have hsome := congrArg Option.isSome (collectNamespace?_keyed hkey root)
  rw [Option.isSome_map, Option.isSome_map] at hsome
  rw [hsome, isSome_collectNamespace?_iff]

def IsNamespaceOf (w : World) (root : NodeId) (name : String) (found : NamespaceDef) : Prop :=
  w.key found.fullName = w.key name ∧ collectNamespace? w root found.fullName = some found

theorem ensures_namespace (h : w.HasNamespace root name) :
    Ensures w active (namespaceNamed? root name) fun found =>
      ∃ d, found = some d ∧ IsNamespaceOf w root name d := by
  intro m found m' hm hactive hrun
  obtain ⟨⟨spelled, hkey, hfound⟩, hrest⟩ :=
    ensures_namespaceNamed? root name m found m' hm hactive hrun
  obtain ⟨d, rfl⟩ := Option.isSome_iff_exists.mp
    ((ensures_isSome_namespaceNamed? root name m found m' hm hactive hrun).1.mpr h)
  have hname := fullName_of_collectNamespace? hfound.symm
  exact ⟨⟨d, rfl, by rw [hname, hkey], by rw [hname, hfound]⟩, hrest⟩

/-! ## Declarations inside of each other -/

/-- Namespace declarations of a compilation unit inside of each other, innermost first, with the names
that they spell themselves. -/
inductive Enclosing (f : Forest) (root : NodeId) : List NodeId → List String → Prop
  | nil : Enclosing f root [] []
  | cons {d : NodeId} {ds : List NodeId} {own : String} {names : List String}
      (above : f.ancestors d = ds ++ [root]) (kind : f.kind d = .namespaceDeclaration)
      (name : ownName? f d = some own) (isName : IsName own) (outer : Enclosing f root ds names) :
      Enclosing f root (d :: ds) (own :: names)

namespace Enclosing

variable {ds : List NodeId} {names : List String} {own : String}

theorem isName (h : Enclosing f root ds names) : ∀ s ∈ names, IsName s := by
  induction h with
  | nil => exact fun _ hs => (List.not_mem_nil hs).elim
  | cons _ _ _ hname _ ih => exact List.forall_mem_cons.mpr ⟨hname, ih⟩

theorem mapM_ownName? (h : Enclosing f root ds names) : ds.mapM (ownName? f) = some names := by
  induction h with
  | nil => rfl
  | cons _ _ hname _ _ ih => rw [List.mapM_cons, hname, ih]; rfl

/-- Among the nodes above the innermost, the declarations are the outer ones. -/
theorem filter_append (h : Enclosing f root ds names) (hroot : f.kind root = .compilationUnit) :
    (ds ++ [root]).filter (fun n => f.kind n matches .namespaceDeclaration) = ds := by
  induction h with
  | nil => simp [hroot]
  | cons _ hkind _ _ _ ih => rw [List.cons_append, List.filter_cons_of_pos (by rw [hkind]), ih]

theorem namespaceName? (h : Enclosing f root (d :: ds) (own :: names))
    (hroot : f.kind root = .compilationUnit) :
    namespaceName? f d = some (qualifier names ++ own) := by
  have hnames := h.mapM_ownName?
  cases h with
  | cons above _ _ _ outer =>
      have hfilter := outer.filter_append hroot
      rw [← above] at hfilter
      change (do
        let names ← (d :: (f.ancestors d).filter
          fun n => f.kind n matches .namespaceDeclaration).mapM (ownName? f)
        return ".".intercalate names.reverse) = _
      rw [hfilter, hnames, Option.bind_eq_bind, Option.bind_some, intercalate_reverse]
      rfl

end Enclosing

/-- Around every node but the root stand nodes that declare no namespace, then declarations inside of each
other, then the root. -/
theorem exists_enclosing (hf : f.IsUnit root) (hn : Relation.ReflTransGen f.Below n root)
    (hne : n ≠ root) : ∃ inner ds names, f.ancestors n = inner ++ (ds ++ [root]) ∧
      (∀ m ∈ inner, (f.kind m).isHost = false) ∧ Enclosing f root ds names := by
  induction hn using Relation.ReflTransGen.head_induction_on with
  | refl => exact (hne rfl).elim
  | @head n p hparent _ ih =>
      rw [hf.linked.ancestors_of_parent hparent]
      by_cases hp : p = root
      · subst hp
        exact ⟨[], [], [], by rw [ancestors_of_isRoot hf.isRoot]; rfl, by simp, .nil⟩
      obtain ⟨inner, ds, names, habove, hinner, houter⟩ := ih hp
      cases hhost : (f.kind p).isHost with
      | false =>
          refine ⟨p :: inner, ds, names, by rw [habove]; rfl, ?_, houter⟩
          exact List.forall_mem_cons.mpr ⟨hhost, hinner⟩
      | true =>
          -- a host has a host above it, so nothing else is in between
          cases inner with
          | cons q inner =>
              obtain ⟨hq, -⟩ := hf.linked.parent_of_ancestors habove
              have hqhost := ((hf.placed p).hosted hq hhost).2
              rw [hinner q List.mem_cons_self] at hqhost
              cases hqhost
          | nil =>
              obtain ⟨q, qs, hqs⟩ : ∃ q qs, f.ancestors p = q :: qs :=
                List.exists_cons_of_ne_nil (by simp [habove])
              obtain ⟨hq, -⟩ := hf.linked.parent_of_ancestors hqs
              have hkind := ((hf.placed p).hosted hq hhost).1
              obtain ⟨own, hown, hname⟩ := (hf.placed p).named hkind
              exact ⟨[], p :: ds, own :: names, by rw [habove]; rfl, by simp,
                .cons habove hkind hown hname houter⟩

/-! ## Scopes -/

/-- The scopes that a namespace declaration opens: those of namespaces with their names, then that of its
imports. -/
structure DeclarationScopes where
  decl : NodeId
  names : List String
  namespaces : List NamespaceDef

def DeclarationScopes.scopes (b : DeclarationScopes) : List Scope :=
  b.namespaces.map .ofNamespace ++ [.imports b.decl]

/-- The scopes of a declaration are those of the names that its own name spells behind the outer names. -/
structure DeclarationScopes.Spelled (w : World) (root : NodeId) (b : DeclarationScopes) : Prop where
  names : ∃ outer own, namespaceName? w.forest b.decl = some (outer ++ own) ∧
    ownName? w.forest b.decl = some own ∧
      ∀ p, p ∈ b.names ↔ ∃ q, p = outer ++ q ∧ IsDottedPrefix q own
  namespaces : List.Forall₂ (IsNamespaceOf w root) b.names b.namespaces

/-- Scopes other than those that namespace declarations and compilation units open. -/
def isLocal : Scope → Bool
  | .ofNamespace _ | .imports _ | .compilationUnit _ => false
  | _ => true

theorem ensures_scopesAround_local {child : NodeId} (h : (w.forest.kind n).isHost = false) :
    Ensures w active (scopesAround child n) fun scopes => ∀ s ∈ scopes, isLocal s = true := by
  refine .forest ?_
  generalize w.forest.kind n = k at h
  cases k with
  | compilationUnit | namespaceDeclaration => cases h
  | blockStatement | switchSection => exact .pure (by simp [isLocal])
  | foreachStatement =>
      refine .pure ?_
      split <;> simp [isLocal]
  | _ => exact .pure (by simp [isLocal])

/-- The scopes of nodes that declare no namespace, and those further out. -/
theorem ensures_scopesAlong_append {inner ns : List NodeId} {P : List Scope → Prop}
    (hinner : ∀ m ∈ inner, (w.forest.kind m).isHost = false)
    (h : ∀ child, Ensures w active (scopesAlong child ns) P) (child : NodeId) :
    Ensures w active (scopesAlong child (inner ++ ns)) fun scopes =>
      ∃ near far, scopes = near ++ far ∧ (∀ s ∈ near, isLocal s = true) ∧ P far := by
  induction inner generalizing child with
  | nil => exact (h child).mono fun far hfar => ⟨[], far, rfl, by simp, hfar⟩
  | cons m inner ih =>
      rw [List.forall_mem_cons] at hinner
      refine (ensures_scopesAround_local hinner.1).bind fun scopes hscopes => ?_
      refine (ih hinner.2 m).bind fun rest hrest => .pure ?_
      obtain ⟨near, far, rfl, hnear, hfar⟩ := hrest
      refine ⟨scopes ++ near, far, by rw [List.append_assoc], ?_, hfar⟩
      exact List.forall_mem_append.mpr ⟨hscopes, hnear⟩

section Declarations

variable {ds : List NodeId} {names : List String} {own : String}

theorem Enclosing.ownName? (h : Enclosing f root (d :: ds) (own :: names)) : ownName? f d = some own := by
  cases h with
  | cons _ _ name => exact name

theorem Enclosing.rootOf (h : Enclosing f root (d :: ds) (own :: names)) : rootOf f d = root := by
  cases h with
  | cons above => simp [Semantics.rootOf, above]

/-- A declaration around another is one of the tree. -/
theorem Enclosing.mem_descendants (hf : f.IsUnit root) (h : Enclosing f root (d :: ds) (own :: names)) :
    d ∈ f.descendants root ∧ f.kind d = .namespaceDeclaration := by
  cases h with
  | cons above kind =>
      refine ⟨hf.linked.mem_descendants_iff.mpr ?_, kind⟩
      have hmem : root ∈ f.ancestors d := by simp [above]
      exact (transGen_of_mem_ancestorsUpTo hmem).to_reflTransGen

theorem Enclosing.hasNamespace (hf : w.forest.IsUnit root)
    (h : Enclosing w.forest root (d :: ds) (own :: names)) {p : String}
    (hp : p ∈ spelledNames (qualifier names) own) : w.HasNamespace root p := by
  obtain ⟨hmem, hkind⟩ := h.mem_descendants hf
  obtain ⟨q, rfl, -, hq⟩ := (mem_spelledNames_iff (h.isName own List.mem_cons_self)).mp hp
  refine .inr (.inr ⟨d, hmem, hkind, _, h.namespaceName? hf.kind, ?_⟩)
  rcases hq with rfl | ⟨rest, rfl⟩
  · exact .inl (World.sameName_eq_true_iff.mpr rfl)
  · exact .inr ⟨qualifier names ++ q, rest, by simp only [String.append_assoc],
      World.sameName_eq_true_iff.mpr rfl⟩

theorem forall₂_reduceOption {α β : Type} {R : α → β → Prop} {as : List α} {bs : List (Option β)}
    (h : List.Forall₂ (fun a o => ∃ b, o = some b ∧ R a b) as bs) :
    List.Forall₂ R as bs.reduceOption := by
  induction h with
  | nil => exact .nil
  | cons hb _ ih =>
      obtain ⟨b, rfl, hb⟩ := hb
      exact .cons hb ih

theorem ensures_namespaceScopes (hf : w.forest.IsUnit root)
    (h : Enclosing w.forest root (d :: ds) (own :: names)) :
    Ensures w active (namespaceScopes d) fun scopes => ∃ namespaces,
      scopes = namespaces.map .ofNamespace ∧
        List.Forall₂ (IsNamespaceOf w root) (spelledNames (qualifier names) own) namespaces := by
  have hspelled : (qualifier names ++ own) :: (outerNames own).map (String.ofList
      ((qualifier names ++ own).toList.take ((qualifier names ++ own).length - own.length)) ++ ·) =
        spelledNames (qualifier names) own := by
    rw [String.length_append, Nat.add_sub_cancel, String.toList_append, ← String.length_toList,
      List.take_left, String.ofList_toList]
    rfl
  refine .forest ?_
  rw [h.namespaceName? hf.kind, h.ownName?]
  dsimp only
  rw [hspelled, h.rootOf]
  refine (Ensures.mapM fun p hp => ensures_namespace (h.hasNamespace hf hp)).bind fun found hfound => ?_
  exact .pure ⟨_, rfl, forall₂_reduceOption hfound⟩

theorem spelled_of_enclosing (hf : w.forest.IsUnit root)
    (h : Enclosing w.forest root (d :: ds) (own :: names)) {namespaces : List NamespaceDef}
    (hshown : List.Forall₂ (IsNamespaceOf w root) (spelledNames (qualifier names) own) namespaces) :
    DeclarationScopes.Spelled w root ⟨d, spelledNames (qualifier names) own, namespaces⟩ where
  names := ⟨qualifier names, own, h.namespaceName? hf.kind, h.ownName?,
    fun _ => mem_spelledNames_iff (h.isName own List.mem_cons_self)⟩
  namespaces := hshown

theorem ensures_scopesAround_unit (hf : w.forest.IsUnit root) (child : NodeId) :
    Ensures w active (scopesAround child root) (· = [.compilationUnit root, .imports root]) := by
  refine .forest ?_
  rw [hf.kind]
  exact .pure rfl

theorem ensures_scopesAround_enclosing (hf : w.forest.IsUnit root)
    (h : Enclosing w.forest root (d :: ds) (own :: names)) (child : NodeId) :
    Ensures w active (scopesAround child d) fun scopes => ∃ b : DeclarationScopes,
      scopes = b.scopes ∧ b.decl = d ∧ b.names = spelledNames (qualifier names) own ∧
        b.Spelled w root := by
  refine .forest ?_
  rw [(h.mem_descendants hf).2]
  refine (ensures_namespaceScopes hf h).bind fun scopes hscopes => .pure ?_
  obtain ⟨namespaces, rfl, hshown⟩ := hscopes
  exact ⟨⟨d, _, namespaces⟩, rfl, rfl, rfl, spelled_of_enclosing hf h hshown⟩

/-- The scopes of declarations inside of each other, from the outermost inwards. -/
theorem ensures_scopesAlong_enclosing (hf : w.forest.IsUnit root) (h : Enclosing w.forest root ds names)
    (child : NodeId) :
    Ensures w active (scopesAlong child (ds ++ [root])) fun scopes => ∃ blocks : List DeclarationScopes,
      scopes = blocks.flatMap (·.scopes) ++ [.compilationUnit root, .imports root] ∧
        blocks.map (·.decl) = ds ∧ blocks.flatMap (·.names) = nestedNames names ∧
          ∀ b ∈ blocks, b.Spelled w root := by
  induction h generalizing child with
  | nil =>
      refine (ensures_scopesAround_unit hf child).bind fun scopes hscopes => ?_
      refine .bind (P := (· = [])) (.pure rfl) fun rest hrest => .pure ?_
      exact ⟨[], by simp [hscopes, hrest], rfl, rfl, by simp⟩
  | @cons d ds own names above kind name hname outer ih =>
      refine (ensures_scopesAround_enclosing hf (.cons above kind name hname outer) child).bind
        fun scopes hscopes => (ih d).bind fun rest hrest => .pure ?_
      obtain ⟨b, rfl, hdecl, hown, hb⟩ := hscopes
      obtain ⟨blocks, rfl, hdecls, hnames, hspelled⟩ := hrest
      refine ⟨b :: blocks, by simp, by simp [hdecl, hdecls], by simp [hown, hnames, nestedNames], ?_⟩
      exact List.forall_mem_cons.mpr ⟨hb, hspelled⟩

end Declarations

/-- Scopes at a node that end with those of the namespace declarations around it and of the compilation
unit.  The names of the declarations are the dotted prefixes of the full name of the innermost one, the
longest first and each once. -/
structure NamespaceChain (w : World) (root n : NodeId) (scopes : List Scope)
    (blocks : List DeclarationScopes) : Prop where
  split : ∃ near, scopes =
    near ++ (blocks.flatMap (·.scopes) ++ [.compilationUnit root, .imports root]) ∧
      ∀ s ∈ near, isLocal s = true
  decls : blocks.map (·.decl) =
    (w.forest.ancestors n).filter fun m => w.forest.kind m matches .namespaceDeclaration
  spelled : ∀ b ∈ blocks, b.Spelled w root
  prefixes : ∀ b ∈ blocks.head?, ∀ full, namespaceName? w.forest b.decl = some full →
    ∀ p, p ∈ blocks.flatMap (·.names) ↔ IsDottedPrefix p full
  descending : (blocks.flatMap (·.names)).Pairwise fun p q => q.length < p.length

theorem ensures_scopesAt (hf : w.forest.IsUnit root) (hn : n ∈ w.forest.descendants root)
    (hne : n ≠ root) : Ensures w active (scopesAt n) fun scopes =>
      ∃ blocks, NamespaceChain w root n scopes blocks := by
  obtain ⟨inner, ds, names, habove, hinner, henclosing⟩ :=
    exists_enclosing hf (hf.linked.mem_descendants_iff.mp hn) hne
  refine .forest ?_
  rw [habove]
  refine (ensures_scopesAlong_append hinner (ensures_scopesAlong_enclosing hf henclosing) n).mono
    fun scopes hscopes => ?_
  obtain ⟨near, far, rfl, hnear, blocks, rfl, hdecls, hnames, hspelled⟩ := hscopes
  refine ⟨blocks, ⟨near, rfl, hnear⟩, ?_, hspelled, fun b hb full hfull p => ?_, ?_⟩
  · have hnone : inner.filter (fun m => w.forest.kind m matches .namespaceDeclaration) = [] := by
      refine List.filter_eq_nil_iff.mpr fun m hm hkind => ?_
      have hhost := hinner m hm
      rw [matches_namespaceDeclaration.mp hkind] at hhost
      cases hhost
    rw [hdecls, habove, List.filter_append, hnone, henclosing.filter_append hf.kind, List.nil_append]
  · rw [hnames]
    cases blocks with
    | nil => cases hb
    | cons b' blocks =>
        cases hb
        subst hdecls
        cases henclosing with
        | @cons _ _ own names above kind name hname outer =>
            have hdeclared : Enclosing w.forest root (b.decl :: blocks.map (·.decl)) (own :: names) :=
              .cons above kind name hname outer
            cases (hdeclared.namespaceName? hf.kind).symm.trans hfull
            exact mem_nestedNames_iff hdeclared.isName
  · rw [hnames]
    exact pairwise_nestedNames henclosing.isName

/-- The scopes at a node other than the root of a parsed compilation unit are those of the namespace
declarations around it, as the dotted prefixes of the full name, behind those of nodes further in; and a
namespace is found exactly under the names of namespaces. -/
theorem namespaceChain_of_parse {l : Language} {src : List Char} {parsed : Parsed}
    (h : parse l .compilationUnit src = .ok parsed) (caseSensitive : Bool) :
    (∀ n ∈ parsed.forest.descendants parsed.root, n ≠ parsed.root →
      ∀ m : Memory, m.Spells ⟨parsed.forest, caseSensitive⟩ →
        ∃ scopes m' blocks, scopesAt n ⟨parsed.forest, caseSensitive⟩ m = some (scopes, m') ∧
          NamespaceChain ⟨parsed.forest, caseSensitive⟩ parsed.root n scopes blocks) ∧
    ∀ (name : String) (m : Memory), m.Spells ⟨parsed.forest, caseSensitive⟩ →
      ∃ found m', namespaceNamed? parsed.root name ⟨parsed.forest, caseSensitive⟩ m = some (found, m') ∧
        (found.isSome = true ↔ World.HasNamespace ⟨parsed.forest, caseSensitive⟩ parsed.root name) := by
  refine ⟨fun n hn hne m hm => ?_, fun name m hm => ?_⟩
  · obtain ⟨scopes, m', hrun, blocks, hchain⟩ :=
      (ensures_scopesAt (isUnit_of_parse h) hn hne).exists_answer (settles_scopesAt n) hm rfl
    exact ⟨scopes, m', blocks, hrun, hchain⟩
  · exact (ensures_isSome_namespaceNamed? _ name).exists_answer (settles_namespaceNamed? _ name) hm rfl

/-- A class in a namespace with a plain name in one with a dotted name. -/
theorem namespaceChain_of_parse_nested : ∃ parsed,
    parse .csharp .compilationUnit
      "namespace A.B \x7b namespace C \x7b class D \x7b \x7d \x7d \x7d".toList = .ok parsed ∧
    (∃ n ∈ parsed.forest.descendants parsed.root, n ≠ parsed.root ∧
      ∃ scopes m' blocks, scopesAt n ⟨parsed.forest, true⟩ {} = some (scopes, m') ∧
        NamespaceChain ⟨parsed.forest, true⟩ parsed.root n scopes blocks ∧ blocks.length = 2) ∧
    ∃ found m', namespaceNamed? parsed.root "A" ⟨parsed.forest, true⟩ {} = some (found, m') ∧
      found.isSome = true := by
  have hparsed : (parse .csharp .compilationUnit
      "namespace A.B \x7b namespace C \x7b class D \x7b \x7d \x7d \x7d".toList).toOption.any
        (fun parsed => (parsed.forest.descendants parsed.root).any (fun n => n != parsed.root &&
          ((parsed.forest.ancestors n).filter
            fun m => parsed.forest.kind m matches .namespaceDeclaration).length == 2) &&
          (collectNamespace? ⟨parsed.forest, true⟩ parsed.root "A").isSome) = true := by
    decide +kernel
  obtain ⟨parsed, h, hchecked⟩ := exists_parse hparsed
  rw [Bool.and_eq_true, List.any_eq_true] at hchecked
  obtain ⟨⟨n, hn, hnode⟩, hsome⟩ := hchecked
  rw [Bool.and_eq_true, bne_iff_ne, beq_iff_eq] at hnode
  have hempty : Memory.Spells ⟨parsed.forest, true⟩ {} := Memory.spells_nil _ []
  obtain ⟨hscopes, hfound⟩ := namespaceChain_of_parse h true
  obtain ⟨scopes, m', blocks, hrun, hchain⟩ := hscopes n hn hnode.1 {} hempty
  obtain ⟨found, m'', hrun', hiff⟩ := hfound "A" {} hempty
  refine ⟨parsed, h, ⟨n, hn, hnode.1, scopes, m', blocks, hrun, hchain, ?_⟩, found, m'', hrun', ?_⟩
  · rw [← hnode.2, ← hchain.decls, List.length_map]
  · exact hiff.mpr (isSome_collectNamespace?_iff.mp hsome)

/-- A root has no scopes around it: the scopes at a node are those that the nodes above it open. -/
theorem scopesAt_of_isRoot (h : w.forest.IsRoot root) (m : Memory) : scopesAt root w m = some ([], m) := by
  change scopesAlong root (w.forest.ancestors root) w m = _
  rw [ancestors_of_isRoot h]
  rfl

/-- The root of an empty text is not in the scope of its compilation unit. -/
theorem no_scopes_at_root : ∃ parsed, parse .csharp .compilationUnit [] = .ok parsed ∧
    parsed.root ∈ parsed.forest.descendants parsed.root ∧
    ∃ scopes m', scopesAt parsed.root ⟨parsed.forest, true⟩ {} = some (scopes, m') ∧
      Scope.compilationUnit parsed.root ∉ scopes := by
  have hparsed : (parse .csharp .compilationUnit []).toOption.any (fun _ => true) = true := by
    decide +kernel
  obtain ⟨parsed, h, -⟩ := exists_parse hparsed
  have hunit := isUnit_of_parse h
  refine ⟨parsed, h, hunit.linked.mem_descendants_iff.mpr .refl, [], {}, ?_, List.not_mem_nil⟩
  exact scopesAt_of_isRoot hunit.isRoot {}

end DualSyntax.Semantics
