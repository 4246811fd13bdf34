import DualSyntax.Proofs.Writing.LaidOut
import DualSyntax.VisualBasic.Writer

/-!
# Layout of VB

The writer of VB lays out every node.
-/

/-!
## What VB writers write of a node

The writers of VB look through blocks, variables, the sizes of new arrays, the alternatives of an `If`
and the parts of a loop that counts.  What they find below these is written with the node.
-/

namespace DualSyntax.VisualBasic

open Forest Writing

variable {f : Forest} {n c x y z v : NodeId} {t : Title} {hf : f.Regular}

/-- A node under a title that never holds anything that is looked through is looked through in a few
places only. -/
theorem not_through_of_shown (hc : c ∈ f.children y t) (ht : t.shown .visualBasic = true)
    (hsizes : y ∈ f.children n .declarators → t = .initializer → ∀ type, typeOf? f n y = some type →
      sizedArray? f type c = none)
    (hranks : t = .type → ¬ f.RanksOf n c)
    (hloop : f.kind n = .forStatement → (CountingLoop.of? f n).isSome = true → t.counts = false) :
    ¬ (Language.visualBasic.paths hf).through n c := by
  intro hthrough
  cases hthrough with
  | block hkind =>
      have hsuits := hf.suits hc
      rw [hkind] at hsuits
      obtain ⟨hstatements, hblocks, -⟩ := Title.shown_statements ht
      rw [NodeKind.suits, hstatements, hblocks] at hsuits
      cases hsuits
  | «variable» hmem =>
      exact (Title.shown_statements ht).2.2 (hf.unique hc hmem).2
  | sizes hv hmem htype hsome =>
      obtain ⟨rfl, rfl⟩ := hf.unique hc hmem
      rw [hsizes hv rfl _ htype] at hsome
      cases hsome
  | ranks hranksOf =>
      obtain ⟨-, -, z, hz, -⟩ := id hranksOf
      exact hranks (hf.unique hc hz).2 hranksOf
  | loop hkind hsome hmem hcounts =>
      obtain ⟨-, rfl⟩ := hf.unique hc hmem
      rw [hloop hkind hsome] at hcounts
      cases hcounts
  | alternative _ hmem =>
      obtain ⟨-, rfl⟩ := hf.unique hc hmem
      cases ht

/-- A node below nodes that are looked through. -/
theorem may_under (hunder : f.Under (Language.visualBasic.paths hf) n c) (hc : c ∈ f.children y t)
    (ht : t.shown .visualBasic = true) (hmembers : t ≠ .members)
    (hsizes : y ∈ f.children n .declarators → t = .initializer → ∀ type, typeOf? f n y = some type →
      sizedArray? f type c = none)
    (hranks : t = .type → ¬ f.RanksOf n c)
    (hloop : f.kind n = .forStatement → (CountingLoop.of? f n).isSome = true → t.counts = false) :
    May .visualBasic hf n c := by
  refine .under hunder hc ht (not_through_of_shown hc ht hsizes hranks hloop) fun haside => ?_
  rw [Language.paths_aside] at haside
  have hsuits := hf.suits hc
  rw [(Language.putsAside_visualBasic.mp haside).1] at hsuits
  exact hmembers (by simpa [NodeKind.suits] using hsuits)

/-! ### Namespaces -/

/-- The members of a namespace are written with it, but for its imports. -/
theorem may_member (hk : f.kind n = .namespaceDeclaration) (hc : c ∈ f.children n .members)
    (husing : f.kind c ≠ .usingDeclaration) : May .visualBasic hf n c := by
  refine .under (.child hf.links (hf.parent hc)) hc rfl
    (not_through_of_shown hc rfl (fun _ => nofun) nofun fun hloop => ?_) fun haside => ?_
  · rw [hk] at hloop
    cases hloop
  · rw [Language.paths_aside] at haside
    exact husing (Language.putsAside_visualBasic.mp haside).1

def InNamespaces (f : Forest) (n c : NodeId) : Prop :=
  Relation.TransGen f.Below c n ∧ ∀ y, f.Between c y n → f.kind y = .namespaceDeclaration

theorem InNamespaces.step (h : InNamespaces f n y) (hy : f.kind y = .namespaceDeclaration)
    (hp : f.parent c = some y) : InNamespaces f n c := by
  refine ⟨.head hp h.1, fun x hx => ?_⟩
  rcases between_of_parent hp hx with rfl | hx
  · exact hy
  · exact h.2 x hx

theorem inNamespaces_of_nestedImports (hf : f.Regular) {fuel : Nat} {members : List NodeId}
    (h : ∀ m ∈ members, InNamespaces f n m) {i : NodeId} (hi : i ∈ nestedImports f fuel members) :
    InNamespaces f n i ∧ f.kind i = .usingDeclaration ∧
      ∃ m, f.kind m = .namespaceDeclaration := by
  induction fuel generalizing members with
  | zero => cases hi
  | succ fuel ih =>
      rw [nestedImports] at hi
      obtain ⟨m, hm, hi⟩ := List.mem_flatMap.mp hi
      split at hi
      · next hkind =>
          rcases List.mem_append.mp hi with hi | hi
          · obtain ⟨hmem, husing⟩ := List.mem_filter.mp hi
            refine ⟨(h m hm).step hkind (hf.parent hmem), ?_, m, hkind⟩
            split at husing
            · assumption
            · cases husing
          · exact ih (fun c hc => (h m hm).step hkind (hf.parent hc)) hi
      · cases hi

/-- The imports of all namespaces are written with the whole text. -/
theorem may_nestedImport {fuel : Nat} (hk : f.kind n = .compilationUnit) {members : List NodeId}
    (h : ∀ m ∈ members, m ∈ f.children n .members) {i : NodeId}
    (hi : i ∈ nestedImports f fuel members) : May .visualBasic hf n i := by
  have hmembers (m : NodeId) (hm : m ∈ members) : InNamespaces f n m := by
    have hp := hf.parent (h m hm)
    exact ⟨.single hp, fun y hy => (not_between_of_parent hf.links hp hy).elim⟩
  obtain ⟨⟨hbelow, hbetween⟩, husing, m, hm⟩ := inNamespaces_of_nestedImports hf hmembers hi
  have haside {y : NodeId} (hy : f.kind y = .namespaceDeclaration) :
      (Language.visualBasic.paths hf).aside i y = true := by
    rw [Language.paths_aside]
    exact Language.putsAside_visualBasic.mpr ⟨husing, hy⟩
  refine ⟨by rw [husing]; rfl, .inl ⟨⟨hbelow, .inr fun y hy => haside (hbetween y hy), ?_, ?_⟩, ?_⟩⟩
  · exact ((Language.visualBasic.paths hf).apart (haside hm)).1 n
  · intro h
    rw [Language.paths_aside] at h
    have hn := (Language.putsAside_visualBasic.mp h).2
    rw [hk] at hn
    cases hn
  · intro role hrole
    rw [husing] at hrole
    cases hrole

/-! ### Bodies -/

/-- A statement of a node, or a block or a list of its statements. -/
structure BodyOf (hf : f.Regular) (n x : NodeId) : Prop where
  under : f.Under (Language.visualBasic.paths hf) n x
  stands : ∃ z t, x ∈ f.children z t ∧ (t.holdsStatements = true ∨ t.holdsBlocks = true) ∧
    (t = .falseStatement → f.kind x ≠ .ifElseStatement)

theorem bodyOf_child (hc : c ∈ f.children n t) (ht : t.holdsStatements = true ∨ t.holdsBlocks = true)
    (halternative : t = .falseStatement → f.kind c ≠ .ifElseStatement) : BodyOf hf n c :=
  ⟨.child hf.links (hf.parent hc), n, t, hc, ht, halternative⟩

theorem BodyOf.below (h : BodyOf hf n x) (hx : f.kind x = .blockStatement)
    (hc : c ∈ f.children x .statements) : BodyOf hf n c :=
  ⟨h.under.step (.block hx) (hf.parent hc), x, .statements, hc, .inl rfl, by simp⟩

/-- A statement that is no block is written with the node whose body it stands in. -/
theorem BodyOf.may (h : BodyOf hf n x) (hblock : f.kind x ≠ .blockStatement)
    (hempty : f.kind x ≠ .emptyStatement) : May .visualBasic hf n x := by
  obtain ⟨hunder, z, t, hx, ht, halternative⟩ := h
  obtain ⟨hprints, husing, haccessor⟩ :=
    NodeKind.statement_of_suits (hf.suits hx) ht hblock hempty
  have hnot {u : Title} {m : NodeId} (hm : x ∈ f.children m u)
      (hu : ¬ (u.holdsStatements = true ∨ u.holdsBlocks = true)) : False := by
    obtain ⟨-, rfl⟩ := hf.unique hx hm
    exact hu ht
  refine ⟨hprints, .inl ⟨⟨hunder.below, .inl hunder.between, fun hthrough => ?_, fun haside => ?_⟩,
    fun role hrole => (haccessor role hrole).elim⟩⟩
  · cases hthrough with
    | block hkind => exact hblock hkind
    | «variable» hmem => exact hnot hmem (by decide)
    | sizes _ hmem => exact hnot hmem (by decide)
    | ranks hranks =>
        obtain ⟨-, -, m, hm, -⟩ := hranks
        exact hnot hm (by decide)
    | @loop _ u _ _ hmem hcounts => exact hnot hmem (by cases u <;> first | decide | cases hcounts)
    | alternative hkind hmem => exact halternative (hf.unique hx hmem).2 hkind
  · rw [Language.paths_aside] at haside
    exact husing (Language.putsAside_visualBasic.mp haside).1

theorem may_of_bodyLines {fuel : Nat} {ns : List NodeId} (h : ∀ x ∈ ns, BodyOf hf n x) {m : NodeId}
    (hm : .statement m ∈ bodyLines f fuel ns) : May .visualBasic hf n m := by
  induction fuel generalizing ns with
  | zero => cases hm
  | succ fuel ih =>
      rw [bodyLines] at hm
      obtain ⟨x, hx, hm⟩ := List.mem_flatMap.mp hm
      rcases List.mem_cons.mp hm with hm | hm
      · cases hm
      split at hm
      · next hblock =>
          rcases List.mem_append.mp hm with hm | hm
          · exact ih (fun c hc => (h x hx).below hblock hc) hm
          · simp at hm
      · cases hm
      · next hblock hempty =>
          obtain rfl : m = x := by simpa using hm
          exact (h m hx).may hblock hempty

/-! ### Variables -/

section Variables

theorem under_variable (hv : v ∈ f.children n .declarators) (hc : c ∈ f.children v t) :
    f.Under (Language.visualBasic.paths hf) n c :=
  (Under.child hf.links (hf.parent hv)).step (.variable hv) (hf.parent hc)

variable (hdeclares : (f.kind n).declaresVariables = true)
include hdeclares

theorem may_declared (hunder : f.Under (Language.visualBasic.paths hf) n c) (hc : c ∈ f.children y t)
    (ht : t.shown .visualBasic = true) (hmembers : t ≠ .members)
    (hsizes : y ∈ f.children n .declarators → t = .initializer → ∀ type, typeOf? f n y = some type →
      sizedArray? f type c = none) : May .visualBasic hf n c := by
  refine may_under hunder hc ht hmembers hsizes ?_ ?_
  · rintro - ⟨⟨bounds, hn⟩, -⟩
    rw [hn] at hdeclares
    cases hdeclares
  · intro hn
    rw [hn] at hdeclares
    cases hdeclares

/-- The parts of a variable are written with its declaration, except for an array that only has sizes. -/
theorem may_variable (hv : v ∈ f.children n .declarators) (hc : c ∈ f.children v t)
    (ht : t.shown .visualBasic = true) (hmembers : t ≠ .members)
    (hsizes : t = .initializer → ∀ type, typeOf? f n v = some type → sizedArray? f type c = none) :
    May .visualBasic hf n c :=
  may_declared hdeclares (under_variable hv hc) hc ht hmembers fun _ => hsizes

omit hdeclares in
theorem parts_of_sizedArray? {type value element : NodeId} {sizes : List NodeId} {bounds : ArrayBounds}
    (h : sizedArray? f type value = some (sizes, bounds, element)) :
    sizes = f.children value .arguments ∧ f.child? value .type = some element := by
  unfold sizedArray? at h
  split at h
  · obtain ⟨element', helement, h⟩ := Option.bind_eq_some_iff.mp h
    split at h <;> cases h
    exact ⟨rfl, helement⟩
  · cases h

theorem may_sizes (hv : v ∈ f.children n .declarators) {value type : NodeId}
    (hvalue : value ∈ f.children v .initializer) (htype : typeOf? f n v = some type)
    (hsized : (sizedArray? f type value).isSome = true) (hc : c ∈ f.children value t)
    (ht : t.shown .visualBasic = true) (hmembers : t ≠ .members) (hinitializer : t ≠ .initializer) :
    May .visualBasic hf n c :=
  may_declared hdeclares
    ((under_variable hv hvalue).step (.sizes hv hvalue htype hsized) (hf.parent hc)) hc ht hmembers
    fun _ h => (hinitializer h).elim

end Variables

/-! ### Loops that count -/

section Loops

variable {l : CountingLoop} (hk : f.kind n = .forStatement)
include hk

theorem may_loopPart (hnone : CountingLoop.of? f n = none) (hc : c ∈ f.children n t)
    (ht : t.shown .visualBasic = true) (hmembers : t ≠ .members) : May .visualBasic hf n c := by
  refine may_under (.child hf.links (hf.parent hc)) hc ht hmembers (fun hn => ?_) ?_ ?_
  · exact (hf.links.acyclic n (.single (hf.parent hn))).elim
  · rintro - ⟨⟨bounds, hn⟩, -⟩
    rw [hk] at hn
    cases hn
  · intro _ hsome
    rw [hnone] at hsome
    cases hsome

theorem under_loop (hl : (CountingLoop.of? f n).isSome = true)
    (hunder : f.Under (Language.visualBasic.paths hf) n y) (hy : y ∈ f.children z t)
    (ht : t.counts = true) {u : Title} (hc : c ∈ f.children y u) :
    f.Under (Language.visualBasic.paths hf) n c :=
  hunder.step (.loop hk hl hy ht) (hf.parent hc)

theorem may_loop (hunder : f.Under (Language.visualBasic.paths hf) n c) (hc : c ∈ f.children y t)
    (ht : t.shown .visualBasic = true) (hcounts : t.counts = false) (hmembers : t ≠ .members)
    (hy : t = .initializer → y ∉ f.children n .declarators) : May .visualBasic hf n c := by
  refine may_under hunder hc ht hmembers (fun hn h => (hy h hn).elim) ?_ fun _ _ => hcounts
  rintro - ⟨⟨bounds, hn⟩, -⟩
  rw [hk] at hn
  cases hn

theorem may_start {initializer name start : NodeId} {type : Option NodeId}
    (hl : (CountingLoop.of? f n).isSome = true) (hi : initializer ∈ f.children n .initializers)
    (h : CountingLoop.start? f initializer = some (name, type, start)) :
    May .visualBasic hf n name ∧ (∀ c ∈ type, May .visualBasic hf n c) ∧ May .visualBasic hf n start := by
  have hinitializer : f.Under (Language.visualBasic.paths hf) n initializer :=
    .child hf.links (hf.parent hi)
  have hbelow {c : NodeId} {t : Title} (hc : c ∈ f.children initializer t) :
      f.Under (Language.visualBasic.paths hf) n c :=
    under_loop hk hl hinitializer hi rfl hc
  unfold CountingLoop.start? at h
  split at h
  · split at h
    · next v hdeclared =>
        obtain ⟨name', hname, h⟩ := Option.bind_eq_some_iff.mp h
        obtain ⟨start', hstart, h⟩ := Option.bind_eq_some_iff.mp h
        cases h
        have hv : v ∈ f.children initializer .declarators := by
          rw [hdeclared]
          exact List.mem_singleton_self v
        have hvariable {c : NodeId} {t : Title} (hc : c ∈ f.children v t) :
            f.Under (Language.visualBasic.paths hf) n c :=
          (hbelow hv).step (.variable hv) (hf.parent hc)
        have hnot : v ∉ f.children n .declarators := by
          intro hmem
          obtain ⟨rfl, -⟩ := hf.unique hv hmem
          exact hf.links.acyclic _ (.single (hf.parent hi))
        refine ⟨?_, fun c hc => ?_, ?_⟩
        · have hmem := mem_children_of_child? hname
          exact may_loop hk (hvariable hmem) hmem rfl rfl (by decide) nofun
        · rcases Option.or_eq_some_iff.mp hc with hc | ⟨-, hc⟩
          · have hmem := mem_children_of_child? hc
            exact may_loop hk (hbelow hmem) hmem rfl rfl (by decide) nofun
          · have hmem := mem_children_of_child? hc
            exact may_loop hk (hvariable hmem) hmem rfl rfl (by decide) nofun
        · have hmem := mem_children_of_child? hstart
          exact may_loop hk (hvariable hmem) hmem rfl rfl (by decide) fun _ => hnot
    · cases h
  · obtain ⟨assignment, hassignment, h⟩ := Option.bind_eq_some_iff.mp h
    split at h
    · obtain ⟨left, hleft, h⟩ := Option.bind_eq_some_iff.mp h
      obtain ⟨_, -, h⟩ := Option.bind_eq_some_iff.mp h
      obtain ⟨name', hname, h⟩ := Option.bind_eq_some_iff.mp h
      obtain ⟨start', hstart, h⟩ := Option.bind_eq_some_iff.mp h
      cases h
      have hassigned := mem_children_of_child? hassignment
      have hleft := mem_children_of_child? hleft
      have hname := mem_children_of_child? hname
      have hstart := mem_children_of_child? hstart
      have hparts {c : NodeId} {t : Title} (hc : c ∈ f.children assignment t) :
          f.Under (Language.visualBasic.paths hf) n c :=
        under_loop hk hl (hbelow hassigned) hassigned rfl hc
      refine ⟨?_, by simp, may_loop hk (hparts hstart) hstart rfl rfl (by decide) nofun⟩
      exact may_loop hk (under_loop hk hl (hparts hleft) hleft rfl hname) hname rfl rfl (by decide)
        nofun
    · cases h
  · cases h

omit hk in
theorem amount_of_step? {e target : NodeId} {step : LoopStep}
    (h : CountingLoop.step? f e = some (step, target)) (hc : step = .up c ∨ step = .down c) :
    c ∈ f.children e .value := by
  unfold CountingLoop.step? at h
  split at h
  · next op _ =>
      -- an increment or a decrement has no amount
      have hfound (step' : LoopStep) (hnone : step' ≠ .up c ∧ step' ≠ .down c)
          (h : ((f.child? e .expression).bind fun e => some (step', e)) = some (step, target)) :
          c ∈ f.children e .value := by
        obtain ⟨_, -, h⟩ := Option.bind_eq_some_iff.mp h
        cases h
        exact (hc.elim hnone.1 hnone.2).elim
      cases op with
      | increment | postIncrement => exact hfound .one ⟨nofun, nofun⟩ h
      | decrement | postDecrement => exact hfound .minusOne ⟨nofun, nofun⟩ h
      | not | bitNot | minus | plus => cases h
  · obtain ⟨amount, hamount, h⟩ := Option.bind_eq_some_iff.mp h
    obtain ⟨_, -, h⟩ := Option.bind_eq_some_iff.mp h
    cases h
    rcases hc with hc | hc <;> cases hc
    exact mem_children_of_child? hamount
  · obtain ⟨amount, hamount, h⟩ := Option.bind_eq_some_iff.mp h
    obtain ⟨_, -, h⟩ := Option.bind_eq_some_iff.mp h
    cases h
    rcases hc with hc | hc <;> cases hc
    exact mem_children_of_child? hamount
  · cases h

structure MayCount (hf : f.Regular) (n : NodeId) (l : CountingLoop) : Prop where
  name : May .visualBasic hf n l.name
  type : ∀ c ∈ l.type, May .visualBasic hf n c
  start : May .visualBasic hf n l.start
  limit : May .visualBasic hf n l.limit
  amount : ∀ c, l.step = .up c ∨ l.step = .down c → May .visualBasic hf n c

theorem mayCount (hl : CountingLoop.of? f n = some l) : MayCount hf n l := by
  have hsome : (CountingLoop.of? f n).isSome = true := by rw [hl]; rfl
  unfold CountingLoop.of? at hl
  split at hl
  · next initializer iterator hinitializers hiterators =>
      have hi : initializer ∈ f.children n .initializers := by
        rw [hinitializers]
        exact List.mem_singleton_self _
      have hj : iterator ∈ f.children n .iterators := by
        rw [hiterators]
        exact List.mem_singleton_self _
      obtain ⟨e, he, hl⟩ := Option.bind_eq_some_iff.mp hl
      obtain ⟨⟨name, type, start⟩, hstart, hl⟩ := Option.bind_eq_some_iff.mp hl
      dsimp only at hl
      split at hl
      · obtain ⟨condition, hcondition, hl⟩ := Option.bind_eq_some_iff.mp hl
        split at hl
        · obtain ⟨left, -, hl⟩ := Option.bind_eq_some_iff.mp hl
          split at hl
          · cases hl
          · obtain ⟨limit, hlimit, hl⟩ := Option.bind_eq_some_iff.mp hl
            obtain ⟨⟨step, target⟩, hstep, hl⟩ := Option.bind_eq_some_iff.mp hl
            dsimp only at hl
            split at hl
            · cases hl
            · obtain ⟨isStrict, -, hl⟩ := Option.bind_eq_some_iff.mp hl
              cases hl
              obtain ⟨hname, htype, hvalue⟩ : May .visualBasic hf n _ ∧
                  (∀ c ∈ _, May .visualBasic hf n c) ∧ May .visualBasic hf n _ :=
                may_start hk hsome hi hstart
              have hcondition := mem_children_of_child? hcondition
              have hlimit := mem_children_of_child? hlimit
              have he := mem_children_of_child? he
              refine ⟨hname, htype, hvalue, ?_, fun c hc => ?_⟩
              · exact may_loop hk (under_loop hk hsome (.child hf.links (hf.parent hcondition)) hcondition
                  rfl hlimit) hlimit rfl rfl (by decide) nofun
              · have hmem := amount_of_step? hstep hc
                have hunder : f.Under (Language.visualBasic.paths hf) n e :=
                  under_loop hk hsome (.child hf.links (hf.parent hj)) hj rfl he
                exact may_loop hk (under_loop hk hsome hunder he rfl hmem) hmem rfl rfl (by decide)
                  nofun
        · cases hl
      · cases hl
  · cases hl

end Loops

end DualSyntax.VisualBasic

/-!
## Layout of VB

Each writer of VB lays out what it writes of a node, and writes only nodes that may be written with it.
There is one lemma for each writer of expressions and of statements.
-/

namespace DualSyntax.VisualBasic

open Forest Writing
open Output (IsPiece)

variable {f : Forest} {style : Style} {n c : NodeId} {t : Title}

/-! ### Names, types and expressions -/

section Pieces

variable {m : (⟨.visualBasic, f, style⟩ : Sheet).Scope} {p : Bool}

theorem lays_name {name : String} (h : Text.IsVisible name.toList) :
    Lays m true fun _ => writeName name := by
  refine .put ?_
  split
  · rw [String.toList_append]
    exact isPiece_of_endsSolid (Text.EndsSolid.append ⟨']', by decide, by decide⟩ _)
  · exact isPiece_append h []

theorem lays_asClause {type : Option NodeId} (h : ∀ c ∈ type, isInferred f c = false → m.may c) :
    Lays m false fun node => writeAsClause node type := by
  unfold writeAsClause
  split
  · exact .nothing
  · next c =>
      refine .forest ?_
      split
      · exact .nothing
      · next hinferred =>
          exact .append (.left (.pair (by decide) (by decide)) .space)
            (.node (h c rfl (Bool.eq_false_iff.mpr hinferred)))

theorem lays_parenthesized (h : m.may c) : Lays m true fun node => put "(" ++ node c ++ put ")" :=
  .left (.left (.put (by decide)) (.node h)) (.put (by decide))

theorem lays_operand (h : m.may c) (least : Nat) :
    Lays m true fun node => writeOperand node c least := by
  refine .forest ?_
  split
  · exact lays_parenthesized h
  · exact .node h

theorem lays_infixed {left right : NodeId} (hleft : m.may left) (hright : m.may right)
    (op : BinaryOperator) : Lays m true fun node => writeInfixed node left op right :=
  .left (.left (.left (.left (lays_operand hleft _) .space) (.put (binaryText_isPiece op))) .space)
    (lays_operand hright _)

theorem lays_rank (rank : Nat) : Lays m true fun _ => writeRank rank :=
  .left (.left (.put (by decide)) .commas) (.put (by decide))

theorem lays_upperBound (h : m.may c) : Lays m true fun node => writeUpperBound node c := by
  refine .forest ?_
  split
  · next k hk => exact .put (isPiece_of_endsSolid (Text.nat_solid k))
  · exact .left (lays_operand h _) (.put (by decide))

theorem lays_bounds {sizes : List NodeId} (h : ∀ c ∈ sizes, m.may c) (bounds : ArrayBounds) :
    Lays m true fun node => writeBounds node sizes bounds := by
  refine .left (.left (.put (by decide)) (.separatedBy (p := false) _ (.put (by decide))
    (fun c hc => ?_) (by simp))) (.put (by decide))
  cases bounds with
  | length => exact lays_upperBound (h c hc)
  | upperBound => exact .node (h c hc)

end Pieces

section Expressions

variable (hf : f.Regular) (style)

theorem lays_binary {op : BinaryOperator} (hk : f.kind n = .binaryOperatorExpression op) :
    Lays (scope .visualBasic hf style n) true fun node => writeBinary node n op := by
  refine .required fun left hleft => .required fun right hright => ?_
  have hleft := may_child? .visualBasic hf style hk rfl hleft
  have hright := may_child? .visualBasic hf style hk rfl hright
  split
  · exact .left (.left (.left (.left (.left (.put (by decide)) (.put (by decide))) (.node hleft))
      (.put (by decide))) (.node hright)) (.put (by decide))
  · exact .forest (lays_infixed hleft hright _)

theorem lays_unary {op : UnaryOperator} (hk : f.kind n = .unaryOperatorExpression op) :
    Lays (scope .visualBasic hf style n) true fun node => writeUnary node n op := by
  refine .forest (.required fun operand hoperand => ?_)
  have hoperand := may_child? .visualBasic hf style hk rfl hoperand
  have hcounted {change : String} (hchange : IsPiece change.toList) :
      Lays (scope .visualBasic hf style n) true fun node =>
        if atStatementLevel f n then writeOperand node operand primaryLevel ++ put change
        else unsupported n := by
    split
    · exact .left (lays_operand hoperand _) (.put hchange)
    · exact .unsupported n
  have hsigned {sign : String} (hsign : IsPiece sign.toList) (hblank : IsPiece (sign.toList ++ [' ']))
      (glued : Bool) : Lays (scope .visualBasic hf style n) true fun node =>
        put sign ++ onlyIf glued (put " ") ++ writeOperand node operand negationLevel := by
    refine .left (q := true) ?_ (lays_operand hoperand _)
    cases glued with
    | true => exact .pair (fun h => by rw [h] at hsign; exact absurd hsign (by decide)) hblank
    | false => exact .left (.put hsign) .nothing
  cases op with
  | not | bitNot => exact .left (.left (.put (by decide)) .space) (lays_operand hoperand _)
  | minus => exact hsigned (by decide) (by decide) _
  | plus => exact hsigned (by decide) (by decide) _
  | increment | postIncrement => exact hcounted (by decide)
  | decrement | postDecrement => exact hcounted (by decide)

theorem lays_assignment {op : AssignmentOperator} (hk : f.kind n = .assignmentExpression op) :
    Lays (scope .visualBasic hf style n) true fun node => writeAssignment node n op := by
  refine .forest ?_
  split
  · exact .unsupported n
  · refine .required fun left hleft => .required fun value hvalue => ?_
    have hleft := may_child? .visualBasic hf style hk rfl hleft
    have hvalue := may_child? .visualBasic hf style hk rfl hvalue
    refine .left (q := true) (.left (lays_operand hleft _) .space) ?_
    split
    · next sign hsign => exact .left (.left (.put (assignmentText_isPiece hsign)) .space) (.node hvalue)
    · exact .left (.put (by decide)) (lays_infixed hleft hvalue _)

theorem lays_conversion {k : NodeKind} (hk : f.kind n = k)
    (hexpression : k.shows .visualBasic .expression = true) (htype : k.shows .visualBasic .type = true)
    {function : String} (hfunction : IsPiece function.toList) :
    Lays (scope .visualBasic hf style n) true fun node => writeConversion node n function := by
  refine .required fun operand hoperand => .required fun type h => ?_
  exact .left (.left (.left (.left (.left (.put hfunction) (.put (by decide)))
    (.node (may_child? .visualBasic hf style hk hexpression hoperand))) (.put (by decide)))
    (.node (may_child? .visualBasic hf style hk htype h))) (.put (by decide))

theorem lays_arrayCreation {bounds : ArrayBounds} (hk : f.kind n = .arrayCreateExpression bounds) :
    Lays (scope .visualBasic hf style n) true fun node => writeArrayCreation node n bounds := by
  refine .forest (.required fun type htype => ?_)
  have htype := mem_children_of_child? htype
  have hunder : f.Under (Language.visualBasic.paths hf) n type := .child hf.links (hf.parent htype)
  rw [elementType_eq]
  refine .bind (CSharp.elementType_page _ _ _) fun r hr => ?_
  have helement : May .visualBasic hf n r.1 :=
    may_of_elementType (l := .visualBasic) hk nofun rfl hunder htype (.inl rfl) hr
  refine .left (.left (.left (.left (.left (.left (.put (by decide)) .space) (.node helement))
    (lays_bounds (may_children .visualBasic hf style hk rfl) _)) (.inOrder (p := true) (q := false)
      (fun rank _ => writeRank rank) (fun _ _ => lays_rank _) (by simp))) .space) (.childOr (by decide)
      fun _ hc => may_child? .visualBasic hf style hk rfl hc)

theorem lays_call {k : NodeKind} (hk : f.kind n = k) (htarget : k.shows .visualBasic .target = true)
    (harguments : k.shows .visualBasic .arguments = true) :
    Lays (scope .visualBasic hf style n) true fun node => writeCall node n := by
  refine .required fun target h => ?_
  exact .left (.left (.left (lays_operand (may_child? .visualBasic hf style hk htarget h) _)
    (.put (by decide))) (.commaSeparatedAt (may_children .visualBasic hf style hk harguments)))
    (.put (by decide))

theorem lays_qualified (hk : f.kind n = .memberType) :
    Lays (scope .visualBasic hf style n) true fun node => writeQualified node n := by
  refine .required fun target htarget => .required fun name hname => ?_
  exact .left (.left (.node (may_child? .visualBasic hf style hk rfl htarget)) (.put (by decide)))
    (.node (may_child? .visualBasic hf style hk rfl hname))

theorem lays_member {nullConditional : Bool}
    (hk : f.kind n = .memberReferenceExpression nullConditional) :
    Lays (scope .visualBasic hf style n) true fun node => writeMember node n nullConditional := by
  refine .required fun target htarget => .required fun name hname => ?_
  refine .left (.left (lays_operand (may_child? .visualBasic hf style hk rfl htarget) _) (.put ?_))
    (.node (may_child? .visualBasic hf style hk rfl hname))
  cases nullConditional <;> decide

theorem lays_conditional (hk : f.kind n = .conditionalExpression) :
    Lays (scope .visualBasic hf style n) true fun node => writeConditional node n := by
  refine .required fun condition hcondition => .required fun yes hyes => .required fun no hno => ?_
  have hcondition := may_child? .visualBasic hf style hk rfl hcondition
  have hyes := may_child? .visualBasic hf style hk rfl hyes
  have hno := may_child? .visualBasic hf style hk rfl hno
  have hif : Lays (scope .visualBasic hf style n) true fun _ => put "If" := .put (by decide)
  have hopen := hif.left (.word "(" (by decide))
  exact .left (.left (.left (.left (.left (.left hopen (.node hcondition)) (.put (by decide)))
    (.node hyes)) (.put (by decide))) (.node hno)) (.put (by decide))

theorem lays_typeTest (hk : f.kind n = .typeTestExpression) :
    Lays (scope .visualBasic hf style n) true fun node => writeTypeTest node n := by
  refine .required fun operand hoperand => .required fun type htype => ?_
  have hoperand := lays_operand (may_child? .visualBasic hf style hk rfl hoperand) primaryLevel
  have hopen := Lays.left (.left (.word "TypeOf" (by decide)) .space) hoperand
  exact .left (.left (.spaced hopen (by decide) (by decide)) .space)
    (.node (may_child? .visualBasic hf style hk rfl htype))

theorem lays_objectCreation (hk : f.kind n = .objectCreateExpression) :
    Lays (scope .visualBasic hf style n) true fun node => writeObjectCreation node n := by
  refine .required fun type htype => ?_
  exact .left (.left (.left (.left (.left (.put (by decide)) .space)
    (.node (may_child? .visualBasic hf style hk rfl htype))) (.put (by decide)))
    (.commaSeparatedAt (may_children .visualBasic hf style hk rfl))) (.put (by decide))

end Expressions

/-! ### Bodies and variables -/

section Bodies

variable (hf : f.Regular) (style)

theorem lays_statements {ns : List NodeId} (h : ∀ x ∈ ns, BodyOf hf n x) :
    Lays (scope .visualBasic hf style n) false fun node => writeStatements node ns := by
  refine .forest (.inOrder (p := false) _ (fun line hline => ?_) (by simp))
  cases line with
  | trivia => exact .trivia
  | statement m => exact .append (.node (may_of_bodyLines h hline)) .newLine

theorem lays_body {body : NodeId} (h : BodyOf hf n body) :
    Lays (scope .visualBasic hf style n) false fun node => writeBody node body :=
  .indented (lays_statements style hf (by simpa using h))

theorem lays_construct {body : NodeId} (h : BodyOf hf n body) {last : String}
    (hlast : IsPiece last.toList) :
    Lays (scope .visualBasic hf style n) true fun node => writeConstruct node body last :=
  .right (.append .newLine (lays_body style hf h)) (.put hlast)

end Bodies

section Variables

variable (hf : f.Regular) (style) (hdeclares : (f.kind n).declaresVariables = true)
include hdeclares

theorem may_typeOf {v type : NodeId} (hv : v ∈ f.children n .declarators)
    (h : (f.child? n .type).or (f.child? v .type) = some type) : May .visualBasic hf n type := by
  rcases Option.or_eq_some_iff.mp h with h | ⟨-, h⟩
  · have hmem := mem_children_of_child? h
    refine may_declared hdeclares (.child hf.links (hf.parent hmem)) hmem rfl (by decide) ?_
    exact fun _ => nofun
  · exact may_variable hdeclares hv (mem_children_of_child? h) rfl (by decide) nofun

theorem lays_variable {v : NodeId} (hv : v ∈ f.children n .declarators) :
    Lays (scope .visualBasic hf style n) true fun node =>
      writeVariable node v ((f.child? n .type).or (f.child? v .type)) := by
  refine .forest (.required fun name hname => ?_)
  have hname : May .visualBasic hf n name :=
    may_variable hdeclares hv (mem_children_of_child? hname) rfl (by decide) nofun
  have hclause : Lays (scope .visualBasic hf style n) true fun node =>
      node name ++ writeAsClause node (typeOf? f n v) := by
    refine .left (.node hname) (lays_asClause fun c hc _ => may_typeOf hf hdeclares hv ?_)
    exact (Option.filter_eq_some_iff.mp hc).1
  -- an initializer is written, unless it only sizes an array
  have hinitializer (value : NodeId) (h : f.child? v .initializer = some value)
      (hsized : ∀ type, typeOf? f n v = some type → sizedArray? f type value = none) :
      May .visualBasic hf n value :=
    may_variable hdeclares hv (mem_children_of_child? h) rfl (by decide) fun _ => hsized
  dsimp only
  rw [show ((f.child? n .type).or (f.child? v .type)).filter (fun t => !isInferred f t) =
    typeOf? f n v from rfl]
  cases htype : typeOf? f n v with
  | none =>
      rw [htype] at hclause
      refine .left hclause (q := false) ?_
      split
      · next value hvalue =>
          refine .append (.put (by decide)) (.node (hinitializer value hvalue fun type h => ?_))
          rw [htype] at h
          cases h
      · exact .nothing
  | some type =>
      rw [htype] at hclause
      cases hvalue : f.child? v .initializer with
      | none => exact .left hclause .nothing
      | some value =>
          have hmem := mem_children_of_child? hvalue
          dsimp only
          split
          · next sizes bounds element hsized =>
              obtain ⟨rfl, helement⟩ := parts_of_sizedArray? hsized
              have hsome : (sizedArray? f type value).isSome = true := by rw [hsized]; rfl
              refine .left (.left (.node hname) (lays_bounds (fun c hc => ?_) bounds))
                (lays_asClause fun c hc _ => ?_)
              · exact may_sizes hdeclares hv hmem htype hsome hc rfl (by decide) (by decide)
              · obtain rfl := Option.some_inj.mp hc
                exact may_sizes hdeclares hv hmem htype hsome (mem_children_of_child? helement) rfl
                  (by decide) (by decide)
          · next hsized =>
              have hvalue := hinitializer value hvalue fun type' h => by
                rw [htype] at h
                cases h
                exact hsized
              split
              · exact .left (.left (.spaced (.node hname) (by decide) (by decide)) .space) (.node hvalue)
              · exact .left hclause (.append (.put (by decide)) (.node hvalue))

theorem lays_declarators :
    Lays (scope .visualBasic hf style n) true fun node => writeDeclarators node n := by
  refine .forest ?_
  have hne := hf.declares hdeclares
  have heach : Lays (scope .visualBasic hf style n) true fun node => separatedBy (put ", ")
      (((f.children n .declarators).map fun v => (v, (f.child? n .type).or (f.child? v .type))).map
        fun vt => writeVariable node vt.1 vt.2) := by
    refine .separatedBy (fun (vt : NodeId × Option NodeId) node => writeVariable node vt.1 vt.2)
      (.put (by decide)) (fun vt hvt => ?_) fun _ => by simpa using hne
    obtain ⟨v, hv, rfl⟩ := List.mem_map.mp hvt
    exact lays_variable style hf hdeclares hv
  -- the type of the first variable may be that of all
  have hshared {v type : NodeId} (hv : v ∈ f.children n .declarators)
      (htype : (f.child? n .type).or (f.child? v .type) = some type) :
      Lays (scope .visualBasic hf style n) true fun node => separatedBy (put ", ")
        ((f.children n .declarators).map fun v => (do node (← required v .identifier) : Written)) ++
          writeAsClause node (some type) := by
    refine .left (.separatedBy (fun v node => (do node (← required v .identifier) : Written))
      (.put (by decide)) (fun v hv => .required fun name hname => ?_) fun _ => hne)
      (lays_asClause fun c hc _ => ?_)
    · exact .node (may_variable hdeclares hv (mem_children_of_child? hname) rfl (by decide) nofun)
    · obtain rfl := Option.some_inj.mp hc
      exact may_typeOf hf hdeclares hv htype
  dsimp only
  obtain ⟨v, vs, hdeclared⟩ := List.exists_cons_of_ne_nil hne
  have hv : v ∈ f.children n .declarators := by
    rw [hdeclared]
    exact List.mem_cons_self
  have hshared := @hshared v
  rw [hdeclared] at heach hshared ⊢
  simp only [List.map_cons] at heach hshared ⊢
  cases htype : (f.child? n .type).or (f.child? v .type) with
  | none =>
      rw [htype] at heach
      exact heach
  | some type =>
      rw [htype] at heach
      split
      · next type' hsome =>
          dsimp only at hsome
          split at hsome
          · cases hsome
            split
            · exact hshared List.mem_cons_self htype
            · exact heach
          · cases hsome
      · exact heach

end Variables

/-! ### Statements -/

section Statements

variable (hf : f.Regular) (style)

theorem bodyOf_child? (hc : f.child? n t = some c)
    (ht : t.holdsStatements = true ∨ t.holdsBlocks = true) (hfalse : t ≠ .falseStatement) :
    BodyOf hf n c :=
  bodyOf_child (mem_children_of_child? hc) ht fun h => (hfalse h).elim

theorem lays_localDeclaration (hk : f.kind n = .variableDeclarationStatement) :
    Lays (scope .visualBasic hf style n) true fun node => writeLocalDeclaration node n := by
  obtain ⟨mark, hmay, hdeclarators⟩ := lays_declarators style hf (n := n) (by rw [hk]; rfl)
  refine ⟨mark, hmay, .read fun h => .after (p := false) ?_ hdeclarators⟩
  cases h with
  | true => exact .of_steps (fun _ _ => rfl) (fun _ => .nothing) (by simp)
  | false =>
      refine .weaken (LaysAll.before (.put ?_) .space)
      split <;> decide

theorem lays_test {m : (⟨.visualBasic, f, style⟩ : Sheet).Scope} (h : m.may c) {word : String}
    (hword : IsPiece word.toList) : Lays m true fun node => writeTest node word c :=
  .spaced (.left (.left (.put hword) .space) (.node h)) (by decide) (by decide)

/-- The conditions and the bodies of all alternatives are written with the first one. -/
theorem lays_alternatives (hk : f.kind n = .ifElseStatement) {fuel : Nat} {no : Option NodeId}
    (h : ∀ c ∈ no, f.Under (Language.visualBasic.paths hf) n c ∧ ∃ z, c ∈ f.children z .falseStatement) :
    Lays (scope .visualBasic hf style n) false fun node => writeAlternatives node f fuel no := by
  induction fuel generalizing no with
  | zero => exact .throws fun _ _ _ h => by cases h
  | succ fuel ih =>
      cases no with
      | none => exact .nothing
      | some c =>
          obtain ⟨hunder, z, hc⟩ := h c rfl
          unfold writeAlternatives
          split
          · next hkind =>
              have hbelow {d : NodeId} {t : Title} (hd : d ∈ f.children c t) :
                  f.Under (Language.visualBasic.paths hf) n d :=
                hunder.step (.alternative hkind hc) (hf.parent hd)
              refine .required fun condition hcondition => .required fun yes hyes => ?_
              have hcondition := mem_children_of_child? hcondition
              have hyes := mem_children_of_child? hyes
              refine .append (.append (.left (lays_test style ?_ (by decide)) .newLine)
                (lays_body style hf ⟨hbelow hyes, c, _, hyes, .inl rfl, nofun⟩)) (ih fun d hd => ?_)
              · refine may_under (hbelow hcondition) hcondition rfl (by decide) (fun _ => nofun) nofun ?_
                intro hloop
                rw [hk] at hloop
                cases hloop
              · have hmem := mem_children_of_child? hd
                exact ⟨hbelow hmem, c, hmem⟩
          · next hkind =>
              exact .append (.append (.put (by decide)) .newLine)
                (lays_body style hf ⟨hunder, z, _, hc, .inl rfl, fun _ => hkind⟩)

theorem lays_if (hk : f.kind n = .ifElseStatement) :
    Lays (scope .visualBasic hf style n) true fun node => writeIf node n := by
  refine .forest (.required fun condition hcondition => .required fun yes hyes => ?_)
  have hcondition := may_child? .visualBasic hf style hk rfl hcondition
  have hyes : BodyOf hf n yes := bodyOf_child? hf hyes (.inl rfl) (by decide)
  dsimp only
  split
  · next hsimple =>
      refine .left (.left (lays_test style hcondition (by decide)) .space) (.node (hyes.may ?_ ?_))
      all_goals
        intro h
        rw [h] at hsimple
        simp [isSimple] at hsimple
  · refine .left (.left (.left (.left (lays_test style hcondition (by decide)) .newLine)
      (lays_body style hf hyes)) (lays_alternatives style hf hk fun c hc => ?_)) (.put (by decide))
    have hmem := mem_children_of_child? hc
    exact ⟨.child hf.links (hf.parent hmem), n, hmem⟩

theorem lays_doLoop {test : LoopTest} {isUntil : Bool}
    (hk : f.kind n = .doLoopStatement test isUntil) :
    Lays (scope .visualBasic hf style n) true fun node => writeDoLoop node n test isUntil := by
  refine .required fun body hbody => .forest ?_
  have hbody : BodyOf hf n body := bodyOf_child? hf hbody (.inl rfl) (by decide)
  have htest (c : NodeId) (hc : f.child? n .condition = some c) (b : Bool) :
      Lays (scope .visualBasic hf style n) false fun node =>
        onlyIf b (space ++ put (if isUntil then "Until" else "While") ++ space ++ node c) := by
    refine .onlyIf (p := true) fun _ => .left (.left (.right .space (.put ?_)) .space)
      (.node (may_child? .visualBasic hf style hk rfl hc))
    split <;> decide
  refine .left (q := false) (.left (.left (.left (.left (q := false) (.put (by decide)) ?_) .newLine)
    (lays_body style hf hbody)) (.put (by decide))) ?_
  all_goals
    split
    · next c hc => exact htest c hc _
    · exact .nothing

theorem lays_limit {l : CountingLoop} (h : May .visualBasic hf n l.limit) :
    Lays (scope .visualBasic hf style n) true fun node => writeLimit node l := by
  unfold writeLimit
  split
  · exact .node h
  · refine .forest ?_
    split
    · next k _ _ => exact .put (isPiece_of_endsSolid (Text.nat_solid k))
    · exact .successor
    · refine .left (lays_operand h _) (.put ?_)
      split <;> decide

theorem lays_step {step : LoopStep}
    (h : ∀ c, step = .up c ∨ step = .down c → May .visualBasic hf n c) :
    Lays (scope .visualBasic hf style n) false fun node => writeStep node step := by
  cases step with
  | one => exact .nothing
  | minusOne => exact .append (.pair (by decide) (by decide)) (.put (by decide))
  | up c => exact .append (.left (.pair (by decide) (by decide)) .space) (.node (h c (.inl rfl)))
  | down c =>
      exact .append (.left (.pair (by decide) (by decide)) (.put (by decide)))
        (lays_operand (h c (.inr rfl)) _)

theorem lays_countingLoop {l : CountingLoop} (h : MayCount hf n l) {body : NodeId}
    (hbody : BodyOf hf n body) :
    Lays (scope .visualBasic hf style n) true fun node => writeCountingLoop node l body := by
  have hname := Lays.left (m := scope .visualBasic hf style n)
    (.left (.word "For" (by decide)) .space) (.node h.name)
  have htype := hname.left (lays_asClause fun c hc _ => h.type c hc)
  have hstart := Lays.left (.left htype (.word " = " (by decide))) (.node h.start)
  have hto : IsPiece (" ".toList ++ "To".toList) := by decide
  have hlimit := Lays.left (.left (.spaced hstart (by decide) hto)
    .space) (lays_limit style hf h.limit)
  exact .left (.left hlimit (lays_step style hf h.amount)) (lays_construct style hf hbody (by decide))

/-- A `for` statement that does not count is written with its parts. -/
theorem lays_for (hk : f.kind n = .forStatement) :
    Lays (scope .visualBasic hf style n) true fun node => writeFor node n := by
  refine .forest (.required fun body hbody => ?_)
  have hbody : BodyOf hf n body := bodyOf_child? hf hbody (.inl rfl) (by decide)
  dsimp only
  split
  · next l hl => exact lays_countingLoop style hf (mayCount hk hl) hbody
  · next hnone =>
      split
      · exact .unsupported n
      · have hline {t : Title} (ht : t.shown .visualBasic = true) (hmembers : t ≠ .members) :
            Lays (scope .visualBasic hf style n) false fun node =>
              inOrder ((f.children n t).map fun c => node c ++ newLine) :=
          .inOrder (p := true) (fun c node => node c ++ newLine)
            (fun c hc => .left (.node (may_loopPart hk hnone hc ht hmembers)) .newLine) (by simp)
        have hcondition : Lays (scope .visualBasic hf style n) true fun node =>
            childOr node n .condition "True" :=
          .childOr (by decide) fun c hc =>
            may_loopPart hk hnone (mem_children_of_child? hc) rfl (by decide)
        have hhead := Lays.left (.left (.right (hline (t := .initializers) rfl (by decide))
          (.word "While" (by decide))) .space) hcondition
        exact .left (.left (.left hhead .newLine) (.indented (p := false)
          (.append (lays_statements style hf (by simpa using hbody)) (hline rfl (by decide)))))
          (.put (by decide))

/-- The type that a loop gives its variable. -/
theorem lays_typeClause {k : NodeKind} (hk : f.kind n = k) (hshows : k.shows .visualBasic .type = true) :
    Lays (scope .visualBasic hf style n) false fun node => writeAsClause node (f.child? n .type) :=
  lays_asClause fun _ hc _ => may_child? .visualBasic hf style hk hshows hc

theorem lays_foreach (hk : f.kind n = .foreachStatement) :
    Lays (scope .visualBasic hf style n) true fun node => writeForeach node n := by
  refine .required fun name hname => .required fun collection hcollection =>
    .required fun body hbody => .forest ?_
  have hbody : BodyOf hf n body := bodyOf_child? hf hbody (.inl rfl) (by decide)
  have hname := Lays.left (.left (.word "For Each" (by decide)) .space)
    (.node (may_child? .visualBasic hf style hk rfl hname))
  have hword : IsPiece (" ".toList ++ "In".toList) := by decide
  have hin := Lays.spaced (hname.left (lays_typeClause style hf hk rfl)) (by decide) hword
  exact .left (.left (.left hin .space) (.node (may_child? .visualBasic hf style hk rfl hcollection)))
    (lays_construct style hf hbody (by decide))

theorem lays_forNext (hk : f.kind n = .forNextStatement) :
    Lays (scope .visualBasic hf style n) true fun node => writeForNext node n := by
  refine .required fun name hname => .required fun start hstart => .required fun limit hlimit =>
    .required fun body hbody => .forest ?_
  have hbody : BodyOf hf n body := bodyOf_child? hf hbody (.inl rfl) (by decide)
  have hname := Lays.left (.left (.word "For" (by decide)) .space)
    (.node (may_child? .visualBasic hf style hk rfl hname))
  have hstart := Lays.left (.left (hname.left (lays_typeClause style hf hk rfl))
    (.word " = " (by decide))) (.node (may_child? .visualBasic hf style hk rfl hstart))
  have hto : IsPiece (" ".toList ++ "To".toList) := by decide
  have hlimit := Lays.left (.left (.spaced hstart (by decide) hto)
    .space) (.node (may_child? .visualBasic hf style hk rfl hlimit))
  refine .left (.left hlimit (.ifChild (p := true) (.left (.pair (by decide) (by decide)) .space)
    fun c hc => ?_)) (lays_construct style hf hbody (by decide))
  exact may_child? .visualBasic hf style hk rfl hc

theorem lays_while (hk : f.kind n = .whileStatement) :
    Lays (scope .visualBasic hf style n) true fun node => writeWhile node n := by
  refine .required fun condition hcondition => .required fun body hbody => ?_
  exact .left (.left (.left (.put (by decide)) .space)
    (.node (may_child? .visualBasic hf style hk rfl hcondition)))
    (lays_construct style hf (bodyOf_child? hf hbody (.inl rfl) (by decide)) (by decide))

theorem lays_jump {word : String} (hword : IsPiece word.toList)
    (target : Forest → NodeId → Option NodeId) :
    Lays (scope .visualBasic hf style n) true fun _ => writeJump n word target := by
  refine .forest ?_
  dsimp only
  split
  · next construct hconstruct =>
      refine .left (.left (.put hword) .space) (.put ?_)
      obtain ⟨a, -, ha⟩ := Option.bind_eq_some_iff.mp hconstruct
      unfold targetWord? at ha
      split at ha
      case h_5 =>
        cases ha
        split <;> decide
      all_goals cases ha <;> decide
  · exact .unsupported n

theorem lays_keyword {k : NodeKind} (hk : f.kind n = k)
    (hshows : k.shows .visualBasic .expression = true) {word : String} (hword : IsPiece word.toList) :
    Lays (scope .visualBasic hf style n) true fun node => writeKeywordStatement node n word :=
  .left (.put hword) (.ifChild .space fun _ hc => may_child? .visualBasic hf style hk hshows hc)

theorem lays_try (hk : f.kind n = .tryCatchStatement) :
    Lays (scope .visualBasic hf style n) true fun node => writeTry node n := by
  refine .forest (.required fun block hblock => ?_)
  have hblock : BodyOf hf n block := bodyOf_child? hf hblock (.inr rfl) (by decide)
  have hclauses := may_children .visualBasic hf style hk (t := .catchClauses) rfl
  refine .left (.left (q := false) (.left (q := false) (.left (.left (.put (by decide)) .newLine)
    (lays_body style hf hblock)) (.inOrder (p := true) (fun c node => node c)
      (fun c hc => .node (hclauses c hc)) (by simp))) ?_) (.put (by decide))
  split
  · next final hfinal =>
      exact .append (.append (.put (by decide)) .newLine)
        (lays_body style hf (bodyOf_child? hf hfinal (.inr rfl) (by decide)))
  · exact .nothing

theorem lays_catch (hk : f.kind n = .catchClause) :
    Lays (scope .visualBasic hf style n) true fun node => writeCatch node n := by
  refine .forest (.required fun body hbody => ?_)
  refine .left (.left (.left (q := false) (.put (by decide)) ?_) .newLine)
    (lays_body style hf (bodyOf_child? hf hbody (.inr rfl) (by decide)))
  split
  · exact .nothing
  · next type htype =>
      refine .append (.append (q := true) .space ?_) (lays_asClause fun c hc _ => ?_)
      · split
        · next name hname => exact .node (may_child? .visualBasic hf style hk rfl hname)
        · exact lays_name ⟨⟨'e', by decide, by decide⟩, by decide⟩
      · obtain rfl := Option.some_inj.mp hc
        exact may_child? .visualBasic hf style hk rfl htype

theorem lays_switch (hk : f.kind n = .switchStatement) :
    Lays (scope .visualBasic hf style n) true fun node => writeSwitch node n := by
  refine .required fun expression hexpression => .forest ?_
  have hsections := may_children .visualBasic hf style hk (t := .switchSections) rfl
  have hhead := Lays.left (.left (.word "Select Case" (by decide)) .space)
    (.node (may_child? .visualBasic hf style hk rfl hexpression))
  refine .left (.left (hhead.left .newLine) (.indented (p := false) ?_)) (.put (by decide))
  exact .inOrder (p := true) (fun c node => leadingTrivia c ++ node c)
    (fun c hc => .right .trivia (.node (hsections c hc))) (by simp)

theorem lays_section (hk : f.kind n = .switchSection) :
    Lays (scope .visualBasic hf style n) true fun node => writeSection node n := by
  refine .forest ?_
  have hlabels := may_children .visualBasic hf style hk (t := .caseLabels) rfl
  have hstatements (c : NodeId) (hc : c ∈ f.children n .statements) : BodyOf hf n c :=
    bodyOf_child hc (.inl rfl) nofun
  refine .left (.left (.left (q := false) (.left (.put (by decide)) .space) ?_) .newLine)
    (.indented (lays_statements style hf fun c hc => ?_))
  · split
    · exact .weaken (.put (by decide))
    · exact .commaSeparated hlabels (by simp)
  · split at hc
    · exact hstatements c (List.mem_of_mem_dropLast hc)
    · exact hstatements c hc

theorem lays_caseRange (hk : f.kind n = .caseRange) :
    Lays (scope .visualBasic hf style n) true fun node => writeCaseRange node n := by
  refine .required fun first hfirst => .required fun last hlast => ?_
  exact .left (.left (.left (.left (.node (may_child? .visualBasic hf style hk rfl hfirst)) .space)
    (.put (by decide))) .space) (.node (may_child? .visualBasic hf style hk rfl hlast))

theorem lays_caseComparison {op : BinaryOperator} (hk : f.kind n = .caseComparison op) :
    Lays (scope .visualBasic hf style n) true fun node => writeCaseComparison node n op := by
  refine .required fun value hvalue => ?_
  exact .left (.left (.left (.left (.put (by decide)) .space) (.put (binaryText_isPiece op))) .space)
    (.node (may_child? .visualBasic hf style hk rfl hvalue))

theorem lays_using (hk : f.kind n = .usingStatement) :
    Lays (scope .visualBasic hf style n) true fun node => writeUsing node n := by
  refine .required fun resource hresource => .required fun body hbody => ?_
  exact .left (.left (.left (.put (by decide)) .space)
    (.header (.node (may_child? .visualBasic hf style hk rfl hresource))))
    (lays_construct style hf (bodyOf_child? hf hbody (.inl rfl) (by decide)) (by decide))

theorem lays_lock (hk : f.kind n = .lockStatement) :
    Lays (scope .visualBasic hf style n) true fun node => writeLock node n := by
  refine .required fun expression h => .required fun body hbody => ?_
  exact .left (.left (.left (.put (by decide)) .space)
    (.node (may_child? .visualBasic hf style hk rfl h)))
    (lays_construct style hf (bodyOf_child? hf hbody (.inl rfl) (by decide)) (by decide))

end Statements

end DualSyntax.VisualBasic

/-!
## Layout of declarations and of all nodes in VB

Declarations are written with the nodes below them, but the imports of namespaces stand at the top of the
text.
-/

namespace DualSyntax.VisualBasic

open Forest Writing
open Output (IsPiece)

variable {f : Forest} {style : Style} {n c : NodeId} {t : Title}

theorem isPiece_of_modifierWord {m : Modifier} {word : String}
    (h : modifierWord f n m = .ok (some word)) : IsPiece word.toList := by
  unfold modifierWord at h
  dsimp only at h
  split at h
  all_goals
    repeat' split at h
    all_goals cases h
    all_goals first | decide | exact modifierText_isPiece ‹_›

/-- The types that are inherited and implemented are base types. -/
theorem mem_of_splitBases {variant : TypeVariant} {bases : List NodeId}
    (h : c ∈ (splitBases f variant bases).1 ∨ c ∈ (splitBases f variant bases).2) : c ∈ bases := by
  unfold splitBases at h
  split at h
  · simpa using h
  · split at h
    · simpa using h
    · simpa using h
  · simpa using h

section Declarations

variable (hf : f.Regular) (style)

theorem lays_modifiers : Lays (scope .visualBasic hf style n) false fun _ => writeModifiers n := by
  have hmodifiers := may_children .visualBasic hf style (n := n) rfl (NodeKind.shows_modifiers _)
  refine .forest (.inOrder (p := false) _ (fun c hc => ?_) (by simp))
  dsimp only
  split
  · next m hm =>
      split
      · exact .nothing
      · next word hword =>
          refine .append (.of_one (p := true) (.marked (.put (isPiece_of_modifierWord hword)) ?_)
            (hmodifiers c hc)) .space
          exact fun holds hknows d => ⟨False.elim, hknows.modifier c m hm d⟩
      · exact .unsupported c
  · exact .nothing

theorem lays_bases {m : (⟨.visualBasic, f, style⟩ : Sheet).Scope} {word : String}
    (hword : IsPiece word.toList) {bases : List NodeId} (h : ∀ c ∈ bases, m.may c) :
    Lays m false fun node => writeBases node word bases :=
  .onlyIf (p := true) fun _ =>
    .left (.left (.left (.put hword) .space) (.commaSeparated (p := false) h (by simp))) .newLine

theorem lays_typeDeclaration {variant : TypeVariant} (hk : f.kind n = .typeDeclaration variant) :
    Lays (scope .visualBasic hf style n) true fun node => writeTypeDeclaration node n variant := by
  refine .forest (.required fun name hname => ?_)
  have hname := may_child? .visualBasic hf style hk rfl hname
  have hbases := may_children .visualBasic hf style hk (t := .baseTypes) rfl
  have hmembers := may_children .visualBasic hf style hk (t := .members) rfl
  have hall {word : String} (hword : IsPiece word.toList) (isEnum : Bool) {inherited implemented : List NodeId}
      (hinherited : ∀ c ∈ inherited, c ∈ f.children n .baseTypes)
      (himplemented : ∀ c ∈ implemented, c ∈ f.children n .baseTypes) :
      Lays (scope .visualBasic hf style n) true fun node =>
        writeModifiers n ++ put word ++ space ++ node name ++
          (if isEnum then writeAsClause node (f.children n .baseTypes).head? else nothing) ++ newLine ++
          indented (onlyIf (!isEnum)
            (writeBases node "Inherits" inherited ++ writeBases node "Implements" implemented) ++
            onLines node (f.children n .members) ++ trailingTrivia n) ++
          put "End" ++ space ++ put word := by
    have hhead := Lays.left (.left (.right (lays_modifiers style hf) (.put hword)) .space) (.node hname)
    refine .left (.left (.left (.left (.left (.left hhead (q := false) ?_) .newLine)
      (.indented (p := false) ?_)) (.put (by decide))) .space) (.put hword)
    · split
      · exact lays_asClause fun c hc _ => hbases c (List.mem_of_mem_head? hc)
      · exact .nothing
    · refine .append (q := false) (.append (p := false) (q := false) (.onlyIf (p := false) fun _ => ?_)
        (.onLines hmembers (by simp))) .trivia
      exact .append (lays_bases style (by decide) fun c hc => hbases c (hinherited c hc))
        (lays_bases style (by decide) fun c hc => hbases c (himplemented c hc))
  refine hall ?_ _ (fun c hc => mem_of_splitBases (.inl hc)) fun c hc => mem_of_splitBases (.inr hc)
  split
  · split <;> decide
  all_goals decide

theorem lays_field (hk : f.kind n = .fieldDeclaration) :
    Lays (scope .visualBasic hf style n) true fun node => writeField node n := by
  refine .forest (.right (p := false) (.append (p := false) (.onlyIf (p := true) fun _ => ?_)
    (lays_modifiers style hf)) (lays_declarators style hf (by rw [hk]; rfl)))
  exact .left (.put (by decide)) .space

theorem lays_parameters {k : NodeKind} (hk : f.kind n = k)
    (hshows : k.shows .visualBasic .parameters = true) :
    Lays (scope .visualBasic hf style n) true fun node => writeParameters node n :=
  .left (.left (.put (by decide)) (.commaSeparatedAt (may_children .visualBasic hf style hk hshows)))
    (.put (by decide))

theorem lays_method (hk : f.kind n = .methodDeclaration) :
    Lays (scope .visualBasic hf style n) true fun node => writeMethod node n := by
  refine .forest (.required fun name hname => ?_)
  have hname := may_child? .visualBasic hf style hk rfl hname
  have hword (b : Bool) : IsPiece (if b then "Function" else "Sub").toList := by
    cases b <;> decide
  dsimp only
  refine .left (q := false) (.left (.left (.left (.left (.right (lays_modifiers style hf)
    (.put (hword _))) .space) (.node hname)) (lays_parameters style hf hk rfl))
    (lays_asClause fun c hc _ => ?_)) ?_
  · exact may_child? .visualBasic hf style hk rfl (Option.filter_eq_some_iff.mp hc).1
  · split
    · next body hbody =>
        have hbody : BodyOf hf n body := bodyOf_child? hf hbody (.inr rfl) (by decide)
        exact .append (.left (lays_construct style hf hbody (by decide)) .space) (.put (hword _))
    · exact .nothing

theorem lays_constructor (hk : f.kind n = .constructorDeclaration) :
    Lays (scope .visualBasic hf style n) true fun node => writeConstructor node n := by
  refine .required fun body hbody => .forest ?_
  have hbody : BodyOf hf n body := bodyOf_child? hf hbody (.inr rfl) (by decide)
  refine .left (.left (.left (.left (.right (lays_modifiers style hf) (.put (by decide)))
    (lays_parameters style hf hk rfl)) .newLine) (.indented (p := false) (.append (p := false) ?_
      (lays_statements style hf (by simpa using hbody))))) (.put (by decide))
  split
  · next chain hchain => exact .append (.node (may_child? .visualBasic hf style hk rfl hchain)) .newLine
  · exact .nothing

theorem lays_property (hk : f.kind n = .propertyDeclaration) :
    Lays (scope .visualBasic hf style n) true fun node => writeProperty node n := by
  refine .forest (.required fun name hname => ?_)
  have haccessors : ∀ c ∈ (f.child? n .getter).toList ++ (f.child? n .setter).toList,
      (scope .visualBasic hf style n).may c := by
    intro c hc
    rcases List.mem_append.mp hc with hc | hc
    · exact may_child? .visualBasic hf style hk rfl (Option.mem_toList.mp hc)
    · exact may_child? .visualBasic hf style hk rfl (Option.mem_toList.mp hc)
  dsimp only
  refine .left (q := false) (.left (.left (.left (.right (p := false) (.append (p := false) (q := false)
    (lays_modifiers style hf) ?_) (.put (by decide))) .space)
    (.node (may_child? .visualBasic hf style hk rfl hname))) (lays_typeClause style hf hk rfl)) ?_
  · split
    · exact .append (.put (by decide)) .space
    · exact .append (.put (by decide)) .space
    · exact .nothing
  · split
    · exact .nothing
    · exact .append (.append (p := false) .newLine (.indented (p := false)
        (.append (.onLines haccessors (p := false) (by simp)) .trivia))) (.put (by decide))

/-- A setter names the type of its property. -/
theorem may_borrowed {role : AccessorKind} (hk : f.kind n = .accessor role) {p : NodeId}
    (hp : f.parent n = some p) (hc : c ∈ f.children p .type) : May .visualBasic hf n c :=
  ⟨NodeKind.prints_of_shown (hf.suits hc) rfl, .inr ⟨role, p, hk, hp, hc⟩⟩

theorem lays_accessor {role : AccessorKind} (hk : f.kind n = .accessor role) :
    Lays (scope .visualBasic hf style n) true fun node => writeAccessor node n role := by
  refine .forest ?_
  dsimp only
  have hbody (c : NodeId) (hc : f.child? n .body = some c) : BodyOf hf n c :=
    bodyOf_child? hf hc (.inr rfl) (by decide)
  have htype : Lays (scope .visualBasic hf style n) false fun node =>
      writeAsClause node ((f.parent n).bind fun p => f.child? p .type) := by
    refine lays_asClause fun c hc _ => ?_
    obtain ⟨p, hp, hc⟩ := Option.bind_eq_some_iff.mp hc
    exact may_borrowed hf hk hp (mem_children_of_child? hc)
  have hvalue : Lays (scope .visualBasic hf style n) true fun node => put "(" ++ writeName "value" ++
      writeAsClause node ((f.parent n).bind fun p => f.child? p .type) ++ put ")" :=
    .left (.left (.left (.put (by decide)) (lays_name ⟨⟨'e', by decide, by decide⟩, by decide⟩)) htype)
      (.put (by decide))
  refine .left (.left (.left (.left (q := false) (.left (.left (.right (lays_modifiers style hf)
    (.put ?_)) (.onlyIf fun _ => hvalue)) .newLine) ?_) (.put (by decide))) .space) (.put ?_)
  · cases role <;> decide
  · split
    · next body h => exact lays_body style hf (hbody body h)
    · exact .nothing
  · cases role <;> decide

theorem lays_parameter {passing : ParameterModifier} (hk : f.kind n = .parameterDeclaration passing) :
    Lays (scope .visualBasic hf style n) true fun node => writeParameter node n passing := by
  refine .forest (.required fun name hname => ?_)
  refine .left (.left (.right (p := false) (.append (p := false) (q := false)
    (.onlyIf (p := true) fun _ => .left (.put (by decide)) .space) ?_)
    (.node (may_child? .visualBasic hf style hk rfl hname))) (lays_typeClause style hf hk rfl))
    (.ifChild (.put (by decide)) fun _ hc => may_child? .visualBasic hf style hk rfl hc)
  cases passing with
  | none => exact .nothing
  | ref => exact .append (.put (by decide)) .space
  | out => exact .append (.put (by decide)) .space
  | params => exact .append (.put (by decide)) .space

theorem lays_enumMember (hk : f.kind n = .enumMemberDeclaration) :
    Lays (scope .visualBasic hf style n) true fun node => writeEnumMember node n := by
  refine .required fun name hname => ?_
  exact .left (.node (may_child? .visualBasic hf style hk rfl hname))
    (.ifChild (.put (by decide)) fun _ hc => may_child? .visualBasic hf style hk rfl hc)

theorem lays_event (hk : f.kind n = .eventDeclaration) :
    Lays (scope .visualBasic hf style n) true fun node => writeEvent node n := by
  refine .required fun name hname => .required fun type htype => ?_
  refine .left (.left (.left (.right (lays_modifiers style hf) (.put (by decide))) .space)
    (.node (may_child? .visualBasic hf style hk rfl hname))) (lays_asClause fun c hc _ => ?_)
  obtain rfl := Option.some_inj.mp hc
  exact may_child? .visualBasic hf style hk rfl htype

theorem lays_compilationUnit (hk : f.kind n = .compilationUnit) :
    Lays (scope .visualBasic hf style n) false fun node => writeCompilationUnit node n := by
  refine .forest ?_
  have hmembers := may_children .visualBasic hf style hk (t := .members) rfl
  dsimp only
  rw [List.partition_eq_filter_filter]
  refine .append (.append (.onLines (p := false) (fun c hc => ?_) (by simp))
    (.onLines (p := false) (fun c hc => ?_) (by simp))) .trivia
  · rcases List.mem_append.mp hc with hc | hc
    · exact hmembers c (List.mem_of_mem_filter hc)
    · exact may_nestedImport hk (fun _ hm => List.mem_of_mem_filter hm) hc
  · exact hmembers c (List.mem_of_mem_filter hc)

theorem lays_namespace (hk : f.kind n = .namespaceDeclaration) :
    Lays (scope .visualBasic hf style n) true fun node => writeNamespace node n := by
  refine .forest (.required fun name hname => ?_)
  refine .left (.left (.left (.left (.left (.put (by decide)) .space)
    (.node (may_child? .visualBasic hf style hk rfl hname))) .newLine) (.indented (p := false)
      (.append (.onLines (p := false) (fun c hc => ?_) (by simp)) .trivia))) (.put (by decide))
  obtain ⟨hmem, husing⟩ := List.mem_filter.mp hc
  refine may_member hk hmem fun h => ?_
  rw [h] at husing
  cases husing

theorem lays_chain {chain : ChainKind} (hk : f.kind n = .constructorInitializer chain) :
    Lays (scope .visualBasic hf style n) true fun node => writeChain node n chain := by
  refine .left (.left (.left (.left (.left (.put ?_) (.put (by decide))) (.put (by decide)))
    (.put (by decide))) (.commaSeparatedAt (may_children .visualBasic hf style hk rfl)))
    (.put (by decide))
  cases chain <;> decide

end Declarations

/-! ### All nodes -/

variable (hf : f.Regular) (style)

theorem lays_only {k : NodeKind} (hk : f.kind n = k) (hshows : k.shows .visualBasic t = true) :
    Lays (scope .visualBasic hf style n) true fun node => (do node (← required n t) : Written) :=
  .required fun _ hc => .node (may_child? .visualBasic hf style hk hshows hc)

/-- Every node but a variable, which belongs to its declaration, lays out what is written of it, of nodes
that may be written with it. -/
theorem lays_kind (hlexical : (f.kind n).printsIn .csharp = true ∨ f.kind n = .compilationUnit)
    (hvariable : f.kind n ≠ .variableDeclarator) :
    Lays (scope .visualBasic hf style n) ((f.kind n).printsIn .visualBasic) fun node => writeKind node n := by
  refine .forest ?_
  dsimp only
  cases hk : f.kind n with
  | token _ _ | comment _ _ | blankLine =>
      rw [hk] at hlexical
      rcases hlexical with h | h <;> cases h
  | identifier name => exact lays_name (hf.name hk)
  | modifier =>
      dsimp only
      split
      · next word hword => exact .put (modifierText_isPiece hword)
      · exact .unsupported n
  | primitiveType type =>
      dsimp only
      split
      · exact .unsupported n
      · exact .put (visualBasicWord_isPiece type)
  | simpleType | identifierExpression => exact lays_only style hf hk rfl
  | memberType => exact lays_qualified style hf hk
  | arrayType rank =>
      refine .required fun type htype => ?_
      exact .left (.node (may_child? .visualBasic hf style hk rfl htype)) (lays_rank rank)
  | pointerType => exact .unsupported n
  | primitiveExpression literal => exact .put (hf.literal_isPiece hk literalText_solid)
  | memberReferenceExpression nullConditional => exact lays_member style hf hk
  | invocationExpression => exact lays_call style hf hk rfl rfl
  | indexerExpression => exact lays_call style hf hk rfl rfl
  | binaryOperatorExpression op => exact lays_binary style hf hk
  | unaryOperatorExpression op => exact lays_unary style hf hk
  | assignmentExpression op => exact lays_assignment style hf hk
  | parenthesizedExpression =>
      refine .required fun inner hinner => ?_
      exact lays_parenthesized (may_child? .visualBasic hf style hk rfl hinner)
  | conditionalExpression => exact lays_conditional style hf hk
  | castExpression cast =>
      cases cast with
      | explicit => exact lays_conversion style hf hk rfl rfl (by decide)
      | direct => exact lays_conversion style hf hk rfl rfl (by decide)
  | asExpression => exact lays_conversion style hf hk rfl rfl (by decide)
  | typeTestExpression => exact lays_typeTest style hf hk
  | typeOfExpression =>
      refine .required fun type htype => ?_
      exact .left (.left (.left (.put (by decide)) (.put (by decide)))
        (.node (may_child? .visualBasic hf style hk rfl htype))) (.put (by decide))
  | typeReferenceExpression => exact lays_only style hf hk rfl
  | thisReferenceExpression => exact .put (by decide)
  | baseReferenceExpression => exact .put (by decide)
  | objectCreateExpression => exact lays_objectCreation style hf hk
  | arrayCreateExpression bounds => exact lays_arrayCreation style hf hk
  | arrayInitializerExpression =>
      exact .left (.left (.put (by decide)) (.commaSeparated (p := false)
        (may_children .visualBasic hf style hk rfl) (by simp))) (.put (by decide))
  | directionExpression => exact lays_only style hf hk rfl
  | blockStatement => exact lays_statements style hf fun c hc => bodyOf_child hc (.inl rfl) nofun
  | expressionStatement => exact lays_only style hf hk rfl
  | variableDeclarationStatement => exact lays_localDeclaration style hf hk
  | variableDeclarator => exact (hvariable hk).elim
  | ifElseStatement => exact lays_if style hf hk
  | whileStatement => exact lays_while style hf hk
  | doLoopStatement test isUntil => exact lays_doLoop style hf hk
  | forStatement => exact lays_for style hf hk
  | foreachStatement => exact lays_foreach style hf hk
  | returnStatement => exact lays_keyword style hf hk rfl (by decide)
  | throwStatement => exact lays_keyword style hf hk rfl (by decide)
  | breakStatement => exact lays_jump style hf (by decide) _
  | continueStatement => exact lays_jump style hf (by decide) _
  | tryCatchStatement => exact lays_try style hf hk
  | catchClause => exact lays_catch style hf hk
  | switchStatement => exact lays_switch style hf hk
  | switchSection => exact lays_section style hf hk
  | caseLabel => exact .childOr (by decide) fun c hc => may_child? .visualBasic hf style hk rfl hc
  | usingStatement => exact lays_using style hf hk
  | lockStatement => exact lays_lock style hf hk
  | emptyStatement => exact .nothing
  | compilationUnit => exact lays_compilationUnit style hf hk
  | usingDeclaration =>
      refine .required fun imported h => ?_
      exact .left (.left (.put (by decide)) .space) (.node (may_child? .visualBasic hf style hk rfl h))
  | namespaceDeclaration => exact lays_namespace style hf hk
  | typeDeclaration variant => exact lays_typeDeclaration style hf hk
  | fieldDeclaration => exact lays_field style hf hk
  | methodDeclaration => exact lays_method style hf hk
  | constructorDeclaration => exact lays_constructor style hf hk
  | constructorInitializer chain => exact lays_chain style hf hk
  | propertyDeclaration => exact lays_property style hf hk
  | accessor role => exact lays_accessor style hf hk
  | eventDeclaration => exact lays_event style hf hk
  | parameterDeclaration passing => exact lays_parameter style hf hk
  | enumMemberDeclaration => exact lays_enumMember style hf hk
  | fixedStatement => exact .unsupported n
  | exitStatement exit =>
      refine .left (.left (.put (by decide)) .space) (.put ?_)
      cases exit <;> decide
  | forNextStatement => exact lays_forNext style hf hk
  | caseRange => exact lays_caseRange style hf hk
  | caseComparison op => exact lays_caseComparison style hf hk

end DualSyntax.VisualBasic
