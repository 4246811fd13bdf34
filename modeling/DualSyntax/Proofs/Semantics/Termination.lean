import DualSyntax.Proofs.Semantics.BaseLists
import Mathlib.Tactic.Linarith

/-!
# Every question is answered

A question leads to questions about the children of a node, about the type nodes of definitions, and,
past a guard, about base lists, initializers and values of constants anywhere in the tree.  A guard
lets through only what is not being worked out, of which there is less and less, and between two guards
questions go down the tree; questions about types lead to no questions about expressions.  So the
fuel that questions are given is enough in a forest whose links agree, whatever leads in a circle.
-/

namespace DualSyntax

/-- The definitions that a meaning may be a constant of are declared among some nodes. -/
def Meaning.DeclaredIn (among : NodeId → Prop) : Meaning → Prop
  | .member candidates _ => ∀ d ∈ candidates, d.DeclaredIn among
  | .conversion _ operand => operand.DeclaredIn among
  | _ => True

theorem Meaning.declaredIn_of_forall {among : NodeId → Prop} (h : ∀ n, among n) (m : Meaning) :
    m.DeclaredIn among := by
  fun_induction Meaning.DeclaredIn among m with
  | case1 candidates type => exact fun d hd n hn => h n
  | case2 type operand ih => exact ih
  | case3 => trivial

theorem Meaning.DeclaredIn.mono {among among' : NodeId → Prop} {m : Meaning}
    (h : m.DeclaredIn among) (himp : ∀ n, among n → among' n) : m.DeclaredIn among' := by
  fun_induction Meaning.DeclaredIn among' m with
  | case1 candidates type => exact fun d hd n hn => himp n (h d hd n hn)
  | case2 type operand ih => exact ih h
  | case3 => trivial

namespace Semantics

open Forest (below card_below_le)

variable {w : World} {active : List (Aspect × NodeId)} {answers : Answers}

abbrev KnownMeaning (w : World) (m : Meaning) : Prop := m.DeclaredIn (· < w.forest.size)

def SettlesTypes (w : World) (active : List (Aspect × NodeId)) (answers : Answers) : Prop :=
  ∀ n scopes, Settles w active (answers.type n scopes) (KnownMeaning w)

def SettlesExpressions (w : World) (active : List (Aspect × NodeId)) (answers : Answers) : Prop :=
  ∀ n scopes, Settles w active (answers.expression n scopes) (KnownMeaning w)

/-! ## Types and overloads -/

theorem settles_typeNode (h : SettlesTypes w active answers) (n : NodeId) :
    Settles w active (typeAt answers n) fun _ => True :=
  settles_typeAt fun scopes => (h n scopes).mono fun _ _ => trivial

theorem settles_typeAt? (h : SettlesTypes w active answers) (n : Option NodeId) :
    Settles w active (typeAt? answers n) fun _ => True := by
  cases n with
  | none => exact .pure trivial
  | some n => exact settles_typeNode h n

theorem settles_baseClass (h : SettlesBases w active answers) (n : NodeId) :
    Settles w active (baseClass answers n) fun _ => True :=
  .forest (.bind (settles_baseTypes h n) fun _ _ => .pure trivial)

theorem settles_conversion (hf : w.forest.WellLinked) (h : SettlesBases w active answers)
    (source target : TypeRef) :
    Settles w active (conversion answers source target) fun _ => True := by
  induction source generalizing target with
  | known | null =>
      unfold conversion
      refine .forest (.ite (fun _ => .pure trivial) fun _ => .ite (fun _ => .pure trivial) fun _ => ?_)
      cases target <;> exact .pure trivial
  | declared a =>
      unfold conversion
      refine .forest (.ite (fun _ => .pure trivial) fun _ => .ite (fun _ => .pure trivial) fun _ => ?_)
      cases target with
      | declared b => exact .bind (settles_derivesFrom hf h a b) fun _ _ => .pure trivial
      | _ => exact .pure trivial
  | array a rank ih =>
      unfold conversion
      refine .forest (.ite (fun _ => .pure trivial) fun _ => .ite (fun _ => .pure trivial) fun _ => ?_)
      cases target with
      | array b rank' =>
          exact .ite (fun _ => .bind (ih b) fun _ _ => .pure trivial) fun _ => .pure trivial
      | _ => exact .pure trivial

theorem settles_returnType (h : SettlesTypes w active answers) (m : MethodDef) :
    Settles w active (returnType answers m) fun _ => True := by
  unfold returnType
  split
  · exact settles_typeNode h _
  · exact .pure trivial

/-- What questions about types rest on: the links of the forest agree, and type nodes are settled,
also while base lists are worked out. -/
structure TypesReady (w : World) (active : List (Aspect × NodeId)) (answers : Answers) : Prop where
  linked : w.forest.WellLinked
  bases : SettlesBases w active answers
  types : SettlesTypes w active answers

theorem settles_typeFit (h : TypesReady w active answers) (modifier : ParameterModifier)
    (argument type : TypeRef) :
    Settles w active (typeFit answers modifier argument type) fun _ => True := by
  refine .bind (settles_conversion h.linked h.bases argument type) fun fit _ => ?_
  split
  · exact .bind (settles_conversion h.linked h.bases _ _) fun _ _ => .pure trivial
  · exact .pure trivial

theorem settles_argumentFit (h : TypesReady w active answers) (argument : Option TypeRef)
    (p : ParameterDef) : Settles w active (argumentFit answers argument p) fun _ => True := by
  refine .bind (settles_typeAt? h.types p.type) fun type _ => ?_
  split
  · exact settles_typeFit h _ _ _
  · exact .pure trivial

theorem settles_argumentsFit (h : TypesReady w active answers) (last : Option ParameterDef)
    (arguments : List (Option TypeRef)) (ps : List ParameterDef) :
    Settles w active (argumentsFit answers last arguments ps) fun _ => True := by
  induction arguments generalizing ps with
  | nil => exact .pure trivial
  | cons argument arguments ih =>
      unfold argumentsFit
      split
      · exact .pure trivial
      · refine .bind (settles_argumentFit h argument _) fun fit _ => ?_
        split
        · exact .pure trivial
        · refine .bind (ih _) fun rest _ => ?_
          split <;> exact .pure trivial

theorem settles_applicability (h : TypesReady w active answers) (m : MethodDef)
    (arguments : List (Option TypeRef)) :
    Settles w active (applicability answers m arguments) fun _ => True :=
  .ite (fun _ => .pure trivial) fun _ => settles_argumentsFit h _ _ _

theorem settles_applicable (h : TypesReady w active answers) (arguments : List (Option TypeRef))
    (ds : List Definition) : Settles w active (applicable answers arguments ds) fun _ => True := by
  induction ds with
  | nil => exact .pure trivial
  | cons d ds ih =>
      unfold applicable
      split
      · exact .bind (settles_applicability h _ _) fun _ _ => .bind ih fun _ _ => .pure trivial
      · exact .bind (P := fun _ => True) (.pure trivial) fun _ _ => .bind ih fun _ _ => .pure trivial

theorem settles_callOf (h : SettlesTypes w active answers) (arguments : List Meaning)
    (d : Definition) : Settles w active (callOf answers arguments d) (KnownMeaning w) := by
  unfold callOf
  split
  · exact .bind (settles_returnType h _) fun _ _ => .pure trivial
  · exact .pure trivial

/-- A call of one of several methods has a meaning. -/
theorem settles_pickOverload (h : TypesReady w active answers) (candidates : List Definition)
    (arguments : List Meaning) :
    Settles w active (pickOverload answers candidates arguments) (KnownMeaning w) := by
  refine .bind (settles_applicable h _ candidates) fun accepting _ => ?_
  split
  · exact .pure trivial
  · exact settles_callOf h.types arguments _
  · split
    · exact settles_callOf h.types arguments _
    · exact .pure trivial

/-! ## Types of definitions -/

/-- The initializer of a declaration is settled while the type of the declaration is worked out, if
that is not being done. -/
def SettlesInitializer (w : World) (active : List (Aspect × NodeId)) (answers : Answers)
    (decl : NodeId) : Prop :=
  (.type, decl) ∉ active → SettlesExpressions w ((.type, decl) :: active) answers

theorem settles_meaningAt (h : SettlesExpressions w active answers) (n : NodeId) :
    Settles w active (meaningAt answers n) (KnownMeaning w) :=
  .bind (settles_scopesAt n) fun scopes _ => h n scopes

theorem settles_inferredType {decl : NodeId} (h : SettlesInitializer w active answers decl)
    (initializer : Option NodeId) :
    Settles w active (inferredType answers decl initializer) fun _ => True := by
  cases initializer with
  | none => exact .pure trivial
  | some n =>
      refine .guarded trivial fun hidle => ?_
      exact .bind (settles_meaningAt (h hidle) n) fun _ _ => .pure trivial

theorem settles_declaredOrInferred (htypes : SettlesTypes w active answers) {decl : NodeId}
    (h : SettlesInitializer w active answers decl) (type initializer : Option NodeId) :
    Settles w active (declaredOrInferred answers decl type initializer) fun _ => True := by
  refine .forest ?_
  split
  · exact settles_typeNode htypes _
  · exact settles_inferredType h initializer

theorem settles_typeOf (htypes : SettlesTypes w active answers) {d : Definition}
    (h : d.DeclaredIn (SettlesInitializer w active answers)) :
    Settles w active (typeOf answers d) fun _ => True := by
  refine .forest ?_
  cases d with
  | ofNamespace | ofMethod => exact .pure trivial
  | ofType d =>
      dsimp only
      split <;> exact .pure trivial
  | ofField d =>
      exact .ite (fun _ => .pure trivial) fun _ =>
        settles_declaredOrInferred htypes (h d.decl rfl) _ _
  | ofProperty d => exact settles_typeAt? htypes d.type
  | ofEvent d => exact settles_typeAt? htypes d.type
  | ofVariable d =>
      refine .ite (fun _ => ?_) fun _ => settles_declaredOrInferred htypes (h d.decl rfl) _ _
      split
      · exact settles_typeNode htypes _
      · exact .bind (settles_inferredType (h d.decl rfl) _) fun _ _ => .pure trivial

theorem settles_memberOf {candidates : List Definition} (hknown : KnownAll w candidates)
    (h : ∀ d ∈ candidates, Settles w active (typeOf answers d) fun _ => True) :
    Settles w active (memberOf answers candidates) (KnownMeaning w) := by
  unfold memberOf
  split
  · exact .bind (h _ List.mem_cons_self) fun _ _ => .pure hknown
  · exact .pure hknown

theorem settles_memberOr {name : String} {candidates : List Definition}
    (hknown : KnownAll w candidates)
    (h : ∀ d ∈ candidates, Settles w active (typeOf answers d) fun _ => True) :
    Settles w active (memberOr answers name candidates) (KnownMeaning w) :=
  .ite (fun _ => .pure trivial) fun _ => settles_memberOf hknown h

/-! ## Type nodes -/

theorem settles_malformed (n : NodeId) : Settles w active (malformed n) (KnownMeaning w) :=
  .forest (.pure trivial)

/-- Asking for the type of a type or a namespace leads to no question. -/
theorem settles_typeOf_typeLike {d : Definition} (h : d.isTypeLike = true) :
    Settles w active (typeOf answers d) fun _ => True := by
  refine .forest ?_
  cases d with
  | ofNamespace => exact .pure trivial
  | ofType d =>
      dsimp only
      split <;> exact .pure trivial
  | _ => cases h

/-- A type node is settled if its children are, and base lists that are not being worked out. -/
theorem settles_resolveType (hf : w.forest.WellLinked) (hbases : SettlesBases w active answers)
    {n : NodeId} (hchildren : ∀ c ∈ w.forest.childIds n, ∀ scopes,
      Settles w active (answers.type c scopes) (KnownMeaning w)) (scopes : List Scope) :
    Settles w active (resolveType answers n scopes) (KnownMeaning w) := by
  have htypeLike : ∀ {ds : List Definition}, (∀ d ∈ ds, d.isTypeLike = true) →
      ∀ d ∈ ds, Settles w active (typeOf answers d) fun _ => True :=
    fun hds d hd => settles_typeOf_typeLike (hds d hd)
  refine .read ?_
  dsimp only
  split
  · exact settles_memberOf (by simpa [KnownAll] using known_builtin _) (htypeLike (by simp; rfl))
  · split
    · exact settles_malformed n
    · refine .bind (settles_lookup hf hbases _ _ scopes) fun found hfound => ?_
      refine .ite (fun _ => ?_) fun _ => settles_memberOf hfound.1 (htypeLike hfound.2)
      refine settles_memberOr (.toList fun d hd => known_builtinWithKeyword? hd) (htypeLike ?_)
      intro d hd
      obtain ⟨t, -, rfl⟩ := Option.map_eq_some_iff.mp (Option.mem_toList.mp hd)
      rfl
  · split
    · rename_i target name htarget hname
      have hrest : ∀ found, KnownAll w found → Settles w active
          (memberOr answers name (found.filter Definition.isTypeLike)) (KnownMeaning w) :=
        fun found hfound => settles_memberOr (hfound.filter _)
          (htypeLike fun d hd => List.of_mem_filter hd)
      have hchild := hchildren target (Forest.mem_childIds_of_child? htarget) scopes
      refine .bind hchild fun target _ => ?_
      split
      · exact .bind (settles_lookupIn hf hbases name _) hrest
      · exact hrest [] .nil
    · exact settles_malformed n
  · split
    · exact settles_malformed n
    · rename_i element helement
      refine .bind (hchildren element (Forest.mem_childIds_of_child? helement) scopes) fun m hm => ?_
      split
      · exact .pure hm
      · exact .pure hm
  · split
    · exact settles_malformed n
    · rename_i element helement
      refine .bind (hchildren element (Forest.mem_childIds_of_child? helement) scopes) fun m hm => ?_
      split
      · exact .pure hm
      · exact .pure hm
  · exact .pure trivial

/-! ## Expressions -/

/-- What questions about an expression rest on. -/
structure Ready (w : World) (active : List (Aspect × NodeId)) (answers : Answers) (n : NodeId) : Prop
    extends TypesReady w active answers where
  children : ∀ c ∈ w.forest.childIds n, ∀ scopes,
    Settles w active (answers.expression c scopes) (KnownMeaning w)
  initializers : ∀ decl < w.forest.size, SettlesInitializer w active answers decl
  constants : ∀ m, KnownMeaning w m → Settles w active (answers.constant m) fun _ => True

section Expressions

variable {n : NodeId} (h : Ready w active answers n)

include h

theorem Ready.memberOr {name : String} {candidates : List Definition}
    (hknown : KnownAll w candidates) :
    Settles w active (memberOr answers name candidates) (KnownMeaning w) :=
  settles_memberOr hknown fun d hd =>
    settles_typeOf h.types fun decl hdecl => h.initializers decl (hknown d hd decl hdecl)

theorem Ready.resolveChild (t : Title) (scopes : List Scope) :
    Settles w active (resolveChild answers n t scopes) (KnownMeaning w) := by
  refine .forest ?_
  split
  · rename_i c hc
    exact h.children c (Forest.mem_childIds_of_child? hc) scopes
  · exact settles_malformed n

theorem Ready.resolveMember {target : Meaning} (name : String) :
    Settles w active (resolveMember answers target name) (KnownMeaning w) := by
  unfold Semantics.resolveMember
  split
  · exact .bind (settles_lookupIn h.linked h.bases name _) fun found hfound => h.memberOr hfound
  · exact h.memberOr .nil

theorem Ready.resolveArguments (scopes : List Scope) :
    Settles w active (resolveArguments answers n scopes) fun _ => True := by
  have harguments := Settles.mapM (l := w.forest.children n .arguments) fun a ha =>
    h.children a (Forest.mem_childIds_of_mem_children ha) scopes
  exact .forest (harguments.mono fun _ _ => trivial)

omit h in
theorem known_elementMeaning {m : Meaning} (hm : KnownMeaning w m) :
    KnownMeaning w (elementMeaning m) := by
  unfold elementMeaning
  split
  · exact hm
  · exact hm
  · exact hm
  · trivial

theorem Ready.resolveCall (scopes : List Scope) :
    Settles w active (resolveCall answers n scopes) (KnownMeaning w) := by
  refine .bind (h.resolveChild _ scopes) fun target htarget => ?_
  refine .bind (h.resolveArguments scopes) fun arguments _ => ?_
  split
  · refine .ite (fun _ => settles_pickOverload h.toTypesReady _ _) fun _ => ?_
    exact .ite (fun _ => .pure (known_elementMeaning htarget)) fun _ => .pure trivial
  · exact .pure trivial
  · exact .pure trivial
  · exact .pure trivial

omit h in
theorem settles_constructorsOf (type : TypeRef) :
    Settles w active (constructorsOf type) fun _ => True := by
  unfold constructorsOf
  split
  · refine .bind (settles_definitionOf _) fun o _ => ?_
    split
    · exact .bind (settles_definitionsOf _) fun _ _ => .pure trivial
    · exact .pure trivial
  · exact .pure trivial

theorem Ready.resolveCreation (scopes : List Scope) :
    Settles w active (resolveCreation answers n scopes) (KnownMeaning w) := by
  refine .forest ?_
  split
  · exact settles_malformed n
  · refine .bind (h.types _ scopes) fun created hcreated => ?_
    split
    · exact .pure hcreated
    · refine .bind (h.resolveArguments scopes) fun arguments _ => ?_
      refine .bind (settles_constructorsOf _) fun constructors _ => ?_
      refine .ite (fun _ => .ite (fun _ => .pure trivial) fun _ => .pure trivial) fun _ => ?_
      refine .bind (settles_pickOverload h.toTypesReady _ _) fun m hm => ?_
      split
      · exact .pure trivial
      · exact .pure hm

theorem Ready.resolveConditional (scopes : List Scope) :
    Settles w active (resolveConditional answers n scopes) (KnownMeaning w) := by
  refine .bind (h.resolveChild _ scopes) fun condition hcondition => ?_
  refine .bind (h.constants condition hcondition) fun value _ => ?_
  split
  · exact h.resolveChild _ scopes
  · exact h.resolveChild _ scopes
  · exact .pure trivial

theorem Ready.resolveCast (scopes : List Scope) :
    Settles w active (resolveCast answers n scopes) (KnownMeaning w) := by
  refine .forest ?_
  split
  · exact settles_malformed n
  · refine .bind (h.types _ scopes) fun target htarget => ?_
    split
    · exact .pure htarget
    · exact .bind (h.resolveChild _ scopes) fun operand hoperand => .pure hoperand

theorem Ready.resolveBinary (op : BinaryOperator) (scopes : List Scope) :
    Settles w active (resolveBinary answers n op scopes) (KnownMeaning w) := by
  refine .bind (h.resolveChild _ scopes) fun left hleft => ?_
  refine .bind (h.resolveChild _ scopes) fun right hright => ?_
  refine .bind (h.constants left hleft) fun a _ => ?_
  refine .bind (h.constants right hright) fun b _ => ?_
  split
  · split <;> exact .pure trivial
  · exact .pure trivial

theorem Ready.resolveUnary (op : UnaryOperator) (scopes : List Scope) :
    Settles w active (resolveUnary answers n op scopes) (KnownMeaning w) := by
  refine .bind (h.resolveChild _ scopes) fun operand hoperand => ?_
  refine .bind (h.constants operand hoperand) fun value _ => ?_
  split
  · exact .pure trivial
  · split <;> exact .pure trivial

/-- An expression is settled if its children, all type nodes, and constants are, and initializers and
base lists that are not being worked out. -/
theorem Ready.resolveExpression (scopes : List Scope) :
    Settles w active (resolveExpression answers n scopes) (KnownMeaning w) := by
  refine .forest ?_
  split
  · exact .pure trivial
  · split
    · exact .bind (settles_lookup h.linked h.bases _ _ scopes) fun found hfound =>
        h.memberOr hfound.1
    · exact settles_malformed n
  · split
    · rename_i target name htarget hname
      exact .bind (h.children target (Forest.mem_childIds_of_child? htarget) scopes) fun m _ =>
        h.resolveMember name
    · exact settles_malformed n
  · exact h.resolveCall scopes
  · exact .bind (h.resolveChild _ scopes) fun m hm => .pure (known_elementMeaning hm)
  · exact h.resolveBinary _ scopes
  · exact h.resolveUnary _ scopes
  · exact h.resolveChild _ scopes
  · exact h.resolveChild _ scopes
  · exact h.resolveChild _ scopes
  · exact h.resolveConditional scopes
  · exact h.resolveCast scopes
  · exact h.resolveCast scopes
  · split
    · exact h.types _ scopes
    · exact settles_malformed n
  · exact .pure trivial
  · split
    · exact .bind (settles_baseClass h.bases _) fun _ _ => .pure trivial
    · exact .pure trivial
  · exact h.resolveCreation scopes
  · exact h.types n scopes
  · exact h.types n scopes
  · exact h.types n scopes
  · exact h.types n scopes
  · exact h.types n scopes
  · split <;> exact .pure trivial

end Expressions

/-! ## Constants -/

/-- The initializer of a constant and its value are settled while the value of the constant is worked
out, if that is not being done. -/
def SettlesValue (w : World) (active : List (Aspect × NodeId)) (answers : Answers)
    (decl : NodeId) : Prop :=
  (.value, decl) ∉ active → SettlesExpressions w ((.value, decl) :: active) answers ∧
    ∀ m, KnownMeaning w m → Settles w ((.value, decl) :: active) (answers.constant m) fun _ => True

theorem decl?_of_constantDeclaration? {d : Definition} {decl initializer : NodeId}
    (h : constantDeclaration? d = some (decl, initializer)) : d.decl? = some decl := by
  unfold constantDeclaration? at h
  split at h
  · split at h
    · obtain ⟨n, -, hpair⟩ := Option.map_eq_some_iff.mp h
      cases hpair
      rfl
    · cases h
  · split at h
    · obtain ⟨n, -, hpair⟩ := Option.map_eq_some_iff.mp h
      cases hpair
      rfl
    · cases h
  · cases h

theorem settles_constantOf {m : Meaning} (h : m.DeclaredIn (SettlesValue w active answers)) :
    Settles w active (constantOf answers m) fun _ => True := by
  fun_induction constantOf answers m with
  | case1 => exact .pure trivial
  | case2 d type decl initializer hdecl =>
      refine .guarded trivial fun hidle => ?_
      have hvalue := h d List.mem_cons_self decl (decl?_of_constantDeclaration? hdecl) hidle
      exact .bind (settles_meaningAt hvalue.1 initializer) fun m hm => hvalue.2 m hm
  | case3 => exact .pure trivial
  | case4 t operand ih => exact .bind (ih h) fun _ _ => .pure trivial
  | case5 => exact .pure trivial

/-! ## Fuel -/

section Fuel

/-- A dotted name goes down the tree, so the bound on its depth cuts none off. -/
theorem dottedNameUpTo_eq_dottedName? {f : Forest} (hf : f.WellLinked) {n : NodeId} {fuel : Nat}
    (hfuel : (below f n).card < fuel) : dottedNameUpTo f fuel n = dottedName? f n := by
  suffices h : ∀ {a b n}, (below f n).card < a → (below f n).card < b →
      dottedNameUpTo f a n = dottedNameUpTo f b n by
    exact h hfuel (Nat.lt_succ_of_le (card_below_le f n))
  intro a
  induction a with
  | zero => omega
  | succ a ih =>
      intro b n ha hb
      obtain ⟨b, rfl⟩ : ∃ k, b = k + 1 := ⟨b - 1, by omega⟩
      have htarget : ∀ c, f.child? n .target = some c →
          dottedNameUpTo f a c = dottedNameUpTo f b c := by
        intro c hc
        have hless := hf.card_below_lt (Forest.mem_childIds_of_child? hc)
        exact ih (by omega) (by omega)
      rw [dottedNameUpTo, dottedNameUpTo]
      cases hchild : f.child? n .target with
      | none => rfl
      | some c =>
          simp only [bind, Option.bind_some, htarget c hchild]

def idle (f : Forest) (active : List (Aspect × NodeId)) : Finset (Aspect × NodeId) :=
  (({.bases, .type, .value} : Finset Aspect) ×ˢ Finset.range f.size).filter (· ∉ active)

theorem card_idle_le (f : Forest) (active : List (Aspect × NodeId)) :
    (idle f active).card ≤ 3 * f.size := by
  refine Nat.le_trans (Finset.card_filter_le _ _) ?_
  simp [Finset.card_product]

theorem idle_cons_subset (f : Forest) (key : Aspect × NodeId) (active : List (Aspect × NodeId)) :
    idle f (key :: active) ⊆ idle f active := by
  intro k hk
  simp only [idle, Finset.mem_filter, List.mem_cons, not_or] at hk ⊢
  exact ⟨hk.1, hk.2.2⟩

/-- Past a guard there is less that is not being worked out. -/
theorem card_idle_lt {f : Forest} {aspect : Aspect} {n : NodeId} {active : List (Aspect × NodeId)}
    (hn : n < f.size) (hidle : (aspect, n) ∉ active) :
    (idle f ((aspect, n) :: active)).card < (idle f active).card := by
  apply Finset.card_lt_card
  rw [Finset.ssubset_iff_of_subset (idle_cons_subset f _ active)]
  refine ⟨(aspect, n), ?_, by simp [idle]⟩
  cases aspect <;> simp [idle, hn, hidle]

/-- More fuel than all questions need that are asked between two guards. -/
def stage (f : Forest) : Nat := f.size + 2

/-- Past a guard the fuel of a stage is saved. -/
theorem card_idle_mul {f : Forest} {aspect : Aspect} {n : NodeId}
    {active : List (Aspect × NodeId)} (hn : n < f.size) (hidle : (aspect, n) ∉ active) :
    (idle f ((aspect, n) :: active)).card * stage f + stage f ≤ (idle f active).card * stage f := by
  rw [← Nat.succ_mul]
  exact Nat.mul_le_mul_right _ (card_idle_lt hn hidle)

noncomputable def typeNeed (f : Forest) (active : List (Aspect × NodeId)) (n : NodeId) : Nat :=
  (idle f active).card * stage f + (below f n).card

/-- Enough fuel for an expression, which asks for types. -/
noncomputable def expressionNeed (f : Forest) (active : List (Aspect × NodeId)) (n : NodeId) : Nat :=
  (idle f active).card * stage f + stage f + (below f n).card

def constantNeed (f : Forest) (active : List (Aspect × NodeId)) : Nat :=
  (idle f active).card * stage f + f.size + 1

end Fuel

/-- With enough fuel every question is settled. -/
theorem settles_answersUpTo (hf : w.forest.WellLinked) (fuel : Nat)
    (active : List (Aspect × NodeId)) :
    (∀ n scopes, typeNeed w.forest active n < fuel →
      Settles w active ((answersUpTo fuel).type n scopes) (KnownMeaning w)) ∧
    (∀ n scopes, expressionNeed w.forest active n < fuel →
      Settles w active ((answersUpTo fuel).expression n scopes) (KnownMeaning w)) ∧
    (∀ m, KnownMeaning w m → constantNeed w.forest active < fuel →
      Settles w active ((answersUpTo fuel).constant m) fun _ => True) := by
  induction fuel generalizing active with
  | zero => exact ⟨by omega, by omega, by omega⟩
  | succ fuel ih =>
      have hbelow := card_below_le w.forest
      have hstage : stage w.forest = w.forest.size + 2 := rfl
      have hbases : (idle w.forest active).card * stage w.forest ≤ fuel →
          SettlesBases w active (answersUpTo fuel) := by
        intro hfuel n hn hidle b scopes
        have hless := card_idle_mul hn hidle
        have hb := hbelow b
        refine ((ih _).1 b scopes ?_).mono fun _ _ => trivial
        rw [typeNeed]
        omega
      refine ⟨fun n scopes hfuel => ?_, fun n scopes hfuel => ?_, fun m hm hfuel => ?_⟩
      · rw [typeNeed] at hfuel
        refine settles_resolveType hf (hbases (by omega)) (fun c hc scopes => ?_) scopes
        have hless := hf.card_below_lt hc
        refine (ih active).1 c scopes ?_
        rw [typeNeed]
        omega
      · rw [expressionNeed] at hfuel
        have hready : Ready w active (answersUpTo fuel) n := by
          refine ⟨⟨hf, hbases (by omega), fun b scopes => ?_⟩, fun c hc scopes => ?_,
            fun decl hdecl hidle e scopes => ?_, fun m hm => ?_⟩
          · have hb := hbelow b
            refine (ih active).1 b scopes ?_
            rw [typeNeed]
            omega
          · have hless := hf.card_below_lt hc
            refine (ih active).2.1 c scopes ?_
            rw [expressionNeed]
            omega
          · have hless := card_idle_mul hdecl hidle
            have he := hbelow e
            refine (ih _).2.1 e scopes ?_
            rw [expressionNeed]
            omega
          · refine (ih active).2.2 m hm ?_
            rw [constantNeed]
            omega
        exact hready.resolveExpression scopes
      · rw [constantNeed] at hfuel
        refine settles_constantOf (hm.mono fun decl hdecl hidle => ?_)
        have hless := card_idle_mul hdecl hidle
        refine ⟨fun e scopes => ?_, fun m hm => ?_⟩
        · have he := hbelow e
          refine (ih _).2.1 e scopes ?_
          rw [expressionNeed]
          omega
        · refine (ih _).2.2 m hm ?_
          rw [constantNeed]
          omega

/-! ## All questions -/

theorem expressionNeed_lt (f : Forest) (active : List (Aspect × NodeId)) (n : NodeId) :
    expressionNeed f active n + 1 < enoughFuel f := by
  have hidle := Nat.mul_le_mul_right (stage f) (card_idle_le f active)
  have hbelow := card_below_le f n
  rw [expressionNeed]
  have hfuel : 3 * f.size * stage f + stage f + f.size + 1 < enoughFuel f := by
    rw [enoughFuel, stage]
    nlinarith
  omega

/-- The answers to all questions: types and expressions anywhere, whatever is being worked out. -/
theorem settles_answersFor (hf : w.forest.WellLinked) (active : List (Aspect × NodeId)) :
    SettlesTypes w active (answersFor w.forest) ∧
      SettlesExpressions w active (answersFor w.forest) := by
  refine ⟨fun n scopes => ?_, fun n scopes => ?_⟩
  · refine (settles_answersUpTo hf _ active).1 n scopes ?_
    have := expressionNeed_lt w.forest active n
    rw [expressionNeed] at this
    rw [typeNeed]
    omega
  · refine (settles_answersUpTo hf _ active).2.1 n scopes ?_
    have := expressionNeed_lt w.forest active n
    omega

/-- The constant value of any meaning, also of one that refers to definitions made elsewhere. -/
theorem settles_constant (hf : w.forest.WellLinked) (active : List (Aspect × NodeId)) (m : Meaning) :
    Settles w active ((answersFor w.forest).constant m) fun _ => True := by
  obtain ⟨fuel, hfuel⟩ : ∃ fuel, enoughFuel w.forest = fuel + 1 :=
    ⟨_, (Nat.succ_pred_eq_of_pos (Nat.mul_pos (by omega) (by omega))).symm⟩
  rw [answersFor, hfuel]
  refine settles_constantOf (m.declaredIn_of_forall fun decl _ => ?_)
  -- the guard may be that of a number that is no node, so nothing is saved by it
  have hneed : ∀ e, expressionNeed w.forest ((.value, decl) :: active) e < fuel := by
    intro e
    have := expressionNeed_lt w.forest ((.value, decl) :: active) e
    omega
  refine ⟨fun e scopes => (settles_answersUpTo hf fuel _).2.1 e scopes (hneed e), fun m hm => ?_⟩
  refine (settles_answersUpTo hf fuel _).2.2 m hm ?_
  have hneed := hneed 0
  rw [expressionNeed, stage] at hneed
  rw [constantNeed, stage]
  omega

/-- What holds of the meanings of an expression in all scopes holds of its meaning at its place, for
which there is more fuel than there are nodes below it. -/
theorem exists_meaningOf {f : Forest} {caseSensitive : Bool} {n : NodeId} {memory : Memory}
    {P : Meaning → Prop}
    (h : ∀ fuel scopes, (below f n).card ≤ fuel →
      Settles ⟨f, caseSensitive⟩ memory.active ((answersUpTo (fuel + 1)).expression n scopes) P) :
    ∃ m memory', meaningOf n ⟨f, caseSensitive⟩ memory = some (m, memory') ∧ P m := by
  obtain ⟨fuel, hfuel, hbelow⟩ : ∃ fuel, enoughFuel f = fuel + 1 ∧ (below f n).card ≤ fuel := by
    have hneed := expressionNeed_lt f memory.active n
    rw [expressionNeed] at hneed
    exact ⟨enoughFuel f - 1, by omega, by omega⟩
  have hanswers : answersFor f = answersUpTo (fuel + 1) := by rw [answersFor, hfuel]
  have hsettles : Settles ⟨f, caseSensitive⟩ memory.active (meaningOf n) P := by
    refine .forest (.bind (settles_scopesAt n) fun scopes _ => ?_)
    exact hanswers ▸ h fuel scopes hbelow
  obtain ⟨m, spellings, hrun, hm⟩ := hsettles memory.spellings
  exact ⟨m, _, hrun, hm⟩

/-- A question has an answer, and what is being worked out is afterwards what it was before. -/
def Returns {α : Type} (ask : Ask α) (w : World) (memory : Memory) : Prop :=
  ∃ a memory', ask w memory = some (a, memory') ∧ memory'.active = memory.active

theorem Settles.returns {α : Type} {ask : Ask α} {P : α → Prop} {memory : Memory}
    (h : Settles w memory.active ask P) : Returns ask w memory := by
  obtain ⟨a, spellings, hrun, -⟩ := h memory.spellings
  exact ⟨a, _, hrun, rfl⟩

/-- In a forest whose links agree every question has an answer, whether case matters or not, whatever
leads in a circle and whatever is being worked out already: what an expression or a type node means at
its place or in given scopes, which type a type node denotes, which type the thing has that a
definition names, and which value a meaning has.  What is being worked out is afterwards what it was
before. -/
theorem questions_return {f : Forest} (hf : f.WellLinked) (caseSensitive : Bool)
    (memory : Memory) :
    (∀ n, Returns (meaningOf n) ⟨f, caseSensitive⟩ memory) ∧
    (∀ scopes n, Returns (meaningIn scopes n) ⟨f, caseSensitive⟩ memory) ∧
    (∀ n, Returns (typeOfNode n) ⟨f, caseSensitive⟩ memory) ∧
    (∀ scopes n, Returns (typeMeaningIn scopes n) ⟨f, caseSensitive⟩ memory) ∧
    (∀ d, Returns (typeOfDefinition d) ⟨f, caseSensitive⟩ memory) ∧
    (∀ m, Returns (constantValue m) ⟨f, caseSensitive⟩ memory) := by
  have hall := fun active => settles_answersFor (w := ⟨f, caseSensitive⟩) hf active
  obtain ⟨htypes, hexpressions⟩ := hall memory.active
  refine ⟨fun n => ?_, fun scopes n => ?_, fun n => ?_, fun scopes n => ?_, fun d => ?_, fun m => ?_⟩
  · exact (Settles.forest (settles_meaningAt hexpressions n)).returns
  · exact (Settles.forest (hexpressions n scopes)).returns
  · exact (Settles.forest (settles_typeNode htypes n)).returns
  · exact (Settles.forest (htypes n scopes)).returns
  · refine (Settles.forest (settles_typeOf htypes fun decl _ _ => ?_)).returns
    exact (hall _).2
  · exact (Settles.forest (settles_constant hf memory.active m)).returns

/-- Two classes, each in the base list of the other. -/
def mutualBases : Forest :=
  Forest.performAll {} [.allocate .compilationUnit {},
    .allocate (.typeDeclaration .classType) {}, .allocate (.identifier "A") {},
    .allocate .simpleType {}, .allocate (.identifier "B") {},
    .allocate (.typeDeclaration .classType) {}, .allocate (.identifier "B") {},
    .allocate .simpleType {}, .allocate (.identifier "A") {},
    .extend 0 .members [1, 5], .append 1 .identifier 2, .append 1 .baseTypes 3,
    .append 3 .identifier 4, .append 5 .identifier 6, .append 5 .baseTypes 7,
    .append 7 .identifier 8]

/-- The name of the second class in the base list of the first is resolved, which leads through the
base list of the first. -/
theorem questions_return_mutualBases :
    mutualBases.WellLinked ∧ (mutualBases.children 1 .baseTypes, mutualBases.nameOf? 3,
      mutualBases.children 5 .baseTypes, mutualBases.nameOf? 7) = ([3], some "B", [7], some "A") ∧
    Returns (meaningOf 3) ⟨mutualBases, true⟩ {} ∧ Returns (meaningOf 7) ⟨mutualBases, false⟩ {} := by
  have hlinked : mutualBases.WellLinked := Forest.WellLinked.empty.performAll _
  exact ⟨hlinked, by decide, (questions_return hlinked true {}).1 3,
    (questions_return hlinked false {}).1 7⟩

end Semantics

end DualSyntax
