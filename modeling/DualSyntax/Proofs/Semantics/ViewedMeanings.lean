import DualSyntax.Proofs.Semantics.Termination
import DualSyntax.Proofs.Semantics.ViewedNames

/-!
# Meanings in worlds that look alike

Every question about a node from which two worlds look alike has the same answer in both: it leads to
deeper questions about such nodes only, however it jumps from a name to its declaration, from there to a
type, an initializer or a base list, and up to the scopes around these.
-/

namespace DualSyntax

/-- A type, if there is one, refers to certain nodes only. -/
abbrev TypeWithin (seen : NodeId → Prop) (type : Option TypeRef) : Prop :=
  ∀ t ∈ type, t.Within seen

variable {seen : NodeId → Prop}

theorem TypeWithin.none : TypeWithin seen none := by rintro t ⟨⟩

theorem TypeWithin.some {t : TypeRef} (h : t.Within seen) : TypeWithin seen (some t) := by
  rintro t ⟨⟩
  exact h

theorem TypeWithin.known (t : KnownType) : TypeWithin seen (Option.some (.known t)) :=
  .some trivial

namespace Meaning

theorem within_member {ds : List Definition} {type : Option TypeRef} :
    (member ds type).Within seen ↔ (∀ d ∈ ds, d.Within seen) ∧ TypeWithin seen type :=
  Iff.rfl

theorem within_constant {value : ConstantValue} {type : Option TypeRef} :
    (constant value type).Within seen ↔ TypeWithin seen type :=
  Iff.rfl

theorem within_call {method : Option Definition} {ms : List Meaning} {type : Option TypeRef} :
    (call method ms type).Within seen ↔ TypeWithin seen type :=
  Iff.rfl

theorem within_this {type : Option TypeRef} : (this type).Within seen ↔ TypeWithin seen type :=
  Iff.rfl

theorem within_base {type : Option TypeRef} : (base type).Within seen ↔ TypeWithin seen type :=
  Iff.rfl

theorem within_conversion {type : TypeRef} {m : Meaning} :
    (conversion type m).Within seen ↔ type.Within seen ∧ m.Within seen :=
  Iff.rfl

theorem within_unknown (name : String) : (unknown name).Within seen :=
  trivial

theorem within_error (message : String) (ds : List Definition) : (error message ds).Within seen :=
  trivial

theorem Within.type? {m : Meaning} (h : m.Within seen) : TypeWithin seen m.type? := by
  cases m with
  | unknown | error => exact .none
  | member => exact (within_member.mp h).2
  | constant => exact within_constant.mp h
  | call => exact within_call.mp h
  | this => exact within_this.mp h
  | base => exact within_base.mp h
  | conversion => exact .some (within_conversion.mp h).1

end Meaning

/-- The first declaration of a kind among some, or else a built-in type. -/
theorem within_firstDeclared {bs : List NodeId} (h : ∀ b ∈ bs, seen b) (p : NodeId → Bool)
    (k : KnownType) : (((bs.find? p).map TypeRef.declared).getD (.known k)).Within seen := by
  cases hfind : bs.find? p with
  | none => trivial
  | some b => exact h b (List.mem_of_find?_eq_some hfind)

theorem within_typeOf (value : ConstantValue) : (Folding.typeOf value).Within seen := by
  cases value <;> trivial

theorem within_binaryType? {op : BinaryOperator} {left right : Option TypeRef}
    (hleft : TypeWithin seen left) (hright : TypeWithin seen right) :
    TypeWithin seen (Folding.binaryType? op left right) := by
  unfold Folding.binaryType?
  split
  case h_12 =>
    split
    · exact hright
    · exact hright
    · exact hleft
  case h_14 =>
    split
    · intro t ht
      obtain ⟨k, -, rfl⟩ := Option.map_eq_some_iff.mp ht
      trivial
    · exact .none
  all_goals exact .known _

namespace Semantics

variable {w w' : World} {answers : Answers}

/-- Two worlds look alike from certain nodes, and answers about these nodes coincide. -/
structure Views (w w' : World) (seen : NodeId → Prop) (answers : Answers) : Prop
    extends LooksAlike w w' seen where
  type : ∀ {n ss}, seen n → AllShown w w' seen ss →
    Coincide w w' (Meaning.Within seen) (answers.type n ss) (answers.type n ss)
  expression : ∀ {n ss}, seen n → AllShown w w' seen ss →
    Coincide w w' (Meaning.Within seen) (answers.expression n ss) (answers.expression n ss)
  constant : ∀ {m}, m.Within seen →
    Coincide w w' (fun _ => True) (answers.constant m) (answers.constant m)

namespace Views

variable (h : Views w w' seen answers)

include h

/-! ## Members of types -/

theorem typeAt {n : NodeId} (hn : seen n) :
    Coincide w w' (TypeWithin seen) (typeAt answers n) (typeAt answers n) :=
  .bind (coincide_scopesAt h.toLooksAlike hn) fun _ hss => .bind (h.type hn hss) fun _ hm =>
    .pure hm.type?

theorem typeAt? {n : Option NodeId} (hn : ∀ m ∈ n, seen m) :
    Coincide w w' (TypeWithin seen) (typeAt? answers n) (typeAt? answers n) := by
  cases n with
  | some n => exact h.typeAt (hn n rfl)
  | none => exact .pure .none

/-- The base types of a type are declared at such nodes again. -/
theorem baseTypes {n : NodeId} (hn : seen n) :
    Coincide w w' (fun ns => ∀ b ∈ ns, seen b) (baseTypes answers n) (baseTypes answers n) := by
  refine .bind (coincide_definitionOf h.toLooksAlike hn) fun o ho => ?_
  split
  · exact .pure (by simp)
  · rename_i type htype
    obtain ⟨d, rfl, hd⟩ := Option.bind_eq_some_iff.mp htype
    have hbases : ∀ b ∈ type.baseTypes, seen b := by
      cases d with
      | ofType t =>
          cases hd
          exact (ho _ rfl).2.2.2
      | _ => cases hd
    refine .bind (P := fun o => ∀ ts ∈ o, ∀ t ∈ ts, TypeWithin seen t) (.guarded (by simp) ?_)
      fun o ho => .pure fun b hb => ?_
    · exact .bind (.mapM fun b hb => h.typeAt (hbases b hb)) fun ts hts => .pure (by simpa using hts)
    · obtain ⟨t, ht, hb⟩ := List.mem_filterMap.mp hb
      split at hb
      · cases hb
        cases o with
        | none => cases ht
        | some ts => exact ho ts rfl _ ht _ rfl
      · cases hb

theorem firstMembers (name : String) (fuel : Nat) (visited : List NodeId) {queue : List NodeId}
    (hqueue : ∀ n ∈ queue, seen n) :
    Coincide w w' (AllWithin seen) (firstMembers answers name fuel visited queue)
      (firstMembers answers name fuel visited queue) := by
  induction fuel generalizing visited queue with
  | zero => exact .failure
  | succ fuel ih =>
      cases queue with
      | nil => exact .pure .nil
      | cons n queue =>
          obtain ⟨hn, hqueue⟩ := List.forall_mem_cons.mp hqueue
          refine .ite (fun _ => ih _ hqueue) fun _ => ?_
          refine .bind (coincide_ownMembers h.toLooksAlike hn name) fun ds hds => ?_
          refine .ite (fun _ => ?_) fun _ => .pure hds
          exact .bind (h.baseTypes hn) fun bs hbs =>
            ih _ (List.forall_mem_append.mpr ⟨hqueue, hbs⟩)

/-! ## Names in scopes -/

theorem lookupIn (name : String) {s : Scope} (hs : s.Shown w w' seen) :
    Coincide w w' (AllWithin seen) (lookupIn answers name s) (lookupIn answers name s) := by
  have hvariable : ∀ {ask : Ask (Option Definition)},
      Coincide w w' (fun o => ∀ d ∈ o, d.Within seen) ask ask →
      Coincide w w' (AllWithin seen) (do return (← ask).toList) (do return (← ask).toList) :=
    fun hask => .bind hask fun o ho => .pure (.toList ho)
  cases s with
  | block n upto => exact hvariable (coincide_blockVariable h.toLooksAlike hs.2 name)
  | statement n => exact hvariable (coincide_statementVariable h.toLooksAlike hs name)
  | method n => exact hvariable (coincide_parameterNamed h.toLooksAlike hs name)
  | type n =>
      refine .forest ?_
      rw [h.size]
      exact h.firstMembers name _ _ (List.forall_mem_singleton.mpr hs)
  | ofNamespace d => exact coincide_namespaceMembers h.toLooksAlike hs name
  | imports n =>
      refine .forest ?_
      rw [h.rootOf hs, h.children hs .members nofun]
      exact coincide_importedMembers h.toLooksAlike (h.rootOf_seen hs) name
        (h.children_seen hs .members nofun)
  | compilationUnit n => exact coincide_globalMembers h.toLooksAlike hs name

theorem lookup (name : String) (accept : Definition → Bool) {ss : List Scope}
    (hss : AllShown w w' seen ss) :
    Coincide w w' (AllWithin seen) (lookup answers name accept ss) (lookup answers name accept ss) := by
  induction ss with
  | nil => exact .pure .nil
  | cons s ss ih =>
      obtain ⟨hs, hss⟩ := List.forall_mem_cons.mp hss
      refine .bind (h.lookupIn name hs) fun ds hds => ?_
      exact .ite (fun _ => ih hss) fun _ => .pure (hds.filter _)

/-! ## Conversions and overloads -/

theorem reaches (base : NodeId) (fuel : Nat) (visited : List NodeId) {stack : List NodeId}
    (hstack : ∀ n ∈ stack, seen n) :
    Coincide w w' (fun _ => True) (reaches answers base fuel visited stack)
      (reaches answers base fuel visited stack) := by
  induction fuel generalizing visited stack with
  | zero => exact .failure
  | succ fuel ih =>
      cases stack with
      | nil => exact .pure trivial
      | cons n stack =>
          obtain ⟨hn, hstack⟩ := List.forall_mem_cons.mp hstack
          refine .ite (fun _ => .pure trivial) fun _ => .ite (fun _ => ih _ hstack) fun _ => ?_
          refine .bind (h.baseTypes hn) fun bs hbs => ih _ (List.forall_mem_append.mpr ⟨?_, hstack⟩)
          simpa using hbs

theorem derivesFrom {n : NodeId} (hn : seen n) (base : NodeId) :
    Coincide w w' (fun _ => True) (derivesFrom answers n base) (derivesFrom answers n base) := by
  refine .bind (h.baseTypes hn) fun bs hbs => .forest ?_
  rw [h.size]
  exact h.reaches base _ _ (by simpa using hbs)

theorem isReference (t : TypeRef) : isReference w'.forest t = isReference w.forest t := by
  cases t with
  | declared => rw [Semantics.isReference, Semantics.isReference, h.kind]
  | _ => rfl

theorem conversion {source : TypeRef} (hsource : source.Within seen) (target : TypeRef) :
    Coincide w w' (fun _ => True) (conversion answers source target)
      (conversion answers source target) := by
  induction source generalizing target with
  | array a m ih =>
      rw [Semantics.conversion]
      refine .forest (.ite (fun _ => .pure trivial) fun _ => .ite (fun _ => .pure trivial) fun _ => ?_)
      cases target with
      | array b n =>
          dsimp only
          rw [h.isReference]
          exact .ite (fun _ => .bind (ih hsource b) fun _ _ => .pure trivial) fun _ => .pure trivial
      | _ => exact .pure trivial
  | declared a =>
      rw [Semantics.conversion]
      refine .forest (.ite (fun _ => .pure trivial) fun _ => .ite (fun _ => .pure trivial) fun _ => ?_)
      cases target with
      | declared b =>
          exact .bind (h.derivesFrom hsource b) fun _ _ => .pure trivial
      | _ => exact .pure trivial
  | known | null =>
      rw [Semantics.conversion]
      refine .forest (.ite (fun _ => .pure trivial) fun _ => .ite (fun _ => .pure trivial) fun _ => ?_)
      simp only [h.isReference]
      cases target <;> exact .pure trivial

theorem baseClass {n : NodeId} (hn : seen n) :
    Coincide w w' (TypeRef.Within seen) (baseClass answers n)
      (baseClass answers n) := by
  refine .forest (.bind (h.baseTypes hn) fun bs hbs => ?_)
  simp only [h.kind]
  exact .pure (within_firstDeclared hbs _ _)

theorem returnType {m : MethodDef} (hm : (Definition.ofMethod m).Within seen) :
    Coincide w w' (TypeWithin seen) (returnType answers m) (returnType answers m) := by
  unfold Semantics.returnType
  split
  · rename_i n hn
    exact h.typeAt (hm.1 n hn)
  · split
    · exact .pure .none
    · exact .pure (.known _)

theorem typeFit (modifier : ParameterModifier) {argument : TypeRef}
    (hargument : argument.Within seen) (type : TypeRef) :
    Coincide w w' (fun _ => True) (typeFit answers modifier argument type)
      (typeFit answers modifier argument type) := by
  refine .bind (h.conversion hargument type) fun fit _ => ?_
  split
  · exact .bind (h.conversion hargument _) fun _ _ => .pure trivial
  · exact .pure trivial

theorem argumentFit {argument : Option TypeRef} (hargument : TypeWithin seen argument)
    {p : ParameterDef} (hp : ∀ t ∈ p.type, seen t) :
    Coincide w w' (fun _ => True) (argumentFit answers argument p)
      (argumentFit answers argument p) := by
  refine .bind (h.typeAt? hp) fun type _ => ?_
  split
  · exact h.typeFit _ (hargument _ rfl) _
  · exact .pure trivial

theorem argumentsFit {last : Option ParameterDef} (hlast : ∀ p ∈ last, ∀ t ∈ p.type, seen t)
    {arguments : List (Option TypeRef)} (harguments : ∀ a ∈ arguments, TypeWithin seen a)
    {ps : List ParameterDef} (hps : ∀ p ∈ ps, ∀ t ∈ p.type, seen t) :
    Coincide w w' (fun _ => True) (argumentsFit answers last arguments ps)
      (argumentsFit answers last arguments ps) := by
  induction arguments generalizing ps with
  | nil => exact .pure trivial
  | cons argument arguments ih =>
      obtain ⟨hargument, harguments⟩ := List.forall_mem_cons.mp harguments
      rw [Semantics.argumentsFit]
      split
      · exact .pure trivial
      · rename_i p hp
        have htypes : ∀ t ∈ p.type, seen t := by
          rcases Option.or_eq_some_iff.mp hp with hp | ⟨-, hp⟩
          · exact hps p (List.mem_of_mem_head? hp)
          · exact hlast p hp
        refine .bind (h.argumentFit hargument htypes) fun fit _ => ?_
        split
        · exact .pure trivial
        · refine .bind (ih harguments fun p hp => hps p (List.mem_of_mem_tail hp)) fun rest _ => ?_
          split <;> exact .pure trivial

theorem applicability {m : MethodDef} (hm : (Definition.ofMethod m).Within seen)
    {arguments : List (Option TypeRef)} (harguments : ∀ a ∈ arguments, TypeWithin seen a) :
    Coincide w w' (fun _ => True) (applicability answers m arguments)
      (applicability answers m arguments) := by
  refine .ite (fun _ => .pure trivial) fun _ => h.argumentsFit (fun p hp => ?_) harguments hm.2
  exact hm.2 p (List.mem_of_getLast? hp)

theorem applicable {arguments : List (Option TypeRef)}
    (harguments : ∀ a ∈ arguments, TypeWithin seen a) {ds : List Definition}
    (hds : AllWithin seen ds) :
    Coincide w w' (fun fits => ∀ fit ∈ fits, fit.1.Within seen) (applicable answers arguments ds)
      (applicable answers arguments ds) := by
  induction ds with
  | nil => exact .pure (by simp)
  | cons d ds ih =>
      obtain ⟨hd, hds⟩ := List.forall_mem_cons.mp hds
      have hrest : ∀ fit : Fit, Coincide w w' (fun fits => ∀ fit ∈ fits, fit.1.Within seen)
          (do
            let rest ← Semantics.applicable answers arguments ds
            return if fit = .none then rest else (d, fit) :: rest)
          (do
            let rest ← Semantics.applicable answers arguments ds
            return if fit = .none then rest else (d, fit) :: rest) := by
        refine fun fit => .bind (ih hds) fun rest hrest => .pure ?_
        split
        · exact hrest
        · exact List.forall_mem_cons.mpr ⟨hd, hrest⟩
      rw [Semantics.applicable]
      cases hmethod : d.method? with
      | none => exact .bind (P := fun _ => True) (.pure trivial) fun fit _ => hrest fit
      | some m =>
          cases d with
          | ofMethod m' =>
              cases hmethod
              exact .bind (h.applicability hd harguments) fun fit _ => hrest fit
          | _ => cases hmethod

theorem callOf (ms : List Meaning) {d : Definition} (hd : d.Within seen) :
    Coincide w w' (Meaning.Within seen) (callOf answers ms d) (callOf answers ms d) := by
  unfold Semantics.callOf
  cases hmethod : d.method? with
  | none => exact .pure (Meaning.within_call.mpr .none)
  | some m =>
      cases d with
      | ofMethod m' =>
          cases hmethod
          exact .bind (h.returnType hd) fun type htype => .pure (Meaning.within_call.mpr htype)
      | _ => cases hmethod

theorem pickOverload {candidates : List Definition} (hcandidates : AllWithin seen candidates)
    {ms : List Meaning} (hms : ∀ m ∈ ms, m.Within seen) :
    Coincide w w' (Meaning.Within seen) (pickOverload answers candidates ms)
      (pickOverload answers candidates ms) := by
  have htypes : ∀ a ∈ ms.map Meaning.type?, TypeWithin seen a := by
    intro a ha
    obtain ⟨m, hm, rfl⟩ := List.mem_map.mp ha
    exact (hms m hm).type?
  refine .bind (h.applicable htypes hcandidates) fun accepting haccepting => ?_
  split
  · exact .pure (Meaning.within_error _ _)
  · exact h.callOf ms (haccepting _ List.mem_cons_self)
  · split
    · rename_i d fit hfilter
      exact h.callOf ms (haccepting (d, fit) (List.mem_of_mem_filter (hfilter ▸ List.mem_cons_self)))
    · exact .pure (Meaning.within_error _ _)

/-! ## Types of definitions -/

theorem meaningAt {n : NodeId} (hn : seen n) :
    Coincide w w' (Meaning.Within seen) (meaningAt answers n) (meaningAt answers n) :=
  .bind (coincide_scopesAt h.toLooksAlike hn) fun _ hss => h.expression hn hss

theorem isInferred {n : NodeId} (hn : seen n) : isInferred w'.forest n = isInferred w.forest n := by
  rw [Semantics.isInferred, Semantics.isInferred, h.kind, h.nameOf? hn]

theorem inferredType (decl : NodeId) {initializer : Option NodeId}
    (hinitializer : ∀ n ∈ initializer, seen n) :
    Coincide w w' (TypeWithin seen) (inferredType answers decl initializer)
      (inferredType answers decl initializer) := by
  cases initializer with
  | none => exact .pure .none
  | some n =>
      exact .guarded .none (.bind (h.meaningAt (hinitializer n rfl)) fun m hm => .pure hm.type?)

theorem namedType {type : Option NodeId} (htype : ∀ n ∈ type, seen n) :
    (type.filter fun t => !Semantics.isInferred w'.forest t) =
      type.filter fun t => !Semantics.isInferred w.forest t := by
  cases type with
  | none => rfl
  | some t => rw [Option.filter_some, Option.filter_some, h.isInferred (htype t rfl)]

theorem declaredOrInferred (decl : NodeId) {type initializer : Option NodeId}
    (htype : ∀ n ∈ type, seen n) (hinitializer : ∀ n ∈ initializer, seen n) :
    Coincide w w' (TypeWithin seen) (declaredOrInferred answers decl type initializer)
      (declaredOrInferred answers decl type initializer) := by
  refine .forest ?_
  rw [h.namedType htype]
  split
  · rename_i n hn
    exact h.typeAt (htype n (Option.filter_eq_some_iff.mp hn).1)
  · exact h.inferredType decl hinitializer

theorem typeOf {d : Definition} (hd : d.Within seen) :
    Coincide w w' (TypeWithin seen) (typeOf answers d) (typeOf answers d) := by
  refine .forest ?_
  cases d with
  | ofNamespace | ofMethod => exact .pure .none
  | ofType d =>
      dsimp only
      split
      · exact .pure (.known _)
      · rename_i decl variant horigin
        exact .pure (.some (hd.1 decl (by simp [Definition.decl?, horigin])))
  | ofField d =>
      exact .ite (fun _ => .pure (.some hd.1)) fun _ => h.declaredOrInferred _ hd.2.1 hd.2.2
  | ofProperty d => exact h.typeAt? hd
  | ofEvent d => exact h.typeAt? hd
  | ofVariable d =>
      refine .ite (fun _ => ?_) fun _ => h.declaredOrInferred _ hd.1 hd.2
      rw [h.namedType hd.1]
      split
      · rename_i n hn
        exact h.typeAt (hd.1 n (Option.filter_eq_some_iff.mp hn).1)
      · refine .bind (h.inferredType _ hd.2) fun t ht => .pure fun e he => ?_
        obtain ⟨t, rfl, he⟩ := Option.bind_eq_some_iff.mp he
        cases t with
        | array element rank =>
            cases he
            exact ht (.array e rank) rfl
        | _ => cases he

theorem memberOf {ds : List Definition} (hds : AllWithin seen ds) :
    Coincide w w' (Meaning.Within seen) (memberOf answers ds) (memberOf answers ds) := by
  unfold Semantics.memberOf
  split
  · exact .bind (h.typeOf (hds _ List.mem_cons_self)) fun type htype =>
      .pure (Meaning.within_member.mpr ⟨hds, htype⟩)
  · exact .pure (Meaning.within_member.mpr ⟨hds, .none⟩)

theorem memberOr (name : String) {ds : List Definition} (hds : AllWithin seen ds) :
    Coincide w w' (Meaning.Within seen) (memberOr answers name ds) (memberOr answers name ds) :=
  .ite (fun _ => .pure (Meaning.within_unknown _)) fun _ => h.memberOf hds

omit h in
/-- What may follow after a dot is looked up in a scope that looks alike. -/
theorem scope? {m : Meaning} (hm : m.Within seen) : ∀ s ∈ m.scope?, s.Shown w w' seen := by
  have htype : ∀ t, TypeWithin seen t → ∀ s ∈ Meaning.scopeOfType? t, s.Shown w w' seen := by
    intro t ht s hs
    unfold Meaning.scopeOfType? at hs
    split at hs
    · cases hs
      exact ht _ rfl
    · cases hs
  intro s hs
  have htyped := hm.type?
  cases m with
  | member ds type =>
      rw [Meaning.scope?] at hs
      split at hs
      · cases hs
      · rename_i d hd
        cases hs
        exact (Meaning.within_member.mp hm).1 _ (List.mem_of_mem_head? hd)
      · cases hs
      · exact htype _ htyped s hs
  | _ => exact htype _ htyped s hs

theorem constructorsOf {type : TypeRef} (htype : type.Within seen) :
    Coincide w w' (AllWithin seen) (constructorsOf type) (constructorsOf type) := by
  cases type with
  | declared decl =>
      refine .bind (coincide_definitionOf h.toLooksAlike htype) fun o ho => ?_
      split
      · rename_i t ht
        obtain ⟨d, rfl, hd⟩ := Option.bind_eq_some_iff.mp ht
        cases d with
        | ofType t' =>
            cases hd
            exact .bind (coincide_definitionsOf h.toLooksAlike (ho _ rfl).2.2.1) fun os hos => .pure hos
        | _ => cases hd
      · exact .pure .nil
  | _ => exact .pure .nil

theorem malformed (n : NodeId) :
    Coincide w w' (Meaning.Within seen) (malformed n) (malformed n) := by
  refine .forest ?_
  rw [h.kind]
  exact .pure (Meaning.within_error _ _)

/-! ## Type nodes -/

theorem resolveType {n : NodeId} (hn : seen n) {ss : List Scope} (hss : AllShown w w' seen ss) :
    Coincide w w' (Meaning.Within seen) (resolveType answers n ss) (resolveType answers n ss) := by
  refine .read ?_
  dsimp only
  rw [h.kind, h.nameOf? hn, h.child? hn .target nofun, h.child? hn .type nofun]
  simp only [h.builtinWithKeyword?]
  split
  · exact h.memberOf (List.forall_mem_singleton.mpr (within_builtin _))
  · split
    · exact h.malformed n
    · refine .bind (h.lookup _ _ hss) fun ds hds => ?_
      exact .ite (fun _ => h.memberOr _ (within_builtinWithKeyword? _)) fun _ => h.memberOf hds
  · split
    · rename_i target name htarget hname
      refine .bind (h.type (h.child?_seen hn htarget nofun) hss) fun m hm => ?_
      have hrest : ∀ ds, AllWithin seen ds → Coincide w w' (Meaning.Within seen)
          (Semantics.memberOr answers name (ds.filter Definition.isTypeLike))
          (Semantics.memberOr answers name (ds.filter Definition.isTypeLike)) :=
        fun ds hds => h.memberOr name (hds.filter _)
      cases hscope : m.scope? with
      | none => exact .bind (.pure AllWithin.nil) hrest
      | some s => exact .bind (h.lookupIn name (scope? hm s hscope)) hrest
    · exact h.malformed n
  · split
    · exact h.malformed n
    · rename_i element helement
      refine .bind (h.type (h.child?_seen hn helement nofun) hss) fun m hm => ?_
      split
      · rename_i ds type
        obtain ⟨hds, htype⟩ := Meaning.within_member.mp hm
        exact .pure (Meaning.within_member.mpr ⟨hds, .some (htype type rfl)⟩)
      · exact .pure hm
  · split
    · exact h.malformed n
    · rename_i element helement
      refine .bind (h.type (h.child?_seen hn helement nofun) hss) fun m hm => ?_
      split
      · exact .pure (Meaning.within_member.mpr ⟨(Meaning.within_member.mp hm).1, .none⟩)
      · exact .pure hm
  · exact .pure (Meaning.within_error _ _)

/-! ## Expressions -/

section

variable {n : NodeId} (hn : seen n) {ss : List Scope} (hss : AllShown w w' seen ss)

include hn hss

theorem resolveChild (t : Title) (ht : t ≠ .statements) :
    Coincide w w' (Meaning.Within seen) (resolveChild answers n t ss)
      (resolveChild answers n t ss) := by
  refine .forest ?_
  rw [h.child? hn t ht]
  split
  · rename_i c hc
    exact h.expression (h.child?_seen hn hc ht) hss
  · exact h.malformed n

theorem resolveArguments :
    Coincide w w' (fun ms => ∀ m ∈ ms, m.Within seen) (resolveArguments answers n ss)
      (resolveArguments answers n ss) := by
  refine .forest ?_
  rw [h.children hn .arguments nofun]
  exact .mapM fun a ha => h.expression (h.children_seen hn .arguments nofun a ha) hss

omit h hn hss in
theorem within_elementMeaning {m : Meaning} (hm : m.Within seen) : (elementMeaning m).Within seen := by
  unfold elementMeaning
  split
  · rename_i ds element rank
    obtain ⟨hds, htype⟩ := Meaning.within_member.mp hm
    exact Meaning.within_member.mpr ⟨hds, .some (htype (.array element rank) rfl)⟩
  · exact hm
  · exact hm
  · exact Meaning.within_error _ _

theorem resolveCall :
    Coincide w w' (Meaning.Within seen) (resolveCall answers n ss) (resolveCall answers n ss) := by
  refine .bind (h.resolveChild hn hss _ nofun) fun target htarget => ?_
  refine .bind (h.resolveArguments hn hss) fun ms hms => ?_
  split
  · have hds := (Meaning.within_member.mp htarget).1
    refine .ite (fun _ => h.pickOverload (AllWithin.filter hds _) hms) fun _ => ?_
    exact .ite (fun _ => .pure (within_elementMeaning htarget)) fun _ =>
      .pure (Meaning.within_error _ _)
  · exact .pure htarget
  · exact .pure htarget
  · exact .pure (Meaning.within_error _ _)

theorem resolveCreation :
    Coincide w w' (Meaning.Within seen) (resolveCreation answers n ss)
      (resolveCreation answers n ss) := by
  refine .forest ?_
  rw [h.child? hn .type nofun]
  split
  · exact h.malformed n
  · rename_i typeNode htypeNode
    refine .bind (h.type (h.child?_seen hn htypeNode nofun) hss) fun created hcreated => ?_
    split
    · exact .pure hcreated
    · rename_i type htype
      have hnodes : type.Within seen := hcreated.type? type htype
      have hcall : ∀ d ms, (Meaning.call d ms (some type)).Within seen :=
        fun d ms => Meaning.within_call.mpr (.some hnodes)
      refine .bind (h.resolveArguments hn hss) fun ms hms => ?_
      refine .bind (h.constructorsOf hnodes) fun constructors hconstructors => ?_
      refine .ite (fun _ => .ite (fun _ => .pure (Meaning.within_error _ _)) fun _ =>
        .pure (hcall none ms)) fun _ => ?_
      refine .bind (h.pickOverload hconstructors hms) fun m hm => ?_
      split
      · exact .pure (hcall _ _)
      · exact .pure hm

theorem resolveConditional :
    Coincide w w' (Meaning.Within seen) (resolveConditional answers n ss)
      (resolveConditional answers n ss) := by
  refine .bind (h.resolveChild hn hss _ nofun) fun m hm => .bind (h.constant hm) fun value _ => ?_
  split
  · exact h.resolveChild hn hss _ nofun
  · exact h.resolveChild hn hss _ nofun
  · exact .pure (Meaning.within_error _ _)

theorem resolveCast :
    Coincide w w' (Meaning.Within seen) (resolveCast answers n ss) (resolveCast answers n ss) := by
  refine .forest ?_
  rw [h.child? hn .type nofun]
  split
  · exact h.malformed n
  · rename_i typeNode htypeNode
    refine .bind (h.type (h.child?_seen hn htypeNode nofun) hss) fun target htarget => ?_
    split
    · exact .pure htarget
    · rename_i type htype
      exact .bind (h.resolveChild hn hss _ nofun) fun m hm =>
        .pure (Meaning.within_conversion.mpr ⟨htarget.type? type htype, hm⟩)

theorem resolveBinary (op : BinaryOperator) :
    Coincide w w' (Meaning.Within seen) (resolveBinary answers n op ss)
      (resolveBinary answers n op ss) := by
  refine .bind (h.resolveChild hn hss _ nofun) fun left hleft => ?_
  refine .bind (h.resolveChild hn hss _ nofun) fun right hright => ?_
  refine .bind (h.constant hleft) fun a _ => .bind (h.constant hright) fun b _ => ?_
  split
  · split
    · refine .pure (Meaning.within_constant.mpr ?_)
      cases htype : Folding.binaryType? op left.type? right.type? with
      | none => exact .some (within_typeOf _)
      | some type => exact .some (within_binaryType? hleft.type? hright.type? type htype)
    · exact .pure (Meaning.within_error _ _)
  · exact .pure (Meaning.within_error _ _)

theorem resolveUnary (op : UnaryOperator) :
    Coincide w w' (Meaning.Within seen) (resolveUnary answers n op ss)
      (resolveUnary answers n op ss) := by
  refine .bind (h.resolveChild hn hss _ nofun) fun m hm => .bind (h.constant hm) fun value _ => ?_
  split
  · exact .pure (Meaning.within_error _ _)
  · split
    · exact .pure (Meaning.within_constant.mpr hm.type?)
    · exact .pure (Meaning.within_error _ _)

theorem resolveExpression :
    Coincide w w' (Meaning.Within seen) (resolveExpression answers n ss)
      (resolveExpression answers n ss) := by
  have htype : ∀ o : Option NodeId, (∀ m ∈ o, seen m) →
      TypeWithin seen (o.map TypeRef.declared) := by
    intro o ho t ht
    obtain ⟨m, hm, rfl⟩ := Option.map_eq_some_iff.mp ht
    exact ho m hm
  have henclosing : ∀ m ∈ Scope.enclosingType? ss, seen m := by
    intro m hm
    obtain ⟨s, hs, hm⟩ := List.exists_of_findSome?_eq_some hm
    split at hm
    · cases hm
      exact hss _ hs
    · cases hm
  refine .forest ?_
  rw [h.kind, h.nameOf? hn, h.child? hn .target nofun, h.child? hn .type nofun]
  split
  · refine .pure (Meaning.within_constant.mpr ?_)
    split
    · exact .some trivial
    · intro t ht
      obtain ⟨k, -, rfl⟩ := Option.map_eq_some_iff.mp ht
      trivial
  · split
    · exact .bind (h.lookup _ _ hss) fun ds hds => h.memberOr _ hds
    · exact h.malformed n
  · split
    · rename_i target name htarget hname
      refine .bind (h.expression (h.child?_seen hn htarget nofun) hss) fun m hm => ?_
      unfold resolveMember
      cases hscope : m.scope? with
      | none => exact .bind (.pure AllWithin.nil) fun ds hds => h.memberOr _ hds
      | some s => exact .bind (h.lookupIn _ (scope? hm s hscope)) fun ds hds => h.memberOr _ hds
    · exact h.malformed n
  · exact h.resolveCall hn hss
  · exact .bind (h.resolveChild hn hss _ nofun) fun m hm => .pure (within_elementMeaning hm)
  · exact h.resolveBinary hn hss _
  · exact h.resolveUnary hn hss _
  · exact h.resolveChild hn hss _ nofun
  · exact h.resolveChild hn hss _ nofun
  · exact h.resolveChild hn hss _ nofun
  · exact h.resolveConditional hn hss
  · exact h.resolveCast hn hss
  · exact h.resolveCast hn hss
  · split
    · rename_i c hc
      exact h.type (h.child?_seen hn hc nofun) hss
    · exact h.malformed n
  · exact .pure (Meaning.within_this.mpr (htype _ henclosing))
  · split
    · rename_i type htype
      exact .bind (h.baseClass (henclosing type htype)) fun t ht =>
        .pure (Meaning.within_base.mpr (.some ht))
    · exact .pure (Meaning.within_base.mpr .none)
  · exact h.resolveCreation hn hss
  · exact h.type hn hss
  · exact h.type hn hss
  · exact h.type hn hss
  · exact h.type hn hss
  · exact h.type hn hss
  · split <;> exact .pure (Meaning.within_error _ _)

end

/-! ## Constants -/

omit h in
theorem within_constantDeclaration? {d : Definition} {decl initializer : NodeId} (hd : d.Within seen)
    (hdecl : constantDeclaration? d = some (decl, initializer)) : seen initializer := by
  have hvalue : ∀ {isConst : Bool} {decl' : NodeId} {o : Option NodeId}, (∀ n ∈ o, seen n) →
      (if isConst then o.map (decl', ·) else none) = some (decl, initializer) → seen initializer := by
    intro isConst decl' o ho heq
    split at heq
    · obtain ⟨n, hn, hpair⟩ := Option.map_eq_some_iff.mp heq
      cases hpair
      exact ho _ hn
    · cases heq
  cases d with
  | ofField d => exact hvalue hd.2.2 hdecl
  | ofVariable d => exact hvalue hd.2 hdecl
  | _ => cases hdecl

theorem constantOf {m : Meaning} (hm : m.Within seen) :
    Coincide w w' (fun _ => True) (constantOf answers m) (constantOf answers m) := by
  fun_induction Semantics.constantOf answers m with
  | case1 => exact .pure trivial
  | case2 d type decl initializer hdecl =>
      have hd := (Meaning.within_member.mp hm).1 d List.mem_cons_self
      have hinitializer : seen initializer := within_constantDeclaration? hd hdecl
      exact .guarded trivial (.bind (h.meaningAt hinitializer) fun m hm => h.constant hm)
  | case3 => exact .pure trivial
  | case4 t operand ih =>
      exact .bind (ih (Meaning.within_conversion.mp hm).2) fun _ _ => .pure trivial
  | case5 => exact .pure trivial

end Views

/-- All answers about nodes from which two worlds look alike coincide. -/
theorem LooksAlike.views (h : LooksAlike w w' seen) (fuel : Nat) :
    Views w w' seen (answersUpTo fuel) := by
  induction fuel with
  | zero => exact ⟨h, fun _ _ => .failure, fun _ _ => .failure, fun _ => .failure⟩
  | succ fuel ih =>
      exact ⟨h, fun hn hss => ih.resolveType hn hss, fun hn hss => ih.resolveExpression hn hss,
        fun hm => ih.constantOf hm⟩

/-- What an expression or a type node comes to at its place, and its constant value. -/
def resolutionOf (n : NodeId) : Ask (Meaning × Option ConstantValue) := do
  let m ← meaningOf n
  return (m, ← constantValue m)

/-- A node from which two worlds look alike comes to the same in both. -/
theorem LooksAlike.coincide_resolutionOf (h : LooksAlike w w' seen) {n : NodeId} (hn : seen n) :
    Coincide w w' (fun _ => True) (resolutionOf n) (resolutionOf n) := by
  have hfuel : answersFor w'.forest = answersFor w.forest := by
    rw [answersFor, answersFor, enoughFuel, enoughFuel, h.size]
  have hviews : Views w w' seen (answersFor w.forest) := h.views _
  have hmeaning : Coincide w w' (Meaning.Within seen) (meaningOf n) (meaningOf n) := by
    refine .forest ?_
    rw [hfuel]
    exact hviews.meaningAt hn
  refine .bind hmeaning fun m hm => .bind (P := fun _ => True) (.forest ?_) fun _ _ => .pure trivial
  rw [hfuel]
  exact hviews.constant hm

/-- The answer to coinciding questions of which nothing was asked before is the same. -/
theorem Coincide.ask?_eq {α : Type} {P : α → Prop} {x : Ask α} {f f' : Forest} {caseSensitive : Bool}
    (h : Coincide ⟨f, caseSensitive⟩ ⟨f', caseSensitive⟩ P x x) :
    f'.ask? caseSensitive x = f.ask? caseSensitive x := by
  change (x ⟨f', caseSensitive⟩ {}).map _ = (x ⟨f, caseSensitive⟩ {}).map _
  rw [(h {}).1]

end Semantics

end DualSyntax
