import DualSyntax.Proofs.Semantics.Agreeing
import DualSyntax.Proofs.Semantics.Termination

/-!
# Resolution up to spellings

Resolution reads no spelling of a namespace, except to report it: if the answers to deeper questions
are the same up to spellings then so is every answer that is made of them, and by induction on the fuel
so are all answers.
-/

namespace DualSyntax

open Semantics (World)

theorem Definition.single_cases {w : World} {ds ds' : List Definition}
    (h : ds.map (Definition.keyed w) = ds'.map (Definition.keyed w)) :
    (∃ d, ds = [d] ∧ ds' = [d]) ∨ (∃ n n', ds = [ofNamespace n] ∧ ds' = [ofNamespace n']) ∨
      (∀ d, ds ≠ [d]) ∧ ∀ d, ds' ≠ [d] := by
  by_cases hsingle : ∃ d, ds = [d]
  · obtain ⟨d, rfl⟩ := hsingle
    obtain ⟨d', rest, rfl, hd, hrest⟩ := List.map_eq_cons_iff.mp h.symm
    obtain rfl : rest = [] := List.map_eq_nil_iff.mp hrest
    obtain ⟨n, n', rfl, rfl, -⟩ | ⟨rfl, -⟩ := Definition.keyed_cases hd
    · exact .inr (.inl ⟨n', n, rfl, rfl⟩)
    · exact .inl ⟨d', rfl, rfl⟩
  · have hlength : ds.length = ds'.length := by simpa using congrArg List.length h
    refine .inr (.inr ⟨fun d hd => hsingle ⟨d, hd⟩, fun d hd => hsingle ?_⟩)
    rw [← List.length_eq_one_iff, hlength, hd, List.length_singleton]

/-- Meanings that are the same up to spellings, and refer to the same definition unless this may be
a namespace, which has no type. -/
structure Meaning.Alike (w : World) (m m' : Meaning) : Prop where
  keyed : m.keyed w = m'.keyed w
  definition : (∀ ds, m ≠ .member ds none) → m.definition? = m'.definition?

namespace Meaning.Alike

variable {w : World} {m m' : Meaning}

theorem refl (m : Meaning) : Alike w m m := ⟨rfl, fun _ => rfl⟩

theorem type? (h : Alike w m m') : m.type? = m'.type? := type?_of_keyed h.keyed

/-- What may follow after a dot. -/
theorem scope?_cases (h : Alike w m m') : (m.scope? = none ∧ m'.scope? = none) ∨
    ∃ s s', m.scope? = some s ∧ m'.scope? = some s' ∧ s.keyed w = s'.keyed w := by
  have hscope := scope?_of_keyed h.keyed
  cases hleft : m.scope? with
  | none =>
      rw [hleft] at hscope
      exact .inl ⟨rfl, Option.map_eq_none_iff.mp hscope.symm⟩
  | some s =>
      rw [hleft] at hscope
      obtain ⟨s', hright, hs⟩ := Option.map_eq_some_iff.mp hscope.symm
      exact .inr ⟨s, s', rfl, hright, hs.symm⟩

theorem untyped {ds ds' : List Definition}
    (h : ds.map (Definition.keyed w) = ds'.map (Definition.keyed w)) :
    Alike w (.member ds none) (.member ds' none) :=
  ⟨keyed_eq_iff.mpr (.member h none), fun hne => absurd rfl (hne ds)⟩

/-- Members keep what they refer to under another type. -/
theorem retyped {ds ds' : List Definition} {type type' : TypeRef}
    (h : Alike w (.member ds (some type)) (.member ds' (some type'))) (t : TypeRef) :
    Alike w (.member ds (some t)) (.member ds' (some t)) := by
  cases keyed_eq_iff.mp h.keyed with
  | member hds => exact ⟨keyed_eq_iff.mpr (.member hds _), fun _ => h.definition (by simp)⟩

theorem definition?_of_typed (h : Alike w m m') {type : TypeRef} (htype : m.type? = some type) :
    m.definition? = m'.definition? := by
  refine h.definition fun ds hm => ?_
  rw [hm] at htype
  cases htype

end Meaning.Alike

namespace Semantics

variable {w : World} {answers : Answers}

/-- Answers that are the same up to spellings, asked in scopes that are the same up to spellings. -/
structure Answers.Steady (w : World) (answers : Answers) : Prop where
  type : ∀ n {ss ss' : List Scope}, ss.map (Scope.keyed w) = ss'.map (Scope.keyed w) →
    Agree w (Meaning.Alike w) (answers.type n ss) (answers.type n ss')
  expression : ∀ n {ss ss' : List Scope}, ss.map (Scope.keyed w) = ss'.map (Scope.keyed w) →
    Agree w (Meaning.Alike w) (answers.expression n ss) (answers.expression n ss')
  constant : ∀ {m m' : Meaning}, m.keyed w = m'.keyed w →
    Agree w Eq (answers.constant m) (answers.constant m')

namespace Answers.Steady

variable (h : answers.Steady w)

include h

/-! ## Members of types -/

theorem typeAt (n : NodeId) : Agree w Eq (typeAt answers n) (typeAt answers n) :=
  .bind (agree_scopesAt n) fun _ _ hss => .bind (h.type n hss) fun _ _ hm => .pure hm.type?

theorem typeAt? (n : Option NodeId) : Agree w Eq (typeAt? answers n) (typeAt? answers n) := by
  cases n with
  | some n => exact h.typeAt n
  | none => exact .pure rfl

theorem baseTypes (n : NodeId) : Agree w Eq (baseTypes answers n) (baseTypes answers n) := by
  refine .bind (agree_definitionOf n) fun o o' ho => ?_
  rw [type?_of_keyed ho]
  split
  · exact .pure rfl
  · refine .same (.guarded rfl ?_) fun _ => .pure rfl
    exact .same (.mapM_eq fun b _ => h.typeAt b) fun _ => .pure rfl

theorem firstMembers {a b : String} (hab : w.key a = w.key b) (fuel : Nat) (seen queue : List NodeId) :
    AgreeBy w (List.map (Definition.keyed w)) (firstMembers answers a fuel seen queue)
      (firstMembers answers b fuel seen queue) := by
  induction fuel generalizing seen queue with
  | zero => exact .failure
  | succ fuel ih =>
      cases queue with
      | nil => exact .pure rfl
      | cons n queue =>
          refine .ite .rfl (fun _ => ih _ _) fun _ => ?_
          refine .bind (agree_ownMembers hab n) fun ds ds' hds => ?_
          refine .ite (by rw [isEmpty_of_map_eq hds]) (fun _ => ?_) fun _ => .pure hds
          exact .same (h.baseTypes n) fun _ => ih _ _

/-! ## Names in scopes -/

/-- What two names stand for in a scope, up to the keywords of the built-in types. -/
theorem lookupIn_keywords {R : List Definition → List Definition → Prop} {a b : String}
    (hab : w.key a = w.key b)
    (hfound : ∀ ds ds' : List Definition, ds.map (Definition.keyed w) = ds'.map (Definition.keyed w) →
      R ds ds')
    (hkeyword : R (builtinWithKeyword? w a).toList (builtinWithKeyword? w b).toList)
    {s s' : Scope} (hs : s.keyed w = s'.keyed w) :
    Agree w R (lookupIn answers a s) (lookupIn answers b s') := by
  have hvariable : ∀ {ask ask' : Ask (Option Definition)},
      AgreeBy w (Option.map (Definition.keyed w)) ask ask' →
      Agree w R (do return (← ask).toList) (do return (← ask').toList) := by
    intro ask ask' hask
    refine .bind hask fun o o' ho => .pure (hfound _ _ ?_)
    rw [← Option.toList_map, ho, Option.toList_map]
  obtain ⟨d, d', rfl, rfl, hd⟩ | rfl := Scope.keyed_cases hs
  · exact (agree_namespaceMembers hab hd).imp hfound
  · cases s with
    | block n upto => exact hvariable (agree_blockVariable hab n upto)
    | statement n => exact hvariable (agree_statementVariable hab n)
    | method n => exact hvariable (agree_parameterNamed hab n)
    | type n => exact .forest ((h.firstMembers hab _ _ _).imp hfound)
    | ofNamespace d => exact (agree_namespaceMembers hab rfl).imp hfound
    | imports n => exact .forest ((agree_importedMembers hab _ _).imp hfound)
    | compilationUnit n => exact agree_globalMembers hab n hfound hkeyword

theorem lookupIn (name : String) {s s' : Scope} (hs : s.keyed w = s'.keyed w) :
    AgreeBy w (List.map (Definition.keyed w)) (lookupIn answers name s)
      (lookupIn answers name s') :=
  h.lookupIn_keywords rfl (fun _ _ => id) rfl hs

/-- What two names stand for that are the same and the same keyword, if any. -/
theorem lookup {a b : String} (hab : w.key a = w.key b)
    (hkeyword : builtinWithKeyword? w a = builtinWithKeyword? w b) {accept : Definition → Bool}
    (haccept : ∀ d : Definition, accept (d.keyed w) = accept d) {ss ss' : List Scope}
    (hss : ss.map (Scope.keyed w) = ss'.map (Scope.keyed w)) :
    AgreeBy w (List.map (Definition.keyed w)) (lookup answers a accept ss)
      (lookup answers b accept ss') := by
  induction ss generalizing ss' with
  | nil =>
      obtain rfl : ss' = [] := List.map_eq_nil_iff.mp hss.symm
      exact .pure rfl
  | cons s ss ih =>
      obtain ⟨s', ss', rfl, hs, hrest⟩ := List.map_eq_cons_iff.mp hss.symm
      have hfound := h.lookupIn_keywords hab (fun _ _ => id) (by rw [hkeyword]) hs.symm
      refine .bind hfound fun ds ds' hds => ?_
      have hkept := map_keyed_filter haccept hds
      exact .ite (by rw [isEmpty_of_map_eq hkept]) (fun _ => ih hrest.symm) fun _ => .pure hkept

/-! ## Conversions and overloads -/

theorem reaches (base : NodeId) (fuel : Nat) (seen stack : List NodeId) :
    Agree w Eq (reaches answers base fuel seen stack) (reaches answers base fuel seen stack) := by
  induction fuel generalizing seen stack with
  | zero => exact .failure
  | succ fuel ih =>
      cases stack with
      | nil => exact .pure rfl
      | cons n stack =>
          refine .ite .rfl (fun _ => .pure rfl) fun _ => .ite .rfl (fun _ => ih _ _) fun _ => ?_
          exact .same (h.baseTypes n) fun _ => ih _ _

theorem derivesFrom (n base : NodeId) :
    Agree w Eq (derivesFrom answers n base) (derivesFrom answers n base) :=
  .same (h.baseTypes n) fun _ => .forest (h.reaches base _ _ _)

theorem conversion (source target : TypeRef) :
    Agree w Eq (conversion answers source target) (conversion answers source target) := by
  induction source generalizing target with
  | array a m ih =>
      rw [Semantics.conversion]
      refine .forest (.ite .rfl (fun _ => .pure rfl) fun _ => .ite .rfl (fun _ => .pure rfl) fun _ => ?_)
      cases target with
      | array b n =>
          exact .ite .rfl (fun _ => .same (ih b) fun _ => .pure rfl) fun _ => .pure rfl
      | _ => exact .pure rfl
  | declared a =>
      rw [Semantics.conversion]
      refine .forest (.ite .rfl (fun _ => .pure rfl) fun _ => .ite .rfl (fun _ => .pure rfl) fun _ => ?_)
      cases target with
      | declared b => exact .same (h.derivesFrom a b) fun _ => .pure rfl
      | _ => exact .pure rfl
  | known | null =>
      rw [Semantics.conversion]
      refine .forest (.ite .rfl (fun _ => .pure rfl) fun _ => .ite .rfl (fun _ => .pure rfl) fun _ => ?_)
      cases target <;> exact .pure rfl

theorem baseClass (n : NodeId) : Agree w Eq (baseClass answers n) (baseClass answers n) :=
  .forest (.same (h.baseTypes n) fun _ => .pure rfl)

theorem returnType (m : MethodDef) : Agree w Eq (returnType answers m) (returnType answers m) := by
  unfold Semantics.returnType
  split
  · exact h.typeAt _
  · exact .pure rfl

theorem typeFit (modifier : ParameterModifier) (argument type : TypeRef) :
    Agree w Eq (typeFit answers modifier argument type) (typeFit answers modifier argument type) := by
  refine .same (h.conversion argument type) fun fit => ?_
  split
  · exact .same (h.conversion argument _) fun _ => .pure rfl
  · exact .pure rfl

theorem argumentFit (argument : Option TypeRef) (p : ParameterDef) :
    Agree w Eq (argumentFit answers argument p) (argumentFit answers argument p) := by
  refine .same (h.typeAt? p.type) fun type => ?_
  split
  · exact h.typeFit _ _ _
  · exact .pure rfl

theorem argumentsFit (last : Option ParameterDef) (arguments : List (Option TypeRef))
    (ps : List ParameterDef) :
    Agree w Eq (argumentsFit answers last arguments ps) (argumentsFit answers last arguments ps) := by
  induction arguments generalizing ps with
  | nil => exact .pure rfl
  | cons argument arguments ih =>
      rw [Semantics.argumentsFit]
      split
      · exact .pure rfl
      · refine .same (h.argumentFit argument _) fun fit => ?_
        split
        · exact .pure rfl
        · refine .same (ih ps.tail) fun rest => ?_
          split <;> exact .pure rfl

theorem applicability (m : MethodDef) (arguments : List (Option TypeRef)) :
    Agree w Eq (applicability answers m arguments) (applicability answers m arguments) :=
  .ite .rfl (fun _ => .pure rfl) fun _ => h.argumentsFit _ _ _

theorem applicable (arguments : List (Option TypeRef)) (ds : List Definition) :
    Agree w Eq (applicable answers arguments ds) (applicable answers arguments ds) := by
  induction ds with
  | nil => exact .pure rfl
  | cons d ds ih =>
      rw [Semantics.applicable]
      split
      · exact .same (h.applicability _ arguments) fun _ => .same ih fun _ => .pure rfl
      · exact .same (.pure rfl) fun _ => .same ih fun _ => .pure rfl

theorem callOf {ms ms' : List Meaning} (hms : ms.map (Meaning.keyed w) = ms'.map (Meaning.keyed w))
    (d : Definition) : Agree w (Meaning.Alike w) (callOf answers ms d) (callOf answers ms' d) := by
  have hcall : ∀ type, Meaning.Alike w (.call (some d) ms type) (.call (some d) ms' type) :=
    fun type => ⟨Meaning.keyed_eq_iff.mpr (.call rfl hms type), fun _ => rfl⟩
  unfold Semantics.callOf
  split
  · exact .same (h.returnType _) fun type => .pure (hcall type)
  · exact .pure (hcall none)

/-- An overload is chosen by the types of the arguments. -/
theorem pickOverload (candidates : List Definition) {ms ms' : List Meaning}
    (hms : ms.map (Meaning.keyed w) = ms'.map (Meaning.keyed w)) :
    Agree w (Meaning.Alike w) (pickOverload answers candidates ms)
      (pickOverload answers candidates ms') := by
  unfold Semantics.pickOverload
  dsimp only
  rw [Meaning.types_of_keyed hms]
  refine .same (h.applicable _ candidates) fun accepting => ?_
  split
  · exact .pure (.refl _)
  · exact h.callOf hms _
  · split
    · exact h.callOf hms _
    · exact .pure (.refl _)

/-! ## Types of definitions -/

theorem meaningAt (n : NodeId) :
    Agree w (Meaning.Alike w) (meaningAt answers n) (meaningAt answers n) :=
  .bind (agree_scopesAt n) fun _ _ hss => h.expression n hss

theorem inferredType (decl : NodeId) (initializer : Option NodeId) :
    Agree w Eq (inferredType answers decl initializer) (inferredType answers decl initializer) := by
  cases initializer with
  | none => exact .pure rfl
  | some n => exact .guarded rfl (.bind (h.meaningAt n) fun _ _ hm => .pure hm.type?)

theorem declaredOrInferred (decl : NodeId) (type initializer : Option NodeId) :
    Agree w Eq (declaredOrInferred answers decl type initializer)
      (declaredOrInferred answers decl type initializer) := by
  refine .forest ?_
  split
  · exact h.typeAt _
  · exact h.inferredType decl initializer

theorem typeOf (d : Definition) : Agree w Eq (typeOf answers d) (typeOf answers d) := by
  refine .forest ?_
  cases d with
  | ofNamespace | ofMethod => exact .pure rfl
  | ofType d =>
      dsimp only
      split <;> exact .pure rfl
  | ofField d => exact .ite .rfl (fun _ => .pure rfl) fun _ => h.declaredOrInferred _ _ _
  | ofProperty d => exact h.typeAt? d.type
  | ofEvent d => exact h.typeAt? d.type
  | ofVariable d =>
      refine .ite .rfl (fun _ => ?_) fun _ => h.declaredOrInferred _ _ _
      split
      · exact h.typeAt _
      · exact .same (h.inferredType _ _) fun _ => .pure rfl

/-- Only a single definition has a type, and a namespace has none. -/
theorem memberOf {ds ds' : List Definition}
    (hds : ds.map (Definition.keyed w) = ds'.map (Definition.keyed w)) :
    Agree w (Meaning.Alike w) (memberOf answers ds) (memberOf answers ds') := by
  obtain ⟨d, rfl, rfl⟩ | ⟨n, n', rfl, rfl⟩ | ⟨hne, hne'⟩ := Definition.single_cases hds
  · exact .same (h.typeOf d) fun _ => .pure (.refl _)
  · exact .pure (.untyped hds)
  · unfold Semantics.memberOf
    split
    · exact absurd rfl (hne _)
    · exact .pure (.untyped hds)

theorem memberOr (name : String) {ds ds' : List Definition}
    (hds : ds.map (Definition.keyed w) = ds'.map (Definition.keyed w)) :
    Agree w (Meaning.Alike w) (memberOr answers name ds) (memberOr answers name ds') :=
  .ite (by rw [isEmpty_of_map_eq hds]) (fun _ => .pure (.refl _)) fun _ => h.memberOf hds

end Answers.Steady

theorem kind_of_mem_constructors {n c : NodeId} {d : Definition} {t : TypeDef}
    (hd : declared? w n = some d) (ht : d.type? = some t) (hc : c ∈ t.constructors) :
    w.forest.kind c = .constructorDeclaration := by
  obtain ⟨variant, t', rfl, ht'⟩ | hplain := declared?_type_or_plain hd
  · cases ht
    obtain ⟨name, -, ht'⟩ := Option.bind_eq_some_iff.mp ht'
    cases ht'
    have hkind := List.of_mem_filter hc
    split at hkind
    · assumption
    · cases hkind
  · rw [hplain.2] at ht
    cases ht

/-- The type that a node declares is read off the forest. -/
theorem agree_declaredType (n : NodeId) :
    Agree w (fun o o' => o.bind Definition.type? = (declared? w n).bind Definition.type? ∧
      o'.bind Definition.type? = (declared? w n).bind Definition.type?)
      (definitionOf n) (definitionOf n) := by
  refine .read ?_
  split
  · rename_i hkind
    have hnone : declared? w n = none := by simp [declared?, hkind]
    have hnamespace : ∀ o : Option NamespaceDef,
        (o.map Definition.ofNamespace).bind Definition.type? = none := by
      intro o
      cases o <;> rfl
    rw [hnone]
    split
    · exact .bind (agree_namespaceNamed? _ rfl) fun o o' _ => .pure ⟨hnamespace o, hnamespace o'⟩
    · exact .pure ⟨rfl, rfl⟩
  · exact .pure ⟨rfl, rfl⟩

theorem agree_constructorsOf (type : TypeRef) :
    Agree w Eq (constructorsOf type) (constructorsOf type) := by
  cases type with
  | declared decl =>
      refine .bind (agree_declaredType decl) fun o o' ho => ?_
      rw [ho.1, ho.2]
      split
      · rename_i t ht
        obtain ⟨d, hd, ht⟩ := Option.bind_eq_some_iff.mp ht
        refine .same (.mapM_eq fun c hc => agree_definitionOf_eq ?_) fun _ => .pure rfl
        rw [kind_of_mem_constructors hd ht hc]
        simp
      · exact .pure rfl
  | _ => exact .pure rfl

theorem methods_of_keyed {ds ds' : List Definition}
    (h : ds.map (Definition.keyed w) = ds'.map (Definition.keyed w)) :
    (ds.filter fun d => d.method?.isSome) = ds'.filter fun d => d.method?.isSome := by
  have hfix : ∀ ds : List Definition, ((ds.filter fun d => d.method?.isSome).map (Definition.keyed w)) =
      ds.filter fun d => d.method?.isSome := by
    intro ds
    refine (List.map_congr_left fun d hd => ?_).trans (List.map_id _)
    have hmethod := List.of_mem_filter hd
    cases d with
    | ofNamespace => cases hmethod
    | _ => rfl
  rw [← hfix, map_keyed_filter (fun d => by rw [d.method?_keyed]) h, hfix]

theorem agree_malformed (n : NodeId) : Agree w (Meaning.Alike w) (malformed n) (malformed n) :=
  .forest (.pure (.refl _))

theorem alike_elementMeaning {m m' : Meaning} (hm : m.Alike w m') :
    Meaning.Alike w (elementMeaning m) (elementMeaning m') := by
  cases Meaning.keyed_eq_iff.mp hm.keyed with
  | member hds type =>
      cases type with
      | none => exact .refl _
      | some type =>
          cases type with
          | array element rank => exact hm.retyped element
          | _ => exact .refl _
  | unknown | error => exact hm
  | _ => exact .refl _

namespace Answers.Steady

variable (h : answers.Steady w)

include h

/-! ## Type nodes -/

theorem resolveType (n : NodeId) {ss ss' : List Scope}
    (hss : ss.map (Scope.keyed w) = ss'.map (Scope.keyed w)) :
    Agree w (Meaning.Alike w) (resolveType answers n ss) (resolveType answers n ss') := by
  refine .read ?_
  dsimp only
  split
  · exact h.memberOf rfl
  · split
    · exact agree_malformed n
    · refine .bind (h.lookup rfl rfl Definition.isTypeLike_keyed hss) fun ds ds' hds => ?_
      exact .ite (by rw [isEmpty_of_map_eq hds]) (fun _ => h.memberOr _ rfl) fun _ => h.memberOf hds
  · split
    · refine .bind (h.type _ hss) fun m m' hm => ?_
      obtain ⟨hnone, hnone'⟩ | ⟨s, s', hs, hs', hkeyed⟩ := hm.scope?_cases
      · rw [hnone, hnone']
        exact .same (.pure rfl) fun _ => h.memberOr _ rfl
      · rw [hs, hs']
        refine .bind (h.lookupIn _ hkeyed) fun ds ds' hds => h.memberOr _ ?_
        exact map_keyed_filter Definition.isTypeLike_keyed hds
    · exact agree_malformed n
  · split
    · exact agree_malformed n
    · refine .bind (h.type _ hss) fun m m' hm => ?_
      cases Meaning.keyed_eq_iff.mp hm.keyed with
      | member hds type =>
          cases type with
          | none => exact .pure hm
          | some type => exact .pure (hm.retyped _)
      | _ => exact .pure hm
  · split
    · exact agree_malformed n
    · refine .bind (h.type _ hss) fun m m' hm => ?_
      cases Meaning.keyed_eq_iff.mp hm.keyed with
      | member hds type => exact .pure (.untyped hds)
      | _ => exact .pure hm
  · exact .pure (.refl _)

/-! ## Expressions -/

section

variable (n : NodeId) {ss ss' : List Scope} (hss : ss.map (Scope.keyed w) = ss'.map (Scope.keyed w))

include hss

theorem resolveChild (t : Title) :
    Agree w (Meaning.Alike w) (resolveChild answers n t ss) (resolveChild answers n t ss') := by
  refine .forest ?_
  split
  · exact h.expression _ hss
  · exact agree_malformed n

theorem resolveArguments :
    AgreeBy w (List.map (Meaning.keyed w)) (resolveArguments answers n ss)
      (resolveArguments answers n ss') := by
  refine .forest ((Agree.mapM fun a _ => h.expression a hss).imp fun ms ms' hms => ?_)
  exact map_eq_of_forall₂ (hms.imp fun _ _ hm => hm.keyed)

theorem resolveCall :
    Agree w (Meaning.Alike w) (resolveCall answers n ss) (resolveCall answers n ss') := by
  refine .bind (h.resolveChild n hss _) fun target target' htarget => ?_
  refine .bind (h.resolveArguments n hss) fun ms ms' hms => ?_
  cases Meaning.keyed_eq_iff.mp htarget.keyed with
  | member hds type =>
      dsimp only
      rw [methods_of_keyed hds]
      refine .ite .rfl (fun _ => h.pickOverload _ hms) fun _ => ?_
      exact .ite .rfl (fun _ => .pure (alike_elementMeaning htarget)) fun _ => .pure (.refl _)
  | unknown | error => exact .pure htarget
  | _ => exact .pure (.refl _)

theorem resolveCreation :
    Agree w (Meaning.Alike w) (resolveCreation answers n ss) (resolveCreation answers n ss') := by
  refine .forest ?_
  split
  · exact agree_malformed n
  · refine .bind (h.type _ hss) fun created created' hcreated => ?_
    rw [← hcreated.type?]
    split
    · exact .pure hcreated
    · rename_i type htype
      rw [← hcreated.definition?_of_typed htype]
      refine .bind (h.resolveArguments n hss) fun ms ms' hms => ?_
      refine .same (agree_constructorsOf type) fun constructors => ?_
      have hcall : ∀ d, Meaning.Alike w (.call d ms (some type)) (.call d ms' (some type)) :=
        fun d => ⟨Meaning.keyed_eq_iff.mpr (.call rfl hms _), fun _ => rfl⟩
      refine .ite .rfl (fun _ => ?_) fun _ => ?_
      · refine .ite (by rw [isEmpty_of_map_eq hms]) (fun _ => .pure ?_) fun _ => .pure (hcall none)
        rw [show ms.length = ms'.length by simpa using congrArg List.length hms]
        exact .refl _
      · refine .bind (h.pickOverload constructors hms) fun m m' hm => ?_
        cases Meaning.keyed_eq_iff.mp hm.keyed with
        | call hd hargs t =>
            exact .pure ⟨Meaning.keyed_eq_iff.mpr (.call hd hargs _), fun _ => hm.definition (by simp)⟩
        | _ => exact .pure hm

theorem resolveConditional :
    Agree w (Meaning.Alike w) (resolveConditional answers n ss) (resolveConditional answers n ss') := by
  refine .bind (h.resolveChild n hss _) fun m m' hm => .same (h.constant hm.keyed) fun value => ?_
  split
  · exact h.resolveChild n hss _
  · exact h.resolveChild n hss _
  · exact .pure (.refl _)

theorem resolveCast :
    Agree w (Meaning.Alike w) (resolveCast answers n ss) (resolveCast answers n ss') := by
  refine .forest ?_
  split
  · exact agree_malformed n
  · refine .bind (h.type _ hss) fun target target' htarget => ?_
    rw [← htarget.type?]
    split
    · exact .pure htarget
    · refine .bind (h.resolveChild n hss _) fun m m' hm => .pure ?_
      exact ⟨Meaning.keyed_eq_iff.mpr (.conversion _ hm.keyed), fun _ => rfl⟩

theorem resolveBinary (op : BinaryOperator) :
    Agree w (Meaning.Alike w) (resolveBinary answers n op ss) (resolveBinary answers n op ss') := by
  refine .bind (h.resolveChild n hss _) fun left left' hleft => ?_
  refine .bind (h.resolveChild n hss _) fun right right' hright => ?_
  rw [hleft.type?, hright.type?]
  refine .same (h.constant hleft.keyed) fun a => .same (h.constant hright.keyed) fun b => ?_
  split
  · split <;> exact .pure (.refl _)
  · exact .pure (.refl _)

theorem resolveUnary (op : UnaryOperator) :
    Agree w (Meaning.Alike w) (resolveUnary answers n op ss) (resolveUnary answers n op ss') := by
  refine .bind (h.resolveChild n hss _) fun m m' hm => ?_
  rw [hm.type?]
  refine .same (h.constant hm.keyed) fun value => ?_
  split
  · exact .pure (.refl _)
  · split <;> exact .pure (.refl _)

theorem resolveExpression :
    Agree w (Meaning.Alike w) (resolveExpression answers n ss) (resolveExpression answers n ss') := by
  refine .forest ?_
  split
  · exact .pure (.refl _)
  · split
    · exact .bind (h.lookup rfl rfl (fun _ => rfl) hss) fun ds ds' hds => h.memberOr _ hds
    · exact agree_malformed n
  · split
    · refine .bind (h.expression _ hss) fun m m' hm => ?_
      unfold resolveMember
      obtain ⟨hnone, hnone'⟩ | ⟨s, s', hs, hs', hkeyed⟩ := hm.scope?_cases
      · rw [hnone, hnone']
        exact .same (.pure rfl) fun _ => h.memberOr _ rfl
      · rw [hs, hs']
        exact .bind (h.lookupIn _ hkeyed) fun ds ds' hds => h.memberOr _ hds
    · exact agree_malformed n
  · exact h.resolveCall n hss
  · exact .bind (h.resolveChild n hss _) fun m m' hm => .pure (alike_elementMeaning hm)
  · exact h.resolveBinary n hss _
  · exact h.resolveUnary n hss _
  · exact h.resolveChild n hss _
  · exact h.resolveChild n hss _
  · exact h.resolveChild n hss _
  · exact h.resolveConditional n hss
  · exact h.resolveCast n hss
  · exact h.resolveCast n hss
  · split
    · exact h.type _ hss
    · exact agree_malformed n
  · rw [Scope.enclosingType?_keyed hss]
    exact .pure (.refl _)
  · rw [Scope.enclosingType?_keyed hss]
    split
    · exact .same (h.baseClass _) fun _ => .pure (.refl _)
    · exact .pure (.refl _)
  · exact h.resolveCreation n hss
  · exact h.type n hss
  · exact h.type n hss
  · exact h.type n hss
  · exact h.type n hss
  · exact h.type n hss
  · split <;> exact .pure (.refl _)

end

/-! ## Constants -/

theorem constantOf {m m' : Meaning} (hm : m.keyed w = m'.keyed w) :
    Agree w Eq (constantOf answers m) (constantOf answers m') := by
  fun_induction Semantics.constantOf answers m generalizing m' with
  | case1 value type =>
      cases Meaning.keyed_eq_iff.mp hm
      exact .pure rfl
  | case2 d type decl initializer hdecl =>
      cases Meaning.keyed_eq_iff.mp hm with
      | member hds =>
          obtain ⟨_, hd, rfl⟩ | ⟨n, n', hd, rfl⟩ | ⟨hne, -⟩ := Definition.single_cases hds
          · cases hd
            rw [Semantics.constantOf, hdecl]
            exact .guarded rfl (.bind (h.meaningAt initializer) fun _ _ hm => h.constant hm.keyed)
          · cases hd
            cases hdecl
          · exact absurd rfl (hne d)
  | case3 d type hdecl =>
      cases Meaning.keyed_eq_iff.mp hm with
      | member hds =>
          obtain ⟨_, hd, rfl⟩ | ⟨n, n', hd, rfl⟩ | ⟨hne, -⟩ := Definition.single_cases hds
          · cases hd
            rw [Semantics.constantOf, hdecl]
            exact .pure rfl
          · exact .pure rfl
          · exact absurd rfl (hne d)
  | case4 t operand ih =>
      cases Meaning.keyed_eq_iff.mp hm with
      | conversion _ hoperand => exact .same (ih hoperand) fun _ => .pure rfl
  | case5 m hconstant hmember hconversion =>
      cases Meaning.keyed_eq_iff.mp hm with
      | member hds type =>
          obtain ⟨d, rfl, -⟩ | ⟨n, n', rfl, -⟩ | ⟨-, hne⟩ := Definition.single_cases hds
          · exact absurd rfl (hmember d type)
          · exact absurd rfl (hmember _ type)
          · rw [Semantics.constantOf]
            · exact .pure rfl
            · simp
            · intro d t heq
              exact hne d (Meaning.member.inj heq).1
            · simp
      | constant value type => exact absurd rfl (hconstant value type)
      | conversion type hoperand =>
          cases type with
          | known t => exact absurd rfl (hconversion t _)
          | _ => exact .pure rfl
      | _ => exact .pure rfl

end Answers.Steady

theorem steady_answersUpTo (fuel : Nat) : (answersUpTo fuel).Steady w := by
  induction fuel with
  | zero => exact ⟨fun _ _ _ _ => .failure, fun _ _ _ _ => .failure, fun _ => .failure⟩
  | succ fuel ih =>
      exact ⟨fun n _ _ hss => ih.resolveType n hss, fun n _ _ hss => ih.resolveExpression n hss,
        fun hm => ih.constantOf hm⟩

/-- All answers about a forest are the same up to spellings. -/
theorem steady_answersFor (f : Forest) : (answersFor f).Steady w := steady_answersUpTo _

end Semantics

end DualSyntax
