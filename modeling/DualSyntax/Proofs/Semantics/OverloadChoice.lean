import DualSyntax.Proofs.Semantics.Conversions

/-!
# The choice of an overload

Which methods accept arguments is said without regard to how it is worked out: there are as many
arguments as the method takes, and each suits its parameter.  The method that a call means is then the
only one among the candidates that does, or the only one with exactly the types of the arguments; so it
depends neither on the order of the candidates nor on those that do not accept the arguments.
-/

namespace DualSyntax.Semantics

variable {w : World} {active : List (Aspect × NodeId)}

theorem typesReady_answersFor (hf : w.forest.WellLinked) (active : List (Aspect × NodeId)) :
    TypesReady w active (answersFor w.forest) :=
  ⟨hf, settlesBases_answersFor hf active, (settles_answersFor hf active).1⟩

/-! ## Arguments and parameters -/

def parameterType (w : World) (active : List (Aspect × NodeId)) (p : ParameterDef) : Option TypeRef :=
  (answer? w active (typeAt? (answersFor w.forest) p.type)).join

/-- An argument suits a parameter if it converts to its type or, where the parameter takes any number
of arguments, to that of its elements.  Where a type is not known, nothing is asked. -/
def Suits (w : World) (active : List (Aspect × NodeId)) (argument : Option TypeRef)
    (p : ParameterDef) : Prop :=
  ∀ a t, argument = some a → parameterType w active p = some t →
    Converts w active a t ∨
      p.modifier = .params ∧ ∃ element rank, t = .array element rank ∧ Converts w active a element

def Matches (w : World) (active : List (Aspect × NodeId)) (argument : Option TypeRef)
    (p : ParameterDef) : Prop :=
  ∃ t, argument = some t ∧ parameterType w active p = some t

/-- Every argument is related to its parameter; the arguments after the last parameter belong to it. -/
def EachArgument (r : Option TypeRef → ParameterDef → Prop) (last : Option ParameterDef)
    (arguments : List (Option TypeRef)) (ps : List ParameterDef) : Prop :=
  ∀ (i : Nat) argument, arguments[i]? = some argument →
    ∃ p, ps[i]?.or last = some p ∧ r argument p

structure Accepts (w : World) (active : List (Aspect × NodeId)) (m : MethodDef)
    (arguments : List (Option TypeRef)) : Prop where
  least : m.arity.1 ≤ arguments.length
  most : ∀ most ∈ m.arity.2, arguments.length ≤ most
  suits : EachArgument (Suits w active) m.parameters.getLast? arguments m.parameters

/-- All arguments of a method have exactly the types of their parameters. -/
def MatchesAll (w : World) (active : List (Aspect × NodeId)) (m : MethodDef)
    (arguments : List (Option TypeRef)) : Prop :=
  EachArgument (Matches w active) m.parameters.getLast? arguments m.parameters

theorem eachArgument_cons {r : Option TypeRef → ParameterDef → Prop} {last : Option ParameterDef}
    {argument : Option TypeRef} {arguments : List (Option TypeRef)} {ps : List ParameterDef} :
    EachArgument r last (argument :: arguments) ps ↔
      (∃ p, ps.head?.or last = some p ∧ r argument p) ∧ EachArgument r last arguments ps.tail := by
  constructor
  · intro h
    refine ⟨?_, fun i a ha => ?_⟩
    · rw [List.head?_eq_getElem?]
      exact h 0 argument rfl
    · rw [List.getElem?_tail]
      exact h (i + 1) a ha
  · rintro ⟨hhead, hrest⟩ i a ha
    cases i with
    | zero =>
        cases ha
        rwa [List.head?_eq_getElem?] at hhead
    | succ i =>
        rw [← List.getElem?_tail]
        exact hrest i a ha

theorem hasAnswer_parameterType (hf : w.forest.WellLinked) (p : ParameterDef) :
    HasAnswer w active (typeAt? (answersFor w.forest) p.type) (parameterType w active p) := by
  have hsettles := settles_typeAt? (typesReady_answersFor hf active).types p.type
  obtain ⟨t, ht, -⟩ := hsettles.exists_hasAnswer ((steady_answersFor w.forest).typeAt? p.type)
  rw [parameterType, ht.answer?_eq, Option.join_some]
  exact ht

/-! ## How well arguments fit -/

theorem ensures_typeFit (hf : w.forest.WellLinked) (modifier : ParameterModifier)
    (argument type : TypeRef) :
    Ensures w active (typeFit (answersFor w.forest) modifier argument type) fun fit =>
      fit.Says (Converts w active argument type ∨
        modifier = .params ∧ ∃ element rank, type = .array element rank ∧
          Converts w active argument element) (argument = type) := by
  refine .bind (ensures_conversion hf argument type) fun fit hfit => ?_
  split
  · rename_i element rank
    have hnot : ¬ Converts w active argument (.array element rank) := by
      rw [← hfit.possible]
      simp
    have hne : ¬ argument = .array element rank := by
      rw [← hfit.exact]
      simp
    refine .bind (ensures_conversion hf argument element) fun fit' hfit' => .pure (.implicitIf ?_ hne)
    rw [bne_iff_ne, hfit'.possible]
    simp [hnot]
  · rename_i hparams
    refine .pure ⟨hfit.possible.trans ⟨.inl, fun h => ?_⟩, hfit.exact⟩
    rcases h with h | ⟨rfl, element, rank, rfl, -⟩
    · exact h
    · rw [← hfit.possible]
      intro hnone
      exact hparams element rank hnone rfl rfl

theorem ensures_argumentFit (hf : w.forest.WellLinked) (argument : Option TypeRef) (p : ParameterDef) :
    Ensures w active (argumentFit (answersFor w.forest) argument p)
      fun fit => fit.Says (Suits w active argument p) (Matches w active argument p) := by
  refine .bind (hasAnswer_parameterType hf p).ensures fun type htype => ?_
  subst htype
  split
  · rename_i a t htype
    refine (ensures_typeFit hf p.modifier a t).mono fun fit hfit => ⟨?_, ?_⟩
    · rw [hfit.possible, Suits, htype]
      simp
    · rw [hfit.exact, Matches, htype]
      simp [eq_comm]
  · rename_i hunknown
    refine .pure (.ofImplicit (fun a t ha ht => ?_) ?_)
    · exact absurd ht (hunknown a t ha)
    · rintro ⟨t, ha, ht⟩
      exact hunknown t t ha ht

theorem ensures_argumentsFit (hf : w.forest.WellLinked) (last : Option ParameterDef)
    (arguments : List (Option TypeRef)) (ps : List ParameterDef) :
    Ensures w active (argumentsFit (answersFor w.forest) last arguments ps)
      fun fit => fit.Says (EachArgument (Suits w active) last arguments ps)
        (EachArgument (Matches w active) last arguments ps) := by
  induction arguments generalizing ps with
  | nil => exact .pure (.ofExact (by simp [EachArgument]) (by simp [EachArgument]))
  | cons argument arguments ih =>
      rw [eachArgument_cons, eachArgument_cons]
      unfold argumentsFit
      cases hp : ps.head?.or last with
      | none => exact .pure (.ofNone (by simp) (by simp))
      | some p =>
          simp only [Option.some.injEq, exists_eq_left']
          refine .bind (ensures_argumentFit hf argument p) fun fit hfit => ?_
          split
          · have hsuits : ¬ Suits w active argument p := by
              rw [← hfit.possible]
              simp
            have hmatches : ¬ Matches w active argument p := by
              rw [← hfit.exact]
              simp
            exact .pure (.ofNone (fun h => hsuits h.1) fun h => hmatches h.1)
          · rename_i hsuits
            have hsuits : Suits w active argument p := hfit.possible.mp hsuits
            refine .bind (ih ps.tail) fun rest hrest => ?_
            split
            · refine .pure (.ofNone (fun h => ?_) fun h => ?_)
              · exact hrest.possible.mpr h.2 rfl
              · exact absurd (hrest.exact.mpr h.2) (by simp)
            · rename_i hmore
              have hmore := hrest.possible.mp hmore
              by_cases hexact : fit = .exact
              · rw [if_pos hexact]
                have hmatches := hfit.exact.mp hexact
                exact .pure ⟨by simp [hrest.possible, hsuits], by simp [hrest.exact, hmatches]⟩
              · rw [if_neg hexact]
                exact .pure (.ofImplicit ⟨hsuits, hmore⟩ fun h => hexact (hfit.exact.mpr h.1))

/-- How well a method accepts arguments says whether it does, and whether all types are the same. -/
theorem ensures_applicability (hf : w.forest.WellLinked) (m : MethodDef)
    (arguments : List (Option TypeRef)) :
    Ensures w active (applicability (answersFor w.forest) m arguments) fun fit =>
      fit.Says (Accepts w active m arguments)
        (Accepts w active m arguments ∧ MatchesAll w active m arguments) := by
  have hcount : (decide (arguments.length < m.arity.1) ||
      m.arity.2.any (decide <| · < arguments.length)) = true ↔
      ¬ (m.arity.1 ≤ arguments.length ∧ ∀ most ∈ m.arity.2, arguments.length ≤ most) := by
    cases m.arity.2 <;> simp [Classical.or_iff_not_imp_left]
  refine .ite (fun h => ?_) fun h => ?_
  · have hnot : ¬ Accepts w active m arguments :=
      fun haccepts => hcount.mp h ⟨haccepts.least, haccepts.most⟩
    exact .pure (.ofNone hnot fun h => hnot h.1)
  · have h := not_not.mp (mt hcount.mpr h)
    have haccepts : Accepts w active m arguments ↔
        EachArgument (Suits w active) m.parameters.getLast? arguments m.parameters :=
      ⟨Accepts.suits, fun hsuits => ⟨h.1, h.2, hsuits⟩⟩
    refine (ensures_argumentsFit hf _ arguments m.parameters).mono fun fit hfit => ⟨?_, ?_⟩
    · rw [hfit.possible, haccepts]
    · refine hfit.exact.trans ⟨fun hexact => ⟨?_, hexact⟩, And.right⟩
      rw [haccepts, ← hfit.possible, hfit.exact.mpr hexact]
      simp

/-! ## The methods that accept arguments -/

def methodFit (w : World) (active : List (Aspect × NodeId)) (arguments : List (Option TypeRef))
    (m : MethodDef) : Fit :=
  (answer? w active (applicability (answersFor w.forest) m arguments)).getD .none

/-- How well a definition accepts arguments; only methods do. -/
def overloadFit (w : World) (active : List (Aspect × NodeId)) (arguments : List (Option TypeRef))
    (d : Definition) : Fit :=
  d.method?.elim .none (methodFit w active arguments)

def accepting (w : World) (active : List (Aspect × NodeId)) (arguments : List (Option TypeRef))
    (ds : List Definition) : List Definition :=
  ds.filter (overloadFit w active arguments · ≠ .none)

/-- Those of them whose parameters have exactly the types of the arguments. -/
def matching (w : World) (active : List (Aspect × NodeId)) (arguments : List (Option TypeRef))
    (ds : List Definition) : List Definition :=
  (accepting w active arguments ds).filter (overloadFit w active arguments · = .exact)

theorem hasAnswer_methodFit (hf : w.forest.WellLinked) (arguments : List (Option TypeRef))
    (m : MethodDef) : HasAnswer w active (applicability (answersFor w.forest) m arguments)
      (methodFit w active arguments m) := by
  have hsettles := settles_applicability (typesReady_answersFor hf active) m arguments
  obtain ⟨fit, hfit, -⟩ :=
    hsettles.exists_hasAnswer ((steady_answersFor w.forest).applicability m arguments)
  rw [methodFit, hfit.answer?_eq, Option.getD_some]
  exact hfit

theorem methodFit_spec (hf : w.forest.WellLinked) (arguments : List (Option TypeRef)) (m : MethodDef) :
    (methodFit w active arguments m).Says (Accepts w active m arguments)
      (Accepts w active m arguments ∧ MatchesAll w active m arguments) :=
  (hasAnswer_methodFit hf arguments m).of_ensures (ensures_applicability hf m arguments)

theorem accepting_cons (arguments : List (Option TypeRef)) (d : Definition) (ds : List Definition) :
    accepting w active arguments (d :: ds) =
      if overloadFit w active arguments d = .none then accepting w active arguments ds
      else d :: accepting w active arguments ds := by
  by_cases hd : overloadFit w active arguments d = .none <;> simp [accepting, hd]

theorem hasAnswer_applicable (hf : w.forest.WellLinked) (arguments : List (Option TypeRef))
    (ds : List Definition) :
    HasAnswer w active (applicable (answersFor w.forest) arguments ds)
      ((accepting w active arguments ds).map fun d => (d, overloadFit w active arguments d)) := by
  induction ds with
  | nil => exact .pure []
  | cons d ds ih =>
      rw [accepting_cons]
      unfold applicable
      cases hm : d.method? with
      | some m =>
          have hd : overloadFit w active arguments d = methodFit w active arguments m := by
            rw [overloadFit, hm, Option.elim_some]
          refine .bind (hasAnswer_methodFit hf arguments m) (.bind ih ?_)
          rw [← hd]
          split <;> exact .pure _
      | none =>
          have hd : overloadFit w active arguments d = .none := by
            rw [overloadFit, hm, Option.elim_none]
          refine .bind (.pure Fit.none) (.bind ih ?_)
          rw [if_pos rfl, if_pos hd]
          exact .pure _

/-! ## The choice -/

/-- A definition is chosen: it alone accepts the arguments, or alone has exactly their types. -/
def Chosen (w : World) (active : List (Aspect × NodeId)) (arguments : List (Option TypeRef))
    (ds : List Definition) (d : Definition) : Prop :=
  accepting w active arguments ds = [d] ∨ matching w active arguments ds = [d]

section Choice

variable {arguments : List (Option TypeRef)} {ds ds' : List Definition} {d d' : Definition}

theorem Chosen.accepts (hf : w.forest.WellLinked) (h : Chosen w active arguments ds d) :
    ∃ m, d = .ofMethod m ∧ Accepts w active m arguments := by
  have hd : d ∈ accepting w active arguments ds := by
    rcases h with h | h
    · simp [h]
    · have hd : d ∈ matching w active arguments ds := by simp [h]
      exact List.mem_of_mem_filter hd
  have hfit : overloadFit w active arguments d ≠ .none := by
    simpa using List.of_mem_filter hd
  cases d with
  | ofMethod m => exact ⟨m, rfl, (methodFit_spec hf arguments m).possible.mp hfit⟩
  | _ => exact absurd rfl hfit

theorem matchesAll_of_mem_matching (hf : w.forest.WellLinked) {m : MethodDef}
    (h : .ofMethod m ∈ matching w active arguments ds) : MatchesAll w active m arguments := by
  have hfit : overloadFit w active arguments (.ofMethod m) = .exact := by
    simpa using List.of_mem_filter h
  exact ((methodFit_spec hf arguments m).exact.mp hfit).2

theorem Chosen.unique (h : Chosen w active arguments ds d) (h' : Chosen w active arguments ds d') :
    d = d' := by
  have hmixed : ∀ {a b}, accepting w active arguments ds = [a] →
      matching w active arguments ds = [b] → b = a := by
    intro a b ha hb
    have hmem : b ∈ matching w active arguments ds := by simp [hb]
    rw [matching, ha] at hmem
    exact List.mem_singleton.mp (List.mem_of_mem_filter hmem)
  rcases h with h | h <;> rcases h' with h' | h'
  · exact (List.cons.inj (h.symm.trans h')).1
  · exact (hmixed h h').symm
  · exact hmixed h' h
  · exact (List.cons.inj (h.symm.trans h')).1

/-- What is chosen depends neither on the order of the definitions nor on those that do not accept the
arguments. -/
theorem Chosen.perm (h : (accepting w active arguments ds).Perm (accepting w active arguments ds'))
    (hd : Chosen w active arguments ds d) : Chosen w active arguments ds' d := by
  rcases hd with hd | hd
  · refine .inl (List.perm_singleton.mp ?_)
    rw [← hd]
    exact h.symm
  · refine .inr (List.perm_singleton.mp ?_)
    rw [← hd]
    exact (h.filter _).symm

end Choice

theorem hasAnswer_callOf (hf : w.forest.WellLinked) (active : List (Aspect × NodeId))
    (arguments : List Meaning) (d : Definition) :
    ∃ type, HasAnswer w active (callOf (answersFor w.forest) arguments d)
      (.call (some d) arguments type) := by
  unfold callOf
  split
  · rename_i m hm
    have hsettles := settles_returnType (typesReady_answersFor hf active).types m
    obtain ⟨type, htype, -⟩ := hsettles.exists_hasAnswer ((steady_answersFor w.forest).returnType m)
    exact ⟨type, .bind htype (.pure _)⟩
  · exact ⟨none, .pure _⟩

theorem map_matching (w : World) (active : List (Aspect × NodeId))
    (arguments : List (Option TypeRef)) (ds : List Definition) :
    ((accepting w active arguments ds).map fun d => (d, overloadFit w active arguments d)).filter
        (·.2 == .exact) =
      (matching w active arguments ds).map fun d => (d, overloadFit w active arguments d) := by
  rw [List.filter_map, matching]
  congr 2

/-- What a call of one of several methods comes to: a call of the one that is chosen, or an error. -/
def ComesTo (w : World) (active : List (Aspect × NodeId)) (arguments : List Meaning)
    (ds : List Definition) (meaning : Meaning) : Prop :=
  (∃ d, Chosen w active (arguments.map Meaning.type?) ds d ∧
    HasAnswer w active (callOf (answersFor w.forest) arguments d) meaning) ∨
  (∀ d, ¬ Chosen w active (arguments.map Meaning.type?) ds d) ∧
    ∃ message candidates, meaning = .error message candidates

theorem exists_call (hf : w.forest.WellLinked) {arguments : List Meaning} {ds : List Definition}
    {d : Definition} (h : Chosen w active (arguments.map Meaning.type?) ds d) :
    ∃ meaning, HasAnswer w active (callOf (answersFor w.forest) arguments d) meaning ∧
      ComesTo w active arguments ds meaning := by
  obtain ⟨type, htype⟩ := hasAnswer_callOf hf active arguments d
  exact ⟨_, htype, .inl ⟨d, h, htype⟩⟩

theorem exists_pickOverload (hf : w.forest.WellLinked) (active : List (Aspect × NodeId))
    (arguments : List Meaning) (ds : List Definition) :
    ∃ meaning, HasAnswer w active (pickOverload (answersFor w.forest) ds arguments) meaning ∧
      ComesTo w active arguments ds meaning := by
  refine (hasAnswer_applicable hf (arguments.map Meaning.type?) ds).exists_bind ?_
  cases haccepting : accepting w active (arguments.map Meaning.type?) ds with
  | nil =>
      refine ⟨_, .pure _, .inr ⟨fun d hd => ?_, _, _, rfl⟩⟩
      rcases hd with hd | hd
      · simp [haccepting] at hd
      · simp [matching, haccepting] at hd
  | cons d rest =>
      cases rest with
      | nil => exact exists_call hf (.inl haccepting)
      | cons d' rest =>
          have hnotOnly : ∀ a, accepting w active (arguments.map Meaning.type?) ds ≠ [a] := by
            simp [haccepting]
          have hexact := map_matching w active (arguments.map Meaning.type?) ds
          rw [haccepting] at hexact
          rw [hexact]
          cases hmatching : matching w active (arguments.map Meaning.type?) ds with
          | nil =>
              refine ⟨_, .pure _, .inr ⟨fun a ha => ?_, _, _, rfl⟩⟩
              rcases ha with ha | ha
              · exact hnotOnly a ha
              · simp [hmatching] at ha
          | cons e more =>
              cases more with
              | nil => exact exists_call hf (.inr hmatching)
              | cons e' more =>
                  refine ⟨_, .pure _, .inr ⟨fun a ha => ?_, _, _, rfl⟩⟩
                  rcases ha with ha | ha
                  · exact hnotOnly a ha
                  · simp [hmatching] at ha

/-- In a forest whose links agree, whatever spellings are remembered and whatever is being worked out,
candidates of which the same accept the arguments, in whatever order and among whatever others, come to
a call of the same method with the same type or to an error in both cases.  What is called is a method
that accepts the arguments, and either no other candidate does or it alone has exactly their types; and
if there is such a method then it is called. -/
theorem overload_choice {f : Forest} (hf : f.WellLinked) (caseSensitive : Bool)
    (active : List (Aspect × NodeId)) (arguments : List Meaning) {candidates candidates' : List Definition}
    (hsame : (accepting ⟨f, caseSensitive⟩ active (arguments.map Meaning.type?) candidates).Perm
      (accepting ⟨f, caseSensitive⟩ active (arguments.map Meaning.type?) candidates')) :
    ∃ meaning meaning',
      HasAnswer ⟨f, caseSensitive⟩ active (pickOverload (answersFor f) candidates arguments) meaning ∧
      HasAnswer ⟨f, caseSensitive⟩ active (pickOverload (answersFor f) candidates' arguments) meaning' ∧
      ((∃ d type, meaning = .call (some d) arguments type ∧ meaning' = .call (some d) arguments type) ∨
        (∃ message ds, meaning = .error message ds) ∧ ∃ message ds, meaning' = .error message ds) ∧
      (∀ d arguments' type, meaning = .call d arguments' type → ∃ m, d = some (.ofMethod m) ∧
        Accepts ⟨f, caseSensitive⟩ active m (arguments.map Meaning.type?) ∧
        (accepting ⟨f, caseSensitive⟩ active (arguments.map Meaning.type?) candidates = [.ofMethod m] ∨
          MatchesAll ⟨f, caseSensitive⟩ active m (arguments.map Meaning.type?) ∧
          matching ⟨f, caseSensitive⟩ active (arguments.map Meaning.type?) candidates =
            [.ofMethod m])) ∧
      ∀ d, Chosen ⟨f, caseSensitive⟩ active (arguments.map Meaning.type?) candidates d →
        ∃ type, meaning = .call (some d) arguments type := by
  obtain ⟨meaning, hmeaning, hcomes⟩ :=
    exists_pickOverload (w := ⟨f, caseSensitive⟩) hf active arguments candidates
  obtain ⟨meaning', hmeaning', hcomes'⟩ :=
    exists_pickOverload (w := ⟨f, caseSensitive⟩) hf active arguments candidates'
  refine ⟨meaning, meaning', hmeaning, hmeaning', ?_⟩
  rcases hcomes with ⟨d, hd, hcall⟩ | ⟨hnone, message, ds, rfl⟩
  · obtain ⟨type, htype⟩ := hasAnswer_callOf (w := ⟨f, caseSensitive⟩) hf active arguments d
    obtain rfl := hcall.unique htype
    rcases hcomes' with ⟨d', hd', hcall'⟩ | ⟨hnone, -⟩
    · obtain rfl := (hd.perm hsame).unique hd'
      obtain rfl := hcall'.unique htype
      refine ⟨.inl ⟨d, type, rfl, rfl⟩, fun _ _ _ h => ?_, fun a ha => ⟨type, by rw [hd.unique ha]⟩⟩
      cases h
      obtain ⟨m, rfl, haccepts⟩ := hd.accepts hf
      refine ⟨m, rfl, haccepts, hd.imp id fun hmatching => ⟨?_, hmatching⟩⟩
      exact matchesAll_of_mem_matching (w := ⟨f, caseSensitive⟩) hf (by rw [hmatching]; simp)
    · exact absurd (hd.perm hsame) (hnone d)
  · rcases hcomes' with ⟨d', hd', -⟩ | ⟨-, message', ds', rfl⟩
    · exact absurd (hd'.perm hsame.symm) (hnone d')
    · refine ⟨.inr ⟨⟨message, ds, rfl⟩, message', ds', rfl⟩, fun _ _ _ h => ?_, fun d hd => ?_⟩
      · cases h
      · exact absurd hd (hnone d)

/-- A method without a result whose parameters are of the types that some nodes denote. -/
def methodTaking (types : List NodeId) : Definition :=
  .ofMethod ⟨"F", 0, none, types.map fun n => ⟨"x", n, some n, .none, false⟩, 0, false⟩

/-- The first of two classes that inherit from each other is given to a method that takes it and to one
that takes the other, before and after they are exchanged and one is added that takes two. -/
theorem overload_choice_mutualBases :
    mutualBases.WellLinked ∧
    (accepting ⟨mutualBases, true⟩ [] [some (.declared 1)] [methodTaking [3], methodTaking [7]]).Perm
      (accepting ⟨mutualBases, true⟩ [] [some (.declared 1)]
        [methodTaking [7], methodTaking [7, 7], methodTaking [3]]) ∧
    ∃ meaning,
      HasAnswer ⟨mutualBases, true⟩ [] (pickOverload (answersFor mutualBases)
        [methodTaking [3], methodTaking [7]] [.this (some (.declared 1))]) meaning ∧
      HasAnswer ⟨mutualBases, true⟩ [] (pickOverload (answersFor mutualBases)
        [methodTaking [7], methodTaking [7, 7], methodTaking [3]] [.this (some (.declared 1))]) meaning ∧
      meaning.definition? = some (methodTaking [7]) := by
  have hlinked : mutualBases.WellLinked := Forest.WellLinked.empty.performAll _
  have hsame : (accepting ⟨mutualBases, true⟩ [] [some (.declared 1)]
      [methodTaking [3], methodTaking [7]]).Perm
        (accepting ⟨mutualBases, true⟩ [] [some (.declared 1)]
          [methodTaking [7], methodTaking [7, 7], methodTaking [3]]) := by
    decide
  refine ⟨hlinked, hsame, ?_⟩
  have hmatching : matching ⟨mutualBases, true⟩ [] [some (.declared 1)]
      [methodTaking [3], methodTaking [7]] = [methodTaking [7]] := by
    decide
  obtain ⟨meaning, meaning', h, h', hcases, -, hchosen⟩ :=
    overload_choice hlinked true [] [.this (some (.declared 1))] hsame
  obtain ⟨type, rfl⟩ := hchosen _ (.inr hmatching)
  rcases hcases with ⟨d, type', hcall, rfl⟩ | ⟨⟨message, ds, herror⟩, -⟩
  · exact ⟨_, h, hcall ▸ h', rfl⟩
  · cases herror

end DualSyntax.Semantics
