import DualSyntax.Proofs.Semantics.Resolving

/-!
# Names that differ in case

Questions after others, and names that differ in case.
-/

namespace DualSyntax

/-!
## Questions after others

Questions are asked one after the other, and only the spellings of namespaces are remembered from one
to the next.  So the answer to a question after any others is the one to the question alone, up to the
spellings of namespaces: what is remembered while something is worked out is forgotten again.
-/

section Histories

open Semantics (World)

/-! ### Where case matters -/

section CaseSensitive

variable {w : World} (hcase : w.caseSensitive = true)

include hcase

theorem Semantics.World.key_eq_self (name : String) : w.key name = name := by
  rw [World.key, if_pos hcase]

theorem NamespaceDef.keyed_eq_self (d : NamespaceDef) : d.keyed w = d := by
  rw [keyed, World.key_eq_self hcase, World.key_eq_self hcase]

theorem Definition.keyed_eq_self (d : Definition) : d.keyed w = d := by
  cases d with
  | ofNamespace d => rw [keyed, d.keyed_eq_self hcase]
  | _ => rfl

theorem Scope.keyed_eq_self (s : Scope) : s.keyed w = s := by
  cases s with
  | ofNamespace d => rw [keyed, d.keyed_eq_self hcase]
  | _ => rfl

theorem Definition.map_keyed_eq_self (ds : List Definition) : ds.map (Definition.keyed w) = ds := by
  rw [show Definition.keyed w = id from funext (Definition.keyed_eq_self hcase), List.map_id]

end CaseSensitive

mutual

theorem Meaning.keyed_eq_self {w : World} (hcase : w.caseSensitive = true) :
    (m : Meaning) → m.keyed w = m
  | .unknown _ | .constant _ _ | .this _ | .base _ => by rw [Meaning.keyed]
  | .member ds _ | .error _ ds => by rw [Meaning.keyed, Definition.map_keyed_eq_self hcase]
  | .call none ms _ => by rw [Meaning.keyed, Meaning.keyedAll_eq_self hcase ms, Option.map_none]
  | .call (some d) ms _ => by
      rw [Meaning.keyed, Meaning.keyedAll_eq_self hcase ms, Option.map_some, d.keyed_eq_self hcase]
  | .conversion _ m => by rw [Meaning.keyed, Meaning.keyed_eq_self hcase m]

theorem Meaning.keyedAll_eq_self {w : World} (hcase : w.caseSensitive = true) :
    (ms : List Meaning) → Meaning.keyedAll w ms = ms
  | [] => rfl
  | m :: ms => by
      rw [Meaning.keyedAll, Meaning.keyed_eq_self hcase m, Meaning.keyedAll_eq_self hcase ms]

end

namespace Semantics

/-! ### Questions and answers -/

/-- A choice among definitions that does not look at the spelling of a namespace. -/
structure Filter where
  accept : Definition → Bool
  ignores_spellings : ∀ (w : World) (d : Definition), accept (d.keyed w) = accept d

/-- The questions that can be asked about a forest. -/
inductive Question where
  | meaningOf (n : NodeId)
  | meaningIn (scopes : List Scope) (n : NodeId)
  | typeMeaningIn (scopes : List Scope) (n : NodeId)
  | typeOfNode (n : NodeId)
  | typeOfDefinition (d : Definition)
  | constantValue (m : Meaning)
  | namespaceNamed (root : NodeId) (fullName : String)
  | definitionOf (n : NodeId)
  | scopeOf (n : NodeId)
  | scopesAt (n : NodeId)
  | findIn (scope : Scope) (name : String)
  | find (scopes : List Scope) (filter : Filter) (name : String)

/-- The answers to them. -/
inductive Answer where
  | meaning (m : Meaning)
  | type (t : Option TypeRef)
  | value (v : Option ConstantValue)
  | ofNamespace (d : Option NamespaceDef)
  | definition (d : Option Definition)
  | scope (s : Option Scope)
  | scopes (ss : List Scope)
  | definitions (ds : List Definition)

def Answer.keyed (w : World) : Answer → Answer
  | meaning m => meaning (m.keyed w)
  | ofNamespace d => ofNamespace (d.map (NamespaceDef.keyed w))
  | definition d => definition (d.map (Definition.keyed w))
  | scope s => scope (s.map (Scope.keyed w))
  | scopes ss => scopes (ss.map (Scope.keyed w))
  | definitions ds => definitions (ds.map (Definition.keyed w))
  | a => a

def Question.ask : Question → Ask Answer
  | meaningOf n => return .meaning (← Semantics.meaningOf n)
  | meaningIn scopes n => return .meaning (← Semantics.meaningIn scopes n)
  | typeMeaningIn scopes n => return .meaning (← Semantics.typeMeaningIn scopes n)
  | typeOfNode n => return .type (← Semantics.typeOfNode n)
  | typeOfDefinition d => return .type (← Semantics.typeOfDefinition d)
  | constantValue m => return .value (← Semantics.constantValue m)
  | namespaceNamed root fullName => return .ofNamespace (← namespaceNamed? root fullName)
  | definitionOf n => return .definition (← Semantics.definitionOf n)
  | scopeOf n => return .scope (← Semantics.scopeOf n)
  | scopesAt n => return .scopes (← Semantics.scopesAt n)
  | findIn scope name => return .definitions (← Semantics.findIn scope name)
  | find scopes filter name => return .definitions (← Semantics.find scopes filter.accept name)

/-- The answer to a question after others were asked about the same forest. -/
def answerAfter? (f : Forest) (caseSensitive : Bool) (earlier : List Question) (q : Question) :
    Option Answer :=
  f.ask? caseSensitive do
    let _ ← earlier.mapM Question.ask
    q.ask

variable {w : World}

theorem Answer.keyed_eq_self (hcase : w.caseSensitive = true) (a : Answer) : a.keyed w = a := by
  have hoption : ∀ {α : Type} {k : α → α} (_ : ∀ a, k a = a) (o : Option α), o.map k = o := by
    intro α k hk o
    rw [show k = id from funext hk, Option.map_id, id]
  cases a with
  | meaning m => rw [keyed, m.keyed_eq_self hcase]
  | ofNamespace d => rw [keyed, hoption (NamespaceDef.keyed_eq_self hcase)]
  | definition d => rw [keyed, hoption (Definition.keyed_eq_self hcase)]
  | scope s => rw [keyed, hoption (Scope.keyed_eq_self hcase)]
  | scopes ss =>
      rw [keyed, show Scope.keyed w = id from funext (Scope.keyed_eq_self hcase), List.map_id]
  | definitions ds => rw [keyed, Definition.map_keyed_eq_self hcase]
  | _ => rfl

/-- A question is answered in the same way, up to spellings, whatever spellings are remembered. -/
theorem Question.agrees (q : Question) : AgreeBy w (Answer.keyed w) q.ask q.ask := by
  have hsteady : (answersFor w.forest).Steady w := steady_answersFor w.forest
  cases q with
  | meaningOf n =>
      exact .bind (.forest (hsteady.meaningAt n)) fun _ _ hm => .pure (congrArg Answer.meaning hm.keyed)
  | meaningIn scopes n =>
      exact .bind (.forest (hsteady.expression n rfl)) fun _ _ hm =>
        .pure (congrArg Answer.meaning hm.keyed)
  | typeMeaningIn scopes n =>
      exact .bind (.forest (hsteady.type n rfl)) fun _ _ hm => .pure (congrArg Answer.meaning hm.keyed)
  | typeOfNode n => exact .same (.forest (hsteady.typeAt n)) fun _ => .pure rfl
  | typeOfDefinition d => exact .same (.forest (hsteady.typeOf d)) fun _ => .pure rfl
  | constantValue m => exact .same (.forest (hsteady.constant rfl)) fun _ => .pure rfl
  | namespaceNamed root fullName =>
      exact .bind (agree_namespaceNamed? root rfl) fun _ _ hd => .pure (congrArg Answer.ofNamespace hd)
  | definitionOf n =>
      exact .bind (agree_definitionOf n) fun _ _ hd => .pure (congrArg Answer.definition hd)
  | scopeOf n => exact .bind (agree_scopeOf n) fun _ _ hs => .pure (congrArg Answer.scope hs)
  | scopesAt n => exact .bind (agree_scopesAt n) fun _ _ hss => .pure (congrArg Answer.scopes hss)
  | findIn scope name =>
      exact .bind (.forest (hsteady.lookupIn name rfl)) fun _ _ hds =>
        .pure (congrArg Answer.definitions hds)
  | find scopes filter name =>
      exact .bind (.forest (hsteady.lookup rfl rfl (filter.ignores_spellings w) rfl)) fun _ _ hds =>
        .pure (congrArg Answer.definitions hds)

theorem settles_scopeOf (n : NodeId) : Settles w [] (scopeOf n) fun _ => True := by
  refine .forest ?_
  split
  · exact .pure trivial
  · exact .bind (settles_definitionOf n) fun _ _ => .pure trivial
  all_goals exact .pure trivial

/-- Every question has an answer, and nothing is being worked out afterwards. -/
theorem Question.settles (hf : w.forest.WellLinked) (q : Question) :
    Settles w [] q.ask fun _ => True := by
  obtain ⟨htypes, hexpressions⟩ := settles_answersFor hf []
  have hbases : SettlesBases w [] (answersFor w.forest) :=
    fun n _ _ b scopes => ((settles_answersFor hf _).1 b scopes).mono fun _ _ => trivial
  have hanswer : ∀ {α : Type} {P : α → Prop} {ask : Ask α} {make : α → Answer}, Settles w [] ask P →
      Settles w [] (do return make (← ask)) fun _ => True :=
    fun h => .bind h fun _ _ => .pure trivial
  cases q with
  | meaningOf n => exact hanswer (.forest (settles_meaningAt hexpressions n))
  | meaningIn scopes n => exact hanswer (.forest (hexpressions n scopes))
  | typeMeaningIn scopes n => exact hanswer (.forest (htypes n scopes))
  | typeOfNode n => exact hanswer (.forest (settles_typeNode htypes n))
  | typeOfDefinition d =>
      exact hanswer (.forest (settles_typeOf htypes fun _ _ _ => (settles_answersFor hf _).2))
  | constantValue m => exact hanswer (.forest (settles_constant hf [] m))
  | namespaceNamed root fullName => exact hanswer (settles_namespaceNamed? root fullName)
  | definitionOf n => exact hanswer (settles_definitionOf n)
  | scopeOf n => exact hanswer (settles_scopeOf n)
  | scopesAt n => exact hanswer (settles_scopesAt n)
  | findIn scope name => exact hanswer (.forest (settles_lookupIn hf hbases name scope))
  | find scopes filter name => exact hanswer (.forest (settles_lookup hf hbases name _ scopes))

/-! ### Histories -/

/-- One question leaves only spellings behind, and these are spellings of their keys. -/
theorem Question.step (hf : w.forest.WellLinked) (q : Question) {m : Memory} (hm : m.Spells w)
    (hactive : m.active = []) :
    ∃ answer m', q.ask w m = some (answer, m') ∧ m'.Spells w ∧ m'.active = [] := by
  obtain ⟨spellings, active⟩ := m
  subst hactive
  obtain ⟨answer, spellings', hrun, -⟩ := q.settles hf spellings
  refine ⟨answer, _, hrun, ?_, rfl⟩
  have hagrees := q.agrees _ _ (⟨rfl, hm, hm⟩ : Memory.Fits w ⟨spellings, []⟩ ⟨spellings, []⟩)
  rw [hrun] at hagrees
  cases hagrees with
  | some h => exact h.2.left

theorem questions_run (hf : w.forest.WellLinked) (qs : List Question) {m : Memory} (hm : m.Spells w)
    (hactive : m.active = []) :
    ∃ answers m', qs.mapM Question.ask w m = some (answers, m') ∧ m'.Spells w ∧ m'.active = [] := by
  induction qs generalizing m with
  | nil => exact ⟨[], m, rfl, hm, hactive⟩
  | cons q qs ih =>
      obtain ⟨answer, m₁, hrun, hm₁, hactive₁⟩ := q.step hf hm hactive
      obtain ⟨answers, m₂, hrest, hm₂, hactive₂⟩ := ih hm₁ hactive₁
      refine ⟨answer :: answers, m₂, ?_, hm₂, hactive₂⟩
      rw [List.mapM_cons]
      change (q.ask w m).bind _ = _
      rw [hrun]
      change (qs.mapM Question.ask w m₁).bind _ = _
      rw [hrest]
      rfl

/-- Whatever was asked before, a question about a forest whose links agree has an answer, and it is
the one to the question alone up to the spellings of namespaces; where case matters, it is exactly
that. -/
theorem history_changes_only_spellings {f : Forest} (hf : f.WellLinked) (caseSensitive : Bool)
    (earlier : List Question) (q : Question) :
    ∃ answer alone, answerAfter? f caseSensitive earlier q = some answer ∧
      f.ask? caseSensitive q.ask = some alone ∧
      answer.keyed ⟨f, caseSensitive⟩ = alone.keyed ⟨f, caseSensitive⟩ ∧
      (caseSensitive = true → answer = alone) := by
  have hempty : Memory.Spells ⟨f, caseSensitive⟩ {} := by simp [Memory.Spells]
  obtain ⟨answers, m, hearlier, hm, hactive⟩ := questions_run hf earlier hempty rfl
  obtain ⟨answer, m', hafter, -, -⟩ := q.step hf hm hactive
  obtain ⟨alone, m'', halone, -, -⟩ := q.step hf hempty rfl
  have hagrees := q.agrees m {} ⟨hactive, hm, hempty⟩
  rw [hafter, halone] at hagrees
  have hkeyed : answer.keyed ⟨f, caseSensitive⟩ = alone.keyed ⟨f, caseSensitive⟩ := by
    cases hagrees with
    | some h => exact h.1
  refine ⟨answer, alone, ?_, ?_, hkeyed, fun hcase => ?_⟩
  · change (((earlier.mapM Question.ask) ⟨f, caseSensitive⟩ {}).bind _).map _ = _
    rw [hearlier]
    change (q.ask ⟨f, caseSensitive⟩ m).map _ = _
    rw [hafter]
    rfl
  · change (q.ask ⟨f, caseSensitive⟩ {}).map _ = _
    rw [halone]
    rfl
  · rwa [answer.keyed_eq_self hcase, alone.keyed_eq_self hcase] at hkeyed

/-- A namespace in a second spelling, after it was asked for in a first and a base type was resolved. -/
theorem history_changes_only_spellings_mutualBases :
    mutualBases.WellLinked ∧
    ∃ answer alone,
      answerAfter? mutualBases false [.namespaceNamed 0 "System", .meaningOf 3]
        (.namespaceNamed 0 "SYSTEM") = some answer ∧
      mutualBases.ask? false (Question.ask (.namespaceNamed 0 "SYSTEM")) = some alone ∧
      answer.keyed ⟨mutualBases, false⟩ = alone.keyed ⟨mutualBases, false⟩ ∧
      (false = true → answer = alone) := by
  have hlinked : mutualBases.WellLinked := Forest.WellLinked.empty.performAll _
  exact ⟨hlinked, history_changes_only_spellings hlinked false _ _⟩

theorem namespaceNamed?_of_spelled {m : Memory} {root : NodeId} {name : String} {s : Spelling}
    (h : m.spellings.find? (fun s => s.root == root && s.key == w.key name) = some s) :
    namespaceNamed? root name w m = some (collectNamespace? w root s.name, m) := by
  have hread : ∀ {α : Type} {next : World → Ask α}, (MonadReader.read >>= next) w m = next w w m := rfl
  have hget : ∀ {α : Type} {next : Memory → Ask α}, (MonadState.get >>= next) w m = next m w m := rfl
  rw [namespaceNamed?, hread, hget, h]
  rfl

/-- The spellings do change: a namespace that is asked for in two spellings of one key is reported in
the first of them both times, though alone it is reported in the spelling of the question. -/
theorem namespace_keeps_first_spelling (f : Forest) (caseSensitive : Bool) (root : NodeId)
    {first second : String}
    (h : World.key ⟨f, caseSensitive⟩ first = World.key ⟨f, caseSensitive⟩ second) :
    f.ask? caseSensitive (namespaceNamed? root first >>= fun _ => namespaceNamed? root second) =
      some (collectNamespace? ⟨f, caseSensitive⟩ root first) ∧
    f.ask? caseSensitive (namespaceNamed? root second) =
      some (collectNamespace? ⟨f, caseSensitive⟩ root second) := by
  refine ⟨?_, rfl⟩
  have hfound : [(⟨root, World.key ⟨f, caseSensitive⟩ first, first⟩ : Spelling)].find? (fun s =>
      s.root == root && s.key == World.key ⟨f, caseSensitive⟩ second) =
        some ⟨root, World.key ⟨f, caseSensitive⟩ first, first⟩ := by
    simp [h]
  change (namespaceNamed? root second ⟨f, caseSensitive⟩
    ⟨[⟨root, World.key ⟨f, caseSensitive⟩ first, first⟩], []⟩).map _ = _
  rw [namespaceNamed?_of_spelled hfound]
  rfl

end Semantics

end Histories

/-!
## Names that differ in case

Where case does not matter, names that differ in nothing else stand for the same things at every
place, up to the spellings of namespaces.  There is one exception: the keywords of the built-in types,
which come last of all.  Those of VB are compared like names, but those of C# exactly, so a keyword that
only C# has loses its meaning when it is spelled in another case.
-/

/-- Names are the same but for case if they are the same in lower case. -/
theorem Text.sameIgnoringCase_iff {a b : String} :
    sameIgnoringCase a b = true ↔ folded a.toList = folded b.toList := by
  rw [sameIgnoringCase, beq_iff_eq, ← String.toList_inj]
  change (a.map Char.toLower).toList = (b.map Char.toLower).toList ↔ _
  rw [String.toList_map, String.toList_map, folded, folded]

namespace KnownType

theorem mem_all (t : KnownType) : t ∈ all := by cases t <;> decide

/-- Keywords of C# differ in more than case. -/
theorem csharpWord_inj {t t' : KnownType}
    (h : Text.sameIgnoringCase t.csharpWord t'.csharpWord = true) : t = t' := by
  have hall : ∀ t ∈ all, ∀ t' ∈ all,
      Text.folded t.csharpWord.toList = Text.folded t'.csharpWord.toList → t = t' := by
    decide
  exact hall t t.mem_all t' t'.mem_all (Text.sameIgnoringCase_iff.mp h)

/-- The keyword of a type in C# is not its keyword in VB, in whatever case. -/
def IsCSharpOnly (t : KnownType) : Prop :=
  Text.sameIgnoringCase t.visualBasicWord t.csharpWord = false

theorem IsCSharpOnly.ne_visualBasicWord {t : KnownType} (h : t.IsCSharpOnly) (t' : KnownType) :
    Text.sameIgnoringCase t'.visualBasicWord t.csharpWord = false := by
  have hall : ∀ t ∈ all,
      Text.folded t.visualBasicWord.toList ≠ Text.folded t.csharpWord.toList → ∀ t' ∈ all,
        Text.folded t'.visualBasicWord.toList ≠ Text.folded t.csharpWord.toList := by
    decide
  rw [IsCSharpOnly, Bool.eq_false_iff, ne_eq, Text.sameIgnoringCase_iff] at h
  rw [Bool.eq_false_iff, ne_eq, Text.sameIgnoringCase_iff]
  exact hall t t.mem_all h t' t'.mem_all

end KnownType

namespace Semantics

variable {w : World} {a b : String} {t : KnownType}

/-! ### Keywords -/

/-- The first name is a keyword that only C# has, for a certain type, and the second is not. -/
structure IsKeywordUnlike (a b : String) (t : KnownType) : Prop where
  csharpOnly : t.IsCSharpOnly
  left : a = t.csharpWord
  right : b ≠ t.csharpWord

section CaseInsensitive

variable (hcase : w.caseSensitive = false)

include hcase

theorem sameName_of_insensitive (a b : String) : w.sameName a b = Text.sameIgnoringCase a b := by
  rw [World.sameName, if_neg (by simp [hcase])]

theorem builtinWithKeyword?_csharpWord (ht : t.IsCSharpOnly) :
    builtinWithKeyword? w t.csharpWord = some (.builtin t) := by
  have hfind : KnownType.all.find? (fun t' => t'.csharpWord == t.csharpWord) = some t := by
    cases t <;> decide
  simp only [builtinWithKeyword?, sameName_of_insensitive hcase, ht.ne_visualBasicWord,
    Bool.or_false, hfind, Option.map_some]

theorem builtinWithKeyword?_recased (h : w.key a = w.key b) (hab : IsKeywordUnlike a b t) :
    builtinWithKeyword? w b = none := by
  obtain ⟨ht, rfl, hb⟩ := hab
  rw [builtinWithKeyword?, Option.map_eq_none_iff, List.find?_eq_none]
  intro t' _ hfound
  rw [← World.sameName_right h, sameName_of_insensitive hcase, ht.ne_visualBasicWord,
    Bool.or_false, beq_iff_eq] at hfound
  have hsame : w.sameName t'.csharpWord t.csharpWord = true := by
    rw [World.sameName_eq_true_iff, hfound, h]
  rw [sameName_of_insensitive hcase] at hsame
  rw [KnownType.csharpWord_inj hsame] at hfound
  exact hb hfound.symm

/-- Names that are the same are the same keyword, or one is a keyword that only C# has. -/
theorem keyword_cases (h : w.key a = w.key b) :
    builtinWithKeyword? w a = builtinWithKeyword? w b ∨
      (∃ t, IsKeywordUnlike a b t) ∨ ∃ t, IsKeywordUnlike b a t := by
  by_cases hleft : ∃ t, IsKeywordUnlike a b t
  · exact .inr (.inl hleft)
  by_cases hright : ∃ t, IsKeywordUnlike b a t
  · exact .inr (.inr hright)
  refine .inl (congrArg (Option.map _) (congrArg (KnownType.all.find? ·) (funext fun t => ?_)))
  rw [World.sameName_right h, sameName_of_insensitive hcase]
  cases hword : Text.sameIgnoringCase t.visualBasicWord b with
  | true => rw [Bool.or_true, Bool.or_true]
  | false =>
      have hcsharp : ∀ c, w.key c = w.key b → c = t.csharpWord → t.IsCSharpOnly := by
        rintro c hc rfl
        rwa [KnownType.IsCSharpOnly, ← sameName_of_insensitive hcase, World.sameName_right hc,
          sameName_of_insensitive hcase]
      rw [Bool.or_false, Bool.or_false, Bool.eq_iff_iff, beq_iff_eq, beq_iff_eq]
      refine ⟨fun ha => ?_, fun hb => ?_⟩
      · by_contra hb
        exact hleft ⟨t, hcsharp a h ha.symm, ha.symm, Ne.symm hb⟩
      · by_contra ha
        exact hright ⟨t, hcsharp b rfl hb.symm, hb.symm, Ne.symm ha⟩

end CaseInsensitive

/-! ### Lookups -/

theorem Agree.symm {α β : Type} {R : α → β → Prop} {x : Ask α} {y : Ask β} (h : Agree w R x y) :
    Agree w (fun b a => R a b) y x := by
  intro m m' hfits
  rcases rel_cases (h m' m ⟨hfits.active.symm, hfits.right, hfits.left⟩) with
    ⟨hx, hy⟩ | ⟨p, q, hx, hy, hpq, hafter⟩
  · rw [hx, hy]
    exact .none
  · rw [hx, hy]
    exact .some ⟨hpq, hafter.active.symm, hafter.right, hafter.left⟩

/-- One question is over, and the other one has an answer, whatever this is. -/
theorem Agree.of_settles {α β : Type} {R : α → β → Prop} {S : β → β → Prop} {P : β → Prop} {a : α}
    {y : Ask β} (hy : ∀ active, Settles w active y P) (hsame : Agree w S y y) (h : ∀ b, R a b) :
    Agree w R (Pure.pure a) y := by
  intro m m' hfits
  obtain ⟨b, spellings, hrun, -⟩ := hy m'.active m'.spellings
  have hsame := hsame m' m' ⟨rfl, hfits.right, hfits.right⟩
  rw [hrun] at hsame ⊢
  cases hsame with
  | some hsame => exact .some ⟨h b, hfits.active, hfits.left, hsame.2.left⟩

theorem settles_lookupAnswered (hf : w.forest.WellLinked) (active : List (Aspect × NodeId))
    (name : String) (accept : Definition → Bool) (scopes : List Scope) :
    Settles w active (lookup (answersFor w.forest) name accept scopes) fun _ => True := by
  have hbases : SettlesBases w active (answersFor w.forest) :=
    fun n _ _ b scopes => ((settles_answersFor hf _).1 b scopes).mono fun _ _ => trivial
  exact (settles_lookup hf hbases name accept scopes).mono fun _ _ => trivial

/-- What is found for two names: the same up to spellings, or a type for the first as a keyword. -/
def FoundAlike (w : World) (t : KnownType) (ds es : List Definition) : Prop :=
  ds.map (Definition.keyed w) = es.map (Definition.keyed w) ∨ ds = [.builtin t]

/-- What a keyword stands for, and a name that is the same but no keyword. -/
theorem lookup_keyword (hf : w.forest.WellLinked) (h : w.key a = w.key b)
    (ha : builtinWithKeyword? w a = some (.builtin t)) (hb : builtinWithKeyword? w b = none)
    (filter : Filter) {ss ss' : List Scope} (hss : ss.map (Scope.keyed w) = ss'.map (Scope.keyed w)) :
    Agree w (FoundAlike w t) (lookup (answersFor w.forest) a filter.accept ss)
      (lookup (answersFor w.forest) b filter.accept ss') := by
  have hsteady := steady_answersFor (w := w) w.forest
  induction ss generalizing ss' with
  | nil =>
      obtain rfl : ss' = [] := List.map_eq_nil_iff.mp hss.symm
      exact .pure (.inl rfl)
  | cons s ss ih =>
      obtain ⟨s', ss', rfl, hs, hrest⟩ := List.map_eq_cons_iff.mp hss.symm
      have hscope : Agree w (fun ds es => ds.map (Definition.keyed w) = es.map (Definition.keyed w) ∨
          ds = [.builtin t] ∧ es = []) (lookupIn (answersFor w.forest) a s)
          (lookupIn (answersFor w.forest) b s') :=
        hsteady.lookupIn_keywords h (fun _ _ => .inl) (.inr (by simp [ha, hb])) hs.symm
      rw [lookup, lookup]
      refine .bind hscope fun ds es hds => ?_
      obtain hsame | ⟨rfl, rfl⟩ := hds
      · have hkept := map_keyed_filter (filter.ignores_spellings w) hsame
        exact .ite (by rw [isEmpty_of_map_eq hkept]) (fun _ => ih hrest.symm)
          fun _ => .pure (.inl hkept)
      · rw [List.filter_nil, if_pos List.isEmpty_nil]
        -- the keyword ends the search if it is acceptable, while that for the other name goes on
        by_cases haccept : filter.accept (.builtin t) = true
        · rw [List.filter_cons_of_pos haccept, List.filter_nil, if_neg (by simp)]
          exact .of_settles (settles_lookupAnswered hf · b filter.accept ss')
            (hsteady.lookup rfl rfl (filter.ignores_spellings w) rfl) fun _ => .inr rfl
        · rw [List.filter_cons_of_neg haccept, List.filter_nil, if_pos List.isEmpty_nil]
          exact ih hrest.symm

/-- What a name stands for at a place, as far as it is acceptable. -/
def findAt (n : NodeId) (filter : Filter) (name : String) : Ask (List Definition) := do
  find (← scopesAt n) filter.accept name

/-- What a name stands for at a place after other questions were asked. -/
def foundAfter? (f : Forest) (caseSensitive : Bool) (earlier : List Question) (n : NodeId)
    (filter : Filter) (name : String) : Option (List Definition) :=
  f.ask? caseSensitive do
    let _ ← earlier.mapM Question.ask
    findAt n filter name

/-- Two names that are the same find the same up to spellings, unless one is a keyword of C# only. -/
theorem agree_findAt (hf : w.forest.WellLinked) (hcase : w.caseSensitive = false)
    (h : w.key a = w.key b) (n : NodeId) (filter : Filter) :
    Agree w (fun ds es => ds.map (Definition.keyed w) = es.map (Definition.keyed w) ∨
        (∃ t, IsKeywordUnlike a b t ∧ ds = [.builtin t]) ∨
        ∃ t, IsKeywordUnlike b a t ∧ es = [.builtin t])
      (findAt n filter a) (findAt n filter b) := by
  refine .bind (agree_scopesAt n) fun ss ss' hss => ?_
  obtain hsame | ⟨t, ht⟩ | ⟨t, ht⟩ := keyword_cases hcase h
  · have hsteady := steady_answersFor (w := w) w.forest
    exact .forest ((hsteady.lookup h hsame (filter.ignores_spellings w) hss).imp fun _ _ => .inl)
  · have hkeyword := builtinWithKeyword?_csharpWord hcase ht.csharpOnly
    rw [← ht.left] at hkeyword
    have hfind := lookup_keyword hf h hkeyword (builtinWithKeyword?_recased hcase h ht) filter hss
    exact .forest (hfind.imp fun ds es hfound => hfound.imp_right fun hds => .inl ⟨t, ht, hds⟩)
  · have hkeyword := builtinWithKeyword?_csharpWord hcase ht.csharpOnly
    rw [← ht.left] at hkeyword
    have hfind := lookup_keyword hf h.symm hkeyword (builtinWithKeyword?_recased hcase h.symm ht)
      filter hss.symm
    refine .forest (hfind.symm.imp fun ds es hfound => ?_)
    exact hfound.imp Eq.symm fun hes => .inr ⟨t, ht, hes⟩

/-- Whatever was asked before, a name is found at a place, and nothing else is remembered of it but
spellings. -/
theorem foundAfter?_run {f : Forest} (hf : f.WellLinked) (caseSensitive : Bool)
    (earlier : List Question) (n : NodeId) (filter : Filter) (name : String) :
    ∃ m ds m', Memory.Spells ⟨f, caseSensitive⟩ m ∧ m.active = [] ∧
      findAt n filter name ⟨f, caseSensitive⟩ m = some (ds, m') ∧
      foundAfter? f caseSensitive earlier n filter name = some ds := by
  have hempty : Memory.Spells ⟨f, caseSensitive⟩ {} := by simp [Memory.Spells]
  obtain ⟨answers, m, hearlier, hm, hactive⟩ := questions_run (w := ⟨f, caseSensitive⟩) hf earlier
    hempty rfl
  have hsettles : Settles ⟨f, caseSensitive⟩ m.active (findAt n filter name) fun _ => True :=
    .bind (settles_scopesAt n) fun scopes _ => .forest (settles_lookupAnswered hf _ name _ scopes)
  obtain ⟨ds, m', hrun, -⟩ := hsettles.returns
  refine ⟨m, ds, m', hm, hactive, hrun, ?_⟩
  change (((earlier.mapM Question.ask) ⟨f, caseSensitive⟩ {}).bind _).map _ = _
  rw [hearlier]
  change (findAt n filter name ⟨f, caseSensitive⟩ m).map _ = _
  rw [hrun]
  rfl

/-- Where case does not matter, two names that differ in nothing else have answers at every place,
whatever was asked before, and these are the same up to the spellings of namespaces, unless one of
the names is a keyword that only C# has, is found as this, and the other is spelled in another case. -/
theorem lookup_ignores_case {f : Forest} (hf : f.WellLinked) {a b : String}
    (h : Text.sameIgnoringCase a b = true) (n : NodeId) (filter : Filter)
    (earlier earlier' : List Question) :
    ∃ ds es, foundAfter? f false earlier n filter a = some ds ∧
      foundAfter? f false earlier' n filter b = some es ∧
      (ds.map (Definition.keyed ⟨f, false⟩) = es.map (Definition.keyed ⟨f, false⟩) ∨
        (∃ t, IsKeywordUnlike a b t ∧ ds = [.builtin t]) ∨
        ∃ t, IsKeywordUnlike b a t ∧ es = [.builtin t]) := by
  have hkey : World.key ⟨f, false⟩ a = World.key ⟨f, false⟩ b := World.sameName_eq_true_iff.mp h
  obtain ⟨m, ds, m', hm, hactive, hrun, hds⟩ := foundAfter?_run hf false earlier n filter a
  obtain ⟨k, es, k', hk, hactive', hrun', hes⟩ := foundAfter?_run hf false earlier' n filter b
  refine ⟨ds, es, hds, hes, ?_⟩
  have hagree := agree_findAt (w := ⟨f, false⟩) hf rfl hkey n filter m k
    ⟨hactive.trans hactive'.symm, hm, hk⟩
  rw [hrun, hrun'] at hagree
  cases hagree with
  | some hagree => exact hagree.1

def Filter.typeLike : Filter := ⟨Definition.isTypeLike, fun _ => Definition.isTypeLike_keyed⟩

/-- Two spellings of the class that another one is derived from, in its base list; before the second,
the base types were asked for. -/
theorem lookup_ignores_case_mutualBases :
    mutualBases.WellLinked ∧ Text.sameIgnoringCase "b" "B" = true ∧
    ∃ ds es, foundAfter? mutualBases false [] 3 .typeLike "b" = some ds ∧
      foundAfter? mutualBases false [.meaningOf 3] 3 .typeLike "B" = some es ∧
      (ds.map (Definition.keyed ⟨mutualBases, false⟩) =
          es.map (Definition.keyed ⟨mutualBases, false⟩) ∨
        (∃ t, IsKeywordUnlike "b" "B" t ∧ ds = [.builtin t]) ∨
        ∃ t, IsKeywordUnlike "B" "b" t ∧ es = [.builtin t]) := by
  have hlinked : mutualBases.WellLinked := Forest.WellLinked.empty.performAll _
  have hsame : Text.sameIgnoringCase "b" "B" = true := Text.sameIgnoringCase_iff.mpr (by decide)
  exact ⟨hlinked, hsame, lookup_ignores_case hlinked hsame 3 .typeLike [] [.meaningOf 3]⟩

end Semantics

end DualSyntax
