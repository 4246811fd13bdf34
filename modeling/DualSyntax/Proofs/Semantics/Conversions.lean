import DualSyntax.Proofs.Semantics.Ensuring
import DualSyntax.Proofs.Semantics.Searching

/-!
# Inheritance and conversions

Whether a type inherits from another, and implicit conversions, which follow from it.
-/

/-!
## Inheritance

The base list of a type is what it is resolved to, which is the same whatever spellings are remembered;
so the types form a graph, and the searches for a member and for a base type are searches in it.  The
base list of a type that is being worked out counts as empty, here as in the searches.
-/

namespace DualSyntax.Semantics

open Search

variable {w : World} {active : List (Aspect × NodeId)}

/-- The declared types in the base list of a type. -/
def bases (w : World) (active : List (Aspect × NodeId)) (n : NodeId) : List NodeId :=
  (answer? w active (baseTypes (answersFor w.forest) n)).getD []

def IsBase (w : World) (active : List (Aspect × NodeId)) (n base : NodeId) : Prop :=
  base ∈ bases w active n

/-- A type declares members with a name itself. -/
def Declares (w : World) (active : List (Aspect × NodeId)) (name : String) (n : NodeId) : Prop :=
  ∃ d ds, answer? w active (ownMembers n name) = some (d :: ds)

theorem settlesBases_answersFor (hf : w.forest.WellLinked) (active : List (Aspect × NodeId)) :
    SettlesBases w active (answersFor w.forest) := by
  intro n _ _ b scopes
  exact ((settles_answersFor hf _).1 b scopes).mono fun _ _ => trivial

/-- Asked for the base list of a type, whatever spellings are remembered, this is what comes out. -/
theorem hasAnswer_bases (hf : w.forest.WellLinked) (n : NodeId) :
    HasAnswer w active (baseTypes (answersFor w.forest) n) (bases w active n) := by
  have hsettles := settles_baseTypes (settlesBases_answersFor hf active) n
  obtain ⟨ns, hns, -⟩ := hsettles.exists_hasAnswer ((steady_answersFor w.forest).baseTypes n)
  rw [bases, hns.answer?_eq, Option.getD_some]
  exact hns

/-- A type has no more base types than nodes in its base list. -/
theorem length_bases_le (hf : w.forest.WellLinked) (active : List (Aspect × NodeId)) (n : NodeId) :
    (bases w active n).length ≤ (w.forest.children n .baseTypes).length := by
  have hsettles := settles_baseTypes (settlesBases_answersFor hf active) n
  obtain ⟨ns, hns, hlength⟩ := hsettles.exists_hasAnswer ((steady_answersFor w.forest).baseTypes n)
  rwa [bases, hns.answer?_eq, Option.getD_some]

/-- The members that a type declares itself are the same up to spellings, so there are some or none. -/
theorem ensures_ownMembers (n : NodeId) (name : String) :
    Ensures w active (ownMembers n name) fun found => found = [] ↔ ¬ Declares w active name n := by
  have hsettles : Settles w active (ownMembers n name) (KnownAll w) := settles_ownMembers n name
  obtain ⟨own, hown, -, hensures⟩ := hsettles.exists_ensures (agree_ownMembers rfl n)
  refine hensures.mono fun found hfound => ?_
  have hempty : found = [] ↔ own = [] := by
    rw [← List.map_eq_nil_iff (f := Definition.keyed w), ← hfound, List.map_eq_nil_iff]
  rw [hempty, Declares, hown]
  cases own <;> simp

/-! ### Members -/

/-- The search for a member through a queue finds nothing if no pending type leads to one that declares
the name, and else what the first declares that a queue finds. -/
theorem ensures_firstMembers (hf : w.forest.WellLinked) (name : String) (fuel : Nat)
    {seen queue : List NodeId} (h : Closed (bases w active) (Declares w active name) seen queue) :
    Ensures w active (firstMembers (answersFor w.forest) name fuel seen queue) fun found =>
      (found = [] ↔ ¬ ∃ n ∈ queue, Meets (bases w active) (Declares w active name) n) ∧
      (found ≠ [] → ∃ n, Found (bases w active) (Declares w active name) seen queue n ∧
        MayAnswer w active (ownMembers n name) found) := by
  induction fuel generalizing seen queue with
  | zero => exact .failure
  | succ fuel ih =>
      cases queue with
      | nil => exact .pure (by simp)
      | cons n queue =>
          refine .ite (fun hseen => ?_) fun hseen => ?_
          · have hn : n ∈ seen := by simpa using hseen
            refine (ih (h.skip hn)).mono fun found hfound => ?_
            rw [h.meets_skip hn]
            refine ⟨hfound.1, fun hne => ?_⟩
            obtain ⟨m, hm, hown⟩ := hfound.2 hne
            exact ⟨m, .skip h hn hm, hown⟩
          · refine .bind (ensures_ownMembers n name).mayAnswer fun own hown => ?_
            refine .ite (fun hempty => ?_) fun hempty => ?_
            · have hn : ¬ Declares w active name n := hown.1.mp (List.isEmpty_iff.mp hempty)
              refine .bind (hasAnswer_bases hf n).ensures fun ns hns => ?_
              subst hns
              have hnext : ∀ m, m ∈ queue ++ bases w active n ↔ m ∈ bases w active n ∨ m ∈ queue :=
                fun m => List.mem_append.trans or_comm
              refine (ih (h.see hn hnext)).mono fun found hfound => ?_
              rw [meets_see hn hnext]
              refine ⟨hfound.1, fun hne => ?_⟩
              obtain ⟨m, hm, hown⟩ := hfound.2 hne
              exact ⟨m, .see h hn hm, hown⟩
            · have hne : own ≠ [] := by simpa using hempty
              have hn : Declares w active name n := by
                by_contra hn
                exact hne (hown.1.mpr hn)
              refine .pure ⟨?_, fun _ => ⟨n, .here h hn, hown.2⟩⟩
              simp only [hne, false_iff, not_not]
              exact ⟨n, List.mem_cons_self, n, .refl, hn⟩

/-! ### Base types -/

/-- The search for a base type through a stack succeeds if a pending type leads to it. -/
theorem ensures_reaches (hf : w.forest.WellLinked) (base : NodeId) (fuel : Nat)
    {seen stack : List NodeId} (h : Closed (bases w active) (· = base) seen stack) :
    Ensures w active (reaches (answersFor w.forest) base fuel seen stack) fun answer =>
      answer = true ↔ ∃ n ∈ stack, Meets (bases w active) (· = base) n := by
  induction fuel generalizing seen stack with
  | zero => exact .failure
  | succ fuel ih =>
      cases stack with
      | nil => exact .pure (by simp)
      | cons n stack =>
          refine .ite (fun hbase => ?_) fun hbase => .ite (fun hseen => ?_) fun hseen => ?_
          · refine .pure ?_
            simp only [true_iff]
            exact ⟨n, List.mem_cons_self, n, .refl, hbase⟩
          · have hn : n ∈ seen := by simpa using hseen
            refine (ih (h.skip hn)).mono fun answer hanswer => ?_
            rw [hanswer, h.meets_skip hn]
          · refine .bind (hasAnswer_bases hf n).ensures fun ns hns => ?_
            subst hns
            have hnext : ∀ m, m ∈ (bases w active n).reverse ++ stack ↔
                m ∈ bases w active n ∨ m ∈ stack := by
              simp
            refine (ih (h.see hbase hnext)).mono fun answer hanswer => ?_
            rw [hanswer, meets_see (P := (· = base)) hbase hnext]

/-- A type derives from those that are reached from it in one or more steps. -/
theorem ensures_derivesFrom (hf : w.forest.WellLinked) (n base : NodeId) :
    Ensures w active (derivesFrom (answersFor w.forest) n base) fun answer =>
      answer = true ↔ Relation.TransGen (IsBase w active) n base := by
  refine .bind (hasAnswer_bases hf n).ensures fun ns hns => .forest ?_
  subst hns
  refine (ensures_reaches hf base _ .nil).mono fun answer hanswer => ?_
  rw [hanswer, Relation.TransGen.head'_iff]
  simp only [Meets, List.mem_reverse, exists_eq_right]
  exact Iff.rfl

/-! ### The two searches -/

/-- In a forest whose links agree, whatever spellings are remembered and whatever is being worked out:
the base list of every type comes to the same types whenever it is asked for; the members of a type
with a name are those that the first type declares itself, in breadth-first order along the base lists,
that declares any, and there are none if and only if no type that is reached declares any; and a type
derives from those that are reached in one or more steps.  Both searches end, also where types inherit
from each other in a circle. -/
theorem searches_follow_bases {f : Forest} (hf : f.WellLinked) (caseSensitive : Bool)
    {memory : Memory} (hm : memory.Spells ⟨f, caseSensitive⟩) (t : NodeId) :
    (∀ n, HasAnswer ⟨f, caseSensitive⟩ memory.active (baseTypes (answersFor f) n)
      (bases ⟨f, caseSensitive⟩ memory.active n)) ∧
    (∀ name, ∃ found memory',
      typeMembers (answersFor f) t name ⟨f, caseSensitive⟩ memory = some (found, memory') ∧
      (found = [] ↔ ∀ n, Relation.ReflTransGen (IsBase ⟨f, caseSensitive⟩ memory.active) t n →
        ¬ Declares ⟨f, caseSensitive⟩ memory.active name n) ∧
      (found ≠ [] → ∃ n, IsFirst (bases ⟨f, caseSensitive⟩ memory.active)
        (Declares ⟨f, caseSensitive⟩ memory.active name) [t] n ∧
        MayAnswer ⟨f, caseSensitive⟩ memory.active (ownMembers n name) found)) ∧
    ∀ base, ∃ answer memory',
      derivesFrom (answersFor f) t base ⟨f, caseSensitive⟩ memory = some (answer, memory') ∧
      (answer = true ↔ Relation.TransGen (IsBase ⟨f, caseSensitive⟩ memory.active) t base) := by
  have hbases := settlesBases_answersFor (w := ⟨f, caseSensitive⟩) hf memory.active
  refine ⟨fun n => hasAnswer_bases hf n, fun name => ?_, fun base => ?_⟩
  · have hclosed : Closed (bases ⟨f, caseSensitive⟩ memory.active)
        (Declares ⟨f, caseSensitive⟩ memory.active name) [] [t] := .nil
    have hensures := ensures_firstMembers hf name (2 * f.size + 2) hclosed
    obtain ⟨found, memory', hrun, hempty, hfirst⟩ :=
      (Ensures.forest hensures).exists_answer (settles_typeMembers hf hbases t name) hm rfl
    refine ⟨found, memory', hrun, ?_, fun hne => ?_⟩
    · rw [hempty]
      simp only [Meets, List.mem_singleton, exists_eq_left, not_exists, not_and]
      exact Iff.rfl
    · obtain ⟨n, hn, hown⟩ := hfirst hne
      exact ⟨n, hn.isFirst, hown⟩
  · exact (ensures_derivesFrom hf t base).exists_answer (settles_derivesFrom hf hbases t base) hm rfl

/-- A class of two in a circle derives from itself, and no member is found in them. -/
theorem searches_follow_bases_mutualBases :
    mutualBases.WellLinked ∧
    (bases ⟨mutualBases, true⟩ [] 1, bases ⟨mutualBases, true⟩ [] 5) = ([5], [1]) ∧
    (∃ memory', derivesFrom (answersFor mutualBases) 1 1 ⟨mutualBases, true⟩ {} =
      some (true, memory')) ∧
    ∃ memory', typeMembers (answersFor mutualBases) 1 "M" ⟨mutualBases, true⟩ {} =
      some ([], memory') := by
  have hlinked : mutualBases.WellLinked := Forest.WellLinked.empty.performAll _
  have hspells : Memory.Spells ⟨mutualBases, true⟩ {} := Memory.spells_nil _ []
  have hbases : bases ⟨mutualBases, true⟩ [] 1 = [5] ∧ bases ⟨mutualBases, true⟩ [] 5 = [1] := by
    decide
  have hstep : ∀ n base, IsBase ⟨mutualBases, true⟩ [] n base →
      n = 1 ∨ n = 5 → base = 1 ∨ base = 5 := by
    rintro n base hbase (rfl | rfl)
    · rw [IsBase, hbases.1] at hbase
      exact .inr (List.mem_singleton.mp hbase)
    · rw [IsBase, hbases.2] at hbase
      exact .inl (List.mem_singleton.mp hbase)
  obtain ⟨-, hmembers, hderives⟩ := searches_follow_bases hlinked true hspells 1
  refine ⟨hlinked, by rw [hbases.1, hbases.2], ?_, ?_⟩
  · obtain ⟨answer, memory', hrun, hanswer⟩ := hderives 1
    have hthere : IsBase ⟨mutualBases, true⟩ [] 1 5 := by
      rw [IsBase, hbases.1]
      exact List.mem_singleton_self 5
    have hback : IsBase ⟨mutualBases, true⟩ [] 5 1 := by
      rw [IsBase, hbases.2]
      exact List.mem_singleton_self 1
    rw [hanswer.mpr (.tail (.single hthere) hback)] at hrun
    exact ⟨memory', hrun⟩
  · obtain ⟨found, memory', hrun, hempty, -⟩ := hmembers "M"
    have hnone : answer? ⟨mutualBases, true⟩ [] (ownMembers 1 "M") = some [] ∧
        answer? ⟨mutualBases, true⟩ [] (ownMembers 5 "M") = some [] := by
      decide
    have hfound : found = [] := by
      refine hempty.mpr fun n hwalk => ?_
      have hn : n = 1 ∨ n = 5 := by
        induction hwalk with
        | refl => exact .inl rfl
        | tail _ hbase ih => exact hstep _ _ hbase ih
      rintro ⟨d, ds, hdeclares⟩
      rcases hn with rfl | rfl
      · rw [hnone.1] at hdeclares
        cases hdeclares
      · rw [hnone.2] at hdeclares
        cases hdeclares
    exact ⟨memory', hfound ▸ hrun⟩

end DualSyntax.Semantics

/-!
## Implicit conversions

Which types convert to which, as rules.  Conversions compose: numbers widen transitively, base types of
base types are reached, and where null converts to a type it converts to whatever that converts to, if
no base list leads to a type without references.
-/

namespace DualSyntax

namespace KnownType

theorem widerTypes_trans {a b c : KnownType} (hab : b ∈ a.widerTypes) (hbc : c ∈ b.widerTypes) :
    c ∈ a.widerTypes := by
  have htrans : ∀ b ∈ a.widerTypes, b.widerTypes ⊆ a.widerTypes := by
    cases a <;> decide
  exact htrans b hab hbc

theorem widensTo_iff {a b : KnownType} : a.widensTo b = true ↔ a = b ∨ b ∈ a.widerTypes := by
  simp [widensTo]

theorem widensTo_trans {a b c : KnownType} (hab : a.widensTo b = true) (hbc : b.widensTo c = true) :
    a.widensTo c = true := by
  rw [widensTo_iff] at hab hbc ⊢
  rcases hab with rfl | hab
  · exact hbc
  · rcases hbc with rfl | hbc
    · exact .inr hab
    · exact .inr (widerTypes_trans hab hbc)

end KnownType

namespace Semantics

variable {w : World} {active : List (Aspect × NodeId)}

/-! ### Fits -/

structure Fit.Says (fit : Fit) (possible exact : Prop) : Prop where
  possible : fit ≠ .none ↔ possible
  exact : fit = .exact ↔ exact

namespace Fit.Says

variable {possible exact : Prop}

theorem ofExact (h : possible) (hexact : exact) : Fit.exact.Says possible exact :=
  ⟨by simp [h], by simp [hexact]⟩

theorem ofNone (h : ¬ possible) (hexact : ¬ exact) : Fit.none.Says possible exact :=
  ⟨by simp [h], by simp [hexact]⟩

theorem implicitIf {b : Bool} (h : b = true ↔ possible) (hexact : ¬ exact) :
    (Fit.implicitIf b).Says possible exact := by
  cases b with
  | false => exact .ofNone (by simpa using h) hexact
  | true => exact ⟨by simp [Fit.implicitIf, ← h], by simp [Fit.implicitIf, hexact]⟩

theorem ofImplicit (h : possible) (hexact : ¬ exact) : Fit.implicit.Says possible exact :=
  .implicitIf (b := true) (by simp [h]) hexact

end Fit.Says

/-! ### The rules -/

/-- A class or an interface. -/
def IsInherited (f : Forest) (n : NodeId) : Prop :=
  f.kind n = .typeDeclaration .classType ∨ f.kind n = .typeDeclaration .interfaceType

/-- A type converts to another without being asked to. -/
inductive Converts (w : World) (active : List (Aspect × NodeId)) : TypeRef → TypeRef → Prop
  | refl (a : TypeRef) : Converts w active a a
  | object (a : TypeRef) : Converts w active a (.known .object)
  | null {a : TypeRef} : isReference w.forest a = true → Converts w active .null a
  | widening {a b : KnownType} : a.widensTo b = true → Converts w active (.known a) (.known b)
  | derived {a b : NodeId} :
      Relation.TransGen (IsBase w active) a b → Converts w active (.declared a) (.declared b)
  | array {a b : TypeRef} (rank : Nat) : isReference w.forest a = true → Converts w active a b →
      Converts w active (.array a rank) (.array b rank)

namespace Converts

theorem eq_object {a : TypeRef} (h : Converts w active (.known .object) a) : a = .known .object := by
  cases h with
  | refl | object => rfl
  | @widening _ b hb =>
      rcases KnownType.widensTo_iff.mp hb with rfl | hb
      · rfl
      · simp [KnownType.widerTypes] at hb

theorem isReference (hbases : ∀ n, ∀ base ∈ bases w active n, IsInherited w.forest base)
    {a b : TypeRef} (h : Converts w active a b) (ha : isReference w.forest a = true) :
    Semantics.isReference w.forest b = true := by
  cases h with
  | refl => exact ha
  | object => rfl
  | null hb => exact hb
  | @widening a b hb =>
      rcases KnownType.widensTo_iff.mp hb with rfl | hb
      · exact ha
      · cases a <;> simp [Semantics.isReference, KnownType.widerTypes] at ha hb
  | derived hwalk =>
      obtain ⟨c, -, hbase⟩ := Relation.TransGen.tail'_iff.mp hwalk
      rcases hbases c _ hbase with hkind | hkind <;> simp [Semantics.isReference, hkind]
  | array => rfl

/-- Conversions compose. -/
theorem trans (hbases : ∀ n, ∀ base ∈ bases w active n, IsInherited w.forest base)
    {a b c : TypeRef} (hab : Converts w active a b) (hbc : Converts w active b c) :
    Converts w active a c := by
  induction hab generalizing c with
  | refl => exact hbc
  | object =>
      obtain rfl := hbc.eq_object
      exact .object _
  | null hb => exact .null (hbc.isReference hbases hb)
  | widening hab =>
      cases hbc with
      | refl => exact .widening hab
      | object => exact .object _
      | widening hbc => exact .widening (KnownType.widensTo_trans hab hbc)
  | derived hab =>
      cases hbc with
      | refl => exact .derived hab
      | object => exact .object _
      | derived hbc => exact .derived (hab.trans hbc)
  | array rank ha hab ih =>
      cases hbc with
      | refl => exact .array rank ha hab
      | object => exact .object _
      | array _ _ hbc => exact .array rank ha (ih hbc)

end Converts

def conversionFit (w : World) (active : List (Aspect × NodeId)) (source target : TypeRef) : Fit :=
  (answer? w active (conversion (answersFor w.forest) source target)).getD .none

/-- Asked how well a type converts to another, whatever spellings are remembered, this comes out. -/
theorem hasAnswer_conversion (hf : w.forest.WellLinked) (source target : TypeRef) :
    HasAnswer w active (conversion (answersFor w.forest) source target)
      (conversionFit w active source target) := by
  have hsettles := settles_conversion hf (settlesBases_answersFor hf active) source target
  obtain ⟨fit, hfit, -⟩ :=
    hsettles.exists_hasAnswer ((steady_answersFor w.forest).conversion source target)
  rw [conversionFit, hfit.answer?_eq, Option.getD_some]
  exact hfit

/-- How well a type converts to another follows the rules. -/
theorem ensures_conversion (hf : w.forest.WellLinked) (source target : TypeRef) :
    Ensures w active (conversion (answersFor w.forest) source target)
      fun fit => fit.Says (Converts w active source target) (source = target) := by
  induction source generalizing target with
  | known a =>
      unfold conversion
      refine .forest (.ite (fun heq => .pure (.ofExact (heq ▸ .refl _) heq)) fun hne =>
        .ite (fun hobject => .pure (.ofImplicit (hobject ▸ .object _) hne)) fun hobject => ?_)
      cases target with
      | known b =>
          refine .pure (.implicitIf ⟨.widening, fun h => ?_⟩ hne)
          cases h with
          | refl => exact absurd rfl hne
          | object => exact absurd rfl hobject
          | widening h => exact h
      | _ =>
          refine .pure (.ofNone (fun h => ?_) hne)
          cases h
  | null =>
      unfold conversion
      refine .forest (.ite (fun heq => .pure (.ofExact (heq ▸ .refl _) heq)) fun hne =>
        .ite (fun hobject => .pure (.ofImplicit (hobject ▸ .object _) hne)) fun hobject => ?_)
      refine .pure (.implicitIf ⟨.null, fun h => ?_⟩ hne)
      cases h with
      | refl => exact absurd rfl hne
      | object => exact absurd rfl hobject
      | null h => exact h
  | declared a =>
      unfold conversion
      refine .forest (.ite (fun heq => .pure (.ofExact (heq ▸ .refl _) heq)) fun hne =>
        .ite (fun hobject => .pure (.ofImplicit (hobject ▸ .object _) hne)) fun hobject => ?_)
      cases target with
      | declared b =>
          refine .bind (ensures_derivesFrom hf a b) fun answer hanswer => ?_
          refine .pure (.implicitIf (hanswer.trans ⟨.derived, fun h => ?_⟩) hne)
          cases h with
          | refl => exact absurd rfl hne
          | derived h => exact h
      | known b =>
          refine .pure (.ofNone (fun h => ?_) hne)
          cases h
          exact hobject rfl
      | _ =>
          refine .pure (.ofNone (fun h => ?_) hne)
          cases h
  | array a rank ih =>
      unfold conversion
      refine .forest (.ite (fun heq => .pure (.ofExact (heq ▸ .refl _) heq)) fun hne =>
        .ite (fun hobject => .pure (.ofImplicit (hobject ▸ .object _) hne)) fun hobject => ?_)
      cases target with
      | array b rank' =>
          refine .ite (fun hcond => ?_) fun hcond => ?_
          · rw [Bool.and_eq_true, decide_eq_true_eq] at hcond
            obtain ⟨rfl, ha⟩ := hcond
            refine .bind (ih b) fun fit hfit => .pure (.implicitIf ?_ hne)
            rw [bne_iff_ne, hfit.possible]
            refine ⟨.array rank ha, fun h => ?_⟩
            cases h with
            | refl => exact .refl _
            | array _ _ h => exact h
          · refine .pure (.ofNone (fun h => ?_) hne)
            cases h with
            | refl => exact hne rfl
            | array _ ha _ => exact hcond (by simp [ha])
      | known b =>
          refine .pure (.ofNone (fun h => ?_) hne)
          cases h
          exact hobject rfl
      | _ =>
          refine .pure (.ofNone (fun h => ?_) hne)
          cases h

theorem conversionFit_spec (hf : w.forest.WellLinked) (active : List (Aspect × NodeId))
    (source target : TypeRef) :
    (conversionFit w active source target).Says (Converts w active source target)
      (source = target) :=
  (hasAnswer_conversion hf source target).of_ensures (ensures_conversion hf source target)

/-- In a forest whose links agree and whose base lists lead to classes and interfaces only, whatever is
being worked out: how well a type converts to another has one answer, whatever spellings are remembered;
every type converts to itself exactly, and if a first converts to a second and this to a third then the
first converts to the third. -/
theorem conversion_preorder {f : Forest} (hf : f.WellLinked) (caseSensitive : Bool)
    (active : List (Aspect × NodeId))
    (hbases : ∀ n, ∀ base ∈ bases ⟨f, caseSensitive⟩ active n, IsInherited f base) :
    (∀ a b, HasAnswer ⟨f, caseSensitive⟩ active (conversion (answersFor f) a b)
      (conversionFit ⟨f, caseSensitive⟩ active a b)) ∧
    (∀ a, conversionFit ⟨f, caseSensitive⟩ active a a = .exact) ∧
    ∀ a b c, conversionFit ⟨f, caseSensitive⟩ active a b ≠ .none →
      conversionFit ⟨f, caseSensitive⟩ active b c ≠ .none →
      conversionFit ⟨f, caseSensitive⟩ active a c ≠ .none := by
  have hspec := conversionFit_spec (w := ⟨f, caseSensitive⟩) hf active
  refine ⟨hasAnswer_conversion hf, fun a => (hspec a a).exact.mpr rfl, fun a b c hab hbc => ?_⟩
  have hab := (hspec a b).possible.mp hab
  have hbc := (hspec b c).possible.mp hbc
  exact (hspec a c).possible.mpr (hab.trans hbases hbc)

/-- Arrays of null convert to arrays of a class of two in a circle, hence to arrays of the other. -/
theorem conversion_preorder_mutualBases :
    mutualBases.WellLinked ∧
    (∀ n, ∀ base ∈ bases ⟨mutualBases, true⟩ [] n, IsInherited mutualBases base) ∧
    conversionFit ⟨mutualBases, true⟩ [] (.array .null 2) (.array (.declared 5) 2) ≠ .none := by
  have hlinked : mutualBases.WellLinked := Forest.WellLinked.empty.performAll _
  have hbases : ∀ n, ∀ base ∈ bases ⟨mutualBases, true⟩ [] n, IsInherited mutualBases base := by
    intro n base hbase
    rcases Nat.lt_or_ge n 9 with hn | hn
    · have hclasses : ∀ n < 9, ∀ base ∈ bases ⟨mutualBases, true⟩ [] n, base = 1 ∨ base = 5 := by
        decide +kernel
      rcases hclasses n hn base hbase with rfl | rfl <;> exact .inl rfl
    · have hlength := length_bases_le (w := ⟨mutualBases, true⟩) hlinked [] n
      have hnone : mutualBases.children n .baseTypes = [] := by
        rw [Forest.children, Forest.slots_of_size_le hn]
        rfl
      rw [hnone] at hlength
      rw [List.eq_nil_of_length_eq_zero (Nat.le_zero.mp hlength)] at hbase
      cases hbase
  refine ⟨hlinked, hbases, ?_⟩
  have hpreorder := conversion_preorder hlinked true [] hbases
  exact hpreorder.2.2 (.array .null 2) (.array (.declared 1) 2) (.array (.declared 5) 2)
    (by decide) (by decide)

end Semantics

end DualSyntax
