import DualSyntax.Proofs.Forest.Data
import DualSyntax.Semantics
import Mathlib.Data.List.ReduceOption

/-!
# Worlds that look alike

Two questions about two worlds coincide if they have the same answer, or none, and remember the same,
whatever was remembered before.  The rules carry along a property of the answer, which says where the
questions that follow may go.

Two worlds look alike from some nodes if these have the same links in both and all links lead from them
to such nodes again, except that a list of statements may go on differently after the statements that a
scope shows.  Then whatever is read off the forest at these nodes is the same: names, namespaces,
definitions and scopes; and these refer to such nodes only.
-/

namespace DualSyntax.Semantics

/-! ## Questions that coincide -/

variable {α β : Type} {w w' : World}

/-- Two questions about two worlds have the same answer with a property, or none, and remember the
same. -/
def Coincide (w w' : World) (P : α → Prop) (x y : Ask α) : Prop :=
  ∀ m, x w m = y w' m ∧ ∀ a m', x w m = some (a, m') → P a

namespace Coincide

variable {P : α → Prop} {Q : β → Prop} {x y : Ask α}

theorem pure {a : α} (h : P a) : Coincide w w' P (Pure.pure a) (Pure.pure a) := by
  refine fun m => ⟨rfl, fun b m' hb => ?_⟩
  cases hb
  exact h

theorem failure : Coincide w w' P failure failure :=
  fun _ => ⟨rfl, fun _ _ h => by cases h⟩

theorem bind {next next' : α → Ask β} (h : Coincide w w' P x y)
    (hnext : ∀ a, P a → Coincide w w' Q (next a) (next' a)) :
    Coincide w w' Q (x >>= next) (y >>= next') := by
  intro m
  obtain ⟨hsame, hanswer⟩ := h m
  change ((x w m).bind fun p => next p.1 w p.2) = ((y w' m).bind fun p => next' p.1 w' p.2) ∧
    ∀ b m', ((x w m).bind fun p => next p.1 w p.2) = some (b, m') → Q b
  rw [← hsame]
  cases hx : x w m with
  | none => exact ⟨rfl, fun _ _ h => by cases h⟩
  | some p => exact hnext p.1 (hanswer p.1 p.2 hx) p.2

theorem mono {P' : α → Prop} (h : Coincide w w' P x y) (himp : ∀ a, P a → P' a) :
    Coincide w w' P' x y :=
  fun m => ⟨(h m).1, fun a m' ha => himp a ((h m).2 a m' ha)⟩

theorem read {next next' : World → Ask β} (h : Coincide w w' Q (next w) (next' w')) :
    Coincide w w' Q (MonadReader.read >>= next) (MonadReader.read >>= next') := h

theorem forest {next next' : Forest → Ask β}
    (h : Coincide w w' Q (next w.forest) (next' w'.forest)) :
    Coincide w w' Q (Semantics.forest >>= next) (Semantics.forest >>= next') := h

theorem get {next next' : Memory → Ask β} (h : ∀ m, Coincide w w' Q (next m) (next' m)) :
    Coincide w w' Q (MonadState.get >>= next) (MonadState.get >>= next') :=
  fun m => h m m

theorem modify (change : Memory → Memory) :
    Coincide w w' (fun _ => True) (modify change) (modify change) :=
  fun _ => ⟨rfl, fun _ _ _ => trivial⟩

theorem ite {c : Prop} [Decidable c] {x' y' : Ask α} (h : c → Coincide w w' P x y)
    (h' : ¬ c → Coincide w w' P x' y') :
    Coincide w w' P (if c then x else x') (if c then y else y') := by
  split
  · exact h ‹_›
  · exact h' ‹_›

theorem mapM {f g : α → Ask β} {l : List α} (h : ∀ a ∈ l, Coincide w w' Q (f a) (g a)) :
    Coincide w w' (fun bs => ∀ b ∈ bs, Q b) (l.mapM f) (l.mapM g) := by
  induction l with
  | nil => exact .pure (by simp)
  | cons a l ih =>
      rw [List.mapM_cons, List.mapM_cons]
      refine .bind (h a List.mem_cons_self) fun b hb => ?_
      refine .bind (ih fun a ha => h a (List.mem_cons_of_mem _ ha)) fun bs hbs => ?_
      exact .pure (List.forall_mem_cons.mpr ⟨hb, hbs⟩)

theorem findSomeM? {f g : α → Ask (Option β)} {l : List α}
    (h : ∀ a ∈ l, Coincide w w' (fun o => ∀ b ∈ o, Q b) (f a) (g a)) :
    Coincide w w' (fun o => ∀ b ∈ o, Q b) (l.findSomeM? f) (l.findSomeM? g) := by
  induction l with
  | nil => exact .pure (by simp)
  | cons a l ih =>
      rw [List.findSomeM?, List.findSomeM?]
      refine .bind (h a List.mem_cons_self) fun o ho => ?_
      cases o with
      | none => exact ih fun a ha => h a (List.mem_cons_of_mem _ ha)
      | some b => exact .pure ho

theorem guarded {P : Option α → Prop} {aspect : Aspect} {n : NodeId} {x y : Ask (Option α)}
    (hnone : P none) (h : Coincide w w' P x y) :
    Coincide w w' P (guarded aspect n x) (guarded aspect n y) := by
  refine .get fun m => .ite (fun _ => .pure hnone) fun _ => ?_
  exact .bind (.modify _) fun _ _ => .bind h fun a ha => .bind (.modify _) fun _ _ => .pure ha

end Coincide

end DualSyntax.Semantics

namespace DualSyntax

/-! ## The nodes that things refer to -/

def TypeRef.Within (seen : NodeId → Prop) : TypeRef → Prop
  | known _ | null => True
  | declared n => seen n
  | array element _ => element.Within seen

/-- Questions about a definition lead to certain nodes only. -/
def Definition.Within (seen : NodeId → Prop) : Definition → Prop
  | ofNamespace d => seen d.root ∧ ∀ n ∈ d.decls, seen n
  | ofType d =>
    (∀ n ∈ (ofType d).decl?, seen n) ∧ (∀ n ∈ d.members.flatMap (·.2), seen n) ∧
      (∀ n ∈ d.constructors, seen n) ∧ ∀ n ∈ d.baseTypes, seen n
  | ofField d => seen d.owner ∧ (∀ n ∈ d.type, seen n) ∧ ∀ n ∈ d.initializer, seen n
  | ofProperty d => ∀ n ∈ d.type, seen n
  | ofMethod d => (∀ n ∈ d.returnType, seen n) ∧ ∀ p ∈ d.parameters, ∀ n ∈ p.type, seen n
  | ofEvent d => ∀ n ∈ d.type, seen n
  | ofVariable d => (∀ n ∈ d.type, seen n) ∧ ∀ n ∈ d.initializer, seen n

/-- A meaning refers to certain nodes only; an error refers to none that questions lead to. -/
def Meaning.Within (seen : NodeId → Prop) : Meaning → Prop
  | unknown _ | error _ _ => True
  | member candidates type => (∀ d ∈ candidates, d.Within seen) ∧ ∀ t ∈ type, t.Within seen
  | constant _ type | call _ _ type | this type | base type => ∀ t ∈ type, t.Within seen
  | conversion type operand => type.Within seen ∧ operand.Within seen

namespace Semantics

/-! ## Looking alike -/

/-- Two worlds show the same first statements of a block, which are certain nodes. -/
def ShowsSame (w w' : World) (seen : NodeId → Prop) (n : NodeId) (upto : Nat) : Prop :=
  (w'.forest.children n .statements).take (upto + 1) =
      (w.forest.children n .statements).take (upto + 1) ∧
    ∀ c ∈ (w.forest.children n .statements).take (upto + 1), seen c

/-- Two worlds look alike from certain nodes. -/
structure LooksAlike (w w' : World) (seen : NodeId → Prop) : Prop where
  caseSensitive : w'.caseSensitive = w.caseSensitive
  size : w'.forest.size = w.forest.size
  kind : ∀ n, w'.forest.kind n = w.forest.kind n
  parent : ∀ {n}, seen n → w'.forest.parent n = w.forest.parent n
  parent_seen : ∀ {n p}, seen n → w.forest.parent n = some p → seen p
  title : ∀ {n}, seen n → w'.forest.titleInParent? n = w.forest.titleInParent? n
  children : ∀ {n}, seen n → ∀ t : Title, t ≠ .statements →
    w'.forest.children n t = w.forest.children n t
  children_seen : ∀ {n}, seen n → ∀ t : Title, t ≠ .statements → ∀ c ∈ w.forest.children n t, seen c
  /-- The place of a statement in its list. -/
  place : ∀ {n p}, seen n → w.forest.parent n = some p →
    (w'.forest.children p .statements).findIdx? (· == n) =
      (w.forest.children p .statements).findIdx? (· == n)
  shows : ∀ {n p i}, seen n → w.forest.parent n = some p →
    (w.forest.children p .statements).findIdx? (· == n) = some i → ShowsSame w w' seen p i
  namespaces : ∀ {n}, seen n → ∀ p : NodeId → Bool,
    (∀ m, p m = true → w.forest.kind m = .namespaceDeclaration) →
      (w'.forest.descendants n).filter p = (w.forest.descendants n).filter p
  namespaces_seen : ∀ {n}, seen n → ∀ m ∈ w.forest.descendants n,
    w.forest.kind m = .namespaceDeclaration → seen m

end Semantics

open Semantics (World ShowsSame)

/-- A scope refers to certain nodes only, and its statements look alike. -/
def Scope.Shown (w w' : World) (seen : NodeId → Prop) : Scope → Prop
  | block n upto => seen n ∧ ShowsSame w w' seen n upto
  | statement n | method n | type n | imports n | compilationUnit n => seen n
  | ofNamespace d => (Definition.ofNamespace d).Within seen

namespace Semantics

structure SameOption {α : Type} (P : α → Prop) (o' o : Option α) : Prop where
  eq : o' = o
  holds : ∀ a ∈ o, P a

namespace SameOption

variable {α β : Type} {P : α → Prop} {Q : β → Prop}

theorem none : SameOption P .none .none := ⟨rfl, by simp⟩

theorem some {a : α} (h : P a) : SameOption P (.some a) (.some a) := ⟨rfl, by simpa using h⟩

theorem bind {o : Option α} {f' f : α → Option β}
    (h : ∀ a, o = .some a → SameOption Q (f' a) (f a)) : SameOption Q (o >>= f') (o >>= f) := by
  cases o with
  | none => exact .none
  | some a => exact h a rfl

theorem map {o' o : Option α} (h : SameOption P o' o) {f : α → β} (hf : ∀ a, P a → Q (f a)) :
    SameOption Q (o'.map f) (o.map f) := by
  obtain rfl := h.eq
  refine ⟨rfl, fun b hb => ?_⟩
  obtain ⟨a, ha, rfl⟩ := Option.map_eq_some_iff.mp hb
  exact hf a (h.holds a ha)

end SameOption

variable {w w' : World} {seen : NodeId → Prop}

namespace LooksAlike

variable (h : LooksAlike w w' seen)

include h

theorem sameName (a b : String) : w'.sameName a b = w.sameName a b := by
  rw [World.sameName, World.sameName, h.caseSensitive]

theorem key (name : String) : w'.key name = w.key name := by
  rw [World.key, World.key, h.caseSensitive]

theorem isOuterName (outer full : String) : isOuterName w' outer full = isOuterName w outer full := by
  rw [Semantics.isOuterName, Semantics.isOuterName, h.sameName]

theorem builtinNamed? (name : String) : builtinNamed? w' name = builtinNamed? w name := by
  simp only [Semantics.builtinNamed?, h.sameName]

theorem builtinWithKeyword? (word : String) :
    builtinWithKeyword? w' word = builtinWithKeyword? w word := by
  simp only [Semantics.builtinWithKeyword?, h.sameName]

/-! ## Links -/

section

variable {n : NodeId} (hn : seen n)

include hn

theorem child? (t : Title) (ht : t ≠ .statements) : w'.forest.child? n t = w.forest.child? n t := by
  rw [Forest.child?_eq_head?, Forest.child?_eq_head?, h.children hn t ht]

theorem child?_seen {t : Title} {c : NodeId} (hc : w.forest.child? n t = some c)
    (ht : t ≠ .statements) : seen c := by
  rw [Forest.child?_eq_head?] at hc
  exact h.children_seen hn t ht c (List.mem_of_mem_head? hc)

theorem nameOf? : w'.forest.nameOf? n = w.forest.nameOf? n := by
  rw [Forest.nameOf?, Forest.nameOf?, h.child? hn .identifier nofun, funext h.kind]

theorem modifiersOf : w'.forest.modifiersOf n = w.forest.modifiersOf n := by
  simp only [Forest.modifiersOf, h.children hn .modifiers nofun, h.kind]

theorem hasModifier (m : Modifier) : w'.forest.hasModifier n m = w.forest.hasModifier n m := by
  rw [Forest.hasModifier, Forest.hasModifier, h.modifiersOf hn]

theorem ancestorsUpTo (fuel : Nat) :
    w'.forest.ancestorsUpTo fuel n = w.forest.ancestorsUpTo fuel n ∧
      ∀ m ∈ w.forest.ancestorsUpTo fuel n, seen m := by
  induction fuel generalizing n with
  | zero => exact ⟨rfl, by simp [Forest.ancestorsUpTo]⟩
  | succ fuel ih =>
      rw [Forest.ancestorsUpTo, Forest.ancestorsUpTo, h.parent hn]
      cases hp : w.forest.parent n with
      | none => exact ⟨rfl, by simp⟩
      | some p =>
          have hseen := h.parent_seen hn hp
          exact ⟨congrArg _ (ih hseen).1, List.forall_mem_cons.mpr ⟨hseen, (ih hseen).2⟩⟩

theorem ancestors : w'.forest.ancestors n = w.forest.ancestors n := by
  rw [Forest.ancestors, h.size]
  exact (h.ancestorsUpTo hn _).1

theorem ancestors_seen : ∀ m ∈ w.forest.ancestors n, seen m := (h.ancestorsUpTo hn _).2

theorem rootOf : rootOf w'.forest n = rootOf w.forest n := by
  rw [Semantics.rootOf, h.ancestors hn, Semantics.rootOf]

theorem rootOf_seen : seen (Semantics.rootOf w.forest n) := by
  rw [Semantics.rootOf]
  cases hlast : (w.forest.ancestors n).getLast? with
  | none => exact hn
  | some m => exact h.ancestors_seen hn m (List.mem_of_getLast? hlast)

/-! ## Names -/

theorem isNamed (name : String) : isNamed w' name n = isNamed w name n := by
  simp only [Semantics.isNamed, h.nameOf? hn, h.sameName]

theorem dottedNameUpTo (fuel : Nat) :
    dottedNameUpTo w'.forest fuel n = dottedNameUpTo w.forest fuel n := by
  induction fuel generalizing n with
  | zero => rfl
  | succ fuel ih =>
      rw [Semantics.dottedNameUpTo, Semantics.dottedNameUpTo, h.kind, h.nameOf? hn,
        h.child? hn .target nofun]
      cases hc : w.forest.child? n .target with
      | none => rfl
      | some c => simp only [Option.bind_eq_bind, Option.bind_some, ih (h.child?_seen hn hc nofun)]

theorem dottedName? : dottedName? w'.forest n = dottedName? w.forest n := by
  rw [Semantics.dottedName?, h.size, h.dottedNameUpTo hn, Semantics.dottedName?]

theorem ownName? : ownName? w'.forest n = ownName? w.forest n := by
  rw [Semantics.ownName?, Semantics.ownName?, h.child? hn .fullName nofun]
  cases hc : w.forest.child? n .fullName with
  | none => rfl
  | some c => exact h.dottedName? (h.child?_seen hn hc nofun)

/-- The name of a namespace declaration is spelled by nodes around it. -/
theorem namespaceName? : namespaceName? w'.forest n = namespaceName? w.forest n := by
  have hnames : ∀ ns : List NodeId, (∀ m ∈ ns, seen m) →
      ns.mapM (Semantics.ownName? w'.forest) = ns.mapM (Semantics.ownName? w.forest) := by
    intro ns hns
    induction ns with
    | nil => rfl
    | cons m ns ih =>
        obtain ⟨hm, hns⟩ := List.forall_mem_cons.mp hns
        rw [List.mapM_cons, List.mapM_cons, h.ownName? hm, ih hns]
  rw [Semantics.namespaceName?, Semantics.namespaceName?, h.ancestors hn]
  simp only [h.kind]
  rw [hnames]
  exact List.forall_mem_cons.mpr ⟨hn, fun m hm => h.ancestors_seen hn m (List.mem_of_mem_filter hm)⟩

/-! ## Namespaces -/

theorem namedDeclarations {p : NodeId → Bool}
    (hp : ∀ m, p m = true → w.forest.kind m = .namespaceDeclaration) :
    ((w'.forest.descendants n).filter p).filterMap (fun m =>
        (Semantics.namespaceName? w'.forest m).map (m, ·)) =
      ((w.forest.descendants n).filter p).filterMap (fun m =>
        (Semantics.namespaceName? w.forest m).map (m, ·)) ∧
    ∀ d ∈ ((w.forest.descendants n).filter p).filterMap (fun m =>
      (Semantics.namespaceName? w.forest m).map (m, ·)), seen d.1 := by
  have hdecls : ∀ m ∈ (w.forest.descendants n).filter p, seen m := by
    intro m hm
    obtain ⟨hdescendant, hkind⟩ := List.mem_filter.mp hm
    exact h.namespaces_seen hn m hdescendant (hp m hkind)
  refine ⟨?_, fun d hd => ?_⟩
  · rw [h.namespaces hn p hp]
    exact List.filterMap_congr fun m hm => by rw [h.namespaceName? (hdecls m hm)]
  · obtain ⟨m, hm, hd⟩ := List.mem_filterMap.mp hd
    obtain ⟨name, -, rfl⟩ := Option.map_eq_some_iff.mp hd
    exact hdecls m hm

theorem collectNamespace? (fullName : String) :
    SameOption (fun d => (Definition.ofNamespace d).Within seen)
      (collectNamespace? w' n fullName) (collectNamespace? w n fullName) := by
  unfold Semantics.collectNamespace?
  simp only [h.kind, h.sameName, h.isOuterName]
  split
  · exact .some ⟨hn, by simpa using hn⟩
  · rw [(h.namedDeclarations hn ?_).1]
    · split
      · exact .none
      · refine .some ⟨hn, fun m hm => ?_⟩
        obtain ⟨d, hd, rfl⟩ := List.mem_map.mp hm
        refine (h.namedDeclarations hn fun m hm => ?_).2 d (List.mem_of_mem_filter hd)
        split at hm
        · assumption
        · cases hm
    · intro m hm
      split at hm
      · assumption
      · cases hm

/-! ## Definitions -/

theorem parameters : parameters w'.forest n = parameters w.forest n ∧
    ∀ p ∈ parameters w.forest n, ∀ t ∈ p.type, seen t := by
  refine ⟨?_, fun p hp t ht => ?_⟩
  · rw [Semantics.parameters, Semantics.parameters, h.children hn .parameters nofun]
    refine List.filterMap_congr fun p hp => ?_
    have hseen := h.children_seen hn .parameters nofun p hp
    rw [h.kind, h.nameOf? hseen, h.child? hseen .type nofun, h.child? hseen .defaultExpression nofun]
  · obtain ⟨c, hc, hp⟩ := List.mem_filterMap.mp hp
    split at hp
    · obtain ⟨name, -, hp⟩ := Option.bind_eq_some_iff.mp hp
      cases hp
      exact h.child?_seen (h.children_seen hn .parameters nofun c hc) ht nofun
    · cases hp

theorem memberDeclarations : memberDeclarations w'.forest n = memberDeclarations w.forest n ∧
    ∀ m ∈ memberDeclarations w.forest n, seen m := by
  rw [Semantics.memberDeclarations, Semantics.memberDeclarations, h.kind,
    h.children hn .declarators nofun]
  refine ⟨rfl, ?_⟩
  split
  · exact h.children_seen hn .declarators nofun
  · simpa using hn
  · simpa using hn
  · simpa using hn
  · simpa using hn
  · simpa using hn
  · simp

end

end LooksAlike

theorem mem_addMember {key : String} {n m : NodeId} {table : List (String × List NodeId)}
    (hm : m ∈ (addMember key n table).flatMap (·.2)) : m = n ∨ m ∈ table.flatMap (·.2) := by
  induction table with
  | nil => simpa [addMember] using hm
  | cons entry table ih =>
      rw [addMember] at hm
      rw [List.flatMap_cons, List.mem_append]
      split at hm
      · rw [List.flatMap_cons, List.mem_append, List.mem_append, List.mem_singleton] at hm
        tauto
      · rw [List.flatMap_cons, List.mem_append] at hm
        rcases hm with hm | hm
        · exact .inr (.inl hm)
        · exact (ih hm).imp_right .inr

theorem mem_memberTable {f : Forest} {key : String → String} {m : NodeId} {ns : List NodeId}
    {table : List (String × List NodeId)}
    (hm : m ∈ (ns.foldl (fun table n =>
      match f.nameOf? n with
      | some name => addMember (key name) n table
      | none => table) table).flatMap (·.2)) : m ∈ ns ∨ m ∈ table.flatMap (·.2) := by
  induction ns generalizing table with
  | nil => exact .inr hm
  | cons n ns ih =>
      rw [List.foldl_cons] at hm
      rw [List.mem_cons]
      rcases ih hm with hm | hm
      · exact .inl (.inr hm)
      · split at hm
        · exact (mem_addMember hm).imp .inl id
        · exact .inr hm

namespace LooksAlike

variable (h : LooksAlike w w' seen)

include h

section

variable {n : NodeId} (hn : seen n)

include hn

theorem typeDef? (variant : TypeVariant) :
    SameOption (fun d => (Definition.ofType d).Within seen) (typeDef? w' n variant)
      (typeDef? w n variant) := by
  have hmembers := h.children_seen hn .members nofun
  have hdeclarations : ∀ m ∈ (w.forest.children n .members).flatMap
      (Semantics.memberDeclarations w.forest), seen m := by
    intro m hm
    obtain ⟨c, hc, hm⟩ := List.mem_flatMap.mp hm
    exact (h.memberDeclarations (hmembers c hc)).2 m hm
  have hsame : (w.forest.children n .members).flatMap (Semantics.memberDeclarations w'.forest) =
      (w.forest.children n .members).flatMap (Semantics.memberDeclarations w.forest) :=
    List.flatMap_congr fun c hc => (h.memberDeclarations (hmembers c hc)).1
  unfold Semantics.typeDef?
  simp only [h.nameOf? hn, h.children hn .members nofun, h.children hn .baseTypes nofun, h.kind,
    h.key, hsame]
  refine .bind fun name _ => ?_
  rw [List.foldl_ext _ _ _ fun table m hm => by rw [h.nameOf? (hdeclarations m hm)]]
  refine .some ⟨by simpa [Definition.decl?] using hn, fun m hm => ?_, fun m hm => ?_,
    h.children_seen hn .baseTypes nofun⟩
  · rcases mem_memberTable hm with hm | hm
    · exact hdeclarations m hm
    · cases hm
  · exact hmembers m (List.mem_of_mem_filter hm)

theorem declaratorDef? : SameOption (Definition.Within seen) (declaratorDef? w'.forest n)
    (declaratorDef? w.forest n) := by
  unfold Semantics.declaratorDef?
  rw [h.parent hn]
  refine .bind fun p hp => ?_
  have hseen := h.parent_seen hn hp
  simp only [h.child? hn .type nofun, h.child? hseen .type nofun, h.hasModifier hseen,
    h.child? hn .initializer nofun, h.nameOf? hn, h.kind, h.parent hseen]
  have htype : ∀ t ∈ (w.forest.child? n .type).or (w.forest.child? p .type), seen t := by
    intro t ht
    rcases Option.or_eq_some_iff.mp ht with ht | ⟨-, ht⟩
    · exact h.child?_seen hn ht nofun
    · exact h.child?_seen hseen ht nofun
  have hinitializer : ∀ c ∈ w.forest.child? n .initializer, seen c :=
    fun c hc => h.child?_seen hn hc nofun
  refine .bind fun name _ => ?_
  split
  · exact .bind fun owner howner => .some ⟨h.parent_seen hseen howner, htype, hinitializer⟩
  · exact .some ⟨htype, hinitializer⟩

theorem variableDef? (kind : VariableKind) {initializer : Option NodeId}
    (hinitializer : ∀ c ∈ initializer, seen c) :
    SameOption (Definition.Within seen) (variableDef? w'.forest n kind initializer)
      (variableDef? w.forest n kind initializer) := by
  unfold Semantics.variableDef?
  rw [h.nameOf? hn, h.child? hn .type nofun]
  exact .bind fun name _ => .some ⟨fun c hc => h.child?_seen hn hc nofun, hinitializer⟩

theorem declared? : SameOption (Definition.Within seen) (declared? w' n) (declared? w n) := by
  have hchild : ∀ t : Title, t ≠ .statements → ∀ c ∈ w.forest.child? n t, seen c :=
    fun t ht c hc => h.child?_seen hn hc ht
  have hparameters := (h.parameters hn).2
  unfold Semantics.declared?
  simp only [h.kind, h.nameOf? hn, h.parent hn, h.child? hn .initializer nofun,
    h.child? hn .type nofun, h.child? hn .getter nofun, h.child? hn .setter nofun,
    h.child? hn .defaultExpression nofun, h.child? hn .expression nofun, (h.parameters hn).1]
  split
  · exact (h.typeDef? hn _).map fun _ => id
  · exact h.declaratorDef? hn
  · exact .bind fun name _ => .bind fun p hp =>
      .some ⟨h.parent_seen hn hp, by simp, hchild _ nofun⟩
  · exact .bind fun name _ => .bind fun p hp => .some (hchild _ nofun)
  · exact .bind fun name _ => .bind fun p hp => .some ⟨hchild _ nofun, hparameters⟩
  · refine .bind fun p hp => ?_
    rw [h.nameOf? (h.parent_seen hn hp)]
    exact .bind fun name _ => .some ⟨by simp, hparameters⟩
  · exact .bind fun name _ => .bind fun p hp => .some (hchild _ nofun)
  · exact h.variableDef? hn _ (hchild _ nofun)
  · refine .bind fun p hp => ?_
    have hseen := h.parent_seen hn hp
    rw [h.child? hseen .type nofun]
    exact .some ⟨fun c hc => h.child?_seen hseen hc nofun, by simp⟩
  · exact h.variableDef? hn _ (hchild _ nofun)
  · exact h.variableDef? hn _ (hchild _ nofun)
  · exact h.variableDef? hn _ (by simp)
  · exact .none

end

end LooksAlike

end Semantics

end DualSyntax
