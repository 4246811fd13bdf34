import DualSyntax.Proofs.Lexing.Folding
import DualSyntax.Proofs.Semantics.Settling

/-!
# Spellings of namespaces

A namespace is reported in the spelling in which it was asked for first.  Two things are the same up to
such spellings if they are equal once every name of a namespace is replaced by its key; where case
matters, a name is its own key and they are equal.  What decides whether a namespace exists, and what
belongs to it, is read off the key.
-/

namespace DualSyntax

open Semantics (World)

namespace Semantics

/-! ## Keys of names -/

def World.fold (w : World) (c : Char) : Char := if w.caseSensitive then c else c.toLower

variable {w : World} {a b : String}

theorem World.toList_key (w : World) (name : String) : (w.key name).toList = name.toList.map w.fold := by
  unfold World.key World.fold
  split
  · simp
  · exact String.toList_map

theorem World.key_eq_iff : w.key a = w.key b ↔ a.toList.map w.fold = b.toList.map w.fold := by
  rw [← String.toList_inj, World.toList_key, World.toList_key]

theorem World.key_ofList_eq_iff {cs ds : List Char} :
    w.key (String.ofList cs) = w.key (String.ofList ds) ↔ cs.map w.fold = ds.map w.fold := by
  rw [World.key_eq_iff, String.toList_ofList, String.toList_ofList]

theorem World.sameName_eq_true_iff : w.sameName a b = true ↔ w.key a = w.key b := by
  unfold World.sameName World.key Text.sameIgnoringCase
  split <;> simp

theorem World.sameName_right (h : w.key a = w.key b) (name : String) :
    w.sameName name a = w.sameName name b := by
  rw [Bool.eq_iff_iff, World.sameName_eq_true_iff, World.sameName_eq_true_iff, h]

theorem World.sameName_left (h : w.key a = w.key b) (name : String) :
    w.sameName a name = w.sameName b name := by
  rw [Bool.eq_iff_iff, World.sameName_eq_true_iff, World.sameName_eq_true_iff, h]

theorem World.key_append (w : World) (a b : String) : w.key (a ++ b) = w.key a ++ w.key b := by
  rw [← String.toList_inj, String.toList_append, World.toList_key, World.toList_key,
    World.toList_key, String.toList_append, List.map_append]

theorem length_of_key_eq (h : w.key a = w.key b) : a.length = b.length := by
  have hlength := congrArg List.length (World.key_eq_iff.mp h)
  rwa [List.length_map, List.length_map, String.length_toList, String.length_toList] at hlength

theorem isEmpty_of_key_eq (h : w.key a = w.key b) : a.isEmpty = b.isEmpty := by
  have hlength := length_of_key_eq h
  rw [Bool.eq_iff_iff, String.isEmpty_iff, String.isEmpty_iff, ← String.length_eq_zero_iff,
    ← String.length_eq_zero_iff, hlength]

theorem World.fold_eq_dot_iff (w : World) (c : Char) : w.fold c = '.' ↔ c = '.' := by
  unfold World.fold
  split
  · rfl
  · exact Lexing.toLower_eq_iff rfl c

theorem takeWhile_ne_dot (w : World) (cs : List Char) :
    (cs.takeWhile (· != '.')).map w.fold = (cs.map w.fold).takeWhile (· != '.') := by
  have hdot : ((· != '.') ∘ w.fold) = fun c => c != '.' := by
    funext c
    rw [Function.comp_apply, Bool.eq_iff_iff, bne_iff_ne, bne_iff_ne, ne_eq, w.fold_eq_dot_iff c]
  rw [List.takeWhile_map, hdot]

theorem key_lastPart (h : w.key a = w.key b) : w.key (lastPart a) = w.key (lastPart b) := by
  have hlast : ∀ name : String, ((name.toList.reverse.takeWhile (· != '.')).reverse).map w.fold =
      (((name.toList.map w.fold).reverse).takeWhile (· != '.')).reverse := by
    intro name
    rw [List.map_reverse, takeWhile_ne_dot, List.map_reverse]
  rw [lastPart, lastPart, World.key_ofList_eq_iff, hlast, hlast, World.key_eq_iff.mp h]

/-- Names with one key stand in front of a dot in the same names. -/
theorem isOuterName_congr (h : w.key a = w.key b) (full : String) :
    isOuterName w a full = isOuterName w b full := by
  unfold isOuterName
  dsimp only
  rw [length_of_key_eq h, World.sameName_right h]

end Semantics

/-! ## Up to spellings -/

def NamespaceDef.keyed (w : World) (d : NamespaceDef) : NamespaceDef :=
  { d with name := w.key d.name, fullName := w.key d.fullName }

def Definition.keyed (w : World) : Definition → Definition
  | ofNamespace d => ofNamespace (d.keyed w)
  | d => d

def Scope.keyed (w : World) : Scope → Scope
  | ofNamespace d => ofNamespace (d.keyed w)
  | s => s

mutual

def Meaning.keyed (w : World) : Meaning → Meaning
  | unknown name => unknown name
  | member candidates type => member (candidates.map (Definition.keyed w)) type
  | constant value type => constant value type
  | call method arguments type =>
    call (method.map (Definition.keyed w)) (Meaning.keyedAll w arguments) type
  | this type => this type
  | base type => base type
  | conversion type operand => conversion type (Meaning.keyed w operand)
  | error message candidates => error message (candidates.map (Definition.keyed w))

def Meaning.keyedAll (w : World) : List Meaning → List Meaning
  | [] => []
  | m :: ms => Meaning.keyed w m :: Meaning.keyedAll w ms

end

section Keyed

variable {w : World}

theorem NamespaceDef.keyed_eq_iff {d d' : NamespaceDef} : d.keyed w = d'.keyed w ↔
    w.key d.name = w.key d'.name ∧ w.key d.fullName = w.key d'.fullName ∧ d.root = d'.root ∧
      d.decls = d'.decls := by
  simp [NamespaceDef.keyed]

theorem Definition.keyed_cases {d d' : Definition} (h : d.keyed w = d'.keyed w) :
    (∃ n n' : NamespaceDef, d = .ofNamespace n ∧ d' = .ofNamespace n' ∧ n.keyed w = n'.keyed w) ∨
      d = d' ∧ d.namespace? = none := by
  cases d with
  | ofNamespace n =>
      cases d' with
      | ofNamespace n' => exact .inl ⟨n, n', rfl, rfl, by simpa [keyed] using h⟩
      | _ => simp [keyed] at h
  | _ =>
      cases d' with
      | ofNamespace n' => simp [keyed] at h
      | _ => exact .inr ⟨h, rfl⟩

/-- Scopes that are the same up to spellings are of namespaces or equal. -/
theorem Scope.keyed_cases {s s' : Scope} (h : s.keyed w = s'.keyed w) :
    (∃ n n' : NamespaceDef, s = .ofNamespace n ∧ s' = .ofNamespace n' ∧ n.keyed w = n'.keyed w) ∨
      s = s' := by
  cases s with
  | ofNamespace n =>
      cases s' with
      | ofNamespace n' => exact .inl ⟨n, n', rfl, rfl, by simpa [keyed] using h⟩
      | _ => simp [keyed] at h
  | _ =>
      cases s' with
      | ofNamespace n' => simp [keyed] at h
      | _ => exact .inr h

@[simp] theorem Definition.isTypeLike_keyed (d : Definition) :
    (d.keyed w).isTypeLike = d.isTypeLike := by
  cases d <;> rfl

@[simp] theorem Definition.method?_keyed (d : Definition) : (d.keyed w).method? = d.method? := by
  cases d <;> rfl

@[simp] theorem Definition.type?_keyed (d : Definition) : (d.keyed w).type? = d.type? := by
  cases d <;> rfl

@[simp] theorem Definition.namespace?_keyed (d : Definition) :
    (d.keyed w).namespace? = d.namespace?.map (NamespaceDef.keyed w) := by
  cases d <;> rfl

/-- A choice among definitions that does not look at spellings. -/
theorem map_keyed_filter {p : Definition → Bool} (hp : ∀ d : Definition, p (d.keyed w) = p d)
    {ds ds' : List Definition} (h : ds.map (Definition.keyed w) = ds'.map (Definition.keyed w)) :
    (ds.filter p).map (Definition.keyed w) = (ds'.filter p).map (Definition.keyed w) := by
  have hcomp : p ∘ Definition.keyed w = p := funext hp
  have hfilter := congrArg (List.filter p) h
  rwa [List.filter_map, List.filter_map, hcomp] at hfilter

theorem isEmpty_of_map_eq {α β : Type} {k : α → β} {xs ys : List α} (h : xs.map k = ys.map k) :
    xs.isEmpty = ys.isEmpty := by
  have hempty := congrArg List.isEmpty h
  rwa [List.isEmpty_map, List.isEmpty_map] at hempty

/-- The innermost type around a place does not depend on spellings. -/
theorem Scope.enclosingType?_keyed {ss ss' : List Scope}
    (h : ss.map (Scope.keyed w) = ss'.map (Scope.keyed w)) :
    Scope.enclosingType? ss = Scope.enclosingType? ss' := by
  have hkeyed : ∀ ss : List Scope, Scope.enclosingType? (ss.map (Scope.keyed w)) =
      Scope.enclosingType? ss := by
    intro ss
    rw [enclosingType?, enclosingType?, List.findSome?_map]
    congr 1
    funext s
    cases s <;> rfl
  rw [← hkeyed, h, hkeyed]

theorem Meaning.keyedAll_eq_map (w : World) (ms : List Meaning) :
    Meaning.keyedAll w ms = ms.map (Meaning.keyed w) := by
  induction ms with
  | nil => rfl
  | cons m ms ih => rw [Meaning.keyedAll, ih, List.map_cons]

/-- What two meanings that are the same up to spellings are made of. -/
inductive Meaning.Twins (w : World) : Meaning → Meaning → Prop
  | unknown (name : String) : Twins w (.unknown name) (.unknown name)
  | member {cs cs' : List Definition} (h : cs.map (Definition.keyed w) = cs'.map (Definition.keyed w))
      (type : Option TypeRef) : Twins w (.member cs type) (.member cs' type)
  | constant (value : ConstantValue) (type : Option TypeRef) :
      Twins w (.constant value type) (.constant value type)
  | call {d d' : Option Definition} {ms ms' : List Meaning}
      (h : d.map (Definition.keyed w) = d'.map (Definition.keyed w))
      (hms : ms.map (Meaning.keyed w) = ms'.map (Meaning.keyed w)) (type : Option TypeRef) :
      Twins w (.call d ms type) (.call d' ms' type)
  | this (type : Option TypeRef) : Twins w (.this type) (.this type)
  | base (type : Option TypeRef) : Twins w (.base type) (.base type)
  | conversion (type : TypeRef) {m m' : Meaning} (h : m.keyed w = m'.keyed w) :
      Twins w (.conversion type m) (.conversion type m')
  | error (message : String) {cs cs' : List Definition}
      (h : cs.map (Definition.keyed w) = cs'.map (Definition.keyed w)) :
      Twins w (.error message cs) (.error message cs')

theorem Meaning.keyed_eq_iff {m m' : Meaning} : m.keyed w = m'.keyed w ↔ Meaning.Twins w m m' := by
  constructor
  · intro h
    cases m <;> cases m' <;>
      simp only [keyed, keyedAll_eq_map, reduceCtorEq, unknown.injEq, member.injEq, constant.injEq,
        call.injEq, this.injEq, base.injEq, conversion.injEq, error.injEq] at h
    · cases h; exact .unknown _
    · obtain ⟨h, rfl⟩ := h; exact .member h _
    · obtain ⟨rfl, rfl⟩ := h; exact .constant _ _
    · obtain ⟨h, hms, rfl⟩ := h; exact .call h hms _
    · cases h; exact .this _
    · cases h; exact .base _
    · obtain ⟨rfl, h⟩ := h; exact .conversion _ h
    · obtain ⟨rfl, h⟩ := h; exact .error _ h
  · intro h
    cases h with
    | member h | error _ h => simp only [keyed, h]
    | call h hms => simp only [keyed, keyedAll_eq_map, h, hms]
    | conversion _ h => simp only [keyed, h]
    | _ => rfl

theorem Meaning.type?_keyed (m : Meaning) : (m.keyed w).type? = m.type? := by
  cases m <;> rfl

theorem Meaning.type?_of_keyed {m m' : Meaning} (h : m.keyed w = m'.keyed w) : m.type? = m'.type? := by
  rw [← m.type?_keyed, h, m'.type?_keyed]

theorem Meaning.types_of_keyed {ms ms' : List Meaning}
    (h : ms.map (Meaning.keyed w) = ms'.map (Meaning.keyed w)) :
    ms.map Meaning.type? = ms'.map Meaning.type? := by
  have hcomp : Meaning.type? ∘ Meaning.keyed w = Meaning.type? := funext Meaning.type?_keyed
  have htypes := congrArg (List.map Meaning.type?) h
  rwa [List.map_map, List.map_map, hcomp] at htypes

theorem Meaning.scope?_keyed (m : Meaning) : (m.keyed w).scope? = m.scope?.map (Scope.keyed w) := by
  have htype : ∀ t, Meaning.scopeOfType? t = (Meaning.scopeOfType? t).map (Scope.keyed w) := by
    intro t
    unfold Meaning.scopeOfType?
    split <;> rfl
  cases m with
  | member cs t =>
      cases cs with
      | nil => rfl
      | cons d cs =>
          cases d with
          | ofNamespace | ofMethod => rfl
          | _ => exact htype t
  | unknown | error => rfl
  | _ => exact htype _

theorem Meaning.scope?_of_keyed {m m' : Meaning} (h : m.keyed w = m'.keyed w) :
    m.scope?.map (Scope.keyed w) = m'.scope?.map (Scope.keyed w) := by
  rw [← m.scope?_keyed, h, m'.scope?_keyed]

end Keyed

namespace Semantics

variable {w : World} {a b : String}

theorem collectNamespace?_keyed (h : w.key a = w.key b) (root : NodeId) :
    (collectNamespace? w root a).map (NamespaceDef.keyed w) =
      (collectNamespace? w root b).map (NamespaceDef.keyed w) := by
  have houter : ∀ d : NodeId × String, isOuterName w a d.2 = isOuterName w b d.2 :=
    fun d => isOuterName_congr h d.2
  unfold collectNamespace?
  rw [isEmpty_of_key_eq h]
  split
  · rfl
  · simp only [World.sameName_right h, World.sameName_left h, houter]
    split
    · rfl
    · rw [Option.map_some, Option.map_some, Option.some_inj, NamespaceDef.keyed_eq_iff]
      exact ⟨key_lastPart h, h, rfl, rfl⟩

end Semantics

end DualSyntax
