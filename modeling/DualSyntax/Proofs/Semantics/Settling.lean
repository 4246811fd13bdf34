import DualSyntax.Proofs.Forest.Data
import DualSyntax.Semantics
import Mathlib.Data.List.ReduceOption

/-!
# Questions that are settled

A question is settled if it has an answer whatever spellings are remembered, and what is being worked
out is afterwards what it was before.  The rules here say how questions that are made of others are
settled; below them, the questions that lead to no deeper ones are settled outright.
-/

namespace DualSyntax

def Definition.DeclaredIn (among : NodeId → Prop) (d : Definition) : Prop :=
  ∀ n, d.decl? = some n → among n

namespace Semantics

variable {α β : Type} {w : World} {active : List (Aspect × NodeId)}

/-- A question has an answer with a property, whatever spellings are remembered, and leaves what is
being worked out as it was. -/
def Settles (w : World) (active : List (Aspect × NodeId)) (ask : Ask α) (P : α → Prop) : Prop :=
  ∀ spellings, ∃ a spellings',
    ask w ⟨spellings, active⟩ = some (a, ⟨spellings', active⟩) ∧ P a

namespace Settles

variable {ask : Ask α} {P : α → Prop} {Q : β → Prop}

theorem pure {a : α} (h : P a) : Settles w active (Pure.pure a) P :=
  fun spellings => ⟨a, spellings, rfl, h⟩

theorem bind {next : α → Ask β} (h : Settles w active ask P)
    (hnext : ∀ a, P a → Settles w active (next a) Q) : Settles w active (ask >>= next) Q := by
  intro spellings
  obtain ⟨a, spellings', hrun, ha⟩ := h spellings
  obtain ⟨b, spellings'', hrun', hb⟩ := hnext a ha spellings'
  refine ⟨b, spellings'', ?_, hb⟩
  change (ask w ⟨spellings, active⟩).bind _ = _
  rw [hrun]
  exact hrun'

theorem mono {P' : α → Prop} (h : Settles w active ask P) (himp : ∀ a, P a → P' a) :
    Settles w active ask P' := by
  intro spellings
  obtain ⟨a, spellings', hrun, ha⟩ := h spellings
  exact ⟨a, spellings', hrun, himp a ha⟩

theorem read {next : World → Ask β} (h : Settles w active (next w) Q) :
    Settles w active (MonadReader.read >>= next) Q := h

theorem forest {next : Forest → Ask β} (h : Settles w active (next w.forest) Q) :
    Settles w active (Semantics.forest >>= next) Q := h

theorem get {next : Memory → Ask β}
    (h : ∀ spellings, Settles w active (next ⟨spellings, active⟩) Q) :
    Settles w active (MonadState.get >>= next) Q :=
  fun spellings => h spellings spellings

theorem remember (s : Spelling) :
    Settles w active (modify fun m => { m with spellings := s :: m.spellings }) fun _ => True :=
  fun spellings => ⟨(), s :: spellings, rfl, trivial⟩

theorem ite {c : Prop} [Decidable c] {other : Ask α} (h : c → Settles w active ask P)
    (hother : ¬ c → Settles w active other P) : Settles w active (if c then ask else other) P := by
  split
  · exact h ‹_›
  · exact hother ‹_›

theorem mapM {f : α → Ask β} {l : List α} (h : ∀ a ∈ l, Settles w active (f a) Q) :
    Settles w active (l.mapM f) fun bs => bs.length = l.length ∧ ∀ b ∈ bs, Q b := by
  induction l with
  | nil => exact .pure ⟨rfl, by simp⟩
  | cons a l ih =>
      rw [List.mapM_cons]
      refine .bind (h a List.mem_cons_self) fun b hb => ?_
      refine .bind (ih fun a ha => h a (List.mem_cons_of_mem _ ha)) fun bs hbs => ?_
      exact .pure ⟨by simp [hbs.1], by simpa using ⟨hb, hbs.2⟩⟩

theorem findSomeM? {f : α → Ask (Option β)} {l : List α}
    (h : ∀ a ∈ l, Settles w active (f a) fun o => ∀ b ∈ o, Q b) :
    Settles w active (l.findSomeM? f) fun o => ∀ b ∈ o, Q b := by
  induction l with
  | nil => exact .pure (by simp)
  | cons a l ih =>
      rw [List.findSomeM?]
      refine .bind (h a List.mem_cons_self) fun o ho => ?_
      cases o with
      | none => exact ih fun a ha => h a (List.mem_cons_of_mem _ ha)
      | some b => exact .pure ho

/-- While an aspect of a node is being worked out, that is known, and afterwards no longer. -/
theorem guarded {aspect : Aspect} {n : NodeId} {ask : Ask (Option α)} {P : Option α → Prop}
    (hnone : P none) (h : (aspect, n) ∉ active → Settles w ((aspect, n) :: active) ask P) :
    Settles w active (guarded aspect n ask) P := by
  intro spellings
  by_cases hactive : (aspect, n) ∈ active
  · refine ⟨none, spellings, ?_, hnone⟩
    have hcontains : active.contains (aspect, n) = true := by simpa using hactive
    change (if active.contains (aspect, n) = true then _ else _ : Ask (Option α)) w _ = _
    rw [if_pos hcontains]
    rfl
  · obtain ⟨a, spellings', hrun, ha⟩ := h hactive spellings
    refine ⟨a, spellings', ?_, ha⟩
    have hcontains : ¬ active.contains (aspect, n) = true := by simpa using hactive
    change (if active.contains (aspect, n) = true then _ else _ : Ask (Option α)) w _ = _
    rw [if_neg hcontains]
    change (ask w ⟨spellings, (aspect, n) :: active⟩).bind _ = _
    rw [hrun]
    change some (a, (⟨spellings', ((aspect, n) :: active).erase (aspect, n)⟩ : Memory)) = _
    rw [List.erase_cons_head]

end Settles

/-! ## Names and scopes -/

theorem settles_namespaceNamed? (root : NodeId) (fullName : String) :
    Settles w active (namespaceNamed? root fullName) fun _ => True := by
  refine .read (.get fun spellings => ?_)
  split
  · exact .pure trivial
  · exact .bind (.remember _) fun _ _ => .pure trivial

theorem settles_namespaceScopes (n : NodeId) :
    Settles w active (namespaceScopes n) fun _ => True := by
  refine .forest ?_
  split
  · exact .bind (.mapM fun name _ => settles_namespaceNamed? _ name) fun _ _ => .pure trivial
  · exact .pure trivial

theorem settles_scopesAround (child n : NodeId) :
    Settles w active (scopesAround child n) fun _ => True := by
  refine .forest ?_
  cases w.forest.kind n with
  | namespaceDeclaration => exact .bind (settles_namespaceScopes n) fun _ _ => .pure trivial
  | _ => exact .pure trivial

theorem settles_scopesAlong (child : NodeId) (ns : List NodeId) :
    Settles w active (scopesAlong child ns) fun _ => True := by
  induction ns generalizing child with
  | nil => exact .pure trivial
  | cons n ns ih =>
      exact .bind (settles_scopesAround child n) fun _ _ => .bind (ih n) fun _ _ => .pure trivial

/-- The scopes around any node are found. -/
theorem settles_scopesAt (n : NodeId) : Settles w active (scopesAt n) fun _ => True :=
  .forest (settles_scopesAlong n _)

/-! ## Definitions -/

theorem lt_size_of_kind {f : Forest} {n : NodeId} (h : f.kind n ≠ .blankLine) : n < f.size := by
  rcases Nat.lt_or_ge n f.size with hlt | hge
  · exact hlt
  · exact absurd (by rw [Forest.kind, Forest.data_of_size_le hge]) h

/-- What is made of two things, if both are there. -/
theorem exists_of_bind₂ {γ : Type} {a : Option α} {b : α → Option β} {make : α → β → γ} {c : γ}
    (h : (do let x ← a; let y ← b x; return make x y) = some c) : ∃ x y, make x y = c := by
  obtain ⟨x, -, h⟩ := Option.bind_eq_some_iff.mp h
  obtain ⟨y, -, h⟩ := Option.bind_eq_some_iff.mp h
  exact ⟨x, y, Option.some.inj h⟩

theorem typeDef?_origin {n : NodeId} {variant : TypeVariant} {d : TypeDef}
    (h : typeDef? w n variant = some d) :
    d.origin = .declared n variant ∧ d.baseTypes = w.forest.children n .baseTypes := by
  obtain ⟨name, -, h⟩ := Option.bind_eq_some_iff.mp h
  cases h
  exact ⟨rfl, rfl⟩

def IsPlain (n : NodeId) (d : Definition) : Prop := d.decl? = some n ∧ d.type? = none

theorem isPlain_of_declaratorDef? {f : Forest} {n : NodeId} {d : Definition}
    (h : declaratorDef? f n = some d) : IsPlain n d := by
  obtain ⟨parent, -, h⟩ := Option.bind_eq_some_iff.mp h
  obtain ⟨name, -, h⟩ := Option.bind_eq_some_iff.mp h
  split at h
  · obtain ⟨owner, -, h⟩ := Option.bind_eq_some_iff.mp h
    cases h
    exact ⟨rfl, rfl⟩
  · cases h
    exact ⟨rfl, rfl⟩

theorem isPlain_of_variableDef? {f : Forest} {n : NodeId} {kind : VariableKind}
    {initializer : Option NodeId} {d : Definition}
    (h : variableDef? f n kind initializer = some d) : IsPlain n d := by
  obtain ⟨name, -, h⟩ := Option.bind_eq_some_iff.mp h
  cases h
  exact ⟨rfl, rfl⟩

theorem declared?_type_or_plain {n : NodeId} {d : Definition} (h : declared? w n = some d) :
    (∃ variant t, d = .ofType t ∧ typeDef? w n variant = some t) ∨ IsPlain n d := by
  unfold declared? at h
  dsimp only at h
  split at h
  · obtain ⟨t, ht, rfl⟩ := Option.map_eq_some_iff.mp h
    exact .inl ⟨_, t, rfl, ht⟩
  · exact .inr (isPlain_of_declaratorDef? h)
  · obtain ⟨name, owner, rfl⟩ := exists_of_bind₂ h
    exact .inr ⟨rfl, rfl⟩
  · obtain ⟨name, owner, rfl⟩ := exists_of_bind₂ h
    exact .inr ⟨rfl, rfl⟩
  · obtain ⟨name, owner, rfl⟩ := exists_of_bind₂ h
    exact .inr ⟨rfl, rfl⟩
  · obtain ⟨owner, name, rfl⟩ := exists_of_bind₂ h
    exact .inr ⟨rfl, rfl⟩
  · obtain ⟨name, owner, rfl⟩ := exists_of_bind₂ h
    exact .inr ⟨rfl, rfl⟩
  · exact .inr (isPlain_of_variableDef? h)
  · obtain ⟨parent, -, h⟩ := Option.bind_eq_some_iff.mp h
    cases h
    exact .inr ⟨rfl, rfl⟩
  · exact .inr (isPlain_of_variableDef? h)
  · exact .inr (isPlain_of_variableDef? h)
  · exact .inr (isPlain_of_variableDef? h)
  · cases h

theorem declared?_cases {n : NodeId} {d : Definition} (h : declared? w n = some d) :
    (∃ variant t, d = .ofType t ∧ t.origin = .declared n variant ∧
      t.baseTypes = w.forest.children n .baseTypes) ∨ IsPlain n d := by
  obtain ⟨variant, t, rfl, ht⟩ | hplain := declared?_type_or_plain h
  · exact .inl ⟨variant, t, rfl, typeDef?_origin ht⟩
  · exact .inr hplain

theorem decl?_of_declared? {n : NodeId} {d : Definition} (h : declared? w n = some d) :
    d.decl? = some n := by
  obtain ⟨variant, t, rfl, horigin, -⟩ | hplain := declared?_cases h
  · simp [Definition.decl?, horigin]
  · exact hplain.1

theorem lt_size_of_declared? {n : NodeId} {d : Definition} (h : declared? w n = some d) :
    n < w.forest.size := by
  refine lt_size_of_kind fun hkind => ?_
  simp [declared?, hkind] at h

/-- A definition of the forest is declared by one of its nodes. -/
abbrev Known (w : World) (d : Definition) : Prop := d.DeclaredIn (· < w.forest.size)

def KnownAll (w : World) (ds : List Definition) : Prop := ∀ d ∈ ds, Known w d

theorem KnownAll.nil : KnownAll w [] := by simp [KnownAll]

theorem KnownAll.append {ds es : List Definition} (h : KnownAll w ds) (h' : KnownAll w es) :
    KnownAll w (ds ++ es) := fun d hd => (List.mem_append.mp hd).elim (h d) (h' d)

theorem KnownAll.filter {ds : List Definition} (h : KnownAll w ds) (accept : Definition → Bool) :
    KnownAll w (ds.filter accept) := fun d hd => h d (List.mem_of_mem_filter hd)

theorem KnownAll.toList {o : Option Definition} (h : ∀ d ∈ o, Known w d) : KnownAll w o.toList :=
  fun d hd => h d (Option.mem_toList.mp hd)

/-- What is asked for is the definition that the node makes, unless it is a namespace. -/
theorem settles_definitionOf_eq (n : NodeId) :
    Settles w active (definitionOf n) fun o => ∀ d ∈ o, declared? w n = some d ∨ d.decl? = none ∧
      d.type? = none := by
  refine .read ?_
  split
  · split
    · refine .bind (settles_namespaceNamed? _ _) fun o _ => .pure fun d hd => .inr ?_
      obtain ⟨d, -, rfl⟩ := Option.map_eq_some_iff.mp hd
      exact ⟨rfl, rfl⟩
    · exact .pure (by simp)
  · exact .pure fun d hd => .inl hd

theorem settles_definitionOf (n : NodeId) :
    Settles w active (definitionOf n) fun o => ∀ d ∈ o, Known w d := by
  refine (settles_definitionOf_eq n).mono fun o ho d hd m hm => ?_
  obtain hdecl | ⟨hnone, -⟩ := ho d hd
  · rw [decl?_of_declared? hdecl] at hm
    cases hm
    exact lt_size_of_declared? hdecl
  · rw [hnone] at hm
    cases hm

/-- The definitions that several nodes make. -/
theorem settles_definitionsOf (ns : List NodeId) :
    Settles w active (ns.mapM definitionOf) fun os => KnownAll w os.reduceOption := by
  refine (Settles.mapM fun n _ => settles_definitionOf n).mono fun os hos d hd => ?_
  exact hos.2 (some d) (List.reduceOption_mem_iff.mp hd) d rfl

/-! ## Names in scopes without base types -/

theorem settles_firstNamed (name : String) (ns : List NodeId) :
    Settles w active (firstNamed name ns) fun o => ∀ d ∈ o, Known w d := by
  refine .read ?_
  split
  · exact settles_definitionOf _
  · exact .pure (by simp)

theorem settles_declaredVariable (name : String) (n : NodeId) :
    Settles w active (declaredVariable name n) fun o => ∀ d ∈ o, Known w d :=
  .forest (settles_firstNamed name _)

theorem settles_variableAmong (name : String) (ns : List NodeId) :
    Settles w active (variableAmong name ns) fun o => ∀ d ∈ o, Known w d :=
  .forest (.findSomeM? fun n _ => settles_declaredVariable name n)

theorem settles_blockVariable (n : NodeId) (upto : Nat) (name : String) :
    Settles w active (blockVariable n upto name) fun o => ∀ d ∈ o, Known w d :=
  .forest (settles_variableAmong name _)

theorem settles_statementVariable (n : NodeId) (name : String) :
    Settles w active (statementVariable n name) fun o => ∀ d ∈ o, Known w d := by
  refine .forest ?_
  split
  · exact settles_variableAmong name _
  · exact settles_variableAmong name _
  · exact settles_declaredVariable name n
  · exact settles_firstNamed name _
  · exact settles_firstNamed name _
  · exact settles_firstNamed name _
  · exact .pure (by simp)

theorem settles_parameterNamed (n : NodeId) (name : String) :
    Settles w active (parameterNamed n name) fun o => ∀ d ∈ o, Known w d := by
  exact .read (.ite (fun _ => settles_definitionOf n) fun _ => settles_firstNamed name _)

/-- The members that a type declares itself are found. -/
theorem settles_ownMembers (n : NodeId) (name : String) :
    Settles w active (ownMembers n name) (KnownAll w) := by
  refine .read (.bind (settles_definitionOf n) fun o _ => ?_)
  split
  · exact .pure .nil
  · exact .bind (settles_definitionsOf _) fun os hos => .pure hos

theorem known_builtin (t : KnownType) : Known w (.builtin t) := by
  rintro n ⟨⟩

theorem known_builtinNamed? {name : String} {d : Definition} (h : builtinNamed? w name = some d) :
    Known w d := by
  obtain ⟨t, -, rfl⟩ := Option.map_eq_some_iff.mp h
  exact known_builtin t

theorem known_builtinWithKeyword? {word : String} {d : Definition}
    (h : builtinWithKeyword? w word = some d) : Known w d := by
  obtain ⟨t, -, rfl⟩ := Option.map_eq_some_iff.mp h
  exact known_builtin t

theorem settles_namespaceMembers (ns : NamespaceDef) (name : String) :
    Settles w active (namespaceMembers ns name) (KnownAll w) := by
  refine .read (.bind (settles_definitionsOf _) fun os hos => ?_)
  dsimp only
  refine .ite (fun _ => .pure (hos.append (.toList fun d hd => ?_))) fun _ => ?_
  · split at hd
    · exact known_builtinNamed? hd
    · cases hd
  · refine .bind (settles_namespaceNamed? _ _) fun o _ => ?_
    split
    · refine .pure fun d hd => ?_
      cases List.mem_singleton.mp hd
      rintro n ⟨⟩
    · refine .bind (.mapM fun m _ => settles_ownMembers m name) fun dss hdss => .pure fun d hd => ?_
      obtain ⟨ds, hds, hd⟩ := List.mem_flatten.mp hd
      exact hdss.2 ds hds d hd

theorem settles_importedMembers (root : NodeId) (name : String) (ms : List NodeId) :
    Settles w active (importedMembers root name ms) (KnownAll w) := by
  induction ms with
  | nil => exact .pure .nil
  | cons m ms ih =>
      have hrest : ∀ found, KnownAll w found → Settles w active
          (do return found ++ (← importedMembers root name ms)) (KnownAll w) :=
        fun found hfound => .bind ih fun more hmore => .pure (hfound.append hmore)
      refine .forest ?_
      dsimp only
      split
      · exact hrest [] .nil
      · refine .bind (settles_namespaceNamed? _ _) fun o _ => ?_
        split
        · exact hrest [] .nil
        · exact .bind (settles_namespaceMembers _ name) fun ds hds => hrest _ (hds.filter _)

theorem settles_globalMembers (n : NodeId) (name : String) :
    Settles w active (globalMembers n name) (KnownAll w) := by
  refine .bind (settles_namespaceNamed? n "") fun o _ => ?_
  have hrest : ∀ found, KnownAll w found → Settles w active
      (if !found.isEmpty then pure found
        else do return (builtinWithKeyword? (← read) name).toList) (KnownAll w) := by
    intro found hfound
    refine .ite (fun _ => .pure hfound) fun _ => .read (.pure (.toList fun d hd => ?_))
    exact known_builtinWithKeyword? hd
  split
  · exact .bind (settles_namespaceMembers _ name) hrest
  · exact hrest [] .nil

end Semantics

end DualSyntax
