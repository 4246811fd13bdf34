import DualSyntax.Proofs.Semantics.Spellings
import Mathlib.Data.List.Forall2

/-!
# Questions that agree

Two questions agree if, asked with whatever spellings are remembered but while the same things are
being worked out, both have answers and these are related, or neither has one.  All that a question
reads of the spellings is that of a namespace it names, so every question agrees with itself up to
spellings; the rules for questions made of others carry this from the names of namespaces to lookups.
-/

namespace DualSyntax.Semantics

variable {α β γ δ : Type} {w : World}

theorem rel_cases {r : α → β → Prop} {o : Option α} {o' : Option β} (h : Option.Rel r o o') :
    (o = none ∧ o' = none) ∨ ∃ a b, o = some a ∧ o' = some b ∧ r a b := by
  cases h with
  | none => exact .inl ⟨rfl, rfl⟩
  | some h => exact .inr ⟨_, _, rfl, rfl, h⟩

/-- The spellings that are remembered are those of their keys. -/
def Memory.Spells (w : World) (m : Memory) : Prop := ∀ s ∈ m.spellings, w.key s.name = s.key

/-- Two memories of the same things being worked out. -/
structure Memory.Fits (w : World) (m m' : Memory) : Prop where
  active : m.active = m'.active
  left : m.Spells w
  right : m'.Spells w

/-- Two questions have related answers, or none, whatever spellings are remembered. -/
def Agree (w : World) (R : α → β → Prop) (x : Ask α) (y : Ask β) : Prop :=
  ∀ m m', Memory.Fits w m m' →
    Option.Rel (fun p q => R p.1 q.1 ∧ Memory.Fits w p.2 q.2) (x w m) (y w m')

/-- Two questions have the same answers up to a function, or none. -/
abbrev AgreeBy (w : World) (k : α → β) (x y : Ask α) : Prop := Agree w (fun a b => k a = k b) x y

namespace Agree

variable {R : α → β → Prop} {S : γ → δ → Prop} {x : Ask α} {y : Ask β}

theorem pure {a : α} {b : β} (h : R a b) : Agree w R (Pure.pure a) (Pure.pure b) :=
  fun _ _ hfits => .some ⟨h, hfits⟩

theorem failure : Agree w R failure failure := fun _ _ _ => .none

theorem bind {next : α → Ask γ} {next' : β → Ask δ} (h : Agree w R x y)
    (hnext : ∀ a b, R a b → Agree w S (next a) (next' b)) : Agree w S (x >>= next) (y >>= next') := by
  intro m m' hfits
  change Option.Rel _ ((x w m).bind fun p => next p.1 w p.2) ((y w m').bind fun q => next' q.1 w q.2)
  rcases rel_cases (h m m' hfits) with ⟨hx, hy⟩ | ⟨p, q, hx, hy, hpq⟩
  · rw [hx, hy]
    exact .none
  · rw [hx, hy]
    exact hnext _ _ hpq.1 _ _ hpq.2

/-- Two questions that go on from the same answer. -/
theorem same {x y : Ask α} {next : α → Ask γ} {next' : α → Ask δ} (h : Agree w Eq x y)
    (hnext : ∀ a, Agree w S (next a) (next' a)) : Agree w S (x >>= next) (y >>= next') := by
  refine h.bind fun a b hab => ?_
  subst hab
  exact hnext a

theorem imp {R' : α → β → Prop} (h : Agree w R x y) (himp : ∀ a b, R a b → R' a b) :
    Agree w R' x y := by
  intro m m' hfits
  rcases rel_cases (h m m' hfits) with ⟨hx, hy⟩ | ⟨p, q, hx, hy, hpq⟩
  · rw [hx, hy]
    exact .none
  · rw [hx, hy]
    exact .some ⟨himp _ _ hpq.1, hpq.2⟩

theorem read {next : World → Ask γ} {next' : World → Ask δ} (h : Agree w S (next w) (next' w)) :
    Agree w S (MonadReader.read >>= next) (MonadReader.read >>= next') := h

theorem forest {next : Forest → Ask γ} {next' : Forest → Ask δ}
    (h : Agree w S (next w.forest) (next' w.forest)) :
    Agree w S (Semantics.forest >>= next) (Semantics.forest >>= next') := h

theorem get {next : Memory → Ask γ} {next' : Memory → Ask δ}
    (h : ∀ m m', Memory.Fits w m m' → Option.Rel (fun p q => S p.1 q.1 ∧ Memory.Fits w p.2 q.2)
      (next m w m) (next' m' w m')) :
    Agree w S (MonadState.get >>= next) (MonadState.get >>= next') := h

theorem ite {c c' : Prop} [Decidable c] [Decidable c'] {x' : Ask α} {y' : Ask β} (hc : c ↔ c')
    (h : c → Agree w R x y) (h' : ¬ c → Agree w R x' y') :
    Agree w R (if c then x else x') (if c' then y else y') := by
  by_cases hcond : c
  · rw [if_pos hcond, if_pos (hc.mp hcond)]
    exact h hcond
  · rw [if_neg hcond, if_neg (mt hc.mpr hcond)]
    exact h' hcond

theorem mapM {f : γ → Ask α} {g : γ → Ask β} {l : List γ} (h : ∀ c ∈ l, Agree w R (f c) (g c)) :
    Agree w (List.Forall₂ R) (l.mapM f) (l.mapM g) := by
  induction l with
  | nil => exact .pure .nil
  | cons c l ih =>
      rw [List.mapM_cons, List.mapM_cons]
      refine .bind (h c List.mem_cons_self) fun a b hab => ?_
      refine .bind (ih fun c hc => h c (List.mem_cons_of_mem _ hc)) fun as bs habs => ?_
      exact .pure (.cons hab habs)

theorem findSomeM? {k : α → β} {f g : γ → Ask (Option α)} {l : List γ}
    (h : ∀ c ∈ l, AgreeBy w (Option.map k) (f c) (g c)) :
    AgreeBy w (Option.map k) (l.findSomeM? f) (l.findSomeM? g) := by
  induction l with
  | nil => exact .pure rfl
  | cons c l ih =>
      rw [List.findSomeM?]
      refine .bind (h c List.mem_cons_self) fun o o' ho => ?_
      cases o with
      | none =>
          obtain rfl : o' = none := Option.map_eq_none_iff.mp ho.symm
          exact ih fun c hc => h c (List.mem_cons_of_mem _ hc)
      | some a =>
          obtain ⟨b, rfl, -⟩ := Option.map_eq_some_iff.mp ho.symm
          exact .pure ho

/-- What is being worked out lets both questions through, or none. -/
theorem guarded {R : Option α → Option β → Prop} {aspect : Aspect} {n : NodeId} {x : Ask (Option α)}
    {y : Ask (Option β)} (hnone : R none none) (h : Agree w R x y) :
    Agree w R (guarded aspect n x) (guarded aspect n y) := by
  intro m m' hfits
  have hguarded : ∀ {γ : Type} (x : Ask (Option γ)) (m : Memory), Semantics.guarded aspect n x w m =
      if m.active.contains (aspect, n) = true then some (none, m)
      else (x w { m with active := (aspect, n) :: m.active }).map fun p =>
        (p.1, { p.2 with active := p.2.active.erase (aspect, n) }) := by
    intro γ x m
    change (if m.active.contains (aspect, n) = true then _ else _ : Ask (Option γ)) w m = _
    split
    · rfl
    · change (x w { m with active := (aspect, n) :: m.active }).bind _ = _
      cases x w { m with active := (aspect, n) :: m.active } <;> rfl
  rw [hguarded, hguarded, hfits.active]
  by_cases hactive : m'.active.contains (aspect, n) = true
  · rw [if_pos hactive, if_pos hactive]
    exact .some ⟨hnone, hfits⟩
  · rw [if_neg hactive, if_neg hactive]
    have hinner : Memory.Fits w { m with active := (aspect, n) :: m'.active }
        { m' with active := (aspect, n) :: m'.active } := ⟨rfl, hfits.left, hfits.right⟩
    rcases rel_cases (h _ _ hinner) with ⟨hx, hy⟩ | ⟨p, q, hx, hy, hanswer, hafter⟩
    · rw [hx, hy]
      exact .none
    · rw [hx, hy]
      exact .some ⟨hanswer, congrArg (List.erase · (aspect, n)) hafter.active, hafter.left, hafter.right⟩

end Agree

/-- Lists that are related member by member up to a function. -/
theorem map_eq_of_forall₂ {k : α → β} {xs ys : List α} (h : List.Forall₂ (fun a b => k a = k b) xs ys) :
    xs.map k = ys.map k := by
  induction h with
  | nil => rfl
  | cons h _ ih => rw [List.map_cons, List.map_cons, h, ih]

theorem AgreeBy.mapM {k : α → β} {f : γ → Ask α} {l : List γ} (h : ∀ c ∈ l, AgreeBy w k (f c) (f c)) :
    AgreeBy w (List.map k) (l.mapM f) (l.mapM f) :=
  (Agree.mapM h).imp fun _ _ => map_eq_of_forall₂

theorem Agree.mapM_eq {f : γ → Ask α} {l : List γ} (h : ∀ c ∈ l, Agree w Eq (f c) (f c)) :
    Agree w Eq (l.mapM f) (l.mapM f) :=
  (Agree.mapM h).imp fun _ _ hs => List.forall₂_eq_eq_eq ▸ hs

theorem map_reduceOption {k : α → β} {os os' : List (Option α)}
    (h : os.map (Option.map k) = os'.map (Option.map k)) :
    os.reduceOption.map k = os'.reduceOption.map k := by
  rw [← List.reduceOption_map, h, List.reduceOption_map]

/-! ## Names and scopes -/

theorem Memory.Spells.found {m : Memory} (h : m.Spells w) {root : NodeId} {name : String} {s : Spelling}
    (hs : (m.spellings.find? fun s => s.root == root && s.key == w.key name) = some s) :
    w.key s.name = w.key name := by
  have hfound := List.find?_some hs
  rw [Bool.and_eq_true, beq_iff_eq, beq_iff_eq] at hfound
  rw [h s (List.mem_of_find?_eq_some hs), hfound.2]

theorem Memory.Spells.cons {m : Memory} (h : m.Spells w) (root : NodeId) (name : String) :
    Memory.Spells w { m with spellings := ⟨root, w.key name, name⟩ :: m.spellings } := by
  intro s hs
  rcases List.mem_cons.mp hs with rfl | hs
  · rfl
  · exact h s hs

theorem agree_namespaceNamed? (root : NodeId) {a b : String} (h : w.key a = w.key b) :
    AgreeBy w (Option.map (NamespaceDef.keyed w)) (namespaceNamed? root a) (namespaceNamed? root b) := by
  refine .read (.get fun m m' hfits => ?_)
  generalize hs : m.spellings.find? (fun s => s.root == root && s.key == w.key a) = found
  generalize hs' : m'.spellings.find? (fun s => s.root == root && s.key == w.key b) = found'
  cases found with
  | some s =>
      have hkey := hfits.left.found hs
      cases found' with
      | some s' =>
          have hkey' := hfits.right.found hs'
          exact .some ⟨collectNamespace?_keyed (hkey.trans (h.trans hkey'.symm)) root, hfits⟩
      | none =>
          exact .some ⟨collectNamespace?_keyed (hkey.trans h) root, hfits.active, hfits.left,
            hfits.right.cons root b⟩
  | none =>
      cases found' with
      | some s' =>
          have hkey' := hfits.right.found hs'
          exact .some ⟨collectNamespace?_keyed (h.trans hkey'.symm) root, hfits.active,
            hfits.left.cons root a, hfits.right⟩
      | none =>
          exact .some ⟨collectNamespace?_keyed h root, hfits.active, hfits.left.cons root a,
            hfits.right.cons root b⟩

theorem agree_namespaceScopes (n : NodeId) :
    AgreeBy w (List.map (Scope.keyed w)) (namespaceScopes n) (namespaceScopes n) := by
  refine .forest ?_
  split
  · refine .bind (AgreeBy.mapM fun name _ => agree_namespaceNamed? _ rfl) fun os os' hos => .pure ?_
    have hcomp : Scope.keyed w ∘ Scope.ofNamespace = Scope.ofNamespace ∘ NamespaceDef.keyed w := rfl
    rw [List.map_map, List.map_map, hcomp, ← List.map_map, ← List.map_map, map_reduceOption hos]
  · exact .pure rfl

theorem agree_scopesAround (child n : NodeId) :
    AgreeBy w (List.map (Scope.keyed w)) (scopesAround child n) (scopesAround child n) := by
  refine .forest ?_
  cases w.forest.kind n with
  | namespaceDeclaration =>
      refine .bind (agree_namespaceScopes n) fun ss ss' hss => .pure ?_
      rw [List.map_append, List.map_append, hss]
  | _ => exact .pure rfl

theorem agree_scopesAlong (child : NodeId) (ns : List NodeId) :
    AgreeBy w (List.map (Scope.keyed w)) (scopesAlong child ns) (scopesAlong child ns) := by
  induction ns generalizing child with
  | nil => exact .pure rfl
  | cons n ns ih =>
      refine .bind (agree_scopesAround child n) fun ss ss' hss => .bind (ih n) fun ts ts' hts => ?_
      refine .pure ?_
      rw [List.map_append, List.map_append, hss, hts]

/-- The scopes around a node are the same up to spellings. -/
theorem agree_scopesAt (n : NodeId) : AgreeBy w (List.map (Scope.keyed w)) (scopesAt n) (scopesAt n) :=
  .forest (agree_scopesAlong n _)

/-! ## Definitions -/

/-- A declaration makes the same definition up to spellings. -/
theorem agree_definitionOf (n : NodeId) :
    AgreeBy w (Option.map (Definition.keyed w)) (definitionOf n) (definitionOf n) := by
  refine .read ?_
  split
  · split
    · refine .bind (agree_namespaceNamed? _ rfl) fun o o' ho => .pure ?_
      have hcomp : Definition.keyed w ∘ Definition.ofNamespace =
          Definition.ofNamespace ∘ NamespaceDef.keyed w := rfl
      rw [Option.map_map, Option.map_map, hcomp, ← Option.map_map, ← Option.map_map, ho]
    · exact .pure rfl
  · exact .pure rfl

/-- A declaration of anything but a namespace makes the same definition. -/
theorem agree_definitionOf_eq {n : NodeId} (h : w.forest.kind n ≠ .namespaceDeclaration) :
    Agree w Eq (definitionOf n) (definitionOf n) := by
  refine .read ?_
  split
  · exact absurd ‹_› h
  · exact .pure rfl

theorem agree_definitionsOf (ns : List NodeId) :
    AgreeBy w (fun os => os.reduceOption.map (Definition.keyed w)) (ns.mapM definitionOf)
      (ns.mapM definitionOf) :=
  (AgreeBy.mapM fun n _ => agree_definitionOf n).imp fun _ _ => map_reduceOption

theorem agree_scopeOf (n : NodeId) :
    AgreeBy w (Option.map (Scope.keyed w)) (scopeOf n) (scopeOf n) := by
  refine .forest ?_
  split
  · exact .pure rfl
  · refine .bind (agree_definitionOf n) fun o o' ho => .pure ?_
    have hnamespace : ∀ o : Option Definition,
        ((o.bind Definition.namespace?).map Scope.ofNamespace).map (Scope.keyed w) =
          ((o.map (Definition.keyed w)).bind Definition.namespace?).map Scope.ofNamespace := by
      intro o
      cases o with
      | none => rfl
      | some d => cases d <;> rfl
    rw [hnamespace, hnamespace, ho]
  all_goals exact .pure rfl

/-- The type that a node declares does not depend on spellings. -/
theorem type?_of_keyed {o o' : Option Definition}
    (h : o.map (Definition.keyed w) = o'.map (Definition.keyed w)) :
    o.bind Definition.type? = o'.bind Definition.type? := by
  have htype : ∀ o : Option Definition,
      (o.map (Definition.keyed w)).bind Definition.type? = o.bind Definition.type? := by
    intro o
    cases o with
    | none => rfl
    | some d => exact d.type?_keyed
  rw [← htype, h, htype]

/-! ## Names in scopes without base types -/

section

variable {a b : String} (h : w.key a = w.key b)

include h

theorem isNamed_congr : isNamed w a = isNamed w b := by
  funext n
  rw [isNamed, isNamed, funext (World.sameName_right h)]

theorem agree_firstNamed (ns : List NodeId) :
    AgreeBy w (Option.map (Definition.keyed w)) (firstNamed a ns) (firstNamed b ns) := by
  refine .read ?_
  rw [isNamed_congr h]
  split
  · exact agree_definitionOf _
  · exact .pure rfl

theorem agree_declaredVariable (n : NodeId) :
    AgreeBy w (Option.map (Definition.keyed w)) (declaredVariable a n) (declaredVariable b n) :=
  .forest (agree_firstNamed h _)

theorem agree_variableAmong (ns : List NodeId) :
    AgreeBy w (Option.map (Definition.keyed w)) (variableAmong a ns) (variableAmong b ns) :=
  .forest (.findSomeM? fun n _ => agree_declaredVariable h n)

theorem agree_blockVariable (n : NodeId) (upto : Nat) :
    AgreeBy w (Option.map (Definition.keyed w)) (blockVariable n upto a) (blockVariable n upto b) :=
  .forest (agree_variableAmong h _)

theorem agree_statementVariable (n : NodeId) :
    AgreeBy w (Option.map (Definition.keyed w)) (statementVariable n a) (statementVariable n b) := by
  refine .forest ?_
  split
  · exact agree_variableAmong h _
  · exact agree_variableAmong h _
  · exact agree_declaredVariable h n
  · exact agree_firstNamed h _
  · exact agree_firstNamed h _
  · exact agree_firstNamed h _
  · exact .pure rfl

theorem agree_parameterNamed (n : NodeId) :
    AgreeBy w (Option.map (Definition.keyed w)) (parameterNamed n a) (parameterNamed n b) := by
  refine .read (.ite ?_ (fun _ => agree_definitionOf n) fun _ => agree_firstNamed h _)
  rw [World.sameName_left h]

theorem agree_ownMembers (n : NodeId) :
    AgreeBy w (List.map (Definition.keyed w)) (ownMembers n a) (ownMembers n b) := by
  refine .read (.bind (agree_definitionOf n) fun o o' ho => ?_)
  rw [type?_of_keyed ho, h]
  split
  · exact .pure rfl
  · exact .bind (agree_definitionsOf _) fun os os' hos => .pure hos

theorem builtinNamed?_congr : builtinNamed? w a = builtinNamed? w b := by
  simp only [builtinNamed?, World.sameName_right h]

/-- What a name stands for in a namespace, in whatever spelling these come. -/
theorem agree_namespaceMembers {d d' : NamespaceDef} (hd : d.keyed w = d'.keyed w) :
    AgreeBy w (List.map (Definition.keyed w)) (namespaceMembers d a) (namespaceMembers d' b) := by
  obtain ⟨-, hfull, hroot, hdecls⟩ := NamespaceDef.keyed_eq_iff.mp hd
  have htypes : typeDeclarations w.forest d = typeDeclarations w.forest d' := by
    rw [typeDeclarations, typeDeclarations, hdecls]
  have hinner : w.key (if d.fullName.isEmpty then a else d.fullName ++ "." ++ a) =
      w.key (if d'.fullName.isEmpty then b else d'.fullName ++ "." ++ b) := by
    rw [isEmpty_of_key_eq hfull]
    split
    · exact h
    · rw [World.key_append, World.key_append, World.key_append, World.key_append, hfull, h]
  refine .read ?_
  dsimp only
  rw [htypes, World.sameName_left hfull, hroot, isNamed_congr h, builtinNamed?_congr h]
  refine .bind (agree_definitionsOf _) fun os os' hos => ?_
  have hfound := congrArg (· ++ ((if w.sameName d'.fullName systemName = true then
    builtinNamed? w b else none).toList.map (Definition.keyed w))) hos
  simp only [← List.map_append] at hfound
  refine .ite ?_ (fun _ => .pure hfound) fun _ => ?_
  · rw [isEmpty_of_map_eq hfound]
  · refine .bind (agree_namespaceNamed? d'.root hinner) fun o o' ho => ?_
    cases o with
    | some inner =>
        obtain ⟨inner', rfl, hkeyed⟩ := Option.map_eq_some_iff.mp ho.symm
        exact .pure (by simp [Definition.keyed, hkeyed])
    | none =>
        obtain rfl : o' = none := Option.map_eq_none_iff.mp ho.symm
        refine .bind (Agree.mapM fun m _ => agree_ownMembers h m) fun dss dss' hdss => .pure ?_
        rw [List.map_flatten, List.map_flatten, map_eq_of_forall₂ hdss]

theorem agree_importedMembers (root : NodeId) (ms : List NodeId) :
    AgreeBy w (List.map (Definition.keyed w)) (importedMembers root a ms)
      (importedMembers root b ms) := by
  induction ms with
  | nil => exact .pure rfl
  | cons m ms ih =>
      have hrest : ∀ ds ds' : List Definition,
          ds.map (Definition.keyed w) = ds'.map (Definition.keyed w) →
          AgreeBy w (List.map (Definition.keyed w)) (do return ds ++ (← importedMembers root a ms))
            (do return ds' ++ (← importedMembers root b ms)) := by
        intro ds ds' hds
        refine .bind ih fun es es' hes => .pure ?_
        rw [List.map_append, List.map_append, hds, hes]
      refine .forest ?_
      dsimp only
      split
      · exact hrest [] [] rfl
      · refine .bind (agree_namespaceNamed? _ rfl) fun o o' ho => ?_
        cases o with
        | none =>
            obtain rfl : o' = none := Option.map_eq_none_iff.mp ho.symm
            exact hrest [] [] rfl
        | some d =>
            obtain ⟨d', rfl, hkeyed⟩ := Option.map_eq_some_iff.mp ho.symm
            refine .bind (agree_namespaceMembers h hkeyed.symm) fun ds ds' hds => hrest _ _ ?_
            refine map_keyed_filter (fun d => ?_) hds
            cases d <;> rfl

end

/-- What two names stand for in the global namespace, up to the keywords of the built-in types. -/
theorem agree_globalMembers {R : List Definition → List Definition → Prop} {a b : String}
    (h : w.key a = w.key b) (n : NodeId)
    (hfound : ∀ ds ds' : List Definition, ds.map (Definition.keyed w) = ds'.map (Definition.keyed w) →
      R ds ds')
    (hkeyword : R (builtinWithKeyword? w a).toList (builtinWithKeyword? w b).toList) :
    Agree w R (globalMembers n a) (globalMembers n b) := by
  have hrest : ∀ ds ds' : List Definition,
      ds.map (Definition.keyed w) = ds'.map (Definition.keyed w) →
      Agree w R
        (if !ds.isEmpty then pure ds else do return (builtinWithKeyword? (← read) a).toList)
        (if !ds'.isEmpty then pure ds' else do return (builtinWithKeyword? (← read) b).toList) := by
    intro ds ds' hds
    refine .ite ?_ (fun _ => .pure (hfound ds ds' hds)) fun _ => .read (.pure hkeyword)
    rw [isEmpty_of_map_eq hds]
  refine .bind (agree_namespaceNamed? n rfl) fun o o' ho => ?_
  cases o with
  | none =>
      obtain rfl : o' = none := Option.map_eq_none_iff.mp ho.symm
      exact hrest [] [] rfl
  | some d =>
      obtain ⟨d', rfl, hkeyed⟩ := Option.map_eq_some_iff.mp ho.symm
      exact .bind (agree_namespaceMembers h hkeyed.symm) hrest

end DualSyntax.Semantics
