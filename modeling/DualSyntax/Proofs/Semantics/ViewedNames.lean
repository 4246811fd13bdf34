import DualSyntax.Proofs.Semantics.Views

/-!
# Names in worlds that look alike

Definitions, scopes and names that are asked for at nodes from which two worlds look alike are the same
in both, and lead to such nodes only.  The questions here lead to no deeper ones.
-/

namespace DualSyntax.Semantics

variable {w w' : World} {seen : NodeId → Prop}

abbrev AllWithin (seen : NodeId → Prop) (ds : List Definition) : Prop := ∀ d ∈ ds, d.Within seen

abbrev AllShown (w w' : World) (seen : NodeId → Prop) (ss : List Scope) : Prop :=
  ∀ s ∈ ss, s.Shown w w' seen

theorem AllShown.nil : AllShown w w' seen [] := List.forall_mem_nil _

theorem AllShown.single {s : Scope} (h : s.Shown w w' seen) : AllShown w w' seen [s] :=
  List.forall_mem_singleton.mpr h

theorem AllShown.append {ss ts : List Scope} (hss : AllShown w w' seen ss)
    (hts : AllShown w w' seen ts) : AllShown w w' seen (ss ++ ts) :=
  List.forall_mem_append.mpr ⟨hss, hts⟩

theorem AllWithin.nil : AllWithin seen [] := List.forall_mem_nil _

theorem AllWithin.append {ds es : List Definition} (hds : AllWithin seen ds) (hes : AllWithin seen es) :
    AllWithin seen (ds ++ es) := List.forall_mem_append.mpr ⟨hds, hes⟩

theorem AllWithin.toList {o : Option Definition} (h : ∀ d ∈ o, d.Within seen) :
    AllWithin seen o.toList := fun d hd => h d (Option.mem_toList.mp hd)

theorem AllWithin.reduceOption {os : List (Option Definition)}
    (h : ∀ o ∈ os, ∀ d ∈ o, d.Within seen) : AllWithin seen os.reduceOption :=
  fun d hd => h (some d) (List.reduceOption_mem_iff.mp hd) d rfl

theorem AllWithin.filter {ds : List Definition} (h : AllWithin seen ds) (accept : Definition → Bool) :
    AllWithin seen (ds.filter accept) := fun d hd => h d (List.mem_of_mem_filter hd)

theorem within_builtin (t : KnownType) : (Definition.builtin t).Within seen := by
  simp [Definition.Within, Definition.builtin, Definition.decl?]

theorem within_builtinNamed? (name : String) : AllWithin seen (builtinNamed? w name).toList := by
  refine .toList fun d hd => ?_
  obtain ⟨t, -, rfl⟩ := Option.map_eq_some_iff.mp hd
  exact within_builtin t

theorem within_builtinWithKeyword? (word : String) :
    AllWithin seen (builtinWithKeyword? w word).toList := by
  refine .toList fun d hd => ?_
  obtain ⟨t, -, rfl⟩ := Option.map_eq_some_iff.mp hd
  exact within_builtin t

variable (h : LooksAlike w w' seen)

include h

/-! ## Namespaces and definitions -/

theorem coincide_namespaceNamed? {root : NodeId} (hroot : seen root) (name : String) :
    Coincide w w' (fun o => ∀ d ∈ o, (Definition.ofNamespace d).Within seen)
      (namespaceNamed? root name) (namespaceNamed? root name) := by
  have hsame := h.collectNamespace? hroot
  refine .read (.get fun m => ?_)
  rw [h.key]
  split
  · rw [(hsame _).eq]
    exact .pure (hsame _).holds
  · refine .bind (.modify _) fun _ _ => ?_
    rw [(hsame _).eq]
    exact .pure (hsame _).holds

theorem coincide_definitionOf {n : NodeId} (hn : seen n) :
    Coincide w w' (fun o => ∀ d ∈ o, d.Within seen) (definitionOf n) (definitionOf n) := by
  refine .read ?_
  rw [h.kind, h.namespaceName? hn, h.rootOf hn, (h.declared? hn).eq]
  split
  · split
    · refine .bind (coincide_namespaceNamed? h (h.rootOf_seen hn) _) fun o ho => .pure fun d hd => ?_
      obtain ⟨ns, hns, rfl⟩ := Option.map_eq_some_iff.mp hd
      exact ho ns hns
    · exact .pure (by simp)
  · exact .pure (h.declared? hn).holds

theorem coincide_definitionsOf {ns : List NodeId} (hns : ∀ n ∈ ns, seen n) :
    Coincide w w' (fun os => AllWithin seen os.reduceOption) (ns.mapM definitionOf)
      (ns.mapM definitionOf) :=
  (Coincide.mapM fun n hn => coincide_definitionOf h (hns n hn)).mono fun _ => .reduceOption

/-! ## Scopes -/

theorem coincide_namespaceScopes {n : NodeId} (hn : seen n) :
    Coincide w w' (AllShown w w' seen) (namespaceScopes n) (namespaceScopes n) := by
  refine .forest ?_
  rw [h.namespaceName? hn, h.ownName? hn, h.rootOf hn]
  split
  · refine .bind (.mapM fun name _ => coincide_namespaceNamed? h (h.rootOf_seen hn) name)
      fun os hos => .pure fun s hs => ?_
    obtain ⟨d, hd, rfl⟩ := List.mem_map.mp hs
    exact hos (some d) (List.reduceOption_mem_iff.mp hd) d rfl
  · exact .pure .nil

theorem coincide_scopesAround {child n : NodeId} (hchild : seen child)
    (hparent : w.forest.parent child = some n) :
    Coincide w w' (AllShown w w' seen) (scopesAround child n) (scopesAround child n) := by
  have hn := h.parent_seen hchild hparent
  refine .forest ?_
  rw [h.kind, h.place hchild hparent, h.title hchild]
  have hblock : AllShown w w' seen
      (((w.forest.children n .statements).findIdx? (· == child)).toList.map (Scope.block n ·)) := by
    intro s hs
    obtain ⟨i, hi, rfl⟩ := List.mem_map.mp hs
    exact ⟨hn, h.shows hchild hparent (Option.mem_toList.mp hi)⟩
  split
  · exact .pure hblock
  · exact .pure hblock
  · split
    · exact .pure .nil
    · exact .pure (.single hn)
  · exact .pure (.single hn)
  · exact .pure (.single hn)
  · exact .pure (.single hn)
  · exact .pure (.single hn)
  · exact .pure (.single hn)
  · exact .pure (.single hn)
  · exact .pure (.single hn)
  · exact .pure (.single hn)
  · exact .pure (.single hn)
  · exact .bind (coincide_namespaceScopes h hn) fun ss hss =>
      .pure (hss.append (.single hn))
  · exact .pure (List.forall_mem_cons.mpr ⟨hn, AllShown.single hn⟩)
  · exact .pure .nil

theorem coincide_scopesAlong {child : NodeId} (hchild : seen child) (fuel : Nat) :
    Coincide w w' (AllShown w w' seen) (scopesAlong child (w.forest.ancestorsUpTo fuel child))
      (scopesAlong child (w.forest.ancestorsUpTo fuel child)) := by
  induction fuel generalizing child with
  | zero => exact .pure .nil
  | succ fuel ih =>
      rw [Forest.ancestorsUpTo]
      cases hp : w.forest.parent child with
      | none => exact .pure .nil
      | some p =>
          refine .bind (coincide_scopesAround h hchild hp) fun ss hss => ?_
          refine .bind (ih (h.parent_seen hchild hp)) fun ts hts => ?_
          exact .pure (hss.append hts)

theorem coincide_scopesAt {n : NodeId} (hn : seen n) :
    Coincide w w' (AllShown w w' seen) (scopesAt n) (scopesAt n) := by
  refine .forest ?_
  rw [h.ancestors hn]
  exact coincide_scopesAlong h hn _

/-! ## Names in scopes without base types -/

theorem coincide_firstNamed (name : String) {ns : List NodeId} (hns : ∀ n ∈ ns, seen n) :
    Coincide w w' (fun o => ∀ d ∈ o, d.Within seen) (firstNamed name ns) (firstNamed name ns) := by
  have hfind : ns.find? (isNamed w' name) = ns.find? (isNamed w name) := by
    induction ns with
    | nil => rfl
    | cons n ns ih =>
        obtain ⟨hn, hns⟩ := List.forall_mem_cons.mp hns
        rw [List.find?_cons, List.find?_cons, h.isNamed hn, ih hns]
  refine .read ?_
  rw [hfind]
  split
  · rename_i n hn
    exact coincide_definitionOf h (hns n (List.mem_of_find?_eq_some hn))
  · exact .pure (by simp)

theorem coincide_declaredVariable (name : String) {n : NodeId} (hn : seen n) :
    Coincide w w' (fun o => ∀ d ∈ o, d.Within seen) (declaredVariable name n)
      (declaredVariable name n) := by
  refine .forest ?_
  rw [h.children hn .declarators nofun]
  exact coincide_firstNamed h name (h.children_seen hn .declarators nofun)

theorem coincide_variableAmong (name : String) {ns : List NodeId} (hns : ∀ n ∈ ns, seen n) :
    Coincide w w' (fun o => ∀ d ∈ o, d.Within seen) (variableAmong name ns)
      (variableAmong name ns) := by
  refine .forest ?_
  simp only [h.kind]
  exact .findSomeM? fun n hn => coincide_declaredVariable h name (hns n (List.mem_of_mem_filter hn))

/-- The statements that a scope shows declare the same variables. -/
theorem coincide_blockVariable {n : NodeId} {upto : Nat} (hn : ShowsSame w w' seen n upto)
    (name : String) :
    Coincide w w' (fun o => ∀ d ∈ o, d.Within seen) (blockVariable n upto name)
      (blockVariable n upto name) := by
  refine .forest ?_
  rw [hn.1]
  exact coincide_variableAmong h name hn.2

theorem coincide_statementVariable {n : NodeId} (hn : seen n) (name : String) :
    Coincide w w' (fun o => ∀ d ∈ o, d.Within seen) (statementVariable n name)
      (statementVariable n name) := by
  have hself : ∀ m ∈ [n], seen m := by simpa using hn
  refine .forest ?_
  rw [h.kind, h.children hn .initializers nofun, h.child? hn .resourceAcquisition nofun]
  split
  · exact coincide_variableAmong h name (h.children_seen hn .initializers nofun)
  · exact coincide_variableAmong h name fun c hc =>
      h.child?_seen hn (Option.mem_toList.mp hc) nofun
  · exact coincide_declaredVariable h name hn
  · exact coincide_firstNamed h name hself
  · exact coincide_firstNamed h name hself
  · exact coincide_firstNamed h name hself
  · exact .pure (by simp)

theorem coincide_parameterNamed {n : NodeId} (hn : seen n) (name : String) :
    Coincide w w' (fun o => ∀ d ∈ o, d.Within seen) (parameterNamed n name)
      (parameterNamed n name) := by
  refine .read ?_
  rw [h.kind, h.sameName, h.children hn .parameters nofun]
  exact .ite (fun _ => coincide_definitionOf h hn) fun _ =>
    coincide_firstNamed h name (h.children_seen hn .parameters nofun)

theorem coincide_ownMembers {n : NodeId} (hn : seen n) (name : String) :
    Coincide w w' (AllWithin seen) (ownMembers n name) (ownMembers n name) := by
  refine .read (.bind (coincide_definitionOf h hn) fun o ho => ?_)
  rw [h.key]
  split
  · exact .pure .nil
  · rename_i type htype
    obtain ⟨d, rfl, hd⟩ := Option.bind_eq_some_iff.mp htype
    cases d with
    | ofType t =>
        cases hd
        refine .bind (coincide_definitionsOf h fun m hm => (ho _ rfl).2.1 m ?_) fun os hos => .pure hos
        cases hfound : type.members.find? (·.1 == w.key name) with
        | none => rw [hfound] at hm; cases hm
        | some entry =>
            rw [hfound] at hm
            exact List.mem_flatMap.mpr ⟨entry, List.mem_of_find?_eq_some hfound, hm⟩
    | _ => cases hd

theorem typeDeclarations_seen {d : NamespaceDef} (hd : (Definition.ofNamespace d).Within seen) :
    typeDeclarations w'.forest d = typeDeclarations w.forest d ∧
      ∀ n ∈ typeDeclarations w.forest d, seen n := by
  have hdecls := hd.2
  refine ⟨List.flatMap_congr fun n hn => ?_, fun n hn => ?_⟩
  · simp only [h.children (hdecls n hn) .members nofun, h.kind]
  · obtain ⟨decl, hdecl, hn⟩ := List.mem_flatMap.mp hn
    exact h.children_seen (hdecls decl hdecl) .members nofun n (List.mem_of_mem_filter hn)

theorem coincide_namespaceMembers {d : NamespaceDef} (hd : (Definition.ofNamespace d).Within seen)
    (name : String) :
    Coincide w w' (AllWithin seen) (namespaceMembers d name) (namespaceMembers d name) := by
  obtain ⟨hsame, htypes⟩ := typeDeclarations_seen h hd
  have hnamed : (typeDeclarations w.forest d).filter (isNamed w' name) =
      (typeDeclarations w.forest d).filter (isNamed w name) :=
    List.filter_congr fun n hn => h.isNamed (htypes n hn) name
  refine .read ?_
  simp only [hsame, hnamed, h.sameName, h.builtinNamed?, h.kind]
  refine .bind (coincide_definitionsOf h fun n hn => htypes n (List.mem_of_mem_filter hn)) fun os hos => ?_
  refine .ite (fun _ => .pure (hos.append ?_)) fun _ => ?_
  · split
    · exact within_builtinNamed? name
    · exact .nil
  · refine .bind (coincide_namespaceNamed? h hd.1 _) fun o ho => ?_
    split
    · exact .pure (List.forall_mem_singleton.mpr (ho _ rfl))
    · refine .bind (.mapM fun m hm => coincide_ownMembers h (htypes m (List.mem_of_mem_filter hm)) name)
        fun dss hdss => .pure fun d hd => ?_
      obtain ⟨ds, hds, hd⟩ := List.mem_flatten.mp hd
      exact hdss ds hds d hd

theorem coincide_importedMembers {root : NodeId} (hroot : seen root) (name : String)
    {ms : List NodeId} (hms : ∀ m ∈ ms, seen m) :
    Coincide w w' (AllWithin seen) (importedMembers root name ms) (importedMembers root name ms) := by
  induction ms with
  | nil => exact .pure .nil
  | cons m ms ih =>
      obtain ⟨hm, hms⟩ := List.forall_mem_cons.mp hms
      have hrest : ∀ ds, AllWithin seen ds → Coincide w w' (AllWithin seen)
          (do return ds ++ (← importedMembers root name ms))
          (do return ds ++ (← importedMembers root name ms)) :=
        fun ds hds => .bind (ih hms) fun es hes => .pure (hds.append hes)
      have himported : (w'.forest.child? m .imported).bind (dottedName? w'.forest) =
          (w.forest.child? m .imported).bind (dottedName? w.forest) := by
        rw [h.child? hm .imported nofun]
        cases hc : w.forest.child? m .imported with
        | none => rfl
        | some c => exact h.dottedName? (h.child?_seen hm hc nofun)
      refine .forest ?_
      dsimp only
      rw [himported, h.kind]
      split
      · exact hrest [] .nil
      · refine .bind (coincide_namespaceNamed? h hroot _) fun o ho => ?_
        split
        · exact hrest [] .nil
        · exact .bind (coincide_namespaceMembers h (ho _ rfl) name) fun ds hds => hrest _ (hds.filter _)

theorem coincide_globalMembers {n : NodeId} (hn : seen n) (name : String) :
    Coincide w w' (AllWithin seen) (globalMembers n name) (globalMembers n name) := by
  have hrest : ∀ ds, AllWithin seen ds → Coincide w w' (AllWithin seen)
      (if !ds.isEmpty then pure ds else do return (builtinWithKeyword? (← read) name).toList)
      (if !ds.isEmpty then pure ds else do return (builtinWithKeyword? (← read) name).toList) := by
    intro ds hds
    refine .ite (fun _ => .pure hds) fun _ => .read ?_
    rw [h.builtinWithKeyword?]
    exact .pure (within_builtinWithKeyword? name)
  refine .bind (coincide_namespaceNamed? h hn _) fun o ho => ?_
  split
  · exact .bind (coincide_namespaceMembers h (ho _ rfl) name) hrest
  · exact hrest [] .nil

end DualSyntax.Semantics
