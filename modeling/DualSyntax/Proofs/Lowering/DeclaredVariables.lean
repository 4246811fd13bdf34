import DualSyntax.Lowering.Declarators
import DualSyntax.Proofs.Lowering.Declaring
import DualSyntax.Proofs.Lowering.HeldTypes
import DualSyntax.Proofs.Lowering.InnerParts

/-!
# Declared variables

Which clause serves a declarator, and from it the type and the value of each variable that a
declaration declares.
-/

/-!
## Clauses that serve declarators

A declarator is served by its own clause, or, if it has neither a clause nor an initializer, by the
nearest clause after it.  The clauses that lowering finds from behind are those, and a type is shared
only among declarators that one clause serves.
-/

namespace DualSyntax.Lowering

variable {δ : Type} {ds : List (Declarator δ)} {d : Declarator δ} {i j k : Nat} {clause : RawTree δ}

def clauseAt (ds : List (Declarator δ)) (i : Nat) : Option (RawTree δ) := ds[i]?.bind (·.clause)

/-- The clause of the `j`-th declarator serves the `i`-th. -/
structure Serves (ds : List (Declarator δ)) (i j : Nat) (clause : RawTree δ) : Prop where
  le : i ≤ j
  found : clauseAt ds j = some clause
  nearest : ∀ k, i ≤ k → k < j → clauseAt ds k = none
  /-- Only a declarator without an initializer takes the clause of another. -/
  plain : i < j → ∀ d ∈ ds[i]?, d.initializer = none

@[simp] theorem clauseAt_zero : clauseAt (d :: ds) 0 = d.clause := rfl

@[simp] theorem clauseAt_succ : clauseAt (d :: ds) (i + 1) = clauseAt ds i := by simp [clauseAt]

theorem serves_succ : Serves (d :: ds) (i + 1) (j + 1) clause ↔ Serves ds i j clause := by
  constructor
  · rintro ⟨hle, hfound, hnearest, hplain⟩
    refine ⟨Nat.le_of_succ_le_succ hle, by simpa using hfound, fun k hi hj => ?_, fun hlt => ?_⟩
    · simpa using hnearest (k + 1) (Nat.succ_le_succ hi) (Nat.succ_lt_succ hj)
    · simpa using hplain (Nat.succ_lt_succ hlt)
  · rintro ⟨hle, hfound, hnearest, hplain⟩
    refine ⟨Nat.succ_le_succ hle, by simpa using hfound, fun k hi hj => ?_, fun hlt => ?_⟩
    · obtain ⟨k, rfl⟩ : ∃ m, k = m + 1 := Nat.exists_eq_succ_of_ne_zero (Nat.ne_of_gt (by omega))
      simpa using hnearest k (Nat.le_of_succ_le_succ hi) (Nat.lt_of_succ_lt_succ hj)
    · simpa using hplain (Nat.lt_of_succ_lt_succ hlt)

theorem serves_own (h : d.clause = some clause) : Serves (d :: ds) 0 0 clause :=
  ⟨Nat.le_refl _, h, fun _ _ hk => absurd hk (Nat.not_lt_zero _), fun h => absurd h (Nat.lt_irrefl _)⟩

/-- A declarator is served by at most one clause. -/
theorem Serves.unique {j' : Nat} {clause' : RawTree δ} (h : Serves ds i j clause)
    (h' : Serves ds i j' clause') : j = j' ∧ clause = clause' := by
  have hj : j = j' := by
    rcases Nat.lt_trichotomy j j' with hlt | heq | hgt
    · have hnone := h'.nearest j h.le hlt
      rw [h.found] at hnone
      cases hnone
    · exact heq
    · have hnone := h.nearest j' h'.le hgt
      rw [h'.found] at hnone
      cases hnone
  subst hj
  exact ⟨rfl, Option.some.inj (h.found.symm.trans h'.found)⟩

/-! ### Clauses found from behind -/

theorem nextClause_eq_some {m : Nat} : clausesFrom.nextClause k ds = some (m, clause) ↔
    ∃ j, m = k + j ∧ clauseAt ds j = some clause ∧ ∀ l, l < j → clauseAt ds l = none := by
  induction ds generalizing k with
  | nil => simp [clausesFrom.nextClause, clauseAt]
  | cons d ds ih =>
      rw [clausesFrom.nextClause]
      cases hd : d.clause with
      | some own =>
          constructor
          · rintro ⟨⟩
            exact ⟨0, rfl, hd, fun l hl => absurd hl (Nat.not_lt_zero l)⟩
          · rintro ⟨j, rfl, hfound, hbefore⟩
            cases j with
            | zero => simpa [hd] using hfound
            | succ j =>
                have hnone := hbefore 0 (Nat.succ_pos j)
                rw [clauseAt_zero, hd] at hnone
                cases hnone
      | none =>
          simp only [ih]
          constructor
          · rintro ⟨j, rfl, hfound, hbefore⟩
            refine ⟨j + 1, by omega, by simpa using hfound, fun l hl => ?_⟩
            cases l with
            | zero => exact hd
            | succ l => simpa using hbefore l (Nat.lt_of_succ_lt_succ hl)
          · rintro ⟨j, rfl, hfound, hbefore⟩
            cases j with
            | zero =>
                rw [clauseAt_zero, hd] at hfound
                cases hfound
            | succ j =>
                refine ⟨j, by omega, by simpa using hfound, fun l hl => ?_⟩
                simpa using hbefore (l + 1) (Nat.succ_lt_succ hl)

@[simp] theorem length_clausesFrom : (clausesFrom k ds).length = ds.length := by
  induction ds generalizing k with
  | nil => rfl
  | cons d ds ih => rw [clausesFrom, List.length_cons, List.length_cons, ih]

/-- The clauses found from behind are those that serve. -/
theorem clausesFrom_eq_some {m : Nat} : (clausesFrom k ds)[i]? = some (some (m, clause)) ↔
    ∃ j, m = k + j ∧ Serves ds i j clause := by
  induction ds generalizing k i with
  | nil =>
      simp only [clausesFrom, List.getElem?_nil, reduceCtorEq, false_iff, not_exists, not_and]
      rintro j - ⟨-, hfound, -, -⟩
      simp [clauseAt] at hfound
  | cons d ds ih =>
      rw [clausesFrom]
      cases i with
      | succ i =>
          rw [List.getElem?_cons_succ, ih]
          constructor
          · rintro ⟨j, rfl, h⟩
            exact ⟨j + 1, by omega, serves_succ.mpr h⟩
          · rintro ⟨j, rfl, h⟩
            obtain ⟨j, rfl⟩ : ∃ m, j = m + 1 :=
              Nat.exists_eq_succ_of_ne_zero (Nat.ne_of_gt (Nat.lt_of_lt_of_le (Nat.succ_pos i) h.le))
            exact ⟨j, by omega, serves_succ.mp h⟩
      | zero =>
          rw [List.getElem?_cons_zero, Option.some.injEq]
          cases hd : d.clause with
          | some own =>
              constructor
              · rintro ⟨⟩
                exact ⟨0, rfl, serves_own hd⟩
              · rintro ⟨j, rfl, h⟩
                obtain ⟨rfl, rfl⟩ := h.unique (serves_own hd)
                rfl
          | none =>
              dsimp only
              cases hinit : d.initializer with
              | some raw =>
                  simp only [Option.isSome_some, if_true, reduceCtorEq, false_iff, not_exists, not_and]
                  rintro j - h
                  cases j with
                  | zero => simpa [hd] using h.found
                  | succ j => simpa [hinit] using h.plain (Nat.succ_pos j)
              | none =>
                  simp only [Option.isSome_none, Bool.false_eq_true, if_false, nextClause_eq_some]
                  constructor
                  · rintro ⟨j, rfl, hfound, hbefore⟩
                    refine ⟨j + 1, by omega, Nat.zero_le _, by simpa using hfound, fun l _ hl => ?_,
                      fun _ => by simpa using hinit⟩
                    cases l with
                    | zero => exact hd
                    | succ l => simpa using hbefore l (Nat.lt_of_succ_lt_succ hl)
                  · rintro ⟨j, rfl, h⟩
                    cases j with
                    | zero =>
                        have hfound := h.found
                        rw [clauseAt_zero, hd] at hfound
                        cases hfound
                    | succ j =>
                        refine ⟨j, by omega, by simpa using h.found, fun l hl => ?_⟩
                        simpa using h.nearest (l + 1) (Nat.zero_le _) (Nat.succ_lt_succ hl)

/-! ### Shared types -/

theorem eq_of_adjacent {α : Type} [BEq α] [LawfulBEq α] {x : α} {xs : List α}
    (h : ((x :: xs).zip xs).all (fun p => p.1 == p.2) = true) : ∀ y ∈ xs, y = x := by
  induction xs generalizing x with
  | nil => simp
  | cons y ys ih =>
      rw [List.zip_cons_cons, List.all_cons, Bool.and_eq_true, beq_iff_eq] at h
      have heq : x = y := h.1
      exact List.forall_mem_cons.mpr ⟨heq.symm, heq ▸ ih h.2⟩

theorem clause_eq_of_owner {o o' : Option (Nat × RawTree δ)} {i' : Nat}
    (h : (clausesFrom 0 ds)[i]? = some o) (h' : (clausesFrom 0 ds)[i']? = some o')
    (howner : o.map (·.1) = o'.map (·.1)) : o = o' := by
  match o, o', howner with
  | none, none, _ => rfl
  | some (m, clause), some (m', clause'), howner =>
      obtain ⟨j, rfl, hserves⟩ := clausesFrom_eq_some.mp h
      obtain ⟨j', rfl, hserves'⟩ := clausesFrom_eq_some.mp h'
      have hj : j = j' := by simpa using howner
      subst hj
      have hfound := hserves.found.symm.trans hserves'.found
      rw [Option.some.inj hfound]

/-- A type is shared by a single declarator, or by declarators without suffixes that are all served by
the same clause or all by none. -/
theorem of_sharesType (h : sharesType ds (clausesFrom 0 ds) = true) :
    (ds.length = 1 ∨ ∀ d ∈ ds, d.suffix = none) ∧
      ∀ i < ds.length, (clausesFrom 0 ds)[i]? = (clausesFrom 0 ds)[0]? := by
  rw [sharesType, Bool.or_eq_true, beq_iff_eq, Bool.and_eq_true] at h
  rcases h with hone | ⟨hsame, hsuffix⟩
  · refine ⟨.inl hone, fun i hi => ?_⟩
    rw [hone, Nat.lt_one_iff] at hi
    rw [hi]
  · rw [List.all_eq_true] at hsuffix
    refine ⟨.inr fun d hd => by simpa using hsuffix d hd, fun i hi => ?_⟩
    have hlength : i < (clausesFrom 0 ds).length := by rwa [length_clausesFrom]
    have hget : (clausesFrom 0 ds)[i]? = some (clausesFrom 0 ds)[i] := List.getElem?_eq_getElem hlength
    cases hall : clausesFrom 0 ds with
    | nil => simp [hall] at hlength
    | cons first rest =>
        have hfirst : (clausesFrom 0 ds)[0]? = some first := by rw [hall, List.getElem?_cons_zero]
        rw [hall, List.map_cons, List.tail_cons] at hsame
        have hequal := eq_of_adjacent hsame
        cases i with
        | zero => rfl
        | succ i =>
            rw [← hall, hget, hfirst, clause_eq_of_owner hget hfirst]
            refine hequal _ (List.mem_map_of_mem ?_)
            simp only [hall, List.getElem_cons_succ]
            exact List.getElem_mem _

end DualSyntax.Lowering

/-!
## Types of declared variables

Each round of the loop over declarators adds one variable to its declaration and changes nothing else
that was there.  The variable has a type of its own exactly if a clause serves it and the type is not
shared; then its type holds the tree of that clause, inside of an array type if its name has a suffix.
-/

namespace DualSyntax

namespace Forest

variable {f f' f'' : Forest} {owner n c : NodeId} {title u : Title} {t : Tree}

/-! ### Changes below one title -/

/-- From one forest to the next nothing changes but what hangs under a title of a root. -/
structure ChangesOnly (owner : NodeId) (title : Title) (f f' : Forest) : Prop where
  base : f.WellLinked
  linked : f'.WellLinked
  root : f.IsRoot owner
  stays : f'.IsRoot owner
  size_le : f.size ≤ f'.size
  kind : ∀ n, n < f.size → f'.kind n = f.kind n
  children : ∀ n u, n < f.size → (n = owner → u ≠ title) → f'.children n u = f.children n u

theorem changesOnly_of_gains {kinds : NodeKind → Prop} (h : f.Gains kinds f') (ho : f.IsRoot owner)
    (title : Title) : ChangesOnly owner title f f' where
  base := h.base
  linked := h.linked
  root := ho
  stays := h.isRoot ho
  size_le := h.size_le
  kind := h.kind
  children n u hn _ := h.children n u hn

theorem changesOnly_of_attached {change : List (Title × NodeId) → List (Title × NodeId)}
    (hf : f.WellLinked) (hf' : f'.WellLinked) (ho : f.IsRoot owner) (hne : c ≠ owner)
    (hchange : ∀ u, u ≠ title → ∀ ss, under u (change ss) = under u ss)
    (hattached : Attached f f' owner c change) : ChangesOnly owner title f f' where
  base := hf
  linked := hf'
  root := ho
  stays := hattached.isRoot hne.symm ho
  size_le := Nat.le_of_eq hattached.size.symm
  kind n _ := hattached.kind n
  children n u _ hu := by
    rw [children_eq_under, children_eq_under]
    by_cases hn : n = owner
    · rw [hn, hattached.slots_owner, hchange u (hu hn)]
    · rw [hattached.slots n hn]

namespace ChangesOnly

theorem refl (hf : f.WellLinked) (ho : f.IsRoot owner) (title : Title) :
    ChangesOnly owner title f f :=
  ⟨hf, hf, ho, ho, Nat.le_refl _, fun _ _ => rfl, fun _ _ _ _ => rfl⟩

theorem trans (h : ChangesOnly owner title f f') (h' : ChangesOnly owner title f' f'') :
    ChangesOnly owner title f f'' where
  base := h.base
  linked := h'.linked
  root := h.root
  stays := h'.stays
  size_le := Nat.le_trans h.size_le h'.size_le
  kind n hn := (h'.kind n (Nat.lt_of_lt_of_le hn h.size_le)).trans (h.kind n hn)
  children n u hn hu :=
    (h'.children n u (Nat.lt_of_lt_of_le hn h.size_le) hu).trans (h.children n u hn hu)

theorem holds (h : ChangesOnly owner title f f') (hn : n < f.size) (hne : n ≠ owner)
    (ht : f.Holds n t) : f'.Holds n t := by
  refine ht.transfer (fun m => m < f.size ∧ m ≠ owner) ⟨hn, hne⟩ (fun m u c _ hc => ⟨?_, ?_⟩)
    fun m hm => ⟨h.kind m hm.1, fun u => h.children m u hm.1 fun heq => absurd heq hm.2⟩
  · exact lt_of_mem_children h.base hc
  · rintro rfl
    exact h.root.not_mem_children h.base m u hc

theorem nameOf? (h : ChangesOnly owner title f f') (hn : n < f.size)
    (hu : n = owner → Title.identifier ≠ title) : f'.nameOf? n = f.nameOf? n := by
  have hchild : f'.child? n .identifier = f.child? n .identifier := by
    rw [child?_eq_head?, child?_eq_head?, h.children n _ hn hu]
  rw [Forest.nameOf?, Forest.nameOf?, hchild]
  cases hc : f.child? n .identifier with
  | none => rfl
  | some c =>
      rw [Option.map_some, Option.map_some,
        h.kind c (lt_of_mem_children h.base (mem_children_of_child? hc))]

end ChangesOnly

/-! ### Types of nodes -/

def HoldsType (f : Forest) (n : NodeId) : Option Tree → Prop
  | none => f.children n .type = []
  | some t => ∃ m, f.children n .type = [m] ∧ f.Holds m t

theorem ChangesOnly.holdsType (h : ChangesOnly owner title f f') {type : Option Tree} (hn : n < f.size)
    (hu : n = owner → Title.type ≠ title) (htype : f.HoldsType n type) : f'.HoldsType n type := by
  have hchildren := h.children n .type hn hu
  cases type with
  | none => exact hchildren.trans htype
  | some t =>
      obtain ⟨m, hm, hholds⟩ := htype
      have hmem : m ∈ f.children n .type := hm ▸ List.mem_singleton_self m
      refine ⟨m, hchildren.trans hm, h.holds (lt_of_mem_children h.base hmem) ?_ hholds⟩
      rintro rfl
      exact h.root.not_mem_children h.base n .type hmem

structure IsVariable (f : Forest) (n : NodeId) (name : String) (type : Option Tree) : Prop where
  kind : f.kind n = .variableDeclarator
  name : f.nameOf? n = some name
  type : f.HoldsType n type

theorem ChangesOnly.isVariable (h : ChangesOnly owner title f f') {name : String}
    {type : Option Tree} (hn : n < f.size) (hne : n ≠ owner) (hv : f.IsVariable n name type) :
    f'.IsVariable n name type where
  kind := (h.kind n hn).trans hv.kind
  name := (h.nameOf? hn fun heq => absurd heq hne).trans hv.name
  type := h.holdsType hn (fun heq => absurd heq hne) hv.type

end Forest

open Forest Lower

namespace Lower

variable {source : Source} {d d' : Draft} {owner c : NodeId} {title : Title} {u : Unit}

theorem changesOnly_of_set (hd : d.forest.WellLinked) (ho : d.forest.IsRoot owner)
    (hc : d.forest.IsRoot c) (hne : c ≠ owner) (hrun : set owner title c source d = .ok (u, d')) :
    ChangesOnly owner title d.forest d'.forest ∧
      d'.forest.children owner title = c :: (d.forest.children owner title).drop 1 := by
  obtain ⟨hlinked, hattached⟩ := attached_of_set hd ho hc hne hrun
  refine ⟨changesOnly_of_attached hd hlinked ho hne (fun u hu ss => ?_) hattached, ?_⟩
  · exact under_putFirst_of_ne hu c ss
  · rw [children_eq_under, hattached.slots_owner, under_putFirst, children_eq_under]

theorem changesOnly_of_push (hd : d.forest.WellLinked) (ho : d.forest.IsRoot owner)
    (hc : d.forest.IsRoot c) (hne : c ≠ owner) (hrun : push owner title c source d = .ok (u, d')) :
    ChangesOnly owner title d.forest d'.forest ∧
      d'.forest.children owner title = d.forest.children owner title ++ [c] := by
  obtain ⟨hlinked, hattached⟩ := attached_of_push hd ho hc hne hrun
  have hnone (u : Title) (hu : u ≠ title) : under u [(title, c)] = [] := by
    simp [under, Ne.symm hu]
  refine ⟨changesOnly_of_attached hd hlinked ho hne (fun u hu ss => ?_) hattached, ?_⟩
  · rw [under_append, hnone u hu, List.append_nil]
  · rw [children_eq_under, hattached.slots_owner, under_append, children_eq_under]
    simp [under]

end Lower

/-! ### A variable that is being made -/

/-- A new variable before it is put below its declaration. -/
structure Forming (f f' : Forest) (n : NodeId) (name : Option String) (type : Option Tree) :
    Prop where
  gains : f.Gains NodeKind.IsInner f'
  root : f'.IsRoot n
  new : f.size ≤ n
  kind : f'.kind n = .variableDeclarator
  name : f'.nameOf? n = name
  type : f'.HoldsType n type

namespace Forming

variable {f f' : Forest} {n c : NodeId} {name : Option String} {type : Option Tree} {title : Title}
  {source : Source} {d d' : Draft} {u : Unit}

theorem allocate (hf : f.WellLinked) (range : TextRange) :
    Forming f (f.allocate .variableDeclarator range).2 f.size none none := by
  have hslots : (f.allocate .variableDeclarator range).2.slots f.size = [] := by
    rw [slots_allocate, slots_of_size_le (Nat.le_refl _)]
  have hinner : NodeKind.IsInner .variableDeclarator := rfl
  refine ⟨(Gains.refl hf).allocate hinner range, isRoot_allocate f _ range, Nat.le_refl _,
    kind_allocate f _ range, ?_, ?_⟩
  · simp [nameOf?, child?, hslots]
  · simp [HoldsType, children, hslots]

/-- What changes below other titles leaves the name and the type. -/
theorem changes (h : Forming f d.forest n name type) (hgains : f.Gains NodeKind.IsInner f')
    (hchanges : ChangesOnly n title d.forest f') (hname : title ≠ .identifier)
    (htype : title ≠ .type) : Forming f f' n name type where
  gains := hgains
  root := hchanges.stays
  new := h.new
  kind := (hchanges.kind n h.root.lt).trans h.kind
  name := (hchanges.nameOf? h.root.lt fun _ => hname.symm).trans h.name
  type := hchanges.holdsType h.root.lt (fun _ => htype.symm) h.type

theorem then_gains (h : Forming f d.forest n name type)
    (hgains : d.forest.Gains NodeKind.IsInner f') : Forming f f' n name type :=
  h.changes (h.gains.trans hgains) (changesOnly_of_gains hgains h.root .initializer) (by decide)
    (by decide)

theorem set (h : Forming f d.forest n name type) (hc : d.forest.IsRoot c) (hnew : f.size ≤ c)
    (hne : c ≠ n) (hname : title ≠ .identifier) (htype : title ≠ .type)
    (hrun : Lower.set n title c source d = .ok (u, d')) : Forming f d'.forest n name type :=
  h.changes (gains_of_set h.gains h.new hnew hrun)
    (changesOnly_of_set h.gains.linked h.root hc hne hrun).1 hname htype

theorem setName (h : Forming f d.forest n name type) {s : String}
    (hc : Held f d.forest c (.node (.identifier s) [])) (hne : c ≠ n)
    (hrun : Lower.set n .identifier c source d = .ok (u, d')) :
    Forming f d'.forest n (some s) type := by
  obtain ⟨hchanges, hchildren⟩ := changesOnly_of_set h.gains.linked h.root hc.root hne hrun
  refine ⟨gains_of_set h.gains h.new hc.new hrun, hchanges.stays, h.new,
    (hchanges.kind n h.root.lt).trans h.kind, ?_,
    hchanges.holdsType h.root.lt (fun _ => by decide) h.type⟩
  have hkind : d'.forest.kind c = .identifier s := (hchanges.kind c hc.root.lt).trans hc.holds.kind
  rw [nameOf?, child?_eq_head?, hchildren, List.head?_cons, Option.map_some, hkind]

theorem setType (h : Forming f d.forest n name none) {t : Tree} (hc : Held f d.forest c t)
    (hne : c ≠ n) (hrun : Lower.set n .type c source d = .ok (u, d')) :
    Forming f d'.forest n name (some t) := by
  obtain ⟨hchanges, hchildren⟩ := changesOnly_of_set h.gains.linked h.root hc.root hne hrun
  have hnone : d.forest.children n .type = [] := h.type
  rw [hnone] at hchildren
  exact ⟨gains_of_set h.gains h.new hc.new hrun, hchanges.stays, h.new,
    (hchanges.kind n h.root.lt).trans h.kind,
    (hchanges.nameOf? h.root.lt fun _ => by decide).trans h.name,
    c, hchildren, hchanges.holds hc.root.lt hne hc.holds⟩

end Forming

theorem Held.after_gains {f f' f'' : Forest} {n : NodeId} {t : Tree}
    (hgains : f.Gains NodeKind.IsInner f') (h : Held f' f'' n t) : Held f f'' n t :=
  ⟨hgains.trans h.gains, h.root, Nat.le_trans hgains.size_le h.new, h.holds⟩

namespace Lowering

variable {δ : Type}

/-- The tree of the type of a declarator: that of its clause, inside of an array type if the name has
a suffix. -/
def Declarator.typeTree (g : Grammar δ) (x : Declarator δ) (t : Tree) : Tree :=
  x.suffix.elim t fun suffix => arrayTree g suffix t

theorem makesTree_declaratorType {g : Grammar δ} {recur : Recur δ} {source : Source}
    {x : Declarator δ} {clause : RawTree δ} {t : Tree}
    (h : MakesTree source (clauseType g recur clause) t) :
    MakesTree source (declaratorType g recur x clause) (x.typeTree g t) := by
  refine makesTree_bind h fun hc hrun => ?_
  unfold Declarator.typeTree
  cases hsuffix : x.suffix with
  | none =>
      rw [hsuffix] at hrun
      cases hrun
      exact hc
  | some suffix =>
      rw [hsuffix] at hrun
      obtain ⟨_, _, ⟨⟩, hrun⟩ := exists_of_bind hrun
      exact held_arrayOf hc hrun

section Rounds

variable [DecidableEq δ] {s : Survey δ} {source : Source} {e : LowerError}
  {ready clean T : RawTree δ → Prop} {recur : Recur δ} {forms : DeclaratorForms δ}
  {f : Forest} {d d' : Draft} {n owner : NodeId} {x : Declarator δ}
  {clause : Option (RawTree δ)} {name : Option String} {type : Option Tree}

theorem forming_value (hin : ∀ f, Inward (.gains f) recur T) (hxT : x.In T)
    (hclause : ∀ t ∈ clause, T t) {r : Option NodeId}
    (h : Forming f d.forest n name type)
    (hrun : declaratorValue s.grammar recur forms n x clause source d = .ok (r, d')) :
    Forming f d'.forest n name type := by
  cases hinit : x.initializer with
  | some raw =>
      have hvalue {d₁ : Draft} (h₁ : Forming f d₁.forest n name type)
          (hrun : (do return some (← recur raw)) source d₁ = .ok (r, d')) :
          Forming f d'.forest n name type := by
        obtain ⟨m, d₂, hm, ⟨⟩⟩ := exists_of_bind hrun
        have hadds := (hin d₁.forest).adds (hxT.initializer raw hinit)
        exact h₁.then_gains (hadds (.refl h₁.gains.linked) hm).1
      simp only [declaratorValue, hinit] at hrun
      cases hassign : x.assign with
      | none =>
          rw [hassign] at hrun
          exact hvalue h hrun
      | some tk =>
          rw [hassign] at hrun
          obtain ⟨_, d₁, htoken, hrun⟩ := exists_of_bind hrun
          obtain ⟨c, d₂, ⟨⟩, hset⟩ := exists_of_bind htoken
          have hinner : NodeKind.IsInner (.token tk.kind tk.text) := rfl
          have hgains := (Gains.refl h.gains.linked).allocate hinner (source.lines.textRange tk.span)
          exact hvalue ((h.then_gains hgains).set (isRoot_allocate _ _ _) h.gains.size_le
            (Nat.ne_of_gt h.root.lt) (by decide) (by decide) hset) hrun
  | none =>
      -- the variable itself is not touched, so it may be any node
      have hsame : declaratorValue s.grammar recur forms n x clause =
          declaratorValue s.grammar recur forms d.forest.size x clause := by
        simp only [declaratorValue, hinit]
      rw [hsame] at hrun
      have hadds : (Upkeep.gains d.forest).Adds _
          (declaratorValue s.grammar recur forms d.forest.size x clause) :=
        adds_declaratorValue (hin d.forest) hxT (Nat.le_refl d.forest.size) hclause
      exact h.then_gains (hadds (.refl h.gains.linked) hrun).1

structure Adds (d d' : Draft) (owner n : NodeId) (name : String) (type : Option Tree) : Prop where
  changes : ChangesOnly owner .declarators d.forest d'.forest
  new : d.forest.size ≤ n
  declarators : d'.forest.children owner .declarators =
    d.forest.children owner .declarators ++ [n]
  isVariable : d'.forest.IsVariable n name type

structure Served (s : Survey δ) (source : Source) (ready clean T : RawTree δ → Prop)
    (recur : Recur δ) (forms : DeclaratorForms δ) (tree : RawTree δ → Tree) (x : Declarator δ)
    (clause : Option (RawTree δ)) (name : String) : Prop where
  declared : Setting.Declared s ready clean forms x
  inward : x.In T
  clause : ∀ t ∈ clause, Setting.Clause s ready clean t ∧ T t ∧
    MakesTree source (clauseType s.grammar recur t) (tree t)
  name : MakesTree source (recur x.name) (.node (.identifier name) [])

variable {tree : RawTree δ → Tree} {nm : String}

def declaratorRound [BEq δ] (g : Grammar δ) (recur : Recur δ) (forms : DeclaratorForms δ)
    (owner : NodeId) (shared : Bool) (x : Declarator δ) (clause : Option (RawTree δ)) :
    Lower (ForInStep PUnit) := do
  let n ← Lower.allocate .variableDeclarator (← spanOf x.raw)
  Lower.set n .identifier (← recur x.name)
  if !shared then
    if let some clause := clause then
      Lower.set n .type (← declaratorType g recur x clause)
  if let some value ← declaratorValue g recur forms n x clause then
    Lower.set n .initializer value
  Lower.push owner .declarators n
  return ForInStep.yield PUnit.unit

theorem exists_added (hs : Setting s source e ready clean recur) (hin : ∀ f, Inward (.gains f) recur T)
    (hforms : s.spellsClause forms.asNew = true ∧ s.spellsCreation forms.asNew = true ∧
      s.nests s.isList forms.suffix = true)
    (hx : Served s source ready clean T recur forms tree x clause nm) (shared : Bool)
    (hd : d.forest.WellLinked) (ho : d.forest.IsRoot owner) {r : ForInStep PUnit}
    (hrun : declaratorRound s.grammar recur forms owner shared x clause source d = .ok (r, d')) :
    r = .yield ⟨⟩ ∧ ∃ n, Adds d d' owner n nm
      (if shared then none else clause.map fun t => x.typeTree s.grammar (tree t)) := by
  obtain ⟨_, _, ⟨⟩, hrun⟩ := exists_of_bind hrun
  obtain ⟨n, d₁, hnew, hrun⟩ := exists_of_bind hrun
  cases hnew
  have h₁ := Forming.allocate hd (source.lines.textRange (x.raw.span source.stream))
  obtain ⟨c, d₂, hc, hrun⟩ := exists_of_bind hrun
  have hc' := hx.name h₁.gains.linked hc
  obtain ⟨_, d₃, hset, hrun⟩ := exists_of_bind hrun
  have h₃ := (h₁.then_gains hc'.gains).setName (hc'.after_gains h₁.gains)
    (Nat.ne_of_gt (Nat.lt_of_lt_of_le h₁.root.lt hc'.new)) hset
  -- what remains once the type has been read, if it belongs to the variable
  have hrest {d₄ : Draft} {type : Option Tree} (h₄ : Forming d.forest d₄.forest d.forest.size (some nm) type)
      (hrun : (do
        if let some value ← declaratorValue s.grammar recur forms d.forest.size x clause then
          Lower.set d.forest.size .initializer value
        Lower.push owner .declarators d.forest.size
        return ForInStep.yield PUnit.unit) source d₄ = .ok (r, d')) :
      r = .yield ⟨⟩ ∧ ∃ n, Adds d d' owner n nm type := by
    obtain ⟨v, d₅, hv, hrun⟩ := exists_of_bind hrun
    have h₅ := forming_value hin hx.inward (fun t ht => (hx.clause t ht).2.1) h₄ hv
    have hfresh := (hs.does_declaratorValue hforms hx.declared (fun t ht => (hx.clause t ht).1)
      h₄.root).of_run hv
    have hpush {d₆ : Draft} (h₆ : Forming d.forest d₆.forest d.forest.size (some nm) type)
        (hrun : (do
          Lower.push owner .declarators d.forest.size
          return ForInStep.yield PUnit.unit) source d₆ = .ok (r, d')) :
        r = .yield ⟨⟩ ∧ ∃ n, Adds d d' owner n nm type := by
      obtain ⟨_, d₇, hpush, ⟨⟩⟩ := exists_of_bind hrun
      have hroot := h₆.gains.isRoot ho
      have hne : d.forest.size ≠ owner := Nat.ne_of_gt ho.lt
      obtain ⟨hchanges, hchildren⟩ := changesOnly_of_push h₆.gains.linked hroot h₆.root hne hpush
      refine ⟨rfl, d.forest.size, ?_, Nat.le_refl _, ?_, ?_⟩
      · exact (changesOnly_of_gains h₆.gains ho _).trans hchanges
      · rw [hchildren, h₆.gains.children owner _ ho.lt]
      · exact hchanges.isVariable h₆.root.lt hne ⟨h₆.kind, h₆.name, h₆.type⟩
    cases v with
    | none => exact hpush h₅ hrun
    | some value =>
        obtain ⟨_, d₆, hset, hrun⟩ := exists_of_bind hrun
        have hvalue := hfresh.fresh value rfl
        refine hpush (h₅.set hvalue.root ?_ (hvalue.ne h₄.root) (by decide) (by decide) hset) hrun
        exact Nat.le_trans h₄.gains.size_le hvalue.new
  cases shared with
  | true => exact hrest h₃ hrun
  | false =>
      cases clause with
      | none => exact hrest h₃ hrun
      | some t =>
          obtain ⟨m, d₄, hm, hrun⟩ := exists_of_bind hrun
          have hm' := makesTree_declaratorType (x := x) (hx.clause t rfl).2.2 h₃.gains.linked hm
          obtain ⟨_, d₅, hset, hrun⟩ := exists_of_bind hrun
          refine hrest ((h₃.then_gains hm'.gains).setType (hm'.after_gains h₃.gains) ?_ hset) hrun
          exact Nat.ne_of_gt (Nat.lt_of_lt_of_le h₃.root.lt hm'.new)

omit [DecidableEq δ] in
/-- A loop adds the variables of its rounds in order. -/
theorem exists_addedAll {γ : Type} {round : γ → PUnit → Lower (ForInStep PUnit)}
    {nameOf : γ → String} {typeOf : γ → Option Tree} {ps : List γ}
    (h : ∀ p ∈ ps, ∀ {d d' : Draft} {r : ForInStep PUnit}, d.forest.WellLinked →
      d.forest.IsRoot owner → round p ⟨⟩ source d = .ok (r, d') →
        r = .yield ⟨⟩ ∧ ∃ n, Adds d d' owner n (nameOf p) (typeOf p))
    (hd : d.forest.WellLinked) (ho : d.forest.IsRoot owner) {u : PUnit}
    (hrun : forIn ps PUnit.unit round source d = .ok (u, d')) :
    ChangesOnly owner .declarators d.forest d'.forest ∧ ∃ ns,
      d'.forest.children owner .declarators = d.forest.children owner .declarators ++ ns ∧
        List.Forall₂ (fun n p => d'.forest.IsVariable n (nameOf p) (typeOf p)) ns ps := by
  induction ps generalizing d with
  | nil =>
      cases hrun
      exact ⟨.refl hd ho _, [], by simp, .nil⟩
  | cons p ps ih =>
      rw [List.forall_mem_cons] at h
      rw [List.forIn_cons] at hrun
      obtain ⟨r, d₁, hround, hrun⟩ := exists_of_bind hrun
      obtain ⟨rfl, n, hadds⟩ := h.1 hd ho hround
      obtain ⟨hchanges, ns, hchildren, hall⟩ :=
        ih h.2 hadds.changes.linked hadds.changes.stays hrun
      refine ⟨hadds.changes.trans hchanges, n :: ns, ?_, .cons ?_ hall⟩
      · rw [hchildren, hadds.declarators, List.append_assoc, List.singleton_append]
      · have hmem : n ∈ d₁.forest.children owner .declarators := by simp [hadds.declarators]
        have hne : n ≠ owner := by
          rintro rfl
          exact hadds.changes.stays.not_mem_children hadds.changes.linked n _ hmem
        exact hchanges.isVariable (lt_of_mem_children hadds.changes.linked hmem) hne hadds.isVariable

def ownType (g : Grammar δ) (tree : RawTree δ → Tree) (shared : Bool)
    (p : Declarator δ × Option (Nat × RawTree δ)) : Option Tree :=
  if shared then none else p.2.map fun found => p.1.typeTree g (tree found.2)

def sharedType (g : Grammar δ) (tree : RawTree δ → Tree) (shared : Bool)
    (ps : List (Declarator δ × Option (Nat × RawTree δ))) : Option Tree :=
  if shared then ps.head?.bind fun p => p.2.map fun found => p.1.typeTree g (tree found.2) else none

structure DeclaresAll (g : Grammar δ) (f : Forest) (owner : NodeId) (tree : RawTree δ → Tree)
    (nameOf : Declarator δ → String) (ds : List (Declarator δ)) : Prop where
  each : List.Forall₂ (fun n p => f.IsVariable n (nameOf p.1)
      (ownType g tree (sharesType ds (clausesFrom 0 ds)) p))
    (f.children owner .declarators) (ds.zip (clausesFrom 0 ds))
  type : f.HoldsType owner
    (sharedType g tree (sharesType ds (clausesFrom 0 ds)) (ds.zip (clausesFrom 0 ds)))

/-- Adding the variables of a list gives a declaration with all of them. -/
theorem declaresAll_of_run (hs : Setting s source e ready clean recur)
    (hin : ∀ f, Inward (.gains f) recur T)
    (hforms : s.spellsClause forms.asNew = true ∧ s.spellsCreation forms.asNew = true ∧
      s.nests s.isList forms.suffix = true)
    {raw : RawTree δ} {ds : List (Declarator δ)} {nameOf : Declarator δ → String}
    (hread : ((raw.listItems s.grammar).1.filter (·.token?.isNone)).mapM
      (readDeclarator s.grammar forms) = pure ds)
    (hserved : ∀ p ∈ ds.zip (clausesFrom 0 ds),
      Served s source ready clean T recur forms tree p.1 (p.2.map (·.2)) (nameOf p.1))
    (hd : d.forest.WellLinked) (ho : d.forest.IsRoot owner)
    (htype : d.forest.children owner .type = []) (hnone : d.forest.children owner .declarators = [])
    {u : Unit} (hrun : addDeclarators s.grammar recur forms owner raw source d = .ok (u, d')) :
    DeclaresAll s.grammar d'.forest owner tree nameOf ds := by
  rw [addDeclarators, hread, pure_bind] at hrun
  -- the loop, after the type of the declaration has been set
  have hloop {d₁ : Draft} {type : Option Tree} (hchanges : ChangesOnly owner .type d.forest d₁.forest)
      (htype : d₁.forest.HoldsType owner type)
      (hrun : (do
        let _ ← forIn (ds.zip (clausesFrom 0 ds)) PUnit.unit
          fun (p : Declarator δ × Option (Nat × RawTree δ)) _ => declaratorRound s.grammar recur forms
            owner (sharesType ds (clausesFrom 0 ds)) p.1 (p.2.map Prod.snd)
        pure ()) source d₁ = .ok (u, d')) :
      List.Forall₂ (fun n p => d'.forest.IsVariable n (nameOf p.1)
          (ownType s.grammar tree (sharesType ds (clausesFrom 0 ds)) p))
        (d'.forest.children owner .declarators) (ds.zip (clausesFrom 0 ds)) ∧
        d'.forest.HoldsType owner type := by
    obtain ⟨_, d₂, hrounds, ⟨⟩⟩ := exists_of_bind hrun
    have hround : ∀ p ∈ ds.zip (clausesFrom 0 ds), ∀ {d d' : Draft} {r : ForInStep PUnit},
        d.forest.WellLinked → d.forest.IsRoot owner →
        declaratorRound s.grammar recur forms owner (sharesType ds (clausesFrom 0 ds)) p.1
          (p.2.map (·.2)) source d = .ok (r, d') → r = .yield ⟨⟩ ∧ ∃ n, Adds d d' owner n
          (nameOf p.1) (ownType s.grammar tree (sharesType ds (clausesFrom 0 ds)) p) := by
      intro p hp d d' r hd ho hrun
      have hadded := exists_added hs hin hforms (hserved p hp) _ hd ho hrun
      rwa [Option.map_map] at hadded
    obtain ⟨hdone, ns, hchildren, hall⟩ :=
      exists_addedAll hround hchanges.linked hchanges.stays hrounds
    have howner := hchanges.children owner .declarators ho.lt fun _ => by decide
    rw [howner, hnone, List.nil_append] at hchildren
    exact ⟨hchildren ▸ hall, hdone.holdsType hchanges.stays.lt (fun _ => by decide) htype⟩
  have hown : d.forest.HoldsType owner none := htype
  dsimp only at hrun
  split at hrun
  case isFalse hshared =>
    obtain ⟨heach, htype⟩ := hloop (.refl hd ho _) hown hrun
    exact ⟨heach, by rwa [sharedType, if_neg hshared]⟩
  case isTrue hshared =>
    have hwithout (hhead : sharedType s.grammar tree true (ds.zip (clausesFrom 0 ds)) = none)
        (hrun : (do
          let _ ← forIn (ds.zip (clausesFrom 0 ds)) PUnit.unit
            fun (p : Declarator δ × Option (Nat × RawTree δ)) _ => declaratorRound s.grammar recur
              forms owner (sharesType ds (clausesFrom 0 ds)) p.1 (p.2.map Prod.snd)
          pure ()) source d = .ok (u, d')) :
        DeclaresAll s.grammar d'.forest owner tree nameOf ds := by
      obtain ⟨heach, htype⟩ := hloop (.refl hd ho _) hown hrun
      exact ⟨heach, by rwa [hshared, hhead]⟩
    obtain ⟨xs, cs, hpair⟩ : ∃ xs cs, (ds, clausesFrom 0 ds) = (xs, cs) := ⟨_, _, rfl⟩
    obtain ⟨hds, hcs⟩ := Prod.mk.inj hpair
    have hzip : ds.zip (clausesFrom 0 ds) = xs.zip cs := congrArg₂ List.zip hds hcs
    rw [hpair] at hrun
    rcases xs with _ | ⟨x, xs⟩
    · exact hwithout (by rw [hzip]; rfl) hrun
    rcases cs with _ | ⟨_ | ⟨k, clause⟩, cs⟩
    · exact hwithout (by rw [hzip]; rfl) hrun
    · exact hwithout (by rw [hzip]; rfl) hrun
    · obtain ⟨m, d₁, hm, hrun⟩ := exists_of_bind hrun
      obtain ⟨_, d₂, hset, hrun⟩ := exists_of_bind hrun
      have hmem : (x, some (k, clause)) ∈ ds.zip (clausesFrom 0 ds) := hzip ▸ List.mem_cons_self
      have hm' := makesTree_declaratorType (x := x) ((hserved _ hmem).clause clause rfl).2.2 hd hm
      have hroot := hm'.gains.isRoot ho
      have hne : m ≠ owner := Nat.ne_of_gt (Nat.lt_of_lt_of_le ho.lt hm'.new)
      obtain ⟨hchanges, hchildren⟩ :=
        changesOnly_of_set hm'.gains.linked hroot hm'.root hne hset
      rw [hm'.gains.children owner _ ho.lt, htype] at hchildren
      have hthis : d₂.forest.HoldsType owner (some (x.typeTree s.grammar (tree clause))) :=
        ⟨m, hchildren, hchanges.holds hm'.root.lt hne hm'.holds⟩
      obtain ⟨heach, htype⟩ :=
        hloop ((changesOnly_of_gains hm'.gains ho _).trans hchanges) hthis hrun
      exact ⟨heach, by rw [hshared, hzip]; exact htype⟩

end Rounds

end Lowering

end DualSyntax
