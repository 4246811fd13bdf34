import DualSyntax.Proofs.Forest.Extensions
import DualSyntax.Semantics

/-!
# Declared names

In a forest that was parsed, namespaces stand in namespaces or in a compilation unit, and each of them
spells a name.  Both are known of all nodes that are finished; the one node that is being made has no
parent yet, and if it is a namespace it may have no name.

The full name of a namespace is made of the names of the declarations around it.  Its dotted prefixes are
those that its own name spells behind the outer names, and the dotted prefixes of the outer names.
-/

namespace DualSyntax

namespace Semantics

open Forest

variable {f f' f'' : Forest} {n c m : NodeId} {k : NodeKind} {t : Title} {s : String}

/-! ## Names that stay -/

/-- Old nodes keep their kinds and what spells their names. -/
structure KeepsNames (f f' : Forest) : Prop where
  base : f.WellLinked
  size_le : f.size ≤ f'.size
  kind : ∀ n, n < f.size → f'.kind n = f.kind n
  target : ∀ n, n < f.size → f'.child? n .target = f.child? n .target
  identifier : ∀ n, n < f.size → f'.child? n .identifier = f.child? n .identifier

theorem KeepsNames.nameOf? (h : KeepsNames f f') (hn : n < f.size) : f'.nameOf? n = f.nameOf? n := by
  rw [Forest.nameOf?, Forest.nameOf?, h.identifier n hn]
  cases hchild : f.child? n .identifier with
  | none => rfl
  | some c =>
      have hc := lt_size_of_parent (h.base.parent_of_mem_children (mem_children_of_child? hchild))
      rw [Option.map_some, Option.map_some, h.kind c hc]

/-- A dotted name is still spelled when a forest has grown. -/
theorem KeepsNames.dottedNameUpTo (h : KeepsNames f f') {fuel fuel' : Nat} (hfuel : fuel ≤ fuel')
    (hs : dottedNameUpTo f fuel n = some s) : dottedNameUpTo f' fuel' n = some s := by
  induction fuel generalizing n fuel' s with
  | zero => cases hs
  | succ fuel ih =>
      obtain ⟨fuel', rfl⟩ : ∃ i, fuel' = i + 1 := ⟨fuel' - 1, by omega⟩
      have hn : n < f.size := by
        by_contra hout
        have hkind : f.kind n = .blankLine := by
          rw [Forest.kind, data_of_size_le (Nat.not_lt.mp hout)]
        rw [Semantics.dottedNameUpTo, hkind] at hs
        cases hs
      have hdotted (hs : (do
          let target ← Semantics.dottedNameUpTo f fuel (← f.child? n .target)
          return target ++ "." ++ (← f.nameOf? n)) = some s) : (do
          let target ← Semantics.dottedNameUpTo f' fuel' (← f'.child? n .target)
          return target ++ "." ++ (← f'.nameOf? n)) = some s := by
        obtain ⟨c, hc, hs⟩ := Option.bind_eq_some_iff.mp hs
        obtain ⟨target, htarget, hs⟩ := Option.bind_eq_some_iff.mp hs
        rw [h.target n hn, hc, Option.bind_eq_bind, Option.bind_some, h.nameOf? hn]
        rw [ih (Nat.le_of_succ_le_succ hfuel) htarget]
        exact hs
      rw [Semantics.dottedNameUpTo] at hs ⊢
      rw [h.kind n hn]
      split at hs
      · rw [h.nameOf? hn]
        exact hs
      · rw [h.nameOf? hn]
        exact hs
      · exact hdotted hs
      · exact hdotted hs
      · cases hs

theorem KeepsNames.dottedName? (h : KeepsNames f f') (hs : dottedName? f n = some s) :
    dottedName? f' n = some s :=
  h.dottedNameUpTo (Nat.succ_le_succ h.size_le) hs

theorem KeepsNames.ownName? (h : KeepsNames f f')
    (htitle : f'.child? n .fullName = f.child? n .fullName) (hs : ownName? f n = some s) :
    ownName? f' n = some s := by
  obtain ⟨c, hc, hs⟩ := Option.bind_eq_some_iff.mp hs
  rw [Semantics.ownName?, htitle, hc]
  exact h.dottedName? hs

theorem child?_of_gains {kinds : NodeKind → Prop} (h : f.Gains kinds f') (hn : n < f.size) (t : Title) :
    f'.child? n t = f.child? n t := by
  rw [child?_eq_head?, child?_eq_head?, h.children n t hn]

theorem keepsNames_of_gains {kinds : NodeKind → Prop} (h : f.Gains kinds f') : KeepsNames f f' where
  base := h.base
  size_le := h.size_le
  kind := h.kind
  target _ hn := child?_of_gains h hn _
  identifier _ hn := child?_of_gains h hn _

def isNamePart : Title → Bool
  | .target | .identifier => true
  | _ => false

theorem child?_of_edited {above out : Option NodeId} {owner : NodeId} {list : List NodeId}
    (h : Edited f f' c above out owner t list) (hf : f.WellLinked) (hc : f.IsRoot c) {u : Title}
    (hne : n ≠ owner ∨ u ≠ t) : f'.child? n u = f.child? n u := by
  rw [child?_eq_head?, child?_eq_head?, h.others n u hne,
    filter_of_not_mem (hc.not_mem_children hf n u)]

theorem KeepsNames.refl (h : f.WellLinked) : KeepsNames f f :=
  ⟨h, Nat.le_refl _, fun _ _ => rfl, fun _ _ => rfl, fun _ _ => rfl⟩

/-- A root that is put below a new node, or under a title other than those of a name, leaves all old
names as they are. -/
theorem KeepsNames.edited (hkeeps : KeepsNames f f') {above out : Option NodeId} {owner : NodeId}
    {list : List NodeId} (h : Edited f' f'' c above out owner t list) (hf' : f'.WellLinked)
    (hc : f'.IsRoot c) (ht : f.size ≤ owner ∨ isNamePart t = false) : KeepsNames f f'' := by
  have hchild (n : NodeId) (hn : n < f.size) (u : Title) (hu : isNamePart u = true) :
      f''.child? n u = f'.child? n u := by
    apply child?_of_edited h hf' hc
    rcases ht with howner | htitle
    · exact .inl fun heq => Nat.not_lt.mpr howner (heq ▸ hn)
    · refine .inr fun heq => ?_
      rw [heq, htitle] at hu
      cases hu
  refine ⟨hkeeps.base, ?_, fun n hn => ?_, fun n hn => ?_, fun n hn => ?_⟩
  · rw [h.size]
    exact hkeeps.size_le
  · rw [h.kind, hkeeps.kind n hn]
  · rw [hchild n hn _ rfl, hkeeps.target n hn]
  · rw [hchild n hn _ rfl, hkeeps.identifier n hn]

/-- The name of a node over a root that spells one and an identifier. -/
theorem dottedName?_member (h : KeepsNames f f') (hlt : f.size < f'.size) {target : NodeId} {last : String}
    (hs : dottedName? f target = some s) (hkind : f'.kind n = .memberType)
    (htarget : f'.child? n .target = some target) (hlast : f'.nameOf? n = some last) :
    dottedName? f' n = some (s ++ "." ++ last) := by
  rw [Semantics.dottedName?, Semantics.dottedNameUpTo, hkind]
  simp only [htarget, Option.bind_eq_bind, Option.bind_some,
    h.dottedNameUpTo (Nat.succ_le_of_lt hlt) hs, hlast]
  rfl

theorem dottedName?_simple {f : Forest} (hkind : f.kind n = .simpleType) :
    dottedName? f n = f.nameOf? n := by
  rw [Semantics.dottedName?, Semantics.dottedNameUpTo, hkind]

/-! ## Nodes in their places -/

/-- A text that can be a name: it is not empty and does not begin with a dot. -/
def IsName (s : String) : Prop := ∃ c ∈ s.toList.head?, c ≠ '.'

/-- A node in its place: a namespace spells a name, and a node below which namespaces may be declared
is itself a namespace in another such node, if it has a parent. -/
structure InPlace (f : Forest) (n : NodeId) : Prop where
  hosted : ∀ {p}, f.parent n = some p → (f.kind n).isHost = true →
    f.kind n = .namespaceDeclaration ∧ (f.kind p).isHost = true
  named : f.kind n = .namespaceDeclaration → ∃ s, ownName? f n = some s ∧ IsName s

theorem InPlace.of_inner (h : (f.kind n).isHost = false) : InPlace f n where
  hosted _ hhost := by
    rw [h] at hhost
    cases hhost
  named hkind := by
    rw [hkind] at h
    cases h

theorem InPlace.of_gains {kinds : NodeKind → Prop} (hn : InPlace f n) (h : f.Gains kinds f')
    (hlt : n < f.size) : InPlace f' n where
  hosted {p} hparent hhost := by
    rw [h.parent n hlt] at hparent
    rw [h.kind n hlt] at hhost ⊢
    rw [h.kind p (h.base.parent_lt hparent)]
    exact hn.hosted hparent hhost
  named hkind := by
    rw [h.kind n hlt] at hkind
    obtain ⟨s, hs, hname⟩ := hn.named hkind
    exact ⟨s, (keepsNames_of_gains h).ownName? (child?_of_gains h hlt _) hs, hname⟩

structure GrowsInPlace (f f' : Forest) : Prop where
  gains : f.Gains (fun _ => True) f'
  placed : ∀ m, f.size ≤ m → InPlace f' m

theorem InPlace.of_size_le (h : f.size ≤ n) : InPlace f n := by
  apply InPlace.of_inner
  rw [Forest.kind, data_of_size_le h]
  rfl

theorem GrowsInPlace.of_inner (h : f.Gains NodeKind.IsInner f') : GrowsInPlace f f' where
  gains := h.mono fun _ _ => trivial
  placed m hm := by
    by_cases hlt : m < f'.size
    · exact .of_inner (h.new m hm hlt)
    · exact .of_size_le (Nat.not_lt.mp hlt)

/-- A new root in a forest that has grown by nodes in their places. -/
structure PlacesRoot (f f' : Forest) (n : NodeId) : Prop where
  grows : GrowsInPlace f f'
  root : f'.IsRoot n
  new : f.size ≤ n

/-! ## Nodes that are being made -/

/-- A root of a kind is being made, and all other nodes since some forest are in their places.  If the
root is named already, it is in its place, too. -/
structure Making (f : Forest) (n : NodeId) (k : NodeKind) (isNamed : Bool) (f' : Forest) : Prop where
  gains : f.Gains (fun _ => True) f'
  new : f.size ≤ n
  root : f'.IsRoot n
  kind : f'.kind n = k
  others : ∀ m, f.size ≤ m → m ≠ n → InPlace f' m
  named : isNamed = true → k = .namespaceDeclaration → ∃ s, ownName? f' n = some s ∧ IsName s

namespace Making

variable {isNamed : Bool} {out : Option NodeId} {list : List NodeId}

theorem start (hf : f.WellLinked) {k : NodeKind} (hk : isNamed = true → k ≠ .namespaceDeclaration)
    (range : TextRange) : Making f f.size k isNamed (f.allocate k range).2 where
  gains := (Gains.refl hf).allocate trivial range
  new := Nat.le_refl _
  root := isRoot_allocate f k range
  kind := kind_allocate f k range
  others m hm hne := .of_size_le (by
    rw [size_allocate]
    exact Nat.lt_of_le_of_ne hm hne.symm)
  named hnamed hkind := (hk hnamed hkind).elim

theorem placesRoot (h : Making f n k true f') : PlacesRoot f f' n where
  grows := by
    refine ⟨h.gains, fun m hm => ?_⟩
    by_cases hne : m = n
    · refine ⟨fun hparent => ?_, fun hkind => ?_⟩
      · rw [hne, h.root.parent] at hparent
        cases hparent
      · rw [hne] at hkind ⊢
        exact h.named rfl (h.kind.symm.trans hkind)
    · exact h.others m hm hne
  root := h.root
  new := h.new

theorem of_placesRoot (h : PlacesRoot f f' n) (hk : f'.kind n = k) : Making f n k true f' where
  gains := h.grows.gains
  new := h.new
  root := h.root
  kind := hk
  others m hm _ := h.grows.placed m hm
  named _ hkind := (h.grows.placed n h.new).named (hk.trans hkind)

theorem grow (h : Making f n k isNamed f') (hgrows : GrowsInPlace f' f'') :
    Making f n k isNamed f'' where
  gains := h.gains.trans hgrows.gains
  new := h.new
  root := by
    refine ⟨Nat.lt_of_lt_of_le h.root.lt hgrows.gains.size_le, ?_⟩
    rw [hgrows.gains.parent n h.root.lt, h.root.parent]
  kind := by rw [hgrows.gains.kind n h.root.lt, h.kind]
  others m hm hne := by
    by_cases hlt : m < f'.size
    · exact (h.others m hm hne).of_gains hgrows.gains hlt
    · exact hgrows.placed m (Nat.not_lt.mp hlt)
  named hnamed hkind := by
    obtain ⟨s, hs, hname⟩ := h.named hnamed hkind
    refine ⟨s, (keepsNames_of_gains hgrows.gains).ownName? ?_ hs, hname⟩
    exact child?_of_gains hgrows.gains h.root.lt _

/-- What has been made next is another node. -/
theorem ne_of_placesRoot (h : Making f n k isNamed f') (hc : PlacesRoot f' f'' c) : c ≠ n := by
  rintro rfl
  exact Nat.not_lt.mpr hc.new h.root.lt

/-- What may be put below a node of a kind. -/
def Fits (f : Forest) (k : NodeKind) (c : NodeId) : Prop :=
  (f.kind c).isHost = true → f.kind c = .namespaceDeclaration ∧ k.isHost = true

/-- A root is put below the node that is being made, which has its name already or gets it now. -/
theorem edited (h : Making f n k isNamed f') (hc : f'.IsRoot c) (hnew : f.size ≤ c) (hne : c ≠ n)
    (hfits : Fits f' k c) (ht : isNamePart t = false) (htitle : isNamed = true → t ≠ .fullName)
    (hedited : Edited f' f'' c (some n) out n t list) (hout : ∀ o ∈ out, f.size ≤ o)
    (hlinked : f''.WellLinked) : Making f n k isNamed f'' where
  gains := h.gains.edited hedited hlinked hnew h.new hout
  new := h.new
  root := by
    refine ⟨by rw [hedited.size]; exact h.root.lt, ?_⟩
    rw [hedited.parent, if_neg hne.symm, h.root.parent, ite_self]
  kind := by rw [hedited.kind, h.kind]
  others m hm hmn := by
    have hold := h.others m hm hmn
    refine ⟨fun {p} hparent hhost => ?_, fun hkind => ?_⟩
    · rw [hedited.parent] at hparent
      rw [hedited.kind] at hhost
      rw [hedited.kind, hedited.kind]
      split at hparent
      · cases hparent
      · split at hparent
        · next hmc =>
            cases hparent
            rw [hmc] at hhost ⊢
            rw [h.kind]
            exact hfits hhost
        · exact hold.hosted hparent hhost
    · rw [hedited.kind] at hkind
      obtain ⟨s, hs, hname⟩ := hold.named hkind
      have hkeeps := (KeepsNames.refl h.gains.linked).edited hedited h.gains.linked hc (.inr ht)
      refine ⟨s, hkeeps.ownName? ?_ hs, hname⟩
      exact child?_of_edited hedited h.gains.linked hc (.inl hmn)
  named hnamed hkind := by
    obtain ⟨s, hs, hname⟩ := h.named hnamed hkind
    have hkeeps := (KeepsNames.refl h.gains.linked).edited hedited h.gains.linked hc (.inr ht)
    refine ⟨s, hkeeps.ownName? ?_ hs, hname⟩
    exact child?_of_edited hedited h.gains.linked hc (.inr (htitle hnamed).symm)

theorem appendChild? (h : Making f n k isNamed f') (hc : f'.IsRoot c) (hnew : f.size ≤ c)
    (hne : c ≠ n) (hfits : Fits f' k c) (ht : isNamePart t = false)
    (htitle : isNamed = true → t ≠ .fullName) (happend : f'.appendChild? n t c = some f'') :
    Making f n k isNamed f'' := by
  obtain ⟨list, hedited⟩ := h.gains.linked.edited_of_appendChild? happend
  exact h.edited hc hnew hne hfits ht htitle hedited (by simp) (h.gains.linked.appendChild? happend)

theorem setChild? (h : Making f n k isNamed f') (hc : f'.IsRoot c) (hnew : f.size ≤ c)
    (hne : c ≠ n) (hfits : Fits f' k c) (ht : isNamePart t = false)
    (htitle : isNamed = true → t ≠ .fullName) {old : Option NodeId}
    (hset : f'.setChild? n t c = some (old, f'')) :
    Making f n k isNamed f'' ∧ f''.child? n t = some c := by
  rcases h.gains.linked.edited_of_setChild? hset with ⟨hchild, rfl⟩ | hedited
  · exact ⟨h, hchild⟩
  · refine ⟨h.edited hc hnew hne hfits ht htitle hedited (fun o ho => ?_)
      (h.gains.linked.setChild? hset), ?_⟩
    · have hmem := (List.mem_filter.mp (List.mem_of_mem_head? ho)).1
      exact h.gains.child_new h.new hmem
    · rw [child?_eq_head?, hedited.list, List.head?_cons]

theorem setName (h : Making f n k false f') (hc : f'.IsRoot c) (hnew : f.size ≤ c) (hne : c ≠ n)
    (hfits : Fits f' k c) (hs : dottedName? f' c = some s) (hname : IsName s)
    {old : Option NodeId} (hset : f'.setChild? n .fullName c = some (old, f'')) :
    Making f n k true f'' := by
  obtain ⟨hmade, hchild⟩ := h.setChild? hc hnew hne hfits rfl nofun hset
  refine { hmade with named := fun _ _ => ⟨s, ?_, hname⟩ }
  rw [Semantics.ownName?, hchild]
  rcases h.gains.linked.edited_of_setChild? hset with ⟨-, rfl⟩ | hedited
  · exact hs
  · exact ((KeepsNames.refl h.gains.linked).edited hedited h.gains.linked hc (.inr rfl)).dottedName? hs

end Making

end Semantics

end DualSyntax

/-! ## Dotted names -/

namespace DualSyntax.Semantics

variable {p q s own outer : String} {names : List String}

/-- A part at the start of a dotted name: it is not empty, and a dot or nothing comes after it. -/
def IsDottedPrefix (p full : String) : Prop :=
  p ≠ "" ∧ (p = full ∨ ∃ rest, full = p ++ "." ++ rest)

theorem IsDottedPrefix.length_le (h : IsDottedPrefix p s) : p.length ≤ s.length := by
  obtain ⟨-, rfl | ⟨rest, rfl⟩⟩ := h
  · exact Nat.le_refl _
  · rw [String.length_append, String.length_append, Nat.add_assoc]
    exact Nat.le_add_right _ _

theorem IsName.ne_empty (h : IsName s) : s ≠ "" := by
  rintro rfl
  obtain ⟨c, ⟨⟩, -⟩ := h

theorem eq_append_dot_iff {rest : String} :
    s = p ++ "." ++ rest ↔ s.toList = p.toList ++ '.' :: rest.toList := by
  rw [← String.toList_inj, String.toList_append, String.toList_append, List.append_assoc]
  rfl

theorem IsName.ne_empty_of_dot (h : IsName s) {rest : String} (hs : s = p ++ "." ++ rest) : p ≠ "" := by
  rintro rfl
  obtain ⟨c, hc, hne⟩ := h
  rw [eq_append_dot_iff.mp hs] at hc
  cases hc
  exact hne rfl

/-! ## The names in front of the dots -/

theorem mem_outerNames_iff : p ∈ outerNames s ↔ ∃ rest, s = p ++ "." ++ rest := by
  simp only [outerNames, List.mem_map, List.mem_filter, List.mem_reverse, List.mem_range, beq_iff_eq]
  constructor
  · rintro ⟨i, ⟨hi, hdot⟩, rfl⟩
    refine ⟨String.ofList (s.toList.drop (i + 1)), eq_append_dot_iff.mpr ?_⟩
    rw [List.getElem?_eq_getElem hi, Option.some.injEq] at hdot
    rw [String.toList_ofList, String.toList_ofList, ← hdot, ← List.drop_eq_getElem_cons hi,
      List.take_append_drop]
  · rintro ⟨rest, hs⟩
    have hlist := eq_append_dot_iff.mp hs
    refine ⟨p.toList.length, ⟨?_, ?_⟩, ?_⟩
    · rw [hlist, List.length_append, List.length_cons]
      omega
    · rw [hlist, List.getElem?_append_right (Nat.le_refl _), Nat.sub_self]
      rfl
    · rw [hlist, List.take_left, String.ofList_toList]

theorem pairwise_outerNames (s : String) :
    (outerNames s).Pairwise fun a b => b.length < a.length := by
  have hdescending : (List.range s.toList.length).reverse.Pairwise (· > ·) :=
    List.pairwise_reverse.mpr List.pairwise_lt_range
  rw [outerNames, List.pairwise_map]
  refine (hdescending.filter _).imp_of_mem fun {i j} hi hj hlt => ?_
  simp only [List.mem_filter, List.mem_reverse, List.mem_range] at hi hj
  simp only [String.length_ofList, List.length_take]
  omega

theorem length_lt_of_mem_outerNames (h : p ∈ outerNames s) : p.length < s.length := by
  obtain ⟨rest, rfl⟩ := mem_outerNames_iff.mp h
  rw [String.length_append, String.length_append]
  have hdot : ".".length = 1 := rfl
  omega

/-- The names that a name spells behind an outer part. -/
def spelledNames (outer own : String) : List String := (own :: outerNames own).map (outer ++ ·)

/-- No part of a name is empty. -/
theorem mem_spelledNames_iff (h : IsName own) :
    p ∈ spelledNames outer own ↔ ∃ q, p = outer ++ q ∧ IsDottedPrefix q own := by
  simp only [spelledNames, List.mem_map, List.mem_cons, mem_outerNames_iff]
  constructor
  · rintro ⟨q, rfl | ⟨rest, hrest⟩, rfl⟩
    · exact ⟨q, rfl, h.ne_empty, .inl rfl⟩
    · exact ⟨q, rfl, h.ne_empty_of_dot hrest, .inr ⟨rest, hrest⟩⟩
  · rintro ⟨q, rfl, -, hq⟩
    exact ⟨q, hq, rfl⟩

theorem pairwise_spelledNames (outer own : String) :
    (spelledNames outer own).Pairwise fun a b => b.length < a.length := by
  rw [spelledNames, List.pairwise_map, List.pairwise_cons]
  refine ⟨fun p hp => ?_, (pairwise_outerNames own).imp fun {a b} hlt => ?_⟩
  · rw [String.length_append, String.length_append]
    exact Nat.add_lt_add_left (length_lt_of_mem_outerNames hp) _
  · rw [String.length_append, String.length_append]
    exact Nat.add_lt_add_left hlt _

/-! ## Nested names -/

/-- What stands in front of a name that is declared inside of others, innermost first. -/
def qualifier : List String → String
  | [] => ""
  | own :: outer => qualifier outer ++ own ++ "."

/-- The full name of a declaration inside of others. -/
theorem intercalate_reverse (own : String) (outer : List String) :
    ".".intercalate (own :: outer).reverse = qualifier outer ++ own := by
  induction outer generalizing own with
  | nil => simp [qualifier]
  | cons o os ih =>
      rw [List.reverse_cons, String.intercalate_append_of_ne_nil (by simp) (by simp), ih]
      simp [qualifier]

/-- The names that declarations inside of each other spell, innermost first. -/
def nestedNames : List String → List String
  | [] => []
  | own :: outer => spelledNames (qualifier outer) own ++ nestedNames outer

theorem isDottedPrefix_member (h : IsName own) : IsDottedPrefix p (s ++ "." ++ own) ↔
    (∃ q, p = s ++ "." ++ q ∧ IsDottedPrefix q own) ∨ IsDottedPrefix p s := by
  constructor
  · rintro ⟨hne, rfl | ⟨rest, hrest⟩⟩
    · exact .inl ⟨own, rfl, h.ne_empty, .inl rfl⟩
    · have hwhole : (s ++ "." ++ own).toList = s.toList ++ '.' :: own.toList :=
        eq_append_dot_iff.mp rfl
      rw [eq_append_dot_iff, hwhole] at hrest
      rcases List.append_eq_append_iff.mp hrest with ⟨as, hp, has⟩ | ⟨bs, hs, hbs⟩
      · -- the prefix goes beyond the outer name, unless it is that name
        cases as with
        | nil =>
            rw [List.append_nil, String.toList_inj] at hp
            exact .inr ⟨hne, .inl hp⟩
        | cons c as =>
            obtain ⟨rfl, hown⟩ := List.cons.inj has
            have hsplit : own = String.ofList as ++ "." ++ rest :=
              eq_append_dot_iff.mpr (by rw [String.toList_ofList]; exact hown)
            refine .inl ⟨String.ofList as, eq_append_dot_iff.mpr ?_, h.ne_empty_of_dot hsplit,
              .inr ⟨rest, hsplit⟩⟩
            rw [hp, String.toList_ofList]
      · cases bs with
        | nil =>
            rw [List.append_nil, String.toList_inj] at hs
            exact .inr ⟨hne, .inl hs.symm⟩
        | cons c bs =>
            obtain ⟨rfl, -⟩ := List.cons.inj hbs
            refine .inr ⟨hne, .inr ⟨String.ofList bs, eq_append_dot_iff.mpr ?_⟩⟩
            rw [hs, String.toList_ofList]
  · rintro (⟨q, rfl, hne, hq⟩ | ⟨hne, hp⟩)
    · refine ⟨?_, ?_⟩
      · exact fun hempty => hne (by simpa using congrArg String.toList hempty)
      · rcases hq with rfl | ⟨rest, rfl⟩
        · exact .inl rfl
        · exact .inr ⟨rest, by simp only [String.append_assoc]⟩
    · refine ⟨hne, .inr ?_⟩
      rcases hp with rfl | ⟨rest, rfl⟩
      · exact ⟨own, rfl⟩
      · exact ⟨rest ++ "." ++ own, by simp only [String.append_assoc]⟩

/-- Declarations inside of each other spell exactly the dotted prefixes of the full name. -/
theorem mem_nestedNames_iff (h : ∀ s ∈ own :: names, IsName s) :
    p ∈ nestedNames (own :: names) ↔ IsDottedPrefix p (qualifier names ++ own) := by
  induction names generalizing own with
  | nil =>
      rw [List.forall_mem_cons] at h
      simp [nestedNames, qualifier, mem_spelledNames_iff h.1]
  | cons o os ih =>
      rw [List.forall_mem_cons] at h
      rw [nestedNames, List.mem_append, mem_spelledNames_iff h.1, ih h.2, qualifier,
        isDottedPrefix_member h.1]

/-- They spell the longest first, and none twice. -/
theorem pairwise_nestedNames (h : ∀ s ∈ names, IsName s) :
    (nestedNames names).Pairwise fun a b => b.length < a.length := by
  induction names with
  | nil => exact .nil
  | cons own outer ih =>
      rw [List.forall_mem_cons] at h
      rw [nestedNames, List.pairwise_append]
      refine ⟨pairwise_spelledNames _ own, ih h.2, fun p hp q hq => ?_⟩
      cases outer with
      | nil => cases hq
      | cons o os =>
          obtain ⟨r, rfl, -⟩ := (mem_spelledNames_iff h.1).mp hp
          have hle := ((mem_nestedNames_iff h.2).mp hq).length_le
          rw [qualifier, String.length_append, String.length_append]
          have hdot : ".".length = 1 := rfl
          omega

end DualSyntax.Semantics
