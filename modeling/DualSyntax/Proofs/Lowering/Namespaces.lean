import DualSyntax.Proofs.Lowering.Agreement
import DualSyntax.Proofs.Lowering.InnerShapes
import DualSyntax.Proofs.Semantics.DeclaredNames

/-!
# Namespaces that were parsed

The names in a dotted name become identifiers, and each of them is put over the name before it.  So the
node of a dotted name spells the first name and whatever comes after it.  Lowering makes a namespace or a
compilation unit over roots that it made before: their nested namespaces are in their places, and
everything else in them is made of inner nodes.
-/

namespace DualSyntax.Lowering

open Forest Lower Semantics

section Names

variable {δ : Type} {source : Source} {d d' : Draft} {owner c n : NodeId} {t : Title} {s : String}

/-! ## Putting a root below a node -/

/-- A forest in which a root was put below a node as its first child under a title. -/
structure PutFirst (f f' : Forest) (owner : NodeId) (t : Title) (c : NodeId) : Prop where
  linked : f'.WellLinked
  size : f'.size = f.size
  kind : ∀ m, f'.kind m = f.kind m
  child : f'.child? owner t = some c
  others : ∀ m u, (m ≠ owner ∨ u ≠ t) → f'.child? m u = f.child? m u
  root : ∀ m, m ≠ c → f.IsRoot m → f'.IsRoot m
  keepsNames : ∀ f₀ : Forest, KeepsNames f₀ f → f₀.size ≤ owner → KeepsNames f₀ f'

theorem putFirst_of_set (hd : d.forest.WellLinked) (hc : d.forest.IsRoot c) {u : Unit}
    (hrun : Lower.set owner t c source d = .ok (u, d')) : PutFirst d.forest d'.forest owner t c := by
  obtain ⟨f', hf', rfl⟩ := exists_of_edit hrun
  obtain ⟨⟨old, f'⟩, hset, rfl⟩ := Option.map_eq_some_iff.mp hf'
  rcases hd.edited_of_setChild? hset with ⟨hchild, heq⟩ | hedited
  · dsimp only at heq ⊢
    rw [← heq]
    exact ⟨hd, rfl, fun _ => rfl, hchild, fun _ _ _ => rfl, fun _ _ h => h, fun _ h _ => h⟩
  · refine ⟨hd.setChild? hset, hedited.size, hedited.kind, ?_, ?_, fun m hm hroot => ?_, ?_⟩
    · rw [child?_eq_head?, hedited.list, List.head?_cons]
    · exact fun m u hne => child?_of_edited hedited hd hc hne
    · refine ⟨by rw [hedited.size]; exact hroot.lt, ?_⟩
      rw [hedited.parent, if_neg hm, hroot.parent, ite_self]
    · exact fun f₀ hkeeps hnew => hkeeps.edited hedited hd hc (.inl hnew)

/-! ## Dotted names -/

def MakesName (source : Source) (x : Lower NodeId) (s : String) : Prop :=
  ∀ ⦃d d' : Draft⦄ ⦃c : NodeId⦄, x source d = .ok (c, d') →
    ∃ range, c = d.forest.size ∧ d'.forest = (d.forest.allocate (.identifier s) range).2

/-- The identifier of a name and a node that it is to be put below have been made. -/
structure BesideName (f f' : Forest) (s : String) (k : NodeKind) (c n : NodeId) : Prop where
  linked : f'.WellLinked
  lt : f.size < f'.size
  keepsNames : KeepsNames f f'
  new : f.size ≤ n
  ne : c ≠ n
  nameRoot : f'.IsRoot c
  nodeRoot : f'.IsRoot n
  nameKind : f'.kind c = .identifier s
  nodeKind : f'.kind n = k
  others : ∀ m, f.IsRoot m → f'.IsRoot m ∧ m ≠ c ∧ m ≠ n

theorem besideName_allocate {f : Forest} (hf : f.WellLinked) (s : String) (k : NodeKind)
    (range range' : TextRange) :
    BesideName f ((f.allocate (.identifier s) range).2.allocate k range').2 s k f.size
      (f.allocate (.identifier s) range).2.size := by
  have hgains : f.Gains (fun _ => True) (f.allocate (.identifier s) range).2 :=
    (Gains.refl hf).allocate trivial range
  have hlt : f.size < (f.allocate (.identifier s) range).2.size := by
    rw [size_allocate]
    exact Nat.lt_succ_self _
  have hgrows := grows_allocate (f.allocate (.identifier s) range).2 k range'
  refine ⟨(hf.allocate _ range).allocate k range', Nat.lt_of_lt_of_le hlt hgrows.size_le,
    keepsNames_of_gains (hgains.allocate trivial range'), Nat.le_of_lt hlt, Nat.ne_of_lt hlt,
    (isRoot_allocate f _ range).of_grows hgrows, isRoot_allocate _ k range', ?_,
    kind_allocate _ k range', fun m hm => ?_⟩
  · rw [hgrows.kind f.size hlt, kind_allocate]
  · exact ⟨(hm.of_grows (grows_allocate f _ range)).of_grows hgrows, Nat.ne_of_lt hm.lt,
      Nat.ne_of_lt (Nat.lt_trans hm.lt hlt)⟩

theorem nameOf?_of_putFirst {f f' : Forest} (h : PutFirst f f' n .identifier c)
    (hname : f.kind c = .identifier s) : f'.nameOf? n = some s := by
  rw [Forest.nameOf?, h.child, Option.map_some, h.kind, hname]

variable {recur : Recur δ} {ts : List (RawTree δ)} {span : Span}

/-- The names that follow are put over a name one after the other. -/
theorem dottedName?_qualify (hts : ∀ t ∈ ts, ∃ s, MakesName source (child recur t) s)
    (hd : d.forest.WellLinked) {target : NodeId} (htarget : d.forest.IsRoot target)
    (hs : dottedName? d.forest target = some s)
    (hrun : qualify recur ts target span source d = .ok (n, d')) :
    ∃ rest, dottedName? d'.forest n = some (s ++ rest) := by
  induction ts generalizing d target s span with
  | nil =>
      cases hrun
      exact ⟨"", by rw [hs, String.append_empty]⟩
  | cons t ts ih =>
      rw [List.forall_mem_cons] at hts
      obtain ⟨last, hlast⟩ := hts.1
      obtain ⟨name, ⟨f₁, _⟩, hname, hrun⟩ := exists_of_bind hrun
      obtain ⟨range, rfl, rfl⟩ := hlast hname
      obtain ⟨_, _, ⟨⟩, hrun⟩ := exists_of_bind hrun
      obtain ⟨m, _, ⟨⟩, hrun⟩ := exists_of_bind hrun
      obtain ⟨_, d₁, hset, hrun⟩ := exists_of_bind hrun
      obtain ⟨_, d₂, hset', hrun⟩ := exists_of_bind hrun
      have hbeside := besideName_allocate hd last .memberType range
        (source.lines.textRange (span.cover (t.span source.stream)))
      obtain ⟨htroot, htname, htnode⟩ := hbeside.others target htarget
      have hput := putFirst_of_set hbeside.linked htroot hset
      have hput' := putFirst_of_set hput.linked (hput.root _ htname.symm hbeside.nameRoot) hset'
      have hkeeps := hput'.keepsNames _ (hput.keepsNames _ hbeside.keepsNames hbeside.new) hbeside.new
      have hdotted := dottedName?_member hkeeps (by rw [hput'.size, hput.size]; exact hbeside.lt) hs
        ((hput'.kind _).trans ((hput.kind _).trans hbeside.nodeKind))
        ((hput'.others _ _ (.inr (by decide))).trans hput.child)
        (nameOf?_of_putFirst hput' ((hput.kind _).trans hbeside.nameKind))
      have hroot := hput'.root _ hbeside.ne.symm (hput.root _ htnode.symm hbeside.nodeRoot)
      obtain ⟨rest, hrest⟩ := ih hts.2 hput'.linked hroot hdotted hrun
      exact ⟨_, by rw [hrest, String.append_assoc, String.append_assoc]⟩

theorem dottedName?_qualifiedType {g : Grammar δ} {raw first : RawTree δ}
    (hitems : (raw.listItems g).1 = first :: ts) (hfirst : MakesName source (child recur first) s)
    (hts : ∀ t ∈ ts, ∃ s, MakesName source (child recur t) s) (hd : d.forest.WellLinked)
    (hrun : qualifiedType g recur raw source d = .ok (n, d')) :
    ∃ rest, dottedName? d'.forest n = some (s ++ rest) := by
  simp only [qualifiedType, hitems] at hrun
  obtain ⟨name, ⟨f₁, _⟩, hname, hrun⟩ := exists_of_bind hrun
  obtain ⟨range, rfl, rfl⟩ := hfirst hname
  obtain ⟨_, _, ⟨⟩, hrun⟩ := exists_of_bind hrun
  obtain ⟨m, _, ⟨⟩, hrun⟩ := exists_of_bind hrun
  obtain ⟨_, d₁, hset, hrun⟩ := exists_of_bind hrun
  have hbeside := besideName_allocate hd s .simpleType range
    (source.lines.textRange (first.span source.stream))
  have hput := putFirst_of_set hbeside.linked hbeside.nameRoot hset
  have hs := (dottedName?_simple ((hput.kind _).trans hbeside.nodeKind)).trans
    (nameOf?_of_putFirst hput hbeside.nameKind)
  exact dottedName?_qualify hts hput.linked (hput.root _ hbeside.ne.symm hbeside.nodeRoot) hs hrun

end Names

variable {α δ : Type} {source : Source} {f : Forest} {n c : NodeId} {k : NodeKind} {isNamed : Bool}
  {t : Title}

/-! ## Steps below a node that is being made -/

/-- A step that makes a root which may be put below a node of a kind. -/
def Places (source : Source) (k : NodeKind) (x : Lower NodeId) : Prop :=
  ∀ ⦃d d' : Draft⦄ ⦃c : NodeId⦄, d.forest.WellLinked → x source d = .ok (c, d') →
    PlacesRoot d.forest d'.forest c ∧ Making.Fits d'.forest k c

/-- A step that puts parts below the node that is being made. -/
abbrev Furnishes (source : Source) (f : Forest) (n : NodeId) (k : NodeKind) (isNamed : Bool)
    (P : α → Prop) (x : Lower α) : Prop :=
  Maintains (fun s d => s = source ∧ Making f n k isNamed d.forest) P x

def isPlainTitle (t : Title) : Bool := !isNamePart t && t != .fullName

theorem isPlainTitle_iff : isPlainTitle t = true ↔ isNamePart t = false ∧ t ≠ .fullName := by
  simp [isPlainTitle]

theorem fits_of_inner {f : Forest} (h : (f.kind c).isHost = false) : Making.Fits f k c := by
  intro hhost
  rw [h] at hhost
  cases hhost

theorem places_allocate {kind : NodeKind} (hkind : kind.isHost = false) (span : Span) :
    Places source k (Lower.allocate kind span) := by
  rintro d d' c hd ⟨⟩
  have hgains : d.forest.Gains NodeKind.IsInner _ :=
    (Gains.refl hd).allocate hkind (source.lines.textRange span)
  refine ⟨⟨.of_inner hgains, isRoot_allocate _ _ _, Nat.le_refl _⟩, fits_of_inner ?_⟩
  exact (kind_allocate _ _ _).symm ▸ hkind

theorem places_token (tk : Token) : Places source k (Lower.token tk) := places_allocate rfl _

theorem Places.set {x : Lower NodeId} (hx : Places source k x) (ht : isPlainTitle t = true) :
    Furnishes source f n k isNamed (fun _ => True) (x >>= Lower.set n t) := by
  rintro _ d d' u ⟨rfl, hd⟩ hrun
  obtain ⟨c, d₁, hc, hset⟩ := exists_of_bind hrun
  obtain ⟨hplaced, hfits⟩ := hx hd.gains.linked hc
  obtain ⟨g, hg, rfl⟩ := exists_of_edit hset
  obtain ⟨⟨old, g⟩, hset', rfl⟩ := Option.map_eq_some_iff.mp hg
  rw [isPlainTitle_iff] at ht
  have hmade := (hd.grow hplaced.grows).setChild? hplaced.root
    (Nat.le_trans hd.gains.size_le hplaced.new) (hd.ne_of_placesRoot hplaced) hfits ht.1
    (fun _ => ht.2) hset'
  exact ⟨⟨rfl, hmade.1⟩, trivial⟩

theorem Places.push {x : Lower NodeId} (hx : Places source k x) (ht : isPlainTitle t = true) :
    Furnishes source f n k isNamed (fun _ => True) (x >>= Lower.push n t) := by
  rintro _ d d' u ⟨rfl, hd⟩ hrun
  obtain ⟨c, d₁, hc, hpush⟩ := exists_of_bind hrun
  obtain ⟨hplaced, hfits⟩ := hx hd.gains.linked hc
  obtain ⟨g, hg, rfl⟩ := exists_of_edit hpush
  rw [isPlainTitle_iff] at ht
  have hmade := (hd.grow hplaced.grows).appendChild? hplaced.root
    (Nat.le_trans hd.gains.size_le hplaced.new) (hd.ne_of_placesRoot hplaced) hfits ht.1
    (fun _ => ht.2) hg
  exact ⟨⟨rfl, hmade⟩, trivial⟩

theorem furnishes_setToken (ht : isPlainTitle t = true) (tk : Token) :
    Furnishes source f n k isNamed (fun _ => True) (Lower.setToken n t tk) :=
  (places_token tk).set ht

/-! ## Comments -/

/-- Inner roots are put below the node that is being made, one after the other. -/
theorem making_pushes {d d' : Draft} {ns : List NodeId} (h : Making f n k isNamed d.forest)
    (hroot : ∀ c ∈ ns, d.forest.IsRoot c) (hnew : ∀ c ∈ ns, f.size ≤ c ∧ c ≠ n)
    (hinner : ∀ c ∈ ns, (d.forest.kind c).isHost = false) (hnodup : ns.Nodup)
    (ht : isPlainTitle t = true) {u : Unit}
    (hrun : ns.forM (Lower.push n t) source d = .ok (u, d')) : Making f n k isNamed d'.forest := by
  induction ns generalizing d with
  | nil =>
      cases hrun
      exact h
  | cons c ns ih =>
      rw [List.forall_mem_cons] at hroot hnew hinner
      rw [List.nodup_cons] at hnodup
      obtain ⟨_, d₁, hpush, hrun⟩ := exists_of_bind (x := Lower.push n t c) hrun
      obtain ⟨g, hg, hattached⟩ := push_of_isRoot source h.root hroot.1 hnew.1.2 t
      rw [hpush] at hg
      cases hg
      obtain ⟨g', hg', heq⟩ := exists_of_edit hpush
      cases heq
      have hne (m : NodeId) (hm : m ∈ ns) : m ≠ c := fun heq => hnodup.1 (heq ▸ hm)
      refine ih ?_ (fun m hm => ?_) hnew.2 (fun m hm => ?_) hnodup.2 hrun
      · rw [isPlainTitle_iff] at ht
        exact h.appendChild? hroot.1 hnew.1.1 hnew.1.2 (fits_of_inner hinner.1) ht.1 (fun _ => ht.2) hg'
      · exact hattached.keeps.root m (hne m hm) (hroot.2 m hm)
      · rw [hattached.kind]
        exact hinner.2 m hm

/-- New inner roots are put below the node that is being made, one after the other. -/
theorem making_pushesFresh {d d₁ d' : Draft} {ns : List NodeId} (h : Making f n k isNamed d.forest)
    (hgains : d.forest.Gains NodeKind.IsInner d₁.forest) (hns : FreshAll d.forest d₁.forest ns)
    (ht : isPlainTitle t = true) {u : Unit}
    (hrun : (do for c in ns do Lower.push n t c : Lower Unit) source d₁ = .ok (u, d')) :
    Making f n k isNamed d'.forest := by
  obtain ⟨_, _, hloop, ⟨⟩⟩ := exists_of_bind hrun
  rw [forIn_eq_forM] at hloop
  refine making_pushes (h.grow (.of_inner hgains)) hns.root (fun c hc => ⟨?_, ?_⟩) (fun c hc => ?_)
    hns.nodup ht hloop
  · exact Nat.le_trans h.gains.size_le (hns.new c hc)
  · rintro rfl
    exact Nat.not_lt.mpr (hns.new _ hc) h.root.lt
  · exact hgains.new c (hns.new c hc) (hns.root c hc).lt

/-- The nodes of comments are new inner roots. -/
theorem fresh_commentNodes {d d' : Draft} (hd : d.forest.WellLinked) {breaks threshold : Nat}
    {trivia : List Trivia} {r : List NodeId × Nat × Nat}
    (hrun : commentNodes breaks threshold trivia source d = .ok (r, d')) :
    d.forest.Gains NodeKind.IsInner d'.forest ∧ FreshAll d.forest d'.forest r.1 :=
  ⟨((adds_commentNodes trivia breaks threshold : (Upkeep.gains d.forest).Adds _ _) (.refl hd) hrun).1,
    (Setting.does_commentNodes (e := .tooDeep) breaks threshold trivia).of_run hrun⟩

theorem furnishes_attachTrailing (trivia : List Trivia) :
    Furnishes source f n k isNamed (fun _ => True) (attachTrailing n trivia) := by
  rintro _ d d' u ⟨rfl, hd⟩ hrun
  unfold attachTrailing at hrun
  obtain ⟨_, _, ⟨⟩, hrun⟩ := exists_of_bind hrun
  obtain ⟨r, d₁, hr, hloop⟩ := exists_of_bind hrun
  obtain ⟨hgains, hfresh⟩ := fresh_commentNodes hd.gains.linked hr
  exact ⟨⟨rfl, making_pushesFresh hd hgains hfresh rfl hloop⟩, trivial⟩

theorem furnishes_attachLeading (raw : RawTree δ) :
    Furnishes source f n k isNamed (fun _ => True) (attachLeading n raw) := by
  rintro _ d d' u ⟨rfl, hd⟩ hrun
  unfold attachLeading at hrun
  obtain ⟨_, _, ⟨⟩, hrun⟩ := exists_of_bind hrun
  obtain ⟨r, d₁, hr, hrun⟩ := exists_of_bind hrun
  obtain ⟨hgains, hfresh⟩ := fresh_commentNodes hd.gains.linked hr
  dsimp only at hrun
  split at hrun
  · obtain ⟨b, d₂, hb, hloop⟩ := exists_of_bind hrun
    have hblank := (adds_allocate ((Upkeep.gains d.forest).inner rfl) _ hgains hb).1
    have hnew := (makes_allocate (e := .tooDeep) _ _).of_run hb
    have hall : FreshAll d.forest d₂.forest (r.1 ++ [b]) :=
      hfresh.append (.cons hnew (.nil (Keeps.refl _ _)))
    exact ⟨⟨rfl, making_pushesFresh hd hblank hall rfl hloop⟩, trivial⟩
  · rw [← List.append_nil r.1] at hfresh
    exact ⟨⟨rfl, making_pushesFresh hd hgains hfresh rfl hrun⟩, trivial⟩

/-! ## Parts -/

section Parts

variable {g : Grammar δ} {recur : Recur δ} {raw : RawTree δ} {cur : Cursor δ}

/-- Nested matches are put below the node that is being made. -/
theorem furnishes_pushAll {make : RawTree δ → Lower NodeId} {ts : List (RawTree δ)}
    (hmake : ∀ u ∈ ts, Places source k (make u)) (ht : isPlainTitle t = true) {T : RawTree δ → Prop}
    (hcur : cur.In T) :
    Furnishes source f n k isNamed (Cursor.In T) (do
      for u in ts do Lower.push n t (← make u)
      return cur) := by
  refine (Maintains.forIn fun u hu => ?_).andThen fun _ => .pure hcur
  exact .putThen ((hmake u hu).push ht) (.pure trivial)

/-- Parts of namespaces and compilation units other than the name. -/
def isFurnishing : Part δ → Bool
  | .keep _ t | .close _ t | .nodes t | .everything t => isPlainTitle t
  | .needless _ => true
  | _ => false

/-- The child of a match may be put below a node. -/
abbrev PlacesChild (source : Source) (k : NodeKind) (recur : Recur δ) (t : RawTree δ) : Prop :=
  Places source k (child recur t)

variable [BEq δ]

theorem furnishes_readPart (hraw : ∀ u ∈ raw.children, PlacesChild source k recur u) {p : Part δ}
    (hp : isFurnishing p = true) (hcur : cur.In (PlacesChild source k recur)) :
    Furnishes source f n k isNamed (Cursor.In (PlacesChild source k recur))
      (readPart g recur n raw cur p) := by
  cases p with
  | keep kind t =>
      rw [readPart]
      exact (hcur.token kind).bind fun r hr => (furnishes_setToken hp r.1).andThen fun _ => .pure hr
  | close kind t =>
      rw [readPart]
      refine (hcur.token kind).bind fun r hr => (furnishes_attachTrailing _).andThen fun _ => ?_
      exact (furnishes_setToken hp r.1).andThen fun _ => .pure hr
  | nodes t =>
      rw [readPart]
      obtain ⟨hfound, hrest⟩ := hcur.takeNodes none
      refine furnishes_pushAll (fun u hu => ?_) hp hrest
      have hnode := List.all_eq_true.mp List.all_takeWhile u hu
      match u with
      | .leaf _ => cases hnode
      | .node .. => exact hfound _ hu
  | everything t =>
      rw [readPart]
      refine furnishes_pushAll hraw hp ?_
      simp [Cursor.In]
  | needless kind =>
      rw [readPart]
      have heat := hcur.eat kind
      match cur.eat kind, heat with
      | (none, cur), heat => exact .pure heat
      | (some tk, cur), heat =>
          refine Maintains.andThen (fun s d d' u hd hrun => ?_) fun _ => .pure heat
          cases hrun
          exact ⟨hd, trivial⟩
  | _ => cases hp

theorem furnishes_readParts (hraw : ∀ u ∈ raw.children, PlacesChild source k recur u)
    {ps : List (Part δ)} (hps : ps.all isFurnishing = true)
    (hcur : cur.In (PlacesChild source k recur)) :
    Furnishes source f n k isNamed (Cursor.In (PlacesChild source k recur))
      (readParts g recur n raw cur ps) := by
  induction ps generalizing cur with
  | nil =>
      rw [readParts]
      exact .pure hcur
  | cons p ps ih =>
      rw [List.all_cons, Bool.and_eq_true] at hps
      rw [readParts]
      exact (furnishes_readPart hraw hps.1 hcur).bind fun cur hcur => ih hps.2 hcur

end Parts

end DualSyntax.Lowering
