import DualSyntax.Proofs.Lowering.InnerShapes
import DualSyntax.Proofs.Lowering.Made

/-!
# Types as trees

A type is read out of the tokens of its match alone, so wherever it is lowered it becomes a new root
that holds the same tree.  A node under construction keeps the trees of the roots that are put below it,
and no later step that adds nodes changes a tree that is already there.
-/

namespace DualSyntax

namespace Forest

variable {f f' : Forest} {n c owner : NodeId} {t : Tree} {kinds : NodeKind → Prop}

theorem lt_of_mem_children (hf : f.WellLinked) {u : Title} (h : c ∈ f.children n u) : c < f.size :=
  lt_size_of_parent (hf.parent_of_mem_children h)

/-- A tree is held by the kinds and children of its nodes alone. -/
theorem Holds.transfer (among : NodeId → Prop) (h : f.Holds n t) (hn : among n)
    (hchild : ∀ m u c, among m → c ∈ f.children m u → among c)
    (hsame : ∀ m, among m → f'.kind m = f.kind m ∧ ∀ u, f'.children m u = f.children m u) :
    f'.Holds n t := by
  induction h with
  | @node n t hkind hlength _ ih =>
      obtain ⟨hk, hc⟩ := hsame n hn
      refine .node (hk.trans hkind) (fun u hu => by rw [hc, hlength u hu]) fun u hu p hp => ?_
      rw [hc] at hp
      exact ih u hu p hp (hchild n u p.1 hn (List.of_mem_zip hp).1)

/-- A forest that grows keeps the trees that it holds. -/
theorem Holds.gains (h : f.Holds n t) (hn : n < f.size) (hgains : f.Gains kinds f') :
    f'.Holds n t :=
  h.transfer (· < f.size) hn (fun _ _ _ _ hc => lt_of_mem_children hgains.base hc)
    fun m hm => ⟨hgains.kind m hm, fun u => hgains.children m u hm⟩

/-- Putting something below a root keeps the trees that do not begin there. -/
theorem Holds.attached {change : List (Title × NodeId) → List (Title × NodeId)} (h : f.Holds n t)
    (hf : f.WellLinked) (howner : f.IsRoot owner) (hn : n ≠ owner)
    (hattached : Attached f f' owner c change) : f'.Holds n t := by
  refine h.transfer (· ≠ owner) hn (fun m u c _ hc heq => ?_) fun m hm => ?_
  · exact howner.not_mem_children hf m u (heq ▸ hc)
  · refine ⟨hattached.kind m, fun u => ?_⟩
    rw [Forest.children, hattached.slots m hm, ← Forest.children]

/-! ## Roots and what is put below them -/

theorem Gains.isRoot (h : f.Gains kinds f') (hn : f.IsRoot n) : f'.IsRoot n :=
  ⟨Nat.lt_of_lt_of_le hn.lt h.size_le, by rw [h.parent n hn.lt, hn.parent]⟩

theorem Attached.isRoot {change : List (Title × NodeId) → List (Title × NodeId)}
    (h : Attached f f' owner c change) (hne : n ≠ c) (hn : f.IsRoot n) : f'.IsRoot n :=
  ⟨by rw [h.size]; exact hn.lt, h.root n hne hn.parent⟩

end Forest

open Forest

namespace Lower

variable {source : Source} {d d' : Draft} {owner c : NodeId} {u : Unit}

/-- What putting a root below a root for a title has done. -/
theorem attached_of_set {t : Title} (hd : d.forest.WellLinked) (ho : d.forest.IsRoot owner)
    (hc : d.forest.IsRoot c) (hne : c ≠ owner) (hrun : set owner t c source d = .ok (u, d')) :
    d'.forest.WellLinked ∧ Attached d.forest d'.forest owner c (putFirst t c) := by
  obtain ⟨f', hset, hattached⟩ := set_of_isRoot source ho hc hne t
  obtain ⟨g, hg, rfl⟩ := exists_of_edit hrun
  obtain ⟨⟨old, g⟩, hchild, rfl⟩ := Option.map_eq_some_iff.mp hg
  rw [hset] at hrun
  cases hrun
  exact ⟨hd.setChild? hchild, hattached⟩

/-- What adding a root to the children of a root has done. -/
theorem attached_of_push {t : Title} (hd : d.forest.WellLinked) (ho : d.forest.IsRoot owner)
    (hc : d.forest.IsRoot c) (hne : c ≠ owner) (hrun : push owner t c source d = .ok (u, d')) :
    d'.forest.WellLinked ∧ Attached d.forest d'.forest owner c (· ++ [(t, c)]) := by
  obtain ⟨f', hpush, hattached⟩ := push_of_isRoot source ho hc hne t
  obtain ⟨g, hg, rfl⟩ := exists_of_edit hrun
  rw [hpush] at hrun
  cases hrun
  exact ⟨hd.appendChild? hg, hattached⟩

/-- A root put below a new node changes nothing that was there before. -/
theorem gains_of_set {f : Forest} {t : Title} (h : f.Gains NodeKind.IsInner d.forest)
    (ho : f.size ≤ owner) (hc : f.size ≤ c) (hrun : set owner t c source d = .ok (u, d')) :
    f.Gains NodeKind.IsInner d'.forest :=
  ((adds_set ho t hc : (Upkeep.gains f).AddsStep _) h hrun).1

end Lower

open Lower

/-! ## Nodes under construction -/

structure Held (f f' : Forest) (n : NodeId) (t : Tree) : Prop where
  gains : f.Gains NodeKind.IsInner f'
  root : f'.IsRoot n
  new : f.size ≤ n
  holds : f'.Holds n t

theorem Held.then_gains {f f' f'' : Forest} {n : NodeId} {t : Tree} (h : Held f f' n t)
    (hgains : f'.Gains NodeKind.IsInner f'') : Held f f'' n t :=
  ⟨h.gains.trans hgains, hgains.isRoot h.root, h.new, h.holds.gains h.root.lt hgains⟩

/-- A new node with the trees below it, and the roots that are to be put there. -/
structure Begun (f f' : Forest) (n : NodeId) (kind : NodeKind) (parts : List (Title × Tree))
    (waiting : List (NodeId × Tree)) : Prop where
  gains : f.Gains NodeKind.IsInner f'
  root : f'.IsRoot n
  new : f.size ≤ n
  hasKind : f'.kind n = kind
  slots : List.Forall₂ (fun s p => s.1 = p.1 ∧ f'.Holds s.2 p.2) (f'.slots n) parts
  waits : ∀ p ∈ waiting, Held f f' p.1 p.2
  others : n ∉ waiting.map (·.1)
  nodup : (waiting.map (·.1)).Nodup

namespace Begun

variable {f : Forest} {n c : NodeId} {kind : NodeKind} {parts : List (Title × Tree)}
  {waiting : List (NodeId × Tree)} {t : Tree} {title : Title} {source : Source} {d d' : Draft}

theorem allocate {f' : Forest} (hf : f.Gains NodeKind.IsInner f') (hkind : kind.isHost = false)
    (range : TextRange)
    (hwaits : ∀ p ∈ waiting, Held f f' p.1 p.2) (hnodup : (waiting.map (·.1)).Nodup) :
    Begun f (f'.allocate kind range).2 f'.size kind [] waiting where
  gains := hf.allocate hkind range
  root := isRoot_allocate f' kind range
  new := hf.size_le
  hasKind := kind_allocate f' kind range
  slots := by
    rw [slots_allocate, slots_of_size_le (Nat.le_refl _)]
    exact .nil
  waits p hp := (hwaits p hp).then_gains ((Gains.refl hf.linked).allocate hkind range)
  others hmem := by
    obtain ⟨p, hp, heq⟩ := List.mem_map.mp hmem
    exact Nat.lt_irrefl _ (heq ▸ (hwaits p hp).root.lt)
  nodup := hnodup

theorem titles {f' : Forest} (h : Begun f f' n kind parts waiting) :
    (f'.slots n).map (·.1) = parts.map (·.1) := by
  rw [← List.forall₂_eq_eq_eq, List.forall₂_map_left_iff, List.forall₂_map_right_iff]
  exact h.slots.imp fun _ _ hp => hp.1

/-- The next root that waits is put below the node. -/
theorem set (h : Begun f d.forest n kind parts ((c, t) :: waiting))
    (hnew : title ∉ parts.map (·.1)) {u : Unit}
    (hrun : Lower.set n title c source d = .ok (u, d')) :
    Begun f d'.forest n kind (parts ++ [(title, t)]) waiting := by
  have hc := h.waits (c, t) List.mem_cons_self
  have hnodup := List.nodup_cons.mp h.nodup
  have hothers : n ≠ c ∧ n ∉ waiting.map (·.1) := by simpa [not_or] using h.others
  have hgains := gains_of_set h.gains h.new hc.new hrun
  obtain ⟨-, hattached⟩ := attached_of_set h.gains.linked h.root hc.root hothers.1.symm hrun
  have hkeep {m : NodeId} {t : Tree} (hm : m ≠ n) (hholds : d.forest.Holds m t) :
      d'.forest.Holds m t := hholds.attached h.gains.linked h.root hm hattached
  -- the node is a root, so it does not stand in its own slots
  have hself : ∀ s ∈ d.forest.slots n, s.2 ≠ n := by
    rintro s hs rfl
    refine h.root.not_mem_children h.gains.linked s.2 s.1 ?_
    exact List.mem_map.mpr ⟨s, List.mem_filter.mpr ⟨hs, beq_self_eq_true s.1⟩, rfl⟩
  refine ⟨hgains, hattached.isRoot hothers.1 h.root, h.new, (hattached.kind n).trans h.hasKind,
    ?_, fun p hp => ?_, hothers.2, hnodup.2⟩
  · rw [hattached.slots_owner, Site.putFirst_new (h.titles ▸ hnew)]
    refine List.rel_append ?_ (.cons ⟨rfl, hkeep hothers.1.symm hc.holds⟩ .nil)
    refine List.forall₂_iff_zip.mpr ⟨h.slots.length_eq, fun {s p} hmem => ?_⟩
    have hpair := (List.forall₂_iff_zip.mp h.slots).2 hmem
    exact ⟨hpair.1, hkeep (hself s (List.of_mem_zip hmem).1) hpair.2⟩
  · have hp' := h.waits p (List.mem_cons_of_mem _ hp)
    have hmem : p.1 ∈ waiting.map (·.1) := List.mem_map_of_mem hp
    have hne : p.1 ≠ c := fun heq => hnodup.1 (heq ▸ hmem)
    have hnn : p.1 ≠ n := fun heq => hothers.2 (heq ▸ hmem)
    exact ⟨hgains, hattached.isRoot hne hp'.root, hp'.new, hkeep hnn hp'.holds⟩

theorem finish (h : Begun f d.forest n kind parts [])
    (hparts : ∀ p ∈ parts, p.1.isLexical = false) : Held f d.forest n (.node kind parts) where
  gains := h.gains
  root := h.root
  new := h.new
  holds := by
    refine .of_slots h.hasKind ?_
    have hall : d.forest.semanticSlots n = d.forest.slots n := by
      refine List.filter_eq_self.mpr fun s hs => ?_
      have htitle : s.1 ∈ parts.map (·.1) := h.titles ▸ List.mem_map_of_mem hs
      obtain ⟨p, hp, heq⟩ := List.mem_map.mp htitle
      rw [← heq, hparts p hp]
      rfl
    rw [hall]
    exact h.slots

end Begun

/-! ## Steps that make trees -/

namespace Lowering

/-- A step that makes a new root which holds a tree, the same in every forest. -/
def MakesTree (source : Source) (x : Lower NodeId) (t : Tree) : Prop :=
  ∀ ⦃d d' : Draft⦄ ⦃n : NodeId⦄, d.forest.WellLinked → x source d = .ok (n, d') →
    Held d.forest d'.forest n t

section Steps

variable {source : Source} {f : Forest} {d d' : Draft} {n c : NodeId} {kind : NodeKind} {t : Tree}
  {title : Title} {x : Lower NodeId}

theorem makesTree_allocate (hkind : kind.isHost = false) (span : Span) :
    MakesTree source (Lower.allocate kind span) (.node kind []) := by
  rintro d d' n hd ⟨⟩
  have hbegun : Begun d.forest _ d.forest.size kind [] [] :=
    .allocate (.refl hd) hkind (source.lines.textRange span) (by simp) .nil
  exact hbegun.finish (by simp)

theorem makesTree_bind {y : NodeId → Lower NodeId} {t' : Tree} (hx : MakesTree source x t)
    (hy : ∀ {f : Forest} {d d' : Draft} {c n : NodeId}, Held f d.forest c t →
      y c source d = .ok (n, d') → Held f d'.forest n t') : MakesTree source (x >>= y) t' := by
  intro d d' n hd hrun
  obtain ⟨c, d₁, hc, hrun⟩ := exists_of_bind hrun
  exact hy (hx hd hc) hrun

/-- A node is made over a root, and more is done. -/
theorem exists_held_over {β : Type} {y : NodeId → Lower β} {b : β} (hc : Held f d.forest c t)
    (hkind : kind.isHost = false) (htitle : title.isLexical = false) {span : Span}
    (hrun : (do let n ← Lower.allocate kind span; Lower.set n title c; y n) source d = .ok (b, d')) :
    ∃ n d₁, Held f d₁.forest n (.node kind [(title, t)]) ∧ y n source d₁ = .ok (b, d') := by
  obtain ⟨n, d₁, ⟨⟩, hrun⟩ := exists_of_bind hrun
  obtain ⟨_, d₂, hset, hrun⟩ := exists_of_bind hrun
  have hbegun : Begun f _ d.forest.size kind [] [(c, t)] :=
    .allocate hc.gains hkind (source.lines.textRange span) (by simpa using hc) (by simp)
  exact ⟨_, d₂, (hbegun.set (by simp) hset).finish (by simpa using htitle), hrun⟩

/-- A node is made over two roots, and more is done. -/
theorem exists_held_overTwo {β : Type} {y : NodeId → Lower β} {b : β} {m : NodeId} {u : Tree}
    {title' : Title} (hc : Held f d.forest c t) (hm : Held f d.forest m u) (hne : c ≠ m)
    (hkind : kind.isHost = false) (htitle : title.isLexical = false)
    (htitle' : title'.isLexical = false) (hdiff : title' ≠ title) {span : Span}
    (hrun : (do
      let n ← Lower.allocate kind span
      Lower.set n title c
      Lower.set n title' m
      y n) source d = .ok (b, d')) :
    ∃ n d₁, Held f d₁.forest n (.node kind [(title, t), (title', u)]) ∧
      y n source d₁ = .ok (b, d') := by
  obtain ⟨n, d₁, ⟨⟩, hrun⟩ := exists_of_bind hrun
  obtain ⟨_, d₂, hset, hrun⟩ := exists_of_bind hrun
  obtain ⟨_, d₃, hset', hrun⟩ := exists_of_bind hrun
  have hbegun : Begun f _ d.forest.size kind [] [(c, t), (m, u)] :=
    .allocate hc.gains hkind (source.lines.textRange span) (by simpa using ⟨hc, hm⟩)
      (by simpa using hne)
  have hboth := (hbegun.set (by simp) hset).set (by simpa using hdiff) hset'
  exact ⟨_, d₃, hboth.finish (by simpa using ⟨htitle, htitle'⟩), hrun⟩

end Steps

/-! ## Types -/

def isTypeShape {δ : Type} : Shape δ → Bool
  | .forward | .identifier | .knownType | .qualifiedType | .rankedType => true
  | _ => false

/-- Definitions that spell types and nest only such definitions. -/
structure SpellTypes {δ : Type} (s : Survey δ) (types : δ → Bool) : Prop where
  shape : ∀ {d}, types d = true → ∀ tokens, isTypeShape (s.grammar.shape d tokens) = true
  nests : ∀ {d}, types d = true → s.nests types d = true
  bare : ∀ {d}, types d = true → s.grammar.keepsTrivia d = false

section Types

variable {δ : Type} {source : Source} {recur : Recur δ} {g : Grammar δ} {raw : RawTree δ}

/-- A dotted name is built around its first name. -/
theorem exists_qualify {ts : List (RawTree δ)}
    (hts : ∀ t ∈ ts, ∃ tree, MakesTree source (child recur t) tree) :
    ∃ around : Tree → Tree, ∀ {f : Forest} {d d' : Draft} {target n : NodeId} {t : Tree} {span : Span},
      Held f d.forest target t → qualify recur ts target span source d = .ok (n, d') →
        Held f d'.forest n (around t) := by
  induction ts with
  | nil =>
      refine ⟨id, fun ht hrun => ?_⟩
      cases hrun
      exact ht
  | cons raw ts ih =>
      rw [List.forall_mem_cons] at hts
      obtain ⟨⟨name, hname⟩, hrest⟩ := hts
      obtain ⟨around, haround⟩ := ih hrest
      refine ⟨fun t => around (.node .memberType [(.target, t), (.identifier, name)]), ?_⟩
      intro f d d' target n t span ht hrun
      obtain ⟨c, d₁, hc, hrun⟩ := exists_of_bind hrun
      obtain ⟨_, _, ⟨⟩, hrun⟩ := exists_of_bind hrun
      have hmade := hname ht.gains.linked hc
      have hne : target ≠ c := fun heq => Nat.not_lt.mpr hmade.new (heq ▸ ht.root.lt)
      have hboth : Held f d₁.forest c name :=
        ⟨ht.gains.trans hmade.gains, hmade.root, Nat.le_trans ht.gains.size_le hmade.new, hmade.holds⟩
      obtain ⟨m, d₂, hm, hrun⟩ := exists_held_overTwo (ht.then_gains hmade.gains) hboth hne rfl rfl rfl
        (by decide) hrun
      exact haround hm hrun

/-- A dotted name holds a tree. -/
theorem exists_qualifiedType
    (hts : ∀ t ∈ (raw.listItems g).1, ∃ tree, MakesTree source (child recur t) tree) :
    ∃ tree, MakesTree source (qualifiedType g recur raw) tree := by
  unfold qualifiedType
  cases hitems : (raw.listItems g).1 with
  | nil => exact ⟨.node .blankLine [], by rintro d d' n hd ⟨⟩⟩
  | cons first rest =>
      rw [hitems, List.forall_mem_cons] at hts
      obtain ⟨⟨name, hname⟩, hrest⟩ := hts
      obtain ⟨around, haround⟩ := exists_qualify hrest
      refine ⟨around (.node .simpleType [(.identifier, name)]), makesTree_bind hname ?_⟩
      intro f d d' c n hc hrun
      obtain ⟨_, _, ⟨⟩, hrun⟩ := exists_of_bind hrun
      obtain ⟨m, d₁, hm, hrun⟩ := exists_held_over hc rfl rfl hrun
      exact haround hm hrun

/-- The tree of an array type around that of its elements. -/
def arrayTree (g : Grammar δ) (rank : RawTree δ) (element : Tree) : Tree :=
  .node (.arrayType (rankOf g rank)) [(.type, element)]

theorem held_arrayOf {f : Forest} {d d' : Draft} {c n : NodeId} {t : Tree} {rank : RawTree δ}
    {span : Span} (hc : Held f d.forest c t) (hrun : arrayOf g c rank span source d = .ok (n, d')) :
    Held f d'.forest n (arrayTree g rank t) := by
  obtain ⟨m, d₁, hm, ⟨⟩⟩ := exists_held_over hc rfl rfl hrun
  exact hm

/-- Stars and ranks are built around a type. -/
theorem exists_wrapType (ts : List (RawTree δ)) :
    ∃ around : Tree → Tree, ∀ {f : Forest} {d d' : Draft} {c n : NodeId} {t : Tree} {span : Span},
      Held f d.forest c t → wrapType g ts c span source d = .ok (n, d') →
        Held f d'.forest n (around t) := by
  induction ts with
  | nil =>
      refine ⟨id, fun ht hrun => ?_⟩
      cases hrun
      exact ht
  | cons raw ts ih =>
      obtain ⟨around, haround⟩ := ih
      cases raw with
      | leaf tk =>
          refine ⟨fun t => around (.node .pointerType [(.type, t)]), fun {f d d' c n t span} ht hrun => ?_⟩
          obtain ⟨_, _, ⟨⟩, hrun⟩ := exists_of_bind hrun
          obtain ⟨m, d₁, hm, hrun⟩ := exists_held_over ht rfl rfl hrun
          exact haround hm hrun
      | node form i j cs =>
          refine ⟨fun t => around (arrayTree g (.node form i j cs) t), fun {f d d' c n t span} ht hrun => ?_⟩
          obtain ⟨_, _, ⟨⟩, hrun⟩ := exists_of_bind hrun
          obtain ⟨m, d₁, hm, hrun⟩ := exists_of_bind hrun
          exact haround (held_arrayOf ht hm) hrun

/-- A step that begins with a nested match makes a tree if the rest does. -/
theorem exists_tree_node {c : Cursor δ} {y : RawTree δ × Cursor δ → Lower NodeId}
    (h : ∀ first rest, c.rest = first :: rest → first.symbol.isNode = true →
      ∃ t, MakesTree source (y (first, { c with rest })) t) :
    ∃ t, MakesTree source (c.node >>= y) t := by
  have hnothing (hhead : ∀ t ∈ c.rest.head?, t.symbol.isNode = false) :
      MakesTree source (c.node >>= y) (.node .blankLine []) := by
    intro d d' n hd hrun
    rw [Cursor.node, Cursor.eatNode_none hhead] at hrun
    cases hrun
  cases hrest : c.rest with
  | nil => exact ⟨_, hnothing (by simp [hrest])⟩
  | cons first rest =>
      cases hnode : first.symbol.isNode with
      | true =>
          rw [Cursor.node_node hrest hnode, pure_bind]
          exact h first rest hrest hnode
      | false => exact ⟨_, hnothing (by simpa [hrest] using hnode)⟩

theorem exists_typeShape [BEq δ] {shape : Shape δ} (hshape : isTypeShape shape = true)
    (hcs : ∀ c ∈ raw.children, ∃ t, MakesTree source (child recur c) t) :
    ∃ t, MakesTree source (shaped g recur raw shape) t := by
  have hnone : ∃ t, ∀ e : LowerError, MakesTree source (throw e) t :=
    ⟨.node .blankLine [], by rintro e d d' n hd ⟨⟩⟩
  cases shape with
  | forward =>
      rw [shaped]
      split
      · next only heq => exact hcs only (by rw [heq]; exact List.mem_singleton_self _)
      · exact hnone.imp fun _ h => h _
  | identifier =>
      rw [shaped]
      unfold Cursor.anyToken
      split
      · next tk rest hrest =>
          refine ⟨.node (.identifier (source.language.unescape tk.text)) [], ?_⟩
          intro d d' n hd hrun
          exact makesTree_allocate rfl tk.span hd hrun
      · exact ⟨.node .blankLine [], by rintro d d' n hd ⟨⟩⟩
  | knownType =>
      rw [shaped]
      split
      · exact hnone.imp fun _ h => h _
      · split
        · exact ⟨_, makesTree_allocate rfl _⟩
        · exact hnone.imp fun _ h => h _
  | qualifiedType =>
      exact exists_qualifiedType fun t ht => hcs t (Setting.mem_children_of_mem_items ht)
  | rankedType =>
      rw [shaped]
      refine exists_tree_node fun first rest hrest hnode => ?_
      have hmem : first ∈ (cursor g raw).rest := hrest ▸ List.mem_cons_self
      obtain ⟨t, ht⟩ := hcs first (mem_children_of_mem_cursor hmem)
      obtain ⟨around, haround⟩ := @exists_wrapType _ source g rest
      have hfirst : child recur first = recur first := by
        cases first with
        | leaf => cases hnode
        | node => rfl
      refine ⟨around t, makesTree_bind (hfirst ▸ ht) fun hc hrun => ?_⟩
      obtain ⟨_, _, ⟨⟩, hrun⟩ := exists_of_bind hrun
      exact haround hc hrun
  | _ => cases hshape

theorem exists_tree [DecidableEq δ] {s : Survey δ} {types : δ → Bool} (hs : SpellTypes s types)
    (fuel : Nat) {t : RawTree δ} (ht : Matches s.grammar types t) :
    ∃ tree, MakesTree source (child (lowerUpTo s.grammar fuel) t) tree := by
  induction fuel generalizing t with
  | zero =>
      cases t with
      | leaf tk => exact ⟨_, makesTree_allocate rfl _⟩
      | node => exact ⟨.node .blankLine [], by rintro d d' n hd ⟨⟩⟩
  | succ fuel ih =>
      obtain ⟨hconforms, hsymbol⟩ := ht
      cases hconforms with
      | leaf tk => exact ⟨_, makesTree_allocate rfl _⟩
      | @node d i j cs r hrule hspells hcs =>
          have hconforms : Conforms s.grammar (.node (some d) i j cs) := .node hrule hspells hcs
          have hnested (c : RawTree δ) (hc : c ∈ (RawTree.node (some d) i j cs).children) :
              ∃ t, MakesTree source (child (lowerUpTo s.grammar fuel) c) t :=
            ih (.of_nests hconforms (hs.nests hsymbol) hc)
          obtain ⟨tree, htree⟩ := exists_typeShape (g := s.grammar) (hs.shape hsymbol
            ((RawTree.node (some d) i j cs).childTokens.map (·.kind))) hnested
          refine ⟨tree, fun f d' n hd hrun => ?_⟩
          obtain ⟨m, d₁, hmade, hrun⟩ := exists_of_bind hrun
          rw [hs.bare hsymbol, if_neg Bool.false_ne_true] at hrun
          cases hrun
          exact htree hd hmade

end Types

end Lowering

end DualSyntax
