import DualSyntax.Proofs.Forest.Trees
import DualSyntax.Proofs.Lowering.Effects

/-!
# Nodes that read as trees

Lowering makes new nodes and leaves the old ones alone.  `Made` says that a new root reads as a tree;
`Site` says how far a node under construction has come: which titles it has, which subtrees hang
there, and which roots are still to be attached.  One lemma for each step of lowering moves a site
on, and a finished site is a made node.
-/

namespace DualSyntax

open Forest

/-- From one forest to the next every node keeps its kind and its slots, and every root stays one. -/
structure Preserves (f f' : Forest) : Prop where
  size_le : f.size ≤ f'.size
  kind : ∀ n, n < f.size → f'.kind n = f.kind n
  slots : ∀ n, n < f.size → f'.slots n = f.slots n
  root : ∀ n, f.IsRoot n → f'.IsRoot n

namespace Preserves

variable {f f' f'' : Forest}

theorem refl (f : Forest) : Preserves f f :=
  ⟨Nat.le_refl _, fun _ _ => rfl, fun _ _ => rfl, fun _ h => h⟩

theorem trans (h : Preserves f f') (h' : Preserves f' f'') : Preserves f f'' where
  size_le := Nat.le_trans h.size_le h'.size_le
  kind n hn := (h'.kind n (Nat.lt_of_lt_of_le hn h.size_le)).trans (h.kind n hn)
  slots n hn := (h'.slots n (Nat.lt_of_lt_of_le hn h.size_le)).trans (h.slots n hn)
  root n hn := h'.root n (h.root n hn)

theorem allocate (f : Forest) (kind : NodeKind) (range : TextRange) :
    Preserves f (f.allocate kind range).2 where
  size_le := by simp
  kind n hn := kind_allocate_of_lt hn kind range
  slots n _ := slots_allocate f kind range n
  root n hn := hn.of_grows (grows_allocate f kind range)

/-- Attaching a new root below a new node leaves the old nodes alone. -/
theorem attach {owner c : NodeId} {change : List (Title × NodeId) → List (Title × NodeId)}
    (h : Preserves f f') (ho : f.size ≤ owner) (hc : f.size ≤ c)
    (hattached : Attached f' f'' owner c change) : Preserves f f'' where
  size_le := by rw [hattached.size]; exact h.size_le
  kind n hn := (hattached.kind n).trans (h.kind n hn)
  slots n hn := by
    have hne : n ≠ owner := fun heq => Nat.not_lt.mpr ho (heq ▸ hn)
    rw [hattached.slots n hne, h.slots n hn]
  root n hn := by
    have hne : n ≠ c := fun heq => Nat.not_lt.mpr hc (heq ▸ hn.lt)
    have hroot := h.root n hn
    exact ⟨by rw [hattached.size]; exact hroot.lt, hattached.root n hne hroot.parent⟩

end Preserves

/-- The nodes made from one forest to another, without one of them. -/
def NewBut (f f' : Forest) (n m : NodeId) : Prop := f.size ≤ m ∧ m < f'.size ∧ m ≠ n

def New (f f' : Forest) (m : NodeId) : Prop := f.size ≤ m ∧ m < f'.size

structure Made (f f' : Forest) (n : NodeId) (t : Tree) : Prop where
  preserves : Preserves f f'
  root : f'.IsRoot n
  reads : f'.Reads (New f f') n t

namespace Made

variable {f f' f'' : Forest} {n : NodeId} {t : Tree}

theorem new (h : Made f f' n t) : f.size ≤ n := h.reads.root.1

theorem then_preserves (h : Made f f' n t) (h' : Preserves f' f'') : Made f f'' n t where
  preserves := h.preserves.trans h'
  root := h'.root n h.root
  reads := (h.reads.congr fun m hm => ⟨h'.kind m hm.2, h'.slots m hm.2⟩).mono fun _ hm =>
    ⟨hm.1, Nat.lt_of_lt_of_le hm.2 h'.size_le⟩

theorem after_preserves (h' : Preserves f f') (h : Made f' f'' n t) : Made f f'' n t where
  preserves := h'.trans h.preserves
  root := h.root
  reads := h.reads.mono fun _ hm => ⟨Nat.le_trans h'.size_le hm.1, hm.2⟩

end Made

structure MadeAll (f f' : Forest) (roots : List (NodeId × Tree)) : Prop where
  preserves : Preserves f f'
  each : ∀ p ∈ roots, f'.IsRoot p.1 ∧ f'.Reads (New f f') p.1 p.2
  nodup : (roots.map (·.1)).Nodup

namespace MadeAll

variable {f f' f'' : Forest} {roots roots' : List (NodeId × Tree)} {n : NodeId} {t : Tree}

theorem nil (h : Preserves f f') : MadeAll f f' [] := ⟨h, by simp, List.nodup_nil⟩

theorem snoc (h : MadeAll f f' roots) (hn : Made f' f'' n t) :
    MadeAll f f'' (roots ++ [(n, t)]) where
  preserves := h.preserves.trans hn.preserves
  each p hp := by
    rcases List.mem_append.mp hp with hp | hp
    · obtain ⟨hroot, hreads⟩ := h.each p hp
      have hmade := Made.then_preserves ⟨h.preserves, hroot, hreads⟩ hn.preserves
      exact ⟨hmade.root, hmade.reads⟩
    · cases List.mem_singleton.mp hp
      have hmade := hn.after_preserves h.preserves
      exact ⟨hmade.root, hmade.reads⟩
  nodup := by
    rw [List.map_append, List.map_singleton]
    refine List.nodup_append.mpr ⟨h.nodup, by simp, ?_⟩
    rintro m hm _ hmem rfl
    obtain ⟨p, hp, rfl⟩ := List.mem_map.mp hm
    cases List.mem_singleton.mp hmem
    exact Nat.not_lt.mpr hn.new (h.each p hp).1.lt

theorem single (h : Made f f' n t) : MadeAll f f' [(n, t)] :=
  (MadeAll.nil (.refl f)).snoc h

theorem perm (h : MadeAll f f' roots) (hperm : roots.Perm roots') : MadeAll f f' roots' where
  preserves := h.preserves
  each p hp := h.each p (hperm.mem_iff.mpr hp)
  nodup := (hperm.map (·.1)).nodup_iff.mp h.nodup

end MadeAll

/-- A node under construction: its titles so far, the subtrees below it, and the roots that are
still to be attached. -/
structure Site (f f' : Forest) (n : NodeId) (kind : NodeKind) (titles : List Title)
    (parts : List (Title × Tree)) (waiting : List (NodeId × Tree)) : Prop where
  preserves : Preserves f f'
  new : f.size ≤ n
  root : f'.IsRoot n
  hasKind : f'.kind n = kind
  hasTitles : (f'.slots n).map (·.1) = titles
  partTitles : (f'.semanticSlots n).map (·.1) = parts.map (·.1)
  reads : ∀ p ∈ (f'.semanticSlots n).zip parts, f'.Reads (NewBut f f' n) p.1.2 p.2.2
  waits : ∀ p ∈ waiting, f'.IsRoot p.1 ∧ f'.Reads (NewBut f f' n) p.1 p.2
  nodup : (waiting.map (·.1)).Nodup

namespace Site

variable {f f' f'' : Forest} {n c : NodeId} {t : Tree} {kind : NodeKind} {titles : List Title}
  {parts : List (Title × Tree)} {waiting : List (NodeId × Tree)} {title : Title}

/-- A node is added for roots that were made before it. -/
theorem start (h : MadeAll f f' waiting) (kind : NodeKind) (range : TextRange) :
    Site f (f'.allocate kind range).2 f'.size kind [] [] waiting where
  preserves := h.preserves.trans (.allocate f' kind range)
  new := h.preserves.size_le
  root := isRoot_allocate f' kind range
  hasKind := kind_allocate f' kind range
  hasTitles := by simp [slots_of_size_le (Nat.le_refl f'.size)]
  partTitles := by simp [semanticSlots, slots_of_size_le (Nat.le_refl f'.size)]
  reads := by simp
  waits p hp := by
    obtain ⟨hroot, hreads⟩ := h.each p hp
    have hgrows := Preserves.allocate f' kind range
    refine ⟨hgrows.root p.1 hroot, ?_⟩
    refine (hreads.congr fun m hm => ⟨hgrows.kind m hm.2, hgrows.slots m hm.2⟩).mono fun m hm => ?_
    exact ⟨hm.1, Nat.lt_of_lt_of_le hm.2 hgrows.size_le, Nat.ne_of_lt hm.2⟩
  nodup := h.nodup

/-- What is made besides a node under construction waits to be attached. -/
theorem make (h : Site f f' n kind titles parts waiting) (hc : Made f' f'' c t) :
    Site f f'' n kind titles parts (waiting ++ [(c, t)]) := by
  have hkeep {m : NodeId} {u : Tree} (hm : f'.Reads (NewBut f f' n) m u) :
      f''.Reads (NewBut f f'' n) m u :=
    (hm.congr fun m hm => ⟨hc.preserves.kind m hm.2.1, hc.preserves.slots m hm.2.1⟩).mono
      fun m hm => ⟨hm.1, Nat.lt_of_lt_of_le hm.2.1 hc.preserves.size_le, hm.2.2⟩
  have hslots : f''.slots n = f'.slots n := hc.preserves.slots n h.root.lt
  have hsemantic : f''.semanticSlots n = f'.semanticSlots n := by
    rw [semanticSlots, semanticSlots, hslots]
  refine ⟨h.preserves.trans hc.preserves, h.new, hc.preserves.root n h.root, ?_, ?_, ?_, ?_, ?_, ?_⟩
  · rw [hc.preserves.kind n h.root.lt, h.hasKind]
  · rw [hslots, h.hasTitles]
  · rw [hsemantic, h.partTitles]
  · intro p hp
    exact hkeep (h.reads p (hsemantic ▸ hp))
  · intro p hp
    rcases List.mem_append.mp hp with hp | hp
    · exact ⟨hc.preserves.root p.1 (h.waits p hp).1, hkeep (h.waits p hp).2⟩
    · cases List.mem_singleton.mp hp
      refine ⟨hc.root, hc.reads.mono fun m hm => ?_⟩
      exact ⟨Nat.le_trans h.preserves.size_le hm.1, hm.2,
        fun heq => Nat.not_lt.mpr hm.1 (heq ▸ h.root.lt)⟩
  · rw [List.map_append, List.map_singleton]
    refine List.nodup_append.mpr ⟨h.nodup, by simp, ?_⟩
    rintro m hm _ hmem rfl
    obtain ⟨p, hp, rfl⟩ := List.mem_map.mp hm
    cases List.mem_singleton.mp hmem
    exact Nat.not_lt.mpr hc.new (h.waits p hp).1.lt

theorem attached {change : List (Title × NodeId) → List (Title × NodeId)}
    (h : Site f f' n kind titles parts ((c, t) :: waiting)) (hattached : Attached f' f'' n c change)
    (hchange : change (f'.slots n) = f'.slots n ++ [(title, c)]) :
    Site f f'' n kind (titles ++ [title])
      (if title.isLexical then parts else parts ++ [(title, t)]) waiting := by
  obtain ⟨hroot, hreads⟩ := h.waits (c, t) List.mem_cons_self
  have hne : n ≠ c := fun heq => hreads.root.2.2 heq.symm
  have hkeep {m : NodeId} {u : Tree} (hm : f'.Reads (NewBut f f' n) m u) :
      f''.Reads (NewBut f f'' n) m u :=
    (hm.congr fun m hm => ⟨hattached.kind m, hattached.slots m hm.2.2⟩).mono
      fun m hm => ⟨hm.1, by rw [hattached.size]; exact hm.2.1, hm.2.2⟩
  have hkeepRoot {m : NodeId} (hm : m ≠ c) (hroot : f'.IsRoot m) : f''.IsRoot m :=
    ⟨by rw [hattached.size]; exact hroot.lt, hattached.root m hm hroot.parent⟩
  have hslots : f''.slots n = f'.slots n ++ [(title, c)] := by rw [hattached.slots_owner, hchange]
  have hsemantic : f''.semanticSlots n =
      if title.isLexical then f'.semanticSlots n else f'.semanticSlots n ++ [(title, c)] := by
    cases htitle : title.isLexical <;> simp [semanticSlots, hslots, List.filter_append, htitle]
  have hnodup : c ∉ waiting.map (·.1) ∧ (waiting.map (·.1)).Nodup := List.nodup_cons.mp h.nodup
  refine ⟨h.preserves.attach h.new hreads.root.1 hattached, h.new, hkeepRoot hne h.root, ?_, ?_, ?_,
    ?_, ?_, hnodup.2⟩
  · rw [hattached.kind, h.hasKind]
  · rw [hslots, List.map_append, h.hasTitles, List.map_singleton]
  · rw [hsemantic]
    split
    · exact h.partTitles
    · rw [List.map_append, List.map_append, h.partTitles, List.map_singleton, List.map_singleton]
  · have hlength : (f'.semanticSlots n).length = parts.length := by
      simpa using congrArg List.length h.partTitles
    rw [hsemantic]
    split
    · exact fun p hp => hkeep (h.reads p hp)
    · rw [List.zip_append hlength]
      intro p hp
      rcases List.mem_append.mp hp with hp | hp
      · exact hkeep (h.reads p hp)
      · cases List.mem_singleton.mp hp
        exact hkeep hreads
  · intro p hp
    have hmem := h.waits p (List.mem_cons_of_mem _ hp)
    refine ⟨hkeepRoot ?_ hmem.1, hkeep hmem.2⟩
    intro heq
    exact hnodup.1 (heq ▸ List.mem_map_of_mem hp)

theorem perm {waiting' : List (NodeId × Tree)} (h : Site f f' n kind titles parts waiting)
    (hperm : waiting.Perm waiting') : Site f f' n kind titles parts waiting' :=
  { h with
    waits := fun p hp => h.waits p (hperm.mem_iff.mpr hp)
    nodup := (hperm.map (·.1)).nodup_iff.mp h.nodup }

theorem finish (h : Site f f' n kind titles parts waiting) {kind' : NodeKind}
    (hagrees : kind'.agrees kind = true) (hbare : kind ≠ .parenthesizedExpression) :
    Made f f' n (.node kind' parts) where
  preserves := h.preserves
  root := h.root
  reads := by
    refine .node ⟨h.new, h.root.lt⟩ ?_ ?_ h.partTitles ?_
    · rw [h.hasKind]
      exact hagrees
    · rwa [h.hasKind]
    · exact fun p hp => (h.reads p hp).mono fun m hm => ⟨hm.1, hm.2.1⟩

/-- Finished parentheses around an expression, whose content was made after them. -/
theorem parenthesized
    (h : Site f f' f.size .parenthesizedExpression titles [(.expression, t)] waiting) :
    Made f f' f.size t where
  preserves := h.preserves
  root := h.root
  reads := by
    obtain ⟨slot, hslots⟩ : ∃ slot, f'.semanticSlots f.size = [slot] := by
      rw [← List.length_eq_one_iff]
      simpa using congrArg List.length h.partTitles
    have htitle : slot.1 = .expression := by
      have htitles := h.partTitles
      rw [hslots] at htitles
      simpa using htitles
    have hreads : f'.Reads (NewBut f f' f.size) slot.2 t :=
      h.reads (slot, .expression, t) (by simp [hslots])
    have hchild : f'.child? f.size .expression = some slot.2 := by
      have hchildren : f'.children f.size .expression = [slot.2] := by
        rw [children_eq_select_semantic rfl, hslots]
        simp [Title.select, htitle]
      rw [child?, ← List.head?_filter, ← List.head?_map]
      exact congrArg List.head? hchildren
    refine .parenthesized ⟨Nat.le_refl _, h.root.lt⟩ h.hasKind hchild ?_ ?_
    · exact Nat.lt_of_le_of_ne hreads.root.1 hreads.root.2.2.symm
    · exact hreads.mono fun m hm => ⟨hm.1, hm.2.1⟩

/-! ## Steps of lowering -/

theorem putFirst_new {slots : List (Title × NodeId)} (h : title ∉ slots.map (·.1)) (c : NodeId) :
    putFirst title c slots = slots ++ [(title, c)] := by
  induction slots with
  | nil => rfl
  | cons slot slots ih =>
      rw [List.map_cons, List.mem_cons, not_or] at h
      rw [putFirst, if_neg (fun heq => h.1 heq.symm), ih h.2, List.cons_append]

theorem ne_of_waits (h : Site f f' n kind titles parts ((c, t) :: waiting)) : c ≠ n :=
  (h.waits (c, t) List.mem_cons_self).2.root.2.2

/-- The first root that waits is attached under a title that the node does not have. -/
theorem set (h : Site f f' n kind titles parts ((c, t) :: waiting)) (source : Source)
    (ds : Array Diagnostic) (hnew : title ∉ titles) :
    ∃ f'', Lower.set n title c source ⟨f', ds⟩ = .ok ((), ⟨f'', ds⟩) ∧
      Site f f'' n kind (titles ++ [title])
        (if title.isLexical then parts else parts ++ [(title, t)]) waiting := by
  have hroot : (Draft.mk f' ds).forest.IsRoot n := h.root
  obtain ⟨f'', hset, hattached⟩ := Lower.set_of_isRoot source hroot
    (h.waits (c, t) List.mem_cons_self).1 h.ne_of_waits title
  refine ⟨f'', hset, h.attached hattached (putFirst_new ?_ c)⟩
  rwa [h.hasTitles]

/-- The first root that waits is added to those under a title. -/
theorem push (h : Site f f' n kind titles parts ((c, t) :: waiting)) (source : Source)
    (ds : Array Diagnostic) (title : Title) :
    ∃ f'', Lower.push n title c source ⟨f', ds⟩ = .ok ((), ⟨f'', ds⟩) ∧
      Site f f'' n kind (titles ++ [title])
        (if title.isLexical then parts else parts ++ [(title, t)]) waiting := by
  have hroot : (Draft.mk f' ds).forest.IsRoot n := h.root
  obtain ⟨f'', hpush, hattached⟩ := Lower.push_of_isRoot source hroot
    (h.waits (c, t) List.mem_cons_self).1 h.ne_of_waits title
  exact ⟨f'', hpush, h.attached hattached rfl⟩

theorem setToken (h : Site f f' n kind titles parts waiting) (source : Source)
    (ds : Array Diagnostic) (tk : Token) (htitle : title.isLexical = true) (hnew : title ∉ titles) :
    ∃ f'', Lower.setToken n title tk source ⟨f', ds⟩ = .ok ((), ⟨f'', ds⟩) ∧
      Site f f'' n kind (titles ++ [title]) parts waiting := by
  let range := source.lines.textRange tk.span
  have hmade : Made f' (f'.allocate (.token tk.kind tk.text) range).2 f'.size
      (.node (.token tk.kind tk.text) []) :=
    (Site.start (.nil (.refl f')) _ range).finish (by simp [NodeKind.agrees]) (by simp)
  obtain ⟨f'', hset, hsite⟩ := ((h.make hmade).perm List.perm_append_comm).set source ds hnew
  have htoken : Lower.token tk source ⟨f', ds⟩ =
      .ok (f'.size, ⟨(f'.allocate (.token tk.kind tk.text) range).2, ds⟩) := rfl
  refine ⟨f'', ?_, by simpa [htitle] using hsite⟩
  rw [Lower.setToken, Lower.bind_ok htoken]
  exact hset

end Site

namespace Lowering

variable {source : Source} {t : Tree}

/-- A step that makes a node which reads as a tree. -/
def Gives (source : Source) (x : Lower NodeId) (t : Tree) : Prop :=
  ∀ f ds, ∃ n f', x source ⟨f, ds⟩ = .ok (n, ⟨f', ds⟩) ∧ Made f f' n t

theorem gives_allocate {kind kind' : NodeKind} (h : kind'.agrees kind = true)
    (hbare : kind ≠ .parenthesizedExpression) (span : Span) :
    Gives source (Lower.allocate kind span) (.node kind' []) := by
  intro f ds
  exact ⟨_, _, rfl, (Site.start (.nil (.refl f)) kind _).finish h hbare⟩

section Lists

variable {f f' : Forest} {n : NodeId} {kind : NodeKind} {titles : List Title}
  {parts : List (Title × Tree)} {title : Title}

/-- The nodes of elements, which wait to be attached. -/
theorem site_mapM {γ : Type} (make : γ → Lower NodeId) {els : List γ} {ts : List Tree}
    (hgives : List.Forall₂ (fun el t => Gives source (make el) t) els ts) (ds : Array Diagnostic)
    {waiting : List (NodeId × Tree)} (h : Site f f' n kind titles parts waiting) :
    ∃ made f'', els.mapM make source ⟨f', ds⟩ = .ok (made.map (·.1), ⟨f'', ds⟩) ∧
      made.map (·.2) = ts ∧ Site f f'' n kind titles parts (waiting ++ made) := by
  induction hgives generalizing f' waiting with
  | nil => exact ⟨[], f', rfl, rfl, by simpa using h⟩
  | @cons el t els ts hel _ ih =>
      obtain ⟨c, f₁, hc, hmade⟩ := hel f' ds
      obtain ⟨made, f'', hmap, hts, hsite⟩ := ih (h.make hmade)
      refine ⟨(c, t) :: made, f'', ?_, by rw [List.map_cons, hts], by simpa using hsite⟩
      rw [List.mapM_cons, Lower.bind_ok hc, Lower.bind_ok hmap]
      rfl

/-- All roots that wait are added under one title. -/
theorem site_pushAll (source : Source) (ds : Array Diagnostic) {made : List (NodeId × Tree)}
    (h : Site f f' n kind titles parts made)
    (htitle : title.isLexical = false) :
    ∃ f'', pushAll n title (made.map (·.1)) source ⟨f', ds⟩ = .ok ((), ⟨f'', ds⟩) ∧
      Site f f'' n kind (titles ++ made.map fun _ => title)
        (parts ++ (made.map (·.2)).map (title, ·)) [] := by
  induction made generalizing f' titles parts with
  | nil => exact ⟨f', rfl, by simpa using h⟩
  | cons p made ih =>
      obtain ⟨f₁, hpush, hsite⟩ := h.push source ds title
      obtain ⟨f'', hall, hsite⟩ := ih (by simpa [htitle] using hsite)
      refine ⟨f'', ?_, by simpa using hsite⟩
      exact (Lower.bind_ok hpush _).trans hall

end Lists

/-! ## Nodes over others -/

theorem made_over {f f' : Forest} {a b : NodeId} {ta tb : Tree} (h : MadeAll f f' [(a, ta), (b, tb)])
    {kind : NodeKind} {first between last : Title} (tk : Token) (span : Span) (source : Source)
    (ds : Array Diagnostic) (hfirst : first.isLexical = false) (hbetween : between.isLexical = true)
    (hlast : last.isLexical = false) (hne : last ≠ first) (hbare : kind ≠ .parenthesizedExpression)
    (hagrees : kind.agrees kind = true) :
    ∃ n f'', (do
        let n ← Lower.allocate kind span
        Lower.set n first a
        Lower.setToken n between tk
        Lower.set n last b
        return n) source ⟨f', ds⟩ = .ok (n, ⟨f'', ds⟩) ∧
      Made f f'' n (.node kind [(first, ta), (last, tb)]) := by
  have hstart := Site.start h kind (source.lines.textRange span)
  obtain ⟨f₁, hset, hsite⟩ := hstart.set source ds (List.not_mem_nil : first ∉ [])
  rw [hfirst] at hsite
  have hold : between ∉ [first] := by
    rintro hmem
    rw [List.mem_singleton.mp hmem, hfirst] at hbetween
    cases hbetween
  obtain ⟨f₂, htoken, hsite⟩ := hsite.setToken source ds tk hbetween hold
  have hnew : last ∉ [first, between] := by
    simp only [List.mem_cons, List.not_mem_nil, or_false, not_or]
    refine ⟨hne, ?_⟩
    rintro rfl
    rw [hlast] at hbetween
    cases hbetween
  obtain ⟨f₃, hset', hsite⟩ := hsite.set source ds hnew
  rw [hlast] at hsite
  refine ⟨f'.size, f₃, ?_, hsite.finish hagrees hbare⟩
  have hallocate : Lower.allocate kind span source ⟨f', ds⟩ =
      .ok (f'.size, ⟨(f'.allocate kind (source.lines.textRange span)).2, ds⟩) := rfl
  rw [Lower.bind_ok hallocate, Lower.bind_ok hset, Lower.bind_ok htoken, Lower.bind_ok hset']
  rfl

theorem made_binaryNode {f f' : Forest} {a b : NodeId} {ta tb : Tree}
    (h : MadeAll f f' [(a, ta), (b, tb)]) {operator? : TokenKind → Option BinaryOperator}
    {op : BinaryOperator} {tk : Token} (hop : operator? tk.kind = some op) (span : Span)
    (source : Source) (ds : Array Diagnostic) :
    ∃ n f'', binaryNode operator? a tk b span source ⟨f', ds⟩ = .ok (n, ⟨f'', ds⟩) ∧
      Made f f'' n (.node (.binaryOperatorExpression op) [(.left, ta), (.right, tb)]) := by
  simp only [binaryNode, hop]
  exact made_over h tk span source ds rfl rfl rfl (by decide) (by simp) (by cases op <;> rfl)

/-! ## Nodes made one around the other -/

section Rounds

variable {ι : Type} {F : List ι → NodeId → Span → Lower NodeId} {x : Lower NodeId} {span : Span}
  {y : ι} {ys : List ι} {t' : Tree}

/-- A round takes a root that reads as one tree to a root that reads as another. -/
def Rounds (source : Source) (F : List ι → NodeId → Span → Lower NodeId) (y : ι) (t t' : Tree) :
    Prop :=
  ∀ f f' ds n span, Made f f' n t → ∃ n' f'' span', Made f f'' n' t' ∧
    ∀ more, F (y :: more) n span source ⟨f', ds⟩ = F more n' span' source ⟨f'', ds⟩

/-- Rounds after a first node leave a root that reads as a tree for the rounds that follow. -/
def Folds (source : Source) (F : List ι → NodeId → Span → Lower NodeId) (x : Lower NodeId)
    (span : Span) (ys : List ι) (t : Tree) : Prop :=
  ∀ f ds, ∃ n f' span', Made f f' n t ∧
    ∀ more, (x >>= fun n => F (ys ++ more) n span) source ⟨f, ds⟩ =
      F more n span' source ⟨f', ds⟩

theorem Folds.nil (h : Gives source x t) (F : List ι → NodeId → Span → Lower NodeId) (span : Span) :
    Folds source F x span [] t := by
  intro f ds
  obtain ⟨n, f', hx, hmade⟩ := h f ds
  exact ⟨n, f', span, hmade, fun more => Lower.bind_ok hx _⟩

theorem Folds.snoc (h : Folds source F x span ys t) (hy : Rounds source F y t t') :
    Folds source F x span (ys ++ [y]) t' := by
  intro f ds
  obtain ⟨n, f', span', hmade, hys⟩ := h f ds
  obtain ⟨n', f'', span'', hmade', hround⟩ := hy f f' ds n span' hmade
  refine ⟨n', f'', span'', hmade', fun more => ?_⟩
  rw [List.append_assoc]
  exact (hys _).trans (hround more)

/-- When no rounds are left, the node made last is the result. -/
theorem Folds.gives (h : Folds source F x span ys t) (hend : ∀ n span, F [] n span = pure n) :
    Gives source (x >>= fun n => F ys n span) t := by
  intro f ds
  obtain ⟨n, f', span', hmade, hys⟩ := h f ds
  refine ⟨n, f', ?_, hmade⟩
  have hlast := hys []
  rw [List.append_nil] at hlast
  rw [hlast, hend]
  rfl

end Rounds

end Lowering

end DualSyntax
