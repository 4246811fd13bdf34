import DualSyntax.Proofs.Forest.Roots
import DualSyntax.Proofs.Lowering.Nested

/-!
# What a step of lowering does

`Does` says of a step under which condition it succeeds, what then holds, and with which error it
fails otherwise.  A step that makes a node makes a new root and leaves all roots roots (`Makes`); a
step that works on an owner leaves all roots roots (`Steps`).  Both go through sequences and loops.
-/

namespace DualSyntax

open Forest

namespace Lower

variable {α β : Type} {source : Source} {e : LowerError} {ok ok' : Prop} {draft draft' : Draft}
  {x : Lower α} {a : α} {post post' : α → Draft → Prop}

/-- Under the condition `ok` the step succeeds and leaves what `post` says, otherwise it fails. -/
structure Does (source : Source) (e : LowerError) (ok : Prop) (x : Lower α) (draft : Draft)
    (post : α → Draft → Prop) : Prop where
  succeeds : ok → ∃ a draft', x source draft = .ok (a, draft') ∧ post a draft'
  fails : ¬ ok → x source draft = .error e

theorem bind_error (h : x source draft = .error e) (f : α → Lower β) :
    (x >>= f) source draft = .error e := by
  change (x source draft >>= fun r => f r.1 source r.2) = .error e
  rw [h]
  rfl

namespace Does

theorem of_ok (h : x source draft = .ok (a, draft')) (hpost : post a draft') :
    Does source e True x draft post :=
  ⟨fun _ => ⟨a, draft', h, hpost⟩, fun h => (h trivial).elim⟩

/-- A step that has succeeded has done what it does. -/
theorem of_run (h : Does source e ok x draft post) (hrun : x source draft = .ok (a, draft')) :
    post a draft' := by
  by_cases hok : ok
  · obtain ⟨b, draft'', hrun', hpost⟩ := h.succeeds hok
    rw [hrun] at hrun'
    cases hrun'
    exact hpost
  · have herror := h.fails hok
    rw [hrun] at herror
    cases herror

theorem pure (hpost : post a draft) : Does source e True (pure a) draft post := of_ok rfl hpost

theorem throw (h : ¬ ok) : Does source e ok (throw e : Lower α) draft post :=
  ⟨fun hok => (h hok).elim, fun _ => rfl⟩

theorem mono (h : Does source e ok x draft post) (hok : ok ↔ ok')
    (hpost : ∀ a draft', post a draft' → post' a draft') : Does source e ok' x draft post' := by
  refine ⟨fun h' => ?_, fun h' => h.fails (by rwa [hok])⟩
  obtain ⟨a, draft', hx, hpost'⟩ := h.succeeds (hok.mpr h')
  exact ⟨a, draft', hx, hpost a draft' hpost'⟩

theorem iff (h : Does source e ok x draft post) (hok : ok ↔ ok') : Does source e ok' x draft post :=
  h.mono hok fun _ _ h => h

theorem imp (h : Does source e ok x draft post) (hpost : ∀ a draft', post a draft' → post' a draft') :
    Does source e ok x draft post' :=
  h.mono Iff.rfl hpost

theorem bind {f : α → Lower β} {post' : β → Draft → Prop} (hx : Does source e ok x draft post)
    (hf : ok → ∀ a draft', post a draft' → Does source e ok' (f a) draft' post') :
    Does source e (ok ∧ ok') (x >>= f) draft post' := by
  refine ⟨fun ⟨h, h'⟩ => ?_, fun hnot => ?_⟩
  · obtain ⟨a, draft', ha, hpost⟩ := hx.succeeds h
    rw [bind_ok ha]
    exact (hf h a draft' hpost).succeeds h'
  · by_cases h : ok
    · obtain ⟨a, draft', ha, hpost⟩ := hx.succeeds h
      rw [bind_ok ha]
      exact (hf h a draft' hpost).fails fun h' => hnot ⟨h, h'⟩
    · exact bind_error (hx.fails h) f

/-- A step that always succeeds, and what follows. -/
theorem andThen {f : α → Lower β} {post' : β → Draft → Prop}
    (hx : Does source e True x draft post)
    (hf : ∀ a draft', post a draft' → Does source e ok (f a) draft' post') :
    Does source e ok (x >>= f) draft post' :=
  (hx.bind fun _ => hf).iff (by simp)

/-- A step, and then one that always succeeds. -/
theorem finish {f : α → Lower β} {post' : β → Draft → Prop} (hx : Does source e ok x draft post)
    (hf : ∀ a draft', post a draft' → Does source e True (f a) draft' post') :
    Does source e ok (x >>= f) draft post' :=
  (hx.bind fun _ => hf).iff (by simp)

/-- A step on whose success the rest depends: the whole succeeds under a condition that the step
needs. -/
theorem part {f : α → Lower β} {post' : β → Draft → Prop} (hx : Does source e ok x draft post)
    (hok : ok' → ok)
    (hf : ok → ∀ a draft', post a draft' → Does source e ok' (f a) draft' post') :
    Does source e ok' (x >>= f) draft post' :=
  (hx.bind hf).iff ⟨fun h => h.2, fun h => ⟨hok h, h⟩⟩

theorem after {f : α → Lower β} {post' : β → Draft → Prop} (h : x source draft = .ok (a, draft'))
    (hf : Does source e ok (f a) draft' post') : Does source e ok (x >>= f) draft post' :=
  ⟨fun hok => by rw [bind_ok h]; exact hf.succeeds hok,
    fun hok => by rw [bind_ok h]; exact hf.fails hok⟩

/-- A step that always succeeds does so under a condition that holds. -/
theorem given (h : Does source e True x draft post) (hok : ok) : Does source e ok x draft post :=
  h.iff (iff_of_true trivial hok)

/-- A step whose condition is known to hold. -/
theorem always (h : Does source e ok x draft post) (hok : ok) : Does source e True x draft post :=
  h.iff (iff_of_true hok trivial)

end Does

/-! ## Making nodes -/

/-- A node that was not there before and has no parent. -/
structure Fresh (f f' : Forest) (n : NodeId) : Prop where
  grows : Grows f f'
  root : f'.IsRoot n
  new : f.size ≤ n

abbrev Makes (source : Source) (e : LowerError) (ok : Prop) (x : Lower NodeId)
    (draft : Draft) : Prop :=
  Does source e ok x draft fun n draft' => Fresh draft.forest draft'.forest n

/-- A step that keeps all roots. -/
abbrev Steps (source : Source) (e : LowerError) (ok : Prop) (x : Lower α) (draft : Draft) : Prop :=
  Does source e ok x draft fun _ draft' => Grows draft.forest draft'.forest

theorem Fresh.after_grows {f f' f'' : Forest} {n : NodeId} (h : Grows f f') (hn : Fresh f' f'' n) :
    Fresh f f'' n :=
  ⟨h.trans hn.grows, hn.root, Nat.le_trans h.size_le hn.new⟩

theorem Fresh.then_grows {f f' f'' : Forest} {n : NodeId} (hn : Fresh f f' n) (h : Grows f' f'') :
    Fresh f f'' n :=
  ⟨hn.grows.trans h, hn.root.of_grows h, hn.new⟩

theorem Fresh.ne {f f' : Forest} {n m : NodeId} (hn : Fresh f f' n) (hm : f.IsRoot m) : n ≠ m := by
  rintro rfl
  exact Nat.not_lt.mpr hn.new hm.lt

theorem fresh_allocate (f : Forest) (kind : NodeKind) (range : TextRange) :
    Fresh f (f.allocate kind range).2 f.size :=
  ⟨grows_allocate f kind range, isRoot_allocate f kind range, Nat.le_refl _⟩

theorem does_allocate (kind : NodeKind) (span : Span) :
    Does source e True (allocate kind span) draft fun n draft' =>
      Fresh draft.forest draft'.forest n ∧ draft'.forest.kind n = kind :=
  .of_ok rfl ⟨fresh_allocate draft.forest kind (source.lines.textRange span), kind_allocate _ _ _⟩

theorem makes_allocate (kind : NodeKind) (span : Span) :
    Makes source e True (allocate kind span) draft :=
  (does_allocate kind span).imp fun _ _ h => h.1

theorem makes_token (t : Token) : Makes source e True (token t) draft :=
  makes_allocate _ _

theorem makes_identifier (t : Token) : Makes source e True (identifier t) draft :=
  .after rfl (makes_allocate _ _)

theorem makes_literal {t : Token} (h : (literalValue? t).isSome = true) :
    Makes source e True (literal t) draft := by
  obtain ⟨value, hvalue⟩ := Option.isSome_iff_exists.mp h
  simp only [literal, hvalue]
  exact .after rfl (makes_allocate _ _)

theorem makes_modifier {t : Token} (h : (source.language.modifier? t.text).isSome = true) :
    Makes source e True (modifier t) draft := by
  obtain ⟨m, hm⟩ := Option.isSome_iff_exists.mp h
  refine .after rfl ?_
  simp only [hm]
  exact makes_allocate _ _

theorem inspect_ok (look : Forest → α) :
    inspect look source draft = .ok (look draft.forest, draft) := rfl

theorem steps_report (span : Span) (issue : Issue) :
    Steps source e True (report span issue) draft :=
  .of_ok rfl (Keeps.refl _ _)

/-! ## Attaching nodes -/

/-- A way to put a node below an owner. -/
def Attaches (source : Source) (owner : NodeId) (put : NodeId → Lower Unit) : Prop :=
  ∀ (draft : Draft) (c : NodeId), draft.forest.IsRoot owner → draft.forest.IsRoot c → c ≠ owner →
    ∃ draft', put c source draft = .ok ((), draft') ∧ Keeps (· ≠ c) draft.forest draft'.forest

theorem set_of_isRoot (source : Source) {draft : Draft} {owner c : NodeId} (ho : draft.forest.IsRoot owner)
    (hc : draft.forest.IsRoot c) (hne : c ≠ owner) (t : Title) :
    ∃ f, set owner t c source draft = .ok ((), ⟨f, draft.diagnostics⟩) ∧
      Attached draft.forest f owner c (putFirst t c) := by
  obtain ⟨old, f, hset, hf⟩ := setChild?_of_isRoot ho hc hne t
  exact ⟨f, by simp [set, edit, hset], hf⟩

theorem push_of_isRoot (source : Source) {draft : Draft} {owner c : NodeId} (ho : draft.forest.IsRoot owner)
    (hc : draft.forest.IsRoot c) (hne : c ≠ owner) (t : Title) :
    ∃ f, push owner t c source draft = .ok ((), ⟨f, draft.diagnostics⟩) ∧
      Attached draft.forest f owner c (· ++ [(t, c)]) := by
  obtain ⟨f, hpush, hf⟩ := appendChild?_of_isRoot ho hc hne t
  exact ⟨f, by simp [push, edit, hpush], hf⟩

theorem attaches_set (source : Source) (owner : NodeId) (t : Title) :
    Attaches source owner (set owner t) := by
  intro draft c ho hc hne
  obtain ⟨f, hset, hf⟩ := set_of_isRoot source ho hc hne t
  exact ⟨_, hset, hf.keeps⟩

theorem attaches_push (source : Source) (owner : NodeId) (t : Title) :
    Attaches source owner (push owner t) := by
  intro draft c ho hc hne
  obtain ⟨f, hpush, hf⟩ := push_of_isRoot source ho hc hne t
  exact ⟨_, hpush, hf.keeps⟩

theorem Attaches.does_fresh {f : Forest} {owner n : NodeId} {put : NodeId → Lower Unit}
    (hput : Attaches source owner put) (ho : f.IsRoot owner) (hn : Fresh f draft.forest n) :
    Does source e True (put n) draft fun _ draft' => Grows f draft'.forest := by
  obtain ⟨draft', hdraft, hkeeps⟩ := hput draft n (ho.of_grows hn.grows) hn.root (hn.ne ho)
  refine .of_ok hdraft (hn.grows.grows_of_new hkeeps ?_)
  rintro m hm rfl
  exact Nat.not_lt.mpr hn.new hm

theorem Makes.attach {make : Lower NodeId} {owner : NodeId} {put : NodeId → Lower Unit}
    (hmake : Makes source e ok make draft) (hput : Attaches source owner put)
    (ho : draft.forest.IsRoot owner) : Steps source e ok (make >>= put) draft :=
  hmake.finish fun _ _ hn => hput.does_fresh ho hn

theorem Makes.attachThen {make : Lower NodeId} {owner : NodeId} {put : NodeId → Lower Unit}
    {next : Unit → Lower β} {post' : β → Draft → Prop} (hmake : Makes source e ok make draft)
    (hput : Attaches source owner put) (ho : draft.forest.IsRoot owner)
    (hnext : ∀ draft', Grows draft.forest draft'.forest → Does source e ok' (next ()) draft' post') :
    Does source e (ok ∧ ok') (make >>= fun n => put n >>= next) draft post' := by
  rw [← bind_assoc]
  exact (hmake.attach hput ho).bind fun _ _ draft' hgrows => hnext draft' hgrows

theorem Makes.attachFinish {make : Lower NodeId} {owner : NodeId} {put : NodeId → Lower Unit}
    {next : Unit → Lower β} {post' : β → Draft → Prop} (hmake : Makes source e ok make draft)
    (hput : Attaches source owner put) (ho : draft.forest.IsRoot owner)
    (hnext : ∀ draft', Grows draft.forest draft'.forest → Does source e True (next ()) draft' post') :
    Does source e ok (make >>= fun n => put n >>= next) draft post' :=
  (hmake.attachThen hput ho hnext).iff (by simp)

theorem steps_setToken {owner : NodeId} (t : Title) (tk : Token)
    (ho : draft.forest.IsRoot owner) : Steps source e True (setToken owner t tk) draft :=
  (makes_token tk).attach (attaches_set source owner t) ho

theorem Attaches.fresh {f : Forest} {n c : NodeId} {put : NodeId → Lower Unit}
    (hput : Attaches source n put) (hn : Fresh f draft.forest n) (hc : draft.forest.IsRoot c)
    (hnew : f.size ≤ c) (hne : c ≠ n) :
    ∃ draft', put c source draft = .ok ((), draft') ∧ Fresh f draft'.forest n ∧
      Keeps (· ≠ c) draft.forest draft'.forest := by
  obtain ⟨draft', hdraft, hkeeps⟩ := hput draft c hn.root hc hne
  refine ⟨draft', hdraft, ⟨hn.grows.grows_of_new hkeeps ?_, hkeeps.root n hne.symm hn.root, hn.new⟩,
    hkeeps⟩
  rintro m hm rfl
  exact Nat.not_lt.mpr hnew hm

/-- A node of a kind that has been made over a root. -/
structure Wraps (f f₀ f' : Forest) (kind : NodeKind) (t : Title) (c n : NodeId) : Prop where
  fresh : Fresh f f' n
  keeps : Keeps (· ≠ c) f₀ f'
  kind : f'.kind n = kind
  child : f'.child? n t = some c
  new : f₀.size ≤ n
  lt : c < n

theorem does_wrap (source : Source) (e : LowerError) {f : Forest} {c : NodeId}
    (hc : Fresh f draft.forest c) (kind : NodeKind) (t : Title) (span : Span) :
    Does source e True (do let n ← allocate kind span; set n t c; return n) draft fun n draft' =>
      Wraps f draft.forest draft'.forest kind t c n := by
  have hmade := fresh_allocate draft.forest kind (source.lines.textRange span)
  refine .after rfl ?_
  have hne : c ≠ draft.forest.size := Nat.ne_of_lt hc.root.lt
  let draft₁ : Draft :=
    ⟨(draft.forest.allocate kind (source.lines.textRange span)).2, draft.diagnostics⟩
  have hroot : draft₁.forest.IsRoot draft.forest.size := hmade.root
  obtain ⟨f', hset, hf'⟩ := set_of_isRoot source hroot (hc.root.of_grows hmade.grows) hne t
  refine .after hset (.pure ⟨⟨?_, ?_, ?_⟩, ?_, ?_, ?_, Nat.le_refl _, hc.root.lt⟩)
  · refine (hc.grows.trans hmade.grows).grows_of_new hf'.keeps ?_
    rintro m hm rfl
    exact Nat.not_lt.mpr hc.new hm
  · exact hf'.keeps.root _ hne.symm hmade.root
  · exact hc.grows.size_le
  · exact (hmade.grows.mono fun _ _ _ => trivial).trans hf'.keeps
  · exact (hf'.kind _).trans (kind_allocate _ _ _)
  · rw [child?, hf'.slots_owner, slots_allocate, slots_of_size_le (Nat.le_refl _)]
    simp [putFirst]

/-- An optional node that was not there before and has no parent. -/
structure FreshMaybe (f f' : Forest) (r : Option NodeId) : Prop where
  grows : Grows f f'
  fresh : ∀ n ∈ r, Fresh f f' n

theorem FreshMaybe.some {f f' : Forest} {n : NodeId} (hn : Fresh f f' n) :
    FreshMaybe f f' (some n) := by
  refine ⟨hn.grows, ?_⟩
  rintro m ⟨⟩
  exact hn

theorem FreshMaybe.none {f : Forest} : FreshMaybe f f none := by
  refine ⟨Keeps.refl _ _, ?_⟩
  rintro m ⟨⟩

/-! ## Lists of nodes -/

/-- Nodes that were not there before and have no parent. -/
structure FreshAll (f f' : Forest) (ns : List NodeId) : Prop where
  grows : Grows f f'
  root : ∀ n ∈ ns, f'.IsRoot n
  new : ∀ n ∈ ns, f.size ≤ n
  nodup : ns.Nodup

theorem FreshAll.nil {f f' : Forest} (h : Grows f f') : FreshAll f f' [] :=
  ⟨h, by simp, by simp, List.nodup_nil⟩

theorem FreshAll.cons {f f' f'' : Forest} {n : NodeId} {ns : List NodeId} (hn : Fresh f f' n)
    (hns : FreshAll f' f'' ns) : FreshAll f f'' (n :: ns) where
  grows := hn.grows.trans hns.grows
  root m hm := by
    rcases List.mem_cons.mp hm with rfl | hm
    · exact hn.root.of_grows hns.grows
    · exact hns.root m hm
  new m hm := by
    rcases List.mem_cons.mp hm with rfl | hm
    · exact hn.new
    · exact Nat.le_trans hn.grows.size_le (hns.new m hm)
  nodup := by
    refine List.nodup_cons.mpr ⟨fun hm => ?_, hns.nodup⟩
    exact Nat.not_lt.mpr (hns.new n hm) hn.root.lt

theorem FreshAll.then_grows {f f' f'' : Forest} {ns : List NodeId} (hns : FreshAll f f' ns)
    (h : Grows f' f'') : FreshAll f f'' ns :=
  ⟨hns.grows.trans h, fun n hn => (hns.root n hn).of_grows h, hns.new, hns.nodup⟩

theorem FreshAll.append {f f' f'' : Forest} {ns ms : List NodeId} (hns : FreshAll f f' ns)
    (hms : FreshAll f' f'' ms) : FreshAll f f'' (ns ++ ms) where
  grows := hns.grows.trans hms.grows
  root m hm := by
    rcases List.mem_append.mp hm with hm | hm
    · exact (hns.root m hm).of_grows hms.grows
    · exact hms.root m hm
  new m hm := by
    rcases List.mem_append.mp hm with hm | hm
    · exact hns.new m hm
    · exact Nat.le_trans hns.grows.size_le (hms.new m hm)
  nodup := by
    refine List.nodup_append.mpr ⟨hns.nodup, hms.nodup, ?_⟩
    rintro n hn _ hm rfl
    exact Nat.not_lt.mpr (hms.new n hm) (hns.root n hn).lt

theorem FreshAll.pair {f f' f'' : Forest} {a b : NodeId} (ha : Fresh f f' a) (hb : Fresh f' f'' b) :
    FreshAll f f'' [a, b] :=
  .cons ha (.cons hb (.nil (Keeps.refl _ _)))

theorem FreshAll.swap {f f' : Forest} {a b : NodeId} (h : FreshAll f f' [a, b]) : FreshAll f f' [b, a] where
  grows := h.grows
  root n hn := h.root n (by simpa [or_comm] using hn)
  new n hn := h.new n (by simpa [or_comm] using hn)
  nodup := by
    have hne : a ≠ b := by simpa using h.nodup
    simpa using hne.symm

/-- A new node is made over two roots, with something done to it between them. -/
theorem does_over {f : Forest} {a b : NodeId} {between : NodeId → Lower Unit}
    (hbetween : ∀ n draft, draft.forest.IsRoot n → Steps source e True (between n) draft)
    (kind : NodeKind) (span : Span) (first last : Title)
    (h : FreshAll f draft.forest [a, b]) :
    Does source e True (do
      let n ← allocate kind span
      set n first a
      between n
      set n last b
      return n) draft fun n draft' => Fresh f draft'.forest n ∧ draft'.forest.kind n = kind := by
  have ha := h.root a (by simp)
  have hb := h.root b (by simp)
  have hne : a ≠ b := by simpa using h.nodup
  refine (does_allocate kind span).andThen fun n draft₁ hn => ?_
  obtain ⟨hn, hkind⟩ := hn
  obtain ⟨draft₂, hset, hn₂, hkeeps⟩ := (attaches_set source n first).fresh
    (hn.after_grows h.grows) (ha.of_grows hn.grows) (h.new a (by simp)) (hn.ne ha).symm
  refine .after hset ((hbetween n draft₂ hn₂.root).andThen fun _ draft₃ hgrows => ?_)
  have hb₃ : draft₃.forest.IsRoot b := by
    have hb₂ := hkeeps.root b hne.symm (hb.of_grows hn.grows)
    exact hb₂.of_grows hgrows
  obtain ⟨draft₄, hset, hn₄, hkeeps₄⟩ := (attaches_set source n last).fresh
    (hn₂.then_grows hgrows) hb₃ (h.new b (by simp)) (hn.ne hb).symm
  refine .after hset (.pure ⟨hn₄, ?_⟩)
  calc draft₄.forest.kind n = draft₃.forest.kind n :=
        hkeeps₄.kind n (hn₂.root.of_grows hgrows).lt
    _ = draft₂.forest.kind n := hgrows.kind n hn₂.root.lt
    _ = draft₁.forest.kind n := hkeeps.kind n hn.root.lt
    _ = kind := hkind

theorem does_mapM {γ : Type} {make : γ → Lower NodeId} {cond : γ → Prop} {ts : List γ}
    (h : ∀ t ∈ ts, ∀ draft, Makes source e (cond t) (make t) draft) :
    Does source e (∀ t ∈ ts, cond t) (ts.mapM make) draft fun ns draft' =>
      FreshAll draft.forest draft'.forest ns := by
  induction ts generalizing draft with
  | nil =>
      rw [List.mapM_nil]
      exact (Does.pure (.nil (Keeps.refl _ _))).iff (by simp)
  | cons t ts ih =>
      rw [List.mapM_cons]
      refine ((h t (List.mem_cons_self ..) draft).bind fun _ n draft' hn => ?_).iff
        List.forall_mem_cons.symm
      refine (ih fun u hu => h u (List.mem_cons_of_mem t hu)).finish fun ns draft'' hns => ?_
      exact .pure (.cons hn hns)

/-- Several roots are put below an owner one after the other. -/
theorem forM_puts {γ : Type} {owner : NodeId} {node : γ → NodeId} {put : γ → Lower Unit} {xs : List γ}
    (hput : ∀ x ∈ xs, ∃ place, Attaches source owner place ∧ put x = place (node x))
    (ho : draft.forest.IsRoot owner) (hroot : ∀ n ∈ xs.map node, draft.forest.IsRoot n)
    (hnodup : (xs.map node).Nodup) (hne : owner ∉ xs.map node) :
    ∃ draft', xs.forM put source draft = .ok ((), draft') ∧
      Keeps (· ∉ xs.map node) draft.forest draft'.forest := by
  induction xs generalizing draft with
  | nil => exact ⟨draft, rfl, Keeps.refl _ _⟩
  | cons x xs ih =>
      rw [List.map_cons, List.nodup_cons] at hnodup
      rw [List.map_cons, List.mem_cons, not_or] at hne
      rw [List.map_cons, List.forall_mem_cons] at hroot
      obtain ⟨place, hplace, hx⟩ := hput x (List.mem_cons_self ..)
      obtain ⟨draft₁, h₁, hk₁⟩ := hplace draft (node x) ho hroot.1 (fun h => hne.1 h.symm)
      have hrest : ∀ m ∈ xs.map node, draft₁.forest.IsRoot m := by
        intro m hm
        refine hk₁.root m (fun h => ?_) (hroot.2 m hm)
        exact hnodup.1 (h ▸ hm)
      obtain ⟨draft₂, h₂, hk₂⟩ := ih (fun y hy => hput y (List.mem_cons_of_mem x hy))
        (hk₁.root owner hne.1 ho) hrest hnodup.2 hne.2
      refine ⟨draft₂, ?_, (hk₁.mono ?_).trans (hk₂.mono ?_)⟩
      · change (put x >>= fun _ => xs.forM put) source draft = _
        rw [hx, bind_ok h₁, h₂]
      · intro m _ hm h
        exact hm (h ▸ List.mem_cons_self ..)
      · intro m _ hm h
        exact hm (List.mem_cons_of_mem _ h)

/-- Roots made since some forest are put below an owner, and no older root is touched. -/
theorem steps_forM_puts {γ : Type} {owner : NodeId} {node : γ → NodeId} {put : γ → Lower Unit}
    {xs : List γ} {f : Forest}
    (hput : ∀ x ∈ xs, ∃ place, Attaches source owner place ∧ put x = place (node x))
    (ho : draft.forest.IsRoot owner) (hne : owner ∉ xs.map node)
    (hxs : FreshAll f draft.forest (xs.map node)) :
    Does source e True (xs.forM put) draft fun _ draft' =>
      Grows f draft'.forest ∧ Keeps (· ∉ xs.map node) draft.forest draft'.forest := by
  obtain ⟨draft', h, hk⟩ := forM_puts hput ho hxs.root hxs.nodup hne
  refine .of_ok h ⟨hxs.grows.grows_of_new hk ?_, hk⟩
  exact fun m hm hmem => Nat.not_lt.mpr (hxs.new m hmem) hm

theorem steps_forM_fresh {owner : NodeId} {put : NodeId → Lower Unit} {f : Forest}
    (hput : Attaches source owner put) {ns : List NodeId} (ho : f.IsRoot owner)
    (hns : FreshAll f draft.forest ns) :
    Does source e True (ns.forM put) draft fun _ draft' => Grows f draft'.forest := by
  have howner : owner ∉ ns := fun hm => Nat.not_lt.mpr (hns.new owner hm) ho.lt
  have hplaces : ∀ x ∈ ns, ∃ place, Attaches source owner place ∧ put x = place (id x) :=
    fun x _ => ⟨put, hput, rfl⟩
  have hputs := steps_forM_puts (e := e) hplaces
    (ho.of_grows hns.grows) (by simpa using howner) (by simpa using hns)
  exact hputs.imp fun _ _ h => h.1

/-- A loop whose every round keeps all roots. -/
theorem steps_forIn {γ : Type} {owner : NodeId} {cond : γ → Prop} {ts : List γ}
    {round : γ → PUnit → Lower (ForInStep PUnit)}
    (h : ∀ t ∈ ts, ∀ draft, draft.forest.IsRoot owner →
      Does source e (cond t) (round t ⟨⟩) draft fun r draft' =>
        r = .yield ⟨⟩ ∧ Grows draft.forest draft'.forest)
    (ho : draft.forest.IsRoot owner) :
    Steps source e (∀ t ∈ ts, cond t) (forIn ts PUnit.unit round) draft := by
  induction ts generalizing draft with
  | nil =>
      rw [List.forIn_nil]
      exact (Does.pure (Keeps.refl _ _)).iff (by simp)
  | cons t ts ih =>
      rw [List.forIn_cons]
      refine ((h t (List.mem_cons_self ..) draft ho).bind fun _ r draft' hr => ?_).iff
        List.forall_mem_cons.symm
      obtain ⟨rfl, hgrows⟩ := hr
      refine (ih (fun u hu => h u (List.mem_cons_of_mem t hu)) (ho.of_grows hgrows)).imp ?_
      exact fun _ draft'' h => hgrows.trans h

/-- A loop whose every round succeeds. -/
theorem steps_forIn_always {γ : Type} {owner : NodeId} {ts : List γ}
    {round : γ → PUnit → Lower (ForInStep PUnit)}
    (h : ∀ t ∈ ts, ∀ draft, draft.forest.IsRoot owner →
      Does source e True (round t ⟨⟩) draft fun r draft' =>
        r = .yield ⟨⟩ ∧ Grows draft.forest draft'.forest)
    (ho : draft.forest.IsRoot owner) : Steps source e True (forIn ts PUnit.unit round) draft :=
  (steps_forIn h ho).always fun _ _ => trivial

theorem steps_foldlM {γ : Type} {owner : NodeId} {ts : List γ} {step : β → γ → Lower β}
    (h : ∀ t ∈ ts, ∀ b draft, draft.forest.IsRoot owner → Steps source e True (step b t) draft)
    (b : β) (ho : draft.forest.IsRoot owner) : Steps source e True (ts.foldlM step b) draft := by
  induction ts generalizing draft b with
  | nil => exact .pure (Keeps.refl _ _)
  | cons t ts ih =>
      rw [List.foldlM_cons]
      refine (h t (List.mem_cons_self ..) b draft ho).andThen fun b' draft' hgrows => ?_
      refine (ih (fun u hu => h u (List.mem_cons_of_mem t hu)) b' (ho.of_grows hgrows)).imp ?_
      exact fun _ _ h => hgrows.trans h

/-- A round of a loop that goes on. -/
theorem Steps.yield {x : Lower Unit} (h : Steps source e ok x draft) :
    Does source e ok (do x; pure (ForInStep.yield PUnit.unit)) draft fun r draft' =>
      r = .yield ⟨⟩ ∧ Grows draft.forest draft'.forest :=
  h.finish fun _ _ hgrows => .pure ⟨rfl, hgrows⟩

/-- A loop that puts roots below an owner. -/
theorem forIn_eq_forM {γ : Type} (ts : List γ) (body : γ → Lower Unit) :
    (forIn ts PUnit.unit fun t _ => do body t; pure (ForInStep.yield PUnit.unit)) =
      ts.forM body := by
  induction ts with
  | nil => rfl
  | cons t ts ih =>
      rw [List.forIn_cons]
      change _ = body t >>= fun _ => ts.forM body
      rw [← ih]
      simp

end Lower

end DualSyntax
