import DualSyntax.Proofs.Forest.Extensions
import DualSyntax.Proofs.Mirroring.Drafts

/-!
# What lowering adds

A step of lowering maintains what is known of the draft, and what is known of its result does not depend
on the draft; so steps are put together as they are written.  An `Upkeep` is something that every single
step maintains, as long as the nodes that are made and changed are of the right kind; then a whole match
does (`Upkeep.Adds`).  Inside of types, lowering adds nodes below nodes that it added itself and leaves those
that were there alone (`Upkeep.gains`).
-/

namespace DualSyntax

open Forest

namespace Lower

variable {α β γ : Type} {owner n c : NodeId}

/-- A step that keeps something about the source and the draft, and whose result has a property. -/
def Maintains (I : Source → Draft → Prop) (P : α → Prop) (x : Lower α) : Prop :=
  ∀ ⦃source : Source⦄ ⦃d d' : Draft⦄ ⦃a : α⦄, I source d → x source d = .ok (a, d') →
    I source d' ∧ P a

namespace Maintains

variable {I : Source → Draft → Prop} {P P' : α → Prop} {Q : β → Prop} {x : Lower α}

theorem pure {a : α} (h : P a) : Maintains I P (Pure.pure a) := by
  rintro source d d' a hd ⟨⟩
  exact ⟨hd, h⟩

theorem throw (error : LowerError) : Maintains I P (throw error) := by
  rintro source d d' a hd ⟨⟩

theorem bind {next : α → Lower β} (hx : Maintains I P x) (hnext : ∀ a, P a → Maintains I Q (next a)) :
    Maintains I Q (x >>= next) := by
  intro source d d' b hd hrun
  obtain ⟨a, d₁, ha, hb⟩ := exists_of_bind hrun
  obtain ⟨hd₁, hPa⟩ := hx hd ha
  exact hnext a hPa hd₁ hb

/-- A step after one whose result does not matter. -/
theorem andThen {next : α → Lower β} (hx : Maintains I (fun _ => True) x)
    (hnext : ∀ a, Maintains I Q (next a)) : Maintains I Q (x >>= next) :=
  hx.bind fun a _ => hnext a

/-- A result that is put somewhere before the steps that follow. -/
theorem putThen {put : α → Lower Unit} {next : Lower β}
    (hx : Maintains I (fun _ => True) (x >>= put)) (hnext : Maintains I Q next) :
    Maintains I Q (do put (← x); next) := by
  rw [← bind_assoc]
  exact hx.andThen fun _ => hnext

theorem imp (hx : Maintains I P x) (h : ∀ a, P a → P' a) : Maintains I P' x := by
  intro source d d' a hd hrun
  obtain ⟨hd', hPa⟩ := hx hd hrun
  exact ⟨hd', h a hPa⟩

theorem step (hx : Maintains I P x) : Maintains I (fun _ => True) x := hx.imp fun _ _ => trivial

theorem read {next : Source → Lower β} (h : ∀ source, Maintains I Q (next source)) :
    Maintains I Q (do next (← MonadReader.read)) :=
  fun source _ _ _ hd hrun => h source hd hrun

theorem inspect {look : Forest → α} (h : ∀ source d, I source d → P (look d.forest)) :
    Maintains I P (inspect look) := by
  rintro source d d' a hd ⟨⟩
  exact ⟨hd, h source d hd⟩

/-- A look at the forest whose result does not matter. -/
theorem look {look : Forest → α} : Maintains I (fun _ => True) (Lower.inspect look) :=
  .inspect fun _ _ _ => trivial

theorem mapM {make : γ → Lower β} {ts : List γ} (h : ∀ t ∈ ts, Maintains I Q (make t)) :
    Maintains I (fun ns => ∀ n ∈ ns, Q n) (ts.mapM make) := by
  induction ts with
  | nil => exact pure (by simp)
  | cons t ts ih =>
      rw [List.forall_mem_cons] at h
      rw [List.mapM_cons]
      refine h.1.bind fun n hn => (ih h.2).bind fun ns hns => pure ?_
      exact List.forall_mem_cons.mpr ⟨hn, hns⟩

theorem forM {step : γ → Lower Unit} {ts : List γ}
    (h : ∀ t ∈ ts, Maintains I (fun _ => True) (step t)) :
    Maintains I (fun _ => True) (ts.forM step) := by
  induction ts with
  | nil => exact pure trivial
  | cons t ts ih =>
      rw [List.forall_mem_cons] at h
      show Maintains I (fun _ => True) (step t >>= fun _ => ts.forM step)
      exact h.1.andThen fun _ => ih h.2

/-- A loop whose rounds may end it. -/
theorem forIn {round : γ → PUnit → Lower (ForInStep PUnit)} {ts : List γ}
    (h : ∀ t ∈ ts, Maintains I (fun _ => True) (round t ⟨⟩)) :
    Maintains I (fun _ => True) (forIn ts PUnit.unit round) := by
  induction ts with
  | nil => exact pure trivial
  | cons t ts ih =>
      rw [List.forall_mem_cons] at h
      rw [List.forIn_cons]
      refine h.1.andThen fun r => ?_
      cases r with
      | done => exact pure trivial
      | yield => exact ih h.2

theorem foldlM {step : β → γ → Lower β} {ts : List γ} {b : β} (hb : Q b)
    (h : ∀ b, Q b → ∀ t ∈ ts, Maintains I Q (step b t)) : Maintains I Q (ts.foldlM step b) := by
  induction ts generalizing b with
  | nil => exact pure hb
  | cons t ts ih =>
      rw [List.foldlM_cons]
      refine (h b hb t List.mem_cons_self).bind fun b' hb' => ih hb' fun b hb u hu => ?_
      exact h b hb u (List.mem_cons_of_mem t hu)

end Maintains

/-! ## What lowering keeps up -/

/-- Something that lowering keeps up, step by step: what holds of the draft, the kinds of the nodes that
may be made, and the nodes that may be changed. -/
structure Upkeep where
  holds : Source → Draft → Prop
  kinds : NodeKind → Prop
  owns : NodeId → Prop
  inner : ∀ {kind}, kind.isHost = false → kinds kind
  allocate : ∀ {source d kind} (range), holds source d → kinds kind →
    holds source { d with forest := (d.forest.allocate kind range).2 } ∧
      owns (d.forest.allocate kind range).1
  set : ∀ {source d owner t c r}, holds source d → owns owner → owns c →
    d.forest.setChild? owner t c = some r → holds source { d with forest := r.2 }
  push : ∀ {source d owner t c f}, holds source d → owns owner → owns c →
    d.forest.appendChild? owner t c = some f → holds source { d with forest := f }
  detach : ∀ {source d c}, holds source d → owns c →
    holds source { d with forest := d.forest.detach c }
  child : ∀ {source d n t c}, holds source d → owns n → c ∈ d.forest.children n t → owns c

namespace Upkeep

/-- Since a forest, lowering has added nodes that are no hosts and changed only these. -/
def gains (f : Forest) : Upkeep where
  holds _ d := f.Gains NodeKind.IsInner d.forest
  kinds k := k.isHost = false
  owns n := f.size ≤ n
  inner h := h
  allocate range hd hkind := ⟨hd.allocate hkind range, hd.size_le⟩
  set hd howner hc hset := hd.setChild? howner hc hset
  push hd howner hc happend := hd.appendChild? howner hc happend
  detach hd hc := hd.detach hc
  child hd hn hc := hd.child_new hn hc

/-- Something about the diagnostics, whatever nodes are made. -/
def ofDiagnostics (H : Source → Array Diagnostic → Prop) : Upkeep where
  holds source d := H source d.diagnostics
  kinds _ := True
  owns _ := True
  inner _ := trivial
  allocate _ hd _ := ⟨hd, trivial⟩
  set hd _ _ _ := hd
  push hd _ _ _ := hd
  detach hd _ := hd
  child _ _ _ := trivial

variable {U : Upkeep}

/-- A step that is kept up with, and whose result has a property. -/
abbrev Adds (U : Upkeep) (P : α → Prop) (x : Lower α) : Prop := Maintains U.holds P x

/-- A step whose result is a node that may be changed. -/
abbrev AddsNode (U : Upkeep) (x : Lower NodeId) : Prop := U.Adds U.owns x

abbrev AddsStep (U : Upkeep) (x : Lower α) : Prop := U.Adds (fun _ => True) x

end Upkeep

variable {U : Upkeep}

/-! ## Single steps -/

theorem adds_allocate {kind : NodeKind} (hkind : U.kinds kind) (span : Span) :
    U.AddsNode (allocate kind span) := by
  rintro source d d' a hd ⟨⟩
  exact U.allocate _ hd hkind

theorem adds_set (howner : U.owns owner) (t : Title) (hc : U.owns c) :
    U.AddsStep (set owner t c) := by
  intro source d d' a hd hrun
  obtain ⟨g, hg, rfl⟩ := exists_of_edit hrun
  obtain ⟨r, hset, rfl⟩ := Option.map_eq_some_iff.mp hg
  exact ⟨U.set hd howner hc hset, trivial⟩

theorem adds_push (howner : U.owns owner) (t : Title) (hc : U.owns c) :
    U.AddsStep (push owner t c) := by
  intro source d d' a hd hrun
  obtain ⟨g, hg, rfl⟩ := exists_of_edit hrun
  exact ⟨U.push hd howner hc hg, trivial⟩

theorem adds_detach (hc : U.owns c) : U.AddsStep (detach c) := by
  rintro source d d' a hd ⟨⟩
  exact ⟨U.detach hd hc, trivial⟩

theorem adds_token (t : Token) : U.AddsNode (token t) := adds_allocate (U.inner rfl) _

theorem adds_setToken (howner : U.owns owner) (t : Title) (tk : Token) :
    U.AddsStep (setToken owner t tk) :=
  (adds_token tk).bind fun _ hn => adds_set howner t hn

theorem adds_identifier (t : Token) : U.AddsNode (identifier t) :=
  .read fun _ => adds_allocate (U.inner rfl) _

theorem adds_literal (t : Token) : U.AddsNode (literal t) := by
  unfold literal
  split
  · exact .read fun _ => adds_allocate (U.inner rfl) _
  · exact .throw _

theorem adds_modifier (t : Token) : U.AddsNode (modifier t) := by
  refine .read fun _ => ?_
  split
  · exact adds_allocate (U.inner rfl) _
  · exact .throw _

/-! ## Comments -/

theorem adds_commentNodes (ts : List Trivia) (breaks threshold : Nat) :
    U.Adds (fun r => ∀ n ∈ r.1, U.owns n) (commentNodes breaks threshold ts) := by
  induction ts generalizing breaks threshold with
  | nil => exact .pure (by simp)
  | cons t ts ih =>
      rw [commentNodes]
      split
      case h_1 kind _ =>
        have hnext (blank : List NodeId) (hblank : ∀ n ∈ blank, U.owns n) :
            U.Adds (fun r => ∀ n ∈ r.1, U.owns n) (do
              let comment ← allocate (commentNode kind t.text) t.span
              let found ← commentNodes 0 2 ts
              return (blank ++ comment :: found.1, found.2)) := by
          refine (adds_allocate (U.inner rfl) _).bind fun comment hcomment => ?_
          refine (ih 0 2).bind fun r hr => .pure ?_
          simpa [or_imp, forall_and, hcomment] using ⟨hblank, hr⟩
        dsimp only
        split
        · exact (adds_allocate (U.inner rfl) _).bind fun n hn => hnext [n] (by simpa using hn)
        · exact hnext [] (by simp)
      case h_2 => exact ih _ _

theorem adds_attachTrailing (howner : U.owns owner) (trivia : List Trivia) :
    U.AddsStep (attachTrailing owner trivia) := by
  refine .read fun _ => (adds_commentNodes trivia 0 _).bind fun r hr => ?_
  refine (Maintains.forIn fun n hn => ?_).andThen fun _ => .pure trivial
  exact (adds_push howner _ (hr n hn)).andThen fun _ => .pure trivial

theorem adds_attachLeading {δ : Type} (howner : U.owns owner) (raw : RawTree δ) :
    U.AddsStep (attachLeading owner raw) := by
  refine .read fun _ => (adds_commentNodes _ 0 _).bind fun r hr => ?_
  have hpush (blank : List NodeId) (hblank : ∀ n ∈ blank, U.owns n) :
      U.AddsStep (do for n in r.1 ++ blank do push owner .leadingTrivia n) := by
    refine (Maintains.forIn fun n hn => ?_).andThen fun _ => .pure trivial
    have hnew : U.owns n := (List.mem_append.mp hn).elim (hr n) (hblank n)
    exact (adds_push howner _ hnew).andThen fun _ => .pure trivial
  dsimp only
  split
  · exact (adds_allocate (U.inner rfl) _).bind fun n hn => hpush [n] (by simpa using hn)
  · exact hpush [] (by simp)

end Lower

end DualSyntax
