import DualSyntax.Output
import DualSyntax.Proofs.Forest.Walks
import DualSyntax.Proofs.Text.Lines
import DualSyntax.Proofs.Writing.Printed
import Mathlib.Logic.Relation

/-!
# Layouts

The spans that are noted while a text is written, what steps leave of an output, and the nodes that writing
reaches.
-/

namespace DualSyntax

/-!
## Nested spans

The spans of nodes are noted when the nodes end, so what was written inside a node is noted right
before it.  A node may be written several times, and then its last span counts.  If every time that a
node is written it directly holds the same nodes, and another node is never written outside of it, then
the span of that node lies in its own.
-/

def Span.IsWithin (s t : Span) : Prop := t.start ≤ s.start ∧ s.stop ≤ t.stop

namespace Output

open Relation

/-- What was noted while nodes were written side by side, latest first.  Their spans hold what was
written inside; directly inside a node stand the nodes that `holds` says, or once more the node
itself. -/
inductive Noted (holds : NodeId → NodeId → Prop) :
    List (NodeId × Span) → (NodeId → Prop) → Prop where
  | nothing : Noted holds [] fun _ => False
  | append {before after tops tops'} : Noted holds before tops → Noted holds after tops' →
      Noted holds (after ++ before) fun c => tops c ∨ tops' c
  | node {inside tops} (n s) : Noted holds inside tops →
      (∀ c, tops c ↔ holds n c) ∨ (∀ c, tops c ↔ c = n) → (∀ p ∈ inside, p.2.IsWithin s) →
      Noted holds ((n, s) :: inside) (· = n)

def latest? (noted : List (NodeId × Span)) (n : NodeId) : Option Span :=
  (noted.find? (·.1 == n)).map (·.2)

section Latest

variable {noted more : List (NodeId × Span)} {n : NodeId} {s : Span}

theorem latest?_append (noted more : List (NodeId × Span)) (n : NodeId) :
    latest? (noted ++ more) n = (latest? noted n).or (latest? more n) := by
  rw [latest?, List.find?_append]
  cases h : noted.find? (·.1 == n) <;> simp [latest?, h]

theorem latest?_cons_self (noted : List (NodeId × Span)) (n : NodeId) (s : Span) :
    latest? ((n, s) :: noted) n = some s := by
  simp [latest?]

theorem latest?_cons_of_ne {m : NodeId} (h : m ≠ n) : latest? ((m, s) :: noted) n = latest? noted n := by
  simp [latest?, h]

theorem mem_of_latest? (h : latest? noted n = some s) : (n, s) ∈ noted := by
  obtain ⟨p, hp, rfl⟩ := Option.map_eq_some_iff.mp h
  have hn : p.1 = n := by simpa using List.find?_some hp
  rw [← hn]
  exact List.mem_of_find?_eq_some hp

theorem isSome_latest? (h : (n, s) ∈ noted) : (latest? noted n).isSome := by
  rw [latest?, Option.isSome_map, List.find?_isSome]
  exact ⟨(n, s), h, by simp⟩

end Latest

/-- A way down from `x` to `c` on which `a` is not left. -/
def Around (holds : NodeId → NodeId → Prop) (a x c : NodeId) : Prop :=
  ReflTransGen (fun x y => x ≠ a ∧ holds x y) x c

namespace Noted

variable {holds : NodeId → NodeId → Prop} {noted : List (NodeId × Span)} {tops : NodeId → Prop}
  {a c n : NodeId} {s : Span}

/-- The nodes that are written side by side are noted. -/
theorem isSome_of_top (h : Noted holds noted tops) (hn : tops n) : (latest? noted n).isSome := by
  induction h with
  | nothing => exact hn.elim
  | append _ _ ih ih' =>
      rw [latest?_append, Option.isSome_or]
      rcases hn with hn | hn
      · simp [ih hn]
      · simp [ih' hn]
  | node m s =>
      subst hn
      rw [latest?_cons_self]
      rfl

theorem isSome_of_holds (h : Noted holds noted tops) (ha : (latest? noted a).isSome)
    (hac : ReflTransGen holds a c) : (latest? noted c).isSome := by
  induction hac with
  | refl => exact ha
  | @tail b c _ hbc ih =>
      clear ha
      induction h with
      | nothing => cases ih
      | append _ _ ih₁ ih₂ =>
          rw [latest?_append, Option.isSome_or, Bool.or_eq_true] at ih ⊢
          exact ih.imp ih₂ ih₁
      | @node inside tops m s hinside htops hwithin ih₁ =>
          have hgoal : (latest? inside c).isSome → (latest? ((m, s) :: inside) c).isSome := by
            intro hc
            by_cases hm : m = c
            · rw [hm, latest?_cons_self]
              rfl
            · rwa [latest?_cons_of_ne hm]
          by_cases hm : m = b
          · subst hm
            rcases htops with htops | htops
            · exact hgoal (hinside.isSome_of_top ((htops c).mpr hbc))
            · exact hgoal (ih₁ (hinside.isSome_of_top ((htops m).mpr rfl)))
          · rw [latest?_cons_of_ne hm] at ih
            exact hgoal (ih₁ ih)

/-- Whatever is noted was reached from the nodes that are written side by side. -/
theorem exists_top (h : Noted holds noted tops) (hn : (latest? noted n).isSome) :
    ∃ x, tops x ∧ ReflTransGen holds x n := by
  induction h with
  | nothing => cases hn
  | append _ _ ih ih' =>
      rw [latest?_append, Option.isSome_or, Bool.or_eq_true] at hn
      rcases hn with hn | hn
      · obtain ⟨x, hx, hreach⟩ := ih' hn
        exact ⟨x, .inr hx, hreach⟩
      · obtain ⟨x, hx, hreach⟩ := ih hn
        exact ⟨x, .inl hx, hreach⟩
  | node m s _ htops _ ih =>
      refine ⟨m, rfl, ?_⟩
      by_cases hm : m = n
      · rw [hm]
      · rw [latest?_cons_of_ne hm] at hn
        obtain ⟨x, hx, hreach⟩ := ih hn
        rcases htops with htops | htops
        · exact .head ((htops x).mp hx) hreach
        · rwa [(htops x).mp hx] at hreach

/-- A node that is held by another and never written outside of it has its span there. -/
theorem within (h : Noted holds noted tops) (hne : a ≠ c) (hac : ReflTransGen holds a c)
    (houtside : ∀ x, tops x → ¬ Around holds a x c) (hs : latest? noted c = some s) :
    ∃ t, latest? noted a = some t ∧ s.IsWithin t := by
  induction h with
  | nothing => cases hs
  | @append before after tops tops' hbefore hafter ih ih' =>
      rw [latest?_append, Option.or_eq_some_iff] at hs
      rw [latest?_append]
      rcases hs with hs | ⟨hnone, hs⟩
      · obtain ⟨t, ht, hwithin⟩ := ih' (fun x hx => houtside x (.inr hx)) hs
        exact ⟨t, by rw [ht, Option.some_or], hwithin⟩
      · -- the node is not written again either, because it would hold the other one
        have ha : latest? after a = none := by
          rw [← Option.not_isSome_iff_eq_none]
          intro ha
          have hc := hafter.isSome_of_holds ha hac
          rw [hnone] at hc
          cases hc
        obtain ⟨t, ht, hwithin⟩ := ih (fun x hx => houtside x (.inl hx)) hs
        exact ⟨t, by rw [ha, Option.none_or, ht], hwithin⟩
  | @node inside tops n u hinside htops hwithin ih =>
      by_cases hna : n = a
      · subst hna
        rw [latest?_cons_of_ne hne] at hs
        exact ⟨u, latest?_cons_self _ _ _, hwithin _ (mem_of_latest? hs)⟩
      · have hnc : n ≠ c := by
          rintro rfl
          exact houtside n rfl .refl
        rw [latest?_cons_of_ne hnc] at hs
        rw [latest?_cons_of_ne hna]
        refine ih (fun x hx hround => ?_) hs
        rcases htops with htops | htops
        · exact houtside n rfl (.head ⟨hna, (htops x).mp hx⟩ hround)
        · rw [(htops x).mp hx] at hround
          exact houtside n rfl hround

end Noted

end Output

/-!
## Layouts

The steps of the writers are laid out in a regular way: a piece of text does not end with more than one
space, a comment ends its line, indentation is taken back, and what is written of a node ends where it
began.  So the text of a node lies where its span says: the start of the span may lie in front of the
text, in indentation that is still to be written or behind a space that is taken off again, but once the
node has printed something, neither end of the span moves any more (`Layout.run`).
-/

section Steps

open Text

namespace Output

/-! ### The ends of prefixes -/

/-- Whether an offset is the end of a prefix of a text that is given in reverse. -/
def IsEnd (reversed : List Char) (s : Nat) : Prop := ∃ u, u <:+ reversed ∧ byteLength u = s

section Ends

variable {r r' cs : List Char} {s : Nat}

theorem IsEnd.self (r : List Char) : IsEnd r (byteLength r) := ⟨r, List.suffix_refl r, rfl⟩

theorem IsEnd.mono (h : IsEnd r s) (hr : r <:+ r') : IsEnd r' s := by
  obtain ⟨u, hu, hs⟩ := h
  exact ⟨u, hu.trans hr, hs⟩

theorem byteLength_reverse (cs : List Char) : byteLength cs.reverse = byteLength cs := by
  induction cs with
  | nil => rfl
  | cons c cs ih => rw [List.reverse_cons, byteLength_append, ih, byteLength, byteLength, byteLength]; omega

theorem IsEnd.le (h : IsEnd r s) : s ≤ byteLength r := by
  obtain ⟨u, ⟨v, rfl⟩, rfl⟩ := h
  rw [byteLength_append]
  exact Nat.le_add_left _ _

theorem IsEnd.isBoundary (h : IsEnd r s) : IsBoundary r.reverse s := by
  obtain ⟨u, ⟨v, rfl⟩, rfl⟩ := h
  exact ⟨u.reverse, v.reverse, by rw [List.reverse_append], byteLength_reverse u⟩

/-- Between characters of one byte, every offset is the end of a prefix. -/
theorem isEnd_narrow (hcs : ∀ c ∈ cs, c.utf8Size = 1) (hle : byteLength r ≤ s)
    (hlt : s ≤ byteLength r + byteLength cs) : IsEnd (cs ++ r) s := by
  induction cs with
  | nil =>
      obtain rfl : s = byteLength r := Nat.le_antisymm (by simpa [byteLength] using hlt) hle
      exact .self r
  | cons c cs ih =>
      rw [List.forall_mem_cons] at hcs
      rw [byteLength, hcs.1] at hlt
      by_cases hs : s ≤ byteLength r + byteLength cs
      · exact (ih hcs.2 hs).mono (List.suffix_cons c (cs ++ r))
      · have heq : s = byteLength (c :: (cs ++ r)) := by
          rw [byteLength, byteLength_append, hcs.1]
          omega
        rw [heq]
        exact .self (c :: (cs ++ r))

theorem suffix_dropWhile_append (p : Char → Bool) (cs r : List Char) :
    r.dropWhile p <:+ (cs ++ r).dropWhile p := by
  rw [List.dropWhile_append]
  split
  · exact List.suffix_refl _
  · exact (List.dropWhile_suffix p).trans (List.suffix_append _ _)

end Ends

/-! ### Steady outputs -/

/-- The text so far without the spaces at its end, in reverse. -/
def kept (o : Output) : List Char := o.reversed.dropWhile (· == ' ')

/-- The text so far without the white space at its end, in reverse. -/
def solid (o : Output) : List Char := o.reversed.dropWhile isBlank

/-- An output with the right number of bytes, characters of one byte as its indentation, and no space at
the end of its text, or a single one on a line that has begun. -/
structure Steady (o : Output) : Prop where
  length : o.length = byteLength o.reversed
  unit : ∀ c ∈ o.unit, c.utf8Size = 1
  last : o.reversed = o.kept ∨ o.atLineStart = false ∧ o.reversed = ' ' :: o.kept

/-- The room for the start of a node behind the text without its spaces: the indentation that is still
to be written, or the space at the end. -/
def room (o : Output) (level : Nat) : Nat :=
  if o.atLineStart then byteLength o.unit * level else byteLength o.reversed - byteLength o.kept

/-- A place where a node may have started at a level of indentation. -/
def Anchors (o : Output) (level s : Nat) : Prop :=
  IsEnd o.kept s ∨ byteLength o.kept ≤ s ∧ s ≤ byteLength o.kept + o.room level

def place (o : Output) : Nat :=
  o.length + if o.atLineStart then byteLength o.unit * o.level else 0

section Steady

variable {o o' : Output} {level s : Nat}

theorem solid_suffix_kept (o : Output) : o.solid <:+ o.kept := by
  have hsub : o.solid = o.kept.dropWhile isBlank := by
    rw [solid, kept]
    induction o.reversed with
    | nil => rfl
    | cons c cs ih =>
        by_cases hc : c = ' '
        · subst hc
          rw [List.dropWhile_cons_of_pos (by decide), List.dropWhile_cons_of_pos (by decide), ih]
        · rw [List.dropWhile_cons_of_neg (p := (· == ' ')) (by simpa using hc)]
  rw [hsub]
  exact List.dropWhile_suffix _

theorem kept_suffix (o : Output) : o.kept <:+ o.reversed := List.dropWhile_suffix _

theorem Steady.trimmedLength (h : o.Steady) : o.trimmedLength = byteLength o.solid := by
  have hsplit := congrArg byteLength (List.takeWhile_append_dropWhile (p := isBlank) (l := o.reversed))
  rw [byteLength_append] at hsplit
  rw [Output.trimmedLength, h.length, solid]
  omega

theorem Steady.reversed_of_start (h : o.Steady) (hstart : o.atLineStart = true) :
    o.reversed = o.kept := by
  rcases h.last with hlast | hlast
  · exact hlast
  · rw [hstart] at hlast
    cases hlast.1

theorem byteLength_space (cs : List Char) : byteLength (' ' :: cs) = byteLength cs + 1 := by
  rw [byteLength, Nat.add_comm]
  rfl

theorem kept_le (o : Output) : byteLength o.kept ≤ byteLength o.reversed :=
  ((IsEnd.self o.kept).mono o.kept_suffix).le

/-- Behind the text without its spaces there is at most one offset, the end of the text. -/
theorem Steady.isEnd (ho : o.Steady) (hle : byteLength o.kept ≤ s)
    (hlt : s ≤ byteLength o.reversed) : IsEnd o.reversed s := by
  have hspaces : ∃ cs, o.reversed = cs ++ o.kept ∧ ∀ c ∈ cs, c.utf8Size = 1 := by
    rcases ho.last with hlast | ⟨-, hlast⟩
    · exact ⟨[], hlast, by simp⟩
    · exact ⟨[' '], hlast, fun c hc => by rw [List.mem_singleton.mp hc]; rfl⟩
  obtain ⟨cs, hcs, hnarrow⟩ := hspaces
  rw [hcs, byteLength_append] at hlt
  rw [hcs]
  exact isEnd_narrow hnarrow hle (by omega)

/-- On a line that has begun, the room is that of the space at its end. -/
theorem kept_add_room (hline : o.atLineStart = false) (level : Nat) :
    byteLength o.kept + o.room level = byteLength o.reversed := by
  have hle := o.kept_le
  rw [room, if_neg (by simp [hline])]
  omega

theorem room_start (hline : o.atLineStart = true) (level : Nat) :
    o.room level = byteLength o.unit * level :=
  if_pos hline

/-- A node starts at a place where it may have started. -/
theorem Steady.anchors_place (h : o.Steady) : o.Anchors o.level o.place := by
  have hkept := o.kept_le
  rw [Anchors, place, h.length]
  refine .inr ⟨by omega, ?_⟩
  cases hline : o.atLineStart with
  | true =>
      rw [if_pos rfl, room_start hline, h.reversed_of_start hline]
  | false =>
      rw [kept_add_room hline]
      simp

/-- No node starts in front of those it stands in. -/
theorem Anchors.le_place (h : o.Anchors level s) (ho : o.Steady) (hlevel : level ≤ o.level) :
    s ≤ o.place := by
  have hkept := o.kept_le
  rw [place, ho.length]
  rcases h with h | ⟨-, h⟩
  · have hs := h.le
    omega
  · cases hline : o.atLineStart with
    | true =>
        have hmul := Nat.mul_le_mul_left (byteLength o.unit) hlevel
        rw [room_start hline] at h
        rw [if_pos rfl]
        omega
    | false =>
        rw [kept_add_room hline] at h
        omega

/-- Without indentation every place is the end of a prefix. -/
theorem Anchors.isEnd (h : o.Anchors 0 s) (ho : o.Steady) : IsEnd o.reversed s := by
  rcases h with h | ⟨hle, h⟩
  · exact h.mono o.kept_suffix
  · refine ho.isEnd hle ?_
    cases hline : o.atLineStart with
    | true =>
        have hkept := o.kept_le
        rw [room_start hline] at h
        omega
    | false => rwa [kept_add_room hline] at h

end Steady

/-! ### Single steps -/

/-- What steps leave of an output, and what they note. -/
structure Wrote (o o' : Output) (noted : List (NodeId × Span)) : Prop where
  steady : o'.Steady
  unit : o'.unit = o.unit
  level : o'.level = o.level
  opened : o'.opened = o.opened
  solid : o.solid <:+ o'.solid
  anchors : ∀ level s, level ≤ o.level → o.Anchors level s → o'.Anchors level s
  spans : o'.spans = noted ++ o.spans
  ends : ∀ p ∈ noted, p.2.start ≤ p.2.stop ∧ IsEnd o'.solid p.2.start ∧ IsEnd o'.solid p.2.stop
  behind : ∀ level s, level ≤ o.level → o.Anchors level s → ∀ p ∈ noted, s ≤ p.2.start

/-- Whether a text that is given in reverse has at most one space at its end. -/
def EndsNeat (cs : List Char) : Prop :=
  cs = cs.dropWhile (· == ' ') ∨ cs = ' ' :: cs.dropWhile (· == ' ')

instance (cs : List Char) : Decidable (EndsNeat cs) := inferInstanceAs (Decidable (_ ∨ _))

/-- Whether characters may stand as a piece of text: one of them can be seen, and there is at most one
space at the end. -/
structure IsPiece (cs : List Char) : Prop where
  visible : ∃ c ∈ cs, isBlank c = false
  neat : EndsNeat cs.reverse

instance (cs : List Char) : Decidable (IsPiece cs) :=
  decidable_of_iff (cs.any (!isBlank ·) = true ∧ EndsNeat cs.reverse)
    ⟨fun h => ⟨by simpa using h.1, h.2⟩, fun h => ⟨by simpa using h.visible, h.neat⟩⟩

/-- Whether steps print any text. -/
def PrintsText (steps : List OutputStep) : Prop :=
  ∃ s, .text s ∈ steps ∧ ∃ c ∈ s.toList, isBlank c = false

section Steps

variable {o : Output} {cs : List Char} {s t : String}

theorem ne_space_of_not_isBlank {c : Char} (h : isBlank c = false) : c ≠ ' ' := by
  rintro rfl
  cases h

/-- The characters that a piece adds: after the indentation, if it is the first on its line. -/
theorem push_eq (o : Output) (h : s.toList ≠ []) :
    ∃ indent, (∀ c ∈ indent, c ∈ o.unit) ∧
      (o.atLineStart = true → byteLength indent = byteLength o.unit * o.level) ∧
      (o.atLineStart = false → indent = []) ∧
      o.push s = { o.add (indent ++ s.toList) with atLineStart := false } := by
  have hne : s.isEmpty = false := by
    rw [← Bool.not_eq_true, String.isEmpty_iff]
    rintro rfl
    exact h rfl
  cases hstart : o.atLineStart with
  | true =>
      refine ⟨(List.replicate o.level o.unit).flatten, ?_, fun _ => ?_, by simp, ?_⟩
      · intro c hc
        obtain ⟨cs, hcs, hc⟩ := List.mem_flatten.mp hc
        rwa [List.eq_of_mem_replicate hcs] at hc
      · induction o.level with
        | zero => rfl
        | succ n ih =>
            rw [List.replicate_succ, List.flatten_cons, byteLength_append, ih, Nat.mul_succ,
              Nat.add_comm]
      · simp [push, addIndent, add, hstart, hne, byteLength_append, Nat.add_assoc]
  | false =>
      refine ⟨[], by simp, by simp, fun _ => rfl, ?_⟩
      simp [push, add, hstart]

/-- An output to which characters are added behind indentation: all places are ends of prefixes of what
is solid then. -/
theorem isEnd_pushed (ho : o.Steady) {r : List Char} {indent : List Char}
    (hunit : ∀ c ∈ indent, c ∈ o.unit)
    (hstart : o.atLineStart = true → byteLength indent = byteLength o.unit * o.level)
    (hr : indent.reverse ++ o.reversed <:+ r) {level place : Nat} (hlevel : level ≤ o.level)
    (h : o.Anchors level place) : IsEnd r place := by
  rcases h with h | ⟨hle, h⟩
  · exact h.mono (o.kept_suffix.trans ((List.suffix_append _ _).trans hr))
  · cases hline : o.atLineStart with
    | true =>
        rw [ho.reversed_of_start hline] at hr
        refine (isEnd_narrow (fun c hc => ?_) hle ?_).mono hr
        · exact ho.unit c (hunit c (List.mem_reverse.mp hc))
        · have hmul := Nat.mul_le_mul_left (byteLength o.unit) hlevel
          rw [room_start hline] at h
          rw [byteLength_reverse, hstart hline]
          omega
    | false =>
        rw [kept_add_room hline] at h
        exact (ho.isEnd hle h).mono ((List.suffix_append _ _).trans hr)

/-- What is solid of a text to which a piece is added, in reverse. -/
theorem suffix_solid_piece {cs r : List Char} (h : ∃ c ∈ cs, isBlank c = false) :
    r <:+ (cs ++ r).dropWhile isBlank := by
  obtain ⟨c, hmem, hc⟩ := h
  obtain ⟨front, back, rfl⟩ := List.append_of_mem hmem
  have hsolid : (c :: (back ++ r)).dropWhile isBlank = c :: (back ++ r) :=
    List.dropWhile_cons_of_neg (by simp [hc])
  have hsuffix := suffix_dropWhile_append isBlank front (c :: (back ++ r))
  rw [hsolid] at hsuffix
  rw [List.append_assoc, List.cons_append]
  exact List.IsSuffix.trans ⟨c :: back, rfl⟩ hsuffix

/-- A text has as many spaces at its end as the piece that was added last. -/
theorem dropWhile_piece {cs r : List Char} (h : ∃ c ∈ cs, isBlank c = false) :
    (cs ++ r).dropWhile (· == ' ') = cs.dropWhile (· == ' ') ++ r := by
  obtain ⟨c, hmem, hc⟩ := h
  rw [List.dropWhile_append, if_neg]
  intro hempty
  have hsplit := List.takeWhile_append_dropWhile (p := (· == ' ')) (l := cs)
  rw [List.isEmpty_iff.mp hempty, List.append_nil] at hsplit
  rw [← hsplit] at hmem
  exact ne_space_of_not_isBlank hc (by simpa using List.all_eq_true.mp List.all_takeWhile c hmem)

theorem wrote_push (ho : o.Steady) (hs : IsPiece s.toList) :
    Wrote o (o.push s) [] ∧
      ∀ level place, level ≤ o.level → o.Anchors level place → IsEnd (o.push s).solid place := by
  obtain ⟨hvisible, hneat⟩ := hs
  obtain ⟨indent, hunit, hstart, -, hpush⟩ := push_eq o (s := s) (by
    rintro hnil
    obtain ⟨c, hc, -⟩ := hnil ▸ hvisible
    cases hc)
  have hvisible : ∃ c ∈ s.toList.reverse, isBlank c = false := by simpa using hvisible
  have hreversed : (o.push s).reversed = s.toList.reverse ++ (indent.reverse ++ o.reversed) := by
    rw [hpush]
    simp [add]
  have hsuffix : indent.reverse ++ o.reversed <:+ (o.push s).solid := by
    rw [Output.solid, hreversed]
    exact suffix_solid_piece hvisible
  have hend : ∀ level place, level ≤ o.level → o.Anchors level place →
      IsEnd (o.push s).solid place := fun level place hlevel h =>
    isEnd_pushed ho hunit hstart hsuffix hlevel h
  refine ⟨⟨⟨?_, ?_, ?_⟩, ?_, ?_, ?_, ?_, ?_, ?_, by simp, by simp⟩, hend⟩
  · rw [hpush]
    simp only [add, List.reverse_append, List.append_assoc, byteLength_append, byteLength_reverse,
      ho.length]
    omega
  · rw [hpush]
    exact ho.unit
  · have hkept : (o.push s).kept =
        s.toList.reverse.dropWhile (· == ' ') ++ (indent.reverse ++ o.reversed) := by
      rw [Output.kept, hreversed]
      exact dropWhile_piece hvisible
    rw [hkept, hreversed]
    rcases hneat with hneat | hneat
    · exact .inl (congrArg (· ++ _) hneat)
    · exact .inr ⟨by rw [hpush], congrArg (· ++ _) hneat⟩
  · rw [hpush]; rfl
  · rw [hpush]; rfl
  · rw [hpush]; rfl
  · exact (List.dropWhile_suffix _).trans ((List.suffix_append _ _).trans hsuffix)
  · intro level place hlevel h
    exact .inl ((hend level place hlevel h).mono (solid_suffix_kept _))
  · rw [hpush]; rfl

theorem push_push (o : Output) (hs : s.toList ≠ []) : (o.push s).push t = o.push (s ++ t) := by
  have hne : s.isEmpty = false := by
    rw [← Bool.not_eq_true, String.isEmpty_iff]
    rintro rfl
    exact hs rfl
  have hne' : (s ++ t).isEmpty = false := by
    rw [← Bool.not_eq_true, String.isEmpty_iff, ← String.toList_eq_nil_iff, String.toList_append]
    simp [hs]
  cases hstart : o.atLineStart <;>
    simp [push, addIndent, add, hstart, hne, hne', byteLength_append, Nat.add_assoc]

theorem wrote_space (ho : o.Steady) : Wrote o o.space [] := by
  unfold Output.space
  split
  · exact ⟨ho, rfl, rfl, rfl, List.suffix_refl _, fun _ _ _ h => h, rfl, by simp, by simp⟩
  · next hcond =>
      simp only [Bool.or_eq_true, beq_iff_eq, not_or, Bool.not_eq_true] at hcond
      obtain ⟨hstart, hhead⟩ := hcond
      have hkept : o.reversed = o.kept := by
        rcases ho.last with hlast | ⟨-, hlast⟩
        · exact hlast
        · exact absurd (by rw [hlast]; rfl) hhead
      have hkept' : (o.add [' ']).kept = o.kept := by
        rw [kept, add, List.reverse_singleton, List.singleton_append,
          List.dropWhile_cons_of_pos (by decide), ← kept]
      have hsolid : (o.add [' ']).solid = o.solid := by
        rw [solid, add, List.reverse_singleton, List.singleton_append,
          List.dropWhile_cons_of_pos (by decide), ← solid]
      refine ⟨⟨?_, ho.unit, .inr ⟨hstart, ?_⟩⟩, rfl, rfl, rfl, ?_, ?_, rfl, by simp, by simp⟩
      · simp [add, ho.length, byteLength]
        omega
      · rw [hkept', ← hkept]
        rfl
      · rw [hsolid]
      · intro level s _ h
        have hroom := kept_add_room (o := o.add [' ']) hstart level
        have hlength : byteLength (o.add [' ']).reversed = byteLength o.reversed + 1 :=
          byteLength_space _
        rw [hkept', hlength] at hroom
        rw [Anchors, hkept', hroom]
        rw [Anchors, kept_add_room hstart] at h
        exact h.imp_right fun h => ⟨h.1, Nat.le_succ_of_le h.2⟩

/-- The characters that the end of a line takes off are spaces, of one byte each. -/
theorem byteLength_kept (o : Output) :
    byteLength o.kept + (o.reversed.length - o.kept.length) = byteLength o.reversed := by
  rw [kept]
  induction o.reversed with
  | nil => rfl
  | cons c cs ih =>
      by_cases hc : c = ' '
      · subst hc
        have hlength := (List.dropWhile_suffix (p := (· == ' ')) (l := cs)).length_le
        rw [List.dropWhile_cons_of_pos (by decide), byteLength_space, List.length_cons]
        omega
      · rw [List.dropWhile_cons_of_neg (by simpa using hc)]
        omega

theorem byteLength_feed (cs : List Char) : byteLength ('\n' :: cs) = byteLength cs + 1 := by
  rw [byteLength, Nat.add_comm]
  rfl

/-- A line is ended after whatever stands on it. -/
theorem steady_newLine (hlength : o.length = byteLength o.reversed)
    (hunit : ∀ c ∈ o.unit, c.utf8Size = 1) : o.newLine.Steady where
  length := by
    have hkept := byteLength_kept o
    have hnew : byteLength o.newLine.reversed = byteLength o.kept + 1 := byteLength_feed o.kept
    have hle := o.kept_suffix.length_le
    rw [hnew]
    change o.length - (o.reversed.length - o.kept.length) + 1 = _
    omega
  unit := hunit
  last := .inl (List.dropWhile_cons_of_neg (by decide)).symm

theorem kept_newLine (o : Output) : o.newLine.kept = '\n' :: o.kept :=
  List.dropWhile_cons_of_neg (by decide)

theorem solid_newLine (o : Output) : o.newLine.solid = o.solid := by
  have hdrop : o.kept.dropWhile isBlank = o.solid := by
    rw [solid, kept]
    induction o.reversed with
    | nil => rfl
    | cons c cs ih =>
        by_cases hc : c = ' '
        · subst hc
          rw [List.dropWhile_cons_of_pos (by decide), List.dropWhile_cons_of_pos (by decide), ih]
        · rw [List.dropWhile_cons_of_neg (p := (· == ' ')) (by simpa using hc)]
  rw [← hdrop]
  exact List.dropWhile_cons_of_pos (by decide)

theorem wrote_newLine (ho : o.Steady) : Wrote o o.newLine [] := by
  refine ⟨steady_newLine ho.length ho.unit, rfl, rfl, rfl, ?_, ?_, rfl, by simp, by simp⟩
  · rw [solid_newLine]
  · intro level s _ h
    rw [Anchors, kept_newLine, byteLength_feed]
    rcases h with h | ⟨hle, h⟩
    · exact .inl (h.mono (List.suffix_cons _ _))
    · by_cases hs : s = byteLength o.kept
      · rw [hs]
        exact .inl ((IsEnd.self _).mono (List.suffix_cons _ _))
      · refine .inr ⟨by omega, ?_⟩
        have hroom : o.newLine.room level = byteLength o.unit * level := room_start rfl level
        rw [hroom]
        cases hline : o.atLineStart with
        | true =>
            rw [room_start hline] at h
            omega
        | false =>
            rw [kept_add_room hline] at h
            have hlast : byteLength o.reversed ≤ byteLength o.kept + 1 := by
              rcases ho.last with hlast | ⟨-, hlast⟩
              · rw [← hlast]
                exact Nat.le_succ _
              · rw [hlast, byteLength_space]
            omega

theorem wrote_comment (ho : o.Steady) (hs : ∃ c ∈ s.toList, isBlank c = false) :
    Wrote o (o.push s).newLine [] ∧ ∀ level place, level ≤ o.level → o.Anchors level place →
      IsEnd (o.push s).newLine.solid place := by
  obtain ⟨c, hmem, hc⟩ := hs
  obtain ⟨front, back, hcs⟩ := List.append_of_mem hmem
  obtain ⟨indent, hunit, hstart, -, hpush⟩ := push_eq o (s := s) (by rw [hcs]; simp)
  have hreversed : (o.push s).reversed =
      back.reverse ++ c :: (front.reverse ++ (indent.reverse ++ o.reversed)) := by
    rw [hpush]
    simp [add, hcs]
  have hsuffix : indent.reverse ++ o.reversed <:+ (o.push s).newLine.solid := by
    have hdrop := suffix_dropWhile_append isBlank back.reverse
      (c :: (front.reverse ++ (indent.reverse ++ o.reversed)))
    rw [← hreversed, List.dropWhile_cons_of_neg (by simp [hc])] at hdrop
    rw [solid_newLine]
    refine (List.suffix_append front.reverse _).trans ((List.suffix_cons c _).trans hdrop)
  have hend : ∀ level place, level ≤ o.level → o.Anchors level place →
      IsEnd (o.push s).newLine.solid place := fun level place hlevel h =>
    isEnd_pushed ho hunit hstart hsuffix hlevel h
  have hlength : (o.push s).length = byteLength (o.push s).reversed := by
    rw [hpush]
    simp only [add, List.reverse_append, List.append_assoc, byteLength_append, byteLength_reverse,
      ho.length]
    omega
  have hunit' : (o.push s).unit = o.unit := by rw [hpush]; rfl
  refine ⟨⟨steady_newLine hlength (by rw [hunit']; exact ho.unit), ?_, ?_, ?_, ?_, ?_, ?_, by simp,
    by simp⟩, hend⟩
  · exact hunit'
  · rw [hpush]; rfl
  · rw [hpush]; rfl
  · exact (List.dropWhile_suffix _).trans ((List.suffix_append _ _).trans hsuffix)
  · intro level place hlevel h
    exact .inl ((hend level place hlevel h).mono (solid_suffix_kept _))
  · rw [hpush]; rfl

end Steps

/-! ### Layouts -/

/-- Steps that are laid out in a regular way, and the nodes that they write side by side.  Directly
inside a node stand the nodes that `holds` says, or once more the node itself; and something is printed
there. -/
inductive Layout (holds : NodeId → NodeId → Prop) : List OutputStep → (NodeId → Prop) → Prop where
  | nothing : Layout holds [] fun _ => False
  | text {s} : IsPiece s.toList → Layout holds [.text s] fun _ => False
  | pair {s t} : s.toList ≠ [] → IsPiece (s.toList ++ t.toList) →
      Layout holds [.text s, .text t] fun _ => False
  | comment {s} : (∃ c ∈ s.toList, isBlank c = false) →
      Layout holds [.text s, .newLine] fun _ => False
  | space : Layout holds [.space] fun _ => False
  | newLine : Layout holds [.newLine] fun _ => False
  | indented {body tops} : Layout holds body tops →
      Layout holds (.indent :: (body ++ [.unindent])) tops
  | append {first second tops tops'} : Layout holds first tops → Layout holds second tops' →
      Layout holds (first ++ second) fun c => tops c ∨ tops' c
  | node {body tops} (n) : Layout holds body tops →
      (∀ c, tops c ↔ holds n c) ∨ (∀ c, tops c ↔ c = n) → PrintsText body →
      Layout holds (.start n :: (body ++ [.stop n])) (· = n)

/-- What was noted in steps that are laid out, and where the starts of nodes around them are. -/
structure Laid (holds : NodeId → NodeId → Prop) (steps : List OutputStep) (tops : NodeId → Prop)
    (o o' : Output) (noted : List (NodeId × Span)) : Prop where
  run : o.run? steps = some o'
  wrote : Wrote o o' noted
  noted : Noted holds noted tops
  prints : PrintsText steps → ∀ level s, level ≤ o.level → o.Anchors level s → IsEnd o'.solid s

section Laid

variable {holds : NodeId → NodeId → Prop} {steps body : List OutputStep} {tops : NodeId → Prop}
  {o o₁ o₂ : Output} {noted noted' : List (NodeId × Span)}

theorem run?_singleton (o : Output) (step : OutputStep) : o.run? [step] = o.step? step := by
  cases h : o.step? step <;> simp [run?, h]

theorem Wrote.trans (h : Wrote o o₁ noted) (h' : Wrote o₁ o₂ noted') :
    Wrote o o₂ (noted' ++ noted) where
  steady := h'.steady
  unit := h'.unit.trans h.unit
  level := h'.level.trans h.level
  opened := h'.opened.trans h.opened
  solid := h.solid.trans h'.solid
  anchors level s hlevel ha :=
    h'.anchors level s (by rwa [h.level]) (h.anchors level s hlevel ha)
  spans := by rw [h'.spans, h.spans, List.append_assoc]
  ends p hp := by
    rcases List.mem_append.mp hp with hp | hp
    · exact h'.ends p hp
    · obtain ⟨hle, hstart, hstop⟩ := h.ends p hp
      exact ⟨hle, hstart.mono h'.solid, hstop.mono h'.solid⟩
  behind level s hlevel ha p hp := by
    rcases List.mem_append.mp hp with hp | hp
    · exact h'.behind level s (by rwa [h.level]) (h.anchors level s hlevel ha) p hp
    · exact h.behind level s hlevel ha p hp

/-- An output between the start and the end of a node is as it was, but for the node. -/
theorem Steady.startNode (ho : o.Steady) (n : NodeId) : (o.startNode n).Steady :=
  ⟨ho.length, ho.unit, ho.last⟩

theorem startNode_opened (o : Output) (n : NodeId) :
    (o.startNode n).opened = (n, o.place) :: o.opened := by
  simp only [startNode, place]

/-- The end of a node that was opened at a place is noted. -/
theorem endNode?_eq {n : NodeId} {start : Nat} {rest : List (NodeId × Nat)}
    (h : o.opened = (n, start) :: rest) :
    o.endNode? n =
      some { o with opened := rest, spans := (n, ⟨start, max start o.trimmedLength⟩) :: o.spans } := by
  rw [endNode?, h]
  exact if_pos rfl

/-- The span of a node that started in one output and ends in another. -/
def spanFrom (o o₁ : Output) : Span := ⟨o.place, max o.place (byteLength o₁.solid)⟩

/-- The output behind a node that started in another output. -/
def ended (o₁ o : Output) (n : NodeId) : Output :=
  { o₁ with opened := o.opened, spans := (n, o.spanFrom o₁) :: o₁.spans }

theorem Laid.node (ho : o.Steady) {n : NodeId} (h : Laid holds body tops (o.startNode n) o₁ noted)
    (htops : (∀ c, tops c ↔ holds n c) ∨ ∀ c, tops c ↔ c = n) :
    o.run? (.start n :: (body ++ [.stop n])) = some (o₁.ended o n) ∧
      Noted holds ((n, o.spanFrom o₁) :: noted) (· = n) := by
  have hstop := endNode?_eq (h.wrote.opened.trans (startNode_opened o n))
  rw [h.wrote.steady.trimmedLength] at hstop
  refine ⟨?_, .node n _ h.noted htops fun p hp => ⟨?_, ?_⟩⟩
  · rw [run?_cons, step?, Option.bind_some, run?_append, h.run, Option.bind_some, run?_singleton, step?,
      hstop]
    rfl
  · exact h.wrote.behind o.level o.place (Nat.le_refl _) ho.anchors_place p hp
  · exact Nat.le_trans (h.wrote.ends p hp).2.2.le (Nat.le_max_right _ _)

theorem printsText_append {first second : List OutputStep} :
    PrintsText (first ++ second) ↔ PrintsText first ∨ PrintsText second := by
  simp only [PrintsText, List.mem_append]
  exact ⟨fun ⟨s, hs, hc⟩ => hs.imp (fun h => ⟨s, h, hc⟩) fun h => ⟨s, h, hc⟩,
    fun h => h.elim (fun ⟨s, hs, hc⟩ => ⟨s, .inl hs, hc⟩) fun ⟨s, hs, hc⟩ => ⟨s, .inr hs, hc⟩⟩

theorem printsText_node {n : NodeId} :
    PrintsText (.start n :: (body ++ [.stop n])) ↔ PrintsText body := by
  simp [PrintsText]

theorem printsText_indented : PrintsText (.indent :: (body ++ [.unindent])) ↔ PrintsText body := by
  simp [PrintsText]

theorem Laid.indented (h : Laid holds body tops o.indent o₁ noted) :
    Laid holds (.indent :: (body ++ [.unindent])) tops o o₁.unindent noted where
  run := by
    rw [run?_cons, step?, Option.bind_some, run?_append, h.run, Option.bind_some, run?_singleton, step?]
  wrote :=
    { steady := ⟨h.wrote.steady.length, h.wrote.steady.unit, h.wrote.steady.last⟩
      unit := h.wrote.unit
      level := Nat.sub_eq_of_eq_add h.wrote.level
      opened := h.wrote.opened
      solid := h.wrote.solid
      anchors := fun level s hlevel ha => h.wrote.anchors level s (Nat.le_succ_of_le hlevel) ha
      spans := h.wrote.spans
      ends := h.wrote.ends
      behind := fun level s hlevel ha => h.wrote.behind level s (Nat.le_succ_of_le hlevel) ha }
  noted := h.noted
  prints := fun hprints level s hlevel ha =>
    h.prints (printsText_indented.mp hprints) level s (Nat.le_succ_of_le hlevel) ha

theorem Laid.append {tops' : NodeId → Prop} {more : List OutputStep}
    (h : Laid holds steps tops o o₁ noted) (h' : Laid holds more tops' o₁ o₂ noted') :
    Laid holds (steps ++ more) (fun c => tops c ∨ tops' c) o o₂ (noted' ++ noted) where
  run := by rw [run?_append, h.run, Option.bind_some, h'.run]
  wrote := h.wrote.trans h'.wrote
  noted := h.noted.append h'.noted
  prints hprints level s hlevel ha := by
    rcases printsText_append.mp hprints with hprints | hprints
    · exact (h.prints hprints level s hlevel ha).mono h'.wrote.solid
    · exact h'.prints hprints level s (by rwa [h.wrote.level]) (h.wrote.anchors level s hlevel ha)

theorem Laid.started (ho : o.Steady) {n : NodeId} (h : Laid holds body tops (o.startNode n) o₁ noted)
    (htops : (∀ c, tops c ↔ holds n c) ∨ ∀ c, tops c ↔ c = n) (hprints : PrintsText body) :
    Laid holds (.start n :: (body ++ [.stop n])) (· = n) o (o₁.ended o n)
      ((n, o.spanFrom o₁) :: noted) := by
  have hwrote := h.wrote
  have hsteady := hwrote.steady
  obtain ⟨hrun, hnoted⟩ := h.node ho htops
  have hplace : IsEnd o₁.solid o.place :=
    h.prints hprints o.level o.place (Nat.le_refl _) ho.anchors_place
  refine ⟨hrun, ⟨⟨hsteady.length, hsteady.unit, hsteady.last⟩, hwrote.unit, hwrote.level, rfl,
    hwrote.solid, hwrote.anchors, ?_, ?_, ?_⟩, hnoted, fun _ => h.prints hprints⟩
  · rw [ended, hwrote.spans]
    rfl
  · refine List.forall_mem_cons.mpr ⟨⟨Nat.le_max_left _ _, hplace, ?_⟩, hwrote.ends⟩
    rw [spanFrom, Nat.max_eq_right hplace.le]
    exact .self _
  · intro level s hlevel ha
    exact List.forall_mem_cons.mpr ⟨ha.le_place ho hlevel, hwrote.behind level s hlevel ha⟩

/-- **Steps that are laid out go through**, and the spans that they note lie in each other as the nodes
do, with both ends between characters that stay. -/
theorem Layout.run (h : Layout holds steps tops) (ho : o.Steady) :
    ∃ o' noted, Laid holds steps tops o o' noted := by
  induction h generalizing o with
  | nothing =>
      refine ⟨o, [], rfl, ⟨ho, rfl, rfl, rfl, List.suffix_refl _, fun _ _ _ h => h, rfl, by simp, by simp⟩,
        .nothing, ?_⟩
      simp [PrintsText]
  | text hs =>
      obtain ⟨hwrote, hend⟩ := wrote_push ho hs
      exact ⟨_, [], run?_singleton _ _, hwrote, .nothing, fun _ => hend⟩
  | @pair s t hs hst =>
      obtain ⟨hwrote, hend⟩ := wrote_push (s := s ++ t) ho (by rwa [String.toList_append])
      refine ⟨_, [], ?_, hwrote, .nothing, fun _ => hend⟩
      rw [run?_cons, step?, Option.bind_some, run?_singleton, step?, push_push o hs]
  | @comment s hs =>
      obtain ⟨hwrote, hend⟩ := wrote_comment ho hs
      refine ⟨_, [], ?_, hwrote, .nothing, fun _ => hend⟩
      rw [run?_cons, step?, Option.bind_some, run?_singleton, step?]
  | space =>
      refine ⟨_, [], run?_singleton _ _, wrote_space ho, .nothing, ?_⟩
      simp [PrintsText]
  | newLine =>
      refine ⟨_, [], run?_singleton _ _, wrote_newLine ho, .nothing, ?_⟩
      simp [PrintsText]
  | indented _ ih =>
      obtain ⟨o₁, noted, hbody⟩ := ih (o := o.indent) ⟨ho.length, ho.unit, ho.last⟩
      exact ⟨_, _, hbody.indented⟩
  | append _ _ ih ih' =>
      obtain ⟨o₁, noted, h₁⟩ := ih ho
      obtain ⟨o₂, noted', h₂⟩ := ih' h₁.wrote.steady
      exact ⟨_, _, h₁.append h₂⟩
  | node n _ htops hprints ih =>
      obtain ⟨o₁, noted, hbody⟩ := ih (ho.startNode n)
      exact ⟨_, _, hbody.started ho htops hprints⟩

/-- **The spans of a text.**  A tree whose steps are laid out behind its comments has a text, and every
span that is noted lies in it, with both ends between characters. -/
theorem exists_laid {unit : List Char} (hunit : ∀ c ∈ unit, c.utf8Size = 1) {lead : List OutputStep}
    {root : NodeId} (hlead : Layout holds lead fun _ => False) (hbody : Layout holds body tops)
    (htops : (∀ c, tops c ↔ holds root c) ∨ ∀ c, tops c ↔ c = root) :
    ∃ o, Output.run? { unit } (lead ++ .start root :: (body ++ [.stop root])) = some o ∧
      Noted holds o.spans (· = root) ∧ ∀ p ∈ o.spans, p.2.start ≤ p.2.stop ∧
        IsBoundary o.reversed.reverse p.2.start ∧ IsBoundary o.reversed.reverse p.2.stop := by
  have hempty : Steady { unit } := ⟨rfl, hunit, .inl rfl⟩
  obtain ⟨o, noted, hlead⟩ := hlead.run hempty
  have hnone : noted = [] := by
    cases hnoted : noted with
    | nil => rfl
    | cons p more =>
        have hsome : (latest? noted p.1).isSome :=
          isSome_latest? (s := p.2) (by rw [hnoted]; exact List.mem_cons_self)
        obtain ⟨x, hx, -⟩ := hlead.noted.exists_top hsome
        exact hx.elim
  obtain ⟨o₁, inside, hbody⟩ := hbody.run (hlead.wrote.steady.startNode root)
  obtain ⟨hrun, hnoted⟩ := hbody.node hlead.wrote.steady htops
  have hspans : (o₁.ended o root).spans = (root, o.spanFrom o₁) :: inside := by
    have hbefore : (o.startNode root).spans = [] := by
      change o.spans = []
      rw [hlead.wrote.spans, hnone]
      rfl
    rw [ended, hbody.wrote.spans, hbefore, List.append_nil]
  have hplace : IsEnd o₁.reversed o.place := by
    have hanchors :=
      hbody.wrote.anchors o.level o.place (Nat.le_refl _) hlead.wrote.steady.anchors_place
    have hlevel : o.level = 0 := hlead.wrote.level
    rw [hlevel] at hanchors
    exact hanchors.isEnd hbody.wrote.steady
  have hsolid : o₁.solid <:+ o₁.reversed := List.dropWhile_suffix _
  refine ⟨o₁.ended o root, ?_, by rwa [hspans], ?_⟩
  · rw [run?_append, hlead.run, Option.bind_some, hrun]
  · rw [hspans]
    refine List.forall_mem_cons.mpr ⟨⟨Nat.le_max_left _ _, hplace.isBoundary, ?_⟩, fun p hp => ?_⟩
    · change IsBoundary o₁.reversed.reverse (max o.place (byteLength o₁.solid))
      rcases Nat.le_total o.place (byteLength o₁.solid) with h | h
      · rw [Nat.max_eq_right h]
        exact ((IsEnd.self _).mono hsolid).isBoundary
      · rw [Nat.max_eq_left h]
        exact hplace.isBoundary
    · obtain ⟨hle, hstart, hstop⟩ := hbody.wrote.ends p hp
      exact ⟨hle, (hstart.mono hsolid).isBoundary, (hstop.mono hsolid).isBoundary⟩

end Laid

end Output

end Steps

/-!
## Nodes that writing reaches

What is written of a node holds the nodes that it mentions.  These stand below it, but not always
directly: a writer may look through a node, which is then not written itself.  And some nodes are put
aside: they are written where a node higher up is, outside of nodes that they stand below.  Of the nodes
above another that are written at all, and that it is not put aside from, the nearest is the one that
mentions it.
-/

section Reaching

open Relation

namespace Forest

variable {f : Forest} {n c y p x a m : NodeId}

/-- A node stands strictly between one below it and one above it. -/
def Between (f : Forest) (c y n : NodeId) : Prop := TransGen f.Below c y ∧ TransGen f.Below y n

/-- How writers look through nodes and put them aside. -/
structure Paths where
  /-- Writing the first node looks through the second one. -/
  through : NodeId → NodeId → Prop
  /-- The first node is put aside from the second one. -/
  aside : NodeId → NodeId → Bool
  /-- What is put aside is neither looked through nor has anything put aside from it. -/
  apart : ∀ {c a}, aside c a → (∀ n, ¬ through n c) ∧ ∀ c', ¬ aside c' c

/-- A node below another that is written with it: the nodes between are looked through, or the node is
put aside from all of them. -/
structure Mentions (f : Forest) (ps : Paths) (n c : NodeId) : Prop where
  below : TransGen f.Below c n
  between : (∀ y, f.Between c y n → ps.through n y) ∨ ∀ y, f.Between c y n → ps.aside c y
  whole : ¬ ps.through n c
  held : ¬ ps.aside c n

theorem above_total (h : ReflTransGen f.Below x a) (h' : ReflTransGen f.Below x m) :
    ReflTransGen f.Below a m ∨ ReflTransGen f.Below m a :=
  ReflTransGen.total_of_right_unique (fun _ _ _ h₁ h₂ => Option.some_inj.mp (h₁.symm.trans h₂)) h h'

theorem not_between_of_parent (hf : f.WellLinked) (hp : f.parent c = some n) : ¬ f.Between c y n := by
  rintro ⟨hcy, hyn⟩
  obtain ⟨p, hp', hpy⟩ := TransGen.head'_iff.mp hcy
  obtain rfl : n = p := Option.some_inj.mp (hp.symm.trans hp')
  exact hf.acyclic y (hyn.trans_left hpy)

theorem between_of_parent (hp : f.parent c = some y) (h : f.Between c x n) : x = y ∨ f.Between y x n := by
  obtain ⟨hcx, hxn⟩ := h
  obtain ⟨p, hp', hpx⟩ := TransGen.head'_iff.mp hcx
  obtain rfl : y = p := Option.some_inj.mp (hp.symm.trans hp')
  exact (reflTransGen_iff_eq_or_transGen.mp hpx).imp_right fun h => ⟨h, hxn⟩

/-- A node below another, where writing looks through all nodes between. -/
structure Under (f : Forest) (ps : Paths) (n c : NodeId) : Prop where
  below : TransGen f.Below c n
  between : ∀ y, f.Between c y n → ps.through n y

theorem Under.child {ps : Paths} (hf : f.WellLinked) (hp : f.parent c = some n) : f.Under ps n c :=
  ⟨.single hp, fun _ hy => (not_between_of_parent hf hp hy).elim⟩

/-- Below a node that is looked through. -/
theorem Under.step {ps : Paths} (h : f.Under ps n y) (hy : ps.through n y) (hp : f.parent c = some y) :
    f.Under ps n c where
  below := .head hp h.below
  between x hx := by
    rcases between_of_parent hp hx with rfl | hx
    · exact hy
    · exact h.between x hx

/-- A child is mentioned, unless it is looked through or put aside. -/
theorem Mentions.child {ps : Paths} (hf : f.WellLinked) (hp : f.parent c = some n)
    (hthrough : ¬ ps.through n c) (haside : ¬ ps.aside c n) : f.Mentions ps n c :=
  ⟨.single hp, .inl fun _ hy => (not_between_of_parent hf hp hy).elim, hthrough, haside⟩

section Reach

variable {ps : Paths} {holds : NodeId → NodeId → Prop} {root : NodeId}

theorem above_of_reach (hmentions : ∀ n c, holds n c → f.Mentions ps n c)
    (h : ReflTransGen holds n c) : ReflTransGen f.Below c n := by
  induction h with
  | refl => exact .refl
  | tail _ hstep ih => exact (hmentions _ _ hstep).below.to_reflTransGen.trans ih

/-- On the way to a node, the nodes above some node are left behind. -/
theorem exists_departure (hroot : ReflTransGen f.Below m root) (h : ReflTransGen holds root x)
    (hx : ¬ ReflTransGen f.Below m x) :
    ∃ p p', ReflTransGen holds root p ∧ holds p p' ∧ ReflTransGen holds p' x ∧
      ReflTransGen f.Below m p ∧ ¬ ReflTransGen f.Below m p' := by
  induction h with
  | refl => exact (hx hroot).elim
  | @tail b c hb hstep ih =>
      by_cases hm : ReflTransGen f.Below m b
      · exact ⟨b, c, hb, hstep, .refl, hm, hx⟩
      · obtain ⟨p, p', hp, hpp, hreach, habove, hnot⟩ := ih hm
        exact ⟨p, p', hp, hpp, hreach.tail hstep, habove, hnot⟩

/-- A written node between a node and the one that mentions it is one that the node is put aside
from. -/
theorem aside_of_between (hf : f.WellLinked) (hmentions : ∀ n c, holds n c → f.Mentions ps n c)
    (hm : ReflTransGen holds root m) (hc : holds m c) (hx : ReflTransGen holds root x)
    (hbetween : f.Between c x m) : ps.aside c x := by
  -- by induction on the nodes above the one that mentions
  induction hcard : (f.ancestors m).length using Nat.strong_induction_on generalizing m c x with
  | _ k ih =>
      subst hcard
      obtain ⟨hcx, hxm⟩ := hbetween
      have hbelow : ¬ ReflTransGen f.Below m x := fun h => hf.acyclic x (hxm.trans_left h)
      obtain ⟨p, p', hp, hpp, hreach, habove, hnot⟩ :=
        exists_departure (above_of_reach hmentions hm) hx hbelow
      have hxp : ReflTransGen f.Below x p' := above_of_reach hmentions hreach
      have hpm : TransGen f.Below p' m := by
        rcases above_total hxp hxm.to_reflTransGen with h | h
        · rcases reflTransGen_iff_eq_or_transGen.mp h with rfl | h
          · exact (hnot .refl).elim
          · exact h
        · exact (hnot h).elim
      have hp' : f.Between c p' m := ⟨hcx.trans_left hxp, hpm⟩
      rcases reflTransGen_iff_eq_or_transGen.mp habove with rfl | habove
      · rcases (hmentions _ _ hc).between with hall | hall
        · exact ((hmentions _ _ hpp).whole (hall p' hp')).elim
        · exact hall x ⟨hcx, hxm⟩
      · -- the node that mentions is itself looked over by a node further up
        have hlength : (f.ancestors p).length < (f.ancestors m).length := by
          clear * - hf habove
          induction habove using TransGen.head_induction_on with
          | single h => rw [hf.ancestors_of_parent h, List.length_cons]; omega
          | head h _ ih => rw [hf.ancestors_of_parent h, List.length_cons]; omega
        have haside := ih _ hlength hp hpp hm ⟨hpm, habove⟩ rfl
        obtain ⟨hthrough, hnone⟩ := ps.apart haside
        rcases (hmentions _ _ hc).between with hall | hall
        · exact (hthrough _ (hall p' hp')).elim
        · exact (hnone _ (hall p' hp')).elim

/-- The first node above another with a property, where those between do not have it. -/
theorem find?_ancestors (hf : f.WellLinked) {p : NodeId → Bool} (hm : TransGen f.Below c m)
    (hp : p m = true) (hbetween : ∀ y, f.Between c y m → p y = false) :
    (f.ancestors c).find? p = some m := by
  induction hm using TransGen.head_induction_on with
  | single h => rw [hf.ancestors_of_parent h, List.find?_cons_of_pos hp]
  | @head c y h hy ih =>
      have hskip : p y = false := hbetween y ⟨.single h, hy⟩
      rw [hf.ancestors_of_parent h, List.find?_cons_of_neg (by simp [hskip])]
      exact ih fun z hz => hbetween z ⟨.head h hz.1, hz.2⟩

/-- What writing holds in a forest: the root is written, a node mentions what it holds, and a few
borrow a node that stands beside them, below the node that mentions both. -/
structure Spreads (f : Forest) (ps : Paths) (root : NodeId) (holds : NodeId → NodeId → Prop) : Prop where
  links : f.WellLinked
  root : f.parent root = none
  holds : ∀ {n c}, holds n c → f.Mentions ps n c ∨ f.parent n ≠ none ∧
    ∀ x, holds x n → f.Mentions ps x n ∧ f.Below n x ∧ f.Below c x ∧ f.Mentions ps x c

section

variable {noted : List (NodeId × Span)} {s : Span}

/-- A node that a written node mentions, directly or through a node that borrows it. -/
def Tells (f : Forest) (ps : Paths) (holds : NodeId → NodeId → Prop) (n c : NodeId) : Prop :=
  f.Mentions ps n c ∧ (holds n c ∨ ∃ b, holds n b ∧ holds b c)

/-- Every written node but the root is told of by one that is written. -/
theorem Spreads.tells (h : f.Spreads ps root holds) (hn : ReflTransGen holds root n) :
    ReflTransGen (f.Tells ps holds) root n := by
  have hstrong : ReflTransGen (f.Tells ps holds) root n ∧ ∀ c, holds n c →
      ReflTransGen (f.Tells ps holds) root c := by
    induction hn with
    | refl =>
        refine ⟨.refl, fun c hc => ?_⟩
        rcases h.holds hc with hmentions | ⟨hparent, -⟩
        · exact .single ⟨hmentions, .inl hc⟩
        · exact (hparent h.root).elim
    | @tail b n hb hbn ih =>
        refine ⟨ih.2 n hbn, fun c hc => ?_⟩
        rcases h.holds hc with hmentions | ⟨-, hborrows⟩
        · exact (ih.2 n hbn).tail ⟨hmentions, .inl hc⟩
        · exact ih.1.tail ⟨(hborrows b hbn).2.2.2, .inr ⟨n, hbn, hc⟩⟩
  exact hstrong.1

/-- The nearest node above another that is written and that it is not put aside from is the one that
mentions it. -/
theorem Spreads.nearest (h : f.Spreads ps root holds) {written : NodeId → Bool}
    (hwritten : ∀ n, written n = true ↔ ReflTransGen holds root n) (hm : ReflTransGen holds root m)
    (hc : f.Tells ps holds m c) :
    (f.ancestors c).find? (fun a => written a && !ps.aside c a) = some m := by
  refine find?_ancestors h.links hc.1.below ?_ fun y hy => ?_
  · rw [(hwritten m).mpr hm, Bool.eq_false_iff.mpr hc.1.held]
    rfl
  · cases hy' : written y with
    | false => rfl
    | true =>
        have haside := aside_of_between h.links (fun _ _ ht => ht.1) (h.tells hm) hc
          (h.tells ((hwritten y).mp hy')) hy
        rw [haside]
        rfl

open Output in
/-- **Spans nest.**  The span of a node lies in that of the nearest node above it that is written and
that it is not put aside from. -/
theorem Spreads.span_within (h : f.Spreads ps root holds) (hnoted : Noted holds noted (· = root))
    (hs : latest? noted c = some s)
    (ha : (f.ancestors c).find? (fun a => (latest? noted a).isSome && !ps.aside c a) = some a) :
    ∃ t, latest? noted a = some t ∧ s.IsWithin t := by
  have hwritten : ∀ n, (latest? noted n).isSome = true ↔ ReflTransGen holds root n := by
    refine fun n => ⟨fun hn => ?_, fun hn => ?_⟩
    · obtain ⟨x, rfl, hx⟩ := hnoted.exists_top hn
      exact hx
    · exact hnoted.isSome_of_holds (hnoted.isSome_of_top rfl) hn
  -- whoever tells of the node is the nearest
  have hnearest : ∀ m, ReflTransGen holds root m → f.Tells ps holds m c → m = a := fun m hm hc => by
    have hfind := h.nearest hwritten hm hc
    rw [ha] at hfind
    exact (Option.some_inj.mp hfind).symm
  have hac : TransGen f.Below c a := transGen_of_mem_ancestorsUpTo (List.mem_of_find?_eq_some ha)
  have hne : a ≠ c := by
    rintro rfl
    exact h.links.acyclic a hac
  -- the last steps of every way to the node start there
  have hlast : ∀ b, ReflTransGen holds root b → holds b c → b = a ∨ f.parent b ≠ none ∧
      ∀ x, ReflTransGen holds root x → holds x b → x = a := by
    intro b hb hbc
    rcases h.holds hbc with hmentions | ⟨hparent, hborrows⟩
    · exact .inl (hnearest b hb ⟨hmentions, .inl hbc⟩)
    · refine .inr ⟨hparent, fun x hx hxb => ?_⟩
      exact hnearest x hx ⟨(hborrows x hxb).2.2.2, .inr ⟨b, hxb, hbc⟩⟩
  have hroot : root ≠ c := by
    rintro rfl
    obtain ⟨p, hp, -⟩ := TransGen.head'_iff.mp hac
    rw [Below, h.root] at hp
    cases hp
  have hreach : ReflTransGen holds root c := (hwritten c).mp (by rw [hs]; rfl)
  refine hnoted.within hne ?_ ?_ hs
  · obtain rfl | ⟨b, hb, hbc⟩ := ReflTransGen.cases_tail hreach
    · exact (hroot rfl).elim
    rcases hlast b hb hbc with rfl | ⟨hparent, hbefore⟩
    · exact .single hbc
    · rcases ReflTransGen.cases_tail hb with rfl | ⟨x, hx, hxb⟩
      · exact (hparent h.root).elim
      · obtain rfl := hbefore x hx hxb
        exact .tail (.single hxb) hbc
  · rintro x rfl haround
    have hway : ∀ {y}, Around holds a x y → ReflTransGen holds x y := fun hy =>
      ReflTransGen.mono (fun _ _ hstep => hstep.2) x _ hy
    rcases ReflTransGen.cases_tail haround with rfl | ⟨b, hb, hba, hbc⟩
    · exact hroot rfl
    rcases hlast b (hway hb) hbc with rfl | ⟨hparent, hbefore⟩
    · exact hba rfl
    · rcases ReflTransGen.cases_tail hb with rfl | ⟨y, hy, hya, hyb⟩
      · exact hparent h.root
      · exact hya (hbefore y (hway hy) hyb)

end

end Reach

end Forest

end Reaching

end DualSyntax
