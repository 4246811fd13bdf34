import DualSyntax.Proofs.Lexing.Names
import DualSyntax.Writing

/-!
# Printed text

What steps of output add to a text that is not indented.  The steps of a node add what the steps
inside it add, so the text of a tree is put together from the texts of its parts.

A space is written only after a character that is no space, so what a writer adds to a text depends
on how the text ends.  `Writes` says what a writer adds to a line, whether the line has to end
without a space for it, and whether it does so afterwards.
-/

namespace DualSyntax

namespace Output

/-- Steps that add a text as it is, and leave the indentation and the open nodes as they were. -/
def Prints (steps : List OutputStep) (s : String) : Prop :=
  ∀ o : Output, o.level = 0 → ∃ o', o.run? steps = some o' ∧
    o'.reversed = s.toList.reverse ++ o.reversed ∧ o'.level = 0 ∧ o'.opened = o.opened

theorem run?_cons (o : Output) (a : OutputStep) (steps : List OutputStep) :
    o.run? (a :: steps) = (o.step? a).bind (·.run? steps) := rfl

theorem run?_append (o : Output) (steps more : List OutputStep) :
    o.run? (steps ++ more) = (o.run? steps).bind (·.run? more) :=
  List.foldlM_append

theorem endNode?_innermost {o : Output} {n : NodeId} {start : Nat} {rest : List (NodeId × Nat)}
    (h : o.opened = (n, start) :: rest) :
    ∃ o', o.endNode? n = some o' ∧ o'.reversed = o.reversed ∧ o'.level = o.level ∧
      o'.opened = rest := by
  unfold endNode?
  rw [h]
  simp only [if_true]
  exact ⟨_, rfl, rfl, rfl, rfl⟩

namespace Prints

variable {steps more : List OutputStep} {s t : String}

theorem text (s : String) : Prints [.text s] s := by
  intro o ho
  refine ⟨o.push s, rfl, ?_⟩
  unfold push
  split
  · simp [addIndent, add, ho]
  · simp [add, ho]

theorem append (h : Prints steps s) (h' : Prints more t) : Prints (steps ++ more) (s ++ t) := by
  intro o ho
  obtain ⟨o₁, hrun, hreversed, hlevel, hopened⟩ := h o ho
  obtain ⟨o₂, hrun', hreversed', hlevel', hopened'⟩ := h' o₁ hlevel
  refine ⟨o₂, ?_, ?_, hlevel', hopened'.trans hopened⟩
  · rw [run?_append, hrun, Option.bind_some, hrun']
  · rw [hreversed', hreversed, String.toList_append, List.reverse_append, List.append_assoc]

theorem node (h : Prints steps s) (n : NodeId) : Prints (.start n :: (steps ++ [.stop n])) s := by
  intro o ho
  obtain ⟨o₁, hrun, hreversed, hlevel, hopened⟩ := h (o.startNode n) ho
  obtain ⟨o₂, hstop, hreversed', hlevel', hopened'⟩ := endNode?_innermost hopened
  refine ⟨o₂, ?_, hreversed'.trans hreversed, hlevel'.trans hlevel, hopened'⟩
  rw [run?_cons, step?, Option.bind_some, run?_append, hrun, Option.bind_some, run?_cons, step?,
    hstop]
  rfl

end Prints

end Output

theorem write_of_steps {l : Language} {f : Forest} {root : NodeId} {steps : List OutputStep}
    {s : String} (hsteps : Writing.steps l f root {} = .ok steps) (h : Output.Prints steps s) :
    ∃ o, write l f root {} = .ok o ∧ o.text = s := by
  have hempty : Output.empty? {} = some { unit := List.replicate 4 ' ' } := rfl
  obtain ⟨o, hrun, hreversed, -, -⟩ := h { unit := List.replicate 4 ' ' } rfl
  refine ⟨o, ?_, ?_⟩
  · simp only [write, hempty, hsteps, bind, Except.bind, hrun]
    rfl
  · simp [Output.text, hreversed]

/-! ## Names -/

namespace Language

open Lexing

def escaped : Language → String → String
  | csharp, name => "@" ++ name
  | visualBasic, name => "[" ++ name ++ "]"

def spelling (l : Language) (name : String) : String :=
  if l.isReserved name then l.escaped name else name

theorem unescape_escaped (l : Language) (name : String) : l.unescape (l.escaped name) = name := by
  cases l with
  | csharp => simp [escaped, unescape]
  | visualBasic => simp [escaped, unescape]

theorem unescape_word (l : Language) {w : List Char} (hw : IsWord w) :
    l.unescape (String.ofList w) = String.ofList w := by
  obtain ⟨c, cs, rfl⟩ := List.exists_cons_of_ne_nil hw.ne_nil
  have hc : isNameStart c = true := by simpa [headIs] using hw.1
  have hat : c ≠ '@' := ne_of_isNameStart hc rfl
  have hbracket : c ≠ '[' := ne_of_isNameStart hc rfl
  unfold unescape
  split <;> simp_all

end Language

/-! ## Texts with spaces -/

namespace Output

/-- A line that has begun and does not end with a space. -/
structure Tight (o : Output) : Prop where
  begun : o.atLineStart = false
  last : o.reversed.head? ≠ some ' '

/-- Steps that add characters to a text that is not indented, and leave the indentation and the open
nodes as they were.  The text has to be tight before if `pre` holds, and is so after if `post`
does. -/
def Adds (pre : Prop) (steps : List OutputStep) (cs : List Char) (post : Prop) : Prop :=
  ∀ o : Output, o.level = 0 → (pre → o.Tight) → ∃ o', o.run? steps = some o' ∧
    o'.reversed = cs.reverse ++ o.reversed ∧ o'.level = 0 ∧ o'.opened = o.opened ∧
      (post → o'.Tight)

namespace Adds

variable {pre mid post pre' post' : Prop} {steps more : List OutputStep} {cs ds : List Char}

theorem nil : Adds False [] [] False := by
  intro o ho _
  exact ⟨o, rfl, rfl, ho, rfl, False.elim⟩

theorem weaken (h : Adds pre steps cs post) (hpre : pre → pre') (hpost : post' → post) :
    Adds pre' steps cs post' := by
  intro o ho htight
  obtain ⟨o', hrun, hreversed, hlevel, hopened, hpost'⟩ := h o ho (htight ∘ hpre)
  exact ⟨o', hrun, hreversed, hlevel, hopened, hpost' ∘ hpost⟩

/-- A piece of text whose last character is no space. -/
theorem text {s : String} {c : Char} (hs : s.toList.getLast? = some c) (hc : c ≠ ' ') :
    Adds False [.text s] s.toList True := by
  intro o ho _
  have hne : s.isEmpty = false := by
    rw [← Bool.not_eq_true, String.isEmpty_iff]
    rintro rfl
    cases hs
  have hlast (cs : List Char) : (s.toList.reverse ++ cs).head? = some c := by
    rw [List.head?_append, List.head?_reverse, hs, Option.some_or]
  refine ⟨o.push s, rfl, ?_⟩
  unfold push
  cases hstart : o.atLineStart with
  | true =>
      simp only [hne, Bool.not_false, Bool.and_self, if_true]
      have hadded : (o.addIndent.add s.toList).reversed = s.toList.reverse ++ o.reversed := by
        simp [addIndent, add, ho]
      refine ⟨hadded, ho, rfl, fun _ => ⟨rfl, ?_⟩⟩
      rw [hadded, hlast]
      simpa using hc
  | false =>
      simp only [Bool.false_and, Bool.false_eq_true, if_false]
      refine ⟨rfl, ho, rfl, fun _ => ⟨hstart, ?_⟩⟩
      rw [add, hlast]
      simpa using hc

theorem anyText (s : String) : Adds False [.text s] s.toList False := by
  intro o ho _
  obtain ⟨o', hrun, hreversed, hlevel, hopened⟩ := Prints.text s o ho
  exact ⟨o', hrun, hreversed, hlevel, hopened, False.elim⟩

theorem space : Adds True [.space] [' '] False := by
  intro o ho htight
  obtain ⟨hbegun, hlast⟩ := htight trivial
  refine ⟨o.add [' '], ?_, rfl, ho, rfl, False.elim⟩
  have hstep : o.step? .space = some (o.add [' ']) := by
    rw [step?, Output.space, if_neg]
    simp [hbegun, hlast]
  rw [run?_cons, hstep]
  rfl

theorem append (h : Adds pre steps cs mid) (h' : Adds pre' more ds post) (hmid : pre' → mid) :
    Adds pre (steps ++ more) (cs ++ ds) post := by
  intro o ho htight
  obtain ⟨o₁, hrun, hreversed, hlevel, hopened, hmid'⟩ := h o ho htight
  obtain ⟨o₂, hrun', hreversed', hlevel', hopened', hpost⟩ := h' o₁ hlevel (hmid' ∘ hmid)
  refine ⟨o₂, ?_, ?_, hlevel', hopened'.trans hopened, hpost⟩
  · rw [run?_append, hrun, Option.bind_some, hrun']
  · rw [hreversed', hreversed, List.reverse_append, List.append_assoc]

theorem node (h : Adds pre steps cs post) (n : NodeId) :
    Adds pre (.start n :: (steps ++ [.stop n])) cs post := by
  intro o ho htight
  obtain ⟨o₁, hrun, hreversed, hlevel, hopened, hpost⟩ :=
    h (o.startNode n) ho fun hpre => ⟨(htight hpre).begun, (htight hpre).last⟩
  obtain ⟨o₂, hstop, hreversed', hlevel', hopened', hstart'⟩ :
      ∃ o₂, o₁.endNode? n = some o₂ ∧ o₂.reversed = o₁.reversed ∧ o₂.level = o₁.level ∧
        o₂.opened = o.opened ∧ o₂.atLineStart = o₁.atLineStart := by
    unfold endNode?
    rw [hopened]
    exact ⟨_, if_pos rfl, rfl, rfl, rfl, rfl⟩
  refine ⟨o₂, ?_, hreversed'.trans hreversed, hlevel'.trans hlevel, hopened', ?_⟩
  · rw [run?_cons, step?, Option.bind_some, run?_append, hrun, Option.bind_some, run?_cons, step?,
      hstop]
    rfl
  · intro hp
    obtain ⟨hbegun, hlast⟩ := hpost hp
    exact ⟨hstart'.trans hbegun, by rwa [hreversed']⟩

end Adds

end Output

namespace Writing

/-! ### Steps of a writer -/

section

variable {page : Page} {n : NodeId} {title : Title} {c : NodeId}

theorem bind_ok {α β : Type} {x : Writing α} {a : α} {k : α → Writing β} (hx : x page = .ok a) :
    (x >>= k) page = k a page := by
  change (x page).bind _ = _
  rw [hx]
  rfl

theorem forest_ok : forest page = .ok page.forest := rfl

theorem required_ok (h : page.forest.child? n title = some c) : required n title page = .ok c := by
  refine (bind_ok forest_ok).trans ?_
  rw [h]
  rfl

theorem ok_of_bind {α β : Type} {x : Writing α} {next : α → Writing β} {b : β}
    (h : (x >>= next) page = .ok b) : ∃ a, x page = .ok a ∧ next a page = .ok b := by
  change (x page).bind _ = _ at h
  cases hx : x page with
  | error e =>
      rw [hx] at h
      cases h
  | ok a =>
      rw [hx] at h
      exact ⟨a, rfl, h⟩

theorem ok_of_append {w w' : Written} {steps : List OutputStep} (h : (w ++ w') page = .ok steps) :
    ∃ a b, w page = .ok a ∧ w' page = .ok b ∧ steps = a ++ b := by
  obtain ⟨a, ha, h⟩ := ok_of_bind (x := w) h
  obtain ⟨b, hb, h⟩ := ok_of_bind (x := w') h
  exact ⟨a, b, ha, hb, (Except.ok.inj h).symm⟩

end

variable {page : Page} {pre mid post pre' post' : Prop} {w w' : Written} {cs ds : List Char}

/-- A writer that adds characters to a line. -/
def Writes (page : Page) (pre : Prop) (w : Written) (cs : List Char) (post : Prop) : Prop :=
  ∃ steps, w page = .ok steps ∧ Output.Adds pre steps cs post

/-- A writer whose text begins anywhere and ends without a space. -/
abbrev WritesOut (page : Page) (w : Written) (cs : List Char) : Prop :=
  Writes page False w cs True

namespace Writes

theorem weaken (h : Writes page pre w cs post) (hpre : pre → pre') (hpost : post' → post) :
    Writes page pre' w cs post' := by
  obtain ⟨steps, hw, hadds⟩ := h
  exact ⟨steps, hw, hadds.weaken hpre hpost⟩

theorem nothing : Writes page False nothing [] False := ⟨[], rfl, .nil⟩

theorem put {s : String} {c : Char} (hs : s.toList.getLast? = some c) (hc : c ≠ ' ') :
    WritesOut page (put s) s.toList :=
  ⟨[.text s], rfl, .text hs hc⟩

theorem anyPut (s : String) : Writes page False (Writing.put s) s.toList False :=
  ⟨[.text s], rfl, .anyText s⟩

theorem space : Writes page True space [' '] False := ⟨[.space], rfl, .space⟩

theorem append (h : Writes page pre w cs mid) (h' : Writes page pre' w' ds post)
    (hmid : pre' → mid) : Writes page pre (w ++ w') (cs ++ ds) post := by
  obtain ⟨steps, hw, hadds⟩ := h
  obtain ⟨more, hw', hadds'⟩ := h'
  refine ⟨steps ++ more, ?_, hadds.append hadds' hmid⟩
  change (w >>= fun a => w' >>= fun b => pure (a ++ b)) page = _
  simp only [bind, ReaderT.bind, Except.bind, hw, hw']
  rfl

/-- A writer and then one that begins anywhere. -/
theorem andThen (h : Writes page pre w cs mid) (h' : Writes page False w' ds post) :
    Writes page pre (w ++ w') (cs ++ ds) post :=
  h.append h' False.elim

theorem spaced (h : Writes page pre w cs True) :
    Writes page pre (w ++ Writing.space) (cs ++ [' ']) False :=
  h.append space id

theorem marked (h : Writes page pre w cs post) (n : NodeId) :
    Writes page pre (marked n w) cs post := by
  obtain ⟨steps, hw, hadds⟩ := h
  refine ⟨.start n :: (steps ++ [.stop n]), ?_, hadds.node n⟩
  change ((step (.start n) ++ w) ++ step (.stop n)) page = _
  change (do
    let a ← (do return (← step (.start n)) ++ (← w) : Written)
    return a ++ (← step (.stop n)) : Written) page = _
  simp only [bind, ReaderT.bind, Except.bind, hw]
  rfl

/-- A computation whose first step succeeds. -/
theorem bind {α : Type} {x : Writing α} {a : α} {k : α → Written} (hx : x page = .ok a)
    (h : Writes page pre (k a) cs post) : Writes page pre (x >>= k) cs post := by
  obtain ⟨steps, hw, hadds⟩ := h
  refine ⟨steps, ?_, hadds⟩
  simp only [Bind.bind, ReaderT.bind, Except.bind, hx]
  exact hw

end Writes

/-- A tree without comments in front of it is written as its text, in every style whose indentation
is not too long. -/
theorem write_of_writes {l : Language} {f : Forest} {root : NodeId} {style : Style} {cs : List Char}
    (hstyle : style.indentUnit? ≠ none) (htrivia : f.children root .leadingTrivia = [])
    (h : WritesOut ⟨l, f, style, false⟩ (nodeUpTo l (2 * f.size + 2) root) cs) :
    ∃ o, write l f root style = .ok o ∧ o.text.toList = cs := by
  obtain ⟨unit, hunit⟩ := Option.ne_none_iff_exists'.mp hstyle
  obtain ⟨steps, hw, hadds⟩ := h
  have hsteps : Writing.steps l f root style = .ok steps := by
    have hleading : leadingTrivia root ⟨l, f, style, false⟩ = .ok [] := by
      change (inOrder ((f.children root .leadingTrivia).map _)) ⟨l, f, style, false⟩ = _
      rw [htrivia]
      rfl
    change (leadingTrivia root >>= fun a => nodeUpTo l (2 * f.size + 2) root >>= fun b =>
      pure (a ++ b)) ⟨l, f, style, false⟩ = _
    simp only [bind, ReaderT.bind, Except.bind, hleading, hw]
    rfl
  have hempty : Output.empty? style = some { unit } := by rw [Output.empty?, hunit]; rfl
  obtain ⟨o, hrun, hreversed, -, -, -⟩ := hadds { unit } rfl False.elim
  refine ⟨o, ?_, ?_⟩
  · simp only [write, hempty, hsteps, bind, Except.bind, hrun]
    rfl
  · simp [Output.text, hreversed]

end Writing

end DualSyntax
