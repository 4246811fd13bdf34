import DualSyntax.CSharp.Expressions
import DualSyntax.CSharp.Spelling
import DualSyntax.Language.Words
import DualSyntax.Proofs.Forest.Extensions
import DualSyntax.Proofs.Forest.Regular
import DualSyntax.Proofs.Writing.Layouts
import DualSyntax.VisualBasic.Spelling
import Mathlib.Data.Nat.Digits.Defs

/-!
# Writers that lay out

A writer lays out the nodes that it writes, each in a piece of text that can be seen.  What the writers of both
languages have in common, and which nodes they look through or put aside.
-/

namespace DualSyntax

/-!
## Words that end with a character that can be seen

Numbers, literals, modifiers and operators, as the writers of both languages spell them.
-/

section VisibleEnds

open Output Text

theorem endsNeat_cons {c : Char} (hc : c ≠ ' ') (cs : List Char) : EndsNeat (c :: cs) :=
  .inl (List.dropWhile_cons_of_neg (by simpa using hc)).symm

theorem isPiece_of_endsSolid {cs : List Char} (h : EndsSolid cs) : IsPiece cs := by
  obtain ⟨c, hlast, hc⟩ := h
  obtain ⟨front, rfl⟩ := List.getLast?_eq_some_iff.mp hlast
  refine ⟨⟨c, by simp, hc⟩, ?_⟩
  rw [List.reverse_append]
  exact endsNeat_cons (ne_space_of_not_isBlank hc) _

/-- A text that shows something, behind any other. -/
theorem isPiece_append {cs : List Char} (h : IsVisible cs) (before : List Char) :
    IsPiece (before ++ cs) := by
  obtain ⟨c, hmem, hc⟩ := h.visible
  refine ⟨⟨c, List.mem_append_right _ hmem, hc⟩, ?_⟩
  obtain ⟨front, d, rfl⟩ := (List.eq_nil_or_concat cs).resolve_left (List.ne_nil_of_mem hmem)
  rw [List.reverse_append, List.concat_eq_append, List.reverse_append]
  exact endsNeat_cons (fun hd => h.spaceless (by simp [hd])) _

namespace Text

theorem endsSolid_of_all {cs : List Char} (hne : cs ≠ []) (h : ∀ c ∈ cs, isBlank c = false) :
    EndsSolid cs :=
  ⟨cs.getLast hne, List.getLast?_eq_some_getLast hne, h _ (List.getLast_mem hne)⟩

/-- That no character of a text is blank can be evaluated. -/
theorem solid_of_all {cs : List Char} (h : cs.all (!isBlank ·) = true) : ∀ c ∈ cs, isBlank c = false :=
  fun c hc => by simpa using List.all_eq_true.mp h c hc

theorem endsSolid_concat (cs : List Char) {c : Char} (hc : isBlank c = false) : EndsSolid (cs ++ [c]) :=
  ⟨c, List.getLast?_concat, hc⟩

theorem EndsSolid.append_of_all {cs ds : List Char} (h : EndsSolid cs) (hds : ∀ c ∈ ds, isBlank c = false) :
    EndsSolid (cs ++ ds) := by
  by_cases hne : ds = []
  · rwa [hne, List.append_nil]
  · exact (endsSolid_of_all hne hds).append cs

theorem isBlank_of_isDigit {c : Char} (h : c.isDigit = true) : isBlank c = false := by
  have hbounds : 48 ≤ c.toNat ∧ c.toNat ≤ 57 := by
    simpa [Char.isDigit, UInt32.le_iff_toNat_le] using h
  simp only [isBlank, Bool.or_eq_false_iff, Bool.and_eq_false_iff, decide_eq_false_iff_not,
    beq_eq_false_iff_ne]
  omega

theorem toDigits_solid {n : Nat} : ∀ c ∈ Nat.toDigits 10 n, isBlank c = false :=
  fun _ hc => isBlank_of_isDigit (Nat.isDigit_of_mem_toDigits (by decide) (by decide) hc)

theorem nat_solid (n : Nat) : EndsSolid (toString n).toList := by
  have hdigits : (toString n).toList = Nat.toDigits 10 n := by
    simp [toString, Nat.repr]
  rw [hdigits]
  exact endsSolid_of_all Nat.toDigits_ne_nil toDigits_solid

theorem int_solid (e : Int) : EndsSolid (toString e).toList := by
  cases e with
  | ofNat n => exact nat_solid n
  | negSucc n =>
      have htext : (toString (Int.negSucc n)).toList = '-' :: (toString (n + 1)).toList := by
        simp [toString, Int.repr]
      rw [htext]
      exact (nat_solid (n + 1)).append ['-']

end Text

/-! ### Numbers -/

namespace RealNotation

theorem exponentText_solid (d : Decimal) : EndsSolid (exponentText d) := by
  rw [exponentText]
  exact ((int_solid _).append ['e']).append _

theorem positionalText_solid (d : Decimal) : EndsSolid (positionalText true d) := by
  have hpoint : EndsSolid ['.'] := ⟨'.', rfl, by decide⟩
  have hzero : EndsSolid ['.', '0'] := ⟨'0', rfl, by decide⟩
  have hdigits : EndsSolid (Nat.toDigits 10 d.digits) :=
    endsSolid_of_all Nat.toDigits_ne_nil toDigits_solid
  unfold positionalText
  dsimp only
  split
  · exact hzero.append _
  · split
    · exact (hpoint.append_of_all fun c hc => toDigits_solid c (List.mem_of_mem_drop hc)).append _
    · exact (hdigits.append _).append ['0', '.']

theorem marked_solid (x : Float) : EndsSolid (marked.text x).toList := by
  have hbody (d : Decimal) : EndsSolid (marked.decimalText d) := by
    unfold decimalText
    dsimp only [marked]
    split
    · exact positionalText_solid d
    · exact exponentText_solid d
  unfold text
  split
  · exact ⟨'N', rfl, by decide⟩
  · dsimp only
    rw [String.toList_ofList]
    have hmagnitude : EndsSolid (if x.isInf then ['i', 'n', 'f'] else
        marked.decimalText (Binary.ofBits x.toBits).shortest) := by
      split
      · exact ⟨'f', rfl, by decide⟩
      · exact hbody _
    split
    · exact hmagnitude.append ['-']
    · exact hmagnitude

end RealNotation

/-! ### Literals -/

namespace CSharp

theorem suffixText_solid (suffix : NumberSuffix) : ∀ c ∈ (suffixText suffix).toList, isBlank c = false :=
  solid_of_all (by cases suffix <;> decide)

theorem literalText_solid (v : LiteralValue) : EndsSolid (literalText v).toList := by
  cases v with
  | null => exact ⟨'l', rfl, by decide⟩
  | boolean b => cases b <;> exact ⟨'e', rfl, by decide⟩
  | integer n suffix =>
      rw [literalText, String.toList_append]
      exact (nat_solid n).append_of_all (suffixText_solid suffix)
  | real x suffix =>
      rw [literalText, String.toList_append]
      exact (RealNotation.marked_solid x).append_of_all (suffixText_solid suffix)
  | string s =>
      rw [literalText, String.toList_ofList]
      exact (endsSolid_concat _ (by decide)).append ['"']
  | char c =>
      rw [literalText, String.toList_ofList]
      exact (endsSolid_concat _ (by decide)).append ['\x27']

end CSharp

namespace VisualBasic

theorem suffixText_solid (suffix : NumberSuffix) : ∀ c ∈ (suffixText suffix).toList, isBlank c = false :=
  solid_of_all (by cases suffix <;> decide)

theorem quote_solid (cs : List Char) : EndsSolid (quote cs).toList := by
  rw [quote, String.toList_ofList]
  exact (endsSolid_concat _ (by decide)).append ['"']

theorem charCall_solid (c : Char) : EndsSolid (charCall c).toList := by
  rw [charCall, String.toList_append]
  exact EndsSolid.append ⟨')', rfl, by decide⟩ _

theorem stringParts_solid (run cs : List Char) : ∀ part ∈ stringParts run cs, EndsSolid part.toList := by
  induction cs generalizing run with
  | nil =>
      rw [stringParts]
      split
      · simp
      · simpa using quote_solid run.reverse
  | cons c cs ih =>
      rw [stringParts]
      split
      · simp only [List.mem_append, List.mem_cons]
        rintro part (hpart | rfl | hpart)
        · split at hpart
          · cases hpart
          · rw [List.mem_singleton.mp hpart]
            exact quote_solid run.reverse
        · exact charCall_solid c
        · exact ih [] part hpart
      · exact ih (c :: run)

theorem stringText_solid (s : String) : EndsSolid (stringText s).toList := by
  have hparts := stringParts_solid [] s.toList
  unfold stringText
  split
  · exact quote_solid []
  · next part heq => exact hparts part (by simp [heq])
  · rw [String.toList_append]
    exact EndsSolid.append ⟨')', rfl, by decide⟩ _

theorem literalText_solid (v : LiteralValue) : EndsSolid (literalText v).toList := by
  cases v with
  | null => exact ⟨'g', rfl, by decide⟩
  | boolean b => cases b <;> exact ⟨'e', rfl, by decide⟩
  | integer n suffix =>
      rw [literalText, String.toList_append]
      exact (nat_solid n).append_of_all (suffixText_solid suffix)
  | real x suffix =>
      rw [literalText, String.toList_append]
      exact (RealNotation.marked_solid x).append_of_all (suffixText_solid suffix)
  | string s => exact stringText_solid s
  | char c =>
      rw [literalText]
      split
      · exact charCall_solid c
      · rw [String.toList_append]
        exact EndsSolid.append ⟨'c', rfl, by decide⟩ _

end VisualBasic

/-! ### Words and signs -/

theorem modifierText_isPiece {l : Language} {m : Modifier} {word : String}
    (h : l.modifierText? m = some word) : IsPiece word.toList := by
  have hall : ∀ word ∈ l.modifierText? m, IsPiece word.toList := by
    cases l <;> cases m <;> decide
  exact hall word h

theorem Forest.Regular.literal_isPiece {f : Forest} (hf : f.Regular) {n : NodeId} {lit : Literal}
    (hn : f.kind n = .primitiveExpression lit) {l : Language} {text : LiteralValue → String}
    (htext : ∀ v, EndsSolid (text v).toList) :
    IsPiece ((lit.spellingIn l).getD (text lit.value)).toList := by
  apply isPiece_of_endsSolid
  cases hspelling : lit.spellingIn l with
  | none => exact htext lit.value
  | some s => exact hf.spelling hn hspelling

namespace CSharp

theorem binaryText_isPiece (op : BinaryOperator) : IsPiece (binaryText op).toList := by
  cases op <;> decide

theorem assignmentText_isPiece {op : AssignmentOperator} {sign : String}
    (h : assignmentText? op = some sign) : IsPiece sign.toList := by
  have hall : ∀ sign ∈ assignmentText? op, IsPiece sign.toList := by
    cases op <;> decide
  exact hall sign h

theorem unaryText_isPiece (op : UnaryOperator) : IsPiece (unaryText op).toList := by
  cases op <;> decide

theorem csharpWord_isPiece (t : KnownType) : IsPiece t.csharpWord.toList := by
  cases t <;> decide

end CSharp

namespace VisualBasic

theorem binaryText_isPiece (op : BinaryOperator) : IsPiece (binaryText op).toList := by
  cases op <;> decide

theorem assignmentText_isPiece {op : AssignmentOperator} {sign : String}
    (h : assignmentText op = .ok sign) : IsPiece sign.toList := by
  cases op <;> cases h <;> decide

theorem visualBasicWord_isPiece (t : KnownType) : IsPiece t.visualBasicWord.toList := by
  cases t <;> decide

end VisualBasic

end VisibleEnds

/-!
## Writers that lay out

A writer is given the writer of the nodes below.  It lays out if the steps that it gives are laid out,
provided that those of the nodes are; the nodes that it writes side by side are among those that it may
write, and do not depend on how the nodes are written nor on whether they stand in a header.  Writers
are put together from pieces, and a writer prints some text if one of its pieces does.
-/

/-- Whether the nodes of a kind print some text of their own wherever a language has words for them.  A VB
block is written as its statements, an empty statement not at all, and a variable by its declaration. -/
def NodeKind.printsIn : Language → NodeKind → Bool
  | _, token .. | _, comment .. | _, blankLine | _, compilationUnit => false
  | .visualBasic, blockStatement | .visualBasic, emptyStatement | .visualBasic, variableDeclarator =>
    false
  | _, _ => true

namespace Writing

open Output Text

theorem required_eq (n : NodeId) (t : Title) (page : Page) : required n t page =
    (page.forest.child? n t).elim (.error (.missingChild (page.forest.kind n).name t)) .ok := by
  refine (bind_ok forest_ok).trans ?_
  cases page.forest.child? n t <;> rfl

theorem child_of_required {f : Forest} {n c : NodeId} {t : Title} {page : Page}
    (hpage : page.forest = f) (h : required n t page = .ok c) : f.child? n t = some c := by
  rw [required_eq, hpage] at h
  cases hchild : f.child? n t with
  | none =>
      rw [hchild] at h
      cases h
  | some d =>
      rw [hchild] at h
      cases h
      rfl

theorem written_append_assoc (a b c : Written) : a ++ b ++ c = a ++ (b ++ c) := by
  change (do
    let xs ← (do return (← a) ++ (← b) : Written)
    return xs ++ (← c) : Written) = (do
    let xs ← a
    return xs ++ (← (do return (← b) ++ (← c) : Written)) : Written)
  simp only [bind_assoc, pure_bind, List.append_assoc]

/-- What writers work on. -/
structure Sheet where
  language : Language
  forest : Forest
  style : Style

/-- What a writer knows inside of a header or outside. -/
def Sheet.page (s : Sheet) (inHeader : Bool) : Page := ⟨s.language, s.forest, s.style, inHeader⟩

/-- Two computations one after the other that do not depend on whether they stand in a header. -/
theorem bind_page {s : Sheet} {α β : Type} {x : Writing α} {k : α → Writing β} {h : Bool}
    (hx : x (s.page h) = x (s.page false)) (hk : ∀ a, k a (s.page h) = k a (s.page false)) :
    (x >>= k) (s.page h) = (x >>= k) (s.page false) := by
  change (x (s.page h)).bind (fun a => k a (s.page h)) =
    (x (s.page false)).bind fun a => k a (s.page false)
  rw [hx]
  cases x (s.page false) with
  | error e => rfl
  | ok a => exact hk a

def Sheet.Prints (s : Sheet) (n : NodeId) : Prop := (s.forest.kind n).printsIn s.language = true

/-- What is known of the nodes that stand directly in another: in a block of C# its statements, in a
modifier none. -/
structure Sheet.Knows (s : Sheet) (holds : NodeId → NodeId → Prop) : Prop where
  block : s.language = .csharp → ∀ b, s.forest.kind b = .blockStatement →
    ∀ c, holds b c ↔ c ∈ s.forest.children b .statements
  modifier : ∀ n m, s.forest.kind n = .modifier m → ∀ c, ¬ holds n c

/-- A writer of nodes lays out the text of a node. -/
def LaysNode (s : Sheet) (holds : NodeId → NodeId → Prop) (node : NodeId → Written) (n : NodeId) :
    Prop :=
  ∀ h steps, node n (s.page h) = .ok steps → Layout holds steps (· = n) ∧ PrintsText steps

/-- A writer lays out what it writes, and the marked nodes stand there side by side.  If `prints` is set
it prints some text. -/
def LaysAll (s : Sheet) (mark : NodeId → Prop) (prints : Bool) (w : (NodeId → Written) → Written) :
    Prop :=
  ∀ holds, s.Knows holds → ∀ node, (∀ c, s.Prints c → LaysNode s holds node c) →
    ∀ h steps, w node (s.page h) = .ok steps →
      (∃ tops, Layout holds steps tops ∧ ∀ c, tops c ↔ mark c) ∧ (prints = true → PrintsText steps)

/-- The nodes that a writer may write; all of them print some text. -/
structure Sheet.Scope (s : Sheet) where
  may : NodeId → Prop
  prints : ∀ {c}, may c → s.Prints c

/-- A writer lays out what it writes, with nodes side by side that it may write. -/
def Lays {s : Sheet} (m : s.Scope) (prints : Bool) (w : (NodeId → Written) → Written) : Prop :=
  ∃ mark : NodeId → Prop, (∀ c, mark c → m.may c) ∧ LaysAll s mark prints w

/-! #### Writers and their marks -/

namespace LaysAll

variable {s : Sheet} {mark mark' : NodeId → Prop} {p q : Bool} {w w' : (NodeId → Written) → Written}
  {n c : NodeId} {t : Title} {text : String}

theorem weaken (h : LaysAll s mark true w) : LaysAll s mark p w := by
  intro holds hknows node hnode inHeader steps hw
  obtain ⟨hlayout, hprints⟩ := h holds hknows node hnode inHeader steps hw
  exact ⟨hlayout, fun _ => hprints rfl⟩

theorem congr (h : LaysAll s mark p w) (hmark : ∀ c, mark c ↔ mark' c) : LaysAll s mark' p w := by
  intro holds hknows node hnode inHeader steps hw
  obtain ⟨⟨tops, hlayout, htops⟩, hprints⟩ := h holds hknows node hnode inHeader steps hw
  exact ⟨⟨tops, hlayout, fun c => (htops c).trans (hmark c)⟩, hprints⟩

theorem of_steps {steps : List OutputStep} (hw : ∀ node h, w node (s.page h) = .ok steps)
    (hlayout : ∀ holds, Layout holds steps fun _ => False) (hprints : p = true → PrintsText steps) :
    LaysAll s (fun _ => False) p w := by
  intro holds _ node _ h steps' hw'
  rw [hw] at hw'
  cases hw'
  exact ⟨⟨_, hlayout holds, fun _ => Iff.rfl⟩, hprints⟩

theorem put (h : IsPiece text.toList) : LaysAll s (fun _ => False) true fun _ => put text := by
  refine of_steps (fun _ _ => rfl) (fun _ => .text h) fun _ => ?_
  exact ⟨text, List.mem_singleton_self _, h.visible⟩

theorem space : LaysAll s (fun _ => False) false fun _ => space :=
  of_steps (fun _ _ => rfl) (fun _ => .space) (by simp)

theorem newLine : LaysAll s (fun _ => False) false fun _ => newLine :=
  of_steps (fun _ _ => rfl) (fun _ => .newLine) (by simp)

theorem node (h : s.Prints c) : LaysAll s (· = c) true fun node => node c := by
  intro holds _ node hnode h' steps hw
  obtain ⟨hlayout, hprints⟩ := hnode c h h' steps hw
  exact ⟨⟨_, hlayout, fun _ => Iff.rfl⟩, fun _ => hprints⟩

theorem append (hw : LaysAll s mark p w) (hw' : LaysAll s mark' q w') :
    LaysAll s (fun c => mark c ∨ mark' c) (p || q) fun node => w node ++ w' node := by
  intro holds hknows node hnode h steps hsteps
  obtain ⟨first, second, hfirst, hsecond, rfl⟩ := ok_of_append hsteps
  obtain ⟨⟨tops, hlayout, htops⟩, hprints⟩ := hw holds hknows node hnode h first hfirst
  obtain ⟨⟨tops', hlayout', htops'⟩, hprints'⟩ := hw' holds hknows node hnode h second hsecond
  refine ⟨⟨_, hlayout.append hlayout', fun c => or_congr (htops c) (htops' c)⟩, fun hpq => ?_⟩
  rw [printsText_append]
  exact ((Bool.or_eq_true p q).mp hpq).imp hprints hprints'

/-- A writer of nodes behind one that writes none. -/
theorem after (hw : LaysAll s (fun _ => False) p w) (hw' : LaysAll s mark q w') :
    LaysAll s mark (p || q) fun node => w node ++ w' node :=
  (hw.append hw').congr fun _ => by simp

/-- A writer of nodes in front of one that writes none. -/
theorem before (hw : LaysAll s mark p w) (hw' : LaysAll s (fun _ => False) q w') :
    LaysAll s mark (p || q) fun node => w node ++ w' node :=
  (hw.append hw').congr fun _ => by simp

theorem indented (hw : LaysAll s mark p w) : LaysAll s mark p fun node => indented (w node) := by
  intro holds hknows node hnode h steps hsteps
  obtain ⟨before, last, hbefore, hlast, rfl⟩ := ok_of_append hsteps
  obtain ⟨first, body, hfirst, hbody, rfl⟩ := ok_of_append hbefore
  cases hfirst
  cases hlast
  obtain ⟨⟨tops, hlayout, htops⟩, hprints⟩ := hw holds hknows node hnode h body hbody
  exact ⟨⟨tops, hlayout.indented, htops⟩, fun hp => printsText_indented.mpr (hprints hp)⟩

/-- Steps around the text of a node. -/
theorem ok_of_marked {body : Written} {page : Page} {steps : List OutputStep}
    (h : marked n body page = .ok steps) :
    ∃ inner, body page = .ok inner ∧ steps = .start n :: (inner ++ [.stop n]) := by
  obtain ⟨before, last, hbefore, hlast, rfl⟩ := ok_of_append h
  obtain ⟨first, inner, hfirst, hinner, rfl⟩ := ok_of_append hbefore
  cases hfirst
  cases hlast
  exact ⟨inner, hinner, by simp⟩

/-- The text of a node, in which stand the nodes that it holds. -/
theorem marked (hw : LaysAll s mark true w) (hmark : ∀ holds, s.Knows holds → ∀ c, mark c ↔ holds n c) :
    LaysAll s (· = n) true fun node => marked n (w node) := by
  intro holds hknows node hnode h steps hsteps
  obtain ⟨inner, hinner, rfl⟩ := ok_of_marked hsteps
  obtain ⟨⟨tops, hlayout, htops⟩, hprints⟩ := hw holds hknows node hnode h inner hinner
  have hholds : ∀ c, tops c ↔ holds n c := fun c => (htops c).trans (hmark holds hknows c)
  refine ⟨⟨_, hlayout.node n (.inl hholds) (hprints rfl), fun _ => Iff.rfl⟩, fun _ => ?_⟩
  exact printsText_node.mpr (hprints rfl)

/-- A computation that does not depend on whether it stands in a header, and what follows. -/
theorem bind {α : Type} {x : Writing α} {k : (NodeId → Written) → α → Written} {a : α}
    (hx : ∀ h, x (s.page h) = .ok a) (hk : LaysAll s mark p fun node => k node a) :
    LaysAll s mark p fun node => x >>= k node := by
  intro holds hknows node hnode h steps hw
  obtain ⟨b, hxb, hw⟩ := ok_of_bind hw
  rw [hx] at hxb
  cases hxb
  exact hk holds hknows node hnode h steps hw

theorem throws (h : ∀ node h steps, w node (s.page h) ≠ .ok steps) : LaysAll s mark p w :=
  fun _ _ node _ h' steps hw => (h node h' steps hw).elim

/-- A look at the page, whether it belongs to a header or not. -/
theorem read {k : (NodeId → Written) → Page → Written}
    (hk : ∀ h, LaysAll s mark p fun node => k node (s.page h)) :
    LaysAll s mark p fun node => MonadReader.read >>= k node := by
  intro holds hknows node hnode h steps hw
  obtain ⟨page, hpage, hw⟩ := ok_of_bind hw
  cases hpage
  exact hk h holds hknows node hnode h steps hw

/-- A choice between a header and what stands outside of one. -/
theorem inHeader (hw : LaysAll s mark p w) (hw' : LaysAll s mark p w') :
    LaysAll s mark p fun node =>
      (do if (← MonadReader.read).inHeader then w node else w' node : Written) :=
  read fun h => by
    cases h with
    | true => exact hw
    | false => exact hw'

/-- Pieces one after the other, each with its nodes. -/
theorem inOrder {α : Type} {as : List α} (piece : α → (NodeId → Written) → Written)
    (marks : α → NodeId → Prop) (h : ∀ a ∈ as, LaysAll s (marks a) p (piece a)) :
    LaysAll s (fun c => ∃ a ∈ as, marks a c) false fun node => inOrder (as.map fun a => piece a node) := by
  induction as with
  | nil => exact (of_steps (fun _ _ => rfl) (fun _ => .nothing) (by simp)).congr fun _ => by simp
  | cons a as ih =>
      rw [List.forall_mem_cons] at h
      intro holds hknows node hnode inHeader steps hsteps
      obtain ⟨⟨tops, hlayout, htops⟩, -⟩ :=
        (h.1.append (ih h.2)) holds hknows node hnode inHeader steps hsteps
      exact ⟨⟨tops, hlayout, fun c => (htops c).trans (by simp)⟩, by simp⟩

/-- Every line of a comment shows the mark of the comment. -/
theorem commentLines_marked (l : Language) (kind : CommentKind) (body : String) :
    ∀ text ∈ commentLines l kind body, ∃ c ∈ text.toList, isBlank c = false := by
  intro text htext
  cases l <;> cases kind <;>
    simp only [commentLines, List.mem_singleton, List.mem_map] at htext
  case visualBasic.block =>
    obtain ⟨line, -, rfl⟩ := htext
    exact ⟨'\x27', by simp, by decide⟩
  case visualBasic.line | visualBasic.doc =>
    subst htext
    exact ⟨'\x27', by simp, by decide⟩
  all_goals
    subst htext
    exact ⟨'/', by simp, by decide⟩

/-- Texts on lines of their own are laid out, if each of them shows something. -/
theorem layout_textLines {texts : List String}
    (htexts : ∀ text ∈ texts, ∃ c ∈ text.toList, isBlank c = false) : ∃ steps,
      (∀ h, (Writing.separatedBy Writing.newLine (texts.map Writing.put) ++ Writing.newLine)
        (s.page h) = .ok steps) ∧ ∀ holds, Layout holds steps fun _ => False := by
  induction texts with
  | nil => exact ⟨[.newLine], fun _ => rfl, fun _ => .newLine⟩
  | cons text texts ih =>
      rw [List.forall_mem_cons] at htexts
      obtain ⟨steps, hsteps, hlayout⟩ := ih htexts.2
      cases texts with
      | nil => exact ⟨[.text text, .newLine], fun _ => rfl, fun _ => .comment htexts.1⟩
      | cons text' texts =>
          refine ⟨[.text text, .newLine] ++ steps, fun h => ?_, fun holds => ?_⟩
          · change ((Writing.put text ++ Writing.newLine) ++ Writing.separatedBy Writing.newLine
              ((text' :: texts).map Writing.put) ++ Writing.newLine) (s.page h) = _
            rw [written_append_assoc]
            change ((Writing.separatedBy Writing.newLine ((text' :: texts).map Writing.put) ++
              Writing.newLine) (s.page h)).bind (fun more => .ok ([.text text, .newLine] ++ more)) = _
            rw [hsteps]
            rfl
          · have htext : Layout holds [.text text, .newLine] fun _ => False := .comment htexts.1
            have h := htext.append (hlayout holds)
            have hnone : (fun _ => False ∨ False) = fun _ : NodeId => False := by simp
            rwa [hnone] at h

theorem comment {kind : CommentKind} {body : String} :
    LaysAll s (fun _ => False) false fun _ => comment kind body ++ Writing.newLine := by
  obtain ⟨steps, hsteps, hlayout⟩ := layout_textLines (s := s) (commentLines_marked s.language kind body)
  exact of_steps (fun _ h => hsteps h) hlayout (by simp)

theorem trivia : LaysAll s (fun _ => False) false fun _ => trivia t n := by
  refine bind (fun _ => rfl) ((inOrder (p := false) _ (fun _ _ => False) fun c _ => ?_).congr
    fun _ => by simp)
  split
  · exact comment
  · exact newLine
  · exact of_steps (fun _ _ => rfl) (fun _ => .nothing) (by simp)

theorem onLines {ns : List NodeId} (h : ∀ c ∈ ns, s.Prints c) :
    LaysAll s (· ∈ ns) false fun node => onLines node ns := by
  refine (inOrder (p := true) (fun c node => leadingTrivia c ++ node c ++ Writing.newLine)
    (fun c d => d = c) fun c hc => ?_).congr ?_
  · have hnode := (trivia (n := c) (t := .leadingTrivia)).after (node (h c hc))
    exact hnode.before newLine
  · simp

end LaysAll

/-! #### Writers and what they may write -/

namespace Lays

variable {s : Sheet} {m : s.Scope} {p q : Bool} {w w' : (NodeId → Written) → Written}
  {n c : NodeId} {t : Title} {text : String}

theorem weaken (h : Lays m true w) : Lays m p w := by
  obtain ⟨mark, hmay, hlays⟩ := h
  exact ⟨mark, hmay, hlays.weaken⟩

theorem of_none (h : LaysAll s (fun _ => False) p w) : Lays m p w :=
  ⟨fun _ => False, fun _ h => h.elim, h⟩

theorem of_one (h : LaysAll s (· = c) p w) (hc : m.may c) : Lays m p w :=
  ⟨(· = c), fun _ hd => hd ▸ hc, h⟩

/-! #### Single steps -/

theorem nothing : Lays m false fun _ => nothing :=
  .of_none (.of_steps (fun _ _ => rfl) (fun _ => .nothing) (by simp))

theorem put (h : IsPiece text.toList) : Lays m true fun _ => put text := .of_none (.put h)

theorem word (text : String) (h : IsPiece text.toList) : Lays m true fun _ => Writing.put text := .put h

theorem space : Lays m false fun _ => space := .of_none .space

theorem newLine : Lays m false fun _ => newLine := .of_none .newLine

/-- A piece of text that is written in two steps. -/
theorem pair {first second : String} (hfirst : first.toList ≠ [])
    (h : IsPiece (first.toList ++ second.toList)) :
    Lays m true fun _ => Writing.put first ++ Writing.put second := by
  refine .of_none (.of_steps (fun _ _ => rfl) (fun _ => .pair hfirst h) fun _ => ?_)
  obtain ⟨c, hmem, hc⟩ := h.visible
  rcases List.mem_append.mp hmem with hmem | hmem
  · exact ⟨first, by simp, c, hmem, hc⟩
  · exact ⟨second, by simp, c, hmem, hc⟩

theorem throws (h : ∀ node h steps, w node (s.page h) ≠ .ok steps) : Lays m p w := .of_none (.throws h)

theorem unsupported (n : NodeId) : Lays m p fun _ => unsupported n :=
  throws fun _ _ _ h => by cases h

theorem node (h : m.may c) : Lays m true fun node => node c := .of_one (.node (m.prints h)) h

/-! #### Putting together -/

theorem appended (hw : Lays m p w) (hw' : Lays m q w') :
    Lays m (p || q) fun node => w node ++ w' node := by
  obtain ⟨mark, hmay, hlays⟩ := hw
  obtain ⟨mark', hmay', hlays'⟩ := hw'
  exact ⟨_, fun c hc => hc.elim (hmay c) (hmay' c), hlays.append hlays'⟩

theorem append (hw : Lays m p w) (hw' : Lays m q w') :
    Lays m false fun node => w node ++ w' node := by
  obtain ⟨mark, hmay, hlays⟩ := hw.appended hw'
  refine ⟨mark, hmay, fun holds hknows node hnode h steps hsteps => ?_⟩
  exact ⟨(hlays holds hknows node hnode h steps hsteps).1, by simp⟩

/-- A writer that prints text, and then more. -/
theorem left (hw : Lays m true w) (hw' : Lays m q w') : Lays m true fun node => w node ++ w' node :=
  hw.appended hw'

/-- A writer in front of one that prints text. -/
theorem right (hw : Lays m p w) (hw' : Lays m true w') : Lays m true fun node => w node ++ w' node := by
  have h := hw.appended hw'
  rwa [Bool.or_true] at h

/-- A word with a space in front of it. -/
theorem spaced (hw : Lays m p w) {first second : String} (hfirst : first.toList ≠ [])
    (h : IsPiece (first.toList ++ second.toList)) :
    Lays m true fun node => w node ++ Writing.put first ++ Writing.put second := by
  simp only [written_append_assoc]
  exact hw.right (pair hfirst h)

theorem indented (hw : Lays m p w) : Lays m p fun node => indented (w node) := by
  obtain ⟨mark, hmay, hlays⟩ := hw
  exact ⟨mark, hmay, hlays.indented⟩

theorem header (hw : Lays m p w) : Lays m p fun node => header (w node) := by
  obtain ⟨mark, hmay, hlays⟩ := hw
  exact ⟨mark, hmay, fun holds hknows node hnode _ steps hsteps =>
    hlays holds hknows node hnode true steps hsteps⟩

theorem onlyIf {b : Bool} (hw : b = true → Lays m p w) : Lays m false fun node => onlyIf b (w node) := by
  cases b with
  | true =>
      obtain ⟨mark, hmay, hlays⟩ := hw rfl
      refine ⟨mark, hmay, fun holds hknows node hnode h steps hsteps => ?_⟩
      exact ⟨(hlays holds hknows node hnode h steps hsteps).1, by simp⟩
  | false => exact nothing

theorem commas {k : Nat} : Lays m false fun _ => Writing.inOrder (List.replicate k (Writing.put ",")) := by
  induction k with
  | zero => exact nothing
  | succ k ih => exact (put (by decide)).append ih

theorem successor {k : Nat} : Lays m true fun _ => Writing.successor k := by
  unfold Writing.successor
  split
  · exact put (isPiece_of_endsSolid (nat_solid (k + 1)))
  · exact throws fun _ _ _ h => by cases h

/-! #### Looking at the page -/

/-- A computation that does not depend on whether it stands in a header, and what follows. -/
theorem bind {α : Type} {x : Writing α} {k : (NodeId → Written) → α → Written}
    (hx : ∀ h, x (s.page h) = x (s.page false))
    (hk : ∀ a, x (s.page false) = .ok a → Lays m p fun node => k node a) :
    Lays m p fun node => x >>= k node := by
  cases ha : x (s.page false) with
  | error e =>
      refine throws fun node h steps hw => ?_
      obtain ⟨a, hxa, -⟩ := ok_of_bind hw
      rw [hx, ha] at hxa
      cases hxa
  | ok a =>
      obtain ⟨mark, hmay, hlays⟩ := hk a ha
      exact ⟨mark, hmay, hlays.bind fun h => (hx h).trans ha⟩

theorem forest {k : (NodeId → Written) → Forest → Written}
    (hk : Lays m p fun node => k node s.forest) :
    Lays m p fun node => forest >>= k node :=
  bind (fun _ => rfl) fun f hf => by
    cases hf
    exact hk

theorem required {k : (NodeId → Written) → NodeId → Written}
    (hk : ∀ c, s.forest.child? n t = some c → Lays m p fun node => k node c) :
    Lays m p fun node => required n t >>= k node := by
  have heq : ∀ h, Writing.required n t (s.page h) = (s.forest.child? n t).elim _ .ok := fun h =>
    required_eq n t (s.page h)
  exact bind (fun h => (heq h).trans (heq false).symm) fun c hc => hk c (child_of_required rfl hc)

/-- A look at the page that does not tell whether it belongs to a header. -/
theorem read {k : (NodeId → Written) → Page → Written}
    (hheader : ∀ h node, k node (s.page h) (s.page h) = k node (s.page false) (s.page h))
    (hk : Lays m p fun node => k node (s.page false)) :
    Lays m p fun node => MonadReader.read >>= k node := by
  obtain ⟨mark, hmay, hlays⟩ := hk
  refine ⟨mark, hmay, fun holds hknows node hnode h steps hw => ?_⟩
  obtain ⟨page, hpage, hw⟩ := ok_of_bind hw
  cases hpage
  rw [hheader] at hw
  exact hlays holds hknows node hnode h steps hw

theorem unlessInHeader (n : NodeId) (hw : Lays m p w) :
    Lays m p fun node =>
      (do if (← MonadReader.read).inHeader then Writing.unsupported n else w node : Written) := by
  obtain ⟨mark, hmay, hlays⟩ := hw
  exact ⟨mark, hmay, .inHeader (.throws fun _ _ _ h => by cases h) hlays⟩

/-! #### Lists of pieces -/

theorem inOrder {α : Type} {as : List α} (piece : α → (NodeId → Written) → Written)
    (h : ∀ a ∈ as, Lays m p (piece a)) (hp : q = true → p = true ∧ as ≠ []) :
    Lays m q fun node => inOrder (as.map fun a => piece a node) := by
  induction as generalizing q with
  | nil =>
      cases q with
      | true => exact ((hp rfl).2 rfl).elim
      | false => exact nothing
  | cons a as ih =>
      rw [List.forall_mem_cons] at h
      have hrest := ih (q := false) h.2 (by simp)
      cases q with
      | true =>
          have hp' := (hp rfl).1
          subst hp'
          exact h.1.left hrest
      | false => exact h.1.append hrest

theorem separatedBy {α : Type} {separator : Written} {as : List α}
    (piece : α → (NodeId → Written) → Written) (hseparator : Lays m q fun _ => separator)
    (h : ∀ a ∈ as, Lays m true (piece a)) (hp : p = true → as ≠ []) :
    Lays m p fun node => separatedBy separator (as.map fun a => piece a node) := by
  induction as generalizing p with
  | nil =>
      cases p with
      | true => exact (hp rfl rfl).elim
      | false => exact nothing
  | cons a as ih =>
      rw [List.forall_mem_cons] at h
      cases as with
      | nil => exact h.1.weaken
      | cons b as => exact ((h.1.left hseparator).left (ih (p := false) h.2 (by simp))).weaken

theorem commaSeparated {ns : List NodeId} (h : ∀ c ∈ ns, m.may c) (hp : p = true → ns ≠ []) :
    Lays m p fun node => commaSeparated node ns :=
  separatedBy (fun c node => node c) ((put (by decide)).left space) (fun c hc => node (h c hc))
    hp

theorem commaSeparatedAt (h : ∀ c ∈ s.forest.children n t, m.may c) :
    Lays m false fun node => commaSeparatedAt node n t :=
  forest (commaSeparated h (by simp))

theorem trivia : Lays m false fun _ => trivia t n := .of_none .trivia

theorem onLines {ns : List NodeId} (h : ∀ c ∈ ns, m.may c) (hp : p = true → ns ≠ []) :
    Lays m p fun node => onLines node ns :=
  inOrder (p := true) (fun c node => leadingTrivia c ++ node c ++ Writing.newLine)
    (fun c hc => (trivia.right (node (h c hc))).left newLine) fun h => ⟨rfl, hp h⟩

theorem ifChild {before : Written} (hbefore : Lays m p fun _ => before)
    (h : ∀ c, s.forest.child? n t = some c → m.may c) :
    Lays m false fun node => ifChild node n t before := by
  refine forest ?_
  split
  · next c hc => exact hbefore.append (node (h c hc))
  · exact nothing

theorem childOr {word : String} (hword : IsPiece word.toList)
    (h : ∀ c, s.forest.child? n t = some c → m.may c) :
    Lays m true fun node => childOr node n t word := by
  refine forest ?_
  split
  · next c hc => exact node (h c hc)
  · exact put hword

end Lays

end Writing

/-!
## What writers write of a node

A node is written with its children, as a rule.  But the writers look through a few nodes: the minus of a
step, array types around the element type of a new array, and in VB blocks, variables, an array that only
has sizes, the parts of a loop that counts, and the alternatives of an `If`.  And they put a few nodes
aside: in C# the type of a variable that is declared together with others, in VB the imports of a
namespace.  A setter writes the type of its property.
-/

section LookingThrough

open Forest

/-- Whether a node is not written where a node above it is, but in a place of its own: in C# the type of a
variable, which stands in front of the variable, and in VB the imports of a namespace, which stand at the
top of the text. -/
def Language.putsAside : Language → Forest → NodeId → NodeId → Bool
  | csharp, f, c, a => f.kind a matches .variableDeclarator && (f.children a .type).contains c
  | visualBasic, f, c, a =>
    f.kind c matches .usingDeclaration && f.kind a matches .namespaceDeclaration

theorem Language.putsAside_csharp {f : Forest} {c a : NodeId} : csharp.putsAside f c a = true ↔
    f.kind a = .variableDeclarator ∧ c ∈ f.children a .type := by
  rw [putsAside, Bool.and_eq_true, List.contains_iff_mem]
  apply and_congr_left
  intro _
  split
  · next h => exact iff_of_true rfl h
  · next h => exact iff_of_false Bool.false_ne_true h

theorem Language.putsAside_visualBasic {f : Forest} {c a : NodeId} :
    visualBasic.putsAside f c a = true ↔
      f.kind c = .usingDeclaration ∧ f.kind a = .namespaceDeclaration := by
  rw [putsAside, Bool.and_eq_true]
  apply and_congr
  · split
    · next h => exact iff_of_true rfl h
    · next h => exact iff_of_false Bool.false_ne_true h
  · split
    · next h => exact iff_of_true rfl h
    · next h => exact iff_of_false Bool.false_ne_true h

/-! ### Nodes that are looked through -/

section Through

variable {f : Forest} {n c y : NodeId} {t : Title}

/-- An array type in the creation of an array, around its element type. -/
def Forest.RanksOf (f : Forest) (n y : NodeId) : Prop :=
  (∃ bounds, f.kind n = .arrayCreateExpression bounds) ∧ (∃ rank, f.kind y = .arrayType rank) ∧
    ∃ z, y ∈ f.children z .type ∧ (z = n ∨ ∃ rank, f.kind z = .arrayType rank)

inductive CSharp.LooksThrough (f : Forest) (n y : NodeId) : Prop where
  | minus : f.kind y = .unaryOperatorExpression .minus → y ∈ f.children n .step → LooksThrough f n y
  | ranks : f.children n .arguments ≠ [] → f.RanksOf n y → LooksThrough f n y

/-- The titles of the parts of a loop that counts. -/
def Title.counts : Title → Bool
  | initializers | iterators | condition | expression | left => true
  | _ => false

/-- The type of a variable, as the variable or its declaration has it, unless it is left to inference. -/
def VisualBasic.typeOf? (f : Forest) (n v : NodeId) : Option NodeId :=
  ((f.child? n .type).or (f.child? v .type)).filter fun t => !isInferred f t

inductive VisualBasic.LooksThrough (f : Forest) (n y : NodeId) : Prop where
  | block : f.kind y = .blockStatement → LooksThrough f n y
  | variable {z} : y ∈ f.children z .declarators → LooksThrough f n y
  | sizes {v type} : v ∈ f.children n .declarators → y ∈ f.children v .initializer →
      typeOf? f n v = some type → (sizedArray? f type y).isSome → LooksThrough f n y
  | ranks : f.RanksOf n y → LooksThrough f n y
  | loop {z t} : f.kind n = .forStatement → (CountingLoop.of? f n).isSome → y ∈ f.children z t →
      t.counts = true → LooksThrough f n y
  | alternative {z} : f.kind y = .ifElseStatement → y ∈ f.children z .falseStatement →
      LooksThrough f n y

variable (hf : f.Regular)
include hf

theorem Forest.Regular.not_mem_of_suits (h : (f.kind c).suits t = false) : c ∉ f.children n t := by
  intro hc
  have hsuits := hf.suits hc
  rw [h] at hsuits
  cases hsuits

/-- What the writer of C# looks through and puts aside. -/
def CSharp.paths : Paths where
  through := CSharp.LooksThrough f
  aside := Language.csharp.putsAside f
  apart {c a} h := by
    obtain ⟨ha, hc⟩ := Language.putsAside_csharp.mp h
    constructor
    · intro n hthrough
      cases hthrough with
      | minus _ hstep => cases (hf.unique hc hstep).2
      | ranks _ hranks =>
          obtain ⟨⟨bounds, hn⟩, -, z, hz, hkind⟩ := hranks
          obtain ⟨rfl, -⟩ := hf.unique hc hz
          rcases hkind with rfl | ⟨rank, hrank⟩
          · rw [ha] at hn
            cases hn
          · rw [ha] at hrank
            cases hrank
    · intro c' haside
      have hdeclarator := (Language.putsAside_csharp.mp haside).1
      exact hf.not_mem_of_suits (by rw [hdeclarator]; rfl) hc

/-- What the writer of VB looks through and puts aside. -/
def VisualBasic.paths : Paths where
  through := VisualBasic.LooksThrough f
  aside := Language.visualBasic.putsAside f
  apart {c a} h := by
    obtain ⟨hc, -⟩ := Language.putsAside_visualBasic.mp h
    have hnot {z : NodeId} {t : Title} (ht : NodeKind.usingDeclaration.suits t = false) :
        c ∉ f.children z t :=
      hf.not_mem_of_suits (by rw [hc]; exact ht)
    constructor
    · intro n hthrough
      cases hthrough with
      | block hkind | alternative hkind =>
          rw [hc] at hkind
          cases hkind
      | «variable» hmem => exact hnot rfl hmem
      | sizes _ hmem => exact hnot rfl hmem
      | ranks hranks =>
          obtain ⟨-, -, z, hz, -⟩ := hranks
          exact hnot rfl hz
      | @loop z t _ _ hmem ht =>
          refine hnot ?_ hmem
          cases t <;> first | rfl | cases ht
    · intro c' haside
      rw [(Language.putsAside_visualBasic.mp haside).2] at hc
      cases hc

/-- What the writer of a language looks through and puts aside. -/
def Language.paths : Language → Paths
  | csharp => CSharp.paths hf
  | visualBasic => VisualBasic.paths hf

omit hf in
@[simp] theorem Language.paths_aside (l : Language) (hf : f.Regular) :
    (l.paths hf).aside = l.putsAside f := by
  cases l <;> rfl

end Through

namespace Writing

variable {l : Language} {f : Forest} {style : Style} {n c p : NodeId} {t : Title}

def Borrows (f : Forest) (n c : NodeId) : Prop :=
  ∃ role p, f.kind n = .accessor role ∧ f.parent n = some p ∧ c ∈ f.children p .type

/-- A node that may be written with another. -/
structure May (l : Language) (hf : f.Regular) (n c : NodeId) : Prop where
  prints : (f.kind c).printsIn l = true
  /-- It is mentioned or borrowed, and accessors are written with their properties. -/
  told : f.Mentions (l.paths hf) n c ∧
      (∀ role, f.kind c = .accessor role → f.kind n = .propertyDeclaration ∧ f.parent c = some n) ∨
    Borrows f n c

/-- The nodes that may be written with another. -/
def scope (l : Language) (hf : f.Regular) (style : Style) (n : NodeId) :
    (⟨l, f, style⟩ : Sheet).Scope where
  may := May l hf n
  prints h := h.prints

end Writing

/-- Whether the nodes under a title are written in a language, as a rule, with the node that they stand
below. -/
def Title.shown : Language → Title → Bool
  | _, getter | _, setter => false
  | .csharp, t => !t.isLexical
  | .visualBasic, t => !t.isLexical && !t.holdsStatements && !t.holdsBlocks && t != declarators

/-- Whether a node of a kind is always written with its children under a title. -/
def NodeKind.shows : Language → NodeKind → Title → Bool
  | _, propertyDeclaration, .getter | _, propertyDeclaration, .setter => true
  | _, arrayCreateExpression _, .type | .csharp, variableDeclarator, .type | .csharp, _, .step
  | .visualBasic, namespaceDeclaration, .members => false
  | .visualBasic, forStatement, t => t.shown .visualBasic && !t.counts
  | l, _, t => t.shown l

section Shown

variable {l : Language} {k child : NodeKind} {t : Title}

theorem Title.shown_lexical (h : t.shown l = true) : t.isLexical = false := by
  unfold shown at h
  split at h <;> simp_all

theorem Title.shown_accessor (h : t.shown l = true) : t ≠ .getter ∧ t ≠ .setter := by
  constructor
  · rintro rfl
    cases h
  · rintro rfl
    cases h

theorem Title.shown_statements (h : t.shown .visualBasic = true) :
    t.holdsStatements = false ∧ t.holdsBlocks = false ∧ t ≠ .declarators := by
  unfold shown at h
  split at h <;> simp_all

theorem NodeKind.shows_shown (h : k.shows l t = true) :
    t.shown l = true ∨ k = .propertyDeclaration ∧ (t = .getter ∨ t = .setter) := by
  unfold shows at h
  split at h
  · exact .inr ⟨rfl, .inl rfl⟩
  · exact .inr ⟨rfl, .inr rfl⟩
  · cases h
  · cases h
  · cases h
  · cases h
  · exact .inl ((Bool.and_eq_true ..).mp h).1
  · exact .inl h

theorem NodeKind.shows_type {bounds : ArrayBounds} (h : k.shows l t = true)
    (hk : k = .arrayCreateExpression bounds) : t ≠ .type := by
  rintro rfl
  subst hk
  cases l <;> cases h

theorem NodeKind.shows_step (h : k.shows .csharp t = true) : t ≠ .step := by
  rintro rfl
  cases k <;> cases h

theorem NodeKind.shows_loop (h : k.shows .visualBasic t = true) (hk : k = .forStatement) :
    t.counts = false := by
  subst hk
  rcases shows_shown h with hshown | ⟨hk, -⟩
  · unfold shows at h
    split at h <;> simp_all
  · cases hk

theorem NodeKind.shows_modifiers (k : NodeKind) : k.shows l .modifiers = true := by
  cases l <;> cases k <;> rfl

theorem NodeKind.prints_of_shown (hsuits : child.suits t = true) (h : t.shown l = true) :
    child.printsIn l = true := by
  have hlexical := Title.shown_lexical h
  have htrivia : (t == .leadingTrivia || t == .trailingTrivia) = false := by
    rw [Bool.eq_false_iff]
    simp only [ne_eq, Bool.or_eq_true, beq_iff_eq]
    rintro (rfl | rfl) <;> cases hlexical
  cases l with
  | csharp => cases child <;> simp_all [suits, printsIn]
  | visualBasic =>
      obtain ⟨hstatements, hblocks, hdeclarators⟩ := Title.shown_statements h
      cases child <;> simp_all [suits, printsIn]

/-- A statement that is neither a block nor empty prints some text. -/
theorem NodeKind.statement_of_suits (hsuits : child.suits t = true)
    (ht : t.holdsStatements = true ∨ t.holdsBlocks = true) (hblock : child ≠ .blockStatement)
    (hempty : child ≠ .emptyStatement) :
    child.printsIn .visualBasic = true ∧ child ≠ .usingDeclaration ∧ ∀ role, child ≠ .accessor role := by
  have htitle : t.isLexical = false ∧ (t == .leadingTrivia || t == .trailingTrivia) = false ∧
      (t == .getter || t == .setter) = false ∧ (t == .members) = false ∧
      (t == .declarators) = false := by
    cases t <;> first | exact ⟨rfl, rfl, rfl, rfl, rfl⟩ | exact (ht.elim nofun nofun)
  cases child <;> simp_all [suits, printsIn]

theorem NodeKind.accessor_title {role : AccessorKind} (hsuits : (accessor role).suits t = true) :
    t = .getter ∨ t = .setter := by
  simpa [suits] using hsuits

end Shown

namespace Writing

variable {l : Language} {f : Forest} {style : Style} {n c y : NodeId} {t : Title} {hf : f.Regular}

theorem May.prints_of_shows (hc : c ∈ f.children n t) (hf : f.Regular)
    (h : (f.kind n).shows l t = true) : (f.kind c).printsIn l = true := by
  have hsuits := hf.suits hc
  rcases NodeKind.shows_shown h with hshown | ⟨-, rfl | rfl⟩
  · exact NodeKind.prints_of_shown hsuits hshown
  all_goals
    cases l with
    | csharp => cases hk : f.kind c <;> rw [hk] at hsuits <;> first | rfl | cases hsuits
    | visualBasic => cases hk : f.kind c <;> rw [hk] at hsuits <;> first | rfl | cases hsuits

theorem not_through (hf : f.Regular) (hc : c ∈ f.children n t) (h : (f.kind n).shows l t = true) :
    ¬ (l.paths hf).through n c := by
  intro hthrough
  have hranks : ¬ f.RanksOf n c := by
    rintro ⟨⟨bounds, hn⟩, -, z, hz, -⟩
    exact NodeKind.shows_type h hn (hf.unique hc hz).2
  cases l with
  | csharp =>
      cases hthrough with
      | minus _ hstep =>
          exact NodeKind.shows_step h (hf.unique hc hstep).2
      | ranks _ h => exact hranks h
  | visualBasic =>
      have hprints := May.prints_of_shows hc hf h
      cases hthrough with
      | block hkind =>
          rw [hkind] at hprints
          cases hprints
      | «variable» hmem =>
          obtain ⟨-, rfl⟩ := hf.unique hc hmem
          rcases NodeKind.shows_shown h with hshown | ⟨-, ht | ht⟩
          · cases hshown
          · cases ht
          · cases ht
      | sizes hv hmem =>
          obtain ⟨rfl, -⟩ := hf.unique hc hmem
          exact hf.links.acyclic n (.single (hf.parent hv))
      | ranks h => exact hranks h
      | loop hkind _ hmem ht =>
          rw [← (hf.unique hc hmem).2, NodeKind.shows_loop h hkind] at ht
          cases ht
      | alternative _ hmem =>
          obtain ⟨-, rfl⟩ := hf.unique hc hmem
          rcases NodeKind.shows_shown h with hshown | ⟨-, ht | ht⟩
          · cases hshown
          · cases ht
          · cases ht

theorem not_aside (hf : f.Regular) (hc : c ∈ f.children n t) (h : (f.kind n).shows l t = true) :
    ¬ (l.paths hf).aside c n := by
  intro haside
  rw [Language.paths_aside] at haside
  cases l with
  | csharp =>
      obtain ⟨hn, hmem⟩ := Language.putsAside_csharp.mp haside
      rw [hn, (hf.unique hc hmem).2] at h
      cases h
  | visualBasic =>
      obtain ⟨hkind, hn⟩ := Language.putsAside_visualBasic.mp haside
      have hsuits := hf.suits hc
      rw [hkind] at hsuits
      have ht : t = .members := by simpa [NodeKind.suits] using hsuits
      rw [hn, ht] at h
      cases h

/-- A child under a title with which it is always written. -/
theorem May.child (hc : c ∈ f.children n t) (h : (f.kind n).shows l t = true) : May l hf n c where
  prints := prints_of_shows hc hf h
  told := by
    refine .inl ⟨.child hf.links (hf.parent hc) (not_through hf hc h) (not_aside hf hc h), ?_⟩
    intro role hrole
    have hsuits := hf.suits hc
    rw [hrole] at hsuits
    have ht := NodeKind.accessor_title hsuits
    rcases NodeKind.shows_shown h with hshown | ⟨hkind, -⟩
    · exact (ht.elim (Title.shown_accessor hshown).1 (Title.shown_accessor hshown).2).elim
    · exact ⟨hkind, hf.parent hc⟩

/-- A node that stands below nodes that are looked through. -/
theorem May.under (hunder : f.Under (l.paths hf) n c) (hc : c ∈ f.children y t)
    (ht : t.shown l = true) (hthrough : ¬ (l.paths hf).through n c) (haside : ¬ (l.paths hf).aside c n) :
    May l hf n c where
  prints := NodeKind.prints_of_shown (hf.suits hc) ht
  told := by
    refine .inl ⟨⟨hunder.below, .inl hunder.between, hthrough, haside⟩, fun role hrole => ?_⟩
    have hsuits := hf.suits hc
    rw [hrole] at hsuits
    have ht' := NodeKind.accessor_title hsuits
    exact (ht'.elim (Title.shown_accessor ht).1 (Title.shown_accessor ht).2).elim

theorem may_children (l : Language) (hf : f.Regular) (style : Style) {k : NodeKind} (hk : f.kind n = k)
    (h : k.shows l t = true) : ∀ c ∈ f.children n t, (scope l hf style n).may c :=
  fun _ hc => .child hc (by rw [hk]; exact h)

theorem may_child? (l : Language) (hf : f.Regular) (style : Style) {k : NodeKind} (hk : f.kind n = k)
    (h : k.shows l t = true) (hc : f.child? n t = some c) : (scope l hf style n).may c :=
  may_children l hf style hk h c (mem_children_of_child? hc)

/-- Writing spreads as the nodes are mentioned and borrowed. -/
theorem spreads_of_may (hf : f.Regular) {root : NodeId} (hroot : f.parent root = none)
    {holds : NodeId → NodeId → Prop} (hmay : ∀ n c, holds n c → May l hf n c) :
    f.Spreads (l.paths hf) root holds where
  links := hf.links
  root := hroot
  holds {n c} h := by
    rcases (hmay n c h).told with ⟨hmentions, -⟩ | ⟨role, p, hrole, hp, hc⟩
    · exact .inl hmentions
    · refine .inr ⟨by simp [hp], fun x hx => ?_⟩
      rcases (hmay x n hx).told with ⟨hmentions, haccessor⟩ | ⟨_, p', _, _, hn⟩
      · obtain ⟨hkind, hparent⟩ := haccessor role hrole
        obtain rfl : x = p := Option.some_inj.mp (hparent.symm.trans hp)
        have hshows : (f.kind x).shows l .type = true := by
          rw [hkind]
          cases l <;> rfl
        have hchild : f.Mentions (l.paths hf) x c :=
          .child hf.links (hf.parent hc) (not_through hf hc hshows) (not_aside hf hc hshows)
        exact ⟨hmentions, hp, hf.parent hc, hchild⟩
      · exact (hf.not_mem_of_suits (by rw [hrole]; rfl) hn).elim

end Writing

end LookingThrough

/-!
## Element types of new arrays

The type of a new array is written as its element type, with the ranks of the array types around it
behind the sizes.  Both writers find the element type in the same way, and look through the array types.
-/

section ElementTypes

open Forest Writing

theorem VisualBasic.elementType_eq (f : Forest) (fuel : Nat) (type : NodeId) :
    VisualBasic.elementType f fuel type = CSharp.elementType f fuel type := by
  induction fuel generalizing type with
  | zero => rfl
  | succ fuel ih =>
      rw [VisualBasic.elementType, CSharp.elementType]
      cases f.kind type <;> simp only [ih]

theorem CSharp.elementType_array {f : Forest} {fuel rank : Nat} {type : NodeId}
    (hk : f.kind type = .arrayType rank) :
    CSharp.elementType f (fuel + 1) type = (do
      let c ← required type .type
      let r ← CSharp.elementType f fuel c
      return (r.1, rank :: r.2)) := by
  rw [CSharp.elementType, hk]

theorem CSharp.elementType_other {f : Forest} {fuel : Nat} {type : NodeId}
    (hk : ∀ rank, f.kind type ≠ .arrayType rank) :
    CSharp.elementType f (fuel + 1) type = pure (type, []) := by
  rw [CSharp.elementType]
  cases h : f.kind type
  case arrayType rank => exact (hk rank h).elim
  all_goals rfl

/-- It does not matter whether an array stands in a header. -/
theorem CSharp.elementType_page {s : Sheet} (f : Forest) (fuel : Nat) (type : NodeId) (h : Bool) :
    CSharp.elementType f fuel type (s.page h) = CSharp.elementType f fuel type (s.page false) := by
  induction fuel generalizing type with
  | zero => rfl
  | succ fuel ih =>
      by_cases hk : ∃ rank, f.kind type = .arrayType rank
      · obtain ⟨rank, hk⟩ := hk
        rw [elementType_array hk]
        apply bind_page
        · rw [required_eq, required_eq]
          rfl
        · intro c
          apply bind_page
          · exact ih c
          · intro r
            rfl
      · rw [elementType_other fun rank hrank => hk ⟨rank, hrank⟩]
        rfl

namespace Writing

variable {l : Language} {f : Forest} {n c y z : NodeId} {bounds : ArrayBounds} {hf : f.Regular}

theorem through_of_ranksOf (h : f.RanksOf n y) (hsizes : l = .csharp → f.children n .arguments ≠ []) :
    (l.paths hf).through n y := by
  cases l with
  | csharp => exact .ranks (hsizes rfl) h
  | visualBasic => exact .ranks h

/-- A type of a new array that is not looked through is written with it. -/
theorem may_type (hk : f.kind n = .arrayCreateExpression bounds)
    (hunder : f.Under (l.paths hf) n c) (hc : c ∈ f.children z .type)
    (hnot : f.RanksOf n c → l = .csharp ∧ f.children n .arguments = []) : May l hf n c := by
  refine .under hunder hc (by cases l <;> rfl) (fun hthrough => ?_) fun haside => ?_
  · cases l with
    | csharp =>
        cases hthrough with
        | minus _ hstep => cases (hf.unique hc hstep).2
        | ranks hsizes h => exact hsizes (hnot h).2
    | visualBasic =>
        cases hthrough with
        | block hkind => exact hf.not_mem_of_suits (by rw [hkind]; rfl) hc
        | «variable» hmem | sizes _ hmem | alternative _ hmem => cases (hf.unique hc hmem).2
        | ranks h => cases (hnot h).1
        | loop hkind =>
            rw [hk] at hkind
            cases hkind
  · rw [Language.paths_aside] at haside
    cases l with
    | csharp =>
        have hkind := (Language.putsAside_csharp.mp haside).1
        rw [hk] at hkind
        cases hkind
    | visualBasic =>
        have hkind := (Language.putsAside_visualBasic.mp haside).2
        rw [hk] at hkind
        cases hkind

/-- The search for an element type ends at one that is written with the array. -/
theorem may_of_elementType (hk : f.kind n = .arrayCreateExpression bounds)
    (hsizes : l = .csharp → f.children n .arguments ≠ []) {page : Page} (hpage : page.forest = f)
    {fuel : Nat} {r : NodeId × List Nat} (hunder : f.Under (l.paths hf) n y)
    (hy : y ∈ f.children z .type) (hz : z = n ∨ ∃ rank, f.kind z = .arrayType rank)
    (h : CSharp.elementType f fuel y page = .ok r) : May l hf n r.1 := by
  induction fuel generalizing y z r with
  | zero => cases h
  | succ fuel ih =>
      by_cases hkind : ∃ rank, f.kind y = .arrayType rank
      · obtain ⟨rank, hrank⟩ := hkind
        rw [CSharp.elementType_array hrank] at h
        obtain ⟨c, hc, h⟩ := ok_of_bind h
        obtain ⟨r', hr', h⟩ := ok_of_bind h
        cases h
        have hmem := mem_children_of_child? (child_of_required hpage hc)
        have hranks : f.RanksOf n y := ⟨⟨bounds, hk⟩, ⟨rank, hrank⟩, z, hy, hz⟩
        have hunder' := hunder.step (through_of_ranksOf hranks hsizes) (hf.parent hmem)
        have hmay := ih hunder' hmem (.inr ⟨rank, hrank⟩) hr'
        exact hmay
      · have hnot : ∀ rank, f.kind y ≠ .arrayType rank := fun rank hrank => hkind ⟨rank, hrank⟩
        rw [CSharp.elementType_other hnot] at h
        cases h
        exact may_type hk hunder hy fun hranks => by
          obtain ⟨-, ⟨rank, hrank⟩, -⟩ := hranks
          exact (hnot rank hrank).elim

end Writing

end ElementTypes

end DualSyntax
