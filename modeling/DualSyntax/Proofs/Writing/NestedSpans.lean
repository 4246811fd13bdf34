import DualSyntax.Proofs.Lowering.ParsedForests
import DualSyntax.Proofs.Writing.CSharpLayout
import DualSyntax.Proofs.Writing.VisualBasicLayout

/-!
# The spans of nodes

The spans that are noted of the nodes of a text lie in the text and nest, first in any regular forest and then
in that of a parsed text.
-/

namespace DualSyntax

/-!
## The spans of nodes

When a tree of a regular forest is written, every span that is noted lies in the text, with both ends
between characters, and in the span of the nearest node above that is written at all and that the node is
not put aside from.
-/

section RegularForests

open Forest Writing
open Output (Layout Noted)

/-- Whether a node of a kind may be the root of a text. -/
def NodeKind.standsAlone : NodeKind → Bool
  | token .. | comment .. | blankLine | variableDeclarator => false
  | _ => true

theorem NodeKind.printsIn_csharp {l : Language} {k : NodeKind}
    (h : k.standsAlone = true ∨ k.printsIn l = true) :
    k.printsIn .csharp = true ∨ k = .compilationUnit := by
  cases l <;> cases k <;> simp_all [standsAlone, printsIn]

namespace Writing

def kindOf : Language → (NodeId → Written) → NodeId → Written
  | .csharp => CSharp.writeKind
  | .visualBasic => VisualBasic.writeKind

theorem nodeUpTo_succ (l : Language) (fuel : Nat) (n : NodeId) :
    nodeUpTo l (fuel + 1) n = marked n (kindOf l (nodeUpTo l fuel) n) := by
  cases l <;> rfl

variable {l : Language} {f : Forest} {style : Style} {n c root : NodeId} {o : Output}

theorem laysAll_modifier {m : Modifier} (hk : f.kind n = .modifier m) :
    LaysAll ⟨l, f, style⟩ (fun _ => False) true fun node => kindOf l node n := by
  cases l with
  | csharp =>
      refine .bind (a := f) (fun _ => rfl) ?_
      rw [hk]
      dsimp only
      split
      · next word hword => exact .put (modifierText_isPiece hword)
      · exact .throws fun _ _ _ h => by cases h
  | visualBasic =>
      refine .bind (a := f) (fun _ => rfl) ?_
      rw [hk]
      dsimp only
      split
      · next word hword => exact .put (modifierText_isPiece hword)
      · exact .throws fun _ _ _ h => by cases h

theorem lays_kindOf (style : Style) (hf : f.Regular)
    (hn : (f.kind n).standsAlone = true ∨ (f.kind n).printsIn l = true)
    (hblock : l = .csharp → f.kind n ≠ .blockStatement) :
    Lays (scope l hf style n) ((f.kind n).printsIn l) fun node => kindOf l node n := by
  cases l with
  | csharp =>
      exact CSharp.lays_kind style hf (NodeKind.printsIn_csharp hn) (hblock rfl)
  | visualBasic =>
      refine VisualBasic.lays_kind style hf (NodeKind.printsIn_csharp hn) fun hk => ?_
      rw [hk] at hn
      rcases hn with h | h <;> cases h

/-- What a node holds when it is written: the nodes that its text directly consists of. -/
structure Held (l : Language) (hf : f.Regular) (style : Style) (holds : NodeId → NodeId → Prop) : Prop where
  may : ∀ n c, holds n c → May l hf n c
  knows : Sheet.Knows ⟨l, f, style⟩ holds
  lays : ∀ n, (f.kind n).standsAlone = true ∨ (f.kind n).printsIn l = true →
    LaysAll ⟨l, f, style⟩ (holds n) ((f.kind n).printsIn l) (fun node => kindOf l node n) ∨
      LaysAll ⟨l, f, style⟩ (· = n) ((f.kind n).printsIn l) fun node => kindOf l node n

theorem exists_held (l : Language) (hf : f.Regular) (style : Style) : ∃ holds, Held l hf style holds := by
  have hmarks (n : NodeId) : ∃ mark : NodeId → Prop, (∀ c, mark c → May l hf n c) ∧
      (l = .csharp → f.kind n = .blockStatement → ∀ c, mark c ↔ c ∈ f.children n .statements) ∧
      (∀ m, f.kind n = .modifier m → ∀ c, ¬ mark c) ∧
      ((f.kind n).standsAlone = true ∨ (f.kind n).printsIn l = true →
        LaysAll ⟨l, f, style⟩ mark ((f.kind n).printsIn l) (fun node => kindOf l node n) ∨
          LaysAll ⟨l, f, style⟩ (· = n) ((f.kind n).printsIn l) fun node => kindOf l node n) := by
    by_cases hblock : l = .csharp ∧ f.kind n = .blockStatement
    · obtain ⟨rfl, hk⟩ := hblock
      refine ⟨(· ∈ f.children n .statements), may_children .csharp hf style hk rfl,
        fun _ _ _ => Iff.rfl, fun m hm => ?_, fun _ => .inr ?_⟩
      · rw [hk] at hm
        cases hm
      · refine .bind (a := f) (fun _ => rfl) ?_
        rw [hk]
        exact .read fun h => CSharp.laysAll_block style hf hk _
    · by_cases hmodifier : ∃ m, f.kind n = .modifier m
      · obtain ⟨m, hk⟩ := hmodifier
        refine ⟨fun _ => False, fun _ h => h.elim, fun _ h => ?_, fun _ _ _ => id, fun _ => .inl ?_⟩
        · rw [hk] at h
          cases h
        · exact (laysAll_modifier hk).weaken
      · by_cases hn : (f.kind n).standsAlone = true ∨ (f.kind n).printsIn l = true
        · obtain ⟨mark, hmay, hlays⟩ := lays_kindOf style hf hn fun hl hk => hblock ⟨hl, hk⟩
          exact ⟨mark, hmay, fun hl hk => (hblock ⟨hl, hk⟩).elim,
            fun m hm => (hmodifier ⟨m, hm⟩).elim, fun _ => .inl hlays⟩
        · exact ⟨fun _ => False, fun _ h => h.elim, fun hl hk => (hblock ⟨hl, hk⟩).elim,
            fun m hm => (hmodifier ⟨m, hm⟩).elim, fun h => (hn h).elim⟩
  choose holds hmay hblocks hmodifiers hlays using hmarks
  exact ⟨holds, hmay, ⟨fun hl b hb c => hblocks b hl hb c, fun n m hm => hmodifiers n m hm⟩, hlays⟩

section Held

variable {hf : f.Regular} {holds : NodeId → NodeId → Prop} (h : Held l hf style holds)
include h

/-- The steps of a node, if those of the nodes below are laid out. -/
theorem Held.node {node : NodeId → Written}
    (hnode : ∀ c, Sheet.Prints ⟨l, f, style⟩ c → LaysNode ⟨l, f, style⟩ holds node c)
    (hn : (f.kind n).standsAlone = true ∨ (f.kind n).printsIn l = true) {inHeader : Bool}
    {steps : List OutputStep} (hw : kindOf l node n (Sheet.page ⟨l, f, style⟩ inHeader) = .ok steps) :
    ∃ tops, Layout holds steps tops ∧ ((∀ c, tops c ↔ holds n c) ∨ ∀ c, tops c ↔ c = n) ∧
      ((f.kind n).printsIn l = true → Output.PrintsText steps) := by
  rcases h.lays n hn with hlays | hlays
  · obtain ⟨⟨tops, hlayout, htops⟩, hprints⟩ := hlays holds h.knows node hnode inHeader steps hw
    exact ⟨tops, hlayout, .inl htops, hprints⟩
  · obtain ⟨⟨tops, hlayout, htops⟩, hprints⟩ := hlays holds h.knows node hnode inHeader steps hw
    exact ⟨tops, hlayout, .inr htops, hprints⟩

/-- By induction on the depth: every node that prints some text lays it out. -/
theorem Held.laysNode (fuel : Nat) (hn : Sheet.Prints ⟨l, f, style⟩ n) :
    LaysNode ⟨l, f, style⟩ holds (nodeUpTo l fuel) n := by
  induction fuel generalizing n with
  | zero =>
      intro inHeader steps hw
      cases l <;> cases hw
  | succ fuel ih =>
      intro inHeader steps hw
      rw [nodeUpTo_succ] at hw
      obtain ⟨inner, hinner, rfl⟩ := LaysAll.ok_of_marked hw
      obtain ⟨tops, hlayout, htops, hprints⟩ := h.node (fun _ => ih) (.inr hn) hinner
      exact ⟨hlayout.node n htops (hprints hn), Output.printsText_node.mpr (hprints hn)⟩

end Held

theorem unit_narrow {unit : List Char} (h : style.indentUnit? = some unit) : ∀ c ∈ unit, c.utf8Size = 1 := by
  unfold Style.indentUnit? at h
  split at h
  · cases h
    intro c hc
    rw [List.mem_singleton.mp hc]
    rfl
  · split at h <;> cases h
    intro c hc
    rw [List.eq_of_mem_replicate hc]
    rfl

/-- The steps of a text that is written, around the steps of its root. -/
theorem exists_steps (hw : write l f root style = .ok o) : ∃ unit lead body,
    style.indentUnit? = some unit ∧ leadingTrivia root (Sheet.page ⟨l, f, style⟩ false) = .ok lead ∧
      kindOf l (nodeUpTo l (2 * f.size + 1)) root (Sheet.page ⟨l, f, style⟩ false) = .ok body ∧
      Output.run? { unit } (lead ++ .start root :: (body ++ [.stop root])) = some o := by
  unfold write at hw
  split at hw
  · cases hw
  · next empty hempty =>
      obtain ⟨unit, hunit, rfl⟩ := Option.map_eq_some_iff.mp hempty
      cases hsteps : Writing.steps l f root style with
      | error e =>
          rw [hsteps] at hw
          cases hw
      | ok steps =>
          rw [hsteps] at hw
          obtain ⟨lead, more, hlead, hmore, rfl⟩ := ok_of_append hsteps
          rw [nodeUpTo_succ] at hmore
          obtain ⟨body, hbody, rfl⟩ := LaysAll.ok_of_marked hmore
          refine ⟨unit, lead, body, hunit, hlead, hbody, ?_⟩
          cases hrun : Output.run? { unit } (lead ++ .start root :: (body ++ [.stop root])) with
          | none => simp [bind, Except.bind, hrun] at hw
          | some o' =>
              simp [bind, Except.bind, hrun] at hw
              cases hw
              rfl

/-- **Spans nest in regular forests.** -/
theorem spans_of_write (hf : f.Regular) (hroot : f.parent root = none)
    (hkind : (f.kind root).standsAlone = true) (hw : write l f root style = .ok o) :
    (∀ n s, o.spanOf? n = some s → s.start ≤ s.stop ∧
      Text.IsBoundary o.text.toList s.start ∧ Text.IsBoundary o.text.toList s.stop) ∧
    ∀ n s a, o.spanOf? n = some s →
      (f.ancestors n).find? (fun a => (o.spanOf? a).isSome && !l.putsAside f n a) = some a →
      ∃ t, o.spanOf? a = some t ∧ s.IsWithin t := by
  obtain ⟨holds, h⟩ := exists_held l hf style
  obtain ⟨unit, lead, body, hunit, hlead, hbody, hrun⟩ := exists_steps hw
  have hprints (c : NodeId) (hc : Sheet.Prints ⟨l, f, style⟩ c) := h.laysNode (2 * f.size + 1) hc
  obtain ⟨⟨tops, hlead, htops⟩, -⟩ := (LaysAll.trivia (s := ⟨l, f, style⟩)) holds h.knows
    (nodeUpTo l (2 * f.size + 1)) hprints false lead hlead
  obtain ⟨tops', hbody, htops', -⟩ := h.node hprints (.inl hkind) hbody
  have hnone : tops = fun _ => False := funext fun c => propext (htops c)
  rw [hnone] at hlead
  obtain ⟨o', hrun', hnoted, hends⟩ := Output.exists_laid (unit_narrow hunit) hlead hbody htops'
  obtain rfl : o' = o := Option.some_inj.mp (hrun'.symm.trans hrun)
  have hspreads := spreads_of_may hf hroot h.may
  constructor
  · intro n s hs
    rw [Output.text, String.toList_ofList]
    exact hends (n, s) (Output.mem_of_latest? hs)
  · intro n s a hs ha
    refine hspreads.span_within hnoted hs ?_
    rw [Language.paths_aside]
    exact ha

end Writing

end RegularForests

/-!
## The spans of parsed texts

Whatever text is parsed and written, in either language and any style, the spans of its nodes lie in the
text that is written and nest, up to the nodes that a writer puts aside.  Names that show nothing are left
out: the white space at the end of what has been written is no part of a node.
-/

section ParsedTexts

open Forest Lowering

theorem NodeKind.standsAlone_of_sort {k : NodeKind}
    (h : k.sort ∈ [NodeSort.unit, .accessor, .directive, .block, .empty, .other]) :
    k.standsAlone = true := by
  cases k <;> first | rfl | simp [NodeKind.sort] at h

def Forest.ShowsNames (f : Forest) : Prop :=
  ∀ n s, f.kind n = .identifier s → ∃ c ∈ s.toList, Text.isBlank c = false

theorem Forest.showsNames_of_all {f : Forest} (h : (List.range f.size).all (fun n =>
    match f.kind n with
    | .identifier s => s.toList.any (!Text.isBlank ·)
    | _ => true) = true) : f.ShowsNames := by
  intro n s hkind
  have hlt : n < f.size := by
    by_contra hle
    rw [kind_of_size_le (Nat.not_lt.mp hle)] at hkind
    cases hkind
  have hn := List.all_eq_true.mp h n (List.mem_range.mpr hlt)
  rw [hkind] at hn
  simpa using hn

/-- The spans that are noted of the nodes of a forest lie between characters of the text, and each lies in
that of the nearest node above that has one and that the node is not put aside from. -/
structure Output.SpansNest (o : Output) (l : Language) (f : Forest) : Prop where
  inside : ∀ n s, o.spanOf? n = some s →
    s.start ≤ s.stop ∧ Text.IsBoundary o.text.toList s.start ∧ Text.IsBoundary o.text.toList s.stop
  nested : ∀ n s a, o.spanOf? n = some s →
    (f.ancestors n).find? (fun a => (o.spanOf? a).isSome && !l.putsAside f n a) = some a →
    ∃ t, o.spanOf? a = some t ∧ s.IsWithin t

theorem exists_written {l target : Language} {fragment : Fragment} {src : List Char} {style : Style}
    {p : Parsed → Output → Bool} (h : (parse l fragment src).toOption.any (fun parsed =>
      (write target parsed.forest parsed.root style).toOption.any (p parsed)) = true) :
    ∃ parsed o, parse l fragment src = .ok parsed ∧
      write target parsed.forest parsed.root style = .ok o ∧ p parsed o = true := by
  obtain ⟨parsed, hparse, hwritten⟩ := exists_parse h
  cases hw : write target parsed.forest parsed.root style with
  | error e =>
      rw [hw] at hwritten
      cases hwritten
  | ok o =>
      rw [hw] at hwritten
      exact ⟨parsed, o, hparse, hw, hwritten⟩

/-- Whether the span of a node goes beyond that of the nearest node above that has one. -/
def Output.strays (o : Output) (f : Forest) (n : NodeId) : Bool :=
  (o.spanOf? n).any fun s => ((f.ancestors n).find? (fun a => (o.spanOf? a).isSome)).any fun a =>
    (o.spanOf? a).any fun t => !decide (t.start ≤ s.start ∧ s.stop ≤ t.stop)

end ParsedTexts

end DualSyntax
