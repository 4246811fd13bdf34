import DualSyntax.Proofs.Lowering.Blocks

/-!
# Grammar and shapes agree

A definition fits its shape if the shape finds what it asks for in every word that the rule of the
definition spells.  The check is over the rules alone.  From it, by induction on the height of a raw
tree, every match becomes a node or is refused, and it is refused only for a match that a grammar
names.
-/

namespace DualSyntax

def Symbol.kind? {δ : Type} : Symbol δ → Option TokenKind
  | token k => some k
  | node _ => none

namespace RawTree

variable {δ : Type} {c : RawTree δ} {form : Option δ} {i j : Nat} {cs : List (RawTree δ)}

theorem height_le_heightOf (hc : c ∈ cs) : c.height ≤ heightOf cs := by
  induction cs with
  | nil => cases hc
  | cons t ts ih =>
      rw [heightOf]
      rcases List.mem_cons.mp hc with rfl | hc
      · exact Nat.le_max_left _ _
      · exact Nat.le_trans (ih hc) (Nat.le_max_right _ _)

theorem tokens_subset_tokensOf (hc : c ∈ cs) : c.tokens ⊆ tokensOf cs := by
  induction cs with
  | nil => cases hc
  | cons t ts ih =>
      rw [tokensOf]
      rcases List.mem_cons.mp hc with rfl | hc
      · exact List.subset_append_left _ _
      · exact List.Subset.trans (ih hc) (List.subset_append_right _ _)

theorem childTokens_kinds :
    (node form i j cs).childTokens.map (·.kind) = (cs.map symbol).filterMap Symbol.kind? := by
  rw [childTokens, children, List.map_filterMap, List.filterMap_map]
  congr 1
  funext t
  cases t <;> rfl

end RawTree

namespace Lowering

open Forest Lower

variable {δ : Type}

/-! ## The check of a definition -/

namespace Survey

variable [DecidableEq δ] (s : Survey δ)

def fits (d : δ) (r : Rule δ) : Shape δ → Bool
  | .forward => r.unit && r.every s.admits
  | .identifier => fitsToken (fun k => !s.grammar.terminators.contains k) r
  | .literal => fitsToken (s.literals.contains ·) r
  | .knownType => fitsToken (fun k => (KnownType.ofToken? k).isSome) r
  | .build _ parts => s.leaves (s.partsAfter d parts (s.openingBy r))
  | .join _ operands parts =>
    s.leaves (do s.partsAfter d parts (← s.operandsAfter operands (s.openingBy r)))
  | .extend parts =>
    s.leaves (do s.partsAfter d parts (← (s.openingBy r).take (·.isFormOf s.lowered)))
  | .chain operator? _ => s.isChain operator? d
  | .qualifiedType => s.isList1 d
  | .rankedType => s.isRanked (s.openingBy r)
  | .suffixed => s.isRow s.isSuffix (s.openingBy r)
  | .comparisons operator? => s.isRow (s.isComparison operator?) (s.openingBy r)
  | .sizedArray rank _ => s.isSized rank (s.openingBy r)
  | .ifBlock elseIf elsePart => s.isIfBlock elseIf elsePart d (s.openingBy r)
  | .caseBlock => s.isCase (s.openingBy r)
  | .assignment operator? => s.isAssignment operator? (s.openingBy r)
  | .rankedParameter _ rank clause => s.isRankedParameter rank clause d (s.openingBy r)
  -- these are refused, always or at times
  | .listedArray | .doLoop | .refused _ => false

/-- Whether each word of a rule has what the shape asks for that its tokens select. -/
def fitsWords (d : δ) (r : Rule δ) : Bool :=
  r.finite && r.words.all fun w =>
    ((Rule.ofWord w).erase s.grammar.terminators).productive &&
      s.fits d (.ofWord w) (s.grammar.shape d (w.filterMap Symbol.kind?))

/-- A definition fits its shape, whichever tokens its matches have. -/
def Agrees (d : δ) : Prop :=
  ∀ r, s.grammar.rule d = some r →
    s.fitsWords d r = true ∨ ∀ tokens, s.fits d r (s.grammar.shape d tokens) = true

/-- Whether the matches of a harmless definition hold harmless matches only. -/
def sparesAll (d : δ) : Bool :=
  !s.harmless d || !s.refusable d && (s.grammar.rule d).all (·.every s.spares)

end Survey

namespace Setting

variable [DecidableEq δ] {s : Survey δ} {source : Source} {e : LowerError}
  {ready clean : RawTree δ → Prop} {recur : Recur δ} {draft : Draft} {d : δ} {r : Rule δ}
  {i j : Nat} {cs : List (RawTree δ)}

/-- A match whose rule fits a shape becomes a node by it. -/
theorem makes_shaped (hs : Setting s source e ready clean recur)
    (hready : Opened s.grammar ready (.node (some d) i j cs)) (hd : s.refusable d = false)
    (hr : (r.erase s.grammar.terminators).productive = true)
    (hspells : Rule.Spells [r] (cs.map RawTree.symbol)) :
    ∀ shape : Shape δ, s.fits d r shape = true →
      Makes source e (clean (.node (some d) i j cs))
        (shaped s.grammar recur (.node (some d) i j cs) shape) draft := by
  have hopening : (s.openingBy r).Foresees (cursor s.grammar (.node (some d) i j cs)).rest :=
    foresees_openingBy hr hspells
  intro shape hfits
  cases shape with
  | forward =>
      rw [Survey.fits, Bool.and_eq_true] at hfits
      exact hs.makes_forward hready hd hfits.1 hfits.2 hspells
  | identifier => exact hs.makes_name hd hfits hspells
  | literal => exact hs.makes_value hready hd hfits hspells
  | knownType => exact (hs.does_knownType hd hfits hspells).imp fun _ _ h => h.1
  | build kind parts => exact hs.makes_build hready hd hopening hfits kind
  | join kind operands parts => exact hs.makes_join hready hd hopening hfits kind
  | extend parts =>
      obtain ⟨o, hafter, hspares⟩ := (Option.any_eq_true _ _).mp hfits
      obtain ⟨o', htake, hafter⟩ := Option.bind_eq_some_iff.mp hafter
      obtain ⟨hmust, rfl⟩ := Outlook.take_eq_some.mp htake
      exact hs.makes_extend hready hd hopening hmust
        ((Option.any_eq_true _ _).mpr ⟨o, hafter, hspares⟩)
  | chain operator? rightward => exact hs.makes_chain hfits hready rightward
  | qualifiedType => exact (hs.does_qualifiedType hfits hready).imp fun _ _ h => h.1
  | rankedType =>
      obtain ⟨_, _, -, -, hdoes⟩ := hs.does_rankedType hready hd hopening hfits draft
      exact hdoes.imp fun _ _ h => h.1
  | suffixed => exact hs.makes_suffixed hready hd hopening hfits
  | comparisons operator? => exact hs.makes_comparisons hready hd hopening hfits
  | sizedArray rank bounds => exact hs.makes_sizedArray hready hd hopening hfits bounds
  | ifBlock elseIf elsePart => exact hs.makes_ifBlock hready hd hopening hfits
  | caseBlock => exact hs.makes_caseBlock hready hd hopening hfits
  | assignment operator? => exact hs.makes_assignment hready hd hopening hfits
  | rankedParameter passing rank clause =>
      exact hs.makes_rankedParameter hready hd hopening hfits passing
  | listedArray => cases hfits
  | doLoop => cases hfits
  | refused expected => cases hfits

/-- A match of a definition that fits its shape becomes a node by the shape that its tokens select. -/
theorem makes_agreed (hs : Setting s source e ready clean recur)
    (hready : Opened s.grammar ready (.node (some d) i j cs)) (hd : s.refusable d = false)
    (hagrees : s.Agrees d) :
    Makes source e (clean (.node (some d) i j cs))
      (shaped s.grammar recur (.node (some d) i j cs)
        (s.grammar.shape d ((RawTree.node (some d) i j cs).childTokens.map (·.kind)))) draft := by
  cases hready.conforms with
  | @node _ _ _ _ r hrule hspells _ =>
      rcases hagrees r hrule with hwords | hsteady
      · rw [Survey.fitsWords, Bool.and_eq_true, List.all_eq_true] at hwords
        have hword : cs.map RawTree.symbol ∈ r.words := by
          have hfinite : Rule.finiteAll [r] = true := by rw [Rule.finiteAll, hwords.1]; rfl
          simpa [Rule.wordsAll] using hspells.mem_words hfinite
        have hw := hwords.2 _ hword
        rw [Bool.and_eq_true] at hw
        rw [RawTree.childTokens_kinds]
        exact hs.makes_shaped hready hd hw.1 hspells.ofWord _ hw.2
      · exact hs.makes_shaped hready hd (hs.productive d r hrule) hspells _ (hsteady _)

end Setting

/-! ## Whole trees -/

/-- A match of limited height whose tokens denote what they stand for. -/
structure Ready (s : Survey δ) (source : Source) (fuel : Nat) (t : RawTree δ) : Prop where
  conforms : Conforms s.grammar t
  height : t.height ≤ fuel
  modifier : ∀ tk ∈ t.tokens, s.modifiers.contains tk.kind = true →
    (source.language.modifier? tk.text).isSome = true
  literal : ∀ tk ∈ t.tokens, s.literals.contains tk.kind = true → (literalValue? tk).isSome = true

/-- A tree that holds no refused match. -/
def Clean (refused : RawTree δ → Bool) (t : RawTree δ) : Prop := ∀ u ∈ t.nodes, refused u = false

/-- What is checked of a grammar as a whole. -/
structure Checked (s : Survey δ) (refused : RawTree δ → Bool) : Prop where
  productive : ∀ d r, s.grammar.rule d = some r → (r.erase s.grammar.terminators).productive = true
  refused : ∀ {d i j cs}, s.refusable d = false → refused (.node (some d) i j cs) = false
  spares : ∀ d, s.sparesAll d = true
  trivia : ∀ {d i j cs}, s.grammar.keepsTrivia d = true →
    ∀ f f' n, s.shows (.node (some d) i j cs) f f' n

section Whole

variable {s : Survey δ} {source : Source} {e : LowerError} {refused : RawTree δ → Bool}
  {d : δ} {i j fuel : Nat} {cs : List (RawTree δ)} {t c : RawTree δ}

theorem Ready.mono (h : Ready s source fuel t) {fuel' : Nat} (hle : fuel ≤ fuel') :
    Ready s source fuel' t :=
  ⟨h.conforms, Nat.le_trans h.height hle, h.modifier, h.literal⟩

theorem Ready.child (h : Ready s source (fuel + 1) t) (hc : c ∈ t.children) :
    Ready s source fuel c := by
  cases t with
  | leaf => cases hc
  | node form i j cs =>
      have htokens : c.tokens ⊆ RawTree.tokensOf cs := RawTree.tokens_subset_tokensOf hc
      refine ⟨?_, ?_, fun tk htk => h.modifier tk (htokens htk),
        fun tk htk => h.literal tk (htokens htk)⟩
      · cases h.conforms with
        | node _ _ hcs => exact hcs c hc
      · have hle := h.height
        rw [RawTree.height] at hle
        exact Nat.le_trans (RawTree.height_le_heightOf hc) (Nat.le_of_succ_le_succ hle)

theorem conforms_of_mem_nodes {g : Grammar δ} {u : RawTree δ} (h : Conforms g t) (hu : u ∈ t.nodes) :
    Conforms g u ∧ u.tokens ⊆ t.tokens := by
  induction h with
  | leaf => cases hu
  | node hrule hspells hcs ih =>
      rw [RawTree.nodes, List.mem_cons, RawTree.mem_nodesOf] at hu
      rcases hu with rfl | ⟨c, hc, hu⟩
      · exact ⟨.node hrule hspells hcs, List.Subset.refl _⟩
      · obtain ⟨hconforms, htokens⟩ := ih c hc hu
        exact ⟨hconforms, List.Subset.trans htokens (RawTree.tokens_subset_tokensOf hc)⟩

theorem Ready.opened (h : Ready s source (fuel + 1) t) :
    Opened s.grammar (Ready s source fuel) t :=
  ⟨h.conforms, h.child⟩

theorem clean_node_iff : Clean refused (.node (some d) i j cs) ↔
    refused (.node (some d) i j cs) = false ∧ ∀ c ∈ cs, Clean refused c := by
  simp only [Clean, RawTree.nodes, List.mem_cons, RawTree.mem_nodesOf, forall_eq_or_imp]
  exact and_congr_right fun _ =>
    ⟨fun h c hc u hu => h u ⟨c, hc, hu⟩, fun h u ⟨c, hc, hu⟩ => h c hc u hu⟩

theorem Clean.child (h : Clean refused t) (hc : c ∈ t.children) : Clean refused c := by
  cases t with
  | leaf => cases hc
  | node form i j cs =>
      intro u hu
      exact h u (List.mem_cons_of_mem _ (RawTree.mem_nodesOf.mpr ⟨c, hc, hu⟩))

/-- A match of a harmless definition holds no refused match. -/
theorem Checked.clean_of_spares (hchecked : Checked s refused) (ht : Conforms s.grammar t)
    (hspares : s.spares t.symbol = true) : Clean refused t := by
  induction ht with
  | leaf => intro u hu; cases hu
  | @node d i j cs r hrule hspells _ ih =>
      have hall := hchecked.spares d
      have hd : s.harmless d = true := hspares
      rw [Survey.sparesAll, hd, hrule, Bool.not_true, Bool.false_or, Bool.and_eq_true,
        Bool.not_eq_true'] at hall
      refine clean_node_iff.mpr ⟨hchecked.refused hall.1, fun c hc => ih c hc ?_⟩
      have hevery : Rule.everyAll s.spares [r] = true := by
        rw [Rule.everyAll, Rule.everyAll, Bool.and_true]
        exact hall.2
      exact hspells.every hevery c.symbol (List.mem_map_of_mem hc)

variable [DecidableEq δ]

/-- The setting in which matches of a greater height become nodes. -/
theorem setting_succ (hchecked : Checked s refused)
    (hs : Setting s source e (Ready s source fuel) (Clean refused) (lowerUpTo s.grammar fuel))
    (hshaped : ∀ {d i j cs}, s.lowered d = true →
      Opened s.grammar (Ready s source fuel) (.node (some d) i j cs) → ∀ draft,
      Does source e (Clean refused (.node (some d) i j cs))
        (shaped s.grammar (lowerUpTo s.grammar fuel) (.node (some d) i j cs)
          (s.grammar.shape d ((RawTree.node (some d) i j cs).childTokens.map (·.kind)))) draft
        fun n draft' => Fresh draft.forest draft'.forest n ∧
          s.shows (.node (some d) i j cs) draft.forest draft'.forest n) :
    Setting s source e (Ready s source (fuel + 1)) (Clean refused)
      (lowerUpTo s.grammar (fuel + 1)) where
  conforms h := h.conforms
  child h hc := (h.child hc).mono (Nat.le_succ fuel)
  modifier h := h.modifier _ (List.mem_singleton_self _)
  literal h := h.literal _ (List.mem_singleton_self _)
  productive := hs.productive
  clean_leaf := hs.clean_leaf
  clean_child := hs.clean_child
  clean_node := hs.clean_node
  clean_of_spares h hspares := hchecked.clean_of_spares h.conforms hspares
  does := by
    intro t ht hform draft
    obtain ⟨d, i, j, cs, rfl, hd⟩ := exists_of_isFormOf hform
    have hmade := hshaped hd ht.opened draft
    rw [lowerUpTo]
    refine hmade.finish fun n draft₁ hn => ?_
    split
    case isTrue hkeeps =>
      refine (Setting.steps_attachLeading _ hn.1.root).finish fun _ draft₂ hgrows => ?_
      exact .pure ⟨hn.1.then_grows hgrows, hchecked.trivia hkeeps _ _ _⟩
    case isFalse => exact .pure hn

/-- Where every shape does what it should with matches of a smaller height, matches of any height
become nodes. -/
theorem setting_lowerUpTo (hchecked : Checked s refused)
    (hshaped : ∀ fuel,
      Setting s source e (Ready s source fuel) (Clean refused) (lowerUpTo s.grammar fuel) →
      ∀ {d i j cs}, s.lowered d = true →
      Opened s.grammar (Ready s source fuel) (.node (some d) i j cs) → ∀ draft,
      Does source e (Clean refused (.node (some d) i j cs))
        (shaped s.grammar (lowerUpTo s.grammar fuel) (.node (some d) i j cs)
          (s.grammar.shape d ((RawTree.node (some d) i j cs).childTokens.map (·.kind)))) draft
        fun n draft' => Fresh draft.forest draft'.forest n ∧
          s.shows (.node (some d) i j cs) draft.forest draft'.forest n) (fuel : Nat) :
    Setting s source e (Ready s source fuel) (Clean refused) (lowerUpTo s.grammar fuel) := by
  induction fuel with
  | zero =>
      have hnone : ∀ {t : RawTree δ}, ¬ Ready s source 0 t := by
        intro t ht
        have hle := ht.height
        cases t <;> simp [RawTree.height] at hle
      exact {
        conforms := fun h => h.conforms
        child := fun h => (hnone h).elim
        modifier := fun h => (hnone h).elim
        literal := fun h => (hnone h).elim
        does := fun h => (hnone h).elim
        productive := hchecked.productive
        clean_leaf := fun _ u hu => (List.not_mem_nil hu).elim
        clean_child := fun h hc => h.child hc
        clean_node := fun hd hcs => clean_node_iff.mpr ⟨hchecked.refused hd, hcs⟩
        clean_of_spares := fun h => (hnone h).elim }
  | succ fuel ih => exact setting_succ hchecked ih (hshaped fuel ih)

/-- The tree of a whole text becomes a node exactly if it holds no refused match. -/
theorem does_wholeText {root : δ} {inner : RawTree δ} {rest : List (RawTree δ)} {draft : Draft}
    (hs : Setting s source e (Ready s source fuel) (Clean refused) (lowerUpTo s.grammar fuel))
    (hinner : Ready s source fuel inner) (hroot : inner.symbol = .node (some root))
    (hlowered : s.lowered root = true) :
    Does source e (Clean refused inner)
      (lowerUpTo s.grammar (fuel + 1) (.node none i j (inner :: rest))) draft fun _ _ => True := by
  have hform : inner.symbol.isFormOf s.lowered = true := by rw [hroot]; exact hlowered
  obtain ⟨d, i', j', cs, rfl, -⟩ := exists_of_isFormOf hform
  have hfind : (RawTree.node none i j (.node (some d) i' j' cs :: rest)).children.find?
      (·.token?.isNone) = some (.node (some d) i' j' cs) := rfl
  rw [lowerUpTo, wholeText, hfind]
  refine (hs.makes hinner hform draft).finish fun n draft₁ hn => .after (inspect_ok _) ?_
  split
  · split
    · exact (Setting.steps_attachTrailing _ hn.root).finish fun _ _ _ => .pure trivial
    · exact .pure trivial
  · exact .pure trivial

end Whole

end Lowering

end DualSyntax
