import DualSyntax.Proofs.Packrat.Fuel

/-!
# The memory does not change what is matched

`Evaluates` reads the rules of a grammar without any memory: every definition is matched afresh at
every position.  `Calls` says which definitions the rule of a definition asks for on the way, and a
grammar is left-recursive on a stream where a definition asks, through others, for itself at the
same position.  Without left recursion the matcher finds what `Evaluates` gives: the answers it
remembers are those of `Evaluates`, and the definitions it is matching are exactly those that have
asked, one through the other, for the one at hand.
-/

namespace DualSyntax.Packrat

variable {δ : Type}

/-! ## Rules without a memory -/

/-- What a goal gives at a position: a match, or none if it fails.  Choices are ordered, lookaheads
take nothing, and lists stop at the first element that makes no progress. -/
inductive Evaluates (g : Grammar δ) (s : TokenStream) : Goal δ → Nat → Match δ → Prop
  | empty {pos} : Evaluates g s (.rule .empty) pos (some ([], pos))
  | pastEnd {k pos} (hget : s.get? pos = none) : Evaluates g s (.rule (.token k)) pos none
  | accepted {k pos t} (hget : s.get? pos = some t) (hkind : t.kind = k) :
      Evaluates g s (.rule (.token k)) pos (some ([.leaf t], pos + 1))
  | refused {k pos t} (hget : s.get? pos = some t) (hkind : t.kind ≠ k) :
      Evaluates g s (.rule (.token k)) pos none
  | ref {d pos found} (h : Evaluates g s (.definition d) pos found) :
      Evaluates g s (.rule (.ref d)) pos found
  | undefined {d pos} (hrule : g.rule d = none) : Evaluates g s (.definition d) pos none
  | defined {d pos r found} (hrule : g.rule d = some r) (h : Evaluates g s (.rule r) pos found) :
      Evaluates g s (.definition d) pos (recalled (asNode d pos found))
  | sequence {rs pos found} (h : Evaluates g s (.all rs) pos found) :
      Evaluates g s (.rule (.sequence rs)) pos found
  | allNil {pos} : Evaluates g s (.all []) pos (some ([], pos))
  | allStop {r rs pos} (h : Evaluates g s (.rule r) pos none) :
      Evaluates g s (.all (r :: rs)) pos none
  | allStep {r rs pos trees p found} (hfirst : Evaluates g s (.rule r) pos (some (trees, p)))
      (hrest : Evaluates g s (.all rs) p found) :
      Evaluates g s (.all (r :: rs)) pos (after trees found)
  | choice {rs pos found} (h : Evaluates g s (.first rs) pos found) :
      Evaluates g s (.rule (.choice rs)) pos found
  | firstNil {pos} : Evaluates g s (.first []) pos none
  | firstHit {r rs pos found} (h : Evaluates g s (.rule r) pos (some found)) :
      Evaluates g s (.first (r :: rs)) pos (some found)
  | firstMiss {r rs pos found} (hmiss : Evaluates g s (.rule r) pos none)
      (hrest : Evaluates g s (.first rs) pos found) : Evaluates g s (.first (r :: rs)) pos found
  | optional {r pos found} (h : Evaluates g s (.rule r) pos found) :
      Evaluates g s (.rule (.optional r)) pos (some (found.getD ([], pos)))
  | notAhead {r pos found} (h : Evaluates g s (.rule r) pos found) :
      Evaluates g s (.rule (.notAhead r)) pos (if found.isSome then none else some ([], pos))
  | noElement {e sep least trailing pos} (h : Evaluates g s (.rule e) pos none) :
      Evaluates g s (.rule (.list e sep least trailing)) pos
        (if least = 0 then some ([], pos) else none)
  | elements {e sep least trailing pos trees p found}
      (hfirst : Evaluates g s (.rule e) pos (some (trees, p)))
      (hmore : Evaluates g s (.more e sep least trailing 1) p found) :
      Evaluates g s (.rule (.list e sep least trailing)) pos (after trees found)
  | noSeparator {e sep least trailing count pos}
      (h : Evaluates g s (.rule (between sep)) pos none) :
      Evaluates g s (.more e sep least trailing count) pos (endOfList least count [] pos)
  | separatorOnly {e sep least trailing count pos separators p}
      (hsep : Evaluates g s (.rule (between sep)) pos (some (separators, p)))
      (helem : Evaluates g s (.rule e) p none) :
      Evaluates g s (.more e sep least trailing count) pos
        (if sep.isSome && trailing then endOfList least count separators p
          else endOfList least count [] pos)
  | noProgress {e sep least trailing count pos separators p trees q}
      (hsep : Evaluates g s (.rule (between sep)) pos (some (separators, p)))
      (helem : Evaluates g s (.rule e) p (some (trees, q))) (hstuck : ¬ pos < q) :
      Evaluates g s (.more e sep least trailing count) pos (endOfList least count [] pos)
  | moreStep {e sep least trailing count pos separators p trees q found}
      (hsep : Evaluates g s (.rule (between sep)) pos (some (separators, p)))
      (helem : Evaluates g s (.rule e) p (some (trees, q))) (hlt : pos < q)
      (hmore : Evaluates g s (.more e sep least trailing (count + 1)) q found) :
      Evaluates g s (.more e sep least trailing count) pos (after (separators ++ trees) found)

/-- A goal gives at most one thing at a position. -/
theorem Evaluates.unique {g : Grammar δ} {s : TokenStream} {goal : Goal δ} {pos : Nat}
    {a b : Match δ} (ha : Evaluates g s goal pos a) (hb : Evaluates g s goal pos b) : a = b := by
  induction ha generalizing b with
  | empty | allNil | firstNil => cases hb; rfl
  | pastEnd hget =>
      cases hb with
      | pastEnd => rfl
      | accepted hget' => cases hget.symm.trans hget'
      | refused => rfl
  | accepted hget hkind =>
      cases hb with
      | pastEnd hget' => cases hget.symm.trans hget'
      | accepted hget' => cases hget.symm.trans hget'; rfl
      | refused hget' hne => cases hget.symm.trans hget'; exact absurd hkind hne
  | refused hget hne =>
      cases hb with
      | pastEnd => rfl
      | accepted hget' hkind => cases hget.symm.trans hget'; exact absurd hkind hne
      | refused => rfl
  | ref _ ih =>
      cases hb with
      | ref hb => exact ih hb
  | sequence _ ih =>
      cases hb with
      | sequence hb => exact ih hb
  | choice _ ih =>
      cases hb with
      | choice hb => exact ih hb
  | undefined hrule =>
      cases hb with
      | undefined => rfl
      | defined hrule' => cases hrule.symm.trans hrule'
  | defined hrule _ ih =>
      cases hb with
      | undefined hrule' => cases hrule.symm.trans hrule'
      | defined hrule' hb => cases hrule.symm.trans hrule'; rw [ih hb]
  | optional _ ih =>
      cases hb with
      | optional hb => rw [ih hb]
  | notAhead _ ih =>
      cases hb with
      | notAhead hb => rw [ih hb]
  | allStop _ ih =>
      cases hb with
      | allStop => rfl
      | allStep hb => cases ih hb
  | allStep _ _ ihfirst ihrest =>
      cases hb with
      | allStop hb => cases ihfirst hb
      | allStep hfirst hrest => cases ihfirst hfirst; rw [ihrest hrest]
  | firstHit _ ih =>
      cases hb with
      | firstHit hb => exact ih hb
      | firstMiss hb => cases ih hb
  | firstMiss _ _ ihmiss ihrest =>
      cases hb with
      | firstHit hb => cases ihmiss hb
      | firstMiss _ hb => exact ihrest hb
  | noElement _ ih =>
      cases hb with
      | noElement => rfl
      | elements hb => cases ih hb
  | elements _ _ ihfirst ihmore =>
      cases hb with
      | noElement hb => cases ihfirst hb
      | elements hfirst hmore => cases ihfirst hfirst; rw [ihmore hmore]
  | noSeparator _ ih =>
      cases hb with
      | noSeparator => rfl
      | separatorOnly hb | noProgress hb | moreStep hb => cases ih hb
  | separatorOnly _ _ ihsep ihelem =>
      cases hb with
      | noSeparator hb => cases ihsep hb
      | separatorOnly hsep => cases ihsep hsep; rfl
      | noProgress hsep helem | moreStep hsep helem => cases ihsep hsep; cases ihelem helem
  | noProgress _ _ hstuck ihsep ihelem =>
      cases hb with
      | noSeparator hb => cases ihsep hb
      | separatorOnly hsep helem => cases ihsep hsep; cases ihelem helem
      | noProgress => rfl
      | moreStep hsep helem hlt => cases ihsep hsep; cases ihelem helem; exact absurd hlt hstuck
  | moreStep _ _ hlt _ ihsep ihelem ihmore =>
      cases hb with
      | noSeparator hb => cases ihsep hb
      | separatorOnly hsep helem => cases ihsep hsep; cases ihelem helem
      | noProgress hsep helem hstuck =>
          cases ihsep hsep
          cases ihelem helem
          exact absurd hlt hstuck
      | moreStep hsep helem _ hmore => cases ihsep hsep; cases ihelem helem; rw [ihmore hmore]

/-! ## Left recursion -/

/-- A goal at a position asks for a definition at a position, through no other definition.  What
comes later in a goal is reached only if what comes before it gives the match, or the failure, that
leads on. -/
inductive Asks (g : Grammar δ) (s : TokenStream) : Goal δ → Nat → δ → Nat → Prop
  | definition {d pos} : Asks g s (.definition d) pos d pos
  | ref {d pos e p} (h : Asks g s (.definition d) pos e p) : Asks g s (.rule (.ref d)) pos e p
  | sequence {rs pos d p} (h : Asks g s (.all rs) pos d p) :
      Asks g s (.rule (.sequence rs)) pos d p
  | allFirst {r rs pos d p} (h : Asks g s (.rule r) pos d p) : Asks g s (.all (r :: rs)) pos d p
  | allRest {r rs pos trees q d p} (hfirst : Evaluates g s (.rule r) pos (some (trees, q)))
      (h : Asks g s (.all rs) q d p) : Asks g s (.all (r :: rs)) pos d p
  | choice {rs pos d p} (h : Asks g s (.first rs) pos d p) : Asks g s (.rule (.choice rs)) pos d p
  | firstFirst {r rs pos d p} (h : Asks g s (.rule r) pos d p) :
      Asks g s (.first (r :: rs)) pos d p
  | firstRest {r rs pos d p} (hmiss : Evaluates g s (.rule r) pos none)
      (h : Asks g s (.first rs) pos d p) : Asks g s (.first (r :: rs)) pos d p
  | optional {r pos d p} (h : Asks g s (.rule r) pos d p) :
      Asks g s (.rule (.optional r)) pos d p
  | notAhead {r pos d p} (h : Asks g s (.rule r) pos d p) :
      Asks g s (.rule (.notAhead r)) pos d p
  | element {e sep least trailing pos d p} (h : Asks g s (.rule e) pos d p) :
      Asks g s (.rule (.list e sep least trailing)) pos d p
  | elements {e sep least trailing pos trees q d p}
      (hfirst : Evaluates g s (.rule e) pos (some (trees, q)))
      (h : Asks g s (.more e sep least trailing 1) q d p) :
      Asks g s (.rule (.list e sep least trailing)) pos d p
  | separator {e sep least trailing count pos d p}
      (h : Asks g s (.rule (between sep)) pos d p) :
      Asks g s (.more e sep least trailing count) pos d p
  | moreElement {e sep least trailing count pos separators q d p}
      (hsep : Evaluates g s (.rule (between sep)) pos (some (separators, q)))
      (h : Asks g s (.rule e) q d p) : Asks g s (.more e sep least trailing count) pos d p
  | moreRest {e sep least trailing count pos separators q trees q' d p}
      (hsep : Evaluates g s (.rule (between sep)) pos (some (separators, q)))
      (helem : Evaluates g s (.rule e) q (some (trees, q'))) (hlt : pos < q')
      (h : Asks g s (.more e sep least trailing (count + 1)) q' d p) :
      Asks g s (.more e sep least trailing count) pos d p

/-- The rule of a definition at a position asks for another definition at a position. -/
def Calls (g : Grammar δ) (s : TokenStream) (k k' : δ × Nat) : Prop :=
  ∃ r, g.rule k.1 = some r ∧ Asks g s (.rule r) k.2 k'.1 k'.2

/-- A definition asks, through others perhaps, for itself at the position where it is being
matched. -/
def LeftRecursive (g : Grammar δ) (s : TokenStream) : Prop :=
  ∃ k, Relation.TransGen (Calls g s) k k

/-! ## The memory along a run -/

variable [BEq δ] {g : Grammar δ} {s : TokenStream} {goal : Goal δ} {pos : Nat}

/-- Every remembered answer is what the definition gives without a memory. -/
def Memory.Sound (g : Grammar δ) (s : TokenStream) (m : Memory δ) : Prop :=
  ∀ d p answer, m.chart.get? d p = some (.answered answer) →
    Evaluates g s (.definition d) p (recalled answer)

/-- Every definition that is being matched has asked, through others perhaps, for whatever the goal
at hand asks for. -/
def Memory.Leads (g : Grammar δ) (s : TokenStream) (m : Memory δ) (goal : Goal δ) (pos : Nat) :
    Prop :=
  ∀ d p, m.chart.get? d p = some .matching →
    ∀ e q, Asks g s goal pos e q → Relation.TransGen (Calls g s) (d, p) (e, q)

def Memory.SameMatching (m m' : Memory δ) : Prop :=
  ∀ d p, m'.chart.get? d p = some .matching ↔ m.chart.get? d p = some .matching

theorem Memory.SameMatching.refl (m : Memory δ) : m.SameMatching m := fun _ _ => Iff.rfl

theorem Memory.SameMatching.trans {m₁ m₂ m₃ : Memory δ} (h₁ : m₁.SameMatching m₂)
    (h₂ : m₂.SameMatching m₃) : m₁.SameMatching m₃ := fun d p => (h₂ d p).trans (h₁ d p)

theorem Memory.Leads.part {m m' : Memory δ} (h : m.Leads g s goal pos)
    (hm : m.SameMatching m') {part : Goal δ} {p : Nat}
    (hpart : ∀ {e q}, Asks g s part p e q → Asks g s goal pos e q) : m'.Leads g s part p := by
  intro d q hd e q' hasks
  exact h d q ((hm d q).mp hd) e q' (hpart hasks)

variable [LawfulBEq δ]

theorem Memory.Sound.note_matching {m : Memory δ} (h : m.Sound g s) (d : δ) :
    (m.note d pos .matching).Sound g s := by
  intro e p answer ha
  by_cases hkey : (d, pos) = (e, p)
  · cases hkey
    rw [Memory.note, Chart.get?_set_self] at ha
    cases ha
  · rw [Memory.note, Chart.get?_set_of_ne _ _ hkey] at ha
    exact h e p answer ha

theorem Memory.Sound.note_answered {m : Memory δ} (h : m.Sound g s) {d : δ}
    {answer : Option (RawTree δ × Nat)}
    (ha : Evaluates g s (.definition d) pos (recalled answer)) :
    (m.note d pos (.answered answer)).Sound g s := by
  intro e p answer' ha'
  by_cases hkey : (d, pos) = (e, p)
  · cases hkey
    rw [Memory.note, Chart.get?_set_self] at ha'
    cases ha'
    exact ha
  · rw [Memory.note, Chart.get?_set_of_ne _ _ hkey] at ha'
    exact h e p answer' ha'

/-- While the rule of a definition runs, the definition leads to what the rule asks for. -/
theorem Memory.Leads.note_matching {m : Memory δ} {d : δ} {r : Rule δ}
    (h : m.Leads g s (.definition d) pos) (hrule : g.rule d = some r) :
    (m.note d pos .matching).Leads g s (.rule r) pos := by
  intro e p he f q hasks
  have hcall : Calls g s (d, pos) (f, q) := ⟨r, hrule, hasks⟩
  by_cases hkey : (d, pos) = (e, p)
  · cases hkey
    exact .single hcall
  · rw [Memory.note, Chart.get?_set_of_ne _ _ hkey] at he
    exact .tail (h e p he d pos .definition) hcall

/-- When the answer of a definition is noted, the definitions being matched are those from before
the definition was. -/
theorem Memory.SameMatching.note {m m' : Memory δ} {d : δ}
    (hnew : m.chart.get? d pos = none) (h : (m.note d pos .matching).SameMatching m')
    (answer : Option (RawTree δ × Nat)) :
    m.SameMatching (m'.note d pos (.answered answer)) := by
  intro e p
  by_cases hkey : (d, pos) = (e, p)
  · cases hkey
    simp [Memory.note, hnew]
  · have hsame := h e p
    rw [Memory.note, Chart.get?_set_of_ne _ _ hkey] at hsame
    rw [Memory.note, Chart.get?_set_of_ne _ _ hkey]
    exact hsame

/-- Without left recursion a run finds what the goal gives without a memory. -/
theorem Runs.evaluates (hfree : ¬ LeftRecursive g s) {silent : Bool} {found : Match δ}
    {m m' : Memory δ} (h : Runs g s silent goal pos m found m') (hm : m.Sound g s)
    (hlead : m.Leads g s goal pos) :
    Evaluates g s goal pos found ∧ m'.Sound g s ∧ m.SameMatching m' := by
  induction h with
  | empty => exact ⟨.empty, hm, .refl _⟩
  | pastEnd hget => exact ⟨.pastEnd hget, hm, .refl _⟩
  | accepted hget hkind => exact ⟨.accepted hget hkind, hm, .refl _⟩
  | @refused silent k pos m t hget hkind =>
      refine ⟨.refused hget hkind, ?_⟩
      cases silent with
      | true => exact ⟨hm, .refl _⟩
      | false =>
          constructor
          · intro d p answer ha
            exact hm d p answer (by simpa [Memory.refuse_chart] using ha)
          · intro d p
            simp [Memory.refuse_chart]
  | ref _ ih =>
      obtain ⟨he, hm', hsame⟩ := ih hm (hlead.part (.refl _) .ref)
      exact ⟨.ref he, hm', hsame⟩
  | sequence _ ih =>
      obtain ⟨he, hm', hsame⟩ := ih hm (hlead.part (.refl _) .sequence)
      exact ⟨.sequence he, hm', hsame⟩
  | choice _ ih =>
      obtain ⟨he, hm', hsame⟩ := ih hm (hlead.part (.refl _) .choice)
      exact ⟨.choice he, hm', hsame⟩
  | optional _ ih =>
      obtain ⟨he, hm', hsame⟩ := ih hm (hlead.part (.refl _) .optional)
      exact ⟨.optional he, hm', hsame⟩
  | notAhead _ ih =>
      obtain ⟨he, hm', hsame⟩ := ih hm (hlead.part (.refl _) .notAhead)
      exact ⟨.notAhead he, hm', hsame⟩
  | noElement _ ih =>
      obtain ⟨he, hm', hsame⟩ := ih hm (hlead.part (.refl _) .element)
      exact ⟨.noElement he, hm', hsame⟩
  | elements _ _ ihfirst ihmore =>
      obtain ⟨hfirst, hm₁, hsame₁⟩ := ihfirst hm (hlead.part (.refl _) .element)
      obtain ⟨hmore, hm₂, hsame₂⟩ := ihmore hm₁ (hlead.part hsame₁ (.elements hfirst))
      exact ⟨.elements hfirst hmore, hm₂, hsame₁.trans hsame₂⟩
  | allNil => exact ⟨.allNil, hm, .refl _⟩
  | allStop _ ih =>
      obtain ⟨he, hm', hsame⟩ := ih hm (hlead.part (.refl _) .allFirst)
      exact ⟨.allStop he, hm', hsame⟩
  | allStep _ _ ihfirst ihrest =>
      obtain ⟨hfirst, hm₁, hsame₁⟩ := ihfirst hm (hlead.part (.refl _) .allFirst)
      obtain ⟨hrest, hm₂, hsame₂⟩ := ihrest hm₁ (hlead.part hsame₁ (.allRest hfirst))
      exact ⟨.allStep hfirst hrest, hm₂, hsame₁.trans hsame₂⟩
  | firstNil => exact ⟨.firstNil, hm, .refl _⟩
  | firstHit _ ih =>
      obtain ⟨he, hm', hsame⟩ := ih hm (hlead.part (.refl _) .firstFirst)
      exact ⟨.firstHit he, hm', hsame⟩
  | firstMiss _ _ ihmiss ihrest =>
      obtain ⟨hmiss, hm₁, hsame₁⟩ := ihmiss hm (hlead.part (.refl _) .firstFirst)
      obtain ⟨hrest, hm₂, hsame₂⟩ := ihrest hm₁ (hlead.part hsame₁ (.firstRest hmiss))
      exact ⟨.firstMiss hmiss hrest, hm₂, hsame₁.trans hsame₂⟩
  | noSeparator _ ih =>
      obtain ⟨he, hm', hsame⟩ := ih hm (hlead.part (.refl _) .separator)
      exact ⟨.noSeparator he, hm', hsame⟩
  | separatorOnly _ _ ihsep ihelem =>
      obtain ⟨hsep, hm₁, hsame₁⟩ := ihsep hm (hlead.part (.refl _) .separator)
      obtain ⟨helem, hm₂, hsame₂⟩ := ihelem hm₁ (hlead.part hsame₁ (.moreElement hsep))
      exact ⟨.separatorOnly hsep helem, hm₂, hsame₁.trans hsame₂⟩
  | noProgress _ _ hstuck ihsep ihelem =>
      obtain ⟨hsep, hm₁, hsame₁⟩ := ihsep hm (hlead.part (.refl _) .separator)
      obtain ⟨helem, hm₂, hsame₂⟩ := ihelem hm₁ (hlead.part hsame₁ (.moreElement hsep))
      exact ⟨.noProgress hsep helem hstuck, hm₂, hsame₁.trans hsame₂⟩
  | moreStep _ _ hlt _ ihsep ihelem ihmore =>
      obtain ⟨hsep, hm₁, hsame₁⟩ := ihsep hm (hlead.part (.refl _) .separator)
      obtain ⟨helem, hm₂, hsame₂⟩ := ihelem hm₁ (hlead.part hsame₁ (.moreElement hsep))
      have hsame := hsame₁.trans hsame₂
      obtain ⟨hmore, hm₃, hsame₃⟩ := ihmore hm₂ (hlead.part hsame (.moreRest hsep helem hlt))
      exact ⟨.moreStep hsep helem hlt hmore, hm₃, hsame.trans hsame₃⟩
  | @remembered silent d pos m answer h => exact ⟨hm d pos answer h, hm, .refl _⟩
  | @reentered silent d pos m h =>
      -- the definition has asked for itself
      exact absurd ⟨(d, pos), hlead d pos h d pos .definition⟩ hfree
  | @undefined silent d pos m hnew hrule =>
      have he : Evaluates g s (.definition d) pos none := .undefined hrule
      exact ⟨he, (hm.note_matching d).note_answered he, .note hnew (.refl _) none⟩
  | @defined silent d pos m r found m' hnew hrule _ ih =>
      obtain ⟨he, hm', hsame⟩ := ih (hm.note_matching d) (hlead.note_matching hrule)
      have hnode := Evaluates.defined hrule he
      exact ⟨hnode, hm'.note_answered hnode, .note hnew hsame _⟩

/-- What the matcher finds for a definition at the start of a stream. -/
theorem evaluates_of_run (hfree : ¬ LeftRecursive g s) {fuel : Nat} {root : δ} {found : Match δ}
    {m : Memory δ} (h : run g s fuel false (.definition root) 0 {} = some (found, m)) :
    Evaluates g s (.definition root) 0 found := by
  refine ((run_runs h).evaluates hfree ?_ ?_).1
  · intro d p answer ha
    simp at ha
  · intro d p hd
    simp at hd

/-- The tree of a whole text: the match of the root definition and the end marker. -/
def wholeTree (s : TokenStream) (trees : List (RawTree δ)) : RawTree δ :=
  .node none 0 s.size (trees ++ (s.get? (s.size - 1)).toList.map .leaf)

/-- Without left recursion a stream is parsed exactly if its root definition, matched without a
memory, takes everything in front of the end marker, and the tree is the one that it gives; all
other streams are refused. -/
theorem parse_eq_memo_free (g : Grammar δ) (s : TokenStream) (root : δ)
    (hfree : ¬ LeftRecursive g s) :
    (∀ tree, parse g root s = .parsed tree ↔
      ∃ trees, Evaluates g s (.definition root) 0 (some (trees, s.size - 1)) ∧
        tree = wholeTree s trees) ∧
    ((∃ failure, parse g root s = .failed failure) ↔
      ∃ found, Evaluates g s (.definition root) 0 found ∧
        ∀ trees, found ≠ some (trees, s.size - 1)) := by
  obtain ⟨found, m, hrun⟩ := run_enoughFuel g s root
  have he := evaluates_of_run hfree hrun
  unfold parse
  rw [hrun]
  cases found with
  | none =>
      constructor
      · intro tree
        constructor
        · intro h
          cases h
        · rintro ⟨trees, htrees, -⟩
          cases he.unique htrees
      · exact ⟨fun _ => ⟨none, he, by simp⟩, fun _ => ⟨_, rfl⟩⟩
  | some pair =>
      obtain ⟨trees, p⟩ := pair
      dsimp only
      by_cases hp : p = s.size - 1
      · subst hp
        rw [if_pos rfl]
        constructor
        · intro tree
          constructor
          · intro h
            cases h
            exact ⟨trees, he, rfl⟩
          · rintro ⟨trees', htrees, rfl⟩
            cases he.unique htrees
            rfl
        · constructor
          · rintro ⟨failure, h⟩
            cases h
          · rintro ⟨found, hfound, hne⟩
            exact absurd (he.unique hfound).symm (hne trees)
      · rw [if_neg hp]
        constructor
        · intro tree
          constructor
          · intro h
            cases h
          · rintro ⟨trees', htrees, -⟩
            cases he.unique htrees
            exact absurd rfl hp
        · refine ⟨fun _ => ⟨_, he, ?_⟩, fun _ => ⟨_, rfl⟩⟩
          intro trees' h
          cases h
          exact hp rfl

def bracketed : Grammar Unit where
  definitions := [()]
  name _ := "bracketed"
  rule _ := some (.choice [.sequence [.token .lParen, .ref (), .token .rParen], .token .identifier])
  shape _ _ := .forward
  keepsTrivia _ := false
  complete := by simp

/-- A bracket stands in front of the definition that is asked for. -/
theorem bracketed_calls {s : TokenStream} {k k' : Unit × Nat} (h : Calls bracketed s k k') :
    k.2 < k'.2 := by
  obtain ⟨d, pos⟩ := k
  obtain ⟨e, p⟩ := k'
  obtain ⟨r, hrule, hasks⟩ := h
  cases hrule
  cases hasks with
  | choice hfirst =>
      cases hfirst with
      | firstFirst hseq =>
          cases hseq with
          | sequence hall =>
              cases hall with
              | allFirst h => cases h
              | allRest hparen hall =>
                  cases hparen with
                  | accepted =>
                      cases hall with
                      | allFirst href =>
                          cases href with
                          | ref hdef =>
                              cases hdef with
                              | definition => exact Nat.lt_succ_self _
                      | allRest _ hall =>
                          cases hall with
                          | allFirst h => cases h
                          | allRest _ h => cases h
      | firstRest _ hrest =>
          cases hrest with
          | firstFirst h => cases h
          | firstRest _ h => cases h

/-- Going from one call to the next, the position grows. -/
theorem bracketed_not_leftRecursive (s : TokenStream) : ¬ LeftRecursive bracketed s := by
  rintro ⟨k, hk⟩
  have hlt : ∀ {k k'}, Relation.TransGen (Calls bracketed s) k k' → k.2 < k'.2 := by
    intro k k' h
    induction h with
    | single h => exact bracketed_calls h
    | tail _ h ih => exact Nat.lt_trans ih (bracketed_calls h)
  exact Nat.lt_irrefl _ (hlt hk)

/-- A name in two pairs of brackets, which the definition matches by asking for itself twice. -/
theorem parse_eq_memo_free_bracketed :
    ∃ s tree trees, tokenize .csharp "((a))".toList = .ok s ∧
      ¬ LeftRecursive bracketed s ∧ parse bracketed () s = .parsed tree ∧
      Evaluates bracketed s (.definition ()) 0 (some (trees, s.size - 1)) ∧
      tree = wholeTree s trees := by
  have hok : (tokenize .csharp "((a))".toList).toOption.any
      (fun s => (parse bracketed () s).isParsed) = true := by
    decide +kernel
  obtain ⟨s, tree, hs, h⟩ := exists_parsed hok
  have hfree := bracketed_not_leftRecursive s
  obtain ⟨trees, he, htree⟩ := ((parse_eq_memo_free bracketed s () hfree).1 tree).mp h
  exact ⟨s, tree, trees, hs, hfree, h, he, htree⟩

end DualSyntax.Packrat
