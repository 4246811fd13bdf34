import DualSyntax.Proofs.Grammar.Outlook
import DualSyntax.Proofs.Packrat.Matching

/-!
# Lists alternate

A node in a tree that parsing gives was made by a run on the rule of its definition, also where the
matcher only remembered it.  The run on a list asks for an element and a separator in turn, so if each
match of the two is one tree, the children of the node are elements and separators in turn, and that is
how `RawTree.listItems` tells them apart.  How many there are follows from how the run ends.
-/

namespace DualSyntax.Packrat

variable {δ : Type} [BEq δ] {g : Grammar δ} {s : TokenStream} {root : δ}

/-! ## Where nodes come from -/

/-- While a stream was parsed, a rule matched these trees between two positions. -/
def Matched (g : Grammar δ) (s : TokenStream) (root : δ) (r : Rule δ) (p : Nat)
    (trees : List (RawTree δ)) (q : Nat) : Prop :=
  ∃ silent m m', Reached g s root ⟨silent, .rule r, p, m⟩ ∧
    Runs g s silent (.rule r) p m (some (trees, q)) m'

/-- A tree in which the children of every node are what the rule of its definition matched. -/
inductive Arises (g : Grammar δ) (s : TokenStream) (root : δ) : RawTree δ → Prop
  | leaf (t : Token) : Arises g s root (.leaf t)
  | node {d i j cs r} (hrule : g.rule d = some r) (hmatched : Matched g s root r i cs j)
      (hcs : ∀ c ∈ cs, Arises g s root c) : Arises g s root (.node (some d) i j cs)

/-- A match whose trees arise, if it is one. -/
def ArisesMatch (g : Grammar δ) (s : TokenStream) (root : δ) (found : Match δ) : Prop :=
  ∀ trees q, found = some (trees, q) → ∀ t ∈ trees, Arises g s root t

def Memory.Arises (g : Grammar δ) (s : TokenStream) (root : δ) (m : Memory δ) : Prop :=
  ∀ d p tree q, m.chart.get? d p = some (.answered (some (tree, q))) → Packrat.Arises g s root tree

variable {pos q least count : Nat} {trees separators : List (RawTree δ)} {found : Match δ}
  {m m' : Memory δ}

theorem ArisesMatch.none : ArisesMatch g s root none := by
  intro trees q h
  cases h

theorem ArisesMatch.some (h : ∀ t ∈ trees, Arises g s root t) :
    ArisesMatch g s root (some (trees, q)) := by
  intro trees' q' h'
  cases h'
  exact h

theorem ArisesMatch.nil (q : Nat) : ArisesMatch g s root (Option.some ([], q)) := .some (by simp)

theorem ArisesMatch.after (h : ∀ t ∈ trees, Arises g s root t) (hm : ArisesMatch g s root found) :
    ArisesMatch g s root (after trees found) := by
  cases found with
  | none => exact .none
  | some pair => exact .some (List.forall_mem_append.mpr ⟨h, hm pair.1 pair.2 rfl⟩)

theorem ArisesMatch.endOfList (h : ∀ t ∈ trees, Arises g s root t) :
    ArisesMatch g s root (endOfList least count trees q) := by
  unfold Packrat.endOfList
  split
  · exact .none
  · exact .some h

theorem Memory.Arises.refuse (h : m.Arises g s root) (k : TokenKind) :
    (m.refuse pos k).Arises g s root := by
  intro d p tree q hq
  rw [Memory.refuse_chart] at hq
  exact h d p tree q hq

theorem Memory.Arises.note [LawfulBEq δ] (h : m.Arises g s root) {d : δ} {status : Status δ}
    (ha : ∀ tree q, status = .answered (some (tree, q)) → Packrat.Arises g s root tree) :
    (m.note d pos status).Arises g s root := by
  intro e p tree q hq
  by_cases hkey : (d, pos) = (e, p)
  · cases hkey
    rw [Memory.note, Chart.get?_set_self] at hq
    exact ha tree q (Option.some.inj hq)
  · rw [Memory.note, Chart.get?_set_of_ne _ _ hkey] at hq
    exact h e p tree q hq

/-- A run that is asked for while a stream is parsed finds trees that arise, and leaves a memory of
such trees. -/
theorem Runs.arises [LawfulBEq δ] {silent : Bool} {goal : Goal δ}
    (h : Runs g s silent goal pos m found m') (hreached : Reached g s root ⟨silent, goal, pos, m⟩)
    (hm : m.Arises g s root) : ArisesMatch g s root found ∧ m'.Arises g s root := by
  induction h with
  | empty | allNil => exact ⟨.nil _, hm⟩
  | pastEnd | firstNil | reentered => exact ⟨.none, hm⟩
  | @accepted silent k pos m t _ _ => exact ⟨.some (by simpa using Arises.leaf t), hm⟩
  | @refused silent k pos m t _ _ =>
      refine ⟨.none, ?_⟩
      cases silent with
      | true => exact hm
      | false => exact hm.refuse k
  | ref _ ih => exact ih (hreached.tail .ref) hm
  | sequence _ ih => exact ih (hreached.tail .sequence) hm
  | choice _ ih => exact ih (hreached.tail .choice) hm
  | @optional silent r pos m found m' _ ih =>
      obtain ⟨hfound, hm'⟩ := ih (hreached.tail .optional) hm
      refine ⟨?_, hm'⟩
      cases found with
      | none => exact .nil _
      | some pair => exact hfound
  | notAhead _ ih =>
      refine ⟨?_, (ih (hreached.tail .notAhead) hm).2⟩
      split
      · exact .none
      · exact .nil _
  | noElement _ ih =>
      refine ⟨?_, (ih (hreached.tail .element) hm).2⟩
      split
      · exact .nil _
      · exact .none
  | elements hfirst _ ihfirst ihmore =>
      obtain ⟨hfound, hm₁⟩ := ihfirst (hreached.tail .element) hm
      obtain ⟨hmore, hm₂⟩ := ihmore (hreached.tail (.elements hfirst)) hm₁
      exact ⟨.after (hfound _ _ rfl) hmore, hm₂⟩
  | allStop _ ih => exact ⟨.none, (ih (hreached.tail .allFirst) hm).2⟩
  | allStep hfirst _ ihfirst ihrest =>
      obtain ⟨hfound, hm₁⟩ := ihfirst (hreached.tail .allFirst) hm
      obtain ⟨hrest, hm₂⟩ := ihrest (hreached.tail (.allRest hfirst)) hm₁
      exact ⟨.after (hfound _ _ rfl) hrest, hm₂⟩
  | firstHit _ ih => exact ih (hreached.tail .firstFirst) hm
  | firstMiss hmiss _ ihmiss ihrest =>
      exact ihrest (hreached.tail (.firstRest hmiss)) (ihmiss (hreached.tail .firstFirst) hm).2
  | noSeparator _ ih =>
      exact ⟨.endOfList (by simp), (ih (hreached.tail .separator) hm).2⟩
  | separatorOnly hsep _ ihsep ihelem =>
      obtain ⟨hfound, hm₁⟩ := ihsep (hreached.tail .separator) hm
      refine ⟨?_, (ihelem (hreached.tail (.moreElement hsep)) hm₁).2⟩
      split
      · exact .endOfList (hfound _ _ rfl)
      · exact .endOfList (by simp)
  | noProgress hsep _ _ ihsep ihelem =>
      have hm₁ := (ihsep (hreached.tail .separator) hm).2
      exact ⟨.endOfList (by simp), (ihelem (hreached.tail (.moreElement hsep)) hm₁).2⟩
  | moreStep hsep helem hlt _ ihsep ihelem ihmore =>
      obtain ⟨hseparators, hm₁⟩ := ihsep (hreached.tail .separator) hm
      obtain ⟨helements, hm₂⟩ := ihelem (hreached.tail (.moreElement hsep)) hm₁
      obtain ⟨hmore, hm₃⟩ := ihmore (hreached.tail (.moreRest hsep helem hlt)) hm₂
      exact ⟨.after (List.forall_mem_append.mpr ⟨hseparators _ _ rfl, helements _ _ rfl⟩) hmore, hm₃⟩
  | @remembered silent d pos m answer h =>
      refine ⟨?_, hm⟩
      cases answer with
      | none => exact .none
      | some pair => exact .some (by simpa using hm d pos pair.1 pair.2 h)
  | undefined =>
      refine ⟨.none, (hm.note ?_).note ?_⟩
      · intro tree q h
        cases h
      · intro tree q h
        cases h
  | @defined silent d pos m r found m' hnew hrule hrun ih =>
      have hbody := hreached.tail (.body hnew hrule)
      obtain ⟨hfound, hm'⟩ := ih hbody (hm.note (by intro tree q h; cases h))
      have hnode : ∀ tree q, asNode d pos found = some (tree, q) → Packrat.Arises g s root tree := by
        intro tree q htree
        obtain ⟨⟨trees, q⟩, rfl, hpair⟩ := Option.map_eq_some_iff.mp htree
        cases hpair
        exact .node hrule ⟨silent, _, m', hbody, hrun⟩ (hfound _ _ rfl)
      refine ⟨?_, hm'.note fun tree q h => hnode tree q (Status.answered.inj h)⟩
      intro trees q htrees
      obtain ⟨⟨tree, q⟩, htree, hpair⟩ := Option.map_eq_some_iff.mp htrees
      cases hpair
      simpa using hnode tree q htree

theorem Arises.of_mem_nodes {t u : RawTree δ} (h : Arises g s root t) (hu : u ∈ t.nodes) :
    Arises g s root u := by
  induction h with
  | leaf => cases hu
  | node hrule hmatched hcs ih =>
      rw [RawTree.nodes, List.mem_cons, RawTree.mem_nodesOf] at hu
      rcases hu with rfl | ⟨c, hc, hu⟩
      · exact .node hrule hmatched hcs
      · exact ih c hc hu

/-- In a tree that parsing gives, the children of every node are what the rule of its definition
matched there. -/
theorem matched_of_mem_nodes [LawfulBEq δ] {tree : RawTree δ} (h : parse g root s = .parsed tree)
    {d : δ} {i j : Nat} {cs : List (RawTree δ)} (hmem : .node (some d) i j cs ∈ tree.nodes) :
    ∃ r, g.rule d = some r ∧ Matched g s root r i cs j := by
  obtain ⟨trees, m, hruns, rfl⟩ := parse_runs h
  have hempty : ({} : Memory δ).Arises g s root := by
    intro d p tree q hq
    simp at hq
  have harises := (hruns.arises .refl hempty).1 trees _ rfl
  rw [RawTree.nodes, List.mem_cons, RawTree.mem_nodesOf] at hmem
  rcases hmem with hroot | ⟨c, hc, hmem⟩
  · cases hroot
  · rcases List.mem_append.mp hc with hc | hc
    · cases (harises c hc).of_mem_nodes hmem with
      | node hrule hmatched _ => exact ⟨_, hrule, hmatched⟩
    · obtain ⟨t, -, rfl⟩ := List.mem_map.mp hc
      cases hmem

/-! ## Elements and separators -/

/-- Trees from one position to another that two rules matched in turn: those of the first rule and
those of the second. -/
inductive Alternates (g : Grammar δ) (s : TokenStream) (root : δ) :
    Rule δ → Rule δ → Nat → List (RawTree δ) → List (RawTree δ) → List (RawTree δ) → Nat → Prop
  | nil {r r' p} : Alternates g s root r r' p [] [] [] p
  | cons {r r' p t p' ts xs ys q} (h : Matched g s root r p [t] p')
      (hrest : Alternates g s root r' r p' ts ys xs q) :
      Alternates g s root r r' p (t :: ts) (t :: xs) ys q

/-- The two kinds of trees are told apart by their places. -/
theorem Alternates.alternate_eq {r r' : Rule δ} {p : Nat} {ts xs ys : List (RawTree δ)}
    (h : Alternates g s root r r' p ts xs ys q) : RawTree.alternate ts = (xs, ys) := by
  induction h with
  | nil => rfl
  | cons _ _ ih => rw [RawTree.alternate, ih]

/-- Each match of a rule while a stream is parsed is one tree. -/
def IsSingle (g : Grammar δ) (s : TokenStream) (root : δ) (r : Rule δ) : Prop :=
  ∀ p trees q, Matched g s root r p trees q → ∃ t, trees = [t]

/-- How many separators and elements follow the first element of a list: as many of the one as of the
other or, where a separator may stand at the end, one separator more. -/
structure Balanced (least count : Nat) (trailing : Bool) (separators elements : Nat) : Prop where
  least_le : least ≤ count + elements
  ends : separators = elements ∨ separators = elements + 1 ∧ trailing = true

variable {e sep : Rule δ} {trailing : Bool}

omit [BEq δ] in
theorem endOfList_inv {trees' : List (RawTree δ)}
    (h : endOfList least count trees pos = some (trees', q)) :
    least ≤ count ∧ trees' = trees ∧ q = pos := by
  unfold endOfList at h
  split at h
  · cases h
  · cases h
    exact ⟨Nat.le_of_not_lt ‹_›, rfl, rfl⟩

theorem alternates_end (h : endOfList least count [] pos = some (trees, q)) :
    ∃ separators elements, Alternates g s root sep e pos trees separators elements q ∧
      Balanced least count trailing separators.length elements.length := by
  obtain ⟨hleast, rfl, rfl⟩ := endOfList_inv h
  exact ⟨[], [], .nil, hleast, .inl rfl⟩

/-- After an element of a list, separators and elements come in turn. -/
theorem Runs.alternates_more (helement : IsSingle g s root e) (hseparator : IsSingle g s root sep)
    {silent : Bool} {goal : Goal δ} (h : Runs g s silent goal pos m found m')
    (hgoal : goal = .more e (some sep) least trailing count)
    (hreached : Reached g s root ⟨silent, goal, pos, m⟩) (hfound : found = some (trees, q)) :
    ∃ separators elements, Alternates g s root sep e pos trees separators elements q ∧
      Balanced least count trailing separators.length elements.length := by
  induction h generalizing count trees q with
  | noSeparator =>
      cases hgoal
      exact alternates_end hfound
  | @separatorOnly silent _ _ _ _ _ pos m separators p m₁ _ hsep =>
      cases hgoal
      split at hfound
      · next htrailing =>
        obtain ⟨hleast, rfl, rfl⟩ := endOfList_inv hfound
        have hmatched : Matched g s root sep pos trees q :=
          ⟨silent, m, m₁, hreached.tail .separator, hsep⟩
        obtain ⟨t, rfl⟩ := hseparator _ _ _ hmatched
        exact ⟨[t], [], .cons hmatched .nil, hleast, .inr ⟨rfl, by simpa using htrailing⟩⟩
      · exact alternates_end hfound
  | noProgress =>
      cases hgoal
      exact alternates_end hfound
  | @moreStep silent _ _ _ _ _ pos m separators p m₁ next q' m₂ _ _ hsep helem hlt _ _ _ ihmore =>
      cases hgoal
      obtain ⟨rest, hrest, rfl⟩ := after_eq_some hfound
      have hmatched : Matched g s root sep pos separators p :=
        ⟨silent, m, m₁, hreached.tail .separator, hsep⟩
      have hmatched' : Matched g s root e p next q' :=
        ⟨silent, m₁, m₂, hreached.tail (.moreElement hsep), helem⟩
      obtain ⟨u, rfl⟩ := hseparator _ _ _ hmatched
      obtain ⟨t, rfl⟩ := helement _ _ _ hmatched'
      obtain ⟨separators, elements, halternates, hleast, hends⟩ :=
        ihmore rfl (hreached.tail (.moreRest hsep helem hlt)) hrest
      refine ⟨u :: separators, t :: elements, .cons hmatched (.cons hmatched' halternates), ?_, ?_⟩
      · rw [List.length_cons]
        omega
      · simpa using hends
  | _ => cases hgoal

/-- **Lists alternate.**  Let each match of the element and of the separator of a list be one tree.  In
a tree that parsing gives, the children of a match of the list are elements and separators in turn, and
they are told apart as such.  There are at least as many elements as the list asks for: one more than
separators, or as many if the list allows a separator at the end, or none where none has to be. -/
theorem listItems_alternate [LawfulBEq δ] {tree : RawTree δ} (h : parse g root s = .parsed tree)
    {d : δ} {e sep : Rule δ} {least : Nat} {trailing : Bool}
    (hrule : g.rule d = some (.list e (some sep) least trailing))
    (helement : IsSingle g s root e) (hseparator : IsSingle g s root sep)
    {i j : Nat} {cs : List (RawTree δ)} (hmem : .node (some d) i j cs ∈ tree.nodes) :
    ∃ elements separators,
      (RawTree.node (some d) i j cs).listItems g = (elements, separators) ∧
      Alternates g s root e sep i cs elements separators j ∧
      least ≤ elements.length ∧
      (elements.length = separators.length + 1 ∨
        elements.length = separators.length ∧ 0 < elements.length ∧ trailing = true ∨
        elements = [] ∧ separators = [] ∧ least = 0) := by
  have hitems : (RawTree.node (some d) i j cs).listItems g = RawTree.alternate cs := by
    rw [RawTree.listItems, hrule]
    rfl
  obtain ⟨r, hr, silent, m, m', hreached, hruns⟩ := matched_of_mem_nodes h hmem
  obtain rfl := Option.some.inj (hr.symm.trans hrule)
  rw [hitems]
  generalize hfound : some (cs, j) = found at hruns
  cases hruns with
  | noElement =>
      split at hfound
      · next hleast =>
        cases hfound
        exact ⟨[], [], rfl, .nil, by omega, .inr (.inr ⟨rfl, rfl, hleast⟩)⟩
      · cases hfound
  | @elements _ _ _ _ _ _ _ first p m₁ _ _ hfirst hmore =>
      obtain ⟨rest, hrest, rfl⟩ := after_eq_some hfound.symm
      have hmatched : Matched g s root e i first p :=
        ⟨silent, m, m₁, hreached.tail .element, hfirst⟩
      obtain ⟨t, rfl⟩ := helement _ _ _ hmatched
      obtain ⟨separators, elements, halternates, hleast, hends⟩ :=
        hmore.alternates_more helement hseparator rfl (hreached.tail (.elements hfirst)) hrest
      have hall : Alternates g s root e sep i (t :: rest) (t :: elements) separators j :=
        .cons hmatched halternates
      refine ⟨t :: elements, separators, hall.alternate_eq, hall, ?_, ?_⟩
      · rw [List.length_cons]
        omega
      · rcases hends with hends | ⟨hends, htrailing⟩
        · exact .inl (by rw [List.length_cons, hends])
        · exact .inr (.inl ⟨by rw [List.length_cons, hends], by simp, htrailing⟩)

/-! ## Rules whose matches are single trees -/

def Goal.unit : Goal δ → Bool
  | rule r => r.unit
  | definition _ => true
  | first rs => Rule.unitAll rs
  | _ => false

theorem Runs.single {silent : Bool} {goal : Goal δ} (h : Runs g s silent goal pos m found m')
    (hunit : goal.unit = true) (hfound : found = some (trees, q)) : ∃ t, trees = [t] := by
  induction h generalizing trees q with
  | accepted =>
      cases hfound
      exact ⟨_, rfl⟩
  | ref _ ih => exact ih rfl hfound
  | choice _ ih => exact ih hunit hfound
  | firstHit _ ih =>
      rw [Goal.unit, Rule.unitAll, Bool.and_eq_true] at hunit
      exact ih hunit.1 hfound
  | firstMiss _ _ _ ih =>
      rw [Goal.unit, Rule.unitAll, Bool.and_eq_true] at hunit
      exact ih hunit.2 hfound
  | remembered =>
      obtain ⟨⟨tree, q'⟩, -, hpair⟩ := Option.map_eq_some_iff.mp hfound
      cases hpair
      exact ⟨tree, rfl⟩
  | defined =>
      obtain ⟨inner, -, rfl⟩ := recalled_asNode_eq_some hfound
      exact ⟨_, rfl⟩
  | pastEnd | refused | firstNil | reentered | undefined => cases hfound
  | _ => simp [Goal.unit, Rule.unit] at hunit

theorem isSingle_of_unit {r : Rule δ} (h : r.unit = true) : IsSingle g s root r := by
  rintro p trees q ⟨silent, m, m', -, hruns⟩
  exact hruns.single h rfl

/-- Whether a whole text is one list with four children. -/
def Outcome.isListOfFour : Outcome Nat → Bool
  | .parsed (.node _ _ _ [.node (some 0) _ _ [_, _, _, _], _]) => true
  | _ => false

theorem Outcome.exists_of_isListOfFour {o : Outcome Nat} (h : o.isListOfFour = true) :
    ∃ form first last i j t₁ u₁ t₂ u₂ e,
      o = .parsed (.node form first last [.node (some 0) i j [t₁, u₁, t₂, u₂], e]) := by
  unfold isListOfFour at h
  split at h
  · exact ⟨_, _, _, _, _, _, _, _, _, _, rfl⟩
  · cases h

/-- A list of two names, with a comma after the second one. -/
theorem listItems_alternate_trailingNames :
    ∃ s tree i j cs, tokenize .csharp "a, b,".toList = .ok s ∧
      parse trailingNames 0 s = .parsed tree ∧ .node (some 0) i j cs ∈ tree.nodes ∧
      ∃ elements separators,
        (RawTree.node (some 0) i j cs).listItems trailingNames = (elements, separators) ∧
        elements.length = 2 ∧ separators.length = 2 ∧
        Alternates trailingNames s 0 (.ref 1) (.token .comma) i cs elements separators j := by
  have hok : (tokenize .csharp "a, b,".toList).toOption.any
      (fun s => (parse trailingNames 0 s).isListOfFour) = true := by decide +kernel
  cases hs : tokenize .csharp "a, b,".toList with
  | error fault =>
      rw [hs] at hok
      cases hok
  | ok s =>
      rw [hs, Except.toOption, Option.any_some] at hok
      obtain ⟨form, first, last, i, j, t₁, u₁, t₂, u₂, e, htree⟩ :=
        Outcome.exists_of_isListOfFour hok
      have hmem : .node (some 0) i j [t₁, u₁, t₂, u₂] ∈
          (RawTree.node form first last [.node (some 0) i j [t₁, u₁, t₂, u₂], e]).nodes := by
        rw [RawTree.nodes, RawTree.nodesOf, RawTree.nodes]
        simp
      obtain ⟨elements, separators, hitems, halternates, -, -⟩ := listItems_alternate htree rfl
        (isSingle_of_unit rfl) (isSingle_of_unit rfl) hmem
      cases hitems
      exact ⟨s, _, i, j, _, rfl, htree, hmem, _, _, rfl, rfl, rfl, halternates⟩

end DualSyntax.Packrat
