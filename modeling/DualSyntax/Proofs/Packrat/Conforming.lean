import DualSyntax.Proofs.Grammar.Words
import DualSyntax.Proofs.Packrat.Coverage

/-!
# A match conforms to its rules

The children of every match in a raw tree spell a word of its rule.  Remembered answers conform as
fresh ones do, so the induction over a run carries both, as it does for the tokens of a match.
-/

namespace DualSyntax

variable {δ : Type}

/-- A tree in which the children of every match spell a word of its rule. -/
inductive Conforms (g : Grammar δ) : RawTree δ → Prop
  | leaf (t : Token) : Conforms g (.leaf t)
  | node {d i j cs r} (hrule : g.rule d = some r) (hspells : Rule.Spells [r] (cs.map RawTree.symbol))
      (hcs : ∀ c ∈ cs, Conforms g c) : Conforms g (.node (some d) i j cs)

namespace Packrat

def Goal.rules : Goal δ → List (Rule δ)
  | rule r => [r]
  | definition d => [.ref d]
  | all rs => rs
  | first rs => [.choice rs]
  | more element separator _ trailing _ => [.following element separator trailing]

structure Spelled (g : Grammar δ) (rs : List (Rule δ)) (trees : List (RawTree δ)) : Prop where
  spells : Rule.Spells rs (trees.map RawTree.symbol)
  conforms : ∀ t ∈ trees, Conforms g t

def SpelledMatch (g : Grammar δ) (rs : List (Rule δ)) (found : Match δ) : Prop :=
  ∀ trees q, found = some (trees, q) → Spelled g rs trees

variable {g : Grammar δ} {rs rs' : List (Rule δ)} {trees more : List (RawTree δ)} {found : Match δ}

theorem Spelled.of_spells (h : Rule.Spells rs ([] : List (Symbol δ))) : Spelled g rs [] :=
  ⟨h, by simp⟩

theorem Spelled.imp (h : Spelled g rs trees)
    (hspells : Rule.Spells rs (trees.map RawTree.symbol) →
      Rule.Spells rs' (trees.map RawTree.symbol)) : Spelled g rs' trees :=
  ⟨hspells h.spells, h.conforms⟩

theorem Spelled.append (h : Spelled g rs trees) (h' : Spelled g rs' more) :
    Spelled g (rs ++ rs') (trees ++ more) := by
  refine ⟨by simpa using h.spells.append h'.spells, ?_⟩
  intro t ht
  rcases List.mem_append.mp ht with ht | ht
  · exact h.conforms t ht
  · exact h'.conforms t ht

theorem SpelledMatch.none : SpelledMatch g rs none := by
  intro trees q h
  cases h

theorem SpelledMatch.some {q : Nat} (h : Spelled g rs trees) :
    SpelledMatch g rs (some (trees, q)) := by
  intro trees' q' h'
  cases h'
  exact h

theorem SpelledMatch.imp (h : SpelledMatch g rs found)
    (hspells : ∀ w, Rule.Spells rs w → Rule.Spells rs' w) : SpelledMatch g rs' found :=
  fun trees q hfound => (h trees q hfound).imp (hspells _)

theorem SpelledMatch.after (h : Spelled g rs trees) (hm : SpelledMatch g rs' found) :
    SpelledMatch g (rs ++ rs') (after trees found) := by
  cases found with
  | none => exact .none
  | some pair => exact .some (h.append (hm pair.1 pair.2 rfl))

theorem SpelledMatch.endOfList {q least count : Nat} (h : Spelled g rs trees) :
    SpelledMatch g rs (endOfList least count trees q) := by
  unfold Packrat.endOfList
  split
  · exact .none
  · exact .some h

/-! ## What follows the first element of a list -/

theorem spells_following_nil (e : Rule δ) (sep : Option (Rule δ)) (trailing : Bool) :
    Rule.Spells [.following e sep trailing] [] := by
  cases sep with
  | none => exact .noElement rfl .nil
  | some s =>
      refine .sequence (.noElement rfl ?_)
      cases trailing with
      | false => exact .empty .nil
      | true => exact .absent .nil

theorem spells_following_separator {s e : Rule δ} {w : List (Symbol δ)} (h : Rule.Spells [s] w) :
    Rule.Spells [.following e (some s) true] w :=
  .sequence (.noElement rfl (.present h))

theorem spells_following_step {e : Rule δ} {sep : Option (Rule δ)} {trailing : Bool}
    {u v w : List (Symbol δ)} (hsep : Rule.Spells [between sep] u) (helem : Rule.Spells [e] v)
    (hrest : Rule.Spells [.following e sep trailing] w) :
    Rule.Spells [.following e sep trailing] (u ++ v ++ w) := by
  have hpair := hsep.append helem
  cases sep with
  | none =>
      cases hpair with
      | empty hpair => exact .elements (hpair.append hrest)
  | some s =>
      cases hrest with
      | sequence hrest => exact .sequence (.elements (.sequence (hpair.append hrest)))

theorem SpelledMatch.moreStep {e : Rule δ} {sep : Option (Rule δ)} {trailing : Bool}
    {separators : List (RawTree δ)} (hsep : Spelled g [between sep] separators)
    (helem : Spelled g [e] trees) (hmore : SpelledMatch g [.following e sep trailing] found) :
    SpelledMatch g [.following e sep trailing] (Packrat.after (separators ++ trees) found) := by
  cases found with
  | none => exact .none
  | some pair =>
      have hrest := hmore pair.1 pair.2 rfl
      refine .some ⟨?_, ((hsep.append helem).append hrest).conforms⟩
      simpa using spells_following_step hsep.spells helem.spells hrest.spells

/-! ## Along a run -/

variable [BEq δ]

def Memory.Conforming (g : Grammar δ) (m : Memory δ) : Prop :=
  ∀ d p tree q, m.chart.get? d p = some (.answered (some (tree, q))) → Spelled g [.ref d] [tree]

theorem Memory.Conforming.refuse {m : Memory δ} (h : m.Conforming g) (pos : Nat) (k : TokenKind) :
    (m.refuse pos k).Conforming g := by
  intro d p tree q hq
  rw [Memory.refuse_chart] at hq
  exact h d p tree q hq

theorem Memory.Conforming.note [LawfulBEq δ] {m : Memory δ} (h : m.Conforming g) {d : δ}
    {pos : Nat} {status : Status δ}
    (ha : ∀ tree q, status = .answered (some (tree, q)) → Spelled g [.ref d] [tree]) :
    (m.note d pos status).Conforming g := by
  intro e p tree q hq
  by_cases hkey : (d, pos) = (e, p)
  · cases hkey
    rw [Memory.note, Chart.get?_set_self] at hq
    exact ha tree q (Option.some.inj hq)
  · rw [Memory.note, Chart.get?_set_of_ne _ _ hkey] at hq
    exact h e p tree q hq

/-- A run from a memory whose answers conform finds a match that its goal spells, and leaves such a
memory. -/
theorem Runs.conforms [LawfulBEq δ] {s : TokenStream} {silent : Bool} {goal : Goal δ} {pos : Nat}
    {m m' : Memory δ} (h : Runs g s silent goal pos m found m') (hm : m.Conforming g) :
    SpelledMatch g goal.rules found ∧ m'.Conforming g := by
  induction h with
  | empty => exact ⟨.some (.of_spells (.empty .nil)), hm⟩
  | allNil => exact ⟨.some (.of_spells .nil), hm⟩
  | pastEnd | firstNil | reentered => exact ⟨.none, hm⟩
  | @accepted silent k pos m t hget hkind =>
      subst hkind
      exact ⟨.some ⟨.token .nil, by simpa using Conforms.leaf t⟩, hm⟩
  | @refused silent k pos m t hget hkind =>
      refine ⟨.none, ?_⟩
      cases silent with
      | true => exact hm
      | false => exact hm.refuse pos k
  | ref _ ih => exact ih hm
  | sequence _ ih =>
      refine ⟨(ih hm).1.imp fun w h => .sequence ?_, (ih hm).2⟩
      rw [List.append_nil]
      exact h
  | choice _ ih => exact ih hm
  | @optional silent r pos m found m' _ ih =>
      obtain ⟨hfound, hm'⟩ := ih hm
      refine ⟨.some ?_, hm'⟩
      cases found with
      | none => exact .of_spells (.absent .nil)
      | some pair => exact (hfound pair.1 pair.2 rfl).imp .present
  | notAhead _ ih =>
      refine ⟨?_, (ih hm).2⟩
      split
      · exact .none
      · exact .some (.of_spells (.notAhead .nil))
  | noElement _ ih =>
      refine ⟨?_, (ih hm).2⟩
      split
      · exact .some (.of_spells (.noElement ‹_› .nil))
      · exact .none
  | elements _ _ ihfirst ihmore =>
      obtain ⟨hfirst, hm₁⟩ := ihfirst hm
      obtain ⟨hmore, hm₂⟩ := ihmore hm₁
      exact ⟨(SpelledMatch.after (hfirst _ _ rfl) hmore).imp fun w h => .elements h, hm₂⟩
  | allStop _ ih => exact ⟨.none, (ih hm).2⟩
  | allStep _ _ ihfirst ihrest =>
      obtain ⟨hfirst, hm₁⟩ := ihfirst hm
      obtain ⟨hrest, hm₂⟩ := ihrest hm₁
      exact ⟨.after (hfirst _ _ rfl) hrest, hm₂⟩
  | firstHit _ ih =>
      exact ⟨(ih hm).1.imp fun w h => .choice (List.mem_cons_self ..) h, (ih hm).2⟩
  | firstMiss _ _ ihmiss ihrest =>
      obtain ⟨hrest, hm'⟩ := ihrest (ihmiss hm).2
      refine ⟨hrest.imp fun w h => ?_, hm'⟩
      cases h with
      | choice hr h => exact .choice (List.mem_cons_of_mem _ hr) h
  | noSeparator _ ih =>
      exact ⟨.endOfList (.of_spells (spells_following_nil _ _ _)), (ih hm).2⟩
  | @separatorOnly silent e sep least trailing count pos m separators p m' m'' _ _ ihsep ihelem =>
      obtain ⟨hsep, hm₁⟩ := ihsep hm
      refine ⟨?_, (ihelem hm₁).2⟩
      split
      · next hboth =>
          cases sep with
          | none => simp at hboth
          | some s =>
              obtain rfl : trailing = true := by simpa using hboth
              exact .endOfList ((hsep _ _ rfl).imp spells_following_separator)
      · exact .endOfList (.of_spells (spells_following_nil _ _ _))
  | noProgress _ _ _ ihsep ihelem =>
      exact ⟨.endOfList (.of_spells (spells_following_nil _ _ _)), (ihelem (ihsep hm).2).2⟩
  | moreStep _ _ _ _ ihsep ihelem ihmore =>
      obtain ⟨hsep, hm₁⟩ := ihsep hm
      obtain ⟨helem, hm₂⟩ := ihelem hm₁
      obtain ⟨hmore, hm₃⟩ := ihmore hm₂
      exact ⟨.moreStep (hsep _ _ rfl) (helem _ _ rfl) hmore, hm₃⟩
  | @remembered silent d pos m answer h =>
      refine ⟨?_, hm⟩
      cases answer with
      | none => exact .none
      | some pair => exact .some (hm d pos pair.1 pair.2 h)
  | undefined =>
      refine ⟨.none, (hm.note ?_).note ?_⟩
      · intro tree q h
        cases h
      · intro tree q h
        cases h
  | @defined silent d pos m r found m' _ hrule _ ih =>
      obtain ⟨hfound, hm'⟩ := ih (hm.note (by intro tree q h; cases h))
      have hnode : ∀ tree q, asNode d pos found = some (tree, q) → Spelled g [.ref d] [tree] := by
        intro tree q htree
        obtain ⟨⟨trees, q⟩, htrees, hpair⟩ := Option.map_eq_some_iff.mp htree
        cases hpair
        obtain ⟨hspells, hconforms⟩ := hfound trees q htrees
        exact ⟨.ref .nil, by simpa using Conforms.node hrule hspells hconforms⟩
      refine ⟨?_, hm'.note fun tree q h => hnode tree q (Status.answered.inj h)⟩
      intro trees q htrees
      obtain ⟨⟨tree, q⟩, htree, hpair⟩ := Option.map_eq_some_iff.mp htrees
      cases hpair
      exact hnode tree q htree

/-- The tree of a text is a conforming match of its root and the end marker. -/
theorem parse_conforms [LawfulBEq δ] {s : TokenStream} {root : δ} {tree : RawTree δ}
    (h : parse g root s = .parsed tree) :
    ∃ inner, tree = .node none 0 s.size (inner :: (s.get? (s.size - 1)).toList.map .leaf) ∧
      inner.symbol = .node (some root) ∧ Conforms g inner := by
  obtain ⟨trees, m, hruns, rfl⟩ := parse_runs h
  have hempty : ({} : Memory δ).Conforming g := by
    intro d p tree q hq
    simp at hq
  obtain ⟨hspells, hconforms⟩ := (hruns.conforms hempty).1 trees _ rfl
  generalize hw : trees.map RawTree.symbol = w at hspells
  cases hspells with
  | ref hnil =>
      cases hnil.nil_inv
      obtain ⟨inner, rfl, hinner⟩ := List.map_eq_singleton_iff.mp hw
      exact ⟨inner, rfl, hinner, hconforms inner (List.mem_singleton_self inner)⟩

end Packrat

end DualSyntax
