import DualSyntax.Proofs.Lexing.Lossless
import DualSyntax.Proofs.Packrat.Trace

/-!
# A match covers its tokens

The trees of a match from one position to another hold exactly the tokens between the two, each
once and in order.  The same holds of every answer that the matcher remembers, so a remembered
answer covers what a fresh one would; `Runs.covers` carries both along a run.  For a whole text it
follows that the raw tree is lossless, whatever the grammar is.
-/

namespace DualSyntax

/-! ## Parts of a stream -/

/-- The tokens from one index up to another, the latter excluded. -/
def TokenStream.slice (s : TokenStream) (p q : Nat) : List Token :=
  (s.tokens.toList.drop p).take (q - p)

theorem TokenStream.slice_self (s : TokenStream) (p : Nat) : s.slice p p = [] := by
  simp [slice]

theorem TokenStream.slice_append (s : TokenStream) {p q r : Nat} (hpq : p ≤ q) (hqr : q ≤ r) :
    s.slice p q ++ s.slice q r = s.slice p r := by
  unfold slice
  have hr : r - p = (q - p) + (r - q) := by omega
  have hq : s.tokens.toList.drop q = (s.tokens.toList.drop p).drop (q - p) := by
    rw [List.drop_drop]
    congr 1
    omega
  rw [hr, List.take_add, hq]

theorem TokenStream.slice_succ {s : TokenStream} {p : Nat} {t : Token} (h : s.get? p = some t) :
    s.slice p (p + 1) = [t] := by
  have hlist : s.tokens.toList[p]? = some t := by simpa [get?] using h
  obtain ⟨hp, ht⟩ := List.getElem?_eq_some_iff.mp hlist
  unfold slice
  rw [List.drop_eq_getElem_cons hp, ht]
  simp

theorem TokenStream.lt_size_of_get? {s : TokenStream} {p : Nat} {t : Token}
    (h : s.get? p = some t) : p < s.size :=
  (Array.getElem?_eq_some_iff.mp h).1

theorem TokenStream.slice_last {s : TokenStream} {init : List Token} {e : Token}
    (h : s.tokens.toList = init ++ [e]) :
    s.slice 0 (s.size - 1) ++ (s.get? (s.size - 1)).toList = s.tokens.toList := by
  have hsize : s.size = init.length + 1 := by
    have hlen := congrArg List.length h
    simpa [size] using hlen
  have hget : s.get? (s.size - 1) = some e := by
    have hlist : s.tokens.toList[init.length]? = some e := by simp [h]
    simpa [get?, hsize] using hlist
  rw [hget, hsize, slice, h]
  simp

namespace RawTree

variable {δ : Type}

theorem tokensOf_append (xs ys : List (RawTree δ)) :
    tokensOf (xs ++ ys) = tokensOf xs ++ tokensOf ys := by
  induction xs with
  | nil => simp [tokensOf]
  | cons x xs ih => simp [tokensOf, ih]

theorem tokensOf_leaves (ts : List Token) : tokensOf (ts.map (leaf (δ := δ))) = ts := by
  induction ts with
  | nil => rfl
  | cons t ts ih => simp [tokensOf, tokens, ih]

theorem mem_nodesOf {cs : List (RawTree δ)} {u : RawTree δ} : u ∈ nodesOf cs ↔ ∃ c ∈ cs, u ∈ c.nodes := by
  induction cs with
  | nil => simp [nodesOf]
  | cons t ts ih => simp [nodesOf, ih]

/-- A tree in which every match holds the tokens between the two indices that it knows. -/
inductive Placed (s : TokenStream) : RawTree δ → Prop
  | leaf (t : Token) : Placed s (.leaf t)
  | node {form i j cs} (hsize : i ≤ s.size → j ≤ s.size) (htokens : tokensOf cs = s.slice i j)
      (hcs : ∀ c ∈ cs, Placed s c) : Placed s (.node form i j cs)

end RawTree

namespace Packrat

variable {δ : Type}

/-! ## Covering -/

structure Covers (s : TokenStream) (p q : Nat) (trees : List (RawTree δ)) : Prop where
  le : p ≤ q
  le_size : p ≤ s.size → q ≤ s.size
  tokens : RawTree.tokensOf trees = s.slice p q
  placed : ∀ t ∈ trees, t.Placed s

def CoversMatch (s : TokenStream) (pos : Nat) (found : Match δ) : Prop :=
  ∀ trees q, found = some (trees, q) → Covers s pos q trees

variable {s : TokenStream} {pos p q : Nat} {trees more : List (RawTree δ)} {found : Match δ}

theorem Covers.nil (s : TokenStream) (pos : Nat) : Covers s pos pos ([] : List (RawTree δ)) :=
  ⟨Nat.le_refl pos, id, by simp [RawTree.tokensOf, TokenStream.slice_self], by simp⟩

theorem Covers.leaf {t : Token} (h : s.get? pos = some t) :
    Covers s pos (pos + 1) [RawTree.leaf (δ := δ) t] := by
  refine ⟨Nat.le_succ pos, fun _ => TokenStream.lt_size_of_get? h, ?_, ?_⟩
  · simp [RawTree.tokensOf, RawTree.tokens, TokenStream.slice_succ h]
  · simpa using RawTree.Placed.leaf t

theorem Covers.append (h₁ : Covers s pos p trees) (h₂ : Covers s p q more) :
    Covers s pos q (trees ++ more) := by
  refine ⟨Nat.le_trans h₁.le h₂.le, fun h => h₂.le_size (h₁.le_size h), ?_, ?_⟩
  · rw [RawTree.tokensOf_append, h₁.tokens, h₂.tokens, s.slice_append h₁.le h₂.le]
  · exact List.forall_mem_append.mpr ⟨h₁.placed, h₂.placed⟩

theorem Covers.node (h : Covers s p q trees) (form : Option δ) :
    Covers s p q [RawTree.node form p q trees] := by
  refine ⟨h.le, h.le_size, ?_, ?_⟩
  · simpa [RawTree.tokensOf, RawTree.tokens] using h.tokens
  · simpa using RawTree.Placed.node h.le_size h.tokens h.placed

theorem CoversMatch.none : CoversMatch (δ := δ) s pos none := by
  intro trees q h
  cases h

theorem CoversMatch.some (h : Covers s pos q trees) : CoversMatch s pos (some (trees, q)) := by
  intro trees' q' h'
  cases h'
  exact h

theorem CoversMatch.after (h : Covers s pos p trees) (hm : CoversMatch s p found) :
    CoversMatch s pos (after trees found) := by
  cases found with
  | none => exact .none
  | some pair => exact .some (h.append (hm pair.1 pair.2 rfl))

theorem CoversMatch.endOfList (h : Covers s pos q trees) (least count : Nat) :
    CoversMatch s pos (endOfList least count trees q) := by
  unfold Packrat.endOfList
  split
  · exact .none
  · exact .some h

/-! ## Along a run -/

section Runs

variable [BEq δ]

/-- Every remembered answer covers what it passes. -/
def Memory.Covered (s : TokenStream) (m : Memory δ) : Prop :=
  ∀ d p tree q, m.chart.get? d p = some (.answered (some (tree, q))) → Covers s p q [tree]

theorem Memory.Covered.refuse {m : Memory δ} (h : m.Covered s) (k : TokenKind) :
    (m.refuse pos k).Covered s := by
  intro d p tree q hq
  rw [Memory.refuse_chart] at hq
  exact h d p tree q hq

theorem Memory.Covered.note [LawfulBEq δ] {m : Memory δ} (h : m.Covered s) {d : δ}
    {status : Status δ}
    (ha : ∀ tree q, status = .answered (some (tree, q)) → Covers s pos q [tree]) :
    (m.note d pos status).Covered s := by
  intro e p tree q hq
  by_cases hkey : (d, pos) = (e, p)
  · cases hkey
    rw [Memory.note, Chart.get?_set_self] at hq
    exact ha tree q (Option.some.inj hq)
  · rw [Memory.note, Chart.get?_set_of_ne _ _ hkey] at hq
    exact h e p tree q hq

theorem Memory.Covered.empty (s : TokenStream) : Memory.Covered s ({} : Memory δ) := by
  intro d p tree q hq
  simp at hq

/-- A run from a memory whose answers cover what they pass finds a match that does, and leaves such
a memory. -/
theorem Runs.covers [LawfulBEq δ] {g : Grammar δ} {silent : Bool} {goal : Goal δ}
    {m m' : Memory δ} (h : Runs g s silent goal pos m found m') (hm : m.Covered s) :
    CoversMatch s pos found ∧ m'.Covered s := by
  induction h with
  | empty | allNil => exact ⟨.some (.nil s _), hm⟩
  | pastEnd | firstNil | reentered => exact ⟨.none, hm⟩
  | accepted hget _ => exact ⟨.some (.leaf hget), hm⟩
  | @refused silent k pos m t hget hkind =>
      refine ⟨.none, ?_⟩
      cases silent with
      | true => exact hm
      | false => exact hm.refuse k
  | ref _ ih | sequence _ ih | choice _ ih => exact ih hm
  | @optional silent r pos m found m' _ ih =>
      obtain ⟨hfound, hm'⟩ := ih hm
      refine ⟨.some ?_, hm'⟩
      cases found with
      | none => exact .nil s pos
      | some pair => exact hfound pair.1 pair.2 rfl
  | notAhead _ ih =>
      refine ⟨?_, (ih hm).2⟩
      split
      · exact .none
      · exact .some (.nil s _)
  | noElement _ ih =>
      refine ⟨?_, (ih hm).2⟩
      split
      · exact .some (.nil s _)
      · exact .none
  | elements _ _ ihfirst ihmore =>
      obtain ⟨hfirst, hm₁⟩ := ihfirst hm
      obtain ⟨hmore, hm₂⟩ := ihmore hm₁
      exact ⟨.after (hfirst _ _ rfl) hmore, hm₂⟩
  | allStop _ ih => exact ⟨.none, (ih hm).2⟩
  | allStep _ _ ihfirst ihrest =>
      obtain ⟨hfirst, hm₁⟩ := ihfirst hm
      obtain ⟨hrest, hm₂⟩ := ihrest hm₁
      exact ⟨.after (hfirst _ _ rfl) hrest, hm₂⟩
  | firstHit _ ih => exact ih hm
  | firstMiss _ _ ihmiss ihrest => exact ihrest (ihmiss hm).2
  | noSeparator _ ih => exact ⟨.endOfList (.nil s _) _ _, (ih hm).2⟩
  | separatorOnly _ _ ihsep ihelem =>
      obtain ⟨hsep, hm₁⟩ := ihsep hm
      refine ⟨?_, (ihelem hm₁).2⟩
      split
      · exact .endOfList (hsep _ _ rfl) _ _
      · exact .endOfList (.nil s _) _ _
  | noProgress _ _ _ ihsep ihelem =>
      exact ⟨.endOfList (.nil s _) _ _, (ihelem (ihsep hm).2).2⟩
  | moreStep _ _ _ _ ihsep ihelem ihmore =>
      obtain ⟨hsep, hm₁⟩ := ihsep hm
      obtain ⟨helem, hm₂⟩ := ihelem hm₁
      obtain ⟨hmore, hm₃⟩ := ihmore hm₂
      exact ⟨.after ((hsep _ _ rfl).append (helem _ _ rfl)) hmore, hm₃⟩
  | @remembered silent d pos m answer h =>
      refine ⟨?_, hm⟩
      cases answer with
      | none => exact .none
      | some pair => exact .some (hm d pos pair.1 pair.2 h)
  | undefined =>
      refine ⟨.none, (hm.note ?_).note ?_⟩
      · intro tree q h
        cases h
      · intro tree q h
        cases h
  | @defined silent d pos m r found m' _ _ _ ih =>
      obtain ⟨hfound, hm'⟩ := ih (hm.note (by intro tree q h; cases h))
      have hnode : ∀ tree q, asNode d pos found = some (tree, q) → Covers s pos q [tree] := by
        intro tree q htree
        obtain ⟨⟨trees, q⟩, htrees, hpair⟩ := Option.map_eq_some_iff.mp htree
        cases hpair
        exact (hfound trees q htrees).node _
      refine ⟨?_, hm'.note fun tree q h => hnode tree q (Status.answered.inj h)⟩
      intro trees q htrees
      obtain ⟨⟨tree, q⟩, htree, hpair⟩ := Option.map_eq_some_iff.mp htrees
      cases hpair
      exact hnode tree q htree

end Runs

/-- A tree that parsing gives holds the tokens of the stream, each once and in order. -/
theorem parse_tokens [BEq δ] [LawfulBEq δ] {g : Grammar δ} {root : δ}
    {init : List Token} {e : Token} (hs : s.tokens.toList = init ++ [e]) {tree : RawTree δ}
    (h : parse g root s = .parsed tree) : tree.tokens = s.tokens.toList := by
  obtain ⟨trees, m, hruns, rfl⟩ := parse_runs h
  obtain ⟨hfound, -⟩ := hruns.covers (.empty s)
  rw [RawTree.tokens, RawTree.tokensOf_append, (hfound trees _ rfl).tokens, RawTree.tokensOf_leaves,
    TokenStream.slice_last hs]

/-- In a tree that parsing gives, every match of a definition stands at its tokens. -/
theorem parse_placed [BEq δ] [LawfulBEq δ] {g : Grammar δ} {root : δ} {tree : RawTree δ}
    (h : parse g root s = .parsed tree) : ∀ t ∈ tree.children, t.Placed s := by
  obtain ⟨trees, m, hruns, rfl⟩ := parse_runs h
  obtain ⟨hfound, -⟩ := hruns.covers (.empty s)
  refine List.forall_mem_append.mpr ⟨(hfound trees _ rfl).placed, fun t ht => ?_⟩
  obtain ⟨tk, -, rfl⟩ := List.mem_map.mp ht
  exact .leaf tk

def Outcome.isParsed : Outcome δ → Bool
  | parsed _ => true
  | _ => false

/-- A text that is found to be cut and matched has a stream and a tree. -/
theorem exists_parsed [BEq δ] {l : Language} {src : List Char} {g : Grammar δ} {root : δ}
    (h : (tokenize l src).toOption.any (fun s => (parse g root s).isParsed) = true) :
    ∃ s tree, tokenize l src = .ok s ∧ parse g root s = .parsed tree := by
  cases hs : tokenize l src with
  | error fault =>
      rw [hs] at h
      cases h
  | ok s =>
      rw [hs] at h
      change (parse g root s).isParsed = true at h
      cases htree : parse g root s with
      | parsed tree => exact ⟨s, tree, rfl, htree⟩
      | failed failure | exhausted =>
          rw [htree] at h
          cases h

end Packrat

/-- The raw tree of a text is lossless, whatever the grammar is: its text is the source, and its
tokens are those of the stream. -/
theorem rawTree_lossless {δ : Type} [BEq δ] [LawfulBEq δ] {l : Language}
    {src : List Char} {s : TokenStream} (hs : tokenize l src = .ok s) (g : Grammar δ) (root : δ)
    {tree : RawTree δ} (h : Packrat.parse g root s = .parsed tree) :
    tree.text = String.ofList src ∧ tree.tokens = s.tokens.toList := by
  obtain ⟨init, e, -, hlast, -⟩ := tokenize_spec hs
  have htokens := Packrat.parse_tokens hlast h
  refine ⟨?_, htokens⟩
  rw [RawTree.text, htokens]
  exact tokenize_tokens_text hs

/-- Names with commas between them and, perhaps, after them.  A name asks for a definition that
takes nothing, for itself where it stands and for a definition without a rule first. -/
def trailingNames : Grammar Nat := .ofEntries [
  { name := "names", rule := some (.list (.ref 1) (some (.token .comma)) 1 true) },
  { name := "name", rule := some (.sequence [.notAhead (.token .dot), .optional (.ref 3),
      .choice [.ref 1, .ref 2, .token .identifier]]) },
  { name := "missing" },
  { name := "nothing", rule := some .empty } ]

/-- A list with wide characters, a comment and a comma after its last name. -/
theorem rawTree_lossless_trailingNames :
    ∃ s tree, tokenize .csharp " a, é /* */,".toList = .ok s ∧
      Packrat.parse trailingNames 0 s = .parsed tree ∧
      tree.text = " a, é /* */," ∧ tree.tokens = s.tokens.toList := by
  have hok : (tokenize .csharp " a, é /* */,".toList).toOption.any
      (fun s => (Packrat.parse trailingNames 0 s).isParsed) = true := by
    decide +kernel
  obtain ⟨s, tree, hs, h⟩ := Packrat.exists_parsed hok
  obtain ⟨htext, htokens⟩ := rawTree_lossless hs trailingNames 0 h
  exact ⟨s, tree, hs, h, htext, htokens⟩

end DualSyntax
