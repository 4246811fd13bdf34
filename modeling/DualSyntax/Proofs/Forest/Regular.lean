import DualSyntax.Proofs.Forest.Extensions
import DualSyntax.Proofs.Forest.Links

/-!
# Regular forests

In the tree of a parsed text every node stands where its kind suits the title, and a forest that is built in
order becomes such a tree.
-/

namespace DualSyntax

/-!
## Regular forests

In the tree of a parsed text every child is of a kind that suits its title: words and signs stand under
lexical titles, comments beside them, blocks and empty statements where a statement may have a body, and
accessors in their properties.  Names show a character, spellings end with one that can be seen, and a
declaration of variables declares some.
-/

/-- Whether a text ends with a character that is no white space. -/
def Text.EndsSolid (cs : List Char) : Prop := ∃ c, cs.getLast? = some c ∧ isBlank c = false

theorem Text.EndsSolid.append {cs : List Char} (h : EndsSolid cs) (before : List Char) :
    EndsSolid (before ++ cs) := by
  obtain ⟨c, hc, hblank⟩ := h
  exact ⟨c, by rw [List.getLast?_append, hc, Option.some_or], hblank⟩

/-- Whether a text has a character that can be seen, and no space. -/
structure Text.IsVisible (cs : List Char) : Prop where
  visible : ∃ c ∈ cs, isBlank c = false
  spaceless : ' ' ∉ cs

/-- The titles of single statements that may be blocks or empty, and of the statements of a body. -/
def Title.holdsStatements : Title → Bool
  | statements | embeddedStatement | trueStatement | falseStatement => true
  | _ => false

def Title.holdsBlocks : Title → Bool
  | body | tryBlock | finallyBlock => true
  | _ => false

def NodeKind.suits (t : Title) : NodeKind → Bool
  | token .. => t.isLexical
  | comment .. | blankLine => t == .leadingTrivia || t == .trailingTrivia
  | compilationUnit => false
  | accessor _ => t == .getter || t == .setter
  | variableDeclarator => t == .declarators
  | usingDeclaration => t == .members
  | blockStatement => t.holdsStatements || t.holdsBlocks
  | emptyStatement => t.holdsStatements
  | _ => !t.isLexical && !t.holdsBlocks && t != .declarators

theorem NodeKind.block_of_suits {k : NodeKind} {t : Title} (h : k.suits t = true)
    (ht : t.holdsBlocks = true) : k = .blockStatement := by
  have hbodies : t = .body ∨ t = .tryBlock ∨ t = .finallyBlock := by
    cases t <;> simp_all [Title.holdsBlocks]
  unfold suits at h
  split at h
  case h_8 => rfl
  all_goals
    rcases hbodies with rfl | rfl | rfl <;> cases h

theorem NodeKind.variable_of_suits {k : NodeKind} (h : k.suits .declarators = true) :
    k = .variableDeclarator := by
  unfold suits at h
  split at h <;> first | rfl | cases h

def NodeKind.declaresVariables : NodeKind → Bool
  | variableDeclarationStatement | fieldDeclaration => true
  | _ => false

structure Forest.Regular (f : Forest) : Prop where
  links : f.WellLinked
  suits : ∀ {n t c}, c ∈ f.children n t → (f.kind c).suits t = true
  declares : ∀ {n}, (f.kind n).declaresVariables = true → f.children n .declarators ≠ []
  name : ∀ {n s}, f.kind n = .identifier s → Text.IsVisible s.toList
  spelling : ∀ {n lit l s}, f.kind n = .primitiveExpression lit → lit.spellingIn l = some s →
    Text.EndsSolid s.toList

namespace Forest.Regular

variable {f : Forest} {n m c : NodeId} {t u : Title}

theorem parent (h : f.Regular) (hc : c ∈ f.children n t) : f.parent c = some n :=
  h.links.parent_of_mem_children hc

/-- A node stands below one node and under one title. -/
theorem unique (h : f.Regular) (hc : c ∈ f.children n t) (hc' : c ∈ f.children m u) : n = m ∧ t = u := by
  obtain rfl : n = m := Option.some_inj.mp ((h.parent hc).symm.trans (h.parent hc'))
  refine ⟨rfl, ?_⟩
  by_contra hne
  exact h.links.not_mem_children hne hc hc'

theorem nameOf? (h : f.Regular) {s : String} (hs : f.nameOf? n = some s) : Text.IsVisible s.toList := by
  unfold Forest.nameOf? at hs
  split at hs
  · next heq =>
      cases hs
      obtain ⟨c, -, hc⟩ := Option.map_eq_some_iff.mp heq
      exact h.name hc
  · cases hs

end Forest.Regular

/-!
## Forests that are built in order

While a forest is built, every node is put where its kind suits the title (`Suited`).  From one forest to
the next the kinds of nodes and the variables of declarations stay, and the new nodes are in order: names
have no spaces, and a declaration declares something (`Furthers`).  What is made from nothing in this way is
regular if all names show something.
-/

/-- What titles tell apart about the kinds of nodes. -/
inductive NodeSort where
  | token | trivia | unit | accessor | declarator | directive | block | empty | other
deriving DecidableEq

def NodeKind.sort : NodeKind → NodeSort
  | token .. => .token
  | comment .. | blankLine => .trivia
  | compilationUnit => .unit
  | accessor _ => .accessor
  | variableDeclarator => .declarator
  | usingDeclaration => .directive
  | blockStatement => .block
  | emptyStatement => .empty
  | _ => .other

/-- Whether nodes of a sort may stand under a title. -/
def Title.takes (t : Title) : NodeSort → Bool
  | .token => t.isLexical
  | .trivia => t == .leadingTrivia || t == .trailingTrivia
  | .unit => false
  | .accessor => t == .getter || t == .setter
  | .declarator => t == .declarators
  | .directive => t == .members
  | .block => t.holdsStatements || t.holdsBlocks
  | .empty => t.holdsStatements
  | .other => !t.isLexical && !t.holdsBlocks && t != .declarators

theorem NodeKind.suits_eq_takes (k : NodeKind) (t : Title) : k.suits t = t.takes k.sort := by
  cases k <;> rfl

/-- Kinds whose texts are in order, if there are any: a name has no space, and a spelling ends with a
character that can be seen. -/
def NodeKind.IsNeat : NodeKind → Prop
  | identifier s => ' ' ∉ s.toList
  | primitiveExpression lit => ∀ l s, lit.spellingIn l = some s → Text.EndsSolid s.toList
  | _ => True

/-- Kinds that have no text of their own and declare nothing. -/
def NodeKind.isPlain : NodeKind → Bool
  | identifier _ | primitiveExpression _ | variableDeclarationStatement | fieldDeclaration => false
  | _ => true

theorem NodeKind.isNeat_of_isPlain {k : NodeKind} (h : k.isPlain = true) : k.IsNeat := by
  cases k <;> trivial

theorem NodeKind.declares_of_isPlain {k : NodeKind} (h : k.isPlain = true) :
    k.declaresVariables = false := by
  cases k <;> first | rfl | cases h

theorem NodeKind.isNeat_of_declares {k : NodeKind} (h : k.declaresVariables = true) :
    k.IsNeat := by
  cases k <;> trivial

namespace Forest

/-- Every child is of a kind that suits its title. -/
structure Suited (f : Forest) : Prop where
  links : f.WellLinked
  suits : ∀ {n t c}, c ∈ f.children n t → (f.kind c).suits t = true

/-- A node with all that its kind asks for. -/
structure InOrder (f : Forest) (n : NodeId) : Prop where
  declares : (f.kind n).declaresVariables = true → f.children n .declarators ≠ []
  neat : (f.kind n).IsNeat

/-- From one forest to the next every node keeps its kind and its variables, and whatever is new is in
order. -/
structure Furthers (f f' : Forest) : Prop where
  size_le : f.size ≤ f'.size
  kind : ∀ n, n < f.size → f'.kind n = f.kind n
  keeps : ∀ n, f.children n .declarators ⊆ f'.children n .declarators
  /-- Only new variables are added to a declaration. -/
  adds : ∀ n, ∀ c ∈ f'.children n .declarators, c < f.size → c ∈ f.children n .declarators
  new : ∀ n, f.size ≤ n → f'.InOrder n

variable {f f' f'' : Forest} {owner c n : NodeId} {t : Title}

theorem kind_of_size_le (h : f.size ≤ n) : f.kind n = .blankLine := by
  rw [kind, data_of_size_le h]

theorem children_of_size_le (h : f.size ≤ n) (t : Title) : f.children n t = [] := by
  rw [children, slots_of_size_le h]
  rfl

theorem children_allocate (f : Forest) (kind : NodeKind) (range : TextRange) (n : NodeId) (t : Title) :
    (f.allocate kind range).2.children n t = f.children n t := by
  rw [children, slots_allocate, ← children]

/-- A number that is no node lacks nothing. -/
theorem inOrder_of_size_le (h : f.size ≤ n) : f.InOrder n := by
  have hkind := kind_of_size_le h
  refine ⟨fun hdeclares => ?_, ?_⟩
  · rw [hkind] at hdeclares
    cases hdeclares
  · rw [hkind]
    trivial

theorem InOrder.of_kind (h : f.InOrder n) (hkind : f'.kind n = f.kind n)
    (hkeeps : f.children n .declarators ⊆ f'.children n .declarators) : f'.InOrder n where
  declares hdeclares hnil := by
    rw [hkind] at hdeclares
    exact h.declares hdeclares (List.eq_nil_of_subset_nil (hnil ▸ hkeeps))
  neat := by
    rw [hkind]
    exact h.neat

namespace Furthers

theorem refl (f : Forest) : f.Furthers f :=
  ⟨Nat.le_refl _, fun _ _ => rfl, fun _ _ h => h, fun _ _ h _ => h, fun _ => inOrder_of_size_le⟩

theorem trans (h : f.Furthers f') (h' : f'.Furthers f'') : f.Furthers f'' where
  size_le := Nat.le_trans h.size_le h'.size_le
  kind n hn := (h'.kind n (Nat.lt_of_lt_of_le hn h.size_le)).trans (h.kind n hn)
  keeps n := List.Subset.trans (h.keeps n) (h'.keeps n)
  adds n c hc hlt := h.adds n c (h'.adds n c hc (Nat.lt_of_lt_of_le hlt h.size_le)) hlt
  new n hn := by
    by_cases hlt : n < f'.size
    · exact (h.new n hn).of_kind (h'.kind n hlt) (h'.keeps n)
    · exact h'.new n (Nat.not_lt.mp hlt)

theorem declarators_ne_nil (h : f.Furthers f') (hn : f.children n .declarators ≠ []) :
    f'.children n .declarators ≠ [] :=
  fun hnil => hn (List.eq_nil_of_subset_nil (hnil ▸ h.keeps n))

/-- Nothing but links has changed, and no variable has moved. -/
theorem of_same (hsize : f'.size = f.size) (hkind : ∀ n, f'.kind n = f.kind n)
    (hsame : ∀ n, f'.children n .declarators = f.children n .declarators) : f.Furthers f' where
  size_le := Nat.le_of_eq hsize.symm
  kind n _ := hkind n
  keeps n := by
    rw [hsame]
    exact fun _ h => h
  adds n c hc _ := by
    rwa [hsame] at hc
  new n hn := inOrder_of_size_le (hsize ▸ hn)

/-- What is made from nothing in order is regular, if all names show something. -/
theorem regular {f' : Forest} (h : Furthers {} f') (hsuited : f'.Suited)
    (hvisible : ∀ n s, f'.kind n = .identifier s → ∃ c ∈ s.toList, Text.isBlank c = false) :
    f'.Regular where
  links := hsuited.links
  suits := hsuited.suits
  declares {n} := (h.new n (Nat.zero_le n)).declares
  name {n s} hkind := by
    have hneat := (h.new n (Nat.zero_le n)).neat
    rw [hkind] at hneat
    exact ⟨hvisible n s hkind, hneat⟩
  spelling {n lit l s} hkind := by
    have hneat := (h.new n (Nat.zero_le n)).neat
    rw [hkind] at hneat
    exact hneat l s

end Furthers

/-! ### Single steps -/

namespace Suited

theorem empty : Suited {} where
  links := .empty
  suits hmem := by
    rw [children_of_size_le (Nat.zero_le _)] at hmem
    cases hmem

theorem allocate (h : f.Suited) (kind : NodeKind) (range : TextRange) :
    (f.allocate kind range).2.Suited where
  links := h.links.allocate kind range
  suits {n t c} hmem := by
    rw [children_allocate] at hmem
    have hlt : c < f.size := lt_size_of_parent (h.links.parent_of_mem_children hmem)
    rw [kind_allocate_of_lt hlt]
    exact h.suits hmem

/-- Only variables stand among the variables of a declaration. -/
theorem not_declared (h : f.Suited) (hc : (f.kind c).suits t = true) (ht : t ≠ .declarators)
    (m : NodeId) : c ∉ f.children m .declarators := by
  intro hmem
  rw [NodeKind.variable_of_suits (h.suits hmem)] at hc
  exact ht (beq_iff_eq.mp hc)

theorem edited (h : f.Suited) (hlinked : f'.WellLinked) {above out : Option NodeId}
    {list : List NodeId} (hedited : Edited f f' c above out owner t list)
    (hlist : ∀ m ∈ list, m = c ∨ m ∈ f.children owner t) (hc : (f.kind c).suits t = true) :
    f'.Suited where
  links := hlinked
  suits {n u m} hmem := by
    rw [hedited.kind]
    by_cases hhere : n ≠ owner ∨ u ≠ t
    · rw [hedited.others n u hhere] at hmem
      exact h.suits (List.mem_filter.mp hmem).1
    · obtain ⟨rfl, rfl⟩ : n = owner ∧ u = t := by
        simpa only [not_or, not_not] using hhere
      rw [hedited.list] at hmem
      rcases hlist m hmem with rfl | hold
      · exact hc
      · exact h.suits hold

/-- Moving a node below another title leaves all variables where they are. -/
theorem furthers_of_edited (h : f.Suited) {above out : Option NodeId} {list : List NodeId}
    (hedited : Edited f f' c above out owner t list) (hc : (f.kind c).suits t = true)
    (ht : t ≠ .declarators) : f.Furthers f' := by
  refine .of_same hedited.size hedited.kind fun n => ?_
  rw [hedited.others n .declarators (.inr ht.symm)]
  exact filter_of_not_mem (h.not_declared hc ht n)

theorem set (h : f.Suited) (hc : (f.kind c).suits t = true) (ht : t ≠ .declarators)
    {old : Option NodeId} (hset : f.setChild? owner t c = some (old, f')) :
    f'.Suited ∧ f.Furthers f' := by
  rcases h.links.edited_of_setChild? hset with ⟨-, rfl⟩ | hedited
  · exact ⟨h, .refl f⟩
  · refine ⟨h.edited (h.links.setChild? hset) hedited (fun m hm => ?_) hc,
      h.furthers_of_edited hedited hc ht⟩
    refine (List.mem_cons.mp hm).imp_right fun hm => ?_
    exact (List.mem_filter.mp (List.mem_of_mem_drop hm)).1

/-- What adding a node to a list makes of the list. -/
theorem edited_append (h : f.Suited) (happend : f.appendChild? owner t c = some f') :
    f'.WellLinked ∧
      Edited f f' c (some owner) none owner t ((f.children owner t).filter (· != c) ++ [c]) := by
  refine ⟨h.links.appendChild? happend, ?_⟩
  have hattach : f.canAttach owner c = true := by
    by_contra hrefused
    rw [appendChild?, if_neg hrefused] at happend
    cases happend
  obtain ⟨g, hg, hedited⟩ := h.links.edited_append hattach t
  rw [happend] at hg
  cases hg
  exact hedited

theorem push (h : f.Suited) (hc : (f.kind c).suits t = true)
    (happend : f.appendChild? owner t c = some f') : f'.Suited := by
  obtain ⟨hlinked, hedited⟩ := h.edited_append happend
  refine h.edited hlinked hedited (fun m hm => ?_) hc
  rcases List.mem_append.mp hm with hm | hm
  · exact .inr (List.mem_filter.mp hm).1
  · exact .inl (List.mem_singleton.mp hm)

theorem furthers_push (h : f.Suited) (hc : (f.kind c).suits t = true) (ht : t ≠ .declarators)
    (happend : f.appendChild? owner t c = some f') : f.Furthers f' :=
  h.furthers_of_edited (h.edited_append happend).2 hc ht

theorem detach (h : f.Suited) (hc : (f.kind c).suits t = true) (ht : t ≠ .declarators) :
    (f.detach c).Suited ∧ f.Furthers (f.detach c) := by
  refine ⟨⟨h.links.detach c, fun {n u m} hmem => ?_⟩, ?_⟩
  · rw [h.links.children_detach] at hmem
    rw [kind_detach]
    exact h.suits (List.mem_filter.mp hmem).1
  · refine .of_same (size_detach f c) (kind_detach f c) fun n => ?_
    rw [h.links.children_detach]
    exact filter_of_not_mem (h.not_declared hc ht n)

end Suited

theorem Furthers.allocate {kind : NodeKind} (hneat : kind.IsNeat)
    (hdeclares : kind.declaresVariables = false) (range : TextRange) :
    f.Furthers (f.allocate kind range).2 where
  size_le := by simp
  kind n hn := kind_allocate_of_lt hn kind range
  keeps n := by
    rw [children_allocate]
    exact fun _ h => h
  adds n c hc _ := by
    rwa [children_allocate] at hc
  new n hn := by
    rcases Nat.eq_or_lt_of_le hn with rfl | hlt
    · have hkind : (f.allocate kind range).2.kind f.size = kind := kind_allocate f kind range
      refine ⟨fun h => ?_, ?_⟩
      · rw [hkind, hdeclares] at h
        cases h
      · rwa [hkind]
    · refine inOrder_of_size_le ?_
      rw [size_allocate]
      exact hlt

/-- A node is made that is in order once more has been done. -/
theorem Furthers.of_allocate {kind : NodeKind} {range : TextRange}
    (h : (f.allocate kind range).2.Furthers f') (hnew : f'.InOrder f.size) : f.Furthers f' := by
  have hlt {n : NodeId} (hn : n < f.size) : n < (f.allocate kind range).2.size := by
    rw [size_allocate]
    exact Nat.lt_succ_of_lt hn
  refine ⟨?_, fun n hn => ?_, fun n => ?_, fun n c hc hn => ?_, fun n hn => ?_⟩
  · have hle := h.size_le
    rw [size_allocate] at hle
    exact Nat.le_of_succ_le hle
  · rw [h.kind n (hlt hn), kind_allocate_of_lt hn]
  · have hkeeps := h.keeps n
    rwa [children_allocate] at hkeeps
  · have hadds := h.adds n c hc (hlt hn)
    rwa [children_allocate] at hadds
  · rcases Nat.eq_or_lt_of_le hn with rfl | hgt
    · exact hnew
    · refine h.new n ?_
      rw [size_allocate]
      exact hgt

/-- A new variable is added to a declaration. -/
theorem Furthers.declare {g : Forest} (h : g.Furthers f) (hsuited : f.Suited) (hnew : g.size ≤ c)
    (hc : ∀ m, m ≠ owner → c ∉ f.children m .declarators)
    (happend : f.appendChild? owner .declarators c = some f') :
    g.Furthers f' ∧ c ∈ f'.children owner .declarators := by
  obtain ⟨-, hedited⟩ := hsuited.edited_append happend
  have hothers (m : NodeId) (hm : m ≠ owner) :
      f'.children m .declarators = f.children m .declarators := by
    rw [hedited.others m .declarators (.inl hm)]
    exact filter_of_not_mem (hc m hm)
  have hmem (m : NodeId) : m ∈ f'.children owner .declarators ↔
      m ∈ f.children owner .declarators ∨ m = c := by
    rw [hedited.list, List.mem_append, List.mem_filter, List.mem_singleton, bne_iff_ne]
    by_cases hm : m = c
    · simp [hm]
    · simp [hm]
  have hkeeps (m : NodeId) : f.children m .declarators ⊆ f'.children m .declarators := by
    by_cases hm : m = owner
    · subst hm
      exact fun x hx => (hmem x).mpr (.inl hx)
    · rw [hothers m hm]
      exact fun _ hx => hx
  refine ⟨⟨?_, fun n hn => ?_, fun n => ?_, fun n x hx hlt => ?_, fun n hn => ?_⟩, ?_⟩
  · rw [hedited.size]
    exact h.size_le
  · rw [hedited.kind, h.kind n hn]
  · exact List.Subset.trans (h.keeps n) (hkeeps n)
  · refine h.adds n x ?_ hlt
    by_cases hn : n = owner
    · subst hn
      refine ((hmem x).mp hx).resolve_right ?_
      rintro rfl
      exact Nat.not_lt.mpr hnew hlt
    · rwa [hothers n hn] at hx
  · exact (h.new n hn).of_kind (hedited.kind n) (hkeeps n)
  · exact (hmem c).mpr (.inr rfl)

end Forest

end DualSyntax
