import DualSyntax.Proofs.Forest.Regular
import DualSyntax.Proofs.Lowering.Additions
import DualSyntax.Proofs.Lowering.Chaining
import DualSyntax.Proofs.Lowering.DeclaredVariables
import DualSyntax.Proofs.Lowering.Declaring

/-!
# Steps that put nodes where they suit

What a step of lowering does to a forest that is built in order: single steps and loops, and the lists of
matches that become nodes.
-/

namespace DualSyntax

/-!
## Steps that put nodes where they suit

`Suits` says of a step of lowering that it puts nodes only where their kinds suit the titles and leaves
new nodes in order, and what is then known of its result and the forest.  It goes through sequences and
loops; the kind of a node that was made earlier is not lost on the way, since no step changes it.
-/

section Steps

open Forest

/-- Whether nodes of some sorts may all be put under a title, which is not that of the variables of a
declaration. -/
def Title.welcomes (t : Title) (sorts : List NodeSort) : Bool := sorts.all t.takes && t != .declarators

structure Forest.Sorts (f : Forest) (sorts : List NodeSort) (n : NodeId) : Prop where
  lt : n < f.size
  mem : (f.kind n).sort ∈ sorts

namespace Forest.Sorts

variable {f f' : Forest} {sorts sorts' : List NodeSort} {n : NodeId} {t : Title}

theorem later (h : f.Sorts sorts n) (hf : f.Furthers f') : f'.Sorts sorts n where
  lt := Nat.lt_of_lt_of_le h.lt hf.size_le
  mem := by
    rw [hf.kind n h.lt]
    exact h.mem

theorem mono (h : f.Sorts sorts n) (hsub : sorts ⊆ sorts') : f.Sorts sorts' n := ⟨h.lt, hsub h.mem⟩

theorem takes (h : f.Sorts sorts n) (ht : sorts.all t.takes = true) : (f.kind n).suits t = true := by
  rw [NodeKind.suits_eq_takes]
  exact List.all_eq_true.mp ht _ h.mem

end Forest.Sorts

namespace Lower

variable {α β γ : Type} {source : Source} {d : Draft} {P P' : α → Forest → Prop}
  {Q : β → Forest → Prop} {x : Lower α}

/-- A step that puts nodes only where they suit and leaves new nodes in order; what is known of its
result and of the forest. -/
def Suits (source : Source) (d : Draft) (P : α → Forest → Prop) (x : Lower α) : Prop :=
  ∀ ⦃a : α⦄ ⦃d' : Draft⦄, d.forest.Suited → x source d = .ok (a, d') →
    d'.forest.Suited ∧ d.forest.Furthers d'.forest ∧ P a d'.forest

/-- A step that suits and whose result does not matter. -/
abbrev SuitsStep (source : Source) (d : Draft) (x : Lower α) : Prop :=
  Suits source d (fun _ _ => True) x

abbrev SuitsNode (source : Source) (d : Draft) (sorts : List NodeSort) (x : Lower NodeId) : Prop :=
  Suits source d (fun n f => f.Sorts sorts n) x

namespace Suits

theorem pure {a : α} (h : P a d.forest) : Suits source d P (Pure.pure a) := by
  rintro a d' hd ⟨⟩
  exact ⟨hd, .refl _, h⟩

theorem throw (error : LowerError) : Suits source d P (throw error) := by
  rintro a d' hd ⟨⟩

theorem bind {next : α → Lower β} (hx : Suits source d P x)
    (hnext : ∀ a (d₁ : Draft), d.forest.Furthers d₁.forest → P a d₁.forest →
      Suits source d₁ Q (next a)) : Suits source d Q (x >>= next) := by
  intro b d' hd hrun
  obtain ⟨a, d₁, ha, hb⟩ := exists_of_bind hrun
  obtain ⟨hd₁, hfurthers, hP⟩ := hx hd ha
  obtain ⟨hd', hfurthers', hQ⟩ := hnext a d₁ hfurthers hP hd₁ hb
  exact ⟨hd', hfurthers.trans hfurthers', hQ⟩

/-- A step after one whose result does not matter. -/
theorem andThen {next : α → Lower β} (hx : SuitsStep source d x)
    (hnext : ∀ a (d₁ : Draft), d.forest.Furthers d₁.forest → Suits source d₁ Q (next a)) :
    Suits source d Q (x >>= next) :=
  hx.bind fun a d₁ h _ => hnext a d₁ h

theorem imp (hx : Suits source d P x) (h : ∀ a f, P a f → P' a f) : Suits source d P' x := by
  intro a d' hd hrun
  obtain ⟨hd', hfurthers, hP⟩ := hx hd hrun
  exact ⟨hd', hfurthers, h a _ hP⟩

theorem step (hx : Suits source d P x) : SuitsStep source d x := hx.imp fun _ _ _ => trivial

theorem read {next : Source → Lower β} (h : Suits source d Q (next source)) :
    Suits source d Q (do next (← MonadReader.read)) :=
  fun _ _ hd hrun => h hd hrun

/-- What the forest shows before a step may be used. -/
theorem inspect {look : Forest → α} {next : α → Lower β}
    (h : d.forest.Suited → Suits source d Q (next (look d.forest))) :
    Suits source d Q (Lower.inspect look >>= next) :=
  fun _ _ hd hrun => h hd hd hrun

/-- A loop whose rounds may end it. -/
theorem forIn {round : γ → PUnit → Lower (ForInStep PUnit)} {ts : List γ}
    (h : ∀ t ∈ ts, ∀ d₁ : Draft, d.forest.Furthers d₁.forest → SuitsStep source d₁ (round t ⟨⟩)) :
    SuitsStep source d (forIn ts PUnit.unit round) := by
  induction ts generalizing d with
  | nil => exact pure trivial
  | cons t ts ih =>
      rw [List.forIn_cons]
      refine (h t List.mem_cons_self d (.refl _)).andThen fun r d₁ hd₁ => ?_
      cases r with
      | done => exact pure trivial
      | yield => exact ih fun u hu d₂ hd₂ => h u (List.mem_cons_of_mem t hu) d₂ (hd₁.trans hd₂)

theorem forM {put : γ → Lower Unit} {ts : List γ}
    (h : ∀ t ∈ ts, ∀ d₁ : Draft, d.forest.Furthers d₁.forest → SuitsStep source d₁ (put t)) :
    SuitsStep source d (ts.forM put) := by
  induction ts generalizing d with
  | nil => exact pure trivial
  | cons t ts ih =>
      show SuitsStep source d (put t >>= fun _ => ts.forM put)
      refine (h t List.mem_cons_self d (.refl _)).andThen fun _ d₁ hd₁ => ?_
      exact ih fun u hu d₂ hd₂ => h u (List.mem_cons_of_mem t hu) d₂ (hd₁.trans hd₂)

/-- What is known of each result outlasts the steps for those that follow. -/
theorem mapM {make : γ → Lower β} {ts : List γ}
    (hQ : ∀ b f f', f.Furthers f' → Q b f → Q b f')
    (h : ∀ t ∈ ts, ∀ d₁ : Draft, d.forest.Furthers d₁.forest → Suits source d₁ Q (make t)) :
    Suits source d (fun bs f => bs.length = ts.length ∧ ∀ b ∈ bs, Q b f) (ts.mapM make) := by
  induction ts generalizing d with
  | nil => exact pure (by simp)
  | cons t ts ih =>
      rw [List.mapM_cons]
      refine (h t List.mem_cons_self d (.refl _)).bind fun b d₁ hd₁ hb => ?_
      refine (ih fun u hu d₂ hd₂ => h u (List.mem_cons_of_mem t hu) d₂ (hd₁.trans hd₂)).bind
        fun bs d₂ hd₂ hbs => pure ?_
      refine ⟨congrArg Nat.succ hbs.1, List.forall_mem_cons.mpr ⟨?_, hbs.2⟩⟩
      exact hQ b _ _ hd₂ hb

theorem foldlM {fold : β → γ → Lower β} {ts : List γ} {b : β}
    (h : ∀ b, ∀ t ∈ ts, ∀ d₁ : Draft, d.forest.Furthers d₁.forest →
      SuitsStep source d₁ (fold b t)) : SuitsStep source d (ts.foldlM fold b) := by
  induction ts generalizing b d with
  | nil => exact pure trivial
  | cons t ts ih =>
      rw [List.foldlM_cons]
      refine (h b t List.mem_cons_self d (.refl _)).andThen fun b' d₁ hd₁ => ?_
      exact ih fun b u hu d₂ hd₂ => h b u (List.mem_cons_of_mem t hu) d₂ (hd₁.trans hd₂)

end Suits

/-! ### Single steps -/

variable {owner c n : NodeId} {t : Title} {sorts : List NodeSort}

theorem suits_report (span : Span) (issue : Issue) : SuitsStep source d (report span issue) := by
  rintro a d' hd ⟨⟩
  exact ⟨hd, .refl _, trivial⟩

theorem sorts_allocate (f : Forest) (kind : NodeKind) (range : TextRange) :
    (f.allocate kind range).2.Sorts [kind.sort] f.size where
  lt := by
    rw [size_allocate]
    exact Nat.lt_succ_self _
  mem := by
    rw [kind_allocate]
    exact List.mem_singleton_self _

theorem suits_allocate (kind : NodeKind) (hneat : kind.IsNeat)
    (hdeclares : kind.declaresVariables = false) (span : Span) :
    SuitsNode source d [kind.sort] (allocate kind span) := by
  rintro n d' hd ⟨⟩
  exact ⟨hd.allocate _ _, .allocate hneat hdeclares _, sorts_allocate _ _ _⟩

theorem suits_make (kind : NodeKind) (hkind : kind.isPlain = true) (span : Span) :
    SuitsNode source d [kind.sort] (allocate kind span) :=
  suits_allocate kind (NodeKind.isNeat_of_isPlain hkind) (NodeKind.declares_of_isPlain hkind) span

theorem suits_set (hc : d.forest.Sorts sorts c) (ht : t.welcomes sorts = true) :
    SuitsStep source d (set owner t c) := by
  intro a d' hd hrun
  rw [Title.welcomes, Bool.and_eq_true, bne_iff_ne] at ht
  obtain ⟨g, hg, rfl⟩ := exists_of_edit hrun
  obtain ⟨r, hset, rfl⟩ := Option.map_eq_some_iff.mp hg
  obtain ⟨hsuited, hfurthers⟩ := hd.set (hc.takes ht.1) ht.2 hset
  exact ⟨hsuited, hfurthers, trivial⟩

theorem suits_push (hc : d.forest.Sorts sorts c) (ht : t.welcomes sorts = true) :
    SuitsStep source d (push owner t c) := by
  intro a d' hd hrun
  rw [Title.welcomes, Bool.and_eq_true, bne_iff_ne] at ht
  obtain ⟨g, hg, rfl⟩ := exists_of_edit hrun
  exact ⟨hd.push (hc.takes ht.1) hg, hd.furthers_push (hc.takes ht.1) ht.2 hg, trivial⟩

/-- A node is made and put somewhere, and more is done. -/
theorem SuitsNode.setThen {make : Lower NodeId} {next : Lower β} (hmake : SuitsNode source d sorts make)
    (ht : t.welcomes sorts = true)
    (hnext : ∀ d₁ : Draft, d.forest.Furthers d₁.forest → Suits source d₁ Q next) :
    Suits source d Q (do set owner t (← make); next) :=
  hmake.bind fun _ _ h hn => (suits_set hn ht).andThen fun _ d₂ h' => hnext d₂ (h.trans h')

theorem SuitsNode.pushThen {make : Lower NodeId} {next : Lower β} (hmake : SuitsNode source d sorts make)
    (ht : t.welcomes sorts = true)
    (hnext : ∀ d₁ : Draft, d.forest.Furthers d₁.forest → Suits source d₁ Q next) :
    Suits source d Q (do push owner t (← make); next) :=
  hmake.bind fun _ _ h hn => (suits_push hn ht).andThen fun _ d₂ h' => hnext d₂ (h.trans h')

theorem welcomes_token (ht : t.isLexical = true) : t.welcomes [.token] = true := by
  cases t <;> first | rfl | cases ht

theorem suits_token (t : Token) : SuitsNode source d [.token] (token t) :=
  suits_make (.token t.kind t.text) rfl t.span

theorem suits_setToken (ht : t.isLexical = true) (tk : Token) :
    SuitsStep source d (setToken owner t tk) :=
  (suits_token tk).bind fun _ _ _ hn => suits_set hn (welcomes_token ht)

theorem suits_identifier {tk : Token} (hname : ' ' ∉ (source.language.unescape tk.text).toList) :
    SuitsNode source d [.other] (identifier tk) :=
  .read (suits_allocate (.identifier _) hname rfl tk.span)

theorem suits_literal {tk : Token} (hsolid : Text.EndsSolid tk.text.toList) :
    SuitsNode source d [.other] (literal tk) := by
  unfold literal
  split
  · refine .read (suits_allocate (.primitiveExpression _) (fun l s hs => ?_) rfl tk.span)
    unfold Literal.spellingIn at hs
    dsimp only at hs
    split at hs
    · cases hs
      exact hsolid
    · cases hs
  · exact .throw _

theorem suits_modifier (tk : Token) : SuitsNode source d [.other] (modifier tk) := by
  refine .read ?_
  split
  · exact suits_make (.modifier _) rfl tk.span
  · exact .throw _

/-! ### Comments -/

theorem suits_commentNodes (ts : List Trivia) (breaks threshold : Nat) :
    Suits source d (fun r f => ∀ n ∈ r.1, f.Sorts [.trivia] n) (commentNodes breaks threshold ts) := by
  induction ts generalizing breaks threshold d with
  | nil => exact .pure (by simp)
  | cons t ts ih =>
      rw [commentNodes]
      split
      case h_1 kind _ =>
        have hnext (d : Draft) (blank : List NodeId) (hblank : ∀ n ∈ blank, d.forest.Sorts [.trivia] n) :
            Suits source d (fun r f => ∀ n ∈ r.1, f.Sorts [.trivia] n) (do
              let comment ← allocate (commentNode kind t.text) t.span
              let found ← commentNodes 0 2 ts
              return (blank ++ comment :: found.1, found.2)) := by
          refine (suits_make (commentNode kind t.text) rfl t.span).bind
            fun comment d₁ h₁ hcomment => ?_
          refine (ih 0 2).bind fun r d₂ h₂ hr => .pure fun n hn => ?_
          rcases List.mem_append.mp hn with hn | hn
          · exact (hblank n hn).later (h₁.trans h₂)
          · rcases List.mem_cons.mp hn with rfl | hn
            · exact Forest.Sorts.later hcomment h₂
            · exact hr n hn
        dsimp only
        split
        · refine (suits_make .blankLine rfl _).bind fun n d₁ _ hn => ?_
          exact hnext d₁ [n] (List.forall_mem_singleton.mpr hn)
        · exact hnext d [] (by simp)
      case h_2 => exact ih _ _

/-- Comments are put below a node one after the other. -/
theorem suits_pushTrivia {ns : List NodeId} (hns : ∀ n ∈ ns, d.forest.Sorts [.trivia] n)
    (ht : t.welcomes [.trivia] = true) :
    SuitsStep source d (do for n in ns do push owner t n) := by
  refine (Suits.forIn fun n hn d₁ hd₁ => ?_).andThen fun _ _ _ => .pure trivial
  exact (suits_push ((hns n hn).later hd₁) ht).andThen fun _ _ _ => .pure trivial

theorem suits_attachTrailing (owner : NodeId) (trivia : List Trivia) :
    SuitsStep source d (attachTrailing owner trivia) := by
  refine .read ((suits_commentNodes trivia 0 _).bind fun r d₁ _ hr => ?_)
  exact suits_pushTrivia hr rfl

theorem suits_attachLeading {δ : Type} (owner : NodeId) (raw : RawTree δ) :
    SuitsStep source d (attachLeading owner raw) := by
  refine .read ((suits_commentNodes _ 0 _).bind fun r d₁ _ hr => ?_)
  have hpush (d₂ : Draft) (h₂ : d₁.forest.Furthers d₂.forest) (blank : List NodeId)
      (hblank : ∀ n ∈ blank, d₂.forest.Sorts [.trivia] n) :
      SuitsStep source d₂ (do for n in r.1 ++ blank do push owner .leadingTrivia n) := by
    refine suits_pushTrivia (fun n hn => ?_) rfl
    exact (List.mem_append.mp hn).elim (fun hn => (hr n hn).later h₂) (hblank n)
  dsimp only
  split
  · refine (suits_make .blankLine rfl _).bind fun n d₂ h₂ hn => ?_
    exact hpush d₂ h₂ [n] (List.forall_mem_singleton.mpr hn)
  · exact hpush d₁ (.refl _) [] (by simp)

end Lower

end Steps

/-!
## Lists of matches that become nodes where they suit

A sorting says of which sorts the nodes are that the matches of a definition become.  If the nested
matches obey it (`Obeys`), the elements of a list are put where they suit, and a declaration with a list
of variables gets at least one.
-/

namespace Lower

variable {α β : Type} {source : Source} {d : Draft} {g : Forest} {P : α → Forest → Prop}
  {Q : β → Forest → Prop} {x : Lower α} {owner : NodeId}

/-! ### Steps since a forest -/

/-- A step that suits, seen from an earlier forest. -/
def SuitsSince (g : Forest) (source : Source) (d : Draft) (P : α → Forest → Prop) (x : Lower α) :
    Prop :=
  ∀ ⦃a : α⦄ ⦃d' : Draft⦄, g.Furthers d.forest → d.forest.Suited → x source d = .ok (a, d') →
    d'.forest.Suited ∧ g.Furthers d'.forest ∧ P a d'.forest

theorem SuitsSince.suits (hx : SuitsSince d.forest source d P x) : Suits source d P x :=
  fun _ _ hd hrun => hx (.refl _) hd hrun

theorem Suits.since (hx : Suits source d P x) : SuitsSince g source d P x := by
  intro a d' hg hd hrun
  obtain ⟨hd', hfurthers, hP⟩ := hx hd hrun
  exact ⟨hd', hg.trans hfurthers, hP⟩

theorem SuitsSince.bind {next : α → Lower β} (hx : SuitsSince g source d P x)
    (hnext : ∀ a (d₁ : Draft), P a d₁.forest → SuitsSince g source d₁ Q (next a)) :
    SuitsSince g source d Q (x >>= next) := by
  intro b d' hg hd hrun
  obtain ⟨a, d₁, ha, hb⟩ := exists_of_bind hrun
  obtain ⟨hd₁, hg₁, hP⟩ := hx hg hd ha
  exact hnext a d₁ hP hg₁ hd₁ hb

theorem Suits.bindSince {next : α → Lower β} (hx : Suits source d P x)
    (hnext : ∀ a (d₁ : Draft), d.forest.Furthers d₁.forest → P a d₁.forest →
      SuitsSince g source d₁ Q (next a)) : SuitsSince g source d Q (x >>= next) := by
  intro b d' hg hd hrun
  obtain ⟨a, d₁, ha, hb⟩ := exists_of_bind hrun
  obtain ⟨hd₁, hfurthers, hP⟩ := hx hd ha
  exact hnext a d₁ hfurthers hP (hg.trans hfurthers) hd₁ hb

/-- A node is put somewhere, and more is done since a forest. -/
theorem SuitsNode.setSince {make : Lower NodeId} {next : Lower β} {sorts : List NodeSort} {t : Title}
    (hmake : SuitsNode source d sorts make) (ht : t.welcomes sorts = true)
    (hnext : ∀ d₁ : Draft, d.forest.Furthers d₁.forest → SuitsSince g source d₁ Q next) :
    SuitsSince g source d Q (do set owner t (← make); next) :=
  hmake.bindSince fun _ _ h hn => (suits_set hn ht).bindSince fun _ d₂ h' _ => hnext d₂ (h.trans h')

/-- A variable that is new and stands in no declaration but that of the owner, if in any. -/
structure NewVariable (g : Forest) (owner : NodeId) (f : Forest) (n : NodeId) : Prop where
  new : g.size ≤ n
  sorts : f.Sorts [.declarator] n
  free : ∀ m, m ≠ owner → n ∉ f.children m .declarators

theorem NewVariable.later {f f' : Forest} {n : NodeId} (h : NewVariable g owner f n)
    (hf : f.Furthers f') : NewVariable g owner f' n where
  new := h.new
  sorts := h.sorts.later hf
  free m hm hmem := h.free m hm (hf.adds m n hmem h.sorts.lt)

theorem suits_declare {c : NodeId} (hc : NewVariable g owner d.forest c) :
    SuitsSince g source d (fun _ f => f.children owner .declarators ≠ [] ∧
      ∀ n, NewVariable g owner d.forest n → NewVariable g owner f n) (push owner .declarators c) := by
  intro a d' hg hd hrun
  obtain ⟨f', hpush, rfl⟩ := exists_of_edit hrun
  obtain ⟨hfurthers, hmem⟩ := hg.declare hd hc.new hc.free hpush
  obtain ⟨-, hedited⟩ := hd.edited_append hpush
  refine ⟨hd.push (hc.sorts.takes rfl) hpush, hfurthers, List.ne_nil_of_mem hmem, fun n hn => ?_⟩
  refine ⟨hn.new, ⟨?_, ?_⟩, fun m hm hchild => ?_⟩
  · rw [hedited.size]
    exact hn.sorts.lt
  · rw [hedited.kind]
    exact hn.sorts.mem
  · rw [hedited.others m .declarators (.inl hm)] at hchild
    exact hn.free m hm (List.mem_filter.mp hchild).1

theorem suits_declareAll {ns : List NodeId} (hns : ns ≠ [])
    (hnew : ∀ n ∈ ns, NewVariable g owner d.forest n) :
    SuitsSince g source d (fun _ f => f.children owner .declarators ≠ [])
      (Lowering.pushAll owner .declarators ns) := by
  induction ns generalizing d with
  | nil => exact absurd rfl hns
  | cons n ns ih =>
      rw [List.forall_mem_cons] at hnew
      show SuitsSince g source d _ (push owner .declarators n >>= fun _ =>
        Lowering.pushAll owner .declarators ns)
      refine (suits_declare hnew.1).bind fun _ d₁ h₁ => ?_
      cases ns with
      | nil => exact (Suits.pure h₁.1).since
      | cons m ns => exact ih (by simp) fun k hk => h₁.2 k (hnew.2 k hk)

end Lower

namespace Lowering

open Forest Lower

variable {δ : Type}

/-- What is known of the sorts of the nodes that matches become; a definition without sorts is not known
to make any. -/
structure Sorting (δ : Type) extends Survey δ where
  yields : δ → List NodeSort
  /-- The tokens that spell names. -/
  names : List TokenKind

namespace Sorting

variable (s : Sorting δ)

/-- Whether the matches of a definition become nodes that may be put under a title. -/
def goes (t : Title) (d : δ) : Bool := s.yields d != [] && t.welcomes (s.yields d)

/-- Whether the matches of a definition become nodes of the sort that most titles take. -/
def isPlain (d : δ) : Bool := s.yields d == [.other]

def isVariable (d : δ) : Bool := s.yields d == [.declarator]

/-- Whether the elements of the matches of a definition are matches with a property. -/
def lists (p : δ → Bool) (d : δ) : Bool :=
  match s.grammar.rule d with
  | some (.list e (some sep) _ _) => e.unit && sep.unit && e.every (·.isFormOf p)
  | some r => !r.isSeparated && r.every (·.isFormOf p)
  | none => false

/-- Whether all children of the matches of a definition are matches that may be put under a title. -/
def fillsWhole (t : Title) (d : δ) : Bool :=
  (s.grammar.rule d).any fun r => r.every (·.isFormOf (s.goes t))

/-- Whether the matches of a definition are lists whose elements may be put under a title; a list of
variables has at least one. -/
def fills (t : Title) (d : δ) : Bool :=
  if t = .declarators then s.isFilled d && s.lists s.isVariable d else s.lists (s.goes t) d

end Sorting

/-- Trees whose nested matches become nodes of the sorts that are known of them. -/
structure Obeys (s : Sorting δ) (source : Source) (e : LowerError) (T clean : RawTree δ → Prop)
    (recur : Recur δ) : Prop where
  setting : Setting s.toSurvey source e T clean recur
  lowered : ∀ {d}, s.yields d ≠ [] → s.lowered d = true
  makes : ∀ {d i j cs}, T (.node (some d) i j cs) → s.yields d ≠ [] → ∀ draft,
    SuitsNode source draft (s.yields d) (recur (.node (some d) i j cs))
  name : ∀ {tk : Token}, T (.leaf tk) → s.names.contains tk.kind = true →
    ' ' ∉ (source.language.unescape tk.text).toList
  literal : ∀ {tk : Token}, T (.leaf tk) → s.literals.contains tk.kind = true →
    Text.EndsSolid tk.text.toList

variable {s : Sorting δ} {source : Source} {e : LowerError} {T clean : RawTree δ → Prop}
  {recur : Recur δ} {d : Draft} {owner n : NodeId} {title : Title} {t : RawTree δ} {f : δ} {i j : Nat}
  {cs : List (RawTree δ)} {p : δ → Bool}

def GoUnder (title : Title) (ns : List NodeId) (f : Forest) : Prop :=
  ∀ n ∈ ns, ∃ sorts, title.welcomes sorts = true ∧ f.Sorts sorts n

theorem GoUnder.later {ns : List NodeId} {f f' : Forest} (h : GoUnder title ns f) (hf : f.Furthers f') :
    GoUnder title ns f' := by
  intro n hn
  obtain ⟨sorts, hwelcomes, hsorts⟩ := h n hn
  exact ⟨sorts, hwelcomes, hsorts.later hf⟩

theorem goUnder_singleton {f : Forest} {sorts : List NodeSort} (ht : title.welcomes sorts = true)
    (hn : f.Sorts sorts n) : GoUnder title [n] f :=
  List.forall_mem_singleton.mpr ⟨sorts, ht, hn⟩

theorem child_of_isFormOf (hform : t.symbol.isFormOf p = true) : child recur t = recur t := by
  obtain ⟨f, i, j, cs, rfl, -⟩ := exists_of_isFormOf hform
  rfl

namespace Obeys

variable (hs : Obeys s source e T clean recur)

include hs

/-! ### Single matches -/

/-- A match that may be put under a title becomes a node. -/
theorem goes (ht : T t) (hform : t.symbol.isFormOf (s.goes title) = true) (d : Draft) :
    ∃ sorts, title.welcomes sorts = true ∧ SuitsNode source d sorts (recur t) := by
  obtain ⟨f, i, j, cs, rfl, hgoes⟩ := exists_of_isFormOf hform
  rw [Sorting.goes, Bool.and_eq_true, bne_iff_ne] at hgoes
  exact ⟨s.yields f, hgoes.2, hs.makes ht hgoes.1 d⟩

theorem yielding {sort : NodeSort} (ht : T t)
    (hform : t.symbol.isFormOf (fun f => s.yields f == [sort]) = true) (d : Draft) :
    SuitsNode source d [sort] (recur t) := by
  obtain ⟨f, i, j, cs, rfl, hf⟩ := exists_of_isFormOf hform
  have hyields : s.yields f = [sort] := beq_iff_eq.mp hf
  rw [← hyields]
  exact hs.makes ht (by rw [hyields]; nofun) d

theorem plain (ht : T t) (hform : t.symbol.isFormOf s.isPlain = true) (d : Draft) :
    SuitsNode source d [.other] (recur t) :=
  hs.yielding ht hform d

/-- A match that becomes a variable becomes one of no declaration yet. -/
theorem newVariable (ht : T t) (hform : t.symbol.isFormOf s.isVariable = true) (d : Draft) :
    Suits source d (fun n f => NewVariable d.forest owner f n) (recur t) := by
  obtain ⟨f, i, j, cs, rfl, hvariable⟩ := exists_of_isFormOf hform
  have hyields : s.yields f = [.declarator] := beq_iff_eq.mp hvariable
  have hne : s.yields f ≠ [] := by
    rw [hyields]
    nofun
  intro n d' hd hrun
  obtain ⟨hd', hfurthers, hsorts⟩ := hs.makes ht hne d hd hrun
  have hfresh := (hs.setting.makes ht (hs.lowered hne) d).of_run hrun
  refine ⟨hd', hfurthers, hfresh.new, hyields ▸ hsorts, fun m _ hmem => ?_⟩
  have hparent := hd'.links.parent_of_mem_children hmem
  rw [hfresh.root.parent] at hparent
  cases hparent

/-! ### Lists -/

omit hs in
/-- The elements of a list are matches with a property. -/
theorem items (hf : s.lists p f = true) (ht : Opened s.grammar T (.node (some f) i j cs)) :
    ∀ c ∈ ((RawTree.node (some f) i j cs).listItems s.grammar).1,
      T c ∧ c.symbol.isFormOf p = true := by
  intro c hc
  refine ⟨ht.child (Setting.mem_children_of_mem_items hc), ?_⟩
  cases ht.conforms with
  | @node _ _ _ _ r hrule hspells _ =>
      simp only [Sorting.lists, hrule] at hf
      simp only [RawTree.listItems, hrule, Option.any_some] at hc
      split at hf
      · next e sep least trailing heq =>
          cases heq
          simp only [Rule.isSeparated, Option.isSome_some, if_true] at hc
          simp only [Bool.and_eq_true] at hf
          have halternates := hspells.alternates hf.1.1 hf.1.2 hf.2 (Rule.every_true sep)
          exact (Setting.alternate_of_alternates halternates).1 c hc
      · next r _ heq =>
          cases heq
          rw [Bool.and_eq_true, Bool.not_eq_true'] at hf
          rw [if_neg (by simp [hf.1])] at hc
          exact hspells.every (by simp [Rule.everyAll, hf.2]) _ (List.mem_map_of_mem hc)
      · cases hf

omit hs in
theorem suits_pushAll {ns : List NodeId} (hns : GoUnder title ns d.forest) :
    SuitsStep source d (pushAll owner title ns) := by
  refine .forM fun n hn d₁ hd₁ => ?_
  obtain ⟨sorts, hwelcomes, hsorts⟩ := hns n hn
  exact suits_push (hsorts.later hd₁) hwelcomes

/-- The elements of a list become nodes that may be put under a title. -/
theorem suits_elements (hf : s.lists (s.goes title) f = true) (ht : T (.node (some f) i j cs)) :
    Suits source d (GoUnder title) (elements s.grammar recur (.node (some f) i j cs)) := by
  have hmake (c : RawTree δ) (hc : c ∈ ((RawTree.node (some f) i j cs).listItems s.grammar).1)
      (d₁ : Draft) : Suits source d₁ (fun n f => ∃ sorts, title.welcomes sorts = true ∧ f.Sorts sorts n)
        (child recur c) := by
    obtain ⟨hT, hform⟩ := items hf (hs.setting.opened ht) c hc
    obtain ⟨sorts, hwelcomes, hmakes⟩ := hs.goes hT hform d₁
    rw [child_of_isFormOf hform]
    exact hmakes.imp fun n f hn => ⟨sorts, hwelcomes, hn⟩
  refine (Suits.mapM (fun n f f' hf hn => ?_) fun c hc d₁ _ => hmake c hc d₁).imp fun _ _ h => h.2
  obtain ⟨sorts, hwelcomes, hsorts⟩ := hn
  exact ⟨sorts, hwelcomes, hsorts.later hf⟩

theorem suits_pushVariables (hfilled : s.isFilled f = true) (hf : s.lists s.isVariable f = true)
    (ht : T (.node (some f) i j cs)) :
    Suits source d (fun _ f => f.children owner .declarators ≠ []) (do
      pushAll owner .declarators (← elements s.grammar recur (.node (some f) i j cs))) := by
  have hmake (c : RawTree δ) (hc : c ∈ ((RawTree.node (some f) i j cs).listItems s.grammar).1)
      (d₁ : Draft) (hd₁ : d.forest.Furthers d₁.forest) :
      Suits source d₁ (fun n f => NewVariable d.forest owner f n) (child recur c) := by
    obtain ⟨hT, hform⟩ := items hf (hs.setting.opened ht) c hc
    rw [child_of_isFormOf hform]
    exact (hs.newVariable hT hform d₁).imp fun n f hn =>
      { hn with new := Nat.le_trans hd₁.size_le hn.new }
  refine SuitsSince.suits ((Suits.mapM (fun n f f' hf hn => hn.later hf) hmake).bindSince
    fun ns d₁ _ hns => suits_declareAll (fun hnil => ?_) hns.2)
  have hlength := hns.1
  rw [hnil, List.length_nil] at hlength
  exact Setting.items_ne_nil_of_isFilled hfilled (hs.setting.conforms ht)
    (List.length_eq_zero_iff.mp hlength.symm)

/-- The elements of a list are put under a title, and more is done. -/
theorem fillThen {β : Type} {Q : β → Forest → Prop} {next : Lower β} (ht : T t)
    (hform : t.symbol.isFormOf (s.fills title) = true)
    (hnext : ∀ d₁ : Draft, d.forest.Furthers d₁.forest →
      (title = .declarators → d₁.forest.children owner .declarators ≠ []) → Suits source d₁ Q next) :
    Suits source d Q (do
      pushAll owner title (← elements s.grammar recur t)
      next) := by
  obtain ⟨f, i, j, cs, rfl, hf⟩ := exists_of_isFormOf hform
  have hfill : Suits source d (fun _ f => title = .declarators → f.children owner .declarators ≠ [])
      (do pushAll owner title (← elements s.grammar recur (.node (some f) i j cs))) := by
    unfold Sorting.fills at hf
    split at hf
    · next htitle =>
        subst htitle
        rw [Bool.and_eq_true] at hf
        exact (hs.suits_pushVariables hf.1 hf.2 ht).imp fun _ _ h _ => h
    · next htitle =>
        exact (hs.suits_elements hf ht).bind fun _ _ _ hns =>
          (suits_pushAll hns).imp fun _ _ _ h => absurd h htitle
  have hboth := hfill.bind fun _ d₁ h₁ hvariables => hnext d₁ h₁ hvariables
  rwa [bind_assoc] at hboth

end Obeys

end Lowering

end DualSyntax
