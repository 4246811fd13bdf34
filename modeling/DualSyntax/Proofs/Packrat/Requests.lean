import DualSyntax.Proofs.Packrat.Fuel
import Mathlib.Logic.Relation

/-!
# Requests

Answering one request, the matcher makes others: the goal at hand asks for its parts, and a
definition of which nothing is known asks for its rule.  `Makes` lists these, and `Reached` closes
them up from the root definition at the start of a stream, so that a statement about every reached
request is one about the whole of a parse.  Every reached request stands inside the stream and is
answered, whatever the grammar is: there is a bound on the fuel beyond which the answer is always
the same.
-/

namespace DualSyntax.Packrat

variable {δ : Type} [BEq δ]

/-- What the matcher is asked for, where and with which memory. -/
structure Request (δ : Type) where
  silent : Bool
  goal : Goal δ
  pos : Nat
  memory : Memory δ

/-- Answering a request, the matcher makes another one.  What comes later in a goal is asked for
with the memory that the parts before it leave. -/
inductive Makes (g : Grammar δ) (s : TokenStream) : Request δ → Request δ → Prop
  | ref {silent d pos m} :
      Makes g s ⟨silent, .rule (.ref d), pos, m⟩ ⟨silent, .definition d, pos, m⟩
  | sequence {silent rs pos m} :
      Makes g s ⟨silent, .rule (.sequence rs), pos, m⟩ ⟨silent, .all rs, pos, m⟩
  | choice {silent rs pos m} :
      Makes g s ⟨silent, .rule (.choice rs), pos, m⟩ ⟨silent, .first rs, pos, m⟩
  | optional {silent r pos m} :
      Makes g s ⟨silent, .rule (.optional r), pos, m⟩ ⟨silent, .rule r, pos, m⟩
  | notAhead {silent r pos m} :
      Makes g s ⟨silent, .rule (.notAhead r), pos, m⟩ ⟨true, .rule r, pos, m⟩
  | element {silent e sep least trailing pos m} :
      Makes g s ⟨silent, .rule (.list e sep least trailing), pos, m⟩ ⟨silent, .rule e, pos, m⟩
  | elements {silent e sep least trailing pos m trees p m'}
      (hfirst : Runs g s silent (.rule e) pos m (some (trees, p)) m') :
      Makes g s ⟨silent, .rule (.list e sep least trailing), pos, m⟩
        ⟨silent, .more e sep least trailing 1, p, m'⟩
  | allFirst {silent r rs pos m} :
      Makes g s ⟨silent, .all (r :: rs), pos, m⟩ ⟨silent, .rule r, pos, m⟩
  | allRest {silent r rs pos m trees p m'}
      (hfirst : Runs g s silent (.rule r) pos m (some (trees, p)) m') :
      Makes g s ⟨silent, .all (r :: rs), pos, m⟩ ⟨silent, .all rs, p, m'⟩
  | firstFirst {silent r rs pos m} :
      Makes g s ⟨silent, .first (r :: rs), pos, m⟩ ⟨silent, .rule r, pos, m⟩
  | firstRest {silent r rs pos m m'} (hmiss : Runs g s silent (.rule r) pos m none m') :
      Makes g s ⟨silent, .first (r :: rs), pos, m⟩ ⟨silent, .first rs, pos, m'⟩
  | separator {silent e sep least trailing count pos m} :
      Makes g s ⟨silent, .more e sep least trailing count, pos, m⟩
        ⟨silent, .rule (between sep), pos, m⟩
  | moreElement {silent e sep least trailing count pos m separators p m'}
      (hsep : Runs g s silent (.rule (between sep)) pos m (some (separators, p)) m') :
      Makes g s ⟨silent, .more e sep least trailing count, pos, m⟩ ⟨silent, .rule e, p, m'⟩
  | moreRest {silent e sep least trailing count pos m separators p m' trees q m''}
      (hsep : Runs g s silent (.rule (between sep)) pos m (some (separators, p)) m')
      (helem : Runs g s silent (.rule e) p m' (some (trees, q)) m'') (hlt : pos < q) :
      Makes g s ⟨silent, .more e sep least trailing count, pos, m⟩
        ⟨silent, .more e sep least trailing (count + 1), q, m''⟩
  | body {silent d pos m r} (hnew : m.chart.get? d pos = none) (hrule : g.rule d = some r) :
      Makes g s ⟨silent, .definition d, pos, m⟩ ⟨silent, .rule r, pos, m.note d pos .matching⟩

/-- The request for a definition at the start of a stream of which nothing is known. -/
def Request.start (root : δ) : Request δ := ⟨false, .definition root, 0, {}⟩

/-- A request that is made while a stream is parsed as a definition. -/
def Reached (g : Grammar δ) (s : TokenStream) (root : δ) (r : Request δ) : Prop :=
  Relation.ReflTransGen (Makes g s) (.start root) r

/-! ## Fuel -/

/-- The matcher does all that `Runs` lists, with any amount of fuel beyond some bound. -/
theorem Runs.exists_fuel {g : Grammar δ} {s : TokenStream} {silent : Bool} {goal : Goal δ}
    {pos : Nat} {m m' : Memory δ} {found : Match δ} (h : Runs g s silent goal pos m found m') :
    ∃ n, ∀ fuel, n ≤ fuel → run g s fuel silent goal pos m = some (found, m') := by
  -- one more unit of fuel than the parts need
  have step : ∀ {silent goal pos m found m'} (n : Nat),
      (∀ k, n ≤ k → run g s (k + 1) silent goal pos m = some (found, m')) →
      ∃ n, ∀ fuel, n ≤ fuel → run g s fuel silent goal pos m = some (found, m') := by
    intro silent goal pos m found m' n hk
    refine ⟨n + 1, ?_⟩
    intro fuel hfuel
    obtain ⟨k, rfl⟩ : ∃ k, fuel = k + 1 := ⟨fuel - 1, by omega⟩
    exact hk k (by omega)
  induction h with
  | empty | allNil | firstNil => exact step 0 fun k _ => rfl
  | pastEnd hget =>
      refine step 0 fun k _ => ?_
      simp only [run, matchToken, hget]
      rfl
  | accepted hget hkind =>
      refine step 0 fun k _ => ?_
      simp only [run, matchToken, hget, if_pos hkind]
      rfl
  | @refused silent _ _ _ _ hget hkind =>
      refine step 0 fun k _ => ?_
      simp only [run, matchToken, hget, if_neg hkind]
      cases silent <;> rfl
  | ref _ ih | sequence _ ih | choice _ ih =>
      obtain ⟨n, hn⟩ := ih
      exact step n fun k hk => hn k hk
  | optional _ ih | notAhead _ ih | noElement _ ih | allStop _ ih | firstHit _ ih
  | noSeparator _ ih =>
      obtain ⟨n, hn⟩ := ih
      refine step n fun k hk => ?_
      rw [run, bind_apply (hn k hk)]
      rfl
  | elements _ _ ih₁ ih₂ | allStep _ _ ih₁ ih₂ =>
      obtain ⟨n₁, hn₁⟩ := ih₁
      obtain ⟨n₂, hn₂⟩ := ih₂
      refine step (max n₁ n₂) fun k hk => ?_
      rw [run, bind_apply (hn₁ k (by omega))]
      dsimp only
      rw [bind_apply (hn₂ k (by omega))]
      rfl
  | firstMiss _ _ ih₁ ih₂ =>
      obtain ⟨n₁, hn₁⟩ := ih₁
      obtain ⟨n₂, hn₂⟩ := ih₂
      refine step (max n₁ n₂) fun k hk => ?_
      rw [run, bind_apply (hn₁ k (by omega))]
      exact hn₂ k (by omega)
  | separatorOnly _ _ ih₁ ih₂ =>
      obtain ⟨n₁, hn₁⟩ := ih₁
      obtain ⟨n₂, hn₂⟩ := ih₂
      refine step (max n₁ n₂) fun k hk => ?_
      rw [run, bind_apply (hn₁ k (by omega))]
      dsimp only
      rw [bind_apply (hn₂ k (by omega))]
      rfl
  | noProgress _ _ hstuck ih₁ ih₂ =>
      obtain ⟨n₁, hn₁⟩ := ih₁
      obtain ⟨n₂, hn₂⟩ := ih₂
      refine step (max n₁ n₂) fun k hk => ?_
      rw [run, bind_apply (hn₁ k (by omega))]
      dsimp only
      rw [bind_apply (hn₂ k (by omega))]
      dsimp only
      rw [if_neg hstuck]
      rfl
  | moreStep _ _ hlt _ ih₁ ih₂ ih₃ =>
      obtain ⟨n₁, hn₁⟩ := ih₁
      obtain ⟨n₂, hn₂⟩ := ih₂
      obtain ⟨n₃, hn₃⟩ := ih₃
      refine step (max n₁ (max n₂ n₃)) fun k hk => ?_
      rw [run, bind_apply (hn₁ k (by omega))]
      dsimp only
      rw [bind_apply (hn₂ k (by omega))]
      dsimp only
      rw [if_pos hlt, bind_apply (hn₃ k (by omega))]
      rfl
  | @remembered _ _ _ m _ h | @reentered _ _ _ m h =>
      refine step 0 fun k _ => ?_
      rw [run, bind_apply (show (get : Run δ (Memory δ)) m = some (m, m) from rfl), h]
      rfl
  | @undefined _ d pos m hnew hrule =>
      refine step 0 fun k _ => ?_
      rw [run, bind_apply (show (get : Run δ (Memory δ)) m = some (m, m) from rfl), hnew]
      dsimp only
      rw [bind_apply (show (modify (·.note d pos .matching) : Run δ PUnit) m =
        some (⟨⟩, m.note d pos .matching) from rfl), hrule]
      rfl
  | @defined _ d pos m _ _ _ hnew hrule _ ih =>
      obtain ⟨n, hn⟩ := ih
      refine step n fun k hk => ?_
      rw [run, bind_apply (show (get : Run δ (Memory δ)) m = some (m, m) from rfl), hnew]
      dsimp only
      rw [bind_apply (show (modify (·.note d pos .matching) : Run δ PUnit) m =
        some (⟨⟩, m.note d pos .matching) from rfl), hrule]
      dsimp only
      rw [bind_apply (hn k hk)]
      rfl

/-! ## Requests inside a stream -/

variable [LawfulBEq δ] {g : Grammar δ} {s : TokenStream}

/-- A request inside a stream, with a memory whose answers cover what they pass. -/
structure Request.Inside (s : TokenStream) (r : Request δ) : Prop where
  pos_le : r.pos ≤ s.size
  covered : r.memory.Covered s

/-- A part that matched leaves a place inside the stream and a memory that covers. -/
theorem Request.Inside.after {silent : Bool} {goal : Goal δ} {pos p : Nat} {m m' : Memory δ}
    {trees : List (RawTree δ)} (hpos : pos ≤ s.size) (hm : m.Covered s)
    (h : Runs g s silent goal pos m (some (trees, p)) m') : p ≤ s.size ∧ m'.Covered s := by
  obtain ⟨hfound, hm'⟩ := h.covers hm
  exact ⟨(hfound trees p rfl).le_size hpos, hm'⟩

theorem Request.Inside.makes {r r' : Request δ} (hr : r.Inside s) (h : Makes g s r r') :
    r'.Inside s := by
  obtain ⟨hpos, hm⟩ := hr
  cases h with
  | ref | sequence | choice | optional | notAhead | element | allFirst | firstFirst | separator =>
      exact ⟨hpos, hm⟩
  | elements hpart | allRest hpart | moreElement hpart =>
      obtain ⟨hp, hm'⟩ := Request.Inside.after hpos hm hpart
      exact ⟨hp, hm'⟩
  | firstRest hmiss => exact ⟨hpos, (hmiss.covers hm).2⟩
  | moreRest hsep helem =>
      obtain ⟨hp, hm'⟩ := Request.Inside.after hpos hm hsep
      obtain ⟨hq, hm''⟩ := Request.Inside.after hp hm' helem
      exact ⟨hq, hm''⟩
  | body => exact ⟨hpos, hm.note (by intro tree q h; cases h)⟩

theorem Reached.inside {root : δ} {r : Request δ} (h : Reached g s root r) : r.Inside s := by
  induction h with
  | refl => exact ⟨Nat.zero_le _, .empty s⟩
  | tail _ hmakes ih => exact ih.makes hmakes

theorem Request.Inside.answered {r : Request δ} (hr : r.Inside s) (g : Grammar δ) :
    ∃ found m', Runs g s r.silent r.goal r.pos r.memory found m' := by
  have hsome : (run g s (need g s r.goal r.pos r.memory) r.silent r.goal r.pos r.memory).isSome :=
    run_isSome (Nat.le_refl _) hr.pos_le hr.covered
  obtain ⟨⟨found, m'⟩, hrun⟩ := Option.isSome_iff_exists.mp hsome
  exact ⟨found, m', run_runs hrun⟩

/-- Whatever the grammar, every request that parsing a stream makes has an answer that no further
fuel changes, a match goes from its position to one that is not before it and inside the stream, and
parsing has an outcome. -/
theorem reached_terminates (g : Grammar δ) (s : TokenStream) (root : δ) :
    parse g root s ≠ .exhausted ∧
    ∀ r, Reached g s root r → ∃ found m',
      (∃ n, ∀ fuel, n ≤ fuel →
        run g s fuel r.silent r.goal r.pos r.memory = some (found, m')) ∧
      ∀ trees q, found = some (trees, q) → r.pos ≤ q ∧ q ≤ s.size := by
  constructor
  · obtain ⟨found, m, hrun⟩ := run_enoughFuel g s root
    unfold parse
    rw [hrun]
    cases found with
    | none => simp
    | some pair =>
        dsimp only
        split <;> simp
  · intro r hreached
    have hinside := hreached.inside
    obtain ⟨found, m', hruns⟩ := hinside.answered g
    refine ⟨found, m', hruns.exists_fuel, ?_⟩
    intro trees q hfound
    have hcovers := (hruns.covers hinside.covered).1 trees q hfound
    exact ⟨hcovers.le, hcovers.le_size hinside.pos_le⟩

/-- Sums that ask for themselves first.  A name looks ahead for a sum, and the lists in front of it
have elements and separators that take nothing. -/
def loops : Grammar Nat := .ofEntries [
  { name := "sum", rule := some (.choice [.sequence [.ref 0, .token .plus, .ref 1], .ref 1]) },
  { name := "name", rule := some (.sequence [.notAhead (.notAhead (.ref 0)),
      .list .empty (some .empty) 0 true, .list (.optional (.ref 1)) none 0 false,
      .token .identifier]) } ]

/-- A text that is found to be cut has a stream. -/
theorem exists_tokenize (l : Language) (src : List Char)
    (h : (tokenize l src).toOption.isSome = true) : ∃ s, tokenize l src = .ok s := by
  cases hs : tokenize l src with
  | ok s => exact ⟨s, rfl⟩
  | error fault =>
      rw [hs] at h
      cases h

/-- The request with which a sum asks for itself has an answer. -/
theorem reached_terminates_loops :
    ∃ s, tokenize .csharp "a + b".toList = .ok s ∧ parse loops 0 s ≠ .exhausted ∧
      Reached loops s 0 ⟨false, .definition 0, 0, ({} : Memory Nat).note 0 0 .matching⟩ ∧
      ∃ found m', (∃ n, ∀ fuel, n ≤ fuel →
          run loops s fuel false (.definition 0) 0 (({} : Memory Nat).note 0 0 .matching) =
            some (found, m')) ∧
        ∀ trees q, found = some (trees, q) → 0 ≤ q ∧ q ≤ s.size := by
  obtain ⟨s, hs⟩ := exists_tokenize .csharp "a + b".toList (by decide)
  have hrule : loops.rule 0 =
      some (.choice [.sequence [.ref 0, .token .plus, .ref 1], .ref 1]) := rfl
  have hreached :
      Reached loops s 0 ⟨false, .definition 0, 0, ({} : Memory Nat).note 0 0 .matching⟩ := by
    exact .head (.body (by simp) hrule) <| .head .choice <| .head .firstFirst <|
      .head .sequence <| .head .allFirst <| .single .ref
  obtain ⟨hparse, hterminates⟩ := reached_terminates loops s 0
  exact ⟨s, hs, hparse, hreached, hterminates _ hreached⟩

end DualSyntax.Packrat
