import DualSyntax.Proofs.Packrat.Coverage

/-!
# The matcher sees token kinds only

The skeleton of a raw tree keeps its definitions, its places and the kinds of its tokens.  On two
streams of the same kinds the matcher runs in step: `InStep` compares two runs that start from
memories with the same skeletons, `run_inStep` proves it by following the matcher, and
`parse_skeleton` says that parsing gives trees with the same skeleton, or the same failure.  A tree
is known by its skeleton and its tokens.
-/

namespace DualSyntax

variable {δ : Type}

/-- A raw tree without the contents of its tokens. -/
inductive Skeleton (δ : Type) where
  | leaf (kind : TokenKind)
  | node (form : Option δ) (first last : Nat) (children : List (Skeleton δ))

namespace Skeleton

mutual

def decEq [DecidableEq δ] : (a b : Skeleton δ) → Decidable (a = b)
  | leaf k, leaf k' => decidable_of_iff (k = k') (by simp)
  | node form i j cs, node form' i' j' cs' =>
      have := decEqs cs cs'
      decidable_of_iff (form = form' ∧ i = i' ∧ j = j' ∧ cs = cs') (by simp)
  | leaf _, node .. | node .., leaf _ => .isFalse nofun

def decEqs [DecidableEq δ] : (as bs : List (Skeleton δ)) → Decidable (as = bs)
  | [], [] => .isTrue rfl
  | a :: as, b :: bs =>
      have := decEq a b
      have := decEqs as bs
      decidable_of_iff (a = b ∧ as = bs) (by simp)
  | [], _ :: _ | _ :: _, [] => .isFalse nofun

end

instance [DecidableEq δ] : DecidableEq (Skeleton δ) := decEq

end Skeleton

namespace RawTree

mutual

def skeleton : RawTree δ → Skeleton δ
  | leaf t => .leaf t.kind
  | node form first last cs => .node form first last (skeletons cs)

def skeletons : List (RawTree δ) → List (Skeleton δ)
  | [] => []
  | t :: ts => skeleton t :: skeletons ts

end

theorem skeletons_append (ts us : List (RawTree δ)) :
    skeletons (ts ++ us) = skeletons ts ++ skeletons us := by
  induction ts with
  | nil => rfl
  | cons t ts ih => simp [skeletons, ih]

mutual

/-- A tree is known by its skeleton and its tokens, also where more tokens follow. -/
theorem eq_of_skeleton {rest rest' : List Token} :
    (t t' : RawTree δ) → t.skeleton = t'.skeleton → t.tokens ++ rest = t'.tokens ++ rest' →
      t = t' ∧ rest = rest'
  | leaf t, leaf t', _, htokens => by
      simp only [tokens, List.cons_append, List.nil_append, List.cons.injEq] at htokens
      exact ⟨congrArg leaf htokens.1, htokens.2⟩
  | node _ _ _ cs, node _ _ _ cs', hskeleton, htokens => by
      simp only [skeleton, Skeleton.node.injEq] at hskeleton
      obtain ⟨rfl, rfl, rfl, hcs⟩ := hskeleton
      obtain ⟨rfl, hrest⟩ := eq_of_skeletons cs cs' hcs htokens
      exact ⟨rfl, hrest⟩
  | leaf _, node .., hskeleton, _ | node .., leaf _, hskeleton, _ => by cases hskeleton

theorem eq_of_skeletons {rest rest' : List Token} :
    (ts ts' : List (RawTree δ)) → skeletons ts = skeletons ts' →
      tokensOf ts ++ rest = tokensOf ts' ++ rest' → ts = ts' ∧ rest = rest'
  | [], [], _, htokens => ⟨rfl, htokens⟩
  | t :: ts, t' :: ts', hskeleton, htokens => by
      simp only [skeletons, List.cons.injEq] at hskeleton
      simp only [tokensOf, List.append_assoc] at htokens
      obtain ⟨rfl, htail⟩ := eq_of_skeleton t t' hskeleton.1 htokens
      obtain ⟨rfl, hrest⟩ := eq_of_skeletons ts ts' hskeleton.2 htail
      exact ⟨rfl, hrest⟩
  | [], _ :: _, hskeleton, _ | _ :: _, [], hskeleton, _ => by cases hskeleton

end

end RawTree

def TokenStream.SameKinds (s s' : TokenStream) : Prop :=
  s.tokens.toList.map (·.kind) = s'.tokens.toList.map (·.kind)

/-- A stream of tokens without contents. -/
def TokenStream.ofKinds (ks : List TokenKind) : TokenStream :=
  .ofTokens (ks.map fun k => { kind := k, span := .emptyAt 0, text := "" })

theorem TokenStream.ofKinds_sameKinds (s : TokenStream) :
    s.SameKinds (.ofKinds (s.tokens.toList.map (·.kind))) := by
  simp [SameKinds, ofKinds, Function.comp_def]

namespace TokenStream.SameKinds

variable {s s' : TokenStream}

theorem size_eq (h : s.SameKinds s') : s.size = s'.size := by
  have hlength := congrArg List.length h
  simpa [TokenStream.size] using hlength

theorem get? (h : s.SameKinds s') (i : Nat) :
    (s.get? i).map (·.kind) = (s'.get? i).map (·.kind) := by
  have hi := congrArg (·[i]?) h
  simpa [TokenStream.get?] using hi

end TokenStream.SameKinds

namespace Packrat

/-! ## Memories and answers with the same skeletons -/

/-- Lists of trees with the same skeletons, and the same position after them. -/
def SameMatch : Match δ → Match δ → Prop :=
  Option.Rel fun a b => RawTree.skeletons a.1 = RawTree.skeletons b.1 ∧ a.2 = b.2

/-- Answers with the same skeleton, and the same position after it. -/
def SameAnswer : Option (RawTree δ × Nat) → Option (RawTree δ × Nat) → Prop :=
  Option.Rel fun a b => a.1.skeleton = b.1.skeleton ∧ a.2 = b.2

/-- The same is known of a definition, up to the skeleton of its tree. -/
inductive SameStatus : Status δ → Status δ → Prop
  | matching : SameStatus .matching .matching
  | answered {a b} (h : SameAnswer a b) : SameStatus (.answered a) (.answered b)

theorem SameMatch.nil (pos : Nat) : SameMatch (δ := δ) (some ([], pos)) (some ([], pos)) :=
  .some ⟨rfl, rfl⟩

theorem SameMatch.after {ts ts' : List (RawTree δ)} {m m' : Match δ}
    (hts : RawTree.skeletons ts = RawTree.skeletons ts') (h : SameMatch m m') :
    SameMatch (after ts m) (after ts' m') := by
  cases h with
  | none => exact .none
  | some h => exact .some ⟨by simp [RawTree.skeletons_append, hts, h.1], h.2⟩

theorem SameMatch.endOfList {ts ts' : List (RawTree δ)}
    (hts : RawTree.skeletons ts = RawTree.skeletons ts') (least count pos : Nat) :
    SameMatch (endOfList least count ts pos) (endOfList least count ts' pos) := by
  unfold Packrat.endOfList
  split
  · exact .none
  · exact .some ⟨hts, rfl⟩

theorem SameMatch.asNode {m m' : Match δ} (h : SameMatch m m') (d : δ) (pos : Nat) :
    SameAnswer (asNode d pos m) (asNode d pos m') := by
  cases h with
  | none => exact .none
  | some h => exact .some ⟨by simp [RawTree.skeleton, h.1, h.2], h.2⟩

theorem SameAnswer.recalled {a b : Option (RawTree δ × Nat)} (h : SameAnswer a b) :
    SameMatch (recalled a) (recalled b) := by
  cases h with
  | none => exact .none
  | some h => exact .some ⟨by simp [RawTree.skeletons, h.1], h.2⟩

variable [BEq δ]

/-- Memories that differ in the contents of tokens only. -/
structure Memory.SameShape (m m' : Memory δ) : Prop where
  chart : ∀ d p, Option.Rel SameStatus (m.chart.get? d p) (m'.chart.get? d p)
  furthest : m.furthest = m'.furthest
  wanted : m.wanted = m'.wanted

namespace Memory.SameShape

variable {m m' : Memory δ}

theorem refuse (h : m.SameShape m') (pos : Nat) (k : TokenKind) :
    (m.refuse pos k).SameShape (m'.refuse pos k) := by
  obtain ⟨chart, furthest, wanted⟩ := m
  obtain ⟨chart', furthest', wanted'⟩ := m'
  obtain ⟨hchart, rfl, rfl⟩ := h
  refine ⟨?_, ?_, ?_⟩
  · intro d p
    rw [Memory.refuse_chart, Memory.refuse_chart]
    exact hchart d p
  · simp only [Memory.refuse]
    split <;> split <;> rfl
  · simp only [Memory.refuse]
    split <;> split <;> rfl

theorem note [LawfulBEq δ] (h : m.SameShape m') {status status' : Status δ}
    (hstatus : SameStatus status status') (d : δ) (pos : Nat) :
    (m.note d pos status).SameShape (m'.note d pos status') := by
  refine ⟨?_, h.furthest, h.wanted⟩
  intro e p
  by_cases hkey : (d, pos) = (e, p)
  · cases hkey
    rw [Memory.note, Memory.note, Chart.get?_set_self, Chart.get?_set_self]
    exact .some hstatus
  · rw [Memory.note, Memory.note, Chart.get?_set_of_ne _ _ hkey, Chart.get?_set_of_ne _ _ hkey]
    exact h.chart e p

end Memory.SameShape

/-! ## Runs in step -/

/-- Two computations that, from memories of the same shape, both run out of fuel or both give
answers that are related, and leave memories of the same shape. -/
def InStep {α β : Type} (R : α → β → Prop) (x : Run δ α) (y : Run δ β) : Prop :=
  ∀ m m', m.SameShape m' →
    Option.Rel (fun a b => R a.1 b.1 ∧ a.2.SameShape b.2) (x m) (y m')

namespace InStep

variable {α β α' β' : Type} {R : α → β → Prop} {R' : α' → β' → Prop}

theorem pure {a : α} {b : β} (h : R a b) : InStep (δ := δ) R (Pure.pure a) (Pure.pure b) :=
  fun _ _ hm => .some ⟨h, hm⟩

theorem bind {x : Run δ α} {y : Run δ β} {f : α → Run δ α'} {g : β → Run δ β'}
    (hx : InStep R x y) (hf : ∀ a b, R a b → InStep R' (f a) (g b)) :
    InStep R' (x >>= f) (y >>= g) := by
  intro m m' hm
  have h := hx m m' hm
  simp only [Bind.bind, StateT.bind]
  generalize x m = a at h ⊢
  generalize y m' = b at h ⊢
  cases h with
  | none => exact .none
  | some h => exact hf _ _ h.1 _ _ h.2

/-- A change of the memory that keeps shapes. -/
theorem modify {f g : Memory δ → Memory δ}
    (h : ∀ m m', m.SameShape m' → (f m).SameShape (g m')) :
    InStep (fun _ _ => True) (modify f : Run δ PUnit) (modify g : Run δ PUnit) :=
  fun m m' hm => .some ⟨trivial, h m m' hm⟩

theorem get : InStep Memory.SameShape (get : Run δ (Memory δ)) (get : Run δ (Memory δ)) :=
  fun _ _ hm => .some ⟨hm, hm⟩

end InStep

variable [LawfulBEq δ] {g : Grammar δ} {s s' : TokenStream}

omit [LawfulBEq δ] in
theorem matchToken_inStep (h : s.SameKinds s') (silent : Bool) (k : TokenKind) (pos : Nat) :
    InStep (δ := δ) SameMatch (matchToken s silent k pos) (matchToken s' silent k pos) := by
  have hget := h.get? pos
  unfold matchToken
  cases ht : s.get? pos with
  | none =>
      cases ht' : s'.get? pos with
      | none => exact .pure .none
      | some t' => simp [ht, ht'] at hget
  | some t =>
      cases ht' : s'.get? pos with
      | none => simp [ht, ht'] at hget
      | some t' =>
          have hkind : t.kind = t'.kind := by simpa [ht, ht'] using hget
          simp only [hkind]
          split
          · exact .pure (.some ⟨by simp [RawTree.skeletons, RawTree.skeleton, hkind], rfl⟩)
          · split
            · exact (InStep.modify fun _ _ hm => hm.refuse pos k).bind fun _ _ _ => .pure .none
            · exact .pure .none

/-- What is known of a definition decides how its match goes on. -/
theorem definition_inStep {silent : Bool} {fuel : Nat}
    (ih : ∀ goal pos, InStep SameMatch (run g s fuel silent goal pos)
      (run g s' fuel silent goal pos)) (d : δ) (pos : Nat) :
    InStep SameMatch (run g s (fuel + 1) silent (.definition d) pos)
      (run g s' (fuel + 1) silent (.definition d) pos) := by
  have hanswer : ∀ found found', SameMatch found found' → InStep SameMatch
      (do modify (·.note d pos (.answered (asNode d pos found)))
          return recalled (asNode d pos found))
      (do modify (·.note d pos (.answered (asNode d pos found')))
          return recalled (asNode d pos found')) := by
    intro found found' h
    refine (InStep.modify fun _ _ hm => hm.note (.answered (h.asNode d pos)) d pos).bind ?_
    exact fun _ _ _ => .pure (h.asNode d pos).recalled
  rw [run, run]
  refine InStep.get.bind fun m m' hm => ?_
  have hknown := hm.chart d pos
  generalize m.chart.get? d pos = status at hknown ⊢
  generalize m'.chart.get? d pos = status' at hknown ⊢
  cases hknown with
  | none =>
      refine (InStep.modify fun _ _ hm => hm.note .matching d pos).bind fun _ _ _ => ?_
      cases g.rule d with
      | none => exact (InStep.pure .none).bind hanswer
      | some r => exact (ih _ pos).bind hanswer
  | some hstatus =>
      cases hstatus with
      | matching => exact .pure .none
      | answered h => exact .pure h.recalled

/-- On streams of the same kinds the matcher runs in step. -/
theorem run_inStep (h : s.SameKinds s') (fuel : Nat) (silent : Bool) (goal : Goal δ)
    (pos : Nat) :
    InStep SameMatch (run g s fuel silent goal pos) (run g s' fuel silent goal pos) := by
  induction fuel generalizing silent goal pos with
  | zero =>
      rw [run, run]
      exact fun _ _ _ => .none
  | succ fuel ih =>
      cases goal with
      | definition d => exact definition_inStep (fun goal pos => ih silent goal pos) d pos
      | rule r =>
          cases r with
          | empty => exact .pure (.nil pos)
          | token k => exact matchToken_inStep h silent k pos
          | ref d => exact ih silent _ pos
          | sequence rs => exact ih silent _ pos
          | choice rs => exact ih silent _ pos
          | optional r =>
              rw [run, run]
              refine (ih silent _ pos).bind fun a b hab => .pure ?_
              cases hab with
              | none => exact .nil pos
              | some hab => exact .some hab
          | list element separator least trailing =>
              rw [run, run]
              refine (ih silent _ pos).bind fun a b hab => ?_
              cases hab with
              | none =>
                  refine .pure ?_
                  split
                  · exact .nil pos
                  · exact .none
              | @some a b hab =>
                  obtain ⟨trees, p⟩ := a
                  obtain ⟨trees', p'⟩ := b
                  obtain ⟨htrees, rfl⟩ := hab
                  exact (ih silent _ p).bind fun _ _ hmore => .pure (hmore.after htrees)
          | notAhead r =>
              rw [run, run]
              refine (ih true _ pos).bind fun a b hab => .pure ?_
              cases hab with
              | none => exact .nil pos
              | some hab => exact .none
      | all rs =>
          cases rs with
          | nil => exact .pure (.nil pos)
          | cons r rs =>
              rw [run, run]
              refine (ih silent _ pos).bind fun a b hab => ?_
              cases hab with
              | none => exact .pure .none
              | @some a b hab =>
                  obtain ⟨trees, p⟩ := a
                  obtain ⟨trees', p'⟩ := b
                  obtain ⟨htrees, rfl⟩ := hab
                  exact (ih silent _ p).bind fun _ _ hrest => .pure (hrest.after htrees)
      | first rs =>
          cases rs with
          | nil => exact .pure .none
          | cons r rs =>
              rw [run, run]
              refine (ih silent _ pos).bind fun a b hab => ?_
              cases hab with
              | none => exact ih silent _ pos
              | some hab => exact .pure (.some hab)
      | more element separator least trailing count =>
          rw [run, run]
          refine (ih silent _ pos).bind fun a b hab => ?_
          cases hab with
          | none => exact .pure (.endOfList rfl least count pos)
          | @some a b hab =>
              obtain ⟨separators, p⟩ := a
              obtain ⟨separators', p'⟩ := b
              obtain ⟨hseparators, rfl⟩ := hab
              refine (ih silent _ p).bind fun a b hab => ?_
              cases hab with
              | none =>
                  refine .pure ?_
                  split
                  · exact .endOfList hseparators least count p
                  · exact .endOfList rfl least count pos
              | @some a b hab =>
                  obtain ⟨trees, q⟩ := a
                  obtain ⟨trees', q'⟩ := b
                  obtain ⟨htrees, rfl⟩ := hab
                  dsimp only
                  split
                  · refine (ih silent _ q).bind fun _ _ hmore => .pure (hmore.after ?_)
                    simp only [RawTree.skeletons_append, hseparators, htrees]
                  · exact .pure (.endOfList rfl least count pos)

/-! ## Outcomes -/

/-- Trees with the same skeleton, or the same failure. -/
inductive SameOutcome : Outcome δ → Outcome δ → Prop
  | parsed {tree tree' : RawTree δ} (h : tree.skeleton = tree'.skeleton) :
      SameOutcome (.parsed tree) (.parsed tree')
  | failed (failure : Failure) : SameOutcome (.failed failure) (.failed failure)
  | exhausted : SameOutcome .exhausted .exhausted

/-- Parsing sees the kinds of the tokens and nothing else of them. -/
theorem parse_sameOutcome (h : s.SameKinds s') (g : Grammar δ) (root : δ) :
    SameOutcome (parse g root s) (parse g root s') := by
  have hfuel : enoughFuel g s = enoughFuel g s' := by rw [enoughFuel, enoughFuel, h.size_eq]
  have hmemory : Memory.SameShape ({} : Memory δ) {} := ⟨fun d p => by simp, rfl, rfl⟩
  have hrun := run_inStep (g := g) h (enoughFuel g s) false (.definition root) 0 {} {} hmemory
  unfold parse
  rw [← hfuel]
  generalize run g s (enoughFuel g s) false (.definition root) 0 {} = x at hrun ⊢
  generalize run g s' (enoughFuel g s) false (.definition root) 0 {} = y at hrun ⊢
  cases hrun with
  | none => exact .exhausted
  | @some x y hxy =>
      obtain ⟨found, ⟨chart, furthest, wanted⟩⟩ := x
      obtain ⟨found', ⟨chart', furthest', wanted'⟩⟩ := y
      obtain ⟨hfound, -, rfl, rfl⟩ := hxy
      cases hfound with
      | none => exact .failed _
      | @some a b hab =>
          obtain ⟨trees, p⟩ := a
          obtain ⟨trees', p'⟩ := b
          obtain ⟨htrees, rfl⟩ := hab
          dsimp only
          rw [← h.size_eq]
          split
          · refine .parsed ?_
            have hlast := h.get? (s.size - 1)
            have hmarker : RawTree.skeletons (δ := δ) ((s.get? (s.size - 1)).toList.map .leaf) =
                RawTree.skeletons ((s'.get? (s.size - 1)).toList.map .leaf) := by
              cases ht : s.get? (s.size - 1) <;> cases ht' : s'.get? (s.size - 1) <;>
                simp_all [RawTree.skeletons, RawTree.skeleton]
            simp only [RawTree.skeleton, RawTree.skeletons_append, htrees, hmarker]
          · split <;> exact .failed _

def Outcome.skeleton? : Outcome δ → Option (Skeleton δ)
  | parsed tree => some tree.skeleton
  | _ => none

/-- Whether there is a tree, and its skeleton, follows from the kinds alone. -/
theorem parse_skeleton (g : Grammar δ) (root : δ) (s : TokenStream) :
    (parse g root s).skeleton? =
      (parse g root (.ofKinds (s.tokens.toList.map (·.kind)))).skeleton? := by
  have h := parse_sameOutcome s.ofKinds_sameKinds g root
  generalize parse g root s = x at h ⊢
  generalize parse g root (.ofKinds _) = y at h ⊢
  cases h with
  | parsed h => exact congrArg some h
  | failed | exhausted => rfl

/-- Parsing gives the tree that has the tokens of the stream and the skeleton which their kinds
alone lead to. -/
theorem parse_eq_parsed {root : δ} {tree : RawTree δ} {init : List Token} {e : Token}
    (hs : s.tokens.toList = init ++ [e]) (htokens : tree.tokens = s.tokens.toList)
    (hkinds : (parse g root (.ofKinds (s.tokens.toList.map (·.kind)))).skeleton? =
      some tree.skeleton) : parse g root s = .parsed tree := by
  rw [← parse_skeleton] at hkinds
  cases h : parse g root s with
  | parsed tree' =>
      rw [h, Outcome.skeleton?, Option.some.injEq] at hkinds
      have htokens' : tree'.tokens ++ [] = tree.tokens ++ [] := by rw [parse_tokens hs h, htokens]
      rw [(RawTree.eq_of_skeleton tree' tree hkinds htokens').1]
  | failed _ | exhausted =>
      rw [h] at hkinds
      cases hkinds

end Packrat

end DualSyntax
