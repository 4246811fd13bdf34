import DualSyntax.Proofs.Packrat.LeftCalls

/-!
# What a failed match wanted

The matcher keeps the furthest position at which it refused a token and the kinds it wanted there.
`Memory.Honest` says what this always is, whatever the grammar: kinds without repetitions, each other
than that of the token at the position.  That a failure wants something at all is a matter of the
grammar, because a lookahead fails without a word.  `Rule.complains` marks the rules that do not fail
so; `Runs.vocal` shows along a run that they do not, and that a match stops in front of the end marker.
-/

namespace DualSyntax

/-- A stream whose last token, and no other, is an end marker. -/
def TokenStream.EndMarked (s : TokenStream) : Prop :=
  ∃ init e, s.tokens.toList = init ++ [e] ∧ e.kind = .eof ∧ ∀ t ∈ init, t.kind ≠ .eof

namespace TokenStream.EndMarked

variable {s : TokenStream} {i : Nat} {t : Token}

theorem size_pos (h : s.EndMarked) : 0 < s.size := by
  obtain ⟨init, e, hlist, -, -⟩ := h
  have hlength := congrArg List.length hlist
  simp only [Array.length_toList, List.length_append, List.length_singleton] at hlength
  simp only [TokenStream.size]
  omega

theorem kind_eq_eof_iff (h : s.EndMarked) (hget : s.get? i = some t) :
    t.kind = .eof ↔ i + 1 = s.size := by
  obtain ⟨init, e, hlist, he, hinit⟩ := h
  have hsize : s.size = init.length + 1 := by
    have hlength := congrArg List.length hlist
    simpa [TokenStream.size] using hlength
  have hget' : (init ++ [e])[i]? = some t := by
    rw [← hlist]
    simpa [TokenStream.get?] using hget
  rcases Nat.lt_trichotomy i init.length with hlt | rfl | hgt
  · rw [List.getElem?_append_left hlt] at hget'
    have hne := hinit t (List.mem_of_getElem? hget')
    constructor
    · intro hkind
      exact absurd hkind hne
    · omega
  · rw [List.getElem?_concat_length, Option.some.injEq] at hget'
    subst hget'
    exact ⟨fun _ => hsize.symm, fun _ => he⟩
  · have hlength := (List.getElem?_eq_some_iff.mp hget').1
    simp only [List.length_append, List.length_singleton] at hlength
    omega

end TokenStream.EndMarked

theorem tokenize_endMarked {l : Language} {src : List Char} {s : TokenStream}
    (h : tokenize l src = .ok s) : s.EndMarked := by
  obtain ⟨init, e, -, hlist, hinit, he, -⟩ := tokenize_spec h
  exact ⟨init, e, hlist, he.kind, hinit⟩

namespace Rule

variable {δ : Type}

mutual

/-- Whether a rule wants the end marker in lookaheads only, and these name only quiet definitions;
`inside` says that the rule itself stands in a lookahead. -/
def guarded (quiet : δ → Bool) (inside : Bool) : Rule δ → Bool
  | empty => true
  | token k => inside || k != .eof
  | ref d => !inside || quiet d
  | sequence rs | choice rs => guardedAll quiet inside rs
  | optional r => guarded quiet inside r
  | list e sep _ _ => guarded quiet inside e && guardedOption quiet inside sep
  | notAhead r => guarded quiet true r

def guardedAll (quiet : δ → Bool) (inside : Bool) : List (Rule δ) → Bool
  | [] => true
  | r :: rs => guarded quiet inside r && guardedAll quiet inside rs

def guardedOption (quiet : δ → Bool) (inside : Bool) : Option (Rule δ) → Bool
  | none => true
  | some r => guarded quiet inside r

end

mutual

/-- Whether a rule fails only where it refuses a token, if the definitions that are heard do so.
The first failure settles a sequence, while a choice fails in all its alternatives. -/
def complains (heard : δ → Bool) : Rule δ → Bool
  | empty | token _ | optional _ => true
  | ref d => heard d
  | sequence rs => complainsAll heard rs
  | choice rs => complainsSome heard rs
  | list e _ least _ => least == 0 || (least == 1 && complains heard e)
  | notAhead _ => false

def complainsAll (heard : δ → Bool) : List (Rule δ) → Bool
  | [] => true
  | r :: rs => complains heard r && complainsAll heard rs

def complainsSome (heard : δ → Bool) : List (Rule δ) → Bool
  | [] => false
  | r :: rs => complains heard r || complainsSome heard rs

end

end Rule

/-- A grammar whose lookaheads keep to the quiet definitions and in which the definitions that are
heard refuse a token where they fail. -/
structure Grammar.Vocal {δ : Type} (g : Grammar δ) (quiet heard : δ → Bool) : Prop where
  guarded : ∀ d r, g.rule d = some r → r.guarded quiet false = true
  guarded_quiet : ∀ d r, quiet d = true → g.rule d = some r → r.guarded quiet true = true
  complains : ∀ d, heard d = true → ∃ r, g.rule d = some r ∧ r.complains heard = true
  disjoint : ∀ d, quiet d = true → heard d = false

namespace Packrat

variable {δ : Type}

/-! ## What is wanted -/

/-- The three things that a refusal can do: begin a list of what is wanted, make it longer, or
nothing. -/
theorem Memory.refuse_cases (m : Memory δ) (pos : Nat) (k : TokenKind) :
    (m.furthest < pos ∧ (m.refuse pos k).furthest = pos ∧ (m.refuse pos k).wanted = [k]) ∨
    (pos = m.furthest ∧ k ∉ m.wanted ∧ (m.refuse pos k).furthest = pos ∧
      (m.refuse pos k).wanted = m.wanted ++ [k]) ∨
    ((pos < m.furthest ∨ k ∈ m.wanted) ∧ m.refuse pos k = m) := by
  unfold Memory.refuse
  by_cases hlt : m.furthest < pos
  · simp [hlt]
  · by_cases hpos : pos = m.furthest
    · by_cases hmem : k ∈ m.wanted
      · simp [hpos, hmem]
      · simp [hpos, hmem]
    · have hbehind : pos < m.furthest := by omega
      simp [hlt, hpos, hbehind]

/-- What the memory says is wanted: different kinds, each other than that of the token at the furthest
position.  As long as nothing is wanted, that position is the first. -/
structure Memory.Honest (s : TokenStream) (m : Memory δ) : Prop where
  refused : ∀ k ∈ m.wanted, ∃ t, s.get? m.furthest = some t ∧ t.kind ≠ k
  nodup : m.wanted.Nodup
  started : m.wanted = [] → m.furthest = 0

section Wanted

variable {s : TokenStream} {m : Memory δ} {pos : Nat} {k : TokenKind} {t : Token}

theorem Memory.Honest.empty (s : TokenStream) : Memory.Honest s ({} : Memory δ) :=
  ⟨by simp, List.nodup_nil, fun _ => rfl⟩

theorem Memory.Honest.note (h : m.Honest s) (d : δ) (status : Status δ) :
    (m.note d pos status).Honest s :=
  ⟨h.refused, h.nodup, h.started⟩

theorem Memory.Honest.refuse (h : m.Honest s) (hget : s.get? pos = some t) (hkind : t.kind ≠ k) :
    (m.refuse pos k).Honest s := by
  rcases m.refuse_cases pos k with ⟨-, hfurthest, hwanted⟩ | ⟨rfl, hnew, hfurthest, hwanted⟩ | ⟨-, hsame⟩
  · refine ⟨?_, by simp [hwanted], by simp [hwanted]⟩
    rw [hfurthest, hwanted]
    simpa using ⟨t, hget, hkind⟩
  · refine ⟨?_, ?_, by simp [hwanted]⟩
    · rw [hfurthest, hwanted]
      intro k' hk'
      rcases List.mem_append.mp hk' with hk' | hk'
      · exact h.refused k' hk'
      · cases List.mem_singleton.mp hk'
        exact ⟨t, hget, hkind⟩
    · rw [hwanted, List.nodup_append]
      refine ⟨h.nodup, by simp, ?_⟩
      rintro k' hk' _ hk rfl
      cases List.mem_singleton.mp hk
      exact hnew hk'
  · rwa [hsame]

theorem Memory.Honest.refuse_wanted (h : m.Honest s) (pos : Nat) (k : TokenKind) :
    (m.refuse pos k).wanted ≠ [] := by
  rcases m.refuse_cases pos k with ⟨-, -, hwanted⟩ | ⟨-, -, -, hwanted⟩ | ⟨hold, hsame⟩
  · simp [hwanted]
  · simp [hwanted]
  · rw [hsame]
    intro hnil
    have hstart := h.started hnil
    rcases hold with hbehind | hmem
    · omega
    · simp [hnil] at hmem

/-- What is wanted is never forgotten altogether. -/
theorem Memory.refuse_wanted_of_wanted (h : m.wanted ≠ []) (pos : Nat) (k : TokenKind) :
    (m.refuse pos k).wanted ≠ [] := by
  rcases m.refuse_cases pos k with ⟨-, -, hwanted⟩ | ⟨-, -, -, hwanted⟩ | ⟨-, hsame⟩
  · simp [hwanted]
  · simp [hwanted]
  · rwa [hsame]

end Wanted

section Runs

variable [BEq δ] {g : Grammar δ} {s : TokenStream} {silent : Bool} {goal : Goal δ} {pos : Nat}
  {m m' : Memory δ} {found : Match δ}

/-- A run changes the memory by refusals and notes only. -/
theorem Runs.invariant {P : Memory δ → Prop}
    (hrefuse : ∀ m pos k t, s.get? pos = some t → t.kind ≠ k → P m → P (m.refuse pos k))
    (hnote : ∀ m d pos status, P m → P (m.note d pos status))
    (h : Runs g s silent goal pos m found m') (hm : P m) : P m' := by
  induction h with
  | empty | pastEnd | accepted | allNil | firstNil | remembered | reentered => exact hm
  | @refused silent k pos m t hget hkind =>
      cases silent with
      | true => exact hm
      | false => exact hrefuse m pos k t hget hkind hm
  | ref _ ih | sequence _ ih | choice _ ih | optional _ ih | notAhead _ ih | noElement _ ih
  | allStop _ ih | firstHit _ ih | noSeparator _ ih => exact ih hm
  | elements _ _ ihfirst ihrest | allStep _ _ ihfirst ihrest | firstMiss _ _ ihfirst ihrest
  | separatorOnly _ _ ihfirst ihrest | noProgress _ _ _ ihfirst ihrest => exact ihrest (ihfirst hm)
  | moreStep _ _ _ _ ihsep ihelem ihmore => exact ihmore (ihelem (ihsep hm))
  | undefined => exact hnote _ _ _ _ (hnote _ _ _ _ hm)
  | defined _ _ _ ih => exact hnote _ _ _ _ (ih (hnote _ _ _ _ hm))

theorem Runs.honest (h : Runs g s silent goal pos m found m') (hm : m.Honest s) : m'.Honest s :=
  h.invariant (fun _ _ _ _ hget hkind hm => hm.refuse hget hkind) (fun _ d _ status hm => hm.note d status)
    hm

theorem Runs.wanted_ne_nil (h : Runs g s silent goal pos m found m') (hm : m.wanted ≠ []) :
    m'.wanted ≠ [] :=
  h.invariant (P := fun m => m.wanted ≠ []) (fun _ pos k _ _ _ hm => Memory.refuse_wanted_of_wanted hm pos k)
    (fun _ _ _ _ hm => hm) hm

/-! ## How a parse fails -/

/-- A failure is what the memory holds after the run on the root; the end of a matched prefix counts as
a place where the end marker was wanted. -/
theorem failed_cases [LawfulBEq δ] {root : δ} {f : Failure} (h : parse g root s = .failed f) :
    ∃ found m, Runs g s false (.definition root) 0 {} found m ∧
      ((found = none ∧ f = ⟨m.furthest, m.wanted⟩) ∨
        ∃ trees p, found = some (trees, p) ∧ p ≠ s.size - 1 ∧
          ((m.furthest < p ∧ f = ⟨p, [.eof]⟩) ∨ (p = m.furthest ∧ f = ⟨p, m.wanted ++ [.eof]⟩) ∨
            (p < m.furthest ∧ f = ⟨m.furthest, m.wanted⟩))) := by
  obtain ⟨found, m, hrun⟩ := run_enoughFuel g s root
  refine ⟨found, m, run_runs hrun, ?_⟩
  unfold parse at h
  rw [hrun] at h
  cases found with
  | none =>
      cases h
      exact .inl ⟨rfl, rfl⟩
  | some pair =>
      obtain ⟨trees, p⟩ := pair
      dsimp only at h
      by_cases hp : p = s.size - 1
      · rw [if_pos hp] at h
        cases h
      · rw [if_neg hp] at h
        refine .inr ⟨trees, p, rfl, hp, ?_⟩
        rcases Nat.lt_trichotomy m.furthest p with hlt | heq | hgt
        · simp only [hlt, if_true] at h
          cases h
          exact .inl ⟨hlt, rfl⟩
        · simp only [heq, Nat.lt_irrefl, if_false, if_true] at h
          cases h
          exact .inr (.inl ⟨heq.symm, rfl⟩)
        · have hnot : ¬ m.furthest < p := by omega
          have hne : ¬ p = m.furthest := by omega
          simp only [hnot, hne, if_false] at h
          cases h
          exact .inr (.inr ⟨hgt, rfl⟩)

/-- What a failure expects is not what stands at its position, whatever the grammar is. -/
theorem kind_not_expected [LawfulBEq δ] {root : δ} {f : Failure} {t : Token} (hs : s.EndMarked)
    (h : parse g root s = .failed f) (ht : s.get? f.position = some t) : t.kind ∉ f.expected := by
  obtain ⟨found, m, hruns, hcases⟩ := failed_cases h
  have hwanted : s.get? m.furthest = some t → t.kind ∉ m.wanted := by
    intro hget hmem
    obtain ⟨t', ht', hne⟩ := (hruns.honest (.empty s)).refused t.kind hmem
    cases hget.symm.trans ht'
    exact hne rfl
  -- where a matched prefix ends, the stream goes on
  have hend : ∀ p, p ≠ s.size - 1 → s.get? p = some t → t.kind ≠ .eof := by
    intro p hp hget hkind
    have := (hs.kind_eq_eof_iff hget).mp hkind
    omega
  rcases hcases with ⟨-, rfl⟩ | ⟨trees, p, -, hp, ⟨-, rfl⟩ | ⟨rfl, rfl⟩ | ⟨-, rfl⟩⟩
  · exact hwanted ht
  · simpa using hend p hp ht
  · simpa using ⟨hwanted ht, hend m.furthest hp ht⟩
  · exact hwanted ht

end Runs

/-! ## Complaints along a run -/

/-- Whether a goal wants the end marker in lookaheads only, and these name only quiet definitions. -/
def Goal.guarded (quiet : δ → Bool) (inside : Bool) : Goal δ → Bool
  | rule r => r.guarded quiet inside
  | definition d => !inside || quiet d
  | all rs | first rs => Rule.guardedAll quiet inside rs
  | more e sep _ _ _ => e.guarded quiet inside && Rule.guardedOption quiet inside sep

theorem guarded_between (quiet : δ → Bool) (inside : Bool) (sep : Option (Rule δ)) :
    (between sep).guarded quiet inside = Rule.guardedOption quiet inside sep := by
  cases sep <;> rfl

def Goal.complains (heard : δ → Bool) : Goal δ → Bool
  | rule r => r.complains heard
  | definition d => heard d
  | all rs => Rule.complainsAll heard rs
  | first rs => Rule.complainsSome heard rs
  | more _ _ least _ count => decide (least ≤ count)

/-- A match from a position inside the stream that ends inside of it, if it is one. -/
def Within (s : TokenStream) (pos : Nat) (found : Match δ) : Prop :=
  ∀ trees q, found = some (trees, q) → pos < s.size → q < s.size

section Within

variable {s : TokenStream} {pos p q : Nat} {trees : List (RawTree δ)} {found : Match δ}

theorem Within.none : Within s pos (none : Match δ) := by
  intro trees q h
  cases h

theorem Within.some (h : pos < s.size → q < s.size) : Within s pos (some (trees, q)) := by
  intro trees' q' h'
  cases h'
  exact h

theorem Within.after (h : pos < s.size → p < s.size) (hm : Within s p found) :
    Within s pos (after trees found) := by
  cases found with
  | none => exact .none
  | some pair => exact .some fun hpos => hm pair.1 pair.2 rfl (h hpos)

theorem after_eq_none (h : after trees found = none) :
    found = none := by
  cases found with
  | none => rfl
  | some pair => cases h

theorem Within.endOfList (h : pos < s.size → q < s.size) (least count : Nat) :
    Within s pos (endOfList least count trees q) := by
  unfold Packrat.endOfList
  split
  · exact .none
  · exact .some h

theorem endOfList_ne_none {least count : Nat} (h : decide (least ≤ count) = true)
    (hnone : Packrat.endOfList least count trees q = Option.none) : False := by
  have hle := of_decide_eq_true h
  rw [Packrat.endOfList, if_neg (by omega)] at hnone
  cases hnone

theorem Within.optional (h : Within s pos found) :
    Within s pos (Option.some (found.getD ([], pos))) := by
  cases found with
  | none => exact .some id
  | some pair => exact .some (h pair.1 pair.2 rfl)

end Within

section Vocal

variable [BEq δ]

/-- What the memory holds when all definitions that are heard have refused a token where they failed:
the answers it remembers end inside the stream, and the end marker is not wanted. -/
structure Memory.Vocal (s : TokenStream) (heard : δ → Bool) (m : Memory δ) : Prop
    extends m.Honest s where
  within : ∀ d p tree q, m.chart.get? d p = some (.answered (some (tree, q))) → p < s.size →
    q < s.size
  failed : ∀ d p, heard d = true → m.chart.get? d p = some (.answered none) → m.wanted ≠ []
  eof_not_wanted : .eof ∉ m.wanted

variable {s : TokenStream} {heard : δ → Bool} {m : Memory δ} {pos : Nat} {k : TokenKind} {t : Token}

theorem Memory.Vocal.empty (s : TokenStream) (heard : δ → Bool) :
    Memory.Vocal s heard ({} : Memory δ) :=
  ⟨.empty s, by simp, by simp, by simp⟩

theorem Memory.Vocal.refuse (h : m.Vocal s heard) (hget : s.get? pos = some t) (hkind : t.kind ≠ k)
    (hk : k ≠ .eof) : (m.refuse pos k).Vocal s heard := by
  refine ⟨h.toHonest.refuse hget hkind, ?_, ?_, ?_⟩
  · rw [Memory.refuse_chart]
    exact h.within
  · intro _ _ _ _
    exact h.toHonest.refuse_wanted pos k
  · rcases m.refuse_cases pos k with ⟨-, -, hwanted⟩ | ⟨-, -, -, hwanted⟩ | ⟨-, hsame⟩
    · simpa [hwanted] using hk.symm
    · simpa [hwanted] using ⟨h.eof_not_wanted, hk.symm⟩
    · rw [hsame]
      exact h.eof_not_wanted

theorem Memory.Vocal.note [LawfulBEq δ] (h : m.Vocal s heard) {d : δ} {status : Status δ}
    (hwithin : ∀ tree q, status = .answered (some (tree, q)) → pos < s.size → q < s.size)
    (hfailed : heard d = true → status = .answered none → m.wanted ≠ []) :
    (m.note d pos status).Vocal s heard := by
  refine ⟨h.toHonest.note d status, ?_, ?_, h.eof_not_wanted⟩
  · intro e p tree q hq
    by_cases hkey : (d, pos) = (e, p)
    · cases hkey
      rw [Memory.note, Chart.get?_set_self] at hq
      exact hwithin tree q (Option.some.inj hq)
    · rw [Memory.note, Chart.get?_set_of_ne _ _ hkey] at hq
      exact h.within e p tree q hq
  · intro e p he hq
    by_cases hkey : (d, pos) = (e, p)
    · cases hkey
      rw [Memory.note, Chart.get?_set_self] at hq
      exact hfailed he (Option.some.inj hq)
    · rw [Memory.note, Chart.get?_set_of_ne _ _ hkey] at hq
      exact h.failed e p he hq

theorem Memory.Vocal.note_matching [LawfulBEq δ] (h : m.Vocal s heard) (d : δ) :
    (m.note d pos .matching).Vocal s heard := by
  refine h.note ?_ ?_
  · intro tree q hstatus
    cases hstatus
  · intro _ hstatus
    cases hstatus

/-- What a run on a goal gives when the definitions that are heard refuse a token where they fail. -/
structure Speaks (quiet heard : δ → Bool) (s : TokenStream) (silent : Bool) (goal : Goal δ) (pos : Nat)
    (found : Match δ) (m' : Memory δ) : Prop where
  within : goal.guarded quiet false = true → Within s pos found
  vocal : m'.Vocal s heard
  wanted : silent = false → goal.complains heard = true → found = none → m'.wanted ≠ []

variable {g : Grammar δ} {quiet : δ → Bool} {silent : Bool} {goal : Goal δ} {m' : Memory δ}
  {found : Match δ}

theorem Speaks.lt_size {trees : List (RawTree δ)} {p : Nat}
    (h : Speaks quiet heard s silent goal pos (some (trees, p)) m')
    (hgoal : goal.guarded quiet silent = true) (hpos : silent = false → pos < s.size) :
    silent = false → p < s.size := by
  rintro rfl
  exact h.within hgoal trees p rfl (hpos rfl)

variable [LawfulBEq δ]

theorem Speaks.definition (hg : g.Vocal quiet heard) {d : δ} {r : Rule δ} (hrule : g.rule d = some r)
    (hgoal : (Goal.definition d).guarded quiet silent = true)
    (h : Speaks quiet heard s silent (.rule r) pos found m') :
    Speaks quiet heard s silent (.definition d) pos (recalled (asNode d pos found))
      (m'.note d pos (.answered (asNode d pos found))) := by
  have hwithin := h.within (hg.guarded d r hrule)
  have hnode : ∀ tree q, asNode d pos found = some (tree, q) → pos < s.size → q < s.size := by
    intro tree q htree
    obtain ⟨⟨trees, q⟩, htrees, hpair⟩ := Option.map_eq_some_iff.mp htree
    cases hpair
    exact hwithin trees q htrees
  have hfailed : silent = false → heard d = true → asNode d pos found = none → m'.wanted ≠ [] := by
    intro hloud hd hnone
    obtain ⟨r', hrule', hcomplains⟩ := hg.complains d hd
    cases hrule.symm.trans hrule'
    exact h.wanted hloud hcomplains (Option.map_eq_none_iff.mp hnone)
  refine ⟨fun _ trees q htrees => ?_, h.vocal.note ?_ ?_, ?_⟩
  · obtain ⟨⟨tree, q⟩, htree, hpair⟩ := Option.map_eq_some_iff.mp htrees
    cases hpair
    exact hnode tree q htree
  · intro tree q hstatus
    exact hnode tree q (Status.answered.inj hstatus)
  · intro hd hstatus
    cases silent with
    | false => exact hfailed rfl hd (Status.answered.inj hstatus)
    | true =>
        -- inside a lookahead only quiet definitions are asked for
        have hquiet : quiet d = true := by simpa [Goal.guarded] using hgoal
        rw [hg.disjoint d hquiet] at hd
        cases hd
  · intro hloud hd hnone
    exact hfailed hloud hd (Option.map_eq_none_iff.mp hnone)

/-- Without left recursion a goal that complains fails only where a token is refused, and what a goal
outside lookaheads matches ends inside the stream. -/
theorem Runs.speaks (hg : g.Vocal quiet heard) (hs : s.EndMarked) (hfree : ¬ LeftRecursive g s)
    (h : Runs g s silent goal pos m found m') (hsound : m.Sound g s) (hlead : m.Leads g s goal pos)
    (hm : m.Vocal s heard) (hpos : silent = false → pos < s.size)
    (hgoal : goal.guarded quiet silent = true) : Speaks quiet heard s silent goal pos found m' := by
  induction h with
  | empty | allNil => exact ⟨fun _ => .some id, hm, fun _ _ hnone => by cases hnone⟩
  | pastEnd hget =>
      refine ⟨fun _ => .none, hm, fun hloud _ _ => ?_⟩
      have hlt := hpos hloud
      rw [TokenStream.get?, Array.getElem?_eq_none_iff] at hget
      exact absurd hlt (by simpa [TokenStream.size] using hget)
  | @accepted silent k pos m t hget hkind =>
      refine ⟨fun hloud => .some fun _ => ?_, hm, fun _ _ hnone => by cases hnone⟩
      -- the last token is the end marker, which is not wanted here
      have hne : t.kind ≠ .eof := by simpa [Goal.guarded, Rule.guarded, hkind] using hloud
      have hlt := TokenStream.lt_size_of_get? hget
      have hlast := mt (hs.kind_eq_eof_iff hget).mpr hne
      omega
  | @refused silent k pos m t hget hkind =>
      cases silent with
      | true => exact ⟨fun _ => .none, hm, fun hloud => by cases hloud⟩
      | false =>
          have hk : k ≠ .eof := by simpa [Goal.guarded, Rule.guarded] using hgoal
          exact ⟨fun _ => .none, hm.refuse hget hkind hk, fun _ _ _ => hm.toHonest.refuse_wanted pos k⟩
  | ref _ ih =>
      obtain ⟨hwithin, hvocal, hwanted⟩ := ih hsound (hlead.part (.refl _) .ref) hm hpos hgoal
      exact ⟨hwithin, hvocal, hwanted⟩
  | sequence _ ih =>
      obtain ⟨hwithin, hvocal, hwanted⟩ := ih hsound (hlead.part (.refl _) .sequence) hm hpos hgoal
      exact ⟨hwithin, hvocal, hwanted⟩
  | choice _ ih =>
      obtain ⟨hwithin, hvocal, hwanted⟩ := ih hsound (hlead.part (.refl _) .choice) hm hpos hgoal
      exact ⟨hwithin, hvocal, hwanted⟩
  | optional _ ih =>
      obtain ⟨hwithin, hvocal, -⟩ := ih hsound (hlead.part (.refl _) .optional) hm hpos hgoal
      exact ⟨fun hg => (hwithin hg).optional, hvocal, fun _ _ hnone => by cases hnone⟩
  | notAhead _ ih =>
      obtain ⟨-, hvocal, -⟩ := ih hsound (hlead.part (.refl _) .notAhead) hm
        (fun hloud => by cases hloud) hgoal
      refine ⟨fun _ => ?_, hvocal, fun _ hcomplains => by cases hcomplains⟩
      split
      · exact .none
      · exact .some id
  | @noElement silent e sep least trailing pos m m' _ ih =>
      have hgfirst := (Bool.and_eq_true_iff.mp hgoal).1
      obtain ⟨-, hvocal, hwanted⟩ := ih hsound (hlead.part (.refl _) .element) hm hpos hgfirst
      refine ⟨fun _ => ?_, hvocal, fun hloud hcomplains hnone => hwanted hloud ?_ rfl⟩
      · split
        · exact .some id
        · exact .none
      · have hleast : least ≠ 0 := by
          intro hzero
          rw [if_pos hzero] at hnone
          cases hnone
        simp only [Goal.complains, Rule.complains, Bool.or_eq_true, Bool.and_eq_true,
          beq_iff_eq] at hcomplains
        exact (hcomplains.resolve_left hleast).2
  | @elements silent e sep least trailing pos m trees p m' found m'' hfirst _ ihfirst ihmore =>
      have hgfirst := (Bool.and_eq_true_iff.mp hgoal).1
      have hlead₁ := hlead.part (.refl _) .element
      obtain ⟨he, hsound₁, hsame₁⟩ := hfirst.evaluates hfree hsound hlead₁
      have h₁ := ihfirst hsound hlead₁ hm hpos hgfirst
      have h₂ := ihmore hsound₁ (hlead.part hsame₁ (.elements he)) h₁.vocal (h₁.lt_size hgfirst hpos)
        hgoal
      refine ⟨fun hloud => ?_, h₂.vocal, fun hloud hcomplains hnone => ?_⟩
      · exact .after (h₁.within (Bool.and_eq_true_iff.mp hloud).1 trees p rfl) (h₂.within hloud)
      · refine h₂.wanted hloud ?_ (after_eq_none hnone)
        simp only [Goal.complains, Rule.complains, Bool.or_eq_true, Bool.and_eq_true,
          beq_iff_eq] at hcomplains
        exact decide_eq_true (by omega)
  | allStop _ ih =>
      have hgfirst := (Bool.and_eq_true_iff.mp hgoal).1
      obtain ⟨-, hvocal, hwanted⟩ := ih hsound (hlead.part (.refl _) .allFirst) hm hpos hgfirst
      refine ⟨fun _ => .none, hvocal, fun hloud hcomplains _ => ?_⟩
      exact hwanted hloud (Bool.and_eq_true_iff.mp hcomplains).1 rfl
  | @allStep silent r rs pos m trees p m' found m'' hfirst _ ihfirst ihrest =>
      obtain ⟨hgfirst, hgrest⟩ := Bool.and_eq_true_iff.mp hgoal
      have hlead₁ := hlead.part (.refl _) .allFirst
      obtain ⟨he, hsound₁, hsame₁⟩ := hfirst.evaluates hfree hsound hlead₁
      have h₁ := ihfirst hsound hlead₁ hm hpos hgfirst
      have h₂ := ihrest hsound₁ (hlead.part hsame₁ (.allRest he)) h₁.vocal (h₁.lt_size hgfirst hpos)
        hgrest
      refine ⟨fun hloud => ?_, h₂.vocal, fun hloud hcomplains hnone => ?_⟩
      · obtain ⟨hloud₁, hloud₂⟩ := Bool.and_eq_true_iff.mp hloud
        exact .after (h₁.within hloud₁ trees p rfl) (h₂.within hloud₂)
      · exact h₂.wanted hloud (Bool.and_eq_true_iff.mp hcomplains).2 (after_eq_none hnone)
  | firstNil => exact ⟨fun _ => .none, hm, fun _ hcomplains => by cases hcomplains⟩
  | firstHit _ ih =>
      have hgfirst := (Bool.and_eq_true_iff.mp hgoal).1
      have h₁ := ih hsound (hlead.part (.refl _) .firstFirst) hm hpos hgfirst
      exact ⟨fun hloud => h₁.within (Bool.and_eq_true_iff.mp hloud).1, h₁.vocal,
        fun _ _ hnone => by cases hnone⟩
  | firstMiss hmiss hrest ihmiss ihrest =>
      obtain ⟨hgfirst, hgrest⟩ := Bool.and_eq_true_iff.mp hgoal
      have hlead₁ := hlead.part (.refl _) .firstFirst
      obtain ⟨he, hsound₁, hsame₁⟩ := hmiss.evaluates hfree hsound hlead₁
      have h₁ := ihmiss hsound hlead₁ hm hpos hgfirst
      have h₂ := ihrest hsound₁ (hlead.part hsame₁ (.firstRest he)) h₁.vocal hpos hgrest
      refine ⟨fun hloud => h₂.within (Bool.and_eq_true_iff.mp hloud).2, h₂.vocal, ?_⟩
      intro hloud hcomplains hnone
      rcases Bool.or_eq_true_iff.mp hcomplains with hfirst | hothers
      · exact hrest.wanted_ne_nil (h₁.wanted hloud hfirst rfl)
      · exact h₂.wanted hloud hothers hnone
  | noSeparator _ ih =>
      have hgsep := (guarded_between quiet _ _).trans (Bool.and_eq_true_iff.mp hgoal).2
      have h₁ := ih hsound (hlead.part (.refl _) .separator) hm hpos hgsep
      exact ⟨fun _ => .endOfList id _ _, h₁.vocal, fun _ => fun h hnone => (endOfList_ne_none h hnone).elim⟩
  | @separatorOnly silent e sep least trailing count pos m separators p m' m'' hsep _ ihsep ihelem =>
      obtain ⟨hgelem, hgsep⟩ := Bool.and_eq_true_iff.mp hgoal
      rw [← guarded_between] at hgsep
      have hlead₁ := hlead.part (.refl _) .separator
      obtain ⟨he, hsound₁, hsame₁⟩ := hsep.evaluates hfree hsound hlead₁
      have h₁ := ihsep hsound hlead₁ hm hpos hgsep
      have h₂ := ihelem hsound₁ (hlead.part hsame₁ (.moreElement he)) h₁.vocal
        (h₁.lt_size hgsep hpos) hgelem
      refine ⟨fun hloud => ?_, h₂.vocal, fun _ hcomplains => ?_⟩
      · have hloud₁ := (guarded_between quiet false sep).trans (Bool.and_eq_true_iff.mp hloud).2
        split
        · exact .endOfList (h₁.within hloud₁ separators p rfl) _ _
        · exact .endOfList id _ _
      · split
        · exact fun hnone => (endOfList_ne_none hcomplains hnone).elim
        · exact fun hnone => (endOfList_ne_none hcomplains hnone).elim
  | noProgress hsep _ _ ihsep ihelem =>
      obtain ⟨hgelem, hgsep⟩ := Bool.and_eq_true_iff.mp hgoal
      rw [← guarded_between] at hgsep
      have hlead₁ := hlead.part (.refl _) .separator
      obtain ⟨he, hsound₁, hsame₁⟩ := hsep.evaluates hfree hsound hlead₁
      have h₁ := ihsep hsound hlead₁ hm hpos hgsep
      have h₂ := ihelem hsound₁ (hlead.part hsame₁ (.moreElement he)) h₁.vocal
        (h₁.lt_size hgsep hpos) hgelem
      exact ⟨fun _ => .endOfList id _ _, h₂.vocal, fun _ => fun h hnone => (endOfList_ne_none h hnone).elim⟩
  | @moreStep silent e sep least trailing count pos m separators p m' trees q m'' found m''' hsep
      helem hlt _ ihsep ihelem ihmore =>
      obtain ⟨hgelem, hgsep⟩ := Bool.and_eq_true_iff.mp hgoal
      rw [← guarded_between] at hgsep
      have hlead₁ := hlead.part (.refl _) .separator
      obtain ⟨he₁, hsound₁, hsame₁⟩ := hsep.evaluates hfree hsound hlead₁
      have hlead₂ := hlead.part hsame₁ (.moreElement he₁)
      obtain ⟨he₂, hsound₂, hsame₂⟩ := helem.evaluates hfree hsound₁ hlead₂
      have h₁ := ihsep hsound hlead₁ hm hpos hgsep
      have hpos₁ := h₁.lt_size hgsep hpos
      have h₂ := ihelem hsound₁ hlead₂ h₁.vocal hpos₁ hgelem
      have h₃ := ihmore hsound₂ (hlead.part (hsame₁.trans hsame₂) (.moreRest he₁ he₂ hlt)) h₂.vocal
        (h₂.lt_size hgelem hpos₁) hgoal
      refine ⟨fun hloud => ?_, h₃.vocal, fun hloud hcomplains hnone => ?_⟩
      · obtain ⟨hloud₂, hloud₁⟩ := Bool.and_eq_true_iff.mp hloud
        rw [← guarded_between] at hloud₁
        refine .after (fun hp => ?_) (h₃.within hloud)
        exact h₂.within hloud₂ trees q rfl (h₁.within hloud₁ separators p rfl hp)
      · refine h₃.wanted hloud ?_ (after_eq_none hnone)
        have hle : least ≤ count := of_decide_eq_true hcomplains
        exact decide_eq_true (by omega)
  | @remembered silent d pos m answer h =>
      refine ⟨fun _ trees q htrees => ?_, hm, fun _ hd hnone => ?_⟩
      · obtain ⟨⟨tree, q⟩, rfl, hpair⟩ := Option.map_eq_some_iff.mp htrees
        cases hpair
        exact hm.within d pos tree q h
      · cases Option.map_eq_none_iff.mp hnone
        exact hm.failed d pos hd h
  | @reentered silent d pos m h =>
      -- the definition has asked for itself
      exact absurd ⟨(d, pos), hlead d pos h d pos .definition⟩ hfree
  | @undefined silent d pos m hnew hrule =>
      have hd : ¬ heard d = true := by
        intro hd
        obtain ⟨r, hrule', -⟩ := hg.complains d hd
        cases hrule.symm.trans hrule'
      refine ⟨fun _ => .none, (hm.note_matching d).note (by simp) fun h => absurd h hd, ?_⟩
      exact fun _ h => absurd h hd
  | @defined silent d pos m r found m' hnew hrule _ ih =>
      have hinner : r.guarded quiet silent = true := by
        cases silent with
        | false => exact hg.guarded d r hrule
        | true => exact hg.guarded_quiet d r (by simpa [Goal.guarded] using hgoal) hrule
      exact .definition hg hrule hgoal (ih (hsound.note_matching d) (hlead.note_matching hrule)
        (hm.note_matching d) hpos hinner)

/-- A failure of a definition that is heard stands at a token of the stream and expects something there,
nothing twice. -/
theorem failed_spec (hg : g.Vocal quiet heard) (hs : s.EndMarked) (hfree : ¬ LeftRecursive g s)
    {root : δ} (hroot : heard root = true) {f : Failure} (h : parse g root s = .failed f) :
    f.position < s.size ∧ f.expected ≠ [] ∧ f.expected.Nodup := by
  obtain ⟨found, m, hruns, hcases⟩ := failed_cases h
  have hsound : ({} : Memory δ).Sound g s := by
    intro d p answer ha
    simp at ha
  have hlead : ({} : Memory δ).Leads g s (.definition root) 0 := by
    intro d p hd
    simp at hd
  obtain ⟨hwithin, hvocal, hwanted⟩ :=
    hruns.speaks hg hs hfree hsound hlead (.empty s heard) (fun _ => hs.size_pos) rfl
  have hplace : m.wanted ≠ [] → m.furthest < s.size := by
    intro hne
    obtain ⟨k, hk⟩ := List.exists_mem_of_ne_nil _ hne
    obtain ⟨t, ht, -⟩ := hvocal.refused k hk
    exact TokenStream.lt_size_of_get? ht
  have hnodup : (m.wanted ++ [TokenKind.eof]).Nodup := by
    rw [List.nodup_append]
    refine ⟨hvocal.nodup, by simp, ?_⟩
    rintro k hk _ heof rfl
    cases List.mem_singleton.mp heof
    exact hvocal.eof_not_wanted hk
  rcases hcases with ⟨rfl, rfl⟩ | ⟨trees, p, rfl, -, hcases⟩
  · have hne := hwanted rfl hroot rfl
    exact ⟨hplace hne, hne, hvocal.nodup⟩
  · have hp : p < s.size := hwithin rfl trees p rfl hs.size_pos
    rcases hcases with ⟨-, rfl⟩ | ⟨-, rfl⟩ | ⟨hlt, rfl⟩
    · exact ⟨hp, by simp, by simp⟩
    · exact ⟨hp, by simp, hnodup⟩
    · have hne : m.wanted ≠ [] := by
        intro hnil
        have hstart := hvocal.started hnil
        omega
      exact ⟨hplace hne, hne, hvocal.nodup⟩

end Vocal

end Packrat

end DualSyntax
