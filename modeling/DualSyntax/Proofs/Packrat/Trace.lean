import DualSyntax.Grammar.Packrat

/-!
# What a run of the matcher can do

`Runs` lists the ways in which a goal can be answered, one constructor for each, with the memory
before and after.  `run_runs` says that the matcher does nothing else; what holds of all runs is
then proved by induction over `Runs` and never by unfolding the matcher.
-/

namespace DualSyntax.Packrat

variable {δ : Type}

/-- A computation that goes on after another gives an answer only if both do. -/
theorem bind_eq_some {α β : Type} {x : StateT (Memory δ) Option α}
    {f : α → StateT (Memory δ) Option β} {m m' : Memory δ} {b : β}
    (h : (x >>= f) m = some (b, m')) : ∃ a m₁, x m = some (a, m₁) ∧ f a m₁ = some (b, m') := by
  cases hx : x m with
  | none => simp [bind, StateT.bind, hx] at h
  | some pair => exact ⟨pair.1, pair.2, rfl, by simpa [bind, StateT.bind, hx] using h⟩

theorem pure_eq_some {α : Type} {a b : α} {m m' : Memory δ}
    (h : (pure a : StateT (Memory δ) Option α) m = some (b, m')) : a = b ∧ m = m' := by
  have hpair : some (a, m) = some (b, m') := h
  cases hpair
  exact ⟨rfl, rfl⟩

theorem Memory.refuse_chart (m : Memory δ) (pos : Nat) (k : TokenKind) :
    (m.refuse pos k).chart = m.chart := by
  unfold Memory.refuse
  dsimp only
  split <;> split <;> rfl

variable [BEq δ]

/-- A run of the matcher on a goal at a position, from one memory to another. -/
inductive Runs (g : Grammar δ) (s : TokenStream) :
    Bool → Goal δ → Nat → Memory δ → Match δ → Memory δ → Prop
  | empty {silent pos m} : Runs g s silent (.rule .empty) pos m (some ([], pos)) m
  | pastEnd {silent k pos m} (hget : s.get? pos = none) :
      Runs g s silent (.rule (.token k)) pos m none m
  | accepted {silent k pos m t} (hget : s.get? pos = some t) (hkind : t.kind = k) :
      Runs g s silent (.rule (.token k)) pos m (some ([.leaf t], pos + 1)) m
  | refused {silent k pos m t} (hget : s.get? pos = some t) (hkind : t.kind ≠ k) :
      Runs g s silent (.rule (.token k)) pos m none (if silent then m else m.refuse pos k)
  | ref {silent d pos m found m'} (h : Runs g s silent (.definition d) pos m found m') :
      Runs g s silent (.rule (.ref d)) pos m found m'
  | sequence {silent rs pos m found m'} (h : Runs g s silent (.all rs) pos m found m') :
      Runs g s silent (.rule (.sequence rs)) pos m found m'
  | choice {silent rs pos m found m'} (h : Runs g s silent (.first rs) pos m found m') :
      Runs g s silent (.rule (.choice rs)) pos m found m'
  | optional {silent r pos m found m'} (h : Runs g s silent (.rule r) pos m found m') :
      Runs g s silent (.rule (.optional r)) pos m (some (found.getD ([], pos))) m'
  | notAhead {silent r pos m found m'} (h : Runs g s true (.rule r) pos m found m') :
      Runs g s silent (.rule (.notAhead r)) pos m (if found.isSome then none else some ([], pos)) m'
  | noElement {silent e sep least trailing pos m m'}
      (h : Runs g s silent (.rule e) pos m none m') :
      Runs g s silent (.rule (.list e sep least trailing)) pos m
        (if least = 0 then some ([], pos) else none) m'
  | elements {silent e sep least trailing pos m trees p m' found m''}
      (hfirst : Runs g s silent (.rule e) pos m (some (trees, p)) m')
      (hmore : Runs g s silent (.more e sep least trailing 1) p m' found m'') :
      Runs g s silent (.rule (.list e sep least trailing)) pos m (after trees found) m''
  | allNil {silent pos m} : Runs g s silent (.all []) pos m (some ([], pos)) m
  | allStop {silent r rs pos m m'} (h : Runs g s silent (.rule r) pos m none m') :
      Runs g s silent (.all (r :: rs)) pos m none m'
  | allStep {silent r rs pos m trees p m' found m''}
      (hfirst : Runs g s silent (.rule r) pos m (some (trees, p)) m')
      (hrest : Runs g s silent (.all rs) p m' found m'') :
      Runs g s silent (.all (r :: rs)) pos m (after trees found) m''
  | firstNil {silent pos m} : Runs g s silent (.first []) pos m none m
  | firstHit {silent r rs pos m found m'} (h : Runs g s silent (.rule r) pos m (some found) m') :
      Runs g s silent (.first (r :: rs)) pos m (some found) m'
  | firstMiss {silent r rs pos m m' found m''} (hmiss : Runs g s silent (.rule r) pos m none m')
      (hrest : Runs g s silent (.first rs) pos m' found m'') :
      Runs g s silent (.first (r :: rs)) pos m found m''
  | noSeparator {silent e sep least trailing count pos m m'}
      (h : Runs g s silent (.rule (between sep)) pos m none m') :
      Runs g s silent (.more e sep least trailing count) pos m (endOfList least count [] pos) m'
  | separatorOnly {silent e sep least trailing count pos m separators p m' m''}
      (hsep : Runs g s silent (.rule (between sep)) pos m (some (separators, p)) m')
      (helem : Runs g s silent (.rule e) p m' none m'') :
      Runs g s silent (.more e sep least trailing count) pos m
        (if sep.isSome && trailing then endOfList least count separators p
          else endOfList least count [] pos) m''
  | noProgress {silent e sep least trailing count pos m separators p m' trees q m''}
      (hsep : Runs g s silent (.rule (between sep)) pos m (some (separators, p)) m')
      (helem : Runs g s silent (.rule e) p m' (some (trees, q)) m'') (hstuck : ¬ pos < q) :
      Runs g s silent (.more e sep least trailing count) pos m (endOfList least count [] pos) m''
  | moreStep {silent e sep least trailing count pos m separators p m' trees q m'' found m'''}
      (hsep : Runs g s silent (.rule (between sep)) pos m (some (separators, p)) m')
      (helem : Runs g s silent (.rule e) p m' (some (trees, q)) m'') (hlt : pos < q)
      (hmore : Runs g s silent (.more e sep least trailing (count + 1)) q m'' found m''') :
      Runs g s silent (.more e sep least trailing count) pos m
        (after (separators ++ trees) found) m'''
  | remembered {silent d pos m answer} (h : m.chart.get? d pos = some (.answered answer)) :
      Runs g s silent (.definition d) pos m (recalled answer) m
  | reentered {silent d pos m} (h : m.chart.get? d pos = some .matching) :
      Runs g s silent (.definition d) pos m none m
  | undefined {silent d pos m} (hnew : m.chart.get? d pos = none) (hrule : g.rule d = none) :
      Runs g s silent (.definition d) pos m none
        ((m.note d pos .matching).note d pos (.answered none))
  | defined {silent d pos m r found m'} (hnew : m.chart.get? d pos = none)
      (hrule : g.rule d = some r)
      (h : Runs g s silent (.rule r) pos (m.note d pos .matching) found m') :
      Runs g s silent (.definition d) pos m (recalled (asNode d pos found))
        (m'.note d pos (.answered (asNode d pos found)))

theorem matchToken_runs {g : Grammar δ} {s : TokenStream} {silent : Bool} {k : TokenKind}
    {pos : Nat} {m m' : Memory δ} {found : Match δ}
    (h : matchToken s silent k pos m = some (found, m')) :
    Runs g s silent (.rule (.token k)) pos m found m' := by
  unfold matchToken at h
  cases hget : s.get? pos with
  | none =>
      simp only [hget] at h
      obtain ⟨rfl, rfl⟩ := pure_eq_some h
      exact .pastEnd hget
  | some t =>
      simp only [hget] at h
      by_cases hkind : t.kind = k
      · rw [if_pos hkind] at h
        obtain ⟨rfl, rfl⟩ := pure_eq_some h
        exact .accepted hget hkind
      · rw [if_neg hkind] at h
        have hrefused : Runs g s silent (.rule (.token k)) pos m none
            (if silent then m else m.refuse pos k) := .refused hget hkind
        cases silent with
        | true =>
            have hpair : some (none, m) = some (found, m') := h
            cases hpair
            exact hrefused
        | false =>
            have hpair : some (none, m.refuse pos k) = some (found, m') := h
            cases hpair
            exact hrefused

/-- The four ways to answer a definition, given what the runs on its rule do. -/
theorem definition_runs {g : Grammar δ} {s : TokenStream} {fuel : Nat} {silent : Bool} {d : δ}
    {pos : Nat} {m m' : Memory δ} {found : Match δ}
    (hrun : ∀ {silent goal pos m m' found}, run g s fuel silent goal pos m = some (found, m') →
      Runs g s silent goal pos m found m')
    (h : run g s (fuel + 1) silent (.definition d) pos m = some (found, m')) :
    Runs g s silent (.definition d) pos m found m' := by
  rw [run] at h
  obtain ⟨_, _, hget, h⟩ := bind_eq_some h
  cases hget
  cases hstatus : m.chart.get? d pos with
  | some status =>
      cases status with
      | answered answer =>
          simp only [hstatus] at h
          obtain ⟨rfl, rfl⟩ := pure_eq_some h
          exact .remembered hstatus
      | matching =>
          simp only [hstatus] at h
          obtain ⟨rfl, rfl⟩ := pure_eq_some h
          exact .reentered hstatus
  | none =>
      simp only [hstatus] at h
      obtain ⟨_, _, henter, h⟩ := bind_eq_some h
      cases henter
      cases hrule : g.rule d with
      | none =>
          simp only [hrule] at h
          obtain ⟨_, _, hinner, h⟩ := bind_eq_some h
          obtain ⟨rfl, rfl⟩ := pure_eq_some hinner
          obtain ⟨_, _, hleave, h⟩ := bind_eq_some h
          cases hleave
          obtain ⟨rfl, rfl⟩ := pure_eq_some h
          exact .undefined hstatus hrule
      | some r =>
          simp only [hrule] at h
          obtain ⟨inner, m₁, hinner, h⟩ := bind_eq_some h
          obtain ⟨_, _, hleave, h⟩ := bind_eq_some h
          cases hleave
          obtain ⟨rfl, rfl⟩ := pure_eq_some h
          exact .defined hstatus hrule (hrun hinner)

/-- The matcher does nothing but what `Runs` lists. -/
theorem run_runs {g : Grammar δ} {s : TokenStream} {fuel : Nat} {silent : Bool} {goal : Goal δ}
    {pos : Nat} {m m' : Memory δ} {found : Match δ}
    (h : run g s fuel silent goal pos m = some (found, m')) :
    Runs g s silent goal pos m found m' := by
  induction fuel generalizing silent goal pos m m' found with
  | zero => simp [run] at h
  | succ fuel ih =>
      cases goal with
      | rule r =>
          cases r with
          | empty =>
              obtain ⟨rfl, rfl⟩ := pure_eq_some h
              exact .empty
          | token k => exact matchToken_runs h
          | ref d => exact .ref (ih h)
          | sequence rs => exact .sequence (ih h)
          | choice rs => exact .choice (ih h)
          | optional r =>
              obtain ⟨inner, m₁, hr, h⟩ := bind_eq_some h
              obtain ⟨rfl, rfl⟩ := pure_eq_some h
              exact .optional (ih hr)
          | list e sep least trailing =>
              obtain ⟨first, m₁, hfirst, h⟩ := bind_eq_some h
              cases first with
              | none =>
                  obtain ⟨rfl, rfl⟩ := pure_eq_some h
                  exact .noElement (ih hfirst)
              | some pair =>
                  obtain ⟨rest, m₂, hrest, h⟩ := bind_eq_some h
                  obtain ⟨rfl, rfl⟩ := pure_eq_some h
                  exact .elements (ih hfirst) (ih hrest)
          | notAhead r =>
              obtain ⟨inner, m₁, hr, h⟩ := bind_eq_some h
              obtain ⟨rfl, rfl⟩ := pure_eq_some h
              exact .notAhead (ih hr)
      | definition d => exact definition_runs ih h
      | all rs =>
          cases rs with
          | nil =>
              obtain ⟨rfl, rfl⟩ := pure_eq_some h
              exact .allNil
          | cons r rs =>
              obtain ⟨first, m₁, hfirst, h⟩ := bind_eq_some h
              cases first with
              | none =>
                  obtain ⟨rfl, rfl⟩ := pure_eq_some h
                  exact .allStop (ih hfirst)
              | some pair =>
                  obtain ⟨rest, m₂, hrest, h⟩ := bind_eq_some h
                  obtain ⟨rfl, rfl⟩ := pure_eq_some h
                  exact .allStep (ih hfirst) (ih hrest)
      | first rs =>
          cases rs with
          | nil =>
              obtain ⟨rfl, rfl⟩ := pure_eq_some h
              exact .firstNil
          | cons r rs =>
              obtain ⟨first, m₁, hfirst, h⟩ := bind_eq_some h
              cases first with
              | none => exact .firstMiss (ih hfirst) (ih h)
              | some pair =>
                  obtain ⟨rfl, rfl⟩ := pure_eq_some h
                  exact .firstHit (ih hfirst)
      | more e sep least trailing count =>
          obtain ⟨separators, m₁, hsep, h⟩ := bind_eq_some h
          cases separators with
          | none =>
              obtain ⟨rfl, rfl⟩ := pure_eq_some h
              exact .noSeparator (ih hsep)
          | some pair =>
              obtain ⟨element, m₂, helem, h⟩ := bind_eq_some h
              cases element with
              | none =>
                  obtain ⟨rfl, rfl⟩ := pure_eq_some h
                  exact .separatorOnly (ih hsep) (ih helem)
              | some next =>
                  dsimp only at h
                  split at h
                  · obtain ⟨rest, m₃, hrest, h⟩ := bind_eq_some h
                    obtain ⟨rfl, rfl⟩ := pure_eq_some h
                    exact .moreStep (ih hsep) (ih helem) ‹_› (ih hrest)
                  · obtain ⟨rfl, rfl⟩ := pure_eq_some h
                    exact .noProgress (ih hsep) (ih helem) ‹_›

/-- A tree that parsing gives comes from a run that ends right before the last token. -/
theorem parse_runs {g : Grammar δ} {s : TokenStream} {root : δ} {tree : RawTree δ}
    (h : parse g root s = .parsed tree) :
    ∃ trees m, Runs g s false (.definition root) 0 {} (some (trees, s.size - 1)) m ∧
      tree = .node none 0 s.size (trees ++ (s.get? (s.size - 1)).toList.map .leaf) := by
  unfold parse at h
  cases hrun : run g s (enoughFuel g s) false (.definition root) 0 {} with
  | none => simp [hrun] at h
  | some pair =>
      obtain ⟨found, m⟩ := pair
      cases found with
      | none => simp [hrun] at h
      | some pair =>
          obtain ⟨trees, p⟩ := pair
          simp only [hrun] at h
          split at h
          · next hp =>
              subst hp
              cases h
              exact ⟨trees, m, run_runs hrun, rfl⟩
          · cases h

end DualSyntax.Packrat
