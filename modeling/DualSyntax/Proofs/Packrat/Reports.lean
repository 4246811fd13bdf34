import DualSyntax.Proofs.Packrat.LeftCalls

/-!
# What a failure reports

`Traces` runs the rules of a grammar without a memory and lists, in order, the definitions asked for
and the tokens refused on the way, each marked as to whether it happens inside a lookahead.  The
failure that the matcher reports is the one read off this list, unless a definition is met inside a
lookahead first and outside of it, at the same position, later: what the lookahead remembers then
keeps the refusals of the definition from being noted.  Where lookaheads name no definitions, as in the
C# grammar, every report is complete.
-/

namespace DualSyntax

namespace Rule

variable {δ : Type}

mutual

/-- Whether the lookaheads in a rule name no definitions; `inside` says that the rule itself stands
in one. -/
def plainAhead (inside : Bool) : Rule δ → Bool
  | empty | token _ => true
  | ref _ => !inside
  | sequence rs | choice rs => plainAheadAll inside rs
  | optional r => plainAhead inside r
  | list e sep _ _ => plainAhead inside e && plainAheadOption inside sep
  | notAhead r => plainAhead true r

def plainAheadAll (inside : Bool) : List (Rule δ) → Bool
  | [] => true
  | r :: rs => plainAhead inside r && plainAheadAll inside rs

def plainAheadOption (inside : Bool) : Option (Rule δ) → Bool
  | none => true
  | some r => plainAhead inside r

end

end Rule

namespace Packrat

variable {δ : Type}

/-! ## Runs without a memory and what they try -/

/-- Something that a run does; what it does inside a lookahead is silent. -/
inductive Event (δ : Type) where
  /-- A definition was asked for at a position. -/
  | asked (silent : Bool) (d : δ) (pos : Nat)
  /-- A token of a kind was wanted at a position and another one stood there. -/
  | refused (silent : Bool) (pos : Nat) (k : TokenKind)
deriving DecidableEq

def Event.hushed : Event δ → Event δ
  | asked _ d pos => asked true d pos
  | refused _ pos k => refused true pos k

/-- What a run does, given whether the whole of it is inside a lookahead. -/
def heard (silent : Bool) (events : List (Event δ)) : List (Event δ) :=
  if silent then events.map .hushed else events

/-- What a goal gives at a position when every definition is matched afresh, and what is tried on
the way. -/
inductive Traces (g : Grammar δ) (s : TokenStream) :
    Goal δ → Nat → Match δ → List (Event δ) → Prop
  | empty {pos} : Traces g s (.rule .empty) pos (some ([], pos)) []
  | pastEnd {k pos} (hget : s.get? pos = none) : Traces g s (.rule (.token k)) pos none []
  | accepted {k pos t} (hget : s.get? pos = some t) (hkind : t.kind = k) :
      Traces g s (.rule (.token k)) pos (some ([.leaf t], pos + 1)) []
  | refused {k pos t} (hget : s.get? pos = some t) (hkind : t.kind ≠ k) :
      Traces g s (.rule (.token k)) pos none [.refused false pos k]
  | ref {d pos found es} (h : Traces g s (.definition d) pos found es) :
      Traces g s (.rule (.ref d)) pos found es
  | undefined {d pos} (hrule : g.rule d = none) :
      Traces g s (.definition d) pos none [.asked false d pos]
  | defined {d pos r found es} (hrule : g.rule d = some r) (h : Traces g s (.rule r) pos found es) :
      Traces g s (.definition d) pos (recalled (asNode d pos found)) (.asked false d pos :: es)
  | sequence {rs pos found es} (h : Traces g s (.all rs) pos found es) :
      Traces g s (.rule (.sequence rs)) pos found es
  | allNil {pos} : Traces g s (.all []) pos (some ([], pos)) []
  | allStop {r rs pos es} (h : Traces g s (.rule r) pos none es) :
      Traces g s (.all (r :: rs)) pos none es
  | allStep {r rs pos trees p es found es'}
      (hfirst : Traces g s (.rule r) pos (some (trees, p)) es)
      (hrest : Traces g s (.all rs) p found es') :
      Traces g s (.all (r :: rs)) pos (after trees found) (es ++ es')
  | choice {rs pos found es} (h : Traces g s (.first rs) pos found es) :
      Traces g s (.rule (.choice rs)) pos found es
  | firstNil {pos} : Traces g s (.first []) pos none []
  | firstHit {r rs pos found es} (h : Traces g s (.rule r) pos (some found) es) :
      Traces g s (.first (r :: rs)) pos (some found) es
  | firstMiss {r rs pos es found es'} (hmiss : Traces g s (.rule r) pos none es)
      (hrest : Traces g s (.first rs) pos found es') :
      Traces g s (.first (r :: rs)) pos found (es ++ es')
  | optional {r pos found es} (h : Traces g s (.rule r) pos found es) :
      Traces g s (.rule (.optional r)) pos (some (found.getD ([], pos))) es
  | notAhead {r pos found es} (h : Traces g s (.rule r) pos found es) :
      Traces g s (.rule (.notAhead r)) pos (if found.isSome then none else some ([], pos))
        (heard true es)
  | noElement {e sep least trailing pos es} (h : Traces g s (.rule e) pos none es) :
      Traces g s (.rule (.list e sep least trailing)) pos
        (if least = 0 then some ([], pos) else none) es
  | elements {e sep least trailing pos trees p es found es'}
      (hfirst : Traces g s (.rule e) pos (some (trees, p)) es)
      (hmore : Traces g s (.more e sep least trailing 1) p found es') :
      Traces g s (.rule (.list e sep least trailing)) pos (after trees found) (es ++ es')
  | noSeparator {e sep least trailing count pos es}
      (h : Traces g s (.rule (between sep)) pos none es) :
      Traces g s (.more e sep least trailing count) pos (endOfList least count [] pos) es
  | separatorOnly {e sep least trailing count pos separators p es es'}
      (hsep : Traces g s (.rule (between sep)) pos (some (separators, p)) es)
      (helem : Traces g s (.rule e) p none es') :
      Traces g s (.more e sep least trailing count) pos
        (if sep.isSome && trailing then endOfList least count separators p
          else endOfList least count [] pos) (es ++ es')
  | noProgress {e sep least trailing count pos separators p es trees q es'}
      (hsep : Traces g s (.rule (between sep)) pos (some (separators, p)) es)
      (helem : Traces g s (.rule e) p (some (trees, q)) es') (hstuck : ¬ pos < q) :
      Traces g s (.more e sep least trailing count) pos (endOfList least count [] pos) (es ++ es')
  | moreStep {e sep least trailing count pos separators p es trees q es' found es''}
      (hsep : Traces g s (.rule (between sep)) pos (some (separators, p)) es)
      (helem : Traces g s (.rule e) p (some (trees, q)) es') (hlt : pos < q)
      (hmore : Traces g s (.more e sep least trailing (count + 1)) q found es'') :
      Traces g s (.more e sep least trailing count) pos (after (separators ++ trees) found)
        (es ++ es' ++ es'')

section Traces

variable {g : Grammar δ} {s : TokenStream} {goal : Goal δ} {pos : Nat}

theorem Evaluates.exists_traces {found : Match δ} (h : Evaluates g s goal pos found) :
    ∃ es, Traces g s goal pos found es := by
  induction h with
  | empty => exact ⟨_, .empty⟩
  | pastEnd hget => exact ⟨_, .pastEnd hget⟩
  | accepted hget hkind => exact ⟨_, .accepted hget hkind⟩
  | refused hget hkind => exact ⟨_, .refused hget hkind⟩
  | undefined hrule => exact ⟨_, .undefined hrule⟩
  | allNil => exact ⟨_, .allNil⟩
  | firstNil => exact ⟨_, .firstNil⟩
  | ref _ ih => exact ih.imp fun _ => .ref
  | defined hrule _ ih => exact ih.elim fun _ h => ⟨_, .defined hrule h⟩
  | sequence _ ih => exact ih.imp fun _ => .sequence
  | choice _ ih => exact ih.imp fun _ => .choice
  | optional _ ih => exact ih.imp fun _ => .optional
  | notAhead _ ih => exact ih.elim fun _ h => ⟨_, .notAhead h⟩
  | allStop _ ih => exact ih.imp fun _ => .allStop
  | firstHit _ ih => exact ih.imp fun _ => .firstHit
  | noElement _ ih => exact ih.imp fun _ => .noElement
  | noSeparator _ ih => exact ih.imp fun _ => .noSeparator
  | allStep _ _ ihfirst ihrest =>
      obtain ⟨⟨_, hfirst⟩, _, hrest⟩ := And.intro ihfirst ihrest
      exact ⟨_, .allStep hfirst hrest⟩
  | firstMiss _ _ ihmiss ihrest =>
      obtain ⟨⟨_, hmiss⟩, _, hrest⟩ := And.intro ihmiss ihrest
      exact ⟨_, .firstMiss hmiss hrest⟩
  | elements _ _ ihfirst ihmore =>
      obtain ⟨⟨_, hfirst⟩, _, hmore⟩ := And.intro ihfirst ihmore
      exact ⟨_, .elements hfirst hmore⟩
  | separatorOnly _ _ ihsep ihelem =>
      obtain ⟨⟨_, hsep⟩, _, helem⟩ := And.intro ihsep ihelem
      exact ⟨_, .separatorOnly hsep helem⟩
  | noProgress _ _ hstuck ihsep ihelem =>
      obtain ⟨⟨_, hsep⟩, _, helem⟩ := And.intro ihsep ihelem
      exact ⟨_, .noProgress hsep helem hstuck⟩
  | moreStep _ _ hlt _ ihsep ihelem ihmore =>
      obtain ⟨⟨_, hsep⟩, ⟨_, helem⟩, _, hmore⟩ := And.intro ihsep (And.intro ihelem ihmore)
      exact ⟨_, .moreStep hsep helem hlt hmore⟩

/-- A goal gives at most one thing at a position, trying the same on the way. -/
theorem Traces.unique {a b : Match δ} {es es' : List (Event δ)} (ha : Traces g s goal pos a es)
    (hb : Traces g s goal pos b es') : a = b ∧ es = es' := by
  induction ha generalizing b es' with
  | empty | allNil | firstNil => cases hb; exact ⟨rfl, rfl⟩
  | pastEnd hget =>
      cases hb with
      | pastEnd => exact ⟨rfl, rfl⟩
      | accepted hget' | refused hget' => cases hget.symm.trans hget'
  | accepted hget hkind =>
      cases hb with
      | pastEnd hget' => cases hget.symm.trans hget'
      | accepted hget' => cases hget.symm.trans hget'; exact ⟨rfl, rfl⟩
      | refused hget' hne => cases hget.symm.trans hget'; exact absurd hkind hne
  | refused hget hne =>
      cases hb with
      | pastEnd hget' => cases hget.symm.trans hget'
      | accepted hget' hkind => cases hget.symm.trans hget'; exact absurd hkind hne
      | refused => exact ⟨rfl, rfl⟩
  | ref _ ih =>
      cases hb with
      | ref hb => exact ih hb
  | sequence _ ih =>
      cases hb with
      | sequence hb => exact ih hb
  | choice _ ih =>
      cases hb with
      | choice hb => exact ih hb
  | undefined hrule =>
      cases hb with
      | undefined => exact ⟨rfl, rfl⟩
      | defined hrule' => cases hrule.symm.trans hrule'
  | defined hrule _ ih =>
      cases hb with
      | undefined hrule' => cases hrule.symm.trans hrule'
      | defined hrule' hb =>
          cases hrule.symm.trans hrule'
          obtain ⟨rfl, rfl⟩ := ih hb
          exact ⟨rfl, rfl⟩
  | optional _ ih =>
      cases hb with
      | optional hb =>
          obtain ⟨rfl, rfl⟩ := ih hb
          exact ⟨rfl, rfl⟩
  | notAhead _ ih =>
      cases hb with
      | notAhead hb =>
          obtain ⟨rfl, rfl⟩ := ih hb
          exact ⟨rfl, rfl⟩
  | allStop _ ih =>
      cases hb with
      | allStop hb => exact ⟨rfl, (ih hb).2⟩
      | allStep hb => cases (ih hb).1
  | allStep _ _ ihfirst ihrest =>
      cases hb with
      | allStop hb => cases (ihfirst hb).1
      | allStep hfirst hrest =>
          obtain ⟨⟨⟩, rfl⟩ := ihfirst hfirst
          obtain ⟨rfl, rfl⟩ := ihrest hrest
          exact ⟨rfl, rfl⟩
  | firstHit _ ih =>
      cases hb with
      | firstHit hb => exact ih hb
      | firstMiss hb => cases (ih hb).1
  | firstMiss _ _ ihmiss ihrest =>
      cases hb with
      | firstHit hb => cases (ihmiss hb).1
      | firstMiss hmiss hrest =>
          obtain ⟨-, rfl⟩ := ihmiss hmiss
          obtain ⟨rfl, rfl⟩ := ihrest hrest
          exact ⟨rfl, rfl⟩
  | noElement _ ih =>
      cases hb with
      | noElement hb => exact ⟨rfl, (ih hb).2⟩
      | elements hb => cases (ih hb).1
  | elements _ _ ihfirst ihmore =>
      cases hb with
      | noElement hb => cases (ihfirst hb).1
      | elements hfirst hmore =>
          obtain ⟨⟨⟩, rfl⟩ := ihfirst hfirst
          obtain ⟨rfl, rfl⟩ := ihmore hmore
          exact ⟨rfl, rfl⟩
  | noSeparator _ ih =>
      cases hb with
      | noSeparator hb => exact ⟨rfl, (ih hb).2⟩
      | separatorOnly hb | noProgress hb | moreStep hb => cases (ih hb).1
  | separatorOnly _ _ ihsep ihelem =>
      cases hb with
      | noSeparator hb => cases (ihsep hb).1
      | separatorOnly hsep helem =>
          obtain ⟨⟨⟩, rfl⟩ := ihsep hsep
          exact ⟨rfl, by rw [(ihelem helem).2]⟩
      | noProgress hsep helem | moreStep hsep helem =>
          obtain ⟨⟨⟩, -⟩ := ihsep hsep
          cases (ihelem helem).1
  | noProgress _ _ hstuck ihsep ihelem =>
      cases hb with
      | noSeparator hb => cases (ihsep hb).1
      | separatorOnly hsep helem =>
          obtain ⟨⟨⟩, -⟩ := ihsep hsep
          cases (ihelem helem).1
      | noProgress hsep helem =>
          obtain ⟨⟨⟩, rfl⟩ := ihsep hsep
          exact ⟨rfl, by rw [(ihelem helem).2]⟩
      | moreStep hsep helem hlt =>
          obtain ⟨⟨⟩, -⟩ := ihsep hsep
          cases (ihelem helem).1
          exact absurd hlt hstuck
  | moreStep _ _ hlt _ ihsep ihelem ihmore =>
      cases hb with
      | noSeparator hb => cases (ihsep hb).1
      | separatorOnly hsep helem =>
          obtain ⟨⟨⟩, -⟩ := ihsep hsep
          cases (ihelem helem).1
      | noProgress hsep helem hstuck =>
          obtain ⟨⟨⟩, -⟩ := ihsep hsep
          cases (ihelem helem).1
          exact absurd hlt hstuck
      | moreStep hsep helem _ hmore =>
          obtain ⟨⟨⟩, rfl⟩ := ihsep hsep
          obtain ⟨⟨⟩, rfl⟩ := ihelem helem
          obtain ⟨rfl, rfl⟩ := ihmore hmore
          exact ⟨rfl, rfl⟩

end Traces

/-! ## Reports -/

def Event.refusal? : Event δ → Option (Nat × TokenKind)
  | refused false pos k => some (pos, k)
  | _ => none

/-- The refusals outside lookaheads, in order. -/
def loud (events : List (Event δ)) : List (Nat × TokenKind) := events.filterMap Event.refusal?

def furthestOf (refusals : List (Nat × TokenKind)) : Nat :=
  (refusals.map Prod.fst).foldr max 0

/-- The kinds refused at a position, without repetitions and in the order first tried. -/
def wantedAt (pos : Nat) (refusals : List (Nat × TokenKind)) : List TokenKind :=
  ((refusals.filter (·.1 == pos)).map Prod.snd).eraseDups

/-- The failure of a parse that has met some refusals: the furthest position reached, by a refusal
or by the match of a prefix, with what was wanted there. -/
def report (found : Match δ) (refusals : List (Nat × TokenKind)) : Failure :=
  let position := max (furthestOf refusals) (found.elim 0 Prod.snd)
  ⟨position, wantedAt position refusals ++ if found.any (·.2 == position) then [.eof] else []⟩

/-- Whatever is met inside a lookahead and then, at the same position, outside of one was met outside
of one before. -/
def Fair (events : List (Event δ)) : Prop :=
  ∀ d p xs ys, events = xs ++ .asked true d p :: ys → .asked false d p ∈ ys → .asked false d p ∈ xs

/-- A definition was met inside a lookahead first. -/
def Hidden (events : List (Event δ)) (d : δ) (p : Nat) : Prop :=
  ∃ xs ys, events = xs ++ .asked true d p :: ys ∧ .asked false d p ∉ xs

section Events

variable {events more : List (Event δ)} {d : δ} {p : Nat}

@[simp] theorem heard_false (events : List (Event δ)) : heard false events = events := rfl

@[simp] theorem heard_nil (silent : Bool) : heard silent ([] : List (Event δ)) = [] := by
  cases silent <;> rfl

@[simp] theorem heard_append (silent : Bool) (events more : List (Event δ)) :
    heard silent (events ++ more) = heard silent events ++ heard silent more := by
  cases silent <;> simp [heard]

@[simp] theorem heard_asked_cons (silent : Bool) (d : δ) (p : Nat) (events : List (Event δ)) :
    heard silent (.asked false d p :: events) = .asked silent d p :: heard silent events := by
  cases silent <;> rfl

@[simp] theorem heard_heard_true (silent : Bool) (events : List (Event δ)) :
    heard silent (heard true events) = heard true events := by
  cases silent with
  | false => rfl
  | true =>
      simp only [heard, if_true, List.map_map]
      refine List.map_congr_left fun e _ => ?_
      cases e <;> rfl

/-- The same definitions are asked for, inside a lookahead or not. -/
theorem asked_heard (silent : Bool) (h : ∃ quiet, Event.asked quiet d p ∈ events) :
    ∃ quiet, Event.asked quiet d p ∈ heard silent events := by
  cases silent with
  | false => exact h
  | true =>
      obtain ⟨quiet, h⟩ := h
      exact ⟨true, List.mem_map_of_mem (f := Event.hushed) h⟩

theorem asked_of_heard {silent : Bool} (h : ∃ quiet, Event.asked quiet d p ∈ heard silent events) :
    ∃ quiet, Event.asked quiet d p ∈ events := by
  cases silent with
  | false => exact h
  | true =>
      obtain ⟨quiet, h⟩ := h
      obtain ⟨e, he, heq⟩ := List.mem_map.mp h
      cases e with
      | asked q e' p' => cases heq; exact ⟨q, he⟩
      | refused => cases heq

@[simp] theorem loud_nil : loud ([] : List (Event δ)) = [] := rfl

@[simp] theorem loud_append (events more : List (Event δ)) :
    loud (events ++ more) = loud events ++ loud more := List.filterMap_append

@[simp] theorem loud_asked_cons (silent : Bool) (d : δ) (p : Nat) (events : List (Event δ)) :
    loud (.asked silent d p :: events) = loud events := rfl

@[simp] theorem loud_heard_true (events : List (Event δ)) : loud (heard true events) = [] := by
  simp only [loud, heard, if_true, List.filterMap_map, List.filterMap_eq_nil_iff]
  intro e _
  cases e <;> rfl

/-- The beginning of a fair run is fair. -/
theorem Fair.left (h : Fair (events ++ more)) : Fair events := by
  rintro d p xs ys rfl hmem
  exact h d p xs (ys ++ more) (by simp) (List.mem_append_left more hmem)

/-- In a fair run, what was met inside a lookahead first is not met outside of one. -/
theorem Fair.not_hidden (h : Fair (events ++ .asked false d p :: more)) : ¬ Hidden events d p := by
  rintro ⟨xs, ys, rfl, hnot⟩
  exact hnot (h d p xs (ys ++ .asked false d p :: more) (by simp) (by simp))

theorem Hidden.append (h : Hidden events d p) (more : List (Event δ)) :
    Hidden (events ++ more) d p := by
  obtain ⟨xs, ys, rfl, hnot⟩ := h
  exact ⟨xs, ys ++ more, by simp, hnot⟩

end Events

/-! ### What the memory notes -/

theorem furthestOf_append (rs rs' : List (Nat × TokenKind)) :
    furthestOf (rs ++ rs') = max (furthestOf rs) (furthestOf rs') := by
  induction rs with
  | nil => exact (Nat.zero_max _).symm
  | cons r rs ih =>
      change max r.1 (furthestOf (rs ++ rs')) = max (max r.1 (furthestOf rs)) (furthestOf rs')
      rw [ih, Nat.max_assoc]

theorem furthestOf_le_iff {rs : List (Nat × TokenKind)} {n : Nat} :
    furthestOf rs ≤ n ↔ ∀ r ∈ rs, r.1 ≤ n := by
  induction rs with
  | nil => simp [furthestOf]
  | cons r rs ih =>
      change max r.1 (furthestOf rs) ≤ n ↔ _
      rw [Nat.max_le, ih, List.forall_mem_cons]

theorem le_furthestOf {rs : List (Nat × TokenKind)} {r : Nat × TokenKind} (h : r ∈ rs) :
    r.1 ≤ furthestOf rs :=
  furthestOf_le_iff.mp (Nat.le_refl _) r h

theorem wantedAt_beyond {rs : List (Nat × TokenKind)} {pos : Nat} (h : furthestOf rs < pos) :
    wantedAt pos rs = [] := by
  have hnone : rs.filter (·.1 == pos) = [] := by
    rw [List.filter_eq_nil_iff]
    intro r hr heq
    have := le_furthestOf hr
    have := eq_of_beq heq
    omega
  rw [wantedAt, hnone]
  rfl

theorem mem_wantedAt {rs : List (Nat × TokenKind)} {pos : Nat} {k : TokenKind} :
    k ∈ wantedAt pos rs ↔ (pos, k) ∈ rs := by
  rw [wantedAt, List.mem_eraseDups, List.mem_map]
  constructor
  · rintro ⟨⟨p, k⟩, hr, rfl⟩
    obtain ⟨hr, hp⟩ := List.mem_filter.mp hr
    rw [← (eq_of_beq hp : p = pos)]
    exact hr
  · intro h
    exact ⟨(pos, k), List.mem_filter.mpr ⟨h, beq_self_eq_true pos⟩, rfl⟩

/-- Refusals that were met before add nothing. -/
theorem wantedAt_append_of_subset {rs rs' : List (Nat × TokenKind)} (h : rs' ⊆ rs) (pos : Nat) :
    wantedAt pos (rs ++ rs') = wantedAt pos rs := by
  have hold : (((rs'.filter (·.1 == pos)).map Prod.snd).removeAll
      ((rs.filter (·.1 == pos)).map Prod.snd)) = [] := by
    rw [List.removeAll, List.filter_eq_nil_iff]
    intro k hk
    obtain ⟨r, hr, rfl⟩ := List.mem_map.mp hk
    have : r.2 ∈ (rs.filter (·.1 == pos)).map Prod.snd :=
      List.mem_map_of_mem (List.filter_subset _ h hr)
    simpa using this
  rw [wantedAt, List.filter_append, List.map_append, List.eraseDups_append, hold]
  simp [wantedAt]

/-- A refusal at the position that was not met before comes last. -/
theorem wantedAt_append_new {rs : List (Nat × TokenKind)} {pos : Nat} {k : TokenKind}
    (h : (pos, k) ∉ rs) : wantedAt pos (rs ++ [(pos, k)]) = wantedAt pos rs ++ [k] := by
  have hnew : k ∉ (rs.filter (·.1 == pos)).map Prod.snd := by
    rw [← List.mem_eraseDups]
    exact fun hk => h (mem_wantedAt.mp hk)
  have hkeep : [k].removeAll ((rs.filter (·.1 == pos)).map Prod.snd) = [k] := by
    simp only [List.removeAll, List.filter_cons, List.filter_nil]
    rw [if_pos (by simpa using hnew)]
  have hself : [(pos, k)].filter (·.1 == pos) = [(pos, k)] := by simp
  rw [wantedAt, List.filter_append, List.map_append, List.eraseDups_append, hself, List.map_singleton,
    hkeep]
  rfl

theorem wantedAt_append_elsewhere {rs : List (Nat × TokenKind)} {pos p : Nat} {k : TokenKind}
    (h : p ≠ pos) : wantedAt pos (rs ++ [(p, k)]) = wantedAt pos rs := by
  simp [wantedAt, List.filter_append, h]

/-- The memory holds the furthest of some refusals and what was wanted there. -/
structure Memory.Reports (m : Memory δ) (refusals : List (Nat × TokenKind)) : Prop where
  furthest : m.furthest = furthestOf refusals
  wanted : m.wanted = wantedAt m.furthest refusals

theorem Memory.Reports.refuse {m : Memory δ} {rs : List (Nat × TokenKind)} (h : m.Reports rs)
    (pos : Nat) (k : TokenKind) : (m.refuse pos k).Reports (rs ++ [(pos, k)]) := by
  have hfurthest : furthestOf (rs ++ [(pos, k)]) = max m.furthest pos := by
    rw [furthestOf_append, ← h.furthest]
    simp [furthestOf]
  unfold Memory.refuse
  by_cases hlt : m.furthest < pos
  · have hnew : (pos, k) ∉ rs := fun hmem => by
      have := le_furthestOf hmem
      rw [← h.furthest] at this
      omega
    have hempty : wantedAt pos rs = [] := wantedAt_beyond (h.furthest ▸ hlt)
    simp only [hlt, if_true]
    exact ⟨by simpa using (Nat.max_eq_right (Nat.le_of_lt hlt)).symm.trans hfurthest.symm,
      by simp [wantedAt_append_new hnew, hempty]⟩
  · have hmax : max m.furthest pos = m.furthest := Nat.max_eq_left (Nat.le_of_not_lt hlt)
    simp only [hlt, if_false]
    by_cases hpos : pos = m.furthest
    · subst hpos
      by_cases hmem : (m.furthest, k) ∈ rs
      · have hk : k ∈ m.wanted := by rw [h.wanted]; exact mem_wantedAt.mpr hmem
        rw [if_neg (by simpa using hk)]
        refine ⟨hmax.symm.trans hfurthest.symm, ?_⟩
        rw [wantedAt_append_of_subset (by simpa using hmem)]
        exact h.wanted
      · have hk : k ∉ m.wanted := by
          rw [h.wanted]
          exact fun hk => hmem (mem_wantedAt.mp hk)
        rw [if_pos (by simpa using hk)]
        exact ⟨hmax.symm.trans hfurthest.symm, by
          rw [wantedAt_append_new hmem, ← h.wanted]⟩
    · rw [if_neg (by simp [hpos])]
      exact ⟨hmax.symm.trans hfurthest.symm, by
        rw [wantedAt_append_elsewhere hpos]; exact h.wanted⟩

theorem Memory.Reports.note {m : Memory δ} {rs : List (Nat × TokenKind)} (h : m.Reports rs) (d : δ)
    (pos : Nat) (status : Status δ) : (m.note d pos status).Reports rs :=
  ⟨h.furthest, h.wanted⟩

/-- Refusals that were met before change nothing. -/
theorem Memory.Reports.again {m : Memory δ} {rs rs' : List (Nat × TokenKind)} (h : m.Reports rs)
    (hsub : rs' ⊆ rs) : m.Reports (rs ++ rs') := by
  have hle : furthestOf rs' ≤ furthestOf rs :=
    furthestOf_le_iff.mpr fun _ hr => le_furthestOf (hsub hr)
  refine ⟨?_, ?_⟩
  · rw [furthestOf_append, Nat.max_eq_left hle]
    exact h.furthest
  · rw [wantedAt_append_of_subset hsub]
    exact h.wanted

/-- The report of a parse whose root definition failed. -/
theorem Memory.Reports.failed {m : Memory δ} {rs : List (Nat × TokenKind)} (h : m.Reports rs) :
    ⟨m.furthest, m.wanted⟩ = report (none : Match δ) rs := by
  simp [report, ← h.furthest, h.wanted]

/-- The report of a parse whose root definition matched a prefix. -/
theorem Memory.Reports.stopped {m : Memory δ} {rs : List (Nat × TokenKind)} (h : m.Reports rs)
    (trees : List (RawTree δ)) (p : Nat) :
    (let m := if m.furthest < p then { m with furthest := p, wanted := [] } else m;
      ⟨m.furthest, if p = m.furthest then m.wanted ++ [.eof] else m.wanted⟩) =
      report (some (trees, p)) rs := by
  by_cases hlt : m.furthest < p
  · have hmax : max (furthestOf rs) p = p := Nat.max_eq_right (by rw [← h.furthest]; omega)
    have hempty : wantedAt p rs = [] := wantedAt_beyond (h.furthest ▸ hlt)
    simp [report, hlt, hmax, hempty]
  · have hmax : max (furthestOf rs) p = m.furthest := by
      rw [← h.furthest]
      exact Nat.max_eq_left (Nat.le_of_not_lt hlt)
    simp only [hlt, if_false, report, Option.elim_some, hmax, Option.any_some, beq_iff_eq, ← h.wanted]
    split <;> simp

/-! ## The memory along a run -/

section Runs

variable [BEq δ] {g : Grammar δ} {s : TokenStream} {m m' : Memory δ} {before : List (Event δ)}
  {goal : Goal δ} {pos : Nat}

/-- Something is known of a definition at a position. -/
def Memory.Knows (m : Memory δ) (d : δ) (p : Nat) : Prop := (m.chart.get? d p).isSome

/-- Something is known of every definition that was asked for. -/
def Memory.KnowsAll (m : Memory δ) (events : List (Event δ)) : Prop :=
  ∀ d p, (∃ silent, .asked silent d p ∈ events) → m.Knows d p

/-- The memory holds what a run so far has met: its refusals and something of all definitions asked
for.  The refusals of an answered definition were noted, unless a lookahead met it first. -/
structure Memory.Recorded (g : Grammar δ) (s : TokenStream) (m : Memory δ)
    (before : List (Event δ)) : Prop where
  reports : m.Reports (loud before)
  knows : m.KnowsAll before
  answers : ∀ d p answer, m.chart.get? d p = some (.answered answer) →
    ∀ es, Traces g s (.definition d) p (recalled answer) es →
      m.KnowsAll es ∧ (Hidden before d p ∨ loud es ⊆ loud before)

/-- What is met from one memory to another is noted, as long as the whole run is fair. -/
structure Records (g : Grammar δ) (s : TokenStream) (m : Memory δ) (es : List (Event δ))
    (m' : Memory δ) : Prop where
  keeps : ∀ d p, m.Knows d p → m'.Knows d p
  notes : ∀ before, m.Recorded g s before → Fair (before ++ es) → m'.Recorded g s (before ++ es)

theorem Records.refl (m : Memory δ) : Records g s m [] m where
  keeps _ _ h := h
  notes before h _ := by rwa [List.append_nil]

theorem Records.trans {m₁ m₂ m₃ : Memory δ} {es es' : List (Event δ)}
    (h₁ : Records g s m₁ es m₂) (h₂ : Records g s m₂ es' m₃) :
    Records g s m₁ (es ++ es') m₃ where
  keeps d p h := h₂.keeps d p (h₁.keeps d p h)
  notes before h hfair := by
    rw [← List.append_assoc] at hfair ⊢
    exact h₂.notes _ (h₁.notes before h hfair.left) hfair

theorem Memory.KnowsAll.append {es es' : List (Event δ)} (h : m.KnowsAll es)
    (h' : m.KnowsAll es') : m.KnowsAll (es ++ es') := by
  rintro d p ⟨silent, hmem⟩
  obtain hmem | hmem := List.mem_append.mp hmem
  · exact h d p ⟨silent, hmem⟩
  · exact h' d p ⟨silent, hmem⟩

theorem Records.refuse (silent : Bool) (m : Memory δ) (pos : Nat) (k : TokenKind) :
    Records g s m (heard silent [.refused false pos k]) (if silent then m else m.refuse pos k) := by
  have hasks : ∀ (d : δ) p, ¬ ∃ quiet,
      Event.asked quiet d p ∈ heard silent [.refused false pos k] := by
    rintro d p ⟨quiet, h⟩
    cases silent <;> simp [heard, Event.hushed] at h
  have hchart : (if silent then m else m.refuse pos k).chart = m.chart := by
    cases silent
    · exact m.refuse_chart pos k
    · rfl
  refine ⟨fun d p h => by rwa [Memory.Knows, hchart], fun before h _ => ⟨?_, ?_, ?_⟩⟩
  · cases silent with
    | true => simpa using h.reports
    | false => simpa [loud, Event.refusal?] using h.reports.refuse pos k
  · rintro d p ⟨quiet, hmem⟩
    obtain hmem | hmem := List.mem_append.mp hmem
    · simpa [Memory.Knows, hchart] using h.knows d p ⟨quiet, hmem⟩
    · exact absurd ⟨quiet, hmem⟩ (hasks d p)
  · intro d p answer ha es hes
    obtain ⟨hknows, hmet⟩ := h.answers d p answer (hchart ▸ ha) es hes
    refine ⟨fun e q he => by simpa [Memory.Knows, hchart] using hknows e q he, ?_⟩
    rw [loud_append]
    exact hmet.imp (·.append _) fun hsub _ hr => List.mem_append_left _ (hsub hr)

/-- A remembered definition was asked for: outside of lookaheads its refusals were noted before. -/
theorem Records.remembered {silent : Bool} {d : δ} {answer : Option (RawTree δ × Nat)}
    {es : List (Event δ)} (h : m.chart.get? d pos = some (.answered answer))
    (htrace : Traces g s (.definition d) pos (recalled answer) (.asked false d pos :: es)) :
    Records g s m (heard silent (.asked false d pos :: es)) m := by
  refine ⟨fun _ _ h => h, fun before hm hfair => ?_⟩
  obtain ⟨hknows, hmet⟩ := hm.answers d pos answer h _ htrace
  refine ⟨?_, hm.knows.append fun e q he => hknows e q (asked_of_heard he), ?_⟩
  · cases silent with
    | true => simpa using hm.reports
    | false =>
        have hsub := hmet.resolve_left hfair.not_hidden
        simpa using hm.reports.again hsub
  · intro e q answer' ha es' hes'
    obtain ⟨hknows', hmet'⟩ := hm.answers e q answer' ha es' hes'
    refine ⟨hknows', ?_⟩
    rw [loud_append]
    exact hmet'.imp (·.append _) fun hsub _ hr => List.mem_append_left _ (hsub hr)

variable [LawfulBEq δ]

theorem Memory.Knows.note {d e : δ} {p q : Nat} (h : m.Knows d p) (status : Status δ) :
    (m.note e q status).Knows d p := by
  by_cases hkey : (e, q) = (d, p)
  · cases hkey
    simp [Memory.Knows, Memory.note]
  · rw [Memory.Knows, Memory.note, Chart.get?_set_of_ne _ _ hkey]
    exact h

theorem Memory.knows_note (m : Memory δ) (d : δ) (p : Nat) (status : Status δ) :
    (m.note d p status).Knows d p := by
  simp [Memory.Knows, Memory.note]

/-- A definition that nothing is known of is asked for. -/
theorem Records.ask {d : δ} (silent : Bool) :
    Records g s m [.asked silent d pos] (m.note d pos .matching) := by
  refine ⟨fun e q h => h.note _, fun before h _ => ⟨?_, ?_, ?_⟩⟩
  · simpa using h.reports.note d pos .matching
  · refine Memory.KnowsAll.append (fun e q he => (h.knows e q he).note _) ?_
    rintro e q ⟨quiet, hmem⟩
    cases List.mem_singleton.mp hmem
    exact m.knows_note d pos _
  · intro e q answer ha es hes
    by_cases hkey : (d, pos) = (e, q)
    · cases hkey
      simp [Memory.note] at ha
    · rw [Memory.note, Chart.get?_set_of_ne _ _ hkey] at ha
      obtain ⟨hknows, hmet⟩ := h.answers e q answer ha es hes
      refine ⟨fun f r hf => (hknows f r hf).note _, ?_⟩
      simpa using hmet.imp_left (·.append [.asked silent d pos])

/-- The answer of a definition is noted after its rule has run. -/
theorem Records.answer {silent : Bool} {d : δ} {answer : Option (RawTree δ × Nat)}
    {es : List (Event δ)} (hnew : m.chart.get? d pos = none)
    (htrace : Traces g s (.definition d) pos (recalled answer) (.asked false d pos :: es))
    (h : Records g s (m.note d pos .matching) (heard silent es) m') :
    Records g s m (heard silent (.asked false d pos :: es)) (m'.note d pos (.answered answer)) := by
  have hrun : Records g s m ([.asked silent d pos] ++ heard silent es) m' :=
    (Records.ask silent).trans h
  rw [heard_asked_cons, ← List.singleton_append]
  refine ⟨fun e q he => (hrun.keeps e q he).note _, fun before hm hfair => ?_⟩
  have hm' := hrun.notes before hm hfair
  refine ⟨hm'.reports.note d pos _, fun e q he => (hm'.knows e q he).note _, ?_⟩
  intro e q answer' ha es' hes'
  by_cases hkey : (d, pos) = (e, q)
  · cases hkey
    rw [Memory.note, Chart.get?_set_self] at ha
    cases ha
    obtain ⟨-, rfl⟩ := htrace.unique hes'
    constructor
    · intro f r hf
      have hheard := asked_heard silent hf
      rw [heard_asked_cons, ← List.singleton_append] at hheard
      obtain ⟨quiet, hmem⟩ := hheard
      exact (hm'.knows f r ⟨quiet, List.mem_append_right before hmem⟩).note _
    · cases silent with
      | true =>
          -- nothing was known of the definition, so it was not met before
          left
          refine ⟨before, heard true es, rfl, fun hmem => ?_⟩
          have := hm.knows d pos ⟨false, hmem⟩
          simp [Memory.Knows, hnew] at this
      | false =>
          right
          simp
  · rw [Memory.note, Chart.get?_set_of_ne _ _ hkey] at ha
    obtain ⟨hknows, hmet⟩ := hm'.answers e q answer' ha es' hes'
    exact ⟨fun f r hf => (hknows f r hf).note _, hmet⟩

/-- Without left recursion a run notes what the goal meets when it is run without a memory. -/
theorem Runs.records (hfree : ¬ LeftRecursive g s) {silent : Bool} {found : Match δ}
    (h : Runs g s silent goal pos m found m') (hm : m.Sound g s) (hlead : m.Leads g s goal pos) :
    ∃ es, Traces g s goal pos found es ∧ Records g s m (heard silent es) m' := by
  induction h with
  | empty => exact ⟨_, .empty, by simpa using .refl _⟩
  | pastEnd hget => exact ⟨_, .pastEnd hget, by simpa using .refl _⟩
  | accepted hget hkind => exact ⟨_, .accepted hget hkind, by simpa using .refl _⟩
  | refused hget hkind => exact ⟨_, .refused hget hkind, .refuse _ _ _ _⟩
  | ref _ ih =>
      obtain ⟨es, htrace, hrec⟩ := ih hm (hlead.part (.refl _) .ref)
      exact ⟨es, .ref htrace, hrec⟩
  | sequence _ ih =>
      obtain ⟨es, htrace, hrec⟩ := ih hm (hlead.part (.refl _) .sequence)
      exact ⟨es, .sequence htrace, hrec⟩
  | choice _ ih =>
      obtain ⟨es, htrace, hrec⟩ := ih hm (hlead.part (.refl _) .choice)
      exact ⟨es, .choice htrace, hrec⟩
  | optional _ ih =>
      obtain ⟨es, htrace, hrec⟩ := ih hm (hlead.part (.refl _) .optional)
      exact ⟨es, .optional htrace, hrec⟩
  | notAhead _ ih =>
      obtain ⟨es, htrace, hrec⟩ := ih hm (hlead.part (.refl _) .notAhead)
      exact ⟨_, .notAhead htrace, by simpa using hrec⟩
  | noElement _ ih =>
      obtain ⟨es, htrace, hrec⟩ := ih hm (hlead.part (.refl _) .element)
      exact ⟨es, .noElement htrace, hrec⟩
  | elements hfirst _ ihfirst ihmore =>
      have hlead₁ := hlead.part (.refl _) .element
      obtain ⟨he, hm₁, hsame₁⟩ := hfirst.evaluates hfree hm hlead₁
      obtain ⟨es, htrace, hrec⟩ := ihfirst hm hlead₁
      obtain ⟨es', htrace', hrec'⟩ := ihmore hm₁ (hlead.part hsame₁ (.elements he))
      exact ⟨_, .elements htrace htrace', by simpa using hrec.trans hrec'⟩
  | allNil => exact ⟨_, .allNil, by simpa using .refl _⟩
  | allStop _ ih =>
      obtain ⟨es, htrace, hrec⟩ := ih hm (hlead.part (.refl _) .allFirst)
      exact ⟨es, .allStop htrace, hrec⟩
  | allStep hfirst _ ihfirst ihrest =>
      have hlead₁ := hlead.part (.refl _) .allFirst
      obtain ⟨he, hm₁, hsame₁⟩ := hfirst.evaluates hfree hm hlead₁
      obtain ⟨es, htrace, hrec⟩ := ihfirst hm hlead₁
      obtain ⟨es', htrace', hrec'⟩ := ihrest hm₁ (hlead.part hsame₁ (.allRest he))
      exact ⟨_, .allStep htrace htrace', by simpa using hrec.trans hrec'⟩
  | firstNil => exact ⟨_, .firstNil, by simpa using .refl _⟩
  | firstHit _ ih =>
      obtain ⟨es, htrace, hrec⟩ := ih hm (hlead.part (.refl _) .firstFirst)
      exact ⟨es, .firstHit htrace, hrec⟩
  | firstMiss hmiss _ ihmiss ihrest =>
      have hlead₁ := hlead.part (.refl _) .firstFirst
      obtain ⟨he, hm₁, hsame₁⟩ := hmiss.evaluates hfree hm hlead₁
      obtain ⟨es, htrace, hrec⟩ := ihmiss hm hlead₁
      obtain ⟨es', htrace', hrec'⟩ := ihrest hm₁ (hlead.part hsame₁ (.firstRest he))
      exact ⟨_, .firstMiss htrace htrace', by simpa using hrec.trans hrec'⟩
  | noSeparator _ ih =>
      obtain ⟨es, htrace, hrec⟩ := ih hm (hlead.part (.refl _) .separator)
      exact ⟨es, .noSeparator htrace, hrec⟩
  | separatorOnly hsep _ ihsep ihelem =>
      have hlead₁ := hlead.part (.refl _) .separator
      obtain ⟨he, hm₁, hsame₁⟩ := hsep.evaluates hfree hm hlead₁
      obtain ⟨es, htrace, hrec⟩ := ihsep hm hlead₁
      obtain ⟨es', htrace', hrec'⟩ := ihelem hm₁ (hlead.part hsame₁ (.moreElement he))
      exact ⟨_, .separatorOnly htrace htrace', by simpa using hrec.trans hrec'⟩
  | noProgress hsep _ hstuck ihsep ihelem =>
      have hlead₁ := hlead.part (.refl _) .separator
      obtain ⟨he, hm₁, hsame₁⟩ := hsep.evaluates hfree hm hlead₁
      obtain ⟨es, htrace, hrec⟩ := ihsep hm hlead₁
      obtain ⟨es', htrace', hrec'⟩ := ihelem hm₁ (hlead.part hsame₁ (.moreElement he))
      exact ⟨_, .noProgress htrace htrace' hstuck, by simpa using hrec.trans hrec'⟩
  | moreStep hsep helem hlt _ ihsep ihelem ihmore =>
      have hlead₁ := hlead.part (.refl _) .separator
      obtain ⟨he₁, hm₁, hsame₁⟩ := hsep.evaluates hfree hm hlead₁
      have hlead₂ := hlead.part hsame₁ (.moreElement he₁)
      obtain ⟨he₂, hm₂, hsame₂⟩ := helem.evaluates hfree hm₁ hlead₂
      obtain ⟨es, htrace, hrec⟩ := ihsep hm hlead₁
      obtain ⟨es', htrace', hrec'⟩ := ihelem hm₁ hlead₂
      obtain ⟨es'', htrace'', hrec''⟩ :=
        ihmore hm₂ (hlead.part (hsame₁.trans hsame₂) (.moreRest he₁ he₂ hlt))
      exact ⟨_, .moreStep htrace htrace' hlt htrace'',
        by simpa using (hrec.trans hrec').trans hrec''⟩
  | @remembered silent d pos m answer h =>
      obtain ⟨es, htrace⟩ := (hm d pos answer h).exists_traces
      refine ⟨es, htrace, ?_⟩
      generalize hfound : recalled answer = found at htrace
      cases htrace with
      | undefined hrule => exact .remembered h (hfound ▸ .undefined hrule)
      | defined hrule htrace => exact .remembered h (hfound ▸ .defined hrule htrace)
  | @reentered silent d pos m h =>
      -- the definition has asked for itself
      exact absurd ⟨(d, pos), hlead d pos h d pos .definition⟩ hfree
  | @undefined silent d pos m hnew hrule =>
      exact ⟨_, .undefined hrule, .answer hnew (.undefined hrule) (by simpa using .refl _)⟩
  | @defined silent d pos m r found m' hnew hrule _ ih =>
      obtain ⟨es, htrace, hrec⟩ := ih (hm.note_matching d) (hlead.note_matching hrule)
      exact ⟨_, .defined hrule htrace, .answer hnew (.defined hrule htrace) hrec⟩

/-- What the matcher holds after a fair run on a definition at the start of a stream. -/
theorem run_reports (hfree : ¬ LeftRecursive g s) {fuel : Nat} {root : δ} {found : Match δ}
    (h : run g s fuel false (.definition root) 0 {} = some (found, m)) :
    ∃ es, Traces g s (.definition root) 0 found es ∧ (Fair es → m.Reports (loud es)) := by
  have hsound : ({} : Memory δ).Sound g s := by
    intro d p answer ha
    simp at ha
  have hlead : ({} : Memory δ).Leads g s (.definition root) 0 := by
    intro d p hd
    simp at hd
  obtain ⟨es, htrace, hrec⟩ := (run_runs h).records hfree hsound hlead
  refine ⟨es, htrace, fun hfair => ?_⟩
  have hstart : ({} : Memory δ).Recorded g s [] := by
    refine ⟨⟨rfl, rfl⟩, ?_, ?_⟩
    · rintro d p ⟨silent, hmem⟩
      cases hmem
    · intro d p answer ha
      simp at ha
  exact (hrec.notes [] hstart hfair).reports

/-- If the run without a memory is fair, the failure of a parse is the one read off that run. -/
theorem report_of_failed (hfree : ¬ LeftRecursive g s) {root : δ} {found : Match δ}
    {es : List (Event δ)} (htrace : Traces g s (.definition root) 0 found es) (hfair : Fair es)
    {failure : Failure} (hfailed : parse g root s = .failed failure) :
    failure = report found (loud es) := by
  obtain ⟨found', m, hrun⟩ := run_enoughFuel g s root
  obtain ⟨es', htrace', hreports⟩ := run_reports hfree hrun
  obtain ⟨rfl, rfl⟩ := htrace.unique htrace'
  unfold parse at hfailed
  rw [hrun] at hfailed
  cases found with
  | none =>
      cases hfailed
      exact (hreports hfair).failed
  | some pair =>
      obtain ⟨trees, p⟩ := pair
      dsimp only at hfailed
      split at hfailed
      · cases hfailed
      · cases hfailed
        exact (hreports hfair).stopped trees p

/-- Without left recursion the rules have one run without a memory.  If it is fair, a parse that fails
reports what is read off that run: the furthest position of a refusal outside lookaheads, or the end
of the matched prefix if that is further, and the kinds refused there in the order first tried, with
the end marker last where the prefix ends. -/
theorem failure_eq_report (g : Grammar δ) (s : TokenStream) (root : δ)
    (hfree : ¬ LeftRecursive g s) :
    ∃ found es, (∀ found' es', Traces g s (.definition root) 0 found' es' ↔
        found' = found ∧ es' = es) ∧
      (Fair es → ∀ failure, parse g root s = .failed failure →
        failure = report found (loud es)) := by
  obtain ⟨found, m, hrun⟩ := run_enoughFuel g s root
  obtain ⟨es, htrace, -⟩ := run_reports hfree hrun
  refine ⟨found, es, fun found' es' => ⟨fun h => h.unique htrace, ?_⟩, ?_⟩
  · rintro ⟨rfl, rfl⟩
    exact htrace
  · intro hfair failure hfailed
    exact report_of_failed hfree htrace hfair hfailed

end Runs

/-! ## Lookaheads that name no definitions -/

section Plain

variable {g : Grammar δ} {s : TokenStream} {goal : Goal δ} {pos : Nat}

def Goal.plainAhead (inside : Bool) : Goal δ → Bool
  | rule r => r.plainAhead inside
  | definition _ => !inside
  | all rs | first rs => Rule.plainAheadAll inside rs
  | more e sep _ _ _ => e.plainAhead inside && Rule.plainAheadOption inside sep

theorem plainAhead_between (inside : Bool) (sep : Option (Rule δ)) :
    (between sep).plainAhead inside = Rule.plainAheadOption inside sep := by
  cases sep <;> rfl

/-- If no lookahead names a definition, all definitions are asked for outside of lookaheads. -/
theorem Traces.asked_outside (hplain : ∀ d r, g.rule d = some r → r.plainAhead false = true)
    {found : Match δ} {es : List (Event δ)} (h : Traces g s goal pos found es) {inside : Bool}
    (hgoal : goal.plainAhead inside = true) {silent : Bool} {d : δ} {p : Nat}
    (hmem : .asked silent d p ∈ es) : silent = false ∧ inside = false := by
  induction h generalizing inside silent with
  | empty | pastEnd | accepted | allNil | firstNil => cases hmem
  | refused => simp at hmem
  | ref _ ih | sequence _ ih | choice _ ih | optional _ ih => exact ih hgoal hmem
  | notAhead _ ih =>
      -- inside a lookahead nothing is asked for
      obtain ⟨quiet, hmem⟩ := asked_of_heard ⟨silent, hmem⟩
      have hno : true = false := (ih hgoal hmem).2
      cases hno
  | undefined hrule =>
      cases List.mem_singleton.mp hmem
      exact ⟨rfl, by simpa [Goal.plainAhead] using hgoal⟩
  | defined hrule _ ih =>
      have hout : inside = false := by simpa [Goal.plainAhead] using hgoal
      refine ⟨?_, hout⟩
      obtain hmem | hmem := List.mem_cons.mp hmem
      · cases hmem
        rfl
      · exact (ih (hplain _ _ hrule) hmem).1
  | allStop _ ih | firstHit _ ih | noElement _ ih =>
      exact ih (Bool.and_eq_true_iff.mp hgoal).1 hmem
  | allStep _ _ ihfirst ihrest | firstMiss _ _ ihfirst ihrest =>
      obtain ⟨hfirst, hrest⟩ := Bool.and_eq_true_iff.mp hgoal
      exact (List.mem_append.mp hmem).elim (ihfirst hfirst) (ihrest hrest)
  | elements _ _ ihfirst ihmore =>
      exact (List.mem_append.mp hmem).elim (ihfirst (Bool.and_eq_true_iff.mp hgoal).1) (ihmore hgoal)
  | noSeparator _ ih =>
      exact ih ((plainAhead_between inside _).trans (Bool.and_eq_true_iff.mp hgoal).2) hmem
  | separatorOnly _ _ ihsep ihelem | noProgress _ _ _ ihsep ihelem =>
      obtain ⟨helem, hsep⟩ := Bool.and_eq_true_iff.mp hgoal
      exact (List.mem_append.mp hmem).elim (ihsep ((plainAhead_between inside _).trans hsep))
        (ihelem helem)
  | moreStep _ _ _ _ ihsep ihelem ihmore =>
      obtain ⟨helem, hsep⟩ := Bool.and_eq_true_iff.mp hgoal
      obtain hmem | hmem := List.mem_append.mp hmem
      · exact (List.mem_append.mp hmem).elim (ihsep ((plainAhead_between inside _).trans hsep))
          (ihelem helem)
      · exact ihmore hgoal hmem

/-- A run of a grammar whose lookaheads name no definitions is fair. -/
theorem fair_of_plainAhead (hplain : ∀ d r, g.rule d = some r → r.plainAhead false = true) {d : δ}
    {found : Match δ} {es : List (Event δ)} (h : Traces g s (.definition d) pos found es) :
    Fair es := by
  rintro e p xs ys rfl -
  have houtside : (Goal.definition d).plainAhead false = true := rfl
  cases (h.asked_outside hplain houtside (List.mem_append_right xs List.mem_cons_self)).1

end Plain

def Outcome.failure? : Outcome δ → Option Failure
  | failed failure => some failure
  | _ => none

/-- A text that is found to be cut and refused has a stream and a failure. -/
theorem exists_failed [BEq δ] (l : Language) (src : List Char) (g : Grammar δ) (root : δ)
    (failure : Failure) (h : (tokenize l src).toOption.any
      (fun s => (parse g root s).failure? = some failure) = true) :
    ∃ s, tokenize l src = .ok s ∧ parse g root s = .failed failure := by
  cases hs : tokenize l src with
  | error fault =>
      rw [hs] at h
      cases h
  | ok s =>
      rw [hs] at h
      have hfailure : (parse g root s).failure? = some failure := of_decide_eq_true h
      refine ⟨s, rfl, ?_⟩
      cases hparse : parse g root s with
      | failed f =>
          rw [hparse] at hfailure
          cases hfailure
          rfl
      | parsed tree | exhausted =>
          rw [hparse] at hfailure
          cases hfailure

/-- A name in brackets that are not closed. -/
theorem failure_eq_report_bracketed :
    ∃ s found es, tokenize .csharp "((a".toList = .ok s ∧ ¬ LeftRecursive bracketed s ∧
      Traces bracketed s (.definition ()) 0 found es ∧ Fair es ∧
      parse bracketed () s = .failed ⟨3, [.rParen]⟩ ∧
      report found (loud es) = ⟨3, [.rParen]⟩ := by
  obtain ⟨s, hs, hfailed⟩ := exists_failed .csharp "((a".toList bracketed () ⟨3, [.rParen]⟩
    (by decide)
  have hfree := bracketed_not_leftRecursive s
  obtain ⟨found, es, htraces, hreport⟩ := failure_eq_report bracketed s () hfree
  have htrace := (htraces found es).mpr ⟨rfl, rfl⟩
  have hfair : Fair es := fair_of_plainAhead (by rintro _ _ ⟨⟩; rfl) htrace
  exact ⟨s, found, es, hs, hfree, htrace, hfair, hfailed, (hreport hfair _ hfailed).symm⟩

def declined : Grammar Bool where
  definitions := [true, false]
  name d := if d then "declined" else "bracket"
  rule d := if d then some (.sequence [.notAhead (.ref false), .ref false]) else some (.token .lParen)
  shape _ _ := .forward
  keepsTrivia _ := false
  complete := by simp

/-- The lookahead remembers that the bracket is missing, so that nothing is wanted where it is asked
for. -/
theorem report_incomplete_declined :
    ∃ s found es, tokenize .csharp "a".toList = .ok s ∧ ¬ LeftRecursive declined s ∧
      Traces declined s (.definition true) 0 found es ∧
      parse declined true s = .failed ⟨0, []⟩ ∧ report found (loud es) = ⟨0, [.lParen]⟩ := by
  obtain ⟨s, hs, hfailed⟩ := exists_failed .csharp "a".toList declined true ⟨0, []⟩
    (by decide)
  have hfree : ¬ LeftRecursive declined s := by
    have hrules : declined.EmptyRules fun _ => false := by
      rintro (_ | _) r ⟨⟩ hempty <;> cases hempty
    have hsettled : (declined.unsettledAfter (fun _ => false) 2).isEmpty = true := by decide
    exact not_leftRecursive hrules hsettled s
  have hfirst : (tokenize .csharp "a".toList).toOption.any
      (fun s => (s.get? 0).any (·.kind != .lParen)) = true := by decide
  rw [hs] at hfirst
  change (s.get? 0).any _ = true at hfirst
  obtain ⟨t, hget, hkind⟩ := Option.any_eq_true .. |>.mp hfirst
  have hrefused : Traces declined s (.definition false) 0 none
      [.asked false false 0, .refused false 0 .lParen] :=
    .defined rfl (.refused hget (by simpa using hkind))
  have htrace : Traces declined s (.definition true) 0 none _ :=
    .defined rfl (.sequence (.allStep (.notAhead (.ref hrefused)) (.allStop (.ref hrefused))))
  exact ⟨s, none, _, hs, hfree, htrace, hfailed, by decide⟩

end Packrat

namespace CSharp

/-- The lookaheads of the grammar name no definitions. -/
theorem plainAhead (d : Form) (r : Rule Form) (h : grammar.rule d = some r) :
    r.plainAhead false = true := by
  have hall : Form.all.all (fun d => (rule d).plainAhead false) = true := by decide
  cases h
  exact List.all_eq_true.mp hall d d.mem_all

/-- What a parse of a text reports when it fails is read off the run without a memory. -/
theorem report_complete (root : Form) (s : TokenStream) {failure : Packrat.Failure}
    (h : Packrat.parse grammar root s = .failed failure) :
    ∃ found es, Packrat.Traces grammar s (.definition root) 0 found es ∧
      failure = Packrat.report found (Packrat.loud es) := by
  have hfree := Language.csharp.not_leftRecursive s
  obtain ⟨found, m, hrun⟩ := Packrat.run_enoughFuel grammar s root
  obtain ⟨es, htrace⟩ := (Packrat.evaluates_of_run hfree hrun).exists_traces
  have hfair := Packrat.fair_of_plainAhead plainAhead htrace
  exact ⟨found, es, htrace, Packrat.report_of_failed hfree htrace hfair h⟩

end CSharp

end DualSyntax
