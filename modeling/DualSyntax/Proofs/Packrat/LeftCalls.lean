import DualSyntax.Parsing
import DualSyntax.Proofs.Packrat.MemoFree
import DualSyntax.Proofs.Packrat.Requests

/-!
# Grammars without left recursion

Matching by a grammar whose left calls go down has an answer, and the grammars of both languages are
such.
-/

namespace DualSyntax

/-!
## Calls on the left

Which definitions a rule may ask for at the position where it starts can be read off the rule, given
which definitions may match nothing.  If every definition is settled after some rounds, each round
settling the definitions that ask on the left for settled ones only, no definition leads back to
itself at the same position, whatever the stream.  The matcher then never comes upon a definition
that it is still matching there.
-/

section LeftCalls

variable {δ : Type}

namespace Rule

variable (nothing : δ → Bool)

mutual

def mayBeEmpty : Rule δ → Bool
  | empty | optional _ | notAhead _ => true
  | token _ => false
  | ref d => nothing d
  | sequence rs => mayAllBeEmpty rs
  | choice rs => mayAnyBeEmpty rs
  | list e _ least _ => least == 0 || mayBeEmpty e

def mayAllBeEmpty : List (Rule δ) → Bool
  | [] => true
  | r :: rs => mayBeEmpty r && mayAllBeEmpty rs

def mayAnyBeEmpty : List (Rule δ) → Bool
  | [] => false
  | r :: rs => mayBeEmpty r || mayAnyBeEmpty rs

end

mutual

/-- The definitions that a rule may ask for at the position where it starts. -/
def leftCalls : Rule δ → List δ
  | empty | token _ => []
  | ref d => [d]
  | sequence rs => leftCallsAll rs
  | choice rs => leftCallsAny rs
  | optional r | notAhead r => leftCalls r
  | list e sep _ _ => leftCalls e ++ if mayBeEmpty nothing e then leftCallsOption sep else []

def leftCallsAll : List (Rule δ) → List δ
  | [] => []
  | r :: rs => leftCalls r ++ if mayBeEmpty nothing r then leftCallsAll rs else []

def leftCallsAny : List (Rule δ) → List δ
  | [] => []
  | r :: rs => leftCalls r ++ leftCallsAny rs

def leftCallsOption : Option (Rule δ) → List δ
  | none => []
  | some r => leftCalls r

end

end Rule

namespace Grammar

/-- The definitions of a grammar that are not settled after some rounds: a round leaves those that
may ask on the left for a definition not settled before. -/
def unsettledAfter [BEq δ] (g : Grammar δ) (nothing : δ → Bool) : Nat → List δ
  | 0 => g.definitions
  | n + 1 =>
    let unsettled := g.unsettledAfter nothing n
    unsettled.filter fun d => (g.rule d).any fun r => (r.leftCalls nothing).any unsettled.contains

/-- A rule that may match nothing belongs to a definition that may. -/
def EmptyRules (g : Grammar δ) (nothing : δ → Bool) : Prop :=
  ∀ d r, g.rule d = some r → r.mayBeEmpty nothing = true → nothing d = true

/-- The rule of a definition may ask on the left for another definition. -/
def LeftCall (g : Grammar δ) (nothing : δ → Bool) (d e : δ) : Prop :=
  ∃ r, g.rule d = some r ∧ e ∈ r.leftCalls nothing

/-- There is no endless chain of calls on the left from a settled definition. -/
theorem acc_of_settled [BEq δ] [LawfulBEq δ] {g : Grammar δ} {nothing : δ → Bool} {n : Nat} {d : δ}
    (h : d ∉ g.unsettledAfter nothing n) : Acc (flip (g.LeftCall nothing)) d := by
  induction n generalizing d with
  | zero =>
      -- without a rule nothing is asked for
      refine ⟨d, ?_⟩
      rintro e ⟨r, hrule, -⟩
      exact absurd (g.complete d (by simp [hrule])) h
  | succ n ih =>
      by_cases hd : d ∈ g.unsettledAfter nothing n
      · refine ⟨d, ?_⟩
        rintro e ⟨r, hrule, he⟩
        apply ih
        intro hunsettled
        apply h
        refine List.mem_filter.mpr ⟨hd, ?_⟩
        rw [hrule, Option.any_some, List.any_eq_true]
        exact ⟨e, he, by simpa using hunsettled⟩
      · exact ih hd

end Grammar

namespace Packrat

variable {g : Grammar δ} {s : TokenStream} {nothing : δ → Bool} {goal : Goal δ} {pos : Nat}

def Goal.mayBeEmpty (nothing : δ → Bool) : Goal δ → Bool
  | rule r => r.mayBeEmpty nothing
  | definition d => nothing d
  | all rs => Rule.mayAllBeEmpty nothing rs
  | first rs => Rule.mayAnyBeEmpty nothing rs
  | more .. => true

/-- The definitions that a goal may ask for at the position where it starts. -/
def Goal.leftCalls (nothing : δ → Bool) : Goal δ → List δ
  | rule r => r.leftCalls nothing
  | definition d => [d]
  | all rs => Rule.leftCallsAll nothing rs
  | first rs => Rule.leftCallsAny nothing rs
  | more e sep _ _ _ => Rule.leftCallsOption nothing sep ++ e.leftCalls nothing

theorem leftCalls_between (sep : Option (Rule δ)) :
    (between sep).leftCalls nothing = Rule.leftCallsOption nothing sep := by
  cases sep <;> rfl

/-! ### Matches that take nothing -/

/-- A match does not go back, and takes nothing only if its goal may. -/
def Advances (nothing : δ → Bool) (goal : Goal δ) (pos : Nat) (found : Match δ) : Prop :=
  ∀ trees q, found = some (trees, q) → pos ≤ q ∧ (q = pos → goal.mayBeEmpty nothing = true)

theorem Advances.none : Advances nothing goal pos none := by
  intro trees q h
  cases h

theorem Advances.stay {trees : List (RawTree δ)} (h : goal.mayBeEmpty nothing = true) :
    Advances nothing goal pos (some (trees, pos)) := by
  intro trees' q hq
  cases hq
  exact ⟨Nat.le_refl pos, fun _ => h⟩

/-- What may be empty may end anywhere from its start on. -/
theorem Advances.of_le {found : Match δ} (hempty : goal.mayBeEmpty nothing = true)
    (h : ∀ trees q, found = some (trees, q) → pos ≤ q) : Advances nothing goal pos found :=
  fun trees q hq => ⟨h trees q hq, fun _ => hempty⟩

theorem Advances.after {first rest : Goal δ} {trees : List (RawTree δ)} {p : Nat}
    {found : Match δ} (hfirst : Advances nothing first pos (some (trees, p)))
    (hrest : Advances nothing rest p found)
    (hboth : first.mayBeEmpty nothing = true → rest.mayBeEmpty nothing = true →
      goal.mayBeEmpty nothing = true) :
    Advances nothing goal pos (Packrat.after trees found) := by
  intro trees' q hq
  obtain ⟨⟨more, q'⟩, hfound, hpair⟩ := Option.map_eq_some_iff.mp hq
  cases hpair
  obtain ⟨hp, hemptyFirst⟩ := hfirst trees p rfl
  obtain ⟨hle, hemptyRest⟩ := hrest more q hfound
  exact ⟨by omega, fun h => hboth (hemptyFirst (by omega)) (hemptyRest (by omega))⟩

theorem endOfList_eq_some {least count p : Nat} {trees trees' : List (RawTree δ)} {q : Nat}
    (h : endOfList least count trees p = some (trees', q)) : q = p := by
  unfold endOfList at h
  split at h
  · cases h
  · cases h
    rfl

theorem Evaluates.advances (hg : g.EmptyRules nothing) {found : Match δ}
    (h : Evaluates g s goal pos found) : Advances nothing goal pos found := by
  induction h with
  | empty | allNil => exact .stay rfl
  | pastEnd | refused | undefined | allStop | firstNil => exact .none
  | accepted =>
      intro trees q hq
      cases hq
      exact ⟨Nat.le_succ _, by omega⟩
  | ref _ ih | sequence _ ih | choice _ ih => exact ih
  | @defined d pos r found hrule _ ih =>
      intro trees q hq
      obtain ⟨⟨tree, q'⟩, hnode, hpair⟩ := Option.map_eq_some_iff.mp hq
      cases hpair
      obtain ⟨⟨inner, q'⟩, hfound, hpair⟩ := Option.map_eq_some_iff.mp hnode
      cases hpair
      obtain ⟨hle, hempty⟩ := ih inner q hfound
      exact ⟨hle, fun h => hg d r hrule (hempty h)⟩
  | allStep _ _ ihfirst ihrest =>
      refine ihfirst.after ihrest ?_
      intro hr hrs
      exact Bool.and_eq_true_iff.mpr ⟨hr, hrs⟩
  | firstHit _ ih =>
      intro trees q hq
      obtain ⟨hle, hempty⟩ := ih trees q hq
      exact ⟨hle, fun h => Bool.or_eq_true_iff.mpr (.inl (hempty h))⟩
  | firstMiss _ _ _ ih =>
      intro trees q hq
      obtain ⟨hle, hempty⟩ := ih trees q hq
      exact ⟨hle, fun h => Bool.or_eq_true_iff.mpr (.inr (hempty h))⟩
  | @optional r pos found _ ih =>
      apply Advances.of_le rfl
      intro trees q hq
      cases found with
      | none =>
          cases hq
          exact Nat.le_refl _
      | some pair => exact (ih trees q hq).1
  | notAhead =>
      split
      · exact .none
      · exact .stay rfl
  | noElement =>
      split
      · rename_i hleast
        exact .stay (by simp [Goal.mayBeEmpty, Rule.mayBeEmpty, hleast])
      · exact .none
  | elements _ _ ihfirst ihmore =>
      refine ihfirst.after ihmore ?_
      intro he _
      exact Bool.or_eq_true_iff.mpr (.inr he)
  | noSeparator | noProgress =>
      refine .of_le rfl fun trees q hq => ?_
      exact Nat.le_of_eq (endOfList_eq_some hq).symm
  | separatorOnly _ _ ihsep =>
      refine .of_le rfl fun trees q hq => ?_
      split at hq
      · rw [endOfList_eq_some hq]
        exact (ihsep _ _ rfl).1
      · exact Nat.le_of_eq (endOfList_eq_some hq).symm
  | moreStep _ _ hlt _ _ _ ihmore =>
      refine .of_le rfl fun trees q hq => ?_
      obtain ⟨⟨more, q'⟩, hfound, hpair⟩ := Option.map_eq_some_iff.mp hq
      cases hpair
      have := (ihmore more q hfound).1
      omega

/-! ### Calls at the same position -/

/-- A goal asks for definitions from its position on, and for no others at its position than those
on its left. -/
theorem Asks.leftCalls (hg : g.EmptyRules nothing) {d : δ} {p : Nat}
    (h : Asks g s goal pos d p) : pos ≤ p ∧ (p = pos → d ∈ goal.leftCalls nothing) := by
  -- a part that is reached after another one matched
  have later : ∀ {first : Goal δ} {pos q p : Nat} {trees : List (RawTree δ)} {d : δ}
      {calls : List δ}, Evaluates g s first pos (some (trees, q)) →
      q ≤ p ∧ (p = q → d ∈ calls) →
      pos ≤ p ∧ (p = pos → first.mayBeEmpty nothing = true ∧ d ∈ calls) := by
    intro first pos q p trees d calls hfirst hrest
    obtain ⟨hq, hempty⟩ := hfirst.advances hg trees q rfl
    refine ⟨by omega, ?_⟩
    intro hp
    exact ⟨hempty (by omega), hrest.2 (by omega)⟩
  induction h with
  | definition => exact ⟨Nat.le_refl _, fun _ => List.mem_singleton.mpr rfl⟩
  | ref _ ih | sequence _ ih | choice _ ih | optional _ ih | notAhead _ ih => exact ih
  | allFirst _ ih | firstFirst _ ih | element _ ih =>
      exact ⟨ih.1, fun h => List.mem_append_left _ (ih.2 h)⟩
  | firstRest _ _ ih => exact ⟨ih.1, fun h => List.mem_append_right _ (ih.2 h)⟩
  | allRest hfirst _ ih =>
      obtain ⟨hle, hcalls⟩ := later hfirst ih
      refine ⟨hle, fun h => List.mem_append_right _ ?_⟩
      obtain ⟨hempty, hd⟩ := hcalls h
      rwa [if_pos (show Rule.mayBeEmpty nothing _ = true from hempty)]
  | elements hfirst _ ih =>
      obtain ⟨hle, hcalls⟩ := later hfirst ih
      refine ⟨hle, fun h => ?_⟩
      obtain ⟨hempty, hd⟩ := hcalls h
      rcases List.mem_append.mp hd with hd | hd
      · refine List.mem_append_right _ ?_
        rwa [if_pos (show Rule.mayBeEmpty nothing _ = true from hempty)]
      · exact List.mem_append_left _ hd
  | separator _ ih =>
      refine ⟨ih.1, fun h => List.mem_append_left _ ?_⟩
      rw [← leftCalls_between]
      exact ih.2 h
  | moreElement hsep _ ih =>
      obtain ⟨hle, hcalls⟩ := later hsep ih
      exact ⟨hle, fun h => List.mem_append_right _ (hcalls h).2⟩
  | moreRest _ _ hlt _ ih =>
      -- the list goes on only after progress
      have := ih.1
      exact ⟨by omega, by omega⟩

/-- Calls lead on in the stream, or on the left to other definitions. -/
theorem Calls.leftCall (hg : g.EmptyRules nothing) {k k' : δ × Nat} (h : Calls g s k k') :
    k.2 ≤ k'.2 ∧ (k'.2 = k.2 → g.LeftCall nothing k.1 k'.1) := by
  obtain ⟨r, hrule, hasks⟩ := h
  obtain ⟨hle, hcalls⟩ := hasks.leftCalls hg
  exact ⟨hle, fun heq => ⟨r, hrule, hcalls heq⟩⟩

theorem transGen_leftCall (hg : g.EmptyRules nothing) {k k' : δ × Nat}
    (h : Relation.TransGen (Calls g s) k k') :
    k.2 ≤ k'.2 ∧ (k'.2 = k.2 → Relation.TransGen (g.LeftCall nothing) k.1 k'.1) := by
  induction h with
  | single h =>
      obtain ⟨hle, hcall⟩ := h.leftCall hg
      exact ⟨hle, fun heq => .single (hcall heq)⟩
  | tail _ h ih =>
      obtain ⟨hle, hcall⟩ := h.leftCall hg
      exact ⟨by omega, fun heq => .tail (ih.2 (by omega)) (hcall (by omega))⟩

/-- A grammar in which no definition stays unsettled is not left-recursive. -/
theorem not_leftRecursive [BEq δ] [LawfulBEq δ] (hg : g.EmptyRules nothing) {n : Nat}
    (hsettled : (g.unsettledAfter nothing n).isEmpty = true) (s : TokenStream) :
    ¬ LeftRecursive g s := by
  rintro ⟨⟨d, pos⟩, hcycle⟩
  have hcalls := (transGen_leftCall hg hcycle).2 rfl
  have hacc : Acc (flip (g.LeftCall nothing)) d := by
    apply Grammar.acc_of_settled (n := n)
    rw [List.isEmpty_iff.mp hsettled]
    exact List.not_mem_nil
  have hback : Relation.TransGen (flip (g.LeftCall nothing)) d d :=
    Relation.transGen_swap.mpr hcalls
  have hend := hacc.transGen
  clear hcycle hcalls hacc
  induction hend with
  | intro d _ ih => exact ih d hback hback

/-! ### The requests of a parse -/

section

variable [BEq δ] [LawfulBEq δ]

/-- A request whose memory holds answers without a memory, and in which every definition that is
being matched has asked, through others perhaps, for whatever the goal asks for. -/
structure Request.Traced (g : Grammar δ) (s : TokenStream) (r : Request δ) : Prop where
  sound : r.memory.Sound g s
  leads : r.memory.Leads g s r.goal r.pos

theorem Request.Traced.makes (hfree : ¬ LeftRecursive g s) {r r' : Request δ}
    (hr : r.Traced g s) (h : Makes g s r r') : r'.Traced g s := by
  obtain ⟨hm, hlead⟩ := hr
  cases h with
  | ref => exact ⟨hm, hlead.part (.refl _) .ref⟩
  | sequence => exact ⟨hm, hlead.part (.refl _) .sequence⟩
  | choice => exact ⟨hm, hlead.part (.refl _) .choice⟩
  | optional => exact ⟨hm, hlead.part (.refl _) .optional⟩
  | notAhead => exact ⟨hm, hlead.part (.refl _) .notAhead⟩
  | element => exact ⟨hm, hlead.part (.refl _) .element⟩
  | allFirst => exact ⟨hm, hlead.part (.refl _) .allFirst⟩
  | firstFirst => exact ⟨hm, hlead.part (.refl _) .firstFirst⟩
  | separator => exact ⟨hm, hlead.part (.refl _) .separator⟩
  | elements hfirst =>
      obtain ⟨he, hm', hsame⟩ := hfirst.evaluates hfree hm (hlead.part (.refl _) .element)
      exact ⟨hm', hlead.part hsame (.elements he)⟩
  | allRest hfirst =>
      obtain ⟨he, hm', hsame⟩ := hfirst.evaluates hfree hm (hlead.part (.refl _) .allFirst)
      exact ⟨hm', hlead.part hsame (.allRest he)⟩
  | firstRest hmiss =>
      obtain ⟨he, hm', hsame⟩ := hmiss.evaluates hfree hm (hlead.part (.refl _) .firstFirst)
      exact ⟨hm', hlead.part hsame (.firstRest he)⟩
  | moreElement hsep =>
      obtain ⟨he, hm', hsame⟩ := hsep.evaluates hfree hm (hlead.part (.refl _) .separator)
      exact ⟨hm', hlead.part hsame (.moreElement he)⟩
  | moreRest hsep helem hlt =>
      obtain ⟨hes, hm₁, hsame₁⟩ := hsep.evaluates hfree hm (hlead.part (.refl _) .separator)
      obtain ⟨hee, hm₂, hsame₂⟩ :=
        helem.evaluates hfree hm₁ (hlead.part hsame₁ (.moreElement hes))
      exact ⟨hm₂, hlead.part (hsame₁.trans hsame₂) (.moreRest hes hee hlt)⟩
  | body _ hrule => exact ⟨hm.note_matching _, hlead.note_matching hrule⟩

theorem Reached.traced (hfree : ¬ LeftRecursive g s) {root : δ} {r : Request δ}
    (h : Reached g s root r) : r.Traced g s := by
  induction h with
  | refl =>
      constructor
      · intro d p answer ha
        simp [Request.start] at ha
      · intro d p hd
        simp [Request.start] at hd
  | tail _ hmakes ih => exact ih.makes hfree hmakes

/-- Without left recursion no definition is asked for at a position where it is being matched. -/
theorem Reached.not_matching (hfree : ¬ LeftRecursive g s) {root d : δ} {silent : Bool} {m : Memory δ}
    (h : Reached g s root ⟨silent, .definition d, pos, m⟩) :
    m.chart.get? d pos ≠ some .matching := by
  intro hmatching
  exact hfree ⟨(d, pos), (h.traced hfree).leads d pos hmatching d pos .definition⟩

end

end Packrat

end LeftCalls

/-!
## The grammars of the languages are not left-recursive

Six definitions of each grammar may match nothing, and all definitions are settled after some twenty
rounds, about as many as there are levels of operators.
-/

section Languages

open Packrat

namespace CSharp

/-- Whether a definition may match nothing. -/
def mayMatchNothing (d : Form) : Bool :=
  [.argumentList, .variableInitializerList, .modifiers, .parameterList, .enumMemberList,
    .compilationUnit].contains d

theorem emptyRules : grammar.EmptyRules mayMatchNothing := by
  have hall : Form.all.all (fun d =>
      !(rule d).mayBeEmpty mayMatchNothing || mayMatchNothing d) = true := by decide
  rintro d _ ⟨⟩ hempty
  simpa [hempty] using List.all_eq_true.mp hall d d.mem_all

theorem settled : (grammar.unsettledAfter mayMatchNothing 20).isEmpty = true := by
  decide

end CSharp

namespace VisualBasic

/-- Whether a definition may match nothing. -/
def mayMatchNothing (d : Form) : Bool :=
  [.argumentList, .statements, .variableInitializerList, .modifiers, .parameterList,
    .compilationUnit].contains d

theorem emptyRules : grammar.EmptyRules mayMatchNothing := by
  have hall : Form.all.all (fun d =>
      !(rule d).mayBeEmpty mayMatchNothing || mayMatchNothing d) = true := by decide
  rintro d _ ⟨⟩ hempty
  simpa [hempty] using List.all_eq_true.mp hall d d.mem_all

theorem settled : (grammar.unsettledAfter mayMatchNothing 21).isEmpty = true := by
  decide

end VisualBasic

namespace Language

/-- No definition of a language asks for itself at the position where it is being matched, through
others or not, whatever the stream. -/
theorem not_leftRecursive (l : Language) (s : TokenStream) : ¬ LeftRecursive l.grammar s := by
  cases l with
  | csharp => exact Packrat.not_leftRecursive CSharp.emptyRules CSharp.settled s
  | visualBasic => exact Packrat.not_leftRecursive VisualBasic.emptyRules VisualBasic.settled s

end Language

/-- Whatever stream is parsed as whatever definition of a language, no definition is asked for at a
position where it is still being matched. -/
theorem never_reentered (l : Language) (root : l.Form) (s : TokenStream) {silent : Bool} {d : l.Form}
    {pos : Nat} {m : Memory l.Form}
    (h : Reached l.grammar s root ⟨silent, .definition d, pos, m⟩) :
    m.chart.get? d pos ≠ some .matching :=
  h.not_matching (l.not_leftRecursive s)

/-- The request of an assignment for its left side, in an expression. -/
theorem never_reentered_assignment :
    ∃ s, tokenize .csharp "a = b".toList = .ok s ∧
      let m : Memory CSharp.Form :=
        (({} : Memory CSharp.Form).note .expression 0 .matching).note .assignmentExpression 0
          .matching
      Reached Language.csharp.grammar s CSharp.Form.expression
          ⟨false, .definition CSharp.Form.unaryExpression, 0, m⟩ ∧
        m.chart.get? .unaryExpression 0 ≠ some .matching := by
  obtain ⟨s, hs⟩ := exists_tokenize .csharp "a = b".toList (by decide +kernel)
  refine ⟨s, hs, ?_⟩
  intro m
  have hfirst : (({} : Memory CSharp.Form).note .expression 0 .matching).chart.get?
      .assignmentExpression 0 = none := by
    rw [Memory.note, Chart.get?_set_of_ne _ _ (by decide), Chart.get?_empty]
  have hreached : Reached Language.csharp.grammar s CSharp.Form.expression
      ⟨false, .definition CSharp.Form.unaryExpression, 0, m⟩ :=
    .head (.body (by simp) rfl) <| .head .choice <| .head .firstFirst <| .head .ref <|
      .head (.body hfirst rfl) <| .head .sequence <| .head .allFirst <| .single .ref
  exact ⟨hreached, never_reentered .csharp CSharp.Form.expression s hreached⟩

end Languages

end DualSyntax
