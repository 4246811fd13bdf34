import DualSyntax.Lexing.Tokenize
import DualSyntax.Proofs.Lexing.Folding
import DualSyntax.Proofs.Parsing.RelatedStreams
import Mathlib.Data.List.Forall2

/-!
# VB texts in another case

Cutting a text into tokens commutes with putting it in lower case, and matching sees the kinds and
the places of the tokens only.
-/

namespace DualSyntax

/-!
## The tokens of a VB text in another case

The loop over a VB text does the same to the text in lower case (`tokenize_folded`), so two texts
that differ only in the case of ASCII letters have the same lexical error or the same tokens up to
case (`tokenize_twins`).
-/

section Folding

open Text (folded)

/-! ### Streams in lower case -/

/-- A piece of trivia with its letters in lower case. -/
def Trivia.folded (t : Trivia) : Trivia := { t with text := String.ofList (Text.folded t.text.toList) }

/-- A token with the letters of its text, its value and its trivia in lower case. -/
def Token.folded (t : Token) : Token :=
  { t with
    text := String.ofList (Text.folded t.text.toList)
    value := t.value.map LiteralValue.folded
    leading := t.leading.map Trivia.folded }

namespace Lexing

/-- What stands in front of the remaining text, with its letters in lower case. -/
def Context.folded (cx : Context) : Context :=
  { cx with before := cx.before.map Char.toLower, pending := cx.pending.map Trivia.folded }

theorem next_folded (cx : Context) (cs : List Char) :
    next .visualBasic cx.folded (folded cs) =
      (next .visualBasic cx cs).map fun found => (found.1, found.2.folded) := by
  have htrivia : triviaAt .visualBasic cx.folded (folded cs) =
      .ok ((VisualBasic.trivia cx.before cx.last cs).map Lexeme.folded) :=
    congrArg Except.ok (VisualBasic.trivia_folded cx.before cx.last cs)
  have htoken : tokenAt .visualBasic (folded cs) =
      (VisualBasic.token cs).map (Option.map Lexeme.folded) := VisualBasic.token_blind cs
  unfold next
  rw [htrivia, htoken]
  simp only [triviaAt, tokenAt, bind, Except.bind]
  cases VisualBasic.trivia cx.before cx.last cs with
  | some found => rfl
  | none =>
      cases VisualBasic.token cs with
      | error fault => rfl
      | ok found => cases found <;> rfl

theorem Context.pass_folded (cx : Context) (text : List Char) :
    cx.folded.pass (Text.folded text) = (cx.pass text).folded := by
  simp only [Context.pass, Context.folded, byteLength_folded, Option.map_or]
  rw [Text.folded, List.getLast?_map]

theorem tokensFrom_folded (fuel : Nat) (cx : Context) (cs : List Char) :
    tokensFrom .visualBasic fuel cx.folded (folded cs) =
      (tokensFrom .visualBasic fuel cx cs).map (List.map Token.folded) := by
  induction fuel generalizing cx cs with
  | zero => simp [tokensFrom, Except.map, Token.folded, Context.folded, Text.folded]
  | succ fuel ih =>
      cases cs with
      | nil => simp [tokensFrom, Except.map, Token.folded, Context.folded, Text.folded]
      | cons c cs =>
          have hnext := next_folded cx (c :: cs)
          rw [folded_cons] at hnext
          rw [folded_cons, tokensFrom, tokensFrom, hnext]
          cases next .visualBasic cx (c :: cs) with
          | error fault => rfl
          | ok found =>
              obtain ⟨isTrivia, x⟩ := found
              have hanswer : (Except.ok (isTrivia, x) : Except LexFault (Bool × Lexeme)).map
                  (fun found => (found.1, found.2.folded)) = .ok (isTrivia, x.folded) := rfl
              have htake : List.take x.folded.length (c.toLower :: folded cs) =
                  folded ((c :: cs).take x.length) := take_folded _ (c :: cs)
              have hdrop : List.drop x.folded.length (c.toLower :: folded cs) =
                  folded ((c :: cs).drop x.length) := drop_folded _ (c :: cs)
              rw [hanswer]
              simp only [htake, hdrop, Context.pass_folded]
              generalize (c :: cs).take x.length = text
              generalize (c :: cs).drop x.length = rest
              cases isTrivia with
              | true =>
                  refine Eq.trans ?_ (ih _ rest)
                  simp [Context.folded, Context.pass, Trivia.folded, Lexeme.folded]
              | false =>
                  have htail := ih { cx.pass text with last := some x.kind, pending := [] } rest
                  have hcontext : { (cx.pass text).folded with
                      last := some x.folded.kind, pending := [] } =
                        Context.folded { cx.pass text with last := some x.kind, pending := [] } := rfl
                  simp only [Bool.false_eq_true, if_false]
                  rw [hcontext, htail]
                  cases tokensFrom .visualBasic fuel
                      { cx.pass text with last := some x.kind, pending := [] } rest with
                  | error fault => rfl
                  | ok ts =>
                      simp [Except.map, Token.folded, Context.folded, Context.pass, Lexeme.folded]

end Lexing

theorem tokenize_folded (src : List Char) :
    tokenize .visualBasic (folded src) =
      (tokenize .visualBasic src).map fun s => .ofTokens (s.tokens.toList.map Token.folded) := by
  have hloop := Lexing.tokensFrom_folded src.length {} src
  rw [tokenize, Lexing.length_folded, show ({} : Lexing.Context) = Lexing.Context.folded {} from rfl,
    hloop, tokenize]
  cases Lexing.tokensFrom .visualBasic src.length {} src with
  | error fault => rfl
  | ok ts => simp [Except.map]

/-! ### Two texts -/

/-- The same value, or texts that differ only in the case of letters. -/
inductive LiteralValue.Twin : LiteralValue → LiteralValue → Prop
  | same (value : LiteralValue) : Twin value value
  | string {s s' : String} (h : Text.folded s.toList = Text.folded s'.toList) :
      Twin (.string s) (.string s')
  | char {c c' : Char} (h : c.toLower = c'.toLower) : Twin (.char c) (.char c')

theorem LiteralValue.Twin.of_folded {v v' : LiteralValue} (h : v.folded = v'.folded) :
    v.Twin v' := by
  cases v <;> cases v' <;>
    simp only [folded, reduceCtorEq, LiteralValue.string.injEq, LiteralValue.char.injEq,
      String.ofList_inj] at h
  case string.string => exact .string h
  case char.char => exact .char h
  case null.null => exact .same _
  all_goals
    rw [h]
    exact .same _

/-- Trivia of the same kind in the same place. -/
structure Trivia.Twin (t t' : Trivia) : Prop where
  kind : t.kind = t'.kind
  span : t.span = t'.span
  text : Text.folded t.text.toList = Text.folded t'.text.toList

/-- Tokens of the same kind in the same place, with the same values and trivia up to the case of
letters. -/
structure Token.Twin (t t' : Token) : Prop where
  kind : t.kind = t'.kind
  span : t.span = t'.span
  text : Text.folded t.text.toList = Text.folded t'.text.toList
  value : Option.Rel LiteralValue.Twin t.value t'.value
  leading : List.Forall₂ Trivia.Twin t.leading t'.leading

theorem Trivia.Twin.of_folded {t t' : Trivia} (h : t.folded = t'.folded) : t.Twin t' := by
  simp only [folded, Trivia.mk.injEq, String.ofList_inj] at h
  exact ⟨h.1, h.2.1, h.2.2⟩

/-- Lists that agree after a change of their elements agree element by element. -/
theorem forall₂_of_map {α β : Type} {f : α → β} {R : α → α → Prop} {xs ys : List α}
    (h : xs.map f = ys.map f) (hR : ∀ x y, f x = f y → R x y) : List.Forall₂ R xs ys := by
  have hsame : List.Forall₂ Eq (xs.map f) (ys.map f) := by rw [h, List.forall₂_eq_eq_eq]
  rw [List.forall₂_map_left_iff, List.forall₂_map_right_iff] at hsame
  exact hsame.imp hR

theorem Token.Twin.of_folded {t t' : Token} (h : t.folded = t'.folded) : t.Twin t' := by
  simp only [folded, Token.mk.injEq, String.ofList_inj] at h
  obtain ⟨hkind, hspan, htext, hvalue, hleading⟩ := h
  refine ⟨hkind, hspan, htext, ?_, forall₂_of_map hleading fun _ _ => .of_folded⟩
  cases hv : t.value <;> cases hv' : t'.value <;> simp [hv, hv'] at hvalue
  · exact .none
  · exact .some (.of_folded hvalue)

/-- Pieces of trivia that are twins, in front of tokens with the same index. -/
def Trivia.TwinAt (e e' : Nat × Trivia) : Prop := e.1 = e'.1 ∧ e.2.Twin e'.2

theorem TokenStream.triviaFrom_twins {ts ts' : List Token} (h : List.Forall₂ Token.Twin ts ts') (k : Nat) :
    List.Forall₂ Trivia.TwinAt (triviaFrom k ts) (triviaFrom k ts') := by
  induction h generalizing k with
  | nil => exact .nil
  | cons htwin _ ih =>
      refine List.rel_append ?_ (ih (k + 1))
      rw [List.forall₂_map_left_iff, List.forall₂_map_right_iff]
      exact htwin.leading.imp fun _ _ hpiece => ⟨rfl, hpiece⟩

/-- Two texts that differ only in the case of ASCII letters have the same lexical error, or the same
tokens and trivia up to case. -/
theorem tokenize_twins {src src' : List Char} (h : folded src = folded src') :
    (∃ fault, tokenize .visualBasic src = .error fault ∧
      tokenize .visualBasic src' = .error fault) ∨
    ∃ s s', tokenize .visualBasic src = .ok s ∧ tokenize .visualBasic src' = .ok s' ∧
      List.Forall₂ Token.Twin s.tokens.toList s'.tokens.toList ∧
      List.Forall₂ Trivia.TwinAt s.trivia s'.trivia := by
  have hsame := (tokenize_folded src).symm.trans (h ▸ tokenize_folded src')
  cases hs : tokenize .visualBasic src with
  | error fault =>
      cases hs' : tokenize .visualBasic src' with
      | error fault' =>
          rw [hs, hs'] at hsame
          exact .inl ⟨fault, rfl, congrArg Except.error (Except.error.inj hsame).symm⟩
      | ok s' => rw [hs, hs'] at hsame; cases hsame
  | ok s =>
      cases hs' : tokenize .visualBasic src' with
      | error fault' => rw [hs, hs'] at hsame; cases hsame
      | ok s' =>
          rw [hs, hs'] at hsame
          have htokens : s.tokens.toList.map Token.folded = s'.tokens.toList.map Token.folded :=
            congrArg (·.tokens.toList) (Except.ok.inj hsame)
          have htwins : List.Forall₂ Token.Twin s.tokens.toList s'.tokens.toList :=
            forall₂_of_map htokens fun _ _ => .of_folded
          refine .inr ⟨s, s', rfl, rfl, htwins, ?_⟩
          rw [congrArg TokenStream.trivia (exists_ofTokens hs),
            congrArg TokenStream.trivia (exists_ofTokens hs')]
          exact TokenStream.triviaFrom_twins htwins 0

end Folding

/-!
## VB ignores case

Two VB texts that differ only in the case of ASCII letters are cut and matched alike: they have the
same lexical error, or tokens and trivia of the same kinds in the same places that denote the same
numbers and truth values; and as any fragment they match with the same definitions in the same
places, or fail at the same token with the same expectations.
-/

/-! ### The places of matches -/

def TokenStream.SamePlaces (s s' : TokenStream) : Prop :=
  ∀ i, (s.get? i).map (·.span) = (s'.get? i).map (·.span)

theorem TokenStream.SamePlaces.of_forall₂ {s s' : TokenStream} {R : Token → Token → Prop}
    (h : List.Forall₂ R s.tokens.toList s'.tokens.toList)
    (hspan : ∀ t t', R t t' → t.span = t'.span) : s.SamePlaces s' := by
  have hspans : s.tokens.toList.map (·.span) = s'.tokens.toList.map (·.span) := by
    generalize s.tokens.toList = ts at h
    generalize s'.tokens.toList = ts' at h
    induction h with
    | nil => rfl
    | cons hhead _ ih => rw [List.map_cons, List.map_cons, hspan _ _ hhead, ih]
  intro i
  have hi := congrArg (·[i]?) hspans
  simpa [TokenStream.get?] using hi

namespace RawTree

variable {δ : Type} {s s' : TokenStream}

theorem span_node (h : s.SamePlaces s') (form : Option δ) (i j : Nat) (cs cs' : List (RawTree δ)) :
    (node form i j cs).span s = (node form i j cs').span s' := by
  have hplace (i : Nat) (o : Span) :
      (s.get? i).elim o (·.span) = (s'.get? i).elim o (·.span) := by
    have hi := h i
    cases hs : s.get? i <;> cases hs' : s'.get? i <;> simp [hs, hs'] at hi ⊢
    exact hi
  have hend : s.endBefore i = s'.endBefore i := by
    cases i with
    | zero => rfl
    | succ i =>
        have hi := h i
        unfold TokenStream.endBefore
        cases hs : s.get? i <;> cases hs' : s'.get? i <;> simp [hs, hs'] at hi ⊢
        rw [hi]
  simp only [span, hplace, hend]

mutual

/-- The matches of two trees with the same skeleton stand in the same places. -/
theorem nodes_span (h : s.SamePlaces s') : (t t' : RawTree δ) → t.skeleton = t'.skeleton →
    t.nodes.map (span s) = t'.nodes.map (span s')
  | leaf _, leaf _, _ => rfl
  | node form i j cs, node form' i' j' cs', hskeleton => by
      simp only [skeleton, Skeleton.node.injEq] at hskeleton
      obtain ⟨rfl, rfl, rfl, hcs⟩ := hskeleton
      rw [nodes, nodes, List.map_cons, List.map_cons, span_node h form i j cs cs',
        nodesOf_span h cs cs' hcs]
  | leaf _, node .., hskeleton | node .., leaf _, hskeleton => by cases hskeleton

theorem nodesOf_span (h : s.SamePlaces s') : (ts ts' : List (RawTree δ)) →
    skeletons ts = skeletons ts' → (nodesOf ts).map (span s) = (nodesOf ts').map (span s')
  | [], [], _ => rfl
  | t :: ts, t' :: ts', hskeleton => by
      simp only [skeletons, List.cons.injEq] at hskeleton
      rw [nodesOf, nodesOf, List.map_append, List.map_append, nodes_span h t t' hskeleton.1,
        nodesOf_span h ts ts' hskeleton.2]
  | [], _ :: _, hskeleton | _ :: _, [], hskeleton => by cases hskeleton

end

end RawTree

/-- VB is case-insensitive: two texts that differ only in the case of ASCII letters have the same
lexical error or the same tokens up to case, and then, as every fragment, the same match up to case
or the same failure. -/
theorem visualBasic_ignores_case {src src' : List Char} (h : Text.folded src = Text.folded src') :
    (∃ fault, tokenize .visualBasic src = .error fault ∧
      tokenize .visualBasic src' = .error fault) ∨
    ∃ s s', tokenize .visualBasic src = .ok s ∧ tokenize .visualBasic src' = .ok s' ∧
      List.Forall₂ Token.Twin s.tokens.toList s'.tokens.toList ∧
      List.Forall₂ Trivia.TwinAt s.trivia s'.trivia ∧
      ∀ fragment,
        (∃ tree tree',
          Packrat.parse VisualBasic.grammar (Language.visualBasic.root fragment) s =
            .parsed tree ∧
          Packrat.parse VisualBasic.grammar (Language.visualBasic.root fragment) s' =
            .parsed tree' ∧
          tree.skeleton = tree'.skeleton ∧ List.Forall₂ Token.Twin tree.tokens tree'.tokens ∧
          tree.nodes.map (RawTree.span s) = tree'.nodes.map (RawTree.span s')) ∨
        ∃ failure,
          Packrat.parse VisualBasic.grammar (Language.visualBasic.root fragment) s =
            .failed failure ∧
          Packrat.parse VisualBasic.grammar (Language.visualBasic.root fragment) s' =
            .failed failure := by
  rcases tokenize_twins h with hfault | ⟨s, s', hs, hs', htwins, htrivia⟩
  · exact .inl hfault
  · refine .inr ⟨s, s', hs, hs', htwins, htrivia, fun fragment => ?_⟩
    have hplaces : s.SamePlaces s' := .of_forall₂ htwins fun _ _ ht => ht.span
    have hparallel := Packrat.parse_parallel hs hs' htwins (fun _ _ ht => ht.kind)
      VisualBasic.grammar (Language.visualBasic.root fragment)
    generalize Packrat.parse VisualBasic.grammar (Language.visualBasic.root fragment) s = x
      at hparallel ⊢
    generalize Packrat.parse VisualBasic.grammar (Language.visualBasic.root fragment) s' = y
      at hparallel ⊢
    cases hparallel with
    | parsed hskeleton htokens =>
        exact .inl ⟨_, _, rfl, rfl, hskeleton, htokens, RawTree.nodes_span hplaces _ _ hskeleton⟩
    | failed failure => exact .inr ⟨failure, rfl, rfl⟩

/-- A word, a hexadecimal number with its suffix, a character and a comment in two cases. -/
theorem visualBasic_ignores_case_assignment :
    ∃ s s', tokenize .visualBasic "If A Then b = &HfFuL + \"x\"C Rem End".toList = .ok s ∧
      tokenize .visualBasic "iF a tHEN B = &hffUL + \"X\"c rEM eND".toList = .ok s' ∧
      List.Forall₂ Token.Twin s.tokens.toList s'.tokens.toList := by
  rcases @visualBasic_ignores_case "If A Then b = &HfFuL + \"x\"C Rem End".toList
      "iF a tHEN B = &hffUL + \"X\"c rEM eND".toList (by decide) with
    ⟨fault, hfault, -⟩ | ⟨s, s', hs, hs', htwins, -⟩
  · have hok : (tokenize .visualBasic
        "If A Then b = &HfFuL + \"x\"C Rem End".toList).toOption.isSome = true := by decide +kernel
    rw [hfault] at hok
    cases hok
  · exact ⟨s, s', hs, hs', htwins⟩

end DualSyntax
