import DualSyntax.Proofs.RoundTrip.Cast

/-!
# Escaped words

Reserved words are escaped when they are printed, other words are not.  In C# an escaped word that
is contextual loses the mark it needs as the operand of a cast; in VB the word `Rem` loses the
brackets without which it begins a comment.  Every other word comes through printing and reading.
-/

namespace DualSyntax

open Lexing

/-! ## Names in VB -/

namespace VisualBasic.Name

open Lowering

/-- The definitions between an expression and a name. -/
def operatorLevels : List Form :=
  [.expression, .xorExpression, .orExpression, .andExpression, .notExpression,
   .comparisonExpression, .shiftExpression, .concatenationExpression, .additiveExpression,
   .modulusExpression, .integerDivisionExpression, .multiplicativeExpression,
   .negationExpression, .exponentExpression, .postfixExpression, .primaryExpression]

def nameMatch (name : Token) : RawTree Form :=
  .node (some .identifierExpression) 0 1 [.node (some .identifier) 0 1 [.leaf name]]

def tree (name last : Token) : RawTree Form :=
  .node none 0 2 [.nest operatorLevels 0 1 (nameMatch name), .leaf last]

def forest (range : NodeId → TextRange) (name : String) : Forest :=
  ⟨#[⟨.identifierExpression, range 0, none, [(.identifier, 1)]⟩,
    ⟨.identifier name, range 1, some 0, []⟩]⟩

theorem forest_agree (range range' : NodeId → TextRange) (name : String) :
    (forest range name).agree 0 (forest range' name) 0 = true := by
  apply Forest.agree_of_links
  · rfl
  · intro d hd
    simp only [forest, List.mem_toArray, List.mem_cons, List.not_mem_nil, or_false] at hd
    rcases hd with rfl | rfl
    · rfl
    · exact NodeKind.identifier_agrees name

theorem tree_tokens (name last : Token) : (tree name last).tokens = [name, last] := by
  simp [tree, nameMatch, RawTree.tokens, RawTree.tokensOf, RawTree.nest_tokens]

theorem tree_height (name last : Token) : (tree name last).height = 20 := by
  simp [tree, nameMatch, operatorLevels, RawTree.height, RawTree.heightOf, RawTree.nest_height]

theorem tree_skeleton {name last : Token} (hname : name.kind ∈ nameTokens)
    (hlast : last.kind = .eof) :
    (Packrat.parse grammar .expression (.ofKinds [name.kind, .eof])).skeleton? =
      some (tree name last).skeleton := by
  have hclosed : ∀ k ∈ nameTokens,
      (Packrat.parse grammar .expression (.ofKinds [k, .eof])).skeleton? =
        some (tree ⟨k, ⟨0, 0⟩, "", none, []⟩ ⟨.eof, ⟨0, 0⟩, "", none, []⟩).skeleton := by
    decide +kernel
  obtain ⟨kind, span, text, value, leading⟩ := last
  cases hlast
  rw [hclosed _ hname]
  rfl

theorem parse_tree {s : TokenStream} {name last : Token} (hs : s.tokens.toList = [name, last])
    (hname : name.kind ∈ nameTokens) (hlast : last.kind = .eof) :
    Packrat.parse grammar .expression s = .parsed (tree name last) := by
  have hinit : s.tokens.toList = [name] ++ [last] := hs
  have htokens : (tree name last).tokens = s.tokens.toList := by rw [tree_tokens, hs]
  apply Packrat.parse_eq_parsed hinit htokens
  simp only [hs, List.map_cons, List.map_nil, hlast]
  exact tree_skeleton hname hlast

def places (stream : TokenStream) (lines : LineTable) (name : Token) : NodeId → TextRange
  | 0 => lines.textRange ((nameMatch name).span stream)
  | _ => lines.textRange name.span

theorem lower_tree (stream : TokenStream) (lines : LineTable) {name : Token} (last : Token)
    (hname : name.kind ∈ nameTokens) :
    (tree name last).lower grammar ⟨.visualBasic, stream, lines⟩ =
      .ok (0, ⟨forest (places stream lines name) (Language.visualBasic.unescape name.text),
        #[]⟩) := by
  rw [RawTree.lower, tree_height, tree]
  refine lowerUpTo_wholeText rfl ?_ rfl
  rw [nameMatch, lowerUpTo_nest 3 (by rfl) (by rfl)]
  -- the cursor skips terminators, and no name token is one
  obtain ⟨kind, span, text, value, leading⟩ := name
  simp only [nameTokens, List.mem_cons, List.not_mem_nil, or_false] at hname
  rcases hname with rfl | rfl | rfl | rfl | rfl <;> rfl

/-! ### Texts -/

theorem tokenize_comment {x : List Char} {found : Lexeme} (hx : x ≠ [])
    (hnext : next .visualBasic {} x = .ok (true, found)) (hlength : found.length = x.length) :
    ∃ s last, tokenize .visualBasic x = .ok s ∧ last.kind = .eof ∧ s.tokens.toList = [last] := by
  obtain ⟨n, hn⟩ := tokenize_of_ne_nil .visualBasic hx
  rw [← List.append_nil x] at hnext
  rw [hn, tokensFrom_trivia hx hnext hlength, tokensFrom_nil]
  exact ⟨_, _, rfl, rfl, rfl⟩

theorem parse_name {x : List Char} {found : Lexeme} (hx : x ≠ [])
    (hnext : next .visualBasic {} x = .ok (false, found)) (hlength : found.length = x.length)
    (hkind : found.kind ∈ nameTokens) :
    ∃ range, parse .visualBasic .expression x =
      .ok ⟨forest range (Language.visualBasic.unescape (String.ofList x)), 0, []⟩ := by
  have hs := tokenize_lexeme hx hnext hlength
  have htree := parse_tree (s := .single x found.kind found.value) rfl hkind rfl
  exact ⟨_, parse_eq_ok hs htree (lower_tree _ _ _ hkind)⟩

theorem parse_comment {x : List Char} {found : Lexeme} (hx : x ≠ [])
    (hnext : next .visualBasic {} x = .ok (true, found)) (hlength : found.length = x.length)
    (p : Parsed) : parse .visualBasic .expression x ≠ .ok p := by
  have hfails : (Packrat.parse grammar .expression (.ofKinds [.eof])).skeleton? = none := by
    decide +kernel
  obtain ⟨s, last, hs, hlast, htokens⟩ := tokenize_comment hx hnext hlength
  refine parse_ne_ok hs ?_ p
  refine (Packrat.parse_skeleton grammar .expression s).trans ?_
  simp only [htokens, List.map_cons, List.map_nil, hlast]
  exact hfails

theorem write_name (range : NodeId → TextRange) (name : String) :
    ∃ o, write .visualBasic (forest range name) 0 {} = .ok o ∧
      o.text = Language.visualBasic.spelling name := by
  have hsteps : Writing.steps .visualBasic (forest range name) 0 {} = .ok
      [.start 0, .start 1, .text (Language.visualBasic.spelling name), .stop 1, .stop 0] := rfl
  have hname := ((Output.Prints.text (Language.visualBasic.spelling name)).node 1).node 0
  exact write_of_steps hsteps hname

theorem kind_mem_nameTokens {w : List Char}
    (h : Language.visualBasic.isReserved (String.ofList w) = false) :
    (wordLexeme .visualBasic w).kind ∈ nameTokens := by
  have htable : ∀ e ∈ Language.visualBasic.contextual, e.2 ∈ nameTokens := by decide
  rw [wordLexeme_kind h]
  cases hfound : Language.visualBasic.findWord Language.visualBasic.contextual
      (String.ofList w) with
  | none => decide
  | some k =>
      obtain ⟨e, he, rfl⟩ := Option.map_eq_some_iff.mp hfound
      exact htable e (List.mem_of_find?_eq_some he)

theorem not_reserved_of_rem {w : List Char} (h : w.map Char.toLower = "rem".toList) :
    Language.visualBasic.isReserved (String.ofList w) = false := by
  have hlower : Language.visualBasic.normalize (String.ofList w) = "rem" := by
    have hnormal : Language.visualBasic.normalize (String.ofList w) =
        (String.ofList w).map Char.toLower := rfl
    rw [← String.toList_inj, ← h, hnormal, String.toList_map, String.toList_ofList]
  have htable : (Language.visualBasic.reserved.find? fun e =>
      Language.visualBasic.normalize e.1 == "rem") = none := by
    decide +kernel
  rw [Language.isReserved, Language.findWord, hlower, htable]
  rfl

theorem lineLength_word {w : List Char} (hw : IsWord w) : lineLength w = w.length := by
  have hbody {c : Char} (hc : c ∈ w) {x : Char} (hx : isNameBody x = false) : c ≠ x := by
    rintro rfl
    simp [hw.2 c hc] at hx
  have hline : w.takeWhile (· != '\n') = w := by
    have hall : ∀ c ∈ w, (c != '\n') = true := by
      intro c hc
      simpa using hbody hc (x := '\n') rfl
    have happend : (w ++ []).takeWhile (· != '\n') = w ++ [] := List.takeWhile_append_of_pos hall
    rwa [List.append_nil] at happend
  have hlast : w.getLast? ≠ some '\r' := by
    intro h
    exact hbody (List.mem_of_getLast? h) (x := '\r') rfl rfl
  rw [lineLength, hline, if_neg hlast]

/-- A word in brackets is a name; printed and read again it is one exactly if it is not `Rem`. -/
theorem roundTrips_name_iff {w : List Char} (hw : IsWord w) :
    Printed .visualBasic .expression ('[' :: (w ++ [']'])) ∧
      (RoundTrips .visualBasic .expression ('[' :: (w ++ [']'])) ↔
        w.map Char.toLower ≠ "rem".toList) := by
  have hsrc : (Language.visualBasic.escaped (String.ofList w)).toList = '[' :: (w ++ [']']) := by
    simp [Language.escaped]
  have hname : Language.visualBasic.unescape (String.ofList ('[' :: (w ++ [']']))) =
      String.ofList w := by
    rw [← hsrc, String.ofList_toList]
    exact Language.unescape_escaped _ _
  have hcontinuation : Lexing.VisualBasic.continuation none w = none := by
    unfold Lexing.VisualBasic.continuation
    split <;> rfl
  have hbare : next .visualBasic {} w = .ok (if w.map Char.toLower = "rem".toList
      then (true, ⟨.lineComment, lineLength w, none⟩)
      else (false, wordLexeme .visualBasic w)) := by
    have h : next .visualBasic {} (w ++ []) = _ := next_word_visualBasic hw rfl
    simpa [hcontinuation] using h
  have hescaped : next .visualBasic {} ('[' :: (w ++ [']'])) =
      .ok (false, ⟨.identifier, w.length + 2, none⟩) := next_escaped_visualBasic hw
  have hkind : TokenKind.identifier ∈ nameTokens := by decide
  obtain ⟨range, hp⟩ := parse_name (by simp) hescaped (by simp) hkind
  rw [hname] at hp
  obtain ⟨o, ho, htext⟩ := write_name range (String.ofList w)
  refine ⟨⟨_, o, hp, ho⟩, ?_⟩
  rw [roundTrips_iff hp ho, htext, Language.spelling]
  by_cases hrem : w.map Char.toLower = "rem".toList
  · have hreserved := not_reserved_of_rem hrem
    rw [if_pos hrem] at hbare
    have hfails := parse_comment hw.ne_nil hbare (lineLength_word hw)
    simp only [hreserved, Bool.false_eq_true, if_false, String.toList_ofList, hrem, ne_eq,
      not_true_eq_false, iff_false]
    rintro ⟨p', hp', -⟩
    exact hfails p' hp'
  · simp only [ne_eq, hrem, not_false_eq_true, iff_true]
    cases hreserved : Language.visualBasic.isReserved (String.ofList w) with
    | true =>
        rw [if_pos rfl, hsrc]
        exact ⟨_, hp, forest_agree range range _⟩
    | false =>
        rw [if_neg hrem] at hbare
        obtain ⟨range', hp'⟩ := parse_name hw.ne_nil hbare rfl (kind_mem_nameTokens hreserved)
        rw [Language.unescape_word _ hw] at hp'
        rw [if_neg (by simp), String.toList_ofList]
        exact ⟨_, hp', forest_agree range range' _⟩

end VisualBasic.Name

/-! ## Both languages -/

/-- The words whose escape survives printing.  In C# every word can be escaped as the operand of a
cast, in VB as a name, and the text can be printed; what is printed is read as the same tree exactly
if the word is not contextual in C# and not `Rem` in VB. -/
theorem escapedWord_roundTrips_iff {t w : List Char} (ht : IsWord t)
    (hplain : Language.csharp.keyword? (String.ofList t) = none) (hw : IsWord w) :
    (Printed .csharp .expression ('(' :: (t ++ ')' :: '@' :: w)) ∧
      (RoundTrips .csharp .expression ('(' :: (t ++ ')' :: '@' :: w)) ↔
        Language.csharp.findWord Language.csharp.contextual (String.ofList w) = none)) ∧
    (Printed .visualBasic .expression ('[' :: (w ++ [']'])) ∧
      (RoundTrips .visualBasic .expression ('[' :: (w ++ [']'])) ↔
        w.map Char.toLower ≠ "rem".toList)) :=
  ⟨CSharp.Cast.roundTrips_source_iff ht hplain hw, VisualBasic.Name.roundTrips_name_iff hw⟩

/-- The word `get` loses its mark in C#, and the word `Rem` in VB; the other way around both are
kept. -/
theorem escapedWord_roundTrips_get_rem :
    (¬ RoundTrips .csharp .expression "(T)@get".toList ∧
      RoundTrips .visualBasic .expression "[get]".toList) ∧
    (RoundTrips .csharp .expression "(T)@Rem".toList ∧
      ¬ RoundTrips .visualBasic .expression "[Rem]".toList) := by
  have ht : IsWord "T".toList := by decide
  have hplain : Language.csharp.keyword? "T" = none := by decide
  have hget : IsWord "get".toList := by decide
  have hrem : IsWord "Rem".toList := by decide
  obtain ⟨⟨-, hgetCSharp⟩, -, hgetVisualBasic⟩ := escapedWord_roundTrips_iff ht hplain hget
  obtain ⟨⟨-, hremCSharp⟩, -, hremVisualBasic⟩ := escapedWord_roundTrips_iff ht hplain hrem
  refine ⟨⟨?_, hgetVisualBasic.mpr (by decide)⟩, hremCSharp.mpr (by decide), ?_⟩
  · intro h
    have hnone := hgetCSharp.mp h
    revert hnone
    decide
  · intro h
    have hne := hremVisualBasic.mp h
    exact hne (by decide)

end DualSyntax
