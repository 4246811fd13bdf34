import DualSyntax.Parsing
import DualSyntax.Proofs.Forest.Agree
import DualSyntax.Proofs.Lowering.Nested
import DualSyntax.Proofs.Packrat.Kinds
import DualSyntax.Proofs.Writing.Printed
import DualSyntax.Writing

/-!
# Round trips, and casts of escaped words in C#

A text round-trips if its tree, printed in its own language, is read again as a tree that agrees
with it.

A named type in parentheses is a cast only if the token after it can begin an operand and nothing
else.  An identifier can, a contextual word cannot, although it may be a name.  The writer escapes
reserved words only, so it prints the cast of an escaped contextual word as a text that is no cast
any more.
-/

namespace DualSyntax

/-- A text whose tree can be printed. -/
def Printed (l : Language) (fragment : Fragment) (src : List Char) : Prop :=
  ∃ p o, parse l fragment src = .ok p ∧ write l p.forest p.root {} = .ok o

/-- Whatever a text is printed as is read again, as a tree that agrees with that of the text. -/
def RoundTrips (l : Language) (fragment : Fragment) (src : List Char) : Prop :=
  ∀ p o, parse l fragment src = .ok p → write l p.forest p.root {} = .ok o →
    ∃ p', parse l fragment o.text.toList = .ok p' ∧
      p.forest.agree p.root p'.forest p'.root = true

theorem roundTrips_iff {l : Language} {fragment : Fragment} {src : List Char} {p : Parsed}
    {o : Output} (hp : parse l fragment src = .ok p)
    (ho : write l p.forest p.root {} = .ok o) :
    RoundTrips l fragment src ↔ ∃ p', parse l fragment o.text.toList = .ok p' ∧
      p.forest.agree p.root p'.forest p'.root = true := by
  constructor
  · intro h
    exact h p o hp ho
  · intro h p₁ o₁ hp₁ ho₁
    cases hp.symm.trans hp₁
    cases ho.symm.trans ho₁
    exact h

/-- The stages of parsing, put together. -/
theorem parse_eq_ok {l : Language} {fragment : Fragment} {src : List Char} {s : TokenStream}
    {tree : RawTree l.Form} {root : NodeId} {f : Forest} (hs : tokenize l src = .ok s)
    (htree : Packrat.parse l.grammar (l.root fragment) s = .parsed tree)
    (hlower : tree.lower l.grammar ⟨l, s, .ofText src⟩ = .ok (root, ⟨f, #[]⟩)) :
    parse l fragment src = .ok ⟨f, root, []⟩ := by
  simp only [parse, parseRaw, Source.ofText, hs, Source.matchBy, htree, bind, Except.bind, pure,
    Except.pure, hlower]
  rfl

/-- A text without a raw tree is not parsed. -/
theorem parse_ne_ok {l : Language} {fragment : Fragment} {src : List Char} {s : TokenStream}
    (hs : tokenize l src = .ok s)
    (htree : (Packrat.parse l.grammar (l.root fragment) s).skeleton? = none) (p : Parsed) :
    parse l fragment src ≠ .ok p := by
  cases hparsed : Packrat.parse l.grammar (l.root fragment) s with
  | parsed tree =>
      rw [hparsed] at htree
      cases htree
  | failed _ | exhausted =>
      simp [parse, parseRaw, Source.ofText, hs, Source.matchBy, hparsed, bind, Except.bind]

end DualSyntax

/-! ## Casts of escaped words -/

namespace DualSyntax.CSharp.Cast

open Lexing Lowering

def operatorLevels : List Form :=
  [.expression, .conditionalExpression, .nullCoalescingExpression, .conditionalOrExpression,
   .conditionalAndExpression, .inclusiveOrExpression, .exclusiveOrExpression, .andExpression,
   .equalityExpression, .relationalExpression, .shiftExpression, .additiveExpression,
   .multiplicativeExpression, .unaryExpression]

/-! ## Matches -/

def leftParenthesis : Token := ⟨.lParen, ⟨0, 1⟩, "(", none, []⟩

def typeWord (t : List Char) : Token :=
  ⟨.identifier, ⟨1, 1 + Text.byteLength t⟩, String.ofList t, none, []⟩

def rightParenthesis (t : List Char) : Token :=
  ⟨.rParen, ⟨1 + Text.byteLength t, 1 + Text.byteLength t + 1⟩, ")", none, []⟩

def typeMatch (t : List Char) : RawTree Form :=
  .nest [.type, .nonArrayType] 1 2
    (.node (some .typeName) 1 2 [.node (some .identifier) 1 2 [.leaf (typeWord t)]])

def operandMatch (name : Token) : RawTree Form :=
  .nest [.unaryExpression, .postfixExpression, .primaryExpression] 3 4
    (.node (some .identifierExpression) 3 4 [.node (some .identifier) 3 4 [.leaf name]])

def castMatch (t : List Char) (name : Token) : RawTree Form :=
  .node (some .castExpression) 0 4
    [.leaf leftParenthesis, typeMatch t, .leaf (rightParenthesis t), operandMatch name]

def tree (t : List Char) (name last : Token) : RawTree Form :=
  .node none 0 5 [.nest operatorLevels 0 4 (castMatch t name), .leaf last]

theorem tree_tokens (t : List Char) (name last : Token) : (tree t name last).tokens =
    [leftParenthesis, typeWord t, rightParenthesis t, name, last] := by
  simp [tree, castMatch, typeMatch, operandMatch, RawTree.tokens, RawTree.tokensOf,
    RawTree.nest_tokens]

theorem tree_height (t : List Char) (name last : Token) : (tree t name last).height = 22 := by
  simp [tree, castMatch, typeMatch, operandMatch, operatorLevels, RawTree.height,
    RawTree.heightOf, RawTree.nest_height]

theorem tree_skeleton (t : List Char) {name last : Token} (hname : name.kind = .identifier)
    (hlast : last.kind = .eof) :
    (Packrat.parse grammar .expression
      (.ofKinds [.lParen, .identifier, .rParen, .identifier, .eof])).skeleton? =
        some (tree t name last).skeleton := by
  have hclosed : (Packrat.parse grammar .expression
      (.ofKinds [.lParen, .identifier, .rParen, .identifier, .eof])).skeleton? =
        some (tree [] ⟨.identifier, ⟨0, 0⟩, "", none, []⟩
          ⟨.eof, ⟨0, 0⟩, "", none, []⟩).skeleton := by
    decide +kernel
  obtain ⟨kind, span, text, value, leading⟩ := name
  obtain ⟨kind', span', text', value', leading'⟩ := last
  cases hname
  cases hlast
  rw [hclosed]
  rfl

theorem parse_tree {s : TokenStream} {t : List Char} {name last : Token}
    (hs : s.tokens.toList = [leftParenthesis, typeWord t, rightParenthesis t, name, last])
    (hname : name.kind = .identifier) (hlast : last.kind = .eof) :
    Packrat.parse grammar .expression s = .parsed (tree t name last) := by
  have hinit : s.tokens.toList =
      [leftParenthesis, typeWord t, rightParenthesis t, name] ++ [last] := hs
  have htokens : (tree t name last).tokens = s.tokens.toList := by rw [tree_tokens, hs]
  apply Packrat.parse_eq_parsed hinit htokens
  simp only [hs, List.map_cons, List.map_nil, hname, hlast]
  exact tree_skeleton t hname hlast

/-! ## Nodes -/

section Nodes

variable (range : NodeId → TextRange) (t name : String)

def node (slots : List (Title × NodeId)) : NodeData :=
  ⟨.castExpression .explicit, range 0, none, slots⟩

def opening : NodeData := ⟨.token .lParen "(", range 1, some 0, []⟩

def typeName : NodeData := ⟨.identifier t, range 2, some 3, []⟩

def type (parent : Option NodeId) : NodeData := ⟨.simpleType, range 3, parent, [(.identifier, 2)]⟩

def closing : NodeData := ⟨.token .rParen ")", range 4, some 0, []⟩

def operand (parent : Option NodeId) : NodeData :=
  ⟨.identifierExpression, range 5, parent, [(.identifier, 6)]⟩

def operandName : NodeData := ⟨.identifier name, range 6, some 5, []⟩

def forest : Forest :=
  ⟨#[node range [(.leftParenthesis, 1), (.type, 3), (.rightParenthesis, 4), (.expression, 5)],
    opening range, typeName range t, type range (some 0), closing range,
    operand range (some 0), operandName range name]⟩

theorem forest_agree (range' : NodeId → TextRange) :
    (forest range t name).agree 0 (forest range' t name) 0 = true := by
  apply Forest.agree_of_links
  · rfl
  · intro d hd
    simp only [forest, List.mem_toArray, List.mem_cons, List.not_mem_nil, or_false] at hd
    rcases hd with rfl | rfl | rfl | rfl | rfl | rfl | rfl
    case inr.inr.inl => exact NodeKind.identifier_agrees t
    case inr.inr.inr.inr.inr.inr => exact NodeKind.identifier_agrees name
    all_goals rfl

end Nodes

/-! ## Lowering -/

section Places

variable (stream : TokenStream) (lines : LineTable) (t : List Char) (name : Token)

def places : NodeId → TextRange
  | 0 => lines.textRange ((castMatch t name).span stream)
  | 1 => lines.textRange ⟨0, 1⟩
  | 2 => lines.textRange (typeWord t).span
  | 3 => lines.textRange ((RawTree.node (some Form.identifier) 1 2 []).span stream)
  | 4 => lines.textRange (rightParenthesis t).span
  | 5 => lines.textRange ((RawTree.node (some Form.identifierExpression) 3 4 []).span stream)
  | _ => lines.textRange name.span

theorem lower_castMatch : lowerUpTo grammar 7 (castMatch t name) ⟨.csharp, stream, lines⟩ {} =
    .ok (0, ⟨forest (places stream lines t name) (Language.csharp.unescape (String.ofList t))
      (Language.csharp.unescape name.text), #[]⟩) := by
  let r := places stream lines t name
  let u := Language.csharp.unescape (String.ofList t)
  let v := Language.csharp.unescape name.text
  let source : Source := ⟨.csharp, stream, lines⟩
  have hopening : Lower.setToken 0 .leftParenthesis leftParenthesis source
      ⟨⟨#[node r []]⟩, #[]⟩ =
        .ok ((), ⟨⟨#[node r [(.leftParenthesis, 1)], opening r]⟩, #[]⟩) := rfl
  have htype : lowerUpTo grammar 6 (typeMatch t) source
      ⟨⟨#[node r [(.leftParenthesis, 1)], opening r]⟩, #[]⟩ =
        .ok (3, ⟨⟨#[node r [(.leftParenthesis, 1)], opening r, typeName r u, type r none]⟩, #[]⟩) := by
    rw [typeMatch, lowerUpTo_nest 4 (by rfl) (by rfl)]
    rfl
  have htypeSet : Lower.set 0 .type 3 source
      ⟨⟨#[node r [(.leftParenthesis, 1)], opening r, typeName r u, type r none]⟩, #[]⟩ =
        .ok ((), ⟨⟨#[node r [(.leftParenthesis, 1), (.type, 3)], opening r, typeName r u,
          type r (some 0)]⟩, #[]⟩) := rfl
  have hclosing : Lower.setToken 0 .rightParenthesis (rightParenthesis t) source
      ⟨⟨#[node r [(.leftParenthesis, 1), (.type, 3)], opening r, typeName r u,
        type r (some 0)]⟩, #[]⟩ =
        .ok ((), ⟨⟨#[node r [(.leftParenthesis, 1), (.type, 3), (.rightParenthesis, 4)],
          opening r, typeName r u, type r (some 0), closing r]⟩, #[]⟩) := rfl
  have hoperand : lowerUpTo grammar 6 (operandMatch name) source
      ⟨⟨#[node r [(.leftParenthesis, 1), (.type, 3), (.rightParenthesis, 4)], opening r,
        typeName r u, type r (some 0), closing r]⟩, #[]⟩ =
        .ok (5, ⟨⟨#[node r [(.leftParenthesis, 1), (.type, 3), (.rightParenthesis, 4)],
          opening r, typeName r u, type r (some 0), closing r, operand r none,
          operandName r v]⟩, #[]⟩) := by
    rw [operandMatch, lowerUpTo_nest 3 (by rfl) (by rfl)]
    rfl
  have hoperandSet : Lower.set 0 .expression 5 source
      ⟨⟨#[node r [(.leftParenthesis, 1), (.type, 3), (.rightParenthesis, 4)], opening r,
        typeName r u, type r (some 0), closing r, operand r none,
        operandName r v]⟩, #[]⟩ =
        .ok ((), ⟨forest r u v, #[]⟩) := rfl
  have hparts : readParts grammar (lowerUpTo grammar 6) 0 (castMatch t name)
      ⟨"CastExpression",
        [.leaf leftParenthesis, typeMatch t, .leaf (rightParenthesis t), operandMatch name]⟩
      [.keep .lParen .leftParenthesis, .node .type, .keep .rParen .rightParenthesis,
        .node .expression] source ⟨⟨#[node r []]⟩, #[]⟩ =
        .ok (⟨"CastExpression", []⟩,
          ⟨forest r u v, #[]⟩) := by
    rw [readParts_keep (by rfl) hopening, readParts_node (by rfl) htype htypeSet,
      readParts_keep (by rfl) hclosing, readParts_node (by rfl) hoperand hoperandSet]
    rfl
  rw [castMatch, lowerUpTo_node rfl]
  exact build_ok hparts

theorem lower_tree (last : Token) : (tree t name last).lower grammar ⟨.csharp, stream, lines⟩ =
    .ok (0, ⟨forest (places stream lines t name) (Language.csharp.unescape (String.ofList t))
      (Language.csharp.unescape name.text), #[]⟩) := by
  rw [RawTree.lower, tree_height, tree]
  refine lowerUpTo_wholeText rfl ?_ rfl
  rw [castMatch, lowerUpTo_nest 7 (by rfl) (by rfl), ← castMatch]
  exact lower_castMatch stream lines t name

end Places

/-! ## Texts -/

/-- The text of a cast to the type named `t`, with the operand `x`. -/
def source (t x : List Char) : List Char := '(' :: (t ++ ')' :: x)

section Texts

variable {t x : List Char} {found : Lexeme} (ht : IsWord t)
  (hplain : Language.csharp.keyword? (String.ofList t) = none) (hx : x ≠ [])
  (hnext : ∀ cx, next .csharp cx x = .ok (false, found)) (hlength : found.length = x.length)
include ht hplain hx hnext hlength

theorem tokenize_source : ∃ s last, tokenize .csharp (source t x) = .ok s ∧ last.kind = .eof ∧
    s.tokens.toList = [leftParenthesis, typeWord t, rightParenthesis t,
      ⟨found.kind, ⟨1 + Text.byteLength t + 1, 1 + Text.byteLength t + 1 + Text.byteLength x⟩,
        String.ofList x, found.value, []⟩, last] := by
  have hopening (cx : Context) (rest : List Char) :
      next .csharp cx (['('] ++ rest) = .ok (false, ⟨.lParen, 1, none⟩) := rfl
  have hword : wordLexeme .csharp t = ⟨.identifier, t.length, none⟩ := by
    rw [wordLexeme, hplain]
    rfl
  have htype (cx : Context) : next .csharp cx (t ++ ([')'] ++ (x ++ []))) =
      .ok (false, ⟨.identifier, t.length, none⟩) := by
    rw [← hword]
    exact next_word_csharp ht rfl
  have hclosing (cx : Context) (rest : List Char) :
      next .csharp cx ([')'] ++ rest) = .ok (false, ⟨.rParen, 1, none⟩) := rfl
  have hname (cx : Context) : next .csharp cx (x ++ []) = .ok (false, found) := by
    rw [List.append_nil]
    exact hnext cx
  have hsrc : source t x = ['('] ++ (t ++ ([')'] ++ (x ++ []))) := by simp [source]
  -- four tokens need four steps, and every character was counted as one
  have hx' : 0 < x.length := List.length_pos_iff.mpr hx
  have ht' : 0 < t.length := List.length_pos_iff.mpr ht.ne_nil
  obtain ⟨n, hfuel⟩ : ∃ n, (['('] ++ (t ++ ([')'] ++ (x ++ [])))).length = n + 1 + 1 + 1 + 1 := by
    refine ⟨t.length + x.length - 2, ?_⟩
    simp only [List.length_append, List.length_cons, List.length_nil]
    omega
  rw [tokenize, hsrc, hfuel, tokensFrom_token (by simp) (hopening _ _) rfl,
    tokensFrom_token ht.ne_nil (htype _) rfl, tokensFrom_token (by simp) (hclosing _ _) rfl,
    tokensFrom_token hx (hname _) hlength, tokensFrom_nil]
  exact ⟨_, _, rfl, rfl, rfl⟩

theorem parse_source (hkind : found.kind = .identifier) :
    ∃ range, parse .csharp .expression (source t x) =
      .ok ⟨forest range (String.ofList t) (Language.csharp.unescape (String.ofList x)), 0, []⟩ := by
  obtain ⟨s, last, hs, hlast, htokens⟩ := tokenize_source ht hplain hx hnext hlength
  have htree := parse_tree htokens hkind hlast
  have hlower := lower_tree s (.ofText (source t x)) t
    ⟨found.kind, ⟨1 + Text.byteLength t + 1, 1 + Text.byteLength t + 1 + Text.byteLength x⟩,
      String.ofList x, found.value, []⟩ last
  rw [Language.unescape_word _ ht] at hlower
  exact ⟨_, parse_eq_ok hs htree hlower⟩

/-- After a type in parentheses no contextual word can begin an operand. -/
theorem parse_source_contextual (hkind : found.kind ∈ Language.csharp.contextual.map (·.2))
    (p : Parsed) : parse .csharp .expression (source t x) ≠ .ok p := by
  have hfails : ∀ k ∈ Language.csharp.contextual.map (·.2), (Packrat.parse grammar .expression
      (.ofKinds [.lParen, .identifier, .rParen, k, .eof])).skeleton? = none := by
    decide +kernel
  obtain ⟨s, last, hs, hlast, htokens⟩ := tokenize_source ht hplain hx hnext hlength
  refine parse_ne_ok hs ?_ p
  refine (Packrat.parse_skeleton grammar .expression s).trans ?_
  simp only [htokens, List.map_cons, List.map_nil, hlast]
  exact hfails _ hkind

end Texts

theorem write_forest (range : NodeId → TextRange) (t name : String) :
    ∃ o, write .csharp (forest range t name) 0 {} = .ok o ∧
      o.text = "(" ++ Language.csharp.spelling t ++ ")" ++ Language.csharp.spelling name := by
  have hsteps : Writing.steps .csharp (forest range t name) 0 {} = .ok
      [.start 0, .text "(", .start 3, .start 2, .text (Language.csharp.spelling t), .stop 2,
       .stop 3, .text ")", .start 5, .start 6, .text (Language.csharp.spelling name), .stop 6,
       .stop 5, .stop 0] := rfl
  have htype := ((Output.Prints.text (Language.csharp.spelling t)).node 2).node 3
  have hname := ((Output.Prints.text (Language.csharp.spelling name)).node 6).node 5
  have hall := ((((Output.Prints.text "(").append htype).append (.text ")")).append hname).node 0
  exact write_of_steps hsteps hall

theorem mem_contextual {name : String} {k : TokenKind}
    (h : Language.csharp.findWord Language.csharp.contextual name = some k) :
    (name, k) ∈ Language.csharp.contextual := by
  obtain ⟨e, he, rfl⟩ := Option.map_eq_some_iff.mp h
  have hname : e.1 = name := by
    simpa [Language.normalize, Language.caseSensitive] using List.find?_some he
  subst hname
  exact List.mem_of_find?_eq_some he

theorem not_reserved_of_contextual {name : String} {k : TokenKind}
    (h : Language.csharp.findWord Language.csharp.contextual name = some k) :
    Language.csharp.isReserved name = false := by
  have htable : ∀ e ∈ Language.csharp.contextual, Language.csharp.isReserved e.1 = false := by
    decide
  exact htable _ (mem_contextual h)

/-- A type in front of an escaped word casts it; printed and read again it does so exactly if the
word is not contextual. -/
theorem roundTrips_source_iff {t w : List Char} (ht : IsWord t)
    (hplain : Language.csharp.keyword? (String.ofList t) = none) (hw : IsWord w) :
    Printed .csharp .expression (source t ('@' :: w)) ∧
      (RoundTrips .csharp .expression (source t ('@' :: w)) ↔
        Language.csharp.findWord Language.csharp.contextual (String.ofList w) = none) := by
  have hescaped (cx : Context) : next .csharp cx ('@' :: w) =
      .ok (false, ⟨.identifier, 1 + w.length, none⟩) := by
    have h : next .csharp cx ('@' :: (w ++ [])) = _ := next_escaped_csharp hw rfl
    rwa [List.append_nil] at h
  have hbare (cx : Context) : next .csharp cx w = .ok (false, wordLexeme .csharp w) := by
    have h : next .csharp cx (w ++ []) = _ := next_word_csharp hw rfl
    rwa [List.append_nil] at h
  have hname : Language.csharp.unescape (String.ofList ('@' :: w)) = String.ofList w := by
    simp [Language.unescape]
  have htype : Language.csharp.spelling (String.ofList t) = String.ofList t := by
    rw [Language.keyword?, Option.or_eq_none_iff] at hplain
    simp [Language.spelling, Language.isReserved, hplain.1]
  have hsource (s : String) :
      ("(" ++ String.ofList t ++ ")" ++ s).toList = source t s.toList := by
    simp [source]
  obtain ⟨range, hp⟩ := parse_source ht hplain (by simp) hescaped (by simp; omega) rfl
  rw [hname] at hp
  obtain ⟨o, ho, htext⟩ := write_forest range (String.ofList t) (String.ofList w)
  refine ⟨⟨_, o, hp, ho⟩, ?_⟩
  rw [roundTrips_iff hp ho, htext, htype, hsource, Language.spelling]
  cases hcontextual : Language.csharp.findWord Language.csharp.contextual (String.ofList w) with
  | some k =>
      have hreserved := not_reserved_of_contextual hcontextual
      have hkind : (wordLexeme .csharp w).kind = k := by
        rw [wordLexeme_kind hreserved, hcontextual, Option.getD_some]
      have hmem : (wordLexeme .csharp w).kind ∈ Language.csharp.contextual.map (·.2) := by
        rw [hkind]
        exact List.mem_map_of_mem (f := (·.2)) (mem_contextual hcontextual)
      have hfails := parse_source_contextual ht hplain hw.ne_nil hbare rfl hmem
      simp only [hreserved, Bool.false_eq_true, if_false, String.toList_ofList, reduceCtorEq,
        iff_false]
      rintro ⟨p', hp', -⟩
      exact hfails p' hp'
  | none =>
      simp only [iff_true]
      cases hreserved : Language.csharp.isReserved (String.ofList w) with
      | true =>
          have hsame : (Language.csharp.escaped (String.ofList w)).toList = '@' :: w := by
            simp [Language.escaped]
          rw [if_pos rfl, hsame]
          exact ⟨_, hp, forest_agree range _ _ range⟩
      | false =>
          have hkind : (wordLexeme .csharp w).kind = .identifier := by
            rw [wordLexeme_kind hreserved, hcontextual, Option.getD_none]
          obtain ⟨range', hp'⟩ := parse_source ht hplain hw.ne_nil hbare rfl hkind
          rw [Language.unescape_word _ hw] at hp'
          rw [if_neg (by simp), String.toList_ofList]
          exact ⟨_, hp', forest_agree range _ _ range'⟩

end DualSyntax.CSharp.Cast
