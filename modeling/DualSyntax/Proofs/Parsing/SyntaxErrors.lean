import DualSyntax.Proofs.Packrat.Refusals
import DualSyntax.Proofs.Packrat.Reports
import DualSyntax.Proofs.Parsing.RelatedStreams
import DualSyntax.Proofs.Text.Lines

/-!
# Syntax errors

A text that is cut into tokens but not matched gives one diagnostic.  Of every fragment the first token
wanted is named: the definitions listed as heard refuse a token wherever they fail, and the lookaheads
of the languages keep away from them.
-/

namespace DualSyntax

open Packrat

namespace CSharp

def heard (d : Form) : Bool :=
  [.compilationUnit, .statement, .block, .expression, .assignmentExpression, .unaryExpression,
    .prefixUnaryExpression, .typeMember, .enumDeclaration, .modifiers, .identifier,
    .enumMemberList].contains d

theorem vocal : grammar.Vocal (fun _ => false) heard := by
  have hguarded : Form.all.all (fun d => (rule d).guarded (fun _ => false) false) = true := by
    decide
  have hcomplains : Form.all.all (fun d => !heard d || (rule d).complains heard) = true := by
    decide
  refine ⟨?_, nofun, ?_, nofun⟩
  · rintro d _ ⟨⟩
    exact List.all_eq_true.mp hguarded d d.mem_all
  · intro d hd
    refine ⟨rule d, rfl, ?_⟩
    simpa [hd] using List.all_eq_true.mp hcomplains d d.mem_all

end CSharp

namespace VisualBasic

def quiet (d : Form) : Bool := d == .identifier

def heard (d : Form) : Bool :=
  [.compilationUnit, .statement, .returnStatement, .expression, .xorExpression, .orExpression,
    .andExpression, .notExpression, .logicalNot, .typeMember, .constructorDeclaration, .modifiers,
    .statements].contains d

theorem vocal : grammar.Vocal quiet heard := by
  have hguarded : Form.all.all (fun d => (rule d).guarded quiet false) = true := by
    decide
  have hquiet : Form.all.all (fun d => !quiet d || ((rule d).guarded quiet true && !heard d)) = true := by
    decide
  have hcomplains : Form.all.all (fun d => !heard d || (rule d).complains heard) = true := by
    decide
  have hquiet' : ∀ d, quiet d = true → (rule d).guarded quiet true = true ∧ heard d = false := by
    intro d hd
    simpa [hd] using List.all_eq_true.mp hquiet d d.mem_all
  refine ⟨?_, ?_, ?_, fun d hd => (hquiet' d hd).2⟩
  · rintro d _ ⟨⟩
    exact List.all_eq_true.mp hguarded d d.mem_all
  · rintro d _ hd ⟨⟩
    exact (hquiet' d hd).1
  · intro d hd
    refine ⟨rule d, rfl, ?_⟩
    simpa [hd] using List.all_eq_true.mp hcomplains d d.mem_all

end VisualBasic

/-- A failed match of a fragment stands at a token and expects something there, nothing twice. -/
theorem Language.failed_spec (l : Language) (fragment : Fragment) {s : TokenStream} (hs : s.EndMarked)
    {f : Failure} (h : Packrat.parse l.grammar (l.root fragment) s = .failed f) :
    f.position < s.size ∧ f.expected ≠ [] ∧ f.expected.Nodup := by
  have hfree := l.not_leftRecursive s
  cases l with
  | csharp => exact Packrat.failed_spec CSharp.vocal hs hfree (by cases fragment <;> rfl) h
  | visualBasic => exact Packrat.failed_spec VisualBasic.vocal hs hfree (by cases fragment <;> rfl) h

theorem Issue.code_ofUnwanted (k : TokenKind) :
    ((Issue.ofUnwanted k).code = 2 ↔ k = .eof) ∧ ((Issue.ofUnwanted k).code = 3 ↔ k = .error) ∧
      ((Issue.ofUnwanted k).code = 1 ↔ k ≠ .eof ∧ k ≠ .error) := by
  cases k <;> decide

/-- The report of a text that is cut but not matched: a diagnostic that stands at a token of the
stream, shows where that is and names what was expected in its place. -/
structure Reported (l : Language) (fragment : Fragment) (src : List Char) (s : TokenStream)
    (f : Failure) (t : Token) (d : Diagnostic) : Prop where
  failed : Packrat.parse l.grammar (l.root fragment) s = .failed f
  /-- It is the only diagnostic. -/
  rejected : parse l fragment src = .error (.rejected [d])
  valid : s.get? f.position = some t
  span : d.span = t.span
  located : (LineTable.ofText src).lineColumn? t.span.start = some d.location
  expected : d.expected = f.expected
  nonempty : d.expected ≠ []
  nodup : d.expected.Nodup
  found : d.found = some t.kind
  unexpectedEnd : d.issue.code = 2 ↔ t.kind = .eof
  invalid : d.issue.code = 3 ↔ t.kind = .error
  unexpected : d.issue.code = 1 ↔ t.kind ≠ .eof ∧ t.kind ≠ .error

theorem reported_of_failed {l : Language} {fragment : Fragment} {src : List Char} {s : TokenStream}
    (hs : tokenize l src = .ok s) {f : Failure}
    (h : Packrat.parse l.grammar (l.root fragment) s = .failed f) :
    ∃ t d, Reported l fragment src s f t d := by
  obtain ⟨hvalid, hnonempty, hnodup⟩ := l.failed_spec fragment (tokenize_endMarked hs) h
  obtain ⟨t, ht⟩ : ∃ t, s.get? f.position = some t := ⟨_, Array.getElem?_eq_getElem hvalid⟩
  obtain ⟨hend, hinvalid, hother⟩ := Issue.code_ofUnwanted t.kind
  have hdiagnostic : f.diagnostic ⟨l, s, .ofText src⟩ = ⟨l, .ofUnwanted t.kind, t.span,
      (LineTable.ofText src).lineColumn t.span.start, some (f.expected, t.kind)⟩ := by
    simp only [Failure.diagnostic, ht]
  have hmatch : Source.matchBy ⟨l, s, .ofText src⟩ l.grammar (l.root fragment) =
      .error (.rejected [f.diagnostic ⟨l, s, .ofText src⟩]) := by
    simp only [Source.matchBy, h]
  have hrejected : parse l fragment src = .error (.rejected [f.diagnostic ⟨l, s, .ofText src⟩]) := by
    simp only [parse, parseRaw, Source.ofText, hs, bind, Except.bind, hmatch]
  rw [hdiagnostic] at hrejected
  exact ⟨t, _,
    { failed := h
      rejected := hrejected
      valid := ht
      span := rfl
      located := LineTable.lineColumn?_of_isBoundary (tokenize_token_boundaries hs ht).2.1
      expected := rfl
      nonempty := hnonempty
      nodup := hnodup
      found := rfl
      unexpectedEnd := hend
      invalid := hinvalid
      unexpected := hother }⟩

/-- Whatever the grammar is, a failure does not expect the kind of token that stands at its position.
And for each language and fragment, a text that is cut into tokens but not matched gives one
diagnostic, which is that of a failure at a token of the stream. -/
theorem syntaxError_wellFormed :
    (∀ {δ : Type} [BEq δ] [LawfulBEq δ] (g : Grammar δ) (root : δ) (s : TokenStream), s.EndMarked →
      ∀ f, Packrat.parse g root s = .failed f →
        ∀ t, s.get? f.position = some t → t.kind ∉ f.expected) ∧
    ∀ (l : Language) (fragment : Fragment) (src : List Char) (s : TokenStream),
      tokenize l src = .ok s →
      (∀ tree, Packrat.parse l.grammar (l.root fragment) s ≠ .parsed tree) →
      ∃ f t d, Reported l fragment src s f t d := by
  constructor
  · intro δ _ _ g root s hs f hf t ht
    exact kind_not_expected hs hf ht
  · intro l fragment src s hs hnot
    cases houtcome : Packrat.parse l.grammar (l.root fragment) s with
    | parsed tree => exact absurd houtcome (hnot tree)
    | failed f => exact ⟨f, reported_of_failed hs houtcome⟩
    | exhausted => exact absurd houtcome (parse_ne_exhausted l.grammar (l.root fragment) s)

/-- A loop without a bracket, on the second line behind a wide character. -/
theorem syntaxError_wellFormed_bracket :
    ∃ s t d, tokenize .csharp "/* é */\nwhile é".toList = .ok s ∧ s.EndMarked ∧
      (∀ tree, Packrat.parse Language.csharp.grammar (Language.csharp.root .statement) s ≠
        .parsed tree) ∧
      Reported .csharp .statement "/* é */\nwhile é".toList s ⟨1, [.lParen]⟩ t d ∧
      t.kind ∉ [TokenKind.lParen] := by
  obtain ⟨s, hs, hfailed⟩ := exists_failed .csharp "/* é */\nwhile é".toList
    Language.csharp.grammar (Language.csharp.root .statement) ⟨1, [.lParen]⟩ (by decide +kernel)
  have hnot : ∀ tree, Packrat.parse Language.csharp.grammar (Language.csharp.root .statement) s ≠
      .parsed tree := by
    intro tree htree
    cases hfailed.symm.trans htree
  obtain ⟨hkind, hreported⟩ := syntaxError_wellFormed
  obtain ⟨f, t, d, h⟩ := hreported .csharp .statement _ s hs hnot
  cases hfailed.symm.trans h.failed
  exact ⟨s, t, d, hs, tokenize_endMarked hs, hnot, h,
    hkind _ _ s (tokenize_endMarked hs) _ hfailed t h.valid⟩

end DualSyntax
