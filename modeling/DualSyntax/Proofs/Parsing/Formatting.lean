import DualSyntax.Proofs.Lowering.Total
import DualSyntax.Proofs.Mirroring.Shapes
import DualSyntax.Proofs.Parsing.RelatedStreams

/-!
# C# texts of the same words

What stands between the tokens of a C# text (comments, blank lines, indentation) does not matter to
its tree.  Two texts whose tokens have the same texts have the same tokens, are matched in the same
way and have trees that agree; the tokens joined by single spaces are such a text.
-/

namespace DualSyntax

open Forest Lowering

namespace TokenStream

/-- The texts of the tokens before the end marker. -/
def texts (s : TokenStream) : List (List Char) :=
  (s.signs.filter (·.kind != .eof)).map Sign.text

theorem respaced_eq (s : TokenStream) : s.respaced = [' '].intercalate s.texts := rfl

end TokenStream

/-- Tokens with the same texts are the same tokens. -/
theorem signs_of_texts {src src' : List Char} {s s' : TokenStream}
    (h : tokenize .csharp src = .ok s) (h' : tokenize .csharp src' = .ok s')
    (htexts : s.texts = s'.texts) : s.signs = s'.signs := by
  obtain ⟨r, hr, hsigns⟩ := tokenize_respaced h
  obtain ⟨r', hr', hsigns'⟩ := tokenize_respaced h'
  rw [TokenStream.respaced_eq, htexts, ← TokenStream.respaced_eq, hr'] at hr
  cases hr
  rw [← hsigns, hsigns']

theorem tokens_alike {src : List Char} {s s' : TokenStream} (h : tokenize .csharp src = .ok s)
    (hsigns : s.signs = s'.signs) :
    List.Forall₂ Token.Alike s.tokens.toList s'.tokens.toList := by
  have hdefinite := tokenize_definite h
  unfold TokenStream.signs at hsigns
  generalize s.tokens.toList = ts at *
  generalize s'.tokens.toList = ts' at *
  induction ts generalizing ts' with
  | nil =>
      obtain rfl : ts' = [] := by simpa using hsigns.symm
      exact .nil
  | cons t ts ih =>
      obtain ⟨t', rest, rfl, ht, hrest⟩ := List.map_eq_cons_iff.mp hsigns.symm
      rw [List.forall_mem_cons] at hdefinite
      exact .cons ⟨ht.symm, hdefinite.1⟩ (ih hdefinite.2 rest hrest.symm)

namespace CSharp

open RawTree

/-! ## The grammar -/

theorem shape_isPlain (d : Form) (tokens : List TokenKind) : (shape d tokens).isPlain = true := by
  cases d
  case argument => exact forwardOr_check Shape.isPlain tokens rfl rfl
  case conditionalExpression => exact forwardOr_check Shape.isPlain tokens rfl rfl
  case prefixUnaryExpression => exact signShape_check Shape.isPlain tokens (fun _ => rfl) fun _ => rfl
  case assignmentExpression =>
    exact assignmentShape_check Shape.isPlain tokens (fun _ => rfl) fun _ => rfl
  all_goals rfl

theorem isVectorRank_eq (t : RawTree Form) :
    isVectorRank t = (t.isForm .rankSpecifier && rankOf grammar t == 1) := by
  cases t with
  | leaf => rfl
  | node form i j cs =>
      cases form with
      | none => rfl
      | some d => cases d <;> rfl

theorem isRefused_eq (t : RawTree Form) :
    isRefused t = (t.isForm .arrayCreationInitialized &&
      !t.children.any fun u => u.isForm .type && spellsVector u) := by
  cases t with
  | leaf => rfl
  | node form i j cs =>
      cases form with
      | none => rfl
      | some d => cases d <;> rfl

theorem spellsVector_alike {t t' : RawTree Form} (h : t.Alike t') :
    spellsVector t = spellsVector t' := by
  have hlast := rel_getLast? h.children
  unfold spellsVector
  generalize t.children.getLast? = last at hlast
  generalize t'.children.getLast? = last' at hlast
  cases hlast with
  | none => rfl
  | some hlast =>
      rw [Option.any_some, Option.any_some, isVectorRank_eq, isVectorRank_eq, hlast.isForm,
        rankOf_alike hlast]

/-- Lowering refuses both of two matches that are alike, or neither. -/
theorem isRefused_alike {t t' : RawTree Form} (h : t.Alike t') : isRefused t = isRefused t' := by
  rw [isRefused_eq, isRefused_eq, h.isForm]
  congr 2
  have hcs := h.children
  generalize t.children = cs at hcs
  generalize t'.children = cs' at hcs
  induction hcs with
  | nil => rfl
  | cons ht _ ih => rw [List.any_cons, List.any_cons, ht.isForm, spellsVector_alike ht, ih]

theorem clean_alike {t t' : RawTree Form} (h : t.Alike t') (hclean : Clean isRefused t) :
    Clean isRefused t' := by
  have hnodes := h.nodes
  unfold Clean at *
  generalize t.nodes = us at *
  generalize t'.nodes = us' at *
  induction hnodes with
  | nil => nofun
  | cons hu _ ih =>
      rw [List.forall_mem_cons] at hclean ⊢
      exact ⟨isRefused_alike hu ▸ hclean.1, ih hclean.2⟩

end CSharp

/-! ## Parsing -/

/-- A text that is matched and lowered without an error is parsed. -/
theorem parse_of_lower {l : Language} {fragment : Fragment} {src : List Char} {source : Source}
    {raw : RawTree l.Form} (hraw : parseRaw l fragment src = .ok (source, raw)) {root : NodeId}
    {draft : Draft} (hlower : raw.lower l.grammar source = .ok (root, draft))
    (herror : draft.diagnostics.toList.any Diagnostic.isError = false) :
    parse l fragment src = .ok ⟨draft.forest, root, draft.diagnostics.toList⟩ := by
  unfold parse
  rw [hraw]
  dsimp only [bind, Except.bind]
  rw [hlower]
  dsimp only
  rw [herror]
  rfl

/-- Drafts with the same issues have errors both or neither. -/
theorem Draft.Mirror.any_isError {ρ : Pairing} {d d' : Draft} (h : d.Mirror ρ d') :
    d.diagnostics.toList.any Diagnostic.isError = d'.diagnostics.toList.any Diagnostic.isError := by
  have hany (ds : List Diagnostic) :
      ds.any Diagnostic.isError = (ds.map (·.issue)).any (·.severity == .error) := by
    rw [List.any_map]
    rfl
  rw [hany, hany, h.issues]

theorem parseRaw_of_parsed {l : Language} {fragment : Fragment} {src : List Char} {s : TokenStream}
    {raw : RawTree l.Form} (hs : tokenize l src = .ok s)
    (h : Packrat.parse l.grammar (l.root fragment) s = .parsed raw) :
    parseRaw l fragment src = .ok (⟨l, s, .ofText src⟩, raw) := by
  unfold parseRaw Source.ofText
  rw [hs]
  dsimp only [bind, Except.bind, Source.matchBy]
  rw [h]
  rfl

/-- Lowering succeeds on both of two raw trees that are alike or on neither, and then the roots of
the trees are a pair. -/
theorem lower_alike {fragment : Fragment} {src src' : List Char} {source source' : Source}
    {raw raw' : RawTree CSharp.Form} (h : parseRaw .csharp fragment src = .ok (source, raw))
    (h' : parseRaw .csharp fragment src' = .ok (source', raw')) (halike : raw.Alike raw')
    {root : NodeId} {draft : Draft} (hlower : raw.lower CSharp.grammar source = .ok (root, draft)) :
    ∃ root' draft' ρ, raw'.lower CSharp.grammar source' = .ok (root', draft') ∧
      draft.Mirror ρ draft' ∧ ρ root root' := by
  have hclean : Clean CSharp.isRefused raw := by
    by_contra hrefused
    have hfails := (does_lower h).fails hrefused
    exact nomatch hlower.symm.trans hfails
  obtain ⟨root', draft', hlower', -⟩ := (does_lower h').succeeds (CSharp.clean_alike halike hclean)
  refine ⟨root', draft', ?_⟩
  have hlanguage : source.language = source'.language :=
    (exists_of_parseRaw h).2.1.trans (exists_of_parseRaw h').2.1.symm
  have hempty : Draft.Mirror (fun _ _ => False) {} {} := ⟨.empty, rfl⟩
  have hmirrors : RecurMirrors source source' (lowerUpTo CSharp.grammar raw.height)
      (lowerUpTo CSharp.grammar raw.height) :=
    mirrors_lowerUpTo (g := CSharp.grammar) CSharp.shape_isPlain raw.height
  have hlower₁ : lowerUpTo CSharp.grammar raw.height raw' source' {} = .ok (root', draft') := by
    rw [halike.height]
    exact hlower'
  obtain ⟨ρ, -, hdrafts, hroots⟩ := hmirrors _ raw raw' halike hlanguage hempty hlower hlower₁
  exact ⟨ρ, hlower', hdrafts, hroots⟩

/-- A text with the same words as one that is parsed is parsed too, and the trees agree. -/
theorem parse_alike {fragment : Fragment} {src src' : List Char} {s s' : TokenStream}
    (hs : tokenize .csharp src = .ok s) (hs' : tokenize .csharp src' = .ok s')
    (hparallel : Packrat.Parallel Token.Alike
      (Packrat.parse CSharp.grammar (Language.csharp.root fragment) s)
      (Packrat.parse CSharp.grammar (Language.csharp.root fragment) s'))
    {p : Parsed} (h : parse .csharp fragment src = .ok p) :
    ∃ p', parse .csharp fragment src' = .ok p' ∧ p.forest.agree p.root p'.forest p'.root = true := by
  obtain ⟨source, raw, draft, hraw, hlower, hforest, -, herror⟩ := exists_of_parse h
  obtain ⟨hstream, -, hparse⟩ := exists_of_parseRaw hraw
  cases hs.symm.trans hstream
  have hparse : Packrat.parse CSharp.grammar (Language.csharp.root fragment) source.stream =
      .parsed raw := hparse
  rw [hparse] at hparallel
  generalize hparse' : Packrat.parse CSharp.grammar (Language.csharp.root fragment) s' = outcome'
    at hparallel
  cases hparallel with
  | @parsed _ raw' hskeleton htokens =>
      have hraw' := parseRaw_of_parsed (l := .csharp) hs' hparse'
      have halike : raw.Alike raw' :=
        (@RawTree.alike_of_skeleton _ [] [] raw raw' hskeleton (by simpa using htokens)).1
      obtain ⟨root', draft', ρ, hlower', hdrafts, hroots⟩ := lower_alike hraw hraw' halike hlower
      have herror' : draft'.diagnostics.toList.any Diagnostic.isError = false :=
        hdrafts.any_isError ▸ herror
      refine ⟨_, parse_of_lower hraw' hlower' herror', ?_⟩
      rw [hforest]
      exact hdrafts.forest.agree hroots

/-- Two C# texts that are read in the same way: their tokens have the same kinds, texts and values,
every fragment matches both with the same definitions and tokens or fails in the same place, and
where the first is parsed the second is, into a tree that agrees. -/
structure SameReading (src src' : List Char) (s s' : TokenStream) : Prop where
  signs : s.signs = s'.signs
  matched : ∀ fragment, Packrat.Parallel (fun t t' => t.sign = t'.sign)
    (Packrat.parse CSharp.grammar (Language.csharp.root fragment) s)
    (Packrat.parse CSharp.grammar (Language.csharp.root fragment) s')
  parsed : ∀ fragment p, parse .csharp fragment src = .ok p →
    ∃ p', parse .csharp fragment src' = .ok p' ∧ p.forest.agree p.root p'.forest p'.root = true

theorem SameReading.of_signs {src src' : List Char} {s s' : TokenStream}
    (h : tokenize .csharp src = .ok s) (h' : tokenize .csharp src' = .ok s')
    (hsigns : s.signs = s'.signs) : SameReading src src' s s' := by
  have hparallel (fragment : Fragment) : Packrat.Parallel Token.Alike
      (Packrat.parse CSharp.grammar (Language.csharp.root fragment) s)
      (Packrat.parse CSharp.grammar (Language.csharp.root fragment) s') :=
    Packrat.parse_parallel h h' (tokens_alike h hsigns) (fun _ _ ht => ht.kind) _ _
  exact ⟨hsigns, fun fragment => (hparallel fragment).imp fun _ _ ht => ht.sign,
    fun fragment _ => parse_alike h h' (hparallel fragment)⟩

end DualSyntax
