import DualSyntax.Parsing
import DualSyntax.Proofs.Packrat.Fuel
import DualSyntax.Proofs.Packrat.Kinds
import Mathlib.Data.List.Forall2

/-!
# Raw parsing of related streams

Two streams whose tokens are related one by one, by a relation that knows their kinds, are parsed in
the same way: into trees of the same skeleton whose tokens are related one by one, or with the same
failure.
-/

namespace DualSyntax

variable {δ : Type} {s s' : TokenStream} {R : Token → Token → Prop}

theorem TokenStream.SameKinds.of_forall₂ (h : List.Forall₂ R s.tokens.toList s'.tokens.toList)
    (hkind : ∀ t t', R t t' → t.kind = t'.kind) : s.SameKinds s' := by
  unfold TokenStream.SameKinds
  generalize s.tokens.toList = ts at h
  generalize s'.tokens.toList = ts' at h
  induction h with
  | nil => rfl
  | cons hhead _ ih => rw [List.map_cons, List.map_cons, hkind _ _ hhead, ih]

namespace Packrat

/-- Two outcomes of parsing that differ in the contents of tokens only, which are related. -/
inductive Parallel (R : Token → Token → Prop) : Outcome δ → Outcome δ → Prop
  | parsed {tree tree' : RawTree δ} (skeleton : tree.skeleton = tree'.skeleton)
      (tokens : List.Forall₂ R tree.tokens tree'.tokens) : Parallel R (.parsed tree) (.parsed tree')
  | failed (failure : Failure) : Parallel R (.failed failure) (.failed failure)

theorem Parallel.imp {R' : Token → Token → Prop} (hR : ∀ t t', R t t' → R' t t')
    {x y : Outcome δ} (h : Parallel R x y) : Parallel R' x y := by
  cases h with
  | parsed hskeleton htokens => exact .parsed hskeleton (htokens.imp hR)
  | failed failure => exact .failed failure

variable [BEq δ] [LawfulBEq δ]

theorem parse_ne_exhausted (g : Grammar δ) (root : δ) (s : TokenStream) :
    parse g root s ≠ .exhausted := by
  obtain ⟨found, m, hrun⟩ := run_enoughFuel g s root
  unfold parse
  rw [hrun]
  cases found with
  | none => nofun
  | some found =>
      dsimp only
      split <;> nofun

/-- Streams of related tokens are parsed in the same way. -/
theorem parse_parallel {l l' : Language} {src src' : List Char} (hs : tokenize l src = .ok s)
    (hs' : tokenize l' src' = .ok s') (h : List.Forall₂ R s.tokens.toList s'.tokens.toList)
    (hkind : ∀ t t', R t t' → t.kind = t'.kind) (g : Grammar δ) (root : δ) :
    Parallel R (parse g root s) (parse g root s') := by
  have hsame := parse_sameOutcome (.of_forall₂ h hkind) g root
  have htokens {tree : RawTree δ} (hparse : parse g root s = .parsed tree) :
      tree.tokens = s.tokens.toList := by
    obtain ⟨init, last, -, hlast, -⟩ := tokenize_spec hs
    exact parse_tokens hlast hparse
  have htokens' {tree : RawTree δ} (hparse : parse g root s' = .parsed tree) :
      tree.tokens = s'.tokens.toList := by
    obtain ⟨init, last, -, hlast, -⟩ := tokenize_spec hs'
    exact parse_tokens hlast hparse
  have hfuel := parse_ne_exhausted g root s
  generalize parse g root s = outcome at *
  generalize parse g root s' = outcome' at *
  cases hsame with
  | parsed hskeleton =>
      refine .parsed hskeleton ?_
      rwa [htokens rfl, htokens' rfl]
  | failed failure => exact .failed failure
  | exhausted => exact absurd rfl hfuel

end Packrat

end DualSyntax
