import DualSyntax.Proofs.Lexing.Names
import Mathlib.Data.List.Forall2

/-!
# Printed pieces

A printed text is cut into signs and single blanks.  If each sign is read as the token that it
prints whatever comes after it, the tokens of the text are those of the signs.
-/

namespace DualSyntax

open Lexing

structure Sign where
  text : List Char
  kind : TokenKind
  value : Option LiteralValue := none

inductive Piece where
  | sign (s : Sign)
  | blank

namespace Sign

structure Prints (s : Sign) (t : Token) : Prop where
  kind : t.kind = s.kind
  text : t.text = String.ofList s.text
  value : t.value = s.value

/-- The sign is read as the token that it prints in front of `rest`, after the character
`before`. -/
structure Lexed (l : Language) (s : Sign) (before : Option Char) (rest : List Char) : Prop where
  ne_nil : s.text ≠ []
  next : ∀ cx : Context, cx.before = before →
    next l cx (s.text ++ rest) = .ok (false, ⟨s.kind, s.text.length, s.value⟩)

end Sign

namespace Piece

def text : Piece → List Char
  | sign s => s.text
  | blank => [' ']

def textOf (ps : List Piece) : List Char := ps.flatMap text

def signs (ps : List Piece) : List Sign :=
  ps.filterMap fun
    | sign s => some s
    | blank => none

/-- The piece is read as it was printed in front of `rest`, after the character `before`. -/
def Lexed (l : Language) (before : Option Char) (rest : List Char) : Piece → Prop
  | sign s => s.Lexed l before rest
  | blank => ∀ cx, next l cx (' ' :: rest) = .ok (true, ⟨.whitespace, 1, none⟩)

/-- The character in front of what follows a text. -/
def lastOf (before : Option Char) (cs : List Char) : Option Char := cs.getLast?.or before

/-- The pieces are read as they were printed, one after the other, in front of `rest`. -/
def Lexes (l : Language) : Option Char → List Piece → List Char → Prop
  | _, [], _ => True
  | before, p :: ps, rest =>
    p.Lexed l before (textOf ps ++ rest) ∧ Lexes l (lastOf before p.text) ps rest

@[simp] theorem textOf_nil : textOf [] = [] := rfl

@[simp] theorem textOf_cons (p : Piece) (ps : List Piece) :
    textOf (p :: ps) = p.text ++ textOf ps := rfl

@[simp] theorem textOf_append (ps qs : List Piece) : textOf (ps ++ qs) = textOf ps ++ textOf qs := by
  simp [textOf]

@[simp] theorem signs_nil : signs [] = [] := rfl

@[simp] theorem signs_sign (s : Sign) (ps : List Piece) : signs (.sign s :: ps) = s :: signs ps := rfl

@[simp] theorem signs_blank (ps : List Piece) : signs (.blank :: ps) = signs ps := rfl

@[simp] theorem signs_append (ps qs : List Piece) : signs (ps ++ qs) = signs ps ++ signs qs := by
  simp [signs]

@[simp] theorem lastOf_nil (before : Option Char) : lastOf before [] = before := rfl

theorem lastOf_append (before : Option Char) (cs ds : List Char) :
    lastOf before (cs ++ ds) = lastOf (lastOf before cs) ds := by
  simp [lastOf, List.getLast?_append, Option.or_assoc]

theorem lexes_append {l : Language} {before : Option Char} {ps qs : List Piece} {rest : List Char}
    (hps : Lexes l before ps (textOf qs ++ rest))
    (hqs : Lexes l (lastOf before (textOf ps)) qs rest) : Lexes l before (ps ++ qs) rest := by
  induction ps generalizing before with
  | nil => exact hqs
  | cons p ps ih =>
      obtain ⟨hp, hps⟩ := hps
      rw [List.cons_append]
      refine ⟨?_, ih hps ?_⟩
      · rwa [textOf_append, List.append_assoc]
      · rwa [textOf_cons, lastOf_append] at hqs

theorem tokensFrom_pieces {l : Language} {fuel : Nat} {cx : Context} {ps : List Piece}
    (h : Lexes l cx.before ps []) (hfuel : (textOf ps).length ≤ fuel) :
    ∃ ts last, tokensFrom l fuel cx (textOf ps) = .ok (ts ++ [last]) ∧ last.kind = .eof ∧
      List.Forall₂ Sign.Prints (signs ps) ts := by
  induction ps generalizing fuel cx with
  | nil => exact ⟨[], _, tokensFrom_nil l fuel cx, rfl, .nil⟩
  | cons p ps ih =>
      obtain ⟨hp, hps⟩ := h
      rw [List.append_nil] at hp
      rw [textOf_cons, List.length_append] at hfuel
      have hbefore : (cx.pass p.text).before = lastOf cx.before p.text := rfl
      cases p with
      | sign s =>
          have hpos : 0 < s.text.length := List.length_pos_iff.mpr hp.ne_nil
          obtain ⟨fuel, rfl⟩ : ∃ k, fuel = k + 1 := ⟨fuel - 1, by simp only [text] at hfuel; omega⟩
          rw [textOf_cons, text, tokensFrom_token hp.ne_nil (hp.next cx rfl) rfl]
          obtain ⟨ts, last, hts, hlast, hsigns⟩ := @ih fuel
            { cx.pass s.text with last := some s.kind, pending := [] } (by rwa [← hbefore] at hps)
            (by simp only [text] at hfuel; omega)
          rw [hts]
          refine ⟨_ :: ts, last, rfl, hlast, .cons ?_ hsigns⟩
          exact ⟨rfl, rfl, rfl⟩
      | blank =>
          obtain ⟨fuel, rfl⟩ : ∃ k, fuel = k + 1 :=
            ⟨fuel - 1, by simp only [text, List.length_cons] at hfuel; omega⟩
          have hblank : next l cx ([' '] ++ textOf ps) = .ok (true, ⟨.whitespace, 1, none⟩) := hp cx
          rw [textOf_cons, text, tokensFrom_trivia (by simp) hblank rfl]
          exact @ih fuel { cx.pass [' '] with pending := _ } (by rwa [← hbefore] at hps)
            (by simp only [text, List.length_cons, List.length_nil] at hfuel; omega)

/-- The tokens of a text whose pieces are read as they were printed. -/
theorem tokenize_pieces {l : Language} {ps : List Piece} (h : Lexes l none ps []) :
    ∃ s ts last, tokenize l (textOf ps) = .ok s ∧ s.tokens.toList = ts ++ [last] ∧
      last.kind = .eof ∧ List.Forall₂ Sign.Prints (signs ps) ts := by
  obtain ⟨ts, last, hts, hlast, hsigns⟩ :=
    @tokensFrom_pieces l _ {} ps h (Nat.le_refl _)
  refine ⟨.ofTokens (ts ++ [last]), ts, last, ?_, rfl, hlast, hsigns⟩
  rw [tokenize, hts]
  rfl

end Piece

/-! ## Signs in a stream -/

/-- The tokens between two positions are those that signs print. -/
def TokenStream.PrintedAt (s : TokenStream) : Nat → List Sign → Nat → Prop
  | p, [], q => p = q
  | p, x :: xs, q => ∃ tk, s.get? p = some tk ∧ x.Prints tk ∧ s.PrintedAt (p + 1) xs q

namespace TokenStream

variable {s : TokenStream} {p q : Nat} {xs ys : List Sign}

theorem printedAt_append :
    s.PrintedAt p (xs ++ ys) q ↔ ∃ m, s.PrintedAt p xs m ∧ s.PrintedAt m ys q := by
  induction xs generalizing p with
  | nil => simp [PrintedAt]
  | cons x xs ih =>
      simp only [List.cons_append, PrintedAt, ih]
      constructor
      · rintro ⟨tk, hget, htk, m, hxs, hys⟩
        exact ⟨m, ⟨tk, hget, htk, hxs⟩, hys⟩
      · rintro ⟨m, ⟨tk, hget, htk, hxs⟩, hys⟩
        exact ⟨tk, hget, htk, m, hxs, hys⟩

theorem PrintedAt.length (h : s.PrintedAt p xs q) : q = p + xs.length := by
  induction xs generalizing p with
  | nil => exact h.symm
  | cons x xs ih =>
      obtain ⟨tk, -, -, hrest⟩ := h
      rw [ih hrest, List.length_cons]
      omega

/-- The sign that prints the token at a position. -/
theorem PrintedAt.split {r : Nat} (h : s.PrintedAt p xs q) (hle : p ≤ r) (hlt : r < q) :
    ∃ before x after tk, xs = before ++ x :: after ∧ s.PrintedAt p before r ∧
      s.get? r = some tk ∧ x.Prints tk := by
  induction xs generalizing p with
  | nil =>
      cases h
      exact absurd hlt (Nat.not_lt.mpr hle)
  | cons x xs ih =>
      obtain ⟨tk, hget, htk, hrest⟩ := h
      rcases Nat.eq_or_lt_of_le hle with rfl | hlt'
      · exact ⟨[], x, xs, tk, rfl, rfl, hget, htk⟩
      · obtain ⟨before, y, after, tk', rfl, hbefore, hget', htk'⟩ := ih hrest hlt'
        exact ⟨x :: before, y, after, tk', rfl, ⟨tk, hget, htk, hbefore⟩, hget', htk'⟩

theorem PrintedAt.get {x : Sign} (h : s.PrintedAt p xs q) (hx : x ∈ xs) :
    ∃ r tk, p ≤ r ∧ r < q ∧ s.get? r = some tk ∧ x.Prints tk := by
  obtain ⟨before, after, rfl⟩ := List.append_of_mem hx
  obtain ⟨m, hbefore, tk, hget, htk, hafter⟩ := printedAt_append.mp h
  have hm := hbefore.length
  have hq := hafter.length
  exact ⟨m, tk, by omega, by omega, hget, htk⟩

/-- The tokens of printed signs, wherever they stand in a stream. -/
theorem printedAt_of_prints {before ts after : List Token} (h : List.Forall₂ Sign.Prints xs ts)
    (htokens : s.tokens.toList = before ++ ts ++ after) :
    s.PrintedAt before.length xs (before.length + xs.length) := by
  induction h generalizing before with
  | nil => rfl
  | @cons x tk xs ts hx _ ih =>
      have hrest : s.tokens.toList = (before ++ [tk]) ++ ts ++ after := by simp [htokens]
      have hget : s.get? before.length = some tk := by
        rw [get?, ← Array.getElem?_toList, htokens]
        simp
      refine ⟨tk, hget, hx, ?_⟩
      have hih := ih hrest
      rwa [List.length_append, List.length_singleton, Nat.add_assoc, Nat.add_comm 1] at hih

end TokenStream

end DualSyntax
