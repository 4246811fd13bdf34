import DualSyntax.Proofs.Expression.CSharpPieces
import DualSyntax.Proofs.Lexing.Literals

/-!
# Lexing of printed expressions in C#

The pieces of a printed expression are read as they were printed: a word or a number ends where the
next piece begins, and no sign runs into the one after it.
-/

namespace DualSyntax.CSharp

open Lexing Piece

variable {before : Option Char} {rest : List Char} {e : Expression}

/-! ## Single signs -/

theorem ends_cons {c : Char} {cs : List Char} (hword : isNameBody c = false) (hpoint : c ≠ '.') :
    Ends (c :: cs) where
  word := by simpa [headIs] using hword
  point := by
    unfold pointAndDigit
    split
    · simp_all
    · rfl

theorem lexed_name {word : String} (h : IsWord word.toList) (hrest : headIs isNameBody rest = false) :
    (Language.csharp.nameSign word).Lexed .csharp before rest := by
  unfold Language.nameSign
  split
  · have htext : (Language.csharp.escaped word).toList = '@' :: word.toList := by
      simp [Language.escaped]
    refine ⟨by simp [htext], fun cx _ => ?_⟩
    dsimp only
    rw [htext, List.cons_append, next_escaped_csharp h hrest, List.length_cons, Nat.add_comm]
  · refine ⟨h.ne_nil, fun cx _ => ?_⟩
    exact next_word_csharp h hrest

/-- A sign that the rules for tokens find at the head of the text. -/
theorem lexed_of_token {text : List Char} {kind : TokenKind} {value : Option LiteralValue}
    (hne : text ≠ []) (htrivia : Lexing.CSharp.trivia (text ++ rest) = .ok none)
    (h : Lexing.CSharp.token (text ++ rest) = .ok (some ⟨kind, text.length, value⟩)) :
    (Sign.mk text kind value).Lexed .csharp before rest := by
  refine ⟨hne, fun cx _ => ?_⟩
  simp only [next, triviaAt, tokenAt, htrivia, h]
  rfl

theorem lexed_word {w : String} {kind : TokenKind} (hw : IsWord w.toList)
    (hkind : Language.csharp.keyword? w = some kind) (hrest : headIs isNameBody rest = false) :
    (Sign.mk w.toList kind (booleanValue? kind)).Lexed .csharp before rest := by
  refine ⟨hw.ne_nil, fun cx _ => ?_⟩
  have hlexeme : wordLexeme .csharp w.toList = ⟨kind, w.toList.length, booleanValue? kind⟩ := by
    rw [wordLexeme, String.ofList_toList, hkind]
    rfl
  rw [← hlexeme]
  exact next_word_csharp hw hrest

theorem trivia_of_isDigit {c : Char} (hc : Reading.isDigit c = true) (cs : List Char) :
    Lexing.CSharp.trivia (c :: cs) = .ok none := by
  have hne {x : Char} (hx : Reading.isDigit x = false) : c ≠ x := by
    rintro rfl
    simp [hc] at hx
  have hn : c ≠ '\n' := hne rfl
  have hr : c ≠ '\r' := hne rfl
  have hslash : c ≠ '/' := hne rfl
  have hblank : Lexing.CSharp.isBlank c = false := by
    simp [Lexing.CSharp.isBlank, hr, hne (x := ' ') rfl, hne (x := '\t') rfl, hne (x := '\x0c') rfl]
  have hbreak : Lexing.CSharp.lineBreak (c :: cs) = none := by
    unfold Lexing.CSharp.lineBreak
    split <;> simp_all
  have hcomment : Lexing.CSharp.blockComment (c :: cs) = .ok none := by
    unfold Lexing.CSharp.blockComment
    split <;> simp_all
  simp [Lexing.CSharp.trivia, hbreak, blanks, headIs, hblank, Lexing.CSharp.lineComment,
    List.isPrefixOf, hslash.symm, hcomment]

theorem lexed_literal {value : LiteralValue} (h : hasLiteral value = true) (hrest : Ends rest) :
    (literalSign value).Lexed .csharp before rest := by
  cases value with
  | null => exact lexed_word (w := "null") (by decide) (by decide) hrest.word
  | boolean b =>
      cases b with
      | true => exact lexed_word (w := "true") (by decide) (by decide) hrest.word
      | false => exact lexed_word (w := "false") (by decide) (by decide) hrest.word
  | integer n suffix =>
      simp only [hasLiteral, Bool.and_eq_true, decide_eq_true_eq, List.contains_iff_mem] at h
      obtain ⟨c, cs, htext, hc⟩ := Lexing.CSharp.literalText_integer_head n suffix
      have htrivia : Lexing.CSharp.trivia ((literalText (.integer n suffix)).toList ++ rest) =
          .ok none := by
        rw [htext]
        exact trivia_of_isDigit hc _
      exact lexed_of_token (by simp [htext]) htrivia (Lexing.CSharp.token_integer h.1 h.2 hrest)
  | string s =>
      have htrivia : Lexing.CSharp.trivia ((literalText (.string s)).toList ++ rest) = .ok none := by
        simp only [literalText, String.toList_ofList]
        rfl
      exact lexed_of_token (by simp [literalText]) htrivia (Lexing.CSharp.token_string s rest)
  | char c =>
      have htrivia : Lexing.CSharp.trivia ((literalText (.char c)).toList ++ rest) = .ok none := by
        simp only [literalText, String.toList_ofList]
        rfl
      exact lexed_of_token (by simp [literalText]) htrivia (Lexing.CSharp.token_char c rest)
  | real x suffix => cases h

theorem lexed_binary {op : BinaryOperator} (h : hasBinary op = true) :
    (mark (binaryText op) (binaryKind op)).Lexed .csharp before (' ' :: rest) := by
  refine ⟨?_, fun cx _ => ?_⟩
  all_goals
    cases op with
    | power => cases h
    | _ => first | rfl | decide

theorem lexed_assignment {op : AssignmentOperator} (h : hasAssignment op = true) :
    (mark ((assignmentText? op).getD "=") (assignmentKind op)).Lexed .csharp before
      (' ' :: rest) := by
  refine ⟨?_, fun cx _ => ?_⟩
  all_goals
    cases op with
    | power => cases h
    | _ => first | rfl | decide

theorem lexed_blank (h : headIs Lexing.CSharp.isBlank rest = false) :
    Piece.blank.Lexed .csharp before rest := by
  intro cx
  have hrun : runLength Lexing.CSharp.isBlank (' ' :: rest) = 1 := by
    rw [runLength, ← List.singleton_append, takeWhile_append (by simp [Lexing.CSharp.isBlank]) h]
    rfl
  have hblanks : blanks Lexing.CSharp.isBlank (' ' :: rest) = some ⟨.whitespace, 1, none⟩ := by
    rw [blanks, hrun]
    rfl
  have htrivia : Lexing.CSharp.trivia (' ' :: rest) = .ok (some ⟨.whitespace, 1, none⟩) := by
    have hbreak : Lexing.CSharp.lineBreak (' ' :: rest) = none := rfl
    rw [Lexing.CSharp.trivia, hbreak, hblanks]
    rfl
  simp only [next, triviaAt, htrivia]
  rfl

/-! ## First characters -/

/-- Whether an operand without a sign can begin with a character. -/
def startsOperand (c : Char) : Bool :=
  isNameStart c || Reading.isDigit c || ['@', '"', '\x27', '('].contains c

/-- Whether the sign of an operator in front of its operand begins with a character. -/
def startsSign (c : Char) : Bool := ['!', '~', '-', '+'].contains c

theorem nameSign_head {word : String} (h : IsWord word.toList) :
    ∃ c cs, (Language.csharp.nameSign word).text = c :: cs ∧ (c = '@' ∨ isNameStart c = true) := by
  unfold Language.nameSign
  split
  · exact ⟨'@', word.toList, by simp [Language.escaped], .inl rfl⟩
  · obtain ⟨c, cs, hword⟩ := List.exists_cons_of_ne_nil h.ne_nil
    refine ⟨c, cs, hword, .inr ?_⟩
    simpa [headIs, hword] using h.1

theorem literalText_head {value : LiteralValue} (h : hasLiteral value = true) :
    ∃ c cs, (literalText value).toList = c :: cs ∧ startsOperand c = true := by
  cases value with
  | null => exact ⟨'n', _, rfl, by decide⟩
  | boolean b => cases b <;> exact ⟨_, _, rfl, by decide⟩
  | integer n suffix =>
      obtain ⟨c, cs, htext, hc⟩ := Lexing.CSharp.literalText_integer_head n suffix
      exact ⟨c, cs, htext, by simp [startsOperand, hc]⟩
  | string s => exact ⟨'"', _, by rw [literalText, String.toList_ofList], by decide⟩
  | char c => exact ⟨'\x27', _, by rw [literalText, String.toList_ofList], by decide⟩
  | real x suffix => cases h

/-- A text that begins like a printed operand: with a sign only if `signed` holds. -/
def Opens (signed : Prop) (cs : List Char) : Prop :=
  ∃ c, cs.head? = some c ∧ (startsOperand c = true ∨ startsSign c = true ∧ signed)

theorem Opens.append {signed : Prop} {cs : List Char} (h : Opens signed cs) (ds : List Char) :
    Opens signed (cs ++ ds) := by
  obtain ⟨c, hc, hstarts⟩ := h
  exact ⟨c, by rw [List.head?_append, hc, Option.some_or], hstarts⟩

theorem Opens.mono {signed signed' : Prop} {cs : List Char} (h : Opens signed cs)
    (hsub : signed → signed') : Opens signed' cs := by
  obtain ⟨c, hc, hstarts⟩ := h
  exact ⟨c, hc, hstarts.imp_right fun ⟨hsign, hsigned⟩ => ⟨hsign, hsub hsigned⟩⟩

theorem opens_operand (least : Nat) (h : Opens (levelOf e < primaryLevel) (textOf (pieces e))) :
    Opens (least ≤ levelOf e ∧ levelOf e < primaryLevel) (textOf (operand least e)) := by
  rcases Nat.lt_or_ge (levelOf e) least with hlt | hge
  · rw [operand_of_lt hlt]
    exact ⟨'(', rfl, .inl (by decide)⟩
  · rw [operand_of_le hge]
    exact h.mono fun hlevel => ⟨hge, hlevel⟩

/-- Printed expressions begin like operands; where no sign can stand they begin without one. -/
theorem opens_pieces (h : Spellable e) : Opens (levelOf e < primaryLevel) (textOf (pieces e)) := by
  -- the first operand of an infix form begins the whole
  have hfirst {target : Expression} {least : Nat} {ps : List Piece} {signed : Prop}
      (ih : Opens (levelOf target < primaryLevel) (textOf (pieces target)))
      (hsigned : least ≤ levelOf target ∧ levelOf target < primaryLevel → signed) :
      Opens signed (textOf (guarded least target (pieces target) ++ ps)) := by
    rw [textOf_append]
    exact ((opens_operand _ ih).mono hsigned).append _
  induction h with
  | name hword =>
      obtain ⟨c, cs, htext, hc⟩ := nameSign_head hword
      refine ⟨c, by simp [pieces, Piece.text, htext], .inl ?_⟩
      rcases hc with rfl | hc
      · decide
      · simp [startsOperand, hc]
  | literal hvalue =>
      obtain ⟨c, cs, htext, hc⟩ := literalText_head hvalue
      exact ⟨c, by simp [pieces, Piece.text, literalSign, htext], .inl hc⟩
  | this => exact ⟨'t', rfl, .inl (by decide)⟩
  | base => exact ⟨'b', rfl, .inl (by decide)⟩
  | member _ _ ih =>
      rw [pieces]
      exact hfirst ih (by omega)
  | application _ _ ih _ =>
      rw [pieces, List.append_assoc, List.append_assoc]
      exact hfirst ih (by omega)
  | @unary op operand _ ih =>
      rw [pieces]
      cases hsuffix : op.isSuffix with
      | true =>
          simp only [if_true]
          exact hfirst ih (by omega)
      | false =>
          have hlevel : levelOf (.unary op operand) < primaryLevel := by
            rw [levelOf_unary, hsuffix]
            decide
          simp only [Bool.false_eq_true, if_false]
          cases op <;> exact ⟨_, rfl, .inr ⟨by decide, hlevel⟩⟩
  | @binary op left right hop _ _ ihl _ =>
      have hlevel : levelOf (.binary op left right) < primaryLevel :=
        Nat.lt_trans (binaryLevel_le hop).2 (by decide)
      rw [pieces, List.append_assoc]
      exact hfirst ihl fun _ => hlevel
  | assignment _ _ _ ihl _ =>
      rw [pieces, List.append_assoc]
      exact hfirst ihl fun _ => by simp [assignmentLevel, primaryLevel]
  | conditional _ _ _ ihc _ _ =>
      rw [pieces, List.append_assoc, List.append_assoc, List.append_assoc]
      exact hfirst ihc fun _ => by simp [conditionalLevel, primaryLevel]
  | @typeTest converts operand type _ _ ih =>
      rw [pieces]
      exact hfirst ih fun _ => by simp [relationalLevel, primaryLevel]

/-! ## Signs next to others -/

theorem not_blank {c : Char} (h : startsOperand c = true ∨ startsSign c = true) :
    Lexing.CSharp.isBlank c = false := by
  rw [Bool.eq_false_iff]
  intro hblank
  simp only [Lexing.CSharp.isBlank, Bool.or_eq_true, beq_iff_eq] at hblank
  rcases hblank with ((rfl | rfl) | rfl) | rfl <;> revert h <;> decide

theorem Opens.not_blank {signed : Prop} {cs : List Char} (h : Opens signed cs) (ds : List Char) :
    headIs Lexing.CSharp.isBlank (cs ++ ds) = false := by
  obtain ⟨c, hc, hstarts⟩ := h.append ds
  rw [headIs, hc, Option.any_some]
  exact CSharp.not_blank (hstarts.imp_right And.left)

/-- A symbol of one character is read as if it stood alone in front of a character that continues no
symbol. -/
theorem lexed_symbol {x : Char} {kind : TokenKind}
    (htrivia : Lexing.CSharp.trivia (x :: rest) = .ok none)
    (htoken : Lexing.CSharp.token (x :: rest) =
      firstOf (x :: rest) [symbol Lexing.CSharp.symbols])
    (h : symbol Lexing.CSharp.symbols [x] = .ok (some ⟨kind, 1, none⟩))
    (hrest : ∀ c, rest.head? = some c → c ∉ followers Lexing.CSharp.symbols x) :
    (Sign.mk [x] kind none).Lexed .csharp before rest := by
  have hsymbol : symbol Lexing.CSharp.symbols (x :: rest) = .ok (some ⟨kind, 1, none⟩) := by
    cases rest with
    | nil => exact h
    | cons c cs => rw [symbol_alone (hrest c rfl), h]
  refine lexed_of_token (by simp) htrivia ?_
  rw [List.singleton_append, htoken, firstOf, hsymbol]
  rfl

/-- The sign of an operator in front of its operand does not run into it. -/
theorem lexed_signBefore {op : UnaryOperator}
    (hrest : ∀ c, rest.head? = some c → c ≠ '=' ∧ c ≠ '>' ∧ (op = .minus → c ≠ '-') ∧
      (op = .plus → c ≠ '+')) :
    (mark (unaryText op) (unaryKind op)).Lexed .csharp before rest := by
  cases op with
  | increment | decrement | postIncrement | postDecrement => exact ⟨by decide, fun cx _ => rfl⟩
  | bitNot => exact lexed_symbol rfl rfl rfl fun c _ => List.not_mem_nil
  | not =>
      have hfollowers : followers Lexing.CSharp.symbols '!' = ['='] := by decide
      refine lexed_symbol (x := '!') rfl rfl rfl fun c hc => ?_
      obtain ⟨heq, -⟩ := hrest c hc
      simp [hfollowers, heq]
  | minus =>
      have hfollowers : followers Lexing.CSharp.symbols '-' = ['-', '>', '='] := by decide
      refine lexed_symbol (x := '-') rfl rfl rfl fun c hc => ?_
      obtain ⟨heq, hgt, hminus, -⟩ := hrest c hc
      simp [hfollowers, heq, hgt, hminus rfl]
  | plus =>
      have hfollowers : followers Lexing.CSharp.symbols '+' = ['+', '='] := by decide
      refine lexed_symbol (x := '+') rfl rfl rfl fun c hc => ?_
      obtain ⟨heq, -, -, hplus⟩ := hrest c hc
      simp [hfollowers, heq, hplus rfl]

theorem lexed_dot {c : Char} {cs : List Char} (hc : Reading.isDigit c = false) :
    (mark "." .dot).Lexed .csharp before (c :: cs) := by
  have hnumber : Lexing.CSharp.number ('.' :: c :: cs) = .ok none := by
    have hplain : startsIgnoringCase "0x" ('.' :: c :: cs) = false := rfl
    have hhead : headIs Reading.isDigit ('.' :: c :: cs) = false := rfl
    have hpoint : pointAndDigit ('.' :: c :: cs) = false := by simp [pointAndDigit, headIs, hc]
    simp [Lexing.CSharp.number, hplain, decimal, hhead, hpoint]
  have htoken : Lexing.CSharp.token ('.' :: c :: cs) =
      firstOf ('.' :: c :: cs) [symbol Lexing.CSharp.symbols] := by
    rw [Lexing.CSharp.token, firstOf, hnumber]
    rfl
  exact lexed_symbol rfl htoken rfl fun c _ => List.not_mem_nil

/-! ## Whole expressions -/

/-- Pieces that are read as they were printed wherever a word or a number may end. -/
def Legible (ps : List Piece) : Prop :=
  ∀ before rest, Ends rest → Lexes .csharp before ps rest

namespace Legible

variable {ps qs : List Piece}

theorem sign {s : Sign} (h : ∀ before rest, Ends rest → s.Lexed .csharp before rest) :
    Legible [.sign s] := fun before rest hrest => ⟨h before rest hrest, trivial⟩

theorem append (hps : Legible ps) (hqs : Legible qs) (hends : ∀ rest, Ends (textOf qs ++ rest)) :
    Legible (ps ++ qs) := fun before rest hrest =>
  lexes_append (hps before _ (hends rest)) (hqs _ rest hrest)

/-- A sign that is read as it is printed whatever comes after it. -/
theorem cons {p : Piece} (hp : ∀ before rest, p.Lexed .csharp before rest) (hps : Legible ps) :
    Legible (p :: ps) := fun before rest hrest => ⟨hp before _, hps _ rest hrest⟩

theorem inParentheses (hps : Legible ps) : Legible (inParentheses ps) := by
  have hopening (before : Option Char) (rest : List Char) :
      (mark "(" .lParen).Lexed .csharp before rest := ⟨by decide, fun cx _ => rfl⟩
  have hclosing : Legible [mark ")" .rParen] := .sign fun _ _ _ => ⟨by decide, fun cx _ => rfl⟩
  exact .append (.cons hopening hps) hclosing fun rest => ends_cons rfl (by decide)

theorem operand {least : Nat} (h : Legible (pieces e)) : Legible (operand least e) := by
  rcases Nat.lt_or_ge (levelOf e) least with hlt | hge
  · rw [operand_of_lt hlt]
    exact h.inParentheses
  · rwa [operand_of_le hge]

theorem infixed {p : Piece} {signed : Prop} (hps : Legible ps) (hqs : Legible qs)
    (hp : ∀ before rest, p.Lexed .csharp before (' ' :: rest))
    (hstart : ∀ cs, headIs Lexing.CSharp.isBlank (p.text ++ cs) = false)
    (hopens : Opens signed (textOf qs)) : Legible (ps ++ [.blank, p, .blank] ++ qs) := by
  rw [List.append_assoc]
  refine .append hps (fun before rest hrest => ?_) fun rest => ends_cons rfl (by decide)
  refine ⟨lexed_blank ?_, hp _ _, lexed_blank (hopens.not_blank rest), hqs _ rest hrest⟩
  have htext : textOf ([p, .blank] ++ qs) ++ rest = p.text ++ (' ' :: (textOf qs ++ rest)) := by
    simp [Piece.text]
  exact htext ▸ hstart _

end Legible

theorem legible_name {word : String} (h : IsWord word.toList) :
    Legible [.sign (Language.csharp.nameSign word)] :=
  .sign fun _ _ hrest => lexed_name h hrest.word

theorem legible_commaSeparated {es : List Expression} (h : ∀ e ∈ es, Legible (pieces e))
    (hopens : ∀ e ∈ es, Opens True (textOf (pieces e))) :
    Legible (commaSeparated (allPieces es)) := by
  rw [allPieces_eq_map]
  induction es with
  | nil => exact fun _ _ _ => trivial
  | cons e es ih =>
      have hrest := ih (fun x hx => h x (List.mem_cons_of_mem _ hx))
        fun x hx => hopens x (List.mem_cons_of_mem _ hx)
      cases es with
      | nil => exact h e List.mem_cons_self
      | cons e' es =>
          have hcomma (before : Option Char) (rest : List Char) :
              (Piece.sign ⟨[','], .comma, none⟩).Lexed .csharp before rest :=
            ⟨by decide, fun cx _ => rfl⟩
          have hblank : Legible (.blank :: commaSeparated ((e' :: es).map pieces)) := by
            intro before rest hends
            have hfirst := hopens e' (by simp)
            refine ⟨lexed_blank ?_, hrest _ rest hends⟩
            cases es with
            | nil => exact hfirst.not_blank rest
            | cons e'' es =>
                rw [List.map_cons, List.map_cons, commaSeparated_cons_cons, textOf_append,
                  List.append_assoc]
                exact hfirst.not_blank _
          rw [List.map_cons, List.map_cons, commaSeparated_cons_cons]
          exact .append (h e List.mem_cons_self) (.cons hcomma hblank) fun rest =>
            ends_cons rfl (by decide)

/-- Two signs that would run into each other have a blank between them. -/
theorem sign_follower {op inner : UnaryOperator} (hsuffix : inner.isSuffix = false)
    (hglue : wouldGlue op inner = false) {c : Char}
    (hc : (unaryText inner).toList.head? = some c) :
    c ≠ '=' ∧ c ≠ '>' ∧ (op = .minus → c ≠ '-') ∧ (op = .plus → c ≠ '+') := by
  cases inner with
  | postIncrement | postDecrement => cases hsuffix
  | not | bitNot | minus | plus | increment | decrement =>
      cases hc
      cases op <;> revert hglue <;> decide

/-- The character after the sign of an operator in front of its operand. -/
theorem operand_follower {op : UnaryOperator} {operand : Expression} (h : Spellable operand)
    (hglue : gluesTo op operand = false) {c : Char}
    (hc : (textOf (CSharp.operand unaryLevel operand) ++ rest).head? = some c) :
    c ≠ '=' ∧ c ≠ '>' ∧ (op = .minus → c ≠ '-') ∧ (op = .plus → c ≠ '+') := by
  obtain ⟨x, hx, hstarts⟩ := (opens_operand unaryLevel (opens_pieces h)).append rest
  cases hx.symm.trans hc
  rcases hstarts with hoperand | ⟨-, hge, hlt⟩
  · refine ⟨?_, ?_, fun _ => ?_, fun _ => ?_⟩ <;>
      · rintro rfl
        revert hoperand
        decide
  · -- only an operator in front of its own operand has this level
    cases h with
    | @unary inner x _ =>
        have hsuffix : inner.isSuffix = false := by
          rw [levelOf_unary] at hlt
          by_contra hsuffix
          rw [Bool.not_eq_false] at hsuffix
          exact absurd hlt (by simp [hsuffix])
        refine sign_follower hsuffix hglue ?_
        rw [operand_of_le hge, pieces, hsuffix] at hc
        cases inner <;> exact hc
    | binary hop => exact absurd (binaryLevel_le hop).2 (Nat.not_lt.mpr hge)
    | name | literal | this | base | member => exact absurd hlt (Nat.lt_irrefl _)
    | application => simp at hlt
    | assignment | conditional | typeTest =>
        revert hge
        simp [assignmentLevel, conditionalLevel, relationalLevel, unaryLevel]

theorem legible_pieces (h : Spellable e) : Legible (pieces e) := by
  induction h with
  | name hword => exact legible_name hword
  | literal hvalue => exact .sign fun _ _ hrest => lexed_literal hvalue hrest
  | this =>
      exact .sign fun _ _ hrest =>
        lexed_word (w := "this") (by decide) (by decide) hrest.word
  | base =>
      exact .sign fun _ _ hrest =>
        lexed_word (w := "base") (by decide) (by decide) hrest.word
  | @member nullConditional target word ht hword ih =>
      obtain ⟨c, cs, htext, hc⟩ := nameSign_head hword
      have hdigit : Reading.isDigit c = false := by
        rcases hc with rfl | hc
        · rfl
        · exact isDigit_of_isNameStart hc
      rw [pieces]
      cases nullConditional with
      | true =>
          refine .append ih.operand (.cons (fun _ _ => ?_) (legible_name hword)) fun rest =>
            ends_cons rfl (by decide)
          exact ⟨by decide, fun cx _ => rfl⟩
      | false =>
          refine .append ih.operand (fun before rest hrest => ⟨?_, ?_⟩) fun rest => ⟨rfl, ?_⟩
          · simp only [textOf_cons, textOf_nil, Piece.text, htext, List.append_nil, List.cons_append]
            exact lexed_dot hdigit
          · exact legible_name hword _ rest hrest
          · simp [mark, Piece.text, htext, pointAndDigit, headIs, hdigit]
  | @application indexed target arguments ht ha ih iha =>
      have hargs := legible_commaSeparated iha fun a hmem =>
        (opens_pieces (ha a hmem)).mono fun _ => trivial
      have hcall {opening closing : Char} (ho : isNameBody opening = false ∧ opening ≠ '.')
          (hc : isNameBody closing = false ∧ closing ≠ '.') {kind kind' : TokenKind}
          (hopening : ∀ before rest, (Sign.mk [opening] kind none).Lexed .csharp before rest)
          (hclosing : ∀ before rest, (Sign.mk [closing] kind' none).Lexed .csharp before rest) :
          Legible (CSharp.operand primaryLevel target ++ [.sign ⟨[opening], kind, none⟩] ++
            commaSeparated (allPieces arguments) ++ [.sign ⟨[closing], kind', none⟩]) := by
        have hinner : Legible (commaSeparated (allPieces arguments) ++
            [.sign ⟨[closing], kind', none⟩]) :=
          .append hargs (.sign fun before rest _ => hclosing before rest) fun rest =>
            ends_cons hc.1 hc.2
        rw [List.append_assoc, List.append_assoc]
        exact .append ih.operand (.cons hopening hinner) fun rest => ends_cons ho.1 ho.2
      rw [pieces]
      cases indexed with
      | true =>
          refine hcall (by decide) (by decide) (fun _ _ => ?_) fun _ _ => ?_
          all_goals exact ⟨by decide, fun cx _ => rfl⟩
      | false =>
          refine hcall (by decide) (by decide) (fun _ _ => ?_) fun _ _ => ?_
          all_goals exact ⟨by decide, fun cx _ => rfl⟩
  | @unary op operand h ih =>
      rw [pieces]
      cases hsuffix : op.isSuffix with
      | true =>
          simp only [if_true]
          cases op with
          | postIncrement | postDecrement =>
              refine .append ih.operand (.sign fun _ _ _ => ?_) fun rest => ends_cons rfl (by decide)
              exact ⟨by decide, fun cx _ => rfl⟩
          | _ => cases hsuffix
      | false =>
          simp only [Bool.false_eq_true, if_false]
          intro before rest hrest
          have hopens := opens_operand unaryLevel (opens_pieces h)
          cases hglue : gluesTo op operand with
          | true =>
              refine ⟨lexed_signBefore fun c hc => ?_, lexed_blank (hopens.not_blank rest),
                ih.operand _ rest hrest⟩
              cases hc
              exact ⟨by decide, by decide, fun _ => by decide, fun _ => by decide⟩
          | false =>
              exact ⟨lexed_signBefore fun c hc => operand_follower h hglue hc, ih.operand _ rest hrest⟩
  | @binary op left right hop hl hr ihl ihr =>
      rw [pieces]
      refine ihl.operand.infixed ihr.operand (fun _ _ => lexed_binary hop) (fun cs => ?_)
        (opens_operand _ (opens_pieces hr))
      cases op <;> rfl
  | @assignment op left value hop hl hv ihl ihv =>
      rw [pieces]
      refine ihl.operand.infixed ihv.operand (fun _ _ => lexed_assignment hop) (fun cs => ?_)
        (opens_operand _ (opens_pieces hv))
      cases op <;> rfl
  | conditional hc hy hn ihc ihy ihn =>
      rw [pieces]
      refine .infixed (.infixed ihc.operand ihy.operand ?_ (fun cs => rfl)
        (opens_operand _ (opens_pieces hy))) ihn.operand ?_ (fun cs => rfl)
        (opens_operand _ (opens_pieces hn))
      all_goals exact fun _ _ => ⟨by decide, fun cx _ => rfl⟩
  | @typeTest converts operand type h ht ih =>
      obtain ⟨c, cs, htext, hc⟩ := nameSign_head ht
      have hopens : Opens False (textOf [.sign (Language.csharp.nameSign type)]) := by
        refine ⟨c, by simp [Piece.text, htext], .inl ?_⟩
        rcases hc with rfl | hc
        · decide
        · simp [startsOperand, hc]
      have htest {p : Piece} (hp : ∀ before rest, p.Lexed .csharp before (' ' :: rest))
          (hstart : ∀ cs, headIs Lexing.CSharp.isBlank (p.text ++ cs) = false) :
          Legible (CSharp.operand relationalLevel operand ++
            [.blank, p, .blank, .sign (Language.csharp.nameSign type)]) := by
        simpa using ih.operand.infixed (legible_name ht) hp hstart hopens
      rw [pieces]
      cases converts with
      | true =>
          refine htest (fun _ _ => ?_) fun cs => rfl
          exact lexed_word (w := "as") (by decide) (by decide) rfl
      | false =>
          refine htest (fun _ _ => ?_) fun cs => rfl
          exact lexed_word (w := "is") (by decide) (by decide) rfl

theorem tokenize_expression (h : Spellable e) : ∃ s ts last,
    tokenize .csharp (textOf (pieces e)) = .ok s ∧ s.tokens.toList = ts ++ [last] ∧
      last.kind = .eof ∧ List.Forall₂ Sign.Prints (signs (pieces e)) ts :=
  tokenize_pieces (legible_pieces h none [] ⟨rfl, rfl⟩)

end DualSyntax.CSharp
