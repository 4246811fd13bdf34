import DualSyntax.Proofs.Expression.CSharpLexing
import DualSyntax.Proofs.Lexing.Folding
import DualSyntax.VisualBasic.Spelling

/-!
# Literals are read back

A literal value that is printed without a spelling of its own is read as itself.  In C# the text is
a single token.  In VB integers and characters are single tokens, and a string is the concatenation
of its parts: runs in quotes, and calls for the control characters between them
(`VisualBasic.literalText_tokens`).
-/

namespace DualSyntax

open Lexing

theorem Sign.Lexed.tokenize {l : Language} {s : Sign} (h : s.Lexed l none []) :
    tokenize l s.text = .ok (.single s.text s.kind s.value) := by
  have hnext := h.next {} rfl
  rw [List.append_nil] at hnext
  exact tokenize_lexeme h.ne_nil hnext rfl

/-! ## C# -/

namespace CSharp

end CSharp

namespace VisualBasic

/-! ## Numbers in VB -/

theorem startsIgnoringCase_of_isDigit {word : String} {x c : Char} {xs : List Char}
    (hc : Reading.isDigit c = true) (hword : word.toList = x :: xs)
    (hx : Reading.isDigit x = false) (cs : List Char) :
    startsIgnoringCase word (c :: cs) = false := by
  rw [Bool.eq_false_iff]
  intro h
  obtain ⟨d, rest, hcons, rfl⟩ := Lexing.VisualBasic.startsIgnoringCase_head hword h
  cases hcons
  rw [isDigit_caseless, hc] at hx
  cases hx

theorem trivia_of_isDigit {c : Char} (hc : Reading.isDigit c = true) (cs : List Char)
    (before : Option Char) (last : Option TokenKind) :
    Lexing.VisualBasic.trivia before last (c :: cs) = none := by
  have hne {x : Char} (hx : Reading.isDigit x = false) : c ≠ x := by
    rintro rfl
    simp [hc] at hx
  have hblank : Lexing.VisualBasic.isBlank c = false := by
    simp [Lexing.VisualBasic.isBlank, hne (x := ' ') rfl, hne (x := '\t') rfl, hne (x := '\r') rfl]
  have hmark : Lexing.VisualBasic.continuation before (c :: cs) = none := by
    rw [Lexing.VisualBasic.continuation_cons, if_neg fun h => hne (x := '_') rfl h.1]
  have hcomment : Lexing.VisualBasic.comment (c :: cs) = none := by
    have hrem : startsIgnoringCase "rem" (c :: cs) = false :=
      startsIgnoringCase_of_isDigit hc rfl rfl cs
    simp [Lexing.VisualBasic.comment, List.isPrefixOf, hrem, (hne (x := '\x27') rfl).symm]
  simp [Lexing.VisualBasic.trivia, blanks, headIs, hblank, hmark, hcomment,
    Lexing.VisualBasic.innerLineBreak, hne (x := '\n') rfl]

theorem literalText_integer (n : Nat) (suffix : NumberSuffix) :
    (literalText (.integer n suffix)).toList =
      Nat.toDigits 10 n ++ (suffixText suffix).toList := by
  rw [literalText, String.toList_append]
  congr 1
  exact Nat.toList_repr

/-- A printed integer is read as its value. -/
theorem token_integer {n : Nat} {suffix : NumberSuffix} {rest : List Char}
    (hn : n < Nat.pow 2 64) (hreal : suffix.isReal = false) (hrest : Ends rest) :
    Lexing.VisualBasic.token ((literalText (.integer n suffix)).toList ++ rest) =
      .ok (some ⟨.integerLiteral, (literalText (.integer n suffix)).toList.length,
        some (.integer n suffix)⟩) := by
  have hdigits (c : Char) (hc : c ∈ Nat.toDigits 10 n) : Reading.isDigit c = true :=
    Lexing.CSharp.isDigit_of_mem_toDigits hc
  have hletters : SuffixLetters (suffixText suffix).toList := by
    cases suffix <;> exact ⟨by simp [suffixText], by simp [suffixText]⟩
  have hread : Lexing.VisualBasic.suffix? (String.ofList (suffixText suffix).toList) =
      some suffix := by
    cases suffix <;> decide +kernel
  have hdecimal := decimal_digits Nat.toDigits_ne_nil hdigits hletters hrest hread hreal
    (by rwa [ofDigits_toDigits])
  rw [ofDigits_toDigits] at hdecimal
  rw [literalText_integer, List.append_assoc, List.length_append]
  obtain ⟨c, cs, hcons⟩ := List.exists_cons_of_ne_nil (Nat.toDigits_ne_nil (n := n) (b := 10))
  have hc : Reading.isDigit c = true := hdigits c (hcons ▸ List.mem_cons_self)
  rw [hcons, List.cons_append] at hdecimal ⊢
  have hline : Lexing.VisualBasic.lineBreak (c :: (cs ++ ((suffixText suffix).toList ++ rest))) =
      .ok none := by
    have hn : c ≠ '\n' := by
      rintro rfl
      simp [Reading.isDigit] at hc
    simp [Lexing.VisualBasic.lineBreak, headIs, hn]
  have hplain : startsIgnoringCase "&h" (c :: (cs ++ ((suffixText suffix).toList ++ rest))) =
      false := startsIgnoringCase_of_isDigit hc rfl rfl _
  rw [Lexing.VisualBasic.token, firstOf, hline]
  simp only [firstOf, Lexing.VisualBasic.number, hplain, Bool.false_and, Bool.false_eq_true,
    if_false, hdecimal]

/-! ## Texts in quotes in VB -/

def doubled (c : Char) : List Char := if c = '"' then ['"', '"'] else [c]

theorem quote_toList (cs : List Char) : (quote cs).toList = '"' :: (cs.flatMap doubled ++ ['"']) := by
  rw [quote, String.toList_ofList]
  rfl

/-- A text printed between quotes is read as itself. -/
theorem doubledQuoteBody_flatMap {cs rest : List Char} (hcs : '\n' ∉ cs)
    (hrest : headIs (· == '"') rest = false) (o : Nat) :
    doubledQuoteBody false o (cs.flatMap doubled ++ '"' :: rest) =
      .ok (cs, (cs.flatMap doubled).length + 1) := by
  induction cs generalizing o with
  | nil => exact doubledQuoteBody_quote hrest false o
  | cons c cs ih =>
      have hc : c ≠ '\n' := fun hc => hcs (hc ▸ List.mem_cons_self)
      have hbody := fun o => ih (fun hmem => hcs (List.mem_cons_of_mem c hmem)) o
      rw [List.flatMap_cons, List.append_assoc, List.length_append]
      by_cases hquote : c = '"'
      · subst hquote
        simp only [doubled, if_true, List.cons_append, List.nil_append, doubledQuoteBody, hbody,
          Except.map, List.length_cons, List.length_nil, Except.ok.injEq, Prod.mk.injEq, true_and]
        omega
      · simp only [doubled, hquote, if_false, List.cons_append, List.nil_append, List.length_cons,
          List.length_nil]
        rw [doubledQuoteBody_cons hquote, if_neg (by simp [hc]), hbody]
        simp only [Except.map, Except.ok.injEq, Prod.mk.injEq, true_and]
        omega

/-- A text printed between quotes is a string, or a character if the mark of one follows. -/
theorem string_quote {cs rest : List Char} (hcs : '\n' ∉ cs)
    (hrest : headIs (· == '"') rest = false) :
    Lexing.VisualBasic.string ((quote cs).toList ++ rest) =
      if headIs (fun c => c == 'c' || c == 'C') rest && !headIs isNameBody (rest.drop 1) then
        charLexeme cs ((quote cs).toList ++ rest.take 1)
      else .ok (some ⟨.stringLiteral, (quote cs).toList.length,
        some (.string (String.ofList cs))⟩) := by
  have hbody := doubledQuoteBody_flatMap hcs hrest 1
  rw [quote_toList, List.cons_append, List.append_assoc, List.singleton_append]
  generalize cs.flatMap doubled = body at hbody ⊢
  have hdrop : (body ++ '"' :: rest).drop (body.length + 1) = rest := by
    simp [← List.drop_drop]
  have htake : (body ++ '"' :: rest).take (body.length + 1 + 1) = body ++ '"' :: rest.take 1 := by
    rw [Nat.add_assoc, List.take_length_add_append]
    rfl
  rw [Lexing.VisualBasic.string, hbody]
  simp only [bind, Except.bind, pure, Except.pure, hdrop, htake]
  simp

theorem token_of_quote {cs : List Char} {found : Lexeme}
    (h : Lexing.VisualBasic.string ('"' :: cs) = .ok (some found)) :
    Lexing.VisualBasic.token ('"' :: cs) = .ok (some found) := by
  have hline : Lexing.VisualBasic.lineBreak ('"' :: cs) = .ok none := rfl
  have hnumber : Lexing.VisualBasic.number ('"' :: cs) = .ok none := rfl
  simp only [Lexing.VisualBasic.token, firstOf, hline, hnumber, h]

/-- A printed run is read as a string in front of what continues neither the quote nor a name. -/
theorem token_run {cs rest : List Char} (hcs : '\n' ∉ cs)
    (hquote : headIs (· == '"') rest = false) (hword : headIs isNameBody rest = false) :
    Lexing.VisualBasic.token ((quote cs).toList ++ rest) =
      .ok (some ⟨.stringLiteral, (quote cs).toList.length,
        some (.string (String.ofList cs))⟩) := by
  have hmark : headIs (fun c => c == 'c' || c == 'C') rest = false := by
    refine headIs_of_imp (fun c hc => ?_) hword
    rcases (Bool.or_eq_true _ _).mp hc with hc | hc <;> rw [beq_iff_eq.mp hc] <;> decide
  have hstring := string_quote hcs hquote
  rw [hmark, Bool.false_and, if_neg Bool.false_ne_true] at hstring
  rw [quote_toList] at hstring ⊢
  exact token_of_quote hstring

/-- A printed character is read as itself at the end of the text. -/
theorem token_char {c : Char} (hc : c ≠ '\n') :
    Lexing.VisualBasic.token ((quote [c]).toList ++ ['c']) =
      .ok (some ⟨.charLiteral, ((quote [c]).toList ++ ['c']).length, some (.char c)⟩) := by
  have hstring : Lexing.VisualBasic.string ((quote [c]).toList ++ ['c']) =
      charLexeme [c] ((quote [c]).toList ++ ['c']) :=
    string_quote (by simpa using Ne.symm hc) rfl
  rw [quote_toList] at hstring ⊢
  exact token_of_quote hstring

/-! ## Parts of a string in VB -/

/-- A part of a printed string: a run in quotes, or a call for the character with a code. -/
inductive StringPart where
  | run (cs : List Char)
  | coded (c : Char)

namespace StringPart

def text : StringPart → String
  | run cs => quote cs
  | coded c => charCall c

def chars : StringPart → List Char
  | run cs => cs
  | coded c => [c]

def signs : StringPart → List Sign
  | run cs => [⟨(quote cs).toList, .stringLiteral, some (.string (String.ofList cs))⟩]
  | coded c =>
    [⟨"ChrW".toList, .identifier, none⟩, ⟨['('], .lParen, none⟩,
     ⟨(toString c.toNat).toList, .integerLiteral, some (.integer c.toNat .none)⟩,
     ⟨[')'], .rParen, none⟩]

/-- The tokens of a string: those of its only part, or those of all its parts in parentheses with
the sign of concatenation between any two of them. -/
def concatenation : List StringPart → List Sign
  | [p] => p.signs
  | ps =>
    ⟨['('], .lParen, none⟩ :: ([⟨['&'], .amp, none⟩].intercalate (ps.map signs) ++
      [⟨[')'], .rParen, none⟩])

def concatenationText : List StringPart → String
  | [p] => p.text
  | ps => "(" ++ " & ".intercalate (ps.map text) ++ ")"

def OneLine : StringPart → Prop
  | run cs => '\n' ∉ cs
  | coded _ => True

end StringPart

/-- A run in front of parts is a part of its own unless it is empty. -/
theorem exists_parts_after {run : List Char} (hrun : '\n' ∉ run) {ps : List StringPart}
    (hlines : ∀ p ∈ ps, p.OneLine) : ∃ qs : List StringPart,
      (if run.isEmpty then [] else [quote run.reverse]) ++ ps.map StringPart.text =
          qs.map StringPart.text ∧
        qs.flatMap StringPart.chars = run.reverse ++ ps.flatMap StringPart.chars ∧
          ∀ q ∈ qs, q.OneLine := by
  cases run with
  | nil => exact ⟨ps, rfl, rfl, hlines⟩
  | cons c run =>
      refine ⟨.run (c :: run).reverse :: ps, rfl, rfl, ?_⟩
      intro q hq
      rcases List.mem_cons.mp hq with rfl | hq
      · exact fun hmem => hrun (List.mem_reverse.mp hmem)
      · exact hlines q hq

theorem exists_parts {run : List Char} (hrun : '\n' ∉ run) (cs : List Char) :
    ∃ ps : List StringPart, stringParts run cs = ps.map StringPart.text ∧
      ps.flatMap StringPart.chars = run.reverse ++ cs ∧ ∀ p ∈ ps, p.OneLine := by
  induction cs generalizing run with
  | nil =>
      have hnone : ∀ p ∈ ([] : List StringPart), p.OneLine := List.forall_mem_nil _
      obtain ⟨ps, htexts, hchars, hlines⟩ := exists_parts_after hrun hnone
      refine ⟨ps, ?_, hchars, hlines⟩
      rw [stringParts, ← htexts, List.map_nil, List.append_nil]
  | cons c cs ih =>
      by_cases hcontrol : Text.isControl c = true
      · obtain ⟨ps, htexts, hchars, hlines⟩ := ih List.not_mem_nil
        have hcoded : ∀ p ∈ StringPart.coded c :: ps, p.OneLine :=
          List.forall_mem_cons.mpr ⟨trivial, hlines⟩
        obtain ⟨qs, hqtexts, hqchars, hqlines⟩ := exists_parts_after hrun hcoded
        refine ⟨qs, ?_, ?_, hqlines⟩
        · rw [stringParts, if_pos hcontrol, ← hqtexts, List.map_cons, htexts]
          rfl
        · rw [hqchars, List.flatMap_cons, hchars]
          rfl
      · have hc : c ≠ '\n' := by
          rintro rfl
          exact hcontrol rfl
        have hrun' : '\n' ∉ c :: run := by simp [hrun, hc.symm]
        obtain ⟨ps, htexts, hchars, hlines⟩ := ih hrun'
        refine ⟨ps, ?_, ?_, hlines⟩
        · rw [stringParts, if_neg hcontrol, htexts]
        · rw [hchars, List.reverse_cons, List.append_assoc, List.singleton_append]

/-- A printed string is made of parts that denote its characters. -/
theorem exists_concatenation (s : String) : ∃ ps : List StringPart, ps ≠ [] ∧
    literalText (.string s) = StringPart.concatenationText ps ∧
      ps.flatMap StringPart.chars = s.toList ∧ ∀ p ∈ ps, p.OneLine := by
  obtain ⟨ps, htexts, hchars, hlines⟩ := exists_parts List.not_mem_nil s.toList
  rw [literalText, stringText, htexts]
  match ps with
  | [] =>
      refine ⟨[.run []], by simp, rfl, hchars, ?_⟩
      simp [StringPart.OneLine]
  | [p] => exact ⟨[p], by simp, rfl, hchars, hlines⟩
  | p :: q :: ps => exact ⟨p :: q :: ps, by simp, rfl, hchars, hlines⟩

/-! ## Parts are read as they were printed -/

theorem lexed_of_token {text : List Char} {kind : TokenKind} {value : Option LiteralValue}
    {before : Option Char} {rest : List Char} (hne : text ≠ [])
    (htrivia : ∀ last, Lexing.VisualBasic.trivia before last (text ++ rest) = none)
    (h : Lexing.VisualBasic.token (text ++ rest) = .ok (some ⟨kind, text.length, value⟩)) :
    (Sign.mk text kind value).Lexed .visualBasic before rest := by
  refine ⟨hne, fun cx hbefore => ?_⟩
  simp only [next, triviaAt, tokenAt, hbefore, htrivia, h]
  rfl

theorem lexed_integer {n : Nat} {suffix : NumberSuffix} {before : Option Char} {rest : List Char}
    (hn : n < Nat.pow 2 64) (hreal : suffix.isReal = false) (hrest : Ends rest) :
    (Sign.mk (literalText (.integer n suffix)).toList .integerLiteral
      (some (.integer n suffix))).Lexed .visualBasic before rest := by
  obtain ⟨c, cs, hdigits⟩ := List.exists_cons_of_ne_nil (Nat.toDigits_ne_nil (n := n) (b := 10))
  have htext : (literalText (.integer n suffix)).toList =
      c :: (cs ++ (suffixText suffix).toList) := by
    rw [literalText_integer, hdigits, List.cons_append]
  have hc : Reading.isDigit c = true :=
    Lexing.CSharp.isDigit_of_mem_toDigits (hdigits ▸ List.mem_cons_self)
  refine lexed_of_token (by simp [htext]) (fun last => ?_) (token_integer hn hreal hrest)
  rw [htext]
  exact trivia_of_isDigit hc _ before last

theorem lexed_run {cs rest : List Char} {before : Option Char} (hcs : '\n' ∉ cs)
    (hquote : headIs (· == '"') rest = false) (hword : headIs isNameBody rest = false) :
    (Sign.mk (quote cs).toList .stringLiteral (some (.string (String.ofList cs)))).Lexed
      .visualBasic before rest := by
  refine lexed_of_token (by simp [quote_toList]) (fun last => ?_) (token_run hcs hquote hword)
  rw [quote_toList]
  rfl

theorem lexed_char {c : Char} {before : Option Char} (hc : c ≠ '\n') :
    (Sign.mk ((quote [c]).toList ++ ['c']) .charLiteral (some (.char c))).Lexed
      .visualBasic before [] := by
  have htoken := token_char hc
  rw [← List.append_nil ((quote [c]).toList ++ ['c'])] at htoken
  refine lexed_of_token (by simp) (fun last => ?_) (by simpa using htoken)
  rw [quote_toList]
  rfl

/-! ## Strings are read as their parts -/

namespace StringPart

open Piece

def pieces (p : StringPart) : List Piece := p.signs.map .sign

def joined : List StringPart → List Piece
  | [] => []
  | [p] => p.pieces
  | p :: q :: ps => p.pieces ++ .blank :: .sign ⟨['&'], .amp, none⟩ :: .blank :: joined (q :: ps)

def spelled : List StringPart → List Piece
  | [p] => p.pieces
  | ps => .sign ⟨['('], .lParen, none⟩ :: (joined ps ++ [.sign ⟨[')'], .rParen, none⟩])

theorem signs_pieces (p : StringPart) : Piece.signs p.pieces = p.signs := by
  cases p <;> rfl

theorem textOf_pieces (p : StringPart) : textOf p.pieces = p.text.toList := by
  cases p with
  | run cs => simp [pieces, signs, Piece.text, text]
  | coded c => simp [pieces, signs, Piece.text, text, charCall]

theorem signs_joined (ps : List StringPart) :
    Piece.signs (joined ps) = [⟨['&'], .amp, none⟩].intercalate (ps.map signs) := by
  fun_induction joined ps with
  | case1 => rfl
  | case2 p => simp [signs_pieces]
  | case3 p q ps ih => simp [signs_pieces, ih]

theorem textOf_joined (ps : List StringPart) :
    textOf (joined ps) = " & ".toList.intercalate (ps.map fun p => p.text.toList) := by
  fun_induction joined ps with
  | case1 => rfl
  | case2 p => simp [textOf_pieces]
  | case3 p q ps ih => simp [textOf_pieces, ih, Piece.text]

theorem signs_spelled (ps : List StringPart) : Piece.signs (spelled ps) = concatenation ps := by
  fun_cases spelled ps with
  | case1 p => exact signs_pieces p
  | case2 ps hps =>
      rw [concatenation]
      · simp [signs_joined]
      · exact hps

theorem textOf_spelled (ps : List StringPart) :
    textOf (spelled ps) = (concatenationText ps).toList := by
  fun_cases spelled ps with
  | case1 p => exact textOf_pieces p
  | case2 ps hps =>
      rw [concatenationText]
      · simp [textOf_joined, String.toList_intercalate, Piece.text, Function.comp_def]
      · exact hps

def Follows (rest : List Char) : Prop := ∀ c, rest.head? = some c → c = ' ' ∨ c = ')'

theorem Follows.headIs {p : Char → Bool} {rest : List Char} (h : Follows rest)
    (hblank : p ' ' = false) (hclose : p ')' = false) : headIs p rest = false := by
  cases rest with
  | nil => rfl
  | cons c rest =>
      rw [Lexing.headIs, List.head?_cons, Option.any_some]
      rcases h c rfl with rfl | rfl
      · exact hblank
      · exact hclose

theorem lexed_charCall (before : Option Char) (rest : List Char) :
    (Sign.mk "ChrW".toList .identifier none).Lexed .visualBasic before ('(' :: rest) := by
  have hword : IsWord "ChrW".toList := by decide
  have hplain : wordLexeme .visualBasic "ChrW".toList = ⟨.identifier, 4, none⟩ := by
    have hname : Language.visualBasic.keyword? "ChrW" = none := by decide +kernel
    rw [wordLexeme, String.ofList_toList, hname]
    rfl
  refine ⟨hword.ne_nil, fun cx _ => ?_⟩
  have hnext := @next_word_visualBasic cx "ChrW".toList ('(' :: rest) hword rfl
  have hmark : Lexing.VisualBasic.continuation cx.before ("ChrW".toList ++ '(' :: rest) = none := rfl
  have hcomment : "ChrW".toList.map Char.toLower ≠ "rem".toList := by decide
  rw [hmark] at hnext
  simp only [if_neg hcomment, hplain] at hnext
  exact hnext

theorem lexes_pieces {p : StringPart} (hp : p.OneLine) {rest : List Char} (hrest : Follows rest)
    (before : Option Char) : Lexes .visualBasic before p.pieces rest := by
  cases p with
  | run cs => exact ⟨lexed_run hp (hrest.headIs rfl rfl) (hrest.headIs rfl rfl), trivial⟩
  | coded c =>
      have htext : (toString c.toNat).toList = (literalText (.integer c.toNat .none)).toList := by
        rw [literalText, suffixText, String.append_empty]
      have hcode : c.toNat < Nat.pow 2 64 := Nat.lt_trans c.val.toNat_lt (by decide)
      have hnumber (before : Option Char) := @lexed_integer c.toNat .none before (')' :: rest) hcode
        rfl (CSharp.ends_cons rfl (by decide))
      rw [← htext] at hnumber
      refine ⟨lexed_charCall before _, ⟨by decide, fun cx _ => rfl⟩, hnumber _,
        ⟨by decide, fun cx _ => rfl⟩, trivial⟩

/-- Parts begin with a quote or with the name of a call. -/
theorem textOf_joined_head (p : StringPart) (ps : List StringPart) :
    ∃ c cs, textOf (joined (p :: ps)) = c :: cs ∧ (c = '"' ∨ c = 'C') := by
  have hhead : ∃ c cs, p.text.toList = c :: cs ∧ (c = '"' ∨ c = 'C') := by
    cases p with
    | run cs => exact ⟨'"', _, quote_toList cs, .inl rfl⟩
    | coded c =>
        refine ⟨'C', "hrW(".toList ++ (toString c.toNat).toList ++ [')'], ?_, .inr rfl⟩
        simp [text, charCall]
  obtain ⟨c, cs, htext, hc⟩ := hhead
  rw [textOf_joined]
  cases ps with
  | nil => exact ⟨c, cs, by simpa using htext, hc⟩
  | cons q ps => exact ⟨c, _, by rw [List.map_cons, List.map_cons, List.intercalate_cons_cons,
      htext, List.cons_append, List.cons_append], hc⟩

theorem lexes_joined {ps : List StringPart} (hps : ∀ p ∈ ps, p.OneLine) {rest : List Char}
    (hrest : Follows rest) (before : Option Char) :
    Lexes .visualBasic before (joined ps) rest := by
  fun_induction joined ps generalizing before with
  | case1 => trivial
  | case2 p => exact lexes_pieces (hps p List.mem_cons_self) hrest before
  | case3 p q ps ih =>
      have hgap : Follows (' ' :: '&' :: ' ' :: (textOf (joined (q :: ps)) ++ rest)) := by
        intro c hc
        exact .inl (Option.some.inj hc).symm
      refine lexes_append (lexes_pieces (hps p List.mem_cons_self) hgap before) ?_
      refine ⟨fun cx => rfl, ⟨by decide, fun cx _ => rfl⟩, fun cx => ?_,
        ih (fun r hr => hps r (List.mem_cons_of_mem p hr)) _⟩
      -- the blank in front of the next part ends where the part begins
      obtain ⟨c, cs, htext, hc⟩ := textOf_joined_head q ps
      rw [htext]
      rcases hc with rfl | rfl <;> rfl

theorem lexes_spelled {ps : List StringPart} (hps : ∀ p ∈ ps, p.OneLine) :
    Lexes .visualBasic none (spelled ps) [] := by
  have hend : Follows [] := by
    intro c hc
    cases hc
  have hclose : Follows [')'] := by
    intro c hc
    exact .inr (Option.some.inj hc).symm
  fun_cases spelled ps with
  | case1 p => exact lexes_pieces (hps p List.mem_cons_self) hend none
  | case2 ps _ =>
      exact ⟨⟨by decide, fun cx _ => rfl⟩, lexes_append (lexes_joined hps hclose _)
        ⟨⟨by decide, fun cx _ => rfl⟩, trivial⟩⟩

end StringPart

end VisualBasic

end DualSyntax
