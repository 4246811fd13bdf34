import DualSyntax.Proofs.Lexing.Folding
import DualSyntax.Proofs.Lexing.Lossless
import DualSyntax.Proofs.Lexing.Meaning
import Mathlib.Data.List.TakeWhile

/-!
# Line breaks of VB

A line feed of a text that has tokens is taken along by a continuation mark, or is a piece of its
own.  The rules are looked through once: whatever they find is `Inline`, except for continuation
marks and line breaks (`next_feed`).  `Laid` carries that along the loop for the pieces of a whole
text, together with the last token in front of each piece; `tokenize_lineBreaks` draws the
conclusions about single line feeds and about the tokens next to each other.
-/

namespace DualSyntax

namespace Lexing

variable {cs : List Char} {n : Nat} {z : Char}

/-! ## Lexemes inside a line -/

/-- A lexeme that takes no line feed off the head of a text, and claims to be no line break. -/
structure Lexeme.Inline (x : Lexeme) (cs : List Char) : Prop where
  kind_ne : x.kind ≠ .newLine
  no_feed : '\n' ∉ cs.take x.length

/-- Whatever a rule finds stays inside a line. -/
def Inline (rule : List Char → Found) : Prop :=
  ∀ ⦃cs : List Char⦄ ⦃x : Lexeme⦄, rule cs = .ok (some x) → x.Inline cs

theorem not_mem_take_mono {m : Nat} (h : z ∉ cs.take n) (hle : m ≤ n) : z ∉ cs.take m :=
  fun hmem => h (List.take_subset_take_left cs hle hmem)

theorem not_mem_take_add {m : Nat} (hm : z ∉ cs.take m) (hn : z ∉ (cs.drop m).take n) :
    z ∉ cs.take (m + n) := by
  rw [List.take_add, List.mem_append, not_or]
  exact ⟨hm, hn⟩

theorem not_mem_run {p : Char → Bool} (hp : p z = false) (cs : List Char) :
    z ∉ cs.take (runLength p cs) := by
  have htake : cs.take (runLength p cs) = cs.takeWhile p :=
    (List.prefix_iff_eq_take.mp (List.takeWhile_prefix p)).symm
  rw [htake]
  intro hmem
  have hz : p z = true := List.all_eq_true.mp List.all_takeWhile _ hmem
  rw [hp] at hz
  cases hz

theorem not_mem_one {p : Char → Bool} (hp : p z = false) (h : headIs p cs = true) :
    z ∉ cs.take 1 := by
  cases cs with
  | nil => simp
  | cons c cs =>
      have hc : p c = true := by simpa [headIs] using h
      rw [List.take_succ_cons, List.take_zero, List.mem_singleton]
      rintro rfl
      rw [hp] at hc
      cases hc

theorem lineLength_le (cs : List Char) : lineLength cs ≤ runLength (· != '\n') cs := by
  unfold lineLength
  dsimp only
  split
  · exact Nat.sub_le _ _
  · exact Nat.le_refl _

theorem no_feed_line (cs : List Char) : '\n' ∉ cs.take (lineLength cs) :=
  not_mem_take_mono (not_mem_run rfl cs) (lineLength_le cs)

theorem no_feed_word {word : String} (hword : '\n' ∉ word.toList)
    (h : startsIgnoringCase word cs = true) : '\n' ∉ cs.take word.length := by
  intro hmem
  have hlower : '\n'.toLower ∈ (cs.take word.length).map Char.toLower :=
    List.mem_map_of_mem hmem
  rw [beq_iff_eq.mp h] at hlower
  exact hword hlower

/-! ### Numbers -/

theorem pointAndDigit_head (h : pointAndDigit cs = true) : headIs (· == '.') cs = true := by
  unfold pointAndDigit at h
  split at h
  · rfl
  · cases h

/-- The characters of numbers, but for the letters of hexadecimal digits and of suffixes. -/
def isNumeral (c : Char) : Bool :=
  isDigitOrMark c || c == '.' || c == 'e' || c == 'E' || c == '+' || c == '-'

theorem not_mem_fraction (hz : isNumeral z = false) (cs : List Char) :
    z ∉ cs.take (fractionLength cs) := by
  simp only [isNumeral, Bool.or_eq_false_iff] at hz
  unfold fractionLength
  split
  · rename_i hpoint
    refine not_mem_take_add (not_mem_one ?_ (pointAndDigit_head hpoint)) (not_mem_run ?_ _)
    · exact hz.1.1.1.1.2
    · exact hz.1.1.1.1.1
  · simp

theorem not_mem_mantissa (hz : isNumeral z = false) (cs : List Char) :
    z ∉ cs.take (mantissaLength cs) := by
  refine not_mem_take_add (not_mem_run ?_ cs) (not_mem_fraction hz _)
  simp only [isNumeral, Bool.or_eq_false_iff] at hz
  exact hz.1.1.1.1.1

theorem not_mem_exponent (hz : isNumeral z = false) (cs : List Char) :
    z ∉ cs.take (exponentLength cs) := by
  simp only [isNumeral, Bool.or_eq_false_iff, beq_eq_false_iff_ne] at hz
  obtain ⟨⟨⟨⟨⟨hdigit, -⟩, hlower⟩, hupper⟩, hplus⟩, hminus⟩ := hz
  cases cs with
  | nil => simp
  | cons e cs =>
      have hsign : z ∉ cs.take (signLength cs) := by
        unfold signLength
        split
        · rename_i hhead
          exact not_mem_one (by simp [hplus, hminus]) hhead
        · simp
      rw [exponentLength_cons]
      split
      · rename_i he
        have hmark : z ∉ (e :: cs).take 1 := by
          rcases he with rfl | rfl
          · simpa using hlower
          · simpa using hupper
        split
        · rw [Nat.add_assoc]
          exact not_mem_take_add hmark (not_mem_take_add hsign (not_mem_run hdigit _))
        · simp
      · simp

theorem not_mem_decimal (hz : isNumeral z = false) (halpha : z.isAlpha = false)
    {suffix? : String → Option NumberSuffix} {x : Lexeme} (hx : decimal suffix? cs = .ok (some x)) :
    z ∉ cs.take x.length := by
  rw [(decimal_length hx).2.2]
  refine not_mem_take_add (not_mem_take_add (not_mem_mantissa hz cs) (not_mem_exponent hz _)) ?_
  rw [← List.drop_drop]
  exact not_mem_run halpha _

theorem not_mem_hexadecimal {mark : Nat} (hmark : z ∉ cs.take mark)
    (hdigit : isHexDigitOrMark z = false) (halpha : z.isAlpha = false)
    (suffix? : String → Option NumberSuffix) : z ∉ cs.take (hexadecimal mark suffix? cs).length := by
  rw [hexadecimal_length]
  exact not_mem_take_add (not_mem_take_add hmark (not_mem_run hdigit _)) (not_mem_run halpha _)

theorem decimal_inline (suffix? : String → Option NumberSuffix) : Inline (decimal suffix?) := by
  intro cs x hx
  refine ⟨?_, not_mem_decimal rfl rfl hx⟩
  unfold decimal at hx
  split at hx
  · dsimp only at hx
    split at hx
    · cases hx
    · simp only [Except.ok.injEq, Option.some.injEq] at hx
      rw [← hx]
      unfold decimalLexeme
      split
      · simp
      · dsimp only
        split <;> split <;> simp
  · cases hx

theorem hexadecimal_inline {mark : Nat} (hmark : '\n' ∉ cs.take mark)
    (suffix? : String → Option NumberSuffix) : (hexadecimal mark suffix? cs).Inline cs := by
  refine ⟨?_, not_mem_hexadecimal hmark rfl rfl suffix?⟩
  unfold hexadecimal
  dsimp only
  split <;> simp

/-! ### Words and symbols -/

theorem word_inline (l : Language) : Inline (word l) := by
  intro cs x hx
  unfold word at hx
  split at hx
  · cases hx
    refine ⟨?_, not_mem_run rfl cs⟩
    cases hk : l.keyword? (String.ofList (cs.takeWhile isNameBody)) with
    | none => simp
    | some k => exact keyword_ne (by cases l <;> decide) (by cases l <;> decide) hk
  · cases hx

/-- A table of symbols without line feeds, none of which is a line break. -/
def InlineTable (table : List (String × TokenKind)) : Bool :=
  table.all fun e => !e.1.toList.contains '\n' && e.2 != .newLine

theorem symbol_inline {table : List (String × TokenKind)} (ht : InlineTable table = true) :
    Inline (symbol table) := by
  intro cs x hx
  obtain ⟨e, he, rfl⟩ := Option.map_eq_some_iff.mp (Except.ok.inj hx)
  have hentry := List.all_eq_true.mp ht e (List.mem_of_find?_eq_some he)
  simp only [Bool.and_eq_true, Bool.not_eq_true', bne_iff_ne, List.contains_eq_mem,
    decide_eq_false_iff_not] at hentry
  refine ⟨hentry.2, ?_⟩
  have htake : cs.take e.1.length = e.1.toList := by
    have hsign := List.find?_some he
    rw [← String.length_toList]
    exact (List.prefix_iff_eq_take.mp (List.isPrefixOf_iff_prefix.mp hsign)).symm
  rw [htake]
  exact hentry.1

/-! ### Texts between quotes -/

theorem no_feed_doubledQuoteBody {o : Nat} {value : List Char}
    (h : doubledQuoteBody false o cs = .ok (value, n)) : '\n' ∉ cs.take n := by
  fun_induction doubledQuoteBody false o cs generalizing value n with
  | case1 | case4 => cases h
  | case2 o cs ih =>
      obtain ⟨⟨v, k⟩, hbody, hvalue⟩ := exists_of_map h
      cases hvalue
      simpa using ih hbody
  | case3 o tail hnot =>
      cases h
      simp
  | case5 o c cs hpair hquote hbreak ih =>
      obtain ⟨⟨v, k⟩, hbody, hvalue⟩ := exists_of_map h
      cases hvalue
      have hc : '\n' ≠ c := fun hc => hbreak ⟨hc.symm, rfl⟩
      simpa [hc] using ih hbody

namespace VisualBasic

theorem string_inline : Inline string := by
  intro cs x hx
  unfold string at hx
  split at hx
  case h_2 => cases hx
  case h_1 cs =>
      obtain ⟨⟨value, n⟩, hbody, hx⟩ := CSharp.exists_of_bind hx
      have htext := no_feed_doubledQuoteBody hbody
      dsimp only at hx
      split at hx
      · rename_i hmark
        simp only [Bool.and_eq_true] at hmark
        unfold charLexeme at hx
        split at hx
        · cases hx
          refine ⟨by simp, ?_⟩
          have hmore := not_mem_take_add htext (not_mem_one rfl hmark.1)
          simpa using not_mem_take_mono hmore (Nat.min_le_left _ _)
        · cases hx
      · cases hx
        exact ⟨by simp, by simpa using htext⟩

theorem number_inline : Inline number := by
  intro cs x hx
  unfold number at hx
  split at hx
  · rename_i hmark
    rw [Bool.and_eq_true] at hmark
    cases hx
    have hword : '\n' ∉ cs.take "&h".length := no_feed_word (by decide) hmark.1
    exact hexadecimal_inline hword suffix?
  · exact decimal_inline suffix? hx

theorem escapedName_inline : Inline escapedName := by
  intro cs x hx
  unfold escapedName at hx
  split at hx
  case h_2 => cases hx
  case h_1 cs =>
      split at hx
      · have hname : '\n' ∉ cs.take (runLength isNameBody cs) := not_mem_run rfl cs
        cases hx
        split
        · rename_i hclose
          exact ⟨by simp, by simpa using not_mem_take_add hname (not_mem_one rfl hclose)⟩
        · exact ⟨by simp, by simpa using hname⟩
      · cases hx

/-! ### White space, comments and line breaks -/

theorem blanks_inline (cs : List Char) {x : Lexeme} (h : blanks isBlank cs = some x) :
    x.Inline cs := by
  unfold blanks at h
  split at h
  · cases h
    exact ⟨by simp, not_mem_run rfl cs⟩
  · cases h

theorem comment_inline (cs : List Char) {x : Lexeme} (h : comment cs = some x) : x.Inline cs := by
  unfold comment at h
  split at h
  · cases h
    refine ⟨?_, no_feed_line cs⟩
    dsimp only
    split <;> simp
  · split at h
    · cases h
      exact ⟨by simp, no_feed_line cs⟩
    · cases h

theorem continuation_kind {before : Option Char} {x : Lexeme}
    (h : continuation before cs = some x) : x.kind = .lineContinuation := by
  cases cs with
  | nil => cases h
  | cons c cs =>
      rw [continuation_cons] at h
      split at h
      · unfold continuationEnd at h
        split at h <;> cases h <;> rfl
      · cases h

theorem trivia_feed {before : Option Char} {last : Option TokenKind} {x : Lexeme}
    (h : trivia before last cs = some x) :
    x.Inline cs ∨ x.kind = .lineContinuation ∨
      (headIs (· == '\n') cs = true ∧ (last.all continuesLine || closesBracket cs) = true ∧
        x = ⟨.newLine, 1, none⟩) := by
  rcases Option.or_eq_some_iff.mp h with h | ⟨-, h⟩
  · exact .inl (blanks_inline cs h)
  rcases Option.or_eq_some_iff.mp h with h | ⟨-, h⟩
  · exact .inr (.inl (continuation_kind h))
  rcases Option.or_eq_some_iff.mp h with h | ⟨-, h⟩
  · exact .inl (comment_inline cs h)
  unfold innerLineBreak at h
  split at h
  · rename_i hbreak
    rw [Bool.and_eq_true] at hbreak
    cases h
    exact .inr (.inr ⟨hbreak.1, hbreak.2, rfl⟩)
  · cases h

theorem token_feed {x : Lexeme} (h : token cs = .ok (some x)) :
    x.Inline cs ∨ headIs (· == '\n') cs = true ∧ x = ⟨.newLine, 1, none⟩ := by
  obtain ⟨rule, hrule, hfound⟩ := exists_of_firstOf h
  simp only [List.mem_cons, List.not_mem_nil, or_false] at hrule
  rcases hrule with rfl | rfl | rfl | rfl | rfl | rfl
  · unfold lineBreak at hfound
    split at hfound
    · rename_i hbreak
      cases hfound
      exact .inr ⟨hbreak, rfl⟩
    · cases hfound
  · exact .inl (number_inline hfound)
  · exact .inl (string_inline hfound)
  · exact .inl (escapedName_inline hfound)
  · exact .inl (word_inline _ hfound)
  · exact .inl (symbol_inline (by decide) hfound)

/-- The lexeme that stands for a character without a rule holds no line feed, since there is a rule
for line feeds. -/
theorem unknown_inline (h : token cs = .ok none) : unknown.Inline cs := by
  refine ⟨by decide, ?_⟩
  cases cs with
  | nil => simp
  | cons c cs =>
      rw [show unknown.length = 1 from rfl, List.take_succ_cons, List.take_zero,
        List.mem_singleton]
      rintro rfl
      have hbreak : token ('\n' :: cs) = .ok (some ⟨.newLine, 1, none⟩) := rfl
      rw [hbreak] at h
      cases h

theorem not_inner_of_trivia_none {before : Option Char} {last : Option TokenKind}
    (h : trivia before last cs = none) (hhead : headIs (· == '\n') cs = true) :
    (last.all continuesLine || closesBracket cs) = false := by
  have hinner : innerLineBreak last cs = none :=
    (Option.or_eq_none_iff.mp (Option.or_eq_none_iff.mp (Option.or_eq_none_iff.mp h).2).2).2
  unfold innerLineBreak at hinner
  rw [hhead, Bool.true_and] at hinner
  split at hinner
  · cases hinner
  · rename_i hfalse
    exact Bool.eq_false_iff.mpr hfalse

/-- What is read of a line feed: it stays outside of the lexeme, goes on in the next line after a
continuation mark, or is a line break of its own, which is trivia exactly where the statement goes
on. -/
theorem next_feed {cx : Context} {isTrivia : Bool} {x : Lexeme}
    (h : next .visualBasic cx cs = .ok (isTrivia, x)) :
    x.Inline cs ∨ (isTrivia = true ∧ x.kind = .lineContinuation) ∨
      (headIs (· == '\n') cs = true ∧ x = ⟨.newLine, 1, none⟩ ∧
        isTrivia = (cx.last.all continuesLine || closesBracket cs)) := by
  cases htrivia : trivia cx.before cx.last cs with
  | some found =>
      have hfound : isTrivia = true ∧ x = found := by
        simp only [next, triviaAt, htrivia, bind, Except.bind, pure, Except.pure, Except.ok.injEq,
          Prod.mk.injEq] at h
        exact ⟨h.1.symm, h.2.symm⟩
      obtain ⟨rfl, rfl⟩ := hfound
      rcases trivia_feed htrivia with hinline | hkind | ⟨hhead, hinner, hx⟩
      · exact .inl hinline
      · exact .inr (.inl ⟨rfl, hkind⟩)
      · exact .inr (.inr ⟨hhead, hx, hinner.symm⟩)
  | none =>
      obtain rfl : isTrivia = false := by
        cases isTrivia with
        | false => rfl
        | true =>
            simp only [next, triviaAt, htrivia, bind, Except.bind] at h
            cases htoken : tokenAt .visualBasic cs <;>
              simp [htoken, pure, Except.pure] at h
      obtain ⟨-, found, htoken, rfl⟩ := next_token_iff.mp h
      cases found with
      | none => exact .inl (unknown_inline htoken)
      | some x =>
          rcases token_feed htoken with hinline | ⟨hhead, hx⟩
          · exact .inl hinline
          · exact .inr (.inr ⟨hhead, hx, (not_inner_of_trivia_none htrivia hhead).symm⟩)

end VisualBasic

end Lexing

/-! ## Pieces with their kinds -/

/-- A piece of a stream in its place: its kind, its span, and whether it is a token or trivia. -/
structure Placed where
  kind : TokenKind
  span : Span
  isToken : Bool

def Token.layout (t : Token) : List Placed :=
  t.leading.map (fun p => ⟨p.kind, p.span, false⟩) ++ [⟨t.kind, t.span, true⟩]

/-- The kinds and the places of all pieces of a stream in order. -/
def TokenStream.layout (s : TokenStream) : List Placed :=
  s.inOrder (fun p => ⟨p.kind, p.span, false⟩) fun t => ⟨t.kind, t.span, true⟩

def lastToken (ps : List Placed) : Option TokenKind :=
  (ps.filter (·.isToken)).getLast?.map (·.kind)

/-- The byte at an offset lies in a span. -/
def Span.Holds (s : Span) (o : Nat) : Prop := s.start ≤ o ∧ o < s.stop

theorem lastToken_append (ps qs : List Placed) :
    lastToken (ps ++ qs) = (lastToken qs).or (lastToken ps) := by
  simp only [lastToken, List.filter_append, List.getLast?_append, Option.map_or]

theorem lastToken_cons (p : Placed) (ps : List Placed) :
    lastToken (p :: ps) = (lastToken ps).or (lastToken [p]) :=
  lastToken_append [p] ps

theorem lastToken_layout (t : Token) : lastToken t.layout = some t.kind := by
  rw [Token.layout, lastToken_append]
  rfl

theorem lastToken_trivia (ps : List Trivia) :
    lastToken (ps.map fun p => ⟨p.kind, p.span, false⟩) = none := by
  simp [lastToken, List.filter_map, Function.comp_def]

namespace Lexing.VisualBasic

/-! ## Where a statement ends -/

/-- A line feed ends a statement if there is a token in front of it that does not go on in the next
line, and the first character behind it that is no blank closes no bracket. -/
def EndsStatement (last : Option TokenKind) (after : List Char) : Prop :=
  (∃ k, last = some k ∧ continuesLine k = false) ∧
    ∀ c, after.find? (fun c => !Text.isAsciiBlank c) = some c → c ≠ ')' ∧ c ≠ '\x7d'

theorem closesBracket_eq_false_iff {cs : List Char} :
    closesBracket cs = false ↔
      ∀ c, cs.find? (fun c => !Text.isAsciiBlank c) = some c → c ≠ ')' ∧ c ≠ '\x7d' := by
  rw [List.find?_eq_head?_dropWhile_not]
  simp only [Bool.not_not]
  unfold closesBracket headIs
  cases (cs.dropWhile Text.isAsciiBlank).head? <;> simp

theorem endsStatement_iff {last : Option TokenKind} {after : List Char} :
    EndsStatement last after ↔
      (last.all continuesLine || closesBracket ('\n' :: after)) = false := by
  have hafter : closesBracket ('\n' :: after) = closesBracket after := rfl
  rw [Bool.or_eq_false_iff, hafter, closesBracket_eq_false_iff]
  exact and_congr_left' (by cases last <;> simp)

/-! ## Texts laid out in pieces -/

/-- What becomes of a line feed in a piece that stands behind the token `last`, in front of the
text `after`: it is taken along by a continuation mark, or is a line break, which is a token exactly
where it ends the statement. -/
def Broken (last : Option TokenKind) (kind : TokenKind) (isToken : Bool) (after : List Char) :
    Prop :=
  (kind = .lineContinuation ∧ isToken = false) ∨
    (kind = .newLine ∧ (isToken = true ↔ EndsStatement last after))

/-- A piece of text that stands behind the token `last`, in front of the text `rest`, keeps the
rules for line breaks. -/
structure Fits (last : Option TokenKind) (kind : TokenKind) (isToken : Bool)
    (text rest : List Char) : Prop where
  broken : ∀ before after, text = before ++ '\n' :: after →
    Broken last kind isToken (after ++ rest)
  /-- A token that is a line break stands behind one that does not go on in the next line. -/
  follows : isToken = true → kind = .newLine → ∃ k, last = some k ∧ continuesLine k = false

/-- The pieces of a text that begins at an offset, behind the token `last`, keep the rules for line
breaks; the end marker follows them. -/
inductive Laid : Option TokenKind → Nat → List Char → List Placed → Prop
  | done (last : Option TokenKind) (o : Nat) : Laid last o [] [⟨.eof, .emptyAt o, true⟩]
  | piece {last : Option TokenKind} {o : Nat} {kind : TokenKind} {isToken : Bool}
      {text rest : List Char} {pieces : List Placed} (fits : Fits last kind isToken text rest)
      (tail : Laid (if isToken then some kind else last) (o + Text.byteLength text) rest pieces) :
      Laid last o (text ++ rest) (⟨kind, ⟨o, o + Text.byteLength text⟩, isToken⟩ :: pieces)

/-- A line feed of two texts in a row is in the first or in the second. -/
theorem feed_split {text rest before after : List Char}
    (h : text ++ rest = before ++ '\n' :: after) :
    (∃ more, text = before ++ '\n' :: more ∧ after = more ++ rest) ∨
      ∃ more, before = text ++ more ∧ rest = more ++ '\n' :: after := by
  rcases List.append_eq_append_iff.mp h with ⟨more, hbefore, hrest⟩ | ⟨more, htext, hfeed⟩
  · exact .inr ⟨more, hbefore, hrest⟩
  · cases more with
    | nil => exact .inr ⟨[], by simpa using htext.symm, hfeed.symm⟩
    | cons c more =>
        obtain ⟨rfl, rfl⟩ := List.cons_eq_cons.mp hfeed
        exact .inl ⟨more, htext, rfl⟩

theorem lastToken_single (p : Placed) (last : Option TokenKind) :
    (lastToken [p]).or last = if p.isToken then some p.kind else last := by
  cases hp : p.isToken <;> simp [lastToken, hp]

namespace Laid

variable {last : Option TokenKind} {o : Nat} {cs : List Char} {pieces : List Placed}

theorem start_ge (h : Laid last o cs pieces) {p : Placed} (hp : p ∈ pieces) :
    o ≤ p.span.start := by
  induction h with
  | done last o =>
      obtain rfl := List.mem_singleton.mp hp
      exact Nat.le_refl o
  | piece fits tail ih =>
      cases hp with
      | head => exact Nat.le_refl _
      | tail _ hp => exact Nat.le_trans (Nat.le_add_right _ _) (ih hp)

/-- A line feed lies in exactly one piece, which tells what becomes of it. -/
theorem exists_broken (h : Laid last o cs pieces) {before after : List Char}
    (hcs : cs = before ++ '\n' :: after) :
    ∃ xs p ys, pieces = xs ++ p :: ys ∧ p.span.Holds (o + Text.byteLength before) ∧
      (∀ q ∈ xs ++ ys, ¬ q.span.Holds (o + Text.byteLength before)) ∧
      Broken ((lastToken xs).or last) p.kind p.isToken after := by
  induction h generalizing before with
  | done last o => simp at hcs
  | @piece last o kind isToken text rest pieces fits tail ih =>
      rcases feed_split hcs with ⟨more, htext, rfl⟩ | ⟨more, rfl, hrest⟩
      · refine ⟨[], _, pieces, rfl, ⟨Nat.le_add_right _ _, ?_⟩, ?_, fits.broken _ _ htext⟩
        · rw [htext, Text.byteLength_append]
          have hpos : 0 < Text.byteLength ('\n' :: more) := Text.byteLength_pos (by simp)
          dsimp only
          omega
        · -- later pieces start behind this one
          rintro q hq ⟨hle, -⟩
          have hstart := tail.start_ge hq
          have hpos : 0 < Text.byteLength ('\n' :: more) := Text.byteLength_pos (by simp)
          rw [htext, Text.byteLength_append] at hstart
          omega
      · obtain ⟨xs, p, ys, rfl, hold, honly, hbroken⟩ := ih hrest
        rw [Nat.add_assoc, ← Text.byteLength_append] at hold honly
        refine ⟨⟨kind, ⟨o, o + Text.byteLength text⟩, isToken⟩ :: xs, p, ys, rfl, hold, ?_, ?_⟩
        · intro q hq
          cases hq with
          | head =>
              -- this piece ends in front of the line feed
              rintro ⟨-, hlt⟩
              rw [Text.byteLength_append] at hlt
              dsimp only at hlt
              omega
          | tail _ hq => exact honly q hq
        · rw [lastToken_cons, Option.or_assoc, lastToken_single]
          exact hbroken

/-- A token that is a line break stands behind one that does not go on in the next line. -/
theorem follows (h : Laid last o cs pieces) {xs ys : List Placed} {p : Placed}
    (hpieces : pieces = xs ++ p :: ys) (htoken : p.isToken = true) (hkind : p.kind = .newLine) :
    ∃ k, (lastToken xs).or last = some k ∧ continuesLine k = false := by
  induction h generalizing xs with
  | done last o =>
      obtain ⟨-, hp⟩ : xs = [] ∧ _ := by
        cases xs with
        | nil => exact ⟨rfl, List.cons.inj hpieces⟩
        | cons x xs => simp at hpieces
      rw [← hp.1] at hkind
      cases hkind
  | @piece last o kind isToken text rest pieces fits tail ih =>
      cases xs with
      | nil =>
          obtain ⟨rfl, rfl⟩ := List.cons.inj hpieces
          exact fits.follows htoken hkind
      | cons x xs =>
          obtain ⟨rfl, hrest⟩ := List.cons.inj hpieces
          rw [lastToken_cons, Option.or_assoc, lastToken_single]
          exact ih hrest

end Laid

/-- What is cut off the head of a text keeps the rules for line breaks. -/
theorem cuts_fits {cx : Context} {isTrivia : Bool} {x : Lexeme} {text rest : List Char}
    (h : Cuts .visualBasic cx isTrivia x text rest) :
    Fits cx.last x.kind (!isTrivia) text rest := by
  have htext := h.text_eq
  rcases next_feed h.next with hinline | ⟨htrivia, hkind⟩ | ⟨hhead, rfl, htrivia⟩
  · constructor
    · rintro before after rfl
      have hfeed : '\n' ∈ before ++ '\n' :: after := by simp
      rw [htext] at hfeed
      exact absurd hfeed hinline.no_feed
    · exact fun _ hkind => absurd hkind hinline.kind_ne
  · constructor
    · exact fun _ _ _ => .inl ⟨hkind, by rw [htrivia]; rfl⟩
    · intro htoken
      rw [htrivia] at htoken
      cases htoken
  · obtain ⟨cs, hcs⟩ : ∃ cs, text ++ rest = '\n' :: cs := by
      cases hcs : text ++ rest with
      | nil => simp [hcs, headIs] at hhead
      | cons c cs => exact ⟨cs, by simpa [hcs, headIs] using hhead⟩
    obtain rfl : text = ['\n'] := by simpa [hcs] using htext
    constructor
    · intro before after hsplit
      obtain ⟨rfl, rfl⟩ : before = [] ∧ after = [] := by
        cases before <;> simp at hsplit ⊢
        exact hsplit
      refine .inr ⟨rfl, ?_⟩
      rw [List.nil_append, endsStatement_iff, htrivia]
      simp
    · intro htoken _
      rw [htrivia] at htoken
      exact (endsStatement_iff.mpr (by simpa using htoken)).1

/-- After the trivia that is pending, the pieces of the tokens keep the rules for line breaks. -/
theorem exists_laid {cx : Context} {cs : List Char} {ts : List Token}
    (h : Scanned .visualBasic cx cs ts) :
    ∃ pieces, Laid cx.last cx.offset cs pieces ∧
      ts.flatMap Token.layout =
        cx.pending.reverse.map (fun p => ⟨p.kind, p.span, false⟩) ++ pieces := by
  induction h with
  | done cx => exact ⟨_, .done _ _, by simp [Token.layout, Context.endMarker]⟩
  | trivia hcuts _ ih =>
      obtain ⟨pieces, hlaid, hpieces⟩ := ih
      refine ⟨_, .piece (cuts_fits hcuts) hlaid, ?_⟩
      rw [hpieces]
      simp [Context.afterTrivia, Context.span]
  | token hcuts _ ih =>
      obtain ⟨pieces, hlaid, hpieces⟩ := ih
      refine ⟨_, .piece (cuts_fits hcuts) hlaid, ?_⟩
      rw [List.flatMap_cons, hpieces]
      simp [Token.layout, Context.token, Context.span, Context.afterToken]

/-- The tokens of a text, laid out from its start, have a line break only behind a token that does
not go on in the next line. -/
theorem Laid.newLine_follows {o : Nat} {cs : List Char} {xs ys : List Token} {u : Token}
    (h : Laid none o cs ((xs ++ u :: ys).flatMap Token.layout)) (hkind : u.kind = .newLine) :
    ∃ t, xs.getLast? = some t ∧ continuesLine t.kind = false := by
  have hsplit : (xs ++ u :: ys).flatMap Token.layout =
      (xs.flatMap Token.layout ++ u.leading.map (fun p => ⟨p.kind, p.span, false⟩)) ++
        ⟨u.kind, u.span, true⟩ :: ys.flatMap Token.layout := by
    simp [Token.layout]
  obtain ⟨k, hk, hends⟩ := h.follows hsplit rfl hkind
  rw [lastToken_append, lastToken_trivia, Option.none_or, Option.or_none] at hk
  rcases List.eq_nil_or_concat xs with rfl | ⟨init, t, rfl⟩
  · simp [lastToken] at hk
  · rw [List.concat_eq_append, List.flatMap_append, lastToken_append, List.flatMap_singleton,
      lastToken_layout, Option.some_or, Option.some.injEq] at hk
    exact ⟨t, by simp, hk ▸ hends⟩

end Lexing.VisualBasic

open Lexing.VisualBasic

theorem layout_of_tokenize {l : Language} {src : List Char} {s : TokenStream}
    (h : tokenize l src = .ok s) : s.layout = s.tokens.toList.flatMap Token.layout :=
  inOrder_of_tokenize h _ _

/-- The pieces of a stream of VB come from laying out the whole text. -/
theorem tokenize_laid {src : List Char} {s : TokenStream} (h : tokenize .visualBasic src = .ok s) :
    Laid none 0 src s.layout := by
  obtain ⟨pieces, hlaid, hpieces⟩ := exists_laid (Lexing.scanned_of_tokenize h)
  have hlayout : s.layout = pieces := by simpa [layout_of_tokenize h] using hpieces
  rw [hlayout]
  exact hlaid

/-- Line breaks end the statements of a source text where they should. -/
structure TokenStream.LineBreaks (s : TokenStream) (src : List Char) : Prop where
  /-- A line feed lies in exactly one piece.  A continuation mark takes it along as trivia; in any
  other place it is a line break, which is a token if and only if it ends the statement. -/
  placed : ∀ before after, src = before ++ '\n' :: after →
    ∃ xs p ys, s.layout = xs ++ p :: ys ∧ p.span.Holds (Text.byteLength before) ∧
      (∀ q ∈ xs ++ ys, ¬ q.span.Holds (Text.byteLength before)) ∧
      ((p.kind = .lineContinuation ∧ p.isToken = false) ∨
        (p.kind = .newLine ∧ (p.isToken = true ↔ EndsStatement (lastToken xs) after)))
  /-- The first token is no line break. -/
  first : ∀ (t : Token) (ts : List Token), s.tokens.toList = t :: ts → t.kind ≠ .newLine
  /-- A token in front of a line break does not go on in the next line. -/
  ends : ∀ (xs : List Token) (t u : Token) (ys : List Token),
    s.tokens.toList = xs ++ t :: u :: ys → u.kind = .newLine → continuesLine t.kind = false
  /-- No two line breaks are adjacent. -/
  apart : ∀ (xs : List Token) (t u : Token) (ys : List Token),
    s.tokens.toList = xs ++ t :: u :: ys → u.kind = .newLine → t.kind ≠ .newLine
  /-- No line break follows an opening mark, a separator or an arithmetic operator. -/
  operand : ∀ (xs : List Token) (t u : Token) (ys : List Token),
    s.tokens.toList = xs ++ t :: u :: ys → u.kind = .newLine →
      t.kind ∉ [.comma, .lParen, .lBrace, .dot, .colon, .plus, .minus, .star, .slash, .backslash,
        .caret, .kwMod]

/-- Line breaks of VB end statements exactly where a statement can end. -/
theorem tokenize_lineBreaks {src : List Char} {s : TokenStream}
    (h : tokenize .visualBasic src = .ok s) : s.LineBreaks src := by
  have hlaid := tokenize_laid h
  have hends : ∀ (xs : List Token) (t u : Token) (ys : List Token),
      s.tokens.toList = xs ++ t :: u :: ys → u.kind = .newLine → continuesLine t.kind = false := by
    intro xs t u ys hs hu
    have hs' : s.tokens.toList = (xs ++ [t]) ++ u :: ys := by simpa using hs
    rw [layout_of_tokenize h, hs'] at hlaid
    obtain ⟨t', hlast, hkind⟩ := hlaid.newLine_follows hu
    rw [List.getLast?_concat, Option.some.injEq] at hlast
    exact hlast ▸ hkind
  constructor
  case placed =>
      intro before after hsrc
      obtain ⟨xs, p, ys, hlayout, hold, honly, hbroken⟩ := hlaid.exists_broken hsrc
      rw [Nat.zero_add] at hold honly
      rw [Option.or_none] at hbroken
      exact ⟨xs, p, ys, hlayout, hold, honly, hbroken⟩
  case first =>
      intro t ts hs hkind
      rw [layout_of_tokenize h, hs, ← List.nil_append (t :: ts)] at hlaid
      obtain ⟨t', hlast, -⟩ := hlaid.newLine_follows hkind
      cases hlast
  case ends => exact hends
  case apart =>
      intro xs t u ys hs hu hkind
      have hgo := hends xs t u ys hs hu
      rw [hkind] at hgo
      cases hgo
  case operand =>
      intro xs t u ys hs hu hkind
      have hgo := hends xs t u ys hs hu
      have hall : ∀ k ∈ [TokenKind.comma, .lParen, .lBrace, .dot, .colon, .plus, .minus, .star,
          .slash, .backslash, .caret, .kwMod], continuesLine k = true := by decide
      rw [hall _ hkind] at hgo
      cases hgo

/-- A text with a comment, brackets over several lines, a continuation mark and empty lines. -/
theorem tokenize_lineBreaks_brackets :
    ∃ s, tokenize .visualBasic "\n(1, ' b\n  2\n) _\n\n\n+ 3\n".toList = .ok s ∧
      s.LineBreaks "\n(1, ' b\n  2\n) _\n\n\n+ 3\n".toList := by
  have hok : (tokenize .visualBasic "\n(1, ' b\n  2\n) _\n\n\n+ 3\n".toList).toBool = true := by
    decide +kernel
  cases h : tokenize .visualBasic "\n(1, ' b\n  2\n) _\n\n\n+ 3\n".toList with
  | error fault =>
      rw [h] at hok
      cases hok
  | ok s => exact ⟨s, rfl, tokenize_lineBreaks h⟩

end DualSyntax
