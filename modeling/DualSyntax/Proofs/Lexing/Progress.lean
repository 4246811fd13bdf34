import DualSyntax.Lexing.Tokenize

/-!
# Every lexeme makes progress

A scanning rule answers with a lexeme of at least one character, and no lexeme is an end marker.
Both are read off each rule; the two languages collect the rules in `CSharp.token_proper` and
`VisualBasic.token_proper`, and `next_proper` is what the loop over the text needs.
-/

namespace DualSyntax.Lexing

theorem exists_of_map {α β : Type} {x : Except LexFault α} {f : α → β} {b : β}
    (h : x.map f = .ok b) : ∃ a, x = .ok a ∧ f a = b := by
  cases x with
  | error fault => cases h
  | ok a => exact ⟨a, rfl, Except.ok.inj h⟩

/-- A lexeme that takes up some text and does not claim to end it. -/
structure Lexeme.Proper (x : Lexeme) : Prop where
  pos : 0 < x.length
  kind_ne : x.kind ≠ .eof

def Proper (found : Found) : Prop := ∀ x, found = .ok (some x) → x.Proper

/-- The optional answer of a rule that cannot fail is proper. -/
def ProperAnswer (found : Option Lexeme) : Prop := ∀ x, found = some x → x.Proper

theorem Proper.none : Proper (.ok none) := by
  intro x h
  cases h

theorem Proper.error (fault : LexFault) : Proper (.error fault) := by
  intro x h
  cases h

theorem Proper.some {x : Lexeme} (h : x.Proper) : Proper (.ok (some x)) := by
  intro y hy
  cases hy
  exact h

theorem Proper.ofAnswer {found : Option Lexeme} (h : ProperAnswer found) : Proper (.ok found) := by
  intro x hx
  exact h x (by simpa using hx)

theorem ProperAnswer.or {a b : Option Lexeme} (ha : ProperAnswer a) (hb : ProperAnswer b) :
    ProperAnswer (a.or b) := by
  intro x hx
  cases a with
  | none => exact hb x (by simpa using hx)
  | some y => exact ha x (by simpa using hx)

/-- An answer that waits for a body which may fail is proper if it is proper for every body. -/
theorem Proper.bind {α : Type} {body : Except LexFault α} {f : α → Found}
    (h : ∀ a, Proper (f a)) : Proper (body >>= f) := by
  cases body with
  | error fault => exact Proper.error fault
  | ok a => exact h a

theorem firstOf_proper {cs : List Char} {rules : List (List Char → Found)}
    (h : ∀ rule ∈ rules, Proper (rule cs)) : Proper (firstOf cs rules) := by
  induction rules with
  | nil => exact Proper.none
  | cons rule rules ih =>
      have hrule := h rule List.mem_cons_self
      have hrest := ih fun r hr => h r (List.mem_cons_of_mem rule hr)
      unfold firstOf
      split
      · exact hrest
      · exact hrule

/-! ## Lengths -/

theorem runLength_pos {p : Char → Bool} {cs : List Char} (h : headIs p cs = true) :
    0 < runLength p cs := by
  cases cs with
  | nil => simp [headIs] at h
  | cons c cs =>
      have hc : p c = true := by simpa [headIs] using h
      simp [runLength, hc]

theorem take_runLength (p : Char → Bool) (cs : List Char) :
    cs.take (runLength p cs) = cs.takeWhile p :=
  (List.prefix_iff_eq_take.mp (List.takeWhile_prefix p)).symm

theorem drop_runLength (p : Char → Bool) (cs : List Char) :
    cs.drop (runLength p cs) = cs.dropWhile p := by
  have hsplit := (List.take_append_drop (runLength p cs) cs).trans
    (List.takeWhile_append_dropWhile (p := p)).symm
  rw [take_runLength] at hsplit
  exact List.append_cancel_left hsplit

theorem headIs_dropWhile (p : Char → Bool) (cs : List Char) :
    headIs p (cs.dropWhile p) = false := by
  have hhead := List.head?_dropWhile_not p cs
  unfold headIs
  cases hdrop : (cs.dropWhile p).head? with
  | none => rfl
  | some c =>
      rw [hdrop] at hhead
      simpa using hhead

theorem mem_takeWhile {p : Char → Bool} {cs : List Char} : ∀ c ∈ cs.takeWhile p, p c = true :=
  fun c hc => List.all_eq_true.mp List.all_takeWhile c hc

/-- The carriage return that is taken off a line is never its first character. -/
theorem lineLength_pos {c : Char} {cs : List Char} (hn : c ≠ '\n') (hr : c ≠ '\r') :
    0 < lineLength (c :: cs) := by
  have hline : (c :: cs).takeWhile (· != '\n') = c :: cs.takeWhile (· != '\n') := by
    simp [hn]
  unfold lineLength
  rw [hline]
  cases hrest : cs.takeWhile (· != '\n') with
  | nil => simp [hr]
  | cons d ds =>
      dsimp only
      split <;> simp

/-! ## Rules of both languages -/

theorem blanks_proper (isBlank : Char → Bool) (cs : List Char) :
    ProperAnswer (blanks isBlank cs) := by
  intro x hx
  unfold blanks at hx
  split at hx
  · cases hx
    exact ⟨runLength_pos ‹_›, by simp⟩
  · cases hx

/-- A table whose symbols are not empty and none of which is an end marker. -/
def ProperTable (table : List (String × TokenKind)) : Bool :=
  table.all fun e => 0 < e.1.length && e.2 != .eof

theorem symbol_proper {table : List (String × TokenKind)} (ht : ProperTable table = true)
    (cs : List Char) : Proper (symbol table cs) := by
  apply Proper.ofAnswer
  intro x hx
  obtain ⟨e, he, rfl⟩ := Option.map_eq_some_iff.mp hx
  have hmem := List.mem_of_find?_eq_some he
  have hprop := List.all_eq_true.mp ht e hmem
  simp only [Bool.and_eq_true, decide_eq_true_eq, bne_iff_ne] at hprop
  exact ⟨hprop.1, hprop.2⟩

theorem findWord_ne {l : Language} {table : List (String × TokenKind)} {word : String}
    {k k₀ : TokenKind} (ht : table.all (fun e => e.2 != k₀) = true)
    (h : l.findWord table word = some k) : k ≠ k₀ := by
  obtain ⟨e, he, rfl⟩ := Option.map_eq_some_iff.mp h
  have hmem := List.mem_of_find?_eq_some he
  simpa using List.all_eq_true.mp ht e hmem

theorem keyword_ne {l : Language} {word : String} {k k₀ : TokenKind}
    (hr : l.reserved.all (fun e => e.2 != k₀) = true)
    (hc : l.contextual.all (fun e => e.2 != k₀) = true) (h : l.keyword? word = some k) :
    k ≠ k₀ := by
  unfold Language.keyword? at h
  rcases Option.or_eq_some_iff.mp h with h | ⟨-, h⟩
  · exact findWord_ne hr h
  · exact findWord_ne hc h

theorem keyword_ne_eof {l : Language} {word : String} {k : TokenKind}
    (h : l.keyword? word = some k) : k ≠ .eof :=
  keyword_ne (by cases l <;> decide) (by cases l <;> decide) h

theorem word_proper (l : Language) (cs : List Char) : Proper (word l cs) := by
  unfold word
  split
  case isFalse => exact Proper.none
  case isTrue hstart =>
      apply Proper.some
      constructor
      · refine runLength_pos (p := isNameBody) ?_
        cases cs with
        | nil => simp [headIs] at hstart
        | cons c cs =>
            have hc : isNameStart c = true := by simpa [headIs] using hstart
            simp [headIs, isNameBody, hc]
      · cases hk : l.keyword? (String.ofList (cs.takeWhile isNameBody)) with
        | none => simp
        | some k => simpa using keyword_ne_eof hk

theorem decimalLexeme_length (digits : List Char) (hasPoint : Bool) (length : Nat)
    (suffix : Option NumberSuffix) :
    (decimalLexeme digits hasPoint length suffix).length = length := by
  unfold decimalLexeme
  cases suffix with
  | none => rfl
  | some suffix =>
      dsimp only
      split <;> split <;> rfl

theorem decimalLexeme_kind_ne (digits : List Char) (hasPoint : Bool) (length : Nat)
    (suffix : Option NumberSuffix) :
    (decimalLexeme digits hasPoint length suffix).kind ≠ .eof := by
  unfold decimalLexeme
  cases suffix with
  | none => simp
  | some suffix =>
      dsimp only
      split <;> split <;> simp

/-- Either the whole part of a number has a digit or the number begins with its point. -/
theorem mantissaLength_pos {cs : List Char}
    (h : (headIs Reading.isDigit cs || pointAndDigit cs) = true) : 0 < mantissaLength cs := by
  unfold mantissaLength
  rcases Nat.eq_zero_or_pos (runLength isDigitOrMark cs) with hzero | hpos
  · have hpoint : pointAndDigit cs = true := by
      rcases Bool.or_eq_true_iff.mp h with hdigit | hpoint
      · have hrun : 0 < runLength isDigitOrMark cs := by
          apply runLength_pos
          cases cs with
          | nil => exact hdigit
          | cons c cs =>
              have hc : Reading.isDigit c = true := by simpa [headIs] using hdigit
              simp [headIs, isDigitOrMark, hc]
        omega
      · exact hpoint
    simp only [hzero, List.drop_zero, fractionLength, hpoint, if_true]
    omega
  · dsimp only
    omega

theorem decimal_proper (suffix? : String → Option NumberSuffix) (cs : List Char) :
    Proper (decimal suffix? cs) := by
  unfold decimal
  split
  case isFalse => exact Proper.none
  case isTrue hstart =>
      have hlen : 0 < cs.length := by
        cases cs with
        | nil => simp [headIs, pointAndDigit] at hstart
        | cons c cs => simp
      have hmantissa := mantissaLength_pos hstart
      dsimp only
      split
      · exact Proper.error _
      · apply Proper.some
        refine ⟨?_, decimalLexeme_kind_ne _ _ _ _⟩
        rw [decimalLexeme_length, List.length_take]
        omega

theorem hexadecimal_proper {mark : Nat} (hmark : 0 < mark)
    (suffix? : String → Option NumberSuffix) (cs : List Char) :
    (hexadecimal mark suffix? cs).Proper := by
  unfold hexadecimal
  dsimp only
  split
  · exact ⟨by simp only; omega, by simp⟩
  · exact ⟨by simp only; omega, by simp⟩

theorem charLexeme_proper (value : List Char) (c : Char) (text : List Char) :
    Proper (charLexeme value (c :: text)) := by
  unfold charLexeme
  split
  · exact Proper.some ⟨by simp, by simp⟩
  · exact Proper.error _

/-! ## Rules of C# -/

namespace CSharp

theorem lineBreak_proper (cs : List Char) : ProperAnswer (lineBreak cs) := by
  intro x hx
  unfold lineBreak at hx
  split at hx
  · cases hx
    exact ⟨by simp, by simp⟩
  · cases hx
    exact ⟨by simp, by simp⟩
  · cases hx

theorem lineComment_proper (cs : List Char) : ProperAnswer (lineComment cs) := by
  intro x hx
  unfold lineComment at hx
  split at hx
  case isFalse => cases hx
  case isTrue hslashes =>
      cases hx
      obtain ⟨rest, rfl⟩ := List.isPrefixOf_iff_prefix.mp hslashes
      refine ⟨lineLength_pos (by decide) (by decide), ?_⟩
      dsimp only
      split <;> simp

theorem blockComment_proper (cs : List Char) : Proper (blockComment cs) := by
  unfold blockComment
  split
  · apply Proper.bind
    intro n
    exact Proper.some ⟨by simp, by simp⟩
  · exact Proper.none

theorem trivia_proper (cs : List Char) : Proper (trivia cs) := by
  have hplain : ProperAnswer ((lineBreak cs).or ((blanks isBlank cs).or (lineComment cs))) :=
    (lineBreak_proper cs).or ((blanks_proper isBlank cs).or (lineComment_proper cs))
  unfold trivia
  split
  · rename_i found hfound
    exact Proper.some (hplain found hfound)
  · exact blockComment_proper cs

theorem number_proper (cs : List Char) : Proper (number cs) := by
  unfold number
  split
  · exact Proper.some (hexadecimal_proper (by decide) suffix? cs)
  · exact decimal_proper suffix? cs

theorem verbatimString_proper (cs : List Char) : Proper (verbatimString cs) := by
  unfold verbatimString
  split
  · apply Proper.bind
    rintro ⟨value, n⟩
    exact Proper.some ⟨by simp, by simp⟩
  · exact Proper.none

theorem string_proper (cs : List Char) : Proper (string cs) := by
  unfold string
  split
  · apply Proper.bind
    rintro ⟨value, n⟩
    exact Proper.some ⟨by simp, by simp⟩
  · exact Proper.none

theorem character_proper (cs : List Char) : Proper (character cs) := by
  unfold character
  split
  · apply Proper.bind
    rintro ⟨value, n⟩
    exact charLexeme_proper value _ _
  · exact Proper.none

theorem escapedName_proper (cs : List Char) : Proper (escapedName cs) := by
  unfold escapedName
  split
  · split
    · exact Proper.some ⟨by simp only; omega, by simp⟩
    · exact Proper.none
  · exact Proper.none

theorem token_proper (cs : List Char) : Proper (token cs) := by
  apply firstOf_proper
  intro rule hrule
  simp only [List.mem_cons, List.not_mem_nil, or_false] at hrule
  rcases hrule with rfl | rfl | rfl | rfl | rfl | rfl | rfl
  · exact number_proper cs
  · exact verbatimString_proper cs
  · exact string_proper cs
  · exact character_proper cs
  · exact escapedName_proper cs
  · exact word_proper .csharp cs
  · exact symbol_proper (by decide) cs

end CSharp

/-! ## Rules of VB -/

namespace VisualBasic

theorem continuation_proper (before : Option Char) (cs : List Char) :
    ProperAnswer (continuation before cs) := by
  intro x hx
  unfold continuation at hx
  split at hx
  case h_2 => cases hx
  case h_1 cs =>
      dsimp only at hx
      split at hx
      case h_2 => cases hx
      case h_1 =>
          split at hx
          case isFalse => cases hx
          case isTrue =>
              split at hx
              · cases hx
                exact ⟨by simp only; omega, by simp⟩
              · cases hx
                exact ⟨by simp only; omega, by simp⟩
              · cases hx

/-- A word that is looked for begins with its own first letter, in one case or the other. -/
theorem startsIgnoringCase_head {word : String} {w : Char} {ws cs : List Char}
    (hw : word.toList = w :: ws) (h : startsIgnoringCase word cs = true) :
    ∃ c rest, cs = c :: rest ∧ c.toLower = w := by
  unfold startsIgnoringCase at h
  rw [hw, beq_iff_eq] at h
  cases cs with
  | nil => simp at h
  | cons c rest =>
      cases hlen : word.length with
      | zero => simp [hlen] at h
      | succ n =>
          rw [hlen, List.take_succ_cons, List.map_cons, List.cons.injEq] at h
          exact ⟨c, rest, rfl, h.1⟩

theorem comment_proper (cs : List Char) : ProperAnswer (comment cs) := by
  intro x hx
  unfold comment at hx
  split at hx
  case isTrue hquote =>
      cases hx
      obtain ⟨rest, rfl⟩ := List.isPrefixOf_iff_prefix.mp hquote
      refine ⟨lineLength_pos (by decide) (by decide), ?_⟩
      dsimp only
      split <;> simp
  case isFalse =>
      split at hx
      case isFalse => cases hx
      case isTrue hrem =>
          cases hx
          simp only [Bool.and_eq_true] at hrem
          have hword : "rem".toList = 'r' :: ['e', 'm'] := rfl
          obtain ⟨c, rest, rfl, hc⟩ := startsIgnoringCase_head hword hrem.1
          refine ⟨lineLength_pos ?_ ?_, by simp⟩
          · rintro rfl
            exact absurd hc (by decide)
          · rintro rfl
            exact absurd hc (by decide)

theorem innerLineBreak_proper (last : Option TokenKind) (cs : List Char) :
    ProperAnswer (innerLineBreak last cs) := by
  intro x hx
  unfold innerLineBreak at hx
  split at hx
  · cases hx
    exact ⟨by simp, by simp⟩
  · cases hx

theorem trivia_proper (before : Option Char) (last : Option TokenKind) (cs : List Char) :
    ProperAnswer (trivia before last cs) :=
  (blanks_proper isBlank cs).or <| (continuation_proper before cs).or <|
    (comment_proper cs).or (innerLineBreak_proper last cs)

theorem lineBreak_proper (cs : List Char) : Proper (lineBreak cs) := by
  unfold lineBreak
  split
  · exact Proper.some ⟨by simp, by simp⟩
  · exact Proper.none

theorem number_proper (cs : List Char) : Proper (number cs) := by
  unfold number
  split
  · exact Proper.some (hexadecimal_proper (by decide) suffix? cs)
  · exact decimal_proper suffix? cs

theorem string_proper (cs : List Char) : Proper (string cs) := by
  unfold string
  split
  · apply Proper.bind
    rintro ⟨value, n⟩
    dsimp only
    split
    · exact charLexeme_proper value _ _
    · exact Proper.some ⟨by simp, by simp⟩
  · exact Proper.none

theorem escapedName_proper (cs : List Char) : Proper (escapedName cs) := by
  unfold escapedName
  split
  · split
    · apply Proper.some
      split
      · exact ⟨by simp, by simp⟩
      · exact ⟨by simp, by simp⟩
    · exact Proper.none
  · exact Proper.none

theorem token_proper (cs : List Char) : Proper (token cs) := by
  apply firstOf_proper
  intro rule hrule
  simp only [List.mem_cons, List.not_mem_nil, or_false] at hrule
  rcases hrule with rfl | rfl | rfl | rfl | rfl | rfl
  · exact lineBreak_proper cs
  · exact number_proper cs
  · exact string_proper cs
  · exact escapedName_proper cs
  · exact word_proper .visualBasic cs
  · exact symbol_proper (by decide) cs

end VisualBasic

/-! ## Both languages -/

theorem getD_unknown_proper {found : Option Lexeme} (h : ProperAnswer found) :
    (found.getD unknown).Proper := by
  cases found with
  | none => exact ⟨by decide, by decide⟩
  | some x => exact h x rfl

theorem triviaAt_proper (l : Language) (cx : Context) (cs : List Char) :
    Proper (triviaAt l cx cs) := by
  cases l with
  | csharp => exact CSharp.trivia_proper cs
  | visualBasic => exact Proper.ofAnswer (VisualBasic.trivia_proper cx.before cx.last cs)

theorem tokenAt_proper (l : Language) (cs : List Char) : Proper (tokenAt l cs) := by
  cases l with
  | csharp => exact CSharp.token_proper cs
  | visualBasic => exact VisualBasic.token_proper cs

/-- The lexeme at the head of a text is proper, whatever stands in front of it. -/
theorem next_proper {l : Language} {cx : Context} {cs : List Char} {isTrivia : Bool} {x : Lexeme}
    (h : next l cx cs = .ok (isTrivia, x)) : x.Proper := by
  unfold next at h
  cases hblank : triviaAt l cx cs with
  | error fault => simp [hblank, bind, Except.bind] at h
  | ok blank =>
      cases blank with
      | some found =>
          simp only [hblank, bind, Except.bind, pure, Except.pure, Except.ok.injEq,
            Prod.mk.injEq] at h
          exact h.2 ▸ triviaAt_proper l cx cs found hblank
      | none =>
          cases hfound : tokenAt l cs with
          | error fault => simp [hblank, hfound, bind, Except.bind] at h
          | ok found =>
              simp only [hblank, hfound, bind, Except.bind, pure, Except.pure, Except.ok.injEq,
                Prod.mk.injEq] at h
              refine h.2 ▸ getD_unknown_proper fun y hy => tokenAt_proper l cs y ?_
              rw [hfound, hy]

end DualSyntax.Lexing
