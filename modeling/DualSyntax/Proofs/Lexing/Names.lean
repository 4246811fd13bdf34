import DualSyntax.Proofs.Lexing.Progress

/-!
# Words and escaped names

How a word at the head of a text is read, bare or escaped.  A bare word is a keyword or a name; in
VB the word `Rem` begins a comment, and an underscore between blanks may end a line, so neither is
always read as a name.  An escaped word is a name whatever it is.
-/

namespace DualSyntax.Lexing

/-- A character that begins a name, followed by characters that continue it. -/
def IsWord (w : List Char) : Prop :=
  headIs isNameStart w = true ∧ ∀ c ∈ w, isNameBody c = true

instance (w : List Char) : Decidable (IsWord w) :=
  decidable_of_iff ((headIs isNameStart w && w.all isNameBody) = true) (by simp [IsWord])

def wordLexeme (l : Language) (w : List Char) : Lexeme :=
  let kind := (l.keyword? (String.ofList w)).getD .identifier
  ⟨kind, w.length, booleanValue? kind⟩

theorem IsWord.ne_nil {w : List Char} (h : IsWord w) : w ≠ [] := by
  rintro rfl
  simp [IsWord, headIs] at h

theorem wordLexeme_kind {l : Language} {w : List Char}
    (h : l.isReserved (String.ofList w) = false) : (wordLexeme l w).kind =
      (l.findWord l.contextual (String.ofList w)).getD .identifier := by
  rw [Language.isReserved, Option.isSome_eq_false_iff, Option.isNone_iff_eq_none] at h
  rw [wordLexeme, Language.keyword?, h, Option.none_or]

/-- No other character looks like the first one of a name. -/
theorem ne_of_isNameStart {c x : Char} (hc : isNameStart c = true)
    (hx : isNameStart x = false) : c ≠ x := by
  rintro rfl
  simp [hc] at hx

/-- The characters that begin a name, by their codes. -/
theorem isNameStart_iff {c : Char} : isNameStart c = true ↔
    (65 ≤ c.toNat ∧ c.toNat ≤ 90) ∨ (97 ≤ c.toNat ∧ c.toNat ≤ 122) ∨ c.toNat = 95 ∨
      128 ≤ c.toNat := by
  have hmark : c = '_' ↔ c.toNat = 95 := Char.toNat_inj.symm
  have halpha : c.isAlpha = (decide (65 ≤ c.val ∧ c.val ≤ 90) ||
      (decide (97 ≤ c.val) && decide (c.val ≤ 122))) := rfl
  simp only [isNameStart, halpha, Bool.or_eq_true, Bool.and_eq_true, beq_iff_eq,
    decide_eq_true_eq, UInt32.le_iff_toNat_le, hmark]
  change (((65 ≤ c.toNat ∧ c.toNat ≤ 90) ∨ (97 ≤ c.toNat ∧ c.toNat ≤ 122)) ∨ c.toNat = 95) ∨
    128 ≤ c.toNat ↔ _
  omega

theorem isDigit_of_isNameStart {c : Char} (hc : isNameStart c = true) :
    Reading.isDigit c = false := by
  rw [isNameStart_iff] at hc
  have hdigit : ¬ (48 ≤ c.toNat ∧ c.toNat ≤ 57) := by omega
  simpa [Reading.isDigit, Char.le_def, UInt32.le_iff_toNat_le] using hdigit

theorem toLower_isNameStart {c : Char} (hc : isNameStart c = true) :
    isNameStart c.toLower = true := by
  unfold Char.toLower
  split
  · rename_i h
    have hupper : 65 ≤ c.toNat ∧ c.toNat ≤ 90 := h
    rw [isNameStart_iff]
    have hcode : (c.val + ('a'.val - 'A'.val)).toNat = c.toNat + 32 := by
      rw [UInt32.toNat_add]
      change (c.toNat + 32) % 2 ^ 32 = c.toNat + 32
      omega
    change _ ∨ (97 ≤ (c.val + ('a'.val - 'A'.val)).toNat ∧
      (c.val + ('a'.val - 'A'.val)).toNat ≤ 122) ∨ _ ∨ _
    omega
  · exact hc

theorem startsIgnoringCase_of_isNameStart {word : String} {x c : Char} {xs cs : List Char}
    (hc : isNameStart c = true) (hword : word.toList = x :: xs)
    (hx : isNameStart x = false) : startsIgnoringCase word (c :: cs) = false := by
  rw [Bool.eq_false_iff]
  intro h
  obtain ⟨d, rest, hcons, rfl⟩ := VisualBasic.startsIgnoringCase_head hword h
  cases hcons
  rw [toLower_isNameStart hc] at hx
  cases hx

theorem decimal_of_isNameStart {suffix? : String → Option NumberSuffix} {c : Char}
    (hc : isNameStart c = true) (cs : List Char) : decimal suffix? (c :: cs) = .ok none := by
  have hpoint : pointAndDigit (c :: cs) = false := by
    unfold pointAndDigit
    split
    · simp_all [isNameStart]
    · rfl
  rw [decimal, if_neg]
  simp [headIs, isDigit_of_isNameStart hc, hpoint]

theorem takeWhile_word {w rest : List Char} (hw : ∀ c ∈ w, isNameBody c = true)
    (hrest : headIs isNameBody rest = false) : (w ++ rest).takeWhile isNameBody = w := by
  rw [List.takeWhile_append_of_pos hw]
  cases rest with
  | nil => simp
  | cons c cs =>
      have hc : isNameBody c = false := by simpa [headIs] using hrest
      simp [hc]

theorem word_eq {l : Language} {w rest : List Char} (hw : IsWord w)
    (hrest : headIs isNameBody rest = false) :
    word l (w ++ rest) = .ok (some (wordLexeme l w)) := by
  have hhead : headIs isNameStart (w ++ rest) = true := by
    cases w with
    | nil => exact absurd rfl hw.ne_nil
    | cons c cs => simpa [headIs] using hw.1
  rw [word, if_pos hhead, takeWhile_word hw.2 hrest]
  rfl

namespace CSharp

variable {c : Char} (hc : isNameStart c = true) (cs : List Char)
include hc

theorem trivia_of_isNameStart : trivia (c :: cs) = .ok none := by
  have hn : c ≠ '\n' := ne_of_isNameStart hc rfl
  have hr : c ≠ '\r' := ne_of_isNameStart hc rfl
  have hslash : c ≠ '/' := ne_of_isNameStart hc rfl
  have hblank : isBlank c = false := by
    simp [isBlank, hr, ne_of_isNameStart hc (x := ' ') rfl, ne_of_isNameStart hc (x := '\t') rfl,
      ne_of_isNameStart hc (x := '\x0c') rfl]
  have hbreak : lineBreak (c :: cs) = none := by
    unfold lineBreak
    split <;> simp_all
  have hcomment : blockComment (c :: cs) = .ok none := by
    unfold blockComment
    split <;> simp_all
  simp [trivia, hbreak, blanks, headIs, hblank, lineComment, List.isPrefixOf, hslash.symm, hcomment]

theorem number_of_isNameStart : number (c :: cs) = .ok none := by
  have hmark : startsIgnoringCase "0x" (c :: cs) = false :=
    startsIgnoringCase_of_isNameStart hc rfl rfl
  rw [number, if_neg (by simp [hmark]), decimal_of_isNameStart hc]

theorem token_of_isNameStart : token (c :: cs) = word .csharp (c :: cs) := by
  have hat : c ≠ '@' := ne_of_isNameStart hc rfl
  have hquote : c ≠ '"' := ne_of_isNameStart hc rfl
  have hapostrophe : c ≠ '\x27' := ne_of_isNameStart hc rfl
  have hverbatim : verbatimString (c :: cs) = .ok none := by
    unfold verbatimString
    split <;> simp_all
  have hstring : string (c :: cs) = .ok none := by
    unfold string
    split <;> simp_all
  have hcharacter : character (c :: cs) = .ok none := by
    unfold character
    split <;> simp_all
  have hescaped : escapedName (c :: cs) = .ok none := by
    unfold escapedName
    split <;> simp_all
  have hword : ∃ found, word .csharp (c :: cs) = .ok (some found) := by
    rw [word, if_pos (by simpa [headIs] using hc)]
    exact ⟨_, rfl⟩
  obtain ⟨found, hfound⟩ := hword
  simp [token, firstOf, number_of_isNameStart hc, hverbatim, hstring, hcharacter, hescaped, hfound]

end CSharp

namespace VisualBasic

theorem trivia_of_isNameStart {c : Char} (hc : isNameStart c = true) (cs : List Char)
    (before : Option Char) (last : Option TokenKind) :
    trivia before last (c :: cs) = (continuation before (c :: cs)).or (comment (c :: cs)) := by
  have hn : c ≠ '\n' := ne_of_isNameStart hc rfl
  have hblank : isBlank c = false := by
    simp [isBlank, ne_of_isNameStart hc (x := ' ') rfl, ne_of_isNameStart hc (x := '\t') rfl,
      ne_of_isNameStart hc (x := '\r') rfl]
  simp [trivia, blanks, headIs, hblank, innerLineBreak, hn]

theorem token_of_isNameStart {c : Char} (hc : isNameStart c = true) (cs : List Char) :
    token (c :: cs) = word .visualBasic (c :: cs) := by
  have hn : c ≠ '\n' := ne_of_isNameStart hc rfl
  have hquote : c ≠ '"' := ne_of_isNameStart hc rfl
  have hbracket : c ≠ '[' := ne_of_isNameStart hc rfl
  have hmark : startsIgnoringCase "&h" (c :: cs) = false :=
    startsIgnoringCase_of_isNameStart hc rfl rfl
  have hnumber : number (c :: cs) = .ok none := by
    rw [number, if_neg (by simp [hmark]), decimal_of_isNameStart hc]
  have hstring : string (c :: cs) = .ok none := by
    unfold string
    split <;> simp_all
  have hescaped : escapedName (c :: cs) = .ok none := by
    unfold escapedName
    split <;> simp_all
  have hword : ∃ found, word .visualBasic (c :: cs) = .ok (some found) := by
    rw [word, if_pos (by simpa [headIs] using hc)]
    exact ⟨_, rfl⟩
  obtain ⟨found, hfound⟩ := hword
  simp [token, firstOf, lineBreak, headIs, hn, hnumber, hstring, hescaped, hfound]

/-- The letters of `Rem` continue names, in either case. -/
theorem isNameBody_of_toLower_mem {c : Char} (h : c.toLower ∈ "rem".toList) :
    isNameBody c = true := by
  unfold Char.toLower at h
  split at h
  · rename_i hupper
    have hcode : 65 ≤ c.toNat ∧ c.toNat ≤ 90 := hupper
    have hstart : isNameStart c = true := isNameStart_iff.mpr (.inl hcode)
    simp [isNameBody, hstart]
  · have hletters : "rem".toList = ['r', 'e', 'm'] := rfl
    simp only [hletters, List.mem_cons, List.not_mem_nil, or_false] at h
    rcases h with rfl | rfl | rfl <;> decide

/-- The rule for comments sees the word `Rem` exactly if the word at the head of the text is
`Rem`. -/
theorem startsIgnoringCase_rem {w rest : List Char} (hw : ∀ c ∈ w, isNameBody c = true)
    (hrest : headIs isNameBody rest = false) :
    (startsIgnoringCase "rem" (w ++ rest) && !headIs isNameBody ((w ++ rest).drop 3)) = true ↔
      w.map Char.toLower = "rem".toList := by
  have hstarts : startsIgnoringCase "rem" (w ++ rest) = true ↔
      ((w ++ rest).take 3).map Char.toLower = "rem".toList := beq_iff_eq
  rw [Bool.and_eq_true, hstarts, Bool.not_eq_true']
  constructor
  · rintro ⟨htake, hdrop⟩
    -- a shorter word would go on with a letter of `Rem` from the rest of the text
    have hlong : 3 ≤ w.length := by
      rcases Nat.lt_or_ge w.length 3 with hlt | hge
      · exfalso
        obtain ⟨k, hk⟩ : ∃ k, 3 - w.length = k + 1 := ⟨2 - w.length, by omega⟩
        cases rest with
        | nil =>
            have hlength := congrArg List.length htake
            simp at hlength
            omega
        | cons c cs =>
            have hmem : c.toLower ∈ "rem".toList := by
              rw [← htake, List.take_append, hk, List.take_succ_cons]
              simp
            have hc := isNameBody_of_toLower_mem hmem
            simp [headIs, hc] at hrest
      · exact hge
    rw [List.take_append_of_le_length hlong] at htake
    rw [List.drop_append_of_le_length hlong] at hdrop
    have hnil : w.drop 3 = [] := by
      cases htail : w.drop 3 with
      | nil => rfl
      | cons c cs =>
          have hc := hw c (List.mem_of_mem_drop (htail ▸ List.mem_cons_self))
          simp [htail, headIs, hc] at hdrop
    rwa [← List.take_append_drop 3 w, hnil, List.append_nil]
  · intro h
    have hlength : w.length = 3 := by simpa using congrArg List.length h
    rw [List.take_append_of_le_length (by omega), List.drop_append_of_le_length (by omega),
      List.take_of_length_le (by omega), List.drop_of_length_le (by omega)]
    exact ⟨h, hrest⟩

/-- A word is read as a comment exactly if it is `Rem` in any case. -/
theorem comment_word {w rest : List Char} (hw : IsWord w) (hrest : headIs isNameBody rest = false) :
    comment (w ++ rest) = if w.map Char.toLower = "rem".toList
      then some ⟨.lineComment, lineLength (w ++ rest), none⟩ else none := by
  have hrem := startsIgnoringCase_rem hw.2 hrest
  have hquote : "'".toList.isPrefixOf (w ++ rest) = false := by
    obtain ⟨c, cs, rfl⟩ := List.exists_cons_of_ne_nil hw.ne_nil
    have hc : isNameStart c = true := by simpa [headIs] using hw.1
    simp [List.isPrefixOf, (ne_of_isNameStart hc (x := '\x27') rfl).symm]
  rw [comment, if_neg (by rw [hquote]; simp)]
  simp only [hrem]

end VisualBasic

/-! ## The first lexeme of a text -/

/-- In C# a bare word is always read as a keyword or a name. -/
theorem next_word_csharp {cx : Context} {w rest : List Char} (hw : IsWord w)
    (hrest : headIs isNameBody rest = false) :
    next .csharp cx (w ++ rest) = .ok (false, wordLexeme .csharp w) := by
  have hword := word_eq (l := .csharp) hw hrest
  obtain ⟨c, cs, rfl⟩ := List.exists_cons_of_ne_nil hw.ne_nil
  have hc : isNameStart c = true := by simpa [headIs] using hw.1
  rw [List.cons_append] at hword ⊢
  simp only [next, triviaAt, tokenAt, CSharp.trivia_of_isNameStart hc,
    CSharp.token_of_isNameStart hc, hword]
  rfl

/-- In VB a bare word is read as a keyword or a name unless it is an underscore that ends a line or
the word `Rem`. -/
theorem next_word_visualBasic {cx : Context} {w rest : List Char} (hw : IsWord w)
    (hrest : headIs isNameBody rest = false) :
    next .visualBasic cx (w ++ rest) =
      .ok (match VisualBasic.continuation cx.before (w ++ rest) with
        | some mark => (true, mark)
        | none =>
          if w.map Char.toLower = "rem".toList
          then (true, ⟨.lineComment, lineLength (w ++ rest), none⟩)
          else (false, wordLexeme .visualBasic w)) := by
  have hword := word_eq (l := .visualBasic) hw hrest
  have hcomment := VisualBasic.comment_word hw hrest
  obtain ⟨c, cs, rfl⟩ := List.exists_cons_of_ne_nil hw.ne_nil
  have hc : isNameStart c = true := by simpa [headIs] using hw.1
  rw [List.cons_append] at hword hcomment ⊢
  have htrivia := VisualBasic.trivia_of_isNameStart hc (cs ++ rest) cx.before cx.last
  simp only [next, triviaAt, tokenAt, htrivia, hcomment, VisualBasic.token_of_isNameStart hc, hword]
  cases VisualBasic.continuation cx.before (c :: (cs ++ rest)) with
  | some mark => rfl
  | none =>
      simp only [Option.none_or]
      split <;> rfl

theorem runLength_word {w rest : List Char} (hw : ∀ c ∈ w, isNameBody c = true)
    (hrest : headIs isNameBody rest = false) : runLength isNameBody (w ++ rest) = w.length := by
  rw [runLength, takeWhile_word hw hrest]

theorem next_escaped_csharp {cx : Context} {w rest : List Char} (hw : IsWord w)
    (hrest : headIs isNameBody rest = false) :
    next .csharp cx ('@' :: (w ++ rest)) = .ok (false, ⟨.identifier, 1 + w.length, none⟩) := by
  have hlength := runLength_word hw.2 hrest
  obtain ⟨c, cs, rfl⟩ := List.exists_cons_of_ne_nil hw.ne_nil
  have hc : isNameStart c = true := by simpa [headIs] using hw.1
  have hquote : c ≠ '"' := ne_of_isNameStart hc rfl
  rw [List.cons_append] at hlength ⊢
  have htrivia : CSharp.trivia ('@' :: c :: (cs ++ rest)) = .ok none := rfl
  have hnumber : CSharp.number ('@' :: c :: (cs ++ rest)) = .ok none := rfl
  have hverbatim : CSharp.verbatimString ('@' :: c :: (cs ++ rest)) = .ok none := by
    unfold CSharp.verbatimString
    split <;> simp_all
  have hstring : CSharp.string ('@' :: c :: (cs ++ rest)) = .ok none := rfl
  have hcharacter : CSharp.character ('@' :: c :: (cs ++ rest)) = .ok none := rfl
  have hescaped : CSharp.escapedName ('@' :: c :: (cs ++ rest)) =
      .ok (some ⟨.identifier, 1 + (c :: cs).length, none⟩) := by
    simp only [CSharp.escapedName, headIs, List.head?_cons, Option.any_some, hc, if_true, hlength]
  simp only [next, triviaAt, tokenAt, htrivia, CSharp.token, firstOf, hnumber, hverbatim, hstring,
    hcharacter, hescaped]
  rfl

/-- In VB a word in brackets is a name. -/
theorem next_escaped_visualBasic {cx : Context} {w rest : List Char} (hw : IsWord w) :
    next .visualBasic cx ('[' :: (w ++ ']' :: rest)) =
      .ok (false, ⟨.identifier, w.length + 2, none⟩) := by
  have hlength := runLength_word hw.2 (show headIs isNameBody (']' :: rest) = false from rfl)
  have hclose : (w ++ ']' :: rest).drop w.length = ']' :: rest := List.drop_left
  obtain ⟨c, cs, rfl⟩ := List.exists_cons_of_ne_nil hw.ne_nil
  have hc : isNameStart c = true := by simpa [headIs] using hw.1
  rw [List.cons_append] at hlength hclose ⊢
  have htrivia : VisualBasic.trivia cx.before cx.last ('[' :: c :: (cs ++ ']' :: rest)) = none := rfl
  have hbreak : VisualBasic.lineBreak ('[' :: c :: (cs ++ ']' :: rest)) = .ok none := rfl
  have hnumber : VisualBasic.number ('[' :: c :: (cs ++ ']' :: rest)) = .ok none := rfl
  have hstring : VisualBasic.string ('[' :: c :: (cs ++ ']' :: rest)) = .ok none := rfl
  have hescaped : VisualBasic.escapedName ('[' :: c :: (cs ++ ']' :: rest)) =
      .ok (some ⟨.identifier, (c :: cs).length + 2, none⟩) := by
    simp only [VisualBasic.escapedName, headIs, List.head?_cons, Option.any_some, hc, if_true,
      hlength, hclose]
    rfl
  simp only [next, triviaAt, tokenAt, htrivia, VisualBasic.token, firstOf, hbreak, hnumber,
    hstring, hescaped]
  rfl

/-! ## Tokens -/

/-- At the end of the text there is nothing but the end marker. -/
theorem tokensFrom_nil (l : Language) (fuel : Nat) (cx : Context) :
    tokensFrom l fuel cx [] =
      .ok [⟨.eof, .emptyAt cx.offset, "", none, cx.pending.reverse⟩] := by
  cases fuel <;> rfl

theorem tokensFrom_token {l : Language} {fuel : Nat} {cx : Context} {text rest : List Char}
    {found : Lexeme} (hne : text ≠ []) (hnext : next l cx (text ++ rest) = .ok (false, found))
    (hlength : found.length = text.length) :
    tokensFrom l (fuel + 1) cx (text ++ rest) =
      (tokensFrom l fuel { cx.pass text with last := some found.kind, pending := [] } rest).map
        ({ kind := found.kind, span := ⟨cx.offset, (cx.pass text).offset⟩,
           text := String.ofList text, value := found.value,
           leading := cx.pending.reverse } :: ·) := by
  obtain ⟨c, cs, rfl⟩ := List.exists_cons_of_ne_nil hne
  rw [List.cons_append] at hnext ⊢
  rw [tokensFrom, hnext]
  simp only [Bool.false_eq_true, if_false, hlength]
  rw [← List.cons_append, List.take_left, List.drop_left]

/-- Trivia at the head of a text, left to the first token of the rest. -/
theorem tokensFrom_trivia {l : Language} {fuel : Nat} {cx : Context} {text rest : List Char}
    {found : Lexeme} (hne : text ≠ []) (hnext : next l cx (text ++ rest) = .ok (true, found))
    (hlength : found.length = text.length) :
    tokensFrom l (fuel + 1) cx (text ++ rest) =
      tokensFrom l fuel { cx.pass text with
        pending := ⟨found.kind, ⟨cx.offset, (cx.pass text).offset⟩, String.ofList text⟩ ::
          cx.pending } rest := by
  obtain ⟨c, cs, rfl⟩ := List.exists_cons_of_ne_nil hne
  rw [List.cons_append] at hnext ⊢
  rw [tokensFrom, hnext]
  simp only [if_true, hlength]
  rw [← List.cons_append, List.take_left, List.drop_left]

end DualSyntax.Lexing

namespace DualSyntax

def TokenStream.single (text : List Char) (kind : TokenKind) (value : Option LiteralValue) :
    TokenStream :=
  .ofTokens [⟨kind, ⟨0, Text.byteLength text⟩, String.ofList text, value, []⟩,
    ⟨.eof, .emptyAt (Text.byteLength text), "", none, []⟩]

open Lexing

-- a text that is not empty leaves a step for its first lexeme
theorem tokenize_of_ne_nil (l : Language) {x : List Char} (hx : x ≠ []) :
    ∃ n, tokenize l x = (tokensFrom l (n + 1) {} (x ++ [])).map .ofTokens := by
  obtain ⟨n, hn⟩ : ∃ n, x.length = n + 1 := Nat.exists_eq_succ_of_ne_zero (by simpa using hx)
  refine ⟨n, ?_⟩
  rw [tokenize, hn, List.append_nil]

theorem tokenize_lexeme {l : Language} {x : List Char} {found : Lexeme} (hx : x ≠ [])
    (hnext : next l {} x = .ok (false, found)) (hlength : found.length = x.length) :
    tokenize l x = .ok (.single x found.kind found.value) := by
  obtain ⟨n, hn⟩ := tokenize_of_ne_nil l hx
  rw [← List.append_nil x] at hnext
  rw [hn, tokensFrom_token hx hnext hlength, tokensFrom_nil]
  simp [TokenStream.single, Context.pass, Except.map]

end DualSyntax
