import DualSyntax.CSharp.Spelling
import DualSyntax.Proofs.Lexing.Names

/-!
# Printed symbols and literals

A symbol is read up to a character that continues none.  A number that is printed with its suffix,
and a text that is printed between quotes with its escapes, are read as the values that they were
printed for.
-/

namespace DualSyntax.Lexing

/-- A text that continues neither a word nor a number. -/
structure Ends (rest : List Char) : Prop where
  word : headIs isNameBody rest = false
  point : pointAndDigit rest = false

theorem headIs_of_imp {p q : Char → Bool} {cs : List Char} (h : ∀ c, p c = true → q c = true)
    (hq : headIs q cs = false) : headIs p cs = false := by
  cases cs with
  | nil => rfl
  | cons c cs =>
      have hc : q c = false := by simpa [headIs] using hq
      have hp : p c ≠ true := fun hp => by simp [h c hp] at hc
      simpa [headIs] using hp

theorem isNameBody_of_isDigitOrMark {c : Char} (h : isDigitOrMark c = true) :
    isNameBody c = true := by
  rcases (Bool.or_eq_true _ _).mp h with hdigit | hmark
  · simp [isNameBody, hdigit]
  · simp [isNameBody, isNameStart, hmark]

theorem isNameBody_of_isAlpha {c : Char} (h : c.isAlpha = true) : isNameBody c = true := by
  simp [isNameBody, isNameStart, h]

theorem takeWhile_append {p : Char → Bool} {cs rest : List Char} (hcs : ∀ c ∈ cs, p c = true)
    (hrest : headIs p rest = false) : (cs ++ rest).takeWhile p = cs := by
  rw [List.takeWhile_append_of_pos hcs]
  cases rest with
  | nil => simp
  | cons c rest =>
      have hc : p c = false := by simpa [headIs] using hrest
      simp [hc]

/-! ## Symbols -/

/-- The characters with which a symbol of the table goes on after its first character. -/
def followers (table : List (String × TokenKind)) (x : Char) : List Char :=
  table.filterMap fun e =>
    match e.1.toList with
    | a :: b :: _ => if a = x then some b else none
    | _ => none

/-- In front of a character with which no symbol goes on, a character is read as if it stood
alone. -/
theorem symbol_alone {table : List (String × TokenKind)} {x c : Char} {cs : List Char}
    (h : c ∉ followers table x) : symbol table (x :: c :: cs) = symbol table [x] := by
  rw [symbol, symbol, ← List.head?_filter, ← List.head?_filter]
  congr 3
  refine List.filter_congr fun e he => ?_
  cases hchars : e.1.toList with
  | nil => rfl
  | cons a more =>
      cases more with
      | nil => rfl
      | cons b more =>
          have hne : a = x → b ≠ c := by
            rintro rfl rfl
            exact h (List.mem_filterMap.mpr ⟨e, he, by simp [hchars]⟩)
          by_cases hax : a = x
          · simp [List.isPrefixOf, hne hax]
          · simp [List.isPrefixOf, hax]

/-! ## Numbers -/

/-- The letters of a number suffix, in front of what follows the number. -/
structure SuffixLetters (letters : List Char) : Prop where
  alpha : ∀ c ∈ letters, c.isAlpha = true
  notExponent : letters.head? ≠ some 'e' ∧ letters.head? ≠ some 'E'

variable {ds letters rest : List Char}

theorem exponentLength_eq_zero (hletters : SuffixLetters letters) (hrest : Ends rest) :
    exponentLength (letters ++ rest) = 0 := by
  cases letters with
  | nil =>
      cases rest with
      | nil => rfl
      | cons c rest =>
          have hc : isNameBody c = false := by simpa [headIs] using hrest.word
          have hmark : ¬ (c = 'e' ∨ c = 'E') := by
            rintro (rfl | rfl) <;> simp [isNameBody, isNameStart] at hc
          rw [List.nil_append, exponentLength, if_neg hmark]
  | cons c letters =>
      have hmark : ¬ (c = 'e' ∨ c = 'E') := by
        simpa [not_or] using hletters.notExponent
      rw [List.cons_append, exponentLength, if_neg hmark]

theorem headIs_isDigitOrMark (hletters : SuffixLetters letters) (hrest : Ends rest) :
    headIs isDigitOrMark (letters ++ rest) = false := by
  cases letters with
  | nil => exact headIs_of_imp (fun c => isNameBody_of_isDigitOrMark) hrest.word
  | cons c letters =>
      have hc := hletters.alpha c List.mem_cons_self
      have hdigit : Reading.isDigit c = false :=
        isDigit_of_isNameStart (by simp [isNameStart, hc])
      have hmark : c ≠ '_' := by
        rintro rfl
        simp at hc
      simp [headIs, isDigitOrMark, hdigit, hmark]

theorem pointAndDigit_letters (hletters : SuffixLetters letters) (hrest : Ends rest) :
    pointAndDigit (letters ++ rest) = false := by
  cases letters with
  | nil => exact hrest.point
  | cons c letters =>
      have hpoint : c ≠ '.' := by
        rintro rfl
        have hc := hletters.alpha '.' List.mem_cons_self
        simp at hc
      unfold pointAndDigit
      split
      · simp_all
      · rfl

theorem decimal_digits {suffix? : String → Option NumberSuffix} {suffix : NumberSuffix}
    (hne : ds ≠ []) (hds : ∀ c ∈ ds, Reading.isDigit c = true) (hletters : SuffixLetters letters)
    (hrest : Ends rest) (hsuffix : suffix? (String.ofList letters) = some suffix)
    (hreal : suffix.isReal = false) (hlt : Reading.ofDigits 10 ds < Nat.pow 2 64) :
    decimal suffix? (ds ++ (letters ++ rest)) =
      .ok (some ⟨.integerLiteral, ds.length + letters.length,
        some (.integer (Reading.ofDigits 10 ds) suffix)⟩) := by
  have hhead : headIs Reading.isDigit (ds ++ (letters ++ rest)) = true := by
    cases ds with
    | nil => exact absurd rfl hne
    | cons d ds => simpa [headIs] using hds d List.mem_cons_self
  have hrun : runLength isDigitOrMark (ds ++ (letters ++ rest)) = ds.length := by
    rw [runLength, takeWhile_append (fun c hc => by simp [isDigitOrMark, hds c hc])
      (headIs_isDigitOrMark hletters hrest)]
  have hpoint := pointAndDigit_letters hletters hrest
  have hmantissa : mantissaLength (ds ++ (letters ++ rest)) = ds.length := by
    rw [mantissaLength, hrun, List.drop_left, fractionLength, hpoint]
    rfl
  have halpha : (letters ++ rest).takeWhile Char.isAlpha = letters :=
    takeWhile_append hletters.alpha (headIs_of_imp (fun c => isNameBody_of_isAlpha) hrest.word)
  have hmarks : withoutMarks ds = ds := by
    rw [withoutMarks, List.filter_eq_self]
    intro c hc
    have hdigit := hds c hc
    have hmark : c ≠ '_' := by
      rintro rfl
      simp [Reading.isDigit] at hdigit
    simpa using hmark
  rw [decimal, if_pos (by rw [hhead, Bool.true_or]), hrun, List.drop_left, hmantissa, hpoint]
  simp only [Bool.false_and, Bool.false_eq_true, if_false, List.drop_left,
    exponentLength_eq_zero hletters hrest, Nat.add_zero, List.take_left, List.drop_zero, halpha,
    hsuffix]
  simp [decimalLexeme, hreal, hmarks, Reading.below?, hne, hlt]

theorem isDigit_eq (c : Char) : Reading.isDigit c = c.isDigit := rfl

theorem ofDigits_toDigits (n : Nat) : Reading.ofDigits 10 (Nat.toDigits 10 n) = n := by
  have hfold (ds : List Char) (hds : ∀ c ∈ ds, c.isDigit = true) (m : Nat) :
      ds.foldl (fun n c => n * 10 + Reading.digitValue c) m = Nat.ofDigitChars 10 ds m := by
    induction ds generalizing m with
    | nil => rfl
    | cons d ds ih =>
        have hd : Reading.digitValue d = d.toNat - '0'.toNat := by
          rw [Reading.digitValue, isDigit_eq, if_pos (hds d List.mem_cons_self)]
        rw [List.foldl_cons, ih (fun c hc => hds c (List.mem_cons_of_mem _ hc)), hd,
          Nat.ofDigitChars_cons, Nat.mul_comm]
  rw [Reading.ofDigits, hfold _ (fun c hc => Nat.isDigit_of_mem_toDigits (by decide) (by decide) hc),
    Nat.ofDigitChars_ten_toDigits]

namespace CSharp

open DualSyntax.CSharp (literalText suffixText escape codeEscape)

theorem suffixLetters {suffix : NumberSuffix} (h : suffix.isReal = false) :
    SuffixLetters (suffixText suffix).toList := by
  cases suffix <;> exact ⟨by simp [suffixText], by simp [suffixText]⟩

theorem not_hexadecimal (hne : ds ≠ []) (hds : ∀ c ∈ ds, Reading.isDigit c = true)
    (hletters : letters.head?.map Char.toLower ≠ some 'x') (hrest : Ends rest) :
    startsIgnoringCase "0x" (ds ++ (letters ++ rest)) = false := by
  have hsecond {c : Char} (hc : c.toLower = 'x') : isNameStart c = true := by
    unfold Char.toLower at hc
    split at hc
    · rename_i hupper
      have hcode : 65 ≤ c.toNat ∧ c.toNat ≤ 90 := hupper
      exact isNameStart_iff.mpr (.inl hcode)
    · rw [hc]
      decide
  rw [Bool.eq_false_iff]
  intro h
  have hstart : ((ds ++ (letters ++ rest)).take 2).map Char.toLower = "0x".toList :=
    beq_iff_eq.mp h
  have hmark : (((ds ++ (letters ++ rest)).take 2).map Char.toLower)[1]? = some 'x' := by
    rw [hstart]
    rfl
  obtain ⟨d, ds, rfl⟩ := List.exists_cons_of_ne_nil hne
  cases ds with
  | cons d' ds =>
      have hx : d'.toLower = 'x' := by simpa using hmark
      have hdigit := hds d' (by simp)
      rw [isDigit_of_isNameStart (hsecond hx)] at hdigit
      cases hdigit
  | nil =>
      cases letters with
      | cons c letters => exact hletters (by simpa using hmark)
      | nil =>
          cases rest with
          | nil => simp at hmark
          | cons c rest =>
              have hx : c.toLower = 'x' := by simpa using hmark
              have hword := hrest.word
              simp [headIs, isNameBody, hsecond hx] at hword

theorem literalText_integer (n : Nat) (suffix : NumberSuffix) :
    (literalText (.integer n suffix)).toList =
      Nat.toDigits 10 n ++ (suffixText suffix).toList := by
  rw [literalText, String.toList_append]
  congr 1
  exact Nat.toList_repr

theorem isDigit_of_mem_toDigits {n : Nat} {c : Char} (h : c ∈ Nat.toDigits 10 n) :
    Reading.isDigit c = true :=
  Nat.isDigit_of_mem_toDigits (by decide) (by decide) h

theorem literalText_integer_head (n : Nat) (suffix : NumberSuffix) : ∃ c cs,
    (literalText (.integer n suffix)).toList = c :: cs ∧ Reading.isDigit c = true := by
  obtain ⟨c, cs, hdigits⟩ := List.exists_cons_of_ne_nil (Nat.toDigits_ne_nil (n := n) (b := 10))
  refine ⟨c, cs ++ (suffixText suffix).toList, ?_, isDigit_of_mem_toDigits (n := n) ?_⟩
  · rw [literalText_integer, hdigits, List.cons_append]
  · rw [hdigits]
    exact List.mem_cons_self

/-- A printed integer is read as its value. -/
theorem token_integer {n : Nat} {suffix : NumberSuffix} (hn : n < Nat.pow 2 64)
    (hsuffix : suffix ∈ [NumberSuffix.none, .uinteger, .long, .ulong]) (hrest : Ends rest) :
    token ((literalText (.integer n suffix)).toList ++ rest) =
      .ok (some ⟨.integerLiteral, (literalText (.integer n suffix)).toList.length,
        some (.integer n suffix)⟩) := by
  obtain ⟨hreal, hread, hx⟩ : suffix.isReal = false ∧
      suffix? (String.ofList (suffixText suffix).toList) = some suffix ∧
        (suffixText suffix).toList.head?.map Char.toLower ≠ some 'x' := by
    simp only [List.mem_cons, List.not_mem_nil, or_false] at hsuffix
    rcases hsuffix with rfl | rfl | rfl | rfl <;> decide +kernel
  have hdigits (c : Char) (hc : c ∈ Nat.toDigits 10 n) : Reading.isDigit c = true :=
    isDigit_of_mem_toDigits hc
  have hdecimal := decimal_digits Nat.toDigits_ne_nil hdigits (suffixLetters hreal) hrest hread
    hreal (by rwa [ofDigits_toDigits])
  rw [ofDigits_toDigits] at hdecimal
  have hplain := not_hexadecimal Nat.toDigits_ne_nil hdigits hx hrest
  rw [literalText_integer, List.append_assoc, List.length_append, token, firstOf, number, hplain]
  simp only [Bool.false_eq_true, if_false, hdecimal]

/-! ## Texts in quotes -/

/-- A control character is printed as its code in four digits, and read from them. -/
theorem codeEscape_eq {c : Char} (h : Text.isControl c = true) :
    let ds := ['0', '0', Text.hexDigit (c.toNat / 16), Text.hexDigit (c.toNat % 16)]
    codeEscape c = '\\' :: 'u' :: ds ∧ codedChar? ds = some c := by
  have hall : ∀ n : Fin 160, Text.isControl (Char.ofNat n) = true →
      let ds := ['0', '0', Text.hexDigit (n / 16), Text.hexDigit (n % 16)]
      codeEscape (Char.ofNat n) = '\\' :: 'u' :: ds ∧ codedChar? ds = some (Char.ofNat n) := by
    decide +kernel
  have hlt : c.toNat < 160 := by
    simp only [Text.isControl, Bool.or_eq_true, Bool.and_eq_true, decide_eq_true_eq] at h
    omega
  have hc := hall ⟨c.toNat, hlt⟩
  simp only [Char.ofNat_toNat] at hc
  exact hc h

/-- A printed character is read as itself, and reading goes on after it. -/
theorem escapedBody_escape {quote : Char} (hquote : quote = '"' ∨ quote = '\x27') (c : Char)
    (o : Nat) (cs : List Char) : ∃ o', escapedBody quote o (escape quote c ++ cs) =
      (escapedBody quote o' cs).map fun (value, n) =>
        (c :: value, n + (escape quote c).length) := by
  unfold escape
  by_cases hslash : c = '\\'
  · subst hslash
    exact ⟨o + 2, rfl⟩
  by_cases hn : c = '\n'
  · subst hn
    exact ⟨o + 2, rfl⟩
  by_cases hr : c = '\r'
  · subst hr
    exact ⟨o + 2, rfl⟩
  by_cases ht : c = '\t'
  · subst ht
    exact ⟨o + 2, rfl⟩
  by_cases hzero : c = '\x00'
  · subst hzero
    exact ⟨o + 2, rfl⟩
  by_cases hq : c = quote
  · subst hq
    refine ⟨o + 2, ?_⟩
    rcases hquote with rfl | rfl <;> rfl
  simp only [hslash, hn, hr, ht, hzero, hq, if_false]
  by_cases hcontrol : Text.isControl c = true
  · obtain ⟨hcode, hread⟩ := codeEscape_eq hcontrol
    refine ⟨o + 6, ?_⟩
    rw [if_pos hcontrol, hcode]
    simp only [List.cons_append, List.nil_append, escapedBody, hread, List.length_cons,
      List.length_nil]
  · refine ⟨o + c.utf8Size, ?_⟩
    rw [if_neg hcontrol, List.cons_append, List.nil_append]
    rw [escapedBody.eq_def]
    split
    all_goals simp_all

/-- A text printed between quotes is read as itself. -/
theorem escapedBody_flatMap {quote : Char} (hquote : quote = '"' ∨ quote = '\x27')
    (cs rest : List Char) (o : Nat) :
    escapedBody quote o (cs.flatMap (escape quote) ++ quote :: rest) =
      .ok (cs, (cs.flatMap (escape quote)).length + 1) := by
  induction cs generalizing o with
  | nil => rcases hquote with rfl | rfl <;> rfl
  | cons c cs ih =>
      obtain ⟨o', hc⟩ := escapedBody_escape hquote c o (cs.flatMap (escape quote) ++ quote :: rest)
      rw [List.flatMap_cons, List.append_assoc, hc, ih, List.length_append]
      simp only [Except.map, Except.ok.injEq, Prod.mk.injEq, true_and]
      omega

theorem token_string (s : String) (rest : List Char) :
    token ((literalText (.string s)).toList ++ rest) =
      .ok (some ⟨.stringLiteral, (literalText (.string s)).toList.length, some (.string s)⟩) := by
  have hbody := escapedBody_flatMap (.inl rfl) s.toList rest 1
  have hstring : string ('"' :: (s.toList.flatMap (escape '"') ++ '"' :: rest)) =
      .ok (some ⟨.stringLiteral, (s.toList.flatMap (escape '"')).length + 1 + 1,
        some (.string s)⟩) := by
    rw [string, hbody]
    simp [bind, Except.bind, pure, Except.pure]
  have htext : (literalText (.string s)).toList ++ rest =
      '"' :: (s.toList.flatMap (escape '"') ++ '"' :: rest) := by
    simp [literalText]
  have hlength : (literalText (.string s)).toList.length =
      (s.toList.flatMap (escape '"')).length + 1 + 1 := by
    simp [literalText]
  have hnumber (cs : List Char) : number ('"' :: cs) = .ok none := rfl
  have hverbatim (cs : List Char) : verbatimString ('"' :: cs) = .ok none := rfl
  rw [htext, hlength, token, firstOf, hnumber]
  simp only [firstOf, hverbatim, hstring]

theorem token_char (c : Char) (rest : List Char) :
    token ((literalText (.char c)).toList ++ rest) =
      .ok (some ⟨.charLiteral, (literalText (.char c)).toList.length, some (.char c)⟩) := by
  have hbody := escapedBody_flatMap (.inr rfl) [c] rest 1
  rw [List.flatMap_singleton] at hbody
  have hcharacter : character ('\x27' :: (escape '\x27' c ++ '\x27' :: rest)) =
      .ok (some ⟨.charLiteral, (escape '\x27' c).length + 1 + 1, some (.char c)⟩) := by
    rw [character, hbody]
    simp [bind, Except.bind, charLexeme]
  have htext : (literalText (.char c)).toList ++ rest =
      '\x27' :: (escape '\x27' c ++ '\x27' :: rest) := by
    simp [literalText]
  have hlength : (literalText (.char c)).toList.length = (escape '\x27' c).length + 1 + 1 := by
    simp [literalText]
  have hnumber (cs : List Char) : number ('\x27' :: cs) = .ok none := rfl
  have hverbatim (cs : List Char) : verbatimString ('\x27' :: cs) = .ok none := rfl
  have hstring (cs : List Char) : string ('\x27' :: cs) = .ok none := rfl
  rw [htext, hlength, token, firstOf, hnumber]
  simp only [firstOf, hverbatim, hstring, hcharacter]

end CSharp

end DualSyntax.Lexing
