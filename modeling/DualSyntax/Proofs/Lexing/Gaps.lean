import DualSyntax.Proofs.Lexing.Progress

/-!
# A token of C# stands on its own

What a C# token is follows from its own text, whatever blanks, comments or tokens come after it in
the source.  For each scanning rule two facts are proved: a rule that finds a lexeme finds it again
when the rest of the text is replaced by a gap (`Firm`), and a rule that finds nothing finds nothing
in a beginning of the text before a gap (`Quiet`).  Hence the token at the head of a text is found
again in its own text before any gap (`next_firm`).
-/

namespace DualSyntax.Lexing

/-- What may stand behind a token: nothing, or a text that begins with a space. -/
def Gap (rest : List Char) : Prop := ∀ c, rest.head? = some c → c = ' '

variable {cs rest : List Char} {n : Nat} {p : Char → Bool}

theorem Gap.nil : Gap [] := by
  intro c hc
  cases hc

theorem Gap.space (rest : List Char) : Gap (' ' :: rest) := by
  intro c hc
  exact (Option.some.inj hc).symm

theorem Gap.eq_space {c : Char} (h : Gap (c :: rest)) : c = ' ' := h c rfl

theorem Gap.headIs (h : Gap rest) (hp : p ' ' = false) : headIs p rest = false := by
  cases rest with
  | nil => rfl
  | cons c rest =>
      rw [h.eq_space]
      simpa [Lexing.headIs] using hp

/-- A rule that finds a lexeme finds it also where a gap follows it. -/
def Firm (rule : List Char → Found) : Prop :=
  ∀ ⦃cs : List Char⦄ ⦃x : Lexeme⦄, rule cs = .ok (some x) →
    x.length ≤ cs.length ∧ ∀ ⦃rest⦄, Gap rest → rule (cs.take x.length ++ rest) = .ok (some x)

/-- A rule that finds nothing finds nothing in a beginning of the text before a gap. -/
def Quiet (rule : List Char → Found) : Prop :=
  ∀ ⦃c : Char⦄ ⦃w tail rest : List Char⦄, rule (c :: (w ++ tail)) = .ok none → Gap rest →
    rule (c :: (w ++ rest)) = .ok none

/-! ## Runs of characters -/

theorem takeWhile_take_append (hn : runLength p cs ≤ n) (hrest : headIs p rest = false) :
    (cs.take n ++ rest).takeWhile p = cs.takeWhile p := by
  have hnone : rest.takeWhile p = [] := by
    cases rest with
    | nil => rfl
    | cons c rest =>
        have hc : p c = false := by simpa [headIs] using hrest
        simp [hc]
  induction cs generalizing n with
  | nil => simpa using hnone
  | cons c cs ih =>
      by_cases hc : p c = true
      · obtain ⟨n, rfl⟩ : ∃ k, n = k + 1 := ⟨n - 1, by simp [runLength, hc] at hn; omega⟩
        have hrun : runLength p cs ≤ n := by simpa [runLength, hc] using hn
        simp [hc, ih hrun]
      · cases n with
        | zero => simpa [hc] using hnone
        | succ n => simp [hc]

theorem runLength_take_append (hn : runLength p cs ≤ n) (hrest : headIs p rest = false) :
    runLength p (cs.take n ++ rest) = runLength p cs := by
  rw [runLength, takeWhile_take_append hn hrest, runLength]

theorem runLength_le (p : Char → Bool) (cs : List Char) : runLength p cs ≤ cs.length :=
  (List.takeWhile_sublist p).length_le

theorem drop_take_append {k : Nat} (hk : k ≤ n) (hcs : k ≤ cs.length) :
    (cs.take n ++ rest).drop k = (cs.drop k).take (n - k) ++ rest := by
  rw [List.drop_append_of_le_length (by rw [List.length_take]; omega), List.drop_take]

/-! ## Numbers -/

section Numbers

theorem fractionLength_le (cs : List Char) : fractionLength cs ≤ cs.length := by
  unfold fractionLength
  split
  · rename_i hpoint
    have hlength : 0 < cs.length := by
      cases cs with
      | nil => cases hpoint
      | cons c cs => simp
    have hrun := runLength_le isDigitOrMark (cs.drop 1)
    rw [List.length_drop] at hrun
    omega
  · exact Nat.zero_le _

theorem mantissaLength_le (cs : List Char) : mantissaLength cs ≤ cs.length := by
  have hwhole := runLength_le isDigitOrMark cs
  have hfraction := fractionLength_le (cs.drop (runLength isDigitOrMark cs))
  rw [List.length_drop] at hfraction
  unfold mantissaLength
  dsimp only
  omega

theorem pointAndDigit_cons (c : Char) (cs : List Char) :
    pointAndDigit (c :: cs) = (c == '.' && headIs Reading.isDigit cs) := by
  by_cases hc : c = '.'
  · subst hc
    rfl
  · rw [pointAndDigit]
    · simp [hc]
    · simpa using hc

theorem Gap.pointAndDigit (h : Gap rest) : pointAndDigit rest = false := by
  cases rest with
  | nil => rfl
  | cons c rest => rw [h.eq_space, pointAndDigit_cons]; rfl

theorem pointAndDigit_quiet (h : pointAndDigit cs = false) (hrest : Gap rest) :
    pointAndDigit (cs.take n ++ rest) = false := by
  match n, cs with
  | 0, _ => exact hrest.pointAndDigit
  | n + 1, [] => exact hrest.pointAndDigit
  | n + 1, c :: cs =>
      rw [pointAndDigit_cons] at h
      rw [List.take_succ_cons, List.cons_append, pointAndDigit_cons]
      have hgap : headIs Reading.isDigit rest = false := hrest.headIs rfl
      match n, cs with
      | 0, _ | n + 1, [] => simp [hgap]
      | n + 1, d :: cs => exact h

theorem pointAndDigit_firm (h : pointAndDigit cs = true) (hn : 2 ≤ n) :
    pointAndDigit (cs.take n ++ rest) = true := by
  obtain ⟨n, rfl⟩ : ∃ k, n = k + 2 := ⟨n - 2, by omega⟩
  match cs with
  | [] => cases h
  | [c] => simp [pointAndDigit_cons, headIs] at h
  | c :: d :: cs =>
      rw [pointAndDigit_cons] at h
      simpa [pointAndDigit_cons, headIs] using h

theorem two_le_fractionLength (h : pointAndDigit cs = true) : 2 ≤ fractionLength cs := by
  have hdigit : headIs Reading.isDigit (cs.drop 1) = true := by
    unfold pointAndDigit at h
    split at h
    · exact h
    · cases h
  have hrun : 0 < runLength isDigitOrMark (cs.drop 1) := by
    refine runLength_pos ?_
    cases hcs : cs.drop 1 with
    | nil => simp [hcs, headIs] at hdigit
    | cons c rest =>
        have hc : Reading.isDigit c = true := by simpa [hcs, headIs] using hdigit
        simp [headIs, isDigitOrMark, hc]
  rw [fractionLength, if_pos h]
  omega

theorem pointAndDigit_take (hn : fractionLength cs ≤ n) (hrest : Gap rest) :
    pointAndDigit (cs.take n ++ rest) = pointAndDigit cs := by
  cases h : pointAndDigit cs with
  | false => exact pointAndDigit_quiet h hrest
  | true => exact pointAndDigit_firm h (Nat.le_trans (two_le_fractionLength h) hn)

theorem fractionLength_take (hn : fractionLength cs ≤ n) (hrest : Gap rest) :
    fractionLength (cs.take n ++ rest) = fractionLength cs := by
  have hpoint := pointAndDigit_take hn hrest
  unfold fractionLength at hn ⊢
  rw [hpoint]
  split
  · rename_i h
    rw [if_pos h] at hn
    have hlength : 1 ≤ cs.length := by
      cases cs with
      | nil => cases h
      | cons c cs => simp
    rw [drop_take_append (by omega) hlength, runLength_take_append (by omega) (hrest.headIs rfl)]
  · rfl

theorem mantissaLength_take (hn : mantissaLength cs ≤ n) (hrest : Gap rest) :
    mantissaLength (cs.take n ++ rest) = mantissaLength cs := by
  have hwhole := runLength_le isDigitOrMark cs
  unfold mantissaLength at hn ⊢
  dsimp only at hn ⊢
  rw [runLength_take_append (by omega) (hrest.headIs rfl), drop_take_append (by omega) hwhole,
    fractionLength_take (by omega) hrest]

def signLength (cs : List Char) : Nat := if headIs (fun c => c == '+' || c == '-') cs then 1 else 0

theorem exponentLength_cons (e : Char) (cs : List Char) :
    exponentLength (e :: cs) = if e = 'e' ∨ e = 'E' then
      if headIs Reading.isDigit (cs.drop (signLength cs))
      then 1 + signLength cs + runLength isDigitOrMark (cs.drop (signLength cs)) else 0
      else 0 := rfl

theorem signLength_le (cs : List Char) : signLength cs ≤ cs.length := by
  unfold signLength
  split
  · cases cs with
    | nil => rename_i h; cases h
    | cons c cs => simp
  · exact Nat.zero_le _

theorem exponentLength_le (cs : List Char) : exponentLength cs ≤ cs.length := by
  cases cs with
  | nil => exact Nat.le_refl _
  | cons e cs =>
      have hsign := signLength_le cs
      have hrun := runLength_le isDigitOrMark (cs.drop (signLength cs))
      rw [List.length_drop] at hrun
      rw [exponentLength_cons, List.length_cons]
      split
      · split <;> omega
      · omega

theorem headIs_take_append (hn : 0 < n) (hcs : cs ≠ []) :
    headIs p (cs.take n ++ rest) = headIs p cs := by
  obtain ⟨n, rfl⟩ : ∃ k, n = k + 1 := ⟨n - 1, by omega⟩
  cases cs with
  | nil => exact absurd rfl hcs
  | cons c cs => rfl

/-- A property of the first character that no space has. -/
theorem headIs_quiet (h : headIs p cs = false) (hp : p ' ' = false) (hrest : Gap rest) :
    headIs p (cs.take n ++ rest) = false := by
  match n, cs with
  | 0, _ | n + 1, [] => simpa using hrest.headIs hp
  | n + 1, c :: cs => exact h

theorem signLength_take (hn : signLength cs ≤ n) (hrest : Gap rest) :
    signLength (cs.take n ++ rest) = signLength cs := by
  unfold signLength at hn ⊢
  cases h : headIs (fun c => c == '+' || c == '-') cs with
  | false => rw [headIs_quiet h rfl hrest]
  | true =>
      have hcs : cs ≠ [] := by
        rintro rfl
        cases h
      rw [h] at hn
      rw [headIs_take_append hn hcs, h]

theorem Gap.exponentLength (h : Gap rest) : exponentLength rest = 0 := by
  cases rest with
  | nil => rfl
  | cons c rest => rw [h.eq_space, exponentLength_cons, if_neg (by decide)]

/-- Without a digit behind its mark there is no exponent, and none before a gap. -/
theorem exponentDigit_quiet (h : headIs Reading.isDigit (cs.drop (signLength cs)) = false)
    (hrest : Gap rest) :
    headIs Reading.isDigit
      ((cs.take n ++ rest).drop (signLength (cs.take n ++ rest))) = false := by
  rcases Nat.lt_or_ge n (signLength cs) with hlt | hge
  · have hn : n = 0 := by
      unfold signLength at hlt
      split at hlt <;> omega
    have hsign : signLength rest = 0 := by rw [signLength, hrest.headIs rfl]; rfl
    subst hn
    simpa [hsign] using hrest.headIs rfl
  · rw [signLength_take hge hrest, drop_take_append hge (signLength_le cs)]
    exact headIs_quiet h rfl hrest

theorem exponentLength_take (hn : exponentLength cs ≤ n) (hrest : Gap rest) :
    exponentLength (cs.take n ++ rest) = exponentLength cs := by
  match n, cs with
  | 0, cs =>
      rw [Nat.le_zero.mp hn]
      exact hrest.exponentLength
  | n + 1, [] => exact hrest.exponentLength
  | n + 1, e :: cs =>
      rw [exponentLength_cons] at hn
      rw [List.take_succ_cons, List.cons_append, exponentLength_cons, exponentLength_cons]
      by_cases hmark : e = 'e' ∨ e = 'E'
      · rw [if_pos hmark] at hn ⊢
        rw [if_pos hmark]
        cases hdigit : headIs Reading.isDigit (cs.drop (signLength cs)) with
        | false => simp [exponentDigit_quiet hdigit hrest]
        | true =>
            have hne : cs.drop (signLength cs) ≠ [] := by
              intro hnil
              rw [hnil] at hdigit
              cases hdigit
            have hrun : 0 < runLength isDigitOrMark (cs.drop (signLength cs)) := by
              refine runLength_pos ?_
              cases hcs : cs.drop (signLength cs) with
              | nil => exact absurd hcs hne
              | cons c rest =>
                  have hc : Reading.isDigit c = true := by simpa [hcs, headIs] using hdigit
                  simp [headIs, isDigitOrMark, hc]
            rw [hdigit, if_pos rfl] at hn
            rw [signLength_take (by omega) hrest, drop_take_append (by omega) (signLength_le cs),
              headIs_take_append (by omega) hne, hdigit,
              runLength_take_append (by omega) (hrest.headIs rfl)]
      · rw [if_neg hmark, if_neg hmark]

theorem fractionLength_le_mantissaLength (cs : List Char) :
    fractionLength cs ≤ mantissaLength cs := by
  cases hpoint : pointAndDigit cs with
  | false =>
      have hzero : fractionLength cs = 0 := by simp [fractionLength, hpoint]
      omega
  | true =>
      -- a number that begins with its point has no whole part
      have hwhole : runLength isDigitOrMark cs = 0 := by
        cases cs with
        | nil => rfl
        | cons c cs =>
            rw [pointAndDigit_cons, Bool.and_eq_true, beq_iff_eq] at hpoint
            rw [hpoint.1]
            rfl
      simp [mantissaLength, hwhole]

/-- The length of a decimal number: digits, exponent and the letters behind them. -/
def decimalLength (cs : List Char) : Nat :=
  let rest := cs.drop (mantissaLength cs)
  mantissaLength cs + exponentLength rest +
    runLength Char.isAlpha (rest.drop (exponentLength rest))

theorem decimalLength_le (cs : List Char) : decimalLength cs ≤ cs.length := by
  have hmantissa := mantissaLength_le cs
  have hexponent := exponentLength_le (cs.drop (mantissaLength cs))
  have hletters := runLength_le Char.isAlpha ((cs.drop (mantissaLength cs)).drop
    (exponentLength (cs.drop (mantissaLength cs))))
  rw [List.length_drop] at hletters hexponent
  rw [List.length_drop] at hletters
  unfold decimalLength
  dsimp only
  omega

/-- A decimal number is read off its own text. -/
theorem decimal_take {suffix? : String → Option NumberSuffix}
    (hstart : (headIs Reading.isDigit cs || pointAndDigit cs) = true)
    (hpoints : (pointAndDigit (cs.drop (runLength isDigitOrMark cs)) &&
      pointAndDigit (cs.drop (mantissaLength cs))) = false) (hrest : Gap rest) :
    decimal suffix? (cs.take (decimalLength cs) ++ rest) = decimal suffix? cs := by
  have hmantissa := mantissaLength_le cs
  have hexponent := exponentLength_le (cs.drop (mantissaLength cs))
  have hpos := mantissaLength_pos hstart
  have hfraction := fractionLength_le_mantissaLength cs
  have hwhole : runLength isDigitOrMark cs +
    fractionLength (cs.drop (runLength isDigitOrMark cs)) = mantissaLength cs := rfl
  rw [List.length_drop] at hexponent
  have hlong : mantissaLength cs + exponentLength (cs.drop (mantissaLength cs)) +
      runLength Char.isAlpha ((cs.drop (mantissaLength cs)).drop
        (exponentLength (cs.drop (mantissaLength cs)))) = decimalLength cs := rfl
  generalize hn : decimalLength cs = n at hlong
  have hne : cs ≠ [] := by
    rintro rfl
    cases hstart
  have hhead : headIs Reading.isDigit (cs.take n ++ rest) = headIs Reading.isDigit cs :=
    headIs_take_append (by omega) hne
  have hpoint : pointAndDigit (cs.take n ++ rest) = pointAndDigit cs :=
    pointAndDigit_take (by omega) hrest
  have hrun : runLength isDigitOrMark (cs.take n ++ rest) = runLength isDigitOrMark cs :=
    runLength_take_append (by omega) (hrest.headIs rfl)
  have hhas : pointAndDigit ((cs.take n ++ rest).drop (runLength isDigitOrMark cs)) =
      pointAndDigit (cs.drop (runLength isDigitOrMark cs)) := by
    rw [drop_take_append (by omega) (by omega)]
    exact pointAndDigit_take (by omega) hrest
  have hsame : mantissaLength (cs.take n ++ rest) = mantissaLength cs :=
    mantissaLength_take (by omega) hrest
  have hdrop : (cs.take n ++ rest).drop (mantissaLength cs) =
      (cs.drop (mantissaLength cs)).take (n - mantissaLength cs) ++ rest :=
    drop_take_append (by omega) hmantissa
  have hagain : (pointAndDigit (cs.drop (runLength isDigitOrMark cs)) &&
      pointAndDigit ((cs.drop (mantissaLength cs)).take (n - mantissaLength cs) ++ rest)) =
        false := by
    rw [Bool.and_eq_false_iff] at hpoints ⊢
    exact hpoints.imp id fun h => pointAndDigit_quiet h hrest
  have hexp : exponentLength ((cs.drop (mantissaLength cs)).take (n - mantissaLength cs) ++ rest) =
      exponentLength (cs.drop (mantissaLength cs)) := exponentLength_take (by omega) hrest
  have hdigits : (cs.take n ++ rest).take
      (mantissaLength cs + exponentLength (cs.drop (mantissaLength cs))) =
        cs.take (mantissaLength cs + exponentLength (cs.drop (mantissaLength cs))) := by
    rw [List.take_append_of_le_length (by rw [List.length_take]; omega), List.take_take,
      Nat.min_eq_left (by omega)]
  have hletters : (((cs.drop (mantissaLength cs)).take (n - mantissaLength cs) ++ rest).drop
      (exponentLength (cs.drop (mantissaLength cs)))).takeWhile Char.isAlpha =
        ((cs.drop (mantissaLength cs)).drop
          (exponentLength (cs.drop (mantissaLength cs)))).takeWhile Char.isAlpha := by
    rw [drop_take_append (by omega) (by rw [List.length_drop]; omega)]
    exact takeWhile_take_append (by omega) (hrest.headIs rfl)
  unfold decimal
  simp only [hhead, hpoint, hrun, hhas, hsame, hdrop, hagain, hpoints, hexp, hdigits, hletters]

theorem decimal_length {suffix? : String → Option NumberSuffix} {x : Lexeme}
    (h : decimal suffix? cs = .ok (some x)) :
    (headIs Reading.isDigit cs || pointAndDigit cs) = true ∧
      (pointAndDigit (cs.drop (runLength isDigitOrMark cs)) &&
        pointAndDigit (cs.drop (mantissaLength cs))) = false ∧ x.length = decimalLength cs := by
  unfold decimal at h
  split at h
  case isFalse => cases h
  case isTrue hstart =>
      dsimp only at h
      split at h
      case isTrue => cases h
      case isFalse hpoints =>
          have hmantissa := mantissaLength_le cs
          have hexponent := exponentLength_le (cs.drop (mantissaLength cs))
          rw [List.length_drop] at hexponent
          refine ⟨hstart, by simpa using hpoints, ?_⟩
          simp only [Except.ok.injEq, Option.some.injEq] at h
          rw [← h, decimalLexeme_length, List.length_take, Nat.min_eq_left (by omega)]
          rfl

theorem decimal_firm (suffix? : String → Option NumberSuffix) : Firm (decimal suffix?) := by
  intro cs x hx
  obtain ⟨hstart, hpoints, hlength⟩ := decimal_length hx
  rw [hlength, ← hx]
  exact ⟨decimalLength_le cs, fun rest hrest => decimal_take hstart hpoints hrest⟩

theorem decimal_quiet (suffix? : String → Option NumberSuffix) : Quiet (decimal suffix?) := by
  intro c w tail rest h hrest
  unfold decimal at h
  split at h
  · dsimp only at h
    split at h <;> cases h
  · rename_i hstart
    rw [Bool.not_eq_true, Bool.or_eq_false_iff] at hstart
    have hpoint : pointAndDigit (c :: (w ++ rest)) = false := by
      have hcut : c :: (w ++ rest) = (c :: (w ++ tail)).take (w.length + 1) ++ rest := by simp
      rw [hcut]
      exact pointAndDigit_quiet hstart.2 hrest
    have hdigit : headIs Reading.isDigit (c :: (w ++ rest)) = false := hstart.1
    rw [decimal, hdigit, hpoint]
    rfl

def hexadecimalLength (mark : Nat) (cs : List Char) : Nat :=
  let digits := runLength isHexDigitOrMark (cs.drop mark)
  mark + digits + runLength Char.isAlpha (cs.drop (mark + digits))

theorem hexadecimal_length (mark : Nat) (suffix? : String → Option NumberSuffix)
    (cs : List Char) : (hexadecimal mark suffix? cs).length = hexadecimalLength mark cs := by
  unfold hexadecimal
  dsimp only
  split <;> rfl

theorem hexadecimalLength_le {mark : Nat} (h : mark ≤ cs.length) :
    hexadecimalLength mark cs ≤ cs.length := by
  have hdigits := runLength_le isHexDigitOrMark (cs.drop mark)
  have hletters := runLength_le Char.isAlpha
    (cs.drop (mark + runLength isHexDigitOrMark (cs.drop mark)))
  rw [List.length_drop] at hdigits hletters
  unfold hexadecimalLength
  dsimp only
  omega

/-- A hexadecimal number is read off its own text. -/
theorem hexadecimal_take {mark : Nat} {suffix? : String → Option NumberSuffix}
    (hmark : mark ≤ cs.length) (hrest : Gap rest) :
    hexadecimal mark suffix? (cs.take (hexadecimalLength mark cs) ++ rest) =
      hexadecimal mark suffix? cs := by
  have hdigits := runLength_le isHexDigitOrMark (cs.drop mark)
  rw [List.length_drop] at hdigits
  have hlong : mark + runLength isHexDigitOrMark (cs.drop mark) + runLength Char.isAlpha
      (cs.drop (mark + runLength isHexDigitOrMark (cs.drop mark))) = hexadecimalLength mark cs := rfl
  generalize hexadecimalLength mark cs = n at hlong ⊢
  have hsame : ((cs.take n ++ rest).drop mark).takeWhile isHexDigitOrMark =
      (cs.drop mark).takeWhile isHexDigitOrMark := by
    rw [drop_take_append (by omega) hmark]
    exact takeWhile_take_append (by omega) (hrest.headIs rfl)
  have hletters : ((cs.take n ++ rest).drop
      (mark + ((cs.drop mark).takeWhile isHexDigitOrMark).length)).takeWhile Char.isAlpha =
        (cs.drop (mark + ((cs.drop mark).takeWhile isHexDigitOrMark).length)).takeWhile
          Char.isAlpha := by
    change ((cs.take n ++ rest).drop (mark + runLength isHexDigitOrMark (cs.drop mark))).takeWhile
      Char.isAlpha = _
    rw [drop_take_append (by omega) (by omega)]
    exact takeWhile_take_append (by omega) (hrest.headIs rfl)
  unfold hexadecimal
  simp only [hsame, hletters]

end Numbers

/-! ## Words and symbols -/

theorem word_firm (l : Language) : Firm (word l) := by
  intro cs x hx
  unfold word at hx
  split at hx
  case isFalse => cases hx
  case isTrue hstart =>
      cases hx
      refine ⟨runLength_le isNameBody cs, fun rest hrest => ?_⟩
      have hwhole : (cs.take (runLength isNameBody cs) ++ rest).takeWhile isNameBody =
          cs.takeWhile isNameBody := takeWhile_take_append (Nat.le_refl _) (hrest.headIs rfl)
      have hne : cs ≠ [] := by
        rintro rfl
        cases hstart
      have hpos : 0 < runLength isNameBody cs := by
        refine runLength_pos ?_
        cases cs with
        | nil => exact hstart
        | cons c cs =>
            have hc : isNameStart c = true := by simpa [headIs] using hstart
            simp [headIs, isNameBody, hc]
      have hhead : headIs isNameStart (cs.take (runLength isNameBody cs) ++ rest) = true := by
        rw [headIs_take_append hpos hne, hstart]
      change word l (cs.take (runLength isNameBody cs) ++ rest) = _
      rw [word, if_pos hhead, hwhole]

theorem word_quiet (l : Language) : Quiet (word l) := by
  intro c w tail rest h hrest
  unfold word at h ⊢
  split at h
  · cases h
  · rename_i hstart
    rw [if_neg (by simpa [headIs] using hstart)]

def Unspaced (table : List (String × TokenKind)) : Bool :=
  table.all fun e => !e.1.toList.contains ' '

/-- A text without a space that a beginning of the text with a gap behind it starts with is part of
that beginning. -/
theorem prefix_of_gap {w sign : List Char} (hsign : ' ' ∉ sign) (hrest : Gap rest)
    (h : sign <+: w ++ rest) : sign <+: w := by
  induction w generalizing sign with
  | nil =>
      cases sign with
      | nil => exact List.nil_prefix
      | cons s sign =>
          obtain ⟨tail, htail⟩ := h
          rw [List.cons_append, List.nil_append] at htail
          rw [← htail] at hrest
          exact absurd hrest.eq_space fun hs => hsign (hs ▸ List.mem_cons_self)
  | cons c w ih =>
      cases sign with
      | nil => exact List.nil_prefix
      | cons s sign =>
          rw [List.cons_append, List.cons_prefix_cons] at h
          rw [List.cons_prefix_cons]
          exact ⟨h.1, ih (fun hmem => hsign (List.mem_cons_of_mem s hmem)) h.2⟩

theorem Unspaced.not_mem {table : List (String × TokenKind)} (h : Unspaced table = true)
    {e : String × TokenKind} (he : e ∈ table) : ' ' ∉ e.1.toList := by
  simpa using List.all_eq_true.mp h e he

theorem symbol_firm {table : List (String × TokenKind)} (ht : Unspaced table = true) :
    Firm (symbol table) := by
  intro cs x hx
  unfold symbol at hx
  simp only [Except.ok.injEq, Option.map_eq_some_iff] at hx
  obtain ⟨e, hfind, rfl⟩ := hx
  obtain ⟨hstart, before, after, htable, hbefore⟩ := List.find?_eq_some_iff_append.mp hfind
  obtain ⟨tail, rfl⟩ := List.isPrefixOf_iff_prefix.mp hstart
  have hlength : e.1.length = e.1.toList.length := String.length_toList.symm
  refine ⟨by simp [hlength], fun rest hrest => ?_⟩
  dsimp only
  rw [hlength, List.take_left]
  have hagain : table.find? (fun a => a.1.toList.isPrefixOf (e.1.toList ++ rest)) = some e := by
    refine List.find?_eq_some_iff_append.mpr ⟨?_, before, after, htable, fun a ha => ?_⟩
    · exact List.isPrefixOf_iff_prefix.mpr (List.prefix_append _ _)
    · -- a symbol that comes first and fits now would have fitted before
      have hno := hbefore a ha
      rw [Bool.not_eq_true', Bool.eq_false_iff, ne_eq, List.isPrefixOf_iff_prefix] at hno ⊢
      intro hyes
      have hmem : a ∈ table := htable ▸ List.mem_append_left _ ha
      exact hno ((prefix_of_gap (Unspaced.not_mem ht hmem) hrest hyes).trans
        (List.prefix_append _ _))
  rw [symbol, hagain]
  rfl

theorem symbol_quiet {table : List (String × TokenKind)} (ht : Unspaced table = true) :
    Quiet (symbol table) := by
  intro c w tail rest h hrest
  unfold symbol at h ⊢
  simp only [Except.ok.injEq, Option.map_eq_none_iff, List.find?_eq_none,
    List.isPrefixOf_iff_prefix] at h ⊢
  intro e he hyes
  have hpart : e.1.toList <+: c :: w := prefix_of_gap (Unspaced.not_mem ht he) hrest hyes
  exact h e he (hpart.trans (List.prefix_append _ tail))

/-- A rule that finds a lexeme, or an error, exactly where the text begins with a sign. -/
theorem quiet_of_sign {rule : List Char → Found} (sign : List Char) (hspace : ' ' ∉ sign)
    (hsign : ∀ cs, rule (sign ++ cs) ≠ .ok none)
    (hother : ∀ cs, ¬ sign <+: cs → rule cs = .ok none) : Quiet rule := by
  intro c w tail rest h hrest
  refine hother _ fun hyes => ?_
  have hpart : sign <+: c :: w := prefix_of_gap hspace hrest hyes
  obtain ⟨more, hmore⟩ := hpart.trans (List.prefix_append (c :: w) tail)
  exact hsign more (hmore ▸ h)

theorem headIs_isNameBody (h : headIs isNameStart cs = true) : headIs isNameBody cs = true := by
  cases cs with
  | nil => exact h
  | cons c cs =>
      have hc : isNameStart c = true := by simpa [headIs] using h
      simp [headIs, isNameBody, hc]

/-! ## Texts between quotes -/

theorem doubledQuoteBody_firm {lineBreaks : Bool} {o : Nat} {value : List Char}
    (h : doubledQuoteBody lineBreaks o cs = .ok (value, n)) :
    n ≤ cs.length ∧ ∀ rest, headIs (· == '"') rest = false →
      doubledQuoteBody lineBreaks o (cs.take n ++ rest) = .ok (value, n) := by
  fun_induction doubledQuoteBody lineBreaks o cs generalizing value n with
  | case1 | case4 => cases h
  | case2 o cs ih =>
      obtain ⟨⟨v, k⟩, hbody, hvalue⟩ := exists_of_map h
      cases hvalue
      obtain ⟨hle, hagain⟩ := ih hbody
      refine ⟨by simpa using hle, fun rest hrest => ?_⟩
      simp [doubledQuoteBody, hagain rest hrest, Except.map]
  | case3 o tail hnot =>
      cases h
      refine ⟨by simp, fun rest hrest => ?_⟩
      cases rest with
      | nil => rfl
      | cons c rest =>
          have hc : c ≠ '"' := by simpa [headIs] using hrest
          simp [doubledQuoteBody, hc]
  | case5 o c cs hpair hquote hbreak ih =>
      obtain ⟨⟨v, k⟩, hbody, hvalue⟩ := exists_of_map h
      cases hvalue
      obtain ⟨hle, hagain⟩ := ih hbody
      refine ⟨by simpa using hle, fun rest hrest => ?_⟩
      rw [List.take_succ_cons, List.cons_append, doubledQuoteBody, if_neg hbreak,
        hagain rest hrest]
      · rfl
      · exact fun _ hc => absurd hc hquote
      · exact hquote

namespace CSharp

theorem escapedBody_cons {quote c : Char} (hc : c ≠ '\\') (o : Nat) (cs : List Char) :
    escapedBody quote o (c :: cs) = if c = quote then .ok ([], 1)
      else if c = '\n' then .error ⟨.unterminatedString, ⟨0, o⟩⟩
      else (escapedBody quote (o + c.utf8Size) cs).map fun (value, n) => (c :: value, n + 1) := by
  rw [escapedBody]
  · exact fun _ h => absurd h hc
  · exact fun _ _ h => absurd h hc
  · exact fun h => absurd h hc

theorem escapedBody_firm {quote : Char} {o : Nat} {value : List Char}
    (h : escapedBody quote o cs = .ok (value, n)) :
    n ≤ cs.length ∧ ∀ rest, escapedBody quote o (cs.take n ++ rest) = .ok (value, n) := by
  fun_induction escapedBody quote o cs generalizing value n with
  | case1 | case3 | case4 | case6 | case7 | case9 => cases h
  | case2 o a b c d cs x hcode ih =>
      obtain ⟨⟨v, k⟩, hbody, hvalue⟩ := exists_of_map h
      cases hvalue
      obtain ⟨hle, hagain⟩ := ih hbody
      refine ⟨by simpa using hle, fun rest => ?_⟩
      simp [escapedBody, hcode, hagain rest, Except.map]
  | case5 o c cs hu x hx ih =>
      obtain ⟨⟨v, k⟩, hbody, hvalue⟩ := exists_of_map h
      cases hvalue
      obtain ⟨hle, hagain⟩ := ih hbody
      refine ⟨by simpa using hle, fun rest => ?_⟩
      rw [List.take_succ_cons, List.take_succ_cons, List.cons_append, List.cons_append,
        escapedBody, hx]
      · dsimp only
        rw [hagain rest]
        rfl
      · exact hu
  | case8 o cs hcoded hsimple hlast =>
      cases h
      have hc : quote ≠ '\\' := by
        intro hc
        cases cs with
        | nil => exact hlast hc rfl
        | cons d cs => exact hsimple d cs hc rfl
      refine ⟨by simp, fun rest => ?_⟩
      rw [List.take_succ_cons, List.cons_append, escapedBody_cons hc, if_pos rfl]
  | case10 o c cs hcoded hsimple hlast hquote hbreak ih =>
      obtain ⟨⟨v, k⟩, hbody, hvalue⟩ := exists_of_map h
      cases hvalue
      obtain ⟨hle, hagain⟩ := ih hbody
      have hc : c ≠ '\\' := by
        intro hc
        cases cs with
        | nil => exact hlast hc rfl
        | cons d cs => exact hsimple d cs hc rfl
      refine ⟨by simpa using hle, fun rest => ?_⟩
      rw [List.take_succ_cons, List.cons_append, escapedBody_cons hc, if_neg hquote,
        if_neg hbreak, hagain rest]
      rfl

theorem exists_of_bind {α : Type} {body : Except LexFault α} {f : α → Found} {x : Lexeme}
    (h : body >>= f = .ok (some x)) : ∃ a, body = .ok a ∧ f a = .ok (some x) := by
  cases body with
  | error fault => cases h
  | ok a => exact ⟨a, rfl, h⟩

theorem verbatimString_firm : Firm verbatimString := by
  intro cs x hx
  unfold verbatimString at hx
  split at hx
  · rename_i cs
    obtain ⟨⟨value, n⟩, hbody, hvalue⟩ := exists_of_bind hx
    cases hvalue
    obtain ⟨hle, hagain⟩ := doubledQuoteBody_firm hbody
    refine ⟨by simpa using hle, fun rest hrest => ?_⟩
    simp [verbatimString, hagain rest (hrest.headIs rfl), bind, Except.bind, pure, Except.pure]
  · cases hx

theorem bind_ne_none {α : Type} {body : Except LexFault α} {f : α → Found}
    (hf : ∀ a, f a ≠ .ok none) : body >>= f ≠ .ok none := by
  cases body with
  | error fault => nofun
  | ok a => exact hf a

theorem verbatimString_quiet : Quiet verbatimString := by
  refine quiet_of_sign ['@', '"'] (by simp)
    (fun cs => bind_ne_none fun _ => nofun) fun cs hcs => ?_
  unfold verbatimString
  split
  · exact absurd (List.prefix_append ['@', '"'] _) hcs
  · rfl

theorem string_firm : Firm string := by
  intro cs x hx
  unfold string at hx
  split at hx
  · rename_i cs
    obtain ⟨⟨value, n⟩, hbody, hvalue⟩ := exists_of_bind hx
    cases hvalue
    obtain ⟨hle, hagain⟩ := escapedBody_firm hbody
    refine ⟨by simpa using hle, fun rest hrest => ?_⟩
    simp [string, hagain rest, bind, Except.bind, pure, Except.pure]
  · cases hx

theorem string_quiet : Quiet string := by
  refine quiet_of_sign ['"'] (by simp) (fun cs => bind_ne_none fun _ => nofun) fun cs hcs => ?_
  unfold string
  split
  · exact absurd (List.prefix_append ['"'] _) hcs
  · rfl

theorem charLexeme_length {value text : List Char} {x : Lexeme}
    (h : charLexeme value text = .ok (some x)) : x.length = text.length := by
  unfold charLexeme at h
  split at h <;> cases h
  rfl

theorem character_firm : Firm character := by
  intro cs x hx
  unfold character at hx
  split at hx
  · rename_i cs
    obtain ⟨⟨value, n⟩, hbody, hvalue⟩ := exists_of_bind hx
    obtain ⟨hle, hagain⟩ := escapedBody_firm hbody
    have hlength : x.length = n + 1 := by simpa [hle] using charLexeme_length hvalue
    rw [hlength]
    refine ⟨by simpa using hle, fun rest _ => ?_⟩
    rw [List.take_succ_cons, List.cons_append, character, hagain rest]
    change charLexeme value ('\x27' :: (cs.take n ++ rest).take n) = _
    rw [List.take_append_of_le_length (by simp [hle]), List.take_take, Nat.min_self]
    exact hvalue
  · cases hx

theorem charLexeme_ne_none (value text : List Char) : charLexeme value text ≠ .ok none := by
  unfold charLexeme
  split <;> nofun

theorem character_quiet : Quiet character := by
  refine quiet_of_sign ['\x27'] (by simp)
    (fun cs => bind_ne_none fun _ => charLexeme_ne_none _ _) fun cs hcs => ?_
  unfold character
  split
  · exact absurd (List.prefix_append ['\x27'] _) hcs
  · rfl

theorem escapedName_firm : Firm escapedName := by
  intro cs x hx
  unfold escapedName at hx
  split at hx
  · rename_i cs
    split at hx
    · rename_i hstart
      cases hx
      have hrun := runLength_le isNameBody cs
      have hne : cs ≠ [] := by
        rintro rfl
        cases hstart
      have hpos := runLength_pos (headIs_isNameBody hstart)
      refine ⟨by simp; omega, fun rest hrest => ?_⟩
      dsimp only
      rw [Nat.add_comm, List.take_succ_cons, List.cons_append, escapedName,
        headIs_take_append hpos hne, hstart,
        runLength_take_append (Nat.le_refl _) (hrest.headIs rfl)]
      simp [Nat.add_comm]
    · cases hx
  · cases hx

theorem escapedName_cons (c : Char) (cs : List Char) :
    escapedName (c :: cs) = .ok (if c = '@' ∧ headIs isNameStart cs then
      some ⟨.identifier, 1 + runLength isNameBody cs, none⟩ else none) := by
  by_cases hc : c = '@'
  · subst hc
    simp [escapedName]
  · rw [escapedName]
    · simp [hc]
    · simpa using hc

theorem escapedName_quiet : Quiet escapedName := by
  intro c w tail rest h hrest
  rw [escapedName_cons] at h ⊢
  split at h
  · cases h
  · rename_i hnot
    rw [if_neg]
    rintro ⟨hc, hstart⟩
    cases w with
    | nil => exact absurd hstart (by simp [hrest.headIs (p := isNameStart) rfl])
    | cons d w => exact hnot ⟨hc, hstart⟩

/-- A text that begins with a mark in any case is no shorter than the mark. -/
theorem startsIgnoringCase_length {mark : String} (h : startsIgnoringCase mark cs = true) :
    mark.length ≤ cs.length := by
  have hlength := congrArg List.length (beq_iff_eq.mp h)
  rw [List.length_map, List.length_take, String.length_toList] at hlength
  omega

theorem startsIgnoringCase_take {mark : String} (hn : mark.length ≤ n) (hcs : n ≤ cs.length) :
    startsIgnoringCase mark (cs.take n ++ rest) = startsIgnoringCase mark cs := by
  unfold startsIgnoringCase
  rw [List.take_append_of_le_length (by rw [List.length_take]; omega), List.take_take,
    Nat.min_eq_left hn]

theorem startsIgnoringCase_quiet {mark : String} (hmark : ' ' ∉ mark.toList)
    (h : startsIgnoringCase mark cs = false) (hcs : n ≤ cs.length) (hrest : Gap rest) :
    startsIgnoringCase mark (cs.take n ++ rest) = false := by
  rcases Nat.lt_or_ge n mark.length with hn | hn
  · rw [Bool.eq_false_iff]
    intro hyes
    have hlength := startsIgnoringCase_length hyes
    rw [List.length_append, List.length_take, Nat.min_eq_left hcs] at hlength
    cases rest with
    | nil => exact absurd hlength (by simpa using hn)
    | cons c rest =>
        -- the space behind the taken part would be a character of the mark
        have hspace : ' ' ∈ (cs.take n ++ c :: rest).take mark.length := by
          have htaken : (cs.take n).length = n := by rw [List.length_take, Nat.min_eq_left hcs]
          rw [List.take_append, htaken]
          obtain ⟨k, hk⟩ : ∃ k, mark.length - n = k + 1 := ⟨mark.length - n - 1, by omega⟩
          rw [hk, List.take_succ_cons, hrest.eq_space]
          simp
        have hmem := List.mem_map_of_mem (f := Char.toLower) hspace
        rw [beq_iff_eq.mp hyes] at hmem
        exact hmark hmem
  · rw [startsIgnoringCase_take hn hcs, h]

theorem number_firm : Firm number := by
  intro cs x hx
  unfold number at hx
  split at hx
  · rename_i hmark
    cases hx
    have hlength : 2 ≤ cs.length := startsIgnoringCase_length hmark
    have hle := hexadecimalLength_le hlength
    have hlong : "0x".length ≤ hexadecimalLength 2 cs := by
      change 2 ≤ _
      unfold hexadecimalLength
      dsimp only
      omega
    rw [hexadecimal_length]
    refine ⟨hle, fun rest hrest => ?_⟩
    rw [number, startsIgnoringCase_take hlong hle, if_pos hmark, hexadecimal_take hlength hrest]
  · rename_i hmark
    obtain ⟨hle, hagain⟩ := decimal_firm suffix? hx
    refine ⟨hle, fun rest hrest => ?_⟩
    have hquiet := startsIgnoringCase_quiet (by simp) (Bool.eq_false_iff.mpr hmark) hle hrest
    rw [number, hquiet, ← hagain hrest]
    rfl

theorem number_quiet : Quiet number := by
  intro c w tail rest h hrest
  unfold number at h
  split at h
  · cases h
  · rename_i hmark
    have hcut : c :: (w ++ rest) = (c :: (w ++ tail)).take (w.length + 1) ++ rest := by simp
    have hquiet : startsIgnoringCase "0x" (c :: (w ++ rest)) = false := by
      rw [hcut]
      exact startsIgnoringCase_quiet (by simp) (Bool.eq_false_iff.mpr hmark) (by simp) hrest
    rw [number, hquiet]
    exact decimal_quiet suffix? h hrest

theorem lineBreak_quiet {c : Char} {cs : List Char} (hblank : isBlank c = false)
    (h : lineBreak (c :: cs) = none) (ds : List Char) : lineBreak (c :: ds) = none := by
  unfold lineBreak
  split
  · rename_i heq
    cases heq
    cases h
  · rename_i heq
    cases heq
    cases hblank
  · rfl

theorem blanks_cons (c : Char) (cs : List Char) : blanks isBlank (c :: cs) = none ↔
    isBlank c = false := by
  unfold blanks
  rw [show headIs isBlank (c :: cs) = isBlank c from rfl]
  cases isBlank c <;> simp

theorem lineComment_quiet : Quiet fun cs => .ok (lineComment cs) := by
  refine quiet_of_sign "//".toList (by decide) (fun cs => ?_) fun cs hcs => ?_
  · rw [lineComment, if_pos (List.isPrefixOf_iff_prefix.mpr (List.prefix_append _ _))]
    nofun
  · rw [lineComment, if_neg (fun h => hcs (List.isPrefixOf_iff_prefix.mp h))]

theorem blockComment_quiet : Quiet blockComment := by
  refine quiet_of_sign ['/', '*'] (by simp) (fun cs => bind_ne_none fun _ => nofun) fun cs hcs => ?_
  unfold blockComment
  split
  · exact absurd (List.prefix_append ['/', '*'] _) hcs
  · rfl

theorem trivia_eq_none {c : Char} {cs : List Char} : trivia (c :: cs) = .ok none ↔
    lineBreak (c :: cs) = none ∧ isBlank c = false ∧ lineComment (c :: cs) = none ∧
      blockComment (c :: cs) = .ok none := by
  unfold trivia
  split
  · rename_i found hfound
    have hsome : ¬ ((lineBreak (c :: cs)).or ((blanks isBlank (c :: cs)).or
        (lineComment (c :: cs))) = none) := by simp [hfound]
    rw [Option.or_eq_none_iff, Option.or_eq_none_iff, blanks_cons] at hsome
    simp only [Except.ok.injEq, reduceCtorEq, false_iff]
    exact fun h => hsome ⟨h.1, h.2.1, h.2.2.1⟩
  · rename_i hnone
    rw [Option.or_eq_none_iff, Option.or_eq_none_iff, blanks_cons] at hnone
    exact ⟨fun h => ⟨hnone.1, hnone.2.1, hnone.2.2, h⟩, fun h => h.2.2.2⟩

theorem trivia_quiet : Quiet trivia := by
  intro c w tail rest h hrest
  obtain ⟨hbreak, hblank, hline, hblock⟩ := trivia_eq_none.mp h
  exact trivia_eq_none.mpr ⟨lineBreak_quiet hblank hbreak _, hblank,
    Except.ok.inj (lineComment_quiet (congrArg Except.ok hline) hrest),
    blockComment_quiet hblock hrest⟩

end CSharp

/-! ## The rules of C# together -/

theorem Quiet.take {rule : List Char → Found} (h : Quiet rule) (hn : 0 < n) (hcs : n ≤ cs.length)
    (hnone : rule cs = .ok none) (hrest : Gap rest) : rule (cs.take n ++ rest) = .ok none := by
  obtain ⟨n, rfl⟩ : ∃ k, n = k + 1 := ⟨n - 1, by omega⟩
  cases cs with
  | nil => simp at hcs
  | cons c cs =>
      rw [← List.take_append_drop n cs] at hnone
      exact h hnone hrest

theorem firstOf_quiet {rules : List (List Char → Found)} (hquiet : ∀ r ∈ rules, Quiet r) :
    Quiet fun cs => firstOf cs rules := by
  intro c w tail rest h hrest
  induction rules with
  | nil => rfl
  | cons rule rules ih =>
      dsimp only [firstOf] at h ⊢
      split at h
      · rename_i hrule
        rw [hquiet rule (by simp) hrule hrest]
        exact ih (fun r hr => hquiet r (List.mem_cons_of_mem rule hr)) h
      · rename_i hfound
        exact absurd h hfound

/-- The first of several rules is as firm as they are, provided that they all stay quiet. -/
theorem firstOf_firm {rules : List (List Char → Found)} (hfirm : ∀ r ∈ rules, Firm r)
    (hquiet : ∀ r ∈ rules, Quiet r) (hproper : ∀ cs, Proper (firstOf cs rules)) :
    Firm fun cs => firstOf cs rules := by
  intro cs x hx
  have hpos := (hproper cs x hx).pos
  clear hproper
  induction rules with
  | nil => cases hx
  | cons rule rules ih =>
      dsimp only [firstOf] at hx ⊢
      split at hx
      · rename_i hrule
        obtain ⟨hle, hagain⟩ := ih (fun r hr => hfirm r (List.mem_cons_of_mem rule hr))
          (fun r hr => hquiet r (List.mem_cons_of_mem rule hr)) hx
        refine ⟨hle, fun rest hrest => ?_⟩
        rw [(hquiet rule (by simp)).take hpos hle hrule hrest]
        exact hagain hrest
      · obtain ⟨hle, hagain⟩ := hfirm rule (by simp) hx
        refine ⟨hle, fun rest hrest => ?_⟩
        rw [hagain hrest]

namespace CSharp

theorem rules_quiet : ∀ rule ∈ [number, verbatimString, string, character, escapedName,
    word .csharp, symbol symbols], Quiet rule := by
  simp only [List.forall_mem_cons, List.not_mem_nil, false_implies, implies_true, and_true]
  exact ⟨number_quiet, verbatimString_quiet, string_quiet, character_quiet, escapedName_quiet,
    word_quiet .csharp, symbol_quiet (by decide)⟩

theorem token_quiet : Quiet token := firstOf_quiet rules_quiet

theorem token_firm : Firm token := by
  refine firstOf_firm ?_ rules_quiet token_proper
  simp only [List.forall_mem_cons, List.not_mem_nil, false_implies, implies_true, and_true]
  exact ⟨number_firm, verbatimString_firm, string_firm, character_firm, escapedName_firm,
    word_firm .csharp, symbol_firm (by decide)⟩

end CSharp

/-- A token at the head of a text is nothing that the trivia rules find. -/
theorem next_token_iff {l : Language} {cx : Context} {x : Lexeme} :
    next l cx cs = .ok (false, x) ↔
      triviaAt l cx cs = .ok none ∧ ∃ found, tokenAt l cs = .ok found ∧ found.getD unknown = x := by
  unfold next
  cases htrivia : triviaAt l cx cs with
  | error fault => simp [bind, Except.bind]
  | ok piece =>
      cases piece with
      | some piece => simp [bind, Except.bind, pure, Except.pure]
      | none =>
          cases htoken : tokenAt l cs <;> simp [bind, Except.bind, pure, Except.pure]

/-- A token of C# is read off its own text wherever a gap follows it. -/
theorem next_firm {cx : Context} {x : Lexeme} {c : Char}
    (h : next .csharp cx (c :: cs) = .ok (false, x)) :
    x.length ≤ (c :: cs).length ∧ ∀ cx rest, Gap rest →
      next .csharp cx ((c :: cs).take x.length ++ rest) = .ok (false, x) := by
  have hpos := (next_proper h).pos
  obtain ⟨htrivia, found, htoken, rfl⟩ := next_token_iff.mp h
  cases found with
  | none =>
      refine ⟨by simp [unknown], fun cx rest hrest => next_token_iff.mpr ⟨?_, none, ?_, rfl⟩⟩
      · exact CSharp.trivia_quiet.take hpos (by simp [unknown]) htrivia hrest
      · exact CSharp.token_quiet.take hpos (by simp [unknown]) htoken hrest
  | some y =>
      obtain ⟨hle, hagain⟩ := CSharp.token_firm htoken
      refine ⟨hle, fun cx rest hrest => next_token_iff.mpr ⟨?_, some y, hagain hrest, rfl⟩⟩
      exact CSharp.trivia_quiet.take hpos hle htrivia hrest

/-- A space before a token of C# is a piece of trivia of its own. -/
theorem next_space {cx cx' : Context} {x : Lexeme} {c : Char}
    (h : next .csharp cx (c :: cs) = .ok (false, x)) :
    next .csharp cx' (' ' :: c :: cs) = .ok (true, ⟨.whitespace, 1, none⟩) := by
  obtain ⟨htrivia, -⟩ := next_token_iff.mp h
  have hc : CSharp.isBlank c = false := (CSharp.trivia_eq_none.mp htrivia).2.1
  have hrun : runLength CSharp.isBlank (' ' :: c :: cs) = 1 := by
    rw [runLength, List.takeWhile_cons_of_pos (by decide), List.takeWhile_cons_of_neg (by simp [hc])]
    rfl
  have hblank : CSharp.trivia (' ' :: c :: cs) = .ok (some ⟨.whitespace, 1, none⟩) := by
    simp [CSharp.trivia, CSharp.lineBreak, blanks, headIs, hrun, CSharp.isBlank]
  simp [next, triviaAt, hblank, bind, Except.bind, pure, Except.pure]

end DualSyntax.Lexing
