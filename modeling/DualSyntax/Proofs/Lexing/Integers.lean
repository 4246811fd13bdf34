import DualSyntax.Proofs.Lexing.FaultSpans
import DualSyntax.Proofs.Lexing.Meaning
import DualSyntax.Proofs.RoundTrip.Literals
import Mathlib.Data.Nat.Digits.Defs

/-!
# The values of integer literals

A number without a point, an exponent and a suffix for real numbers is the longest run of digits and
separators, after a mark if the digits are hexadecimal, with the letters behind it.  It is read as
the integer that its digits denote if that integer fits into 64 bits and the letters are a suffix,
and as an error token if not; no other text is read as an integer (`integerLiterals_exact`).
-/

namespace DualSyntax

def Language.numberSuffix? : Language → String → Option NumberSuffix
  | csharp => Lexing.CSharp.suffix?
  | visualBasic => Lexing.VisualBasic.suffix?

/-- What stands in front of hexadecimal digits, in any case. -/
def Language.hexadecimalMark : Language → String
  | csharp => "0x"
  | visualBasic => "&h"

namespace Lexing

/-! ## Numerals -/

/-- A number without point and exponent: the mark of a hexadecimal number or nothing, digits with
separators, and the letters behind them. -/
structure Numeral where
  mark : List Char
  digits : List Char
  letters : List Char

namespace Numeral

variable (x : Numeral)

def text : List Char := x.mark ++ (x.digits ++ x.letters)

def base : Nat := if x.mark = [] then 10 else 16

/-- The number that the digits denote, without the separators. -/
def number : Nat :=
  Nat.ofDigits x.base ((withoutMarks x.digits).reverse.map Reading.digitValue)

/-- A numeral that is an integer with a suffix. -/
structure Denotes (l : Language) (u : NumberSuffix) : Prop where
  digits : withoutMarks x.digits ≠ []
  fits : x.number < 2 ^ 64
  suffix : l.numberSuffix? (String.ofList x.letters) = some u

end Numeral

/-- A decimal point with a digit behind it. -/
def BeginsFraction (cs : List Char) : Prop :=
  ∃ d rest, cs = '.' :: d :: rest ∧ Reading.isDigit d = true

/-- The mark of an exponent, perhaps a sign, and a digit. -/
def BeginsExponent (cs : List Char) : Prop :=
  ∃ e sign d rest, cs = e :: (sign ++ d :: rest) ∧ (e = 'e' ∨ e = 'E') ∧
    (sign = [] ∨ sign = ['+'] ∨ sign = ['-']) ∧ Reading.isDigit d = true

/-- A numeral stands at the head of a text, as long as it can be, in front of the given rest; it has
no fraction, no exponent and no suffix for real numbers. -/
inductive Integral (l : Language) : Numeral → List Char → Prop
  | decimal {digits letters rest : List Char}
      (first : headIs Reading.isDigit digits = true)
      (digit : ∀ c ∈ digits, isDigitOrMark c = true)
      (letter : ∀ c ∈ letters, c.isAlpha = true)
      (digitsEnd : headIs isDigitOrMark (letters ++ rest) = false)
      (lettersEnd : headIs Char.isAlpha rest = false)
      (whole : ¬ BeginsFraction (letters ++ rest)) (plain : ¬ BeginsExponent (letters ++ rest))
      (notReal : ∀ u, l.numberSuffix? (String.ofList letters) = some u → u.isReal = false)
      (unmarked : l = .csharp → startsIgnoringCase "0x" (digits ++ (letters ++ rest)) = false) :
      Integral l ⟨[], digits, letters⟩ rest
  | hexadecimal {mark digits letters rest : List Char}
      (marked : mark.map Char.toLower = l.hexadecimalMark.toList)
      (first : l = .visualBasic → headIs isHexDigit digits = true)
      (digit : ∀ c ∈ digits, isHexDigitOrMark c = true)
      (letter : ∀ c ∈ letters, c.isAlpha = true)
      (digitsEnd : headIs isHexDigitOrMark (letters ++ rest) = false)
      (lettersEnd : headIs Char.isAlpha rest = false) :
      Integral l ⟨mark, digits, letters⟩ rest

variable {l : Language} {x : Numeral} {cs rest : List Char} {found : Lexeme}

/-! ## The lexeme of a numeral -/

def Numeral.lexeme (l : Language) (x : Numeral) : Lexeme :=
  match Reading.below? (Nat.pow 2 64) x.base (withoutMarks x.digits),
    l.numberSuffix? (String.ofList x.letters) with
  | some n, some u => ⟨.integerLiteral, x.text.length, some (.integer n u)⟩
  | _, _ => ⟨.error, x.text.length, none⟩

theorem ofDigits_eq (b : Nat) (ds : List Char) :
    Reading.ofDigits b ds = Nat.ofDigits b (ds.reverse.map Reading.digitValue) := by
  rw [Nat.ofDigits_eq_foldr, List.foldr_map, List.foldr_reverse, Reading.ofDigits]
  simp only [Nat.cast_id, Nat.add_comm, Nat.mul_comm]

namespace Numeral

theorem below?_eq_some_iff {n : Nat} :
    Reading.below? (Nat.pow 2 64) x.base (withoutMarks x.digits) = some n ↔
      withoutMarks x.digits ≠ [] ∧ x.number < 2 ^ 64 ∧ x.number = n := by
  have hlimit : Nat.pow 2 64 = 2 ^ 64 := rfl
  rw [Reading.below?, ofDigits_eq, hlimit]
  change (if _ then none else if x.number < _ then some x.number else none) = some n ↔ _
  cases withoutMarks x.digits with
  | nil => simp
  | cons d ds => simp [Option.ite_none_right_eq_some]

theorem lexeme_length (l : Language) (x : Numeral) : (x.lexeme l).length = x.text.length := by
  unfold lexeme
  split <;> rfl

/-- A numeral that denotes an integer is read as that integer. -/
theorem Denotes.lexeme_eq {u : NumberSuffix} (h : x.Denotes l u) :
    x.lexeme l = ⟨.integerLiteral, x.text.length, some (.integer x.number u)⟩ := by
  have hbelow := below?_eq_some_iff.mpr ⟨h.digits, h.fits, rfl⟩
  rw [lexeme, hbelow, h.suffix]

theorem lexeme_eq_error (h : ∀ u, ¬ x.Denotes l u) :
    x.lexeme l = ⟨.error, x.text.length, none⟩ := by
  unfold lexeme
  split
  · rename_i n u hbelow hsuffix
    obtain ⟨hdigits, hfits, -⟩ := below?_eq_some_iff.mp hbelow
    exact absurd ⟨hdigits, hfits, hsuffix⟩ (h u)
  · rfl

theorem exists_denotes_of_kind (h : (x.lexeme l).kind = .integerLiteral) :
    ∃ u, x.Denotes l u := by
  by_contra hnone
  rw [lexeme_eq_error (not_exists.mp hnone)] at h
  cases h

end Numeral

/-! ## Fractions and exponents -/

theorem pointAndDigit_iff : pointAndDigit cs = true ↔ BeginsFraction cs := by
  constructor
  · intro h
    unfold pointAndDigit at h
    split at h
    · rename_i tail
      cases tail with
      | nil => cases h
      | cons d rest => exact ⟨d, rest, rfl, by simpa [headIs] using h⟩
    · cases h
  · rintro ⟨d, rest, rfl, hd⟩
    simpa [pointAndDigit, headIs] using hd

theorem exponentDigit_iff : headIs Reading.isDigit (cs.drop (signLength cs)) = true ↔
    ∃ sign d rest, cs = sign ++ d :: rest ∧ (sign = [] ∨ sign = ['+'] ∨ sign = ['-']) ∧
      Reading.isDigit d = true := by
  constructor
  · intro h
    cases hsign : headIs (fun c => c == '+' || c == '-') cs with
    | false =>
        have hlength : signLength cs = 0 := by rw [signLength, hsign]; rfl
        rw [hlength, List.drop_zero] at h
        cases cs with
        | nil => cases h
        | cons d rest => exact ⟨[], d, rest, rfl, .inl rfl, by simpa [headIs] using h⟩
    | true =>
        have hlength : signLength cs = 1 := by rw [signLength, hsign]; rfl
        rw [hlength] at h
        cases cs with
        | nil => cases hsign
        | cons c cs =>
            have hc : c = '+' ∨ c = '-' := by simpa [headIs] using hsign
            cases cs with
            | nil => cases h
            | cons d rest =>
                exact ⟨[c], d, rest, rfl, .inr (by simpa using hc), by simpa [headIs] using h⟩
  · rintro ⟨sign, d, rest, rfl, hsign, hd⟩
    rcases hsign with rfl | rfl | rfl
    · have hlength : signLength ([] ++ d :: rest) = 0 := by
        have hplus : d ≠ '+' := by rintro rfl; cases hd
        have hminus : d ≠ '-' := by rintro rfl; cases hd
        simp [signLength, headIs, hplus, hminus]
      rw [hlength, List.drop_zero]
      simpa [headIs] using hd
    · simpa [signLength, headIs] using hd
    · simpa [signLength, headIs] using hd

theorem exponentLength_eq_zero_iff : exponentLength cs = 0 ↔ ¬ BeginsExponent cs := by
  have hbegins : BeginsExponent cs ↔ ∃ e tail, cs = e :: tail ∧ (e = 'e' ∨ e = 'E') ∧
      headIs Reading.isDigit (tail.drop (signLength tail)) = true := by
    constructor
    · rintro ⟨e, sign, d, rest, rfl, he, hsign, hd⟩
      exact ⟨e, _, rfl, he, exponentDigit_iff.mpr ⟨sign, d, rest, rfl, hsign, hd⟩⟩
    · rintro ⟨e, tail, rfl, he, hdigit⟩
      obtain ⟨sign, d, rest, rfl, hsign, hd⟩ := exponentDigit_iff.mp hdigit
      exact ⟨e, sign, d, rest, rfl, he, hsign, hd⟩
  rw [hbegins]
  cases cs with
  | nil => simp [exponentLength]
  | cons e tail =>
      rw [exponentLength_cons]
      by_cases he : e = 'e' ∨ e = 'E'
      · cases hdigit : headIs Reading.isDigit (tail.drop (signLength tail)) with
        | false => simp [hdigit]
        | true =>
            rw [if_pos he, if_pos rfl]
            refine iff_of_false (by omega) fun h => h ⟨e, tail, rfl, he, hdigit⟩
      · rw [if_neg he]
        refine iff_of_true rfl ?_
        rintro ⟨_, _, heq, he', -⟩
        cases heq
        exact he he'

/-! ## Reading a numeral -/

theorem headIs_append {p : Char → Bool} {xs : List Char} (h : headIs p xs = true)
    (ys : List Char) :
    headIs p (xs ++ ys) = true := by
  cases xs with
  | nil => cases h
  | cons c xs => exact h

/-- A decimal numeral is read off the head of the text. -/
theorem decimal_numeral {digits letters : List Char}
    (h : Integral l ⟨[], digits, letters⟩ rest) :
    decimal l.numberSuffix? (digits ++ (letters ++ rest)) =
      .ok (some (Numeral.lexeme l ⟨[], digits, letters⟩)) := by
  cases h with
  | hexadecimal marked => cases l <;> cases marked
  | decimal first digit letter digitsEnd lettersEnd whole plain notReal _ =>
      have hhead := headIs_append first (letters ++ rest)
      have hrun : runLength isDigitOrMark (digits ++ (letters ++ rest)) = digits.length := by
        rw [runLength, takeWhile_append digit digitsEnd]
      have hpoint : pointAndDigit (letters ++ rest) = false :=
        Bool.eq_false_iff.mpr (mt pointAndDigit_iff.mp whole)
      have hmantissa : mantissaLength (digits ++ (letters ++ rest)) = digits.length := by
        rw [mantissaLength, hrun, List.drop_left, fractionLength, hpoint]
        rfl
      have hletters := takeWhile_append letter lettersEnd
      rw [decimal, if_pos (by rw [hhead, Bool.true_or]), hrun, List.drop_left, hmantissa, hpoint]
      simp only [Bool.false_and, Bool.false_eq_true, if_false, List.drop_left,
        exponentLength_eq_zero_iff.mpr plain, Nat.add_zero, List.take_left, List.drop_zero,
        hletters]
      have hlength : digits.length + letters.length =
          (Numeral.text ⟨[], digits, letters⟩).length := by
        simp [Numeral.text]
      rw [hlength]
      cases hsuffix : l.numberSuffix? (String.ofList letters) with
      | none => simp [decimalLexeme, Numeral.lexeme, hsuffix]
      | some u =>
          simp only [decimalLexeme, notReal u hsuffix, Numeral.lexeme, hsuffix, Numeral.base]
          simp only [Bool.false_or, bne_self_eq_false, Bool.false_eq_true, if_false, if_true]
          cases Reading.below? (Nat.pow 2 64) 10 (withoutMarks digits) <;> rfl

/-- A hexadecimal numeral is read off the head of the text. -/
theorem hexadecimal_numeral {mark digits letters : List Char} (hmark : mark ≠ [])
    (digit : ∀ c ∈ digits, isHexDigitOrMark c = true)
    (letter : ∀ c ∈ letters, c.isAlpha = true)
    (digitsEnd : headIs isHexDigitOrMark (letters ++ rest) = false)
    (lettersEnd : headIs Char.isAlpha rest = false) :
    hexadecimal mark.length l.numberSuffix? (mark ++ (digits ++ (letters ++ rest))) =
      Numeral.lexeme l ⟨mark, digits, letters⟩ := by
  have hbase : (Numeral.mk mark digits letters).base = 16 := if_neg hmark
  have hdigits := takeWhile_append digit digitsEnd
  have hletters := takeWhile_append letter lettersEnd
  have hlength : mark.length + digits.length + letters.length =
      (Numeral.text ⟨mark, digits, letters⟩).length := by
    simp [Numeral.text, Nat.add_assoc]
  rw [hexadecimal]
  simp only [List.drop_left, hdigits, ← List.drop_drop, hletters, hlength]
  unfold Numeral.lexeme
  exact hbase.symm ▸ rfl

def number : Language → List Char → Found
  | .csharp => CSharp.number
  | .visualBasic => VisualBasic.number

theorem headIs_takeWhile {p q : Char → Bool} (h : headIs p cs = true)
    (hpq : ∀ c, p c = true → q c = true) : headIs p (cs.takeWhile q) = true := by
  cases cs with
  | nil => cases h
  | cons c cs =>
      have hc : p c = true := by simpa [headIs] using h
      simp [hpq c hc, headIs, hc]

theorem decimalLexeme_integer {digits : List Char} {hasPoint : Bool} {length : Nat}
    {suffix : Option NumberSuffix}
    (h : (decimalLexeme digits hasPoint length suffix).kind = .integerLiteral) :
    hasPoint = false ∧ ∀ u, suffix = some u → u.isReal = false := by
  unfold decimalLexeme at h
  split at h
  · cases h
  · rename_i u
    dsimp only at h
    split at h
    · split at h <;> cases h
    · rename_i hreal
      rw [Bool.or_eq_true, not_or] at hreal
      exact ⟨by simpa using hreal.1, by rintro _ ⟨⟩; simpa using hreal.2⟩

/-- What is read as an integer without a mark is a decimal numeral. -/
theorem exists_of_decimal (h : decimal l.numberSuffix? cs = .ok (some found))
    (hkind : found.kind = .integerLiteral)
    (unmarked : l = .csharp → startsIgnoringCase "0x" cs = false) :
    ∃ x rest, cs = x.text ++ rest ∧ Integral l x rest := by
  obtain ⟨hstart, -, -⟩ := decimal_length h
  unfold decimal at h
  rw [if_pos hstart] at h
  dsimp only at h
  split at h
  · cases h
  cases h
  obtain ⟨hpoint, hreal⟩ := decimalLexeme_integer hkind
  rw [Bool.or_eq_false_iff] at hpoint
  obtain ⟨hwhole, hexponent⟩ := hpoint
  have hmantissa : mantissaLength cs = runLength isDigitOrMark cs := by
    simp [mantissaLength, fractionLength, hwhole]
  have hnone : exponentLength (cs.dropWhile isDigitOrMark) = 0 := by
    simpa [hmantissa, drop_runLength] using hexponent
  have hfirst : headIs Reading.isDigit (cs.takeWhile isDigitOrMark) = true := by
    rcases Bool.or_eq_true_iff.mp hstart with hdigit | hpoint
    · exact headIs_takeWhile hdigit fun c hc => by simp [isDigitOrMark, hc]
    · -- a number that begins with its point has a fraction
      obtain ⟨rest, rfl⟩ := exists_point hpoint
      have hhead : pointAndDigit ('.' :: rest) = false := hwhole
      rw [hhead] at hpoint
      cases hpoint
  rw [drop_runLength] at hwhole
  rw [hmantissa, drop_runLength, hnone, List.drop_zero] at hreal
  have hsplit : cs = cs.takeWhile isDigitOrMark ++ ((cs.dropWhile isDigitOrMark).takeWhile
      Char.isAlpha ++ (cs.dropWhile isDigitOrMark).dropWhile Char.isAlpha) := by
    rw [List.takeWhile_append_dropWhile, List.takeWhile_append_dropWhile]
  refine ⟨⟨[], cs.takeWhile isDigitOrMark, (cs.dropWhile isDigitOrMark).takeWhile Char.isAlpha⟩,
    (cs.dropWhile isDigitOrMark).dropWhile Char.isAlpha, ?_, .decimal hfirst mem_takeWhile
      mem_takeWhile ?_ (headIs_dropWhile _ _) ?_ ?_ hreal ?_⟩
  · rw [Numeral.text, List.nil_append, List.append_assoc]
    exact hsplit
  · rw [List.takeWhile_append_dropWhile]
    exact headIs_dropWhile _ _
  · rw [List.takeWhile_append_dropWhile, ← pointAndDigit_iff, hwhole]
    exact Bool.false_ne_true
  · rw [List.takeWhile_append_dropWhile]
    exact exponentLength_eq_zero_iff.mp hnone
  · rwa [← hsplit]

theorem hexadecimalMark_length (l : Language) : l.hexadecimalMark.length = 2 := by
  cases l <;> rfl

/-- What is read behind the mark of a hexadecimal number is a numeral. -/
theorem exists_of_hexadecimal (marked : startsIgnoringCase l.hexadecimalMark cs = true)
    (first : l = .visualBasic → headIs isHexDigit (cs.drop 2) = true) :
    ∃ x rest, cs = x.text ++ rest ∧ Integral l x rest := by
  have hmark := beq_iff_eq.mp marked
  rw [hexadecimalMark_length] at hmark
  refine ⟨⟨cs.take 2, (cs.drop 2).takeWhile isHexDigitOrMark,
    ((cs.drop 2).dropWhile isHexDigitOrMark).takeWhile Char.isAlpha⟩,
    ((cs.drop 2).dropWhile isHexDigitOrMark).dropWhile Char.isAlpha, ?_, .hexadecimal hmark
      (fun hl => headIs_takeWhile (first hl) fun c hc => by simp [isHexDigitOrMark, hc])
      mem_takeWhile mem_takeWhile ?_ (headIs_dropWhile _ _)⟩
  · simp only [Numeral.text, List.append_assoc, List.takeWhile_append_dropWhile,
      List.take_append_drop]
  · rw [List.takeWhile_append_dropWhile]
    exact headIs_dropWhile _ _

theorem Numeral.text_append (x : Numeral) (rest : List Char) :
    x.text ++ rest = x.mark ++ (x.digits ++ (x.letters ++ rest)) := by
  simp only [Numeral.text, List.append_assoc]

theorem number_numeral (h : Integral l x rest) :
    number l (x.text ++ rest) = .ok (some (x.lexeme l)) := by
  rw [Numeral.text_append]
  cases h with
  | @decimal digits letters rest first digit letter digitsEnd lettersEnd whole plain notReal
      unmarked =>
      have hdecimal := decimal_numeral (.decimal first digit letter digitsEnd lettersEnd whole plain
        notReal unmarked)
      cases l with
      | csharp =>
          refine (if_neg ?_).trans hdecimal
          rw [List.nil_append, unmarked rfl]
          exact Bool.false_ne_true
      | visualBasic =>
          obtain ⟨d, ds, rfl⟩ :=
            List.exists_cons_of_ne_nil (l := digits) (by rintro rfl; cases first)
          have hd : Reading.isDigit d = true := by simpa [headIs] using first
          have hmark : startsIgnoringCase "&h" (d :: (ds ++ (letters ++ rest))) = false :=
            DualSyntax.VisualBasic.startsIgnoringCase_of_isDigit hd rfl rfl _
          refine (if_neg ?_).trans hdecimal
          rw [List.nil_append, List.cons_append, hmark, Bool.false_and]
          exact Bool.false_ne_true
  | @hexadecimal mark digits letters rest marked first digit letter digitsEnd lettersEnd =>
      have hlength : mark.length = 2 := by
        rw [← List.length_map, marked, String.length_toList, hexadecimalMark_length]
      have hmark : startsIgnoringCase l.hexadecimalMark
          (mark ++ (digits ++ (letters ++ rest))) = true := by
        refine beq_iff_eq.mpr ?_
        rw [hexadecimalMark_length, ← hlength, List.take_left, marked]
      have hne : mark ≠ [] := List.ne_nil_of_length_pos (by omega)
      have hread := hexadecimal_numeral (l := l) hne digit letter digitsEnd lettersEnd
      rw [hlength] at hread
      cases l with
      | csharp =>
          rw [← hread]
          exact if_pos hmark
      | visualBasic =>
          have hdrop : (mark ++ (digits ++ (letters ++ rest))).drop 2 =
              digits ++ (letters ++ rest) := by
            rw [← hlength, List.drop_left]
          have hhead := headIs_append (first rfl) (letters ++ rest)
          rw [← hread]
          refine if_pos ?_
          rw [hdrop, hhead, Bool.and_true]
          exact hmark

/-- What the rule for numbers reads as an integer is a numeral. -/
theorem exists_of_number (h : number l cs = .ok (some found))
    (hkind : found.kind = .integerLiteral) :
    ∃ x rest, cs = x.text ++ rest ∧ Integral l x rest := by
  cases l with
  | csharp =>
      rw [number, CSharp.number] at h
      split at h
      · rename_i hmark
        exact exists_of_hexadecimal hmark fun hl => by cases hl
      · rename_i hmark
        exact exists_of_decimal h hkind fun _ => Bool.eq_false_iff.mpr hmark
  | visualBasic =>
      rw [number, VisualBasic.number] at h
      split at h
      · rename_i hmark
        rw [Bool.and_eq_true] at hmark
        exact exists_of_hexadecimal hmark.1 fun _ => hmark.2
      · exact exists_of_decimal h hkind fun hl => by cases hl

/-! ## The lexeme at the head of the text -/

/-- A numeral begins with a digit, or in VB with the mark of a hexadecimal number. -/
theorem Integral.head (h : Integral l x rest) : ∃ c tail, x.text ++ rest = c :: tail ∧
    (Reading.isDigit c = true ∨ (l = .visualBasic ∧ c = '&')) := by
  rw [Numeral.text_append]
  cases h with
  | @decimal digits letters rest first =>
      obtain ⟨d, ds, rfl⟩ := List.exists_cons_of_ne_nil (l := digits) (by rintro rfl; cases first)
      exact ⟨d, ds ++ (letters ++ rest), rfl, .inl (by simpa [headIs] using first)⟩
  | @hexadecimal mark digits letters rest marked =>
      obtain ⟨c, mark, rfl⟩ := List.exists_cons_of_ne_nil (l := mark) (by
        rintro rfl
        cases l <;> cases marked)
      refine ⟨c, mark ++ (digits ++ (letters ++ rest)), rfl, ?_⟩
      have hhead : c.toLower = (if l = .csharp then '0' else '&') := by
        have hcons := congrArg List.head? marked
        cases l <;> simpa [Language.hexadecimalMark] using hcons
      cases l with
      | csharp =>
          obtain rfl : c = '0' := (toLower_eq_iff rfl c).mp hhead
          exact .inl rfl
      | visualBasic => exact .inr ⟨rfl, (toLower_eq_iff rfl c).mp hhead⟩

theorem ne_feed_of_isDigit {c : Char} (h : Reading.isDigit c = true) : c ≠ '\n' := by
  rintro rfl
  cases h

/-- In every context a numeral at the head of the text is read as its lexeme. -/
theorem next_numeral (h : Integral l x rest) (cx : Context) :
    next l cx (x.text ++ rest) = .ok (false, x.lexeme l) := by
  have hnumber := number_numeral h
  obtain ⟨c, tail, hcons, hc⟩ := h.head
  rw [hcons] at hnumber ⊢
  refine next_token_iff.mpr ⟨?_, some (x.lexeme l), ?_, rfl⟩
  · cases l with
    | csharp =>
        rcases hc with hc | ⟨hl, -⟩
        · exact DualSyntax.CSharp.trivia_of_isDigit hc tail
        · cases hl
    | visualBasic =>
        rcases hc with hc | ⟨-, rfl⟩
        · exact congrArg Except.ok (DualSyntax.VisualBasic.trivia_of_isDigit hc tail _ _)
        · rfl
  · cases l with
    | csharp =>
        have hrule : CSharp.number (c :: tail) = .ok (some (x.lexeme .csharp)) := hnumber
        simp only [tokenAt, CSharp.token, firstOf, hrule]
    | visualBasic =>
        have hfeed : c ≠ '\n' := by
          rcases hc with hc | ⟨-, rfl⟩
          · exact ne_feed_of_isDigit hc
          · decide
        have hbreak : VisualBasic.lineBreak (c :: tail) = .ok none := by
          simp [VisualBasic.lineBreak, headIs, hfeed]
        have hrule : VisualBasic.number (c :: tail) = .ok (some (x.lexeme .visualBasic)) := hnumber
        simp only [tokenAt, VisualBasic.token, firstOf, hbreak, hrule]

theorem word_not_integer (h : word l cs = .ok (some found)) : found.kind ≠ .integerLiteral := by
  unfold word at h
  split at h
  · cases h
    cases hkeyword : l.keyword? (String.ofList (cs.takeWhile isNameBody)) with
    | none => nofun
    | some k => exact keyword_ne (by cases l <;> decide) (by cases l <;> decide) hkeyword
  · cases h

theorem symbol_not_integer {table : List (String × TokenKind)}
    (ht : table.all (fun e => e.2 != .integerLiteral) = true)
    (h : symbol table cs = .ok (some found)) : found.kind ≠ .integerLiteral := by
  obtain ⟨e, he, rfl⟩ := Option.map_eq_some_iff.mp (Except.ok.inj h)
  simpa using List.all_eq_true.mp ht e (List.mem_of_find?_eq_some he)

theorem charLexeme_not_integer {value text : List Char}
    (h : charLexeme value text = .ok (some found)) : found.kind ≠ .integerLiteral := by
  unfold charLexeme at h
  split at h <;> cases h
  nofun

theorem CSharp.number_of_token (h : CSharp.token cs = .ok (some found))
    (hkind : found.kind = .integerLiteral) : CSharp.number cs = .ok (some found) := by
  obtain ⟨rule, hrule, hfound⟩ := exists_of_firstOf h
  simp only [List.mem_cons, List.not_mem_nil, or_false] at hrule
  rcases hrule with rfl | rfl | rfl | rfl | rfl | rfl | rfl
  · exact hfound
  · unfold verbatimString at hfound
    split at hfound
    · obtain ⟨⟨value, n⟩, -, hlexeme⟩ := exists_of_bind hfound
      cases hlexeme
      cases hkind
    · cases hfound
  · unfold string at hfound
    split at hfound
    · obtain ⟨⟨value, n⟩, -, hlexeme⟩ := exists_of_bind hfound
      cases hlexeme
      cases hkind
    · cases hfound
  · unfold character at hfound
    split at hfound
    · obtain ⟨⟨value, n⟩, -, hlexeme⟩ := exists_of_bind hfound
      exact absurd hkind (charLexeme_not_integer hlexeme)
    · cases hfound
  · unfold escapedName at hfound
    split at hfound
    · split at hfound <;> cases hfound
      cases hkind
    · cases hfound
  · exact absurd hkind (word_not_integer hfound)
  · exact absurd hkind (symbol_not_integer (by decide) hfound)

theorem VisualBasic.number_of_token (h : VisualBasic.token cs = .ok (some found))
    (hkind : found.kind = .integerLiteral) : VisualBasic.number cs = .ok (some found) := by
  obtain ⟨rule, hrule, hfound⟩ := exists_of_firstOf h
  simp only [List.mem_cons, List.not_mem_nil, or_false] at hrule
  rcases hrule with rfl | rfl | rfl | rfl | rfl | rfl
  · unfold lineBreak at hfound
    split at hfound <;> cases hfound
    cases hkind
  · exact hfound
  · unfold string at hfound
    split at hfound
    · obtain ⟨⟨value, n⟩, -, hlexeme⟩ := CSharp.exists_of_bind hfound
      dsimp only at hlexeme
      split at hlexeme
      · exact absurd hkind (charLexeme_not_integer hlexeme)
      · cases hlexeme
        cases hkind
    · cases hfound
  · unfold escapedName at hfound
    split at hfound
    · split at hfound
      · cases hfound
        split at hkind <;> cases hkind
      · cases hfound
    · cases hfound
  · exact absurd hkind (word_not_integer hfound)
  · exact absurd hkind (symbol_not_integer (by decide) hfound)

theorem exists_of_next {cx : Context} (h : next l cx cs = .ok (false, found))
    (hkind : found.kind = .integerLiteral) :
    ∃ x rest, cs = x.text ++ rest ∧ Integral l x rest ∧ found = x.lexeme l := by
  obtain ⟨-, answer, htoken, hanswer⟩ := next_token_iff.mp h
  cases answer with
  | none =>
      rw [← hanswer] at hkind
      cases hkind
  | some y =>
      obtain rfl : y = found := hanswer
      have hnumber : number l cs = .ok (some y) := by
        cases l with
        | csharp => exact CSharp.number_of_token htoken hkind
        | visualBasic => exact VisualBasic.number_of_token htoken hkind
      obtain ⟨x, rest, rfl, hx⟩ := exists_of_number hnumber hkind
      have hagain := h.symm.trans (next_numeral hx cx)
      cases hagain
      exact ⟨x, rest, rfl, hx, rfl⟩

end Lexing

open Lexing

/-- A text that is a numeral is a single token. -/
theorem tokenize_numeral {l : Language} {x : Numeral} (h : Integral l x []) :
    tokenize l x.text = .ok (.single x.text (x.lexeme l).kind (x.lexeme l).value) := by
  obtain ⟨c, tail, hcons, -⟩ := h.head
  rw [List.append_nil] at hcons
  have hnext := next_numeral h {}
  rw [List.append_nil] at hnext
  exact tokenize_lexeme (hcons ▸ List.cons_ne_nil c tail) hnext (Numeral.lexeme_length l x)

/-- A token that is an integer literal is a numeral that denotes its value, and a numeral at the
start of a piece of the text is a single token: the integer that it denotes, or an error. -/
theorem integerLiterals_exact {l : Language} {src : List Char} {s : TokenStream}
    (h : tokenize l src = .ok s) :
    (∀ t ∈ s.tokens.toList, t.kind = .integerLiteral → ∃ (x : Numeral) (u : NumberSuffix)
      (before rest : List Char), src = before ++ (x.text ++ rest) ∧ Integral l x rest ∧
        x.Denotes l u ∧
        t.span = ⟨Text.byteLength before, Text.byteLength before + Text.byteLength x.text⟩ ∧
        t.text = String.ofList x.text ∧ t.value = some (.integer x.number u)) ∧
    ∀ (x : Numeral) (before rest : List Char), src = before ++ (x.text ++ rest) →
      Integral l x rest → (∃ p ∈ s.pieces, p.1.start = Text.byteLength before) →
      ∃ t ∈ s.tokens.toList,
        t.span = ⟨Text.byteLength before, Text.byteLength before + Text.byteLength x.text⟩ ∧
        t.text = String.ofList x.text ∧
        (∀ u, x.Denotes l u → t.kind = .integerLiteral ∧ t.value = some (.integer x.number u)) ∧
        ((∀ u, ¬ x.Denotes l u) → t.kind = .error ∧ t.value = none) := by
  have hscan := scanned_of_tokenize h
  have hoffset : ({} : Context).offset = Text.byteLength [] := rfl
  constructor
  · intro t ht hkind
    obtain ⟨cx, found, before, text, rest, ⟨hsrc, hplace, hcuts⟩, rfl⟩ :=
      hscan.token_at hoffset t ht (by rw [hkind]; nofun)
    obtain ⟨x, tail, hsplit, hx, hfound⟩ := exists_of_next hcuts.next hkind
    have htext : text = x.text := by
      rw [hcuts.text_eq, hsplit, hfound, Numeral.lexeme_length, List.take_left]
    subst htext
    obtain rfl : rest = tail := List.append_cancel_left hsplit
    obtain ⟨u, hu⟩ : ∃ u, x.Denotes l u := Numeral.exists_denotes_of_kind (hfound ▸ hkind)
    refine ⟨x, u, before, rest, hsrc, hx, hu, ?_, rfl, ?_⟩
    · rw [← hplace]
      rfl
    · change found.value = _
      rw [hfound, hu.lexeme_eq]
  · rintro x before rest hsrc hx ⟨p, hp, hstart⟩
    rw [pieces_of_tokenize h] at hp
    obtain ⟨c, tail, hcons, -⟩ := hx.head
    rcases hscan.piece_at hoffset p hp with hend | hpending | hcut
    · have hpos := Text.byteLength_pos (List.cons_ne_nil c tail)
      rw [List.nil_append, hstart, hsrc, Text.byteLength_append, hcons] at hend
      omega
    · cases hpending
    · obtain ⟨cx, isTrivia, found, start, text, rest', ⟨hsrc', hplace, hcuts⟩, hbegin, hmem⟩ := hcut
      have hsplit : before ++ (x.text ++ rest) = start ++ (text ++ rest') := hsrc.symm.trans hsrc'
      obtain ⟨rfl, hhere⟩ := Text.split_unique hsplit (hstart.symm.trans hbegin)
      have hnext := hcuts.next
      rw [← hhere, next_numeral hx] at hnext
      cases hnext
      have htext : text = x.text := by
        rw [hcuts.text_eq, ← hhere, Numeral.lexeme_length, List.take_left]
      subst htext
      refine ⟨_, hmem rfl, ?_, rfl, fun u hu => ?_, fun hno => ?_⟩
      · rw [← hplace]
        rfl
      · exact ⟨congrArg Lexeme.kind hu.lexeme_eq, congrArg Lexeme.value hu.lexeme_eq⟩
      · have herror := Numeral.lexeme_eq_error hno
        exact ⟨congrArg Lexeme.kind herror, congrArg Lexeme.value herror⟩

/-- The greatest integer that fits, in hexadecimal digits, and the next one in decimal digits. -/
theorem integerLiterals_exact_limit :
    (∃ s t, tokenize .csharp "0xFFFF_FFFF_FFFF_FFFFul".toList = .ok s ∧ t ∈ s.tokens.toList ∧
      t.kind = .integerLiteral ∧ t.value = some (.integer (2 ^ 64 - 1) .ulong)) ∧
    (∃ s t, tokenize .csharp "18446744073709551616".toList = .ok s ∧ t ∈ s.tokens.toList ∧
      t.text = "18446744073709551616" ∧ t.kind = .error ∧ t.value = none) := by
  constructor
  · let x : Numeral := ⟨"0x".toList, "FFFF_FFFF_FFFF_FFFF".toList, "ul".toList⟩
    have hx : Integral .csharp x [] :=
      .hexadecimal (by decide) nofun (List.all_eq_true.mp rfl) (List.all_eq_true.mp rfl) rfl rfl
    have hs := tokenize_numeral hx
    have hu : x.Denotes .csharp .ulong := ⟨by decide, by decide +kernel, by decide +kernel⟩
    obtain ⟨t, ht, -, -, hinteger, -⟩ := (integerLiterals_exact hs).2 x [] [] (by simp) hx
      ⟨_, List.mem_cons_self, rfl⟩
    obtain ⟨hkind, hvalue⟩ := hinteger _ hu
    have hnumber : x.number = 2 ^ 64 - 1 := by decide
    exact ⟨_, t, hs, ht, hkind, hnumber ▸ hvalue⟩
  · let x : Numeral := ⟨[], "18446744073709551616".toList, []⟩
    have hx : Integral .csharp x [] := by
      refine .decimal rfl (List.all_eq_true.mp rfl) nofun rfl rfl nofun ?_ ?_ fun _ => rfl
      · rintro ⟨_, _, _, _, h, -⟩
        cases h
      · intro u hu
        have hnone : Language.csharp.numberSuffix? (String.ofList []) = some .none := by
          decide +kernel
        cases hnone.symm.trans hu
        rfl
    have hs := tokenize_numeral hx
    have hlarge : ¬ x.number < 2 ^ 64 := by decide
    obtain ⟨t, ht, -, htext, -, herror⟩ := (integerLiterals_exact hs).2 x [] [] (by simp) hx
      ⟨_, List.mem_cons_self, rfl⟩
    obtain ⟨hkind, hvalue⟩ := herror fun u hu => hlarge hu.fits
    exact ⟨_, t, hs, ht, htext, hkind, hvalue⟩

end DualSyntax
