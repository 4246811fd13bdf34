import DualSyntax.Proofs.Lexing.Gaps
import Mathlib.Data.List.Basic

/-!
# The lexemes of VB in lower case

The case of its letters does not matter to how a VB text is cut into lexemes.  Every scanning rule
answers to a text in lower case what it answers to the text itself, up to the case of the letters of
strings and characters (`Blind`).
-/

namespace DualSyntax

/-- The text with its ASCII letters in lower case. -/
def Text.folded (cs : List Char) : List Char := cs.map Char.toLower

namespace Lexing

open Text (folded)

/-! ## Letters in lower case -/

def capitals : List Char := "ABCDEFGHIJKLMNOPQRSTUVWXYZ".toList

theorem toLower_or_capital (c : Char) : c.toLower = c ∨ c ∈ capitals := by
  unfold Char.toLower
  split
  · rename_i h
    right
    have hrange : ∀ n ∈ List.range' 65 26, Char.ofNat n ∈ capitals := by decide
    have hc := hrange c.toNat (by
      rw [List.mem_range'_1]
      exact ⟨h.1, Nat.lt_succ_of_le h.2⟩)
    rwa [Char.ofNat_toNat] at hc
  · exact .inl rfl

/-- A function of characters that does not see their case. -/
def Caseless {α : Type} (f : Char → α) : Prop := ∀ c, f c.toLower = f c

/-- A function that takes the same value at both cases of every letter. -/
theorem Caseless.of_capitals {α : Type} {f : Char → α}
    (h : capitals.map (f ∘ Char.toLower) = capitals.map f) : Caseless f := by
  intro c
  rcases toLower_or_capital c with hc | hc
  · rw [hc]
  · exact List.map_inj_left.mp h c hc

theorem toLower_caseless : Caseless Char.toLower := .of_capitals rfl

theorem utf8Size_caseless : Caseless Char.utf8Size := .of_capitals rfl

theorem digitValue_caseless : Caseless Reading.digitValue := .of_capitals rfl

theorem isNameStart_caseless : Caseless isNameStart := .of_capitals rfl

theorem isNameBody_caseless : Caseless isNameBody := .of_capitals rfl

theorem isDigit_caseless : Caseless Reading.isDigit := .of_capitals rfl

theorem isDigitOrMark_caseless : Caseless isDigitOrMark := .of_capitals rfl

theorem isHexDigit_caseless : Caseless isHexDigit := .of_capitals rfl

theorem isHexDigitOrMark_caseless : Caseless isHexDigitOrMark := .of_capitals rfl

theorem isAlpha_caseless : Caseless Char.isAlpha := .of_capitals rfl

/-! ## Runs of characters -/

section Runs

variable {p : Char → Bool} (hp : Caseless p)
include hp

theorem takeWhile_folded (cs : List Char) : (folded cs).takeWhile p = folded (cs.takeWhile p) := by
  rw [folded, List.takeWhile_map, folded, show p ∘ Char.toLower = p from funext hp]

theorem dropWhile_folded (cs : List Char) : (folded cs).dropWhile p = folded (cs.dropWhile p) := by
  rw [folded, List.dropWhile_map, folded, show p ∘ Char.toLower = p from funext hp]

theorem runLength_folded (cs : List Char) : runLength p (folded cs) = runLength p cs := by
  rw [runLength, takeWhile_folded hp, folded, List.length_map, runLength]

theorem headIs_folded (cs : List Char) : headIs p (folded cs) = headIs p cs := by
  cases cs with
  | nil => rfl
  | cons c cs => exact hp c

theorem all_folded (cs : List Char) : (folded cs).all p = cs.all p := by
  rw [folded, List.all_map, show p ∘ Char.toLower = p from funext hp]

end Runs

@[simp] theorem folded_nil : folded [] = [] := rfl

@[simp] theorem folded_cons (c : Char) (cs : List Char) :
    folded (c :: cs) = c.toLower :: folded cs := rfl

@[simp] theorem folded_append (cs ds : List Char) : folded (cs ++ ds) = folded cs ++ folded ds :=
  List.map_append

@[simp] theorem length_folded (cs : List Char) : (folded cs).length = cs.length := List.length_map _

@[simp] theorem folded_isEmpty (cs : List Char) : (folded cs).isEmpty = cs.isEmpty := by
  cases cs <;> rfl

theorem drop_folded (n : Nat) (cs : List Char) : (folded cs).drop n = folded (cs.drop n) :=
  List.map_drop.symm

theorem take_folded (n : Nat) (cs : List Char) : (folded cs).take n = folded (cs.take n) :=
  List.map_take.symm

theorem folded_folded (cs : List Char) : folded (folded cs) = folded cs := by
  rw [folded, folded, List.map_map, show Char.toLower ∘ Char.toLower = Char.toLower from
    funext toLower_caseless]

theorem byteLength_folded (cs : List Char) : Text.byteLength (folded cs) = Text.byteLength cs := by
  induction cs with
  | nil => rfl
  | cons c cs ih => rw [folded_cons, Text.byteLength, Text.byteLength, ih, utf8Size_caseless c]

theorem toLower_ofList (cs : List Char) :
    (String.ofList cs).toLower = String.ofList (folded cs) := by
  rw [← String.toList_inj, String.toList_ofList]
  change ((String.ofList cs).map Char.toLower).toList = _
  rw [String.toList_map, String.toList_ofList, folded]

/-- A character that is no letter stands for itself in a text in lower case. -/
theorem toLower_eq_iff {d : Char} (hd : d.isAlpha = false) (c : Char) : c.toLower = d ↔ c = d := by
  rcases toLower_or_capital c with hc | hc
  · rw [hc]
  · have hletter : ∀ c ∈ capitals, c.isAlpha = true := List.all_eq_true.mp rfl
    constructor
    · rintro rfl
      rw [isAlpha_caseless, hletter c hc] at hd
      cases hd
    · rintro rfl
      rw [hletter c hc] at hd
      cases hd

theorem beq_caseless {d : Char} (hd : d.isAlpha = false) : Caseless (· == d) := by
  intro c
  rw [Bool.eq_iff_iff, beq_iff_eq, beq_iff_eq, toLower_eq_iff hd]

theorem Caseless.or {p q : Char → Bool} (hp : Caseless p) (hq : Caseless q) :
    Caseless fun c => p c || q c := by
  intro c
  dsimp only
  rw [hp c, hq c]

theorem startsIgnoringCase_folded (word : String) (cs : List Char) :
    startsIgnoringCase word (folded cs) = startsIgnoringCase word cs := by
  change (folded (folded cs |>.take word.length) == word.toList) = _
  rw [take_folded, folded_folded]
  rfl

theorem isPrefixOf_folded {sign : List Char}
    (hsign : ∀ c ∈ sign, c.isAlpha = false) (cs : List Char) :
    sign.isPrefixOf (folded cs) = sign.isPrefixOf cs := by
  induction sign generalizing cs with
  | nil => simp
  | cons d sign ih =>
      cases cs with
      | nil => rfl
      | cons c cs =>
          have hhead : (d == c.toLower) = (d == c) := by
            rw [Bool.eq_iff_iff, beq_iff_eq, beq_iff_eq, eq_comm,
              toLower_eq_iff (hsign d (by simp)), eq_comm]
          rw [folded_cons, List.isPrefixOf_cons_cons, List.isPrefixOf_cons_cons, hhead,
            ih fun c hc => hsign c (List.mem_cons_of_mem d hc)]

end Lexing

/-- A value without the case of the letters that it denotes. -/
def LiteralValue.folded : LiteralValue → LiteralValue
  | .string s => .string (String.ofList (Text.folded s.toList))
  | .char c => .char c.toLower
  | value => value

namespace Lexing

open Text (folded)

/-- A lexeme without the case of the letters that it denotes. -/
def Lexeme.folded (x : Lexeme) : Lexeme := { x with value := x.value.map LiteralValue.folded }

/-- A rule that does not see the case of letters. -/
def Blind (rule : List Char → Found) : Prop :=
  ∀ cs, rule (folded cs) = (rule cs).map (Option.map Lexeme.folded)

/-! ## Numbers -/

/-- A table of suffixes that does not see the case of letters. -/
def BlindSuffix (suffix? : String → Option NumberSuffix) : Prop :=
  ∀ cs, suffix? (String.ofList (folded cs)) = suffix? (String.ofList cs)

theorem withoutMarks_folded (cs : List Char) :
    withoutMarks (folded cs) = folded (withoutMarks cs) := by
  have hmark : Caseless (· != '_') := .of_capitals rfl
  rw [withoutMarks, folded, List.filter_map, show (· != '_') ∘ Char.toLower = (· != '_') from
    funext hmark, withoutMarks, folded]

theorem ofDigits_folded (base : Nat) (ds : List Char) :
    Reading.ofDigits base (folded ds) = Reading.ofDigits base ds := by
  rw [Reading.ofDigits, folded, List.foldl_map]
  simp only [digitValue_caseless _]
  rfl

theorem below?_folded (limit base : Nat) (ds : List Char) :
    Reading.below? limit base (folded ds) = Reading.below? limit base ds := by
  simp [Reading.below?, ofDigits_folded]

theorem exponentMark_folded (c : Char) :
    (c.toLower = 'e' ∨ c.toLower = 'E') = (c = 'e' ∨ c = 'E') := by
  have hmark : Caseless fun c => c == 'e' || c == 'E' := .of_capitals rfl
  simpa only [Bool.or_eq_true, beq_iff_eq] using congrArg (· = true) (hmark c)

/-- The sign at the head of a numeral, whether it is negative, and what follows it. -/
def signed : List Char → Bool × List Char
  | '+' :: cs => (false, cs)
  | '-' :: cs => (true, cs)
  | cs => (false, cs)

theorem signed_cons {c : Char} (hplus : c ≠ '+') (hminus : c ≠ '-') (cs : List Char) :
    signed (c :: cs) = (false, c :: cs) := by
  rw [signed]
  · exact fun _ h => hplus (List.cons.inj h).1
  · exact fun _ h => hminus (List.cons.inj h).1

theorem signed_folded (cs : List Char) :
    signed (folded cs) = ((signed cs).1, folded (signed cs).2) := by
  cases cs with
  | nil => rfl
  | cons c cs =>
      by_cases hplus : c = '+'
      · subst hplus
        rfl
      · by_cases hminus : c = '-'
        · subst hminus
          rfl
        · have hplus' : c.toLower ≠ '+' := fun h => hplus ((toLower_eq_iff rfl c).mp h)
          have hminus' : c.toLower ≠ '-' := fun h => hminus ((toLower_eq_iff rfl c).mp h)
          rw [folded_cons, signed_cons hplus' hminus', signed_cons hplus hminus, folded_cons]

theorem exponent?_cons (c : Char) (cs : List Char) :
    Reading.exponent? (c :: cs) = if c = 'e' ∨ c = 'E' then
      if (signed cs).2.isEmpty || !(signed cs).2.all Reading.isDigit then none
      else some (if (signed cs).1 then -(Reading.ofDigits 10 (signed cs).2 : Int)
        else Reading.ofDigits 10 (signed cs).2)
      else none := by
  unfold Reading.exponent? signed
  rfl

theorem exponent?_folded (cs : List Char) :
    Reading.exponent? (folded cs) = Reading.exponent? cs := by
  cases cs with
  | nil => rfl
  | cons c cs =>
      rw [folded_cons, exponent?_cons, exponent?_cons]
      refine if_congr (iff_of_eq (exponentMark_folded c)) ?_ rfl
      rw [signed_folded, folded_isEmpty, all_folded isDigit_caseless, ofDigits_folded]

theorem pointAndDigit_folded (cs : List Char) :
    pointAndDigit (folded cs) = pointAndDigit cs := by
  have hpoint (c : Char) : (c.toLower == '.') = (c == '.') := beq_caseless rfl c
  cases cs with
  | nil => rfl
  | cons c cs =>
      rw [folded_cons, pointAndDigit_cons, pointAndDigit_cons, headIs_folded isDigit_caseless,
        hpoint c]

theorem fractionLength_folded (cs : List Char) : fractionLength (folded cs) = fractionLength cs := by
  rw [fractionLength, pointAndDigit_folded, drop_folded, runLength_folded isDigitOrMark_caseless,
    fractionLength]

theorem mantissaLength_folded (cs : List Char) :
    mantissaLength (folded cs) = mantissaLength cs := by
  simp only [mantissaLength, runLength_folded isDigitOrMark_caseless, drop_folded,
    fractionLength_folded]

theorem signLength_folded (cs : List Char) : signLength (folded cs) = signLength cs := by
  rw [signLength, headIs_folded ((beq_caseless rfl).or (beq_caseless rfl)), signLength]

theorem exponentLength_folded (cs : List Char) :
    exponentLength (folded cs) = exponentLength cs := by
  cases cs with
  | nil => rfl
  | cons e cs =>
      rw [folded_cons, exponentLength_cons, exponentLength_cons]
      refine if_congr (iff_of_eq (exponentMark_folded e)) ?_ rfl
      rw [signLength_folded, drop_folded, headIs_folded isDigit_caseless,
        runLength_folded isDigitOrMark_caseless]

/-- The fraction at the head of what follows the whole part of a numeral, and what follows it. -/
def fraction : List Char → List Char × List Char
  | '.' :: cs => (cs.takeWhile Reading.isDigit, cs.dropWhile Reading.isDigit)
  | cs => ([], cs)

theorem fraction_folded (cs : List Char) :
    fraction (folded cs) = (folded (fraction cs).1, folded (fraction cs).2) := by
  cases cs with
  | nil => rfl
  | cons c cs =>
      by_cases hpoint : c = '.'
      · subst hpoint
        change (List.takeWhile _ (folded cs), List.dropWhile _ (folded cs)) = _
        rw [takeWhile_folded isDigit_caseless, dropWhile_folded isDigit_caseless]
        rfl
      · have hother : ∀ d ds, d ≠ '.' → fraction (d :: ds) = ([], d :: ds) := by
          intro d ds hd
          rw [fraction]
          exact fun _ h => hd (List.cons.inj h).1
        have hpoint' : c.toLower ≠ '.' := fun h => hpoint ((toLower_eq_iff rfl c).mp h)
        rw [folded_cons, hother _ _ hpoint', hother _ _ hpoint]
        rfl

theorem unsigned?_eq (cs : List Char) : Reading.unsigned? cs =
    let found := fraction (cs.dropWhile Reading.isDigit)
    if (cs.takeWhile Reading.isDigit).isEmpty && found.1.isEmpty then none
    else (Reading.exponent? found.2).map fun e =>
      Reading.nearest (Reading.ofDigits 10 (cs.takeWhile Reading.isDigit ++ found.1))
        (e - found.1.length) := by
  unfold Reading.unsigned? fraction
  rfl

theorem unsigned?_folded (cs : List Char) :
    Reading.unsigned? (folded cs) = Reading.unsigned? cs := by
  rw [unsigned?_eq, unsigned?_eq]
  simp only [takeWhile_folded isDigit_caseless, dropWhile_folded isDigit_caseless, fraction_folded,
    folded_isEmpty, exponent?_folded, ← folded_append, ofDigits_folded, length_folded]

theorem real?_eq (cs : List Char) : Reading.real? (String.ofList cs) =
    let name := String.ofList (folded (signed cs).2)
    (if name == "inf" || name == "infinity" then some (1.0 / 0.0)
      else if name == "nan" then some (0.0 / 0.0)
      else Reading.unsigned? (signed cs).2).map fun x => if (signed cs).1 then -x else x := by
  unfold Reading.real? signed
  rw [String.toList_ofList]
  rfl

theorem real?_folded (cs : List Char) :
    Reading.real? (String.ofList (folded cs)) = Reading.real? (String.ofList cs) := by
  rw [real?_eq, real?_eq]
  simp only [signed_folded, folded_folded, unsigned?_folded]

theorem decimalLexeme_folded (digits : List Char) (hasPoint : Bool) (length : Nat)
    (suffix : Option NumberSuffix) :
    decimalLexeme (folded digits) hasPoint length suffix =
      (decimalLexeme digits hasPoint length suffix).folded := by
  cases suffix with
  | none => rfl
  | some suffix =>
      simp only [decimalLexeme, withoutMarks_folded, real?_folded, below?_folded]
      split <;> split <;> rfl

theorem decimal_blind {suffix? : String → Option NumberSuffix} (h : BlindSuffix suffix?) :
    Blind (decimal suffix?) := by
  intro cs
  unfold decimal
  simp only [headIs_folded isDigit_caseless, pointAndDigit_folded, drop_folded, take_folded,
    runLength_folded isDigitOrMark_caseless, mantissaLength_folded, exponentLength_folded,
    takeWhile_folded isAlpha_caseless, length_folded, h _, decimalLexeme_folded]
  split
  · split <;> rfl
  · rfl

theorem hexadecimal_blind {suffix? : String → Option NumberSuffix} (h : BlindSuffix suffix?)
    (mark : Nat) (cs : List Char) :
    hexadecimal mark suffix? (folded cs) = (hexadecimal mark suffix? cs).folded := by
  unfold hexadecimal
  simp only [drop_folded, takeWhile_folded isHexDigitOrMark_caseless, length_folded,
    takeWhile_folded isAlpha_caseless, withoutMarks_folded, below?_folded, h _]
  split <;> rfl

/-! ## Words, symbols and texts between quotes -/

theorem normalize_folded (cs : List Char) :
    Language.visualBasic.normalize (String.ofList (folded cs)) =
      Language.visualBasic.normalize (String.ofList cs) := by
  change (String.ofList (folded cs)).toLower = (String.ofList cs).toLower
  rw [toLower_ofList, toLower_ofList, folded_folded]

theorem keyword?_folded (cs : List Char) :
    Language.visualBasic.keyword? (String.ofList (folded cs)) =
      Language.visualBasic.keyword? (String.ofList cs) := by
  simp only [Language.keyword?, Language.findWord, normalize_folded]

theorem booleanValue?_folded (k : TokenKind) :
    (booleanValue? k).map LiteralValue.folded = booleanValue? k := by
  unfold booleanValue?
  split <;> rfl

theorem word_blind : Blind (word .visualBasic) := by
  intro cs
  unfold word
  simp only [headIs_folded isNameStart_caseless, takeWhile_folded isNameBody_caseless,
    keyword?_folded, length_folded]
  split
  · simp [Except.map, Lexeme.folded, booleanValue?_folded]
  · rfl

def Unlettered (table : List (String × TokenKind)) : Bool :=
  table.all fun e => e.1.toList.all fun c => !c.isAlpha

theorem symbol_blind {table : List (String × TokenKind)} (ht : Unlettered table = true) :
    Blind (symbol table) := by
  intro cs
  have hsame : (table.find? fun e => e.1.toList.isPrefixOf (folded cs)) =
      table.find? fun e => e.1.toList.isPrefixOf cs := by
    induction table with
    | nil => rfl
    | cons e table ih =>
        rw [Unlettered, List.all_cons, Bool.and_eq_true, List.all_eq_true] at ht
        have hsign := isPrefixOf_folded (fun c hc => by simpa using ht.1 c hc) cs
        rw [List.find?_cons, List.find?_cons, hsign, ih ht.2]
  rw [symbol, symbol, hsame]
  cases table.find? _ <;> rfl

theorem doubledQuoteBody_cons {c : Char} (hc : c ≠ '"') (lineBreaks : Bool) (o : Nat)
    (cs : List Char) : doubledQuoteBody lineBreaks o (c :: cs) =
      if c = '\n' ∧ lineBreaks = false then .error ⟨.unterminatedString, ⟨0, o⟩⟩
      else (doubledQuoteBody lineBreaks (o + c.utf8Size) cs).map
        fun (value, n) => (c :: value, n + 1) := by
  rw [doubledQuoteBody]
  · exact fun _ h => absurd h hc
  · exact hc

theorem doubledQuoteBody_quote {cs : List Char} (hcs : headIs (· == '"') cs = false)
    (lineBreaks : Bool) (o : Nat) : doubledQuoteBody lineBreaks o ('"' :: cs) = .ok ([], 1) := by
  rw [doubledQuoteBody]
  rintro ds rfl
  cases hcs

theorem doubledQuoteBody_folded (lineBreaks : Bool) (o : Nat) (cs : List Char) :
    doubledQuoteBody lineBreaks o (folded cs) =
      (doubledQuoteBody lineBreaks o cs).map fun found => (folded found.1, found.2) := by
  have hquote : '"'.toLower = '"' := rfl
  have hother {c : Char} (hc : c ≠ '"') : c.toLower ≠ '"' :=
    fun h => hc ((toLower_eq_iff rfl c).mp h)
  have hbreak (c : Char) : c.toLower = '\n' ↔ c = '\n' := toLower_eq_iff rfl c
  fun_induction doubledQuoteBody lineBreaks o cs with
  | case1 => rfl
  | case2 o cs ih =>
      rw [folded_cons, folded_cons, hquote, doubledQuoteBody, ih]
      cases doubledQuoteBody lineBreaks (o + 2) cs <;> rfl
  | case3 o tail hpair =>
      have hsingle : headIs (· == '"') (folded tail) = false := by
        rw [headIs_folded (beq_caseless rfl)]
        cases tail with
        | nil => rfl
        | cons d tail => simpa [headIs] using fun hd => hpair tail (by rw [hd])
      rw [folded_cons, hquote, doubledQuoteBody_quote hsingle]
      rfl
  | case4 o c cs hpair hc hline =>
      rw [folded_cons, doubledQuoteBody_cons (hother hc), if_pos (by rwa [hbreak])]
      rfl
  | case5 o c cs hpair hc hline ih =>
      rw [folded_cons, doubledQuoteBody_cons (hother hc), if_neg (by rwa [hbreak]),
        utf8Size_caseless, ih]
      cases doubledQuoteBody lineBreaks (o + c.utf8Size) cs <;> rfl

theorem blanks_folded {isBlank : Char → Bool} (h : Caseless isBlank) (cs : List Char) :
    blanks isBlank (folded cs) = (blanks isBlank cs).map Lexeme.folded := by
  rw [blanks, headIs_folded h, runLength_folded h, blanks]
  split <;> rfl

theorem lineLength_folded (cs : List Char) : lineLength (folded cs) = lineLength cs := by
  have hbreak : Caseless (· != '\n') := .of_capitals rfl
  have hreturn (line : List Char) :
      (folded line).getLast? = some '\r' ↔ line.getLast? = some '\r' := by
    rw [folded, List.getLast?_map, Option.map_eq_some_iff]
    constructor
    · rintro ⟨c, hc, hlower⟩
      rw [hc, (toLower_eq_iff rfl c).mp hlower]
    · exact fun hc => ⟨'\r', hc, rfl⟩
  simp only [lineLength, takeWhile_folded hbreak, hreturn, length_folded]

namespace VisualBasic

theorem suffix?_blind : BlindSuffix suffix? := by
  intro cs
  rw [suffix?, toLower_ofList, folded_folded, ← toLower_ofList, suffix?]

theorem number_blind : Blind number := by
  intro cs
  rw [number, startsIgnoringCase_folded, drop_folded, headIs_folded isHexDigit_caseless,
    hexadecimal_blind suffix?_blind, decimal_blind suffix?_blind, number]
  split <;> rfl

theorem lineBreak_blind : Blind lineBreak := by
  intro cs
  rw [lineBreak, headIs_folded (beq_caseless rfl), lineBreak]
  split <;> rfl

theorem escapedName_blind : Blind escapedName := by
  intro cs
  cases cs with
  | nil => rfl
  | cons c cs =>
      have hclose : Caseless (· == ']') := beq_caseless rfl
      by_cases hopen : c = '['
      · subst hopen
        change escapedName ('[' :: folded cs) = _
        simp only [escapedName, headIs_folded isNameStart_caseless,
          runLength_folded isNameBody_caseless, drop_folded, headIs_folded hclose]
        split
        · split <;> rfl
        · rfl
      · have hother {d : Char} (hd : d ≠ '[') (ds : List Char) : escapedName (d :: ds) = .ok none := by
          rw [escapedName]
          exact fun _ h => hd (List.cons.inj h).1
        rw [folded_cons, hother hopen,
          hother fun h => hopen ((toLower_eq_iff rfl c).mp h)]
        rfl

theorem charLexeme_folded (value text : List Char) :
    charLexeme (folded value) (folded text) =
      (charLexeme value text).map (Option.map Lexeme.folded) := by
  match value with
  | [] | _ :: _ :: _ => simp [charLexeme, byteLength_folded, Except.map]
  | [c] => simp [charLexeme, Except.map, Lexeme.folded, LiteralValue.folded]

theorem string_blind : Blind string := by
  intro cs
  cases cs with
  | nil => rfl
  | cons c cs =>
      by_cases hquote : c = '"'
      · subst hquote
        change string ('"' :: folded cs) = _
        rw [string, doubledQuoteBody_folded, string]
        cases doubledQuoteBody false 1 cs with
        | error fault => rfl
        | ok found =>
            have hmark : Caseless fun c => c == 'c' || c == 'C' := .of_capitals rfl
            simp only [Except.map, bind, Except.bind, drop_folded, headIs_folded hmark,
              headIs_folded isNameBody_caseless, take_folded]
            split
            · exact charLexeme_folded _ ('"' :: cs.take (found.2 + 1))
            · simp [pure, Except.pure, Lexeme.folded, LiteralValue.folded]
      · have hother {d : Char} (hd : d ≠ '"') (ds : List Char) : string (d :: ds) = .ok none := by
          rw [string]
          exact fun _ h => hd (List.cons.inj h).1
        rw [folded_cons, hother hquote,
          hother fun h => hquote ((toLower_eq_iff rfl c).mp h)]
        rfl

theorem comment_folded (cs : List Char) :
    comment (folded cs) = (comment cs).map Lexeme.folded := by
  have hdoc : ∀ c ∈ "'''".toList, c.isAlpha = false := by simp
  have hmark : ∀ c ∈ "'".toList, c.isAlpha = false := by simp
  rw [comment, isPrefixOf_folded hdoc, isPrefixOf_folded hmark, lineLength_folded,
    startsIgnoringCase_folded, drop_folded, headIs_folded isNameBody_caseless, comment]
  split
  · rfl
  · split <;> rfl

theorem closesBracket_folded (cs : List Char) : closesBracket (folded cs) = closesBracket cs := by
  rw [closesBracket, dropWhile_folded (.of_capitals rfl),
    headIs_folded ((beq_caseless rfl).or (beq_caseless rfl)), closesBracket]

theorem innerLineBreak_folded (last : Option TokenKind) (cs : List Char) :
    innerLineBreak last (folded cs) = (innerLineBreak last cs).map Lexeme.folded := by
  rw [innerLineBreak, headIs_folded (beq_caseless rfl), closesBracket_folded,
    innerLineBreak]
  split <;> rfl

/-- What may follow the blanks after a continuation mark. -/
def continuationEnd (n : Nat) : List Char → Option Lexeme
  | [] => some ⟨.lineContinuation, 1 + n, none⟩
  | '\n' :: _ => some ⟨.lineContinuation, 2 + n, none⟩
  | _ => none

theorem continuation_cons (before : Option Char) (c : Char) (cs : List Char) :
    continuation before (c :: cs) =
      if c = '_' ∧ before.any (fun b => b == ' ' || b == '\t') then
        continuationEnd (runLength isBlank cs) (cs.drop (runLength isBlank cs))
      else none := by
  by_cases hc : c = '_'
  · subst hc
    cases before with
    | none => rfl
    | some b =>
        simp only [continuation, Option.any_some, Bool.or_eq_true, beq_iff_eq, true_and]
        rfl
  · rw [if_neg fun h => hc h.1, continuation]
    exact fun _ h => hc (List.cons.inj h).1

theorem continuationEnd_folded (n : Nat) (cs : List Char) :
    continuationEnd n (folded cs) = (continuationEnd n cs).map Lexeme.folded := by
  cases cs with
  | nil => rfl
  | cons c cs =>
      by_cases hc : c = '\n'
      · subst hc
        rfl
      · have hother {d : Char} (hd : d ≠ '\n') (ds : List Char) :
            continuationEnd n (d :: ds) = none := by
          rw [continuationEnd]
          · nofun
          · exact fun _ h => hd (List.cons.inj h).1
        rw [folded_cons, hother hc, hother fun h => hc ((toLower_eq_iff rfl c).mp h)]
        rfl

theorem isBlank_caseless : Caseless isBlank := .of_capitals rfl

theorem continuation_folded (before : Option Char) (cs : List Char) :
    continuation (before.map Char.toLower) (folded cs) =
      (continuation before cs).map Lexeme.folded := by
  have hmark : Caseless fun b => b == ' ' || b == '\t' := (beq_caseless rfl).or (beq_caseless rfl)
  cases cs with
  | nil => rfl
  | cons c cs =>
      have hbefore : (before.map Char.toLower).any (fun b => b == ' ' || b == '\t') =
          before.any fun b => b == ' ' || b == '\t' := by
        cases before with
        | none => rfl
        | some b => exact hmark b
      rw [folded_cons, continuation_cons, continuation_cons, hbefore,
        runLength_folded isBlank_caseless, drop_folded, continuationEnd_folded]
      simp only [toLower_eq_iff (d := '_') rfl]
      split <;> rfl

theorem trivia_folded (before : Option Char) (last : Option TokenKind) (cs : List Char) :
    trivia (before.map Char.toLower) last (folded cs) =
      (trivia before last cs).map Lexeme.folded := by
  simp only [trivia, blanks_folded isBlank_caseless, continuation_folded, comment_folded,
    innerLineBreak_folded, Option.map_or]

end VisualBasic

theorem firstOf_blind {rules : List (List Char → Found)} (h : ∀ rule ∈ rules, Blind rule) :
    Blind fun cs => firstOf cs rules := by
  intro cs
  induction rules with
  | nil => rfl
  | cons rule rules ih =>
      dsimp only [firstOf] at ih ⊢
      rw [h rule (by simp) cs, ih fun r hr => h r (List.mem_cons_of_mem rule hr)]
      cases rule cs with
      | error fault => rfl
      | ok found => cases found <;> rfl

theorem VisualBasic.token_blind : Blind VisualBasic.token := by
  refine firstOf_blind ?_
  simp only [List.forall_mem_cons, List.not_mem_nil, false_implies, implies_true, and_true]
  exact ⟨lineBreak_blind, number_blind, string_blind, escapedName_blind, word_blind,
    symbol_blind (by decide)⟩

end Lexing

end DualSyntax
