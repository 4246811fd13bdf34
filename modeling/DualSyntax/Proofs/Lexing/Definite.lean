import DualSyntax.Proofs.Decimal.Numbers
import DualSyntax.Proofs.Lexing.Folding
import DualSyntax.Proofs.Lexing.Gaps
import DualSyntax.Proofs.Lexing.Lossless
import DualSyntax.Proofs.Lexing.Meaning
import DualSyntax.Proofs.Lexing.Pieces

/-!
# The tokens of a respaced text

The texts of the tokens of a C# source, joined by single spaces, have the same tokens again
(`tokenize_respaced`): what stands between the tokens of a source does not matter to what they are.

Real numbers are compared as numbers, and a value that is no number differs from itself.  No token
of C# denotes such a value.
-/

namespace DualSyntax

section Respaced

open Lexing

def Token.sign (t : Token) : Sign := ⟨t.text.toList, t.kind, t.value⟩

namespace TokenStream

/-- The tokens of a stream without their places in the text, the end marker included. -/
def signs (s : TokenStream) : List Sign := s.tokens.toList.map Token.sign

/-- The texts of the tokens before the end marker, joined by single spaces. -/
def respaced (s : TokenStream) : List Char :=
  [' '].intercalate ((s.signs.filter (·.kind != .eof)).map Sign.text)

end TokenStream

/-- The tokens of a text are the end marker, and those found at the head of what remains of the
text. -/
theorem tokenize_found {l : Language} {src : List Char} {s : TokenStream}
    (h : tokenize l src = .ok s) : ∀ t ∈ s.tokens.toList,
      t.sign = ⟨[], .eof, none⟩ ∨ ∃ cx c cs found, next l cx (c :: cs) = .ok (false, found) ∧
        t.sign = ⟨(c :: cs).take found.length, found.kind, found.value⟩ := by
  refine (scanned_of_tokenize h).forall_mem (fun cx => .inl rfl) ?_
  intro cx found text rest hcuts
  obtain ⟨c, cs, hsplit⟩ : ∃ c cs, text ++ rest = c :: cs :=
    List.exists_cons_of_ne_nil (by simp [hcuts.ne_nil])
  refine .inr ⟨cx, c, cs, found, hsplit ▸ hcuts.next, ?_⟩
  rw [← hsplit, ← hcuts.text_eq]
  simp [Token.sign, Context.token]

theorem tokenize_end {l : Language} {src : List Char} {s : TokenStream}
    (h : tokenize l src = .ok s) {t : Token} (ht : t ∈ s.tokens.toList) (hkind : t.kind = .eof) :
    t.sign = ⟨[], .eof, none⟩ := by
  rcases tokenize_found h t ht with hend | ⟨cx, c, cs, found, hnext, hsign⟩
  · exact hend
  · have hfound : t.kind = found.kind := congrArg Sign.kind hsign
    exact absurd (hfound.symm.trans hkind) (next_proper hnext).kind_ne

/-- A token that is read off its own text wherever a gap follows it. -/
structure Sign.Settled (s : Sign) : Prop where
  ne_nil : s.text ≠ []
  next : ∀ cx rest, Gap rest →
    Lexing.next .csharp cx (s.text ++ rest) = .ok (false, ⟨s.kind, s.text.length, s.value⟩)

theorem Sign.Settled.of_next {cx : Context} {c : Char} {cs : List Char} {found : Lexeme}
    (h : Lexing.next .csharp cx (c :: cs) = .ok (false, found)) :
    Settled ⟨(c :: cs).take found.length, found.kind, found.value⟩ := by
  obtain ⟨hle, hagain⟩ := next_firm h
  have hpos := (next_proper h).pos
  have hlength : ((c :: cs).take found.length).length = found.length := by
    rw [List.length_take, Nat.min_eq_left hle]
  refine ⟨List.ne_nil_of_length_pos (by dsimp only; omega), fun cx rest hrest => ?_⟩
  dsimp only
  rw [hagain cx rest hrest, hlength]

namespace Piece

def spaced : List Sign → List Piece
  | [] => []
  | [s] => [.sign s]
  | s :: t :: rest => .sign s :: .blank :: spaced (t :: rest)

theorem signs_spaced (ss : List Sign) : signs (spaced ss) = ss := by
  fun_induction spaced ss with
  | case1 => rfl
  | case2 s => rfl
  | case3 s t rest ih => simp [ih]

theorem textOf_spaced (ss : List Sign) :
    textOf (spaced ss) = [' '].intercalate (ss.map Sign.text) := by
  fun_induction spaced ss with
  | case1 => rfl
  | case2 s => simp [text]
  | case3 s t rest ih => simp [ih, text]

theorem textOf_spaced_cons (s : Sign) (ss : List Sign) :
    ∃ rest, Gap rest ∧ textOf (spaced (s :: ss)) = s.text ++ rest := by
  cases ss with
  | nil => exact ⟨[], .nil, by simp [spaced, text]⟩
  | cons t ss => exact ⟨' ' :: textOf (spaced (t :: ss)), .space _, by simp [spaced, text]⟩

theorem lexes_spaced {ss : List Sign} (h : ∀ s ∈ ss, s.Settled) (before : Option Char) :
    Lexes .csharp before (spaced ss) [] := by
  fun_induction spaced ss generalizing before with
  | case1 => trivial
  | case2 s =>
      have hs := h s (by simp)
      exact ⟨⟨hs.ne_nil, fun cx _ => hs.next cx _ .nil⟩, trivial⟩
  | case3 s t rest ih =>
      have hs := h s (by simp)
      have ht := h t (by simp)
      refine ⟨⟨hs.ne_nil, fun cx _ => hs.next cx _ (.space _)⟩, fun cx => ?_, ih ?_ _⟩
      · obtain ⟨gap, hgap, htext⟩ := textOf_spaced_cons t rest
        obtain ⟨c, cs, hc⟩ := List.exists_cons_of_ne_nil ht.ne_nil
        have hnext := ht.next {} gap hgap
        rw [List.append_nil, htext, hc, List.cons_append]
        rw [hc, List.cons_append] at hnext
        exact next_space hnext
      · exact fun s hs => h s (List.mem_cons_of_mem _ hs)

end Piece

/-- The tokens of a source before the end marker, which comes last and nowhere else. -/
theorem tokenize_signs {l : Language} {src : List Char} {s : TokenStream}
    (h : tokenize l src = .ok s) :
    s.signs = s.signs.filter (·.kind != .eof) ++ [⟨[], .eof, none⟩] := by
  obtain ⟨init, last, pieces, hts, hinit, hlast, -, -⟩ := tokenize_spec h
  have hend : last.sign = ⟨[], .eof, none⟩ := tokenize_end h (by simp [hts]) hlast.kind
  have hkeep : (init.map Token.sign).filter (·.kind != .eof) = init.map Token.sign := by
    simpa [List.filter_eq_self, Token.sign] using hinit
  simp [TokenStream.signs, hts, hkeep, hend]

theorem Sign.Prints.sign_eq {s : Sign} {t : Token} (h : s.Prints t) : t.sign = s := by
  obtain ⟨hkind, htext, hvalue⟩ := h
  cases s
  simp_all [Token.sign]

theorem map_sign_of_prints {ss : List Sign} {ts : List Token}
    (h : List.Forall₂ Sign.Prints ss ts) : ts.map Token.sign = ss := by
  induction h with
  | nil => rfl
  | cons hsign _ ih => rw [List.map_cons, hsign.sign_eq, ih]

open Piece in
/-- Joining the texts of the tokens of a C# source by single spaces keeps the tokens. -/
theorem tokenize_respaced {src : List Char} {s : TokenStream} (h : tokenize .csharp src = .ok s) :
    ∃ s', tokenize .csharp s.respaced = .ok s' ∧ s'.signs = s.signs := by
  have hsettled : ∀ sign ∈ s.signs.filter (·.kind != .eof), sign.Settled := by
    intro sign hsign
    obtain ⟨hmem, hkind⟩ := List.mem_filter.mp hsign
    obtain ⟨t, ht, rfl⟩ := List.mem_map.mp hmem
    rcases tokenize_found h t ht with hend | ⟨cx, c, cs, found, hnext, hfound⟩
    · rw [hend] at hkind
      cases hkind
    · exact hfound ▸ .of_next hnext
  obtain ⟨s', ts, last, hs', htokens, hlast, hprints⟩ :=
    tokenize_pieces (lexes_spaced hsettled none)
  rw [textOf_spaced] at hs'
  rw [signs_spaced] at hprints
  have hend : last.sign = ⟨[], .eof, none⟩ := tokenize_end hs' (by simp [htokens]) hlast
  refine ⟨s', hs', ?_⟩
  rw [tokenize_signs h, TokenStream.signs, htokens, List.map_append, map_sign_of_prints hprints,
    List.map_singleton, hend]

end Respaced

/-! ## The values of tokens -/

def LiteralValue.Definite (v : LiteralValue) : Prop := (v == v) = true

theorem LiteralValue.Definite.real {x : Float} (h : (x == x) = true) (suffix : NumberSuffix) :
    (LiteralValue.real x suffix).Definite := by
  change (x == x && suffix == suffix) = true
  rw [h, beq_self_eq_true]
  rfl

theorem LiteralValue.Definite.integer (n : Nat) (suffix : NumberSuffix) :
    (LiteralValue.integer n suffix).Definite := by
  change (n == n && suffix == suffix) = true
  rw [beq_self_eq_true, beq_self_eq_true]
  rfl

theorem LiteralValue.Definite.null : LiteralValue.null.Definite := rfl

theorem LiteralValue.Definite.string (s : String) : (LiteralValue.string s).Definite :=
  beq_self_eq_true s

theorem LiteralValue.Definite.char (c : Char) : (LiteralValue.char c).Definite := beq_self_eq_true c

theorem LiteralValue.Definite.boolean (b : Bool) : (LiteralValue.boolean b).Definite :=
  beq_self_eq_true b

namespace Lexing

/-- A lexeme whose value, if it has one, is equal to itself. -/
def Lexeme.Definite (x : Lexeme) : Prop := ∀ v ∈ x.value, v.Definite

/-- An answer whose lexeme denotes nothing that differs from itself. -/
def Definite (found : Found) : Prop := ∀ x, found = .ok (some x) → x.Definite

theorem Definite.none : Definite (.ok none) := by
  intro x h
  cases h

theorem Definite.some {x : Lexeme} (h : x.Definite) : Definite (.ok (some x)) := by
  rintro y ⟨⟩
  exact h

theorem Definite.error (fault : LexFault) : Definite (.error fault) := by
  intro x h
  cases h

theorem Definite.bind {α : Type} {body : Except LexFault α} {f : α → Found}
    (h : ∀ a, Definite (f a)) : Definite (body >>= f) := by
  cases body with
  | error fault => exact .error fault
  | ok a => exact h a

theorem Lexeme.Definite.bare (k : TokenKind) (n : Nat) : Definite ⟨k, n, none⟩ := by
  intro v hv
  cases hv

theorem Lexeme.Definite.of_value {k : TokenKind} {n : Nat} {v : LiteralValue} (h : v.Definite) :
    Definite ⟨k, n, some v⟩ := by
  rintro w ⟨⟩
  exact h

/-- A text that begins with a digit or a point spells no word. -/
theorem name_ne_word {c : Char} (hc : (Reading.isDigit c || c == '.') = true) (cs : List Char)
    {d : Char} {ds : List Char} (hd : (Reading.isDigit d || d == '.') = false) :
    (String.ofList (Text.folded (c :: cs)) == String.ofList (d :: ds)) = false := by
  have hcaseless : Caseless fun c => Reading.isDigit c || c == '.' :=
    isDigit_caseless.or (beq_caseless rfl)
  rw [beq_eq_false_iff_ne, ne_eq, String.ofList_inj, folded_cons, List.cons.injEq]
  rintro ⟨rfl, -⟩
  have hsame : (Reading.isDigit c.toLower || c.toLower == '.') = (Reading.isDigit c || c == '.') :=
    hcaseless c
  rw [hsame, hc] at hd
  cases hd

/-- A numeral that begins with a digit or a point denotes a number. -/
theorem real?_beq_self {c : Char} {cs : List Char} (hc : (Reading.isDigit c || c == '.') = true)
    {x : Float} (h : Reading.real? (String.ofList (c :: cs)) = some x) : (x == x) = true := by
  have hsigned : signed (c :: cs) = (false, c :: cs) := by
    refine signed_cons ?_ ?_ cs
    · rintro rfl
      cases hc
    · rintro rfl
      cases hc
  have hinf : (String.ofList (Text.folded (c :: cs)) == "inf") = false := name_ne_word hc cs rfl
  have hinfinity : (String.ofList (Text.folded (c :: cs)) == "infinity") = false :=
    name_ne_word hc cs rfl
  have hnan : (String.ofList (Text.folded (c :: cs)) == "nan") = false := name_ne_word hc cs rfl
  rw [real?_eq] at h
  simp only [hsigned, hinf, hinfinity, hnan, Bool.or_self, Bool.false_eq_true, if_false,
    Option.map_id_fun', id_eq] at h
  exact Reading.unsigned?_beq_self h

theorem decimalLexeme_definite {c : Char} {digits : List Char}
    (hc : (Reading.isDigit c || c == '.') = true) (hasPoint : Bool) (length : Nat)
    (suffix : Option NumberSuffix) :
    (decimalLexeme (c :: digits) hasPoint length suffix).Definite := by
  have hmark : c ≠ '_' := by
    rintro rfl
    cases hc
  have htext : withoutMarks (c :: digits) = c :: withoutMarks digits := by
    simp [withoutMarks, hmark]
  cases suffix with
  | none => exact .bare _ _
  | some suffix =>
      simp only [decimalLexeme, htext]
      split
      · split
        · rename_i x hx
          exact .of_value (.real (real?_beq_self hc hx) suffix)
        · exact .bare _ _
      · split
        · exact .of_value (.integer _ _)
        · exact .bare _ _

theorem decimal_definite (suffix? : String → Option NumberSuffix) (cs : List Char) :
    Definite (decimal suffix? cs) := by
  unfold decimal
  split
  · rename_i hstart
    dsimp only
    split
    · exact .error _
    · have hpos := mantissaLength_pos hstart
      cases cs with
      | nil => cases hstart
      | cons c cs =>
          have hc : (Reading.isDigit c || c == '.') = true := by
            rw [pointAndDigit_cons] at hstart
            rcases Bool.or_eq_true _ _ ▸ hstart with hdigit | hpoint
            · have hdigit : Reading.isDigit c = true := hdigit
              simp [hdigit]
            · rw [Bool.and_eq_true] at hpoint
              simp [hpoint.1]
          obtain ⟨n, hn⟩ : ∃ n, mantissaLength (c :: cs) +
              exponentLength ((c :: cs).drop (mantissaLength (c :: cs))) = n + 1 :=
            ⟨_, (Nat.succ_pred_eq_of_pos (by omega)).symm⟩
          rw [hn, List.take_succ_cons]
          exact .some (decimalLexeme_definite hc _ _ _)
  · exact .none

theorem hexadecimal_definite (mark : Nat) (suffix? : String → Option NumberSuffix)
    (cs : List Char) : (hexadecimal mark suffix? cs).Definite := by
  unfold hexadecimal
  dsimp only
  split
  · exact .of_value (.integer _ _)
  · exact .bare _ _

theorem word_definite (l : Language) (cs : List Char) : Definite (word l cs) := by
  unfold word
  split
  · refine .some ?_
    intro v hv
    dsimp only [booleanValue?] at hv
    split at hv
    · cases hv
      exact .boolean true
    · cases hv
      exact .boolean false
    · cases hv
  · exact .none

theorem symbol_definite (table : List (String × TokenKind)) (cs : List Char) :
    Definite (symbol table cs) := by
  intro x hx
  obtain ⟨e, -, rfl⟩ := Option.map_eq_some_iff.mp (Except.ok.inj hx)
  exact .bare _ _

theorem charLexeme_definite (value text : List Char) : Definite (charLexeme value text) := by
  unfold charLexeme
  split
  · exact .some (.of_value (.char _))
  · exact .error _

theorem CSharp.token_definite (cs : List Char) : Definite (CSharp.token cs) := by
  intro x h
  obtain ⟨rule, hrule, hfound⟩ := exists_of_firstOf h
  refine (?_ : Definite (rule cs)) x hfound
  simp only [List.mem_cons, List.not_mem_nil, or_false] at hrule
  rcases hrule with rfl | rfl | rfl | rfl | rfl | rfl | rfl
  · unfold CSharp.number
    split
    · exact .some (hexadecimal_definite _ _ _)
    · exact decimal_definite _ _
  · unfold CSharp.verbatimString
    split
    · exact .bind fun _ => .some (.of_value (.string _))
    · exact .none
  · unfold CSharp.string
    split
    · exact .bind fun _ => .some (.of_value (.string _))
    · exact .none
  · unfold CSharp.character
    split
    · exact .bind fun _ => charLexeme_definite _ _
    · exact .none
  · unfold CSharp.escapedName
    split
    · split
      · exact .some (.bare _ _)
      · exact .none
    · exact .none
  · exact word_definite _ _
  · exact symbol_definite _ _

end Lexing

/-- Every value that a token of a C# text denotes is equal to itself. -/
theorem tokenize_definite {src : List Char} {s : TokenStream} (h : tokenize .csharp src = .ok s) :
    ∀ t ∈ s.tokens.toList, ∀ v ∈ t.value, v.Definite := by
  intro t ht v hv
  rcases tokenize_found h t ht with hend | ⟨cx, c, cs, found, hnext, hsign⟩
  · have hvalue : t.value = none := congrArg Sign.value hend
    rw [hvalue] at hv
    cases hv
  · have hvalue : t.value = found.value := congrArg Sign.value hsign
    obtain ⟨-, answer, htoken, rfl⟩ := Lexing.next_token_iff.mp hnext
    rw [hvalue] at hv
    cases answer with
    | none => cases hv
    | some x => exact Lexing.CSharp.token_definite (c :: cs) x htoken v hv

end DualSyntax
