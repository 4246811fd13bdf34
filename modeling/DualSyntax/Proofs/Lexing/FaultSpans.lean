import DualSyntax.Proofs.Lexing.EscapedStrings
import DualSyntax.Proofs.Lexing.Lossless

/-!
# Where lexical errors stand

The span of a lexical error is a part of the text that it is reported for, with one exception.  The
error at a backslash that begins no escape counts the character after the backslash as one byte; if
there is none, or one of several bytes, the span ends where the text cannot be cut, and the message
that quotes the text cannot be made (`fault_span_valid_iff`).
-/

namespace DualSyntax

namespace Lexing

open Text

variable {l : Language} {src cs : List Char} {f : LexFault} {o : Nat}

/-- The span of an error is a part of the text. -/
def Located (src : List Char) (f : LexFault) : Prop :=
  ∃ before text after, src = before ++ (text ++ after) ∧
    f.span = ⟨byteLength before, byteLength before + byteLength text⟩

/-- The error at a backslash that no character of one byte follows.  Its span ends one byte after
the backslash all the same. -/
def CutEscape (src : List Char) (f : LexFault) : Prop :=
  ∃ before rest, src = before ++ '\\' :: rest ∧ (rest.head?.all fun c => 1 < c.utf8Size) = true ∧
    f = ⟨.invalidEscape, ⟨byteLength before, byteLength before + 2⟩⟩

/-- Where the errors of a language stand. -/
def FaultIn (l : Language) (src : List Char) (f : LexFault) : Prop :=
  Located src f ∨ (l = .csharp ∧ CutEscape src f)

/-! ## Cutting out the span -/

/-- A span that is a part of the text can be cut out of it. -/
theorem Located.text?_isSome (h : Located src f) : (f.span.text? src).isSome = true := by
  obtain ⟨before, text, after, rfl, hspan⟩ := h
  rw [hspan, Span.text?_append]
  rfl

/-- One byte after a cut backslash the text cannot be cut. -/
theorem CutEscape.not_boundary (h : CutEscape src f) : ¬ IsBoundary src f.span.stop := by
  obtain ⟨before, rest, rfl, hrest, rfl⟩ := h
  rintro ⟨longer, after, hsplit, hlength⟩
  have hslash : byteLength (before ++ ['\\']) = byteLength before + 1 := byteLength_append ..
  have hsplit' : (before ++ ['\\']) ++ rest = longer ++ after := by
    rw [← hsplit, List.append_assoc, List.singleton_append]
  have hle : byteLength (before ++ ['\\']) ≤ byteLength longer := by
    rw [hslash, hlength]
    exact Nat.le_succ _
  obtain ⟨mid, rfl, rfl⟩ := exists_of_byteLength_le hsplit' hle
  have hmid : byteLength mid = 1 := by
    rw [byteLength_append, hslash] at hlength
    change byteLength before + 1 + byteLength mid = byteLength before + 2 at hlength
    omega
  cases mid with
  | nil => cases hmid
  | cons c mid =>
      have hwide : 1 < c.utf8Size := by simpa using hrest
      rw [byteLength] at hmid
      omega

/-! ## Errors of a rest of the text -/

theorem Located.shift (h : Located cs f) (before : List Char) :
    Located (before ++ cs) (f.shift (byteLength before)) := by
  obtain ⟨start, text, after, rfl, hspan⟩ := h
  refine ⟨before ++ start, text, after, by rw [List.append_assoc], ?_⟩
  rw [LexFault.shift, hspan, byteLength_append, Nat.add_assoc]

theorem CutEscape.shift (h : CutEscape cs f) (before : List Char) :
    CutEscape (before ++ cs) (f.shift (byteLength before)) := by
  obtain ⟨start, rest, rfl, hrest, rfl⟩ := h
  refine ⟨before ++ start, rest, by rw [List.append_assoc], hrest, ?_⟩
  rw [LexFault.shift, byteLength_append, Nat.add_assoc]

theorem FaultIn.shift (h : FaultIn l cs f) (before : List Char) :
    FaultIn l (before ++ cs) (f.shift (byteLength before)) :=
  h.imp (·.shift before) (And.imp_right (·.shift before))

/-! ## The rules that fail -/

/-- An error whose span begins with the text and ends in it. -/
theorem Located.ofPrefix (text after : List Char) (kind : LexFaultKind) :
    Located (text ++ after) ⟨kind, ⟨0, byteLength text⟩⟩ :=
  ⟨[], text, after, rfl, by rw [byteLength, Nat.zero_add]⟩

theorem error_of_bind {α β : Type} {x : Except LexFault α} {k : α → Except LexFault β}
    (h : x >>= k = .error f) : x = .error f ∨ ∃ a, x = .ok a ∧ k a = .error f := by
  cases x with
  | error fault => exact .inl (by cases h; rfl)
  | ok a => exact .inr ⟨a, rfl, h⟩

theorem error_of_map {α β : Type} {x : Except LexFault α} {k : α → β}
    (h : x.map k = .error f) : x = .error f := by
  cases x with
  | error fault => cases h; rfl
  | ok a => cases h

theorem error_of_firstOf {rules : List (List Char → Found)} (h : firstOf cs rules = .error f) :
    ∃ rule ∈ rules, rule cs = .error f := by
  induction rules with
  | nil => cases h
  | cons rule rules ih =>
      unfold firstOf at h
      split at h
      · obtain ⟨other, hmem, hother⟩ := ih h
        exact ⟨other, List.mem_cons_of_mem rule hmem, hother⟩
      · exact ⟨rule, List.mem_cons_self, h⟩

theorem utf8Size_of_isDigitOrMark {c : Char} (h : isDigitOrMark c = true) : c.utf8Size = 1 := by
  rcases Bool.or_eq_true_iff.mp h with hdigit | hmark
  · exact CSharp.utf8Size_of_isHexDigit (by simp [isHexDigit, hdigit])
  · obtain rfl : c = '_' := by simpa using hmark
    rfl

theorem utf8Size_of_mem_run : ∀ c ∈ cs.takeWhile isDigitOrMark, c.utf8Size = 1 :=
  fun c hc => utf8Size_of_isDigitOrMark (mem_takeWhile c hc)

theorem exists_point (h : pointAndDigit cs = true) : ∃ rest, cs = '.' :: rest := by
  unfold pointAndDigit at h
  split at h
  · exact ⟨_, rfl⟩
  · cases h

theorem utf8Size_of_mem_fraction : ∀ c ∈ cs.take (fractionLength cs), c.utf8Size = 1 := by
  intro c hc
  unfold fractionLength at hc
  split at hc
  · rename_i hpoint
    obtain ⟨rest, rfl⟩ := exists_point hpoint
    rw [Nat.add_comm, List.take_succ_cons, List.drop_one, List.tail_cons, take_runLength] at hc
    rcases List.mem_cons.mp hc with rfl | hc
    · rfl
    · exact utf8Size_of_mem_run c hc
  · simp at hc

theorem utf8Size_of_mem_mantissa : ∀ c ∈ cs.take (mantissaLength cs), c.utf8Size = 1 := by
  intro c hc
  have hwhole : mantissaLength cs = runLength isDigitOrMark cs +
      fractionLength (cs.drop (runLength isDigitOrMark cs)) := rfl
  rw [hwhole, List.take_add, take_runLength] at hc
  rcases List.mem_append.mp hc with hc | hc
  · exact utf8Size_of_mem_run c hc
  · exact utf8Size_of_mem_fraction c hc

/-- The error at a number with two points ends behind the second one. -/
theorem decimal_located {suffix? : String → Option NumberSuffix}
    (h : decimal suffix? cs = .error f) : Located cs f := by
  unfold decimal at h
  split at h
  · dsimp only at h
    split at h
    · rename_i hpoints
      rw [Bool.and_eq_true] at hpoints
      cases h
      obtain ⟨rest, hrest⟩ := exists_point hpoints.2
      have hmantissa : byteLength (cs.take (mantissaLength cs)) = mantissaLength cs := by
        rw [CSharp.byteLength_of_ascii utf8Size_of_mem_mantissa, List.length_take_of_le
          (mantissaLength_le cs)]
      have hlength : byteLength (cs.take (mantissaLength cs) ++ ['.']) = mantissaLength cs + 1 := by
        rw [byteLength_append, hmantissa]
        rfl
      have hsplit : cs = (cs.take (mantissaLength cs) ++ ['.']) ++ rest := by
        rw [List.append_assoc, List.singleton_append, ← hrest, List.take_append_drop]
      have hlocated := Located.ofPrefix (cs.take (mantissaLength cs) ++ ['.']) rest
        .tooManyDecimalPoints
      rwa [← hsplit, hlength] at hlocated
    · cases h
  · cases h

/-- The error of a doubled-quote body begins with the literal and ends in the text. -/
theorem doubledQuoteBody_error {lineBreaks : Bool}
    (h : doubledQuoteBody lineBreaks o cs = .error f) :
    ∃ text after, cs = text ++ after ∧ f = ⟨.unterminatedString, ⟨0, o + byteLength text⟩⟩ := by
  induction o, cs using doubledQuoteBody.induct lineBreaks with
  | case1 o =>
      cases h
      exact ⟨[], [], rfl, rfl⟩
  | case2 o cs ih =>
      obtain ⟨text, after, rfl, rfl⟩ := ih (error_of_map h)
      refine ⟨'"' :: '"' :: text, after, rfl, ?_⟩
      rw [byteLength, byteLength, ← Nat.add_assoc, ← Nat.add_assoc]
      rfl
  | case3 o cs hsingle =>
      rw [doubledQuoteBody] at h
      · cases h
      · exact hsingle
  | case4 o c cs hdouble hquote hline =>
      rw [doubledQuoteBody, if_pos hline] at h
      · cases h
        exact ⟨[], c :: cs, rfl, rfl⟩
      · exact hdouble
      · exact hquote
  | case5 o c cs hdouble hquote hline ih =>
      rw [doubledQuoteBody, if_neg hline] at h
      · obtain ⟨text, after, rfl, rfl⟩ := ih (error_of_map h)
        exact ⟨c :: text, after, rfl, by rw [byteLength, ← Nat.add_assoc]⟩
      · exact hdouble
      · exact hquote

theorem blockCommentLength_error (h : CSharp.blockCommentLength o cs = .error f) :
    f = ⟨.unterminatedComment, ⟨0, o + byteLength cs⟩⟩ := by
  induction o, cs using CSharp.blockCommentLength.induct with
  | case1 o =>
      cases h
      rfl
  | case2 o cs => cases h
  | case3 o c cs hclose ih =>
      rw [CSharp.blockCommentLength] at h
      · rw [ih (error_of_map h), byteLength, ← Nat.add_assoc]
      · exact hclose

theorem charLexeme_error {value text : List Char} (h : charLexeme value text = .error f) :
    f = ⟨.invalidCharLiteral, ⟨0, byteLength text⟩⟩ := by
  unfold charLexeme at h
  split at h
  · cases h
  · cases h
    rfl

namespace CSharp

/-- What the error at a backslash covers: an escape of the text, or a backslash that no character of
one byte follows. -/
theorem reportedLength_cases (rest : List Char) :
    (∃ text after, '\\' :: rest = text ++ after ∧ byteLength text = reportedLength rest) ∨
      ((rest.head?.all fun c => 1 < c.utf8Size) = true ∧ reportedLength rest = 2) := by
  cases rest with
  | nil => exact .inr ⟨rfl, rfl⟩
  | cons c rest =>
      by_cases hu : c = 'u'
      · subst hu
        left
        cases hcode : takeBytes? 4 rest with
        | none => exact ⟨['\\', 'u'], rest, rfl, by simp [reportedLength, hcode]; rfl⟩
        | some code =>
            obtain ⟨after, rfl, hlength⟩ := exists_of_takeBytes? hcode
            refine ⟨'\\' :: 'u' :: code, after, rfl, ?_⟩
            simp [reportedLength, hcode, byteLength, hlength]
            rfl
      · have hreport : reportedLength (c :: rest) = 2 := by
          rw [reportedLength]
          exact fun _ heq => hu (List.cons.inj heq).1
        rcases Nat.lt_or_ge 1 c.utf8Size with hwide | hnarrow
        · exact .inr ⟨by simpa using hwide, hreport⟩
        · have hone : c.utf8Size = 1 := Nat.le_antisymm hnarrow c.utf8Size_pos
          refine .inl ⟨['\\', c], rest, rfl, ?_⟩
          rw [hreport, byteLength_of_ascii (by simpa using ⟨rfl, hone⟩)]
          rfl

theorem escapedBody_end {quote : Char} (hquote : quote ≠ '\n')
    (hends : (cs.head?.all (· == '\n')) = true) :
    escapedBody quote o cs = .error ⟨.unterminatedString, ⟨0, o⟩⟩ := by
  cases cs with
  | nil => rfl
  | cons c cs =>
      obtain rfl : c = '\n' := by simpa using hends
      rw [escapedBody_cons (by decide), if_neg hquote.symm, if_pos rfl]

/-- The errors of a text between quotes or apostrophes. -/
theorem escapedBody_faultIn {quote : Char} (hquote : quote = '"' ∨ quote = '\x27')
    (h : escapedBody quote 1 cs = .error f) : FaultIn .csharp (quote :: cs) f := by
  have hmark : quote.utf8Size = 1 ∧ quote ≠ '\\' ∧ quote ≠ '\n' := by
    rcases hquote with rfl | rfl <;> decide
  obtain ⟨text, value, rest, rfl, hitems, hrest⟩ := exists_items quote cs
  have hbefore : byteLength (quote :: text) = 1 + byteLength text := by rw [byteLength, hmark.1]
  rw [escapedBody_items hitems] at h
  have hbody := error_of_map h
  rcases no_item_cases hrest with ⟨rest, rfl⟩ | ⟨rest, rfl⟩ | hends
  · rw [escapedBody_cons hmark.2.1, if_pos rfl] at hbody
    cases hbody
  · rw [escapedBody_no_item hrest, ← hbefore] at hbody
    cases hbody
    rcases reportedLength_cases rest with ⟨part, after, hpart, hlength⟩ | ⟨hwide, hlength⟩
    · refine .inl ⟨quote :: text, part, after, ?_, by rw [hlength]⟩
      rw [← hpart, List.cons_append]
    · exact .inr ⟨rfl, quote :: text, rest, rfl, hwide, by rw [hlength]⟩
  · rw [escapedBody_end hmark.2.2 hends, ← hbefore] at hbody
    cases hbody
    exact .inl (Located.ofPrefix (quote :: text) rest _)

theorem blockComment_located (h : blockComment cs = .error f) : Located cs f := by
  unfold blockComment at h
  split at h
  · rename_i rest
    rcases error_of_bind h with hbody | ⟨n, -, hlexeme⟩
    · rw [blockCommentLength_error hbody]
      have hlocated := Located.ofPrefix ('/' :: '*' :: rest) [] .unterminatedComment
      rwa [List.append_nil, byteLength, byteLength, ← Nat.add_assoc] at hlocated
    · cases hlexeme
  · cases h

theorem trivia_located (h : trivia cs = .error f) : Located cs f := by
  unfold trivia at h
  split at h
  · cases h
  · exact blockComment_located h

theorem number_located (h : number cs = .error f) : Located cs f := by
  unfold number at h
  split at h
  · cases h
  · exact decimal_located h

theorem verbatimString_located (h : verbatimString cs = .error f) : Located cs f := by
  unfold verbatimString at h
  split at h
  · rcases error_of_bind h with hbody | ⟨⟨value, n⟩, -, hlexeme⟩
    · obtain ⟨text, after, rfl, rfl⟩ := doubledQuoteBody_error hbody
      have hlocated := Located.ofPrefix ('@' :: '"' :: text) after .unterminatedString
      rwa [byteLength, byteLength, ← Nat.add_assoc] at hlocated
    · cases hlexeme
  · cases h

theorem string_faultIn (h : string cs = .error f) : FaultIn .csharp cs f := by
  unfold string at h
  split at h
  · rcases error_of_bind h with hbody | ⟨⟨value, n⟩, -, hlexeme⟩
    · exact escapedBody_faultIn (.inl rfl) hbody
    · cases hlexeme
  · cases h

theorem character_faultIn (h : character cs = .error f) : FaultIn .csharp cs f := by
  unfold character at h
  split at h
  · rename_i rest
    rcases error_of_bind h with hbody | ⟨⟨value, n⟩, -, hlexeme⟩
    · exact escapedBody_faultIn (.inr rfl) hbody
    · rw [charLexeme_error hlexeme]
      have hlocated := Located.ofPrefix ('\x27' :: rest.take n) (rest.drop n)
        .invalidCharLiteral
      rw [List.cons_append, List.take_append_drop] at hlocated
      exact .inl hlocated
  · cases h

theorem token_faultIn (h : token cs = .error f) : FaultIn .csharp cs f := by
  obtain ⟨rule, hrule, hfails⟩ := error_of_firstOf h
  simp only [List.mem_cons, List.not_mem_nil, or_false] at hrule
  rcases hrule with rfl | rfl | rfl | rfl | rfl | rfl | rfl
  · exact .inl (number_located hfails)
  · exact .inl (verbatimString_located hfails)
  · exact string_faultIn hfails
  · exact character_faultIn hfails
  · unfold escapedName at hfails
    split at hfails <;> cases hfails
  · unfold word at hfails
    split at hfails <;> cases hfails
  · cases hfails

end CSharp

namespace VisualBasic

theorem number_located (h : number cs = .error f) : Located cs f := by
  unfold number at h
  split at h
  · cases h
  · exact decimal_located h

theorem string_located (h : string cs = .error f) : Located cs f := by
  unfold string at h
  split at h
  · rename_i rest
    rcases error_of_bind h with hbody | ⟨⟨value, n⟩, -, hlexeme⟩
    · obtain ⟨text, after, rfl, rfl⟩ := doubledQuoteBody_error hbody
      exact Located.ofPrefix ('"' :: text) after _
    · dsimp only at hlexeme
      split at hlexeme
      · rw [charLexeme_error hlexeme]
        have hlocated := Located.ofPrefix ('"' :: rest.take (n + 1)) (rest.drop (n + 1))
          .invalidCharLiteral
        rwa [List.cons_append, List.take_append_drop] at hlocated
      · cases hlexeme
  · cases h

theorem token_located (h : token cs = .error f) : Located cs f := by
  obtain ⟨rule, hrule, hfails⟩ := error_of_firstOf h
  simp only [List.mem_cons, List.not_mem_nil, or_false] at hrule
  rcases hrule with rfl | rfl | rfl | rfl | rfl | rfl
  · cases hfails
  · exact number_located hfails
  · exact string_located hfails
  · unfold escapedName at hfails
    split at hfails
    · split at hfails <;> cases hfails
    · cases hfails
  · unfold word at hfails
    split at hfails <;> cases hfails
  · cases hfails

end VisualBasic

/-! ## The loop over the text -/

theorem next_faultIn {cx : Context} (h : next l cx cs = .error f) : FaultIn l cs f := by
  cases l with
  | csharp =>
      rcases error_of_bind h with htrivia | ⟨found, -, htoken⟩
      · exact .inl (CSharp.trivia_located htrivia)
      · cases found with
        | some x => cases htoken
        | none =>
            rcases error_of_bind htoken with hfails | ⟨x, -, hlexeme⟩
            · exact CSharp.token_faultIn hfails
            · cases hlexeme
  | visualBasic =>
      rcases error_of_bind h with htrivia | ⟨found, -, htoken⟩
      · cases htrivia
      · cases found with
        | some x => cases htoken
        | none =>
            rcases error_of_bind htoken with hfails | ⟨x, -, hlexeme⟩
            · exact .inl (VisualBasic.token_located hfails)
            · cases hlexeme

/-- An error of the loop is the error at its first lexeme or comes from the rest of the text. -/
theorem tokensFrom_error {fuel : Nat} {cx : Context} (h : tokensFrom l fuel cx cs = .error f) :
    (∃ fault, next l cx cs = .error fault ∧ f = fault.shift cx.offset) ∨
      ∃ n cx' text rest, fuel = n + 1 ∧ cs = text ++ rest ∧
        cx'.offset = cx.offset + byteLength text ∧ tokensFrom l n cx' rest = .error f := by
  cases fuel with
  | zero => cases h
  | succ fuel =>
      cases cs with
      | nil => cases h
      | cons c cs =>
          rw [tokensFrom] at h
          split at h
          · rename_i fault hnext
            exact .inl ⟨fault, hnext, by cases h; rfl⟩
          · rename_i found hnext
            refine .inr ⟨fuel, ?_⟩
            dsimp only at h
            split at h
            · exact ⟨_, _, _, rfl, (List.take_append_drop _ _).symm, rfl, h⟩
            · exact ⟨_, _, _, rfl, (List.take_append_drop _ _).symm, rfl, error_of_map h⟩

theorem tokensFrom_faultIn {fuel : Nat} {cx : Context} {before : List Char}
    (hoffset : cx.offset = byteLength before) (h : tokensFrom l fuel cx cs = .error f) :
    FaultIn l (before ++ cs) f := by
  induction fuel generalizing cx cs before with
  | zero => cases h
  | succ fuel ih =>
      rcases tokensFrom_error h with ⟨fault, hnext, rfl⟩ | ⟨n, cx', text, rest, hn, rfl, hcx, hrest⟩
      · rw [hoffset]
        exact (next_faultIn hnext).shift before
      · obtain rfl := Nat.succ.inj hn
        rw [← List.append_assoc]
        exact ih (by rw [hcx, hoffset, byteLength_append]) hrest

end Lexing

open Lexing

/-- Lexical errors stand in the text. -/
theorem tokenize_faultIn {l : Language} {src : List Char} {f : LexFault}
    (h : tokenize l src = .error f) : FaultIn l src f := by
  have hoffset : ({} : Context).offset = Text.byteLength [] := rfl
  exact tokensFrom_faultIn hoffset (error_of_map h)

/-- The span of a lexical error begins and ends at boundaries of the text, and the message that
quotes it can be made, unless a backslash in C# has no character of one byte behind it. -/
theorem fault_span_valid_iff {l : Language} {src : List Char} {f : LexFault}
    (h : tokenize l src = .error f) :
    f.span.start ≤ f.span.stop ∧ Text.IsBoundary src f.span.start ∧
      (CutEscape src f → l = .csharp) ∧
      (f.span.stop ≤ Text.byteLength src ∧ Text.IsBoundary src f.span.stop ↔ ¬ CutEscape src f) ∧
      ((f.detailedMessage? src).isSome = true ↔ ¬ CutEscape src f) := by
  have hmessage : (f.detailedMessage? src).isSome = (f.span.text? src).isSome := by
    rw [LexFault.detailedMessage?, Option.isSome_map]
  rw [hmessage]
  rcases tokenize_faultIn h with hlocated | ⟨hl, hcut⟩
  · have hsome := hlocated.text?_isSome
    obtain ⟨hle, hstart, hstop⟩ := (Span.text?_isSome_iff f.span src).mp hsome
    have hnot : ¬ CutEscape src f := fun hcut => hcut.not_boundary hstop
    exact ⟨hle, hstart, fun hcut => absurd hcut hnot,
      iff_of_true ⟨hstop.le, hstop⟩ hnot, iff_of_true hsome hnot⟩
  · have hstop := hcut.not_boundary
    have hnone : ¬ (f.span.text? src).isSome = true := fun hsome =>
      hstop ((Span.text?_isSome_iff f.span src).mp hsome).2.2
    obtain ⟨before, rest, rfl, hrest, rfl⟩ := hcut
    have hcut : CutEscape (before ++ '\\' :: rest) _ := ⟨before, rest, rfl, hrest, rfl⟩
    exact ⟨Nat.le_add_right _ _, ⟨before, _, rfl, rfl⟩, fun _ => hl,
      iff_of_false (fun h => hstop h.2) (fun h => h hcut), iff_of_false hnone (fun h => h hcut)⟩

/-- A number with two points in VB can be quoted, a backslash at the end of a C# text cannot. -/
theorem fault_span_valid_points_backslash :
    (tokenize .visualBasic "1.2.3".toList = .error ⟨.tooManyDecimalPoints, ⟨0, 4⟩⟩ ∧
      (LexFault.detailedMessage? ⟨.tooManyDecimalPoints, ⟨0, 4⟩⟩ "1.2.3".toList).isSome = true) ∧
    (tokenize .csharp "\"\\".toList = .error ⟨.invalidEscape, ⟨1, 3⟩⟩ ∧
      ¬ (LexFault.detailedMessage? ⟨.invalidEscape, ⟨1, 3⟩⟩ "\"\\".toList).isSome = true) := by
  have hpoints : tokenize .visualBasic "1.2.3".toList =
      .error ⟨.tooManyDecimalPoints, ⟨0, 4⟩⟩ := by rfl
  have hslash : tokenize .csharp "\"\\".toList = .error ⟨.invalidEscape, ⟨1, 3⟩⟩ := by rfl
  obtain ⟨-, -, hlanguage, -, hquoted⟩ := fault_span_valid_iff hpoints
  obtain ⟨-, -, -, -, hcut⟩ := fault_span_valid_iff hslash
  refine ⟨⟨hpoints, hquoted.mpr fun h => Language.noConfusion (hlanguage h)⟩, hslash, fun h => ?_⟩
  exact hcut.mp h ⟨['"'], [], rfl, rfl, rfl⟩

end DualSyntax
