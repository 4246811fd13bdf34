import DualSyntax.Diagnostic.Report
import DualSyntax.Proofs.Lexing.FaultSpans
import DualSyntax.Proofs.Lexing.Names
import DualSyntax.Proofs.Lowering.InnerShapes
import DualSyntax.Proofs.Lowering.Total
import DualSyntax.Proofs.Packrat.LeftCalls
import DualSyntax.Proofs.Parsing.SyntaxErrors

/-!
# Rendering reports

The window of a report is worked out from the line table alone.  `window?_boundary` says what it shows for
every span that starts at a boundary of the text: the line that holds the start, and marks that begin where
the span does.  The marks are counted in bytes while the header counts characters, so that they stand
under the span if and only if the line has no wide characters in front of it (`marks_eq_columns_iff`).

Whatever a text is reported for, the span begins at a boundary of the text and does not end before it
begins: lexical errors stand in the text, a failed match at a token, and lowering reports the spans of
tokens and of nested matches only (`beginsIn_of_mem_reportsOf`).  So every report has a window, with a mark
in it, as long as the place behind its begin has an offset too (`reports_rendered`); at the end of the
longest texts that have offsets it has none (`exists_unrendered`).
-/

namespace DualSyntax

namespace Text

variable {cs before after : List Char}

/-! ## Wide characters -/

/-- Every character counts once if and only if none is wide. -/
theorem byteLength_eq_length_iff : byteLength cs = cs.length ↔ ∀ c ∈ cs, c.utf8Size = 1 := by
  induction cs with
  | nil => simp [byteLength]
  | cons c cs ih =>
      have hc := c.utf8Size_pos
      have hcs := length_le_byteLength cs
      rw [byteLength, List.length_cons, List.forall_mem_cons, ← ih]
      omega

/-- Both are prefixes of a text, so the shorter one is what they share. -/
theorem byteLength_take_of_prefixes {xs ys zs ws : List Char} (h : xs ++ zs = ys ++ ws) :
    byteLength (ys.take xs.length) = min (byteLength xs) (byteLength ys) := by
  rcases List.append_eq_append_iff.mp h with ⟨mid, rfl, -⟩ | ⟨mid, rfl, -⟩
  · rw [List.take_left, byteLength_append]
    omega
  · rw [List.take_of_length_le (by simp), byteLength_append]
    omega

/-! ## The end of a line -/

theorem exists_eq_trimEnd_append (cs : List Char) : ∃ blanks, cs = trimEnd cs ++ blanks := by
  refine ⟨(cs.reverse.takeWhile isBlank).reverse, ?_⟩
  rw [trimEnd, ← List.reverse_append, List.takeWhile_append_dropWhile, List.reverse_reverse]

theorem byteLength_trimEnd_le (cs : List Char) : byteLength (trimEnd cs) ≤ byteLength cs := by
  obtain ⟨blanks, heq⟩ := exists_eq_trimEnd_append cs
  have hsum := congrArg byteLength heq
  rw [byteLength_append] at hsum
  omega

/-- A line break at the end is white space. -/
theorem trimEnd_append_newline (cs : List Char) : trimEnd (cs ++ ['\n']) = trimEnd cs := by
  have hblank : isBlank '\n' = true := by decide
  simp [trimEnd, hblank]

/-! ## The line around a boundary -/

theorem exists_eq_append_lastLine (cs : List Char) : ∃ earlier, cs = earlier ++ lastLine cs := by
  induction hn : cs.length using Nat.strongRecOn generalizing cs with
  | _ n ih =>
      by_cases hbreak : '\n' ∈ cs
      · obtain ⟨line, more, rfl, -⟩ := List.eq_append_cons_of_mem hbreak
        obtain ⟨earlier, heq⟩ := ih more.length (by simp [← hn]; omega) more rfl
        refine ⟨line ++ '\n' :: earlier, ?_⟩
        rw [lastLine_append_cons, List.append_assoc, List.cons_append, ← heq]
      · exact ⟨[], by rw [lastLine_of_not_mem hbreak, List.nil_append]⟩

theorem byteLength_lastLine_le (cs : List Char) : byteLength (lastLine cs) ≤ byteLength cs := by
  obtain ⟨earlier, heq⟩ := exists_eq_append_lastLine cs
  have hsum := congrArg byteLength heq
  rw [byteLength_append] at hsum
  omega

def lineBreak (cs : List Char) : List Char := if '\n' ∈ cs then ['\n'] else []

theorem exists_eq_firstLine_append (cs : List Char) :
    ∃ later, cs = firstLine cs ++ (lineBreak cs ++ later) := by
  by_cases hbreak : '\n' ∈ cs
  · obtain ⟨line, more, rfl, hline⟩ := List.eq_append_cons_of_mem hbreak
    exact ⟨more, by rw [firstLine_append_cons hline, lineBreak, if_pos hbreak]; rfl⟩
  · exact ⟨[], by rw [firstLine_of_not_mem hbreak, lineBreak, if_neg hbreak]; simp⟩

/-- The line of a boundary goes from what stands in front of it to what stands behind. -/
theorem splitOn_append_getElem? (before after : List Char) :
    ((before ++ after).splitOn '\n')[before.count '\n']? = some (lastLine before ++ firstLine after) := by
  induction hn : before.length using Nat.strongRecOn generalizing before with
  | _ n ih =>
      by_cases hbreak : '\n' ∈ before
      · obtain ⟨line, more, rfl, hline⟩ := List.eq_append_cons_of_mem hbreak
        have hmore := ih more.length (by simp [← hn]; omega) more rfl
        rw [List.append_assoc, List.cons_append, List.splitOn_append_cons_self_of_not_mem hline,
          lastLine_append_cons, List.count_append, List.count_eq_zero.mpr hline, List.count_cons_self,
          Nat.zero_add, List.getElem?_cons_succ, hmore]
      · rw [lastLine_of_not_mem hbreak, List.count_eq_zero.mpr hbreak]
        by_cases hbehind : '\n' ∈ after
        · obtain ⟨line, more, rfl, hline⟩ := List.eq_append_cons_of_mem hbehind
          have hnone : '\n' ∉ before ++ line := by simp [hbreak, hline]
          rw [firstLine_append_cons hline, ← List.append_assoc,
            List.splitOn_append_cons_self_of_not_mem hnone]
          rfl
        · rw [firstLine_of_not_mem hbehind, List.splitOn_eq_singleton (by simp [hbreak, hbehind])]
          rfl

end Text

namespace Report

open Text

variable {r : Report} {src before after : List Char} {w : Window}

/-! ## What a window shows -/

/-- The line that holds a boundary, with its line break, can be cut out of the text. -/
theorem text?_lineSpan (before after : List Char) :
    ((LineTable.ofText (before ++ after)).lineSpan (byteLength before)).text? (before ++ after) =
      some (lastLine before ++ firstLine after ++ lineBreak after) := by
  obtain ⟨earlier, hbefore⟩ := exists_eq_append_lastLine before
  obtain ⟨later, hafter⟩ := exists_eq_firstLine_append after
  have hbreak : (if '\n' ∈ after then 1 else 0) = byteLength (lineBreak after) := by
    unfold lineBreak
    split <;> rfl
  rw [LineTable.lineSpan_boundary, hbreak]
  generalize lastLine before = last, firstLine after = first, lineBreak after = ending at *
  subst hbefore hafter
  have hspan := Span.text?_append earlier (last ++ first ++ ending) later
  simp only [byteLength_append, List.append_assoc] at hspan ⊢
  rw [Nat.add_sub_cancel_right, Nat.add_assoc, Nat.add_assoc]
  exact hspan

/-- The last marked byte of a span on a line: the marks end with the span or with the line that is shown,
and at least one place is marked. -/
def markedStop (line : List Char) (first length : Nat) : Nat :=
  max (min (first + length) (byteLength (trimEnd line))) (first + 1)

/-- The window of a span that starts at a boundary shows the line there.  It is missing only where a number
does not fit. -/
theorem window?_boundary (after : List Char) (hstart : r.span.start = byteLength before)
    (hle : r.span.start ≤ r.span.stop) :
    r.window? (before ++ after) (.ofText (before ++ after)) =
      if before.count '\n' + 1 < offsetLimit ∧ byteLength (lastLine before) + 1 < offsetLimit then
        some ⟨before.count '\n' + 1, trimEnd (lastLine before ++ firstLine after),
          ⟨byteLength (lastLine before), markedStop (lastLine before ++ firstLine after)
            (byteLength (lastLine before)) (r.span.stop - r.span.start)⟩⟩
      else none := by
  have hcolumn := length_le_byteLength (lastLine before)
  have hlast := byteLength_lastLine_le before
  have htrim : trimEnd (lastLine before ++ firstLine after ++ lineBreak after) =
      trimEnd (lastLine before ++ firstLine after) := by
    unfold lineBreak
    split
    · exact trimEnd_append_newline _
    · rw [List.append_nil]
  have hshown := byteLength_trimEnd_le (lastLine before ++ firstLine after)
  rw [byteLength_append] at hshown
  rw [hstart] at hle
  simp only [window?, hstart, LineTable.lineColumn?_boundary, Option.bind_eq_bind, Option.bind_some,
    text?_lineSpan, htrim]
  rw [LineTable.lineSpan_boundary, markedStop]
  generalize byteLength before = here, byteLength (lastLine before) = first,
    byteLength (firstLine after) = rest, (if '\n' ∈ after then 1 else 0) = ending,
    byteLength (trimEnd (lastLine before ++ firstLine after)) = shown at *
  have hfirst : here - (here - first) = first := by omega
  have hstop : min (min r.span.stop (here + rest + ending) - (here - first)) shown =
      min (first + (r.span.stop - here)) shown := by omega
  have hforward : ¬ min r.span.stop (here + rest + ending) < here - first := by omega
  dsimp only
  rw [hfirst, hstop]
  by_cases hfits : before.count '\n' + 1 < offsetLimit ∧ first + 1 < offsetLimit
  · rw [if_pos hfits, if_neg (by simp; omega), if_neg (by omega)]
    rfl
  · rw [if_neg hfits]
    split
    · rfl
    · next hsome =>
        simp only [Bool.or_eq_true, decide_eq_true_eq, not_or] at hsome
        rw [if_pos (by omega)]

/-! ## Marks and columns -/

/-- The characters of `mid` that the window shows, if `before` stands in front of it and `after` behind. -/
def shownPart (before mid after : List Char) : List Char :=
  ((trimEnd (lastLine before ++ firstLine (mid ++ after))).drop (lastLine before).length).take mid.length

/-- The marks take as many places as the shown part of the span takes bytes, but one at least. -/
theorem markedStop_sub (before mid after : List Char) :
    markedStop (lastLine before ++ firstLine (mid ++ after)) (byteLength (lastLine before))
        (byteLength mid) - byteLength (lastLine before) =
      max (byteLength (shownPart before mid after)) 1 := by
  obtain ⟨blanks, hshown⟩ := exists_eq_trimEnd_append (lastLine before ++ firstLine (mid ++ after))
  obtain ⟨later, hline⟩ := exists_eq_firstLine_append (mid ++ after)
  rw [markedStop, shownPart]
  generalize trimEnd (lastLine before ++ firstLine (mid ++ after)) = shown at *
  rcases List.append_eq_append_iff.mp hshown with ⟨rest, rfl, hrest⟩ | ⟨rest, hlast, -⟩
  · -- the line is shown up to the span and further
    rw [hrest, List.append_assoc] at hline
    rw [List.drop_left, byteLength_take_of_prefixes hline, byteLength_append]
    omega
  · -- the span begins in the white space at the end of the line
    have hlength : shown.length ≤ (lastLine before).length := by simp [hlast]
    have hbytes := congrArg byteLength hlast
    rw [byteLength_append] at hbytes
    rw [List.drop_eq_nil_of_le hlength, List.take_nil, byteLength]
    omega

/-- The first mark stands at the column that the header gives if and only if no wide character stands
before it on the line, and there are as many marks as characters, but one at least, if and only if no wide
character is marked. -/
theorem marks_eq_columns_iff {mid : List Char}
    (hspan : r.span = ⟨byteLength before, byteLength before + byteLength mid⟩)
    (hw : r.window? (before ++ (mid ++ after)) (.ofText (before ++ (mid ++ after))) = some w) :
    (w.marked.start = ((LineTable.ofText (before ++ (mid ++ after))).lineColumn r.span.start).column ↔
        ∀ c ∈ lastLine before, c.utf8Size = 1) ∧
      (w.marked.stop - w.marked.start = max (shownPart before mid after).length 1 ↔
        ∀ c ∈ shownPart before mid after, c.utf8Size = 1) := by
  have hstart : r.span.start = byteLength before := by rw [hspan]
  have hlength : r.span.stop - r.span.start = byteLength mid := by
    rw [hspan]
    exact Nat.add_sub_cancel_left _ _
  have hwindow := window?_boundary (mid ++ after) hstart (by rw [hspan]; exact Nat.le_add_right _ _)
  rw [hw, hlength] at hwindow
  split at hwindow
  · cases hwindow
    constructor
    · rw [hstart, LineTable.lineColumn, LineTable.lineColumn?_boundary, Option.getD_some]
      exact byteLength_eq_length_iff
    · rw [markedStop_sub, ← byteLength_eq_length_iff]
      cases hpart : shownPart before mid after with
      | nil => simp [byteLength]
      | cons c cs =>
          have hle := length_le_byteLength (c :: cs)
          rw [List.length_cons] at hle ⊢
          omega
  · cases hwindow

/-- A wide character moves the marks behind the column of the header. -/
theorem marks_eq_columns_iff_wide :
    ∃ w, Report.window? ⟨"X", .error, "m", "r", ⟨5, 6⟩⟩ "é = 1;".toList (.ofText "é = 1;".toList) = some w ∧
      w.marked = ⟨5, 6⟩ ∧
      w.marked.start ≠ ((LineTable.ofText "é = 1;".toList).lineColumn 5).column ∧
      w.marked.stop - w.marked.start = max (shownPart "é = ".toList ['1'] [';']).length 1 := by
  have hw : Report.window? ⟨"X", .error, "m", "r", ⟨5, 6⟩⟩ ("é = ".toList ++ (['1'] ++ [';']))
      (.ofText ("é = ".toList ++ (['1'] ++ [';']))) = some ⟨1, "é = 1;".toList, ⟨5, 6⟩⟩ := by
    decide
  obtain ⟨hfirst, hcount⟩ := marks_eq_columns_iff (by decide) hw
  have hshown : shownPart "é = ".toList ['1'] [';'] = ['1'] := by decide
  refine ⟨_, hw, rfl, fun heq => absurd (hfirst.mp heq 'é' (by decide)) (by decide), hcount.mpr ?_⟩
  rw [hshown]
  exact List.forall_mem_singleton.mpr (by decide)

end Report

open Text

/-- A span that begins at a boundary of a text and is not reversed; it may end anywhere. -/
structure Span.BeginsIn (src : List Char) (s : Span) : Prop where
  start : IsBoundary src s.start
  le : s.start ≤ s.stop

theorem Text.isBoundary_zero (src : List Char) : IsBoundary src 0 := ⟨[], src, rfl, rfl⟩

namespace Span

variable {src : List Char} {s t : Span}

theorem beginsIn_emptyAt {o : Nat} (h : IsBoundary src o) : (Span.emptyAt o).BeginsIn src :=
  ⟨h, Nat.le_refl o⟩

theorem BeginsIn.cover (hs : s.BeginsIn src) (ht : t.BeginsIn src) : (s.cover t).BeginsIn src := by
  refine ⟨?_, ?_⟩
  · show IsBoundary src (min s.start t.start)
    rcases Nat.le_total s.start t.start with hle | hle
    · rw [Nat.min_eq_left hle]
      exact hs.start
    · rw [Nat.min_eq_right hle]
      exact ht.start
  · show min s.start t.start ≤ max s.stop t.stop
    have := hs.le
    omega

end Span

/-! ## Where reports stand -/

/-- The reports about a text that is parsed as a fragment. -/
def reportsOf (l : Language) (fragment : Fragment) (src : List Char) : List Report :=
  match parse l fragment src with
  | .ok parsed => parsed.diagnostics.map Diagnostic.report
  | .error (.lexical fault) => [fault.report]
  | .error e => e.diagnostics.map Diagnostic.report

section Spans

variable {l : Language} {src : List Char} {s : TokenStream}

theorem Lexing.FaultIn.beginsIn {f : LexFault} (h : Lexing.FaultIn l src f) : f.span.BeginsIn src := by
  rcases h with ⟨before, text, after, rfl, hspan⟩ | ⟨-, before, rest, rfl, -, rfl⟩
  · rw [hspan]
    exact ⟨⟨before, _, rfl, rfl⟩, Nat.le_add_right _ _⟩
  · exact ⟨⟨before, _, rfl, rfl⟩, Nat.le_add_right _ _⟩

theorem beginsIn_of_get? (hs : tokenize l src = .ok s) {i : Nat} {t : Token} (ht : s.get? i = some t) :
    t.span.BeginsIn src :=
  have h := tokenize_token_boundaries hs ht
  ⟨h.2.1, h.1⟩

theorem beginsIn_of_mem_tokens (hs : tokenize l src = .ok s) {t : Token} (ht : t ∈ s.tokens.toList) :
    t.span.BeginsIn src := by
  obtain ⟨i, hi⟩ := List.mem_iff_getElem?.mp ht
  exact beginsIn_of_get? hs (by simpa [TokenStream.get?] using hi)

theorem isBoundary_endBefore (hs : tokenize l src = .ok s) (i : Nat) : IsBoundary src (s.endBefore i) := by
  cases i with
  | zero => exact isBoundary_zero src
  | succ i =>
      rw [TokenStream.endBefore]
      cases ht : s.get? i with
      | none => exact isBoundary_zero src
      | some t => exact (tokenize_token_boundaries hs ht).2.2

theorem RawTree.beginsIn_span {δ : Type} (hs : tokenize l src = .ok s) {t : RawTree δ}
    (ht : ∀ tk ∈ t.tokens, tk ∈ s.tokens.toList) : (t.span s).BeginsIn src := by
  have hget (i : Nat) : ((s.get? i).elim (Span.emptyAt 0) (·.span)).BeginsIn src := by
    cases hi : s.get? i with
    | none => exact Span.beginsIn_emptyAt (isBoundary_zero src)
    | some t => exact beginsIn_of_get? hs hi
  cases t with
  | leaf tk => exact beginsIn_of_mem_tokens hs (ht tk (by simp [tokens]))
  | node form first last cs =>
      rw [span]
      split
      · exact (hget _).cover (hget _)
      · exact Span.beginsIn_emptyAt (isBoundary_endBefore hs _)

end Spans

/-! ## Lowering -/

namespace Lowering

open Lower

variable {δ : Type} [BEq δ] {l : Language} {src : List Char}

/-- Lowering reports only spans that begin in the text. -/
theorem beginsIn_of_lower {g : Grammar δ} {source : Source} {raw : RawTree δ} {n : NodeId} {d : Draft}
    (hs : tokenize l src = .ok source.stream) (htokens : raw.tokens = source.stream.tokens.toList)
    (h : raw.lower g source = .ok (n, d)) : ∀ x ∈ d.diagnostics, x.span.BeginsIn src := by
  have haccepts : Accepts g
      (.ofDiagnostics fun source' ds => source' = source ∧ ∀ x ∈ ds, x.span.BeginsIn src)
      fun t : RawTree δ => ∀ tk ∈ t.tokens, tk ∈ source.stream.tokens.toList := by
    refine ⟨fun {t c} ht hc tk htk => ht tk ?_, fun _ tokens => Shape.makes_true _, fun _ _ => .inr ?_⟩
    · cases t with
      | leaf => cases hc
      | node => exact RawTree.tokens_subset_tokensOf hc htk
    · constructor
      · rintro _ d tk htk ⟨rfl, hd⟩
        refine ⟨rfl, fun x hx => ?_⟩
        rcases Array.mem_push.mp hx with hx | rfl
        · exact hd x hx
        · exact beginsIn_of_mem_tokens hs (htk tk (by simp [RawTree.tokens]))
      · rintro _ d t ht ⟨rfl, hd⟩
        refine ⟨rfl, fun x hx => ?_⟩
        rcases Array.mem_push.mp hx with hx | rfl
        · exact hd x hx
        · exact RawTree.beginsIn_span hs ht
  have hroot : ∀ tk ∈ raw.tokens, tk ∈ source.stream.tokens.toList := by
    rw [htokens]
    exact fun _ htk => htk
  exact ((adds_lowerUpTo haccepts raw.height hroot) ⟨rfl, by simp⟩ h).1.2

end Lowering

/-! ## All reports -/

variable {l : Language} {fragment : Fragment} {src : List Char} {r : Report}

theorem beginsIn_report {ds : List Diagnostic} (h : ∀ d ∈ ds, d.span.BeginsIn src)
    (hr : r ∈ ds.map Diagnostic.report) : r.span.BeginsIn src := by
  obtain ⟨d, hd, rfl⟩ := List.mem_map.mp hr
  exact h d hd

theorem Packrat.Failure.beginsIn_diagnostic (f : Packrat.Failure) {source : Source}
    (hs : tokenize l src = .ok source.stream) : (f.diagnostic source).span.BeginsIn src := by
  unfold Packrat.Failure.diagnostic
  split
  · next t ht => exact beginsIn_of_get? hs ht
  · exact Span.beginsIn_emptyAt (isBoundary_zero src)

/-- Every report stands in the text. -/
theorem beginsIn_of_mem_reportsOf (hr : r ∈ reportsOf l fragment src) : r.span.BeginsIn src := by
  unfold reportsOf parse parseRaw Source.ofText Source.matchBy at hr
  cases hs : tokenize l src with
  | error fault =>
      simp only [hs, bind, Except.bind, List.mem_singleton] at hr
      rw [hr]
      exact (tokenize_faultIn hs).beginsIn
  | ok stream =>
      simp only [hs, bind, Except.bind] at hr
      cases hparse : Packrat.parse l.grammar (l.root fragment) stream with
      | exhausted => simp [hparse, ParseError.diagnostics] at hr
      | failed f =>
          simp only [hparse, ParseError.diagnostics] at hr
          refine beginsIn_report (fun d hd => ?_) hr
          rw [List.mem_singleton.mp hd]
          exact f.beginsIn_diagnostic hs
      | parsed raw =>
          obtain ⟨init, last, -, hlast, -⟩ := tokenize_spec hs
          have htokens := Packrat.parse_tokens hlast hparse
          simp only [hparse, pure, Except.pure] at hr
          cases hlower : raw.lower l.grammar ⟨l, stream, .ofText src⟩ with
          | error e => simp [hlower, ParseError.diagnostics, throw, throwThe, MonadExceptOf.throw] at hr
          | ok lowered =>
              have hspans := Lowering.beginsIn_of_lower hs htokens hlower
              simp only [hlower] at hr
              split at hr
              · next h =>
                  split at h
                  · cases h
                  · cases h
                    exact beginsIn_report (by simpa using hspans) hr
              · next h =>
                  split at h
                  · cases h
                  · cases h
              · next h =>
                  split at h
                  · cases h
                    exact beginsIn_report (by simpa [ParseError.diagnostics] using hspans) hr
                  · cases h

/-- A report that has been rendered: its window shows the line that its span begins in, numbered from one,
without the white space at its end, and marks at least one place there. -/
structure Rendered (src before : List Char) (r : Report) (w : Report.Window) : Prop where
  window : r.window? src (.ofText src) = some w
  renders : ∀ colours file, r.render? colours file src (.ofText src) =
    some (r.header colours file ⟨before.count '\n', (lastLine before).length⟩ ++ w.show r colours)
  line : w.line = before.count '\n' + 1
  text : ∃ line, (src.splitOn '\n')[before.count '\n']? = some line ∧ w.text = trimEnd line
  marked : w.marked.start < w.marked.stop

/-- A report that begins at a boundary is rendered exactly if the numbers in front of it fit. -/
theorem rendered_of_beginsIn {before after : List Char} (hstart : r.span.start = byteLength before)
    (hr : r.span.BeginsIn (before ++ after)) :
    if before.count '\n' + 1 < offsetLimit ∧ byteLength (lastLine before) + 1 < offsetLimit then
      ∃ w, Rendered (before ++ after) before r w
    else ∀ colours file, r.render? colours file (before ++ after) (.ofText (before ++ after)) = none := by
  have hwindow := Report.window?_boundary after hstart hr.le
  have hposition : (LineTable.ofText (before ++ after)).lineColumn r.span.start =
      ⟨before.count '\n', (lastLine before).length⟩ := by
    rw [hstart, LineTable.lineColumn, LineTable.lineColumn?_boundary]
    rfl
  split
  · next hfits =>
      rw [if_pos hfits] at hwindow
      refine ⟨_, hwindow, fun colours file => ?_, rfl, ⟨_, splitOn_append_getElem? before after, rfl⟩, ?_⟩
      · rw [Report.render?, hwindow, hposition]
        rfl
      · show byteLength (lastLine before) < Report.markedStop _ _ _
        unfold Report.markedStop
        omega
  · next hfits =>
      rw [if_neg hfits] at hwindow
      intro colours file
      rw [Report.render?, hwindow]
      rfl

/-- Every report about a text begins at a boundary of it.  It is rendered exactly if the number of the line
and the marks in front of it fit into 32 bits, and they always do if the text and one byte more do. -/
theorem reports_rendered (hr : r ∈ reportsOf l fragment src) :
    ∃ before after, src = before ++ after ∧ r.span.start = byteLength before ∧
      (if before.count '\n' + 1 < offsetLimit ∧ byteLength (lastLine before) + 1 < offsetLimit then
        ∃ w, Rendered src before r w
      else ∀ colours file, r.render? colours file src (.ofText src) = none) ∧
      (byteLength src + 1 < offsetLimit → ∃ w, Rendered src before r w) := by
  have hspan := beginsIn_of_mem_reportsOf hr
  obtain ⟨before, after, rfl, hstart⟩ := hspan.start
  have hrendered := rendered_of_beginsIn hstart.symm hspan
  refine ⟨before, after, rfl, hstart.symm, hrendered, fun hsize => ?_⟩
  have hcount : before.count '\n' ≤ byteLength before :=
    Nat.le_trans List.count_le_length (length_le_byteLength before)
  have hlast := byteLength_lastLine_le before
  rw [byteLength_append] at hsize
  rwa [if_pos (by omega)] at hrendered

/-- An error that reaches over the end of the text, and a warning on the second line. -/
theorem reports_rendered_overEnd_secondLine :
    (∃ r ∈ reportsOf .csharp .statement "é\n\"\\".toList, r.span = ⟨4, 6⟩ ∧
      ∃ before w, Rendered "é\n\"\\".toList before r w) ∧
    ∃ r ∈ reportsOf .csharp .statement "while (é)\n  ;".toList, r.span = ⟨13, 14⟩ ∧
      ∃ before w, Rendered "while (é)\n  ;".toList before r w := by
  have hslash : reportsOf .csharp .statement "é\n\"\\".toList =
      [⟨"L0004", .error, "Invalid escape sequence (4..6)", "invalid escape", ⟨4, 6⟩⟩] := by
    decide
  have hempty : reportsOf .csharp .statement "while (é)\n  ;".toList =
      [⟨"CS1001", .warning, "possible mistaken empty statement", "possible mistaken empty statement",
        ⟨13, 14⟩⟩] := by
    decide +kernel
  refine ⟨⟨_, by rw [hslash]; exact List.mem_singleton_self _, rfl, ?_⟩,
    ⟨_, by rw [hempty]; exact List.mem_singleton_self _, rfl, ?_⟩⟩
  · obtain ⟨before, -, -, -, -, hrendered⟩ :=
      reports_rendered (hslash ▸ List.mem_singleton_self _)
    exact ⟨before, hrendered (by decide)⟩
  · obtain ⟨before, -, -, -, -, hrendered⟩ :=
      reports_rendered (hempty ▸ List.mem_singleton_self _)
    exact ⟨before, hrendered (by decide)⟩

/-! ### The longest texts -/

theorem byteLength_blanks (n : Nat) : byteLength (List.replicate n ' ') = n := by
  induction n with
  | zero => rfl
  | succ n ih =>
      rw [List.replicate_succ, byteLength, ih, Nat.add_comm]
      rfl

/-- Blanks are a single piece of trivia in front of the end marker. -/
theorem tokenize_blanks (n : Nat) : ∃ s t, tokenize .csharp (List.replicate (n + 1) ' ') = .ok s ∧
    s.tokens.toList = [t] ∧ t.kind = .eof ∧ t.span = .emptyAt (n + 1) := by
  have hne : List.replicate (n + 1) ' ' ≠ [] := by simp
  have hrun : Lexing.runLength Lexing.CSharp.isBlank (List.replicate (n + 1) ' ') = n + 1 := by
    simp [Lexing.runLength, Lexing.CSharp.isBlank]
  have hnext : Lexing.next .csharp {} (List.replicate (n + 1) ' ' ++ []) =
      .ok (true, ⟨.whitespace, n + 1, none⟩) := by
    have htrivia : Lexing.CSharp.trivia (List.replicate (n + 1) ' ') =
        .ok (some ⟨.whitespace, n + 1, none⟩) := by
      rw [Lexing.CSharp.trivia, Lexing.blanks, hrun]
      rfl
    rw [List.append_nil]
    simp only [Lexing.next, Lexing.triviaAt, htrivia]
    rfl
  obtain ⟨fuel, hfuel⟩ := tokenize_of_ne_nil .csharp hne
  rw [hfuel, Lexing.tokensFrom_trivia hne hnext (by simp), Lexing.tokensFrom_nil]
  refine ⟨_, _, rfl, rfl, rfl, ?_⟩
  simp [Lexing.Context.pass, byteLength_blanks]

/-- Nothing but blanks is no statement, and the report about that stands at the end of the text. -/
theorem exists_report_at_end (n : Nat) :
    ∃ r ∈ reportsOf .csharp .statement (List.replicate (n + 1) ' '), r.span = .emptyAt (n + 1) := by
  obtain ⟨s, t, hs, htokens, hkind, hspan⟩ := tokenize_blanks n
  have hend : (Packrat.parse CSharp.grammar .statement (.ofKinds [.eof])).skeleton? = none := by
    decide +kernel
  have hnone : (Packrat.parse CSharp.grammar .statement s).skeleton? = none := by
    rw [Packrat.parse_skeleton, htokens, List.map_singleton, hkind]
    exact hend
  cases hparse : Packrat.parse CSharp.grammar .statement s with
  | parsed tree =>
      rw [hparse] at hnone
      cases hnone
  | exhausted => exact absurd hparse (Packrat.parse_ne_exhausted _ _ _)
  | failed f =>
      obtain ⟨t', d, hd⟩ : ∃ t' d, Reported .csharp .statement (List.replicate (n + 1) ' ') s f t' d :=
        reported_of_failed hs hparse
      have ht : t' = t := by
        have hmem := List.mem_of_getElem? (i := f.position) (a := t') (l := s.tokens.toList)
          (by simpa [TokenStream.get?] using hd.valid)
        rw [htokens] at hmem
        exact List.mem_singleton.mp hmem
      refine ⟨d.report, ?_, ?_⟩
      · rw [reportsOf, hd.rejected]
        exact List.mem_singleton_self _
      · show d.span = _
        rw [hd.span, ht, hspan]

/-- A text of blanks that is one byte short of the limit is reported at its end, where no place is left to
mark. -/
theorem exists_unrendered :
    byteLength (List.replicate (offsetLimit - 1) ' ') < offsetLimit ∧
    ∃ r ∈ reportsOf .csharp .statement (List.replicate (offsetLimit - 1) ' '), ∀ colours file,
      r.render? colours file (List.replicate (offsetLimit - 1) ' ')
        (.ofText (List.replicate (offsetLimit - 1) ' ')) = none := by
  obtain ⟨n, hn⟩ : ∃ n, offsetLimit = n + 2 := ⟨offsetLimit - 2, rfl⟩
  have hblanks : offsetLimit - 1 = n + 1 := by omega
  rw [hblanks, byteLength_blanks]
  obtain ⟨r, hr, hspan⟩ := exists_report_at_end n
  refine ⟨by omega, r, hr, ?_⟩
  have hstart : r.span.start = byteLength (List.replicate (n + 1) ' ') := by
    rw [hspan, byteLength_blanks]
    rfl
  have hbegins : r.span.BeginsIn (List.replicate (n + 1) ' ' ++ []) := by
    rw [List.append_nil]
    exact beginsIn_of_mem_reportsOf hr
  have hrendered := rendered_of_beginsIn hstart hbegins
  have hline : lastLine (List.replicate (n + 1) ' ') = List.replicate (n + 1) ' ' :=
    lastLine_of_not_mem (by simp)
  rw [hline, byteLength_blanks, if_neg (by omega), List.append_nil] at hrendered
  exact hrendered

end DualSyntax
