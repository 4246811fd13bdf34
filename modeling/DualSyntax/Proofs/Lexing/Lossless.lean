import DualSyntax.Proofs.Lexing.Progress
import DualSyntax.Proofs.Text.Lines
import Mathlib.Data.List.Basic

/-!
# Tokens lose nothing of the text

The pieces of a token stream, each token after its trivia, cut the source text from its first to
its last byte.  `Scanned` describes the runs of the loop over a text, and `Cut` says what is to be
shown for the part of the text that the loop has still to read; `Scanned.cut` proves it along a run,
`tokenize_spec` for the whole text, and `tokenize_lossless` draws the conclusions: texts, spans, the
end marker and the trivia between the tokens.
-/

namespace DualSyntax

/-! ## Pieces of a stream -/

/-- A token after its trivia: the span and the text of each piece. -/
def Token.pieces (t : Token) : List (Span × String) :=
  t.leading.map (fun p => (p.span, p.text)) ++ [(t.span, t.text)]

/-- Where the entries that satisfy a condition end, if none behind them does. -/
theorem partitionPoint_append {α : Type} {p : α → Bool} {xs ys : List α} (hx : ∀ e ∈ xs, p e = true)
    (hy : ∀ e ∈ ys, p e = false) : partitionPoint p (xs ++ ys) = xs.length := by
  unfold partitionPoint
  induction xs with
  | nil =>
      cases ys with
      | nil => rfl
      | cons y ys => simp [List.findIdx_cons, hy y List.mem_cons_self]
  | cons x xs ih =>
      rw [List.forall_mem_cons] at hx
      simp [List.findIdx_cons, hx.1, ih hx.2]

namespace TokenStream

def pieces (s : TokenStream) : List (Span × String) :=
  s.inOrder (fun p => (p.span, p.text)) fun t => (t.span, t.text)

variable {ts us : List Token} {i k : Nat}

@[simp] theorem tokens_ofTokens : (ofTokens ts).tokens = ts.toArray := rfl

theorem triviaFrom_append :
    triviaFrom k (ts ++ us) = triviaFrom k ts ++ triviaFrom (k + ts.length) us := by
  induction ts generalizing k with
  | nil => rfl
  | cons t ts ih =>
      rw [List.cons_append, triviaFrom, ih, triviaFrom, List.append_assoc, List.length_cons,
        Nat.add_right_comm, Nat.add_assoc k]

/-- The trivia that is read with tokens gets the indices of these tokens. -/
theorem index_of_mem_triviaFrom {e : Nat × Trivia} (he : e ∈ triviaFrom k ts) :
    k ≤ e.1 ∧ e.1 < k + ts.length := by
  induction ts generalizing k with
  | nil => cases he
  | cons t ts ih =>
      rw [List.length_cons]
      rcases List.mem_append.mp he with he | he
      · obtain ⟨_, -, rfl⟩ := List.mem_map.mp he
        omega
      · have := ih he
        omega

/-- Entries of one index are found between those of smaller and those of greater indices. -/
theorem slice_of_index {α : Type} {xs ys zs : List (Nat × α)} (hx : ∀ e ∈ xs, e.1 < i)
    (hy : ∀ e ∈ ys, e.1 = i) (hz : ∀ e ∈ zs, i < e.1) :
    ((xs ++ (ys ++ zs)).take (partitionPoint (·.1 ≤ i) (xs ++ (ys ++ zs)))).drop
      (partitionPoint (·.1 < i) (xs ++ (ys ++ zs))) = ys := by
  have hlo : partitionPoint (·.1 < i) (xs ++ (ys ++ zs)) = xs.length := by
    refine partitionPoint_append (fun e he => decide_eq_true (hx e he)) fun e he => ?_
    rcases List.mem_append.mp he with he | he
    · exact decide_eq_false (by rw [hy e he]; exact Nat.lt_irrefl i)
    · exact decide_eq_false (Nat.lt_asymm (hz e he))
  have hhi : partitionPoint (·.1 ≤ i) ((xs ++ ys) ++ zs) = (xs ++ ys).length := by
    refine partitionPoint_append (fun e he => decide_eq_true ?_) fun e he => ?_
    · rcases List.mem_append.mp he with he | he
      · exact Nat.le_of_lt (hx e he)
      · exact Nat.le_of_eq (hy e he)
    · exact decide_eq_false (Nat.not_le.mpr (hz e he))
  rw [hlo, ← List.append_assoc, hhi, List.take_left, List.drop_left]

/-- **The list of trivia and the tokens agree**: in front of a token stands what was read with it. -/
theorem leadingTrivia_ofTokens (ts : List Token) (i : Nat) :
    (ofTokens ts).leadingTrivia i = (ts[i]?).elim [] (·.leading) := by
  have hbefore : ∀ e ∈ triviaFrom 0 (ts.take i), e.1 < i := fun e he => by
    have hlt := (index_of_mem_triviaFrom he).2
    rw [List.length_take] at hlt
    omega
  unfold leadingTrivia ofTokens
  cases ht : ts[i]? with
  | none =>
      have hall : ts.take i = ts := List.take_of_length_le (List.getElem?_eq_none_iff.mp ht)
      rw [hall] at hbefore
      have hslice := slice_of_index hbefore (List.forall_mem_nil fun e : Nat × Trivia => e.1 = i)
        (List.forall_mem_nil fun e : Nat × Trivia => i < e.1)
      rw [List.nil_append, List.append_nil] at hslice
      dsimp only
      rw [hslice]
      rfl
  | some t =>
      obtain ⟨hlt, rfl⟩ := List.getElem?_eq_some_iff.mp ht
      have hlength : (ts.take i).length = i := List.length_take_of_le (Nat.le_of_lt hlt)
      have hsplit : triviaFrom 0 ts = triviaFrom 0 (ts.take i) ++
          ((ts[i].leading).map (i, ·) ++ triviaFrom (i + 1) (ts.drop (i + 1))) := by
        conv => lhs; rw [← List.take_append_drop i ts, List.drop_eq_getElem_cons hlt]
        rw [triviaFrom_append, hlength, Nat.zero_add, triviaFrom]
      have hown : ∀ e ∈ (ts[i].leading).map (i, ·), e.1 = i := fun e he => by
        obtain ⟨_, -, rfl⟩ := List.mem_map.mp he
        rfl
      have hafter : ∀ e ∈ triviaFrom (i + 1) (ts.drop (i + 1)), i < e.1 :=
        fun e he => (index_of_mem_triviaFrom he).1
      have hslice := slice_of_index hbefore hown hafter
      dsimp only
      rw [hsplit, hslice, List.map_map]
      exact List.map_id _

/-- What stands at the indices of a list, one index after the other. -/
theorem flatMap_range {α β : Type} (f : α → List β) (xs : List α) :
    ((List.range xs.length).flatMap fun i => (xs[i]?).elim [] f) = xs.flatMap f := by
  induction xs with
  | nil => rfl
  | cons x xs ih =>
      rw [List.length_cons, List.range_succ_eq_map, List.flatMap_cons, List.flatMap_map,
        List.flatMap_cons, ← ih]
      rfl

theorem inOrder_ofTokens {α : Type} (f : Trivia → α) (g : Token → α) (ts : List Token) :
    (ofTokens ts).inOrder f g = ts.flatMap fun t => t.leading.map f ++ [g t] := by
  rw [← flatMap_range, inOrder]
  refine List.flatMap_congr fun i _ => ?_
  have hget : (ofTokens ts).get? i = ts[i]? := by simp [get?]
  rw [leadingTrivia_ofTokens, hget]
  cases ts[i]? <;> rfl

theorem text_eq_join (s : TokenStream) : s.text = String.join (s.pieces.map (·.2)) := by
  simp only [text, pieces, inOrder, List.map_flatMap, List.map_append, List.map_map]
  rfl

end TokenStream

/-- Spans that follow each other without a gap from one offset to another. -/
def Span.Tile : Nat → List Span → Nat → Prop
  | o, [], stop => o = stop
  | o, s :: ss, stop => s.start = o ∧ Span.Tile s.stop ss stop

theorem Span.Tile.append {a b c : Nat} {ss ts : List Span} (hs : Span.Tile a ss b)
    (ht : Span.Tile b ts c) : Span.Tile a (ss ++ ts) c := by
  induction ss generalizing a with
  | nil =>
      have hab : a = b := hs
      exact hab ▸ ht
  | cons s ss ih => exact ⟨hs.1, ih hs.2⟩

namespace Lexing

/-! ## Cuts of a text -/

/-- The pieces cut a text that begins at an offset into parts that are not empty. -/
inductive Cut : Nat → List Char → List (Span × String) → Prop
  | done (o : Nat) : Cut o [] []
  | piece {o : Nat} {text rest : List Char} {pieces : List (Span × String)}
      (nonempty : text ≠ []) (tail : Cut (o + Text.byteLength text) rest pieces) :
      Cut o (text ++ rest)
        ((⟨o, o + Text.byteLength text⟩, String.ofList text) :: pieces)

namespace Cut

variable {o : Nat} {cs : List Char} {pieces : List (Span × String)}

theorem join_eq (h : Cut o cs pieces) :
    (pieces.map fun p => p.2.toList).flatten = cs := by
  induction h with
  | done o => rfl
  | piece nonempty tail ih => simp [ih]

theorem tile (h : Cut o cs pieces) :
    Span.Tile o (pieces.map (·.1)) (o + Text.byteLength cs) := by
  induction h with
  | done o => rfl
  | piece nonempty tail ih =>
      refine ⟨rfl, ?_⟩
      rw [Text.byteLength_append, ← Nat.add_assoc]
      exact ih

/-- The pieces begin in the text, one after the other. -/
theorem increasing (h : Cut o cs pieces) :
    (∀ p ∈ pieces, o ≤ p.1.start ∧ p.1.start < o + Text.byteLength cs) ∧
      pieces.Pairwise (·.1.start < ·.1.start) := by
  induction h with
  | done o => exact ⟨by simp, .nil⟩
  | @piece o text rest pieces nonempty tail ih =>
      obtain ⟨hbounds, hincreasing⟩ := ih
      have hpos := Text.byteLength_pos nonempty
      rw [Text.byteLength_append]
      refine ⟨List.forall_mem_cons.mpr ⟨⟨Nat.le_refl o, ?_⟩, fun p hp => ?_⟩,
        List.pairwise_cons.mpr ⟨fun p hp => ?_, hincreasing⟩⟩
      · show o < _
        omega
      · have := hbounds p hp
        omega
      · have := hbounds p hp
        show o < _
        omega

/-- Each piece is not empty and is what its span cuts out of the whole text. -/
theorem mem_spec (h : Cut o cs pieces) (before : List Char)
    (ho : Text.byteLength before = o) {p : Span × String} (hp : p ∈ pieces) :
    p.1.start < p.1.stop ∧ p.1.text? (before ++ cs) = some p.2.toList ∧
      Text.IsBoundary (before ++ cs) p.1.start ∧ Text.IsBoundary (before ++ cs) p.1.stop := by
  induction h generalizing before with
  | done o => cases hp
  | @piece o text rest pieces nonempty tail ih =>
      have hnext : Text.byteLength (before ++ text) = o + Text.byteLength text := by
        rw [Text.byteLength_append, ho]
      cases hp with
      | head =>
          have hpos := Text.byteLength_pos nonempty
          subst ho
          refine ⟨by simp only; omega, ?_, ?_, ?_⟩
          · simpa using Span.text?_append before text rest
          · exact ⟨before, text ++ rest, rfl, rfl⟩
          · exact ⟨before ++ text, rest, by simp, hnext⟩
      | tail _ hp => simpa using ih (before ++ text) hnext hp

end Cut

/-! ## The loop over the text -/

/-- One step of the loop: a proper lexeme is cut off the head of a text. -/
structure Cuts (l : Language) (cx : Context) (isTrivia : Bool) (found : Lexeme)
    (text rest : List Char) : Prop where
  next : next l cx (text ++ rest) = .ok (isTrivia, found)
  proper : found.Proper
  text_eq : text = (text ++ rest).take found.length
  ne_nil : text ≠ []

namespace Context

variable (cx : Context) (found : Lexeme) (text : List Char)

/-- The span of a piece of text at the head of the remaining one. -/
def span : Span := ⟨cx.offset, cx.offset + Text.byteLength text⟩

/-- The token of a lexeme takes the pending trivia along. -/
def token : Token :=
  { kind := found.kind, span := cx.span text, text := String.ofList text, value := found.value,
    leading := cx.pending.reverse }

/-- The end marker takes the trivia that is left. -/
def endMarker : Token :=
  { kind := .eof, span := .emptyAt cx.offset, text := "", leading := cx.pending.reverse }

/-- The context after a piece of trivia. -/
def afterTrivia : Context :=
  { cx.pass text with pending := ⟨found.kind, cx.span text, String.ofList text⟩ :: cx.pending }

def afterToken : Context := { cx.pass text with last := some found.kind, pending := [] }

variable {cx} in
theorem offset_pass {before : List Char} (ho : cx.offset = Text.byteLength before) :
    (cx.pass text).offset = Text.byteLength (before ++ text) := by
  rw [Text.byteLength_append, ← ho]
  rfl

end Context

/-- What one step of the loop does: the lexeme becomes a piece of pending trivia or a token. -/
theorem tokensFrom_step {l : Language} {fuel : Nat} {cx : Context} {c : Char} {cs : List Char}
    {ts : List Token} (h : tokensFrom l (fuel + 1) cx (c :: cs) = .ok ts) :
    ∃ isTrivia found text rest, c :: cs = text ++ rest ∧ Cuts l cx isTrivia found text rest ∧
      ((isTrivia = true ∧ tokensFrom l fuel (cx.afterTrivia found text) rest = .ok ts) ∨
        (isTrivia = false ∧ ∃ tail, tokensFrom l fuel (cx.afterToken found text) rest = .ok tail ∧
          ts = cx.token found text :: tail)) := by
  rw [tokensFrom] at h
  cases hnext : next l cx (c :: cs) with
  | error fault => simp [hnext] at h
  | ok answer =>
      obtain ⟨isTrivia, found⟩ := answer
      simp only [hnext] at h
      have hproper := next_proper hnext
      have hsplit := List.take_append_drop found.length (c :: cs)
      have hnonempty : (c :: cs).take found.length ≠ [] := by
        have hpos := hproper.pos
        simp only [ne_eq, List.take_eq_nil_iff, List.cons_ne_nil, or_false]
        omega
      have hcuts : Cuts l cx isTrivia found ((c :: cs).take found.length)
          ((c :: cs).drop found.length) :=
        ⟨by rw [hsplit, hnext], hproper, by rw [hsplit], hnonempty⟩
      refine ⟨isTrivia, found, _, _, hsplit.symm, hcuts, ?_⟩
      cases isTrivia with
      | true => exact .inl ⟨rfl, h⟩
      | false =>
          obtain ⟨tail, htail, rfl⟩ := exists_of_map h
          exact .inr ⟨rfl, tail, htail, rfl⟩

/-- The runs of the loop: what it reads off the rest of a text in a context. -/
inductive Scanned (l : Language) : Context → List Char → List Token → Prop
  | done (cx : Context) : Scanned l cx [] [cx.endMarker]
  | trivia {cx : Context} {found : Lexeme} {text rest : List Char} {ts : List Token}
      (cut : Cuts l cx true found text rest)
      (tail : Scanned l (cx.afterTrivia found text) rest ts) : Scanned l cx (text ++ rest) ts
  | token {cx : Context} {found : Lexeme} {text rest : List Char} {ts : List Token}
      (cut : Cuts l cx false found text rest)
      (tail : Scanned l (cx.afterToken found text) rest ts) :
      Scanned l cx (text ++ rest) (cx.token found text :: ts)

theorem scanned_of_tokensFrom {l : Language} {fuel : Nat} {cx : Context} {cs : List Char}
    {ts : List Token} (hfuel : cs.length ≤ fuel) (h : tokensFrom l fuel cx cs = .ok ts) :
    Scanned l cx cs ts := by
  induction fuel generalizing cx cs ts with
  | zero =>
      obtain rfl : cs = [] := List.length_eq_zero_iff.mp (Nat.le_zero.mp hfuel)
      cases h
      exact .done cx
  | succ fuel ih =>
      cases cs with
      | nil =>
          cases h
          exact .done cx
      | cons c cs =>
          obtain ⟨isTrivia, found, text, rest, hsplit, hcuts, hstep⟩ := tokensFrom_step h
          have hrest : rest.length ≤ fuel := by
            have hlen := congrArg List.length hsplit
            have hpos := List.length_pos_iff.mpr hcuts.ne_nil
            simp only [List.length_cons, List.length_append] at hfuel hlen
            omega
          rw [hsplit]
          rcases hstep with ⟨rfl, htail⟩ | ⟨rfl, tail, htail, rfl⟩
          · exact .trivia hcuts (ih hrest htail)
          · exact .token hcuts (ih hrest htail)

theorem scanned_of_tokenize {l : Language} {src : List Char} {s : TokenStream}
    (h : tokenize l src = .ok s) : Scanned l {} src s.tokens.toList := by
  obtain ⟨ts, hts, rfl⟩ := exists_of_map h
  exact scanned_of_tokensFrom (Nat.le_refl _) hts

namespace Scanned

variable {l : Language} {cx : Context} {cs : List Char} {ts : List Token}

theorem forall_mem (h : Scanned l cx cs ts) {p : Token → Prop}
    (done : ∀ cx : Context, p cx.endMarker)
    (token : ∀ {cx : Context} {found : Lexeme} {text rest : List Char},
      Cuts l cx false found text rest → p (cx.token found text)) :
    ∀ t ∈ ts, p t := by
  induction h with
  | done cx => exact List.forall_mem_singleton.mpr (done cx)
  | trivia _ _ ih => exact ih
  | token hcuts _ ih => exact List.forall_mem_cons.mpr ⟨token hcuts, ih⟩

end Scanned

/-- A lexeme that the loop cuts off, in its place in the whole text. -/
structure CutAt (l : Language) (src : List Char) (cx : Context) (isTrivia : Bool) (found : Lexeme)
    (before text rest : List Char) : Prop where
  src_eq : src = before ++ (text ++ rest)
  offset : cx.offset = Text.byteLength before
  cuts : Cuts l cx isTrivia found text rest

namespace Scanned

variable {l : Language} {cx : Context} {cs before : List Char} {ts : List Token}

/-- Every token but the end marker is a lexeme in its place. -/
theorem token_at (h : Scanned l cx cs ts) (ho : cx.offset = Text.byteLength before) :
    ∀ t ∈ ts, t.kind ≠ .eof → ∃ cx found start text rest,
      CutAt l (before ++ cs) cx false found start text rest ∧ t = cx.token found text := by
  induction h generalizing before with
  | done cx =>
      intro t ht hkind
      obtain rfl := List.mem_singleton.mp ht
      exact absurd rfl hkind
  | @trivia cx found text rest ts hcuts _ ih =>
      rw [← List.append_assoc]
      exact ih (Context.offset_pass text ho)
  | @token cx found text rest ts hcuts _ ih =>
      intro t ht hkind
      rcases List.mem_cons.mp ht with rfl | ht
      · exact ⟨cx, found, before, text, rest, ⟨rfl, ho, hcuts⟩, rfl⟩
      · rw [← List.append_assoc]
        exact ih (Context.offset_pass text ho) t ht hkind

/-- Every piece is the end marker, was left pending in front of the text, or is a lexeme in its
place, which is one of the tokens if it is no trivia. -/
theorem piece_at (h : Scanned l cx cs ts) (ho : cx.offset = Text.byteLength before) :
    ∀ p ∈ ts.flatMap Token.pieces, p.1.start = Text.byteLength (before ++ cs) ∨
      p ∈ cx.pending.map (fun p => (p.span, p.text)) ∨
      ∃ cx isTrivia found start text rest,
        CutAt l (before ++ cs) cx isTrivia found start text rest ∧
          p.1.start = Text.byteLength start ∧ (isTrivia = false → cx.token found text ∈ ts) := by
  induction h generalizing before with
  | done cx =>
      intro p hp
      have hpieces : p ∈ cx.pending.reverse.map (fun p => (p.span, p.text)) ∨
          p = (.emptyAt cx.offset, "") := by
        simpa [Token.pieces, Context.endMarker] using hp
      rcases hpieces with hpending | rfl
      · exact .inr (.inl (by simpa using hpending))
      · exact .inl (by rw [List.append_nil, ← ho]; rfl)
  | @trivia cx found text rest ts hcuts _ ih =>
      intro p hp
      rw [← List.append_assoc]
      rcases ih (Context.offset_pass text ho) p hp with hend | hpending | hlater
      · exact .inl hend
      · rcases List.mem_cons.mp hpending with rfl | hpending
        · refine .inr (.inr ⟨cx, true, found, before, text, rest, ⟨?_, ho, hcuts⟩, ho, nofun⟩)
          rw [List.append_assoc]
        · exact .inr (.inl hpending)
      · exact .inr (.inr hlater)
  | @token cx found text rest ts hcuts _ ih =>
      intro p hp
      rw [List.flatMap_cons] at hp
      rcases List.mem_append.mp hp with hfirst | htail
      · have hpieces : p ∈ cx.pending.reverse.map (fun p => (p.span, p.text)) ∨
            p = (cx.span text, String.ofList text) := by
          simpa [Token.pieces, Context.token] using hfirst
        rcases hpieces with hpending | rfl
        · exact .inr (.inl (by simpa using hpending))
        · exact .inr (.inr ⟨cx, false, found, before, text, rest, ⟨rfl, ho, hcuts⟩, ho,
            fun _ => List.mem_cons_self⟩)
      · rw [← List.append_assoc]
        rcases ih (Context.offset_pass text ho) p htail with hend | hpending | hlater
        · exact .inl hend
        · cases hpending
        · obtain ⟨cx', isTrivia, found', start, text', rest', hcut, hstart, hmem⟩ := hlater
          exact .inr (.inr ⟨cx', isTrivia, found', start, text', rest', hcut, hstart,
            fun hno => List.mem_cons_of_mem _ (hmem hno)⟩)

end Scanned

structure IsEnd (t : Token) (o : Nat) : Prop where
  kind : t.kind = .eof
  span : t.span = .emptyAt o
  text : t.text = ""

/-- After the trivia that is pending, the pieces of the tokens cut the rest of the text, and the end
marker comes last and nowhere else. -/
theorem Scanned.cut {l : Language} {cx : Context} {cs : List Char} {ts : List Token}
    (h : Scanned l cx cs ts) :
    ∃ init last pieces, ts = init ++ [last] ∧ (∀ t ∈ init, t.kind ≠ .eof) ∧
      IsEnd last (cx.offset + Text.byteLength cs) ∧ Cut cx.offset cs pieces ∧
      ts.flatMap Token.pieces = cx.pending.reverse.map (fun p => (p.span, p.text)) ++ pieces ++
        [(last.span, last.text)] := by
  have hend (cx : Context) (text rest : List Char) : cx.offset + Text.byteLength (text ++ rest) =
      (cx.pass text).offset + Text.byteLength rest := by
    rw [Text.byteLength_append, ← Nat.add_assoc]
    rfl
  induction h with
  | done cx =>
      refine ⟨[], _, [], rfl, by simp, ⟨rfl, rfl, rfl⟩, .done _, ?_⟩
      simp [Token.pieces, Context.endMarker]
  | @trivia cx found text rest ts hcuts _ ih =>
      obtain ⟨init, last, pieces, hts, hinit, hlast, hcut, hpieces⟩ := ih
      refine ⟨init, last, _, hts, hinit, hend cx text rest ▸ hlast, .piece hcuts.ne_nil hcut, ?_⟩
      rw [hpieces]
      simp [Context.afterTrivia, Context.span]
  | @token cx found text rest ts hcuts _ ih =>
      obtain ⟨init, last, pieces, hts, hinit, hlast, hcut, hpieces⟩ := ih
      refine ⟨_ :: init, last, _, by rw [hts, List.cons_append], ?_, hend cx text rest ▸ hlast,
        .piece hcuts.ne_nil hcut, ?_⟩
      · exact List.forall_mem_cons.mpr ⟨hcuts.proper.kind_ne, hinit⟩
      · rw [List.flatMap_cons, hpieces]
        simp [Token.pieces, Context.token, Context.span, Context.afterToken]

end Lexing

/-! ## The trivia between the tokens -/

namespace TokenStream

variable {ts : List Token} {k : Nat}

theorem triviaFrom_sorted : (triviaFrom k ts).Pairwise (fun a b => a.1 ≤ b.1) := by
  induction ts generalizing k with
  | nil => exact .nil
  | cons t ts ih =>
      refine List.pairwise_append.mpr ⟨?_, ih, fun a ha b hb => ?_⟩
      · exact List.pairwise_map.mpr (List.pairwise_of_forall fun _ _ => Nat.le_refl k)
      · obtain ⟨_, -, rfl⟩ := List.mem_map.mp ha
        exact Nat.le_of_lt (index_of_mem_triviaFrom hb).1

/-- The parts in front of the single tokens make up the whole list of trivia. -/
theorem triviaFrom_eq : triviaFrom k ts = (List.range ts.length).flatMap fun i =>
    ((ts[i]?).elim [] (·.leading)).map (k + i, ·) := by
  induction ts generalizing k with
  | nil => rfl
  | cons t ts ih =>
      rw [triviaFrom, List.length_cons, List.range_succ_eq_map, List.flatMap_cons, List.flatMap_map, ih]
      refine congrArg _ (List.flatMap_congr fun i _ => ?_)
      rw [Nat.add_assoc, Nat.add_comm 1]
      rfl

end TokenStream

theorem exists_ofTokens {l : Language} {src : List Char} {s : TokenStream}
    (h : tokenize l src = .ok s) : s = .ofTokens s.tokens.toList := by
  obtain ⟨ts, -, rfl⟩ := Lexing.exists_of_map h
  rfl

/-- In the stream of a text the slice of the list for a token is what was read with this token. -/
theorem leadingTrivia_of_tokenize {l : Language} {src : List Char} {s : TokenStream}
    (h : tokenize l src = .ok s) (i : Nat) :
    s.leadingTrivia i = (s.get? i).elim [] (·.leading) := by
  have hget : s.get? i = s.tokens.toList[i]? := Array.getElem?_toList.symm
  rw [hget]
  conv => lhs; rw [exists_ofTokens h]
  exact TokenStream.leadingTrivia_ofTokens _ i

/-! ## The whole text -/

theorem inOrder_of_tokenize {l : Language} {src : List Char} {s : TokenStream}
    (h : tokenize l src = .ok s) {α : Type} (f : Trivia → α) (g : Token → α) :
    s.inOrder f g = s.tokens.toList.flatMap fun t => t.leading.map f ++ [g t] := by
  conv => lhs; rw [exists_ofTokens h]
  exact TokenStream.inOrder_ofTokens f g _

theorem pieces_of_tokenize {l : Language} {src : List Char} {s : TokenStream}
    (h : tokenize l src = .ok s) : s.pieces = s.tokens.toList.flatMap Token.pieces :=
  inOrder_of_tokenize h _ _

/-- The pieces of the stream of a text cut the text, and the end marker follows them. -/
theorem tokenize_spec {l : Language} {src : List Char} {s : TokenStream}
    (h : tokenize l src = .ok s) :
    ∃ init last pieces, s.tokens.toList = init ++ [last] ∧ (∀ t ∈ init, t.kind ≠ .eof) ∧
      Lexing.IsEnd last (Text.byteLength src) ∧ Lexing.Cut 0 src pieces ∧
      s.pieces = pieces ++ [(Span.emptyAt (Text.byteLength src), "")] := by
  obtain ⟨init, last, pieces, hinit, hkinds, hlast, hcut, hpieces⟩ :=
    (Lexing.scanned_of_tokenize h).cut
  have hend : Lexing.IsEnd last (Text.byteLength src) := by simpa using hlast
  refine ⟨init, last, pieces, hinit, hkinds, hend, hcut, ?_⟩
  rw [pieces_of_tokenize h]
  simpa [hend.span, hend.text] using hpieces

theorem tokenize_text {l : Language} {src : List Char} {s : TokenStream}
    (h : tokenize l src = .ok s) : s.text = String.ofList src := by
  obtain ⟨-, -, pieces, -, -, -, hcut, hall⟩ := tokenize_spec h
  have hjoin := hcut.join_eq
  apply String.toList_inj.mp
  rw [TokenStream.text_eq_join, hall, String.toList_join]
  simpa [List.flatMap_def, Function.comp_def] using hjoin

/-- The texts of the tokens, each after the trivia that was read with it, make up the text. -/
theorem tokenize_tokens_text {l : Language} {src : List Char} {s : TokenStream}
    (h : tokenize l src = .ok s) :
    String.join (s.tokens.toList.flatMap fun t => t.leading.map (·.text) ++ [t.text]) =
      String.ofList src := by
  rw [← tokenize_text h, TokenStream.text, inOrder_of_tokenize h]

/-- Every piece of the stream of a text lies between two boundaries of it. -/
theorem tokenize_boundaries {l : Language} {src : List Char} {s : TokenStream}
    (h : tokenize l src = .ok s) {p : Span × String} (hp : p ∈ s.pieces) :
    p.1.start ≤ p.1.stop ∧ Text.IsBoundary src p.1.start ∧ Text.IsBoundary src p.1.stop := by
  obtain ⟨-, -, pieces, -, -, -, hcut, hall⟩ := tokenize_spec h
  rw [hall] at hp
  rcases List.mem_append.mp hp with hp | hp
  · obtain ⟨hlt, -, hboundaries⟩ := hcut.mem_spec [] rfl hp
    exact ⟨Nat.le_of_lt hlt, hboundaries⟩
  · obtain rfl := List.mem_singleton.mp hp
    have hend : Text.IsBoundary src (Text.byteLength src) := ⟨src, [], by simp, rfl⟩
    exact ⟨Nat.le_refl _, hend, hend⟩

theorem tokenize_token_boundaries {l : Language} {src : List Char} {s : TokenStream}
    (h : tokenize l src = .ok s) {i : Nat} {t : Token} (ht : s.get? i = some t) :
    t.span.start ≤ t.span.stop ∧ Text.IsBoundary src t.span.start ∧
      Text.IsBoundary src t.span.stop := by
  have hmem : t ∈ s.tokens.toList := by
    rw [Array.mem_toList_iff]
    exact Array.mem_of_getElem? ht
  have hpiece : (t.span, t.text) ∈ s.pieces := by
    rw [pieces_of_tokenize h]
    exact List.mem_flatMap.mpr ⟨t, hmem, by simp [Token.pieces]⟩
  exact tokenize_boundaries h hpiece

/-- The tokens of a text begin one after the other. -/
theorem tokenize_increasing {l : Language} {src : List Char} {s : TokenStream}
    (h : tokenize l src = .ok s) : s.tokens.toList.Pairwise (·.span.start < ·.span.start) := by
  obtain ⟨-, -, pieces, -, -, -, hcut, hall⟩ := tokenize_spec h
  obtain ⟨hbounds, hincreasing⟩ := hcut.increasing
  have hpieces : s.pieces.Pairwise (·.1.start < ·.1.start) := by
    rw [hall]
    refine List.pairwise_append.mpr ⟨hincreasing, List.pairwise_singleton _ _, fun p hp q hq => ?_⟩
    rw [List.mem_singleton.mp hq]
    simpa [Span.emptyAt] using (hbounds p hp).2
  rw [pieces_of_tokenize h] at hpieces
  have hlast (t : Token) : (t.span, t.text) ∈ t.pieces := by simp [Token.pieces]
  exact (List.pairwise_flatMap.mp hpieces).2.imp fun hlt => hlt _ (hlast _) _ (hlast _)

/-- Nothing of a source text is lost in a stream of tokens. -/
structure TokenStream.Lossless (s : TokenStream) (src : List Char) : Prop where
  /-- Writing each token after its trivia gives the text back. -/
  text : s.text = String.ofList src
  /-- The spans of the pieces follow each other from the start of the text to its end. -/
  contiguous : Span.Tile 0 (s.pieces.map (·.1)) (Text.byteLength src)
  /-- The text of a piece is what its span cuts out of the source. -/
  piece_text : ∀ p ∈ s.pieces, p.1.text? src = some p.2.toList
  /-- No piece is empty but the last, which is the end marker. -/
  nonempty : ∀ p ∈ s.pieces.dropLast, p.1.start < p.1.stop
  boundaries : ∀ p ∈ s.pieces, Text.IsBoundary src p.1.start ∧ Text.IsBoundary src p.1.stop
  /-- The last token, and only the last, is an end marker. -/
  last : ∃ init e, s.tokens.toList = init ++ [e] ∧ e.kind = .eof ∧ e.span.isEmpty = true ∧
    ∀ t ∈ init, t.kind ≠ .eof
  sorted : s.trivia.Pairwise (fun a b => a.1 ≤ b.1)
  index_valid : ∀ e ∈ s.trivia, e.1 < s.size
  /-- The trivia in front of the tokens, one token after the other, is all the trivia there is. -/
  partition : s.trivia = (List.range s.size).flatMap fun i => (s.leadingTrivia i).map (i, ·)

/-- Tokens lose nothing of the text, whichever language it is in. -/
theorem tokenize_lossless {l : Language} {src : List Char} {s : TokenStream}
    (h : tokenize l src = .ok s) : s.Lossless src := by
  obtain ⟨init, last, pieces, hinit, hkinds, hlast, hcut, hall⟩ := tokenize_spec h
  have hspec : ∀ p ∈ pieces, _ := fun p hp => hcut.mem_spec [] rfl hp
  constructor
  case text => exact tokenize_text h
  case contiguous =>
      rw [hall, List.map_append]
      have htile := hcut.tile
      rw [Nat.zero_add] at htile
      exact htile.append ⟨rfl, rfl⟩
  case piece_text =>
      intro p hp
      rw [hall] at hp
      rcases List.mem_append.mp hp with hp | hp
      · exact (hspec p hp).2.1
      · obtain rfl := List.mem_singleton.mp hp
        have hcutEnd := Span.text?_append src [] []
        simpa [Text.byteLength, Span.emptyAt] using hcutEnd
  case nonempty =>
      intro p hp
      rw [hall, List.dropLast_concat] at hp
      exact (hspec p hp).1
  case boundaries => exact fun p hp => (tokenize_boundaries h hp).2
  case last =>
      have hempty : last.span.isEmpty = true := by simp [hlast.span, Span.isEmpty, Span.emptyAt]
      exact ⟨init, last, hinit, hlast.kind, hempty, hkinds⟩
  case sorted =>
      rw [exists_ofTokens h]
      exact TokenStream.triviaFrom_sorted
  case index_valid =>
      intro e he
      rw [exists_ofTokens h] at he
      simpa [TokenStream.size] using (TokenStream.index_of_mem_triviaFrom he).2
  case partition =>
      have htrivia : s.trivia = TokenStream.triviaFrom 0 s.tokens.toList :=
        congrArg TokenStream.trivia (exists_ofTokens h)
      rw [htrivia, TokenStream.triviaFrom_eq, Array.length_toList]
      refine List.flatMap_congr fun i _ => ?_
      rw [leadingTrivia_of_tokenize h, Nat.zero_add, TokenStream.get?, Array.getElem?_toList]

/-- A text with wide characters, a comment and a line that goes on. -/
theorem tokenize_lossless_sample :
    ∃ s, tokenize .visualBasic "If ' é\n\"é\"c _".toList = .ok s ∧
      s.Lossless "If ' é\n\"é\"c _".toList := by
  have hok : (tokenize .visualBasic "If ' é\n\"é\"c _".toList).toBool = true := by decide +kernel
  cases h : tokenize .visualBasic "If ' é\n\"é\"c _".toList with
  | error fault =>
      rw [h] at hok
      cases hok
  | ok s => exact ⟨s, rfl, tokenize_lossless h⟩

end DualSyntax
