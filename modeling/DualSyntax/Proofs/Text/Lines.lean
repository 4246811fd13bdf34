import DualSyntax.Text.Position

/-!
# Cutting texts and counting lines

A text that is split into characters in front of an offset and characters behind it can be cut
there, and cutting gives the split back.  `Span.text?_append` reads the middle of three parts, and
`Span.text?_isSome_iff` says which spans can be cut out at all.

The line table has one entry for each line, with the spans of the wide characters in it
(`scan_around`).  At a boundary between two characters, the line feeds in front of it are counted for
the line, and the characters behind the last of them for the column: the surplus of the wide characters
in front of the boundary, but of no other, is taken from the byte column.  So positions turn back into
the offsets that they come from (`lineTable_inverts`).
-/

namespace DualSyntax

namespace Text

theorem byteLength_append (xs ys : List Char) :
    byteLength (xs ++ ys) = byteLength xs + byteLength ys := by
  induction xs with
  | nil => simp [byteLength]
  | cons c cs ih => simp [byteLength, ih, Nat.add_assoc]

theorem byteLength_pos {cs : List Char} (h : cs ≠ []) : 0 < byteLength cs := by
  cases cs with
  | nil => exact absurd rfl h
  | cons c cs =>
      have hc := c.utf8Size_pos
      simp only [byteLength]
      omega

theorem length_le_byteLength (cs : List Char) : cs.length ≤ byteLength cs := by
  induction cs with
  | nil => exact Nat.le_refl 0
  | cons c cs ih =>
      have hc := c.utf8Size_pos
      rw [byteLength, List.length_cons]
      omega

theorem dropBytes?_append (xs ys : List Char) :
    dropBytes? (byteLength xs) (xs ++ ys) = some ys := by
  induction xs with
  | nil => simp [byteLength, dropBytes?]
  | cons c cs ih =>
      have hc := c.utf8Size_pos
      obtain ⟨n, hn⟩ : ∃ n, byteLength (c :: cs) = n + 1 :=
        ⟨byteLength (c :: cs) - 1, by simp only [byteLength]; omega⟩
      have hle : c.utf8Size ≤ n + 1 := by simp only [byteLength] at hn; omega
      have hrest : n + 1 - c.utf8Size = byteLength cs := by simp only [byteLength] at hn; omega
      rw [hn, List.cons_append, dropBytes?, if_pos hle, hrest, ih]

theorem takeBytes?_append (xs ys : List Char) :
    takeBytes? (byteLength xs) (xs ++ ys) = some xs := by
  induction xs with
  | nil => simp [byteLength, takeBytes?]
  | cons c cs ih =>
      have hc := c.utf8Size_pos
      obtain ⟨n, hn⟩ : ∃ n, byteLength (c :: cs) = n + 1 :=
        ⟨byteLength (c :: cs) - 1, by simp only [byteLength]; omega⟩
      have hle : c.utf8Size ≤ n + 1 := by simp only [byteLength] at hn; omega
      have hrest : n + 1 - c.utf8Size = byteLength cs := by simp only [byteLength] at hn; omega
      rw [hn, List.cons_append, takeBytes?, if_pos hle, hrest, ih]
      rfl

theorem exists_of_dropBytes? {n : Nat} {cs rest : List Char} (h : dropBytes? n cs = some rest) :
    ∃ before, cs = before ++ rest ∧ byteLength before = n := by
  induction n, cs using dropBytes?.induct with
  | case1 cs =>
      obtain rfl : cs = rest := by simpa [dropBytes?] using h
      exact ⟨[], rfl, rfl⟩
  | case2 n => simp [dropBytes?] at h
  | case3 n c cs hfits ih =>
      rw [dropBytes?, if_pos hfits] at h
      obtain ⟨before, rfl, hbefore⟩ := ih h
      refine ⟨c :: before, rfl, ?_⟩
      rw [byteLength, hbefore]
      omega
  | case4 n c cs hlong => simp [dropBytes?, hlong] at h

theorem exists_of_takeBytes? {n : Nat} {cs text : List Char} (h : takeBytes? n cs = some text) :
    ∃ rest, cs = text ++ rest ∧ byteLength text = n := by
  induction n, cs using takeBytes?.induct generalizing text with
  | case1 cs =>
      obtain rfl : [] = text := by simpa [takeBytes?] using h
      exact ⟨cs, rfl, rfl⟩
  | case2 n => simp [takeBytes?] at h
  | case3 n c cs hfits ih =>
      rw [takeBytes?, if_pos hfits] at h
      obtain ⟨more, hmore, rfl⟩ := Option.map_eq_some_iff.mp h
      obtain ⟨rest, rfl, hbytes⟩ := ih hmore
      refine ⟨rest, rfl, ?_⟩
      rw [byteLength, hbytes]
      omega
  | case4 n c cs hlong => simp [takeBytes?, hlong] at h

/-- Of two ways to split a text, the one that splits later goes on from the other. -/
theorem exists_of_byteLength_le {xs ys zs ws : List Char} (h : xs ++ ys = zs ++ ws)
    (hle : byteLength xs ≤ byteLength zs) : ∃ mid, zs = xs ++ mid ∧ ys = mid ++ ws := by
  rcases List.append_eq_append_iff.mp h with hmid | ⟨mid, hxs, hws⟩
  · exact hmid
  · have hnil : mid = [] := by
      cases mid with
      | nil => rfl
      | cons c mid =>
          have hpos := byteLength_pos (List.cons_ne_nil c mid)
          rw [hxs, byteLength_append] at hle
          omega
    exact ⟨[], by simp [hxs, hnil], by simp [hws, hnil]⟩

/-- A text is split in one way at an offset. -/
theorem split_unique {xs ys zs ws : List Char} (h : xs ++ ys = zs ++ ws)
    (heq : byteLength xs = byteLength zs) : xs = zs ∧ ys = ws := by
  have hys := dropBytes?_append xs ys
  rw [h, heq, dropBytes?_append] at hys
  cases hys
  exact ⟨List.append_cancel_right h, rfl⟩

/-- An offset that does not lie inside a character of the text, nor behind the text. -/
def IsBoundary (src : List Char) (o : Nat) : Prop :=
  ∃ before after, src = before ++ after ∧ byteLength before = o

theorem IsBoundary.le {src : List Char} {o : Nat} (h : IsBoundary src o) : o ≤ byteLength src := by
  obtain ⟨before, after, rfl, rfl⟩ := h
  rw [byteLength_append]
  omega

end Text

theorem Span.text?_append (before text after : List Char) :
    (Span.mk (Text.byteLength before) (Text.byteLength before + Text.byteLength text)).text?
      (before ++ (text ++ after)) = some text := by
  have hlen : (Span.mk (Text.byteLength before)
      (Text.byteLength before + Text.byteLength text)).length? = some (Text.byteLength text) := by
    simp [Span.length?]
  simp only [Span.text?, hlen, Text.dropBytes?_append, bind, Option.bind, Text.takeBytes?_append]

theorem Span.text?_isSome_iff (s : Span) (src : List Char) : (s.text? src).isSome = true ↔
    s.start ≤ s.stop ∧ Text.IsBoundary src s.start ∧ Text.IsBoundary src s.stop := by
  obtain ⟨start, stop⟩ := s
  constructor
  · intro h
    obtain ⟨text, htext⟩ := Option.isSome_iff_exists.mp h
    obtain ⟨n, hn, hcut⟩ := Option.bind_eq_some_iff.mp htext
    obtain ⟨tail, hdrop, htake⟩ := Option.bind_eq_some_iff.mp hcut
    obtain ⟨before, rfl, rfl⟩ := Text.exists_of_dropBytes? hdrop
    obtain ⟨after, rfl, rfl⟩ := Text.exists_of_takeBytes? htake
    obtain ⟨hle, hlength⟩ : Text.byteLength before ≤ stop ∧
        stop - Text.byteLength before = Text.byteLength text := by
      simpa [Span.length?, Option.ite_none_right_eq_some] using hn
    refine ⟨hle, ⟨before, text ++ after, rfl, rfl⟩, before ++ text, after, by simp, ?_⟩
    rw [Text.byteLength_append]
    change _ = stop
    omega
  · rintro ⟨hle, ⟨before, tail, rfl, rfl⟩, longer, after, hsplit, rfl⟩
    obtain ⟨text, rfl, rfl⟩ := Text.exists_of_byteLength_le hsplit hle
    rw [Text.byteLength_append, Span.text?_append]
    rfl

/-! ## Lines and columns -/

section LinesAndColumns

namespace Text

variable {cs : List Char}

/-- What stands in front of the first line feed of a text. -/
def firstLine (cs : List Char) : List Char := (cs.splitOn '\n').head?.getD []

/-- What stands behind the last line feed of a text. -/
def lastLine (cs : List Char) : List Char := (cs.splitOn '\n').getLast?.getD []

theorem firstLine_of_not_mem (h : '\n' ∉ cs) : firstLine cs = cs := by
  rw [firstLine, List.splitOn_eq_singleton h]
  rfl

theorem firstLine_append_cons (h : '\n' ∉ cs) (more : List Char) :
    firstLine (cs ++ '\n' :: more) = cs := by
  rw [firstLine, List.splitOn_append_cons_self_of_not_mem h]
  rfl

theorem lastLine_of_not_mem (h : '\n' ∉ cs) : lastLine cs = cs := by
  rw [lastLine, List.splitOn_eq_singleton h]
  rfl

theorem lastLine_append_cons (cs more : List Char) :
    lastLine (cs ++ '\n' :: more) = lastLine more := by
  obtain ⟨line, hline⟩ := Option.isSome_iff_exists.mp
    (List.getLast?_isSome.mpr (List.splitOn_ne_nil '\n' more))
  rw [lastLine, lastLine, List.splitOn_append_cons_self, List.getLast?_append, hline, Option.some_or]

end Text

namespace LineTable

open Text

/-- The spans of the wide characters of a text that begins at an offset. -/
def wideFrom (o : Nat) : List Char → List Span
  | [] => []
  | c :: cs =>
    if 1 < c.utf8Size then ⟨o, o + c.utf8Size⟩ :: wideFrom (o + c.utf8Size) cs
    else wideFrom (o + c.utf8Size) cs

theorem wideFrom_append (o : Nat) (head tail : List Char) :
    wideFrom o (head ++ tail) = wideFrom o head ++ wideFrom (o + byteLength head) tail := by
  induction head generalizing o with
  | nil => rfl
  | cons c cs ih =>
      rw [List.cons_append, wideFrom, wideFrom, byteLength, ih, Nat.add_assoc]
      split <;> rfl

theorem le_start_of_mem_wideFrom {o : Nat} {cs : List Char} {w : Span} (h : w ∈ wideFrom o cs) :
    o ≤ w.start := by
  induction cs generalizing o with
  | nil => cases h
  | cons c cs ih =>
      rw [wideFrom] at h
      split at h
      · rcases List.mem_cons.mp h with rfl | h
        · exact Nat.le_refl o
        · have := ih h
          omega
      · have := ih h
        omega

/-- The wide characters in front of an offset count once each, and those behind it not at all. -/
theorem columnOf_wideFrom (o column : Nat) (head tail : List Char) :
    columnOf (o + byteLength head) (wideFrom o (head ++ tail)) (column + byteLength head) =
      some (column + head.length) := by
  induction head generalizing o column with
  | nil =>
      have hbehind : ∀ w ∈ wideFrom o tail, o ≤ w.start := fun w hw => le_start_of_mem_wideFrom hw
      simp only [List.nil_append, List.length_nil, byteLength, Nat.add_zero]
      generalize wideFrom o tail = wide at hbehind
      cases wide with
      | nil => rfl
      | cons w ws => exact if_pos (hbehind w List.mem_cons_self)
  | cons c cs ih =>
      have hc := c.utf8Size_pos
      have hnext := ih (o + c.utf8Size) (column + 1)
      rw [List.cons_append, wideFrom, byteLength, List.length_cons]
      have hoffset : o + (c.utf8Size + byteLength cs) = o + c.utf8Size + byteLength cs := by omega
      have hcolumn : column + (cs.length + 1) = column + 1 + cs.length := by omega
      rw [hoffset, hcolumn, ← hnext]
      split
      · rw [columnOf, if_neg (by dsimp only; omega)]
        dsimp only
        rw [if_pos (by omega)]
        congr 1
        omega
      · congr 1
        omega

/-- Stepping over characters adds the surplus of the wide ones among them. -/
theorem offsetOf_wideFrom {o : Nat} (head tail : List Char) (h : o + byteLength head < offsetLimit) :
    offsetOf (wideFrom o (head ++ tail)) (o + head.length) = some (o + byteLength head) := by
  induction head generalizing o with
  | nil =>
      have hbehind : ∀ w ∈ wideFrom o tail, o ≤ w.start := fun w hw => le_start_of_mem_wideFrom hw
      have ho : o < offsetLimit := by simpa [byteLength] using h
      simp only [List.nil_append, List.length_nil, byteLength, Nat.add_zero]
      generalize wideFrom o tail = wide at hbehind
      induction wide with
      | nil => exact if_pos ho
      | cons w ws ih =>
          rw [List.forall_mem_cons] at hbehind
          rw [offsetOf, if_neg (Nat.not_le.mpr ho), if_neg (Nat.not_lt.mpr hbehind.1)]
          exact ih hbehind.2
  | cons c cs ih =>
      have hc := c.utf8Size_pos
      rw [byteLength] at h ⊢
      have hlength : cs.length ≤ byteLength cs := length_le_byteLength cs
      have hnext := ih (o := o + c.utf8Size) (by omega)
      rw [List.cons_append, wideFrom, List.length_cons]
      have hoffset : o + (c.utf8Size + byteLength cs) = o + c.utf8Size + byteLength cs := by omega
      rw [hoffset, ← hnext]
      split
      · rw [offsetOf, if_neg (by omega), if_pos (by dsimp only; omega)]
        congr 1
        dsimp only
        omega
      · congr 1
        omega

/-- The line at hand comes first, and every other line starts behind it. -/
theorem scan_eq_cons (start : Nat) (wide : List Span) (o : Nat) (cs : List Char) :
    ∃ all later, scan start wide o cs = ⟨start, all⟩ :: later ∧ ∀ l ∈ later, o < l.start := by
  induction cs generalizing start wide o with
  | nil => exact ⟨_, [], rfl, by simp⟩
  | cons c cs ih =>
      have hc := c.utf8Size_pos
      rw [scan]
      split
      · obtain ⟨all, later, heq, hlater⟩ := ih (o + c.utf8Size) [] (o + c.utf8Size)
        refine ⟨_, _, rfl, fun l hl => ?_⟩
        rcases List.mem_cons.mp (heq ▸ hl) with rfl | hl
        · show o < o + c.utf8Size
          omega
        · have := hlater l hl
          omega
      · have hbehind : ∀ wide, ∃ all later,
            scan start wide (o + c.utf8Size) cs = ⟨start, all⟩ :: later ∧ ∀ l ∈ later, o < l.start := by
          intro wide
          obtain ⟨all, later, heq, hlater⟩ := ih start wide (o + c.utf8Size)
          refine ⟨all, later, heq, fun l hl => ?_⟩
          have := hlater l hl
          omega
        split
        · exact hbehind _
        · exact hbehind _

/-- Within a line, only its wide characters are noted. -/
theorem scan_line (start : Nat) (wide : List Span) (o : Nat) {line : List Char} (h : '\n' ∉ line)
    (rest : List Char) : scan start wide o (line ++ rest) =
      scan start ((wideFrom o line).reverse ++ wide) (o + byteLength line) rest := by
  induction line generalizing wide o with
  | nil => rfl
  | cons c cs ih =>
      rw [List.mem_cons, not_or] at h
      rw [List.cons_append, scan, wideFrom, byteLength]
      rw [if_neg (Ne.symm h.1), ← Nat.add_assoc]
      split
      · rw [ih _ _ h.2]
        simp
      · rw [ih _ _ h.2]

/-- The lines of a text around a boundary: as many in front of the one that holds it as there are line
feeds, and those behind, of which the first starts after the next line feed. -/
structure Around (lines : List LineInfo) (o : Nat) (before after : List Char) (start : Nat)
    (earlier later : List LineInfo) : Prop where
  lines_eq : lines = earlier ++ ⟨start, wideFrom start (lastLine before ++ firstLine after)⟩ :: later
  count : earlier.length = before.count '\n'
  start_add : start + byteLength (lastLine before) = o
  earlier_le : ∀ l ∈ earlier, l.start ≤ o
  lt_later : ∀ l ∈ later, o < l.start
  next : later.head?.map (·.start) =
    if '\n' ∈ after then some (o + byteLength (firstLine after) + 1) else none

theorem scan_around (o : Nat) (before after : List Char) :
    ∃ start earlier later, Around (scan o [] o (before ++ after)) (o + byteLength before) before after
      start earlier later := by
  have hsize : ('\n' : Char).utf8Size = 1 := rfl
  induction hn : before.length using Nat.strongRecOn generalizing o before with
  | _ n ih =>
      by_cases hbreak : '\n' ∈ before
      · -- The first line is finished, and the rest is a shorter text of the same kind.
        obtain ⟨line, more, rfl, hline⟩ := List.eq_append_cons_of_mem hbreak
        obtain ⟨start, earlier, later, h⟩ := ih more.length (by simp [← hn]; omega)
          (o + byteLength line + 1) more rfl
        have hbytes : o + byteLength (line ++ '\n' :: more) = o + byteLength line + 1 + byteLength more := by
          rw [byteLength_append, byteLength]
          omega
        rw [hbytes]
        refine ⟨start, ⟨o, wideFrom o line⟩ :: earlier, later, ?_⟩
        exact
          { lines_eq := by
              rw [List.append_assoc, scan_line o [] o hline, List.cons_append, scan, if_pos rfl,
                lastLine_append_cons]
              simpa [hsize] using h.lines_eq
            count := by simp [h.count, List.count_eq_zero.mpr hline]
            start_add := by rw [lastLine_append_cons, h.start_add]
            earlier_le := by
              refine List.forall_mem_cons.mpr ⟨?_, h.earlier_le⟩
              show o ≤ _
              omega
            lt_later := h.lt_later
            next := h.next }
      · have hlast := lastLine_of_not_mem hbreak
        have hcount : before.count '\n' = 0 := List.count_eq_zero.mpr hbreak
        rw [scan_line o [] o hbreak]
        by_cases hbehind : '\n' ∈ after
        · obtain ⟨line, more, rfl, hline⟩ := List.eq_append_cons_of_mem hbehind
          have hfirst := firstLine_append_cons hline more
          obtain ⟨all, later, heq, hlater⟩ := scan_eq_cons (o + byteLength before + byteLength line + 1) []
            (o + byteLength before + byteLength line + 1) more
          refine ⟨o, [], ⟨o + byteLength before + byteLength line + 1, all⟩ :: later, ?_⟩
          exact
            { lines_eq := by
                rw [scan_line o _ _ hline, scan, if_pos rfl, hlast, hfirst, wideFrom_append]
                simp [hsize, heq]
              count := hcount.symm
              start_add := by rw [hlast]
              earlier_le := by simp
              lt_later := by
                refine List.forall_mem_cons.mpr ⟨?_, fun l hl => ?_⟩
                · show o + byteLength before < o + byteLength before + byteLength line + 1
                  omega
                · have := hlater l hl
                  omega
              next := by simp [hfirst] }
        · have hfirst := firstLine_of_not_mem hbehind
          refine ⟨o, [], [], ?_⟩
          exact
            { lines_eq := by
                have hscan := scan_line o ((wideFrom o before).reverse ++ []) (o + byteLength before)
                  hbehind []
                rw [List.append_nil after] at hscan
                rw [hscan, hlast, hfirst, wideFrom_append]
                simp [scan]
              count := hcount.symm
              start_add := by rw [hlast]
              earlier_le := by simp
              lt_later := by simp
              next := by simp [hbehind] }

section Boundary

variable {src before after : List Char} {start : Nat} {earlier later : List LineInfo}

theorem lines_around (before after : List Char) : ∃ start earlier later,
    Around (ofText (before ++ after)).lines (byteLength before) before after start earlier later := by
  simpa [ofText] using scan_around 0 before after

theorem Around.lineIndex
    (h : Around (ofText src).lines (byteLength before) before after start earlier later) :
    (ofText src).lineIndex (byteLength before) = before.count '\n' := by
  have hfront : earlier.countP (fun l => l.start ≤ byteLength before) = earlier.length :=
    List.countP_eq_length.mpr (by simpa using h.earlier_le)
  have hbehind : later.countP (fun l => l.start ≤ byteLength before) = 0 :=
    List.countP_eq_zero.mpr (by simpa using h.lt_later)
  have hstart : start ≤ byteLength before := by
    have := h.start_add
    omega
  simp only [LineTable.lineIndex, h.lines_eq, List.countP_append, List.countP_cons, hfront, hbehind,
    hstart, h.count]
  simp

theorem Around.getElem?
    (h : Around (ofText src).lines (byteLength before) before after start earlier later) :
    (ofText src).lines[before.count '\n']? =
      some ⟨start, wideFrom start (lastLine before ++ firstLine after)⟩ := by
  rw [h.lines_eq, ← h.count]
  simp

theorem Around.lineAt
    (h : Around (ofText src).lines (byteLength before) before after start earlier later) :
    (ofText src).lineAt (byteLength before) =
      ⟨start, wideFrom start (lastLine before ++ firstLine after)⟩ := by
  rw [LineTable.lineAt, h.lineIndex, List.getD_eq_getElem?_getD, h.getElem?]
  rfl

end Boundary

/-- The line of a boundary is the number of line feeds in front of it, and its column the number of
characters behind the last of them. -/
theorem lineColumn?_boundary (before after : List Char) :
    (ofText (before ++ after)).lineColumn? (byteLength before) =
      some ⟨before.count '\n', (lastLine before).length⟩ := by
  obtain ⟨start, earlier, later, h⟩ := lines_around before after
  have hcolumn := columnOf_wideFrom start 0 (lastLine before) (firstLine after)
  rw [h.start_add, Nat.zero_add, Nat.zero_add] at hcolumn
  have hbytes : byteLength before - start = byteLength (lastLine before) := by
    have := h.start_add
    omega
  rw [lineColumn?, h.lineAt, h.lineIndex]
  dsimp only
  rw [hbytes, hcolumn]
  rfl

/-- The offset of the position of a boundary is the boundary. -/
theorem offset?_boundary (before after : List Char) (h : byteLength (before ++ after) < offsetLimit) :
    (ofText (before ++ after)).offset? ⟨before.count '\n', (lastLine before).length⟩ =
      some (byteLength before) := by
  obtain ⟨start, earlier, later, haround⟩ := lines_around before after
  rw [byteLength_append] at h
  have hoffset := offsetOf_wideFrom (o := start) (lastLine before) (firstLine after) (by
    have := haround.start_add
    omega)
  rw [haround.start_add] at hoffset
  rw [offset?, haround.getElem?]
  dsimp only
  rw [hoffset, Option.map_some, ofText, byteLength_append, Nat.min_eq_left (Nat.le_add_right _ _)]

/-- The line of a boundary starts behind the last line feed in front of it and ends behind the next one,
or at the end of the text. -/
theorem lineSpan_boundary (before after : List Char) :
    (ofText (before ++ after)).lineSpan (byteLength before) =
      ⟨byteLength before - byteLength (lastLine before),
        byteLength before + byteLength (firstLine after) + if '\n' ∈ after then 1 else 0⟩ := by
  obtain ⟨start, earlier, later, h⟩ := lines_around before after
  have hstart : start = byteLength before - byteLength (lastLine before) := by
    have := h.start_add
    omega
  have hnext : (ofText (before ++ after)).lines[before.count '\n' + 1]? = later.head? := by
    rw [h.lines_eq, ← h.count, List.getElem?_append_right (by omega), Nat.add_sub_cancel_left,
      List.getElem?_cons_succ, List.head?_eq_getElem?]
  have hstop : (later.head?).elim (ofText (before ++ after)).stop (·.start) =
      byteLength before + byteLength (firstLine after) + if '\n' ∈ after then 1 else 0 := by
    have hstarts := h.next
    split at hstarts
    · next hbehind =>
        obtain ⟨l, hl, hnext⟩ := Option.map_eq_some_iff.mp hstarts
        rw [hl, if_pos hbehind]
        exact hnext
    · next hbehind =>
        rw [Option.map_eq_none_iff.mp hstarts, if_neg hbehind, firstLine_of_not_mem hbehind]
        exact byteLength_append before after
  rw [lineSpan, h.lineAt, h.lineIndex, hnext, hstop, hstart]

/-- The table gives a position for every boundary. -/
theorem lineColumn?_of_isBoundary {src : List Char} {o : Nat} (h : Text.IsBoundary src o) :
    (ofText src).lineColumn? o = some ((ofText src).lineColumn o) := by
  obtain ⟨before, after, rfl, rfl⟩ := h
  rw [lineColumn, lineColumn?_boundary]
  rfl

end LineTable

/-! ## Both ways -/

open Text

theorem Text.exists_boundary_of_line {src line : List Char} {l c : Nat}
    (hline : (src.splitOn '\n')[l]? = some line) (hc : c ≤ line.length) :
    ∃ before after, src = before ++ after ∧ before.count '\n' = l ∧ (lastLine before).length = c := by
  induction l generalizing src with
  | zero =>
      -- The first line has no line feed, and neither has its beginning.
      have hfirst : ∃ rest, src = line ++ rest ∧ '\n' ∉ line := by
        by_cases hbreak : '\n' ∈ src
        · obtain ⟨first, more, rfl, hfirst⟩ := List.eq_append_cons_of_mem hbreak
          rw [List.splitOn_append_cons_self_of_not_mem hfirst] at hline
          cases hline
          exact ⟨'\n' :: more, rfl, hfirst⟩
        · rw [List.splitOn_eq_singleton hbreak] at hline
          cases hline
          exact ⟨[], by simp, hbreak⟩
      obtain ⟨rest, rfl, hnone⟩ := hfirst
      have htake : '\n' ∉ line.take c := fun h => hnone (List.mem_of_mem_take h)
      refine ⟨line.take c, line.drop c ++ rest, ?_, List.count_eq_zero.mpr htake, ?_⟩
      · rw [← List.append_assoc, List.take_append_drop]
      · rw [lastLine_of_not_mem htake, List.length_take, Nat.min_eq_left hc]
  | succ l ih =>
      by_cases hbreak : '\n' ∈ src
      · obtain ⟨first, more, rfl, hfirst⟩ := List.eq_append_cons_of_mem hbreak
        rw [List.splitOn_append_cons_self_of_not_mem hfirst, List.getElem?_cons_succ] at hline
        obtain ⟨before, after, rfl, hcount, hlength⟩ := ih hline
        refine ⟨first ++ '\n' :: before, after, by simp, ?_, ?_⟩
        · rw [List.count_append, List.count_eq_zero.mpr hfirst, List.count_cons_self, hcount]
          omega
        · rw [lastLine_append_cons, hlength]
      · rw [List.splitOn_eq_singleton hbreak] at hline
        cases hline

/-- At a boundary of a text the table gives the line and the column that count line feeds and
characters, the way back, and the span from behind one line feed to behind the next.  From every
position on a line it gives the offset that has this position. -/
theorem lineTable_inverts {src : List Char} (hsize : byteLength src < offsetLimit) :
    (∀ before after, src = before ++ after →
      (LineTable.ofText src).lineColumn? (byteLength before) =
          some ⟨before.count '\n', (lastLine before).length⟩ ∧
        (LineTable.ofText src).offset? ⟨before.count '\n', (lastLine before).length⟩ =
          some (byteLength before) ∧
        (LineTable.ofText src).lineSpan (byteLength before) =
          ⟨byteLength before - byteLength (lastLine before),
            byteLength before + byteLength (firstLine after) + if '\n' ∈ after then 1 else 0⟩) ∧
    ∀ l c line, (src.splitOn '\n')[l]? = some line → c ≤ line.length →
      ∃ o, (LineTable.ofText src).offset? ⟨l, c⟩ = some o ∧
        (LineTable.ofText src).lineColumn? o = some ⟨l, c⟩ := by
  constructor
  · rintro before after rfl
    exact ⟨LineTable.lineColumn?_boundary before after, LineTable.offset?_boundary before after hsize,
      LineTable.lineSpan_boundary before after⟩
  · intro l c line hline hc
    obtain ⟨before, after, rfl, rfl, rfl⟩ := exists_boundary_of_line hline hc
    exact ⟨byteLength before, LineTable.offset?_boundary before after hsize,
      LineTable.lineColumn?_boundary before after⟩

/-- A wide character in front of the boundary, and one behind the position. -/
theorem lineTable_inverts_wide :
    byteLength "é\nd🙂eé\n".toList < offsetLimit ∧ "é\nd🙂eé\n".toList = "é\nd🙂".toList ++ "eé\n".toList ∧
      (LineTable.ofText "é\nd🙂eé\n".toList).lineColumn? 8 = some ⟨1, 2⟩ ∧
      (LineTable.ofText "é\nd🙂eé\n".toList).offset? ⟨1, 2⟩ = some 8 ∧
      (LineTable.ofText "é\nd🙂eé\n".toList).lineSpan 8 = ⟨3, 12⟩ ∧
      ("é\nd🙂eé\n".toList.splitOn '\n')[1]? = some "d🙂eé".toList ∧
      ∃ o, (LineTable.ofText "é\nd🙂eé\n".toList).offset? ⟨1, 3⟩ = some o ∧
        (LineTable.ofText "é\nd🙂eé\n".toList).lineColumn? o = some ⟨1, 3⟩ := by
  have hsize : byteLength "é\nd🙂eé\n".toList < offsetLimit := by decide
  have hline : ("é\nd🙂eé\n".toList.splitOn '\n')[1]? = some "d🙂eé".toList := by decide
  obtain ⟨hboundary, hposition⟩ := lineTable_inverts hsize
  obtain ⟨hcolumn, hoffset, hspan⟩ := hboundary "é\nd🙂".toList "eé\n".toList rfl
  exact ⟨hsize, rfl, hcolumn, hoffset, hspan, hline, hposition 1 3 _ hline (by decide)⟩

end LinesAndColumns

end DualSyntax
