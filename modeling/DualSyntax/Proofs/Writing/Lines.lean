import DualSyntax.Proofs.Writing.Printed
import Mathlib.Data.List.DropRight

/-!
# Lines

A text that is written by steps is a list of lines.  A line is what the steps between two ends of line
write: nothing, or the indentation of the level at which its first piece was written and then the
pieces and single spaces in order.  Spaces at the end of a line are taken off when the line ends, and
so they may stand at the end of the last line, which has not ended.
-/

namespace DualSyntax.Output

/-! ## The lines that steps write -/

/-- The level of indentation after steps.  There is none below zero. -/
def levelAfter (level : Nat) : List OutputStep → Nat
  | [] => level
  | .indent :: steps => levelAfter (level + 1) steps
  | .unindent :: steps => levelAfter (level - 1) steps
  | _ :: steps => levelAfter level steps

/-- A line on which something stands, after more steps: pieces are added as they are, and a space
where none stands before it. -/
def continued (line : List Char) : List OutputStep → List Char
  | [] => line
  | .text s :: steps => continued (line ++ s.toList) steps
  | .space :: steps => continued (if line.getLast? = some ' ' then line else line ++ [' ']) steps
  | _ :: steps => continued line steps

/-- The line that steps write.  It begins with the first piece that is not empty, after the indentation
of the level there; steps before it leave no trace. -/
def lineOf (unit : List Char) (level : Nat) : List OutputStep → List Char
  | [] => []
  | .text s :: steps =>
    if s.isEmpty then lineOf unit level steps
    else continued ((List.replicate level unit).flatten ++ s.toList) steps
  | .indent :: steps => lineOf unit (level + 1) steps
  | .unindent :: steps => lineOf unit (level - 1) steps
  | _ :: steps => lineOf unit level steps

def trimmed (line : List Char) : List Char := line.rdropWhile (· == ' ')

/-- The lines that steps write, given the steps of each line.  All but the last have ended. -/
def linesOf (unit : List Char) (level : Nat) : List (List OutputStep) → List (List Char)
  | [] => []
  | [last] => [lineOf unit level last]
  | steps :: more => trimmed (lineOf unit level steps) :: linesOf unit (levelAfter level steps) more

/-- The lines of the text that steps write from its start. -/
def lines (unit : List Char) (steps : List OutputStep) : List (List Char) :=
  linesOf unit 0 (steps.splitOn .newLine)

/-- Every node that ends is the innermost one being written, or there is none. -/
def MarksAgree (opened : List NodeId) : List OutputStep → Prop
  | [] => True
  | .start n :: steps => MarksAgree (n :: opened) steps
  | .stop n :: steps =>
    match opened with
    | [] => MarksAgree [] steps
    | m :: opened => m = n ∧ MarksAgree opened steps
  | _ :: steps => MarksAgree opened steps

variable {o o' : Output} {steps more : List OutputStep} {before line : List Char}

/-! ## When there is an output -/

/-- A step other than the end of a node can always be taken and leaves the nodes being written. -/
theorem run?_isSome_iff (o : Output) (steps : List OutputStep) :
    (o.run? steps).isSome ↔ MarksAgree (o.opened.map (·.1)) steps := by
  induction steps generalizing o with
  | nil => simp [run?, MarksAgree]
  | cons step steps ih =>
      rw [run?_cons]
      cases step with
      | stop n =>
          rw [step?, endNode?]
          cases hopened : o.opened with
          | nil => simp [MarksAgree, ih, hopened]
          | cons innermost opened =>
              obtain ⟨m, start⟩ := innermost
              by_cases hm : m = n
              · simp [MarksAgree, ih, hm]
              · simp [MarksAgree, hm]
      | text s =>
          have hopened : (o.push s).opened = o.opened := by rw [push]; split <;> rfl
          rw [step?, Option.bind_some, ih, hopened, MarksAgree] <;> simp
      | space =>
          have hopened : o.space.opened = o.opened := by rw [space]; split <;> rfl
          rw [step?, Option.bind_some, ih, hopened, MarksAgree] <;> simp
      | newLine => rw [step?, Option.bind_some, ih, newLine, MarksAgree] <;> simp
      | indent => rw [step?, Option.bind_some, ih, indent, MarksAgree] <;> simp
      | unindent => rw [step?, Option.bind_some, ih, unindent, MarksAgree] <;> simp
      | start n => rw [step?, Option.bind_some, ih, startNode, MarksAgree, List.map_cons]

/-! ## One line -/

/-- The text ends with this line, which is being written. -/
structure EndsWith (o : Output) (before line : List Char) : Prop where
  text : o.reversed.reverse = before ++ line
  /-- An indentation is still to be written as long as the line is empty. -/
  empty_iff : o.atLineStart = true ↔ line = []
  /-- What comes before the line is empty or ends a line. -/
  before : before = [] ∨ before.getLast? = some '\n'

theorem EndsWith.reversed_eq (h : o.EndsWith before line) :
    o.reversed = line.reverse ++ before.reverse := by
  rw [← List.reverse_append, ← h.text, List.reverse_reverse]

theorem EndsWith.space_iff (h : o.EndsWith before line) :
    (o.atLineStart || o.reversed.head? == some ' ') = true ↔
      line = [] ∨ line.getLast? = some ' ' := by
  rw [Bool.or_eq_true, h.empty_iff, beq_iff_eq, h.reversed_eq]
  by_cases hline : line = []
  · simp [hline]
  · rw [List.head?_append_of_ne_nil _ (by simpa using hline), List.head?_reverse]

def lineAfter (unit : List Char) (level : Nat) (line : List Char) : OutputStep → List Char
  | .text s =>
    if line = [] ∧ s.isEmpty = false then (List.replicate level unit).flatten ++ s.toList
    else line ++ s.toList
  | .space => if line = [] ∨ line.getLast? = some ' ' then line else line ++ [' ']
  | _ => line

theorem chars_add (o : Output) (cs : List Char) :
    (o.add cs).reversed.reverse = o.reversed.reverse ++ cs := by
  rw [add, List.reverse_append, List.reverse_reverse]

theorem EndsWith.step (h : o.EndsWith before line) {step : OutputStep} (hstep : step ≠ .newLine)
    (hrun : o.step? step = some o') :
    o'.EndsWith before (lineAfter o.unit o.level line step) ∧ o'.level = levelAfter o.level [step] ∧
      o'.unit = o.unit := by
  cases step with
  | newLine => exact absurd rfl hstep
  | indent | unindent | start =>
      cases hrun
      exact ⟨⟨h.text, h.empty_iff, h.before⟩, rfl, rfl⟩
  | stop n =>
      rw [step?, endNode?] at hrun
      split at hrun
      · cases hrun
        exact ⟨h, rfl, rfl⟩
      · split at hrun <;> cases hrun
        exact ⟨⟨h.text, h.empty_iff, h.before⟩, rfl, rfl⟩
  | text s =>
      cases hrun
      have hempty : s.isEmpty = true ↔ s.toList = [] := by
        rw [String.isEmpty_iff, ← String.toList_eq_nil_iff]
      have hcond : (o.atLineStart && !s.isEmpty) = true ↔ line = [] ∧ s.isEmpty = false := by
        rw [Bool.and_eq_true, h.empty_iff, Bool.not_eq_true']
      rw [push, lineAfter]
      by_cases hfirst : line = [] ∧ s.isEmpty = false
      · -- the first piece on the line
        rw [if_pos (hcond.mpr hfirst), if_pos hfirst]
        refine ⟨⟨?_, ?_, h.before⟩, rfl, rfl⟩
        · rw [chars_add, addIndent, chars_add, h.text, hfirst.1]
          simp
        · simp_all [addIndent, add]
      · rw [if_neg (mt hcond.mp hfirst), if_neg hfirst]
        refine ⟨⟨?_, ?_, h.before⟩, rfl, rfl⟩
        · rw [chars_add, h.text, List.append_assoc]
        · rw [add, h.empty_iff, List.append_eq_nil_iff]
          refine ⟨fun hline => ⟨hline, hempty.mp ?_⟩, And.left⟩
          simpa [hline] using hfirst
  | space =>
      cases hrun
      rw [space, lineAfter]
      by_cases hspace : line = [] ∨ line.getLast? = some ' '
      · rw [if_pos (h.space_iff.mpr hspace), if_pos hspace]
        exact ⟨h, rfl, rfl⟩
      · rw [if_neg (mt h.space_iff.mp hspace), if_neg hspace]
        refine ⟨⟨?_, ?_, h.before⟩, rfl, rfl⟩
        · rw [chars_add, h.text, List.append_assoc]
        · rw [add, h.empty_iff]
          simp only [not_or] at hspace
          simp [hspace.1]

/-- A line after steps that do not end it: it is begun by them, or they continue it. -/
def lineFrom (unit : List Char) (level : Nat) (line : List Char) (steps : List OutputStep) :
    List Char :=
  if line = [] then lineOf unit level steps else continued line steps

theorem lineFrom_cons (unit : List Char) (level : Nat) (line : List Char) (step : OutputStep)
    (steps : List OutputStep) :
    lineFrom unit level line (step :: steps) =
      lineFrom unit (levelAfter level [step]) (lineAfter unit level line step) steps := by
  by_cases hline : line = []
  · subst hline
    cases step with
    | text s =>
        by_cases hs : s.isEmpty = true
        · have hs' : s.toList = [] := by rwa [String.toList_eq_nil_iff, ← String.isEmpty_iff]
          simp [lineFrom, lineAfter, lineOf, levelAfter, hs, hs']
        · have hs' : s.toList ≠ [] := by rwa [Ne, String.toList_eq_nil_iff, ← String.isEmpty_iff]
          simp [lineFrom, lineAfter, lineOf, hs, hs']
    | _ => simp [lineFrom, lineAfter, lineOf, levelAfter]
  · cases step with
    | space => by_cases hlast : line.getLast? = some ' ' <;>
        simp [lineFrom, lineAfter, continued, hline, hlast]
    | _ => simp [lineFrom, lineAfter, continued, hline]

theorem levelAfter_append (level : Nat) (steps more : List OutputStep) :
    levelAfter level (steps ++ more) = levelAfter (levelAfter level steps) more := by
  induction steps generalizing level with
  | nil => rfl
  | cons step steps ih => cases step <;> exact ih _

theorem EndsWith.run (h : o.EndsWith before line) (hsteps : .newLine ∉ steps)
    (hrun : o.run? steps = some o') :
    o'.EndsWith before (lineFrom o.unit o.level line steps) ∧ o'.level = levelAfter o.level steps ∧
      o'.unit = o.unit := by
  induction steps generalizing o line with
  | nil =>
      cases hrun
      refine ⟨?_, rfl, rfl⟩
      rw [lineFrom]
      split
      · next hline =>
        rw [hline] at h
        exact h
      · exact h
  | cons step steps ih =>
      rw [run?_cons, Option.bind_eq_some_iff] at hrun
      obtain ⟨o₁, hstep, hrun⟩ := hrun
      rw [List.mem_cons, not_or] at hsteps
      obtain ⟨hends, hlevel, hunit⟩ := h.step (Ne.symm hsteps.1) hstep
      obtain ⟨hends', hlevel', hunit'⟩ := ih hends hsteps.2 hrun
      rw [hunit, hlevel, ← lineFrom_cons] at hends'
      refine ⟨hends', ?_, hunit'.trans hunit⟩
      rw [hlevel', hlevel, ← levelAfter_append, List.singleton_append]

/-! ## Line after line -/

/-- The end of a line takes the spaces off the line, and nothing off what comes before it. -/
theorem EndsWith.newLine (h : o.EndsWith before line) :
    o.newLine.EndsWith (before ++ trimmed line ++ ['\n']) [] := by
  refine ⟨?_, by simp [Output.newLine], .inr (by simp)⟩
  have hkept : o.reversed.dropWhile (· == ' ') = (trimmed line).reverse ++ before.reverse := by
    rw [h.reversed_eq, List.dropWhile_append, trimmed, List.rdropWhile, List.reverse_reverse]
    split
    · next hspaces =>
      rw [List.isEmpty_iff.mp hspaces, List.nil_append]
      rcases h.before with hbefore | hbefore
      · rw [hbefore]
        rfl
      · rw [← List.head?_reverse] at hbefore
        exact List.dropWhile_eq_self_iff.mpr fun hlength => by
          rw [List.head?_eq_getElem?, List.getElem?_eq_getElem hlength, Option.some_inj] at hbefore
          rw [hbefore]
          decide
    · rfl
  rw [Output.newLine, hkept]
  simp

/-- Steps as lines: the last one, and those before it one by one. -/
theorem lineInduction {motive : List OutputStep → Prop}
    (last : ∀ steps, .newLine ∉ steps → motive steps)
    (line : ∀ steps more, .newLine ∉ steps → motive more → motive (steps ++ .newLine :: more))
    (steps : List OutputStep) : motive steps := by
  induction hlength : steps.length using Nat.strong_induction_on generalizing steps with
  | _ n ih =>
      subst hlength
      by_cases hmem : .newLine ∈ steps
      · obtain ⟨first, more, rfl, hfirst⟩ := List.eq_append_cons_of_mem hmem
        refine line first more hfirst (ih _ ?_ more rfl)
        rw [List.length_append, List.length_cons]
        omega
      · exact last steps hmem

/-- The first of several lines has ended. -/
theorem linesOf_line (unit : List Char) (level : Nat) (hsteps : .newLine ∉ steps) :
    linesOf unit level ((steps ++ .newLine :: more).splitOn .newLine) =
      trimmed (lineOf unit level steps) ::
        linesOf unit (levelAfter level steps) (more.splitOn .newLine) := by
  obtain ⟨head, tail, htail⟩ :=
    List.exists_cons_of_ne_nil (List.splitOn_ne_nil OutputStep.newLine more)
  rw [List.splitOn_append_cons_self_of_not_mem hsteps more, htail, linesOf]
  exact List.cons_ne_nil _ _

/-- What steps add to a text whose last line is empty: their lines. -/
theorem EndsWith.run_lines (h : o.EndsWith before []) (hrun : o.run? steps = some o') :
    o'.reversed.reverse =
        before ++ ['\n'].intercalate (linesOf o.unit o.level (steps.splitOn .newLine)) ∧
      (∃ closed last, linesOf o.unit o.level (steps.splitOn .newLine) = closed ++ [last] ∧
        ∃ before, o'.EndsWith before last) ∧
      o'.level = levelAfter o.level steps := by
  induction steps using lineInduction generalizing o before with
  | last steps hsteps =>
      obtain ⟨hends, hlevel, -⟩ := h.run hsteps hrun
      rw [lineFrom, if_pos rfl] at hends
      rw [List.splitOn_eq_singleton hsteps, linesOf, List.intercalate_singleton]
      exact ⟨hends.text, ⟨[], _, rfl, before, hends⟩, hlevel⟩
  | line steps more hsteps ih =>
      rw [run?_append, Option.bind_eq_some_iff] at hrun
      obtain ⟨o₁, hfirst, hmore⟩ := hrun
      obtain ⟨hends, hlevel, hunit⟩ := h.run hsteps hfirst
      rw [lineFrom, if_pos rfl] at hends
      rw [run?_cons, step?, Option.bind_some] at hmore
      obtain ⟨htext, ⟨closed, last, hlines, hlast⟩, hlevel'⟩ := ih hends.newLine hmore
      have hunit' : o₁.newLine.unit = o.unit := hunit
      have hlevel₁ : o₁.newLine.level = levelAfter o.level steps := hlevel
      rw [hunit', hlevel₁] at htext hlines
      rw [linesOf_line o.unit o.level hsteps]
      refine ⟨?_, ⟨trimmed (lineOf o.unit o.level steps) :: closed, last, ?_, hlast⟩, ?_⟩
      · rw [htext, List.intercalate_cons_of_ne_nil]
        · simp
        · rw [hlines]
          simp
      · rw [hlines, List.cons_append]
      · rw [hlevel', hlevel₁, levelAfter_append]
        rfl

/-! ## Lines are lines -/

theorem notMem_continued {c : Char} (hc : c ≠ ' ') (hline : c ∉ line)
    (htexts : ∀ s, .text s ∈ steps → c ∉ s.toList) : c ∉ Output.continued line steps := by
  induction steps generalizing line with
  | nil => exact hline
  | cons step steps ih =>
      have ih := fun line hline => @ih line hline fun s hs => htexts s (List.mem_cons_of_mem _ hs)
      cases step with
      | text s =>
          refine ih _ ?_
          rw [List.mem_append, not_or]
          exact ⟨hline, htexts s List.mem_cons_self⟩
      | space =>
          refine ih _ ?_
          split
          · exact hline
          · simp [hline, hc]
      | _ => exact ih _ hline

theorem notMem_lineOf {c : Char} {unit : List Char} {level : Nat} (hc : c ≠ ' ') (hunit : c ∉ unit)
    (htexts : ∀ s, .text s ∈ steps → c ∉ s.toList) : c ∉ lineOf unit level steps := by
  induction steps generalizing level with
  | nil => exact List.not_mem_nil
  | cons step steps ih =>
      have hmore : ∀ s, .text s ∈ steps → c ∉ s.toList := fun s hs =>
        htexts s (List.mem_cons_of_mem _ hs)
      cases step with
      | text s =>
          rw [lineOf]
          split
          · exact ih hmore
          · refine notMem_continued hc ?_ hmore
            rw [List.mem_append, not_or]
            refine ⟨?_, htexts s List.mem_cons_self⟩
            simp [List.mem_flatten, List.mem_replicate, hunit]
      | _ => exact ih hmore

theorem notMem_linesOf {c : Char} {unit : List Char} {level : Nat} (hc : c ≠ ' ') (hunit : c ∉ unit)
    (htexts : ∀ s, .text s ∈ steps → c ∉ s.toList) :
    ∀ line ∈ linesOf unit level (steps.splitOn .newLine), c ∉ line := by
  induction steps using lineInduction generalizing level with
  | last steps hsteps =>
      rw [List.splitOn_eq_singleton hsteps, linesOf]
      intro line hline
      rw [List.mem_singleton.mp hline]
      exact notMem_lineOf hc hunit htexts
  | line steps more hsteps ih =>
      rw [linesOf_line unit level hsteps]
      intro line hline
      rcases List.mem_cons.mp hline with rfl | hline
      · refine fun hmem => notMem_lineOf hc hunit (fun s hs => htexts s ?_)
          ((List.rdropWhile_prefix _ _).subset hmem)
        exact List.mem_append_left _ hs
      · refine ih (fun s hs => htexts s ?_) line hline
        exact List.mem_append_right _ (List.mem_cons_of_mem _ hs)

theorem newLine_notMem_indentUnit {style : Style} {unit : List Char}
    (hunit : style.indentUnit? = some unit) : '\n' ∉ unit := by
  rw [Style.indentUnit?] at hunit
  split at hunit
  · cases hunit
    decide
  · split at hunit <;> cases hunit
    exact fun hmem => absurd (List.eq_of_mem_replicate hmem) (by decide)

/-- **A text is its lines.**  In every style that has an indentation, steps give an output if every
node that ends is the innermost one being written, and what they write are lines with a line feed
between any two: the lines hold none themselves.  A space is added to a line that is neither empty nor
ends with one. -/
theorem run?_lines {style : Style} {unit : List Char} (hunit : style.indentUnit? = some unit)
    {steps : List OutputStep} (htexts : ∀ s, .text s ∈ steps → '\n' ∉ s.toList) :
    ∃ o₀, empty? style = some o₀ ∧
      ((o₀.run? steps).isSome ↔ MarksAgree [] steps) ∧
      ∀ o, o₀.run? steps = some o →
        o.text = String.ofList (['\n'].intercalate (lines unit steps)) ∧
        (∀ line ∈ lines unit steps, '\n' ∉ line) ∧
        (∀ last, (lines unit steps).getLast? = some last →
          o.space = if last = [] ∨ last.getLast? = some ' ' then o else o.add [' ']) ∧
        o.level = levelAfter 0 steps := by
  refine ⟨{ unit }, by rw [empty?, hunit]; rfl, run?_isSome_iff _ steps, fun o ho => ?_⟩
  have hstart : EndsWith { unit } [] [] := ⟨rfl, by simp, .inl rfl⟩
  obtain ⟨htext, ⟨closed, last, hlines, before, hends⟩, hlevel⟩ := hstart.run_lines ho
  refine ⟨?_, ?_, ?_, hlevel⟩
  · rw [Output.text, htext, List.nil_append, lines]
  · exact notMem_linesOf (by decide) (newLine_notMem_indentUnit hunit) htexts
  · intro last' hlast
    rw [lines, hlines, List.getLast?_concat, Option.some_inj] at hlast
    rw [← hlast, space]
    simp only [hends.space_iff]

/-- A word, an indented word on a line of its own, an empty line and a brace that is not indented. -/
theorem run?_lines_class :
    let steps : List OutputStep :=
      [.text "class", .space, .newLine, .indent, .text "x", .newLine, .newLine, .unindent, .text "\x7d"]
    ∃ o₀ o, empty? {} = some o₀ ∧ o₀.run? steps = some o ∧ o.text = "class\n    x\n\n\x7d" ∧ o.level = 0 := by
  intro steps
  have hunit : Style.indentUnit? {} = some (List.replicate 4 ' ') := rfl
  have htexts : ∀ s, OutputStep.text s ∈ steps → '\n' ∉ s.toList := by simp [steps]
  obtain ⟨o₀, hempty, hsome, hlines⟩ := run?_lines hunit htexts
  obtain ⟨o, ho⟩ := Option.isSome_iff_exists.mp (hsome.mpr (by simp [steps, MarksAgree]))
  obtain ⟨htext, -, -, hlevel⟩ := hlines o ho
  exact ⟨o₀, o, hempty, ho, htext.trans (by decide), hlevel⟩

end DualSyntax.Output
