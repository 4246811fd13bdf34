import DualSyntax.Proofs.Lexing.Gaps
import DualSyntax.Proofs.Text.Lines
import Mathlib.Data.List.Basic

/-!
# Strings with escapes

What stands between the quotes of a C# string is a list of items: plain characters, simple escapes
and escapes with a code.  Every text is some items and then a place where no item begins
(`exists_items`), and that place alone decides what the scanner answers: a string that denotes what
the items denote, or an error at the backslash that begins no escape, or at the end of the line
(`string_eq_iff`).
-/

namespace DualSyntax.Lexing.CSharp

/-! ## Items -/

/-- The simple escapes: the character after the backslash, and the character that it stands for. -/
def simpleEscapes : List (Char × Char) :=
  [('n', '\n'), ('r', '\r'), ('t', '\t'), ('0', '\x00'), ('a', '\x07'), ('b', '\x08'),
   ('v', '\x0b'), ('f', '\x0c'), ('\\', '\\'), ('\x27', '\x27'), ('"', '"')]

/-- The code of a character: four hexadecimal digits, or a plus sign and three of them.  Codes that
are no scalar values are codes of no character. -/
inductive Code : List Char → Char → Prop
  | digits {ds : List Char} {x : Char} (length : ds.length = 4)
      (hex : ∀ d ∈ ds, isHexDigit d = true) (value : Reading.ofDigits 16 ds = x.toNat) : Code ds x
  | signed {ds : List Char} {x : Char} (length : ds.length = 3)
      (hex : ∀ d ∈ ds, isHexDigit d = true) (value : Reading.ofDigits 16 ds = x.toNat) :
      Code ('+' :: ds) x

/-- The ways to write a character between quotes. -/
inductive Item (quote : Char) : List Char → Char → Prop
  | plain {x : Char} (hquote : x ≠ quote) (hslash : x ≠ '\\') (hline : x ≠ '\n') : Item quote [x] x
  | simple {c x : Char} (h : (c, x) ∈ simpleEscapes) : Item quote ['\\', c] x
  | coded {code : List Char} {x : Char} (h : Code code x) : Item quote ('\\' :: 'u' :: code) x

inductive Items (quote : Char) : List Char → List Char → Prop
  | nil : Items quote [] []
  | cons {item text value : List Char} {x : Char} (head : Item quote item x)
      (tail : Items quote text value) : Items quote (item ++ text) (x :: value)

/-- An item stands at the head of a text. -/
def BeginsItem (quote : Char) (cs : List Char) : Prop :=
  ∃ item rest x, cs = item ++ rest ∧ Item quote item x

theorem simpleEscape?_eq_some_iff {c x : Char} :
    simpleEscape? c = some x ↔ (c, x) ∈ simpleEscapes := by
  constructor
  · intro h
    unfold simpleEscape? at h
    split at h
    case h_12 => cases h
    all_goals
      cases h
      decide
  · intro h
    have hall : ∀ e ∈ simpleEscapes, simpleEscape? e.1 = some e.2 := by decide
    exact hall (c, x) h

/-- The character with a code, unless the code is no scalar value. -/
theorem ofNat_eq_some_iff {n : Nat} {x : Char} :
    (if n.isValidChar then some (Char.ofNat n) else none) = some x ↔ n = x.toNat := by
  constructor
  · intro h
    split at h
    · rename_i hvalid
      cases h
      have hchar : Char.ofNat n = Char.ofNatAux n hvalid := dif_pos hvalid
      rw [hchar]
      rfl
    · cases h
  · rintro rfl
    have hvalid : x.toNat.isValidChar := x.valid
    rw [if_pos hvalid, Char.ofNat_toNat]

theorem codedChar?_eq_some_iff {code : List Char} {x : Char} (hlength : code.length = 4) :
    codedChar? code = some x ↔ Code code x := by
  have hdigits {ds : List Char} (hne : ds ≠ []) :
      (if !ds.isEmpty && ds.all isHexDigit then
        if (Reading.ofDigits 16 ds).isValidChar then some (Char.ofNat (Reading.ofDigits 16 ds))
        else none
      else none) = some x ↔ (∀ d ∈ ds, isHexDigit d = true) ∧ Reading.ofDigits 16 ds = x.toNat := by
    rw [← List.all_eq_true, ← ofNat_eq_some_iff]
    cases hall : ds.all isHexDigit <;> simp [hne]
  obtain ⟨c, ds, rfl⟩ : ∃ c ds, code = c :: ds :=
    List.exists_cons_of_ne_nil (by rintro rfl; cases hlength)
  by_cases hplus : c = '+'
  · subst hplus
    have hds : ds ≠ [] := by
      rintro rfl
      cases hlength
    refine (hdigits hds).trans ⟨fun ⟨hex, value⟩ => .signed (by simpa using hlength) hex value, ?_⟩
    rintro (⟨-, hex, -⟩ | ⟨-, hex, value⟩)
    · exact absurd (hex '+' List.mem_cons_self) (by decide)
    · exact ⟨hex, value⟩
  · have hread : codedChar? (c :: ds) = if !(c :: ds).isEmpty && (c :: ds).all isHexDigit then
        if (Reading.ofDigits 16 (c :: ds)).isValidChar then
          some (Char.ofNat (Reading.ofDigits 16 (c :: ds)))
        else none
      else none := by
      unfold codedChar?
      split
      rename_i heq
      exact absurd (List.cons.inj heq).1 hplus
      rfl
    rw [hread, hdigits (List.cons_ne_nil c ds)]
    refine ⟨fun ⟨hex, value⟩ => .digits hlength hex value, ?_⟩
    rintro (⟨-, hex, value⟩ | -)
    · exact ⟨hex, value⟩
    · exact absurd rfl hplus

/-! ## Items take up bytes -/

theorem byteLength_of_ascii {cs : List Char} (h : ∀ c ∈ cs, c.utf8Size = 1) :
    Text.byteLength cs = cs.length := by
  induction cs with
  | nil => rfl
  | cons c cs ih =>
      rw [Text.byteLength, h c List.mem_cons_self, ih fun d hd => h d (List.mem_cons_of_mem c hd),
        List.length_cons, Nat.add_comm]

theorem utf8Size_of_isHexDigit {c : Char} (h : isHexDigit c = true) : c.utf8Size = 1 := by
  have hcode : c.toNat < 128 := by
    simp only [isHexDigit, Reading.isDigit, Bool.or_eq_true, Bool.and_eq_true, decide_eq_true_eq,
      Char.le_def, UInt32.le_iff_toNat_le] at h
    change (48 ≤ c.toNat ∧ c.toNat ≤ 57 ∨ 97 ≤ c.toNat ∧ c.toNat ≤ 102) ∨
      65 ≤ c.toNat ∧ c.toNat ≤ 70 at h
    omega
  have hsmall : c.val ≤ 0x7f := UInt32.le_iff_toNat_le.mpr (Nat.le_of_lt_succ hcode)
  exact if_pos hsmall

theorem Code.length_eq {code : List Char} {x : Char} (h : Code code x) : code.length = 4 := by
  cases h with
  | digits length => exact length
  | signed length => rw [List.length_cons, length]

theorem Code.byteLength_eq {code : List Char} {x : Char} (h : Code code x) :
    Text.byteLength code = 4 := by
  rw [byteLength_of_ascii, h.length_eq]
  intro c hc
  cases h with
  | digits _ hex => exact utf8Size_of_isHexDigit (hex c hc)
  | signed _ hex =>
      rcases List.mem_cons.mp hc with rfl | hc
      · rfl
      · exact utf8Size_of_isHexDigit (hex c hc)

/-! ## Reading items -/

variable {quote : Char}

theorem Item.ne_nil {item : List Char} {x : Char} (h : Item quote item x) : item ≠ [] := by
  cases h <;> exact List.cons_ne_nil _ _

/-- An item is read as its character, and reading goes on after it. -/
theorem escapedBody_item {item : List Char} {x : Char} (h : Item quote item x) (o : Nat)
    (rest : List Char) : escapedBody quote o (item ++ rest) =
      (escapedBody quote (o + Text.byteLength item) rest).map fun (value, n) =>
        (x :: value, n + item.length) := by
  cases h with
  | plain hquote hslash hline =>
      rw [List.singleton_append, escapedBody_cons hslash, if_neg hquote, if_neg hline]
      rfl
  | @simple c _ hmem =>
      have hall : ∀ e ∈ simpleEscapes, e.1 ≠ 'u' ∧ e.1.utf8Size = 1 := by decide
      obtain ⟨hu, hsize⟩ := hall _ hmem
      have hlength : Text.byteLength ['\\', c] = 2 := by
        rw [byteLength_of_ascii (by simpa using ⟨rfl, hsize⟩)]
        rfl
      rw [List.cons_append, List.singleton_append, escapedBody,
        simpleEscape?_eq_some_iff.mpr hmem, hlength]
      · rfl
      · exact hu
  | @coded code _ hcode =>
      have hlength : Text.byteLength ('\\' :: 'u' :: code) = 6 := by
        rw [Text.byteLength, Text.byteLength, hcode.byteLength_eq]
        rfl
      have hread := (codedChar?_eq_some_iff hcode.length_eq).mpr hcode
      rw [hlength]
      obtain ⟨a, b, c, d, rfl⟩ := List.length_eq_four.mp hcode.length_eq
      simp only [List.cons_append, List.nil_append, escapedBody, hread, List.length_cons,
        List.length_nil]

theorem escapedBody_items {text value : List Char} (h : Items quote text value) (o : Nat)
    (rest : List Char) : escapedBody quote o (text ++ rest) =
      (escapedBody quote (o + Text.byteLength text) rest).map fun (more, n) =>
        (value ++ more, n + text.length) := by
  induction h generalizing o with
  | nil => cases h : escapedBody quote o rest <;> simp [Text.byteLength, h, Except.map]
  | @cons item text value x head tail ih =>
      rw [List.append_assoc, escapedBody_item head, ih, Text.byteLength_append, Nat.add_assoc]
      cases escapedBody quote (o + (Text.byteLength item + Text.byteLength text)) rest with
      | error fault => rfl
      | ok found =>
          simp only [Except.map, List.cons_append, List.length_append, Except.ok.injEq,
            Prod.mk.injEq, true_and]
          omega

/-! ## Where no item begins -/

/-- The number of bytes that the error at a backslash covers, by what stands after it: the
character after the backslash counts as one byte, and four bytes after `u` count as a code. -/
def reportedLength : List Char → Nat
  | 'u' :: cs => 2 + if (Text.takeBytes? 4 cs).isSome then 4 else 0
  | _ => 2

theorem escapedBody_no_item {rest : List Char} (h : ¬ BeginsItem quote ('\\' :: rest)) (o : Nat) :
    escapedBody quote o ('\\' :: rest) =
      .error ⟨.invalidEscape, ⟨o, o + reportedLength rest⟩⟩ := by
  cases rest with
  | nil => simp [escapedBody, reportedLength]
  | cons c cs =>
      by_cases hu : c = 'u'
      · subst hu
        rw [reportedLength, ← Nat.add_assoc]
        by_cases hlong : ∃ a b c d rest, cs = a :: b :: c :: d :: rest
        · obtain ⟨a, b, c, d, rest, rfl⟩ := hlong
          rw [escapedBody]
          cases hcode : codedChar? [a, b, c, d] with
          | none => rfl
          | some x =>
              have hitem : Item quote ['\\', 'u', a, b, c, d] x :=
                .coded ((codedChar?_eq_some_iff rfl).mp hcode)
              exact absurd ⟨_, rest, x, rfl, hitem⟩ h
        · rw [escapedBody]
          exact fun a b c d rest heq => hlong ⟨a, b, c, d, rest, heq⟩
      · have hreport : reportedLength (c :: cs) = 2 := by
          rw [reportedLength]
          exact fun _ heq => hu (List.cons.inj heq).1
        rw [escapedBody, hreport]
        · cases hsimple : simpleEscape? c with
          | none => rfl
          | some x =>
              have hitem : Item quote ['\\', c] x := .simple (simpleEscape?_eq_some_iff.mp hsimple)
              exact absurd ⟨_, cs, x, rfl, hitem⟩ h
        · exact hu

theorem no_item_cases {cs : List Char} (h : ¬ BeginsItem quote cs) :
    (∃ rest, cs = quote :: rest) ∨ (∃ rest, cs = '\\' :: rest) ∨ cs.head?.all (· == '\n') := by
  cases cs with
  | nil => exact .inr (.inr rfl)
  | cons c cs =>
      by_cases hquote : c = quote
      · exact .inl ⟨cs, by rw [hquote]⟩
      by_cases hslash : c = '\\'
      · exact .inr (.inl ⟨cs, by rw [hslash]⟩)
      by_cases hline : c = '\n'
      · exact .inr (.inr (by simp [hline]))
      · exact absurd ⟨[c], cs, c, rfl, .plain hquote hslash hline⟩ h

/-- Every text is some items and then a place where no item begins. -/
theorem exists_items (quote : Char) (cs : List Char) : ∃ text value rest,
    cs = text ++ rest ∧ Items quote text value ∧ ¬ BeginsItem quote rest := by
  induction hn : cs.length using Nat.strongRecOn generalizing cs with
  | _ n ih =>
      by_cases hbegins : BeginsItem quote cs
      · obtain ⟨item, more, x, rfl, hitem⟩ := hbegins
        have hpos := List.length_pos_iff.mpr hitem.ne_nil
        obtain ⟨text, value, rest, rfl, hitems, hrest⟩ :=
          ih more.length (by rw [← hn, List.length_append]; omega) more rfl
        exact ⟨item ++ text, x :: value, rest, by rw [List.append_assoc], .cons hitem hitems, hrest⟩
      · exact ⟨[], [], cs, rfl, .nil, hbegins⟩

/-! ## Strings -/

/-- What the scanner answers to a text after the opening quote. -/
inductive Answer : List Char → Found → Prop
  /-- A quote after some items closes a string that denotes what the items denote. -/
  | closed {text value rest : List Char} (items : Items '"' text value) :
      Answer (text ++ '"' :: rest) (.ok (some ⟨.stringLiteral, ('"' :: (text ++ ['"'])).length,
        some (.string (String.ofList value))⟩))
  /-- A backslash that begins no escape. -/
  | badEscape {text value rest : List Char} (items : Items '"' text value)
      (bad : ¬ BeginsItem '"' ('\\' :: rest)) :
      Answer (text ++ '\\' :: rest) (.error ⟨.invalidEscape,
        ⟨1 + Text.byteLength text, 1 + Text.byteLength text + reportedLength rest⟩⟩)
  /-- The line or the whole text ends after some items. -/
  | unterminated {text value rest : List Char} (items : Items '"' text value)
      (ends : rest.head?.all (· == '\n')) :
      Answer (text ++ rest) (.error ⟨.unterminatedString, ⟨0, 1 + Text.byteLength text⟩⟩)

theorem string_of_answer {cs : List Char} {answer : Found} (h : Answer cs answer) :
    string ('"' :: cs) = answer := by
  cases h with
  | @closed text value rest items =>
      have hclose (o : Nat) : escapedBody '"' o ('"' :: rest) = .ok ([], 1) := by
        rw [escapedBody_cons (by decide), if_pos rfl]
      rw [string, escapedBody_items items, hclose]
      simp [Except.map, bind, Except.bind, pure, Except.pure, Nat.add_comm]
  | badEscape items bad =>
      rw [string, escapedBody_items items, escapedBody_no_item bad]
      rfl
  | @unterminated text value rest items ends =>
      have hend (o : Nat) : escapedBody '"' o rest = .error ⟨.unterminatedString, ⟨0, o⟩⟩ := by
        cases rest with
        | nil => rfl
        | cons c rest =>
            obtain rfl : c = '\n' := by simpa using ends
            rfl
      rw [string, escapedBody_items items, hend]
      rfl

/-- A text that begins with a quote is read as a string exactly if items and a quote follow.
Otherwise the first backslash that begins no escape is an error, or the end of the line is. -/
theorem string_eq_iff (cs : List Char) (answer : Found) :
    string ('"' :: cs) = answer ↔ Answer cs answer := by
  refine ⟨?_, string_of_answer⟩
  rintro rfl
  obtain ⟨text, value, rest, rfl, hitems, hrest⟩ := exists_items '"' cs
  have hanswer : ∃ answer, Answer (text ++ rest) answer := by
    rcases no_item_cases hrest with ⟨rest, rfl⟩ | ⟨rest, rfl⟩ | hends
    · exact ⟨_, .closed hitems⟩
    · exact ⟨_, .badEscape hitems hrest⟩
    · exact ⟨_, .unterminated hitems hends⟩
  obtain ⟨answer, hanswer⟩ := hanswer
  rwa [string_of_answer hanswer]

/-- A plus sign and three digits are a code. -/
example : string "\"\\u+041\"".toList = .ok (some ⟨.stringLiteral, 8, some (.string "A")⟩) := rfl

end DualSyntax.Lexing.CSharp
