import DualSyntax.Proofs.Lexing.Meaning
import DualSyntax.Proofs.RoundTrip.EscapedWords

/-!
# Names in two ways

A printed name is read back as the word that it spells, and whatever is read as a name means a word.
-/

namespace DualSyntax

/-!
## Printed names

A name is printed as its spelling: bare, or with its marks if the word is reserved.  For every word
but one, the spelling is read back as a single token that the grammar takes as a name and that means
the word.  The exception is `Rem` in VB: it is no reserved word, so it is printed bare, and the text
is a comment.
-/

section Printed

open Lexing

namespace Language

def nameTokens : Language → List TokenKind
  | csharp => CSharp.nameTokens
  | visualBasic => VisualBasic.nameTokens

/-- The word that begins a comment. -/
def IsRemark (l : Language) (w : List Char) : Prop :=
  l = visualBasic ∧ w.map Char.toLower = "rem".toList

instance (l : Language) (w : List Char) : Decidable (l.IsRemark w) :=
  inferInstanceAs (Decidable (_ ∧ _))

end Language

/-- A text is read as a name: a single token without trivia that the grammar takes as a name, and
whose text means that name. -/
def ReadAsName (l : Language) (text : List Char) (name : String) : Prop :=
  ∃ s tk last, tokenize l text = .ok s ∧ s.tokens.toList = [tk, last] ∧ last.kind = .eof ∧
    tk.leading = [] ∧ last.leading = [] ∧ tk.kind ∈ l.nameTokens ∧ l.unescape tk.text = name

def TokenStream.comment (text : List Char) : TokenStream :=
  .ofTokens [⟨.eof, .emptyAt (Text.byteLength text), "", none,
    [⟨.lineComment, ⟨0, Text.byteLength text⟩, String.ofList text⟩]⟩]

variable {l : Language} {w : List Char}

/-! ### Reading -/

theorem contextual_nameTokens (l : Language) : ∀ e ∈ l.contextual, e.2 ∈ l.nameTokens := by
  cases l <;> decide

theorem identifier_mem_nameTokens (l : Language) : TokenKind.identifier ∈ l.nameTokens := by
  cases l <;> decide

/-- A word that is printed bare is a name to the grammar. -/
theorem wordLexeme_mem_nameTokens (h : l.isReserved (String.ofList w) = false) :
    (wordLexeme l w).kind ∈ l.nameTokens := by
  rw [wordLexeme_kind h]
  cases hfound : l.findWord l.contextual (String.ofList w) with
  | none => exact identifier_mem_nameTokens l
  | some k =>
      obtain ⟨e, he, rfl⟩ := Option.map_eq_some_iff.mp hfound
      exact contextual_nameTokens l e (List.mem_of_find?_eq_some he)

/-- A text that is a single lexeme of a name's kind is read as what it means. -/
theorem readAsName_of_next {x : List Char} {found : Lexeme} (hx : x ≠ [])
    (hnext : next l {} x = .ok (false, found)) (hlength : found.length = x.length)
    (hkind : found.kind ∈ l.nameTokens) : ReadAsName l x (l.unescape (String.ofList x)) :=
  ⟨_, _, _, tokenize_lexeme hx hnext hlength, rfl, rfl, rfl, rfl, hkind, rfl⟩

theorem readAsName_escaped (l : Language) (hw : IsWord w) :
    ReadAsName l (l.escaped (String.ofList w)).toList (String.ofList w) := by
  have hname := Language.unescape_escaped l (String.ofList w)
  cases l with
  | csharp =>
      have hsrc : (Language.csharp.escaped (String.ofList w)).toList = '@' :: w := by
        simp [Language.escaped]
      have hnext : next .csharp {} ('@' :: (w ++ [])) =
          .ok (false, ⟨.identifier, 1 + w.length, none⟩) := next_escaped_csharp hw rfl
      rw [List.append_nil] at hnext
      have hread := readAsName_of_next (List.cons_ne_nil '@' w) hnext (by simp; omega)
        (identifier_mem_nameTokens _)
      rw [← hsrc, String.ofList_toList, hname] at hread
      exact hread
  | visualBasic =>
      have hsrc : (Language.visualBasic.escaped (String.ofList w)).toList =
          '[' :: (w ++ [']']) := by
        simp [Language.escaped]
      have hnext : next .visualBasic {} ('[' :: (w ++ [']'])) =
          .ok (false, ⟨.identifier, w.length + 2, none⟩) := next_escaped_visualBasic hw
      have hread := readAsName_of_next (List.cons_ne_nil '[' _) hnext (by simp)
        (identifier_mem_nameTokens _)
      rw [← hsrc, String.ofList_toList, hname] at hread
      exact hread

/-- At the start of a text, a bare word is a comment if it is `Rem`, and a keyword or a name if
not. -/
theorem next_bare (l : Language) (hw : IsWord w) :
    next l {} w = .ok (if l.IsRemark w then (true, ⟨.lineComment, w.length, none⟩)
      else (false, wordLexeme l w)) := by
  cases l with
  | csharp =>
      have hword : next .csharp {} (w ++ []) = _ := next_word_csharp hw rfl
      simpa [Language.IsRemark] using hword
  | visualBasic =>
      have hcontinuation : VisualBasic.continuation none w = none := by
        unfold VisualBasic.continuation
        split <;> rfl
      have hword : next .visualBasic {} (w ++ []) = _ := next_word_visualBasic hw rfl
      simpa [Language.IsRemark, hcontinuation, VisualBasic.Name.lineLength_word hw] using hword

/-- A word that is printed bare is read as itself unless it is `Rem`. -/
theorem readAsName_bare (hw : IsWord w) (hreserved : l.isReserved (String.ofList w) = false)
    (hremark : ¬ l.IsRemark w) : ReadAsName l w (String.ofList w) := by
  have hnext := next_bare l hw
  rw [if_neg hremark] at hnext
  have hread := readAsName_of_next hw.ne_nil hnext rfl (wordLexeme_mem_nameTokens hreserved)
  rwa [Language.unescape_word l hw] at hread

theorem tokenize_remark (hw : IsWord w) (hremark : l.IsRemark w) :
    tokenize l w = .ok (.comment w) := by
  have hnext := next_bare l hw
  rw [if_pos hremark, ← List.append_nil w] at hnext
  obtain ⟨n, hn⟩ := tokenize_of_ne_nil l hw.ne_nil
  rw [hn, tokensFrom_trivia hw.ne_nil hnext (by simp), tokensFrom_nil]
  simp [TokenStream.comment, Context.pass, Except.map]

theorem not_readAsName_comment {name : String} (h : tokenize l w = .ok (.comment w)) :
    ¬ ReadAsName l w name := by
  rintro ⟨s, tk, last, hs, htokens, -⟩
  rw [h] at hs
  cases hs
  cases htokens

/-- The word `Rem` is printed bare. -/
theorem spelling_remark (h : l.IsRemark w) : l.spelling (String.ofList w) = String.ofList w := by
  obtain ⟨rfl, hlower⟩ := h
  rw [Language.spelling, VisualBasic.Name.not_reserved_of_rem hlower, if_neg Bool.false_ne_true]

/-! ### Writing -/

namespace Writing

variable {page : Page} {n : NodeId} {name : String}

theorem marked_ok {body : Written} {steps : List OutputStep} (h : body page = .ok steps) :
    marked n body page = .ok (.start n :: (steps ++ [.stop n])) := by
  change ((body page).bind fun a => .ok ([.start n] ++ a)).bind (fun a => .ok (a ++ [.stop n])) = _
  rw [h]
  rfl

/-- A name is written as its spelling and nothing else. -/
theorem nodeUpTo_identifier (l : Language) (fuel : Nat)
    (h : page.forest.kind n = .identifier name) :
    nodeUpTo l (fuel + 1) n page = .ok [.start n, .text (l.spelling name), .stop n] := by
  have hforest : forest page = .ok page.forest := rfl
  cases l with
  | csharp =>
      have hbody : CSharp.writeKind (CSharp.writeUpTo fuel) n page =
          CSharp.writeName name page := by
        refine (bind_ok hforest).trans ?_
        rw [h]
      exact marked_ok hbody
  | visualBasic =>
      have hbody : VisualBasic.writeKind (VisualBasic.writeUpTo fuel) n page =
          VisualBasic.writeName name page := by
        refine (bind_ok hforest).trans ?_
        rw [h]
      exact marked_ok hbody

end Writing

/-! ### Names that come back -/

/-- The text in which a word is written as a name is read as a token that is the name, for every
word except `Rem` in VB; that one is written bare, and its text is a comment. -/
theorem printedName_read_iff (l : Language) (hw : IsWord w) :
    (∀ (page : Writing.Page) (fuel : Nat) (n : NodeId),
      page.forest.kind n = .identifier (String.ofList w) →
        Writing.nodeUpTo l (fuel + 1) n page =
          .ok [.start n, .text (l.spelling (String.ofList w)), .stop n]) ∧
    (ReadAsName l (l.spelling (String.ofList w)).toList (String.ofList w) ↔ ¬ l.IsRemark w) ∧
    (l.IsRemark w →
      tokenize l (l.spelling (String.ofList w)).toList = .ok (.comment w)) := by
  have hcomment (h : l.IsRemark w) :
      tokenize l (l.spelling (String.ofList w)).toList = .ok (.comment w) := by
    rw [spelling_remark h, String.toList_ofList]
    exact tokenize_remark hw h
  refine ⟨fun _ fuel _ h => Writing.nodeUpTo_identifier l fuel h,
    ⟨fun hread hremark => ?_, fun hremark => ?_⟩, hcomment⟩
  · have hspelling : (l.spelling (String.ofList w)).toList = w := by
      rw [spelling_remark hremark, String.toList_ofList]
    rw [hspelling] at hread
    exact not_readAsName_comment (tokenize_remark hw hremark) hread
  · rw [Language.spelling]
    cases hreserved : l.isReserved (String.ofList w) with
    | true =>
        rw [if_pos rfl]
        exact readAsName_escaped l hw
    | false =>
        rw [if_neg Bool.false_ne_true, String.toList_ofList]
        exact readAsName_bare hw hreserved hremark

/-- In VB the reserved word `Class` is read back from its brackets, and `Rem` is lost. -/
theorem printedName_read_class_rem :
    ReadAsName .visualBasic "[Class]".toList "Class" ∧
      ¬ ReadAsName .visualBasic "Rem".toList "Rem" := by
  have hclass : IsWord "Class".toList := by decide
  have hrem : IsWord "Rem".toList := by decide
  have hspelling : Language.visualBasic.spelling "Class" = "[Class]" := by decide +kernel
  have hbare : Language.visualBasic.spelling "Rem" = "Rem" := by decide +kernel
  have hread := (printedName_read_iff .visualBasic hclass).2.1.mpr (by decide)
  have hlost := (printedName_read_iff .visualBasic hrem).2.1
  rw [String.ofList_toList] at hread hlost
  rw [hspelling] at hread
  rw [hbare] at hlost
  exact ⟨hread, fun h => hlost.mp h (by decide)⟩

end Printed

/-!
## Names that are read

Whatever text is cut into tokens, those that the grammar takes as names mean words.  Only two rules
find such tokens: the one for bare words and the one for escaped names.
-/

namespace Lexing

def nameless (k : TokenKind) : Bool :=
  !CSharp.nameTokens.contains k && !VisualBasic.nameTokens.contains k

theorem not_mem_of_nameless {k : TokenKind} (h : nameless k = true) (l : Language) :
    k ∉ l.nameTokens := by
  simp only [nameless, Bool.and_eq_true, Bool.not_eq_true', List.contains_eq_mem,
    decide_eq_false_iff_not] at h
  cases l
  · exact h.1
  · exact h.2

def FindsNoName (found : Found) : Prop := ∀ x, found = .ok (some x) → nameless x.kind = true

namespace FindsNoName

theorem none : FindsNoName (.ok none) := by
  rintro x ⟨⟩

theorem error (fault : LexFault) : FindsNoName (.error fault) := by
  rintro x ⟨⟩

theorem some {x : Lexeme} (h : nameless x.kind = true) : FindsNoName (.ok (some x)) := by
  rintro y ⟨⟩
  exact h

theorem bind {α : Type} {body : Except LexFault α} {f : α → Found} (h : ∀ a, FindsNoName (f a)) :
    FindsNoName (body >>= f) := by
  cases body with
  | error fault => exact .error fault
  | ok a => exact h a

end FindsNoName

theorem symbol_findsNoName {table : List (String × TokenKind)} (ht : table.all (nameless ·.2) = true)
    (cs : List Char) : FindsNoName (symbol table cs) := by
  intro x hx
  obtain ⟨e, he, rfl⟩ := Option.map_eq_some_iff.mp (Except.ok.inj hx)
  exact List.all_eq_true.mp ht e (List.mem_of_find?_eq_some he)

theorem decimal_findsNoName (suffix? : String → Option NumberSuffix) (cs : List Char) :
    FindsNoName (decimal suffix? cs) := by
  have hkind (digits : List Char) (hasPoint : Bool) (length : Nat) (suffix : Option NumberSuffix) :
      nameless (decimalLexeme digits hasPoint length suffix).kind = true := by
    unfold decimalLexeme
    split
    · rfl
    · dsimp only
      split <;> split <;> rfl
  unfold decimal
  split
  · dsimp only
    split
    · exact .error _
    · exact .some (hkind _ _ _ _)
  · exact .none

theorem hexadecimal_nameless (mark : Nat) (suffix? : String → Option NumberSuffix) (cs : List Char) :
    nameless (hexadecimal mark suffix? cs).kind = true := by
  unfold hexadecimal
  dsimp only
  split <;> rfl

theorem charLexeme_findsNoName (value text : List Char) : FindsNoName (charLexeme value text) := by
  unfold charLexeme
  split
  · exact .some rfl
  · exact .error _

/-- What stands at the head of a text up to the end of a lexeme means a word. -/
def MeansWord (l : Language) (cs : List Char) (x : Lexeme) : Prop :=
  IsWord (l.unescape (String.ofList (cs.take x.length))).toList

theorem isWord_takeWhile {cs : List Char} (h : headIs isNameStart cs = true) :
    IsWord (cs.takeWhile isNameBody) := by
  refine ⟨?_, mem_takeWhile⟩
  cases cs with
  | nil => cases h
  | cons c cs =>
      have hstart : isNameStart c = true := by simpa [headIs] using h
      have hbody : isNameBody c = true := by simp [isNameBody, hstart]
      simpa [headIs, hbody] using hstart

theorem word_meansWord {l : Language} {cs : List Char} {x : Lexeme} (h : word l cs = .ok (some x)) :
    MeansWord l cs x := by
  unfold word at h
  split at h
  case isFalse => cases h
  case isTrue hhead =>
    cases h
    have htake : cs.take (cs.takeWhile isNameBody).length = cs.takeWhile isNameBody :=
      take_runLength isNameBody cs
    rw [MeansWord, htake, Language.unescape_word l (isWord_takeWhile hhead), String.toList_ofList]
    exact isWord_takeWhile hhead

theorem CSharp.escapedName_meansWord {cs : List Char} {x : Lexeme}
    (h : CSharp.escapedName cs = .ok (some x)) : MeansWord .csharp cs x := by
  unfold CSharp.escapedName at h
  split at h
  case h_1 cs =>
    split at h
    case isFalse => cases h
    case isTrue hhead =>
      cases h
      have htake : ('@' :: cs).take (1 + runLength isNameBody cs) =
          '@' :: cs.takeWhile isNameBody := by
        rw [Nat.add_comm, List.take_succ_cons, take_runLength]
      rw [MeansWord, htake]
      simpa [Language.unescape] using isWord_takeWhile hhead
  case h_2 => cases h

theorem VisualBasic.escapedName_meansWord {cs : List Char} {x : Lexeme}
    (h : VisualBasic.escapedName cs = .ok (some x)) (hx : nameless x.kind = false) :
    MeansWord .visualBasic cs x := by
  unfold VisualBasic.escapedName at h
  split at h
  case h_1 cs =>
    split at h
    case isFalse => cases h
    case isTrue hhead =>
      cases h
      split at hx
      case isFalse => cases hx
      case isTrue hclosed =>
        obtain ⟨rest, hrest⟩ : ∃ rest, cs.drop (runLength isNameBody cs) = ']' :: rest := by
          cases hdrop : cs.drop (runLength isNameBody cs) with
          | nil => simp [hdrop, headIs] at hclosed
          | cons c rest =>
              have hc : c = ']' := by simpa [hdrop, headIs] using hclosed
              exact ⟨rest, by rw [hc]⟩
        have htake : ('[' :: cs).take (runLength isNameBody cs + 2) =
            '[' :: (cs.takeWhile isNameBody ++ [']']) := by
          rw [List.take_succ_cons, List.take_add_one, take_runLength, ← List.head?_drop, hrest]
          rfl
        rw [if_pos hclosed, MeansWord, htake]
        simpa [Language.unescape] using isWord_takeWhile hhead
  case h_2 => cases h

theorem CSharp.token_meansWord {cs : List Char} {x : Lexeme} (h : CSharp.token cs = .ok (some x)) :
    MeansWord .csharp cs x ∨ nameless x.kind = true := by
  obtain ⟨rule, hrule, hfound⟩ := exists_of_firstOf h
  simp only [List.mem_cons, List.not_mem_nil, or_false] at hrule
  rcases hrule with rfl | rfl | rfl | rfl | rfl | rfl | rfl
  case inr.inr.inr.inr.inl => exact .inl (CSharp.escapedName_meansWord hfound)
  case inr.inr.inr.inr.inr.inl => exact .inl (word_meansWord hfound)
  all_goals refine .inr ((?_ : FindsNoName _) x hfound)
  · unfold CSharp.number
    split
    · exact .some (hexadecimal_nameless _ _ _)
    · exact decimal_findsNoName _ _
  · unfold CSharp.verbatimString
    split
    · exact .bind fun _ => .some rfl
    · exact .none
  · unfold CSharp.string
    split
    · exact .bind fun _ => .some rfl
    · exact .none
  · unfold CSharp.character
    split
    · exact .bind fun _ => charLexeme_findsNoName _ _
    · exact .none
  · have htable : CSharp.symbols.all (nameless ·.2) = true := by decide
    exact symbol_findsNoName htable _

theorem VisualBasic.token_meansWord {cs : List Char} {x : Lexeme}
    (h : VisualBasic.token cs = .ok (some x)) :
    MeansWord .visualBasic cs x ∨ nameless x.kind = true := by
  obtain ⟨rule, hrule, hfound⟩ := exists_of_firstOf h
  simp only [List.mem_cons, List.not_mem_nil, or_false] at hrule
  rcases hrule with rfl | rfl | rfl | rfl | rfl | rfl
  case inr.inr.inr.inl =>
    cases hx : nameless x.kind with
    | true => exact .inr rfl
    | false => exact .inl (VisualBasic.escapedName_meansWord hfound hx)
  case inr.inr.inr.inr.inl => exact .inl (word_meansWord hfound)
  all_goals refine .inr ((?_ : FindsNoName _) x hfound)
  · unfold VisualBasic.lineBreak
    split
    · exact .some rfl
    · exact .none
  · unfold VisualBasic.number
    split
    · exact .some (hexadecimal_nameless _ _ _)
    · exact decimal_findsNoName _ _
  · unfold VisualBasic.string
    split
    · refine .bind fun _ => ?_
      dsimp only
      split
      · exact charLexeme_findsNoName _ _
      · exact .some rfl
    · exact .none
  · have htable : VisualBasic.symbols.all (nameless ·.2) = true := by decide
    exact symbol_findsNoName htable _

theorem next_meansWord {l : Language} {cx : Context} {cs : List Char} {x : Lexeme}
    (h : next l cx cs = .ok (false, x)) : MeansWord l cs x ∨ nameless x.kind = true := by
  unfold next at h
  cases hblank : triviaAt l cx cs with
  | error fault => simp [hblank, bind, Except.bind] at h
  | ok blank =>
      cases blank with
      | some found => simp [hblank, bind, Except.bind, pure, Except.pure] at h
      | none =>
          cases hfound : tokenAt l cs with
          | error fault => simp [hblank, hfound, bind, Except.bind] at h
          | ok found =>
              simp only [hblank, hfound, bind, Except.bind, pure, Except.pure, Except.ok.injEq,
                Prod.mk.injEq, true_and] at h
              subst h
              cases found with
              | none => exact .inr rfl
              | some x =>
                  cases l with
                  | csharp => exact CSharp.token_meansWord hfound
                  | visualBasic => exact VisualBasic.token_meansWord hfound

end Lexing

/-- Every token of a text that may be a name means a word. -/
theorem isWord_of_tokenize {l : Language} {src : List Char} {s : TokenStream}
    (h : tokenize l src = .ok s) :
    ∀ t ∈ s.tokens.toList, t.kind ∈ l.nameTokens → Lexing.IsWord (l.unescape t.text).toList := by
  refine (Lexing.scanned_of_tokenize h).forall_mem (fun cx => ?_) ?_
  · exact fun hkind => (Lexing.not_mem_of_nameless (k := .eof) rfl l hkind).elim
  · intro cx found text rest hcuts hkind
    rcases Lexing.next_meansWord hcuts.next with hword | hnone
    · rwa [Lexing.MeansWord, ← hcuts.text_eq] at hword
    · exact (Lexing.not_mem_of_nameless hnone l hkind).elim

end DualSyntax
