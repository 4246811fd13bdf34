import DualSyntax.CSharp.Rules
import DualSyntax.Proofs.Lexing.Lossless
import DualSyntax.VisualBasic.Rules

/-!
# Tokens denote what their kinds say

A token of a kind for values has a value, and a word that is a modifier by its kind spells one.
Words come from the tables of keywords; all other scanning rules find lexemes that are no modifiers.
-/

namespace DualSyntax

def valueKinds : List TokenKind :=
  [.integerLiteral, .realLiteral, .stringLiteral, .charLiteral, .kwTrue, .kwFalse]

def Language.modifierKinds : Language → List TokenKind
  | csharp => CSharp.modifierWords
  | visualBasic => VisualBasic.modifierWords

structure Token.Meant (l : Language) (t : Token) : Prop where
  value : valueKinds.contains t.kind = true → t.value.isSome = true
  modifier : l.modifierKinds.contains t.kind = true → (l.modifier? t.text).isSome = true

namespace Lexing

/-- Whether a lexeme is no modifier, and has a value if it should have one. -/
def Lexeme.plain (x : Lexeme) : Bool :=
  !CSharp.modifierWords.contains x.kind && !VisualBasic.modifierWords.contains x.kind &&
    (!valueKinds.contains x.kind || x.value.isSome)

/-- A lexeme at the head of a text that denotes what its kind says. -/
structure Lexeme.Meant (l : Language) (cs : List Char) (x : Lexeme) : Prop where
  value : valueKinds.contains x.kind = true → x.value.isSome = true
  modifier : l.modifierKinds.contains x.kind = true →
    (l.modifier? (String.ofList (cs.take x.length))).isSome = true

theorem Lexeme.Meant.of_plain {x : Lexeme} (h : x.plain = true) (l : Language) (cs : List Char) :
    x.Meant l cs := by
  simp only [Lexeme.plain, Bool.and_eq_true, Bool.or_eq_true, Bool.not_eq_true'] at h
  obtain ⟨⟨hcs, hvb⟩, hvalue⟩ := h
  constructor
  · intro hkind
    rcases hvalue with hno | hsome
    · rw [hno] at hkind
      cases hkind
    · exact hsome
  · intro hkind
    cases l with
    | csharp =>
        rw [Language.modifierKinds, hcs] at hkind
        cases hkind
    | visualBasic =>
        rw [Language.modifierKinds, hvb] at hkind
        cases hkind

def Plain (found : Found) : Prop := ∀ x, found = .ok (some x) → x.plain = true

theorem Plain.none : Plain (.ok none) := by
  intro x h
  cases h

theorem Plain.error (fault : LexFault) : Plain (.error fault) := by
  intro x h
  cases h

theorem Plain.some {x : Lexeme} (h : x.plain = true) : Plain (.ok (some x)) := by
  intro y hy
  cases hy
  exact h

theorem Plain.bind {α : Type} {body : Except LexFault α} {f : α → Found} (h : ∀ a, Plain (f a)) :
    Plain (body >>= f) := by
  cases body with
  | error fault => exact .error fault
  | ok a => exact h a

/-! ## Rules of both languages -/

theorem symbol_plain {table : List (String × TokenKind)}
    (ht : table.all (fun e => (Lexeme.mk e.2 0 none).plain) = true) (cs : List Char) :
    Plain (symbol table cs) := by
  intro x hx
  obtain ⟨e, he, rfl⟩ := Option.map_eq_some_iff.mp (Except.ok.inj hx)
  exact List.all_eq_true.mp ht e (List.mem_of_find?_eq_some he)

theorem decimalLexeme_plain (digits : List Char) (hasPoint : Bool) (length : Nat)
    (suffix : Option NumberSuffix) :
    (decimalLexeme digits hasPoint length suffix).plain = true := by
  unfold decimalLexeme
  split
  · rfl
  · dsimp only
    split <;> split <;> rfl

theorem decimal_plain (suffix? : String → Option NumberSuffix) (cs : List Char) :
    Plain (decimal suffix? cs) := by
  unfold decimal
  split
  · dsimp only
    split
    · exact .error _
    · exact .some (decimalLexeme_plain _ _ _ _)
  · exact .none

theorem hexadecimal_plain (mark : Nat) (suffix? : String → Option NumberSuffix) (cs : List Char) :
    (hexadecimal mark suffix? cs).plain = true := by
  unfold hexadecimal
  dsimp only
  split <;> rfl

theorem charLexeme_plain (value text : List Char) : Plain (charLexeme value text) := by
  unfold charLexeme
  split
  · exact .some rfl
  · exact .error _

/-- A keyword is a word of one of the tables, in the spelling of the language. -/
theorem exists_keyword {l : Language} {w : String} {k : TokenKind} (h : l.keyword? w = some k) :
    ∃ e ∈ l.reserved ++ l.contextual, (l.normalize e.1 == l.normalize w) = true ∧ e.2 = k := by
  rcases Option.or_eq_some_iff.mp h with h | ⟨-, h⟩
  · obtain ⟨e, he, hk⟩ := Option.map_eq_some_iff.mp h
    have hsame := List.find?_some he
    exact ⟨e, List.mem_append_left _ (List.mem_of_find?_eq_some he), hsame, hk⟩
  · obtain ⟨e, he, hk⟩ := Option.map_eq_some_iff.mp h
    have hsame := List.find?_some he
    exact ⟨e, List.mem_append_right _ (List.mem_of_find?_eq_some he), hsame, hk⟩

theorem keyword_meant {l : Language} {w : String} {k : TokenKind} (h : l.keyword? w = some k) :
    (valueKinds.contains k = true → (booleanValue? k).isSome = true) ∧
      (l.modifierKinds.contains k = true → (l.modifier? w).isSome = true) := by
  obtain ⟨e, he, hsame, rfl⟩ := exists_keyword h
  have htable : (l.reserved ++ l.contextual).all (fun e =>
      (!valueKinds.contains e.2 || (booleanValue? e.2).isSome) &&
        (!l.modifierKinds.contains e.2 || l.modifiers.any (·.1 == e.1))) = true := by
    cases l <;> decide
  have hfacts := List.all_eq_true.mp htable e he
  simp only [Bool.and_eq_true, Bool.or_eq_true, Bool.not_eq_true'] at hfacts
  refine ⟨fun hkind => hfacts.1.resolve_left (by rw [hkind]; nofun), fun hkind => ?_⟩
  obtain ⟨m, hm, hword⟩ := List.any_eq_true.mp (hfacts.2.resolve_left (by rw [hkind]; nofun))
  have hname : l.sameName m.1 w = true := by
    rw [eq_of_beq hword]
    cases l <;> exact hsame
  rw [Language.modifier?, Option.isSome_map, List.find?_isSome]
  exact ⟨m, hm, hname⟩

theorem word_meant {l : Language} {cs : List Char} {x : Lexeme} (h : word l cs = .ok (some x)) :
    x.Meant l cs := by
  unfold word at h
  split at h
  case isFalse => cases h
  case isTrue =>
    cases h
    have htake : cs.take (cs.takeWhile isNameBody).length = cs.takeWhile isNameBody :=
      take_runLength isNameBody cs
    cases hk : l.keyword? (String.ofList (cs.takeWhile isNameBody)) with
    | none => exact .of_plain rfl l cs
    | some k =>
        obtain ⟨hvalue, hmodifier⟩ := keyword_meant hk
        refine ⟨hvalue, fun hkind => ?_⟩
        dsimp only
        rw [htake]
        exact hmodifier hkind

/-! ## The tokens of a text -/

theorem exists_of_firstOf {cs : List Char} {rules : List (List Char → Found)} {x : Lexeme}
    (h : firstOf cs rules = .ok (some x)) : ∃ rule ∈ rules, rule cs = .ok (some x) := by
  induction rules with
  | nil => cases h
  | cons rule rules ih =>
      rw [firstOf] at h
      split at h
      · obtain ⟨rule', hmem, hfound⟩ := ih h
        exact ⟨rule', List.mem_cons_of_mem _ hmem, hfound⟩
      · exact ⟨rule, List.mem_cons_self, h⟩

theorem CSharp.token_meant {cs : List Char} {x : Lexeme} (h : CSharp.token cs = .ok (some x)) :
    x.Meant .csharp cs := by
  obtain ⟨rule, hrule, hfound⟩ := exists_of_firstOf h
  simp only [List.mem_cons, List.not_mem_nil, or_false] at hrule
  rcases hrule with rfl | rfl | rfl | rfl | rfl | rfl | rfl
  case inr.inr.inr.inr.inr.inl => exact word_meant hfound
  all_goals refine .of_plain ((?_ : Plain _) x hfound) _ _
  · unfold CSharp.number
    split
    · exact .some (hexadecimal_plain _ _ _)
    · exact decimal_plain _ _
  · unfold CSharp.verbatimString
    split
    · exact .bind fun _ => .some rfl
    · exact .none
  · unfold CSharp.string
    split
    · exact .bind fun _ => .some rfl
    · exact .none
  · unfold CSharp.character
    split
    · exact .bind fun _ => charLexeme_plain _ _
    · exact .none
  · unfold CSharp.escapedName
    split
    · split
      · exact .some rfl
      · exact .none
    · exact .none
  · exact symbol_plain (by decide) _

theorem VisualBasic.token_meant {cs : List Char} {x : Lexeme}
    (h : VisualBasic.token cs = .ok (some x)) : x.Meant .visualBasic cs := by
  obtain ⟨rule, hrule, hfound⟩ := exists_of_firstOf h
  simp only [List.mem_cons, List.not_mem_nil, or_false] at hrule
  rcases hrule with rfl | rfl | rfl | rfl | rfl | rfl
  case inr.inr.inr.inr.inl => exact word_meant hfound
  all_goals refine .of_plain ((?_ : Plain _) x hfound) _ _
  · unfold VisualBasic.lineBreak
    split
    · exact .some rfl
    · exact .none
  · unfold VisualBasic.number
    split
    · exact .some (hexadecimal_plain _ _ _)
    · exact decimal_plain _ _
  · unfold VisualBasic.string
    split
    · refine .bind fun _ => ?_
      dsimp only
      split
      · exact charLexeme_plain _ _
      · exact .some rfl
    · exact .none
  · unfold VisualBasic.escapedName
    split
    · split
      · refine .some ?_
        split <;> rfl
      · exact .none
    · exact .none
  · exact symbol_plain (by decide) _

/-- A lexeme that is no trivia denotes what its kind says. -/
theorem next_meant {l : Language} {cx : Context} {cs : List Char} {x : Lexeme}
    (h : next l cx cs = .ok (false, x)) : x.Meant l cs := by
  unfold next at h
  cases hblank : triviaAt l cx cs with
  | error fault => simp [hblank, bind, Except.bind] at h
  | ok blank =>
      cases blank with
      | some found => simp [hblank, bind, Except.bind, pure, Except.pure] at h
      | none =>
          cases hfound : tokenAt l cs with
          | error fault => simp [hblank, hfound, bind, Except.bind] at h
          | ok found =>
              simp only [hblank, hfound, bind, Except.bind, pure, Except.pure, Except.ok.injEq,
                Prod.mk.injEq, true_and] at h
              subst h
              cases found with
              | none => exact .of_plain (by decide) l cs
              | some x =>
                  cases l with
                  | csharp => exact CSharp.token_meant hfound
                  | visualBasic => exact VisualBasic.token_meant hfound

end Lexing

/-- Every token of a text denotes what its kind says. -/
theorem tokenize_meant {l : Language} {src : List Char} {s : TokenStream}
    (h : tokenize l src = .ok s) : ∀ t ∈ s.tokens.toList, t.Meant l := by
  refine (Lexing.scanned_of_tokenize h).forall_mem (fun cx => ⟨nofun, by cases l <;> nofun⟩) ?_
  intro cx found text rest hcuts
  obtain ⟨hvalue, hmodifier⟩ := Lexing.next_meant hcuts.next
  rw [← hcuts.text_eq] at hmodifier
  exact ⟨hvalue, hmodifier⟩

end DualSyntax
