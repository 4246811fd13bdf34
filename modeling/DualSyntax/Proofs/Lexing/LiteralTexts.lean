import DualSyntax.Proofs.Forest.Regular
import DualSyntax.Proofs.Lexing.LineBreaks

/-!
# The texts of literals

A token that is a literal ends with a character that can be seen: a quote, the `c` behind one, or a
digit or letter.
-/

namespace DualSyntax

open Text (EndsSolid isBlank)

namespace Lexing

variable {cs : List Char} {n : Nat} {z : Char} {x : Lexeme}

def literalKinds : List TokenKind := valueKinds ++ [.kwNull, .kwNothing]

/-- A lexeme that ends solid or holds no white space at all, if it is a literal. -/
def Lexeme.Solid (x : Lexeme) (cs : List Char) : Prop :=
  literalKinds.contains x.kind = true →
    (∀ c ∈ cs.take x.length, isBlank c = false) ∨ EndsSolid (cs.take x.length)

/-- Whatever a rule finds is solid if it is a literal. -/
def Solid (rule : List Char → Found) : Prop :=
  ∀ ⦃cs : List Char⦄ ⦃x : Lexeme⦄, rule cs = .ok (some x) → x.Solid cs

/-! ## Numbers and words -/

theorem le_of_isBlank (hz : isBlank z = true) : z.toNat < 33 ∨ 128 ≤ z.toNat := by
  simp only [isBlank, Bool.or_eq_true, Bool.and_eq_true, decide_eq_true_eq, beq_iff_eq] at hz
  omega

theorem isAlpha_of_isBlank (hz : isBlank z = true) : z.isAlpha = false := by
  have hbounds := le_of_isBlank hz
  have halpha : z.isAlpha = (decide (65 ≤ z.val ∧ z.val ≤ 90) ||
      (decide (97 ≤ z.val) && decide (z.val ≤ 122))) := rfl
  simp only [halpha, Bool.or_eq_false_iff, Bool.and_eq_false_iff, decide_eq_false_iff_not,
    UInt32.le_iff_toNat_le]
  change ¬ (65 ≤ z.toNat ∧ z.toNat ≤ 90) ∧ (¬ 97 ≤ z.toNat ∨ ¬ z.toNat ≤ 122)
  omega

theorem ne_of_isBlank {c : Char} (hz : isBlank z = true) (hc : isBlank c = false) : z ≠ c := by
  rintro rfl
  rw [hz] at hc
  cases hc

theorem isDigit_of_isBlank (hz : isBlank z = true) : Reading.isDigit z = false := by
  have hbounds := le_of_isBlank hz
  have hdigit : ¬ (48 ≤ z.toNat ∧ z.toNat ≤ 57) := by omega
  simpa [Reading.isDigit, Char.le_def, UInt32.le_iff_toNat_le] using hdigit

theorem isDigitOrMark_of_isBlank (hz : isBlank z = true) : isDigitOrMark z = false := by
  simp [isDigitOrMark, isDigit_of_isBlank hz, ne_of_isBlank hz (c := '_') rfl]

theorem isNumeral_of_isBlank (hz : isBlank z = true) : isNumeral z = false := by
  simp [isNumeral, isDigitOrMark_of_isBlank hz, ne_of_isBlank hz (c := '.') rfl,
    ne_of_isBlank hz (c := 'e') rfl, ne_of_isBlank hz (c := 'E') rfl, ne_of_isBlank hz (c := '+') rfl,
    ne_of_isBlank hz (c := '-') rfl]

theorem isHexDigitOrMark_of_isBlank (hz : isBlank z = true) : isHexDigitOrMark z = false := by
  have hbounds := le_of_isBlank hz
  have hlower : ¬ (97 ≤ z.toNat ∧ z.toNat ≤ 102) := by omega
  have hupper : ¬ (65 ≤ z.toNat ∧ z.toNat ≤ 70) := by omega
  have hletters : (('a' ≤ z && z ≤ 'f') || ('A' ≤ z && z ≤ 'F')) = false := by
    simpa [Char.le_def, UInt32.le_iff_toNat_le] using ⟨fun h => by omega, fun h => by omega⟩
  simp only [isHexDigitOrMark, isHexDigit, isDigit_of_isBlank hz, Bool.false_or, hletters,
    beq_eq_false_iff_ne]
  exact ne_of_isBlank hz rfl

theorem solid_of_not_mem (h : ∀ z, isBlank z = true → z ∉ cs.take x.length) : x.Solid cs := by
  refine fun _ => .inl fun c hc => ?_
  rw [← Bool.not_eq_true]
  exact fun hblank => h c hblank hc

theorem decimal_solid (suffix? : String → Option NumberSuffix) : Solid (decimal suffix?) :=
  fun _ _ hx => solid_of_not_mem fun _ hz =>
    not_mem_decimal (isNumeral_of_isBlank hz) (isAlpha_of_isBlank hz) hx

theorem hexadecimal_solid {mark : Nat} (hmark : ∀ z, isBlank z = true → z ∉ cs.take mark)
    (suffix? : String → Option NumberSuffix) : (hexadecimal mark suffix? cs).Solid cs :=
  solid_of_not_mem fun z hz => not_mem_hexadecimal (hmark z hz) (isHexDigitOrMark_of_isBlank hz)
    (isAlpha_of_isBlank hz) suffix?

theorem toLower_of_isBlank (hz : isBlank z = true) : z.toLower = z := by
  have hbounds := le_of_isBlank hz
  unfold Char.toLower
  split
  · next h =>
      have hupper : 65 ≤ z.toNat ∧ z.toNat ≤ 90 := h
      omega
  · rfl

/-- A word that is written like a word of the language holds no white space. -/
theorem solid_of_normalize {l : Language} {v w : String} (hv : (l.normalize v).toList.all (!isBlank ·) = true)
    (h : l.normalize v = l.normalize w) : ∀ c ∈ w.toList, isBlank c = false := by
  intro c hc
  rw [← Bool.not_eq_true]
  intro hblank
  have hmem : c ∈ (l.normalize w).toList := by
    unfold Language.normalize
    split
    · exact hc
    · change c ∈ (w.map Char.toLower).toList
      rw [String.toList_map]
      exact List.mem_map.mpr ⟨c, hc, toLower_of_isBlank hblank⟩
  rw [← h] at hmem
  have hsolid := List.all_eq_true.mp hv c hmem
  rw [hblank] at hsolid
  cases hsolid

/-- A word that is a literal is spelled like a keyword. -/
theorem word_solid (l : Language) : Solid (word l) := by
  intro cs x hx hkind
  unfold word at hx
  split at hx
  case isFalse => cases hx
  case isTrue =>
    cases hx
    have htake : cs.take (cs.takeWhile isNameBody).length = cs.takeWhile isNameBody :=
      take_runLength isNameBody cs
    left
    rw [htake]
    cases hk : l.keyword? (String.ofList (cs.takeWhile isNameBody)) with
    | none =>
        dsimp only at hkind
        rw [hk] at hkind
        cases hkind
    | some k =>
        obtain ⟨e, he, hsame, rfl⟩ := exists_keyword hk
        have htable : (l.reserved ++ l.contextual).all
            (fun e => (l.normalize e.1).toList.all (!isBlank ·)) = true := by
          cases l <;> decide +kernel
        have hsolid := solid_of_normalize (List.all_eq_true.mp htable e he) (eq_of_beq hsame)
        rwa [String.toList_ofList] at hsolid

theorem symbol_solid {table : List (String × TokenKind)}
    (ht : table.all (fun e => !literalKinds.contains e.2) = true) : Solid (symbol table) := by
  intro cs x hx hkind
  obtain ⟨e, he, rfl⟩ := Option.map_eq_some_iff.mp (Except.ok.inj hx)
  have hentry := List.all_eq_true.mp ht e (List.mem_of_find?_eq_some he)
  dsimp only at hkind
  rw [hkind] at hentry
  cases hentry

/-! ## Texts between quotes -/

theorem doubledQuoteBody_solid {lineBreaks : Bool} {o : Nat} {value : List Char}
    (h : doubledQuoteBody lineBreaks o cs = .ok (value, n)) : EndsSolid (cs.take n) := by
  fun_induction doubledQuoteBody lineBreaks o cs generalizing value n with
  | case1 | case4 => cases h
  | case2 o cs ih =>
      obtain ⟨⟨v, k⟩, hbody, hvalue⟩ := exists_of_map h
      cases hvalue
      exact (ih hbody).append ['"', '"']
  | case3 o tail hnot =>
      cases h
      exact ⟨'"', rfl, rfl⟩
  | case5 o c cs hpair hquote hbreak ih =>
      obtain ⟨⟨v, k⟩, hbody, hvalue⟩ := exists_of_map h
      cases hvalue
      exact (ih hbody).append [c]

theorem escapedBody_solid {quote : Char} (hquote : isBlank quote = false) {o : Nat} {value : List Char}
    (h : CSharp.escapedBody quote o cs = .ok (value, n)) : EndsSolid (cs.take n) := by
  fun_induction CSharp.escapedBody quote o cs generalizing value n
  case case2 a b c d rest x hx ih =>
    obtain ⟨⟨v, k⟩, hbody, hvalue⟩ := exists_of_map h
    cases hvalue
    exact (ih hbody).append ['\\', 'u', a, b, c, d]
  case case5 c cs hne x hx ih =>
    obtain ⟨⟨v, k⟩, hbody, hvalue⟩ := exists_of_map h
    cases hvalue
    exact (ih hbody).append ['\\', c]
  case case8 =>
    cases h
    exact ⟨quote, rfl, hquote⟩
  case case10 c cs _ _ _ _ _ ih =>
    obtain ⟨⟨v, k⟩, hbody, hvalue⟩ := exists_of_map h
    cases hvalue
    exact (ih hbody).append [c]
  all_goals cases h

/-- A character literal takes all of the text that it is made of. -/
theorem charLexeme_solid {value text : List Char} (hx : charLexeme value text = .ok (some x))
    (htext : text <+: cs) (hsolid : EndsSolid text) : x.Solid cs := by
  unfold charLexeme at hx
  split at hx
  · cases hx
    refine fun _ => .inr ?_
    rwa [← List.prefix_iff_eq_take.mp htext]
  · cases hx

/-- The marks in front of a number hold no white space. -/
theorem not_mem_mark (word : String) (hword : word.toList.all (!isBlank ·) = true)
    (h : startsIgnoringCase word cs = true) (hz : isBlank z = true) : z ∉ cs.take word.length := by
  intro hmem
  have hlower : z.toLower ∈ (cs.take word.length).map Char.toLower := List.mem_map_of_mem hmem
  rw [beq_iff_eq.mp h, toLower_of_isBlank hz] at hlower
  have hsolid := List.all_eq_true.mp hword z hlower
  rw [hz] at hsolid
  cases hsolid

/-! ## The rules of each language -/

theorem CSharp.token_solid (h : CSharp.token cs = .ok (some x)) : x.Solid cs := by
  obtain ⟨rule, hrule, hfound⟩ := exists_of_firstOf h
  simp only [List.mem_cons, List.not_mem_nil, or_false] at hrule
  rcases hrule with rfl | rfl | rfl | rfl | rfl | rfl | rfl
  · unfold CSharp.number at hfound
    split at hfound
    · next hmark =>
        cases hfound
        exact hexadecimal_solid (fun z hz => not_mem_mark "0x" (by decide) hmark hz) _
    · exact decimal_solid _ hfound
  · unfold CSharp.verbatimString at hfound
    split at hfound
    · obtain ⟨⟨value, n⟩, hbody, hx⟩ := CSharp.exists_of_bind hfound
      cases hx
      exact fun _ => .inr ((doubledQuoteBody_solid hbody).append ['@', '"'])
    · cases hfound
  · unfold CSharp.string at hfound
    split at hfound
    · obtain ⟨⟨value, n⟩, hbody, hx⟩ := CSharp.exists_of_bind hfound
      cases hx
      exact fun _ => .inr ((escapedBody_solid (by decide) hbody).append ['"'])
    · cases hfound
  · unfold CSharp.character at hfound
    split at hfound
    · obtain ⟨⟨value, n⟩, hbody, hx⟩ := CSharp.exists_of_bind hfound
      refine charLexeme_solid hx ?_ ((escapedBody_solid (by decide) hbody).append ['\x27'])
      exact List.cons_prefix_cons.mpr ⟨rfl, List.take_prefix _ _⟩
    · cases hfound
  · unfold CSharp.escapedName at hfound
    split at hfound
    · split at hfound
      · cases hfound
        intro hkind
        cases hkind
      · cases hfound
    · cases hfound
  · exact word_solid _ hfound
  · exact symbol_solid (by decide) hfound

theorem VisualBasic.token_solid (h : VisualBasic.token cs = .ok (some x)) : x.Solid cs := by
  obtain ⟨rule, hrule, hfound⟩ := exists_of_firstOf h
  simp only [List.mem_cons, List.not_mem_nil, or_false] at hrule
  rcases hrule with rfl | rfl | rfl | rfl | rfl | rfl
  · unfold VisualBasic.lineBreak at hfound
    split at hfound <;> cases hfound
    intro hkind
    cases hkind
  · unfold VisualBasic.number at hfound
    split at hfound
    · next hmark =>
        rw [Bool.and_eq_true] at hmark
        cases hfound
        exact hexadecimal_solid (fun z hz => not_mem_mark "&h" (by decide) hmark.1 hz) _
    · exact decimal_solid _ hfound
  · unfold VisualBasic.string at hfound
    split at hfound
    case h_2 => cases hfound
    case h_1 cs =>
      obtain ⟨⟨value, n⟩, hbody, hx⟩ := CSharp.exists_of_bind hfound
      have hsolid := doubledQuoteBody_solid hbody
      dsimp only at hx
      split at hx
      · next hmark =>
          rw [Bool.and_eq_true] at hmark
          have hlast : EndsSolid (cs.take (n + 1)) := by
            rw [List.take_add]
            cases hdrop : cs.drop n with
            | nil =>
                rw [hdrop] at hmark
                cases hmark.1
            | cons c rest =>
                rw [hdrop] at hmark
                refine EndsSolid.append ⟨c, rfl, ?_⟩ _
                have hc : c = 'c' ∨ c = 'C' := by simpa [headIs] using hmark.1
                rcases hc with rfl | rfl <;> rfl
          refine charLexeme_solid hx ?_ (hlast.append ['"'])
          exact List.cons_prefix_cons.mpr ⟨rfl, List.take_prefix _ _⟩
      · cases hx
        exact fun _ => .inr (hsolid.append ['"'])
  · unfold VisualBasic.escapedName at hfound
    split at hfound
    · split at hfound
      · cases hfound
        intro hkind
        split at hkind <;> cases hkind
      · cases hfound
    · cases hfound
  · exact word_solid _ hfound
  · exact symbol_solid (by decide) hfound

theorem next_solid {l : Language} {cx : Context} (h : next l cx cs = .ok (false, x)) : x.Solid cs := by
  unfold next at h
  cases hblank : triviaAt l cx cs with
  | error fault => simp [hblank, bind, Except.bind] at h
  | ok blank =>
      cases blank with
      | some found => simp [hblank, bind, Except.bind, pure, Except.pure] at h
      | none =>
          cases hfound : tokenAt l cs with
          | error fault => simp [hblank, hfound, bind, Except.bind] at h
          | ok found =>
              simp only [hblank, hfound, bind, Except.bind, pure, Except.pure, Except.ok.injEq,
                Prod.mk.injEq, true_and] at h
              subst h
              cases found with
              | none => exact nofun
              | some x =>
                  cases l with
                  | csharp => exact CSharp.token_solid hfound
                  | visualBasic => exact VisualBasic.token_solid hfound

end Lexing

/-- The texts of literals end with a character that can be seen. -/
theorem tokenize_literals {l : Language} {src : List Char} {s : TokenStream}
    (h : tokenize l src = .ok s) :
    ∀ t ∈ s.tokens.toList, Lexing.literalKinds.contains t.kind = true → EndsSolid t.text.toList := by
  refine (Lexing.scanned_of_tokenize h).forall_mem (fun cx => nofun) ?_
  intro cx found text rest hcuts hkind
  have hsolid := Lexing.next_solid hcuts.next hkind
  rw [← hcuts.text_eq] at hsolid
  change EndsSolid (String.ofList text).toList
  rw [String.toList_ofList]
  refine hsolid.elim (fun hall => ?_) id
  have hne := hcuts.ne_nil
  exact ⟨text.getLast hne, List.getLast?_eq_some_getLast hne, hall _ (List.getLast_mem hne)⟩

end DualSyntax
