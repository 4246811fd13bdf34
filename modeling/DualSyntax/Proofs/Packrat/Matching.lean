import DualSyntax.Proofs.Packrat.LeftCalls

/-!
# Matches and failures

Without left recursion every goal gives something at every position, so a goal fails wherever it
cannot match.  Where it cannot is read off the rules: `Grammar.begins` looks at the tokens with
which a match may begin, `Grammar.takes` at all tokens that it may take.  `Row` follows the elements
of a list up to where no further one is found.
-/

namespace DualSyntax

variable {δ : Type}

namespace Grammar

variable (g : Grammar δ)

/-- Whether the matches of a rule begin with tokens that have a property, as far as can be seen in a
number of steps. -/
def begins (nothing : δ → Bool) (p : TokenKind → Bool) : Nat → Rule δ → Bool
  | 0, _ => false
  | _ + 1, .empty | _ + 1, .notAhead _ => true
  | _ + 1, .token k => p k
  | n + 1, .ref d => (g.rule d).all (begins nothing p n)
  | n + 1, .sequence rs =>
    rs.foldr (fun r rest => begins nothing p n r && (!r.mayBeEmpty nothing || rest)) true
  | n + 1, .choice rs => rs.all (begins nothing p n)
  | n + 1, .optional r => begins nothing p n r
  | n + 1, .list e sep _ _ =>
    begins nothing p n e && (!e.mayBeEmpty nothing || sep.all (begins nothing p n))

/-- Whether the matches of a rule take only tokens that have a property, as far as can be seen in a
number of steps. -/
def takes (p : TokenKind → Bool) : Nat → Rule δ → Bool
  | 0, _ => false
  | _ + 1, .empty | _ + 1, .notAhead _ => true
  | _ + 1, .token k => p k
  | n + 1, .ref d => (g.rule d).all (takes p n)
  | n + 1, .sequence rs | n + 1, .choice rs => rs.all (takes p n)
  | n + 1, .optional r => takes p n r
  | n + 1, .list e sep _ _ => takes p n e && sep.all (takes p n)

end Grammar

namespace Packrat

variable {g : Grammar δ} {s : TokenStream} {nothing : δ → Bool} {p : TokenKind → Bool}
  {goal : Goal δ} {pos q n : Nat} {trees : List (RawTree δ)} {found : Match δ}

/-- Without left recursion every goal gives something. -/
theorem exists_evaluates [BEq δ] [LawfulBEq δ] (hfree : ¬ LeftRecursive g s) (goal : Goal δ)
    (hpos : pos ≤ s.size) : ∃ found, Evaluates g s goal pos found := by
  have hsome := @run_isSome δ _ _ g s _ false goal pos {} (Nat.le_refl _) hpos (.empty s)
  obtain ⟨⟨found, m⟩, hrun⟩ := Option.isSome_iff_exists.mp hsome
  refine ⟨found, ((run_runs hrun).evaluates hfree ?_ ?_).1⟩
  · intro d p answer ha
    simp at ha
  · intro d p hd
    simp at hd

theorem after_eq_some {more : List (RawTree δ)} (h : after trees found = some (more, q)) :
    ∃ rest, found = some (rest, q) ∧ more = trees ++ rest := by
  obtain ⟨⟨rest, q'⟩, hm, hpair⟩ := Option.map_eq_some_iff.mp h
  cases hpair
  exact ⟨rest, hm, rfl⟩

theorem recalled_asNode_eq_some {d : δ} (h : recalled (asNode d pos found) = some (trees, q)) :
    ∃ inner, found = some (inner, q) ∧ trees = [.node (some d) pos q inner] := by
  obtain ⟨⟨tree, q'⟩, hnode, hpair⟩ := Option.map_eq_some_iff.mp h
  cases hpair
  obtain ⟨⟨inner, q'⟩, hfound, hpair⟩ := Option.map_eq_some_iff.mp hnode
  cases hpair
  exact ⟨inner, hfound, rfl⟩

/-! ## First tokens -/

def Goal.begins (g : Grammar δ) (nothing : δ → Bool) (p : TokenKind → Bool) (n : Nat) :
    Goal δ → Bool
  | rule r => g.begins nothing p n r
  | definition d => (g.rule d).all (g.begins nothing p n)
  | all rs =>
    rs.foldr (fun r rest => g.begins nothing p n r && (!r.mayBeEmpty nothing || rest)) true
  | first rs => rs.all (g.begins nothing p n)
  | more e sep _ _ _ => g.begins nothing p n e && sep.all (g.begins nothing p n)

theorem begins_between {sep : Option (Rule δ)} (h : sep.all (g.begins nothing p (n + 1)) = true) :
    g.begins nothing p (n + 1) (between sep) = true := by
  cases sep with
  | none => rfl
  | some r => exact h

/-- A match that takes something begins with a token that has the property. -/
theorem Evaluates.begins (hg : g.EmptyRules nothing) (h : Evaluates g s goal pos found)
    (hbegins : goal.begins g nothing p n = true) (hfound : found = some (trees, q)) (hlt : pos < q) :
    ∃ t, s.get? pos = some t ∧ p t.kind = true := by
  -- with no steps left a rule tells nothing
  have step : ∀ {n : Nat} {r : Rule δ}, g.begins nothing p n r = true → ∃ k, n = k + 1 := by
    intro n r h
    cases n with
    | zero => cases h
    | succ n => exact ⟨n, rfl⟩
  induction h generalizing n trees q with
  | empty | allNil =>
      cases hfound
      exact absurd hlt (Nat.lt_irrefl _)
  | pastEnd | refused | undefined | allStop | firstNil => cases hfound
  | accepted hget hkind =>
      obtain ⟨n, rfl⟩ := step hbegins
      exact ⟨_, hget, hkind ▸ hbegins⟩
  | ref _ ih | sequence _ ih | choice _ ih =>
      obtain ⟨n, rfl⟩ := step hbegins
      exact ih hbegins hfound hlt
  | defined hrule _ ih =>
      obtain ⟨inner, hinner, -⟩ := recalled_asNode_eq_some hfound
      rw [Goal.begins, hrule] at hbegins
      exact ih hbegins hinner hlt
  | @allStep r rs pos trees p' found hfirst _ ihfirst ihrest =>
      obtain ⟨rest, hrest, -⟩ := after_eq_some hfound
      obtain ⟨hle, hempty⟩ := hfirst.advances hg _ _ rfl
      rw [Goal.begins, List.foldr_cons, Bool.and_eq_true] at hbegins
      rcases Nat.eq_or_lt_of_le hle with rfl | hlt'
      · have hnull : r.mayBeEmpty nothing = true := hempty rfl
        have hrs := hbegins.2
        rw [hnull, Bool.not_true, Bool.false_or] at hrs
        exact ihrest hrs hrest hlt
      · exact ihfirst hbegins.1 rfl hlt'
  | firstHit _ ih =>
      rw [Goal.begins, List.all_cons, Bool.and_eq_true] at hbegins
      exact ih hbegins.1 hfound hlt
  | firstMiss _ _ _ ih =>
      rw [Goal.begins, List.all_cons, Bool.and_eq_true] at hbegins
      exact ih hbegins.2 hfound hlt
  | @optional r pos found _ ih =>
      obtain ⟨n, rfl⟩ := step hbegins
      cases found with
      | none =>
          cases hfound
          exact absurd hlt (Nat.lt_irrefl _)
      | some pair => exact ih hbegins hfound hlt
  | notAhead | noElement =>
      split at hfound <;> cases hfound
      exact absurd hlt (Nat.lt_irrefl _)
  | @elements e sep least trailing pos trees p' found hfirst _ ihfirst ihmore =>
      obtain ⟨n, rfl⟩ := step hbegins
      obtain ⟨rest, hrest, -⟩ := after_eq_some hfound
      obtain ⟨hle, hempty⟩ := hfirst.advances hg _ _ rfl
      rw [Goal.begins, Grammar.begins, Bool.and_eq_true] at hbegins
      rcases Nat.eq_or_lt_of_le hle with rfl | hlt'
      · have hnull : e.mayBeEmpty nothing = true := hempty rfl
        have hsep := hbegins.2
        rw [hnull, Bool.not_true, Bool.false_or] at hsep
        exact ihmore (Bool.and_eq_true_iff.mpr ⟨hbegins.1, hsep⟩) hrest hlt
      · exact ihfirst hbegins.1 rfl hlt'
  | noSeparator | noProgress =>
      rw [endOfList_eq_some hfound] at hlt
      exact absurd hlt (Nat.lt_irrefl _)
  | separatorOnly _ _ ihsep =>
      rw [Goal.begins, Bool.and_eq_true] at hbegins
      obtain ⟨n, rfl⟩ := step hbegins.1
      split at hfound
      · rw [endOfList_eq_some hfound] at hlt
        exact ihsep (begins_between hbegins.2) rfl hlt
      · rw [endOfList_eq_some hfound] at hlt
        exact absurd hlt (Nat.lt_irrefl _)
  | @moreStep e sep least trailing count pos separators p' trees q' found hsep helem hlt' _ ihsep ihelem _ =>
      rw [Goal.begins, Bool.and_eq_true] at hbegins
      obtain ⟨n, rfl⟩ := step hbegins.1
      rcases Nat.eq_or_lt_of_le (hsep.advances hg _ _ rfl).1 with rfl | hmoved
      · exact ihelem hbegins.1 rfl hlt'
      · exact ihsep (begins_between hbegins.2) rfl hmoved

theorem evaluates_none [BEq δ] [LawfulBEq δ] (hfree : ¬ LeftRecursive g s)
    (hg : g.EmptyRules nothing) {t : Token} (hget : s.get? pos = some t)
    (hempty : goal.mayBeEmpty nothing = false) (hbegins : goal.begins g nothing p n = true)
    (hp : p t.kind = false) : Evaluates g s goal pos none := by
  have hpos : pos ≤ s.size := Nat.le_of_lt (TokenStream.lt_size_of_get? hget)
  obtain ⟨found, h⟩ := exists_evaluates hfree goal hpos
  cases found with
  | none => exact h
  | some pair =>
      obtain ⟨hle, hstay⟩ := h.advances hg _ _ rfl
      rcases Nat.eq_or_lt_of_le hle with heq | hlt
      · rw [hstay heq.symm] at hempty
        cases hempty
      · obtain ⟨t', hget', hp'⟩ := h.begins hg hbegins rfl hlt
        cases hget.symm.trans hget'
        rw [hp] at hp'
        cases hp'

/-! ## All tokens -/

def Goal.takes (g : Grammar δ) (p : TokenKind → Bool) (n : Nat) : Goal δ → Bool
  | rule r => g.takes p n r
  | definition d => (g.rule d).all (g.takes p n)
  | all rs | first rs => rs.all (g.takes p n)
  | more e sep _ _ _ => g.takes p n e && sep.all (g.takes p n)

def Among (s : TokenStream) (p : TokenKind → Bool) (pos q : Nat) : Prop :=
  ∀ i, pos ≤ i → i < q → ∃ t, s.get? i = some t ∧ p t.kind = true

theorem Among.nil : Among s p pos pos :=
  fun _ hle hlt => absurd hlt (Nat.not_lt.mpr hle)

theorem Among.append {r : Nat} (h : Among s p pos q) (h' : Among s p q r) : Among s p pos r := by
  intro i hle hlt
  rcases Nat.lt_or_ge i q with hi | hi
  · exact h i hle hi
  · exact h' i hi hlt

theorem takes_between {sep : Option (Rule δ)} (h : sep.all (g.takes p (n + 1)) = true) :
    g.takes p (n + 1) (between sep) = true := by
  cases sep with
  | none => rfl
  | some r => exact h

/-- A match takes only tokens that have the property. -/
theorem Evaluates.takes (h : Evaluates g s goal pos found) (htakes : goal.takes g p n = true)
    (hfound : found = some (trees, q)) : Among s p pos q := by
  have step : ∀ {n : Nat} {r : Rule δ}, g.takes p n r = true → ∃ k, n = k + 1 := by
    intro n r h
    cases n with
    | zero => cases h
    | succ n => exact ⟨n, rfl⟩
  induction h generalizing n trees q with
  | empty | allNil =>
      cases hfound
      exact .nil
  | pastEnd | refused | undefined | allStop | firstNil => cases hfound
  | accepted hget hkind =>
      obtain ⟨n, rfl⟩ := step htakes
      cases hfound
      intro i hle hlt
      cases Nat.le_antisymm hle (Nat.le_of_lt_succ hlt)
      exact ⟨_, hget, hkind ▸ htakes⟩
  | ref _ ih | sequence _ ih | choice _ ih =>
      obtain ⟨n, rfl⟩ := step htakes
      exact ih htakes hfound
  | defined hrule _ ih =>
      obtain ⟨inner, hinner, -⟩ := recalled_asNode_eq_some hfound
      rw [Goal.takes, hrule] at htakes
      exact ih htakes hinner
  | allStep _ _ ihfirst ihrest =>
      obtain ⟨rest, hrest, -⟩ := after_eq_some hfound
      rw [Goal.takes, List.all_cons, Bool.and_eq_true] at htakes
      exact (ihfirst htakes.1 rfl).append (ihrest htakes.2 hrest)
  | firstHit _ ih =>
      rw [Goal.takes, List.all_cons, Bool.and_eq_true] at htakes
      exact ih htakes.1 hfound
  | firstMiss _ _ _ ih =>
      rw [Goal.takes, List.all_cons, Bool.and_eq_true] at htakes
      exact ih htakes.2 hfound
  | @optional r pos found _ ih =>
      obtain ⟨n, rfl⟩ := step htakes
      cases found with
      | none =>
          cases hfound
          exact .nil
      | some pair => exact ih htakes hfound
  | notAhead | noElement =>
      split at hfound <;> cases hfound
      exact .nil
  | elements _ _ ihfirst ihmore =>
      obtain ⟨n, rfl⟩ := step htakes
      obtain ⟨rest, hrest, -⟩ := after_eq_some hfound
      have he := (Bool.and_eq_true_iff.mp htakes).1
      exact (ihfirst he rfl).append (ihmore htakes hrest)
  | noSeparator | noProgress =>
      rw [endOfList_eq_some hfound]
      exact .nil
  | separatorOnly _ _ ihsep =>
      rw [Goal.takes, Bool.and_eq_true] at htakes
      obtain ⟨n, rfl⟩ := step htakes.1
      split at hfound
      · rw [endOfList_eq_some hfound]
        exact ihsep (takes_between htakes.2) rfl
      · rw [endOfList_eq_some hfound]
        exact .nil
  | moreStep _ _ _ _ ihsep ihelem ihmore =>
      obtain ⟨rest, hrest, -⟩ := after_eq_some hfound
      have htakes' := htakes
      rw [Goal.takes, Bool.and_eq_true] at htakes
      obtain ⟨n, rfl⟩ := step htakes.1
      exact ((ihsep (takes_between htakes.2) rfl).append (ihelem htakes.1 rfl)).append
        (ihmore htakes' hrest)

/-! ## Choices -/

variable {d : δ} {t : Token}

theorem Evaluates.node {r : Rule δ} (h : Evaluates g s (.rule r) pos (some (trees, q)))
    (hrule : g.rule d = some r) :
    Evaluates g s (.definition d) pos (some ([.node (some d) pos q trees], q)) :=
  .defined hrule h

theorem Evaluates.noNode {r : Rule δ} (h : Evaluates g s (.rule r) pos none)
    (hrule : g.rule d = some r) : Evaluates g s (.definition d) pos none :=
  .defined hrule h

/-- A sequence that fails behind its first rule. -/
theorem Evaluates.allFails {r : Rule δ} {rs : List (Rule δ)}
    (h : Evaluates g s (.rule r) pos (some (trees, q))) (hrest : Evaluates g s (.all rs) q none) :
    Evaluates g s (.all (r :: rs)) pos none :=
  .allStep h hrest

/-- The first of several rules that matches, after others that fail. -/
theorem Evaluates.chosen {before : List (Rule δ)} {r : Rule δ}
    (hbefore : ∀ r' ∈ before, Evaluates g s (.rule r') pos none)
    (h : Evaluates g s (.rule r) pos (some (trees, q))) (others : List (Rule δ)) :
    Evaluates g s (.rule (.choice (before ++ r :: others))) pos (some (trees, q)) := by
  refine .choice ?_
  induction before with
  | nil => exact .firstHit h
  | cons r' before ih =>
      exact .firstMiss (hbefore r' List.mem_cons_self)
        (ih fun r'' hr => hbefore r'' (List.mem_cons_of_mem _ hr))

theorem evaluates_oneOf {ks : List TokenKind} (hget : s.get? pos = some t) (h : t.kind ∈ ks) :
    Evaluates g s (.rule (.oneOf ks)) pos (some ([.leaf t], pos + 1)) := by
  refine .choice ?_
  induction ks with
  | nil => cases h
  | cons k ks ih =>
      by_cases hk : t.kind = k
      · exact .firstHit (.accepted hget hk)
      · exact .firstMiss (.refused hget hk) (ih ((List.mem_cons.mp h).resolve_left hk))

theorem evaluates_oneOf_none {ks : List TokenKind} (hget : s.get? pos = some t)
    (h : t.kind ∉ ks) : Evaluates g s (.rule (.oneOf ks)) pos none := by
  refine .choice ?_
  induction ks with
  | nil => exact .firstNil
  | cons k ks ih =>
      rw [List.mem_cons, not_or] at h
      exact .firstMiss (.refused hget h.1) (ih h.2)

/-! ## Rows -/

/-- Elements of a list one after the other, each with what separates it from the one before. -/
inductive Row (g : Grammar δ) (s : TokenStream) (e : Rule δ) (sep : Option (Rule δ)) :
    Nat → List (RawTree δ) → Nat → Prop
  | nil {pos : Nat} : Row g s e sep pos [] pos
  | cons {pos p p' q : Nat} {separators trees more : List (RawTree δ)}
      (hsep : Evaluates g s (.rule (between sep)) pos (some (separators, p)))
      (helem : Evaluates g s (.rule e) p (some (trees, p'))) (hlt : pos < p')
      (hrest : Row g s e sep p' more q) : Row g s e sep pos (separators ++ trees ++ more) q

inductive RowEnds (g : Grammar δ) (s : TokenStream) (e : Rule δ) (sep : Option (Rule δ)) (pos : Nat) :
    Prop
  | separator (h : Evaluates g s (.rule (between sep)) pos none)
  | element {separators : List (RawTree δ)} {p : Nat}
      (hsep : Evaluates g s (.rule (between sep)) pos (some (separators, p)))
      (helem : Evaluates g s (.rule e) p none)

variable {e : Rule δ} {sep : Option (Rule δ)} {more first : List (RawTree δ)} {p' : Nat}

theorem Row.snoc {separators : List (RawTree δ)} {p₁ p₂ : Nat} (h : Row g s e sep pos trees q)
    (hsep : Evaluates g s (.rule (between sep)) q (some (separators, p₁)))
    (helem : Evaluates g s (.rule e) p₁ (some (more, p₂))) (hlt : q < p₂) :
    Row g s e sep pos (trees ++ (separators ++ more)) p₂ := by
  induction h with
  | nil => simpa using Row.cons hsep helem hlt .nil
  | cons hsep' helem' hlt' _ ih =>
      rw [List.append_assoc]
      exact .cons hsep' helem' hlt' (ih hsep hlt)

theorem Row.rest (h : Row g s e sep pos trees q) (hend : RowEnds g s e sep q) {least count : Nat}
    (hcount : least ≤ count) :
    Evaluates g s (.more e sep least false count) pos (some (trees, q)) := by
  induction h generalizing count with
  | @nil pos =>
      have hlist : endOfList (δ := δ) least count [] pos = some ([], pos) :=
        if_neg (Nat.not_lt.mpr hcount)
      rw [← hlist]
      cases hend with
      | separator h => exact .noSeparator h
      | element hsep helem =>
          have hstop := @Evaluates.separatorOnly δ g s e sep least false count _ _ _ hsep helem
          rwa [Bool.and_false, if_neg Bool.false_ne_true] at hstop
  | cons hsep helem hlt _ ih =>
      exact .moreStep hsep helem hlt (ih hend (Nat.le_succ_of_le hcount))

theorem Row.list (hfirst : Evaluates g s (.rule e) pos (some (first, p')))
    (h : Row g s e sep p' trees q) (hend : RowEnds g s e sep q) {least : Nat} (hleast : least ≤ 1) :
    Evaluates g s (.rule (.list e sep least false)) pos (some (first ++ trees, q)) :=
  .elements hfirst (h.rest hend hleast)

/-- Any number of elements with nothing between them. -/
theorem Row.star (h : Row g s e none pos trees q) (hend : Evaluates g s (.rule e) q none) :
    Evaluates g s (.rule e.star) pos (some (trees, q)) := by
  have hstops : RowEnds g s e none q := .element .empty hend
  cases h with
  | nil => exact .noElement hend
  | cons hsep helem _ hrest =>
      cases hsep with
      | empty => exact hrest.list helem hstops (Nat.zero_le 1)

end Packrat

end DualSyntax
