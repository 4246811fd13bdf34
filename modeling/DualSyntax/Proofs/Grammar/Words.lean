import DualSyntax.Grammar.RawTree

/-!
# The words of a rule

Of the children of a match only their symbols count here: the kind of a token, the definition of a
nested match.  `Spells` says which words of symbols a rule may spell if order of choice and
lookahead are left aside, and `firsts` computes with which symbols such a word may begin and what is
then left to spell.
-/

namespace DualSyntax

/-- What a child of a match is: a token of a kind, or a match of a definition. -/
inductive Symbol (δ : Type) where
  | token (k : TokenKind)
  | node (form : Option δ)
deriving DecidableEq

namespace Symbol

variable {δ : Type}

def isNode : Symbol δ → Bool
  | token _ => false
  | node _ => true

def isToken : Symbol δ → Bool
  | token _ => true
  | node _ => false

def isAny (ks : List TokenKind) : Symbol δ → Bool
  | token k => ks.contains k
  | node _ => false

def isFormOf (p : δ → Bool) : Symbol δ → Bool
  | node (some d) => p d
  | _ => false

def isForm [DecidableEq δ] (d : δ) (a : Symbol δ) : Bool := a = node (some d)

end Symbol

def RawTree.symbol {δ : Type} : RawTree δ → Symbol δ
  | leaf t => .token t.kind
  | node form _ _ _ => .node form

namespace Rule

variable {δ : Type}

/-- What may follow the first element of a list. -/
def following (element : Rule δ) (separator : Option (Rule δ)) (trailing : Bool) : Rule δ :=
  match separator with
  | none => element.star
  | some s => sequence [(sequence [s, element]).star, if trailing then s.optional else empty]

/-- The words that rules spell one after the other. -/
inductive Spells : List (Rule δ) → List (Symbol δ) → Prop
  | nil : Spells [] []
  | empty {rs w} (h : Spells rs w) : Spells (empty :: rs) w
  | token {k rs w} (h : Spells rs w) : Spells (token k :: rs) (.token k :: w)
  | ref {d rs w} (h : Spells rs w) : Spells (ref d :: rs) (.node (some d) :: w)
  | sequence {inner rs w} (h : Spells (inner ++ rs) w) : Spells (sequence inner :: rs) w
  | choice {inner r rs w} (hr : r ∈ inner) (h : Spells (r :: rs) w) : Spells (choice inner :: rs) w
  | absent {r rs w} (h : Spells rs w) : Spells (optional r :: rs) w
  | present {r rs w} (h : Spells (r :: rs) w) : Spells (optional r :: rs) w
  | notAhead {r rs w} (h : Spells rs w) : Spells (notAhead r :: rs) w
  | noElement {e sep least trailing rs w} (hleast : least = 0) (h : Spells rs w) :
      Spells (list e sep least trailing :: rs) w
  | elements {e sep least trailing rs w} (h : Spells (e :: following e sep trailing :: rs) w) :
      Spells (list e sep least trailing :: rs) w

namespace Spells

variable {rs rs' : List (Rule δ)} {w w' : List (Symbol δ)}

theorem append (h : Spells rs w) (h' : Spells rs' w') : Spells (rs ++ rs') (w ++ w') := by
  induction h with
  | nil => exact h'
  | empty _ ih => exact .empty ih
  | token _ ih => exact .token ih
  | ref _ ih => exact .ref ih
  | sequence _ ih => exact .sequence (by simpa using ih)
  | choice hr _ ih => exact .choice hr ih
  | absent _ ih => exact .absent ih
  | present _ ih => exact .present ih
  | notAhead _ ih => exact .notAhead ih
  | noElement hleast _ ih => exact .noElement hleast ih
  | elements _ ih => exact .elements ih

theorem nil_inv (h : Spells ([] : List (Rule δ)) w) : w = [] := by
  cases h
  rfl

theorem empty_inv (h : Spells (Rule.empty :: rs) w) : Spells rs w := by
  cases h with
  | empty h => exact h

end Spells

/-! ## First symbols -/

mutual

/-- Whether a rule may spell the empty word. -/
def nullable : Rule δ → Bool
  | empty | optional _ | notAhead _ => true
  | token _ | ref _ => false
  | sequence rs => nullableAll rs
  | choice rs => nullableAny rs
  | list e _ least _ => least == 0 || nullable e

def nullableAll : List (Rule δ) → Bool
  | [] => true
  | r :: rs => nullable r && nullableAll rs

def nullableAny : List (Rule δ) → Bool
  | [] => false
  | r :: rs => nullable r || nullableAny rs

end

mutual

/-- The symbols with which a word of a rule may begin, each with what is then left to spell. -/
def firsts : Rule δ → List (Symbol δ × List (Rule δ))
  | empty | notAhead _ => []
  | token k => [(.token k, [])]
  | ref d => [(.node (some d), [])]
  | sequence rs => firstsAll rs
  | choice rs => firstsAny rs
  | optional r => firsts r
  | list e sep _ trailing => (firsts e).map fun (a, k) => (a, k ++ [following e sep trailing])

def firstsAll : List (Rule δ) → List (Symbol δ × List (Rule δ))
  | [] => []
  | r :: rs =>
    (firsts r).map (fun (a, k) => (a, k ++ rs)) ++ if nullable r then firstsAll rs else []

def firstsAny : List (Rule δ) → List (Symbol δ × List (Rule δ))
  | [] => []
  | r :: rs => firsts r ++ firstsAny rs

end

mutual

/-- Whether no element of a list may spell the empty word, here and inside. -/
def productive : Rule δ → Bool
  | empty | token _ | ref _ | notAhead _ => true
  | sequence rs | choice rs => productiveAll rs
  | optional r => productive r
  | list e sep _ _ => !nullable e && productive e && productiveOption sep

def productiveAll : List (Rule δ) → Bool
  | [] => true
  | r :: rs => productive r && productiveAll rs

def productiveOption : Option (Rule δ) → Bool
  | none => true
  | some r => productive r

end

theorem productiveAll_append (rs rs' : List (Rule δ)) :
    productiveAll (rs ++ rs') = (productiveAll rs && productiveAll rs') := by
  induction rs with
  | nil => rfl
  | cons r rs ih => simp [productiveAll, ih, Bool.and_assoc]

theorem nullableAll_append (rs rs' : List (Rule δ)) :
    nullableAll (rs ++ rs') = (nullableAll rs && nullableAll rs') := by
  induction rs with
  | nil => rfl
  | cons r rs ih => simp [nullableAll, ih, Bool.and_assoc]

theorem productive_of_mem {r : Rule δ} {rs : List (Rule δ)} (hr : r ∈ rs)
    (h : productiveAll rs = true) : productive r = true := by
  induction rs with
  | nil => cases hr
  | cons s rs ih =>
      rw [productiveAll, Bool.and_eq_true] at h
      rcases List.mem_cons.mp hr with rfl | hr
      · exact h.1
      · exact ih hr h.2

theorem productive_following {e : Rule δ} {sep : Option (Rule δ)} {least : Nat} {trailing : Bool}
    (h : productive (list e sep least trailing) = true) :
    productive (following e sep trailing) = true := by
  simp only [productive, Bool.and_eq_true] at h
  obtain ⟨⟨hnull, he⟩, hsep⟩ := h
  cases sep with
  | none => simp [following, star, productive, productiveOption, hnull, he]
  | some s =>
      have hs : productive s = true := hsep
      have hnull' : nullable e = false := by simpa using hnull
      cases trailing <;>
        simp [following, star, productive, productiveAll, productiveOption, nullable, nullableAll,
          hs, he, hnull']

theorem mem_firstsAny {r : Rule δ} {rs : List (Rule δ)} (hr : r ∈ rs)
    {head : Symbol δ × List (Rule δ)} (h : head ∈ firsts r) : head ∈ firstsAny rs := by
  induction rs with
  | nil => cases hr
  | cons s rs ih =>
      rw [firstsAny, List.mem_append]
      rcases List.mem_cons.mp hr with rfl | hr
      · exact .inl h
      · exact .inr (ih hr)

theorem nullableAny_of_mem {r : Rule δ} {rs : List (Rule δ)} (hr : r ∈ rs)
    (h : nullable r = true) : nullableAny rs = true := by
  induction rs with
  | nil => cases hr
  | cons s rs ih =>
      rcases List.mem_cons.mp hr with rfl | hr
      · simp [nullableAny, h]
      · simp [nullableAny, ih hr]

theorem mem_firstsAll_append {inner rs : List (Rule δ)} {a : Symbol δ} {k : List (Rule δ)}
    (h : (a, k) ∈ firstsAll (inner ++ rs)) :
    (∃ k', (a, k') ∈ firstsAll inner ∧ k = k' ++ rs) ∨
      nullableAll inner = true ∧ (a, k) ∈ firstsAll rs := by
  induction inner with
  | nil => exact .inr ⟨rfl, h⟩
  | cons r inner ih =>
      simp only [List.cons_append, firstsAll, List.mem_append, List.mem_map] at h
      rcases h with ⟨⟨b, k'⟩, hmem, heq⟩ | h
      · cases heq
        exact .inl ⟨k' ++ inner, by
          rw [firstsAll]
          exact List.mem_append_left _ (List.mem_map.mpr ⟨_, hmem, rfl⟩), by simp⟩
      · cases hnull : nullable r with
        | false => simp [hnull] at h
        | true =>
            rw [hnull, if_pos rfl] at h
            rcases ih h with ⟨k', hmem, rfl⟩ | ⟨hinner, hmem⟩
            · refine .inl ⟨k', ?_, rfl⟩
              rw [firstsAll, hnull, if_pos rfl]
              exact List.mem_append_right _ hmem
            · exact .inr ⟨by simp [nullableAll, hnull, hinner], hmem⟩

/-- A word is empty where the rules may spell the empty word, or it begins as `firstsAll` says. -/
def Begins (rs : List (Rule δ)) : List (Symbol δ) → Prop
  | [] => nullableAll rs = true
  | a :: w => ∃ k, (a, k) ∈ firstsAll rs ∧ Spells k w ∧ productiveAll k = true

theorem Begins.mono {rs rs' : List (Rule δ)} {w : List (Symbol δ)}
    (hnull : nullableAll rs = true → nullableAll rs' = true)
    (hfirst : ∀ head ∈ firstsAll rs, head ∈ firstsAll rs') (h : Begins rs w) : Begins rs' w := by
  cases w with
  | nil => exact hnull h
  | cons a w =>
      obtain ⟨k, hmem, hk⟩ := h
      exact ⟨k, hfirst _ hmem, hk⟩

/-- Every word of productive rules begins as computed. -/
theorem Spells.begins {rs : List (Rule δ)} {w : List (Symbol δ)} (h : Spells rs w)
    (hrs : productiveAll rs = true) : Begins rs w := by
  induction h with
  | nil => rfl
  | empty _ ih =>
      refine (ih hrs).mono (fun h => by simpa [nullableAll, nullable] using h) fun head hmem => ?_
      simpa [firstsAll, firsts, nullable] using hmem
  | token h _ => exact ⟨_, by simp [firstsAll, firsts], h, hrs⟩
  | ref h _ => exact ⟨_, by simp [firstsAll, firsts], h, hrs⟩
  | @sequence inner rs w h ih =>
      have hproductive : productiveAll (inner ++ rs) = true := by
        rwa [productiveAll_append]
      refine (ih hproductive).mono (fun h => ?_) fun head hmem => ?_
      · rwa [nullableAll_append] at h
      · rw [firstsAll, firsts, nullable]
        rcases mem_firstsAll_append hmem with ⟨k', hk', heq⟩ | ⟨hnull, hmem⟩
        · refine List.mem_append_left _ (List.mem_map.mpr ⟨_, hk', ?_⟩)
          exact Prod.ext rfl heq.symm
        · rw [hnull, if_pos rfl]
          exact List.mem_append_right _ hmem
  | @choice inner r rs w hr h ih =>
      simp only [productiveAll, productive, Bool.and_eq_true] at hrs ih
      refine (ih ⟨productive_of_mem hr hrs.1, hrs.2⟩).mono (fun h => ?_) fun head hmem => ?_
      · simp only [nullableAll, nullable, Bool.and_eq_true] at h ⊢
        exact ⟨nullableAny_of_mem hr h.1, h.2⟩
      · simp only [firstsAll, firsts, List.mem_append, List.mem_map] at hmem ⊢
        rcases hmem with ⟨first, hfirst, rfl⟩ | hmem
        · exact .inl ⟨first, mem_firstsAny hr hfirst, rfl⟩
        · cases hnull : nullable r with
          | false => simp [hnull] at hmem
          | true =>
              have hchoice : (Rule.choice inner).nullable = true := nullableAny_of_mem hr hnull
              rw [hnull, if_pos rfl] at hmem
              rw [if_pos hchoice]
              exact .inr hmem
  | absent _ ih =>
      simp only [productiveAll, Bool.and_eq_true] at hrs
      refine (ih hrs.2).mono (fun h => by simpa [nullableAll, nullable] using h) fun head hmem => ?_
      simp [firstsAll, nullable, hmem]
  | @present r rs w _ ih =>
      have hrs' : productiveAll (r :: rs) = true := hrs
      refine (ih hrs').mono (fun h => ?_) fun head hmem => ?_
      · simp only [nullableAll, Bool.and_eq_true] at h
        simp [nullableAll, nullable, h.2]
      · simp only [firstsAll, firsts, nullable, List.mem_append] at hmem ⊢
        refine hmem.imp id fun hmem => ?_
        split at hmem
        · exact hmem
        · cases hmem
  | notAhead _ ih =>
      refine (ih hrs).mono (fun h => by simpa [nullableAll, nullable] using h) fun head hmem => ?_
      simpa [firstsAll, firsts, nullable] using hmem
  | @noElement e sep least trailing rs w hleast _ ih =>
      simp only [productiveAll, Bool.and_eq_true] at hrs
      subst hleast
      refine (ih hrs.2).mono (fun h => by simpa [nullableAll, nullable] using h) fun head hmem => ?_
      simp [firstsAll, nullable, hmem]
  | @elements e sep least trailing rs w _ ih =>
      simp only [productiveAll, Bool.and_eq_true] at hrs
      obtain ⟨hlist, hrs⟩ := hrs
      have hfollow := productive_following hlist
      simp only [productive, Bool.and_eq_true, Bool.not_eq_true'] at hlist
      obtain ⟨⟨hnull, he⟩, -⟩ := hlist
      have hbegins := ih (by simp [productiveAll, he, hfollow, hrs])
      refine hbegins.mono (fun h => ?_) fun head hmem => ?_
      · simp [nullableAll, hnull] at h
      · simp only [firstsAll, hnull, List.mem_append, List.mem_map] at hmem
        rcases hmem with ⟨first, hfirst, rfl⟩ | hmem
        · simp only [firstsAll, firsts, List.mem_append, List.mem_map]
          exact .inl ⟨_, ⟨first, hfirst, rfl⟩, by simp⟩
        · cases hmem

/-! ## Words without terminators -/

mutual

/-- A rule whose tokens of some kinds spell nothing. -/
def erase (ks : List TokenKind) : Rule δ → Rule δ
  | empty => empty
  | token k => if ks.contains k then empty else token k
  | ref d => ref d
  | sequence rs => sequence (eraseAll ks rs)
  | choice rs => choice (eraseAll ks rs)
  | optional r => optional (erase ks r)
  | list e sep least trailing => list (erase ks e) (eraseOption ks sep) least trailing
  | notAhead r => notAhead (erase ks r)

def eraseAll (ks : List TokenKind) : List (Rule δ) → List (Rule δ)
  | [] => []
  | r :: rs => erase ks r :: eraseAll ks rs

def eraseOption (ks : List TokenKind) : Option (Rule δ) → Option (Rule δ)
  | none => none
  | some r => some (erase ks r)

end

theorem eraseAll_eq_map (ks : List TokenKind) (rs : List (Rule δ)) :
    eraseAll ks rs = rs.map (erase ks) := by
  induction rs with
  | nil => rfl
  | cons r rs ih => rw [eraseAll, ih, List.map_cons]

theorem erase_following (ks : List TokenKind) (e : Rule δ) (sep : Option (Rule δ))
    (trailing : Bool) :
    erase ks (following e sep trailing) =
      following (erase ks e) (eraseOption ks sep) trailing := by
  cases sep with
  | none => rfl
  | some s => cases trailing <;> rfl

theorem Spells.erase (ks : List TokenKind) {rs : List (Rule δ)} {w : List (Symbol δ)}
    (h : Spells rs w) : Spells (eraseAll ks rs) (w.filter fun a => !a.isAny ks) := by
  induction h with
  | nil => exact .nil
  | empty _ ih => exact .empty ih
  | @token k rs w _ ih =>
      rw [eraseAll, Rule.erase]
      by_cases hk : ks.contains k = true
      · rw [if_pos hk, List.filter_cons_of_neg (by simpa [Symbol.isAny] using hk)]
        exact .empty ih
      · rw [if_neg hk, List.filter_cons_of_pos (by simpa [Symbol.isAny] using hk)]
        exact .token ih
  | ref _ ih => exact .ref ih
  | sequence _ ih =>
      rw [eraseAll, Rule.erase]
      refine .sequence ?_
      rwa [eraseAll_eq_map, List.map_append, ← eraseAll_eq_map, ← eraseAll_eq_map] at ih
  | choice hr _ ih =>
      refine .choice (r := Rule.erase ks _) ?_ ih
      rw [eraseAll_eq_map]
      exact List.mem_map_of_mem hr
  | absent _ ih => exact .absent ih
  | present _ ih => exact .present ih
  | notAhead _ ih => exact .notAhead ih
  | noElement hleast _ ih => exact .noElement hleast ih
  | elements _ ih =>
      refine .elements ?_
      rwa [eraseAll, eraseAll, erase_following] at ih

/-! ## Comparing rules -/

section Same

variable [DecidableEq δ]

mutual

def same : Rule δ → Rule δ → Bool
  | empty, empty => true
  | token k, token k' => k = k'
  | ref d, ref d' => d = d'
  | sequence rs, sequence rs' => sameAll rs rs'
  | choice rs, choice rs' => sameAll rs rs'
  | optional r, optional r' => same r r'
  | notAhead r, notAhead r' => same r r'
  | list e s least trailing, list e' s' least' trailing' =>
    same e e' && sameOption s s' && least == least' && trailing == trailing'
  | _, _ => false

def sameAll : List (Rule δ) → List (Rule δ) → Bool
  | [], [] => true
  | r :: rs, r' :: rs' => same r r' && sameAll rs rs'
  | _, _ => false

def sameOption : Option (Rule δ) → Option (Rule δ) → Bool
  | none, none => true
  | some r, some r' => same r r'
  | _, _ => false

end

mutual

theorem eq_of_same : ∀ {r r' : Rule δ}, same r r' = true → r = r'
  | empty, r', h | token _, r', h | ref _, r', h => by cases r' <;> simp_all [same]
  | sequence _, r', h | choice _, r', h => by
      cases r' <;> simp only [same, Bool.false_eq_true] at h
      rw [eq_of_sameAll h]
  | optional _, r', h | notAhead _, r', h => by
      cases r' <;> simp only [same, Bool.false_eq_true] at h
      rw [eq_of_same h]
  | list _ _ _ _, r', h => by
      cases r' <;> simp only [same, Bool.and_eq_true, beq_iff_eq, Bool.false_eq_true] at h
      obtain ⟨⟨⟨he, hs⟩, rfl⟩, rfl⟩ := h
      rw [eq_of_same he, eq_of_sameOption hs]

theorem eq_of_sameAll : ∀ {rs rs' : List (Rule δ)}, sameAll rs rs' = true → rs = rs'
  | [], rs', h => by cases rs' <;> simp_all [sameAll]
  | _ :: _, rs', h => by
      cases rs' <;> simp only [sameAll, Bool.and_eq_true, Bool.false_eq_true] at h
      rw [eq_of_same h.1, eq_of_sameAll h.2]

theorem eq_of_sameOption : ∀ {r r' : Option (Rule δ)}, sameOption r r' = true → r = r'
  | none, r', h => by cases r' <;> simp_all [sameOption]
  | some _, r', h => by
      cases r' <;> simp only [sameOption, Bool.false_eq_true] at h
      rw [eq_of_same h]

end

end Same

/-! ## Rules with few words -/

mutual

def finite : Rule δ → Bool
  | empty | token _ | ref _ | notAhead _ => true
  | sequence rs | choice rs => finiteAll rs
  | optional r => finite r
  | list _ _ _ _ => false

def finiteAll : List (Rule δ) → Bool
  | [] => true
  | r :: rs => finite r && finiteAll rs

end

mutual

def words : Rule δ → List (List (Symbol δ))
  | empty | notAhead _ => [[]]
  | token k => [[.token k]]
  | ref d => [[.node (some d)]]
  | sequence rs => wordsAll rs
  | choice rs => wordsAny rs
  | optional r => [] :: words r
  | list _ _ _ _ => []

def wordsAll : List (Rule δ) → List (List (Symbol δ))
  | [] => [[]]
  | r :: rs => (words r).flatMap fun u => (wordsAll rs).map (u ++ ·)

def wordsAny : List (Rule δ) → List (List (Symbol δ))
  | [] => []
  | r :: rs => words r ++ wordsAny rs

end

theorem finiteAll_append (rs rs' : List (Rule δ)) :
    finiteAll (rs ++ rs') = (finiteAll rs && finiteAll rs') := by
  induction rs with
  | nil => rfl
  | cons r rs ih => simp [finiteAll, ih, Bool.and_assoc]

theorem finite_of_mem {r : Rule δ} {rs : List (Rule δ)} (hr : r ∈ rs) (h : finiteAll rs = true) :
    finite r = true := by
  induction rs with
  | nil => cases hr
  | cons r' rs ih =>
      rw [finiteAll, Bool.and_eq_true] at h
      rcases List.mem_cons.mp hr with rfl | hr
      · exact h.1
      · exact ih hr h.2

theorem mem_wordsAny {r : Rule δ} {rs : List (Rule δ)} {w : List (Symbol δ)} (hr : r ∈ rs)
    (hw : w ∈ words r) : w ∈ wordsAny rs := by
  induction rs with
  | nil => cases hr
  | cons r' rs ih =>
      rw [wordsAny, List.mem_append]
      rcases List.mem_cons.mp hr with rfl | hr
      · exact .inl hw
      · exact .inr (ih hr)

theorem mem_wordsAll_cons {r : Rule δ} {rs : List (Rule δ)} {w : List (Symbol δ)} :
    w ∈ wordsAll (r :: rs) ↔ ∃ u ∈ words r, ∃ v ∈ wordsAll rs, u ++ v = w := by
  simp [wordsAll]

theorem mem_wordsAll_append {rs rs' : List (Rule δ)} {w : List (Symbol δ)} :
    w ∈ wordsAll (rs ++ rs') ↔ ∃ u ∈ wordsAll rs, ∃ v ∈ wordsAll rs', u ++ v = w := by
  induction rs generalizing w with
  | nil => simp [wordsAll]
  | cons r rs ih =>
      simp only [List.cons_append, mem_wordsAll_cons, ih]
      constructor
      · rintro ⟨u, hu, _, ⟨v, hv, x, hx, rfl⟩, rfl⟩
        exact ⟨u ++ v, ⟨u, hu, v, hv, rfl⟩, x, hx, List.append_assoc u v x⟩
      · rintro ⟨_, ⟨u, hu, v, hv, rfl⟩, x, hx, rfl⟩
        exact ⟨u, hu, v ++ x, ⟨v, hv, x, hx, rfl⟩, (List.append_assoc u v x).symm⟩

/-- What rules with finitely many words spell is one of these. -/
theorem Spells.mem_words {rs : List (Rule δ)} {w : List (Symbol δ)} (h : Spells rs w)
    (hrs : finiteAll rs = true) : w ∈ wordsAll rs := by
  induction h with
  | nil => exact List.mem_singleton_self _
  | @empty rs w _ ih =>
      exact mem_wordsAll_cons.mpr ⟨[], List.mem_singleton_self _, w, ih hrs, rfl⟩
  | @token k rs w _ ih =>
      exact mem_wordsAll_cons.mpr ⟨_, List.mem_singleton_self _, w, ih hrs, rfl⟩
  | @ref d rs w _ ih =>
      exact mem_wordsAll_cons.mpr ⟨_, List.mem_singleton_self _, w, ih hrs, rfl⟩
  | @sequence inner rs w _ ih =>
      obtain ⟨u, hu, v, hv, rfl⟩ :=
        mem_wordsAll_append.mp (ih (by rwa [finiteAll_append]))
      exact mem_wordsAll_cons.mpr ⟨u, hu, v, hv, rfl⟩
  | @choice inner r rs w hr _ ih =>
      rw [finiteAll, Bool.and_eq_true] at hrs
      have hfinite : finiteAll (r :: rs) = true := by
        rw [finiteAll, finite_of_mem hr hrs.1, hrs.2]
        rfl
      obtain ⟨u, hu, v, hv, rfl⟩ := mem_wordsAll_cons.mp (ih hfinite)
      exact mem_wordsAll_cons.mpr ⟨u, mem_wordsAny hr hu, v, hv, rfl⟩
  | @absent r rs w _ ih =>
      rw [finiteAll, Bool.and_eq_true] at hrs
      exact mem_wordsAll_cons.mpr ⟨[], List.mem_cons_self, w, ih hrs.2, rfl⟩
  | @present r rs w _ ih =>
      obtain ⟨u, hu, v, hv, rfl⟩ := mem_wordsAll_cons.mp (ih hrs)
      exact mem_wordsAll_cons.mpr ⟨u, List.mem_cons_of_mem _ hu, v, hv, rfl⟩
  | @notAhead r rs w _ ih =>
      exact mem_wordsAll_cons.mpr ⟨[], List.mem_singleton_self _, w, ih hrs, rfl⟩
  | noElement => cases hrs
  | elements => cases hrs

def ofSymbol : Symbol δ → Rule δ
  | .token k => token k
  | .node (some d) => ref d
  | .node none => choice []

def ofWord : List (Symbol δ) → Rule δ
  | [a] => ofSymbol a
  | w => sequence (w.map ofSymbol)

theorem Spells.map_ofSymbol {rs : List (Rule δ)} {w : List (Symbol δ)} (h : Spells rs w) :
    Spells (w.map ofSymbol) w := by
  induction h with
  | nil => exact .nil
  | token _ ih => exact .token ih
  | ref _ ih => exact .ref ih
  | empty _ ih | sequence _ ih | choice _ _ ih | absent _ ih | present _ ih | notAhead _ ih
  | noElement _ _ ih | elements _ ih => exact ih

theorem Spells.ofWord {rs : List (Rule δ)} {w : List (Symbol δ)} (h : Spells rs w) :
    Spells [ofWord w] w := by
  have hmap := h.map_ofSymbol
  unfold Rule.ofWord
  split
  · exact hmap
  · exact .sequence (by simpa using hmap)

end Rule

end DualSyntax
