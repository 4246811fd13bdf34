import DualSyntax.Proofs.Grammar.Words

/-!
# Outlooks

An outlook lists what the next child of a match may be, each with the rules that are then left to
spell.  The steps by which the children of a match are read have their counterparts on outlooks; what
the counterpart computes, it computes for every match at once.
-/

namespace DualSyntax

variable {δ : Type}

namespace Rule

mutual

/-- Whether a property holds of all symbols that a rule is made of. -/
def every (p : Symbol δ → Bool) : Rule δ → Bool
  | empty | notAhead _ => true
  | token k => p (.token k)
  | ref d => p (.node (some d))
  | sequence rs | choice rs => everyAll p rs
  | optional r => every p r
  | list e sep _ _ => every p e && everyOption p sep

def everyAll (p : Symbol δ → Bool) : List (Rule δ) → Bool
  | [] => true
  | r :: rs => every p r && everyAll p rs

def everyOption (p : Symbol δ → Bool) : Option (Rule δ) → Bool
  | none => true
  | some r => every p r

end

variable {p q : Symbol δ → Bool} {rs : List (Rule δ)} {w : List (Symbol δ)}

theorem everyAll_eq_all (p : Symbol δ → Bool) (rs : List (Rule δ)) :
    everyAll p rs = rs.all (every p) := by
  induction rs with
  | nil => rfl
  | cons r rs ih => rw [everyAll, ih, List.all_cons]

theorem every_following {e : Rule δ} {sep : Option (Rule δ)} {least : Nat} {trailing : Bool}
    (h : every p (list e sep least trailing) = true) :
    every p (following e sep trailing) = true := by
  simp only [every, Bool.and_eq_true] at h
  obtain ⟨he, hsep⟩ := h
  cases sep with
  | none => simp [following, star, every, everyOption, he]
  | some s =>
      have hs : every p s = true := hsep
      cases trailing <;> simp [following, star, every, everyAll, everyOption, he, hs]

theorem Spells.every (h : Spells rs w) (hrs : everyAll p rs = true) : ∀ a ∈ w, p a = true := by
  induction h with
  | nil => simp
  | empty _ ih | notAhead _ ih | absent _ ih | noElement _ _ ih =>
      simp only [everyAll, Bool.and_eq_true] at hrs
      exact ih hrs.2
  | token _ ih | ref _ ih =>
      simp only [everyAll, Rule.every, Bool.and_eq_true] at hrs
      exact List.forall_mem_cons.mpr ⟨hrs.1, ih hrs.2⟩
  | sequence _ ih =>
      refine ih ?_
      simp only [everyAll, Rule.every, everyAll_eq_all, Bool.and_eq_true] at hrs
      rw [everyAll_eq_all, List.all_append, hrs.1, hrs.2]
      rfl
  | choice hr _ ih =>
      refine ih ?_
      simp only [everyAll, Rule.every, everyAll_eq_all, Bool.and_eq_true, List.all_eq_true] at hrs ⊢
      exact ⟨hrs.1 _ hr, hrs.2⟩
  | present _ ih => exact ih hrs
  | elements _ ih =>
      simp only [everyAll, Bool.and_eq_true] at hrs ih
      have hlist := hrs.1
      rw [Rule.every, Bool.and_eq_true] at hlist
      exact ih ⟨hlist.1, every_following hrs.1, hrs.2⟩

mutual

theorem every_true : ∀ r : Rule δ, every (fun _ => true) r = true
  | empty | notAhead _ | token _ | ref _ => rfl
  | sequence rs | choice rs => everyAll_true rs
  | optional r => every_true r
  | list e sep _ _ => by rw [every, every_true e, everyOption_true sep]; rfl

theorem everyAll_true : ∀ rs : List (Rule δ), everyAll (fun _ => true) rs = true
  | [] => rfl
  | r :: rs => by rw [everyAll, every_true r, everyAll_true rs]; rfl

theorem everyOption_true : ∀ r : Option (Rule δ), everyOption (fun _ => true) r = true
  | none => rfl
  | some r => every_true r

end

mutual

def unit : Rule δ → Bool
  | token _ | ref _ => true
  | choice rs => unitAll rs
  | _ => false

def unitAll : List (Rule δ) → Bool
  | [] => true
  | r :: rs => unit r && unitAll rs

end

theorem unit_of_mem {r : Rule δ} (hr : r ∈ rs) (h : unitAll rs = true) : unit r = true := by
  induction rs with
  | nil => cases hr
  | cons s rs ih =>
      rw [unitAll, Bool.and_eq_true] at h
      rcases List.mem_cons.mp hr with rfl | hr
      · exact h.1
      · exact ih hr h.2

theorem Spells.unit {r : Rule δ} (h : Spells (r :: rs) w) (hunit : r.unit = true)
    (hr : r.every p = true) : ∃ a w', w = a :: w' ∧ p a = true ∧ Spells rs w' := by
  generalize hrs : r :: rs = all at h
  induction h generalizing r with
  | token h _ | ref h _ =>
      cases hrs
      exact ⟨_, _, rfl, hr, h⟩
  | choice hmem _ ih =>
      cases hrs
      rw [Rule.every, everyAll_eq_all, List.all_eq_true] at hr
      exact ih (unit_of_mem hmem hunit) (hr _ hmem) rfl
  | nil => cases hrs
  | _ =>
      cases hrs
      simp [Rule.unit] at hunit

/-- Two properties hold of the elements of a list by turns. -/
def Alternates (p q : Symbol δ → Bool) : List (Symbol δ) → Prop
  | [] => True
  | a :: w => p a = true ∧ Alternates q p w

theorem Spells.alternates_following {e s : Rule δ} {last : Rule δ} (he : e.unit = true)
    (hs : s.unit = true) (hp : e.every p = true) (hq : s.every q = true)
    (hlast : last = s.optional ∨ last = .empty) {w : List (Symbol δ)}
    (h : Spells [(Rule.sequence [s, e]).star, last] w) : Alternates q p w := by
  induction hn : w.length using Nat.strongRecOn generalizing w with
  | _ n ih =>
      cases h with
      | noElement _ h =>
          rcases hlast with rfl | rfl
          · cases h with
            | absent h => cases h.nil_inv; trivial
            | present h =>
                obtain ⟨a, w', rfl, ha, h⟩ := h.unit hs hq
                cases h.nil_inv
                exact ⟨ha, trivial⟩
          · cases h.empty_inv.nil_inv
            trivial
      | elements h =>
          cases h with
          | sequence h =>
              obtain ⟨a, w', rfl, ha, h⟩ := Spells.unit h hs hq
              obtain ⟨b, w'', rfl, hb, h⟩ := Spells.unit h he hp
              exact ⟨ha, hb, ih w''.length (by simp at hn; omega) h rfl⟩

/-- The elements and the separators of a list stand by turns. -/
theorem Spells.alternates {e s : Rule δ} {least : Nat} {trailing : Bool} (he : e.unit = true)
    (hs : s.unit = true) (hp : e.every p = true) (hq : s.every q = true)
    (h : Spells [list e (some s) least trailing] w) : Alternates p q w := by
  cases h with
  | noElement _ h => cases h.nil_inv; trivial
  | elements h =>
      obtain ⟨a, w', rfl, ha, h⟩ := h.unit he hp
      cases h with
      | sequence h =>
          refine ⟨ha, Spells.alternates_following he hs hp hq ?_ h⟩
          cases trailing <;> simp

theorem Spells.even_following {e s : Rule δ} (he : e.unit = true) (hs : s.unit = true)
    {w : List (Symbol δ)} (h : Spells [(Rule.sequence [s, e]).star, .empty] w) : w.length % 2 = 0 := by
  induction hn : w.length using Nat.strongRecOn generalizing w with
  | _ n ih =>
      cases h with
      | noElement _ h =>
          cases h.empty_inv.nil_inv
          simp [← hn]
      | elements h =>
          cases h with
          | sequence h =>
              obtain ⟨a, w', rfl, -, h⟩ := Spells.unit h hs (every_true s)
              obtain ⟨b, w'', rfl, -, h⟩ := Spells.unit h he (every_true e)
              have heven := ih w''.length (by simp at hn; omega) h rfl
              simp only [List.length_cons] at hn
              omega

/-- A list that is not empty and has no separator at its end. -/
theorem Spells.odd {e s : Rule δ} {least : Nat} (he : e.unit = true) (hs : s.unit = true)
    (hleast : least ≠ 0) (h : Spells [list e (some s) least false] w) : w.length % 2 = 1 := by
  cases h with
  | noElement hzero _ => exact absurd hzero hleast
  | elements h =>
      obtain ⟨a, w', rfl, -, h⟩ := h.unit he (every_true e)
      cases h with
      | sequence h =>
          have heven := Spells.even_following he hs h
          rw [List.length_cons]
          omega

end Rule

/-- What the next child may be, each with the rules that are then left; `none` where there may be no
further child. -/
abbrev Outlook (δ : Type) := List (Option (Symbol δ × List (Rule δ)))

namespace Outlook

def ofRules (rs : List (Rule δ)) : Outlook δ :=
  (Rule.firstsAll rs).map some ++ if Rule.nullableAll rs then [none] else []

/-- Children that are among what an outlook lists. -/
def Foresees (o : Outlook δ) : List (RawTree δ) → Prop
  | [] => none ∈ o
  | t :: ts => ∃ k, some (t.symbol, k) ∈ o ∧ Rule.Spells k (ts.map RawTree.symbol) ∧
      Rule.productiveAll k = true

variable {o o' : Outlook δ} {p : Symbol δ → Bool} {t : RawTree δ} {ts : List (RawTree δ)}

theorem foresees_ofRules {rs : List (Rule δ)} (hrs : Rule.productiveAll rs = true)
    (h : Rule.Spells rs (ts.map RawTree.symbol)) : (ofRules rs).Foresees ts := by
  have hbegins := h.begins hrs
  cases ts with
  | nil =>
      have hnull : Rule.nullableAll rs = true := hbegins
      simp [Foresees, ofRules, hnull]
  | cons t ts =>
      obtain ⟨k, hmem, hk⟩ := hbegins
      exact ⟨k, List.mem_append_left _ (List.mem_map_of_mem hmem), hk⟩

theorem Foresees.mono (h : o.Foresees ts) (hsub : o ⊆ o') : o'.Foresees ts := by
  cases ts with
  | nil => exact hsub h
  | cons t ts =>
      obtain ⟨k, hmem, hk⟩ := h
      exact ⟨k, hsub hmem, hk⟩

/-- Whether the next child is there and has a property. -/
def must (o : Outlook δ) (p : Symbol δ → Bool) : Bool :=
  o.all fun
    | some (a, _) => p a
    | none => false

/-- The outlook behind a next child that has a property. -/
def past (o : Outlook δ) (p : Symbol δ → Bool) : Outlook δ :=
  o.flatMap fun
    | some (a, k) => if p a then ofRules k else []
    | none => []

/-- The outlook if the next child does not have a property. -/
def without (o : Outlook δ) (p : Symbol δ → Bool) : Outlook δ :=
  o.filter fun
    | some (a, _) => !p a
    | none => true

theorem Foresees.of_must (h : o.Foresees ts) (hp : o.must p = true) :
    ∃ t rest, ts = t :: rest ∧ p t.symbol = true := by
  rw [must, List.all_eq_true] at hp
  cases ts with
  | nil => exact absurd (hp none h) (by simp)
  | cons t rest =>
      obtain ⟨k, hmem, -⟩ := h
      exact ⟨t, rest, rfl, hp _ hmem⟩

theorem Foresees.past (h : o.Foresees (t :: ts)) (hp : p t.symbol = true) :
    (o.past p).Foresees ts := by
  obtain ⟨k, hmem, hk, hproductive⟩ := h
  refine (foresees_ofRules hproductive hk).mono fun head hhead => ?_
  refine List.mem_flatMap.mpr ⟨_, hmem, ?_⟩
  simpa [hp] using hhead

theorem Foresees.without (h : o.Foresees ts) (hp : ∀ t ∈ ts.head?, p t.symbol = false) :
    (o.without p).Foresees ts := by
  cases ts with
  | nil => exact List.mem_filter.mpr ⟨h, rfl⟩
  | cons t ts =>
      obtain ⟨k, hmem, hk⟩ := h
      refine ⟨k, List.mem_filter.mpr ⟨hmem, ?_⟩, hk⟩
      simpa using hp t rfl

/-- Whether every next child that has one property has another. -/
def narrows (o : Outlook δ) (p q : Symbol δ → Bool) : Bool :=
  o.all fun
    | some (a, _) => !p a || q a
    | none => true

theorem Foresees.narrows {q : Symbol δ → Bool} (h : o.Foresees (t :: ts))
    (ho : o.narrows p q = true) (hp : p t.symbol = true) : q t.symbol = true := by
  obtain ⟨k, hmem, -⟩ := h
  simpa [hp] using List.all_eq_true.mp ho _ hmem

/-! ## Taking children -/

/-- Takes the next child, which must have a property. -/
def take (o : Outlook δ) (p : Symbol δ → Bool) : Option (Outlook δ) :=
  if o.must p then some (o.past p) else none

/-- Takes the next child if it has a property. -/
def takeMaybe (o : Outlook δ) (p : Symbol δ → Bool) : Outlook δ := o.past p ++ o.without p

/-- Takes the next child if it has a property; it must then have another. -/
def takeOnly (o : Outlook δ) (p q : Symbol δ → Bool) : Option (Outlook δ) :=
  if o.narrows p q then some (o.takeMaybe p) else none

theorem take_eq_some : o.take p = some o' ↔ o.must p = true ∧ o.past p = o' := by
  rw [take, Option.ite_none_right_eq_some, Option.some.injEq]

theorem takeOnly_eq_some {q : Symbol δ → Bool} :
    o.takeOnly p q = some o' ↔ o.narrows p q = true ∧ o.takeMaybe p = o' := by
  rw [takeOnly, Option.ite_none_right_eq_some, Option.some.injEq]

theorem Foresees.sweep (h : o'.Foresees ts) (hclosed : o'.past p ⊆ o') :
    (∀ t ∈ ts.takeWhile (p ·.symbol), ∃ k, some (t.symbol, k) ∈ o') ∧
      (o'.without p).Foresees (ts.dropWhile (p ·.symbol)) := by
  induction ts with
  | nil => exact ⟨by simp, h.without (by simp)⟩
  | cons t ts ih =>
      cases hp : p t.symbol with
      | false =>
          rw [List.takeWhile_cons_of_neg (by simp [hp]), List.dropWhile_cons_of_neg (by simp [hp])]
          exact ⟨by simp, h.without (by simpa using hp)⟩
      | true =>
          rw [List.takeWhile_cons_of_pos (by simp [hp]), List.dropWhile_cons_of_pos (by simp [hp])]
          obtain ⟨htake, hdrop⟩ := ih ((h.past hp).mono hclosed)
          obtain ⟨k, hmem, -⟩ := h
          exact ⟨List.forall_mem_cons.mpr ⟨⟨k, hmem⟩, htake⟩, hdrop⟩

section Sweep

variable [DecidableEq δ]

def lists (o : Outlook δ) (head : Option (Symbol δ × List (Rule δ))) : Bool :=
  o.any fun other =>
    match head, other with
    | none, none => true
    | some (a, k), some (b, k') => a = b && Rule.sameAll k k'
    | _, _ => false

theorem mem_of_lists {head : Option (Symbol δ × List (Rule δ))} (h : o.lists head = true) :
    head ∈ o := by
  obtain ⟨other, hmem, hsame⟩ := List.any_eq_true.mp h
  match head, other, hsame with
  | none, none, _ => exact hmem
  | some (a, k), some (b, k'), hsame =>
      simp only [Bool.and_eq_true, decide_eq_true_eq] at hsame
      rw [hsame.1, Rule.eq_of_sameAll hsame.2]
      exact hmem

/-- The outlook while children with a property are taken, if one round shows all of it. -/
def sweep (o : Outlook δ) (p : Symbol δ → Bool) : Option (Outlook δ) :=
  let both := o ++ o.past p
  if (both.past p).all both.lists then some both else none

/-- Takes all next children that have a property, of which each must have another. -/
def takeAll (o : Outlook δ) (p q : Symbol δ → Bool) : Option (Outlook δ) := do
  let both ← o.sweep p
  if both.narrows p q then some (both.without p) else none

theorem subset_of_sweep (h : o.sweep p = some o') : o ⊆ o' ∧ o'.past p ⊆ o' := by
  rw [sweep, Option.ite_none_right_eq_some] at h
  obtain ⟨hclosed, ho⟩ := h
  cases ho
  refine ⟨List.subset_append_left _ _, fun head hhead => ?_⟩
  exact mem_of_lists (List.all_eq_true.mp hclosed head hhead)

theorem Foresees.takeAll {q : Symbol δ → Bool} (h : o.Foresees ts)
    (hp : o.takeAll p q = some o') :
    (∀ t ∈ ts.takeWhile (p ·.symbol), q t.symbol = true) ∧
      o'.Foresees (ts.dropWhile (p ·.symbol)) := by
  obtain ⟨both, hsweep, hnarrows⟩ := Option.bind_eq_some_iff.mp hp
  rw [Option.ite_none_right_eq_some] at hnarrows
  obtain ⟨hnarrows, ho'⟩ := hnarrows
  cases ho'
  obtain ⟨hsub, hclosed⟩ := subset_of_sweep hsweep
  obtain ⟨htake, hdrop⟩ := (h.mono hsub).sweep hclosed
  refine ⟨fun t ht => ?_, hdrop⟩
  obtain ⟨k, hmem⟩ := htake t ht
  have hp : p t.symbol = true := List.all_eq_true.mp List.all_takeWhile t ht
  simpa [hp] using List.all_eq_true.mp hnarrows _ hmem

end Sweep

/-- Whether a property holds of all children that may still come. -/
def every (o : Outlook δ) (p : Symbol δ → Bool) : Bool :=
  o.all fun
    | some (a, k) => p a && Rule.everyAll p k
    | none => true

theorem Foresees.every (h : o.Foresees ts) (hp : o.every p = true) :
    ∀ t ∈ ts, p t.symbol = true := by
  rw [Outlook.every, List.all_eq_true] at hp
  cases ts with
  | nil => simp
  | cons t ts =>
      obtain ⟨k, hmem, hk, -⟩ := h
      have hboth := hp _ hmem
      rw [Bool.and_eq_true] at hboth
      refine List.forall_mem_cons.mpr ⟨hboth.1, fun u hu => ?_⟩
      exact hk.every hboth.2 _ (List.mem_map_of_mem hu)

/-- Whether no further child may come. -/
def ends (o : Outlook δ) : Bool := o.all Option.isNone

theorem Foresees.ends (h : o.Foresees ts) (ho : o.ends = true) : ts = [] := by
  cases ts with
  | nil => rfl
  | cons t ts =>
      obtain ⟨k, hmem, -⟩ := h
      exact absurd (List.all_eq_true.mp ho _ hmem) (by simp)

end Outlook

end DualSyntax
