import DualSyntax.Forest.Agree
import DualSyntax.Proofs.Forest.Roots
import Mathlib.Data.List.Forall2
import Mathlib.Logic.Relator
import Mathlib.Order.Basic

/-!
# Forests that mirror each other

Two texts that differ in comments and blank lines only give forests in which the nodes of the words
correspond, while each forest has comment nodes of its own.  `Mirror` says that a pairing of nodes is
such a correspondence.  The edits of lowering keep it: those that are made in both forests at nodes of
a pair, and those that put a comment below a node in one forest alone.  Nodes of a pair agree.
-/

namespace DualSyntax

/-- The titles under which comments and blank lines hang. -/
def Title.isTrivia (t : Title) : Bool := t == .leadingTrivia || t == .trailingTrivia

theorem Title.isTrivia_of_not_isLexical {t : Title} (h : t.isLexical = false) :
    t.isTrivia = false := by
  cases t <;> first | rfl | cases h

namespace NodeKind

/-- A kind that agrees with itself.  Only a literal whose value is not a number does not. -/
def Definite (k : NodeKind) : Prop := k.agrees k = true

def isLiteral : NodeKind → Bool
  | primitiveExpression _ => true
  | _ => false

theorem Definite.of_not_isLiteral {k : NodeKind} (h : k.isLiteral = false) : k.Definite := by
  cases k
  case primitiveExpression l => cases h
  case doLoopStatement test isUntil => cases test <;> cases isUntil <;> rfl
  case token k s => exact beq_self_eq_true k
  case comment k s => exact beq_self_eq_true (Text.trim s.toList)
  -- all others carry nothing, or one value whose equality is reflexive
  all_goals first | rfl | (rename_i x; exact beq_self_eq_true x)

end NodeKind

namespace Forest

/-- Which nodes of one forest correspond to which of another. -/
abbrev Pairing := NodeId → NodeId → Prop

/-- The children of a node with their titles, without comments and blank lines. -/
def parts (f : Forest) (n : NodeId) : List (Title × NodeId) := (f.slots n).filter (!·.1.isTrivia)

def Pairing.add (ρ : Pairing) (a b : NodeId) : Pairing := fun x y => ρ x y ∨ (x = a ∧ y = b)

/-- Two slots of the same title whose nodes correspond. -/
def SlotPair (ρ : Pairing) (s s' : Title × NodeId) : Prop := s.1 = s'.1 ∧ ρ s.2 s'.2

/-- A pairing of the nodes of two forests under which kinds, parents and parts correspond. -/
structure Mirror (ρ : Pairing) (f g : Forest) : Prop where
  unique : Relator.BiUnique ρ
  lt_left : ∀ a b, ρ a b → a < f.size
  lt_right : ∀ a b, ρ a b → b < g.size
  kind : ∀ a b, ρ a b → f.kind a = g.kind b
  definite : ∀ a b, ρ a b → (f.kind a).Definite
  parent : ∀ a b, ρ a b → Option.Rel ρ (f.parent a) (g.parent b)
  parts : ∀ a b, ρ a b → List.Forall₂ (SlotPair ρ) (f.parts a) (g.parts b)

variable {ρ : Pairing} {f g f' g' : Forest} {a b c d : NodeId} {t : Title}

/-! ## Parts of single forests -/

theorem slots_detach_eq (f : Forest) (c m : NodeId) :
    (f.detach c).slots m =
      if f.parent c = some m then (f.slots m).filter (·.2 != c) else f.slots m := by
  cases hp : f.parent c with
  | none => simp [detach_of_parent_eq_none hp]
  | some p =>
      rcases Nat.lt_or_ge p f.size with hlt | hge
      · rw [slots_detach hp hlt]
        simp [eq_comm]
      · -- the parent is no node of the forest, so there are no slots to change
        have hslots : (f.detach c).slots m = f.slots m := by
          rw [detach, hp]
          dsimp only
          rw [slots, slots]
          by_cases hm : m = p
          · subst hm
            rw [data_of_size_le (by simpa using hge), data_of_size_le hge]
          · rw [data_modify_of_ne hm]
            exact slots_modify rfl m
        rw [hslots]
        split
        case isTrue h =>
          obtain rfl := Option.some.inj h
          rw [slots_of_size_le hge]
          rfl
        case isFalse => rfl

theorem parts_detach (f : Forest) (c m : NodeId) :
    (f.detach c).parts m =
      if f.parent c = some m then (f.parts m).filter (·.2 != c) else f.parts m := by
  rw [parts, slots_detach_eq]
  split
  · rw [parts, List.filter_filter, List.filter_filter]
    simp only [Bool.and_comm]
  · rfl

theorem parts_link (hc : c < f.size) (change : List (Title × NodeId) → List (Title × NodeId))
    (d m : NodeId) :
    (f.link c d change).parts m =
      if m = c then (change (f.slots m)).filter (!·.1.isTrivia) else f.parts m := by
  rw [parts, slots_link hc]
  split <;> rfl

theorem find?_parts (ht : t.isTrivia = false) (n : NodeId) :
    (f.parts n).find? (·.1 == t) = (f.slots n).find? (·.1 == t) := by
  rw [parts, List.find?_filter]
  congr 1
  funext s
  by_cases hs : s.1 = t
  · simp [hs, ht]
  · simp [hs]

theorem filter_parts (ht : t.isTrivia = false) (n : NodeId) :
    (f.parts n).filter (·.1 == t) = (f.slots n).filter (·.1 == t) := by
  rw [parts, List.filter_filter]
  congr 1
  funext s
  by_cases hs : s.1 = t
  · simp [hs, ht]
  · simp [hs]

theorem filter_putFirst (ht : t.isTrivia = false) (c : NodeId) (slots : List (Title × NodeId)) :
    (putFirst t c slots).filter (!·.1.isTrivia) = putFirst t c (slots.filter (!·.1.isTrivia)) := by
  induction slots with
  | nil => simp [putFirst, ht]
  | cons s rest ih =>
      by_cases hs : s.1 = t
      · simp [putFirst, hs, ht]
      · cases htrivia : s.1.isTrivia <;> simp [putFirst, hs, htrivia, ih]

/-! ## Lists of slots that correspond -/

theorem rel_mono {ρ' : Pairing} (hρ : ρ ≤ ρ') {o o' : Option NodeId} (h : Option.Rel ρ o o') :
    Option.Rel ρ' o o' := by
  cases h with
  | some hab => exact .some (hρ _ _ hab)
  | none => exact .none

theorem exists_of_forall₂ {ss ss' : List (Title × NodeId)} (h : List.Forall₂ (SlotPair ρ) ss ss') :
    ∀ s ∈ ss, ∃ b, ρ s.2 b := by
  induction h with
  | nil => simp
  | cons hs _ ih => exact List.forall_mem_cons.mpr ⟨⟨_, hs.2⟩, ih⟩

theorem forall₂_find? {ss ss' : List (Title × NodeId)} (h : List.Forall₂ (SlotPair ρ) ss ss')
    (t : Title) :
    Option.Rel ρ ((ss.find? (·.1 == t)).map (·.2)) ((ss'.find? (·.1 == t)).map (·.2)) := by
  induction h with
  | nil => exact .none
  | @cons s s' _ _ hs _ ih =>
      simp only [List.find?_cons, hs.1]
      cases s'.1 == t with
      | true => exact .some hs.2
      | false => exact ih

theorem forall₂_putFirst {ss ss' : List (Title × NodeId)} (h : List.Forall₂ (SlotPair ρ) ss ss')
    (t : Title) (hc : ρ c d) :
    List.Forall₂ (SlotPair ρ) (putFirst t c ss) (putFirst t d ss') := by
  induction h with
  | nil => exact .cons ⟨rfl, hc⟩ .nil
  | @cons s s' _ _ hs hrest ih =>
      simp only [putFirst, hs.1]
      split
      · exact .cons ⟨rfl, hc⟩ hrest
      · exact .cons hs ih

theorem forall₂_filter_ne (hunique : Relator.BiUnique ρ) {ss ss' : List (Title × NodeId)}
    (h : List.Forall₂ (SlotPair ρ) ss ss') (hc : ρ c d) :
    List.Forall₂ (SlotPair ρ) (ss.filter (·.2 != c)) (ss'.filter (·.2 != d)) := by
  induction h with
  | nil => exact .nil
  | @cons s s' _ _ hs _ ih =>
      have hsame : s.2 = c ↔ s'.2 = d := Relator.rel_eq hunique hs.2 hc
      by_cases hsc : s.2 = c
      · simpa [hsc, hsame.mp hsc] using ih
      · have hsd : s'.2 ≠ d := fun h => hsc (hsame.mpr h)
        simpa [hsc, hsd] using And.intro hs ih

theorem forall₂_filter_title {ss ss' : List (Title × NodeId)}
    (h : List.Forall₂ (SlotPair ρ) ss ss') (t : Title) :
    List.Forall₂ ρ ((ss.filter (·.1 == t)).map (·.2)) ((ss'.filter (·.1 == t)).map (·.2)) := by
  induction h with
  | nil => exact .nil
  | @cons s s' _ _ hs _ ih =>
      simp only [List.filter_cons, hs.1]
      cases s'.1 == t with
      | true => exact .cons hs.2 ih
      | false => exact ih

namespace Mirror

theorem rel_eq (h : Mirror ρ f g) (hab : ρ a b) (hcd : ρ c d) : a = c ↔ b = d :=
  Relator.rel_eq h.unique hab hcd

/-- The pairing read from the other side. -/
theorem symm (h : Mirror ρ f g) : Mirror (flip ρ) g f where
  unique := ⟨fun _ _ _ hab hcb => h.unique.2 hab hcb, fun _ _ _ hab hac => h.unique.1 hab hac⟩
  lt_left b a hab := h.lt_right a b hab
  lt_right b a hab := h.lt_left a b hab
  kind b a hab := (h.kind a b hab).symm
  definite b a hab := h.kind a b hab ▸ h.definite a b hab
  parent b a hab := by
    have hparent := h.parent a b hab
    revert hparent
    generalize f.parent a = p
    generalize g.parent b = q
    rintro (⟨hpq⟩ | _)
    · exact .some hpq
    · exact .none
  parts b a hab := (h.parts a b hab).flip.imp fun _ _ hs => ⟨hs.1.symm, hs.2⟩

theorem empty : Mirror (fun _ _ => False) {} {} where
  unique := ⟨fun _ _ _ h => h.elim, fun _ _ _ h => h.elim⟩
  lt_left _ _ h := h.elim
  lt_right _ _ h := h.elim
  kind _ _ h := h.elim
  definite _ _ h := h.elim
  parent _ _ h := h.elim
  parts _ _ h := h.elim

/-- Nodes of a pair have corresponding first children. -/
theorem child? (h : Mirror ρ f g) (hab : ρ a b) (ht : t.isTrivia = false) :
    Option.Rel ρ (f.child? a t) (g.child? b t) := by
  have hfind := forall₂_find? (h.parts a b hab) t
  rwa [find?_parts ht, find?_parts ht] at hfind

theorem children (h : Mirror ρ f g) (hab : ρ a b) (ht : t.isTrivia = false) :
    List.Forall₂ ρ (f.children a t) (g.children b t) := by
  have hfilter := forall₂_filter_title (h.parts a b hab) t
  rwa [filter_parts ht, filter_parts ht] at hfilter

/-! ## Edits on both sides -/

theorem allocate (h : Mirror ρ f g) {kind : NodeKind} (hkind : kind.Definite)
    (range range' : TextRange) :
    Mirror (ρ.add f.size g.size) (f.allocate kind range).2 (g.allocate kind range').2 where
  unique := by
    constructor
    · rintro x y z (hxy | ⟨rfl, rfl⟩) (hzy | ⟨rfl, hy⟩)
      · exact h.unique.1 hxy hzy
      · exact absurd (h.lt_right _ _ hxy) (by rw [hy]; exact Nat.lt_irrefl _)
      · exact absurd (h.lt_right _ _ hzy) (Nat.lt_irrefl _)
      · rfl
    · rintro x y z (hxy | ⟨rfl, rfl⟩) (hxz | ⟨hx, rfl⟩)
      · exact h.unique.2 hxy hxz
      · exact absurd (h.lt_left _ _ hxy) (by rw [hx]; exact Nat.lt_irrefl _)
      · exact absurd (h.lt_left _ _ hxz) (Nat.lt_irrefl _)
      · rfl
  lt_left x y := by
    rintro (hxy | ⟨rfl, -⟩)
    · exact Nat.lt_of_lt_of_le (h.lt_left x y hxy) (by simp)
    · simp
  lt_right x y := by
    rintro (hxy | ⟨-, rfl⟩)
    · exact Nat.lt_of_lt_of_le (h.lt_right x y hxy) (by simp)
    · simp
  kind x y := by
    rintro (hxy | ⟨rfl, rfl⟩)
    · rw [kind_allocate_of_lt (h.lt_left x y hxy), kind_allocate_of_lt (h.lt_right x y hxy),
        h.kind x y hxy]
    · rw [kind_allocate, kind_allocate]
  definite x y := by
    rintro (hxy | ⟨rfl, rfl⟩)
    · rw [kind_allocate_of_lt (h.lt_left x y hxy)]
      exact h.definite x y hxy
    · rwa [kind_allocate]
  parent x y := by
    rw [parent_allocate, parent_allocate]
    rintro (hxy | ⟨rfl, rfl⟩)
    · exact rel_mono (fun _ _ => Or.inl) (h.parent x y hxy)
    · rw [parent_of_size_le (Nat.le_refl _), parent_of_size_le (Nat.le_refl _)]
      exact .none
  parts x y := by
    rw [Forest.parts, Forest.parts, slots_allocate, slots_allocate]
    rintro (hxy | ⟨rfl, rfl⟩)
    · exact (h.parts x y hxy).imp fun _ _ hs => ⟨hs.1, .inl hs.2⟩
    · rw [slots_of_size_le (Nat.le_refl _), slots_of_size_le (Nat.le_refl _)]
      exact .nil

/-- Two edits that change neither sizes nor kinds keep the pairing if they keep it in parents and
parts. -/
theorem update (h : Mirror ρ f g) (hsize : f'.size = f.size) (hsize' : g'.size = g.size)
    (hkind : ∀ n, f'.kind n = f.kind n) (hkind' : ∀ n, g'.kind n = g.kind n)
    (hparent : ∀ x y, ρ x y → Option.Rel ρ (f'.parent x) (g'.parent y))
    (hparts : ∀ x y, ρ x y → List.Forall₂ (SlotPair ρ) (f'.parts x) (g'.parts y)) :
    Mirror ρ f' g' where
  unique := h.unique
  lt_left x y hxy := hsize ▸ h.lt_left x y hxy
  lt_right x y hxy := hsize' ▸ h.lt_right x y hxy
  kind x y hxy := by rw [hkind, hkind', h.kind x y hxy]
  definite x y hxy := by
    rw [hkind]
    exact h.definite x y hxy
  parent := hparent
  parts := hparts

theorem detach (h : Mirror ρ f g) (hcd : ρ c d) : Mirror ρ (f.detach c) (g.detach d) := by
  refine h.update (size_detach f c) (size_detach g d) (kind_detach f c) (kind_detach g d) ?_ ?_
  · intro x y hxy
    rw [parent_detach, parent_detach]
    simp only [h.rel_eq hxy hcd]
    split
    · exact .none
    · exact h.parent x y hxy
  · intro x y hxy
    have hparent : f.parent c = some x ↔ g.parent d = some y := by
      have hrel := h.parent c d hcd
      revert hrel
      generalize f.parent c = p
      generalize g.parent d = q
      rintro (⟨hpq⟩ | _)
      · simpa using h.rel_eq hpq hxy
      · simp
    rw [parts_detach, parts_detach]
    simp only [hparent]
    split
    · exact forall₂_filter_ne h.unique (h.parts x y hxy) hcd
    · exact h.parts x y hxy

theorem link (h : Mirror ρ f g) (hab : ρ a b) (hcd : ρ c d)
    {change change' : List (Title × NodeId) → List (Title × NodeId)}
    (hchange : List.Forall₂ (SlotPair ρ) ((change (f.slots a)).filter (!·.1.isTrivia))
      ((change' (g.slots b)).filter (!·.1.isTrivia))) :
    Mirror ρ (f.link a c change) (g.link b d change') := by
  refine h.update (size_link f a c change) (size_link g b d change') (kind_link f a c change)
    (kind_link g b d change') ?_ ?_
  · intro x y hxy
    rw [parent_link (h.lt_left c d hcd), parent_link (h.lt_right c d hcd)]
    simp only [h.rel_eq hxy hcd]
    split
    · exact .some hab
    · exact h.parent x y hxy
  · intro x y hxy
    rw [parts_link (h.lt_left a b hab), parts_link (h.lt_right a b hab)]
    by_cases hx : x = a
    · obtain rfl := (h.rel_eq hxy hab).mp hx
      subst hx
      rw [if_pos rfl, if_pos rfl]
      exact hchange
    · rw [if_neg hx, if_neg fun hy => hx ((h.rel_eq hxy hab).mpr hy)]
      exact h.parts x y hxy

/-- The nodes of a pair lose their parents. -/
theorem orphan (h : Mirror ρ f g) (hcd : ρ c d) :
    Mirror ρ (f.modify c ({ · with parent := none })) (g.modify d ({ · with parent := none })) := by
  refine h.update (size_modify f c _) (size_modify g d _) (kind_modify rfl) (kind_modify rfl) ?_ ?_
  · intro x y hxy
    rw [parent_modify_clear, parent_modify_clear]
    simp only [h.rel_eq hxy hcd]
    split
    · exact .none
    · exact h.parent x y hxy
  · intro x y hxy
    rw [Forest.parts, Forest.parts, slots_modify rfl, slots_modify rfl]
    exact h.parts x y hxy

/-- A child is put below a pair under a title that is not for comments. -/
theorem setChild? (h : Mirror ρ f g) (hab : ρ a b) (hcd : ρ c d) (ht : t.isTrivia = false)
    {old old' : Option NodeId} (hf : f.setChild? a t c = some (old, f'))
    (hg : g.setChild? b t d = some (old', g')) : Mirror ρ f' g' := by
  have hlinked : Mirror ρ ((f.detach c).link a c (putFirst t c))
      ((g.detach d).link b d (putFirst t d)) := by
    refine (h.detach hcd).link hab hcd ?_
    rw [filter_putFirst ht, filter_putFirst ht]
    exact forall₂_putFirst ((h.detach hcd).parts a b hab) t hcd
  have hthere := h.child? hab ht
  have hold := (h.detach hcd).child? hab ht
  unfold Forest.setChild? at hf hg
  have hsame : (f.child? a t == some c) = (g.child? b t == some d) := by
    revert hthere
    generalize f.child? a t = o
    generalize g.child? b t = o'
    rintro (⟨hoo⟩ | _)
    · rw [Bool.eq_iff_iff]
      simpa using h.rel_eq hoo hcd
    · rfl
  rw [hsame] at hf
  split at hf
  · cases hf
  split at hg
  · cases hg
  split at hf
  case isTrue hset =>
    rw [if_pos hset] at hg
    cases hf
    cases hg
    exact h
  case isFalse hset =>
    rw [if_neg hset] at hg
    cases hf
    cases hg
    revert hold
    generalize (f.detach c).child? a t = o
    generalize (g.detach d).child? b t = o'
    rintro (⟨hoo⟩ | _)
    · exact hlinked.orphan hoo
    · exact hlinked

theorem appendChild? (h : Mirror ρ f g) (hab : ρ a b) (hcd : ρ c d) (ht : t.isTrivia = false)
    (hf : f.appendChild? a t c = some f') (hg : g.appendChild? b t d = some g') :
    Mirror ρ f' g' := by
  unfold Forest.appendChild? at hf hg
  split at hf
  case isFalse => cases hf
  split at hg
  case isFalse => cases hg
  cases hf
  cases hg
  refine (h.detach hcd).link hab hcd ?_
  rw [List.filter_append, List.filter_append]
  have hslot : [(t, c)].filter (!·.1.isTrivia) = [(t, c)] := by simp [ht]
  have hslot' : [(t, d)].filter (!·.1.isTrivia) = [(t, d)] := by simp [ht]
  rw [hslot, hslot']
  exact List.rel_append ((h.detach hcd).parts a b hab) (.cons ⟨rfl, hcd⟩ .nil)

/-! ## Edits on one side -/

theorem allocate_left (h : Mirror ρ f g) (kind : NodeKind) (range : TextRange) :
    Mirror ρ (f.allocate kind range).2 g where
  unique := h.unique
  lt_left x y hxy := Nat.lt_of_lt_of_le (h.lt_left x y hxy) (by simp)
  lt_right := h.lt_right
  kind x y hxy := by rw [kind_allocate_of_lt (h.lt_left x y hxy), h.kind x y hxy]
  definite x y hxy := by
    rw [kind_allocate_of_lt (h.lt_left x y hxy)]
    exact h.definite x y hxy
  parent x y hxy := by
    rw [parent_allocate]
    exact h.parent x y hxy
  parts x y hxy := by
    rw [Forest.parts, slots_allocate]
    exact h.parts x y hxy

/-- A new node has no partner yet. -/
theorem not_paired (h : Mirror ρ f g) (b : NodeId) : ¬ ρ f.size b := fun hb =>
  Nat.lt_irrefl _ (h.lt_left _ b hb)

/-- A comment, which has no partner, is put below a node of a pair. -/
theorem appendChild_left (h : Mirror ρ f g) (hab : ρ a b) (hc : ∀ b, ¬ ρ c b)
    (ht : t.isTrivia = true) (hf : f.appendChild? a t c = some f') : Mirror ρ f' g := by
  unfold Forest.appendChild? at hf
  split at hf
  case isFalse => cases hf
  case isTrue hattach =>
    cases hf
    have hlt : c < (f.detach c).size := by
      have hcontains : f.contains c = true := by
        simp only [canAttach, Bool.and_eq_true] at hattach
        exact hattach.1.1.2
      simpa [contains] using hcontains
    have hne {x y : NodeId} (hxy : ρ x y) : x ≠ c := fun hx => hc y (hx ▸ hxy)
    have hparts {x y : NodeId} (hxy : ρ x y) : (f.detach c).parts x = f.parts x := by
      have hkeep : (f.parts x).filter (·.2 != c) = f.parts x := by
        refine List.filter_eq_self.mpr fun s hs => ?_
        obtain ⟨y, hy⟩ := exists_of_forall₂ (h.parts x _ hxy) s hs
        simpa using hne hy
      rw [parts_detach, hkeep, ite_self]
    refine h.update (by simp) rfl (fun n => ?_) (fun _ => rfl) ?_ ?_
    · rw [kind_link, kind_detach]
    · intro x y hxy
      rw [parent_link hlt, if_neg (hne hxy), parent_detach, if_neg (hne hxy)]
      exact h.parent x y hxy
    · intro x y hxy
      have hslot : [(t, c)].filter (!·.1.isTrivia) = [] := by simp [ht]
      rw [parts_link (by simpa using h.lt_left a b hab), List.filter_append, hslot, List.append_nil]
      have hsame : ((f.detach c).slots x).filter (!·.1.isTrivia) = f.parts x := hparts hxy
      rw [hsame, hparts hxy, ite_self]
      exact h.parts x y hxy

/-! ## Agreement -/

theorem agreeUpTo (h : Mirror ρ f g) (fuel : Nat) :
    ∀ a b, ρ a b → Forest.agreeUpTo f g fuel a b = true := by
  have hkind (a b : NodeId) (hab : ρ a b) : (f.kind a).agrees (g.kind b) = true := by
    rw [← h.kind a b hab]
    exact h.definite a b hab
  induction fuel with
  | zero => exact hkind
  | succ fuel ih =>
      intro a b hab
      rw [Forest.agreeUpTo, hkind a b hab, Bool.true_and, List.all_eq_true]
      intro t ht
      have hlexical : t.isLexical = false := by
        have hmem := (List.mem_filter.mp (List.mem_eraseDups.mp ht)).2
        simpa using hmem
      have hchildren := h.children hab (Title.isTrivia_of_not_isLexical hlexical)
      rw [Bool.and_eq_true, beq_iff_eq, List.all_eq_true]
      exact ⟨hchildren.length_eq, fun p hp => ih p.1 p.2 (List.forall₂_zip hchildren hp)⟩

theorem agree (h : Mirror ρ f g) (hab : ρ a b) : f.agree a g b = true :=
  h.agreeUpTo _ a b hab

end Mirror

end Forest

end DualSyntax
