import DualSyntax.Proofs.Forest.Mirror
import DualSyntax.Proofs.Lexing.Definite
import DualSyntax.Proofs.Lowering.Effects

/-!
# Two runs side by side

A step of lowering runs over two sources that differ in comments and blank lines only.  If both runs
succeed and start from drafts that mirror each other, they end in drafts that do so under a larger
pairing, and their results are related (`Mirrors`).  A step that only attaches comments leaves the
pairing as it is, whatever it does in the other run (`Aside`).
-/

namespace DualSyntax

open Forest

/-- Two tokens of the same kind, text and value; the value is equal to itself. -/
structure Token.Alike (t t' : Token) : Prop where
  sign : t.sign = t'.sign
  definite : ∀ v ∈ t.value, v.Definite

namespace Token.Alike

variable {t t' : Token}

theorem kind (h : t.Alike t') : t.kind = t'.kind := congrArg Sign.kind h.sign

theorem text (h : t.Alike t') : t.text = t'.text :=
  String.toList_inj.mp (congrArg Sign.text h.sign)

theorem value (h : t.Alike t') : t.value = t'.value := congrArg Sign.value h.sign

end Token.Alike

/-- Drafts whose forests mirror each other and that raised the same issues. -/
structure Draft.Mirror (ρ : Pairing) (d d' : Draft) : Prop where
  forest : Forest.Mirror ρ d.forest d'.forest
  issues : d.diagnostics.toList.map (·.issue) = d'.diagnostics.toList.map (·.issue)

theorem Draft.Mirror.symm {ρ : Pairing} {d d' : Draft} (h : Draft.Mirror ρ d d') :
    Draft.Mirror (flip ρ) d' d :=
  ⟨h.forest.symm, h.issues.symm⟩

namespace Lower

variable {α β γ γ' : Type} {source source' : Source} {ρ : Pairing} {t : Title}

theorem exists_of_bind {x : Lower α} {f : α → Lower β} {d e : Draft} {b : β}
    (h : (x >>= f) source d = .ok (b, e)) :
    ∃ a d₁, x source d = .ok (a, d₁) ∧ f a source d₁ = .ok (b, e) := by
  change (x source d >>= fun r => f r.1 source r.2) = .ok (b, e) at h
  cases hx : x source d with
  | error e =>
      rw [hx] at h
      cases h
  | ok r =>
      rw [hx] at h
      exact ⟨r.1, r.2, rfl, h⟩

/-- Two runs over sources of one language from drafts that mirror each other: if both succeed, their
drafts mirror each other under a larger pairing and their results are related. -/
def Mirrors (source source' : Source) (R : Pairing → α → β → Prop) (ρ : Pairing) (x : Lower α)
    (y : Lower β) : Prop :=
  source.language = source'.language → ∀ ⦃d d' e e' : Draft⦄ ⦃a : α⦄ ⦃b : β⦄, d.Mirror ρ d' →
    x source d = .ok (a, e) → y source' d' = .ok (b, e') → ∃ ρ', ρ ≤ ρ' ∧ e.Mirror ρ' e' ∧ R ρ' a b

/-- Two runs whose results are nodes of a pair. -/
abbrev MirrorsNode (source source' : Source) (ρ : Pairing) (x y : Lower NodeId) : Prop :=
  Mirrors source source' (fun ρ => ρ) ρ x y

/-- Two runs whose results do not matter. -/
abbrev MirrorsStep (source source' : Source) (ρ : Pairing) (x : Lower α) (y : Lower β) : Prop :=
  Mirrors source source' (fun _ _ _ => True) ρ x y

namespace Mirrors

variable {R R' : Pairing → α → β → Prop} {S : Pairing → γ → γ' → Prop} {x : Lower α} {y : Lower β}
  {f : α → Lower γ} {g : β → Lower γ'}

theorem pure {a : α} {b : β} (h : R ρ a b) : Mirrors source source' R ρ (pure a) (pure b) := by
  rintro - d d' e e' a b hd ⟨⟩ ⟨⟩
  exact ⟨ρ, le_refl ρ, hd, h⟩

theorem bind (hx : Mirrors source source' R ρ x y)
    (hf : ∀ ρ', ρ ≤ ρ' → ∀ a b, R ρ' a b → Mirrors source source' S ρ' (f a) (g b)) :
    Mirrors source source' S ρ (x >>= f) (y >>= g) := by
  intro hl d d' e e' a b hd hleft hright
  obtain ⟨a₁, d₁, ha, hfa⟩ := exists_of_bind hleft
  obtain ⟨b₁, d₂, hb, hgb⟩ := exists_of_bind hright
  obtain ⟨ρ₁, hρ₁, hd₁, hab⟩ := hx hl hd ha hb
  obtain ⟨ρ₂, hρ₂, he, hr⟩ := hf ρ₁ hρ₁ a₁ b₁ hab hl hd₁ hfa hgb
  exact ⟨ρ₂, le_trans hρ₁ hρ₂, he, hr⟩

theorem imp (hx : Mirrors source source' R ρ x y) (h : ∀ ρ', ρ ≤ ρ' → ∀ a b, R ρ' a b → R' ρ' a b) :
    Mirrors source source' R' ρ x y := by
  intro hl d d' e e' a b hd ha hb
  obtain ⟨ρ', hρ, he, hr⟩ := hx hl hd ha hb
  exact ⟨ρ', hρ, he, h ρ' hρ a b hr⟩

theorem throw_left (error : LowerError) (y : Lower β) :
    Mirrors source source' R ρ (throw error) y := by
  rintro - d d' e e' a b - ⟨⟩

theorem read {k : Source → Lower γ} {k' : Source → Lower γ'}
    (h : source.language = source'.language → Mirrors source source' S ρ (k source) (k' source')) :
    Mirrors source source' S ρ (do k (← read)) (do k' (← read)) :=
  fun hl => h hl hl

end Mirrors

/-! ## Steps in both runs -/

theorem mirrors_allocate {kind : NodeKind} (hkind : kind.Definite) (span span' : Span) :
    MirrorsNode source source' ρ (allocate kind span) (allocate kind span') := by
  rintro - d d' e e' a b hd ⟨⟩ ⟨⟩
  refine ⟨ρ.add d.forest.size d'.forest.size, fun _ _ => Or.inl, ⟨?_, hd.issues⟩, .inr ⟨rfl, rfl⟩⟩
  exact hd.forest.allocate hkind _ _

theorem mirrors_inspect {look : Forest → α} {look' : Forest → β} {R : Pairing → α → β → Prop}
    (h : ∀ f g, Forest.Mirror ρ f g → R ρ (look f) (look' g)) :
    Mirrors source source' R ρ (inspect look) (inspect look') := by
  rintro - d d' e e' a b hd ⟨⟩ ⟨⟩
  exact ⟨ρ, le_refl ρ, hd, h _ _ hd.forest⟩

theorem mirrors_report (span span' : Span) (issue : Issue) :
    MirrorsStep source source' ρ (report span issue) (report span' issue) := by
  rintro - d d' e e' a b hd ⟨⟩ ⟨⟩
  refine ⟨ρ, le_refl ρ, ⟨hd.forest, ?_⟩, trivial⟩
  simp [hd.issues]

theorem mirrors_detach {n n' : NodeId} (hn : ρ n n') :
    MirrorsStep source source' ρ (detach n) (detach n') := by
  rintro - d d' e e' a b hd ⟨⟩ ⟨⟩
  exact ⟨ρ, le_refl ρ, ⟨hd.forest.detach hn, hd.issues⟩, trivial⟩

theorem exists_of_edit {change : Forest → Option Forest} {d e : Draft}
    (h : edit change source d = .ok ((), e)) :
    ∃ f, change d.forest = some f ∧ e = ⟨f, d.diagnostics⟩ := by
  cases hf : change d.forest with
  | none => simp [edit, hf] at h
  | some f =>
      simp only [edit, hf, Except.ok.injEq, Prod.mk.injEq, true_and] at h
      exact ⟨f, rfl, h.symm⟩

theorem mirrors_set {owner owner' n n' : NodeId} (ho : ρ owner owner') (ht : t.isTrivia = false)
    (hn : ρ n n') : MirrorsStep source source' ρ (set owner t n) (set owner' t n') := by
  intro _ d d' e e' a b hd ha hb
  obtain ⟨f, hf, rfl⟩ := exists_of_edit ha
  obtain ⟨g, hg, rfl⟩ := exists_of_edit hb
  obtain ⟨⟨old, f⟩, hf', rfl⟩ := Option.map_eq_some_iff.mp hf
  obtain ⟨⟨old', g⟩, hg', rfl⟩ := Option.map_eq_some_iff.mp hg
  exact ⟨ρ, le_refl ρ, ⟨hd.forest.setChild? ho hn ht hf' hg', hd.issues⟩, trivial⟩

theorem mirrors_push {owner owner' n n' : NodeId} (ho : ρ owner owner') (ht : t.isTrivia = false)
    (hn : ρ n n') : MirrorsStep source source' ρ (push owner t n) (push owner' t n') := by
  intro _ d d' e e' a b hd ha hb
  obtain ⟨f, hf, rfl⟩ := exists_of_edit ha
  obtain ⟨g, hg, rfl⟩ := exists_of_edit hb
  exact ⟨ρ, le_refl ρ, ⟨hd.forest.appendChild? ho hn ht hf hg, hd.issues⟩, trivial⟩

theorem mirrors_token {tk tk' : Token} (h : tk.Alike tk') :
    MirrorsNode source source' ρ (token tk) (token tk') := by
  rw [token, token, h.kind, h.text]
  exact mirrors_allocate (.of_not_isLiteral (by rfl)) _ _

theorem mirrors_setToken {owner owner' : NodeId} {tk tk' : Token} (ho : ρ owner owner')
    (ht : t.isTrivia = false) (h : tk.Alike tk') :
    MirrorsStep source source' ρ (setToken owner t tk) (setToken owner' t tk') :=
  (mirrors_token h).bind fun _ hρ _ _ hn => mirrors_set (hρ _ _ ho) ht hn

theorem mirrors_identifier {tk tk' : Token} (h : tk.Alike tk') :
    MirrorsNode source source' ρ (identifier tk) (identifier tk') := by
  refine .read fun hl => ?_
  rw [hl, h.text]
  exact mirrors_allocate (.of_not_isLiteral (by rfl)) _ _

theorem mirrors_literal {tk tk' : Token} (h : tk.Alike tk') :
    MirrorsNode source source' ρ (literal tk) (literal tk') := by
  have hvalue : literalValue? tk = literalValue? tk' := by
    unfold literalValue?
    rw [h.kind, h.value]
  have hdefinite : ∀ v, literalValue? tk = some v → v.Definite := by
    intro v hv
    unfold literalValue? at hv
    split at hv
    · cases hv
      exact .null
    · cases hv
      exact .null
    · exact h.definite v hv
  unfold literal
  rw [← hvalue]
  split
  case h_1 v hv =>
    refine .read fun hl => ?_
    rw [hl, h.text]
    have hkind (spelling : Option (Language × String)) :
        (NodeKind.primitiveExpression ⟨v, spelling⟩).Definite := hdefinite v hv
    exact mirrors_allocate (hkind _) _ _
  case h_2 => exact .throw_left _ _

theorem mirrors_modifier {tk tk' : Token} (h : tk.Alike tk') :
    MirrorsNode source source' ρ (modifier tk) (modifier tk') := by
  refine .read fun hl => ?_
  rw [hl, h.text]
  split
  · exact mirrors_allocate (.of_not_isLiteral (by rfl)) _ _
  · exact .throw_left _ _

/-! ## Loops -/

section Loops

variable {P : γ → γ' → Prop} {xs : List γ} {ys : List γ'}

theorem mirrors_mapM {make : γ → Lower NodeId} {make' : γ' → Lower NodeId}
    (h : List.Forall₂ P xs ys)
    (hmake : ∀ ρ', ρ ≤ ρ' → ∀ x y, P x y → MirrorsNode source source' ρ' (make x) (make' y)) :
    Mirrors source source' List.Forall₂ ρ (xs.mapM make) (ys.mapM make') := by
  induction h generalizing ρ with
  | nil => exact .pure .nil
  | cons hxy _ ih =>
      rw [List.mapM_cons, List.mapM_cons]
      refine (hmake ρ (le_refl ρ) _ _ hxy).bind fun ρ₁ hρ₁ n n' hn => ?_
      refine (ih fun ρ' hρ' => hmake ρ' (le_trans hρ₁ hρ')).bind fun ρ₂ hρ₂ ns ns' hns => ?_
      exact .pure (.cons (hρ₂ _ _ hn) hns)

theorem mirrors_forM {step : γ → Lower Unit} {step' : γ' → Lower Unit} (h : List.Forall₂ P xs ys)
    (hstep : ∀ ρ', ρ ≤ ρ' → ∀ x y, P x y → MirrorsStep source source' ρ' (step x) (step' y)) :
    MirrorsStep source source' ρ (xs.forM step) (ys.forM step') := by
  induction h generalizing ρ with
  | nil => exact .pure trivial
  | @cons x y xs ys hxy _ ih =>
      change MirrorsStep source source' ρ (step x >>= fun _ => xs.forM step)
        (step' y >>= fun _ => ys.forM step')
      refine (hstep ρ (le_refl ρ) _ _ hxy).bind fun ρ₁ hρ₁ _ _ _ => ?_
      exact ih fun ρ' hρ' => hstep ρ' (le_trans hρ₁ hρ')

theorem mirrors_forIn {step : γ → Lower Unit} {step' : γ' → Lower Unit} (h : List.Forall₂ P xs ys)
    (hstep : ∀ ρ', ρ ≤ ρ' → ∀ x y, P x y → MirrorsStep source source' ρ' (step x) (step' y)) :
    MirrorsStep source source' ρ
      (forIn xs PUnit.unit fun x _ => do step x; Pure.pure (ForInStep.yield PUnit.unit))
      (forIn ys PUnit.unit fun y _ => do step' y; Pure.pure (ForInStep.yield PUnit.unit)) := by
  rw [forIn_eq_forM, forIn_eq_forM]
  exact mirrors_forM h hstep

theorem mirrors_foldlM {R : α → β → Prop} {step : α → γ → Lower α} {step' : β → γ' → Lower β}
    {a : α} {b : β} (h : List.Forall₂ P xs ys) (hab : R a b)
    (hstep : ∀ ρ', ρ ≤ ρ' → ∀ a b, R a b → ∀ x y, P x y →
      Mirrors source source' (fun _ => R) ρ' (step a x) (step' b y)) :
    Mirrors source source' (fun _ => R) ρ (xs.foldlM step a) (ys.foldlM step' b) := by
  induction h generalizing ρ a b with
  | nil => exact .pure hab
  | cons hxy _ ih =>
      rw [List.foldlM_cons, List.foldlM_cons]
      refine (hstep ρ (le_refl ρ) a b hab _ _ hxy).bind fun ρ₁ hρ₁ a' b' hab' => ?_
      exact ih hab' fun ρ' hρ' => hstep ρ' (le_trans hρ₁ hρ')

end Loops

/-! ## Steps in one run -/

/-- A step that leaves the pairing with the other run as it is, and whose result is as `P` says. -/
def Aside (source : Source) (ρ : Pairing) (P : α → Prop) (x : Lower α) : Prop :=
  ∀ ⦃d e d' : Draft⦄ ⦃a : α⦄, d.Mirror ρ d' → x source d = .ok (a, e) → e.Mirror ρ d' ∧ P a

/-- A node without a partner. -/
def Alone (ρ : Pairing) (n : NodeId) : Prop := ∀ b, ¬ ρ n b

namespace Aside

variable {P : α → Prop} {Q : β → Prop} {x : Lower α} {f : α → Lower β}

theorem pure {a : α} (h : P a) : Aside source ρ P (pure a) := by
  rintro d e d' a hd ⟨⟩
  exact ⟨hd, h⟩

theorem bind (hx : Aside source ρ P x) (hf : ∀ a, P a → Aside source ρ Q (f a)) :
    Aside source ρ Q (x >>= f) := by
  intro d e d' b hd h
  obtain ⟨a, d₁, ha, hb⟩ := exists_of_bind h
  obtain ⟨hd₁, hPa⟩ := hx hd ha
  exact hf a hPa hd₁ hb

theorem read {k : Source → Lower β} (h : Aside source ρ Q (k source)) :
    Aside source ρ Q (do k (← read)) := h

theorem allocate (kind : NodeKind) (span : Span) :
    Aside source ρ (Alone ρ) (allocate kind span) := by
  rintro d e d' a hd ⟨⟩
  exact ⟨⟨hd.forest.allocate_left _ _, hd.issues⟩, hd.forest.not_paired⟩

theorem push {owner owner' n : NodeId} (ho : ρ owner owner') (ht : t.isTrivia = true)
    (hn : Alone ρ n) : Aside source ρ (fun _ => True) (push owner t n) := by
  intro d e d' a hd h
  obtain ⟨f, hf, rfl⟩ := exists_of_edit h
  exact ⟨⟨hd.forest.appendChild_left ho hn ht hf, hd.issues⟩, trivial⟩

theorem pushAll {owner owner' : NodeId} (ho : ρ owner owner') (ht : t.isTrivia = true)
    {ns : List NodeId} (hns : ∀ n ∈ ns, Alone ρ n) :
    Aside source ρ (fun _ => True)
      (forIn ns PUnit.unit fun n _ => do
        Lower.push owner t n
        Pure.pure (ForInStep.yield PUnit.unit)) := by
  rw [forIn_eq_forM]
  induction ns with
  | nil => exact .pure trivial
  | cons n ns ih =>
      rw [List.forall_mem_cons] at hns
      change Aside source ρ _ (Lower.push owner t n >>= fun _ => ns.forM (Lower.push owner t))
      exact (push ho ht hns.1).bind fun _ _ => ih hns.2

/-- A step in each run, neither of which touches the pairing. -/
theorem both {Q : β → Prop} {y : Lower β} (hx : Aside source ρ P x)
    (hy : Aside source' (flip ρ) Q y) : MirrorsStep source source' ρ x y := by
  intro _ d d' e e' a b hd ha hb
  have he := (hx hd ha).1
  exact ⟨ρ, le_refl ρ, (hy he.symm hb).1.symm, trivial⟩

end Aside

theorem aside_commentNodes (ts : List Trivia) (breaks threshold : Nat) :
    Aside source ρ (fun r => ∀ n ∈ r.1, Alone ρ n) (commentNodes breaks threshold ts) := by
  induction ts generalizing breaks threshold with
  | nil => exact .pure (by simp)
  | cons t ts ih =>
      rw [commentNodes]
      split
      case h_1 kind _ =>
        have hnext (blank : List NodeId) (hb : ∀ n ∈ blank, Alone ρ n) :
            Aside source ρ (fun r => ∀ n ∈ r.1, Alone ρ n) (do
              let comment ← allocate (commentNode kind t.text) t.span
              let found ← commentNodes 0 2 ts
              return (blank ++ comment :: found.1, found.2)) := by
          refine (Aside.allocate _ _).bind fun comment hc => ?_
          refine (ih 0 2).bind fun r hr => .pure ?_
          simpa [or_imp, forall_and, hc] using ⟨hb, hr⟩
        dsimp only
        split
        · refine (Aside.allocate _ _).bind fun n hn => ?_
          exact hnext [n] (by simpa using hn)
        · exact hnext [] (by simp)
      case h_2 => exact ih _ _

theorem aside_attachTrailing {owner owner' : NodeId} (ho : ρ owner owner') (trivia : List Trivia) :
    Aside source ρ (fun _ => True) (attachTrailing owner trivia) := by
  refine .read ((aside_commentNodes trivia 0 _).bind fun r hr => ?_)
  exact (Aside.pushAll ho rfl hr).bind fun _ _ => .pure trivial

theorem aside_attachLeading {δ : Type} {owner owner' : NodeId} (ho : ρ owner owner')
    (raw : RawTree δ) : Aside source ρ (fun _ => True) (attachLeading owner raw) := by
  refine .read ((aside_commentNodes _ 0 _).bind fun r hr => ?_)
  have hpush (blank : List NodeId) (hb : ∀ n ∈ blank, Alone ρ n) :
      Aside source ρ (fun _ => True) (do for n in r.1 ++ blank do push owner .leadingTrivia n) := by
    have hall : ∀ n ∈ r.1 ++ blank, Alone ρ n := fun n hn =>
      (List.mem_append.mp hn).elim (hr n) (hb n)
    exact (Aside.pushAll ho rfl hall).bind fun _ _ => .pure trivial
  dsimp only
  split
  · exact (Aside.allocate _ _).bind fun n hn => hpush [n] (by simpa using hn)
  · exact hpush [] (by simp)

theorem mirrors_attachTrailing {owner owner' : NodeId} (ho : ρ owner owner')
    (trivia trivia' : List Trivia) :
    MirrorsStep source source' ρ (attachTrailing owner trivia) (attachTrailing owner' trivia') :=
  (aside_attachTrailing ho trivia).both (aside_attachTrailing (ρ := flip ρ) ho trivia')

theorem mirrors_attachLeading {δ : Type} {owner owner' : NodeId} (ho : ρ owner owner')
    (raw raw' : RawTree δ) :
    MirrorsStep source source' ρ (attachLeading owner raw) (attachLeading owner' raw') :=
  (aside_attachLeading ho raw).both (aside_attachLeading (ρ := flip ρ) ho raw')

end Lower

end DualSyntax
