import DualSyntax.Proofs.Semantics.Arithmetic
import DualSyntax.Proofs.Semantics.Termination

/-!
# Trees of integers

An expression made of integer literals and operators on integers is folded to one constant.  A tree of
integers says what such an expression computes, by exact arithmetic; whatever forest the expression
stands in, its meaning is the value of the tree, or an error if the tree has none.
-/

namespace DualSyntax

/-- An expression of integers: literals of 64 bits, parentheses and operators. -/
inductive IntegerTree where
  | literal (n : UInt64)
  | parenthesized (e : IntegerTree)
  | unary (op : UnaryOperator) (hop : op ∈ [.plus, .minus, .not, .bitNot]) (e : IntegerTree)
  | binary (op : BinaryOperator) (hop : Exact.isArithmetic op = true) (a b : IntegerTree)

namespace IntegerTree

/-- The value of an expression by exact arithmetic. -/
def value? : IntegerTree → Option Int
  | literal n => some n.toNat
  | parenthesized e => e.value?
  | unary op _ e => e.value?.bind (Exact.unary? op)
  | binary op _ a b => a.value?.bind fun x => b.value?.bind (Exact.binary? op x)

def SpelledAt (f : Forest) : NodeId → IntegerTree → Prop
  | n, literal v => ∃ suffix spelling,
      f.kind n = .primitiveExpression ⟨.integer v.toNat suffix, spelling⟩
  | n, parenthesized e => f.kind n = .parenthesizedExpression ∧
      ∃ c, f.child? n .expression = some c ∧ SpelledAt f c e
  | n, unary op _ e => f.kind n = .unaryOperatorExpression op ∧
      ∃ c, f.child? n .expression = some c ∧ SpelledAt f c e
  | n, binary op _ a b => f.kind n = .binaryOperatorExpression op ∧
      (∃ l, f.child? n .left = some l ∧ SpelledAt f l a) ∧
      ∃ r, f.child? n .right = some r ∧ SpelledAt f r b

theorem inRange_of_mem_value? {e : IntegerTree} {v : Int} (h : v ∈ e.value?) : Exact.InRange v := by
  induction e generalizing v with
  | literal n =>
      obtain rfl : (n.toNat : Int) = v := Option.some.inj h
      have := n.toNat_lt
      unfold Exact.InRange
      omega
  | parenthesized e ih => exact ih h
  | unary op hop e ih =>
      obtain ⟨x, hx, hv⟩ := Option.bind_eq_some_iff.mp h
      exact Folding.inRange_of_mem_unary? (ih hx) hv
  | binary op hop a b iha ihb =>
      obtain ⟨x, hx, hrest⟩ := Option.bind_eq_some_iff.mp h
      obtain ⟨y, hy, hv⟩ := Option.bind_eq_some_iff.mp hrest
      obtain ⟨hexact, hrange⟩ := Folding.integers?_exact op (iha hx) (ihb hy)
      exact hrange v (hexact ▸ hv)

end IntegerTree

inductive IntegerQuery where
  | tree (e : IntegerTree)
  | comparison (op : BinaryOperator) (hop : Exact.isComparison op = true) (a b : IntegerTree)

namespace IntegerQuery

/-- The value by exact arithmetic. -/
def value? : IntegerQuery → Option ConstantValue
  | tree e => e.value?.map .integer
  | comparison op _ a b =>
    a.value?.bind fun x => b.value?.map fun y => .boolean (Exact.compare op x y)

def SpelledAt (f : Forest) (n : NodeId) : IntegerQuery → Prop
  | tree e => e.SpelledAt f n
  | comparison op _ a b => f.kind n = .binaryOperatorExpression op ∧
      (∃ l, f.child? n .left = some l ∧ a.SpelledAt f l) ∧
      ∃ r, f.child? n .right = some r ∧ b.SpelledAt f r

end IntegerQuery

def Meaning.Gives (value? : Option ConstantValue) (m : Meaning) : Prop :=
  match value? with
  | some value => ∃ type, m = .constant value type
  | none => ∃ message, m = .failed message

namespace Semantics

open Forest (below card_below_le)

variable {w : World} {active : List (Aspect × NodeId)} {answers : Answers} {n : NodeId}
  {scopes : List Scope}

/-! ## Folding one node -/

theorem settles_child {t : Title} {c : NodeId} {P : Meaning → Prop} (hc : w.forest.child? n t = some c)
    (h : Settles w active (answers.expression c scopes) P) :
    Settles w active (resolveChild answers n t scopes) P := by
  refine .forest ?_
  rw [hc]
  exact h

/-- The answers tell the value of a constant, and that an error has none. -/
def TellsValues (w : World) (active : List (Aspect × NodeId)) (answers : Answers) : Prop :=
  ∀ value? m, m.Gives value? → Settles w active (answers.constant m) (· = value?)

theorem tellsValues_answersUpTo (fuel : Nat) : TellsValues w active (answersUpTo (fuel + 1)) := by
  intro value? m hm
  cases value? with
  | none =>
      obtain ⟨message, rfl⟩ := hm
      exact .pure rfl
  | some value =>
      obtain ⟨type, rfl⟩ := hm
      exact .pure rfl

theorem settles_resolveUnary (hvalues : TellsValues w active answers) {op : UnaryOperator}
    {a : Option ConstantValue}
    (h : Settles w active (resolveChild answers n .expression scopes) (Meaning.Gives a)) :
    Settles w active (resolveUnary answers n op scopes) (Meaning.Gives (a.bind (Folding.unary? op))) := by
  refine .bind h fun m hm => .bind (hvalues a m hm) fun value hvalue => ?_
  subst hvalue
  cases value with
  | none => exact .pure ⟨_, rfl⟩
  | some value =>
      rw [Option.bind_some]
      dsimp only
      cases Folding.unary? op value with
      | none => exact .pure ⟨_, rfl⟩
      | some result => exact .pure ⟨_, rfl⟩

theorem settles_resolveBinary (hvalues : TellsValues w active answers) {op : BinaryOperator}
    {a b : Option ConstantValue}
    (hleft : Settles w active (resolveChild answers n .left scopes) (Meaning.Gives a))
    (hright : Settles w active (resolveChild answers n .right scopes) (Meaning.Gives b)) :
    Settles w active (resolveBinary answers n op scopes)
      (Meaning.Gives (a.bind fun x => b.bind (Folding.binary? op x))) := by
  refine .bind hleft fun left hl => .bind hright fun right hr => ?_
  refine .bind (hvalues a left hl) fun x hx => .bind (hvalues b right hr) fun y hy => ?_
  subst hx hy
  cases x with
  | none => exact .pure ⟨_, rfl⟩
  | some x =>
      cases y with
      | none => exact .pure ⟨_, rfl⟩
      | some y =>
          rw [Option.bind_some, Option.bind_some]
          dsimp only
          cases Folding.binary? op x y with
          | none => exact .pure ⟨_, rfl⟩
          | some result => exact .pure ⟨_, rfl⟩

/-! ## Folding a tree -/

theorem bind_integers {a b : Option Int} {op : BinaryOperator} {exact : Int → Int → Option ConstantValue}
    (h : ∀ x ∈ a, ∀ y ∈ b, Folding.binary? op (.integer x) (.integer y) = exact x y) :
    ((a.map ConstantValue.integer).bind fun x =>
      (b.map ConstantValue.integer).bind (Folding.binary? op x)) =
        a.bind fun x => b.bind (exact x) := by
  cases a with
  | none => rfl
  | some x =>
      cases b with
      | none => rfl
      | some y => exact h x rfl y rfl

theorem exists_fuel_of_child (hf : w.forest.WellLinked) {t : Title} {c : NodeId} {fuel : Nat}
    (hc : w.forest.child? n t = some c) (hfuel : (below w.forest n).card ≤ fuel) :
    ∃ k, fuel = k + 1 := by
  have hless := hf.card_below_lt (Forest.mem_childIds_of_child? hc)
  exact ⟨fuel - 1, by omega⟩

/-- Below a child are fewer nodes than below its parent. -/
theorem card_below_child_le (hf : w.forest.WellLinked) {t : Title} {c : NodeId} {fuel : Nat}
    (hc : w.forest.child? n t = some c) (hfuel : (below w.forest n).card ≤ fuel + 1) :
    (below w.forest c).card ≤ fuel :=
  Nat.le_of_lt_succ (Nat.lt_of_lt_of_le (hf.card_below_lt (Forest.mem_childIds_of_child? hc)) hfuel)

theorem settles_integerTree (hf : w.forest.WellLinked) {e : IntegerTree} {fuel : Nat}
    (he : e.SpelledAt w.forest n) (hfuel : (below w.forest n).card ≤ fuel) :
    Settles w active ((answersUpTo (fuel + 1)).expression n scopes)
      (Meaning.Gives (e.value?.map .integer)) := by
  induction e generalizing n fuel with
  | literal v =>
      obtain ⟨suffix, spelling, hkind⟩ := he
      refine .forest ?_
      rw [hkind]
      exact .pure ⟨_, rfl⟩
  | parenthesized e ih =>
      obtain ⟨hkind, c, hc, he⟩ := he
      obtain ⟨fuel, rfl⟩ := exists_fuel_of_child hf hc hfuel
      refine .forest ?_
      rw [hkind]
      exact settles_child hc (ih he (card_below_child_le hf hc hfuel))
  | unary op hop e ih =>
      obtain ⟨hkind, c, hc, he⟩ := he
      obtain ⟨fuel, rfl⟩ := exists_fuel_of_child hf hc hfuel
      have hexact : (e.value?.map ConstantValue.integer).bind (Folding.unary? op) =
          (e.value?.bind (Exact.unary? op)).map .integer := by
        rw [Option.bind_map, Option.map_bind]
        exact congrArg _ (funext fun x => Folding.unary?_eq_exact op x)
      refine .forest ?_
      rw [hkind, IntegerTree.value?, ← hexact]
      exact settles_resolveUnary (tellsValues_answersUpTo fuel)
        (settles_child hc (ih he (card_below_child_le hf hc hfuel)))
  | binary op hop a b iha ihb =>
      obtain ⟨hkind, ⟨l, hl, ha⟩, r, hr, hb⟩ := he
      obtain ⟨fuel, rfl⟩ := exists_fuel_of_child hf hl hfuel
      have hexact := bind_integers (a := a.value?) (b := b.value?) fun x hx y hy =>
        Folding.binary?_eq_exact hop (IntegerTree.inRange_of_mem_value? hx)
          (IntegerTree.inRange_of_mem_value? hy)
      refine .forest ?_
      rw [hkind, IntegerTree.value?, Option.map_bind]
      simp only [Function.comp_def, Option.map_bind]
      rw [← hexact]
      exact settles_resolveBinary (tellsValues_answersUpTo fuel)
        (settles_child hl (iha ha (card_below_child_le hf hl hfuel)))
        (settles_child hr (ihb hb (card_below_child_le hf hr hfuel)))

theorem settles_integerQuery (hf : w.forest.WellLinked) {q : IntegerQuery} {fuel : Nat}
    (hq : q.SpelledAt w.forest n) (hfuel : (below w.forest n).card ≤ fuel) :
    Settles w active ((answersUpTo (fuel + 1)).expression n scopes) (Meaning.Gives q.value?) := by
  cases q with
  | tree e => exact settles_integerTree hf hq hfuel
  | comparison op hop a b =>
      obtain ⟨hkind, ⟨l, hl, ha⟩, r, hr, hb⟩ := hq
      obtain ⟨fuel, rfl⟩ := exists_fuel_of_child hf hl hfuel
      have hexact := bind_integers (a := a.value?) (b := b.value?) fun x _ y _ =>
        Folding.binary?_eq_compare hop x y
      refine .forest ?_
      rw [hkind, IntegerQuery.value?]
      simp only [Option.map_eq_bind]
      exact hexact ▸ settles_resolveBinary (tellsValues_answersUpTo fuel)
        (settles_child hl (settles_integerTree hf ha (card_below_child_le hf hl hfuel)))
        (settles_child hr (settles_integerTree hf hb (card_below_child_le hf hr hfuel)))

/-- The meaning of an expression of integers, or of a comparison of two, is the constant that exact
arithmetic gives, and an error if it gives none: there always is an answer, whatever is remembered. -/
theorem integer_folding_exact {f : Forest} (hf : f.WellLinked) {n : NodeId} {q : IntegerQuery}
    (hq : q.SpelledAt f n) (caseSensitive : Bool) (memory : Memory) :
    ∃ m memory', meaningOf n ⟨f, caseSensitive⟩ memory = some (m, memory') ∧
      (∀ value, (∃ type, m = .constant value type) ↔ q.value? = some value) ∧
      ((∃ message, m = .failed message) ↔ q.value? = none) := by
  have hsettles (fuel : Nat) (scopes : List Scope) (hfuel : (below f n).card ≤ fuel) :
      Settles ⟨f, caseSensitive⟩ memory.active ((answersUpTo (fuel + 1)).expression n scopes)
        (Meaning.Gives q.value?) := settles_integerQuery hf hq hfuel
  obtain ⟨m, memory', hrun, hm⟩ := exists_meaningOf hsettles
  refine ⟨m, memory', hrun, ?_⟩
  cases hvalue : q.value? with
  | none =>
      rw [hvalue] at hm
      obtain ⟨message, rfl⟩ := hm
      exact ⟨by simp [Meaning.failed], by simp⟩
  | some value =>
      rw [hvalue] at hm
      obtain ⟨type, rfl⟩ := hm
      exact ⟨by simp, by simp [Meaning.failed]⟩

/-- The shift of a negated quotient, compared with a number. -/
def shiftedQuotient : Forest :=
  Forest.performAll {} [.allocate (.binaryOperatorExpression .lessThan) {},
    .allocate (.binaryOperatorExpression .shiftRight) {},
    .allocate (.unaryOperatorExpression .minus) {}, .allocate .parenthesizedExpression {},
    .allocate (.binaryOperatorExpression .divide) {},
    .allocate (.primitiveExpression ⟨.integer 7 .none, none⟩) {},
    .allocate (.primitiveExpression ⟨.integer 2 .long, none⟩) {},
    .allocate (.primitiveExpression ⟨.integer 1 .none, none⟩) {},
    .allocate (.primitiveExpression ⟨.integer 0 .none, none⟩) {},
    .append 4 .left 5, .append 4 .right 6, .append 3 .expression 4, .append 2 .expression 3,
    .append 1 .left 2, .append 1 .right 7, .append 0 .left 1, .append 0 .right 8]

/-- `-(7 / 2L) >> 1 < 0` -/
def shiftedQuotientQuery : IntegerQuery :=
  .comparison .lessThan rfl
    (.binary .shiftRight rfl (.unary .minus (by decide)
      (.parenthesized (.binary .divide rfl (.literal 7) (.literal 2)))) (.literal 1))
    (.literal 0)

theorem integer_folding_exact_shiftedQuotient :
    shiftedQuotient.WellLinked ∧ shiftedQuotientQuery.SpelledAt shiftedQuotient 0 ∧
    shiftedQuotientQuery.value? = some (.boolean true) ∧
    ∃ type memory', meaningOf 0 ⟨shiftedQuotient, true⟩ {} =
      some (.constant (.boolean true) type, memory') := by
  have hf : shiftedQuotient.WellLinked := Forest.WellLinked.empty.performAll _
  have hq : shiftedQuotientQuery.SpelledAt shiftedQuotient 0 := by
    have hquotient : (IntegerTree.binary .divide rfl (.literal 7) (.literal 2)).SpelledAt
        shiftedQuotient 4 :=
      ⟨rfl, ⟨5, rfl, .none, none, rfl⟩, 6, rfl, .long, none, rfl⟩
    exact ⟨rfl, ⟨1, rfl, rfl, ⟨2, rfl, rfl, 3, rfl, rfl, 4, rfl, hquotient⟩, 7, rfl, .none, none, rfl⟩,
      8, rfl, .none, none, rfl⟩
  have hvalue : shiftedQuotientQuery.value? = some (.boolean true) := by rfl
  obtain ⟨m, memory', hrun, hconstant, -⟩ := integer_folding_exact hf hq true {}
  obtain ⟨type, rfl⟩ := (hconstant _).mpr hvalue
  exact ⟨hf, hq, hvalue, type, memory', hrun⟩

end Semantics

end DualSyntax
