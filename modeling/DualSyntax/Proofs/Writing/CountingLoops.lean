import DualSyntax.CSharp.Statements
import DualSyntax.Proofs.Semantics.Overflow
import DualSyntax.Proofs.Writing.Printed
import DualSyntax.VisualBasic.Rules
import DualSyntax.VisualBasic.Shapes
import DualSyntax.VisualBasic.Statements

/-!
# Counting loops

The counting loops of VB in C#, and those of C# in VB.
-/

namespace DualSyntax

/-!
## Counting loops of VB in C#

A VB loop from a start to a limit counts down if its step is negative.  Printed as C# it compares its
counter with the limit in the direction that the spelling of the step tells: downward if the step is a
negation.  The counter changes by the step in any case.  So where the two directions are the same the
counter has the same values in both loops, and where they are not the printed loop never runs its body
or never ends.
-/

section VisualBasicLoops

/-! ### Runs of a loop -/

/-- The body of a loop runs for some values of its counter, and then the loop ends. -/
inductive Runs {σ : Type} (goesOn : σ → Prop) (next : σ → σ) (counter : σ → Int) :
    σ → List Int → Prop
  | stop {state : σ} : ¬ goesOn state → Runs goesOn next counter state []
  | visit {state : σ} {is : List Int} : goesOn state → Runs goesOn next counter (next state) is →
      Runs goesOn next counter state (counter state :: is)

namespace Runs

variable {σ : Type} {goesOn : σ → Prop} {next : σ → σ} {counter : σ → Int} {state : σ}
  {is is' : List Int}

theorem unique (h : Runs goesOn next counter state is) (h' : Runs goesOn next counter state is') :
    is = is' := by
  induction h generalizing is' with
  | stop hstop =>
      cases h' with
      | stop => rfl
      | visit hgo => exact absurd hgo hstop
  | visit hgo _ ih =>
      cases h' with
      | stop hstop => exact absurd hgo hstop
      | visit _ hrest => rw [ih hrest]

/-- A loop that goes on once it has gone on never ends. -/
theorem eq_nil (hstays : ∀ state, goesOn state → goesOn (next state))
    (h : Runs goesOn next counter state is) : is = [] := by
  suffices hno : ∀ {state is}, Runs goesOn next counter state is → ¬ goesOn state by
    cases h with
    | stop => rfl
    | visit hgo hrest => exact absurd (hstays _ hgo) (hno hrest)
  intro state is h
  induction h with
  | stop hstop => exact hstop
  | visit hgo _ ih => exact absurd (hstays _ hgo) ih

end Runs

/-- The loop of VB from a start to a limit: a step that is not negative counts up, any other down. -/
def VisualBasic.ForRuns (limit step : Int) : Int → List Int → Prop :=
  Runs (fun i => if 0 ≤ step then i ≤ limit else limit ≤ i) (· + step) id

open Semantics

/-! ### Steps of VB -/

def StepsBy (w : World) (n : NodeId) (s : Int) : Prop :=
  match w.forest.child? n .step with
  | none => s = 1
  | some step => ∃ m, Answered w (meaningOf step) m ∧
      Answered w (constantValue m) (some (.integer s))

/-- The step of a loop is spelled as a negation. -/
def IsNegated (f : Forest) (n : NodeId) : Prop :=
  ∃ step, f.child? n .step = some step ∧ f.kind step = .unaryOperatorExpression .minus

namespace CSharp

open Writing

/-! ### Headers of C# -/

/-- How a loop changes its counter. -/
inductive Iterator where
  | increment
  | add (amount : NodeId)
  | subtract (amount : NodeId)

def Iterator.Adds (w : World) (scopes : List Scope) (s : Int) : Iterator → Prop
  | increment => s = 1
  | add amount => ∃ m, Means w scopes amount m ∧ HasValue w m (.integer s)
  | subtract amount => ∃ m, Means w scopes amount m ∧ HasValue w m (.integer (-s))

structure CounterHeader where
  type : Option NodeId
  name : NodeId
  start : NodeId
  limit : NodeId
  /-- Whether the counter has to be at least the limit. -/
  isDown : Bool
  iterator : Iterator

section

variable (node : NodeId → Written)

def Iterator.write : Iterator → Written
  | increment => put "++"
  | add amount => put " += " ++ writeOperand node amount assignmentLevel
  | subtract amount => put " -= " ++ writeOperand node amount assignmentLevel

def CounterHeader.write (h : CounterHeader) : Written :=
  (match h.type with
    | some type => node type ++ space
    | none => nothing) ++
    node h.name ++ put " = " ++ node h.start ++ put "; " ++ node h.name ++
    put (if h.isDown then " >= " else " <= ") ++ writeOperand node h.limit (relationalLevel + 1) ++
    put "; " ++ node h.name ++ h.iterator.write node

end

/-- The loop of a header: it adds an amount as long as the comparison holds. -/
def CounterHeader.Runs (h : CounterHeader) (limit step : Int) : Int → List Int → Prop :=
  DualSyntax.Runs (fun i => if h.isDown then limit ≤ i else i ≤ limit) (· + step) id

/-- Where the comparison goes with the sign of the step, the counter has the values that it has in
VB. -/
theorem CounterHeader.runs_iff {h : CounterHeader} {limit step : Int} (hdown : h.isDown = true ↔ step < 0)
    {i : Int} {is : List Int} : h.Runs limit step i is ↔ VisualBasic.ForRuns limit step i is := by
  have hsame : (fun i => if h.isDown = true then limit ≤ i else i ≤ limit) =
      fun i => if 0 ≤ step then i ≤ limit else limit ≤ i := by
    funext i
    by_cases hstep : 0 ≤ step
    · rw [if_neg (by rw [hdown]; omega), if_pos hstep]
    · rw [if_pos (by rw [hdown]; omega), if_neg hstep]
  rw [CounterHeader.Runs, VisualBasic.ForRuns, hsame]

/-- Where it does not, the body never runs or the loop never ends. -/
theorem CounterHeader.eq_nil_of_runs {h : CounterHeader} {limit step : Int}
    (hdown : ¬ (h.isDown = true ↔ step < 0)) {i : Int} {is : List Int}
    (hruns : h.Runs limit step i is) : is = [] := by
  refine Runs.eq_nil (fun i hi => ?_) hruns
  by_cases hisDown : h.isDown = true
  · rw [if_pos hisDown] at hi ⊢
    simp only [hisDown, true_iff] at hdown
    omega
  · rw [if_neg hisDown] at hi ⊢
    have hstep : step < 0 := by
      by_contra hstep
      exact hdown (iff_of_false hisDown hstep)
    omega

def headerOf (f : Forest) (n name start limit : NodeId) : CounterHeader where
  type := f.child? n .type
  name
  start
  limit
  isDown := (f.child? n .step).any (f.kind · matches .unaryOperatorExpression .minus)
  iterator := match f.child? n .step with
    | none => .increment
    | some step =>
      match f.kind step with
      | .unaryOperatorExpression .minus => .subtract ((f.child? step .expression).getD step)
      | _ => .add step

variable {w : World} {n name start limit body : NodeId} {s : Int}

theorem isDown_headerOf {f : Forest} : (headerOf f n name start limit).isDown = true ↔ IsNegated f n := by
  simp only [headerOf, IsNegated, Option.any_eq_true]
  refine exists_congr fun step => and_congr_right fun _ => ?_
  split <;> simp_all

/-- The operand of a negation comes to the constant of the other sign. -/
theorem exists_operand {step : NodeId} {scopes : List Scope} {fuel : Nat} {m : Meaning}
    (hkind : w.forest.kind step = .unaryOperatorExpression .minus)
    (hm : Answered w ((answersUpTo fuel).expression step scopes) m)
    (hvalue : HasValue w m (.integer s)) :
    ∃ amount operand, w.forest.child? step .expression = some amount ∧
      Means w scopes amount operand ∧ HasValue w operand (.integer (-s)) := by
  cases fuel with
  | zero => exact absurd hm not_answered_failure
  | succ fuel =>
      replace hm := answered_forest hm
      rw [hkind] at hm
      obtain ⟨operand, v, hoperand, hv, hnegated, -⟩ := answered_resolveUnary hm hvalue
      obtain ⟨i, rfl, hfit⟩ : ∃ i, v = .integer i ∧ Folding.fit? (-i) = some s := by
        cases v with
        | integer i => exact ⟨i, rfl, by simpa [Folding.unary?] using hnegated⟩
        | _ => simp [Folding.unary?] at hnegated
      rw [Folding.fit?] at hfit
      split at hfit
      · obtain rfl : -i = s := Option.some.inj hfit
        rw [Int.neg_neg]
        replace hoperand := answered_forest hoperand
        split at hoperand
        · next amount hamount => exact ⟨amount, operand, hamount, ⟨_, hoperand⟩, _, hv⟩
        · obtain ⟨_, -, hoperand⟩ := answered_bind hoperand
          obtain rfl := answered_pure hoperand
          exact absurd ⟨_, hv⟩ not_hasValue_failed
      · cases hfit

theorem exists_adds_headerOf (h : StepsBy w n s) :
    ∃ scopes, (∀ step, w.forest.child? n .step = some step → Answered w (scopesAt step) scopes) ∧
      (headerOf w.forest n name start limit).iterator.Adds w scopes s := by
  rw [StepsBy] at h
  rw [headerOf]
  cases hstep : w.forest.child? n .step with
  | none =>
      rw [hstep] at h
      exact ⟨[], nofun, h⟩
  | some step =>
      rw [hstep] at h
      obtain ⟨m, hm, hvalue⟩ := h
      obtain ⟨scopes, hscopes, hm⟩ := answered_bind (answered_forest hm)
      have hvalue : HasValue w m (.integer s) := ⟨_, answered_forest hvalue⟩
      refine ⟨scopes, fun _ h => Option.some.inj h ▸ hscopes, ?_⟩
      dsimp only
      split
      · next hkind =>
          obtain ⟨amount, operand, hamount, hmeans, hoperand⟩ := exists_operand hkind hm hvalue
          rw [hamount]
          exact ⟨operand, hmeans, hoperand⟩
      · exact ⟨m, ⟨_, hm⟩, hvalue⟩

theorem writeForNext_eq {page : Page} {node : NodeId → Written}
    (hname : page.forest.child? n .identifier = some name)
    (hstart : page.forest.child? n .initializer = some start)
    (hlimit : page.forest.child? n .limit = some limit)
    (hbody : page.forest.child? n .embeddedStatement = some body)
    (hamount : ∀ step, page.forest.child? n .step = some step →
      page.forest.kind step = .unaryOperatorExpression .minus →
        ∃ amount, page.forest.child? step .expression = some amount) :
    writeForNext node n page =
      (writeHead "for" ((headerOf page.forest n name start limit).write node) ++
        writeEmbedded node body) page := by
  refine (bind_ok forest_ok).trans ((bind_ok (required_ok hname)).trans ?_)
  refine (bind_ok (required_ok hstart)).trans ((bind_ok (required_ok hlimit)).trans ?_)
  refine (bind_ok (required_ok hbody)).trans ?_
  cases hstep : page.forest.child? n .step with
  | none =>
      simp only [headerOf, hstep]
      rfl
  | some step =>
      by_cases hminus : page.forest.kind step = .unaryOperatorExpression .minus
      · obtain ⟨amount, hamount⟩ := hamount step hstep hminus
        have hnegated : headerOf page.forest n name start limit =
            ⟨page.forest.child? n .type, name, start, limit, true, .subtract amount⟩ := by
          simp [headerOf, hstep, hminus, hamount]
        rw [hnegated]
        dsimp only
        rw [hminus]
        exact bind_ok (required_ok hamount)
      · have hother : headerOf page.forest n name start limit =
            ⟨page.forest.child? n .type, name, start, limit, false, .add step⟩ := by
          simp [headerOf, hstep]
        rw [hother]
        dsimp only
        generalize page.forest.kind step = kind at hminus
        split
        · exact absurd rfl hminus
        · rfl

/-- A loop of VB whose step is a constant is printed with a header that adds this constant to the
counter and compares downward exactly if the step is spelled as a negation.  If that is so exactly for a
negative step, the counter has the values that it has in VB; otherwise the body never runs or the loop
never ends. -/
theorem forNext_direction {f : Forest} {caseSensitive : Bool}
    (hname : f.child? n .identifier = some name) (hstart : f.child? n .initializer = some start)
    (hlimit : f.child? n .limit = some limit) (hbody : f.child? n .embeddedStatement = some body)
    (hs : StepsBy ⟨f, caseSensitive⟩ n s) :
    ∃ h : CounterHeader, (h.name = name ∧ h.start = start ∧ h.limit = limit) ∧
      (∀ node page, page.forest = f → writeForNext node n page =
        (writeHead "for" (h.write node) ++ writeEmbedded node body) page) ∧
      (∃ scopes, (∀ step, f.child? n .step = some step →
          Answered ⟨f, caseSensitive⟩ (scopesAt step) scopes) ∧
        h.iterator.Adds ⟨f, caseSensitive⟩ scopes s) ∧
      (h.isDown = true ↔ IsNegated f n) ∧
      ((IsNegated f n ↔ s < 0) → ∀ a b is, h.Runs b s a is ↔ VisualBasic.ForRuns b s a is) ∧
      (¬ (IsNegated f n ↔ s < 0) → ∀ a b is, h.Runs b s a is → is = []) := by
  have hdown : (headerOf f n name start limit).isDown = true ↔ IsNegated f n := isDown_headerOf
  refine ⟨headerOf f n name start limit, ⟨rfl, rfl, rfl⟩, fun node page hpage => ?_,
    exists_adds_headerOf hs, hdown, fun hsame a b is => ?_, fun hdiffers a b is hruns => ?_⟩
  · subst hpage
    refine writeForNext_eq hname hstart hlimit hbody fun step hstep hkind => ?_
    rw [StepsBy, hstep] at hs
    obtain ⟨m, hm, hvalue⟩ := hs
    obtain ⟨scopes, -, hm⟩ := answered_bind (answered_forest hm)
    obtain ⟨amount, -, hamount, -⟩ := exists_operand hkind hm ⟨_, answered_forest hvalue⟩
    exact ⟨amount, hamount⟩
  · exact CounterHeader.runs_iff (hdown.trans hsame)
  · exact CounterHeader.eq_nil_of_runs (fun h => hdiffers (hdown.symm.trans h)) hruns

/-- `For i = 10 To 1 Step -2` and `For i = 10 To 1 Step (-2)`, with no statements in them. -/
def countdown (parenthesized : Bool) : Forest :=
  Forest.performAll {} ([.allocate .forNextStatement {}, .allocate (.identifier "i") {},
    .allocate (.primitiveExpression ⟨.integer 10 .none, none⟩) {},
    .allocate (.primitiveExpression ⟨.integer 1 .none, none⟩) {}, .allocate .blockStatement {},
    .allocate (.unaryOperatorExpression .minus) {},
    .allocate (.primitiveExpression ⟨.integer 2 .none, none⟩) {},
    .allocate .parenthesizedExpression {},
    .append 0 .identifier 1, .append 0 .initializer 2, .append 0 .limit 3,
    .append 0 .embeddedStatement 4, .append 5 .expression 6] ++
    if parenthesized then [.append 7 .expression 5, .append 0 .step 7] else [.append 0 .step 5])

theorem forNext_direction_countdown :
    (∃ h : CounterHeader, h.isDown = true ∧ h.Runs 1 (-2) 10 [10, 8, 6, 4, 2] ∧
      ∀ node page, page.forest = countdown false → writeForNext node 0 page =
        (writeHead "for" (h.write node) ++ writeEmbedded node 4) page) ∧
    VisualBasic.ForRuns 1 (-2) 10 [10, 8, 6, 4, 2] ∧
    ∃ h : CounterHeader, h.isDown = false ∧ (∀ is, h.Runs 1 (-2) 10 is → is = []) ∧
      ∀ node page, page.forest = countdown true → writeForNext node 0 page =
        (writeHead "for" (h.write node) ++ writeEmbedded node 4) page := by
  have hruns : VisualBasic.ForRuns 1 (-2) 10 [10, 8, 6, 4, 2] :=
    .visit (by decide) (.visit (by decide) (.visit (by decide) (.visit (by decide)
      (.visit (by decide) (.stop (by decide))))))
  have hsteps (parenthesized : Bool) : StepsBy ⟨countdown parenthesized, false⟩ 0 (-2) := by
    cases parenthesized <;> exact ⟨_, ⟨{}, _, rfl⟩, {}, _, rfl⟩
  refine ⟨?_, hruns, ?_⟩
  · have hnegated : IsNegated (countdown false) 0 := ⟨5, rfl, rfl⟩
    obtain ⟨h, -, hwrite, -, hdown, hsame, -⟩ :=
      forNext_direction (f := countdown false) rfl rfl rfl rfl (hsteps false)
    exact ⟨h, hdown.mpr hnegated, (hsame (by simpa using hnegated) _ _ _).mpr hruns, hwrite⟩
  · have hplain : ¬ IsNegated (countdown true) 0 := by
      rintro ⟨step, hstep, hkind⟩
      cases hstep
      cases hkind
    obtain ⟨h, -, hwrite, -, hdown, -, hdiffers⟩ :=
      forNext_direction (f := countdown true) rfl rfl rfl rfl (hsteps true)
    have hup : h.isDown = false := Bool.eq_false_iff.mpr fun h => hplain (hdown.mp h)
    exact ⟨h, hup, hdiffers (by simpa using hplain) _ _, hwrite⟩

end CSharp

end VisualBasicLoops

/-!
## Counting loops of C# in VB

A `for` statement that counts is printed as a VB loop from its start to a limit.  VB visits its limit,
so a strict comparison moves the limit by one: a literal is replaced by its neighbour, and any other
limit becomes an operand of a sum.  Over all states in which the loop may start, both loops run their
bodies for the same values of the counter.
-/

section CSharpLoops

/-! ### Runs that agree -/

namespace Runs

variable {σ τ : Type} {goesOn : σ → Prop} {next : σ → σ} {counter : σ → Int}

/-- A loop ends if each time that it goes on decreases a measure. -/
theorem exists_of_decreasing (measure : σ → Nat)
    (hdecreases : ∀ state, goesOn state → measure (next state) < measure state) (state : σ) :
    ∃ is, Runs goesOn next counter state is := by
  induction hm : measure state using Nat.strongRecOn generalizing state with
  | ind m ih =>
      by_cases hgo : goesOn state
      · obtain ⟨is, hruns⟩ := ih _ (hm ▸ hdecreases state hgo) (next state) rfl
        exact ⟨_, .visit hgo hruns⟩
      · exact ⟨[], .stop hgo⟩

variable {goesOn' : τ → Prop} {next' : τ → τ} {counter' : τ → Int} {inv : σ → τ → Prop}

theorem transfer (hgo : ∀ s t, inv s t → (goesOn s ↔ goesOn' t))
    (hnext : ∀ s t, inv s t → inv (next s) (next' t)) (hcounter : ∀ s t, inv s t → counter s = counter' t)
    {s : σ} {t : τ} {is : List Int} (hs : inv s t) (h : Runs goesOn next counter s is) :
    Runs goesOn' next' counter' t is := by
  induction h generalizing t with
  | stop hstop => exact .stop fun h => hstop ((hgo _ _ hs).mpr h)
  | visit hgoes _ ih =>
      rw [hcounter _ _ hs]
      exact .visit ((hgo _ _ hs).mp hgoes) (ih (hnext _ _ hs))

/-- Loops whose states correspond step by step visit the same values. -/
theorem iff_of_correspondence (hgo : ∀ s t, inv s t → (goesOn s ↔ goesOn' t))
    (hnext : ∀ s t, inv s t → inv (next s) (next' t)) (hcounter : ∀ s t, inv s t → counter s = counter' t)
    {s : σ} {t : τ} {is : List Int} (hs : inv s t) :
    Runs goesOn next counter s is ↔ Runs goesOn' next' counter' t is :=
  ⟨transfer hgo hnext hcounter hs,
    transfer (fun t s (h : inv s t) => (hgo s t h).symm) (fun t s h => hnext s t h)
      (fun t s h => (hcounter s t h).symm) hs⟩

end Runs

theorem VisualBasic.exists_forRuns {limit step : Int} (hstep : step ≠ 0) (start : Int) :
    ∃ is, VisualBasic.ForRuns limit step start is := by
  refine Runs.exists_of_decreasing
    (fun i => if 0 ≤ step then (limit + step - i).toNat else (i - limit - step).toNat) (fun i hi => ?_)
    start
  by_cases hup : 0 ≤ step
  · rw [if_pos hup] at hi
    simp only [if_pos hup]
    omega
  · rw [if_neg hup] at hi
    simp only [if_neg hup]
    omega

open Semantics VisualBasic VisualBasic.CountingLoop

open Writing (integer?)

/-- What the variables hold. -/
abbrev State := String → Int

def VisualBasic.LoopStep.amount : LoopStep → (NodeId → Int) → Int
  | one, _ => 1
  | minusOne, _ => -1
  | up n, value => value n
  | down n, value => -value n

namespace CSharp

/-! ### Runs of a `for` statement -/

inductive Sets (f : Forest) (n : NodeId) : String → NodeId → Prop
  | declares {v name start : NodeId} {x : String} : f.kind n = .variableDeclarationStatement →
      f.children n .declarators = [v] → f.child? v .identifier = some name →
      f.kind name = .identifier x → f.child? v .initializer = some start → Sets f n x start
  | assigns {assignment left start : NodeId} {x : String} : f.kind n = .expressionStatement →
      f.child? n .expression = some assignment → f.kind assignment = .assignmentExpression .assign →
      f.child? assignment .left = some left → variableName? f left = some x →
      f.child? assignment .value = some start → Sets f n x start

inductive Compares (f : Forest) (n : NodeId) : BinaryOperator → String → NodeId → Prop
  | intro {op : BinaryOperator} {left limit : NodeId} {x : String} :
      f.kind n = .binaryOperatorExpression op → f.child? n .left = some left →
      variableName? f left = some x → f.child? n .right = some limit → Compares f n op x limit

inductive Changes (f : Forest) (n : NodeId) : String → ((NodeId → Int) → Int) → Prop
  | increment {target : NodeId} {x : String} :
      f.kind n = .unaryOperatorExpression .increment ∨
        f.kind n = .unaryOperatorExpression .postIncrement →
      f.child? n .expression = some target → variableName? f target = some x →
      Changes f n x fun _ => 1
  | decrement {target : NodeId} {x : String} :
      f.kind n = .unaryOperatorExpression .decrement ∨
        f.kind n = .unaryOperatorExpression .postDecrement →
      f.child? n .expression = some target → variableName? f target = some x →
      Changes f n x fun _ => -1
  | add {target amount : NodeId} {x : String} : f.kind n = .assignmentExpression .add →
      f.child? n .left = some target → variableName? f target = some x →
      f.child? n .value = some amount → Changes f n x fun value => value amount
  | subtract {target amount : NodeId} {x : String} : f.kind n = .assignmentExpression .subtract →
      f.child? n .left = some target → variableName? f target = some x →
      f.child? n .value = some amount → Changes f n x fun value => -value amount

/-- What a `for` statement does to variables. -/
structure ForParts where
  counter : String
  start : NodeId
  comparison : BinaryOperator
  compared : String
  limit : NodeId
  changed : String
  change : (NodeId → Int) → Int

/-- A `for` statement sets one variable, compares one and changes one. -/
structure IsFor (f : Forest) (n : NodeId) (p : ForParts) : Prop where
  sets : ∃ i, f.children n .initializers = [i] ∧ Sets f i p.counter p.start
  compares : ∃ c, f.child? n .condition = some c ∧ Compares f c p.comparison p.compared p.limit
  changes : ∃ s e, f.children n .iterators = [s] ∧ f.child? s .expression = some e ∧
    Changes f e p.changed p.change

section

variable (value : State → NodeId → Int) (body : State → State)

/-- The run of the body for the values of the variable that is set first. -/
def ForParts.Runs (p : ForParts) (σ : State) : List Int → Prop :=
  DualSyntax.Runs (fun τ => Exact.compare p.comparison (τ p.compared) (value τ p.limit) = true)
    (fun τ => Function.update (body τ) p.changed (body τ p.changed + p.change (value (body τ))))
    (fun τ => τ p.counter) (Function.update σ p.counter (value σ p.start))

/-- The run of a `for` statement, where expressions have values and the body changes the state. -/
def ForRuns (f : Forest) (n : NodeId) (σ : State) (is : List Int) : Prop :=
  ∃ p, IsFor f n p ∧ p.Runs value body σ is

/-- The body of a loop leaves the counter as it is, and neither of them changes the limit. -/
structure Steady (counter : String) (limit : NodeId) : Prop where
  counter_body : ∀ τ, body τ counter = τ counter
  limit_body : ∀ τ, value (body τ) limit = value τ limit
  limit_counter : ∀ τ i, value (Function.update τ counter i) limit = value τ limit

end

variable {f : Forest} {n : NodeId} {x y : String} {limit start : NodeId} {σ : State}
  {value : State → NodeId → Int} {body : State → State} {is : List Int}

theorem Sets.unique (h : Sets f n x start) {start' : NodeId} (h' : Sets f n y start') :
    x = y ∧ start = start' := by
  cases h <;> cases h' <;> simp_all

theorem Compares.unique {op op' : BinaryOperator} {limit' : NodeId} (h : Compares f n op x limit)
    (h' : Compares f n op' y limit') : op = op' ∧ x = y ∧ limit = limit' := by
  cases h
  cases h'
  simp_all

theorem Changes.unique {change change' : (NodeId → Int) → Int} (h : Changes f n x change)
    (h' : Changes f n y change') : x = y ∧ change = change' := by
  cases h <;> cases h' <;> grind

theorem IsFor.unique {p p' : ForParts} (h : IsFor f n p) (h' : IsFor f n p') : p = p' := by
  obtain ⟨⟨i, hi, hsets⟩, ⟨c, hc, hcompares⟩, s, e, hs, he, hchanges⟩ := h
  obtain ⟨⟨i', hi', hsets'⟩, ⟨c', hc', hcompares'⟩, s', e', hs', he', hchanges'⟩ := h'
  obtain rfl : i = i' := by simpa [hi] using hi'
  obtain rfl : c = c' := by simpa [hc] using hc'
  obtain rfl : s = s' := by simpa [hs] using hs'
  obtain rfl : e = e' := by simpa [he] using he'
  obtain ⟨hcounter, hstart⟩ := hsets.unique hsets'
  obtain ⟨hcomparison, hcompared, hlimit⟩ := hcompares.unique hcompares'
  obtain ⟨hchanged, hchange⟩ := hchanges.unique hchanges'
  cases p
  cases p'
  simp_all

theorem forRuns_iff {p : ForParts} (hp : IsFor f n p) :
    ForRuns value body f n σ is ↔ p.Runs value body σ is := by
  refine ⟨?_, fun h => ⟨p, hp, h⟩⟩
  rintro ⟨p', hp', hruns⟩
  rwa [hp.unique hp']

def ForParts.CountsTo (p : ForParts) (value : State → NodeId → Int) (limit : Int) (τ : State) (i : Int) :
    Prop :=
  τ p.counter = i ∧ value τ p.limit = limit

/-- A loop over one variable with a fixed limit runs as the loop of VB whose limit and step stand for
its comparison and its change. -/
theorem ForParts.runs_iff {p : ForParts} {last step : Int} (hcompared : p.compared = p.counter)
    (hchanged : p.changed = p.counter) (hsteady : Steady value body p.counter p.limit)
    (hchange : ∀ τ, p.change (value τ) = step)
    (hlast : ∀ i, Exact.compare p.comparison i (value σ p.limit) = true ↔
      if 0 ≤ step then i ≤ last else last ≤ i) :
    p.Runs value body σ is ↔ VisualBasic.ForRuns last step (value σ p.start) is := by
  have hgo (τ : State) (i : Int) (h : p.CountsTo value (value σ p.limit) τ i) :
      Exact.compare p.comparison (τ p.compared) (value τ p.limit) = true ↔
        if 0 ≤ step then i ≤ last else last ≤ i := by
    rw [hcompared, h.1, h.2, hlast]
  have hnext (τ : State) (i : Int) (h : p.CountsTo value (value σ p.limit) τ i) :
      p.CountsTo value (value σ p.limit)
        (Function.update (body τ) p.changed (body τ p.changed + p.change (value (body τ)))) (i + step) := by
    rw [hchanged, hchange, hsteady.counter_body, h.1]
    exact ⟨Function.update_self .., by rw [hsteady.limit_counter, hsteady.limit_body, h.2]⟩
  exact Runs.iff_of_correspondence hgo hnext (fun _ _ h => h.1)
    ⟨Function.update_self .., hsteady.limit_counter _ _⟩

end CSharp

namespace VisualBasic

/-! ### Recognized loops -/

variable {f : Forest} {n : NodeId} {l : CountingLoop} {x : String}

theorem sets_of_start? {name start : NodeId} {type : Option NodeId}
    (h : start? f n = some (name, type, start)) (hname : f.kind name = .identifier x) :
    CSharp.Sets f n x start := by
  unfold start? at h
  split at h
  · next hkind =>
      split at h
      · next v hv =>
          obtain ⟨name', hname', h⟩ := Option.bind_eq_some_iff.mp h
          obtain ⟨start', hstart, h⟩ := Option.bind_eq_some_iff.mp h
          cases h
          exact .declares hkind hv hname' hname hstart
      · cases h
  · next hkind =>
      obtain ⟨assignment, hassignment, h⟩ := Option.bind_eq_some_iff.mp h
      split at h
      · next hassign =>
          obtain ⟨left, hleft, h⟩ := Option.bind_eq_some_iff.mp h
          obtain ⟨y, hy, h⟩ := Option.bind_eq_some_iff.mp h
          obtain ⟨name', hname', h⟩ := Option.bind_eq_some_iff.mp h
          obtain ⟨start', hstart, h⟩ := Option.bind_eq_some_iff.mp h
          cases h
          have hx : variableName? f left = some x := by
            unfold variableName? at hy ⊢
            split at hy
            · simp only [Forest.nameOf?, hname', Option.map_some, hname]
            · cases hy
          exact .assigns hkind hassignment hassign hleft hx hstart
      · cases h
  · cases h

theorem changes_of_step? {step : LoopStep} {target : NodeId} (h : step? f n = some (step, target))
    (hx : variableName? f target = some x) : CSharp.Changes f n x step.amount := by
  unfold step? at h
  split at h
  · next op hkind =>
      have hfound {step' : LoopStep} (h : ((f.child? n .expression).bind fun e =>
          some (step', e)) = some (step, target)) :
          step' = step ∧ f.child? n .expression = some target := by
        obtain ⟨target', htarget, h⟩ := Option.bind_eq_some_iff.mp h
        cases h
        exact ⟨rfl, htarget⟩
      cases op with
      | increment =>
          obtain ⟨rfl, htarget⟩ := hfound h
          exact .increment (.inl hkind) htarget hx
      | postIncrement =>
          obtain ⟨rfl, htarget⟩ := hfound h
          exact .increment (.inr hkind) htarget hx
      | decrement =>
          obtain ⟨rfl, htarget⟩ := hfound h
          exact .decrement (.inl hkind) htarget hx
      | postDecrement =>
          obtain ⟨rfl, htarget⟩ := hfound h
          exact .decrement (.inr hkind) htarget hx
      | not | bitNot | minus | plus => cases h
  · next hkind =>
      obtain ⟨amount, hamount, h⟩ := Option.bind_eq_some_iff.mp h
      obtain ⟨target', htarget, h⟩ := Option.bind_eq_some_iff.mp h
      cases h
      exact .add hkind htarget hx hamount
  · next hkind =>
      obtain ⟨amount, hamount, h⟩ := Option.bind_eq_some_iff.mp h
      obtain ⟨target', htarget, h⟩ := Option.bind_eq_some_iff.mp h
      cases h
      exact .subtract hkind htarget hx hamount
  · cases h

/-- A recognized loop sets, compares and changes variables that VB takes for one. -/
theorem exists_isFor_of_of? (h : CountingLoop.of? f n = some l) :
    ∃ x y z op, f.kind l.name = .identifier x ∧ Language.visualBasic.sameName y x = true ∧
      Language.visualBasic.sameName z x = true ∧
      (∃ m, variableName? f m = some y) ∧ (∃ m, variableName? f m = some z) ∧
      strictness? op l.step.isUp = some l.isStrict ∧
      CSharp.IsFor f n ⟨x, l.start, op, y, l.limit, z, l.step.amount⟩ := by
  unfold CountingLoop.of? at h
  split at h
  · next initializer iterator hinitializers hiterators =>
      obtain ⟨e, he, h⟩ := Option.bind_eq_some_iff.mp h
      obtain ⟨⟨name, type, start⟩, hstart, h⟩ := Option.bind_eq_some_iff.mp h
      dsimp only at h
      split at h
      · next x hname =>
          obtain ⟨condition, hcondition, h⟩ := Option.bind_eq_some_iff.mp h
          split at h
          · next op hop =>
              obtain ⟨left, hleft, h⟩ := Option.bind_eq_some_iff.mp h
              split at h
              · cases h
              · next hy =>
                  obtain ⟨limit, hlimit, h⟩ := Option.bind_eq_some_iff.mp h
                  obtain ⟨⟨step, target⟩, hstep, h⟩ := Option.bind_eq_some_iff.mp h
                  dsimp only at h
                  split at h
                  · cases h
                  · next hz =>
                      obtain ⟨isStrict, hstrict, h⟩ := Option.bind_eq_some_iff.mp h
                      cases h
                      simp only [Bool.not_eq_eq_eq_not, Bool.not_true, Bool.not_eq_false,
                        Option.any_eq_true] at hy hz
                      obtain ⟨y, hy, hyx⟩ := hy
                      obtain ⟨z, hz, hzx⟩ := hz
                      exact ⟨x, y, z, op, hname, hyx, hzx, ⟨_, hy⟩, ⟨_, hz⟩, hstrict,
                        ⟨_, hinitializers, sets_of_start? hstart hname⟩,
                        ⟨_, hcondition, .intro hop hleft hy hlimit⟩,
                        _, _, hiterators, he, changes_of_step? hstep hz⟩
          · cases h
      · cases h
  · cases h

/-! ### Printed loops -/

def operatorsOf (level : Form) : List BinaryOperator :=
  match rule level with
  | .list _ (some (.choice tokens)) _ _ =>
    tokens.filterMap fun
      | .token k => binaryOperator? k
      | _ => none
  | _ => []

/-- Whether an expression needs no parentheses to be the left operand of a sum: it is no operator of
a level around sums. -/
def StandsInSum : NodeKind → Prop
  | .binaryOperatorExpression op =>
    ∀ level ∈ [Form.concatenationExpression, .shiftExpression, .comparisonExpression, .andExpression,
      .orExpression, .xorExpression], op ∉ operatorsOf level
  | .unaryOperatorExpression .not | .unaryOperatorExpression .bitNot | .assignmentExpression _ => False
  | _ => True

theorem standsInSum_of_le {kind : NodeKind} (h : additiveLevel ≤ expressionLevel kind) :
    StandsInSum kind := by
  unfold StandsInSum
  split
  · next op => cases op <;> first | decide | exact absurd h (by decide)
  · exact absurd h (by decide)
  · exact absurd h (by decide)
  · exact absurd h (Nat.not_le_of_lt (by decide : 0 < additiveLevel))
  · trivial

inductive PrintedLimit where
  | itself (n : NodeId)
  | literal (value : Nat)
  /-- One less than an operand if the loop counts up, otherwise one more. -/
  | beside (n : NodeId) (isBracketed isUp : Bool)

inductive PrintedStep where
  | omitted
  | minusOne
  | itself (n : NodeId)
  | negated (n : NodeId)

structure PrintedLoop where
  name : NodeId
  type : Option NodeId
  start : NodeId
  limit : PrintedLimit
  step : PrintedStep

def PrintedLimit.value (value : NodeId → Int) : PrintedLimit → Int
  | itself n => value n
  | literal k => k
  | beside n _ isUp => if isUp then value n - 1 else value n + 1

def PrintedStep.value (value : NodeId → Int) : PrintedStep → Int
  | omitted => 1
  | minusOne => -1
  | itself n => value n
  | negated n => -value n

/-- The run of the body for the values of the counter. -/
def PrintedLoop.Runs (p : PrintedLoop) (value : NodeId → Int) : List Int → Prop :=
  ForRuns (p.limit.value value) (p.step.value value) (value p.start)

/-- The operand of a sum has parentheses or needs none. -/
def PrintedLimit.IsSum (f : Forest) : PrintedLimit → Prop
  | beside n isBracketed _ => isBracketed = true ∨ StandsInSum (f.kind n)
  | _ => True

section

open Writing

variable (node : NodeId → Written)

def PrintedLimit.write : PrintedLimit → Written
  | itself n => node n
  | literal k => put (toString k)
  | beside n isBracketed isUp =>
    (if isBracketed then put "(" ++ node n ++ put ")" else node n) ++
      put (if isUp then " - 1" else " + 1")

def PrintedStep.write : PrintedStep → Written
  | omitted => nothing
  | minusOne => put " " ++ put "Step" ++ put " -1"
  | itself n => put " " ++ put "Step" ++ space ++ node n
  | negated n => put " " ++ put "Step" ++ put " -" ++ node n

def PrintedLoop.write (p : PrintedLoop) : Written :=
  put "For" ++ space ++ node p.name ++ writeAsClause node p.type ++ put " = " ++ node p.start ++
    put " " ++ put "To" ++ space ++ p.limit.write node ++ p.step.write node

end

def LoopStep.IsLiteral (f : Forest) : LoopStep → Prop
  | one | minusOne => True
  | up n | down n => ∃ k, integer? f n = some k ∧ 0 < k

/-- The number after a limit that a loop stops before does not fit into 64 bits. -/
def CountingLoop.Overflows (f : Forest) (l : CountingLoop) : Prop :=
  l.isStrict = true ∧ l.step.isUp = false ∧ ∃ k, integer? f l.limit = some k ∧ 2 ^ 64 ≤ k + 1

def printedLimit (f : Forest) (l : CountingLoop) : PrintedLimit :=
  if !l.isStrict then .itself l.limit
  else
    match l.step.isUp, integer? f l.limit with
    | true, some (k + 1) => .literal k
    | false, some k => .literal (k + 1)
    | isUp, _ => .beside l.limit (decide (expressionLevel (f.kind l.limit) < additiveLevel)) isUp

def printedStep : LoopStep → PrintedStep
  | .one => .omitted
  | .minusOne => .minusOne
  | .up n => .itself n
  | .down n => .negated n

def printedLoop (f : Forest) (l : CountingLoop) : PrintedLoop :=
  ⟨l.name, l.type, l.start, printedLimit f l, printedStep l.step⟩

theorem printedLimit_isSum : (printedLimit f l).IsSum f := by
  unfold printedLimit
  split
  · trivial
  · split
    · trivial
    · trivial
    · simp only [PrintedLimit.IsSum, decide_eq_true_eq]
      exact (Nat.lt_or_ge _ _).imp_right standsInSum_of_le

theorem value_printedStep {value : NodeId → Int} :
    (printedStep l.step).value value = l.step.amount value := by
  cases l.step <;> rfl

/-- The printed limit is the last value that the comparison lets pass. -/
theorem value_printedLimit {value : NodeId → Int}
    (hliteral : ∀ m k, integer? f m = some k → value m = k) :
    (printedLimit f l).value value =
      if l.isStrict then (if l.step.isUp then value l.limit - 1 else value l.limit + 1)
      else value l.limit := by
  unfold printedLimit
  cases l.isStrict with
  | false => rfl
  | true =>
      simp only [Bool.not_true, Bool.false_eq_true, if_false, if_true]
      split
      · next k hup hk =>
          rw [hup, if_pos rfl, hliteral _ _ hk]
          simp [PrintedLimit.value]
      · next k hup hk =>
          rw [hup, if_neg Bool.false_ne_true, hliteral _ _ hk]
          simp [PrintedLimit.value]
      · rfl

theorem compare_iff_of_strictness? {op : BinaryOperator} {isUp isStrict : Bool}
    (h : strictness? op isUp = some isStrict) (i limit : Int) :
    Exact.compare op i limit = true ↔
      if isUp then i ≤ (if isStrict then limit - 1 else limit)
      else (if isStrict then limit + 1 else limit) ≤ i := by
  cases op <;> cases isUp <;> cases h <;> simp only [Exact.compare] <;> grind

theorem isUp_iff_of_isLiteral (h : l.step.IsLiteral f) {value : NodeId → Int}
    (hliteral : ∀ m k, integer? f m = some k → value m = k) :
    (l.step.isUp = true ↔ 0 ≤ l.step.amount value) ∧ l.step.amount value ≠ 0 := by
  cases hstep : l.step with
  | one => simp [LoopStep.isUp, LoopStep.amount]
  | minusOne => simp [LoopStep.isUp, LoopStep.amount]
  | up n =>
      rw [hstep] at h
      obtain ⟨k, hk, hpositive⟩ := h
      simp only [LoopStep.isUp, LoopStep.amount, hliteral _ _ hk]
      exact ⟨iff_of_true trivial (by omega), by omega⟩
  | down n =>
      rw [hstep] at h
      obtain ⟨k, hk, hpositive⟩ := h
      simp only [LoopStep.isUp, LoopStep.amount, hliteral _ _ hk]
      exact ⟨iff_of_false Bool.false_ne_true (by omega), by omega⟩

theorem amount_eq_of_isLiteral (h : l.step.IsLiteral f) {value value' : NodeId → Int}
    (hliteral : ∀ m k, integer? f m = some k → value m = k)
    (hliteral' : ∀ m k, integer? f m = some k → value' m = k) :
    l.step.amount value = l.step.amount value' := by
  cases hstep : l.step with
  | one | minusOne => rfl
  | up n | down n =>
      rw [hstep] at h
      obtain ⟨k, hk, -⟩ := h
      simp only [LoopStep.amount, hliteral _ _ hk, hliteral' _ _ hk]

section

open Writing

variable {node : NodeId → Written} {page : Page} {w w' : Written}

theorem writeOperand_eq (m : NodeId) (least : Nat) :
    writeOperand node m least page =
      (if decide (expressionLevel (page.forest.kind m) < least) then put "(" ++ node m ++ put ")"
        else node m) page := by
  refine (bind_ok forest_ok).trans ?_
  split <;> rename_i h <;> simp only [h, decide_true, decide_false, if_true, Bool.false_eq_true, if_false]

theorem append_left {v : Written} (h : w page = w' page) : (w ++ v) page = (w' ++ v) page := by
  change (w page).bind (fun a => (v page).bind fun b => .ok (a ++ b)) = _
  rw [h]
  rfl

theorem append_right {v : Written} (h : w page = w' page) : (v ++ w) page = (v ++ w') page := by
  change (v page).bind (fun a => (w page).bind fun b => .ok (a ++ b)) = _
  rw [h]
  rfl

theorem writeLimit_eq (h : ¬ l.Overflows page.forest) :
    writeLimit node l page = (printedLimit page.forest l).write node page := by
  unfold writeLimit printedLimit
  split
  · rfl
  · next hstrict =>
      refine (bind_ok forest_ok).trans ?_
      have hoperand : (writeOperand node l.limit additiveLevel ++
          put (if l.step.isUp = true then " - 1" else " + 1")) page =
          PrintedLimit.write node (.beside l.limit
            (decide (expressionLevel (page.forest.kind l.limit) < additiveLevel)) l.step.isUp) page :=
        append_left (writeOperand_eq _ _)
      cases hup : l.step.isUp with
      | true =>
          rw [hup] at hoperand
          cases integer? page.forest l.limit with
          | none => exact hoperand
          | some k =>
              cases k with
              | zero => exact hoperand
              | succ k => rfl
      | false =>
          rw [hup] at hoperand
          cases hk : integer? page.forest l.limit with
          | none => exact hoperand
          | some k =>
              have hfits : k + 1 < Nat.pow 2 64 := by
                by_contra hover
                exact h ⟨by simpa using hstrict, hup, k, hk, Nat.le_of_not_lt hover⟩
              dsimp only
              rw [successor, if_pos hfits]
              rfl

theorem writeLimit_overflows (h : l.Overflows page.forest) :
    writeLimit node l page = .error .overflow := by
  obtain ⟨hstrict, hup, k, hk, hover⟩ := h
  unfold writeLimit
  rw [hstrict]
  refine (bind_ok forest_ok).trans ?_
  rw [hup, hk]
  dsimp only
  have hover : ¬ k + 1 < Nat.pow 2 64 := Nat.not_lt_of_le hover
  rw [successor, if_neg hover]
  rfl

theorem isTight_of_integer? {m : NodeId} {k : Nat} (h : integer? page.forest m = some k) :
    ¬ expressionLevel (page.forest.kind m) < negationLevel := by
  unfold integer? integerUpTo at h
  split at h
  · next hkind => simp [hkind, expressionLevel, primaryLevel, negationLevel]
  · next hkind => simp [hkind, expressionLevel, primaryLevel, negationLevel]
  · cases h

theorem writeStep_eq (h : l.step.IsLiteral page.forest) :
    writeStep node l.step page = (printedStep l.step).write node page := by
  cases hstep : l.step with
  | one | minusOne | up => rfl
  | down n =>
      rw [hstep] at h
      obtain ⟨k, hk, -⟩ := h
      refine append_right ?_
      rw [writeOperand_eq, decide_eq_false (isTight_of_integer? hk)]
      rfl

theorem writeFor_eq {body : NodeId} (hbody : page.forest.child? n .embeddedStatement = some body)
    (hloop : CountingLoop.of? page.forest n = some l) (hfits : ¬ l.Overflows page.forest)
    (hstep : l.step.IsLiteral page.forest) :
    writeFor node n page =
      ((printedLoop page.forest l).write node ++ writeConstruct node body "Next") page := by
  refine (bind_ok forest_ok).trans ((bind_ok (required_ok hbody)).trans ?_)
  rw [hloop]
  refine append_left ?_
  exact (append_left (append_right (writeLimit_eq hfits))).trans (append_right (writeStep_eq hstep))

theorem writeFor_overflows (hloop : CountingLoop.of? page.forest n = some l)
    (hover : l.Overflows page.forest) (steps : List OutputStep) : writeFor node n page ≠ .ok steps := by
  intro h
  obtain ⟨f, hf, h⟩ := ok_of_bind h
  obtain ⟨body, -, h⟩ := ok_of_bind h
  obtain rfl : page.forest = f := Except.ok.inj hf
  rw [hloop] at h
  obtain ⟨_, -, h, -⟩ := ok_of_append h
  obtain ⟨_, -, h, -⟩ := ok_of_append h
  obtain ⟨-, _, -, hlimit, -⟩ := ok_of_append h
  rw [writeLimit_overflows hover] at hlimit
  cases hlimit

end

/-- A `for` statement that counts by a literal is printed as a loop of VB, unless a limit that it stops
before has no neighbour of 64 bits.  If VB takes no other variable for the counter, both loops run their
bodies for the same values, in every state in which the limit does not change. -/
theorem countingLoop_visits {body : NodeId} (hloop : CountingLoop.of? f n = some l)
    (hname : f.kind l.name = .identifier x)
    (hcase : ∀ m y, variableName? f m = some y → Language.visualBasic.sameName y x = true → y = x)
    (hbody : f.child? n .embeddedStatement = some body) (hstep : l.step.IsLiteral f) :
    (l.Overflows f → ∀ node page, page.forest = f → ∀ steps, writeFor node n page ≠ .ok steps) ∧
    (¬ l.Overflows f → (printedLoop f l).limit.IsSum f ∧
      (∀ node page, page.forest = f → writeFor node n page =
        ((printedLoop f l).write node ++ writeConstruct node body "Next") page) ∧
      ∀ (value : State → NodeId → Int) (bodyRun : State → State) (σ : State),
        (∀ τ m k, integer? f m = some k → value τ m = k) →
        CSharp.Steady value bodyRun x l.limit →
          ∃ visited, (∀ is, CSharp.ForRuns value bodyRun f n σ is ↔ is = visited) ∧
            ∀ is, (printedLoop f l).Runs (value σ) is ↔ is = visited) := by
  refine ⟨?_, fun hfits => ⟨printedLimit_isSum, ?_, ?_⟩⟩
  · rintro hover node page rfl steps
    exact writeFor_overflows hloop hover steps
  · rintro node page rfl
    exact writeFor_eq hbody hloop hfits hstep
  · intro value bodyRun σ hliteral hsteady
    obtain ⟨x', y, z, op, hname', hy, hz, ⟨m, hm⟩, ⟨m', hm'⟩, hstrict, hfor⟩ :=
      exists_isFor_of_of? hloop
    obtain rfl : x' = x := by simpa [hname] using hname'.symm
    obtain rfl := hcase m y hm hy
    obtain rfl := hcase m' z hm' hz
    obtain ⟨hup, hne⟩ := isUp_iff_of_isLiteral hstep (hliteral σ)
    have hlimit := value_printedLimit (l := l) (hliteral σ)
    obtain ⟨visited, hvisited⟩ : ∃ is, ForRuns ((printedLimit f l).value (value σ))
        (l.step.amount (value σ)) (value σ l.start) is := exists_forRuns hne _
    have hvb (is : List Int) : ForRuns ((printedLimit f l).value (value σ))
        (l.step.amount (value σ)) (value σ l.start) is ↔ is = visited :=
      ⟨fun h => h.unique hvisited, fun h => h ▸ hvisited⟩
    refine ⟨visited, fun is => ?_, fun is => ?_⟩
    · rw [CSharp.forRuns_iff hfor, ← hvb]
      refine CSharp.ForParts.runs_iff rfl rfl hsteady (fun τ => ?_) (fun i => ?_)
      · exact amount_eq_of_isLiteral hstep (hliteral τ) (hliteral σ)
      · rw [compare_iff_of_strictness? hstrict, hlimit]
        by_cases h : l.step.isUp = true
        · rw [if_pos h, if_pos (hup.mp h), if_pos h]
        · rw [if_neg h, if_neg (hup.not.mp h), if_neg h]
    · simp only [PrintedLoop.Runs, printedLoop, value_printedStep]
      exact hvb is

/-- `for (i = 0; i < n; i += 2)`. -/
def evens : Forest :=
  Forest.performAll {} [.allocate .forStatement {}, .allocate .expressionStatement {},
    .allocate (.assignmentExpression .assign) {}, .allocate .identifierExpression {},
    .allocate (.identifier "i") {}, .allocate (.primitiveExpression ⟨.integer 0 .none, none⟩) {},
    .allocate (.binaryOperatorExpression .lessThan) {}, .allocate .identifierExpression {},
    .allocate (.identifier "i") {}, .allocate .identifierExpression {}, .allocate (.identifier "n") {},
    .allocate .expressionStatement {}, .allocate (.assignmentExpression .add) {},
    .allocate .identifierExpression {}, .allocate (.identifier "i") {},
    .allocate (.primitiveExpression ⟨.integer 2 .none, none⟩) {}, .allocate .blockStatement {},
    .append 0 .initializers 1, .append 1 .expression 2, .append 2 .left 3, .append 3 .identifier 4,
    .append 2 .value 5, .append 0 .condition 6, .append 6 .left 7, .append 7 .identifier 8,
    .append 6 .right 9, .append 9 .identifier 10, .append 0 .iterators 11,
    .append 11 .expression 12, .append 12 .left 13, .append 13 .identifier 14,
    .append 12 .value 15, .append 0 .embeddedStatement 16]

def plainValue (f : Forest) (σ : State) (n : NodeId) : Int :=
  match integer? f n with
  | some k => k
  | none => ((variableName? f n).map σ).getD 0

theorem countingLoop_visits_evens :
    ∃ l, CountingLoop.of? evens 0 = some l ∧ ¬ l.Overflows evens ∧
      CSharp.Steady (plainValue evens) id "i" l.limit ∧
      (∀ node page, page.forest = evens → writeFor node 0 page =
        ((printedLoop evens l).write node ++ writeConstruct node 16 "Next") page) ∧
      ∀ is, CSharp.ForRuns (plainValue evens) id evens 0 (fun _ => 5) is ↔ is = [0, 2, 4] := by
  have hloop : CountingLoop.of? evens 0 = some ⟨4, none, 5, 9, true, .up 15⟩ := by decide +kernel
  have hfits : ¬ CountingLoop.Overflows evens ⟨4, none, 5, 9, true, .up 15⟩ := by
    rintro ⟨-, h, -⟩
    cases h
  have hname : evens.kind 4 = .identifier "i" := by
    set_option maxRecDepth 2000 in rfl
  have hbody : evens.child? 0 .embeddedStatement = some 16 := by decide +kernel
  have hnames : ∀ m < 17, variableName? evens m = none ∨ variableName? evens m = some "i" ∨
      variableName? evens m = some "n" := by decide +kernel
  have hcase (m : NodeId) (y : String) (hy : variableName? evens m = some y)
      (hsame : Language.visualBasic.sameName y "i" = true) : y = "i" := by
    by_cases hm : m < 17
    · rcases hnames m hm with h | h | h
      · cases h.symm.trans hy
      · exact (Option.some.inj (h.symm.trans hy)).symm
      · obtain rfl := Option.some.inj (h.symm.trans hy)
        exact absurd hsame (by decide +kernel)
    · have hsize : evens.size = 17 := by decide +kernel
      have hm : evens.size ≤ m := hsize ▸ Nat.le_of_not_lt hm
      simp [variableName?, Forest.kind, Forest.data_of_size_le hm] at hy
  have hlimit (τ : State) : plainValue evens τ 9 = τ "n" := by
    have hinteger : integer? evens 9 = none := by decide +kernel
    have hvariable : variableName? evens 9 = some "n" := by decide +kernel
    simp [plainValue, hinteger, hvariable]
  have hsteady : CSharp.Steady (plainValue evens) id "i" 9 :=
    ⟨fun _ => rfl, fun _ => rfl, fun _ _ => by simp [hlimit]⟩
  have hruns : (printedLoop evens ⟨4, none, 5, 9, true, .up 15⟩).Runs
      (plainValue evens fun _ => 5) [0, 2, 4] := by
    have hvalues : (printedLimit evens ⟨4, none, 5, 9, true, .up 15⟩).value
        (plainValue evens fun _ => 5) = 4 ∧ plainValue evens (fun _ => 5) 15 = 2 ∧
        plainValue evens (fun _ => 5) 5 = 0 := by decide +kernel
    obtain ⟨hlast, hstep, hstart⟩ := hvalues
    simp only [PrintedLoop.Runs, printedLoop, printedStep, PrintedStep.value, hlast, hstep, hstart]
    exact .visit (by decide) (.visit (by decide) (.visit (by decide) (.stop (by decide))))
  obtain ⟨-, hwrite, hvisits⟩ :=
    (countingLoop_visits hloop hname hcase hbody ⟨2, by decide +kernel, by decide⟩).2 hfits
  obtain ⟨visited, hcs, hvb⟩ := hvisits (plainValue evens) id (fun _ => 5)
    (fun τ m k h => by simp only [plainValue, h]) hsteady
  obtain rfl := (hvb _).mp hruns
  exact ⟨_, hloop, hfits, hsteady, hwrite, hcs⟩

end VisualBasic

end CSharpLoops

end DualSyntax
