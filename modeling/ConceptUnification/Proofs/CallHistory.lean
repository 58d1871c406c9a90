import ConceptUnification.Proofs.FlatteningPath

/-!
# Histories of calls

A call flattens its terms one after the other and adds a constraint between the
results, or it declares a name.  `Builds` is the history of a sequence of calls
in terms of the flattening relation, so it is finite although it bounds no
imports.  Calls that do not fail have a history.
-/

namespace ConceptUnification

/-- A constraint of the caller between flat conjunctions. -/
inductive FlatConstraint where
  | equation (constraint : Equation)
  | subsumption (constraint : Subsumption)
  | disequation (constraint : Disequation)
  | dissubsumption (constraint : Dissubsumption)

namespace BuilderCall

/-- The concept names of a call. -/
def symbols : BuilderCall → List String
  | .equation left right => left.symbols ++ right.symbols
  | .subsumption body head => body.symbols ++ head.symbols
  | .disequation left right => left.symbols ++ right.symbols
  | .dissubsumption body head => body.symbols ++ head.symbols
  | .userVariable symbol => [symbol]

/-- The concept names of the terms of a call. -/
def termSymbols : BuilderCall → List String
  | .userVariable _ => []
  | call => call.symbols

end BuilderCall

namespace GoalBuilder

/-- The builder with one more constraint. -/
def add (builder : GoalBuilder) : FlatConstraint → GoalBuilder
  | .equation constraint =>
      { builder with equations := builder.equations ++ [constraint] }
  | .subsumption constraint =>
      { builder with subsumptions := builder.subsumptions ++ [constraint] }
  | .disequation constraint =>
      { builder with disequations := builder.disequations ++ [constraint] }
  | .dissubsumption constraint =>
      { builder with
        dissubsumptions := builder.dissubsumptions ++ [constraint] }

theorem develops_add (builder : GoalBuilder) (constraint : FlatConstraint) :
    Develops builder (builder.add constraint) := by
  cases constraint <;> exact { Develops.refl builder with }

theorem develops_declareUserVariable (builder : GoalBuilder)
    (symbol : String) :
    Develops builder (builder.declareUserVariable symbol).2 :=
  { develops_withName builder symbol with }

/-- One term is flattened after the other. -/
structure FlattensBoth (before : GoalBuilder) (left right : Term)
    (flatLeft flatRight : AtomSet) (first after : GoalBuilder) : Prop where
  left : Flattens before left flatLeft first
  right : Flattens first right flatRight after

/-- The terms of a call are flattened to a constraint.  The left side of an
equation is reduced to one atom. -/
inductive FlattensCall (before : GoalBuilder) :
    BuilderCall → FlatConstraint → GoalBuilder → Prop
  | equation {left right : Term} {flatLeft flatRight : AtomSet} {id : AtomId}
      {first second after : GoalBuilder}
      (both : FlattensBoth before left right flatLeft flatRight first second)
      (single : (singleAtom flatLeft).run second = (id, after)) :
      FlattensCall before (.equation left right)
        (.equation ⟨id, flatRight, false⟩) after
  | subsumption {body head : Term} {flatBody flatHead : AtomSet}
      {first after : GoalBuilder}
      (both : FlattensBoth before body head flatBody flatHead first after) :
      FlattensCall before (.subsumption body head)
        (.subsumption ⟨flatBody, flatHead⟩) after
  | disequation {left right : Term} {flatLeft flatRight : AtomSet}
      {first after : GoalBuilder}
      (both : FlattensBoth before left right flatLeft flatRight first after) :
      FlattensCall before (.disequation left right)
        (.disequation ⟨flatLeft, flatRight⟩) after
  | dissubsumption {body head : Term} {flatBody flatHead : AtomSet}
      {first after : GoalBuilder}
      (both : FlattensBoth before body head flatBody flatHead first after) :
      FlattensCall before (.dissubsumption body head)
        (.dissubsumption ⟨flatBody, flatHead⟩) after

/-- What one call does. -/
inductive Performs (before : GoalBuilder) : BuilderCall → GoalBuilder → Prop
  | constraint {call : BuilderCall} {constraint : FlatConstraint}
      {between : GoalBuilder}
      (flattens : FlattensCall before call constraint between) :
      Performs before call (between.add constraint)
  | userVariable {symbol : String} :
      Performs before (.userVariable symbol)
        (before.declareUserVariable symbol).2

/-- What a sequence of calls does. -/
inductive Builds (start : GoalBuilder) : List BuilderCall → GoalBuilder → Prop
  | nil : Builds start [] start
  | snoc {calls : List BuilderCall} {call : BuilderCall}
      {between after : GoalBuilder} (builds : Builds start calls between)
      (performs : Performs between call after) :
      Builds start (calls ++ [call]) after

variable {mentioned : String → Prop} {before after : GoalBuilder}
  {call : BuilderCall}

theorem FlattensBoth.develops {left right : Term}
    {flatLeft flatRight : AtomSet} {first : GoalBuilder}
    (both : FlattensBoth before left right flatLeft flatRight first after) :
    Develops before after :=
  both.left.develops.trans both.right.develops

theorem FlattensCall.develops {constraint : FlatConstraint}
    (flattens : FlattensCall before call constraint after) :
    Develops before after := by
  cases flattens with
  | equation both single => exact both.develops.trans (develops_singleAtom single)
  | subsumption both | disequation both | dissubsumption both =>
      exact both.develops

theorem Performs.develops (performs : Performs before call after) :
    Develops before after := by
  cases performs with
  | constraint flattens => exact flattens.develops.trans (develops_add _ _)
  | userVariable => exact develops_declareUserVariable before _

theorem Builds.develops {calls : List BuilderCall}
    (builds : Builds before calls after) : Develops before after := by
  induction builds with
  | nil => exact .refl before
  | snoc _ performs induction => exact induction.trans performs.develops

/-- What two terms were flattened to are their flat forms. -/
theorem FlattensBoth.forms {left right : Term} {first : GoalBuilder}
    {flatLeft flatRight : AtomSet}
    (both : FlattensBoth before left right flatLeft flatRight first after) :
    left.flatForm? after.store after.auxiliary = some flatLeft ∧
      right.flatForm? after.store after.auxiliary = some flatRight :=
  ⟨left.flatForm?_develop both.right.develops both.left.flatForm?,
    both.right.flatForm?⟩

/-- Both sides of a constraint are flattened along a path. -/
theorem FlattensBoth.path {left right : Term} {first : GoalBuilder}
    {flatLeft flatRight : AtomSet}
    (both : FlattensBoth before left right flatLeft flatRight first after)
    (closed : Closed before.background mentioned)
    (inScope : ∀ symbol ∈ left.symbols ++ right.symbols, mentioned symbol) :
    Path mentioned before after := by
  have leftPath := both.left.path closed fun symbol member =>
    inScope symbol (List.mem_append_left _ member)
  rw [← both.left.develops.background] at closed
  exact leftPath.trans (both.right.path closed fun symbol member =>
    inScope symbol (List.mem_append_right _ member))

/-- The terms of a call are flattened along a path. -/
theorem FlattensCall.path {constraint : FlatConstraint}
    (flattens : FlattensCall before call constraint after)
    (closed : Closed before.background mentioned)
    (inScope : ∀ symbol ∈ call.termSymbols, mentioned symbol) :
    Path mentioned before after := by
  cases flattens with
  | @equation left right flatLeft flatRight id first second after both single =>
      have reduced : Path mentioned second after := singleAtom_path
        (fun symbol member => inScope symbol (List.mem_append_left _ member))
        both.forms.1 single
      exact (both.path closed inScope).trans reduced
  | subsumption both | disequation both | dissubsumption both =>
      exact both.path closed inScope

/-- What all changes, constraints and declarations preserve is preserved by
calls. -/
theorem Builds.preserves (invariant : GoalBuilder → Prop)
    {calls : List BuilderCall} (builds : Builds before calls after)
    (closed : Closed before.background mentioned)
    (inScope : ∀ call ∈ calls, ∀ symbol ∈ call.termSymbols, mentioned symbol)
    (change : ∀ earlier later, Change mentioned earlier later →
      invariant earlier → invariant later)
    (add : ∀ builder constraint, invariant builder →
      invariant (builder.add constraint))
    (declare : ∀ builder symbol, invariant builder →
      invariant (builder.declareUserVariable symbol).2)
    (initial : invariant before) : invariant after := by
  induction builds with
  | nil => exact initial
  | snoc builds performs induction =>
      have earlier := induction fun call member =>
        inScope call (List.mem_append_left _ member)
      rw [← builds.develops.background] at closed
      cases performs with
      | constraint flattens =>
          have path := flattens.path closed (inScope _ (by simp))
          exact add _ _ (Path.preserves invariant path change earlier)
      | userVariable => exact declare _ _ earlier

theorem Performs.builds (performs : Performs before call after) :
    Builds before [call] after :=
  .snoc .nil performs

/-- Three of the four kinds of constraints are made of two flat conjunctions as
they are. -/
theorem performs_of_both {left right : Term}
    {constrain : AtomSet → AtomSet → FlatConstraint}
    (flattens : ∀ flatLeft flatRight first between,
      FlattensBoth before left right flatLeft flatRight first between →
        FlattensCall before call (constrain flatLeft flatRight) between)
    (run : (do
      let flatLeft ← flatten left
      let flatRight ← flatten right
      modify fun builder => builder.add (constrain flatLeft flatRight) :
        FlattenM Unit).run.run before = (.ok (), after)) :
    Performs before call after := by
  obtain ⟨flatLeft, first, leftRun, run⟩ := run_bind_ok.mp run
  obtain ⟨flatRight, between, rightRun, run⟩ := run_bind_ok.mp run
  cases run
  exact .constraint (flattens _ _ _ _
    ⟨flatten_iff.mp leftRun, flatten_iff.mp rightRun⟩)

theorem performs_of_perform (outcome : before.perform call = after)
    (unfailed : after.failure = none) : Performs before call after := by
  cases call with
  | equation left right =>
      obtain ⟨_, run⟩ := run_of_attempt outcome unfailed
      obtain ⟨flatLeft, first, leftRun, run⟩ := run_bind_ok.mp run
      obtain ⟨flatRight, between, rightRun, run⟩ := run_bind_ok.mp run
      obtain ⟨id, final, singleRun, run⟩ := run_bind_ok.mp run
      cases run
      exact .constraint (.equation
        ⟨flatten_iff.mp leftRun, flatten_iff.mp rightRun⟩
        (run_lift_ok.mp singleRun))
  | subsumption body head =>
      exact performs_of_both (fun _ _ _ _ => .subsumption)
        (run_of_attempt outcome unfailed).2
  | disequation left right =>
      exact performs_of_both (fun _ _ _ _ => .disequation)
        (run_of_attempt outcome unfailed).2
  | dissubsumption body head =>
      exact performs_of_both (fun _ _ _ _ => .dissubsumption)
        (run_of_attempt outcome unfailed).2
  | userVariable symbol =>
      rw [← outcome]
      exact .userVariable

theorem unfailed_of_perform (unfailed : (before.perform call).failure = none) :
    before.failure = none := by
  cases call with
  | userVariable symbol => exact unfailed
  | equation | subsumption | disequation | dissubsumption =>
      exact (run_of_attempt rfl unfailed).1

/-- Calls that do not fail have a history. -/
theorem builds_performAll {calls : List BuilderCall}
    (unfailed : (before.performAll calls).failure = none) :
    Builds before calls (before.performAll calls) := by
  induction calls using List.reverseRecOn with
  | nil => exact .nil
  | append_singleton calls call induction =>
      rw [performAll, List.foldl_append] at unfailed ⊢
      exact .snoc (induction (unfailed_of_perform unfailed))
        (performs_of_perform rfl unfailed)

end GoalBuilder

end ConceptUnification
