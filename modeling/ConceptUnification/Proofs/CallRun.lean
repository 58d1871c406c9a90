import ConceptUnification.Proofs.ConstraintSides

/-!
# Runs of calls

A call flattens its terms, which follows a path of changes, and then adds one
constraint whose sides mean these terms; or it declares a name.  Calls on a new
builder that do not fail make a run over the names that they mention.
-/

namespace ConceptUnification

namespace GoalBuilder

/-- The builder has a constraint. -/
def Has (builder : GoalBuilder) : FlatConstraint → Prop
  | .equation constraint => constraint ∈ builder.equations
  | .subsumption constraint => constraint ∈ builder.subsumptions
  | .disequation constraint => constraint ∈ builder.disequations
  | .dissubsumption constraint => constraint ∈ builder.dissubsumptions

theorem has_add {builder : GoalBuilder} {constraint other : FlatConstraint} :
    (builder.add constraint).Has other ↔
      builder.Has other ∨ other = constraint := by
  cases constraint <;> cases other <;> simp [add, Has]

/-- The sides of the constraint mean the terms of the call. -/
inductive Flattened (builder : GoalBuilder) :
    BuilderCall → FlatConstraint → Prop
  | equation {left right : Term} {id : AtomId} {flat : AtomSet}
      (leftMeans : Means builder left {id})
      (rightMeans : Means builder right flat) :
      Flattened builder (.equation left right) (.equation ⟨id, flat, false⟩)
  | subsumption {body head : Term} {flatBody flatHead : AtomSet}
      (bodyMeans : Means builder body flatBody)
      (headMeans : Means builder head flatHead) :
      Flattened builder (.subsumption body head)
        (.subsumption ⟨flatBody, flatHead⟩)
  | disequation {left right : Term} {flatLeft flatRight : AtomSet}
      (leftMeans : Means builder left flatLeft)
      (rightMeans : Means builder right flatRight) :
      Flattened builder (.disequation left right)
        (.disequation ⟨flatLeft, flatRight⟩)
  | dissubsumption {body head : Term} {flatBody flatHead : AtomSet}
      (bodyMeans : Means builder body flatBody)
      (headMeans : Means builder head flatHead) :
      Flattened builder (.dissubsumption body head)
        (.dissubsumption ⟨flatBody, flatHead⟩)

theorem Flattened.develop {before after : GoalBuilder} {call : BuilderCall}
    {constraint : FlatConstraint} (flattened : Flattened before call constraint)
    (development : Develops before after) (wellFormed : before.WellFormed) :
    Flattened after call constraint := by
  cases flattened with
  | equation leftMeans rightMeans =>
      exact .equation (leftMeans.develop development wellFormed)
        (rightMeans.develop development wellFormed)
  | subsumption bodyMeans headMeans =>
      exact .subsumption (bodyMeans.develop development wellFormed)
        (headMeans.develop development wellFormed)
  | disequation leftMeans rightMeans =>
      exact .disequation (leftMeans.develop development wellFormed)
        (rightMeans.develop development wellFormed)
  | dissubsumption bodyMeans headMeans =>
      exact .dissubsumption (bodyMeans.develop development wellFormed)
        (headMeans.develop development wellFormed)

/-- What one call does: flattening follows a path of changes, and then the
constraint is added. -/
inductive Performed (mentioned : String → Prop) (before : GoalBuilder) :
    BuilderCall → GoalBuilder → Prop
  | constraint {call : BuilderCall} {between : GoalBuilder}
      {constraint : FlatConstraint} (path : Path mentioned before between)
      (flattened : Flattened between call constraint) :
      Performed mentioned before call (between.add constraint)
  | userVariable {symbol : String} (inScope : mentioned symbol) :
      Performed mentioned before (.userVariable symbol)
        (before.declareUserVariable symbol).2

section Perform

variable {mentioned : String → Prop} {before after : GoalBuilder}
  {call : BuilderCall}

/-- The sides of the constraint mean the terms of the call. -/
theorem FlattensCall.flattened {constraint : FlatConstraint}
    (flattens : FlattensCall before call constraint after)
    (wellFormed : after.WellFormed) : Flattened after call constraint := by
  have shows := flattens.shows
  cases flattens with
  | equation both single =>
      cases shows .equation with
      | cons shown =>
          exact .equation (shown.1.means wellFormed) (shown.2.means wellFormed)
  | subsumption both =>
      cases shows .subsumption with
      | cons shown =>
          exact .subsumption (shown.1.means wellFormed)
            (shown.2.means wellFormed)
  | disequation both =>
      cases shows .disequation with
      | cons shown =>
          exact .disequation (shown.1.means wellFormed)
            (shown.2.means wellFormed)
  | dissubsumption both =>
      cases shows .dissubsumption with
      | cons shown =>
          exact .dissubsumption (shown.1.means wellFormed)
            (shown.2.means wellFormed)

/-- A call over the names `reachable` performs changes over more names, among
which there are the declared ones. -/
theorem Performs.performed {reachable : String → Prop}
    (performs : Performs before call after) (wellFormed : before.WellFormed)
    (closed : Closed before.background reachable)
    (terms : ∀ symbol ∈ call.termSymbols, reachable symbol)
    (names : ∀ symbol, reachable symbol → mentioned symbol)
    (declared : ∀ symbol, call = .userVariable symbol → mentioned symbol) :
    Performed mentioned before call after := by
  cases performs with
  | constraint flattens =>
      have path := flattens.path closed terms
      exact .constraint (path.mono names)
        (flattens.flattened (path.wellFormed wellFormed))
  | userVariable => exact .userVariable (declared _ rfl)

theorem Flattened.wellFormed_add {constraint : FlatConstraint}
    (flattened : Flattened before call constraint)
    (wellFormed : before.WellFormed) : (before.add constraint).WellFormed := by
  cases flattened with
  | equation leftMeans rightMeans =>
      exact (grows_addEquation ⟨leftMeans.stored _ (by simp),
        rightMeans.stored⟩).wellFormed wellFormed
  | subsumption bodyMeans headMeans =>
      exact (grows_addSubsumption bodyMeans.stored
        headMeans.stored).wellFormed wellFormed
  | disequation leftMeans rightMeans =>
      exact (grows_addDisequation leftMeans.stored
        rightMeans.stored).wellFormed wellFormed
  | dissubsumption bodyMeans headMeans =>
      exact (grows_addDissubsumption bodyMeans.stored
        headMeans.stored).wellFormed wellFormed

theorem Performed.develops (performed : Performed mentioned before call after) :
    Develops before after := by
  cases performed with
  | constraint path flattened =>
      exact path.develops.trans (develops_add _ _)
  | userVariable inScope => exact develops_declareUserVariable before _

theorem Performed.wellFormed (performed : Performed mentioned before call after)
    (wellFormed : before.WellFormed) : after.WellFormed := by
  cases performed with
  | constraint path flattened =>
      exact flattened.wellFormed_add (path.wellFormed wellFormed)
  | userVariable inScope =>
      exact { (grows_internName before _).wellFormed wellFormed with }

end Perform

/-- What a sequence of calls does. -/
inductive Run (mentioned : String → Prop) (start : GoalBuilder) :
    List BuilderCall → GoalBuilder → Prop
  | nil : Run mentioned start [] start
  | snoc {calls : List BuilderCall} {call : BuilderCall}
      {between after : GoalBuilder} (run : Run mentioned start calls between)
      (performed : Performed mentioned between call after) :
      Run mentioned start (calls ++ [call]) after

section Run

variable {mentioned : String → Prop} {start after : GoalBuilder}
  {calls : List BuilderCall}

theorem Run.develops (run : Run mentioned start calls after) :
    Develops start after := by
  induction run with
  | nil => exact .refl start
  | snoc _ performed induction => exact induction.trans performed.develops

theorem Run.wellFormed (run : Run mentioned start calls after)
    (wellFormed : start.WellFormed) : after.WellFormed := by
  induction run with
  | nil => exact wellFormed
  | snoc _ performed induction => exact performed.wellFormed induction

theorem Builds.run {reachable : String → Prop}
    (builds : Builds start calls after) (wellFormed : start.WellFormed)
    (closed : Closed start.background reachable)
    (terms : ∀ call ∈ calls, ∀ symbol ∈ call.termSymbols, reachable symbol)
    (names : ∀ symbol, reachable symbol → mentioned symbol)
    (declared : ∀ symbol, .userVariable symbol ∈ calls → mentioned symbol) :
    Run mentioned start calls after := by
  induction builds with
  | nil => exact .nil
  | snoc builds performs induction =>
      have run := induction
        (fun other member => terms other (List.mem_append_left _ member))
        (fun symbol member => declared symbol (List.mem_append_left _ member))
      rw [← builds.develops.background] at closed
      refine .snoc run (performs.performed (run.wellFormed wellFormed) closed
        (terms _ (by simp)) names ?_)
      rintro symbol rfl
      exact declared symbol (by simp)

/-- Calls that do not fail make a run. -/
theorem run_performAll (wellFormed : start.WellFormed)
    (closed : Closed start.background mentioned)
    (inScope : ∀ call ∈ calls, ∀ symbol ∈ call.symbols, mentioned symbol)
    (unfailed : (start.performAll calls).failure = none) :
    Run mentioned start calls (start.performAll calls) := by
  refine (builds_performAll unfailed).run wellFormed closed
    (fun call member symbol inTerm => ?_) (fun _ inScope => inScope)
    (fun symbol member => inScope _ member _ (List.mem_singleton_self _))
  cases call with
  | userVariable other => cases inTerm
  | equation | subsumption | disequation | dissubsumption =>
      exact inScope _ member symbol inTerm

end Run

/-- The names that calls mention: those of their terms, the declared ones, and
those in the bodies of definitions of mentioned names. -/
inductive Mentioned (background : Ontology Term) (calls : List BuilderCall) :
    String → Prop
  | call {call : BuilderCall} {symbol : String} (member : call ∈ calls)
      (inCall : symbol ∈ call.symbols) : Mentioned background calls symbol
  | body {symbol other : String} {definition : BackgroundDefinition Term}
      (mentioned : Mentioned background calls symbol)
      (found : background.find? symbol = some definition)
      (inBody : other ∈ definition.body.symbols) :
      Mentioned background calls other

theorem closed_mentioned {background : Ontology Term}
    {calls : List BuilderCall} :
    Closed background (Mentioned background calls) :=
  fun _ _ mentioned found _ inBody => .body mentioned found inBody

theorem mentioned_of_mem {background : Ontology Term}
    {calls : List BuilderCall} :
    ∀ call ∈ calls, ∀ symbol ∈ call.symbols,
      Mentioned background calls symbol :=
  fun _ member _ inCall => .call member inCall

/-- Calls on a new builder that do not fail make a run over the names that they
mention. -/
theorem run_new {background : Ontology Term} {config : Config}
    {calls : List BuilderCall}
    (unfailed : ((new background config).performAll calls).failure = none) :
    Run (Mentioned background calls) (new background config) calls
      ((new background config).performAll calls) :=
  run_performAll (sound_new background config rfl).1 closed_mentioned
    mentioned_of_mem unfailed

/-- The names that calls lead to: those of their terms, and those in the bodies
of definitions of names that they lead to. -/
inductive Reachable (background : Ontology Term) (calls : List BuilderCall) :
    String → Prop
  | term {call : BuilderCall} {symbol : String} (member : call ∈ calls)
      (inTerm : symbol ∈ call.termSymbols) : Reachable background calls symbol
  | body {symbol other : String} {definition : BackgroundDefinition Term}
      (reachable : Reachable background calls symbol)
      (found : background.find? symbol = some definition)
      (inBody : other ∈ definition.body.symbols) :
      Reachable background calls other

theorem closed_reachable (background : Ontology Term)
    (calls : List BuilderCall) :
    Closed background (Reachable background calls) :=
  fun _ _ reachable found _ inBody => .body reachable found inBody

theorem reachable_of_terms? {background : Ontology Term}
    {calls : List BuilderCall} {kind : ConstraintKind} {terms : Term × Term}
    (member : terms ∈ calls.filterMap (·.terms? kind)) :
    ∀ symbol ∈ terms.1.symbols ++ terms.2.symbols,
      Reachable background calls symbol := by
  intro symbol inTerms
  obtain ⟨call, inCalls, found⟩ := List.mem_filterMap.mp member
  rw [← call.symbols_of_terms? found] at inTerms
  exact .term inCalls inTerms

/-- The names that calls lead to, and the declared ones. -/
def Occurs (background : Ontology Term) (calls : List BuilderCall)
    (symbol : String) : Prop :=
  Reachable background calls symbol ∨ .userVariable symbol ∈ calls

/-- The names of a run on a new builder are those that the calls lead to, and
the declared ones. -/
theorem Builds.run_new {background : Ontology Term} {config : Config}
    {calls : List BuilderCall} {after : GoalBuilder}
    (builds : Builds (new background config) calls after) :
    Run (Occurs background calls) (new background config) calls after :=
  builds.run (sound_new background config rfl).1
    (closed_reachable background calls)
    (fun _ member _ inTerm => .term member inTerm)
    (fun _ reachable => .inl reachable) (fun _ declared => .inr declared)

end GoalBuilder

end ConceptUnification
