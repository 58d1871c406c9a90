import ConceptUnification.Proofs.CallHistory

/-!
# The sides of constraints

The constraints of a goal stand in the order of the calls that they were made
from, one list for each kind.  Each side is the flat form of the term of the
call, or the one atom that stands for it; and it stays that, although later
calls add atoms and abbreviations.
-/

namespace ConceptUnification

/-- The kinds of constraints that a caller can add. -/
inductive ConstraintKind where
  | equation
  | subsumption
  | disequation
  | dissubsumption

/-- The two terms of a call that adds a constraint of a given kind. -/
def BuilderCall.terms? : ConstraintKind → BuilderCall → Option (Term × Term)
  | .equation, .equation left right => some (left, right)
  | .subsumption, .subsumption body head => some (body, head)
  | .disequation, .disequation left right => some (left, right)
  | .dissubsumption, .dissubsumption body head => some (body, head)
  | _, _ => none

theorem BuilderCall.symbols_of_terms? {call : BuilderCall}
    {kind : ConstraintKind} {terms : Term × Term}
    (found : call.terms? kind = some terms) :
    call.termSymbols = terms.1.symbols ++ terms.2.symbols := by
  cases call <;> cases kind <;> cases found <;> rfl

/-- The two sides of a constraint of a given kind.  The left side of an equation
is a single atom. -/
def FlatConstraint.sides? :
    ConstraintKind → FlatConstraint → Option (AtomSet × AtomSet)
  | .equation, .equation constraint => some ({constraint.left}, constraint.right)
  | .subsumption, .subsumption constraint =>
      some (constraint.body, constraint.head)
  | .disequation, .disequation constraint =>
      some (constraint.left, constraint.right)
  | .dissubsumption, .dissubsumption constraint =>
      some (constraint.body, constraint.head)
  | _, _ => none

/-- The sides of all constraints of a given kind that the caller added. -/
def Goal.sides (goal : Goal) : ConstraintKind → List (AtomSet × AtomSet)
  | .equation =>
      goal.equations.map fun constraint => ({constraint.left}, constraint.right)
  | .subsumption =>
      goal.subsumptions.map fun constraint => (constraint.body, constraint.head)
  | .disequation =>
      goal.disequations.map fun constraint => (constraint.left, constraint.right)
  | .dissubsumption =>
      goal.dissubsumptions.map fun constraint =>
        (constraint.body, constraint.head)

namespace GoalBuilder

/-- A side of a constraint shows a term: it is the flat form of the term, or the
single atom that stands for the flat form. -/
inductive Shows (builder : GoalBuilder) (term : Term) : AtomSet → Prop
  | whole {flat : AtomSet}
      (form : term.flatForm? builder.store builder.auxiliary = some flat) :
      Shows builder term flat
  | single {flat : AtomSet} {id : AtomId}
      (form : term.flatForm? builder.store builder.auxiliary = some flat)
      (atom : atomOf? builder.auxiliary flat = some id) :
      Shows builder term {id}

/-- Both sides of a constraint show their terms. -/
def ShowsBoth (builder : GoalBuilder) (terms : Term × Term)
    (sides : AtomSet × AtomSet) : Prop :=
  Shows builder terms.1 sides.1 ∧ Shows builder terms.2 sides.2

section Shows

variable {before after : GoalBuilder} {term : Term} {flat : AtomSet}

theorem Shows.develop (shows : Shows before term flat)
    (development : Develops before after) : Shows after term flat := by
  cases shows with
  | whole form => exact .whole (term.flatForm?_develop development form)
  | single form atom =>
      exact .single (term.flatForm?_develop development form)
        (atomOf?_of_initial development.auxiliary atom)

theorem Shows.means (shows : Shows before term flat)
    (wellFormed : before.WellFormed) : Means before term flat := by
  cases shows with
  | whole form => exact .of_flatForm? wellFormed term form
  | single form atom =>
      exact (Means.of_flatForm? wellFormed term form).of_atomOf? wellFormed atom

theorem Shows.exists_form (shows : Shows before term flat) :
    ∃ whole, term.flatForm? before.store before.auxiliary = some whole := by
  cases shows with
  | whole form => exact ⟨_, form⟩
  | single form _ => exact ⟨_, form⟩

theorem ShowsBoth.develop {terms : Term × Term} {sides : AtomSet × AtomSet}
    (shows : ShowsBoth before terms sides)
    (development : Develops before after) : ShowsBoth after terms sides :=
  ⟨shows.1.develop development, shows.2.develop development⟩

end Shows

section Calls

variable {start before after : GoalBuilder} {call : BuilderCall}

theorem FlattensBoth.shows {left right : Term} {first : GoalBuilder}
    {flatLeft flatRight : AtomSet}
    (both : FlattensBoth before left right flatLeft flatRight first after) :
    ShowsBoth after (left, right) (flatLeft, flatRight) :=
  ⟨.whole both.forms.1, .whole both.forms.2⟩

/-- A call is flattened to a constraint of its kind whose sides show its
terms. -/
theorem FlattensCall.shows {constraint : FlatConstraint}
    (flattens : FlattensCall before call constraint after)
    (kind : ConstraintKind) :
    List.Forall₂ (ShowsBoth after) (call.terms? kind).toList
      (constraint.sides? kind).toList := by
  cases flattens with
  | @equation left right _ flatRight id _ _ _ both single =>
      have kept := develops_singleAtom single
      have shown : ShowsBoth after (left, right) ({id}, flatRight) :=
        ⟨.single (left.flatForm?_develop kept both.forms.1)
            (atomOf?_of_singleAtom single),
          .whole (right.flatForm?_develop kept both.forms.2)⟩
      cases kind with
      | equation => exact .cons shown .nil
      | subsumption | disequation | dissubsumption => exact .nil
  | subsumption both =>
      cases kind with
      | subsumption => exact .cons both.shows .nil
      | equation | disequation | dissubsumption => exact .nil
  | disequation both =>
      cases kind with
      | disequation => exact .cons both.shows .nil
      | equation | subsumption | dissubsumption => exact .nil
  | dissubsumption both =>
      cases kind with
      | dissubsumption => exact .cons both.shows .nil
      | equation | subsumption | disequation => exact .nil

theorem sides_add (builder : GoalBuilder) (constraint : FlatConstraint)
    (kind : ConstraintKind) :
    (builder.add constraint).finished.sides kind =
      builder.finished.sides kind ++ (constraint.sides? kind).toList := by
  cases constraint <;> cases kind <;>
    simp [add, finished, Goal.sides, FlatConstraint.sides?]

/-- Flattening adds no constraint of the caller. -/
theorem FlattensCall.sides {constraint : FlatConstraint}
    (flattens : FlattensCall before call constraint after)
    (kind : ConstraintKind) :
    after.finished.sides kind = before.finished.sides kind := by
  have path : Path (fun _ => True) before after :=
    flattens.path closed_all fun _ _ => trivial
  refine Path.preserves
    (fun builder => builder.finished.sides kind = before.finished.sides kind)
    path (fun earlier later change same => ?_) rfl
  rw [← same]
  cases change <;> cases kind <;> rfl

theorem Performs.shows (performs : Performs before call after)
    (kind : ConstraintKind) : ∃ added,
      after.finished.sides kind = before.finished.sides kind ++ added ∧
        List.Forall₂ (ShowsBoth after) (call.terms? kind).toList added := by
  cases performs with
  | constraint flattens =>
      refine ⟨_, ?_, (flattens.shows kind).imp ?_⟩
      · rw [sides_add, flattens.sides]
      · exact fun _ _ shown => shown.develop (develops_add _ _)
  | userVariable =>
      refine ⟨[], ?_, ?_⟩
      · rw [List.append_nil]
        cases kind <;> rfl
      · cases kind <;> exact .nil

/-- The sides of the constraints show the terms of the calls, in the same
order. -/
theorem Builds.shows {calls : List BuilderCall}
    (builds : Builds start calls after) (kind : ConstraintKind)
    (nothing : start.finished.sides kind = []) :
    List.Forall₂ (ShowsBoth after) (calls.filterMap (·.terms? kind))
      (after.finished.sides kind) := by
  induction builds with
  | nil =>
      rw [nothing]
      exact .nil
  | @snoc calls call between after _ performs induction =>
      obtain ⟨added, sides, shown⟩ := performs.shows kind
      have kept := induction.imp fun _ _ shows =>
        shows.develop performs.develops
      rw [sides, List.filterMap_append, List.filterMap_cons,
        List.filterMap_nil]
      exact List.rel_append kept shown

end Calls

end GoalBuilder

end ConceptUnification
