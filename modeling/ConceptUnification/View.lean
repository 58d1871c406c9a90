import ConceptUnification.Unfolding
import ConceptUnification.Unifier

/-!
# Views

Views show atoms, goals and unifiers by the names of their concepts and roles in place of numbers,
so that they can be read without the store of a goal.
-/

namespace ConceptUnification

/-- An atom by its names. -/
inductive AtomView where
  | name (symbol : String)
  | restriction (role : String) (filler : AtomView)
deriving DecidableEq, Inhabited

/-- A binding of a unifier. -/
structure BindingView where
  symbol : String
  /-- Whether it is a user variable. -/
  user : Bool
  /-- Its flat value, whose restrictions may have variables as fillers. -/
  atoms : List AtomView
  /-- Its value without variables. -/
  expanded : Concept

/-- A unifier. -/
structure UnifierView where
  bindings : List BindingView

/-- What a constraint says, or where it comes from. -/
inductive Relation where
  | definition
  /-- A background definition that only bounds its name from above. -/
  | primitiveDefinition
  /-- The definition of an auxiliary variable. -/
  | flattening
  | equation
  | subsumption
  | disequation
  | dissubsumption
deriving DecidableEq, Inhabited

/-- A flat constraint. -/
structure ConstraintView where
  /-- What it says. -/
  relation : Relation
  /-- The left side or the body. -/
  left : List AtomView
  /-- The right side or the head. -/
  right : List AtomView
deriving DecidableEq

/-- A flat goal. -/
structure GoalView where
  userVariables : List String
  /-- All constraints. -/
  constraints : List ConstraintView
deriving DecidableEq

/-- The view of an atom. There is none for a restriction that is not younger than its filler, or for
a number that no atom has. -/
def AtomView.ofAtom? (store : AtomStore) (id : AtomId) : Option AtomView :=
  match store.atom? id with
  | none => none
  | some (.name symbol) => some (.name symbol)
  | some (.restriction role filler) =>
    if filler < id then
      match store.roleName? role, AtomView.ofAtom? store filler with
      | some roleName, some view => some (.restriction roleName view)
      | _, _ => none
    else none
termination_by id
decreasing_by grind

/-- The views of the atoms of a conjunction. -/
def AtomView.ofSet? (store : AtomStore) (conjunction : AtomSet) : Option (List AtomView) :=
  conjunction.toList.mapM (AtomView.ofAtom? store)

/-- The view of a binding in a goal, under the substitution that it belongs to. -/
def BindingView.ofBinding? (goal : Goal) (substitution : Substitution) (binding : Binding) :
    Option BindingView := do
  let _ ← goal.store.atom? binding.name
  let atoms ← AtomView.ofSet? goal.store binding.conjunction
  let value ← substitution.atom? binding.name
  let expanded ← value.toConcept? goal.store
  return {
    symbol := (goal.store.symbol? binding.name).getD ""
    user := goal.store.hasKind .userVariable binding.name
    atoms := atoms
    expanded := expanded }

namespace UnifierView

/-- The view of a unifier in a goal. -/
def ofUnifier? (goal : Goal) (unifier : Unifier) : Option UnifierView :=
  let substitution := unifier.substitution goal.store
  (unifier.bindings.mapM (BindingView.ofBinding? goal substitution)).map .mk

/-- The bindings of user variables only. -/
def users (view : UnifierView) : UnifierView :=
  ⟨view.bindings.filter BindingView.user⟩

end UnifierView

/-- The view of a constraint between two conjunctions. -/
def ConstraintView.ofSides? (store : AtomStore) (relation : Relation) (left right : AtomSet) :
    Option ConstraintView := do
  let left ← AtomView.ofSet? store left
  let right ← AtomView.ofSet? store right
  return { relation, left, right }

/-- The constraints of a goal with what they say, definitions first. -/
def Goal.relations (goal : Goal) : List (Relation × AtomSet × AtomSet) :=
  (goal.definitions.map fun e =>
    (if e.primitive then Relation.primitiveDefinition else .definition, {e.left}, e.right)) ++
  (goal.auxiliary.map fun e => (.flattening, {e.left}, e.right)) ++
  (goal.equations.map fun e => (.equation, {e.left}, e.right)) ++
  (goal.subsumptions.map fun s => (.subsumption, s.body, s.head)) ++
  (goal.disequations.map fun d => (.disequation, d.left, d.right)) ++
  (goal.dissubsumptions.map fun d => (.dissubsumption, d.body, d.head))

/-- The view of a goal. -/
def GoalView.ofGoal? (goal : Goal) : Option GoalView := do
  let constraints ← goal.relations.mapM fun (relation, left, right) =>
    ConstraintView.ofSides? goal.store relation left right
  return {
    userVariables := goal.userVariables.filterMap goal.store.symbol?
    constraints := constraints }

end ConceptUnification
