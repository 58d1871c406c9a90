import ConceptUnification.Assignment
import ConceptUnification.Goal
import ConceptUnification.Substitution

/-!
# Unifiers

A unifier binds every variable of a goal to a flat conjunction of non-variable atoms, and gives
atoms the values that they have when these bindings are expanded. It satisfies a goal if the values
of the two sides of each constraint are related as the constraint says. A question about values that
do not exist has no answer.
-/

namespace ConceptUnification

/-- A mapping of variables to flat conjunctions. -/
structure Unifier where
  /-- The bindings by increasing variable. -/
  bindings : List Binding
deriving DecidableEq, Inhabited

/-- The values of the user variables. Unifiers with equal keys differ at most in other variables. -/
abbrev UnifierKey := List (AtomId × NormalConcept)

namespace Substitution

/-- Whether a flat subsumption holds between the values of its sides. -/
def solves? (substitution : Substitution) (subsumption : FlatSubsumption) : Option Bool := do
  let body ← substitution.conjunction? subsumption.body
  let head ← substitution.atom? subsumption.head
  return body.isBelow head

/-- Whether a disequation or dissubsumption holds between the values of its sides. -/
def separates? (substitution : Substitution) : NegativeConstraint → Option Bool
  | .disequation constraint => do
    let left ← substitution.conjunction? constraint.left
    let right ← substitution.conjunction? constraint.right
    return !left.isEquivalent right
  | .dissubsumption constraint => do
    let body ← substitution.conjunction? constraint.body
    let head ← substitution.conjunction? constraint.head
    return !body.isBelow head

end Substitution

namespace Unifier

/-- The binding of a variable. -/
def binding? (unifier : Unifier) (name : AtomId) : Option Binding :=
  unifier.bindings.find? (·.name == name)

/-- The values of the variables of a store. -/
def substitution (unifier : Unifier) (store : AtomStore) : Substitution :=
  .ofBindings store unifier.bindings

/-- The value of an atom as a normal form without bound variables. -/
def expand? (unifier : Unifier) (store : AtomStore) (id : AtomId) : Option NormalConcept :=
  (unifier.substitution store).atom? id

/-- Whether the value of `other` makes `atom` redundant beside it. Of two atoms with equivalent
values the one with the smaller number stays. -/
def absorbs (value? : AtomId → Option NormalConcept) (other atom : AtomId) : Bool :=
  match value? other, value? atom with
  | some otherValue, some value =>
    other != atom && otherValue.isBelow value && !(value.isBelow otherValue && atom < other)
  | _, _ => false

/-- Leaves out the atoms that another atom of the conjunction makes redundant. -/
def prune (value? : AtomId → Option NormalConcept) (conjunction : AtomSet) : AtomSet :=
  conjunction.filter fun atom => !conjunction.toList.any fun other => absorbs value? other atom

/-- Maps every variable of a goal to its chosen subsumers, without redundant ones. A variable
without subsumers is mapped to the top concept. -/
def ofAssignment (goal : Goal) (assignment : Assignment) : Unifier :=
  let chosen := goal.allVariables.map fun x => Binding.mk x (assignment.subsumers x)
  let substitution := Substitution.ofBindings goal.store chosen
  ⟨chosen.map fun binding =>
    let values := binding.conjunction.toList.map fun atom => (atom, substitution.atom? atom)
    { binding with
      conjunction := prune (fun atom => (values.lookup atom).join) binding.conjunction }⟩

/-- Whether all equations and subsumptions of a goal hold. -/
def solvesPositive? (unifier : Unifier) (goal : Goal) : Option Bool :=
  goal.positiveSubsumptions.allM (unifier.substitution goal.store).solves?

/-- Whether all disequations and dissubsumptions of a goal hold. -/
def respectsNegative? (unifier : Unifier) (goal : Goal) : Option Bool :=
  goal.negativeConstraints.allM (unifier.substitution goal.store).separates?

/-- Whether all constraints of a goal hold. -/
def satisfies? (unifier : Unifier) (goal : Goal) : Option Bool := do
  if ← unifier.solvesPositive? goal then unifier.respectsNegative? goal else return false

/-- The values of the user variables of a goal. -/
def userKey? (unifier : Unifier) (goal : Goal) : Option UnifierKey :=
  let substitution := unifier.substitution goal.store
  goal.userVariables.mapM fun x => (substitution.atom? x).map (x, ·)

end Unifier

end ConceptUnification
