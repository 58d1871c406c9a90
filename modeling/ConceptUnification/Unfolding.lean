import ConceptUnification.Goal
import ConceptUnification.NormalForm
import ConceptUnification.Concept

/-!
# Unfolding

Unfolding replaces auxiliary variables by the conjunctions that they abbreviate, which undoes
flattening. An auxiliary variable is younger than all atoms of its conjunction, and a restriction is
younger than its filler, so the recursion follows the numbers of the atoms downwards. A normal form
over the names and roles of a goal can also be written as a nested concept.
-/

namespace ConceptUnification

namespace Goal

/-- The conjunction that an auxiliary variable stands for. -/
def abbreviation? (goal : Goal) (id : AtomId) : Option AtomSet :=
  if goal.store.hasKind .auxiliaryVariable id then
    (goal.auxiliary.find? (·.left == id)).map Equation.right
  else none

mutual

/-- The normal form of an atom with its auxiliary variables replaced. There is no answer for an atom
that refers to itself or to a younger one, or that is not stored. -/
def unfoldAtom? (goal : Goal) (id : AtomId) : Option NormalConcept :=
  match goal.store.atom? id with
  | none => none
  | some (.restriction role filler) =>
    if filler < id then (unfoldAtom? goal filler).map (.restriction role) else none
  | some (.name _) =>
    match goal.abbreviation? id with
    | none => some (.name id)
    | some conjunction => (unfoldBelow? goal id conjunction.toList).map .conjunction
termination_by (2 * id + 1, 0)
decreasing_by
  · exact Prod.Lex.left _ _ (by grind)
  · exact Prod.Lex.left _ _ (by grind)

/-- The normal forms of atoms that are all older than `bound`. -/
def unfoldBelow? (goal : Goal) (bound : AtomId) (ids : List AtomId) : Option (List NormalConcept) :=
  match ids with
  | [] => some []
  | id :: rest =>
    if id < bound then
      match unfoldAtom? goal id with
      | none => none
      | some value => (unfoldBelow? goal bound rest).map (value :: ·)
    else none
termination_by (2 * bound, ids.length)
decreasing_by
  · exact Prod.Lex.left _ _ (by grind)
  · exact Prod.Lex.right _ (by simp)

end

/-- The normal form of a flat conjunction with its auxiliary variables replaced. -/
def unfoldSet? (goal : Goal) (conjunction : AtomSet) : Option NormalConcept :=
  (conjunction.toList.mapM goal.unfoldAtom?).map .conjunction

end Goal

mutual

/-- The nested concept of a normalised atom over the names and roles of a store. -/
def NormalAtom.toConcept? (store : AtomStore) : NormalAtom → Option Concept
  | .name id => (store.symbol? id).map .name
  | .restriction role filler =>
    match store.roleName? role, NormalAtom.toConcepts? store filler with
    | some roleName, some parts => some (.restriction roleName (.ofConjuncts parts))
    | _, _ => none

/-- The nested concepts of a list of normalised atoms. -/
def NormalAtom.toConcepts? (store : AtomStore) : List NormalAtom → Option (List Concept)
  | [] => some []
  | atom :: atoms =>
    match NormalAtom.toConcept? store atom, NormalAtom.toConcepts? store atoms with
    | some first, some others => some (first :: others)
    | _, _ => none

end

/-- The nested concept of a normal form over the names and roles of a store. A single atom stands
for itself. -/
def NormalConcept.toConcept? (store : AtomStore) (concept : NormalConcept) : Option Concept :=
  (NormalAtom.toConcepts? store concept.atoms).map .ofConjuncts

end ConceptUnification
