import ConceptUnification.AtomStore

/-!
# Flat goals

A goal is a set of constraints between flat conjunctions of stored atoms. Equations come from
background definitions, from abbreviations introduced by flattening and from the caller. The engines
work on `Goal.positiveSubsumptions`, which states every equation and subsumption with one head atom
at a time. Only the kinds of concept names can change in a finished goal.
-/

namespace ConceptUnification

/-- An atom that is equivalent to a conjunction. -/
structure Equation where
  left : AtomId
  right : AtomSet
  /-- The equation stands for a definition that only bounded the left side from above. -/
  primitive : Bool := false
deriving DecidableEq

/-- The body lies below the head. -/
structure Subsumption where
  body : AtomSet
  head : AtomSet
deriving DecidableEq

/-- The two sides must differ. -/
structure Disequation where
  left : AtomSet
  right : AtomSet
deriving DecidableEq

/-- The body must not lie below the head. -/
structure Dissubsumption where
  body : AtomSet
  head : AtomSet
deriving DecidableEq

/-- A constraint that no unifier may satisfy in the positive. -/
inductive NegativeConstraint where
  /-- The two sides must differ. -/
  | disequation (constraint : Disequation)
  /-- The body must not lie below the head. -/
  | dissubsumption (constraint : Dissubsumption)

/-- A subsumption with a single atom as head. -/
structure FlatSubsumption where
  body : AtomSet
  head : AtomId
deriving DecidableEq, Hashable

/-- A flat unification goal. -/
structure Goal where
  /-- The atoms of the goal and their kinds. -/
  store : AtomStore
  /-- Background definitions, in the order in which they were imported. -/
  definitions : List Equation
  /-- Definitions of auxiliary variables, in the order of their introduction. -/
  auxiliary : List Equation
  equations : List Equation
  subsumptions : List Subsumption
  disequations : List Disequation
  dissubsumptions : List Dissubsumption
deriving Inhabited

/-- The two directions of an equation, with one head atom at a time. -/
def Equation.flat (equation : Equation) : List FlatSubsumption :=
  ⟨equation.right, equation.left⟩ ::
    equation.right.toList.map fun atom => ⟨{equation.left}, atom⟩

/-- A subsumption with one head atom at a time. -/
def Subsumption.flat (subsumption : Subsumption) : List FlatSubsumption :=
  subsumption.head.toList.map fun atom => ⟨subsumption.body, atom⟩

namespace Goal

/-- Definitions, abbreviations and the caller's equations, in this order. -/
def allEquations (goal : Goal) : List Equation :=
  goal.definitions ++ goal.auxiliary ++ goal.equations

/-- All disequations, followed by all dissubsumptions. -/
def negativeConstraints (goal : Goal) : List NegativeConstraint :=
  goal.disequations.map .disequation ++ goal.dissubsumptions.map .dissubsumption

/-- Whether there is any disequation or dissubsumption. -/
def hasNegative (goal : Goal) : Bool :=
  !goal.disequations.isEmpty || !goal.dissubsumptions.isEmpty

/-- All equations and subsumptions with one head atom at a time. Of equal ones the first is kept. -/
def positiveSubsumptions (goal : Goal) : List FlatSubsumption :=
  (goal.allEquations.flatMap Equation.flat ++ goal.subsumptions.flatMap Subsumption.flat).eraseDups

/-- The concept names of a given kind, in increasing order. -/
def namesOfKind (goal : Goal) (kind : NameKind) : List AtomId :=
  goal.store.ids.filter (goal.store.hasKind kind)

/-- The variables in increasing order. -/
def allVariables (goal : Goal) : List AtomId :=
  goal.store.ids.filter goal.store.isVariable

/-- The variables that the caller wants solved, in increasing order. -/
def userVariables (goal : Goal) : List AtomId :=
  goal.namesOfKind .userVariable

/-- The restrictions in increasing order. -/
def restrictions (goal : Goal) : List AtomId :=
  goal.store.ids.filter goal.store.isRestriction

/-- Constants and restrictions in increasing order. These are the atoms that can be subsumers of a
variable. -/
def nonVariableAtoms (goal : Goal) : List AtomId :=
  goal.store.ids.filter fun id => !goal.store.isVariable id

/-- Gives a stored atom another kind, or says why it keeps its own. There is no answer for a number
that no atom has. -/
def reclassify? (goal : Goal) (id : AtomId) (kind : NameKind) (refusal : KindRefusal) :
    Option (Except UnificationError Goal) := do
  let text ← goal.store.text? id
  match goal.store.kind? id with
  | none => return .error (.reclassification text refusal)
  | some .auxiliaryVariable => return .error (.reclassification text .auxiliary)
  | some _ => return .ok { goal with store := goal.store.setKind id kind }

/-- Makes a constant or a definition variable a user variable. -/
def makeUserVariable? (goal : Goal) (id : AtomId) : Option (Except UnificationError Goal) :=
  goal.reclassify? id .userVariable .restrictionAsVariable

/-- Makes a user variable or a definition variable a constant. -/
def makeConstant? (goal : Goal) (id : AtomId) : Option (Except UnificationError Goal) :=
  goal.reclassify? id .constant .restrictionAsConstant

/-- Makes the concept name with a given symbol a user variable. -/
def makeUserVariableNamed (goal : Goal) (symbol : String) :
    Except UnificationError (AtomId × Goal) :=
  match goal.store.findName? symbol with
  | none => .error (.unknownConcept symbol)
  | some id =>
    match goal.makeUserVariable? id with
    | none => .error (.unknownConcept symbol)
    | some outcome => outcome.map fun changed => (id, changed)

end Goal

end ConceptUnification
