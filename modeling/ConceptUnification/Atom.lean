import ConceptUnification.OrderedSet

/-!
# Flat atoms

Goals are built from flat atoms: concept names, and existential restrictions whose filler is again
an atom. Atoms and roles are referred to by the numbers that a store gives them.
-/

namespace ConceptUnification

/-- The number of an atom in its store. -/
abbrev AtomId := Nat

/-- The number of a role in its store. -/
abbrev RoleId := Nat

/-- A flat atom. -/
inductive Atom where
  | name (symbol : String)
  /-- The elements that have a successor over the role in the filler. -/
  | restriction (role : RoleId) (filler : AtomId)
deriving DecidableEq, Hashable, Inhabited

/-- The part that a concept name plays in unification. -/
inductive NameKind where
  /-- A name that stands for itself. -/
  | constant
  /-- A variable that the caller wants solved. -/
  | userVariable
  /-- A name with a background definition. -/
  | definitionVariable
  /-- A variable introduced by flattening. -/
  | auxiliaryVariable
deriving DecidableEq, Hashable, Inhabited

/-- Every kind except `constant` is a kind of variable. -/
def NameKind.isVariable : NameKind → Bool
  | .constant => false
  | .userVariable | .definitionVariable | .auxiliaryVariable => true

/-- A flat conjunction: a finite set of atoms, where the empty set is the top concept. -/
abbrev AtomSet := OrderedSet AtomId compare

end ConceptUnification
