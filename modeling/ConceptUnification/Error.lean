import ConceptUnification.Atom

/-!
# Errors

Why a goal could not be built or a unifier could not be delivered. The causes are values, and
`UnificationError.message` is the one place that words them.
-/

namespace ConceptUnification

/-- Why a term is no concept, or a restriction no flat atom. -/
inductive MalformedTerm where
  /-- The term is neither a concept name, nor a conjunction, nor an existential restriction. -/
  | unreadable
  /-- The filler of a restriction over `role` is itself a restriction. -/
  | fillerNotName (role : String)
  /-- No atom has the number given as filler. -/
  | fillerUnknown (filler : AtomId)
deriving DecidableEq

/-- Why an atom keeps the kind that it has. -/
inductive KindRefusal where
  /-- A restriction was to become a variable. -/
  | restrictionAsVariable
  /-- A restriction was to become a constant. -/
  | restrictionAsConstant
  /-- Auxiliary variables belong to the flattening. -/
  | auxiliary
deriving DecidableEq

/-- Why an operation on goals, engines or sessions failed. -/
inductive UnificationError where
  /-- A term or restriction cannot be represented. -/
  | malformedTerm (reason : MalformedTerm)
  /-- The caller cancelled the computation. -/
  | interrupted
  /-- The satisfiability oracle gave up. -/
  | oracleFailure (reason : String)
  /-- One call used up its steps. -/
  | stepLimitExceeded (limit : Nat)
  /-- The atom with this written form cannot change its kind. -/
  | reclassification (atom : String) (reason : KindRefusal)
  /-- No concept name of the goal is written like this. -/
  | unknownConcept (symbol : String)
  /-- There is no unifier with this index. -/
  | indexOutOfRange (index length : Nat)
  /-- A session asked its engine as often as the caller allowed. -/
  | pullLimitReached
  /-- An engine delivered a unifier whose values are not concepts of the goal. -/
  | foreignUnifier
deriving DecidableEq

/-- The wording of a malformed term. -/
def MalformedTerm.message : MalformedTerm → String
  | .unreadable =>
    "argument is neither a concept name, nor a conjunction, nor an existential restriction"
  | .fillerNotName role =>
    "filler of existential restriction over '" ++ role ++ "' is not a concept name"
  | .fillerUnknown filler =>
    "filler #" ++ toString filler ++ " of existential restriction is not a known atom"

/-- The wording of a refused change of kind. -/
def KindRefusal.message : KindRefusal → String
  | .restrictionAsVariable => "existential restrictions cannot be variables"
  | .restrictionAsConstant => "existential restrictions are not concept names"
  | .auxiliary => "auxiliary variables are internal"

/-- The wording of an error. -/
def UnificationError.message : UnificationError → String
  | .malformedTerm reason => "Malformed term: " ++ reason.message
  | .interrupted => "Computation interrupted"
  | .oracleFailure reason => "SAT oracle failure: " ++ reason
  | .stepLimitExceeded limit => "Step limit of " ++ toString limit ++ " exceeded"
  | .reclassification atom reason => "Cannot reclassify " ++ atom ++ ": " ++ reason.message
  | .unknownConcept symbol => "Unknown concept name: " ++ symbol
  | .indexOutOfRange index length =>
    "Unifier index " ++ toString index ++ " out of range, " ++ toString length ++ " computed"
  | .pullLimitReached => "Engine asked as often as allowed"
  | .foreignUnifier => "Unifier of another goal"

instance : ToString UnificationError where
  toString := UnificationError.message

end ConceptUnification
