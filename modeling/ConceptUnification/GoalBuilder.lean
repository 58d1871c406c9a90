import ConceptUnification.Config
import ConceptUnification.Goal
import ConceptUnification.Ontology

/-!
# Flattening

`GoalBuilder` collects constraints between nested terms and reduces each side to a flat conjunction
of atoms. What stands below a role and is more than a concept name is abbreviated by an auxiliary
variable, which stands for the same conjunction wherever that occurs. The definition of a concept
name is imported when the name is first met.

Imports end although definitions may be cyclic: the definition of a name is taken out of the
available ones before its body is flattened.
-/

namespace ConceptUnification

/-- A goal under construction. -/
structure GoalBuilder where
  background : Ontology Term
  /-- Ends the name of the constant for the undefined part of a primitive definition. -/
  undefinedEnding : String
  /-- Begins the names of auxiliary variables. -/
  auxiliaryStem : String
  store : AtomStore := ∅
  definitions : List Equation := []
  auxiliary : List Equation := []
  equations : List Equation := []
  subsumptions : List Subsumption := []
  disequations : List Disequation := []
  dissubsumptions : List Dissubsumption := []
  /-- The names whose definition is imported or being imported. -/
  imported : List AtomId := []
  /-- The least number that no auxiliary name has tried yet. -/
  nextAuxiliary : Nat := 0
  /-- The names declared as user variables. -/
  userVariables : List AtomId := []
  /-- The first failure. Nothing is added after it. -/
  failure : Option UnificationError := none
deriving Inhabited

/-- A flattening step changes the builder and may meet a term that is no concept. -/
abbrev FlattenM := ExceptT MalformedTerm (StateM GoalBuilder)

namespace GoalBuilder

/-- A builder over a background, with the settings for invented names. -/
def new (background : Ontology Term) (config : Config) : GoalBuilder where
  background := background
  undefinedEnding := config.undefinedEnding
  auxiliaryStem := config.auxiliaryStem

/-- The least number from `index` on whose auxiliary name is not taken. -/
def freshIndex (stem : String) (taken : List String) (index : Nat) : Nat :=
  if stem ++ toString index ∈ taken then
    freshIndex stem (taken.erase (stem ++ toString index)) (index + 1)
  else index
termination_by taken.length
decreasing_by
  next member =>
    have positive := List.length_pos_of_mem member
    rw [List.length_erase_of_mem member]
    omega

/-- The number of a concept name, which is stored if it is new. -/
def internName (symbol : String) : StateM GoalBuilder AtomId :=
  modifyGet fun builder =>
    let (id, store) := builder.store.internName symbol
    (id, { builder with store })

/-- The auxiliary variable that stands for a conjunction. -/
def abbreviate (conjunction : AtomSet) : StateM GoalBuilder AtomId :=
  modifyGet fun builder =>
    match builder.auxiliary.find? (·.right == conjunction) with
    | some equation => (equation.left, builder)
    | none =>
      let index := freshIndex builder.auxiliaryStem builder.store.symbols builder.nextAuxiliary
      let (id, store) := builder.store.internName (builder.auxiliaryStem ++ toString index)
      (id, { builder with
        store := store.setKind id .auxiliaryVariable
        nextAuxiliary := index + 1
        auxiliary := builder.auxiliary ++ [⟨id, conjunction, false⟩] })

/-- A single atom stands for itself, and any other conjunction is abbreviated. -/
def singleAtom (conjunction : AtomSet) : StateM GoalBuilder AtomId :=
  match conjunction.single? with
  | some id => return id
  | none => abbreviate conjunction

/-- A single concept name stands for itself, and any other conjunction is abbreviated. -/
def singleName (conjunction : AtomSet) : StateM GoalBuilder AtomId := do
  match conjunction.single? with
  | some id =>
    if ((← get).store.symbol? id).isSome then return id else abbreviate conjunction
  | none => abbreviate conjunction

/-- The number of a restriction, which is stored if it is new. -/
def internRestriction (role : String) (filler : AtomId) : FlattenM AtomId := do
  let (id, store) ← (← get).store.internRestriction role filler
  modify fun builder => { builder with store }
  return id

/-- Marks a name as defined before its definition is flattened. -/
def beginImport (id : AtomId) : StateM GoalBuilder Unit :=
  modify fun builder =>
    { builder with
      imported := builder.imported ++ [id]
      store := builder.store.setKind id .definitionVariable }

/-- Adds the equation of a definition. The body of a primitive one is completed by the undefined
part of its name, which is a name of its own and is not looked up among the definitions. -/
def finishImport (id : AtomId) (symbol : String) (body : AtomSet) (primitive : Bool) :
    StateM GoalBuilder Unit := do
  let right ←
    if primitive then do
      let undefinedPart ← internName (symbol ++ (← get).undefinedEnding)
      pure (insert undefinedPart body)
    else pure body
  modify fun builder =>
    { builder with definitions := builder.definitions ++ [⟨id, right, primitive⟩] }

mutual

/-- Flattens a term into a conjunction of atoms, importing definitions from the available ones. -/
def flattenWith (available : Ontology Term) : Term → FlattenM AtomSet
  | .name symbol => do return {← nameWith available symbol}
  | .conjunction parts => flattenAllWith available parts
  | .restriction role filler => do
    let flat ← flattenWith available filler
    return {← internRestriction role (← singleName flat)}
  | .unreadable => throw .unreadable
termination_by term => (available.size, sizeOf term)

/-- Flattens the parts of a conjunction from left to right. -/
def flattenAllWith (available : Ontology Term) : List Term → FlattenM AtomSet
  | [] => return ∅
  | part :: parts => do
    let first ← flattenWith available part
    let others ← flattenAllWith available parts
    return first ∪ others
termination_by parts => (available.size, sizeOf parts)

/-- The number of a concept name, whose definition is imported if that has not been done. -/
def nameWith (available : Ontology Term) (symbol : String) : FlattenM AtomId := do
  let id ← internName symbol
  if id ∈ (← get).imported then
    return id
  match _found : available.find? symbol with
  | none => return id
  | some definition =>
    beginImport id
    let body ← flattenWith (available.erase symbol) definition.body
    finishImport id symbol body definition.primitive
    return id
termination_by (available.size, 0)
decreasing_by
  exact Prod.Lex.left _ _ (Ontology.size_erase_lt _found)

end

/-- Flattens a term into a conjunction of atoms. -/
def flatten (term : Term) : FlattenM AtomSet := do
  flattenWith (← get).background term

/-- Runs a step unless an earlier one failed. A failure is remembered, and what the step did before
it stays. -/
def attempt (step : FlattenM Unit) (builder : GoalBuilder) :
    Except UnificationError Unit × GoalBuilder :=
  match builder.failure with
  | some failure => (.error failure, builder)
  | none =>
    match step.run.run builder with
    | (.ok (), builder) => (.ok (), builder)
    | (.error reason, builder) =>
      (.error (.malformedTerm reason), { builder with failure := some (.malformedTerm reason) })

/-- Requires two terms to be equivalent. -/
def addEquation (left right : Term) : GoalBuilder → Except UnificationError Unit × GoalBuilder :=
  attempt do
    let flatLeft ← flatten left
    let right ← flatten right
    let left ← singleAtom flatLeft
    modify fun builder => { builder with equations := builder.equations ++ [⟨left, right, false⟩] }

/-- Requires the body to lie below the head. -/
def addSubsumption (body head : Term) : GoalBuilder → Except UnificationError Unit × GoalBuilder :=
  attempt do
    let body ← flatten body
    let head ← flatten head
    modify fun builder => { builder with subsumptions := builder.subsumptions ++ [⟨body, head⟩] }

/-- Forbids two terms to be equivalent. -/
def addDisequation (left right : Term) :
    GoalBuilder → Except UnificationError Unit × GoalBuilder :=
  attempt do
    let left ← flatten left
    let right ← flatten right
    modify fun builder => { builder with disequations := builder.disequations ++ [⟨left, right⟩] }

/-- Forbids the body to lie below the head. -/
def addDissubsumption (body head : Term) :
    GoalBuilder → Except UnificationError Unit × GoalBuilder :=
  attempt do
    let body ← flatten body
    let head ← flatten head
    modify fun builder =>
      { builder with dissubsumptions := builder.dissubsumptions ++ [⟨body, head⟩] }

/-- Declares a concept name as user variable. The declaration takes effect in the finished goal and
is stronger than any other kind of the name. -/
def declareUserVariable (symbol : String) (builder : GoalBuilder) : AtomId × GoalBuilder :=
  let (id, store) := builder.store.internName symbol
  (id, { builder with store, userVariables := builder.userVariables ++ [id] })

/-- The finished goal, or the first failure. -/
def build (builder : GoalBuilder) : Except UnificationError Goal :=
  match builder.failure with
  | some failure => .error failure
  | none =>
    .ok
      { store := builder.userVariables.foldl (fun store id => store.setKind id .userVariable)
          builder.store
        definitions := builder.definitions
        auxiliary := builder.auxiliary
        equations := builder.equations
        subsumptions := builder.subsumptions
        disequations := builder.disequations
        dissubsumptions := builder.dissubsumptions }

end GoalBuilder

end ConceptUnification
