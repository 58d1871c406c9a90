import Std.Data.HashMap
import ConceptUnification.Assignment
import ConceptUnification.Formula
import ConceptUnification.Goal

/-!
# Propositional encoding of a goal

The formula of a goal is about literals of three kinds. A subsumer literal says that a non-variable
atom is a chosen subsumer of a variable. A subsumption literal says that the value of one atom lies
below that of another one. An order literal says that one variable depends on another one, which
serves to forbid cycles. Further variables witness disjunctions.

Subsumer literals come first. All other literals get their numbers when they are first used. A pair
of atoms whose subsumption literal is new is queued, and its literal is defined later by clauses
that may use further pairs. Each pair of atoms is queued at most once, which bounds the work.
-/

namespace ConceptUnification

/-- What a numbered literal stands for. -/
inductive LiteralMeaning where
  /-- The atom is a chosen subsumer of the variable. -/
  | subsumer (x atom : AtomId)
  /-- The value of the lower atom lies below that of the upper one. -/
  | subsumption (lower upper : AtomId)
  /-- The first variable depends on the second one. -/
  | order (x y : AtomId)
deriving DecidableEq, Hashable

/-- The literal of a possible subsumer. -/
structure SubsumerLiteral where
  name : AtomId
  atom : AtomId
  literal : Literal
  /-- Whether the variable is a user variable. -/
  user : Bool

/-- The formula of a goal with what is needed to read valuations. -/
structure Encoding where
  formula : Formula
  /-- All subsumer literals, by variable and then by atom. -/
  subsumers : List SubsumerLiteral
  /-- The number of pairs of atoms with a subsumption literal. -/
  subsumptionLiterals : Nat
deriving Inhabited

/-- An encoding under construction. -/
structure Encoder where
  formula : Formula := {}
  /-- The variables of the literals with a meaning. -/
  numbering : Std.HashMap LiteralMeaning Nat := ∅
  /-- The pairs whose subsumption literal is still to be defined, the last one first. -/
  queue : List (AtomId × AtomId) := []
  /-- The number of pairs that were ever queued. -/
  queued : Nat := 0

/-- A step of the encoding. -/
abbrev EncodeM := StateM Encoder

namespace Encoder

/-- A literal over a new variable. -/
def freshLiteral : EncodeM Literal :=
  modifyGet fun encoder =>
    let formula := encoder.formula.addVariable
    (.pos formula.variableCount, { encoder with formula })

/-- Adds a clause. -/
def addClause (clause : Clause) : EncodeM Unit :=
  modify fun encoder => { encoder with formula := encoder.formula.addClause clause }

/-- The literal with a meaning, over a new variable if there is none yet. Also says whether it is
new. -/
def literal (meaning : LiteralMeaning) : EncodeM (Literal × Bool) :=
  modifyGet fun encoder =>
    match encoder.numbering[meaning]? with
    | some var => ((.pos var, false), encoder)
    | none =>
      let formula := encoder.formula.addVariable
      ((.pos formula.variableCount, true),
        { encoder with
          formula
          numbering := encoder.numbering.insert meaning formula.variableCount })

/-- The literal that chooses a subsumer. -/
def subsumer (x atom : AtomId) : EncodeM Literal := do
  return (← literal (.subsumer x atom)).1

/-- The literal of a dependency. -/
def order (x y : AtomId) : EncodeM Literal := do
  return (← literal (.order x y)).1

/-- The literal of a subsumption between atoms. If it is new, the pair is queued. -/
def subsumption (lower upper : AtomId) : EncodeM Literal := do
  let (lit, fresh) ← literal (.subsumption lower upper)
  if fresh then
    modify fun encoder =>
      { encoder with queue := (lower, upper) :: encoder.queue, queued := encoder.queued + 1 }
  return lit

/-- For each conjunct, the literal that its value lies below that of an atom. -/
def conjunctsBelow (body : AtomSet) (atom : AtomId) : EncodeM (List Literal) :=
  body.toList.mapM (subsumption · atom)

/-- Encodes a positive subsumption. A non-variable head has to lie above some conjunct. If the head
is a variable, each of its subsumers has to. -/
def encodePositive (goal : Goal) (constraint : FlatSubsumption) : EncodeM Unit := do
  if constraint.head ∈ constraint.body then
    return ()
  if goal.store.isVariable constraint.head then
    goal.nonVariableAtoms.forM fun atom => do
      let chosen ← subsumer constraint.head atom
      addClause (chosen.negate :: (← conjunctsBelow constraint.body atom))
  else
    addClause (← conjunctsBelow constraint.body constraint.head)

/-- A literal that implies that a conjunction does not lie below another one: for one of the upper
atoms no conjunct lies below it, or below one of its subsumers if it is a variable. -/
def notBelow (goal : Goal) (body head : AtomSet) : EncodeM Literal := do
  let differs ← freshLiteral
  let witnesses ← head.toList.mapM fun upper => do
    let witness ← freshLiteral
    if goal.store.isVariable upper then
      let options ← goal.nonVariableAtoms.mapM fun atom => do
        let option ← freshLiteral
        let chosen ← subsumer upper atom
        addClause [option.negate, chosen]
        (← conjunctsBelow body atom).forM fun below =>
          addClause [option.negate, below.negate]
        return option
      addClause (witness.negate :: options)
    else
      (← conjunctsBelow body upper).forM fun below =>
        addClause [witness.negate, below.negate]
    return witness
  addClause (differs.negate :: witnesses)
  return differs

/-- Encodes a negative constraint. -/
def encodeNegative (goal : Goal) : NegativeConstraint → EncodeM Unit
  | .dissubsumption constraint => do
    addClause [← notBelow goal constraint.body constraint.head]
  | .disequation constraint => do
    let left ← notBelow goal constraint.left constraint.right
    let right ← notBelow goal constraint.right constraint.left
    addClause [left, right]

/-- Defines the literal that the value of `a` lies below that of the variable `y`: it lies below
each subsumer of `y`. -/
def defineBelowVariable (goal : Goal) (lit : Literal) (a y : AtomId) : EncodeM Unit := do
  let witnesses ← goal.nonVariableAtoms.mapM fun atom => do
    let chosen ← subsumer y atom
    let below ← subsumption a atom
    addClause [lit.negate, chosen.negate, below]
    let witness ← freshLiteral
    addClause [witness.negate, chosen]
    addClause [witness.negate, below.negate]
    return witness
  addClause (lit :: witnesses)

/-- Defines the literal that the value of the variable `x` lies below that of the non-variable atom
`b`: some subsumer of `x` does. -/
def defineVariableBelow (goal : Goal) (lit : Literal) (x b : AtomId) : EncodeM Unit := do
  let witnesses ← goal.nonVariableAtoms.mapM fun atom => do
    let chosen ← subsumer x atom
    let below ← subsumption atom b
    addClause [chosen.negate, below.negate, lit]
    let witness ← freshLiteral
    addClause [witness.negate, chosen]
    addClause [witness.negate, below]
    return witness
  addClause (lit.negate :: witnesses)

/-- Defines a subsumption literal. Between different non-variable atoms it can only hold for two
restrictions over one role, where it holds exactly if it does between the fillers. -/
def defineSubsumption (goal : Goal) (a b : AtomId) : EncodeM Unit := do
  let lit ← subsumption a b
  if a == b then
    addClause [lit]
  else if goal.store.isVariable b then
    defineBelowVariable goal lit a b
  else if goal.store.isVariable a then
    defineVariableBelow goal lit a b
  else
    match goal.store.restriction? a, goal.store.restriction? b with
    | some (role, lower), some (role', upper) =>
      if role == role' then
        let inner ← subsumption lower upper
        addClause [lit.negate, inner]
        addClause [lit, inner.negate]
      else addClause [lit.negate]
    | _, _ => addClause [lit.negate]

/-- Defines the queued subsumption literals until none is left, at most `steps` times. -/
def defineQueued (goal : Goal) : (steps : Nat) → EncodeM Unit
  | 0 => return ()
  | steps + 1 => do
    match (← get).queue with
    | [] => return ()
    | (a, b) :: rest =>
      modify fun encoder => { encoder with queue := rest }
      defineSubsumption goal a b
      defineQueued goal steps

/-- The variables that occur as fillers. Only they can lie on a cycle. -/
def fillerVariables (goal : Goal) : AtomSet :=
  .ofList ((goal.nonVariableAtoms.filterMap goal.store.restriction?).map Prod.snd |>.filter
    goal.store.isVariable)

/-- Requires dependency between fillers to follow from the chosen subsumers, to be transitive and to
hold between no variable and itself. -/
def encodeAcyclicity (goal : Goal) : EncodeM Unit := do
  let fillers := fillerVariables goal
  fillers.toList.forM fun x =>
    goal.nonVariableAtoms.forM fun atom => do
      match goal.store.restriction? atom with
      | none => return ()
      | some (_, y) =>
        if y ∈ fillers then
          let chosen ← subsumer x atom
          let depends ← order x y
          addClause [chosen.negate, depends]
  fillers.toList.forM fun x => do
    let self ← order x x
    addClause [self.negate]
    fillers.toList.forM fun y =>
      fillers.toList.forM fun z => do
        let xy ← order x y
        let yz ← order y z
        let xz ← order x z
        addClause [xy.negate, yz.negate, xz]

/-- The literals of all possible subsumers. -/
def subsumerLiterals (goal : Goal) : EncodeM (List SubsumerLiteral) := do
  let rows ← goal.allVariables.mapM fun x =>
    goal.nonVariableAtoms.mapM fun atom => do
      let literal ← subsumer x atom
      return ⟨x, atom, literal, goal.store.hasKind .userVariable x⟩
  return rows.flatten

/-- Encodes a goal. -/
def encode (goal : Goal) : EncodeM (List SubsumerLiteral) := do
  let subsumers ← subsumerLiterals goal
  goal.positiveSubsumptions.forM (encodePositive goal)
  goal.negativeConstraints.forM (encodeNegative goal)
  defineQueued goal (goal.store.size * goal.store.size)
  encodeAcyclicity goal
  return subsumers

end Encoder

namespace Encoding

/-- The encoding of a goal. -/
def ofGoal (goal : Goal) : Encoding :=
  let (subsumers, encoder) := (Encoder.encode goal).run {}
  { formula := encoder.formula
    subsumers := subsumers
    subsumptionLiterals := encoder.queued }

/-- The encoding with one more clause. -/
def addClause (encoding : Encoding) (clause : Clause) : Encoding :=
  { encoding with formula := encoding.formula.addClause clause }

/-- The subsumer literals that a valuation makes true. -/
def chosen (encoding : Encoding) (valuation : Valuation) : List SubsumerLiteral :=
  encoding.subsumers.filter fun s => valuation.holds s.literal

/-- The assignment that a valuation chooses. -/
def decode (encoding : Encoding) (valuation : Valuation) : Assignment :=
  .ofList ((encoding.chosen valuation).map fun s => (s.name, s.atom))

end Encoding

end ConceptUnification
