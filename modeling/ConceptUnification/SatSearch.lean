import ConceptUnification.Encoding
import ConceptUnification.Engine
import ConceptUnification.Oracle
import ConceptUnification.Statistics

/-!
# Enumeration of satisfying assignments

A goal is encoded once. Each request asks the oracle for a valuation of the formula, reads a unifier
off it, and adds a clause that blocks what the valuation stands for. In mode `all` these are the
values of the literals of user variables. In mode `minimal` the valuation is first shrunk until no
valuation makes strictly fewer subsumer literals true, and all supersets of its subsumers are
blocked.
-/

namespace ConceptUnification

/-- Which satisfying assignments are enumerated. -/
inductive SatMode where
  /-- One for each choice of subsumers of the user variables. -/
  | all
  /-- Those whose set of subsumers is minimal. -/
  | minimal
deriving DecidableEq, Inhabited

/-- The state of an enumeration with an oracle of type `ω`. -/
structure SatSearch (ω : Type) where
  goal : Goal
  mode : SatMode
  /-- The formula of the goal, with the clauses that block earlier solutions. -/
  encoding : Encoding
  oracle : ω
  /-- How many questions one request may put to the oracle, where zero sets no limit. -/
  stepLimit : Nat
  exhausted : Bool := false
  /-- Why the oracle failed. Later requests fail for the same reason. -/
  failure : Option String := none
  stats : SatStats

namespace Encoding

/-- The formula that allows only valuations with strictly fewer subsumers: all literals that are
false stay false, and one that is true becomes false. -/
def strictlyBelow (encoding : Encoding) (valuation : Valuation) : Formula :=
  let chosen := (encoding.chosen valuation).map SubsumerLiteral.literal
  let unchosen := (encoding.subsumers.filter fun s => !valuation.holds s.literal).map
    SubsumerLiteral.literal
  (unchosen.foldl (fun formula literal => formula.addClause [literal.negate])
    encoding.formula).addClause (chosen.map Literal.negate)

/-- The clause that blocks a valuation. -/
def blockingClause (encoding : Encoding) (mode : SatMode) (valuation : Valuation) : Clause :=
  match mode with
  | .minimal => (encoding.chosen valuation).map fun s => s.literal.negate
  | .all => (encoding.subsumers.filter (·.user)).map fun s =>
      if valuation.holds s.literal then s.literal.negate else s.literal

end Encoding

namespace SatSearch

variable {ω : Type}

/-- An enumeration at its start. -/
def new (goal : Goal) (mode : SatMode) (oracle : ω) (stepLimit : Nat) : SatSearch ω :=
  let encoding := Encoding.ofGoal goal
  { goal := goal
    mode := mode
    encoding := encoding
    oracle := oracle
    stepLimit := stepLimit
    stats :=
      { variableCount := encoding.formula.variableCount
        clauses := encoding.formula.clauses.size
        subsumptionLiterals := encoding.subsumptionLiterals } }

/-- The name of the enumeration. -/
def name (search : SatSearch ω) : String :=
  match search.mode with
  | .all => "sat"
  | .minimal => "sat-minimal"

variable [Oracle ω]

/-- Puts a question to the oracle, where `steps` questions were put before in the same request. The
cancel flag and the limit are looked at first. -/
def ask (cancelled : CancelSchedule) (steps : Nat) (formula : Formula) (search : SatSearch ω) :
    Except UnificationError SatOutcome × SatSearch ω :=
  if cancelled steps then (.error .interrupted, search)
  else if search.stepLimit != 0 && search.stepLimit ≤ steps then
    (.error (.stepLimitExceeded search.stepLimit), search)
  else
    let search :=
      { search with stats := { search.stats with oracleCalls := search.stats.oracleCalls + 1 } }
    match Oracle.solve formula search.oracle with
    | (.ok outcome, oracle) => (.ok outcome, { search with oracle })
    | (.error reason, oracle) =>
      (.error (.oracleFailure reason), { search with oracle, failure := some reason })

/-- Shrinks a valuation until the oracle finds none with strictly fewer subsumers. An answer that
has no fewer subsumers, which no correct oracle gives, ends the shrinking. -/
def shrink (cancelled : CancelSchedule) (encoding : Encoding) (steps : Nat) (valuation : Valuation)
    (search : SatSearch ω) : Except UnificationError Valuation × SatSearch ω :=
  if (encoding.chosen valuation).isEmpty then (.ok valuation, search)
  else
    let search :=
      { search with
        stats := { search.stats with minimizationCalls := search.stats.minimizationCalls + 1 } }
    match search.ask cancelled steps (encoding.strictlyBelow valuation) with
    | (.error error, search) => (.error error, search)
    | (.ok .unsatisfiable, search) => (.ok valuation, search)
    | (.ok (.satisfiable smaller), search) =>
      if (encoding.chosen smaller).length < (encoding.chosen valuation).length then
        shrink cancelled encoding (steps + 1) smaller search
      else (.ok smaller, search)
termination_by (encoding.chosen valuation).length

/-- The valuation that the next unifier is read off, if there is one. -/
def nextValuation (cancelled : CancelSchedule) (search : SatSearch ω) :
    Except UnificationError (Option Valuation) × SatSearch ω :=
  match search.ask cancelled 0 search.encoding.formula with
  | (.error error, search) => (.error error, search)
  | (.ok .unsatisfiable, search) => (.ok none, search)
  | (.ok (.satisfiable valuation), search) =>
    match search.mode with
    | .all => (.ok (some valuation), search)
    | .minimal =>
      match search.shrink cancelled search.encoding 1 valuation with
      | (.error error, search) => (.error error, search)
      | (.ok smallest, search) => (.ok (some smallest), search)

/-- Blocks a valuation. If nothing is left to tell further valuations apart, there are no more
solutions. -/
def block (valuation : Valuation) (search : SatSearch ω) : SatSearch ω :=
  let search := { search with stats := { search.stats with models := search.stats.models + 1 } }
  let clause := search.encoding.blockingClause search.mode valuation
  if clause.isEmpty then { search with exhausted := true }
  else
    let encoding := search.encoding.addClause clause
    { search with
      encoding := encoding
      stats :=
        { search.stats with
          blockingClauses := search.stats.blockingClauses + 1
          clauses := encoding.formula.clauses.size } }

/-- The next unifier. -/
def next (cancelled : CancelSchedule) (search : SatSearch ω) : Answer × SatSearch ω :=
  match search.failure with
  | some reason => (.error (.oracleFailure reason), search)
  | none =>
    if search.exhausted then (.ok none, search)
    else
      match search.nextValuation cancelled with
      | (.error error, search) => (.error error, search)
      | (.ok none, search) => (.ok none, { search with exhausted := true })
      | (.ok (some valuation), search) =>
        let unifier := Unifier.ofAssignment search.goal (search.encoding.decode valuation)
        (.ok (some unifier), search.block valuation)

instance : Engine (SatSearch ω) where
  name := name
  next := next
  info search := search.stats.info

end SatSearch

end ConceptUnification
