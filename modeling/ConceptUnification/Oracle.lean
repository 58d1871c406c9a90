import ConceptUnification.ClauseLearning

/-!
# Satisfiability oracles

An oracle decides whether a formula can be satisfied and if so gives a valuation. It may keep a
state and it may fail. One oracle is at hand, which searches by itself and never fails.
-/

namespace ConceptUnification

/-- What an oracle finds out about a formula. -/
inductive SatOutcome where
  /-- The formula is true under the valuation. -/
  | satisfiable (valuation : Valuation)
  /-- The formula is true under no valuation. -/
  | unsatisfiable
deriving Inhabited

/-- States that answer satisfiability questions. A failure comes with its reason. -/
class Oracle (ω : Type) where
  /-- The outcome for a formula, and the state in which to ask the next question. -/
  solve : Formula → ω → Except String SatOutcome × ω

/-- The oracle that searches for a valuation by a strategy. -/
structure SearchOracle where
  /-- How the search decides. -/
  strategy : SearchStrategy

instance : Oracle SearchOracle where
  solve formula oracle :=
    match formula.solve? oracle.strategy with
    | some valuation => (.ok (.satisfiable valuation), oracle)
    | none => (.ok .unsatisfiable, oracle)

end ConceptUnification
