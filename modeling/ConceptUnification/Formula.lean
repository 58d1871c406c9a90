/-!
# Propositional formulas

Formulas in conjunctive normal form over the variables `1` to `variableCount`, and their
satisfaction by valuations. A literal is also written as an integer: `v` for a variable and `-v` for
its negation.
-/

namespace ConceptUnification

/-- A propositional variable or its negation. -/
structure Literal where
  var : Nat
  /-- Whether the variable is not negated. -/
  positive : Bool
deriving DecidableEq, Hashable, Inhabited

namespace Literal

/-- The literal that holds exactly if the variable does. -/
def pos (var : Nat) : Literal := ⟨var, true⟩

/-- The literal that holds exactly if this one does not. -/
def negate (literal : Literal) : Literal :=
  { literal with positive := !literal.positive }

/-- The literal as an integer. -/
def toInt (literal : Literal) : Int :=
  if literal.positive then literal.var else -literal.var

/-- The literal that an integer stands for. -/
def ofInt (value : Int) : Literal := ⟨value.natAbs, 0 < value⟩

end Literal

/-- A disjunction of literals. -/
abbrev Clause := List Literal

/-- A conjunction of clauses. -/
structure Formula where
  /-- The variables are the numbers from one up to this one. -/
  variableCount : Nat := 0
  /-- The clauses in the order in which they were added. -/
  clauses : Array Clause := #[]
deriving DecidableEq, Inhabited

namespace Formula

/-- The formula with one more variable. -/
def addVariable (formula : Formula) : Formula :=
  { formula with variableCount := formula.variableCount + 1 }

/-- The formula with one more clause. -/
def addClause (formula : Formula) (clause : Clause) : Formula :=
  { formula with clauses := formula.clauses.push clause }

end Formula

/-- Truth values of propositional variables. -/
abbrev Valuation := Nat → Bool

namespace Valuation

/-- The valuation that makes exactly the variables of a list true. -/
def ofTrue (chosen : List Nat) : Valuation :=
  fun v => chosen.contains v

/-- The valuation that differs at most at one variable. -/
def set (valuation : Valuation) (var : Nat) (value : Bool) : Valuation :=
  fun v => if v = var then value else valuation v

/-- Whether a literal is true. -/
def holds (valuation : Valuation) (literal : Literal) : Bool :=
  valuation literal.var == literal.positive

/-- Whether some literal of a clause is true. -/
def holdsClause (valuation : Valuation) (clause : Clause) : Bool :=
  clause.any valuation.holds

/-- Whether all clauses of a formula are true. -/
def satisfies (valuation : Valuation) (formula : Formula) : Bool :=
  formula.clauses.all valuation.holdsClause

end Valuation

end ConceptUnification
