/-!
# Configuration

Which engine enumerates the unifiers, how many steps one call may take, and how the names that
flattening invents are formed.
-/

namespace ConceptUnification

/-- The engines that enumerate unifiers. -/
inductive Algorithm where
  /-- Backtracking search with eager and branching rules. -/
  | rule
  /-- Satisfying assignments, one for each pattern of the user variables. -/
  | sat
  /-- Satisfying assignments with as few subsumers as possible. -/
  | satMinimal
deriving DecidableEq, Inhabited

namespace Algorithm

/-- The engines in the order in which they are listed to users. -/
def all : List Algorithm := [.rule, .sat, .satMinimal]

/-- The name of an engine. -/
def text : Algorithm → String
  | .rule => "rule"
  | .sat => "sat"
  | .satMinimal => "sat-minimal"

/-- The engine with a given name. -/
def ofText? (text : String) : Option Algorithm :=
  all.find? (·.text == text)

/-- Tells a user which names there are. -/
def unknownMessage (text : String) : String :=
  "unknown algorithm '" ++ text ++ "', expected one of " ++
    ", ".intercalate (all.map Algorithm.text)

end Algorithm

/-- Settings shared by the construction of goals and the engines. -/
structure Config where
  algorithm : Algorithm := .rule
  /-- How many nodes or oracle calls one request may use, where zero sets no limit. -/
  stepLimit : Nat := 0
  /-- Ends the name of the constant for the undefined part of a primitive definition. -/
  undefinedEnding : String := "_UNDEF"
  /-- Begins the names of variables introduced by flattening. -/
  auxiliaryStem : String := "VAR"
deriving DecidableEq, Inhabited

end ConceptUnification
