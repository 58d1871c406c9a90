import ConceptUnification.JsonValue
import ConceptUnification.SearchRule

/-!
# Statistics of the engines

Counters of what an engine has done so far, with their lists of labels and values for users and
their form in JSON.
-/

namespace ConceptUnification

/-- How often each rule was applied, with one entry for each rule that was. -/
abbrev RuleTally := List (Rule × Nat)

/-- The tally after one more application of a rule. -/
def RuleTally.record (rule : Rule) : RuleTally → RuleTally
  | [] => [(rule, 1)]
  | (other, count) :: tally =>
    if other == rule then (other, count + 1) :: tally else (other, count) :: record rule tally

/-- The entries by the name of the rule, in alphabetical order. -/
def RuleTally.byName (tally : RuleTally) : List (String × Nat) :=
  (tally.map fun (rule, count) => (rule.text, count)).mergeSort fun a b => !(b.1 < a.1)

/-- Counters of the rule search. -/
structure RuleStats where
  nodesExpanded : Nat := 0
  eagerApplications : Nat := 0
  branchesCreated : Nat := 0
  /-- Nodes and children that were given up. -/
  failedBranches : Nat := 0
  /-- Nodes that had been reached before. -/
  memoizedSkips : Nat := 0
  leaves : Nat := 0
  /-- Leaves that violate a negative constraint. -/
  rejectedLeaves : Nat := 0
  /-- Leaves whose assignment an earlier leaf had. -/
  repeatedLeaves : Nat := 0
  refinements : Nat := 0
  /-- The largest height of the stack after children were pushed. -/
  maxStackDepth : Nat := 0
  ruleCounts : RuleTally := []
deriving Inhabited

namespace RuleStats

/-- Counts the application of an eager rule. -/
def recordEager (rule : EagerRule) (stats : RuleStats) : RuleStats :=
  { stats with
    eagerApplications := stats.eagerApplications + 1
    ruleCounts := RuleTally.record (.eager rule) stats.ruleCounts }

/-- Counts a child pushed by branching. -/
def recordBranch (rule : BranchingRule) (stats : RuleStats) : RuleStats :=
  { stats with
    branchesCreated := stats.branchesCreated + 1
    ruleCounts := RuleTally.record (.branching rule) stats.ruleCounts }

/-- Takes note of a height of the stack. -/
def recordDepth (depth : Nat) (stats : RuleStats) : RuleStats :=
  { stats with maxStackDepth := max stats.maxStackDepth depth }

/-- The counters with their labels. -/
def info (stats : RuleStats) : List (String × String) :=
  [("Nodes expanded", toString stats.nodesExpanded),
    ("Eager rule applications", toString stats.eagerApplications),
    ("Branches created", toString stats.branchesCreated),
    ("Failed branches", toString stats.failedBranches),
    ("Memoized states skipped", toString stats.memoizedSkips),
    ("Leaves reached", toString stats.leaves),
    ("Leaves rejected", toString stats.rejectedLeaves),
    ("Leaves repeated", toString stats.repeatedLeaves),
    ("Refinements", toString stats.refinements),
    ("Maximum stack depth", toString stats.maxStackDepth)] ++
  (RuleTally.byName stats.ruleCounts).map fun (name, count) => ("Rule " ++ name, toString count)

/-- The counters in JSON. -/
def toJson (stats : RuleStats) : JsonValue :=
  .object [("nodes_expanded", .integer stats.nodesExpanded),
    ("eager_applications", .integer stats.eagerApplications),
    ("branches_created", .integer stats.branchesCreated),
    ("failed_branches", .integer stats.failedBranches),
    ("memoized_skips", .integer stats.memoizedSkips),
    ("leaves", .integer stats.leaves),
    ("rejected_leaves", .integer stats.rejectedLeaves),
    ("repeated_leaves", .integer stats.repeatedLeaves),
    ("refinements", .integer stats.refinements),
    ("max_stack_depth", .integer stats.maxStackDepth),
    ("rule_counts", .object ((RuleTally.byName stats.ruleCounts).map fun (name, count) =>
      (name, .integer count)))]

end RuleStats

/-- Counters of the enumeration of satisfying assignments. -/
structure SatStats where
  /-- Propositional variables of the encoding. -/
  variableCount : Nat := 0
  /-- Clauses, including those that block earlier solutions. -/
  clauses : Nat := 0
  /-- Literals that stand for a subsumption between two atoms. -/
  subsumptionLiterals : Nat := 0
  oracleCalls : Nat := 0
  /-- Questions put to shrink a solution. -/
  minimizationCalls : Nat := 0
  /-- Solutions found. -/
  models : Nat := 0
  blockingClauses : Nat := 0
deriving Inhabited

/-- The counters with their labels. -/
def SatStats.info (stats : SatStats) : List (String × String) :=
  [("Propositional variables", toString stats.variableCount),
    ("Clauses", toString stats.clauses),
    ("Subsumption literals", toString stats.subsumptionLiterals),
    ("Oracle calls", toString stats.oracleCalls),
    ("Minimization calls", toString stats.minimizationCalls),
    ("Models found", toString stats.models),
    ("Blocking clauses", toString stats.blockingClauses)]

/-- The counters in JSON. -/
def SatStats.toJson (stats : SatStats) : JsonValue :=
  .object [("variables", .integer stats.variableCount),
    ("clauses", .integer stats.clauses),
    ("subsumption_literals", .integer stats.subsumptionLiterals),
    ("oracle_calls", .integer stats.oracleCalls),
    ("minimization_calls", .integer stats.minimizationCalls),
    ("models", .integer stats.models),
    ("blocking_clauses", .integer stats.blockingClauses)]

end ConceptUnification
