import Std.Data.HashSet
import ConceptUnification.Formula

/-!
# Search with learned clauses

A search gives values to the variables of a formula. It decides for a literal and then draws
consequences: a clause whose other literals are all false forces its last one. The level of a value
is the number of decisions that were made before it. Each clause watches two of its literals and is
looked at only if one of them becomes false.

If a clause becomes false, it is resolved with the clauses that forced its literals, until it holds
only one literal of the last level. The result follows from the formula. It is learned, and the
search goes back to the first level at which it forces this literal. A clause that becomes false
without any decision shows that the formula cannot be satisfied.

A search that decides for the preferred value of the least variable without a value finds the first
satisfying valuation when valuations are compared at the least variable in which they differ and the
preferred value comes first. For a value that is not preferred is forced, which makes it follow from
the preferred values of smaller variables. A search that first serves the clauses that it learned
last may find another valuation, but often does so sooner.
-/

namespace ConceptUnification

/-- The value of a variable, with its origin. -/
structure VariableValue where
  value : Bool
  /-- The number of decisions that were made before. -/
  level : Nat
  /-- The clause that forced the value. It is empty for a decision. -/
  reason : Clause

/-- The values that the variables have so far. -/
abbrev PartialValuation := Array (Option VariableValue)

namespace PartialValuation

/-- The value of a variable, if it has one. -/
@[inline]
def get? (values : PartialValuation) (var : Nat) : Option VariableValue :=
  (values[var]?).join

/-- Whether a literal is true. -/
@[inline]
def isTrue (values : PartialValuation) (literal : Literal) : Bool :=
  (values.get? literal.var).any (·.value == literal.positive)

/-- Whether a literal is false. -/
@[inline]
def isFalse (values : PartialValuation) (literal : Literal) : Bool :=
  (values.get? literal.var).any (·.value != literal.positive)

/-- The level of the value of a literal. -/
def level (values : PartialValuation) (literal : Literal) : Nat :=
  ((values.get? literal.var).map VariableValue.level).getD 0

/-- The literal of the highest level in a list, the first one of these. -/
def highest? (values : PartialValuation) : List Literal → Option Literal
  | [] => none
  | literal :: literals =>
    match values.highest? literals with
    | some other => if values.level literal < values.level other then other else literal
    | none => literal

end PartialValuation

/-- The literals of a clause that is being learned. -/
structure Resolvent where
  /-- The variables that it holds or held. -/
  seen : Std.HashSet Nat := ∅
  /-- The number of its literals of the last level. -/
  recent : Nat := 0
  earlier : Clause := []

namespace Resolvent

/-- Adds a literal, unless its variable was met before or has its value without any decision. -/
def add (values : PartialValuation) (lastLevel : Nat) (resolvent : Resolvent) (literal : Literal) :
    Resolvent :=
  let level := values.level literal
  if level == 0 || resolvent.seen.contains literal.var then resolvent
  else
    let resolvent := { resolvent with seen := resolvent.seen.insert literal.var }
    if level == lastLevel then { resolvent with recent := resolvent.recent + 1 }
    else { resolvent with earlier := literal :: resolvent.earlier }

/-- Resolves with the reasons of the literals of a trail, the last one first, until one literal of
the last level is left. Answers this literal and the others. -/
def resolve? (values : PartialValuation) (lastLevel : Nat) :
    (trail : List Literal) → Resolvent → Option (Literal × Clause)
  | [], _ => none
  | literal :: trail, resolvent =>
    if !resolvent.seen.contains literal.var then resolve? values lastLevel trail resolvent
    else if resolvent.recent ≤ 1 then some (literal.negate, resolvent.earlier)
    else
      let reason := ((values.get? literal.var).map VariableValue.reason).getD []
      resolve? values lastLevel trail
        (reason.foldl (add values lastLevel) { resolvent with recent := resolvent.recent - 1 })

end Resolvent

/-- How a search decides. -/
structure SearchStrategy where
  /-- The value that is preferred for the least variable without a value. -/
  preferred : Bool
  /-- Clauses that were learned last are served first. -/
  servesLearned : Bool

namespace SearchStrategy

/-- Decides for the variables in increasing order. -/
def ordered (preferred : Bool) : SearchStrategy := ⟨preferred, false⟩

/-- Lets the learned clauses guide the decisions. -/
def guided : SearchStrategy := ⟨true, true⟩

end SearchStrategy

/-- A literal that has to become true. -/
structure ForcedLiteral where
  literal : Literal
  /-- The clause whose other literals are false. It is empty for a decision. -/
  reason : Clause

/-- A clause with two of its literals. If one of them is false, the other one is true, or it is
queued to become true. -/
structure WatchedClause where
  clause : Clause
  first : Literal
  second : Literal

/-- The state of a search. -/
structure ClauseSearch where
  /-- The watched clauses of the formula, followed by those that were learned. -/
  clauses : Array WatchedClause := #[]
  /-- For each literal the numbers of the clauses that watch it. -/
  watchers : Array (List Nat)
  values : PartialValuation
  /-- The literals that became true, the last one first. -/
  trail : List Literal := []
  /-- The literals that have to become true. -/
  queue : Std.Queue ForcedLiteral := ∅
  /-- All smaller variables have a value. -/
  next : Nat := 1
  /-- For each decision what was the next variable before it. -/
  decisions : Array Nat := #[]
  /-- The learned clauses, the last one first. -/
  learned : List Clause := []
  /-- Those learned clauses that may still be served. -/
  unserved : List Clause := []

/-- What comes of a step of a search. -/
inductive SearchProgress where
  | running (search : ClauseSearch)
  /-- A clause has become false. -/
  | conflict (clause : Clause) (search : ClauseSearch)
  /-- All variables have a value and no clause is false. -/
  | satisfied (values : PartialValuation)

namespace ClauseSearch

/-- The position of a literal in a table of literals. -/
@[inline]
def position (literal : Literal) : Nat :=
  2 * literal.var + if literal.positive then 1 else 0

/-- Adds a clause that watches two of its literals. -/
def watch (search : ClauseSearch) (clause : Clause) (first second : Literal) : ClauseSearch :=
  let number := search.clauses.size
  { search with
    clauses := search.clauses.push ⟨clause, first, second⟩
    watchers := (search.watchers.modify (position first) (number :: ·)).modify (position second)
      (number :: ·) }

/-- Adds a clause of the formula. -/
def addClause (search : ClauseSearch) (clause : Clause) : ClauseSearch :=
  match clause with
  | [] => search
  | [literal] => { search with queue := search.queue.enqueue ⟨literal, clause⟩ }
  | first :: second :: _ => search.watch clause first second

/-- The search at its start. -/
def ofFormula (formula : Formula) : ClauseSearch :=
  formula.clauses.foldl addClause
    { watchers := Array.replicate (2 * formula.variableCount + 2) []
      values := Array.replicate (formula.variableCount + 1) none }

/-- Visits clauses that watch a literal which has become false. A clause watches another literal
instead, if there is one that is not false. Otherwise it forces its other watched literal. -/
def visit (values : PartialValuation) (falsified : Literal) :
    (numbers : List Nat) → Array WatchedClause → (watchers : Array (List Nat)) →
      (queue : Std.Queue ForcedLiteral) →
        Array WatchedClause × Array (List Nat) × Std.Queue ForcedLiteral
  | [], clauses, watchers, queue => (clauses, watchers, queue)
  | number :: numbers, clauses, watchers, queue =>
    match clauses[number]? with
    | none => visit values falsified numbers clauses watchers queue
    | some { clause, first, second } =>
      let other := if first == falsified then second else first
      let replacement? :=
        if values.isTrue other then none
        else clause.find? fun literal => literal != other && !values.isFalse literal
      match replacement? with
      | none =>
        visit values falsified numbers clauses
          (watchers.modify (position falsified) (number :: ·))
          (if values.isTrue other then queue else queue.enqueue ⟨other, clause⟩)
      | some literal =>
        visit values falsified numbers (clauses.setIfInBounds number ⟨clause, other, literal⟩)
          (watchers.modify (position literal) (number :: ·)) queue

/-- Makes a literal true whose variable has no value. -/
def assign (search : ClauseSearch) (forced : ForcedLiteral) : ClauseSearch :=
  let { clauses, watchers, values, trail, queue, next, decisions, learned, unserved } := search
  let literal := forced.literal
  let falsified := literal.negate
  let numbers := (watchers[position falsified]?).getD []
  let values := values.setIfInBounds literal.var
    (some ⟨literal.positive, decisions.size, forced.reason⟩)
  let watchers := watchers.setIfInBounds (position falsified) []
  let (clauses, watchers, queue) := visit values falsified numbers clauses watchers queue
  let trail := literal :: trail
  { clauses, watchers, values, trail, queue, next, decisions, learned, unserved }

/-- Decides for a literal. -/
def decide (search : ClauseSearch) (literal : Literal) : ClauseSearch :=
  { search with
    decisions := search.decisions.push search.next
    queue := search.queue.enqueue ⟨literal, []⟩ }

/-- Takes back the values above a level along a trail. -/
def retract (level : Nat) :
    (trail : List Literal) → PartialValuation → List Literal × PartialValuation
  | [], values => ([], values)
  | literal :: trail, values =>
    if values.level literal ≤ level then (literal :: trail, values)
    else retract level trail (values.setIfInBounds literal.var none)

/-- Learns from a clause that is false, and goes back to the first level at which the learned clause
forces its literal of the last level. -/
def learn (strategy : SearchStrategy) (search : ClauseSearch) (conflict : Clause) : ClauseSearch :=
  let lastLevel := search.decisions.size
  let start := conflict.foldl (Resolvent.add search.values lastLevel) {}
  match start.resolve? search.values lastLevel search.trail with
  | none => search
  | some (literal, others) =>
    let clause := literal :: others
    let partner? := search.values.highest? others
    let level := (partner?.map search.values.level).getD 0
    let (trail, values) := retract level search.trail search.values
    let learned := clause :: search.learned
    let search :=
      { search with
        trail
        values
        queue := (∅ : Std.Queue ForcedLiteral).enqueue ⟨literal, clause⟩
        next := (search.decisions[level]?).getD search.next
        decisions := search.decisions.take level
        learned
        unserved := if strategy.servesLearned then learned else [] }
    match partner? with
    | some partner => search.watch clause literal partner
    | none => search

/-- Makes one queued literal true. If it is false already, then so is the clause that forces it. If
nothing is queued, a decision is made. -/
def step (strategy : SearchStrategy) (search : ClauseSearch) : SearchProgress :=
  match search.queue.dequeue? with
  | some (forced, queue) =>
    match search.values.get? forced.literal.var with
    | none => .running ({ search with queue }.assign forced)
    | some known =>
      if known.value == forced.literal.positive then .running { search with queue }
      else .conflict forced.reason { search with queue }
  | none =>
    match search.unserved with
    | clause :: unserved =>
      let open? :=
        if clause.any search.values.isTrue then none
        else clause.find? (!search.values.isFalse ·)
      match open? with
      | some literal => .running (search.decide literal)
      | none => .running { search with unserved }
    | [] =>
      if search.values.size ≤ search.next then .satisfied search.values
      else if (search.values.get? search.next).isSome then
        .running { search with next := search.next + 1 }
      else .running (search.decide ⟨search.next, strategy.preferred⟩)

/-- Follows a search for a number of steps, or until there is something to report. -/
def advance (strategy : SearchStrategy) : (steps : Nat) → ClauseSearch → SearchProgress
  | 0, search => .running search
  | steps + 1, search =>
    match search.step strategy with
    | .running search => advance strategy steps search
    | .conflict clause search => .conflict clause search
    | .satisfied values => .satisfied values

/-- The steps that a search takes at most before the next clause becomes false. -/
def stepsPerRound (search : ClauseSearch) : Nat :=
  4 * (2 * search.clauses.size + search.values.size + 1)

/-- Follows a search to its end, for a number of rounds each of which ends when a clause is
learned. -/
def run (strategy : SearchStrategy) : (rounds : Nat) → ClauseSearch → Option PartialValuation
  | 0, _ => none
  | rounds + 1, search =>
    match search.advance strategy search.stepsPerRound with
    | .running search => run strategy rounds search
    | .satisfied values => some values
    | .conflict clause search =>
      if search.decisions.isEmpty then none
      else run strategy rounds (search.learn strategy clause)

end ClauseSearch

namespace Formula

/-- A satisfying valuation, if there is one. The search ends because no clause is learned twice,
and there are `3 ^ variableCount` clauses. -/
def solve? (strategy : SearchStrategy) (formula : Formula) : Option Valuation :=
  if formula.clauses.any List.isEmpty then none
  else
    let rounds := Nat.pow 3 formula.variableCount + 1
    ((ClauseSearch.ofFormula formula).run strategy rounds).map fun values v =>
      (values.get? v).any VariableValue.value

/-- The first satisfying valuation in the order where the preferred value comes first. All other
variables are false. -/
def extreme? (preferred : Bool) (formula : Formula) : Option Valuation :=
  formula.solve? (.ordered preferred)

end Formula

end ConceptUnification
